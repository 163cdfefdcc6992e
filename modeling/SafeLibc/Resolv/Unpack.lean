import SafeLibc.Resolv.Message
import SafeLibc.Resolv.Skip

/-!
# Decoding a PTR target: the Rust validator against the C resolver

`___ns_name_unpack` decodes a compressed name into a buffer, bounding the decoded length by the
buffer and the bytes it looks at by the message; `__res_binary_hnok` then checks the decoded name.
The Rust validator bounds the pointer depth and the labels of each run instead.

`NameAt` is a name as it lies in a message, whatever the bounds: the labels along its pointer
chain, where the name field ends, and how many bytes are read up to the last pointer.
`nsNameUnpackLoop_eq` gives the C decoder on every such name, and `validateHostnameNameField_nameAt`
finds the name behind the validator's verdict.
-/

namespace SafeLibc.Resolv

open SafeLibc.Lib List

/-! ## The C decoder -/

/-- `NS_MAXCDNAME`: the size of the name buffer of `nss_dns`. -/
def nsMaxcdname : Nat := 255

/-- The `while` loop of `___ns_name_unpack` at `srcp`, with the bytes written so far, `len` (`none`
for -1) and `checked`. The outer `none` is an access outside the message or the buffer, `some none`
the return of -1. -/
def nsNameUnpackLoop (msg : List UInt8) (src dstsiz srcp : Nat) (dst : List UInt8)
    (len : Option Nat) (checked : Nat) : Option (Option (Nat × List UInt8)) :=
  match msg[srcp]? with
  | none => none
  | some b =>
    let n := b.toNat
    let srcp' := srcp + 1
    if n = 0 then
      if dst.length < dstsiz then some (some (len.getD (srcp' - src), dst ++ [0])) else none
    else if n &&& 0xc0 = 0 then
      if n ≥ 64 then some none
      else if n + 1 ≥ dstsiz - dst.length || n ≥ msg.length - srcp' then some none
      else nsNameUnpackLoop msg src dstsiz (srcp' + n) (dst ++ b :: (msg.drop srcp').take n) len
        (checked + (n + 1))
    else if n &&& 0xc0 = 0xc0 then
      match msg[srcp']? with
      | none => some none
      | some lo =>
        let len' := len.getD (srcp' - src + 1)
        let target := ((n &&& 0x3f) <<< 8) ||| lo.toNat
        if target ≥ msg.length then some none
        else if checked + 2 ≥ msg.length then some none
        else nsNameUnpackLoop msg src dstsiz target dst (some len') (checked + 2)
    else some none
termination_by (dstsiz - dst.length) + (msg.length - checked)
decreasing_by
  · simp_all
    omega
  · omega

/-- `___ns_name_unpack` on a whole message: the octets consumed and the decoded name. -/
def nsNameUnpack (msg : List UInt8) (src dstsiz : Nat) : Option (Option (Nat × List UInt8)) :=
  if src ≥ msg.length then some none else nsNameUnpackLoop msg src dstsiz src [] none 0

/-! ## The C host name check -/

/-- The bytes `binary_hnok` lets through: `[0-9A-Za-z_-]`. -/
def hnokChar (ch : UInt8) : Bool :=
  (48 ≤ ch && ch ≤ 57) || (65 ≤ ch && ch ≤ 90) || (97 ≤ ch && ch ≤ 122) || ch == dash || ch == 95

/-- The loop up to `label_end`; the outer `none` is a read past the buffer, `some none` a refused
byte. -/
def hnokLabel : Nat → List UInt8 → Option (Option (List UInt8))
  | 0, dn => some (some dn)
  | _ + 1, [] => none
  | n + 1, ch :: dn => if hnokChar ch then hnokLabel n dn else some none

variable {message dn rest msg dst l : List UInt8} {labels : List (List UInt8)}
  {src o next looked dstsiz n srcp checked : Nat} {b : UInt8} {len : Option Nat}

theorem hnokLabel_length (h : hnokLabel n dn = some (some rest)) : rest.length ≤ dn.length := by
  fun_induction hnokLabel n dn with
  | case1 dn => cases h; exact le_rfl
  | case2 => cases h
  | case3 n ch dn hch ih =>
    have := ih h
    simp only [length_cons]
    omega
  | case4 => cases h

/-- `binary_hnok` on the bytes from `dn` on. -/
def binaryHnok (dn : List UInt8) : Option Bool :=
  match dn with
  | [] => none
  | labelLength :: dn =>
    if labelLength = 0 then some true
    else match _h : hnokLabel labelLength.toNat dn with
      | none => none
      | some none => some false
      | some (some rest) => binaryHnok rest
termination_by dn.length
decreasing_by
  have := hnokLabel_length _h
  simp only [List.length_cons]
  omega

def binaryLeadingDash (dn : List UInt8) : Bool :=
  dn.head? != some 0 && dn[1]? == some dash

def resBinaryHnok (dn : List UInt8) : Option Bool :=
  if binaryLeadingDash dn then some false else binaryHnok dn

/-! ## Names in a message -/

/-- `NameAt message o labels next looked`: the name at offset `o` has the given labels along its
pointer chain, its field ends before `next`, and `looked` bytes of labels and pointers are read up
to and including its last pointer. -/
inductive NameAt (message : List UInt8) : Nat → List (List UInt8) → Nat → Nat → Prop
  | root {o : Nat} (hlen : message[o]? = some 0) : NameAt message o [] (o + 1) 0
  | label {o next looked : Nat} {len : UInt8} {labels : List (List UInt8)}
      (hlen : message[o]? = some len) (hpos : 0 < len.toNat) (hmax : len.toNat ≤ dnsLabelMax)
      (hrest : NameAt message (o + 1 + len.toNat) labels next looked) :
      NameAt message o ((message.drop (o + 1)).take len.toNat :: labels) next
        (if looked = 0 then 0 else len.toNat + 1 + looked)
  | pointer {o next looked : Nat} {len lo : UInt8} {labels : List (List UInt8)}
      (hlen : message[o]? = some len) (hptr : 192 ≤ len.toNat) (hlo : message[o + 1]? = some lo)
      (hrest : NameAt message (pointerTarget len lo) labels next looked) :
      NameAt message o labels (o + 2) (looked + 2)

/-- The uncompressed form of a name, without its final zero. -/
def wireLabels (labels : List (List UInt8)) : List UInt8 :=
  labels.flatMap fun l => UInt8.ofNat l.length :: l

def wireLength (labels : List (List UInt8)) : Nat :=
  (wireLabels labels).length + 1

theorem wireLabels_cons (l : List UInt8) (labels : List (List UInt8)) :
    wireLabels (l :: labels) = UInt8.ofNat l.length :: (l ++ wireLabels labels) := by
  simp [wireLabels]

theorem NameAt.lt_length (h : NameAt message o labels next looked) : o < message.length := by
  cases h <;> exact (List.getElem?_eq_some_iff.1 ‹message[o]? = some _›).1

theorem label_length (h : o + 1 + n ≤ message.length) :
    ((message.drop (o + 1)).take n).length = n := by
  simp only [length_take, length_drop]
  omega

theorem pointerTarget_eq (len lo : UInt8) :
    pointerTarget len lo = ((len.toNat &&& 0x3f) <<< 8) ||| lo.toNat := by
  rfl

theorem nsNameUnpackLoop_label (hb : msg[srcp]? = some b) (hpos : 0 < b.toNat)
    (hmax : b.toNat ≤ dnsLabelMax) (hfit : srcp + 1 + b.toNat < msg.length) :
    nsNameUnpackLoop msg src dstsiz srcp dst len checked =
      if dstsiz ≤ dst.length + (b.toNat + 1) then some none
      else nsNameUnpackLoop msg src dstsiz (srcp + 1 + b.toNat)
        (dst ++ b :: (msg.drop (srcp + 1)).take b.toNat) len (checked + (b.toNat + 1)) := by
  have hmask := (land_eq_zero_iff b).2 hmax
  simp only [dnsLabelMax] at hmax
  have hroom : (b.toNat + 1 ≥ dstsiz - dst.length || b.toNat ≥ msg.length - (srcp + 1)) = true ↔
      dstsiz ≤ dst.length + (b.toNat + 1) := by
    simp only [Bool.or_eq_true, decide_eq_true_eq]
    omega
  rw [nsNameUnpackLoop, hb]
  simp only [hmask, ↓reduceIte, hroom, if_neg (show ¬ b.toNat = 0 by omega),
    if_neg (show ¬ b.toNat ≥ 64 by omega)]

theorem nsNameUnpackLoop_pointer {lo : UInt8} (hb : msg[srcp]? = some b) (hptr : 192 ≤ b.toNat)
    (hlo : msg[srcp + 1]? = some lo) (htarget : pointerTarget b lo < msg.length) :
    nsNameUnpackLoop msg src dstsiz srcp dst len checked =
      if msg.length ≤ checked + 2 then some none
      else nsNameUnpackLoop msg src dstsiz (pointerTarget b lo) dst
        (some (len.getD (srcp + 1 - src + 1))) (checked + 2) := by
  have hpointer := (land_eq_pointer_iff b).2 hptr
  rw [pointerTarget_eq] at htarget
  rw [nsNameUnpackLoop, hb]
  simp only [hpointer, hlo, if_neg (show ¬ b.toNat = 0 by omega), if_neg (not_le.2 htarget)]
  rfl

/-- **The C decoder on a name**: it succeeds exactly when the decoded name fits the buffer and the
bytes read up to the last pointer are fewer than the message's. -/
theorem nsNameUnpackLoop_eq (h : NameAt message o labels next looked) (dst : List UInt8)
    (len : Option Nat) (checked : Nat) (hsrc : len = none → src ≤ o) (hdst : dst.length < dstsiz) :
    nsNameUnpackLoop message src dstsiz o dst len checked =
      if dst.length + wireLength labels ≤ dstsiz ∧
          (looked = 0 ∨ checked + looked < message.length) then
        some (some (len.getD (next - src), dst ++ wireLabels labels ++ [0]))
      else some none := by
  induction h generalizing dst len checked with
  | root hlen =>
    have hroom : dst.length + wireLength [] ≤ dstsiz := hdst
    rw [nsNameUnpackLoop, hlen, if_pos ⟨hroom, .inl rfl⟩]
    simp [wireLabels, hdst]
  | @label o next looked b labels hlen hpos hmax hrest ih =>
    have hfit := hrest.lt_length
    have hlabel := label_length (le_of_lt hfit)
    have hlength : wireLength ((message.drop (o + 1)).take b.toNat :: labels) =
        b.toNat + 1 + wireLength labels := by
      simp only [wireLength, wireLabels_cons, length_cons, length_append]
      omega
    have hbytes : wireLabels ((message.drop (o + 1)).take b.toNat :: labels) =
        b :: ((message.drop (o + 1)).take b.toNat ++ wireLabels labels) := by
      rw [wireLabels_cons, hlabel, UInt8.ofNat_toNat]
    rw [nsNameUnpackLoop_label hlen hpos hmax hfit, hlength, hbytes]
    by_cases hroom : dstsiz ≤ dst.length + (b.toNat + 1)
    · rw [if_pos hroom, if_neg]
      unfold wireLength
      omega
    · have hdst' : (dst ++ b :: (message.drop (o + 1)).take b.toNat).length =
          dst.length + (b.toNat + 1) := by
        rw [length_append, length_cons, hlabel]
      rw [if_neg hroom, ih _ _ _ (fun hnone => by have := hsrc hnone; omega) (by omega), hdst']
      congr 1
      · rw [add_assoc dst.length]
        apply propext (and_congr_right _)
        intro _
        split <;> omega
      · simp
  | @pointer o next looked b lo labels hlen hptr hlo hrest ih =>
    rw [nsNameUnpackLoop_pointer hlen hptr hlo hrest.lt_length]
    by_cases hloop : message.length ≤ checked + 2
    · rw [if_pos hloop, if_neg (by omega)]
    · rw [if_neg hloop, ih _ _ _ (fun hnone => by cases hnone) hdst]
      have hlen' : len.getD (o + 1 - src + 1) = len.getD (o + 2 - src) := by
        cases len with
        | none => have := hsrc rfl; simp only [Option.getD_none]; omega
        | some k => rfl
      rw [hlen']
      congr 1
      apply propext (and_congr_right _)
      intro _
      omega

theorem nsNameUnpack_eq (h : NameAt message src labels next looked) :
    nsNameUnpack message src nsMaxcdname =
      if wireLength labels ≤ nsMaxcdname ∧ looked < message.length then
        some (some (next - src, wireLabels labels ++ [0]))
      else some none := by
  have hlt := h.lt_length
  rw [nsNameUnpack, if_neg (by omega), nsNameUnpackLoop_eq h [] none 0 (fun _ => le_rfl)
    (by decide)]
  have hcond : (looked = 0 ∨ looked < message.length) ↔ looked < message.length := by omega
  simp only [length_nil, zero_add, nil_append, Option.getD_none, hcond]

/-! ## Hostile messages -/

/-- From any place the decoder stays in the message and in the buffer, and the length that it
returns is the one fixed at the first pointer, or what the other walker skips. -/
theorem nsNameUnpackLoop_inside (hsrcp : srcp < msg.length) (hdst : dst.length < dstsiz)
    (hsrc : len = none → src ≤ srcp) :
    ∃ r, nsNameUnpackLoop msg src dstsiz srcp dst len checked = some r ∧
      ∀ n out, r = some (n, out) → out.length ≤ dstsiz ∧ (∀ k, len = some k → n = k) ∧
        (len = none → cNsNameSkipLoop msg srcp msg.length = some (some (src + n))) := by
  fun_induction nsNameUnpackLoop msg src dstsiz srcp dst len checked with
  | case1 srcp dst len checked hread =>
    have := getElem?_eq_none_iff.1 hread
    omega
  | case2 srcp dst len checked b hread n srcp' hzero hroom =>
    refine ⟨_, rfl, ?_⟩
    rintro _ _ ⟨⟩
    refine ⟨by rw [length_append]; exact hroom, by rintro k rfl; rfl, ?_⟩
    rintro rfl
    have := hsrc rfl
    rw [cNsNameSkipLoop_step hsrcp hread, if_pos hzero, Option.getD_none,
      show src + (srcp' - src) = srcp + 1 by omega]
  | case3 => omega
  | case6 srcp dst len checked b hread n srcp' hzero hmask _ hfit ih =>
    simp only [Bool.or_eq_true, decide_eq_true_eq, not_or] at hfit
    have hlabel := label_length (o := srcp) (show srcp + 1 + n ≤ msg.length by omega)
    obtain ⟨r, hr, hspec⟩ := ih (by omega)
      (by rw [length_append, length_cons, hlabel]; omega)
        (fun hnone => by have := hsrc hnone; omega)
    refine ⟨r, hr, fun n' out hout => ?_⟩
    obtain ⟨hlength, hlen, hskip⟩ := hspec n' out hout
    refine ⟨hlength, hlen, fun hnone => ?_⟩
    rw [cNsNameSkipLoop_step hsrcp hread, if_neg hzero, if_pos ((land_eq_zero_iff b).1 hmask),
      if_neg (by omega), hskip hnone]
  | case10 srcp dst len checked b hread n srcp' hzero hmask hptr lo hlo len'
      target htarget hloop ih =>
    obtain ⟨r, hr, hspec⟩ := ih (by omega) hdst (fun hnone => by cases hnone)
    refine ⟨r, hr, fun n' out hout => ?_⟩
    obtain ⟨hlength, hlen, -⟩ := hspec n' out hout
    obtain rfl := hlen _ rfl
    have hptr' := (land_eq_pointer_iff b).1 hptr
    have := (List.getElem?_eq_some_iff.1 hlo).1
    refine ⟨hlength, by rintro k rfl; rfl, ?_⟩
    rintro rfl
    have := hsrc rfl
    rw [cNsNameSkipLoop_step hsrcp hread, if_neg hzero, if_neg (not_le_of_pointer hptr'),
      if_pos hptr', if_neg (by omega),
      show src + len' = srcp + 2 by simp only [len', Option.getD_none]; omega]
  | _ => exact ⟨none, rfl, by simp⟩

theorem nsNameUnpack_inside (msg : List UInt8) (src : Nat) {dstsiz : Nat} (hdst : 1 ≤ dstsiz) :
    ∃ r, nsNameUnpack msg src dstsiz = some r ∧ ∀ n out, r = some (n, out) →
      out.length ≤ dstsiz ∧ cNsNameSkip msg src msg.length = some (0, src + n) := by
  unfold nsNameUnpack
  split
  · exact ⟨none, rfl, by simp⟩
  · next hsrc =>
    have hroom : ([] : List UInt8).length < dstsiz := hdst
    obtain ⟨r, hr, hspec⟩ := nsNameUnpackLoop_inside (not_le.1 hsrc) hroom (fun _ => le_refl src)
    refine ⟨r, hr, fun n out hout => ?_⟩
    obtain ⟨hlength, -, hskip⟩ := hspec n out hout
    rw [cNsNameSkip, hskip rfl]
    exact ⟨hlength, rfl⟩

/-! ## The counters of the C decoder

`len` and `checked` are of type `int`. `nsNameUnpackIntLoop` is the loop with these, and with the
bytes that are in the buffer when it ends, however it ends. -/

/-- With a length, with -1, at an access outside the message or the buffer, or in an overflow of a
counter. -/
inductive UnpackEnd
  | length (len : Int)
  | failed
  | outside
  | overflow
  deriving DecidableEq, Repr

structure Unpacking where
  stored : List UInt8
  ending : UnpackEnd
  deriving DecidableEq, Repr

/-- The distance of two pointers as an `int`, unless `len` has been set. -/
def lengthOr (len : Int) (srcp src : Nat) : Int :=
  if len < 0 then ((srcp : Int) - src).bmod (2 ^ 32) else len

def nsNameUnpackIntLoop (msg : List UInt8) (src dstsiz srcp : Nat) (dst : List UInt8) (len : Int)
    (checked : Nat) : Unpacking :=
  match msg[srcp]? with
  | none => ⟨dst, .outside⟩
  | some b =>
    let n := b.toNat
    let srcp' := srcp + 1
    if n = 0 then
      if dst.length < dstsiz then ⟨dst ++ [0], .length (lengthOr len srcp' src)⟩
      else ⟨dst, .outside⟩
    else if n &&& 0xc0 = 0 then
      if n ≥ 64 then ⟨dst, .failed⟩
      else if n + 1 ≥ dstsiz - dst.length || n ≥ msg.length - srcp' then ⟨dst, .failed⟩
      else if checked + (n + 1) ≥ 2 ^ 31 then ⟨dst, .overflow⟩
      else nsNameUnpackIntLoop msg src dstsiz (srcp' + n) (dst ++ b :: (msg.drop srcp').take n) len
        (checked + (n + 1))
    else if n &&& 0xc0 = 0xc0 then
      match msg[srcp']? with
      | none => ⟨dst, .failed⟩
      | some lo =>
        let target := ((n &&& 0x3f) <<< 8) ||| lo.toNat
        if target ≥ msg.length then ⟨dst, .failed⟩
        else if checked + 2 ≥ 2 ^ 31 then ⟨dst, .overflow⟩
        else if checked + 2 ≥ msg.length then ⟨dst, .failed⟩
        else nsNameUnpackIntLoop msg src dstsiz target dst (lengthOr len (srcp' + 1) src)
          (checked + 2)
    else ⟨dst, .failed⟩
termination_by 2 ^ 31 - checked

/-- `___ns_name_unpack` with its own counters. -/
def nsNameUnpackInt (msg : List UInt8) (src dstsiz : Nat) : Unpacking :=
  if src ≥ msg.length then ⟨[], .failed⟩ else nsNameUnpackIntLoop msg src dstsiz src [] (-1) 0

theorem lengthOr_getD {k : Nat} (hsrc : len = none → src ≤ k ∧ k - src < 2 ^ 31) :
    lengthOr (len.elim (-1) (↑)) k src = (len.getD (k - src) : Nat) := by
  unfold lengthOr
  cases hnone : len with
  | none =>
    have := hsrc hnone
    rw [if_pos (by simp), Option.getD_none, Int.bmod_eq_of_le (by omega) (by omega)]
    omega
  | some l => rw [if_neg (by simp), Option.elim_some, Option.getD_some]

/-- In a message that is small enough no counter overflows, and what is stored fits, in runs that
fail too. After a pointer fewer bytes have been checked than the message has; after that a byte is
checked once for each place of the message, and once for each byte stored. -/
theorem nsNameUnpackIntLoop_eq (hsmall : msg.length + min msg.length dstsiz < 2 ^ 31)
    (hsrcp : srcp < msg.length) (hdst : dst.length < dstsiz)
    (hplaces : checked + (msg.length - srcp) < 2 * msg.length)
    (hstored : checked + (dstsiz - dst.length) < msg.length + dstsiz)
    (hsrc : len = none → src ≤ srcp) :
    (nsNameUnpackIntLoop msg src dstsiz srcp dst (len.elim (-1) (↑)) checked).stored.length ≤
      dstsiz ∧
      ∃ r, nsNameUnpackLoop msg src dstsiz srcp dst len checked = some r ∧
        (nsNameUnpackIntLoop msg src dstsiz srcp dst (len.elim (-1) (↑)) checked).ending =
          r.elim .failed fun name => .length name.1 := by
  have hmin := min_le_iff.1 (le_refl (min msg.length dstsiz))
  fun_induction nsNameUnpackLoop msg src dstsiz srcp dst len checked with
  | case1 srcp dst len checked hread =>
    have := getElem?_eq_none_iff.1 hread
    omega
  | case2 srcp dst len checked b hread n srcp' hzero hroom =>
    have hlength : lengthOr (len.elim (-1) (↑)) (srcp + 1) src = _ := lengthOr_getD
      fun hnone => by have := hsrc hnone; omega
    rw [nsNameUnpackIntLoop]
    simp only [hread, n, hzero, if_true, if_pos hroom, hlength, length_append, length_singleton]
    exact ⟨hroom, _, rfl, rfl⟩
  | case3 => omega
  | case4 srcp dst len checked b hread n hzero hmask hlarge =>
    rw [nsNameUnpackIntLoop]
    simp only [hread]
    rw [if_neg hzero, if_pos hmask, if_pos hlarge]
    exact ⟨le_of_lt hdst, _, rfl, rfl⟩
  | case5 srcp dst len checked b hread n srcp' hzero hmask hlarge hlimit =>
    rw [nsNameUnpackIntLoop]
    simp only [hread]
    rw [if_neg hzero, if_pos hmask, if_neg hlarge, if_pos hlimit]
    exact ⟨le_of_lt hdst, _, rfl, rfl⟩
  | case6 srcp dst len checked b hread n srcp' hzero hmask hlarge hfit ih =>
    rw [nsNameUnpackIntLoop]
    simp only [hread]
    rw [if_neg hzero, if_pos hmask, if_neg hlarge, if_neg hfit]
    simp only [Bool.or_eq_true, decide_eq_true_eq, not_or] at hfit
    have hlabel := label_length (o := srcp) (show srcp + 1 + n ≤ msg.length by omega)
    rw [if_neg (by omega)]
    refine ih (by omega) ?_ (by omega) ?_ (fun hnone => by have := hsrc hnone; omega) <;>
      rw [length_append, length_cons, hlabel] <;> omega
  | case7 srcp dst len checked b hread n srcp' hzero hmask hptr hlo =>
    rw [nsNameUnpackIntLoop]
    simp only [hread, show msg[srcp + 1]? = none from hlo]
    rw [if_neg hzero, if_neg hmask, if_pos hptr]
    exact ⟨le_of_lt hdst, _, rfl, rfl⟩
  | case8 srcp dst len checked b hread n srcp' hzero hmask hptr lo hlo target htarget =>
    rw [nsNameUnpackIntLoop]
    simp only [hread, show msg[srcp + 1]? = some lo from hlo]
    rw [if_neg hzero, if_neg hmask, if_pos hptr, if_pos htarget]
    exact ⟨le_of_lt hdst, _, rfl, rfl⟩
  | case9 srcp dst len checked b hread n srcp' hzero hmask hptr lo hlo target htarget hloop =>
    have hlt := (List.getElem?_eq_some_iff.1 hlo).1
    rw [nsNameUnpackIntLoop]
    simp only [hread, show msg[srcp + 1]? = some lo from hlo]
    rw [if_neg hzero, if_neg hmask, if_pos hptr, if_neg htarget, if_neg (by omega), if_pos hloop]
    exact ⟨le_of_lt hdst, _, rfl, rfl⟩
  | case10 srcp dst len checked b hread n srcp' hzero hmask hptr lo hlo len'
      target htarget hloop ih =>
    have hlt := (List.getElem?_eq_some_iff.1 hlo).1
    have hlength : lengthOr (len.elim (-1) (↑)) (srcp + 1 + 1) src = (len' : Nat) := by
      rw [lengthOr_getD fun hnone => by have := hsrc hnone; omega]
      cases hnone : len with
      | none => have := hsrc hnone; simp only [len', hnone, Option.getD_none]; omega
      | some l => simp only [len', hnone, Option.getD_some]
    rw [nsNameUnpackIntLoop]
    simp only [hread, show msg[srcp + 1]? = some lo from hlo]
    rw [if_neg hzero, if_neg hmask, if_pos hptr, if_neg htarget, if_neg (by omega), if_neg hloop,
      hlength]
    exact ih (by omega) hdst (by omega) (by omega) (fun hnone => by cases hnone)
  | case11 srcp dst len checked b hread n hzero hmask hptr =>
    rw [nsNameUnpackIntLoop]
    simp only [hread]
    rw [if_neg hzero, if_neg hmask, if_neg hptr]
    exact ⟨le_of_lt hdst, _, rfl, rfl⟩

/-- Whatever the message, the decoder ends, with a length or with -1, has read inside the message
and has stored inside the buffer, and `cNsNameSkip` moves by the length returned. A counter of type
`int` is large enough for a message whose size, with the smaller of the two sizes once more, is
below `2 ^ 31`. -/
theorem nsNameUnpackInt_inside (msg : List UInt8) (src : Nat) {dstsiz : Nat} (hdst : 1 ≤ dstsiz)
    (hsmall : msg.length + min msg.length dstsiz < 2 ^ 31) :
    (nsNameUnpackInt msg src dstsiz).stored.length ≤ dstsiz ∧
      ((nsNameUnpackInt msg src dstsiz).ending = .failed ∨
        ∃ n : Nat, (nsNameUnpackInt msg src dstsiz).ending = .length n ∧
          cNsNameSkip msg src msg.length = some (0, src + n)) := by
  obtain ⟨r, hr, hspec⟩ := nsNameUnpack_inside msg src hdst
  unfold nsNameUnpackInt
  split
  · exact ⟨Nat.zero_le _, .inl rfl⟩
  · next hsrc =>
    rw [nsNameUnpack, if_neg hsrc] at hr
    have hsrcp := not_le.1 hsrc
    obtain ⟨hstored, r', hr', hending⟩ := nsNameUnpackIntLoop_eq hsmall hsrcp
      (show ([] : List UInt8).length < dstsiz from hdst)
      (show 0 + (msg.length - src) < 2 * msg.length by omega) (by simp; omega)
      fun _ : none = none => le_refl src
    obtain rfl : r = r' := Option.some.inj (hr.symm.trans hr')
    refine ⟨hstored, ?_⟩
    cases r with
    | none => exact .inl hending
    | some name => exact .inr ⟨name.1, hending, (hspec name.1 name.2 rfl).2⟩

theorem nsNameUnpackInt_inside_pointer :
    (nsNameUnpackInt [1, 97, 0, 1, 98, 0xc0, 0] 3 255).ending = .length 4 ∧
      (nsNameUnpackInt [1, 97, 0, 1, 98, 0xc0, 0] 3 255).stored.length ≤ 255 ∧
      ((nsNameUnpackInt [1, 97, 0, 1, 98, 0xc0, 0] 3 255).ending = .failed ∨
        ∃ n : Nat, (nsNameUnpackInt [1, 97, 0, 1, 98, 0xc0, 0] 3 255).ending = .length n ∧
          cNsNameSkip [1, 97, 0, 1, 98, 0xc0, 0] 3 7 = some (0, 3 + n)) :=
  ⟨by simp [nsNameUnpackInt, nsNameUnpackIntLoop, lengthOr, Int.bmod],
    nsNameUnpackInt_inside [1, 97, 0, 1, 98, 0xc0, 0] 3 (by decide) (by decide)⟩

/-- A name that is a pointer to itself, with `pad` bytes behind it. -/
def pointerCycle (pad : Nat) : List UInt8 := 0xc0 :: 0 :: replicate pad 0

/-- A turn of the cycle adds two to `checked`. -/
theorem nsNameUnpackIntLoop_pointerCycle (pad dstsiz : Nat) (len : Int) (checked : Nat) :
    nsNameUnpackIntLoop (pointerCycle pad) 0 dstsiz 0 [] len checked =
      if checked + 2 ≥ 2 ^ 31 then ⟨[], .overflow⟩
      else if checked + 2 ≥ pad + 2 then ⟨[], .failed⟩
      else nsNameUnpackIntLoop (pointerCycle pad) 0 dstsiz 0 []
        (lengthOr len 2 0) (checked + 2) := by
  have hlength : (pointerCycle pad).length = pad + 2 := by simp [pointerCycle]
  rw [nsNameUnpackIntLoop]
  simp only [show (pointerCycle pad)[0]? = some 0xc0 from rfl,
    show (pointerCycle pad)[0 + 1]? = some 0 from rfl, hlength]
  rw [if_neg (by decide), if_neg (by decide), if_pos (by decide),
    show ((0xc0 : UInt8).toNat &&& 0x3f) <<< 8 ||| (0 : UInt8).toNat = 0 by decide,
    if_neg (by omega)]

/-- In a message of `2 ^ 31 - 1` bytes or more `checked` overflows before it reaches the size. -/
theorem nsNameUnpackInt_pointerCycle {pad : Nat} (hpad : 2 ^ 31 ≤ pad + 3) (dstsiz : Nat) :
    (nsNameUnpackInt (pointerCycle pad) 0 dstsiz).ending = .overflow := by
  have hturns : ∀ turns checked len, checked + 2 * turns + 2 = 2 ^ 31 →
      (nsNameUnpackIntLoop (pointerCycle pad) 0 dstsiz 0 [] len checked).ending = .overflow := by
    intro turns
    induction turns with
    | zero =>
      intro checked len hchecked
      rw [nsNameUnpackIntLoop_pointerCycle, if_pos (by omega)]
    | succ turns ih =>
      intro checked len hchecked
      rw [nsNameUnpackIntLoop_pointerCycle, if_neg (by omega), if_neg (by omega)]
      exact ih _ _ (by omega)
  rw [nsNameUnpackInt, if_neg (by simp [pointerCycle])]
  exact hturns (2 ^ 30 - 1) 0 (-1) (by omega)

theorem nsNameUnpackInt_overflow :
    (nsNameUnpackInt (pointerCycle (2 ^ 31 - 3)) 0 1).ending = .overflow :=
  nsNameUnpackInt_pointerCycle (by omega) 1

theorem nameAt_of_nsNameUnpackLoop {r : Nat × List UInt8}
    (h : nsNameUnpackLoop msg src dstsiz srcp dst len checked = some (some r)) :
    ∃ labels next looked, NameAt msg srcp labels next looked := by
  fun_induction nsNameUnpackLoop msg src dstsiz srcp dst len checked with
  | case2 srcp dst len checked b hread n srcp' hzero =>
    rw [(toNat_eq_zero_iff b).1 hzero] at hread
    exact ⟨[], _, _, .root hread⟩
  | case6 srcp dst len checked b hread n srcp' hzero hmask _ _ ih =>
    obtain ⟨labels, next, looked, hrest⟩ := ih h
    exact ⟨_, next, _, .label hread (by omega) ((land_eq_zero_iff b).1 hmask) hrest⟩
  | case10 srcp dst len checked b hread n srcp' hzero hmask hptr lo hlo len' target _ _ ih =>
    obtain ⟨labels, next, looked, hrest⟩ := ih h
    exact ⟨labels, _, _, .pointer hread ((land_eq_pointer_iff b).1 hptr) hlo hrest⟩
  | _ => cases h

/-- On any message the decoder succeeds exactly on a name whose chain of pointers ends before the
whole message is read and whose uncompressed form fits; the result is that form. -/
theorem nsNameUnpack_eq_some_iff (message : List UInt8) (src : Nat) (r : Nat × List UInt8) :
    nsNameUnpack message src nsMaxcdname = some (some r) ↔
      ∃ labels next looked, NameAt message src labels next looked ∧
        wireLength labels ≤ nsMaxcdname ∧
        looked < message.length ∧ r = (next - src, wireLabels labels ++ [0]) := by
  constructor
  · intro h
    have hloop := h
    unfold nsNameUnpack at hloop
    split at hloop
    · cases hloop
    · obtain ⟨labels, next, looked, hname⟩ := nameAt_of_nsNameUnpackLoop hloop
      rw [nsNameUnpack_eq hname] at h
      split at h
      · next hfits =>
        cases h
        exact ⟨labels, next, looked, hname, hfits.1, hfits.2, rfl⟩
      · cases h
  · rintro ⟨labels, next, looked, hname, hfits, hlooked, rfl⟩
    rw [nsNameUnpack_eq hname, if_pos ⟨hfits, hlooked⟩]

/-! ## The name behind the validator's verdict -/

section Validator

variable {message : List UInt8} {labelOk : List UInt8 → Bool}

variable {limit o next : Nat} {labels : List (List UInt8)}

/-- The name at `o`, whose field ends before `next`, has only labels that pass the check. -/
def Passes (message : List UInt8) (labelOk : List UInt8 → Bool) (o next : Nat) : Prop :=
  ∃ labels looked, NameAt message o labels next looked ∧ ∀ l ∈ labels, labelOk l = true

theorem Segment.passes {stop : SegmentEnd} (h : Segment message limit labelOk o labels stop)
    (htail : ∀ target next, stop = .pointer target next →
      ∃ next', Passes message labelOk target next') :
    Passes message labelOk o stop.next := by
  induction h with
  | root _ hlen => exact ⟨[], 0, .root hlen, by simp⟩
  | label _ hlen hpos hmax hok _ ih =>
    obtain ⟨labels, looked, hname, hall⟩ := ih htail
    exact ⟨_, _, .label hlen hpos hmax hname, forall_mem_cons.2 ⟨hok, hall⟩⟩
  | pointer _ hlen hptr hnext _ =>
    obtain ⟨next', labels, looked, hname, hall⟩ := htail _ _ rfl
    exact ⟨_, _, .pointer hlen hptr hnext hname, hall⟩

/-- Every validated target is a name whose labels all pass the check. -/
theorem validateTarget_nameAt {offset depth : Nat}
    (h : validateTarget labelOk message offset depth = some ()) :
    ∃ next, Passes message labelOk offset next := by
  fun_induction validateTarget labelOk message offset depth with
  | case1 | case2 => cases h
  | case3 offset depth hdepth next hwalk =>
    obtain ⟨labels, hseg⟩ := walkLabels_segment hwalk
    exact ⟨_, hseg.passes (by simp)⟩
  | case4 offset depth hdepth target next hwalk ih =>
    obtain ⟨labels, hseg⟩ := walkLabels_segment hwalk
    refine ⟨_, hseg.passes ?_⟩
    rintro _ _ ⟨⟩
    exact ih h

end Validator

theorem validateHostnameNameField_nameAt {offset fieldEnd depth stop : Nat}
    (h : validateHostnameNameField message offset fieldEnd depth = some stop) :
    Passes message hostnameLabelIsValid offset stop := by
  unfold validateHostnameNameField at h
  split at h
  · cases h
  · split at h
    · cases h
    · next next hwalk =>
      cases h
      obtain ⟨labels, hseg⟩ := walkLabels_segment hwalk
      exact hseg.passes (by simp)
    · next target next hwalk =>
      obtain ⟨u, htarget, rfl⟩ := Option.map_eq_some_iff.1 h
      obtain ⟨labels, hseg⟩ := walkLabels_segment hwalk
      refine hseg.passes ?_
      rintro _ _ ⟨⟩
      exact validateTarget_nameAt htarget

/-! ## Accepted labels pass the C host name check -/

theorem hnokLabel_append (h : ∀ b ∈ l, hnokChar b = true) (rest : List UInt8) :
    hnokLabel l.length (l ++ rest) = some (some rest) := by
  induction l with
  | nil => rfl
  | cons b l ih =>
    rw [length_cons, cons_append, hnokLabel, if_pos (h b mem_cons_self)]
    exact ih fun b hb => h b (mem_cons_of_mem _ hb)

theorem hostnameLabelIsValid_iff : hostnameLabelIsValid l = true ↔
    l ≠ [] ∧ l.length ≤ dnsLabelMax ∧ l.head? ≠ some dash ∧ l.getLast? ≠ some dash ∧
      ∀ b ∈ l, isAsciiAlphanumeric b = true ∨ b = dash := by
  simp [hostnameLabelIsValid, and_assoc]

theorem hnokChar_of_hostname (h : isAsciiAlphanumeric b = true ∨ b = dash) : hnokChar b = true := by
  unfold hnokChar
  rcases h with h | rfl
  · simp only [isAsciiAlphanumeric] at h
    simp only [h, Bool.true_or]
  · rfl

theorem binaryHnok_label {n : UInt8} (hn : ¬ n = 0) (h : hnokLabel n.toNat dn = some (some rest)) :
    binaryHnok (n :: dn) = binaryHnok rest := by
  rw [binaryHnok, if_neg hn]
  split <;> simp_all

section

variable (h : ∀ l ∈ labels, hostnameLabelIsValid l = true)
include h

theorem binaryHnok_wireLabels :
    binaryHnok (wireLabels labels ++ [0]) = some true := by
  induction labels with
  | nil => rw [wireLabels, flatMap_nil, nil_append, binaryHnok, if_pos rfl]
  | cons l labels ih =>
    obtain ⟨hne, hmax, -, -, hchars⟩ := hostnameLabelIsValid_iff.1 (h l mem_cons_self)
    have hpos := length_pos_of_ne_nil hne
    simp only [dnsLabelMax] at hmax
    have hbyte : (UInt8.ofNat l.length).toNat = l.length := UInt8.toNat_ofNat_of_lt' (by
      simp only [UInt8.size]
      omega)
    have hzero : ¬ UInt8.ofNat l.length = 0 := by
      rw [← toNat_eq_zero_iff]
      omega
    have hlabel : hnokLabel (UInt8.ofNat l.length).toNat (l ++ (wireLabels labels ++ [0])) =
        some (some (wireLabels labels ++ [0])) := by
      rw [hbyte]
      exact hnokLabel_append (fun b hb => hnokChar_of_hostname (hchars b hb)) _
    rw [wireLabels_cons, cons_append, append_assoc, binaryHnok_label hzero hlabel]
    exact ih fun l hl => h l (mem_cons_of_mem _ hl)

theorem binaryLeadingDash_wireLabels :
    binaryLeadingDash (wireLabels labels ++ [0]) = false := by
  cases labels with
  | nil => rfl
  | cons l labels =>
    obtain ⟨hne, -, hhead, -, -⟩ := hostnameLabelIsValid_iff.1 (h l mem_cons_self)
    cases l with
    | nil => exact absurd rfl hne
    | cons b l =>
      have hb : (b == dash) = false := by simpa using hhead
      simp [binaryLeadingDash, wireLabels_cons, hb]

theorem resBinaryHnok_wireLabels :
    resBinaryHnok (wireLabels labels ++ [0]) = some true := by
  rw [resBinaryHnok, binaryLeadingDash_wireLabels h, if_neg Bool.false_ne_true,
    binaryHnok_wireLabels h]

end

/-! ## Which accepted PTR targets the C path takes -/

/-- The C path takes the RDATA of `rr`: the decoder succeeds in the buffer of `nss_dns`, consumes
the whole RDATA, and the decoded name is a host name. -/
def ResolverAccepts (message : List UInt8) (rr : ResourceRecord) : Prop :=
  ∃ name, nsNameUnpack message rr.rdataStart nsMaxcdname =
      some (some (rr.rdataEnd - rr.rdataStart, name)) ∧ resBinaryHnok name = some true

def IsFirstPtrAnswer (message : List UInt8) (rr : ResourceRecord) : Prop :=
  ∃ body left, QuestionsEnd message body ∧
    firstPtr message (headerCount message 6) body = some (rr, left)

/-- A positive verdict is about the first PTR answer and its whole RDATA. -/
theorem validPtrAnswer_firstPtr (h : validateReversePtrResponse message = .validPtrAnswer) :
    ∃ rr, IsFirstPtrAnswer message rr ∧
      validateHostnameNameField message rr.rdataStart rr.rdataEnd 0 = some rr.rdataEnd := by
  unfold validateReversePtrResponse at h
  split at h
  · next body an ns ar hbody han hns har =>
    have hbody' := skipDnsHeaderAndQuestions_eq_some.1 hbody
    have hcount : headerCount message 6 = an := by rw [headerCount, han, Option.getD_some]
    rw [scanAnswers_eq] at h
    rcases hptr : firstPtr message an body with - | ⟨rr, left⟩
    · -- without a PTR answer the verdict is "no PTR answer" or "malformed"
      exfalso
      rcases hstop : stepN (recordEnd message) an body with - | stop
      · simp [hptr, hstop] at h
      · rcases hlast : stepN (recordEnd message) (saturatingAdd 16 ns ar) stop with - | last
        · simp [hptr, hstop, hlast] at h
        · by_cases heq : last = message.length <;> simp [hptr, hstop, hlast, heq] at h
    · rw [hptr] at h
      refine ⟨rr, ⟨body, left, hbody', hcount ▸ hptr⟩, ?_⟩
      simp only [ptrStatus] at h
      split at h
      · next stop hfield =>
        split at h
        · next hstop => rw [hfield, hstop]
        · cases h
      · cases h
  · cases h

/-- **PTR targets.** For every message the validator takes as a valid PTR answer, the RDATA of the
first PTR answer is a name, and the C resolver path takes it exactly when its uncompressed form
fits 255 bytes and the bytes read up to its last compression pointer are fewer than the
message's. -/
theorem validPtrAnswer_unpack_iff (message : List UInt8)
    (h : validateReversePtrResponse message = .validPtrAnswer) :
    ∃ rr, IsFirstPtrAnswer message rr ∧
      ∃ labels looked, NameAt message rr.rdataStart labels rr.rdataEnd looked ∧
        (ResolverAccepts message rr ↔
          wireLength labels ≤ nsMaxcdname ∧ looked < message.length) := by
  obtain ⟨rr, hrr, hfield⟩ := validPtrAnswer_firstPtr h
  obtain ⟨labels, looked, hname, hok⟩ := validateHostnameNameField_nameAt hfield
  refine ⟨rr, hrr, labels, looked, hname, ?_⟩
  unfold ResolverAccepts
  rw [nsNameUnpack_eq hname]
  constructor
  · rintro ⟨name, hunpack, -⟩
    by_contra hcond
    rw [if_neg hcond] at hunpack
    cases hunpack
  · intro hcond
    exact ⟨_, if_pos hcond, resBinaryHnok_wireLabels hok⟩

/-- One answer: a PTR record of the root with the given RDATA. -/
def ptrMessage (rdata : List UInt8) : List UInt8 :=
  [0, 0, 0, 0, 0, 0, 0, 1, 0, 0, 0, 0] ++
    [0, 0, 12, 0, 1, 0, 0, 0, 0, UInt8.ofNat (rdata.length / 256), UInt8.ofNat rdata.length] ++
    rdata

def localhostName : List UInt8 :=
  [9, 108, 111, 99, 97, 108, 104, 111, 115, 116, 0]

theorem validPtrAnswer_unpack_localhost :
    validateReversePtrResponse (ptrMessage localhostName) = .validPtrAnswer ∧
    ∃ rr, IsFirstPtrAnswer (ptrMessage localhostName) rr ∧
      ∃ labels looked,
        NameAt (ptrMessage localhostName) rr.rdataStart labels rr.rdataEnd looked ∧
        (ResolverAccepts (ptrMessage localhostName) rr ↔
          wireLength labels ≤ nsMaxcdname ∧ looked < (ptrMessage localhostName).length) :=
  ⟨by decide +kernel, validPtrAnswer_unpack_iff _ (by decide +kernel)⟩

/-- Four labels of 63 letters: 257 bytes with the final zero. -/
def longName : List UInt8 :=
  (List.replicate 4 (63 :: List.replicate 63 97)).flatten ++ [0]

/-- The validator accepts a target that does not fit the resolver's buffer. -/
theorem validPtrAnswer_longName :
    validateReversePtrResponse (ptrMessage longName) = .validPtrAnswer ∧
    ∃ rr, IsFirstPtrAnswer (ptrMessage longName) rr ∧
      ¬ ResolverAccepts (ptrMessage longName) rr := by
  refine ⟨by decide +kernel, ⟨280, 12, 1, 23, 280⟩,
    ⟨12, 0, ⟨by decide +kernel, by decide +kernel⟩, by decide +kernel⟩, ?_⟩
  rintro ⟨name, hunpack, -⟩
  have hnone : nsNameUnpack (ptrMessage longName) 23 nsMaxcdname = some none := by decide +kernel
  rw [hnone] at hunpack
  cases hunpack

end SafeLibc.Resolv
