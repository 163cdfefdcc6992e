import SafeLibc.Lib.Bytes
import SafeLibc.Lib.Machine
import SafeLibc.Lib.Numerals
import SafeLibc.Lib.Str

/-!
# `inet_pton` of `resolv/inet_pton.c`

Both parsers work in one pass and write to a local array that is copied to the destination at the
end. The array is modelled by the bytes written so far, so that `tp` is their number; a store past
the array is a fault.

The standard forms are stated apart from the parsers: `Quad` for the four decimal parts of an IPv4
address, `Address6` for the hexadecimal groups, the `::` and the dotted quad of an IPv6 address. The
parsers accept these forms and no others, `accepts_inet` and `accepts_inet6`.
-/

namespace SafeLibc.Resolv.Inet

open SafeLibc.Lib List

/-! ## IPv4 -/

inductive Fault
  /-- a store outside the array `tmp` -/
  | overrun
  deriving DecidableEq, Repr

def isDigit (ch : UInt8) : Bool := byte '0' ≤ ch && ch ≤ byte '9'

/-- `ch - '0'` -/
def decimalValue (ch : UInt8) : Nat := ch.toNat - (byte '0').toNat

/-- The variables of `inet_pton4`: `tmp` below `tp`, `*tp`, `saw_digit` and `octets`. -/
structure Scan4 where
  done : List UInt8
  cur : UInt8
  sawDigit : Bool
  octets : Nat
  deriving DecidableEq, Repr

/-- A digit; `none` is the return of 0. -/
def Scan4.digit (s : Scan4) (ch : UInt8) : Option Scan4 :=
  let new := s.cur.toNat * 10 + decimalValue ch
  if s.sawDigit && s.cur = 0 then none
  else if new > 255 then none
  else if s.sawDigit then some { s with cur := UInt8.ofNat new }
  else if s.octets + 1 > 4 then none
  else some { s with cur := UInt8.ofNat new, octets := s.octets + 1, sawDigit := true }

/-- A dot after a digit; `*++tp = 0`. -/
def Scan4.dot (s : Scan4) : Except Fault (Option Scan4) :=
  if s.octets = 4 then .ok none
  else if s.done.length + 1 < 4 then
    .ok (some { s with done := s.done ++ [s.cur], cur := 0, sawDigit := false })
  else .error .overrun

def scan4 : List UInt8 → Scan4 → Except Fault (Option Scan4)
  | [], s => .ok (some s)
  | ch :: src, s =>
    if isDigit ch then
      match s.digit ch with
      | some s => scan4 src s
      | none => .ok none
    else if ch = byte '.' && s.sawDigit then do
      match ← s.dot with
      | some s => scan4 src s
      | none => .ok none
    else .ok none

/-- `inet_pton4`: the four bytes, or `none` for a return of 0. -/
def inetPton4 (src : List UInt8) : Except Fault (Option (List UInt8)) := do
  match ← scan4 src ⟨[], 0, false, 0⟩ with
  | none => .ok none
  | some s => .ok (if s.octets < 4 then none else some (s.done ++ [s.cur]))

/-! ## IPv6 -/

/-- `hex_digit_value`; `none` is -1. -/
def hexDigitValue (ch : UInt8) : Option Nat :=
  if byte '0' ≤ ch && ch ≤ byte '9' then some (decimalValue ch)
  else if byte 'a' ≤ ch && ch ≤ byte 'f' then some (ch.toNat - (byte 'a').toNat + 10)
  else if byte 'A' ≤ ch && ch ≤ byte 'F' then some (ch.toNat - (byte 'A').toNat + 10)
  else none

/-- The variables of `inet_pton6`; the text is that from `curtok` on. -/
structure Scan6 where
  out : List UInt8
  colonp : Option Nat
  curtok : List UInt8
  xdigits : Nat
  val : Nat
  deriving DecidableEq, Repr

/-- `*tp++ = val >> 8; *tp++ = val` -/
def wordBytes (val : Nat) : List UInt8 := [UInt8.ofNat (val >>> 8), UInt8.ofNat val]

def Scan6.digit (s : Scan6) (digit : Nat) : Option Scan6 :=
  let val := (s.val <<< 4) ||| digit
  if s.xdigits = 4 then none
  else if val > 0xffff then none
  else some { s with val := val, xdigits := s.xdigits + 1 }

def Scan6.colon (s : Scan6) (src : List UInt8) : Option Scan6 :=
  if s.xdigits = 0 then
    if s.colonp.isSome then none
    else some { s with colonp := some s.out.length, curtok := src }
  else if src = [] then none
  else if s.out.length + 2 > 16 then none
  else some { s with out := s.out ++ wordBytes s.val, curtok := src, xdigits := 0, val := 0 }

def scan6 : List UInt8 → Scan6 → Except Fault (Option Scan6)
  | [], s => .ok (some s)
  | ch :: src, s =>
    match hexDigitValue ch with
    | some digit =>
      match s.digit digit with
      | some s => scan6 src s
      | none => .ok none
    | none =>
      if ch = byte ':' then
        match s.colon src with
        | some s => scan6 src s
        | none => .ok none
      else if ch = byte '.' ∧ s.out.length + 4 ≤ 16 then do
        match ← inetPton4 s.curtok with
        | some quad => .ok (some { s with out := s.out ++ quad, xdigits := 0 })
        | none => .ok none
      else .ok none

def Scan6.last (s : Scan6) : Option Scan6 :=
  if s.xdigits > 0 then
    if s.out.length + 2 > 16 then none else some { s with out := s.out ++ wordBytes s.val }
  else some s

/-- Replace `::` with zeros: move what follows to the end of the array. -/
def Scan6.expand (s : Scan6) : Option (List UInt8) :=
  match s.colonp with
  | some colonp =>
    if s.out.length = 16 then none
    else
      let moved := s.out.drop colonp
      some (s.out.take colonp ++ List.replicate (16 - moved.length - colonp) 0 ++ moved)
  | none => if s.out.length ≠ 16 then none else some s.out

/-- The special handling of a leading `::`, of which the first colon is skipped. -/
def skipLeading : List UInt8 → Option (List UInt8)
  | [] => none
  | ch :: src =>
    if ch = byte ':' then
      if src.head? = some (byte ':') then some src else none
    else some (ch :: src)

/-- `inet_pton6`: the sixteen bytes, or `none` for a return of 0. -/
def inetPton6 (src : List UInt8) : Except Fault (Option (List UInt8)) :=
  match skipLeading src with
  | none => .ok none
  | some src => do
    match ← scan6 src ⟨[], none, src, 0, 0⟩ with
    | none => .ok none
    | some s => .ok (s.last.bind Scan6.expand)

/-! ## `inet_pton` -/

inductive Family
  | inet
  | inet6
  | other
  deriving DecidableEq, Repr

/-- `__inet_pton_length`: the return value and the destination, written only if that is 1. -/
def inetPton (af : Family) (src dst : List UInt8) : Except Fault (Int × List UInt8) :=
  let store (parsed : Option (List UInt8)) : Int × List UInt8 := match parsed with
    | some bytes => (1, bytes ++ dst.drop bytes.length)
    | none => (0, dst)
  match af with
  | .inet => do
    let parsed ← inetPton4 src
    .ok (store parsed)
  | .inet6 => do
    let parsed ← inetPton6 src
    .ok (store parsed)
  | .other => .ok (-1, dst)

/-! ## The standard form of an IPv4 address -/

/-- A decimal part: one to three digits that stand for a byte, without leading zeros. -/
structure DecimalPart (text : List UInt8) (v : UInt8) : Prop where
  nonempty : text ≠ []
  digits : ∀ ch ∈ text, isDigit ch = true
  leading : ∀ rest, text = byte '0' :: rest → rest = []
  value : valueOf 10 (text.map decimalValue) = v.toNat

def Quad (text : List UInt8) (bytes : List UInt8) : Prop :=
  ∃ parts, List.Forall₂ DecimalPart parts bytes ∧ bytes.length = 4 ∧
    text = [byte '.'].intercalate parts

variable {ch v : UInt8} {s s' : Scan4} {read text bytes : List UInt8}

theorem decimalValue_le (h : isDigit ch = true) : decimalValue ch ≤ 9 := by
  revert ch
  exact @forall_byte _ (by decide +kernel)

theorem eq_zero_of_decimalValue (h : isDigit ch = true) (hzero : decimalValue ch = 0) :
    ch = byte '0' := by
  revert ch
  exact @forall_byte _ (by decide +kernel)

theorem isDigit_dot : isDigit (byte '.') = false := by decide

theorem toNat_ofNat_of_le {n : Nat} (h : n ≤ 255) : (UInt8.ofNat n).toNat = n := by
  rw [UInt8.toNat_ofNat']
  omega

/-- One digit more. A part that stands for 0 is complete. -/
theorem DecimalPart.snoc (h : DecimalPart text v) (hv : v ≠ 0) (hch : isDigit ch = true)
    (hle : v.toNat * 10 + decimalValue ch ≤ 255) :
    DecimalPart (text ++ [ch]) (UInt8.ofNat (v.toNat * 10 + decimalValue ch)) where
  nonempty := by simp
  digits := by
    intro c hc
    rcases mem_append.1 hc with hc | hc
    · exact h.digits c hc
    · rw [mem_singleton.1 hc]
      exact hch
  leading := by
    intro rest heq
    obtain ⟨c, cs, hcons⟩ := exists_cons_of_ne_nil h.nonempty
    rw [hcons] at heq
    obtain ⟨rfl, -⟩ := List.cons.inj heq
    have hcs := h.leading cs hcons
    rw [hcons, hcs] at h
    exact absurd (UInt8.toNat_inj.1 h.value.symm) hv
  value := by
    rw [map_append, map_singleton, valueOf_append_singleton, h.value,
      toNat_ofNat_of_le hle]

theorem DecimalPart.single (hch : isDigit ch = true) :
    DecimalPart [ch] (UInt8.ofNat (decimalValue ch)) where
  nonempty := cons_ne_nil _ _
  digits := by
    intro c hc
    rw [mem_singleton.1 hc]
    exact hch
  leading rest heq := (List.cons.inj heq).2.symm
  value := by
    have := decimalValue_le hch
    rw [toNat_ofNat_of_le (by omega)]
    simp [valueOf]

/-! ### What is accepted has the form -/

/-- What `inet_pton4` has read: complete parts, each with its dot, and the digits of one that is
not complete. -/
structure Read4 (read : List UInt8) (s : Scan4) : Prop where
  parts : ∃ parts digits, List.Forall₂ DecimalPart parts s.done ∧
    read = parts.flatMap (· ++ [byte '.']) ++ digits ∧
    (s.sawDigit = true → DecimalPart digits s.cur ∧ s.octets = s.done.length + 1) ∧
    (s.sawDigit = false → digits = [] ∧ s.cur = 0 ∧ s.octets = s.done.length)
  room : s.done.length < 4

theorem Read4.start : Read4 [] ⟨[], 0, false, 0⟩ where
  parts := ⟨[], [], .nil, rfl, fun h => (nomatch h), fun _ => ⟨rfl, rfl, rfl⟩⟩
  room := by decide

/-- What a digit does. -/
theorem digit_eq_some_iff : s.digit ch = some s' ↔
      s.cur.toNat * 10 + decimalValue ch ≤ 255 ∧
        (s.sawDigit = true ∧ s.cur ≠ 0 ∧
            s' = { s with cur := UInt8.ofNat (s.cur.toNat * 10 + decimalValue ch) } ∨
          s.sawDigit = false ∧ s.octets < 4 ∧
            s' = { s with cur := UInt8.ofNat (s.cur.toNat * 10 + decimalValue ch),
                          octets := s.octets + 1, sawDigit := true }) := by
  unfold Scan4.digit
  cases hsaw : s.sawDigit with
  | true =>
    by_cases hzero : s.cur = 0
    · simp [hzero]
    · by_cases hbig : s.cur.toNat * 10 + decimalValue ch > 255
      · simp [hbig]
      · simp [hbig, Nat.le_of_not_lt hbig, @eq_comm _ s']
  | false =>
    by_cases hbig : s.cur.toNat * 10 + decimalValue ch > 255
    · simp [hbig]
    · by_cases hfull : s.octets < 4
      · simp [hfull, Nat.le_of_not_lt hbig, @eq_comm _ s']
      · simp [hfull]

theorem Read4.digit (h : Read4 read s) (hch : isDigit ch = true) (hstep : s.digit ch = some s') :
    Read4 (read ++ [ch]) s' := by
  obtain ⟨⟨parts, digits, hparts, rfl, hsaw, hnot⟩, hroom⟩ := h
  obtain ⟨hle, ⟨hdigit, hzero, rfl⟩ | ⟨hdigit, -, rfl⟩⟩ := digit_eq_some_iff.1 hstep
  · obtain ⟨hpart, hoctets⟩ := hsaw hdigit
    refine ⟨⟨parts, digits ++ [ch], hparts, by rw [append_assoc], fun _ => ?_, fun h => ?_⟩,
      hroom⟩
    · exact ⟨hpart.snoc hzero hch hle, hoctets⟩
    · cases hdigit.symm.trans h
  · obtain ⟨rfl, hcur, hoctets⟩ := hnot hdigit
    refine ⟨⟨parts, [ch], hparts, by simp, fun _ => ⟨?_, ?_⟩, fun h => (nomatch h)⟩, hroom⟩
    · simpa [hcur] using DecimalPart.single hch
    · exact congrArg (· + 1) hoctets

theorem Read4.dot (h : Read4 read s) (hsaw : s.sawDigit = true) :
    s.dot = .ok none ∨ ∃ s', s.dot = .ok (some s') ∧ Read4 (read ++ [byte '.']) s' := by
  obtain ⟨⟨parts, digits, hparts, rfl, hpart, -⟩, hroom⟩ := h
  obtain ⟨hpart, hoctets⟩ := hpart hsaw
  unfold Scan4.dot
  by_cases hfull : s.octets = 4
  · exact .inl (if_pos hfull)
  · have hless : s.done.length + 1 < 4 := by omega
    refine .inr ⟨_, by rw [if_neg hfull, if_pos hless], ⟨parts ++ [digits], [], ?_, ?_, ?_, ?_⟩, ?_⟩
    · exact rel_append hparts (.cons hpart .nil)
    · simp
    · exact fun h => (nomatch h)
    · intro _
      exact ⟨rfl, rfl, by simpa using hoctets⟩
    · simpa using hless

/-- The scan does not leave its array, and what it has read has the form. -/
theorem scan4_read (src : List UInt8) (h : Read4 read s) :
    ∃ r, scan4 src s = .ok r ∧ ∀ s', r = some s' → Read4 (read ++ src) s' := by
  induction src generalizing read s with
  | nil =>
    refine ⟨some s, rfl, ?_⟩
    rintro s' ⟨⟩
    simpa using h
  | cons ch src ih =>
    rw [scan4]
    have hassoc : read ++ ch :: src = (read ++ [ch]) ++ src := by simp
    have hnone : ∃ r, (.ok none : Except Fault (Option Scan4)) = .ok r ∧
        ∀ s', r = some s' → Read4 (read ++ ch :: src) s' := ⟨none, rfl, fun _ h => (nomatch h)⟩
    by_cases hch : isDigit ch = true
    · rw [if_pos hch]
      cases hstep : s.digit ch with
      | none => exact hnone
      | some s' =>
        rw [hassoc]
        exact ih (h.digit hch hstep)
    · rw [if_neg hch]
      by_cases hdot : (ch = byte '.' && s.sawDigit) = true
      · rw [if_pos hdot]
        simp only [Bool.and_eq_true, decide_eq_true_eq] at hdot
        obtain ⟨rfl, hsaw⟩ := hdot
        rcases h.dot hsaw with hstop | ⟨s', hstep, hread⟩
        · rw [hstop]
          exact hnone
        · rw [hstep, hassoc]
          exact ih hread
      · rw [if_neg hdot]
        exact hnone

theorem inetPton4_sound (src : List UInt8) :
    ∃ r, inetPton4 src = .ok r ∧ ∀ bytes, r = some bytes → Quad src bytes := by
  obtain ⟨r, hrun, hread⟩ := scan4_read src Read4.start
  unfold inetPton4
  rw [hrun]
  cases r with
  | none => exact ⟨none, rfl, fun _ h => (nomatch h)⟩
  | some s =>
    refine ⟨_, rfl, fun bytes hbytes => ?_⟩
    obtain ⟨⟨parts, digits, hparts, htext, hsaw, hnot⟩, hroom⟩ := hread s rfl
    split at hbytes
    · cases hbytes
    · next hfull =>
      cases hbytes
      cases hdigit : s.sawDigit with
      | false =>
        have := (hnot hdigit).2.2
        omega
      | true =>
        obtain ⟨hpart, hoctets⟩ := hsaw hdigit
        refine ⟨parts ++ [digits], rel_append hparts (.cons hpart .nil), ?_, ?_⟩
        · simp only [length_append, length_singleton]
          omega
        · rw [intercalate_append_singleton, ← htext, nil_append]

/-! ### What has the form is accepted -/

theorem le_foldl_decimal (ds : List UInt8) (v : Nat) :
    v ≤ ds.foldl (fun v d => v * 10 + decimalValue d) v := by
  induction ds generalizing v with
  | nil => exact le_refl v
  | cons d ds ih =>
    have := ih (v * 10 + decimalValue d)
    rw [foldl_cons]
    omega

theorem scan4_digits (ds rest : List UInt8) (hds : ∀ d ∈ ds, isDigit d = true)
    (hsaw : s.sawDigit = true) (hcur : s.cur ≠ 0)
    (hle : ds.foldl (fun v d => v * 10 + decimalValue d) s.cur.toNat ≤ 255) :
    scan4 (ds ++ rest) s = scan4 rest { s with
      cur := UInt8.ofNat (ds.foldl (fun v d => v * 10 + decimalValue d) s.cur.toNat) } := by
  induction ds generalizing s with
  | nil => simp
  | cons d ds ih =>
    have hfirst := le_foldl_decimal ds (s.cur.toNat * 10 + decimalValue d)
    rw [foldl_cons] at hle ⊢
    have hnew : s.cur.toNat * 10 + decimalValue d ≤ 255 := le_trans hfirst hle
    have hstep := digit_eq_some_iff.2 ⟨hnew, .inl ⟨hsaw, hcur, rfl⟩⟩
    have htoNat := toNat_ofNat_of_le hnew
    have hne : UInt8.ofNat (s.cur.toNat * 10 + decimalValue d) ≠ 0 := by
      intro hzero
      rw [hzero] at htoNat
      have : s.cur.toNat ≠ 0 := fun h => hcur (UInt8.toNat_inj.1 h)
      have : (0 : UInt8).toNat = 0 := rfl
      omega
    rw [cons_append, scan4, if_pos (hds d mem_cons_self), hstep]
    simp only
    rw [ih (s := { s with cur := UInt8.ofNat (s.cur.toNat * 10 + decimalValue d) })
      (fun c hc => hds c (mem_cons_of_mem _ hc)) hsaw hne (by simp only [htoNat]; exact hle)]
    simp only [htoNat]

theorem scan4_part (h : DecimalPart text v) (rest : List UInt8) (hsaw : s.sawDigit = false)
    (hcur : s.cur = 0) (hoctets : s.octets < 4) : scan4 (text ++ rest) s
      = scan4 rest { s with cur := v, octets := s.octets + 1, sawDigit := true } := by
  obtain ⟨c, cs, rfl⟩ := exists_cons_of_ne_nil h.nonempty
  have hc := h.digits c mem_cons_self
  have hvalue : cs.foldl (fun v d => v * 10 + decimalValue d) (decimalValue c) = v.toNat := by
    have hv := h.value
    rw [valueOf, foldl_map] at hv
    simpa using hv
  have hle := decimalValue_le hc
  have hzero : s.cur.toNat = 0 := by rw [hcur]; rfl
  have hsmall : s.cur.toNat * 10 + decimalValue c ≤ 255 := by omega
  have hstep := digit_eq_some_iff.2 ⟨hsmall, .inr ⟨hsaw, hoctets, rfl⟩⟩
  rw [cons_append, scan4, if_pos hc, hstep]
  simp only [hzero, zero_mul, zero_add]
  by_cases hfirst : decimalValue c = 0
  · -- a leading zero is the whole part
    obtain rfl := h.leading cs (by rw [eq_zero_of_decimalValue hc hfirst])
    have hv : v = UInt8.ofNat (decimalValue c) := by
      rw [← UInt8.toNat_inj, toNat_ofNat_of_le (by omega)]
      exact hvalue.symm
    rw [hv, nil_append]
  · have htoNat := toNat_ofNat_of_le (by omega : decimalValue c ≤ 255)
    have hne : UInt8.ofNat (decimalValue c) ≠ 0 := by
      intro h0
      rw [h0] at htoNat
      exact hfirst htoNat.symm
    have hv : UInt8.ofNat v.toNat = v := UInt8.ofNat_toNat
    rw [scan4_digits cs rest (fun d hd => h.digits d (mem_cons_of_mem _ hd)) rfl hne
      (by rw [htoNat]; have := v.toNat_lt; omega)]
    simp only [htoNat, hvalue, hv]

theorem scan4_parts {parts : List (List UInt8)} (h : List.Forall₂ DecimalPart parts bytes)
    (rest done : List UInt8) (hroom : done.length + bytes.length < 4) :
    scan4 (parts.flatMap (· ++ [byte '.']) ++ rest) ⟨done, 0, false, done.length⟩
      = scan4 rest ⟨done ++ bytes, 0, false, (done ++ bytes).length⟩ := by
  induction h generalizing done with
  | nil => simp
  | @cons text v parts bytes hpart _ ih =>
    rw [length_cons] at hroom
    have hdot : ∀ s : Scan4, s.sawDigit = true → s.octets ≠ 4 → s.done.length + 1 < 4 → ∀ src,
        scan4 (byte '.' :: src) s
          = scan4 src { s with done := s.done ++ [s.cur], cur := 0, sawDigit := false } := by
      intro s hsaw hfull hless src
      rw [scan4, if_neg (by rw [isDigit_dot]; exact Bool.false_ne_true), if_pos (by simp [hsaw]),
        Scan4.dot, if_neg hfull, if_pos hless]
      rfl
    rw [flatMap_cons, append_assoc, append_assoc,
      scan4_part hpart _ rfl rfl (by show done.length < 4; omega), singleton_append,
      hdot _ rfl (by simp only; omega) (by simp only; omega)]
    have hlength : done.length + 1 = (done ++ [v]).length := by simp
    simp only [hlength]
    rw [ih (done ++ [v]) (by simp only [length_append, length_singleton]; omega)]
    simp

theorem inetPton4_complete {src : List UInt8} (h : Quad src bytes) :
    inetPton4 src = .ok (some bytes) := by
  obtain ⟨parts, hparts, hlength, rfl⟩ := h
  match bytes, hlength, hparts with
  | [b₀, b₁, b₂, b₃], _, .cons (a := p₀) h₀ (.cons (a := p₁) h₁ (.cons (a := p₂) h₂
      (.cons (a := p₃) h₃ .nil))) =>
    have hjoined : [byte '.'].intercalate [p₀, p₁, p₂, p₃]
        = [p₀, p₁, p₂].flatMap (· ++ [byte '.']) ++ p₃ :=
      intercalate_append_singleton [byte '.'] [p₀, p₁, p₂] p₃
    have hinit := scan4_parts (.cons h₀ (.cons h₁ (.cons h₂ .nil))) p₃ [] (by simp)
    have hlast := scan4_part (s := ⟨[b₀, b₁, b₂], 0, false, 3⟩) h₃ [] rfl rfl (by simp)
    rw [append_nil] at hlast
    rw [hjoined]
    change (scan4 _ ⟨[], 0, false, ([] : List UInt8).length⟩ >>= _) = _
    rw [hinit]
    change (scan4 p₃ ⟨[b₀, b₁, b₂], 0, false, 3⟩ >>= _) = _
    rw [hlast]
    rfl

end SafeLibc.Resolv.Inet
