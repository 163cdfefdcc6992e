import SafeLibc.Lib.Blocks
import SafeLibc.Resolv.Unpack

/-!
# `___ns_name_pton` of `resolv/ns_name_pton.c`

The text of a domain name is turned into its wire form in the caller's buffer. The length octet of a
label is stored behind the scan, when the dot or the end of the text is reached, and the flag test
on it lets labels of 256 bytes and more through; what refuses these is the limit on the whole name.

`Encoded` describes the buffer while the text is read.
-/

namespace SafeLibc.Resolv.NsName

open SafeLibc.Lib List

/-! ## The model -/

inductive Fault
  /-- a read outside the source -/
  | read
  /-- a store outside the destination -/
  | store
  deriving DecidableEq, Repr

/-- `dst[i] = v` -/
def store (dst : List UInt8) (i : Nat) (v : UInt8) : Except Fault (List UInt8) :=
  if i < dst.length then .ok (dst.set i v) else .error .store

/-- The variables of `___ns_name_pton`: the buffer and the positions `label` and `bp` in it. -/
structure Encoder where
  dst : List UInt8
  label : Nat
  bp : Nat
  deriving DecidableEq, Repr

/-- `c = (bp - label - 1)`, a 32-bit integer. -/
def Encoder.labelLength (s : Encoder) : Nat := (s.bp - s.label - 1) % 2 ^ 32

/-- `*label = c`; `none` is the return of -1 because the label is too big or `label` is at the
end. -/
def Encoder.putLabel (s : Encoder) : Except Fault (Option Encoder) :=
  if s.labelLength &&& 0xc0 ≠ 0 then .ok none
  else if s.label ≥ s.dst.length then .ok none
  else do
    let dst ← store s.dst s.label (UInt8.ofNat s.labelLength)
    .ok (some { s with dst })

/-- `*bp++ = c`; `none` is the return of -1. -/
def Encoder.put (s : Encoder) (c : UInt8) : Except Fault (Option Encoder) :=
  if s.bp ≥ s.dst.length then .ok none
  else do
    let dst ← store s.dst s.bp c
    .ok (some { s with dst, bp := s.bp + 1 })

/-- The rest of the function after a step that may return -1. -/
def Encoder.after (s : Encoder) (step : Except Fault (Option Encoder))
    (next : Encoder → Except Fault (Int × List UInt8)) : Except Fault (Int × List UInt8) := do
  match ← step with
  | none => .ok (-1, s.dst)
  | some s' => next s'

def Encoder.limit (ret : Int) (s : Encoder) : Except Fault (Int × List UInt8) :=
  .ok (if s.bp > nsMaxcdname then -1 else ret, s.dst)

/-- The end of the text: the last label and, unless it is the root's, the root's. -/
def Encoder.close (ret : Int) (s : Encoder) : Except Fault (Int × List UInt8) :=
  s.after s.putLabel fun s =>
    if s.labelLength ≠ 0 then s.after (s.put 0) (Encoder.limit ret) else s.limit ret

def isDigit (c : UInt8) : Bool := byte '0' ≤ c && c ≤ byte '9'

def digit (c : UInt8) : Nat := c.toNat - (byte '0').toNat

/-- The `while` loop on the rest of the text, without its null byte. -/
def ptonLoop : List UInt8 → Bool → Encoder → Except Fault (Int × List UInt8)
  | [], escaped, s => if escaped then .ok (-1, s.dst) else s.close 0
  | c :: src, true, s =>
    if isDigit c then
      match src with
      | d :: e :: src =>
        let n := digit c * 100 + digit d * 10 + digit e
        if !isDigit d || !isDigit e || n > 255 then .ok (-1, s.dst)
        else s.after (s.put (UInt8.ofNat n)) fun s => ptonLoop src false s
      | _ => .ok (-1, s.dst)
    else s.after (s.put c) fun s => ptonLoop src false s
  | c :: src, false, s =>
    if c = byte '\\' then ptonLoop src true s
    else if c = byte '.' then
      if src.isEmpty then s.close 1
      else s.after s.putLabel fun s =>
        if s.labelLength = 0 || src.head? = some (byte '.') then .ok (-1, s.dst)
        else ptonLoop src false { s with label := s.bp, bp := s.bp + 1 }
    else s.after (s.put c) fun s => ptonLoop src false s

/-- `___ns_name_pton`: the return value and the buffer. -/
def nsNamePton (src dst : List UInt8) : Except Fault (Int × List UInt8) :=
  ptonLoop src false ⟨dst, 0, 1⟩

/-! ## Domain names -/

/-- A domain name: labels of 1 to 63 bytes, with at most 255 bytes on the wire. -/
structure DomainName where
  labels : List (List UInt8)
  label_length : ∀ l ∈ labels, 0 < l.length ∧ l.length ≤ dnsLabelMax
  wire_length : wireLength labels ≤ nsMaxcdname

def DomainName.wire (name : DomainName) : List UInt8 := wireLabels name.labels ++ [0]

/-! ## The buffer while the text is read -/

theorem wireLabels_append (done rest : List (List UInt8)) :
    wireLabels (done ++ rest) = wireLabels done ++ wireLabels rest := flatMap_append

theorem wireLabels_concat (done : List (List UInt8)) (l : List UInt8) :
    wireLabels (done ++ [l]) = wireLabels done ++ UInt8.ofNat l.length :: l := by
  simp [wireLabels]

/-- The buffer holds the labels that are complete, an octet for the length of the next one, what has
been read of that, and the bytes that were there before; the length octet may be past the end. -/
structure Encoded (dst₀ : List UInt8) (done : List (List UInt8)) (cur : List UInt8) (s : Encoder) :
    Prop where
  label : s.label = (wireLabels done).length
  bp : s.bp = s.label + 1 + cur.length
  size : s.dst.length = dst₀.length
  contents : (∃ x, s.dst = wireLabels done ++ x :: (cur ++ dst₀.drop s.bp)) ∨
    cur = [] ∧ s.dst = wireLabels done

variable {dst₀ cur : List UInt8} {done : List (List UInt8)} {s s' : Encoder} {ret : Int}

variable {dst : List UInt8} {i : Nat} {step : Except Fault (Option Encoder)}

theorem store_ok (h : i < dst.length) (v : UInt8) : store dst i v = .ok (dst.set i v) := if_pos h

theorem drop_of_lt (h : i < dst.length) :
    ∃ y, dst.drop i = y :: dst.drop (i + 1) := ⟨_, drop_eq_getElem_cons h⟩

theorem Encoded.start (dst₀ : List UInt8) : Encoded dst₀ [] [] ⟨dst₀, 0, 1⟩ := by
  refine ⟨rfl, rfl, rfl, ?_⟩
  cases dst₀ with
  | nil => exact .inr ⟨rfl, rfl⟩
  | cons x rest => exact .inl ⟨x, rfl⟩

theorem Encoded.inside (h : Encoded dst₀ done cur s) (hin : s.label < s.dst.length) :
    ∃ x, s.dst = wireLabels done ++ x :: (cur ++ dst₀.drop s.bp) := by
  rcases h.contents with hx | ⟨-, hdst⟩
  · exact hx
  · rw [hdst, h.label] at hin
    exact absurd hin (lt_irrefl _)

theorem Encoder.put_some (hroom : s.bp < s.dst.length) (c : UInt8) :
    s.put c = .ok (some { s with dst := s.dst.set s.bp c, bp := s.bp + 1 }) := by
  rw [Encoder.put, if_neg (not_le.2 hroom), store_ok hroom]
  rfl

theorem Encoder.put_none (hroom : ¬ s.bp < s.dst.length) (c : UInt8) : s.put c = .ok none := by
  rw [Encoder.put, if_pos (Nat.le_of_not_lt hroom)]

theorem Encoded.put (h : Encoded dst₀ done cur s) (hroom : s.bp < s.dst.length) (c : UInt8) :
    ∃ s', s.put c = .ok (some s') ∧ Encoded dst₀ done (cur ++ [c]) s' := by
  obtain ⟨x, hx⟩ := h.inside (by have := h.bp; omega)
  refine ⟨{ s with dst := s.dst.set s.bp c, bp := s.bp + 1 }, ?_, h.label, ?_, ?_, .inl ⟨x, ?_⟩⟩
  · exact Encoder.put_some hroom c
  · rw [length_append, length_singleton, ← add_assoc, ← h.bp]
  · rw [length_set, h.size]
  · have hpos : s.bp = (wireLabels done ++ x :: cur).length := by
      rw [h.bp, h.label, length_append, length_cons]
      omega
    obtain ⟨y, hy⟩ := drop_of_lt (h.size ▸ hroom)
    have hdst : s.dst = (wireLabels done ++ x :: cur) ++ y :: dst₀.drop (s.bp + 1) := by
      simp [hx, hy]
    rw [hdst, set_append_cons _ _ _ hpos]
    simp

/-! ## Length octets -/

/-- The flag test on a number below 256 compares it with 64. -/
theorem land_flags_iff : ∀ n < 256, n &&& 0xc0 ≠ 0 ↔ dnsLabelMax < n := by
  decide +kernel

section

variable (h : Encoded dst₀ done cur s)
include h

theorem Encoded.labelLength (hcur : cur.length < 256) :
    s.labelLength = cur.length := by
  have := h.bp
  rw [Encoder.labelLength, Nat.mod_eq_of_lt] <;> omega

theorem Encoded.putLabel (hmax : cur.length ≤ dnsLabelMax) (hin : s.label < s.dst.length) :
    s.putLabel = .ok (some { s with
      dst := wireLabels done ++ UInt8.ofNat cur.length :: (cur ++ dst₀.drop s.bp) }) := by
  have hsmall : cur.length < 256 := lt_of_le_of_lt hmax (by decide)
  obtain ⟨x, hx⟩ := h.inside hin
  have hset : s.dst.set s.label (UInt8.ofNat cur.length) =
      wireLabels done ++ UInt8.ofNat cur.length :: (cur ++ dst₀.drop s.bp) := by
    rw [hx, set_append_cons _ _ _ h.label]
  rw [Encoder.putLabel, h.labelLength hsmall,
    if_neg (mt (land_flags_iff _ hsmall).1 (not_lt.2 hmax)),
    if_neg (not_le.2 hin), store_ok hin, hset]
  rfl

theorem Encoded.putLabel_big (hsmall : cur.length < 256)
    (hbig : dnsLabelMax < cur.length) : s.putLabel = .ok none := by
  rw [Encoder.putLabel, h.labelLength hsmall, if_pos ((land_flags_iff _ hsmall).2 hbig)]

end

/-- Whatever the length, `putLabel` does not fault and leaves the positions as they are. -/
theorem Encoder.putLabel_cases (s : Encoder) :
    s.putLabel = .ok none ∨ s.label < s.dst.length ∧
      ∃ dst, dst.length = s.dst.length ∧ s.putLabel = .ok (some { s with dst }) := by
  rw [Encoder.putLabel]
  split
  · exact .inl rfl
  · split
    · exact .inl rfl
    case isFalse hlabel =>
      have hin := Nat.lt_of_not_le hlabel
      exact .inr ⟨hin, _, length_set, by rw [store_ok hin]; rfl⟩

theorem Encoded.next (h : Encoded dst₀ done cur s) (hin : s.label < s.dst.length) :
    Encoded dst₀ (done ++ [cur]) [] ⟨wireLabels done ++ UInt8.ofNat cur.length ::
      (cur ++ dst₀.drop s.bp), s.bp, s.bp + 1⟩ := by
  have hcontents : wireLabels done ++ UInt8.ofNat cur.length :: (cur ++ dst₀.drop s.bp) =
      wireLabels (done ++ [cur]) ++ dst₀.drop s.bp := by
    rw [wireLabels_concat]
    simp
  obtain ⟨x, hx⟩ := h.inside hin
  refine ⟨?_, rfl, ?_, ?_⟩
  · change s.bp = _
    rw [wireLabels_concat, length_append, length_cons, h.bp, h.label]
    omega
  · rw [← h.size, hx]
    simp
  · rw [hcontents]
    by_cases hlt : s.bp < dst₀.length
    · obtain ⟨y, hy⟩ := drop_of_lt hlt
      exact .inl ⟨y, by rw [hy]; rfl⟩
    · rw [drop_eq_nil_of_le (Nat.le_of_not_lt hlt), append_nil]
      exact .inr ⟨rfl, rfl⟩

/-! ## The end of the text -/

/-- The labels at the end of the text; an empty label there is the root. -/
def lastLabels (done : List (List UInt8)) (cur : List UInt8) : List (List UInt8) :=
  if cur = [] then done else done ++ [cur]

def named (dst₀ : List UInt8) (labels : List (List UInt8)) : List UInt8 :=
  wireLabels labels ++ 0 :: dst₀.drop (wireLength labels)

theorem length_named {labels : List (List UInt8)} (h : wireLength labels ≤ dst₀.length) :
    (named dst₀ labels).length = dst₀.length := by
  rw [wireLength] at h
  rw [named, length_append, length_cons, length_drop, wireLength]
  omega

theorem Encoder.after_none {next : Encoder → Except Fault (Int × List UInt8)}
    (h : step = .ok none) : s.after step next = .ok (-1, s.dst) := by
  rw [h]
  rfl

theorem Encoder.after_some {next : Encoder → Except Fault (Int × List UInt8)}
    (h : step = .ok (some s')) : s.after step next = next s' := by
  rw [h]
  rfl

theorem Encoder.close_some (h : s.putLabel = .ok (some s')) (ret : Int) :
    s.close ret =
      if s'.labelLength ≠ 0 then s'.after (s'.put 0) (Encoder.limit ret) else s'.limit ret := by
  rw [Encoder.close, Encoder.after_some h]

theorem Encoded.close_root (h : Encoded dst₀ done [] s) (hroom : wireLength done ≤ dst₀.length)
    (ret : Int) :
    s.close ret = .ok (if wireLength done > nsMaxcdname then -1 else ret, named dst₀ done) := by
  have hbp : s.bp = wireLength done := by
    rw [h.bp, h.label, wireLength, length_nil]
  have hin : s.label < s.dst.length := by
    rw [h.label, h.size]
    exact hroom
  have hzero : s.bp - s.label - 1 = 0 := by rw [h.bp, length_nil]; omega
  rw [Encoder.close_some (h.putLabel (Nat.zero_le _) hin),
    if_neg (by simp [Encoder.labelLength, hzero]), named, ← hbp]
  rfl

theorem Encoded.close_label (h : Encoded dst₀ done cur s) (hcur : cur ≠ [])
    (hmax : cur.length ≤ dnsLabelMax) (hroom : wireLength (done ++ [cur]) ≤ dst₀.length)
    (ret : Int) : s.close ret = .ok (if wireLength (done ++ [cur]) > nsMaxcdname then -1 else ret,
      named dst₀ (done ++ [cur])) := by
  have hbp : s.bp = (wireLabels (done ++ [cur])).length := by
    rw [h.bp, h.label, wireLabels_concat, length_append, length_cons]
    omega
  have hin : s.label < s.dst.length := by
    rw [wireLength, ← hbp, h.bp] at hroom
    rw [h.size]
    omega
  have hput := h.putLabel hmax hin
  generalize hs : { s with dst := wireLabels done ++ UInt8.ofNat cur.length ::
    (cur ++ dst₀.drop s.bp) : Encoder } = s₁ at hput
  have hdst : s₁.dst = wireLabels (done ++ [cur]) ++ dst₀.drop s.bp := by
    rw [← hs, wireLabels_concat]
    simp
  have hbp₁ : s₁.bp = s.bp := by rw [← hs]
  have hlength : s₁.labelLength ≠ 0 := by
    have hsame : s₁.labelLength = s.labelLength := by rw [← hs]; rfl
    rw [hsame, h.labelLength (lt_of_le_of_lt hmax (by decide))]
    exact mt length_eq_zero_iff.1 hcur
  have hlt : s.bp < dst₀.length := by rw [hbp]; exact hroom
  obtain ⟨y, hy⟩ := drop_of_lt hlt
  have hroom₁ : s₁.bp < s₁.dst.length := by
    rw [hdst, hy, length_append, length_cons]
    omega
  rw [Encoder.close_some hput, if_pos hlength, Encoder.after_some (Encoder.put_some hroom₁ 0),
    Encoder.limit]
  simp only [hdst, hy, hbp₁]
  rw [set_append_cons _ _ _ hbp, named, wireLength, ← hbp]

theorem Encoded.close (h : Encoded dst₀ done cur s) (hmax : cur.length ≤ dnsLabelMax)
    (hroom : wireLength (lastLabels done cur) ≤ dst₀.length) (ret : Int) :
    s.close ret = .ok (if wireLength (lastLabels done cur) > nsMaxcdname then -1 else ret,
      named dst₀ (lastLabels done cur)) := by
  by_cases hcur : cur = []
  · subst hcur
    exact h.close_root hroom ret
  · rw [lastLabels, if_neg hcur] at hroom ⊢
    exact h.close_label hcur hmax hroom ret

/-! ## What a success leaves -/

def Outcome (dst₀ : List UInt8) (r : Except Fault (Int × List UInt8)) : Prop :=
  ∃ ret out, r = .ok (ret, out) ∧ out.length = dst₀.length ∧
    (ret = -1 ∨ ∃ name : DomainName, out = named dst₀ name.labels)

/-- The state of the loop. Where the name has become too long, nothing else is said: the limit at
the end refuses it. -/
def Progress (dst₀ : List UInt8) (s : Encoder) : Prop :=
  s.dst.length = dst₀.length ∧ (nsMaxcdname < s.bp ∨
    ∃ done cur, (∀ l ∈ done, 0 < l.length ∧ l.length ≤ dnsLabelMax) ∧ Encoded dst₀ done cur s)

theorem outcome_fail {out : List UInt8} (h : out.length = dst₀.length) :
    Outcome dst₀ (.ok (-1, out)) := ⟨-1, out, rfl, h, .inl rfl⟩

theorem Progress.put (h : Progress dst₀ s) (c : UInt8)
    {next : Encoder → Except Fault (Int × List UInt8)}
    (hnext : ∀ s', Progress dst₀ s' → Outcome dst₀ (next s')) :
    Outcome dst₀ (s.after (s.put c) next) := by
  by_cases hroom : s.bp < s.dst.length
  · rcases h.2 with hlong | ⟨done, cur, hdone, henc⟩
    · rw [Encoder.after_some (Encoder.put_some hroom c)]
      exact hnext _ ⟨length_set.trans h.1, .inl (Nat.lt_succ_of_lt hlong)⟩
    · obtain ⟨s', hput, henc'⟩ := henc.put hroom c
      rw [Encoder.after_some hput]
      exact hnext s' ⟨henc'.size, .inr ⟨done, cur ++ [c], hdone, henc'⟩⟩
  · rw [Encoder.after_none (Encoder.put_none hroom c)]
    exact outcome_fail h.1

/-- Where the name has become too long, or the buffer ends before it does, the end of the text is
refused. -/
theorem close_refused (h : nsMaxcdname < s.bp ∨ s.dst.length ≤ s.label ∨
      s.labelLength ≠ 0 ∧ s.dst.length ≤ s.bp) (ret : Int) :
    ∃ out, s.close ret = .ok (-1, out) ∧ out.length = s.dst.length := by
  rcases s.putLabel_cases with hnone | ⟨hin, dst, hsize, hsome⟩
  · exact ⟨s.dst, by rw [Encoder.close, Encoder.after_none hnone], rfl⟩
  · have hsame : Encoder.labelLength { s with dst } = s.labelLength := rfl
    rw [Encoder.close_some hsome]
    split
    · by_cases hroom : s.bp < dst.length
      · rw [Encoder.after_some (Encoder.put_some hroom 0), Encoder.limit,
          if_pos (by dsimp only; omega)]
        exact ⟨_, rfl, length_set.trans hsize⟩
      · rw [Encoder.after_none (Encoder.put_none hroom 0)]
        exact ⟨_, rfl, hsize⟩
    · rw [Encoder.limit, if_pos (by dsimp only; omega)]
      exact ⟨_, rfl, hsize⟩

theorem Encoded.full (h : Encoded dst₀ done cur s) (hmax : cur.length ≤ dnsLabelMax)
    (hroom : ¬ wireLength (lastLabels done cur) ≤ dst₀.length) :
    s.dst.length ≤ s.label ∨ s.labelLength ≠ 0 ∧ s.dst.length ≤ s.bp := by
  have hlabel := h.label
  have hsize := h.size
  by_cases hcur : cur = []
  · rw [lastLabels, if_pos hcur, wireLength] at hroom
    omega
  · rw [lastLabels, if_neg hcur, wireLength, wireLabels_concat, length_append,
      length_cons] at hroom
    have hpos := length_pos_iff.2 hcur
    have hbp := h.bp
    rw [h.labelLength (lt_of_le_of_lt hmax (by decide))]
    omega

theorem lastLabels_length (hdone : ∀ l ∈ done, 0 < l.length ∧ l.length ≤ dnsLabelMax)
    (hmax : cur.length ≤ dnsLabelMax) :
    ∀ l ∈ lastLabels done cur, 0 < l.length ∧ l.length ≤ dnsLabelMax := by
  intro l hl
  by_cases hcur : cur = []
  · rw [lastLabels, if_pos hcur] at hl
    exact hdone l hl
  · rw [lastLabels, if_neg hcur] at hl
    rcases mem_append.1 hl with hl | hl
    · exact hdone l hl
    · rw [mem_singleton.1 hl]
      exact ⟨length_pos_iff.2 hcur, hmax⟩

theorem Progress.close (h : Progress dst₀ s) (ret : Int) : Outcome dst₀ (s.close ret) := by
  have refused : (∃ out, s.close ret = .ok (-1, out) ∧ out.length = s.dst.length) →
      Outcome dst₀ (s.close ret) := by
    rintro ⟨out, hclose, hsize⟩
    rw [hclose]
    exact outcome_fail (hsize.trans h.1)
  rcases h.2 with hlong | ⟨done, cur, hdone, henc⟩
  · exact refused (close_refused (.inl hlong) ret)
  by_cases hsmall : cur.length < 256
  · by_cases hmax : cur.length ≤ dnsLabelMax
    · by_cases hroom : wireLength (lastLabels done cur) ≤ dst₀.length
      · rw [henc.close hmax hroom]
        by_cases hlimit : wireLength (lastLabels done cur) ≤ nsMaxcdname
        · exact ⟨_, _, rfl, length_named hroom,
            .inr ⟨⟨_, lastLabels_length hdone hmax, hlimit⟩, rfl⟩⟩
        · rw [if_pos (Nat.lt_of_not_le hlimit)]
          exact outcome_fail (length_named hroom)
      · exact refused (close_refused (.inr (henc.full hmax hroom)) ret)
    · have hbig := henc.putLabel_big hsmall (Nat.lt_of_not_le hmax)
      exact refused ⟨s.dst, by rw [Encoder.close, Encoder.after_none hbig], rfl⟩
  · -- the flag test does not see the length, the limit does
    have hlong : nsMaxcdname < s.bp := by
      have := henc.bp
      rw [nsMaxcdname]
      omega
    exact refused (close_refused (.inl hlong) ret)

theorem Progress.label (h : Progress dst₀ s) (dotted : Bool)
    {next : Encoder → Except Fault (Int × List UInt8)}
    (hnext : ∀ s : Encoder, Progress dst₀ { s with label := s.bp, bp := s.bp + 1 } →
      Outcome dst₀ (next { s with label := s.bp, bp := s.bp + 1 })) :
    Outcome dst₀ (s.after s.putLabel fun s =>
      if s.labelLength = 0 || dotted then .ok (-1, s.dst)
      else next { s with label := s.bp, bp := s.bp + 1 }) := by
  rcases s.putLabel_cases with hnone | ⟨hin, dst, hsize, hsome⟩
  · rw [Encoder.after_none hnone]
    exact outcome_fail h.1
  · rw [Encoder.after_some hsome]
    split
    · exact outcome_fail (hsize.trans h.1)
    case isFalse hempty =>
      refine hnext _ ⟨hsize.trans h.1, ?_⟩
      rcases h.2 with hlong | ⟨done, cur, hdone, henc⟩
      · exact .inl (Nat.lt_succ_of_lt hlong)
      by_cases hsmall : cur.length < 256
      · by_cases hmax : cur.length ≤ dnsLabelMax
        · have hput := henc.putLabel hmax hin
          rw [hsome] at hput
          obtain rfl : dst = _ := congrArg Encoder.dst (Option.some.inj (Except.ok.inj hput))
          refine .inr ⟨done ++ [cur], [], ?_, henc.next hin⟩
          have hcur : cur ≠ [] := by
            rintro rfl
            have hzero : s.labelLength = 0 := henc.labelLength hsmall
            exact hempty (Bool.or_eq_true_iff.2 (.inl (decide_eq_true hzero)))
          have := lastLabels_length hdone hmax
          rwa [lastLabels, if_neg hcur] at this
        · rw [henc.putLabel_big hsmall (Nat.lt_of_not_le hmax)] at hsome
          nomatch hsome
      · left
        have := henc.bp
        change 255 < s.bp + 1
        omega

theorem ptonLoop_outcome (src : List UInt8) (escaped : Bool) (s : Encoder) (h : Progress dst₀ s) :
    Outcome dst₀ (ptonLoop src escaped s) := by
  rw [ptonLoop.eq_def]
  split
  · split
    · exact outcome_fail h.1
    · exact h.close 0
  · split
    · split
      · dsimp only
        split
        · exact outcome_fail h.1
        · exact h.put _ fun s h => ptonLoop_outcome _ _ s h
      · exact outcome_fail h.1
    · exact h.put _ fun s h => ptonLoop_outcome _ _ s h
  · split
    · exact ptonLoop_outcome _ _ _ h
    · split
      · split
        · exact h.close 1
        · exact h.label _ fun _ h => ptonLoop_outcome _ _ _ h
      · exact h.put _ fun s h => ptonLoop_outcome _ _ s h
termination_by src.length

/-- **No store outside the buffer, and a name at its start after a success**, for every text. -/
theorem nsNamePton_outcome (src dst : List UInt8) : Outcome dst (nsNamePton src dst) :=
  ptonLoop_outcome src false _
    ⟨rfl, .inr ⟨[], [], fun _ hl => absurd hl not_mem_nil, Encoded.start dst⟩⟩

end SafeLibc.Resolv.NsName
