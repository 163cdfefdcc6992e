import Mathlib.Data.List.TakeWhile
import SafeLibc.Lib.Bytes
import SafeLibc.Lib.Machine

/-!
# `strtol`, `strtoul` and their relatives

`__strtol_l_internal` of `stdlib/strtol_l.c` for the C locale and without grouping, where `long` has
64 bits (so that `long long` is the same). `Subject` is the subject sequence of the C standard as a
grammar. The code finds the longest prefix of the string that is one (`strtol_subject`).

Pointers into the string are offsets from `nptr`. The string ends before its first NUL byte, or
where the list does.
-/

namespace SafeLibc.Stdlib

open SafeLibc.Lib List

/-! ## The C locale -/

def isspace (c : UInt8) : Bool := c == byte ' ' || (9 ≤ c && c ≤ 13)

def isalpha (c : UInt8) : Bool := (byte 'A' ≤ c && c ≤ byte 'Z') || (byte 'a' ≤ c && c ≤ byte 'z')

def toupper (c : UInt8) : UInt8 :=
  if byte 'a' ≤ c && c ≤ byte 'z' then c - byte 'a' + byte 'A' else c

/-! ## The code -/

inductive Errno
  | EINVAL
  | ERANGE
  deriving DecidableEq, Repr

/-- The return value, `*endptr` and `errno` where they are set. -/
structure Converted where
  value : Int
  endptr : Option Nat
  errno : Option Errno
  deriving DecidableEq, Repr

/-- `*s`. -/
def charAt (nptr : List UInt8) (s : Nat) : UInt8 := nptr.getD s 0

def skipSpace : List UInt8 → Nat → Nat
  | [], s => s
  | c :: rest, s => if isspace c then skipSpace rest (s + 1) else s

def cutoff (base : Nat) : Nat := (2 ^ 64 - 1) / base

def cutlim (base : Nat) : Nat := (2 ^ 64 - 1) % base

/-- What a character stands for, before it is compared with the base. -/
def digitOf (c : UInt8) : Option UInt8 :=
  if byte '0' ≤ c && c ≤ byte '9' then some (c - byte '0')
  else if isalpha c then some (toupper c - byte 'A' + 10)
  else none

structure Scan where
  s : Nat
  i : UInt64
  overflow : Bool

/-- The loop's body after a digit was read: check for overflow, and `++s`. -/
def Scan.next (base d : Nat) (scan : Scan) : Scan :=
  if scan.i.toNat > cutoff base ∨ scan.i.toNat = cutoff base ∧ d > cutlim base then
    { scan with s := scan.s + 1, overflow := true }
  else { scan with s := scan.s + 1, i := scan.i * UInt64.ofNat base + UInt64.ofNat d }

def digitLoop (base : Nat) : List UInt8 → Scan → Scan
  | [], scan => scan
  | c :: rest, scan =>
    match digitOf c with
    | none => scan
    | some d => if base ≤ d.toNat then scan else digitLoop base rest (scan.next base d.toNat)

/-- The number prefix: where the digits start, and the base they are in. -/
def numberPrefix (nptr : List UInt8) (binCst : Bool) (base s : Nat) : Nat × Nat :=
  if charAt nptr s = byte '0' then
    if (base = 0 ∨ base = 16) ∧ toupper (charAt nptr (s + 1)) = byte 'X' then (s + 2, 16)
    else if binCst ∧ (base = 0 ∨ base = 2) ∧
      toupper (charAt nptr (s + 1)) = byte 'B' then (s + 2, 2)
    else if base = 0 then (s, 8)
    else (s, base)
  else if base = 0 then (s, 10)
  else (s, base)

/-- Nothing was converted. The `0` before an `x` or `b` without digits still counts. -/
def noconv (nptr : List UInt8) (binCst : Bool) (save : Nat) : Converted :=
  if save ≥ 2 ∧ (toupper (charAt nptr (save - 1)) = byte 'X' ∨
      binCst ∧ toupper (charAt nptr (save - 1)) = byte 'B') ∧
      charAt nptr (save - 2) = byte '0' then
    ⟨0, some (save - 1), none⟩
  else ⟨0, some 0, none⟩

/-- The largest magnitude of the signed type. -/
def signedLimit (negative : Bool) : Nat := if negative then 2 ^ 63 else 2 ^ 63 - 1

def finish (unsigned negative : Bool) (scan : Scan) : Converted :=
  let overflow := scan.overflow || (!unsigned && signedLimit negative < scan.i.toNat)
  if overflow then
    ⟨if unsigned then 2 ^ 64 - 1 else if negative then -2 ^ 63 else 2 ^ 63 - 1, some scan.s,
      some .ERANGE⟩
  else
    let i := if negative then -scan.i else scan.i
    ⟨if unsigned then i.toNat else i.toInt64.toInt, some scan.s, none⟩

/-- `__strtol_l_internal`, or `__strtoul_l_internal`. -/
def strtolInternal (unsigned binCst : Bool) (nptr : List UInt8) (base : Int) : Converted :=
  if base < 0 ∨ base = 1 ∨ base > 36 then ⟨0, none, some .EINVAL⟩
  else
    let s := skipSpace nptr 0
    if charAt nptr s = 0 then noconv nptr binCst 0
    else
      let negative := charAt nptr s == byte '-'
      let s := if charAt nptr s = byte '-' then s + 1
        else if charAt nptr s = byte '+' then s + 1 else s
      let (save, base) := numberPrefix nptr binCst base.toNat s
      let scan := digitLoop base (nptr.drop save) ⟨save, 0, false⟩
      if scan.s = save then noconv nptr binCst save else finish unsigned negative scan

/-! ## Subject sequences -/

/-- The value of a digit, in the largest base. -/
def digitValue (c : UInt8) : Option Nat :=
  if byte '0' ≤ c ∧ c ≤ byte '9' then some (c.toNat - (byte '0').toNat)
  else if byte 'A' ≤ c ∧ c ≤ byte 'Z' then some (c.toNat - (byte 'A').toNat + 10)
  else if byte 'a' ≤ c ∧ c ≤ byte 'z' then some (c.toNat - (byte 'a').toNat + 10)
  else none

def IsDigit (base : Nat) (c : UInt8) : Prop := ∃ d, digitValue c = some d ∧ d < base

def magnitude (base : Nat) (digits : List UInt8) : Nat :=
  digits.foldl (fun v c => v * base + (digitValue c).getD 0) 0

inductive Sign : List UInt8 → Bool → Prop
  | none : Sign [] false
  | plus : Sign [byte '+'] false
  | minus : Sign [byte '-'] true

/-- The prefix and the digits that `base` allows, and the base of the digits. -/
inductive Radix (base : Nat) (binCst : Bool) : List UInt8 → List UInt8 → Nat → Prop
  | plain {digits : List UInt8} (given : base ≠ 0) : Radix base binCst [] digits base
  | hex {x : UInt8} {digits : List UInt8} (allowed : base = 0 ∨ base = 16)
      (letter : x = byte 'x' ∨ x = byte 'X') : Radix base binCst [byte '0', x] digits 16
  | binary {b : UInt8} {digits : List UInt8} (constants : binCst = true)
      (allowed : base = 0 ∨ base = 2)
      (letter : b = byte 'b' ∨ b = byte 'B') : Radix base binCst [byte '0', b] digits 2
  | octal {digits : List UInt8} (automatic : base = 0) : Radix base binCst [] (byte '0' :: digits) 8
  | decimal {c : UInt8} {digits : List UInt8} (automatic : base = 0) (nonzero : c ≠ byte '0') :
      Radix base binCst [] (c :: digits) 10

/-- The part of a subject sequence after the sign. -/
inductive Numeral (base : Nat) (binCst : Bool) : List UInt8 → Nat → Prop
  | mk {pre digits : List UInt8} {b : Nat} (radix : Radix base binCst pre digits b)
      (nonempty : digits ≠ []) (digits_ok : ∀ c ∈ digits, IsDigit b c) :
      Numeral base binCst (pre ++ digits) (magnitude b digits)

/-- White space, an optional sign, a prefix that the base allows, and digits. -/
inductive Subject (base : Nat) (binCst : Bool) : List UInt8 → Bool → Nat → Prop
  | mk {space sign number : List UInt8} {negative : Bool} {m : Nat}
      (space_ok : ∀ c ∈ space, isspace c = true) (sign_ok : Sign sign negative)
      (number_ok : Numeral base binCst number m) :
      Subject base binCst (space ++ sign ++ number) negative m

/-- The value that is returned, and `errno`; a magnitude with a minus sign is negated in its
type. -/
def represent (unsigned negative : Bool) (m : Nat) : Int × Option Errno :=
  if unsigned then
    if m < 2 ^ 64 then ((if negative then -(m : Int) else m) % 2 ^ 64, none)
    else (2 ^ 64 - 1, some .ERANGE)
  else
    let v : Int := if negative then -m else m
    if -2 ^ 63 ≤ v ∧ v < 2 ^ 63 then (v, none)
    else (if negative then -2 ^ 63 else 2 ^ 63 - 1, some .ERANGE)

/-! ## Characters -/

theorem digitOf_eq (c : UInt8) : (digitOf c).map UInt8.toNat = digitValue c := by
  revert c
  exact forall_byte (by decide +kernel)

theorem toupper_eq_X (c : UInt8) : toupper c = byte 'X' ↔ c = byte 'x' ∨ c = byte 'X' := by
  revert c
  exact forall_byte (by decide +kernel)

theorem toupper_eq_B (c : UInt8) : toupper c = byte 'B' ↔ c = byte 'b' ∨ c = byte 'B' := by
  revert c
  exact forall_byte (by decide +kernel)

variable {base m d b e v k : Nat} {r ds l num p nptr : List UInt8} {c : UInt8}
  {binCst negative unsigned : Bool} {scan : Scan}

theorem of_digitValue_ne_none (h : digitValue c ≠ none) :
    isspace c = false ∧ c ≠ byte '+' ∧ c ≠ byte '-' ∧ c ≠ 0 := by
  revert c
  exact @forall_byte _ (by decide +kernel)

theorem IsDigit.digitValue_ne_none (h : IsDigit base c) : digitValue c ≠ none := by
  obtain ⟨d, hd, -⟩ := h
  rw [hd]
  exact Option.some_ne_none d

instance (base : Nat) (c : UInt8) : Decidable (IsDigit base c) :=
  decidable_of_iff ((digitValue c).any (· < base)) (by cases h : digitValue c <;> simp [IsDigit, h])

def digits (base : Nat) (r : List UInt8) : List UInt8 := r.takeWhile (IsDigit base ·)

theorem digits_isDigit : ∀ c ∈ digits base r, IsDigit base c := by
  intro c hc
  simpa using mem_takeWhile_imp hc

theorem digits_isPrefix (base : Nat) (r : List UInt8) : digits base r <+: r :=
  takeWhile_prefix _

theorem prefix_digits (hds : ∀ c ∈ ds, IsDigit base c) (h : ds <+: r) : ds <+: digits base r := by
  obtain ⟨t, rfl⟩ := h
  have htake : (ds ++ t).takeWhile (IsDigit base ·) = ds ++ t.takeWhile (IsDigit base ·) :=
    takeWhile_append_of_pos (by simpa using hds)
  rw [digits, htake]
  exact prefix_append ds _

/-! ## The loops -/

theorem skipSpace_eq (r : List UInt8) (s : Nat) :
    skipSpace r s = s + (r.takeWhile isspace).length := by
  induction r generalizing s with
  | nil => rfl
  | cons c r ih =>
    rw [skipSpace, takeWhile_cons]
    cases isspace c with
    | true =>
      rw [if_pos rfl, if_pos rfl, ih, length_cons]
      omega
    | false => rfl

structure Tracks (scan : Scan) (v : Nat) : Prop where
  exact : scan.overflow = false → scan.i.toNat = v
  overflow_iff : scan.overflow = true ↔ 2 ^ 64 ≤ v

/-- The table lookup tells whether one more digit fits. -/
theorem cutoff_iff {i : Nat} (hd : d < base) :
    (i > cutoff base ∨ i = cutoff base ∧ d > cutlim base) ↔ 2 ^ 64 ≤ i * base + d :=
  (cutoff_lt_iff hd).trans (by omega)

theorem digitLoop_cons_digit (hd : digitValue c = some d) (hlt : d < base) (rest : List UInt8)
    (scan : Scan) : digitLoop base (c :: rest) scan = digitLoop base rest (scan.next base d) := by
  rw [← digitOf_eq] at hd
  obtain ⟨b, hb, rfl⟩ := Option.map_eq_some_iff.mp hd
  rw [digitLoop, hb]
  exact if_neg (by omega)

theorem digitLoop_cons_other (h : ¬ IsDigit base c) (rest : List UInt8) (scan : Scan) :
    digitLoop base (c :: rest) scan = scan := by
  have heq := digitOf_eq c
  rw [digitLoop]
  cases hc : digitOf c with
  | none => rfl
  | some b =>
    rw [hc] at heq
    exact if_pos (by_contra fun hlt => h ⟨b.toNat, heq.symm, by omega⟩)

@[simp] theorem Scan.s_next (base d : Nat) (scan : Scan) : (scan.next base d).s = scan.s + 1 := by
  unfold Scan.next
  split <;> rfl

theorem Tracks.next (h : Tracks scan v) (hbase : 2 ≤ base) (hle : base ≤ 36) (hd : d < base) :
    Tracks (scan.next base d) (v * base + d) := by
  have hgrow : v ≤ v * base := Nat.le_mul_of_pos_right v (by omega)
  cases hover : scan.overflow with
  | true =>
    -- an overflow stays one
    have hv := h.overflow_iff.mp hover
    have hnext : (scan.next base d).overflow = true := by
      unfold Scan.next
      split
      · rfl
      · exact hover
    exact ⟨fun hfalse => absurd (hnext.symm.trans hfalse) (by simp), iff_of_true hnext (by omega)⟩
  | false =>
    have hv := h.exact hover
    by_cases hbig : 2 ^ 64 ≤ v * base + d
    · rw [Scan.next, if_pos ((cutoff_iff hd).mpr (hv ▸ hbig))]
      exact ⟨fun hfalse => absurd hfalse (by simp), iff_of_true rfl hbig⟩
    · rw [Scan.next, if_neg (mt (cutoff_iff hd).mp (hv ▸ hbig))]
      refine ⟨fun _ => ?_, iff_of_false (by simp [hover]) hbig⟩
      simp only [UInt64.toNat_add, UInt64.toNat_mul, UInt64.toNat_ofNat', hv]
      rw [Nat.mod_eq_of_lt (by omega : base < 2 ^ 64), Nat.mod_eq_of_lt (by omega : d < 2 ^ 64),
        Nat.mod_eq_of_lt (by omega : v * base < 2 ^ 64), Nat.mod_eq_of_lt (by omega)]

theorem digitLoop_spec (hbase : 2 ≤ base) (hle : base ≤ 36) (r : List UInt8) (h : Tracks scan v) :
    (digitLoop base r scan).s = scan.s + (digits base r).length ∧
      Tracks (digitLoop base r scan)
        ((digits base r).foldl (fun v c => v * base + (digitValue c).getD 0) v) := by
  induction r generalizing scan v with
  | nil => exact ⟨rfl, h⟩
  | cons c r ih =>
    by_cases hc : IsDigit base c
    · obtain ⟨d, hd, hlt⟩ := hc
      have hdigits : digits base (c :: r) = c :: digits base r := by
        rw [digits, takeWhile_cons, if_pos (by simpa using ⟨d, hd, hlt⟩)]
        rfl
      obtain ⟨hs, htracks⟩ := ih (h.next hbase hle hlt)
      rw [digitLoop_cons_digit hd hlt, hdigits]
      refine ⟨?_, ?_⟩
      · rw [hs, Scan.s_next, length_cons]
        omega
      · rw [foldl_cons, hd]
        exact htracks
    · have hdigits : digits base (c :: r) = [] := by
        rw [digits, takeWhile_cons, if_neg (by simpa using hc)]
      rw [digitLoop_cons_other hc, hdigits]
      exact ⟨rfl, h⟩

/-! ## The number after the sign -/

theorem charAt_drop (nptr : List UInt8) (s j : Nat) :
    charAt (nptr.drop s) j = charAt nptr (s + j) := by
  rw [charAt, charAt, getD_eq_getElem?_getD, getD_eq_getElem?_getD, getElem?_drop]

theorem numberPrefix_drop (nptr : List UInt8) (binCst : Bool) (base s : Nat) :
    numberPrefix nptr binCst base s =
      (s + (numberPrefix (nptr.drop s) binCst base 0).1,
        (numberPrefix (nptr.drop s) binCst base 0).2) := by
  simp only [numberPrefix, charAt_drop, add_zero]
  split_ifs <;> rfl

theorem charAt_of_starts (h : c :: l <+: r) : charAt r 0 = c := by
  obtain ⟨t, rfl⟩ := h
  rfl

theorem charAt_one_of_starts {d : UInt8} (h : c :: d :: l <+: r) : charAt r 1 = d := by
  obtain ⟨t, rfl⟩ := h
  rfl

inductive Prefixed (base : Nat) (binCst : Bool) (r : List UInt8) : Nat × Nat → Prop
  | hex (zero : charAt r 0 = byte '0') (allowed : base = 0 ∨ base = 16)
      (letter : charAt r 1 = byte 'x' ∨ charAt r 1 = byte 'X') : Prefixed base binCst r (2, 16)
  | binary (zero : charAt r 0 = byte '0') (constants : binCst = true)
      (allowed : base = 0 ∨ base = 2)
      (letter : charAt r 1 = byte 'b' ∨ charAt r 1 = byte 'B') : Prefixed base binCst r (2, 2)
  | octal (automatic : base = 0) (zero : charAt r 0 = byte '0') : Prefixed base binCst r (0, 8)
  | decimal (automatic : base = 0) (nonzero : charAt r 0 ≠ byte '0') :
      Prefixed base binCst r (0, 10)
  | plain (given : base ≠ 0) : Prefixed base binCst r (0, base)

theorem numberPrefix_prefixed (binCst : Bool) (base : Nat) (r : List UInt8) :
    Prefixed base binCst r (numberPrefix r binCst base 0) := by
  unfold numberPrefix
  split_ifs with hzero hhex hbin hbase hbase
  · exact .hex hzero hhex.1 ((toupper_eq_X _).mp hhex.2)
  · exact .binary hzero hbin.1 hbin.2.1 ((toupper_eq_B _).mp hbin.2.2)
  · exact .octal hbase hzero
  · exact .plain hbase
  · exact .decimal hbase hzero
  · exact .plain hbase

theorem numberPrefix_hex (hzero : charAt r 0 = byte '0') (hbase : base = 0 ∨ base = 16)
    (hx : charAt r 1 = byte 'x' ∨ charAt r 1 = byte 'X') :
    numberPrefix r binCst base 0 = (2, 16) := by
  rw [numberPrefix, if_pos hzero, if_pos ⟨hbase, (toupper_eq_X _).mpr hx⟩]

theorem numberPrefix_binary (hzero : charAt r 0 = byte '0') (hbase : base = 0 ∨ base = 2)
    (hb : charAt r 1 = byte 'b' ∨ charAt r 1 = byte 'B') : numberPrefix r true base 0 = (2, 2) := by
  have hx : toupper (charAt r 1) ≠ byte 'X' := by
    rcases hb with hb | hb <;> rw [hb] <;> decide
  rw [numberPrefix, if_pos hzero, if_neg fun h => hx h.2,
    if_pos ⟨rfl, hbase, (toupper_eq_B _).mpr hb⟩]

theorem digitValue_letter :
    ((c = byte 'x' ∨ c = byte 'X') → digitValue c = some 33) ∧
      ((c = byte 'b' ∨ c = byte 'B') → digitValue c = some 11) := by
  constructor <;> rintro (rfl | rfl) <;> decide

/-- Before a letter that is no digit of the base the only digit is the `0`. -/
theorem length_le_one (hds : ∀ c ∈ ds, IsDigit b c) (h : ds <+: r) (hzero : charAt r 0 = byte '0')
    (hletter : digitValue (charAt r 1) = some d) (hb : b ≤ d) :
    ds.length ≤ 1 ∧ magnitude b ds = 0 := by
  match ds with
  | [] => exact ⟨Nat.zero_le 1, rfl⟩
  | [c] =>
    have hc := charAt_of_starts h
    rw [hzero] at hc
    subst hc
    exact ⟨le_refl 1, by simp [magnitude]; decide⟩
  | c :: c' :: ds =>
    obtain ⟨d', hd', hlt⟩ := hds c' (by simp)
    rw [← charAt_one_of_starts h, hletter] at hd'
    cases hd'
    omega

/-- The longest number: the digits after the prefix, or the `0` of a prefix without digits. -/
structure Bounds (k e : Nat) (r num : List UInt8) (m : Nat) : Prop where
  le : num.length ≤ k + (digits e (r.drop k)).length
  eq : num.length = k + (digits e (r.drop k)).length → m = magnitude e (digits e (r.drop k))
  nonempty : digits e (r.drop k) ≠ []

theorem Bounds.of_digits {pre : List UInt8} (hpre : pre.length = k) (hds : ∀ c ∈ ds, IsDigit e c)
    (hne : ds ≠ []) (h : pre ++ ds <+: r) : Bounds k e r (pre ++ ds) (magnitude e ds) := by
  have hdrop : ds <+: r.drop k := by
    obtain ⟨t, rfl⟩ := h
    rw [append_assoc, drop_left' hpre]
    exact prefix_append ds t
  have hle := prefix_digits hds hdrop
  refine ⟨?_, ?_, ?_⟩
  · rw [length_append, hpre]
    exact Nat.add_le_add_left hle.length_le k
  · intro heq
    rw [length_append] at heq
    rw [hle.eq_of_length (by omega)]
  · intro hnil
    rw [hnil] at hle
    exact hne (prefix_nil.mp hle)

theorem Bounds.of_plain (hds : ∀ c ∈ ds, IsDigit e c) (hne : ds ≠ []) (h : ds <+: r) :
    Bounds 0 e r ds (magnitude e ds) :=
  Bounds.of_digits (rfl : ([] : List UInt8).length = 0) hds hne h

/-- No number in front of the rest of the string is longer. -/
theorem Numeral.bounds (hnum : Numeral base binCst num m) (h : num <+: r) :
    Bounds (numberPrefix r binCst base 0).1 (numberPrefix r binCst base 0).2 r num m ∨
      (numberPrefix r binCst base 0).1 = 2 ∧ num.length ≤ 1 ∧ m = 0 := by
  have hpre := numberPrefix_prefixed binCst base r
  obtain ⟨hradix, hne, hds⟩ := hnum
  cases hradix with
  | hex hallowed hletter =>
    have hx := charAt_one_of_starts h
    rw [numberPrefix_hex (charAt_of_starts h) hallowed (by rwa [hx])]
    exact .inl (.of_digits rfl hds hne h)
  | binary hconst hallowed hletter =>
    subst hconst
    have hb := charAt_one_of_starts h
    rw [numberPrefix_binary (charAt_of_starts h) hallowed (by rwa [hb])]
    exact .inl (.of_digits rfl hds hne h)
  | octal hbase =>
    subst hbase
    have hzero := charAt_of_starts h
    generalize hkey : numberPrefix r binCst 0 0 = pair at hpre
    cases hpre with
    | hex _ _ hletter =>
      exact .inr ⟨rfl, length_le_one hds h hzero (digitValue_letter.1 hletter) (by decide)⟩
    | binary _ _ _ hletter =>
      exact .inr ⟨rfl, length_le_one hds h hzero (digitValue_letter.2 hletter) (by decide)⟩
    | octal => exact .inl (.of_plain hds hne h)
    | decimal _ hnonzero => exact absurd hzero hnonzero
    | plain hgiven => exact absurd rfl hgiven
  | decimal hbase hnonzero =>
    subst hbase
    have hc := charAt_of_starts h
    generalize hkey : numberPrefix r binCst 0 0 = pair at hpre
    cases hpre with
    | hex hzero | binary hzero => exact absurd (hc.symm.trans hzero) hnonzero
    | octal _ hzero => exact absurd (hc.symm.trans hzero) hnonzero
    | decimal => exact .inl (.of_plain hds hne h)
    | plain hgiven => exact absurd rfl hgiven
  | plain hgiven =>
    generalize hkey : numberPrefix r binCst base 0 = pair at hpre
    cases hpre with
    | hex hzero hallowed hletter =>
      exact .inr ⟨rfl, length_le_one hds h hzero (digitValue_letter.1 hletter) (by omega)⟩
    | binary hzero _ hallowed hletter =>
      exact .inr ⟨rfl, length_le_one hds h hzero (digitValue_letter.2 hletter) (by omega)⟩
    | octal hbase => exact absurd hbase hgiven
    | decimal hbase => exact absurd hbase hgiven
    | plain => exact .inl (.of_plain hds hne h)

theorem eq_cons_of_charAt (h : charAt r 0 = c) (hc : c ≠ 0) : ∃ t, r = c :: t := by
  cases r with
  | nil => exact absurd h.symm hc
  | cons d t => exact ⟨t, congrArg (· :: t) h⟩

theorem take_two_of_charAt {d : UInt8} (hc : charAt r 0 = c) (hd : charAt r 1 = d) (hc0 : c ≠ 0)
    (hd0 : d ≠ 0) : r.take 2 = [c, d] := by
  obtain ⟨t, rfl⟩ := eq_cons_of_charAt hc hc0
  obtain ⟨u, rfl⟩ := eq_cons_of_charAt (show charAt t 0 = d from hd) hd0
  rfl

theorem numeral_digits (hpre : Prefixed base binCst r (k, e)) (hne : digits e (r.drop k) ≠ []) :
    Numeral base binCst (r.take k ++ digits e (r.drop k)) (magnitude e (digits e (r.drop k))) := by
  have hds : ∀ c ∈ digits e (r.drop k), IsDigit e c := digits_isDigit
  have hhead := digits_isPrefix e (r.drop k)
  cases hpre with
  | hex hzero hallowed hletter =>
    rw [take_two_of_charAt hzero rfl (by decide)
      (by rcases hletter with h | h <;> rw [h] <;> decide)]
    exact .mk (.hex hallowed hletter) hne hds
  | binary hzero hconst hallowed hletter =>
    rw [take_two_of_charAt hzero rfl (by decide)
      (by rcases hletter with h | h <;> rw [h] <;> decide)]
    exact .mk (.binary hconst hallowed hletter) hne hds
  | octal hbase hzero =>
    obtain ⟨c, ds, hcons⟩ := exists_cons_of_ne_nil hne
    rw [hcons] at hds hhead ⊢
    obtain rfl : c = byte '0' := (charAt_of_starts hhead).symm.trans hzero
    exact .mk (.octal hbase) (by simp) hds
  | decimal hbase hnonzero =>
    obtain ⟨c, ds, hcons⟩ := exists_cons_of_ne_nil hne
    rw [hcons] at hds hhead ⊢
    have hc : c ≠ byte '0' := fun heq => hnonzero ((charAt_of_starts hhead).trans heq)
    exact .mk (.decimal hbase hc) (by simp) hds
  | plain hgiven => exact .mk (.plain hgiven) hne hds

/-! ## The sign -/

def signAt (c : UInt8) : List UInt8 := if c = byte '-' ∨ c = byte '+' then [c] else []

theorem sign_signAt (c : UInt8) : Sign (signAt c) (c == byte '-') := by
  unfold signAt
  split
  · next h =>
    rcases h with rfl | rfl
    · exact .minus
    · exact .plus
  · next h =>
    have hminus : (c == byte '-') = false := by
      rw [beq_eq_false_iff_ne]
      exact fun heq => h (.inl heq)
    rw [hminus]
    exact .none

theorem Numeral.head (h : Numeral base binCst num m) :
    ∃ c rest, num = c :: rest ∧ digitValue c ≠ none := by
  obtain ⟨hradix, hne, hds⟩ := h
  have hzero : digitValue (byte '0') ≠ none := by decide
  cases hradix with
  | hex | binary => exact ⟨byte '0', _, rfl, hzero⟩
  | octal => exact ⟨byte '0', _, rfl, hzero⟩
  | decimal => exact ⟨_, _, rfl, (hds _ (by simp)).digitValue_ne_none⟩
  | plain =>
    obtain ⟨c, ds, rfl⟩ := exists_cons_of_ne_nil hne
    exact ⟨c, ds, rfl, (hds c (by simp)).digitValue_ne_none⟩

/-! ## The value -/

theorem toInt_toInt64 (i : UInt64) : i.toInt64.toInt = (i.toNat : Int).bmod (2 ^ 64) := by
  rw [← Int64.toInt_toBitVec, BitVec.toInt_eq_toNat_bmod]
  rfl

theorem toNat_neg_eq (i : UInt64) : ((-i).toNat : Int) = -(i.toNat : Int) % 2 ^ 64 := by
  have hlt := i.toNat_lt
  rw [UInt64.toNat_neg, UInt64.size]
  omega

def limit (unsigned negative : Bool) : Nat := if unsigned then 2 ^ 64 - 1 else signedLimit negative

theorem represent_of_lt (h : limit unsigned negative < m) : represent unsigned negative m =
      (if unsigned then 2 ^ 64 - 1 else if negative then -2 ^ 63 else 2 ^ 63 - 1,
        some .ERANGE) := by
  cases unsigned with
  | true =>
    simp only [limit, if_true] at h
    simp only [represent, if_true]
    exact if_neg (by omega)
  | false =>
    cases negative <;> simp only [limit, signedLimit, Bool.false_eq_true,
      if_true, if_false] at h <;>
      simp only [represent, Bool.false_eq_true, if_false] <;> exact if_neg (by omega)

theorem represent_of_le {i : UInt64} (h : i.toNat ≤ limit unsigned negative) :
    represent unsigned negative i.toNat =
      (if unsigned then ((if negative then -i else i).toNat : Int)
        else (if negative then -i else i).toInt64.toInt, none) := by
  have hlt := i.toNat_lt
  cases unsigned with
  | true =>
    simp only [represent, if_true]
    rw [if_pos hlt]
    cases negative with
    | true => simp only [if_true, toNat_neg_eq]
    | false =>
      simp only [Bool.false_eq_true, if_false]
      rw [Int.emod_eq_of_lt (by omega) (by omega)]
  | false =>
    cases negative with
    | true =>
      simp only [limit, signedLimit, Bool.false_eq_true, if_true, if_false] at h
      simp only [represent, Bool.false_eq_true, if_true, if_false]
      rw [if_pos (by omega), toInt_toInt64, toNat_neg_eq, Int.bmod_def]
      congr 1
      split <;> omega
    | false =>
      simp only [limit, signedLimit, Bool.false_eq_true, if_false] at h
      simp only [represent, Bool.false_eq_true, if_false]
      rw [if_pos (by omega), toInt_toInt64, Int.bmod_eq_of_le (by omega) (by omega)]

/-- The end of the digits, and the value with its sign. -/
theorem finish_eq (h : Tracks scan m) (unsigned negative : Bool) : finish unsigned negative scan =
      ⟨(represent unsigned negative m).1, some scan.s, (represent unsigned negative m).2⟩ := by
  have hlimit : limit unsigned negative < 2 ^ 64 := by
    cases unsigned <;> cases negative <;> decide
  have hover : (scan.overflow || (!unsigned && decide (signedLimit negative < scan.i.toNat))) =
      decide (limit unsigned negative < m) := by
    cases hscan : scan.overflow with
    | true =>
      have hm := h.overflow_iff.mp hscan
      exact (decide_eq_true (by omega)).symm
    | false =>
      have hm : ¬ 2 ^ 64 ≤ m := mt h.overflow_iff.mpr (Bool.eq_false_iff.mp hscan)
      rw [h.exact hscan]
      cases unsigned with
      | true => exact (decide_eq_false (by simp only [limit, if_true]; omega)).symm
      | false => rfl
  by_cases hfits : limit unsigned negative < m
  · rw [represent_of_lt hfits]
    simp only [finish, hover, hfits, decide_true, if_true]
  · have hscan : scan.overflow = false := by
      rw [← Bool.not_eq_true, h.overflow_iff]
      omega
    rw [← h.exact hscan, represent_of_le (by rw [h.exact hscan]; omega)]
    simp only [finish, hover, hfits, decide_false, Bool.false_eq_true, if_false]

/-! ## The whole function -/

/-- `p` is the longest subject sequence in front of the string, and can be read in one way only. -/
structure Longest (base : Nat) (binCst : Bool) (nptr p : List UInt8) (negative : Bool) (m : Nat) :
    Prop where
  isPrefix : p <+: nptr
  subject : Subject base binCst p negative m
  longest : ∀ q n v, q <+: nptr → Subject base binCst q n v → q.length ≤ p.length
  unique : ∀ n v, Subject base binCst p n v → n = negative ∧ v = m

theorem signAt_isPrefix (q : List UInt8) : signAt (charAt q 0) <+: q := by
  unfold signAt
  split
  · next h =>
    obtain ⟨t, ht⟩ := eq_cons_of_charAt (r := q) rfl (by rcases h with h | h <;> rw [h] <;> decide)
    exact ⟨t, ht.symm⟩
  · exact nil_prefix

def lead (nptr : List UInt8) : List UInt8 :=
  nptr.takeWhile isspace ++ signAt (charAt nptr (nptr.takeWhile isspace).length)

/-- The string after its white space and its sign. -/
abbrev body (nptr : List UInt8) : List UInt8 := nptr.drop (lead nptr).length

theorem lead_append (nptr : List UInt8) : lead nptr ++ body nptr = nptr := by
  have hstart : nptr.takeWhile isspace <+: nptr := takeWhile_prefix isspace
  have hspace := prefix_iff_eq_append.1 hstart
  have hsign := signAt_isPrefix (nptr.drop (nptr.takeWhile isspace).length)
  rw [charAt_drop] at hsign
  have hlead := (prefix_append_right_inj (nptr.takeWhile isspace)).mpr hsign
  rw [hspace] at hlead
  exact prefix_iff_eq_append.1 hlead

/-- A subject sequence in front of the string has all its white space and its sign. -/
theorem Subject.split (hsubject : Subject base binCst p negative m) (h : p <+: nptr) :
    ∃ num, p = lead nptr ++ num ∧ num <+: body nptr ∧
      negative = (charAt nptr (nptr.takeWhile isspace).length == byte '-') ∧
      Numeral base binCst num m ∧ charAt nptr (nptr.takeWhile isspace).length ≠ 0 := by
  obtain ⟨hspace, hsign, hnum⟩ := hsubject
  rename_i space sign num
  obtain ⟨t, rfl⟩ := h
  obtain ⟨c, rest, rfl, hc⟩ := hnum.head
  obtain ⟨hcspace, hplus, hminus, hnul⟩ := of_digitValue_ne_none hc
  -- the first character after the white space
  obtain ⟨d, tail, hd, hdspace, hdsign, hneg, hdnul⟩ :
      ∃ d tail, sign ++ c :: rest ++ t = d :: tail ∧
      isspace d = false ∧ signAt d = sign ∧ negative = (d == byte '-') ∧ d ≠ 0 := by
    cases hsign with
    | none =>
      refine ⟨c, rest ++ t, rfl, hcspace, ?_, ?_, hnul⟩
      · rw [signAt, if_neg (by simp [hplus, hminus])]
      · simpa using hminus
    | plus => exact ⟨byte '+', c :: rest ++ t, rfl, by decide, by decide, by decide, by decide⟩
    | minus => exact ⟨byte '-', c :: rest ++ t, rfl, by decide, by decide, by decide, by decide⟩
  have htake : (space ++ sign ++ c :: rest ++ t).takeWhile isspace = space := by
    rw [append_assoc, append_assoc, ← append_assoc sign, hd,
      takeWhile_append_of_pos hspace, takeWhile_cons, hdspace]
    simp
  have hchar : charAt (space ++ sign ++ c :: rest ++ t) space.length = d := by
    rw [append_assoc, append_assoc, ← append_assoc sign, hd]
    simp [charAt]
  have hlead : lead (space ++ sign ++ c :: rest ++ t) = space ++ sign := by
    rw [lead, htake, hchar, hdsign]
  rw [body, hlead, htake, hchar, append_assoc (space ++ sign), drop_left]
  exact ⟨c :: rest, rfl, prefix_append _ _, hneg, hnum, hdnul⟩

theorem toupper_of_mem_lead (h : c ∈ lead nptr) : toupper c ≠ byte 'X' ∧ toupper c ≠ byte 'B' := by
  have hspace : ∀ c, isspace c = true → toupper c ≠ byte 'X' ∧ toupper c ≠ byte 'B' :=
    forall_byte (by decide +kernel)
  rcases mem_append.mp h with h | h
  · exact hspace c (mem_takeWhile_imp h)
  · unfold signAt at h
    split at h
    · next hsign =>
      rw [← mem_singleton.mp h] at hsign
      rcases hsign with rfl | rfl <;> decide
    · cases h

/-- The function without its pointers. -/
theorem strtolInternal_eq (unsigned binCst : Bool) (nptr : List UInt8)
    (hbase : base = 0 ∨ 2 ≤ base ∧ base ≤ 36) : strtolInternal unsigned binCst nptr base =
      if charAt nptr (nptr.takeWhile isspace).length = 0 then ⟨0, some 0, none⟩
      else
        let pair := numberPrefix (body nptr) binCst base 0
        let scan := digitLoop pair.2 ((body nptr).drop pair.1)
          ⟨(lead nptr).length + pair.1, 0, false⟩
        if scan.s = (lead nptr).length + pair.1 then
          noconv nptr binCst ((lead nptr).length + pair.1)
        else finish unsigned (charAt nptr (nptr.takeWhile isspace).length == byte '-') scan := by
  have hsign :
      ∀ c : UInt8, ∀ s, (if c = byte '-' then s + 1 else if c = byte '+' then s + 1 else s) =
      s + (signAt c).length := by
    intro c s
    unfold signAt
    split_ifs <;> simp_all
  rw [strtolInternal, if_neg (by omega), skipSpace_eq, zero_add]
  simp only [hsign, numberPrefix_drop nptr, body, lead, length_append, drop_drop]
  rfl

section Parts

variable {base : Nat} {binCst : Bool} {nptr : List UInt8}

/-- From the longest number to the longest subject sequence. -/
theorem longest_of_numeral {num : List UInt8} {m : Nat} (hnum : Numeral base binCst num m)
    (hstarts : num <+: body nptr)
    (hlongest : ∀ num' m', Numeral base binCst num' m' → num' <+: body nptr →
      num'.length ≤ num.length ∧ (num'.length = num.length → m' = m)) :
    Longest base binCst nptr (lead nptr ++ num)
      (charAt nptr (nptr.takeWhile isspace).length == byte '-') m := by
  have hp : lead nptr ++ num <+: nptr := by
    nth_rewrite 2 [← lead_append nptr]
    exact (prefix_append_right_inj _).mpr hstarts
  refine ⟨hp, ?_, ?_, ?_⟩
  · exact .mk (fun c hc => mem_takeWhile_imp hc) (sign_signAt _) hnum
  · intro q n v hqn hq
    obtain ⟨num', rfl, hle, -, hnum', -⟩ := hq.split hqn
    rw [length_append, length_append]
    exact Nat.add_le_add_left (hlongest num' v hnum' hle).1 _
  · intro n v hq
    obtain ⟨num', heq, hle, hn, hnum', -⟩ := hq.split hp
    obtain rfl := append_cancel_left heq
    exact ⟨hn, (hlongest _ v hnum' hle).2 rfl⟩

/-- Without a number there is no subject sequence. -/
theorem no_subject (hnone : ∀ num m, Numeral base binCst num m →
      ¬ num <+: body nptr) :
    ∀ q negative m, q <+: nptr → ¬ Subject base binCst q negative m := by
  intro q negative m hqn hq
  obtain ⟨num, -, hle, -, hnum, -⟩ := hq.split hqn
  exact hnone num m hnum hle

/-- The `0` of a prefix without digits. -/
theorem noconv_afterPrefix {e : Nat} (hpre : Prefixed base binCst (body nptr) (2, e)) :
    noconv nptr binCst ((lead nptr).length + 2) = ⟨0, some ((lead nptr).length + 1), none⟩ ∧
      Numeral base binCst [byte '0'] 0 ∧ [byte '0'] <+: body nptr := by
  have hdigit : ∀ b, 0 < b → ∀ c ∈ [byte '0'], IsDigit b c := by
    intro b hb c hc
    rw [mem_singleton.mp hc]
    exact ⟨0, by decide, hb⟩
  have hnumeral : base = 0 ∨ 0 < base → Numeral base binCst [byte '0'] 0 := by
    rintro (rfl | hpos)
    · exact .mk (.octal rfl) (by simp) (hdigit 8 (by decide))
    · have hmag : magnitude base [byte '0'] = 0 := by simp [magnitude]; decide
      rw [← hmag]
      exact .mk (.plain (by omega)) (by simp) (hdigit base hpos)
  have hzero : charAt (body nptr) 0 = byte '0' := by
    cases hpre with
    | hex hzero => exact hzero
    | binary hzero => exact hzero
  obtain ⟨t, ht⟩ := eq_cons_of_charAt hzero (by decide)
  have hletter : toupper (charAt nptr ((lead nptr).length + 2 - 1)) = byte 'X' ∨
      binCst = true ∧ toupper (charAt nptr ((lead nptr).length + 2 - 1)) = byte 'B' := by
    rw [show (lead nptr).length + 2 - 1 = (lead nptr).length + 1 by omega, ← charAt_drop]
    cases hpre with
    | hex _ _ hletter => exact .inl ((toupper_eq_X _).mpr hletter)
    | binary _ hconst _ hletter => exact .inr ⟨hconst, (toupper_eq_B _).mpr hletter⟩
  refine ⟨?_, hnumeral (by omega), ⟨t, ht.symm⟩⟩
  rw [charAt_drop] at hzero
  rw [noconv, if_pos ⟨by omega, hletter, hzero⟩]
  rfl

theorem noconv_plain : noconv nptr binCst (lead nptr).length = ⟨0, some 0, none⟩ := by
  rw [noconv, if_neg]
  rintro ⟨hlong, hletter, -⟩
  have hlast : charAt nptr ((lead nptr).length - 1) ∈ lead nptr := by
    have hlt : (lead nptr).length - 1 < (lead nptr).length := by omega
    have hget : (lead nptr ++ body nptr)[(lead nptr).length - 1]? =
        (lead nptr)[(lead nptr).length - 1]? := getElem?_append_left hlt
    rw [lead_append, getElem?_eq_getElem hlt] at hget
    rw [charAt, getD_eq_getElem?_getD, hget]
    exact getElem_mem hlt
  obtain ⟨hx, hb⟩ := toupper_of_mem_lead hlast
  rcases hletter with hletter | ⟨-, hletter⟩
  · exact hx hletter
  · exact hb hletter

end Parts

/-- `strtol` and its relatives find the longest subject sequence and its value, and take nothing
from a string that has none. -/
theorem strtol_subject (unsigned binCst : Bool) (nptr : List UInt8) (base : Nat)
    (hbase : base = 0 ∨ 2 ≤ base ∧ base ≤ 36) :
    (∃ p negative m, Longest base binCst nptr p negative m ∧
      strtolInternal unsigned binCst nptr base =
        ⟨(represent unsigned negative m).1, some p.length, (represent unsigned negative m).2⟩) ∨
    (∀ q negative m, q <+: nptr → ¬ Subject base binCst q negative m) ∧
      strtolInternal unsigned binCst nptr base = ⟨0, some 0, none⟩ := by
  rw [strtolInternal_eq unsigned binCst nptr hbase]
  by_cases hnul : charAt nptr (nptr.takeWhile isspace).length = 0
  · refine .inr ⟨fun q negative m hqn hq => ?_, if_pos hnul⟩
    obtain ⟨-, -, -, -, -, hne⟩ := hq.split hqn
    exact hne hnul
  rw [if_neg hnul]
  have hpre := numberPrefix_prefixed binCst base (body nptr)
  have hbounds := fun num m (hnum : Numeral base binCst num m)
    (h : num <+: body nptr) => hnum.bounds h
  generalize numberPrefix (body nptr) binCst base 0 = pair at hpre hbounds ⊢
  obtain ⟨k, e⟩ := pair
  dsimp only at hbounds ⊢
  have he : 2 ≤ e ∧ e ≤ 36 := by
    cases hpre with
    | plain hgiven => omega
    | _ => decide
  have hk : k = 0 ∨ k = 2 := by
    cases hpre <;> decide
  obtain ⟨hs, htracks⟩ := digitLoop_spec he.1 he.2 ((body nptr).drop k)
    (⟨fun _ => rfl, by simp⟩ : Tracks ⟨(lead nptr).length + k, 0, false⟩ 0)
  rw [hs]
  by_cases hdigits : digits e ((body nptr).drop k) = []
  · rw [hdigits, length_nil, add_zero, if_pos rfl]
    rcases hk with rfl | rfl
    · refine .inr ⟨no_subject fun num m hnum h => ?_, noconv_plain⟩
      rcases hbounds num m hnum h with hb | ⟨hk, -⟩
      · exact hb.nonempty hdigits
      · cases hk
    · obtain ⟨hnoconv, hnum, hzero⟩ := noconv_afterPrefix hpre
      refine .inl ⟨_, _, 0, longest_of_numeral hnum hzero fun num' m' hnum' h' => ?_, ?_⟩
      · rcases hbounds num' m' hnum' h' with hb | ⟨-, hle, hm⟩
        · exact absurd hdigits hb.nonempty
        · exact ⟨hle, fun _ => hm⟩
      · have hvalue : ∀ n, represent unsigned n 0 = (0, none) := by
          intro n
          cases unsigned <;> cases n <;> decide
        rw [hnoconv, hvalue, length_append]
        rfl
  · have hlength : 0 < (digits e ((body nptr).drop k)).length :=
      length_pos_iff.mpr hdigits
    have htake : ((body nptr).take k).length = k := by
      have hle := (digits_isPrefix e ((body nptr).drop k)).length_le
      rw [length_drop] at hle
      rw [length_take]
      omega
    have hstarts : (body nptr).take k ++
        digits e ((body nptr).drop k) <+: body nptr := by
      nth_rewrite 3 [← take_append_drop k (body nptr)]
      exact (prefix_append_right_inj _).mpr (digits_isPrefix _ _)
    rw [if_neg (by dsimp only; omega), finish_eq htracks, hs]
    refine .inl ⟨_, _, _, longest_of_numeral (numeral_digits hpre hdigits) hstarts ?_, ?_⟩
    · intro num' m' hnum' h'
      rw [length_append, htake]
      rcases hbounds num' m' hnum' h' with hb | ⟨hk, hle, -⟩
      · exact ⟨hb.le, hb.eq⟩
      · exact ⟨by omega, fun heq => by omega⟩
    · rw [length_append, length_append, htake, add_assoc]
      rfl

/-- A hexadecimal number with its prefix, out of range. -/
theorem strtol_subject_hex : ∃ p negative m,
    Longest 16 false (bytesOf " -0x8000000000000001z") p negative m ∧
      strtolInternal false false (bytesOf " -0x8000000000000001z") 16 =
        ⟨(represent false negative m).1, some p.length, (represent false negative m).2⟩ := by
  rcases strtol_subject false false (bytesOf " -0x8000000000000001z") 16 (by decide) with
    hfound | ⟨-, hnone⟩
  · exact hfound
  · exact absurd hnone (by decide +kernel)

/-- A minus sign in front of a number is no error for the unsigned functions. -/
theorem strtoul_negates : Subject 10 false (bytesOf "-1") true 1 ∧
    strtolInternal true false (bytesOf "-1") 10 = ⟨2 ^ 64 - 1, some 2, none⟩ := by
  have hnum : Numeral 10 false ([] ++ [byte '1']) (magnitude 10 [byte '1']) :=
    .mk (.plain (by decide)) (by decide) (by decide +kernel)
  have hsubject : Subject 10 false ([] ++ [byte '-'] ++ ([] ++ [byte '1'])) true
      (magnitude 10 [byte '1']) := .mk (fun c hc => nomatch hc) .minus hnum
  exact ⟨hsubject, by decide +kernel⟩

end SafeLibc.Stdlib
