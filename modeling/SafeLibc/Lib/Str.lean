import Mathlib.Data.List.Basic
import Mathlib.Data.List.DropRight
import Mathlib.Data.List.Induction
import Mathlib.Tactic.Ring

/-!
# Strings as lists of characters

The operations of a string library that the modelled programs use, on lists of characters.
-/

namespace SafeLibc.Lib

open List

/-- The Unicode property `White_Space`. -/
def isWhitespace (c : Char) : Bool :=
  let n := c.toNat
  (9 ≤ n && n ≤ 13) || n == 0x20 || n == 0x85 || n == 0xa0 || n == 0x1680 ||
    (0x2000 ≤ n && n ≤ 0x200a) || n == 0x2028 || n == 0x2029 || n == 0x202f || n == 0x205f ||
    n == 0x3000

def trimStart (s : List Char) : List Char := s.dropWhile isWhitespace

def trimEnd (s : List Char) : List Char := (s.reverse.dropWhile isWhitespace).reverse

def trim (s : List Char) : List Char := trimEnd (trimStart s)

theorem mem_of_mem_trim {s : List Char} {c : Char} (h : c ∈ trim s) : c ∈ s := by
  rw [trim, trimEnd, mem_reverse] at h
  exact dropWhile_subset _ (mem_reverse.1 (dropWhile_subset _ h))

/-- Characters of which the first and the last are not white space. -/
def Trimmed (s : List Char) : Prop :=
  s ≠ [] ∧ s.head?.all (!isWhitespace ·) ∧ s.getLast?.all (!isWhitespace ·)

theorem trim_padded {pad s pad' : List Char} (hpad : ∀ c ∈ pad, isWhitespace c = true)
    (hpad' : ∀ c ∈ pad', isWhitespace c = true) (hs : Trimmed s) :
    trim (pad ++ (s ++ pad')) = s := by
  obtain ⟨hne, hhead, hlast⟩ := hs
  have hstart : ∀ {t u : List Char}, t ≠ [] → t.head?.all (!isWhitespace ·) →
      (t ++ u).dropWhile isWhitespace = t ++ u := by
    intro t u ht hfirst
    obtain ⟨c, t, rfl⟩ := exists_cons_of_ne_nil ht
    exact dropWhile_cons_of_neg (by simpa using hfirst)
  rw [trim, trimStart, dropWhile_append_of_pos hpad, hstart hne hhead, trimEnd, reverse_append,
    dropWhile_append_of_pos (by simpa using hpad')]
  have hend := hstart (t := s.reverse) (u := []) (by simpa using hne) (by simpa using hlast)
  rw [append_nil] at hend
  rw [hend, reverse_reverse]

theorem Trimmed.trim_eq {s : List Char} (h : Trimmed s) : trim s = s := by
  have htrim := @trim_padded [] s [] (by simp) (by simp) h
  rwa [nil_append, append_nil] at htrim

theorem trimmed_trim {s : List Char} (hne : trim s ≠ []) : Trimmed (trim s) := by
  refine ⟨hne, ?_, ?_⟩
  · -- the first character that is kept at the end is the first that is kept at the start
    obtain ⟨c, rest, htrim⟩ := exists_cons_of_ne_nil hne
    obtain ⟨last, hlast⟩ := rdropWhile_prefix isWhitespace (trimStart s)
    change trim s ++ last = s.dropWhile isWhitespace at hlast
    rw [htrim, cons_append] at hlast
    have hhead := head_dropWhile_not isWhitespace (hlast ▸ cons_ne_nil _ _)
    simpa [htrim, ← hlast] using hhead
  · have hlast := rdropWhile_last_not isWhitespace (trimStart s) hne
    change ¬ isWhitespace ((trim s).getLast hne) = true at hlast
    simpa [getLast?_eq_some_getLast hne] using hlast

theorem trim_trim (s : List Char) : trim (trim s) = trim s := by
  by_cases hne : trim s = []
  · rw [hne]
    rfl
  · exact (trimmed_trim hne).trim_eq

def before (pattern : List Char) : List Char → List Char
  | [] => []
  | c :: s => if pattern.isPrefixOf (c :: s) then [] else c :: before pattern s

def isDecimalDigit (c : Char) : Bool := '0' ≤ c && c ≤ '9'

def stripHead {α : Type*} [BEq α] (head l : List α) : Option (List α) :=
  if head.isPrefixOf l then some (l.drop head.length) else none

theorem stripHead_append {α : Type*} [BEq α] [LawfulBEq α] (head l : List α) :
    stripHead head (head ++ l) = some l := by
  rw [stripHead, if_pos (by simp), drop_left]

/-- Another head is not found before a text, when neither head starts with the other. -/
theorem stripHead_append_eq_none {α : Type*} [BEq α] [LawfulBEq α] {head other : List α}
    (h : head.isPrefixOf other = false) (h' : other.isPrefixOf head = false) (l : List α) :
    stripHead head (other ++ l) = none := by
  rw [stripHead, if_neg]
  intro hstart
  have hstart := isPrefixOf_iff_prefix.mp hstart
  rcases prefix_or_prefix_of_prefix hstart (prefix_append other l) with hhead | hother
  · have hhead := isPrefixOf_iff_prefix.mpr hhead
    rw [hhead] at h
    cases h
  · have hother := isPrefixOf_iff_prefix.mpr hother
    rw [hother] at h'
    cases h'

theorem stripHead_eq_some {α : Type*} [BEq α] [LawfulBEq α] {head l rest : List α} :
    stripHead head l = some rest ↔ l = head ++ rest := by
  constructor
  · intro h
    unfold stripHead at h
    split at h
    · next hstart =>
      obtain ⟨t, rfl⟩ := isPrefixOf_iff_prefix.mp hstart
      rw [drop_left] at h
      rw [Option.some.inj h]
    · cases h
  · rintro rfl
    exact stripHead_append head rest

/-! ## Lines -/

def stripCr (line : List Char) : List Char :=
  if line.getLast? = some '\r' then line.dropLast else line

/-- The lines of a text; the last one may lack its newline. -/
def lines (s : List Char) : List (List Char) :=
  let pieces := s.splitOn '\n'
  pieces.dropLast.map stripCr ++ pieces.getLast?.toList.filter (· ≠ [])

theorem lines_nil : lines [] = [] := by
  simp [lines]

theorem lines_append (s rest : List Char) :
    lines (s ++ '\n' :: rest) = (s.splitOn '\n').map stripCr ++ lines rest := by
  have hpieces := splitOn_ne_nil '\n' rest
  have hlast : (s.splitOn '\n' ++ rest.splitOn '\n').getLast? = (rest.splitOn '\n').getLast? := by
    rw [getLast?_append, getLast?_eq_some_getLast hpieces]
    rfl
  rw [lines, splitOn_append_cons_self]
  simp only [dropLast_append_of_ne_nil hpieces, map_append, hlast, append_assoc]
  rfl

theorem lines_stripCr {line : List Char} (hline : '\n' ∉ line) (rest : List Char) :
    lines (line ++ '\n' :: rest) = stripCr line :: lines rest := by
  rw [lines_append, splitOn_eq_singleton hline]
  rfl

theorem lines_cons {line : List Char} (hline : '\n' ∉ line) (hcr : line.getLast? ≠ some '\r')
    (rest : List Char) : lines (line ++ '\n' :: rest) = line :: lines rest := by
  have hstrip : stripCr line = line := if_neg hcr
  rw [lines_stripCr hline, hstrip]

/-- A piece of a split text has characters of the text only, and not the separator. -/
theorem forall_mem_splitOn {α : Type*} [BEq α] [LawfulBEq α] (a : α) (s : List α) :
    ∀ piece ∈ s.splitOn a, a ∉ piece ∧ piece ⊆ s := by
  by_cases ha : a ∈ s
  · -- induction on the text behind the first separator
    obtain ⟨before, rest, rfl, hbefore⟩ := eq_append_cons_of_mem ha
    rw [splitOn_append_cons_self_of_not_mem hbefore]
    intro piece hpiece
    rcases mem_cons.mp hpiece with rfl | hpiece
    · exact ⟨hbefore, subset_append_left _ _⟩
    · obtain ⟨hnot, hsub⟩ := forall_mem_splitOn a rest piece hpiece
      exact ⟨hnot, fun c hc => mem_append_right _ (mem_cons_of_mem _ (hsub hc))⟩
  · rw [splitOn_eq_singleton ha]
    rintro piece hpiece
    obtain rfl := mem_singleton.mp hpiece
    exact ⟨ha, Subset.refl _⟩
termination_by s.length
decreasing_by
  subst_vars
  simp only [length_append, length_cons]
  omega

theorem stripCr_subset (line : List Char) : stripCr line ⊆ line := by
  unfold stripCr
  split
  · exact dropLast_subset line
  · exact Subset.refl _

theorem not_mem_of_mem_lines {s line : List Char} (h : line ∈ lines s) : '\n' ∉ line := by
  have hpieces := forall_mem_splitOn '\n' s
  simp only [lines, mem_append, mem_map, mem_filter, Option.mem_toList] at h
  rcases h with ⟨piece, hpiece, rfl⟩ | ⟨hlast, -⟩
  · intro hmem
    exact (hpieces piece (dropLast_subset _ hpiece)).1 (stripCr_subset piece hmem)
  · exact (hpieces line (mem_of_getLast? hlast)).1

/-! ## Numbers -/

def digitValue (c : Char) : Nat := c.toNat - '0'.toNat

/-- The value of a string of decimal digits, read after `acc`. -/
def digitsValue (acc : Nat) (digits : List Char) : Nat :=
  digits.foldl (fun acc c => acc * 10 + digitValue c) acc

def decimal (digits : List Char) : Option Nat :=
  if digits ≠ [] ∧ digits.all isDecimalDigit then some (digitsValue 0 digits) else none

/-- `str::parse::<i64>`. -/
def parseI64 : List Char → Option Int
  | '-' :: digits => (decimal digits).bind fun n => if n ≤ 2 ^ 63 then some (-n) else none
  | '+' :: digits => (decimal digits).bind fun n => if n < 2 ^ 63 then some n else none
  | digits => (decimal digits).bind fun n => if n < 2 ^ 63 then some n else none

/-- `str::parse::<u64>`. -/
def parseU64 : List Char → Option Nat
  | '+' :: digits => (decimal digits).bind fun n => if n < 2 ^ 64 then some n else none
  | digits => (decimal digits).bind fun n => if n < 2 ^ 64 then some n else none

section Digits

variable {digits : List Char} (hne : digits ≠ []) (hall : digits.all isDecimalDigit = true)

include hne hall

theorem not_cons_of_digits {c : Char} (hc : isDecimalDigit c = false) (rest : List Char) :
    digits ≠ c :: rest := by
  rintro rfl
  rw [all_cons, hc] at hall
  cases hall

theorem decimal_of_digits : decimal digits = some (digitsValue 0 digits) := if_pos ⟨hne, hall⟩

theorem parseU64_of_digits (hlt : digitsValue 0 digits < 2 ^ 64) :
    parseU64 digits = some (digitsValue 0 digits) := by
  unfold parseU64
  split
  · next rest => exact absurd rfl (not_cons_of_digits hne hall (c := '+') rfl rest)
  · rw [decimal_of_digits hne hall, Option.bind_some, if_pos hlt]

end Digits

theorem all_isDecimalDigit_toDigits (n : Nat) :
    (Nat.toDigits 10 n).all isDecimalDigit = true := by
  rw [all_eq_true]
  intro c hc
  have hdigit := Nat.isDigit_of_mem_toDigits (by decide) (by decide) hc
  simp only [Char.isDigit, Bool.and_eq_true, decide_eq_true_eq] at hdigit
  simp only [isDecimalDigit, Bool.and_eq_true, decide_eq_true_eq]
  exact hdigit

theorem digitValue_digitChar {d : Nat} (h : d < 10) : digitValue d.digitChar = d := by
  revert d
  decide

theorem digitsValue_toDigits (n : Nat) : digitsValue 0 (Nat.toDigits 10 n) = n := by
  induction n using Nat.strongRecOn with
  | ind n ih =>
    by_cases hlt : n < 10
    · rw [Nat.toDigits_of_lt_base hlt]
      simp [digitsValue, digitValue_digitChar hlt]
    · have hrest := ih (n / 10) (by omega)
      unfold digitsValue at hrest
      rw [Nat.toDigits_of_base_le (by decide) (by omega), digitsValue, foldl_append]
      simp only [foldl_cons, foldl_nil, digitValue_digitChar (Nat.mod_lt n (by decide))]
      omega

theorem parseU64_toDigits {n : Nat} (h : n < 2 ^ 64) : parseU64 (Nat.toDigits 10 n) = some n := by
  have hvalue := digitsValue_toDigits n
  rw [parseU64_of_digits Nat.toDigits_ne_nil (all_isDecimalDigit_toDigits n) (by rwa [hvalue]),
    hvalue]

/-- A decimal numeral, leading zeros included, and its value. -/
inductive Numeral : List Char → Nat → Prop
  | digit {d : Nat} : d < 10 → Numeral [d.digitChar] d
  | append {digits : List Char} {n d : Nat} : Numeral digits n → d < 10 →
      Numeral (digits ++ [d.digitChar]) (n * 10 + d)

theorem isDecimalDigit_digitChar {d : Nat} (h : d < 10) : isDecimalDigit d.digitChar = true := by
  revert d
  decide

theorem exists_digitChar {c : Char} (h : isDecimalDigit c = true) : ∃ d < 10, c = d.digitChar := by
  simp only [isDecimalDigit, Bool.and_eq_true, decide_eq_true_eq] at h
  have hlow : 48 ≤ c.toNat := h.1
  have hhigh : c.toNat ≤ 57 := h.2
  have hdigits : ∀ d < 10, Char.ofNat (48 + d) = d.digitChar := by decide
  refine ⟨c.toNat - 48, by omega, ?_⟩
  rw [← hdigits _ (by omega), Nat.add_sub_cancel' hlow, Char.ofNat_toNat]

theorem Numeral.digits_eq {digits : List Char} {n : Nat} (h : Numeral digits n) :
    digits ≠ [] ∧ digits.all isDecimalDigit = true ∧ digitsValue 0 digits = n := by
  induction h with
  | digit hd => simp [digitsValue, isDecimalDigit_digitChar hd, digitValue_digitChar hd]
  | append _ hd ih =>
    obtain ⟨-, hall, hvalue⟩ := ih
    refine ⟨by simp, by simp [hall, isDecimalDigit_digitChar hd], ?_⟩
    unfold digitsValue at hvalue ⊢
    rw [foldl_append, hvalue, foldl_cons, foldl_nil, digitValue_digitChar hd]

theorem Numeral.of_digits {digits : List Char} (hne : digits ≠ [])
    (hall : digits.all isDecimalDigit = true) : Numeral digits (digitsValue 0 digits) := by
  induction digits using reverseRecOn with
  | nil => exact absurd rfl hne
  | append_singleton digits c ih =>
    rw [all_append, Bool.and_eq_true] at hall
    obtain ⟨d, hd, rfl⟩ := exists_digitChar (by simpa using hall.2)
    rw [digitsValue, foldl_append, foldl_cons, foldl_nil, digitValue_digitChar hd]
    by_cases hnil : digits = []
    · subst hnil
      simpa using Numeral.digit hd
    · exact (ih hnil hall.1).append hd

theorem Numeral.ne_cons {digits : List Char} {n : Nat} (h : Numeral digits n) {c : Char}
    (hc : isDecimalDigit c = false) (rest : List Char) : digits ≠ c :: rest :=
  not_cons_of_digits h.digits_eq.1 h.digits_eq.2.1 hc rest

theorem decimal_bind_eq_some_iff {α : Type*} {digits : List Char} {f : Nat → Option α} {a : α} :
    (decimal digits).bind f = some a ↔ ∃ n, Numeral digits n ∧ f n = some a := by
  unfold decimal
  split
  · next h =>
    rw [Option.bind_some]
    refine ⟨fun hf => ⟨_, .of_digits h.1 h.2, hf⟩, ?_⟩
    rintro ⟨n, hn, hf⟩
    rwa [hn.digits_eq.2.2]
  · next h =>
    rw [Option.bind_none]
    refine iff_of_false (by simp) ?_
    rintro ⟨n, hn, -⟩
    exact h ⟨hn.digits_eq.1, hn.digits_eq.2.1⟩

theorem parseU64_eq_some_iff {raw : List Char} {n : Nat} :
    parseU64 raw = some n ↔
      ∃ digits, (raw = digits ∨ raw = '+' :: digits) ∧ Numeral digits n ∧ n < 2 ^ 64 := by
  unfold parseU64
  split
  · next digits =>
    rw [decimal_bind_eq_some_iff]
    constructor
    · rintro ⟨m, hm, hlt⟩
      split at hlt
      · next h => exact ⟨digits, .inr rfl, Option.some.inj hlt ▸ hm, Option.some.inj hlt ▸ h⟩
      · cases hlt
    · rintro ⟨_, rfl | hraw, hn, hlt⟩
      · exact absurd rfl (hn.ne_cons rfl digits)
      · obtain rfl := (cons.inj hraw).2
        exact ⟨n, hn, if_pos hlt⟩
  · next hsign =>
    rw [decimal_bind_eq_some_iff]
    constructor
    · rintro ⟨m, hm, hlt⟩
      split at hlt
      · next h => exact ⟨raw, .inl rfl, Option.some.inj hlt ▸ hm, Option.some.inj hlt ▸ h⟩
      · cases hlt
    · rintro ⟨_, rfl | rfl, hn, hlt⟩
      · exact ⟨n, hn, if_pos hlt⟩
      · exact absurd rfl (hsign _)

theorem parseI64_eq_some_iff {raw : List Char} {z : Int} :
    parseI64 raw = some z ↔ ∃ digits n, Numeral digits n ∧
      (z = n ∧ (raw = digits ∨ raw = '+' :: digits) ∨ z = -n ∧ raw = '-' :: digits) ∧
        -2 ^ 63 ≤ z ∧ z < 2 ^ 63 := by
  unfold parseI64
  split
  · next digits =>
    rw [decimal_bind_eq_some_iff]
    constructor
    · rintro ⟨n, hn, hz⟩
      split at hz
      · obtain rfl := Option.some.inj hz
        exact ⟨digits, n, hn, .inr ⟨rfl, rfl⟩, by omega, by omega⟩
      · cases hz
    · rintro ⟨_, n, hn, ⟨-, rfl | hraw⟩ | ⟨rfl, ⟨⟩⟩, hlow, -⟩
      · exact absurd rfl (hn.ne_cons rfl digits)
      · cases hraw
      · exact ⟨n, hn, if_pos (by omega)⟩
  · next digits =>
    rw [decimal_bind_eq_some_iff]
    constructor
    · rintro ⟨n, hn, hz⟩
      split at hz
      · obtain rfl := Option.some.inj hz
        exact ⟨digits, n, hn, .inl ⟨rfl, .inr rfl⟩, by omega, by omega⟩
      · cases hz
    · rintro ⟨_, n, hn, ⟨rfl, rfl | hraw⟩ | ⟨-, hraw⟩, -, hhigh⟩
      · exact absurd rfl (hn.ne_cons rfl digits)
      · obtain rfl := (cons.inj hraw).2
        exact ⟨n, hn, if_pos (by omega)⟩
      · cases hraw
  · next hminus hplus =>
    rw [decimal_bind_eq_some_iff]
    constructor
    · rintro ⟨n, hn, hz⟩
      split at hz
      · obtain rfl := Option.some.inj hz
        exact ⟨raw, n, hn, .inl ⟨rfl, .inl rfl⟩, by omega, by omega⟩
      · cases hz
    · rintro ⟨_, n, hn, ⟨rfl, rfl | rfl⟩ | ⟨-, rfl⟩, -, hhigh⟩
      · exact ⟨n, hn, if_pos (by omega)⟩
      · exact absurd rfl (hplus _)
      · exact absurd rfl (hminus _)

/-- `n` in hexadecimal, padded with zeros to `width` digits. -/
def hex (width n : Nat) : List Char :=
  let digits := Nat.toDigits 16 n
  List.replicate (width - digits.length) '0' ++ digits

/-- The last part of a joined list stands after the others, each with its separator. -/
theorem intercalate_append_singleton {α : Type*} (sep : List α)
    (parts : List (List α)) (last : List α) :
    sep.intercalate (parts ++ [last]) = parts.flatMap (· ++ sep) ++ last := by
  induction parts with
  | nil => simp [intercalate]
  | cons part parts ih =>
    have hne : parts ++ [last] ≠ [] := by simp
    rw [cons_append, intercalate_cons_of_ne_nil hne, ih]
    simp [append_assoc]

/-! ## Strings that end in a NUL -/

/-- A C string: its characters, none of which is NUL. -/
@[ext]
structure CString where
  chars : List UInt8
  no_nul : 0 ∉ chars
  deriving DecidableEq

namespace CString

def empty : CString := ⟨[], not_mem_nil⟩

/-- The bytes of a string in memory. -/
def stored (s : CString) : List UInt8 := s.chars ++ [0]

end CString

/-- The string at an address, given the bytes from there on. -/
def cstringAt (bytes : List UInt8) : CString :=
  ⟨bytes.takeWhile (· ≠ 0), fun hmem => by simpa using mem_takeWhile_imp hmem⟩

/-- The bytes after the string at an address. -/
def afterNul (bytes : List UInt8) : List UInt8 := (bytes.dropWhile (· ≠ 0)).tail

section

variable (s : CString) (rest : List UInt8)

theorem ne_nul_of_mem : ∀ b ∈ s.chars, decide (b ≠ 0) = true := by
  intro b hb
  simpa using fun heq : b = 0 => s.no_nul (heq ▸ hb)

theorem cstringAt_stored : cstringAt (s.stored ++ rest) = s := by
  apply CString.ext
  change (s.stored ++ rest).takeWhile (· ≠ 0) = s.chars
  rw [CString.stored, append_assoc, takeWhile_append_of_pos (ne_nul_of_mem s)]
  simp

theorem afterNul_stored : afterNul (s.stored ++ rest) = rest := by
  rw [afterNul, CString.stored, append_assoc, dropWhile_append_of_pos (ne_nul_of_mem s)]
  simp

theorem head?_stored : (s.stored ++ rest).head? = some 0 ↔ s = CString.empty := by
  obtain ⟨chars, hchars⟩ := s
  cases chars with
  | nil => simp [CString.stored, CString.empty]
  | cons b chars =>
    have hb : b ≠ 0 := fun heq => hchars (heq ▸ mem_cons_self)
    simp [CString.stored, CString.empty, hb]

end

end SafeLibc.Lib
