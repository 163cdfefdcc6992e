import Mathlib.Data.Nat.Digits.Lemmas

/-!
# Numerals

A numeral is a list of digits, the most significant first. `numeral base n` is the shortest one, as
a conversion that prints numbers gives it, and `valueOf` reads a numeral back.
-/

namespace SafeLibc.Lib

open List

def valueOf (base : Nat) (ds : List Nat) : Nat := ds.foldl (fun v d => v * base + d) 0

/-- The digits of a number without leading zeros; `0` itself is one digit. -/
def numeral (base n : Nat) : List Nat := if n = 0 then [0] else (Nat.digits base n).reverse

variable {base n : Nat} {ds : List Nat}

theorem valueOf_append_singleton (base : Nat) (ds : List Nat) (d : Nat) :
    valueOf base (ds ++ [d]) = valueOf base ds * base + d := by
  rw [valueOf, foldl_append]
  rfl

/-- A numeral with a leading digit that is not zero has at least the value of its length. -/
theorem pow_le_valueOf (base : Nat) {d : Nat} (hd : d ≠ 0) (ds : List Nat) :
    base ^ ds.length ≤ valueOf base (d :: ds) := by
  induction ds using reverseRecOn with
  | nil =>
    simp only [valueOf, foldl_cons, foldl_nil, length_nil, pow_zero]
    omega
  | append_singleton ds e ih =>
    rw [← cons_append, valueOf_append_singleton, length_append, length_singleton]
    exact le_trans (Nat.mul_le_mul_right _ ih) (Nat.le_add_right _ _)

theorem valueOf_reverse (base : Nat) (ds : List Nat) :
    valueOf base ds.reverse = Nat.ofDigits base ds := by
  induction ds with
  | nil => rfl
  | cons d ds ih =>
    rw [reverse_cons, valueOf_append_singleton, ih, Nat.ofDigits_cons, mul_comm,
      add_comm]

theorem valueOf_numeral (base n : Nat) : valueOf base (numeral base n) = n := by
  unfold numeral
  split
  · next h => rw [h]; simp [valueOf]
  · rw [valueOf_reverse, Nat.ofDigits_digits]

theorem numeral_lt (hbase : 1 < base) {d : Nat} (hd : d ∈ numeral base n) : d < base := by
  unfold numeral at hd
  split at hd
  · rw [mem_singleton.1 hd]
    omega
  · exact Nat.digits_lt_base hbase (mem_reverse.1 hd)

theorem numeral_ne_nil (base n : Nat) : numeral base n ≠ [] := by
  unfold numeral
  split
  · exact cons_ne_nil _ _
  · next h => simpa [Nat.digits_eq_nil_iff_eq_zero] using h

theorem length_numeral_le (hbase : 1 < base) {k : Nat} (hk : 0 < k) (h : n < base ^ k) :
    (numeral base n).length ≤ k := by
  unfold numeral
  split
  · exact hk
  · rw [length_reverse]
    exact (Nat.digits_length_le_iff hbase n).2 h

/-- A numeral that starts with a zero is the one of `0`. -/
theorem eq_nil_of_numeral_eq (h : numeral base n = 0 :: ds) : ds = [] := by
  unfold numeral at h
  split at h
  · exact (List.cons.inj h).2.symm
  · next hn =>
    have hlast := Nat.getLast_digit_ne_zero base hn
    have hdigits : Nat.digits base n = ds.reverse ++ [0] := by
      rw [← reverse_reverse (Nat.digits base n), h, reverse_cons]
    simp [hdigits] at hlast

end SafeLibc.Lib
