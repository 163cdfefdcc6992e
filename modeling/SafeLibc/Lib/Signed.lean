import Mathlib.Data.Int.ModEq
import Mathlib.Tactic.Ring

/-!
# Signed arithmetic and residues

In C, a signed operation whose result is not representable has no meaning. `int` and `long` stand
around each such operation: they give its exact result, or `none`. Quotients and remainders are
`Int.tdiv` and `Int.tmod`; the corrections that turn them into floors are the lemmas below.
-/

namespace SafeLibc.Lib

/-- The result of an operation of type `int`, of 32 bits. -/
def int (x : Int) : Option Int := if -2 ^ 31 ≤ x ∧ x < 2 ^ 31 then some x else none

/-- The result of an operation of type `long`, of 64 bits. -/
def long (x : Int) : Option Int := if -2 ^ 63 ≤ x ∧ x < 2 ^ 63 then some x else none

section

variable {x y : Int}

theorem int_of_bounds (h : -2 ^ 31 ≤ x ∧ x < 2 ^ 31) : int x = some x := if_pos h

theorem long_of_bounds (h : -2 ^ 63 ≤ x ∧ x < 2 ^ 63) : long x = some x := if_pos h

theorem eq_of_int (h : int x = some y) : y = x := by
  unfold int at h
  split at h
  · exact (Option.some.inj h).symm
  · cases h

theorem eq_of_long (h : long x = some y) : y = x := by
  unfold long at h
  split at h
  · exact (Option.some.inj h).symm
  · cases h

end

variable {β : Type} {b : Option β} {x : Int} {f : Int → Option β}

theorem bind_of_eq {α : Type} {x : Option α} {a : α} {f : α → Option β}
    (hx : x = some a) (hf : f a = b) : (x >>= f) = b := by
  rw [hx]
  exact hf

theorem bind_int
    (hx : -2 ^ 31 ≤ x ∧ x < 2 ^ 31) (hf : f x = b) : (int x >>= f) = b :=
  bind_of_eq (int_of_bounds hx) hf

theorem bind_long
    (hx : -2 ^ 63 ≤ x ∧ x < 2 ^ 63) (hf : f x = b) : (long x >>= f) = b :=
  bind_of_eq (long_of_bounds hx) hf

def toInt (x : Int) : Int := x.bmod (2 ^ 32)

theorem toInt_of_bounds (h : -2 ^ 31 ≤ x ∧ x < 2 ^ 31) : toInt x = x := by
  apply Int.bmod_eq_of_le
  · omega
  · omega

theorem toInt_mem (x : Int) : -2 ^ 31 ≤ toInt x ∧ toInt x < 2 ^ 31 := by
  have hlo := Int.le_bmod (x := x) (m := 2 ^ 32) (by decide)
  have hhi := Int.bmod_lt (x := x) (m := 2 ^ 32) (by decide)
  unfold toInt
  omega

def ofCond (p : Prop) [Decidable p] : Int := if p then 1 else 0

theorem ofCond_mem (p : Prop) [Decidable p] : 0 ≤ ofCond p ∧ ofCond p ≤ 1 := by
  unfold ofCond
  split <;> decide

def lowBits (k : Nat) (x : Int) : Int := x % 2 ^ k

/-! ## Floors -/

section

variable {b : Int} (hb : 0 < b) (a : Int)

include hb

/-- The quotient and the remainder of C, when the dividend is nonnegative or divisible and
otherwise. -/
theorem tdiv_tmod_cases : (a.tdiv b = a / b ∧ a.tmod b = a % b ∧ (0 ≤ a ∨ b ∣ a)) ∨
    (a.tdiv b = a / b + 1 ∧ a.tmod b = a % b - b ∧ a < 0 ∧ ¬b ∣ a) := by
  have hdiv := Int.tdiv_eq_ediv (a := a) (b := b)
  have hmod := Int.tmod_eq_emod (a := a) (b := b)
  by_cases h : 0 ≤ a ∨ b ∣ a
  · rw [if_pos h] at hdiv hmod
    exact .inl ⟨by omega, by omega, h⟩
  · rw [if_neg h, Int.sign_eq_one_of_pos hb] at hdiv
    rw [if_neg h] at hmod
    exact .inr ⟨hdiv, by omega, by omega, fun hdvd => h (.inr hdvd)⟩

/-- `a / b - (a % b < 0)` -/
theorem tdiv_sub_cond : a.tdiv b - ofCond (a.tmod b < 0) = a / b := by
  have hnonneg := Int.emod_nonneg a (Int.ne_of_gt hb)
  have hlt := Int.emod_lt_of_pos a hb
  rcases tdiv_tmod_cases hb a with ⟨hdiv, hmod, -⟩ | ⟨hdiv, hmod, -, -⟩
  · rw [hmod, ofCond]
    omega
  · rw [hmod, ofCond]
    omega

/-- `a % b + b * (a % b < 0)` -/
theorem tmod_add_cond : a.tmod b + b * ofCond (a.tmod b < 0) = a % b := by
  have hnonneg := Int.emod_nonneg a (Int.ne_of_gt hb)
  have hlt := Int.emod_lt_of_pos a hb
  rcases tdiv_tmod_cases hb a with ⟨-, hmod, -⟩ | ⟨-, hmod, -, -⟩
  · rw [ofCond, if_neg (by omega)]
    omega
  · rw [ofCond, if_pos (by omega)]
    omega

/-- `(a + (a < 0)) / b - (a < 0)` -/
theorem tdiv_add_cond : (a + ofCond (a < 0)).tdiv b - ofCond (a < 0) = a / b := by
  by_cases h : a < 0
  · have hneg : (a + 1).tdiv b = -((-(a + 1)).tdiv b) := by rw [Int.neg_tdiv, Int.neg_neg]
    have hdiv := Int.emod_add_mul_ediv (-(a + 1)) b
    have hnonneg := Int.emod_nonneg (-(a + 1)) (Int.ne_of_gt hb)
    have hlt := Int.emod_lt_of_pos (-(a + 1)) hb
    rw [ofCond, if_pos h, hneg, Int.tdiv_eq_ediv_of_nonneg (by omega)]
    generalize -(a + 1) / b = q at hdiv ⊢
    symm
    have hsplit : b - 1 - -(a + 1) % b + b * (-q - 1) = a := by
      rw [Int.mul_sub, Int.mul_neg]
      omega
    exact ((Int.ediv_emod_unique hb).2 ⟨hsplit, by omega, by omega⟩).1
  · rw [ofCond, if_neg h, Int.add_zero, Int.tdiv_eq_ediv_of_nonneg (by omega)]
    omega

end

/-! ## The next number of a residue class -/

/-- The least number from `x` on that is `r` modulo `a`. -/
def nextCongruent (a r x : Nat) : Nat := x + (((r : Int) - x) % a).toNat

section

variable {a r x y : Nat}

theorem le_nextCongruent (a r x : Nat) : x ≤ nextCongruent a r x := Nat.le_add_right _ _

theorem nextCongruent_lt (ha : 0 < a) : nextCongruent a r x < x + a := by
  have hlt := Int.emod_lt_of_pos ((r : Int) - x) (Int.natCast_pos.2 ha)
  rw [nextCongruent]
  omega

theorem nextCongruent_modEq (ha : 0 < a) : (nextCongruent a r x : Int) ≡ r [ZMOD a] := by
  have hnonneg := Int.emod_nonneg ((r : Int) - x) (Int.natCast_ne_zero.2 (Nat.ne_of_gt ha))
  rw [nextCongruent, Nat.cast_add, Int.toNat_of_nonneg hnonneg]
  calc (x : Int) + ((r : Int) - x) % a ≡ x + (r - x) [ZMOD a] := (Int.mod_modEq _ _).add_left _
    _ = r := by omega

/-- How the usual ways of rounding up are recognised. -/
theorem nextCongruent_unique (ha : 0 < a) (hle : x ≤ y) (hlt : y < x + a)
    (hmod : (y : Int) ≡ r [ZMOD a]) : nextCongruent a r x = y := by
  have hnext := le_nextCongruent a r x
  have hnext_lt := nextCongruent_lt (r := r) (x := x) ha
  -- two numbers of the class less than `a` apart
  have hdvd : (a : Int) ∣ (y : Int) - nextCongruent a r x :=
    ((nextCongruent_modEq ha).trans hmod.symm).dvd
  have hzero := Int.eq_zero_of_abs_lt_dvd hdvd (by rw [abs_lt]; omega)
  omega

theorem nextCongruent_of_le (hr : r < a) (hle : x ≤ r) : nextCongruent a r x = r :=
  nextCongruent_unique (by omega) hle (by omega) (Int.ModEq.refl _)

theorem nextCongruent_eq_roundup (hr : r < a) (hle : r ≤ x) :
    nextCongruent a r x = (x - r + (a - 1)) / a * a + r := by
  have hmul := Nat.div_add_mod' (x - r + (a - 1)) a
  have hrest := Nat.mod_lt (x - r + (a - 1)) (show a > 0 by omega)
  apply nextCongruent_unique
  · omega
  · omega
  · omega
  · rw [Nat.cast_add, Nat.cast_mul]
    apply Int.modEq_iff_dvd.2
    exact ⟨-(((x - r + (a - 1)) / a : Nat) : Int), by ring⟩

end

end SafeLibc.Lib
