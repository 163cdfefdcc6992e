import Mathlib.Tactic.Ring

/-!
# Fixed-width arithmetic on naturals and integers

Machine integers are naturals (or integers) below their bound, and every operation that can leave
the range says what happens there: a checked operation gives `none`, a saturating one the largest
value, a wrapping one the residue. An operation whose behaviour depends on how the program was
built takes an `Overflow` and is partial: `none` is the abort of a build with overflow checks.
Two's complement wrapping is the library's balanced remainder `Int.bmod`.
-/

namespace SafeLibc.Lib

/-- An operator whose result is out of range aborts (a build with checks) or keeps the low bits. -/
inductive Overflow
  | panic
  | wrap
  deriving DecidableEq, Repr

/-- The result `n` of an unsigned operation at `w` bits. -/
def Overflow.settle (mode : Overflow) (w n : Nat) : Option Nat :=
  if n < 2 ^ w then some n
  else match mode with
    | .panic => none
    | .wrap => some (n % 2 ^ w)

variable {w r n a b : Nat} {mode : Overflow} {ε α : Type}

theorem Overflow.settle_of_lt (h : n < 2 ^ w) : mode.settle w n = some n := by
  simp [Overflow.settle, h]

/-- Whatever the mode, a result is in range and congruent to the exact one. -/
theorem Overflow.settle_eq_some (h : mode.settle w n = some r) : r = n % 2 ^ w := by
  unfold Overflow.settle at h
  split at h
  · next hn =>
    rw [Nat.mod_eq_of_lt hn]
    exact (Option.some.inj h).symm
  · cases mode with
    | panic => cases h
    | wrap => exact (Option.some.inj h).symm

theorem Overflow.settle_lt (h : mode.settle w n = some r) : r < 2 ^ w := by
  rw [Overflow.settle_eq_some h]
  exact Nat.mod_lt _ (Nat.two_pow_pos w)

/-- With overflow checks a result is the exact one. -/
theorem Overflow.lt_of_settle_panic (h : Overflow.panic.settle w n = some r) :
    n < 2 ^ w ∧ r = n := by
  unfold Overflow.settle at h
  split at h
  · next hlt => exact ⟨hlt, (Option.some.inj h).symm⟩
  · cases h

def checkedAdd (w a b : Nat) : Option Nat :=
  if a + b < 2 ^ w then some (a + b) else none

theorem checkedAdd_eq_some : checkedAdd w a b = some r ↔ r = a + b ∧ a + b < 2 ^ w := by
  unfold checkedAdd
  split <;> simp_all [eq_comm]

def checkedMul (w a b : Nat) : Option Nat :=
  if a * b < 2 ^ w then some (a * b) else none

theorem checkedMul_eq_some : checkedMul w a b = some r ↔ r = a * b ∧ a * b < 2 ^ w := by
  unfold checkedMul
  split <;> simp_all [eq_comm]

def saturatingAdd (w a b : Nat) : Nat :=
  min (a + b) (2 ^ w - 1)

/-- The test of a loop over digits, made before the next digit is added. -/
theorem cutoff_lt_iff {m base i d : Nat} (hd : d < base) :
    (i > m / base ∨ i = m / base ∧ d > m % base) ↔ m < i * base + d := by
  have hdiv := Nat.div_add_mod' m base
  have hmod := Nat.mod_lt m (Nat.zero_lt_of_lt hd)
  generalize m / base = q at *
  rcases Nat.lt_trichotomy i q with hlt | rfl | hgt
  · have hmul := Nat.mul_le_mul_right base (Nat.succ_le_of_lt hlt)
    rw [Nat.succ_mul] at hmul
    omega
  · omega
  · have hmul := Nat.mul_le_mul_right base (Nat.succ_le_of_lt hgt)
    rw [Nat.succ_mul] at hmul
    omega

/-! ## Runs that may fault -/

@[simp] theorem ok_bind {β : Type} (x : α) (f : α → Except ε β) : (Except.ok x >>= f) = f x := rfl

@[simp] theorem pure_ok (x : α) : (pure x : Except ε α) = .ok x := rfl

end SafeLibc.Lib
