import Mathlib.Algebra.BigOperators.Group.Finset.Piecewise
import Mathlib.Data.Fintype.Card

/-!
# Counting threads

The threads of a concurrent program are the indices of a function to program counters, and one
thread takes a step by an update at its index. `population p pc` is the number of threads at a
program counter that satisfies `p`. A step changes it by what the thread leaves and what it enters
(`population_update`), so a counting invariant is kept by linear arithmetic.
-/

namespace SafeLibc.Lib

variable {ι P : Type*} [Fintype ι]

def population (p : P → Bool) (pc : ι → P) : Nat := (Finset.univ.filter fun t => p (pc t)).card

theorem population_eq_sum (p : P → Bool) (pc : ι → P) :
    population p pc = ∑ t, (p (pc t)).toNat := by
  rw [population, Finset.card_filter]
  refine Finset.sum_congr rfl fun t _ => ?_
  cases p (pc t) <;> rfl

theorem population_le_card (p : P → Bool) (pc : ι → P) : population p pc ≤ Fintype.card ι :=
  Finset.card_le_univ _

variable {pc : ι → P} {p : P → Bool} {t : ι}

theorem population_pos : 0 < population p pc ↔ ∃ t, p (pc t) = true := by
  rw [population, Finset.card_pos]
  constructor
  · rintro ⟨t, ht⟩
    exact ⟨t, (Finset.mem_filter.mp ht).2⟩
  · rintro ⟨t, ht⟩
    exact ⟨t, Finset.mem_filter.mpr ⟨Finset.mem_univ t, ht⟩⟩

theorem population_eq_zero : population p pc = 0 ↔ ∀ t, p (pc t) = false := by
  rw [← Nat.le_zero, ← not_lt, population_pos]
  simp

theorem population_eq_card (h : ∀ t, p (pc t) = true) : population p pc = Fintype.card ι := by
  rw [population, Finset.filter_true_of_mem fun t _ => h t, Finset.card_univ]

/-- Where at most one thread is, two threads are the same one. -/
theorem eq_of_population_le_one (h : population p pc ≤ 1) {u : ι} (ht : p (pc t) = true)
    (hu : p (pc u) = true) : t = u :=
  Finset.card_le_one.mp h t (Finset.mem_filter.mpr ⟨Finset.mem_univ t, ht⟩) u
    (Finset.mem_filter.mpr ⟨Finset.mem_univ u, hu⟩)

/-- **One thread moves**: the count loses what it leaves and gains what it enters. -/
theorem population_update [DecidableEq ι] {x : P} (h : pc t = x) (p : P → Bool) (y : P) :
    population p (Function.update pc t y) + (p x).toNat = population p pc + (p y).toNat := by
  rw [population_eq_sum, population_eq_sum, ← Finset.add_sum_erase _ _ (Finset.mem_univ t),
    ← Finset.add_sum_erase Finset.univ (fun u => (p (pc u)).toNat) (Finset.mem_univ t)]
  have hothers : ∑ u ∈ Finset.univ.erase t, (p (Function.update pc t y u)).toNat =
      ∑ u ∈ Finset.univ.erase t, (p (pc u)).toNat := by
    refine Finset.sum_congr rfl fun u hu => ?_
    rw [Function.update_of_ne (Finset.ne_of_mem_erase hu)]
  rw [Function.update_self, h]
  omega

/-- **All threads move**: what is kept when one thread goes on by `f` is kept when each of them
does. -/
theorem comp_of_update [DecidableEq ι] {Q : (ι → P) → Prop} {f : P → P}
    (hone : ∀ pc t, Q pc → Q (Function.update pc t (f (pc t)))) (h : Q pc) :
    Q fun t => f (pc t) := by
  have hsome : ∀ threads : Finset ι, Q fun t => if t ∈ threads then f (pc t) else pc t := by
    intro threads
    induction threads using Finset.induction_on with
    | empty => simpa using h
    | insert u threads hu ih =>
      convert hone _ u ih using 1
      funext t
      by_cases htu : t = u <;> simp [htu, hu]
  simpa using hsome Finset.univ

end SafeLibc.Lib
