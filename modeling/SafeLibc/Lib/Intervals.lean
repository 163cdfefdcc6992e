import Mathlib.Data.List.Basic
import Mathlib.Data.List.Pairwise

/-!
# Lists of intervals

The elements of a list stand for intervals `[lo a, hi a)`. `Before` says that one lies below
another; an interval may be empty, but then its place still orders it. In an ascending list at most
one interval covers a point, so a search for it does not depend on the order of the list.
-/

namespace SafeLibc.Lib

open List

variable {α : Type*} (lo hi : α → Nat)

/-- `a` ends where `b` starts or before, and starts below `b` unless `b` is empty. -/
structure Before (a b : α) : Prop where
  lo_le : lo a ≤ lo b
  hi_le : hi a ≤ lo b
  empty : lo a = lo b → hi b ≤ lo b

/-- The point is in the interval. -/
def covers (p : Nat) (a : α) : Bool := lo a ≤ p && p < hi a

def Ascending (xs : List α) : Prop := xs.Pairwise (Before lo hi)

/-- The intervals do not overlap. -/
def Separate (a b : α) : Prop := hi a ≤ lo b ∨ hi b ≤ lo a

instance (a b : α) : Decidable (Separate lo hi a b) := inferInstanceAs (Decidable (_ ∨ _))

/-- Two intervals that start together are both empty. -/
def Distinct (a b : α) : Prop := lo a = lo b → hi a ≤ lo a ∧ hi b ≤ lo b

instance (a b : α) : Decidable (Distinct lo hi a b) := inferInstanceAs (Decidable (_ → _))

variable {lo hi}

variable {a b : α} {p : Nat} {xs : List α}

theorem Separate.symm (h : Separate lo hi a b) : Separate lo hi b a := Or.symm h

theorem Distinct.symm (h : Distinct lo hi a b) : Distinct lo hi b a := fun heq => (h heq.symm).symm

theorem Separate.before (h : Separate lo hi a b) (hb : lo b < hi b) (ha : lo a < hi a)
    (hle : lo a ≤ lo b) : Before lo hi a b := by
  rcases h with h | h
  · exact ⟨hle, h, fun heq => by omega⟩
  · omega

theorem Before.trans {c : α} (hab : Before lo hi a b) (hbc : Before lo hi b c) :
    Before lo hi a c where
  lo_le := Nat.le_trans hab.lo_le hbc.lo_le
  hi_le := Nat.le_trans hab.hi_le hbc.lo_le
  empty heq := hbc.empty (Nat.le_antisymm hbc.lo_le (heq ▸ hab.lo_le))

theorem covers_iff : covers lo hi p a = true ↔ lo a ≤ p ∧ p < hi a := by
  simp [covers]

theorem Before.not_covers_left (h : Before lo hi a b) (hp : lo b ≤ p) :
    covers lo hi p a = false := by
  have := h.hi_le
  simp only [covers, Bool.and_eq_false_iff, decide_eq_false_iff_not]
  omega

theorem not_covers_of_lt (hp : p < lo a) : covers lo hi p a = false := by
  simp only [covers, Bool.and_eq_false_iff, decide_eq_false_iff_not]
  omega

theorem Before.not_covers_right (h : Before lo hi a b) (hp : p ≤ lo a) :
    covers lo hi p b = false := by
  have hle := h.lo_le
  have hempty := h.empty
  simp only [covers, Bool.and_eq_false_iff, decide_eq_false_iff_not]
  omega

theorem Before.not_both (h : Before lo hi a b) (ha : covers lo hi p a = true)
    (hb : covers lo hi p b = true) : False := by
  rw [h.not_covers_left (covers_iff.1 hb).1] at ha
  cases ha

/-- A search for the only element with a property does not depend on the order. -/
theorem find?_eq_of_perm {q : α → Bool} {ys : List α} (h : xs.Perm ys)
    (hunique : ∀ x ∈ xs, ∀ y ∈ xs, q x = true → q y = true → x = y) : xs.find? q = ys.find? q := by
  cases hys : ys.find? q with
  | none =>
    rw [find?_eq_none] at hys ⊢
    exact fun x hx => hys x (h.mem_iff.1 hx)
  | some y =>
    have hy : y ∈ xs := h.mem_iff.2 (mem_of_find?_eq_some hys)
    have hqy : q y = true := find?_some hys
    obtain ⟨x, hx⟩ := Option.isSome_iff_exists.1 (find?_isSome.2 ⟨y, hy, hqy⟩)
    rw [hx, hunique x (mem_of_find?_eq_some hx) y hy (find?_some hx) hqy]

theorem Ascending.unique (h : Ascending lo hi xs) :
    ∀ x ∈ xs, ∀ y ∈ xs, covers lo hi p x = true → covers lo hi p y = true → x = y := by
  induction h with
  | nil => exact fun x hx => (nomatch hx)
  | cons hbefore _ ih =>
    intro x hx y hy hpx hpy
    rcases mem_cons.1 hx with rfl | hx' <;> rcases mem_cons.1 hy with rfl | hy'
    · rfl
    · exact ((hbefore y hy').not_both hpx hpy).elim
    · exact ((hbefore x hx').not_both hpy hpx).elim
    · exact ih x hx' y hy' hpx hpy

/-- The element that covers the point is the one a search finds. -/
theorem Ascending.find?_eq (h : Ascending lo hi xs) {x : α} (hx : x ∈ xs)
    (hpx : covers lo hi p x = true) : xs.find? (covers lo hi p) = some x := by
  obtain ⟨y, hy⟩ := Option.isSome_iff_exists.1 (find?_isSome.2 ⟨x, hx, hpx⟩)
  rw [hy, h.unique y (mem_of_find?_eq_some hy) x hx (find?_some hy) hpx]

theorem Ascending.before (h : Ascending lo hi xs) {i j : Nat} (hij : i < j) (ha : xs[i]? = some a)
    (hb : xs[j]? = some b) : Before lo hi a b := by
  obtain ⟨hi', rfl⟩ := List.getElem?_eq_some_iff.1 ha
  obtain ⟨hj', rfl⟩ := List.getElem?_eq_some_iff.1 hb
  exact pairwise_iff_getElem.1 h i j hi' hj' hij

/-- Empty intervals may stand among the others, if they start where no other one does. -/
theorem ascending_of_separate (hle : ∀ x ∈ xs, lo x ≤ hi x) (hsep : xs.Pairwise (Separate lo hi))
    (hdist : xs.Pairwise (Distinct lo hi)) (hord : xs.Pairwise fun a b => lo a ≤ lo b) :
    Ascending lo hi xs := by
  refine ((hsep.and hdist).and hord).imp_of_mem ?_
  rintro a b ha hb ⟨⟨hsep, hdist⟩, hord⟩
  have hb := hle b hb
  refine ⟨hord, ?_, fun heq => (hdist heq).2⟩
  rcases hsep with hsep | hsep
  · exact hsep
  · have heq : lo a = lo b := by omega
    rw [← heq]
    exact (hdist heq).1

theorem distinct_of_separate (hpos : ∀ x ∈ xs, lo x < hi x) (hsep : xs.Pairwise (Separate lo hi)) :
    xs.Pairwise (Distinct lo hi) := by
  refine hsep.imp_of_mem ?_
  intro a b ha hb h heq
  have := hpos a ha
  have := hpos b hb
  rcases h with h | h
  · omega
  · omega

end SafeLibc.Lib
