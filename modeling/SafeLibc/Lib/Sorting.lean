import Mathlib.Data.List.Nodup
import Mathlib.Tactic.Ring

/-!
# Sorting by a three-way comparison

`cmp a b` is negative, zero or positive. A list is a `StableSort` of another one when it is sorted
and elements that compare equal stand in the same order. Merging two sorted halves keeps that order
(`peers_merge`), so that the recursive merge sort is one (`stableSort_mergeSorted`).

For the heap, the array is a function on indices and the children of `i` are `2 * i + 1` and
`2 * i + 2`. `SiftInv` is what a sift-down keeps: everything is in order but at one index, whose
children are in order with its parent.
-/

namespace SafeLibc.Lib

open List

variable {α β : Type*}

/-- The signs of the comparison are those of a total preorder. -/
structure TotalPreorder (cmp : α → α → Int) : Prop where
  lt_iff : ∀ a b, cmp a b < 0 ↔ 0 < cmp b a
  trans : ∀ a b c, cmp a b ≤ 0 → cmp b c ≤ 0 → cmp a c ≤ 0

namespace TotalPreorder

variable {cmp : α → α → Int} (hcmp : TotalPreorder cmp)

include hcmp

theorem self (a : α) : cmp a a = 0 := by
  have hiff := hcmp.lt_iff a a
  omega

theorem eq_comm (a b : α) : cmp a b = 0 ↔ cmp b a = 0 := by
  have hab := hcmp.lt_iff a b
  have hba := hcmp.lt_iff b a
  omega

theorem le_of_not_le {a b : α} (h : ¬ cmp a b ≤ 0) : cmp b a ≤ 0 := by
  have hba := hcmp.lt_iff b a
  omega

theorem total (a b : α) : cmp a b ≤ 0 ∨ cmp b a ≤ 0 := by
  by_cases h : cmp a b ≤ 0
  · exact .inl h
  · exact .inr (hcmp.le_of_not_le h)

end TotalPreorder

/-! ## Stable sorts -/

/-- No element is greater than a later one. -/
def Sorted (cmp : α → α → Int) (xs : List α) : Prop := xs.Pairwise fun a b => cmp a b ≤ 0

/-- The elements that compare equal to `x`, in their order. -/
def peers (cmp : α → α → Int) (x : α) (xs : List α) : List α := xs.filter fun y => cmp x y = 0

/-- `ys` is `xs` sorted, and elements that compare equal have kept their order. -/
structure StableSort (cmp : α → α → Int) (xs ys : List α) : Prop where
  sorted : Sorted cmp ys
  stable : ∀ x, peers cmp x ys = peers cmp x xs

/-- Merge sort with the halves of `n / 2` and `n - n / 2` elements. -/
def mergeSorted (cmp : α → α → Int) (xs : List α) : List α :=
  if xs.length ≤ 1 then xs
  else
    (mergeSorted cmp (xs.take (xs.length / 2))).merge (mergeSorted cmp (xs.drop (xs.length / 2)))
      fun a b => cmp a b ≤ 0
termination_by xs.length
decreasing_by
  · rw [List.length_take]
    omega
  · rw [List.length_drop]
    omega

variable {cmp : α → α → Int} {xs : List α}

theorem mergeSorted_of_length_le (h : xs.length ≤ 1) : mergeSorted cmp xs = xs := by
  rw [mergeSorted, if_pos h]

theorem mergeSorted_of_one_lt (h : ¬ xs.length ≤ 1) :
    mergeSorted cmp xs = (mergeSorted cmp (xs.take (xs.length / 2))).merge
      (mergeSorted cmp (xs.drop (xs.length / 2))) fun a b => cmp a b ≤ 0 := by
  rw [mergeSorted, if_neg h]

theorem mergeSorted_perm (cmp : α → α → Int) (xs : List α) : (mergeSorted cmp xs).Perm xs := by
  induction xs using mergeSorted.induct with
  | case1 xs hle => rw [mergeSorted_of_length_le hle]
  | case2 xs hlt ihtake ihdrop =>
    rw [mergeSorted_of_one_lt hlt]
    have hhalves := ihtake.append ihdrop
    rw [take_append_drop] at hhalves
    exact (merge_perm_append _).trans hhalves

theorem mem_mergeSorted {x : α} :
    x ∈ mergeSorted cmp xs ↔ x ∈ xs := (mergeSorted_perm cmp xs).mem_iff

section Stable

variable {cmp : α → α → Int} (hcmp : TotalPreorder cmp)

include hcmp

variable {xs ys : List α}

theorem peers_eq_nil {x y : α} (hlt : 0 < cmp x y) (hxs : ∀ z ∈ xs, cmp x z ≤ 0) :
    ∀ w, cmp w y = 0 → peers cmp w xs = [] := by
  intro w hwy
  refine filter_eq_nil_iff.mpr fun z hz hwz => ?_
  -- `w` is level with `y` and `z`, but `y` is below `x` and `x` is not above `z`
  have hzy : cmp z y ≤ 0 :=
    hcmp.trans z w y (Int.le_of_eq ((hcmp.eq_comm w z).mp (of_decide_eq_true hwz)))
      (Int.le_of_eq hwy)
  have hxy := hcmp.trans x z y (hxs z hz) hzy
  omega

theorem peers_merge (w : α) (hxs : Sorted cmp xs) (hys : Sorted cmp ys) :
    peers cmp w (xs.merge ys fun a b => cmp a b ≤ 0) = peers cmp w xs ++ peers cmp w ys := by
  induction xs, ys using merge.induct fun a b => decide (cmp a b ≤ 0) with
  | case1 ys => simp [peers]
  | case2 xs _ => simp [peers]
  | case3 x xs y ys hle ih =>
    rw [cons_merge_cons, if_pos hle]
    simp only [peers, filter_cons] at ih ⊢
    rw [ih hxs.of_cons hys]
    split <;> rfl
  | case4 x xs y ys hnot ih =>
    rw [cons_merge_cons, if_neg hnot]
    by_cases hwy : cmp w y = 0
    · have hnone : peers cmp w (x :: xs) = [] := by
        refine peers_eq_nil hcmp (x := x) (y := y) ?_ ?_ w hwy
        · simp only [decide_eq_true_eq] at hnot
          omega
        · intro z hz
          rcases mem_cons.mp hz with rfl | hz
          · exact Int.le_of_eq (hcmp.self z)
          · exact rel_of_pairwise_cons hxs hz
      have ih := ih hxs hys.of_cons
      rw [hnone] at ih ⊢
      simp only [peers, filter_cons] at ih ⊢
      simp [ih]
    · have ih := ih hxs hys.of_cons
      simp only [peers, filter_cons, hwy] at ih ⊢
      simpa using ih

theorem sorted_merge (hxs : Sorted cmp xs) (hys : Sorted cmp ys) :
    Sorted cmp (xs.merge ys fun a b => cmp a b ≤ 0) := by
  have h := @pairwise_merge α (fun a b => decide (cmp a b ≤ 0))
    (fun a b c hab hbc => by
      simp only [decide_eq_true_eq] at hab hbc ⊢
      exact hcmp.trans a b c hab hbc)
    (fun a b => by simpa using hcmp.total a b) xs ys (hxs.imp (by simp)) (hys.imp (by simp))
  exact h.imp (by simp)

theorem stableSort_mergeSorted (xs : List α) : StableSort cmp xs (mergeSorted cmp xs) := by
  induction xs using mergeSorted.induct with
  | case1 xs hle =>
    rw [mergeSorted_of_length_le hle]
    refine ⟨?_, fun _ => rfl⟩
    match xs with
    | [] => exact List.Pairwise.nil
    | [x] => exact pairwise_singleton _ x
    | _ :: _ :: _ => simp at hle
  | case2 xs hlt ihtake ihdrop =>
    rw [mergeSorted_of_one_lt hlt]
    refine ⟨sorted_merge hcmp ihtake.sorted ihdrop.sorted, fun x => ?_⟩
    rw [peers_merge hcmp x ihtake.sorted ihdrop.sorted, ihtake.stable, ihdrop.stable]
    simp only [peers]
    rw [← filter_append, take_append_drop]

end Stable

theorem map_mergeSorted (f : β → α) (xs : List β) :
    (mergeSorted (fun a b => cmp (f a) (f b)) xs).map f = mergeSorted cmp (xs.map f) := by
  induction xs using mergeSorted.induct with
  | case1 xs hle =>
    rw [mergeSorted_of_length_le hle, mergeSorted_of_length_le (by rwa [length_map])]
  | case2 xs hlt ihtake ihdrop =>
    have hlt' : ¬ (xs.map f).length ≤ 1 := by rwa [length_map]
    rw [mergeSorted_of_one_lt hlt', length_map, mergeSorted_of_one_lt hlt,
      map_merge (s := fun a b => decide (cmp a b ≤ 0)) fun _ _ _ _ => rfl, ihtake, ihdrop,
      map_take, map_drop]

/-! ## Heaps -/

/-- `c` is a child of `i` in a binary heap. -/
def IsChild (i c : Nat) : Prop := c = 2 * i + 1 ∨ c = 2 * i + 2

/-- From index `lo` on, no child up to index `n` is above its parent. -/
def Heap (cmp : α → α → Int) (f : Nat → α) (lo n : Nat) : Prop :=
  ∀ i c, lo ≤ i → IsChild i c → c ≤ n → cmp (f c) (f i) ≤ 0

/-- Two elements change places. -/
def swapped (f : Nat → α) (j k : Nat) : Nat → α := fun i => f (Equiv.swap j k i)

/-- A heap but for index `k`, whose children are not above its parent. -/
structure SiftInv (cmp : α → α → Int) (f : Nat → α) (lo k n : Nat) : Prop where
  heap : ∀ i c, lo ≤ i → i ≠ k → IsChild i c → c ≤ n → cmp (f c) (f i) ≤ 0
  grand : ∀ i c, lo ≤ i → IsChild i k → IsChild k c → c ≤ n → cmp (f c) (f i) ≤ 0

/-- `g` is `f` with the values at `lo` to `n` permuted. -/
def PermutedOn (f g : Nat → α) (lo n : Nat) : Prop :=
  ∃ σ : Equiv.Perm Nat, (∀ i, g i = f (σ i)) ∧ ∀ i, i < lo ∨ n < i → σ i = i

section Heap

variable {cmp : α → α → Int} {f g h : Nat → α} {lo k n : Nat}

theorem swapped_left (f : Nat → α) (j k : Nat) : swapped f j k j = f k := by
  rw [swapped, Equiv.swap_apply_left]

theorem swapped_right (f : Nat → α) (j k : Nat) : swapped f j k k = f j := by
  rw [swapped, Equiv.swap_apply_right]

variable {i j : Nat}

theorem swapped_of_ne (hj : i ≠ j) (hk : i ≠ k) : swapped f j k i = f i := by
  rw [swapped, Equiv.swap_apply_of_ne_of_ne hj hk]

theorem Heap.siftInv (hheap : Heap cmp f (k + 1) n) : SiftInv cmp f k k n := by
  refine ⟨fun i c hi hne hc hle => hheap i c (by omega) hc hle, fun i c hi hik _ _ => ?_⟩
  unfold IsChild at hik
  omega

/-- The sift stops: the children of `k` are not above it. -/
theorem SiftInv.finish (hinv : SiftInv cmp f lo k n)
    (hstop : ∀ c, IsChild k c → c ≤ n → cmp (f c) (f k) ≤ 0) : Heap cmp f lo n := by
  intro i c hi hc hle
  by_cases hik : i = k
  · subst hik
    exact hstop c hc hle
  · exact hinv.heap i c hi hik hc hle

/-- The sift goes on at the larger child `j`, which has been exchanged with `k`. -/
theorem SiftInv.swap (hinv : SiftInv cmp f lo k n) (hlo : lo ≤ k) (hj : IsChild k j) (hjn : j ≤ n)
    (hlarger : ∀ c, IsChild k c → c ≤ n → cmp (f c) (f j) ≤ 0) (hlt : cmp (f k) (f j) ≤ 0) :
    SiftInv cmp (swapped f j k) lo j n := by
  have hkj : k ≠ j := by
    unfold IsChild at hj
    omega
  constructor
  · intro i c hi hij hc hle
    by_cases hik : i = k
    · -- the new parent of both children of `k`
      subst hik
      rw [swapped_right]
      by_cases hcj : c = j
      · subst hcj
        rwa [swapped_left]
      · rw [swapped_of_ne hcj (by unfold IsChild at hc; omega)]
        exact hlarger c hc hle
    · rw [swapped_of_ne hij hik]
      have hcj : c ≠ j := by
        unfold IsChild at hc hj
        omega
      by_cases hck : c = k
      · -- `k` has got the value of its child, which its parent is in order with
        subst hck
        rw [swapped_right]
        exact hinv.grand i j hi hc hj hjn
      · rw [swapped_of_ne hcj hck]
        exact hinv.heap i c hi hik hc hle
  · intro i c hi hij hc hle
    have hik : i = k := by
      unfold IsChild at hij hj
      omega
    subst hik
    rw [swapped_right, swapped_of_ne (by unfold IsChild at hc; omega)
      (by unfold IsChild at hc hj; omega)]
    exact hinv.heap j c (by unfold IsChild at hj; omega) (Ne.symm hkj) hc hle

theorem Heap.le_root (hcmp : TotalPreorder cmp) (hheap : Heap cmp f 0 n) (hi : i ≤ n) :
    cmp (f i) (f 0) ≤ 0 := by
  induction i using Nat.strongRecOn with
  | ind i ih =>
    rcases Nat.eq_zero_or_pos i with rfl | hpos
    · exact Int.le_of_eq (hcmp.self (f 0))
    · have hchild : IsChild ((i - 1) / 2) i := by
        unfold IsChild
        omega
      exact hcmp.trans _ _ _ (hheap _ i (Nat.zero_le _) hchild hi) (ih _ (by omega) (by omega))

theorem PermutedOn.refl (f : Nat → α) (lo n : Nat) : PermutedOn f f lo n :=
  ⟨Equiv.refl Nat, fun _ => rfl, fun _ _ => rfl⟩

theorem PermutedOn.trans (hfg : PermutedOn f g lo n) (hgh : PermutedOn g h lo n) :
    PermutedOn f h lo n := by
  obtain ⟨σ, hσ, hσfix⟩ := hfg
  obtain ⟨τ, hτ, hτfix⟩ := hgh
  refine ⟨τ.trans σ, fun i => by rw [hτ, hσ]; rfl, fun i hi => ?_⟩
  rw [Equiv.trans_apply, hτfix i hi, hσfix i hi]

theorem PermutedOn.mono {lo' n' : Nat} (hfg : PermutedOn f g lo n) (hlo : lo' ≤ lo) (hn : n ≤ n') :
    PermutedOn f g lo' n' := by
  obtain ⟨σ, hσ, hfix⟩ := hfg
  exact ⟨σ, hσ, fun i hi => hfix i (by omega)⟩

theorem permutedOn_swapped (hj : lo ≤ j ∧ j ≤ n) (hk : lo ≤ k ∧ k ≤ n) :
    PermutedOn f (swapped f j k) lo n :=
  ⟨Equiv.swap j k, fun _ => rfl, fun i hi =>
    Equiv.swap_apply_of_ne_of_ne (by omega) (by omega)⟩

theorem PermutedOn.eq_of_not_mem (hfg : PermutedOn f g lo n) (hi : i < lo ∨ n < i) : g i = f i := by
  obtain ⟨σ, hσ, hfix⟩ := hfg
  rw [hσ, hfix i hi]

theorem PermutedOn.exists_eq (hfg : PermutedOn f g lo n) (hi : lo ≤ i ∧ i ≤ n) :
    ∃ j, lo ≤ j ∧ j ≤ n ∧ g i = f j := by
  obtain ⟨σ, hσ, hfix⟩ := hfg
  refine ⟨σ i, ?_, ?_, hσ i⟩
  · by_contra hlt
    have hsame := σ.injective (hfix (σ i) (.inl (by omega)))
    omega
  · by_contra hlt
    have hsame := σ.injective (hfix (σ i) (.inr (by omega)))
    omega

theorem PermutedOn.perm (hfg : PermutedOn f g 0 n) :
    ((List.range (n + 1)).map g).Perm ((List.range (n + 1)).map f) := by
  obtain ⟨σ, hσ, hfix⟩ := hfg
  have hrange : ((List.range (n + 1)).map σ).Perm (List.range (n + 1)) := by
    refine (perm_ext_iff_of_nodup ?_ nodup_range).mpr fun i => ?_
    · exact List.Nodup.map σ.injective nodup_range
    · simp only [mem_map, mem_range]
      constructor
      · rintro ⟨j, hj, rfl⟩
        by_contra hlt
        have hsame := σ.injective (hfix (σ j) (.inr (by omega)))
        omega
      · intro hi
        refine ⟨σ.symm i, ?_, σ.apply_symm_apply i⟩
        by_contra hlt
        have hsame := hfix (σ.symm i) (.inr (by omega))
        rw [σ.apply_symm_apply] at hsame
        omega
  have hmap : (List.range (n + 1)).map g = ((List.range (n + 1)).map σ).map f := by
    rw [map_map]
    exact map_congr_left fun i _ => hσ i
  rw [hmap]
  exact hrange.map f

end Heap

end SafeLibc.Lib
