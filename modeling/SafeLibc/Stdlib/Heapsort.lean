import SafeLibc.Lib.Sorting
import SafeLibc.Stdlib.Qsort

/-!
# Heapsort

All three ways of `do_swap` exchange the two elements (`doSwap_eq`). `siftdown` restores the heap
below an index (`siftdown_spec`), so that `heapify` builds one, and each turn of the loop of
`heapsort_r` puts the largest remaining element in its place (`heapsortR_spec`). With at most
`2 ^ 63` elements `2 * k + 1` does not wrap, and the index grows with every turn of `siftdown`.
-/

namespace SafeLibc.Stdlib

open SafeLibc.Lib

/-! ## Swapping two elements -/

section Swap

variable {M : Mem} {a b n : Nat}

theorem swapWords_eq {w : Nat} (hw : 0 < w) (hpos : 0 < n) (hdvd : w ∣ n) (h : Apart a n b n) :
    swapWords w M a b n = some (M.exchange a b n) := by
  fun_induction swapWords w M a b n with
  | case1 M n hwn n' t M' hzero =>
    have hn : n = w := by omega
    have hapart : Apart (a + n') w (b + n') w := h.mono (by omega) (by omega) (by omega) (by omega)
    have hM' : M' = M.exchange (a + n') (b + n') w := Mem.store_copy_load hapart
    rw [hM', hzero, hn]
    rfl
  | case2 M n hwn n' t M' hne ih =>
    have hn : n = n' + w := by omega
    have hapart : Apart (a + n') w (b + n') w := h.mono (by omega) (by omega) (by omega) (by omega)
    have hM' : M' = M.exchange (a + n') (b + n') w := Mem.store_copy_load hapart
    rw [ih (by omega) ((Nat.dvd_sub hdvd (Nat.dvd_refl w)))
      (h.mono le_rfl (by omega) le_rfl (by omega)), hM',
      Mem.exchange_exchange_last (hn ▸ h), ← hn]
  | case3 M n hnot =>
    have hle := Nat.le_of_dvd hpos hdvd
    omega

theorem memswapBytes_eq (h : Apart a n b n) : memswapBytes M a b n = M.exchange a b n := by
  induction n generalizing M with
  | zero => rw [memswapBytes, Mem.exchange_zero]
  | succ n ih =>
    rw [memswapBytes, Mem.store_copy_load (h.mono (by omega) (by omega) (by omega) (by omega)),
      ih (h.mono le_rfl (by omega) le_rfl (by omega)), Mem.exchange_exchange_last h]

theorem memswap_eq (h : Apart a n b n) : memswap M a b n = M.exchange a b n := by
  fun_induction memswap M a b n with
  | case1 M a b n hlt tmp M' ih =>
    have hn : n = swapGenericSize + (n - swapGenericSize) := by omega
    have hM' : M' = M.exchange a b swapGenericSize :=
      Mem.store_copy_load (h.mono le_rfl (by omega) le_rfl (by omega))
    rw [ih (h.mono (by omega) (by omega) (by omega) (by omega)), hM',
      Mem.exchange_exchange (hn ▸ h), ← hn]
  | case2 M a b n hle => exact memswapBytes_eq h

variable {pbase : Nat}

theorem doSwap_eq (h : Apart a n b n) :
    doSwap M a b n (getSwapType pbase n) = some (M.exchange a b n) := by
  rcases getSwapType_cases pbase n with ⟨htype, rfl⟩ | ⟨htype, rfl⟩ | htype
  · rw [htype]
    exact swapWords_eq (by decide) (by decide) (Nat.dvd_refl 4) h
  · rw [htype]
    exact swapWords_eq (by decide) (by decide) (Nat.dvd_refl 8) h
  · rw [htype]
    exact congrArg some (memswap_eq h)

end Swap

/-! ## Sifting down -/

section Sift

variable {base size pbase : Nat} {cmp : Block size → Block size → Int} {M : Mem} {lo k n : Nat}

def element (M : Mem) (base size i : Nat) : Block size := M.load (base + i * size) size

variable {j : Nat} {M' : Mem}

theorem apart_elements {i : Nat} (hne : i ≠ j) :
    Apart (base + i * size) size (base + j * size) size := by
  rcases Nat.lt_or_gt_of_ne hne with hlt | hgt
  · have hle := Mem.mul_add_le (s := size) hlt
    exact .inl (by omega)
  · have hle := Mem.mul_add_le (s := size) hgt
    exact .inr (by omega)

theorem element_exchange (hne : j ≠ k) :
    element (M.exchange (base + size * j) (base + k * size) size) base size =
      swapped (element M base size) j k := by
  rw [mul_comm size]
  funext i
  by_cases hij : i = j
  · subst hij
    rw [swapped_left]
    exact Mem.load_exchange_left
  · by_cases hik : i = k
    · subst hik
      rw [swapped_right]
      exact Mem.load_exchange_right (apart_elements hne)
    · rw [swapped_of_ne hij hik]
      exact Mem.load_exchange_other (apart_elements (Ne.symm hij)) (apart_elements (Ne.symm hik))

/-- What the heapsort does to the elements `lo` to `n` stays there. -/
structure Rearranged (M M' : Mem) (base size lo n : Nat) : Prop where
  permuted : PermutedOn (element M base size) (element M' base size) lo n
  frame : ∀ a, a < base ∨ base + (n + 1) * size ≤ a → M' a = M a

theorem Rearranged.refl (M : Mem) (base size lo n : Nat) : Rearranged M M base size lo n :=
  ⟨PermutedOn.refl _ lo n, fun _ _ => rfl⟩

theorem Rearranged.trans {M'' : Mem} (h : Rearranged M M' base size lo n)
    (h' : Rearranged M' M'' base size lo n) : Rearranged M M'' base size lo n :=
  ⟨h.permuted.trans h'.permuted, fun a ha => by rw [h'.frame a ha, h.frame a ha]⟩

theorem Rearranged.mono {lo' n' : Nat} (h : Rearranged M M' base size lo n)
    (hlo : lo' ≤ lo) (hn : n ≤ n') : Rearranged M M' base size lo' n' := by
  refine ⟨h.permuted.mono hlo hn, fun a ha => h.frame a ?_⟩
  have hle := Nat.mul_le_mul_right size (Nat.succ_le_succ hn)
  simp only [Nat.succ_eq_add_one] at hle
  omega

theorem rearranged_exchange (hne : j ≠ k) (hj : lo ≤ j ∧ j ≤ n) (hk : lo ≤ k ∧ k ≤ n) :
    Rearranged M (M.exchange (base + size * j) (base + k * size) size) base size lo n := by
  refine ⟨?_, fun a ha => ?_⟩
  · rw [element_exchange hne]
    exact permutedOn_swapped hj hk
  · have hjn := Mem.mul_add_le (s := size) (Nat.lt_succ_of_le hj.2)
    have hkn := Mem.mul_add_le (s := size) (Nat.lt_succ_of_le hk.2)
    rw [mul_comm size]
    simp only [Nat.succ_eq_add_one] at hjn hkn
    exact Mem.exchange_other (by omega)

variable (hcmp : TotalPreorder cmp)

include hcmp

theorem larger_child {f : Nat → Block size} (hchild : 2 * k + 1 ≤ n)
    (hj : j = if 2 * k + 1 < n ∧ cmp (f (2 * k + 1)) (f (2 * k + 1 + 1)) < 0
      then 2 * k + 1 + 1 else 2 * k + 1) :
    IsChild k j ∧ j ≤ n ∧ ∀ c, IsChild k c → c ≤ n → cmp (f c) (f j) ≤ 0 := by
  split at hj
  · next hright =>
    subst hj
    refine ⟨.inr rfl, hright.1, fun c hc _ => ?_⟩
    rcases hc with rfl | rfl
    · exact Int.le_of_lt hright.2
    · exact Int.le_of_eq (hcmp.self _)
  · next hleft =>
    subst hj
    refine ⟨.inl rfl, hchild, fun c hc hle => ?_⟩
    rcases hc with rfl | rfl
    · exact Int.le_of_eq (hcmp.self _)
    · have hiff := hcmp.lt_iff (f (2 * k + 1)) (f (2 * k + 1 + 1))
      show cmp (f (2 * k + 1 + 1)) (f (2 * k + 1)) ≤ 0
      omega

theorem siftdown_spec {fuel : Nat} (hinv : SiftInv cmp (element M base size) lo k n)
    (hlo : lo ≤ k) (hkn : k ≤ n) (hn : n < 2 ^ 63) (hfuel : n < k + fuel) :
    ∃ M', siftdown base size (getSwapType pbase size) (Compare.ofBlocks cmp) fuel M k n = some M' ∧
      Heap cmp (element M' base size) lo n ∧ Rearranged M M' base size lo n := by
  induction fuel generalizing M k with
  | zero => omega
  | succ fuel ih =>
    have hleft : (2 * k + 1) % 2 ^ 64 = 2 * k + 1 := Nat.mod_eq_of_lt (by omega)
    by_cases hchild : 2 * k + 1 ≤ n
    · obtain ⟨j, hj⟩ : ∃ j, j = if 2 * k + 1 < n ∧ cmp (element M base size (2 * k + 1))
          (element M base size (2 * k + 1 + 1)) < 0 then 2 * k + 1 + 1 else 2 * k + 1 := ⟨_, rfl⟩
      obtain ⟨hjchild, hjn, hlarger⟩ := larger_child hcmp hchild hj
      have hkj : k < j := by
        unfold IsChild at hjchild
        omega
      have hstep :
          siftdown base size (getSwapType pbase size) (Compare.ofBlocks cmp) (fuel + 1) M k n =
          if j = k ∨ 0 ≤ cmp (element M base size k) (element M base size j) then some M
          else (doSwap M (base + size * j) (base + k * size) size (getSwapType pbase size)).bind
            fun M' =>
              siftdown base size (getSwapType pbase size) (Compare.ofBlocks cmp) fuel M' j n := by
        rw [siftdown, hleft, if_pos hchild, hj]
        rfl
      rw [hstep]
      by_cases hstop : 0 ≤ cmp (element M base size k) (element M base size j)
      · rw [if_pos (.inr hstop)]
        refine ⟨M, rfl, hinv.finish fun c hc hle => ?_, .refl M base size lo n⟩
        have hjk := hcmp.lt_iff (element M base size k) (element M base size j)
        exact hcmp.trans _ _ _ (hlarger c hc hle) (by omega)
      · have happ : Apart (base + size * j) size (base + k * size) size := by
          rw [mul_comm]
          exact apart_elements (by omega)
        rw [if_neg (by omega), doSwap_eq happ]
        have hinv' :
            SiftInv cmp (element (M.exchange (base + size * j) (base + k * size) size) base size)
            lo j n := by
          rw [element_exchange (by omega)]
          exact hinv.swap hlo hjchild hjn hlarger (by omega)
        obtain ⟨M', hrun, hheap, hrest⟩ := ih hinv' (by omega) hjn (by omega)
        exact ⟨M', hrun, hheap,
          (rearranged_exchange (by omega) ⟨by omega, hjn⟩ ⟨hlo, hkn⟩).trans hrest⟩
    · rw [siftdown, hleft, if_neg hchild]
      refine ⟨M, rfl, hinv.finish fun c hc hle => ?_, .refl M base size lo n⟩
      unfold IsChild at hc
      omega

/-- `heapify` from an index below which there is a heap. -/
theorem heapifyFrom_spec (hkn : k ≤ n) (hn : n < 2 ^ 63)
    (hheap : Heap cmp (element M base size) (k + 1) n) :
    ∃ M', heapifyFrom base size (getSwapType pbase size) (Compare.ofBlocks cmp) n k M = some M' ∧
      Heap cmp (element M' base size) 0 n ∧ Rearranged M M' base size 0 n := by
  induction k generalizing M with
  | zero => exact siftdown_spec hcmp hheap.siftInv (le_refl 0) hkn hn (by omega)
  | succ k ih =>
    have hsift : ∃ M₁, siftdown base size (getSwapType pbase size) (Compare.ofBlocks cmp) (n + 1) M
        (k + 1) n = some M₁ ∧ Heap cmp (element M₁ base size) (k + 1) n ∧
        Rearranged M M₁ base size (k + 1) n :=
      siftdown_spec hcmp hheap.siftInv le_rfl hkn hn (by omega)
    obtain ⟨M₁, hrun₁, hheap₁, hrest₁⟩ := hsift
    obtain ⟨M₂, hrun₂, hheap₂, hrest₂⟩ := ih (by omega) hheap₁
    refine ⟨M₂, ?_, hheap₂, (hrest₁.mono (Nat.zero_le _) le_rfl).trans hrest₂⟩
    rw [heapifyFrom, hrun₁]
    exact hrun₂

theorem heapify_spec (hn : n < 2 ^ 63) :
    ∃ M', heapify base size (getSwapType pbase size) (Compare.ofBlocks cmp) M n = some M' ∧
      Heap cmp (element M' base size) 0 n ∧ Rearranged M M' base size 0 n := by
  refine heapifyFrom_spec hcmp (by omega) hn fun i c hi hc hle => ?_
  unfold IsChild at hc
  omega

end Sift

/-! ## The loop of `heapsort_r` -/

/-- A heap up to index `n`, and behind it, up to index `last`, elements in order that nothing in the
heap is above. -/
structure ExtractInv {α : Type*} (cmp : α → α → Int) (f : Nat → α) (n last : Nat) : Prop where
  heap : Heap cmp f 0 n
  sorted : ∀ i j, n < i → i ≤ j → j ≤ last → cmp (f i) (f j) ≤ 0
  above : ∀ i j, i ≤ n → n < j → j ≤ last → cmp (f i) (f j) ≤ 0

namespace ExtractInv

variable {α : Type*} {cmp : α → α → Int} {f g : Nat → α} {n last : Nat} (hcmp : TotalPreorder cmp)

include hcmp

/-- The root goes behind the heap, which is one shorter and may be out of order at its root. -/
theorem swap (h : ExtractInv cmp f (n + 1) last) :
    SiftInv cmp (swapped f 0 (n + 1)) 0 0 n ∧
      (∀ i j, n < i → i ≤ j → j ≤ last →
        cmp (swapped f 0 (n + 1) i) (swapped f 0 (n + 1) j) ≤ 0) ∧
      ∀ i j, i ≤ n → n < j → j ≤ last →
        cmp (swapped f 0 (n + 1) i) (swapped f 0 (n + 1) j) ≤ 0 := by
  have hroot : ∀ i, i ≤ n + 1 → cmp (f i) (f 0) ≤ 0 := fun i hi => h.heap.le_root hcmp hi
  have hbehind : ∀ j, n + 1 < j → swapped f 0 (n + 1) j = f j := fun j hj =>
    swapped_of_ne (by omega) (by omega)
  have hfront : ∀ i, i ≤ n → ∃ k, k ≤ n + 1 ∧ swapped f 0 (n + 1) i = f k := by
    intro i hi
    rcases Nat.eq_zero_or_pos i with rfl | hpos
    · exact ⟨n + 1, le_rfl, swapped_left f 0 (n + 1)⟩
    · exact ⟨i, by omega, swapped_of_ne (by omega) (by omega)⟩
  refine ⟨⟨fun i c _ hi hc hle => ?_, fun i c _ hchild => ?_⟩, fun i j hi hij hj => ?_,
    fun i j hi hj hle => ?_⟩
  · have hic : i < c := by
      unfold IsChild at hc
      omega
    rw [swapped_of_ne (by omega) (by omega), swapped_of_ne hi (by omega)]
    exact h.heap i c (Nat.zero_le i) hc (by omega)
  · unfold IsChild at hchild
    omega
  · rcases Nat.eq_or_lt_of_le (Nat.succ_le_of_lt hi) with rfl | hlt
    · rw [swapped_right]
      rcases Nat.eq_or_lt_of_le hij with rfl | hlt'
      · rw [swapped_right]
        exact Int.le_of_eq (hcmp.self _)
      · rw [hbehind j hlt']
        exact h.above 0 j (Nat.zero_le _) hlt' hj
    · rw [hbehind i hlt, hbehind j (lt_of_lt_of_le hlt hij)]
      exact h.sorted i j hlt hij hj
  · obtain ⟨k, hk, heq⟩ := hfront i hi
    rw [heq]
    rcases Nat.eq_or_lt_of_le (Nat.succ_le_of_lt hj) with rfl | hlt
    · rw [swapped_right]
      exact hroot k hk
    · rw [hbehind j hlt]
      exact h.above k j hk hlt hle

omit hcmp in
/-- The heap is repaired, and what is behind it stays. -/
theorem of_permutedOn (hheap : Heap cmp g 0 n) (hperm : PermutedOn f g 0 n)
    (hsorted : ∀ i j, n < i → i ≤ j → j ≤ last → cmp (f i) (f j) ≤ 0)
    (habove : ∀ i j, i ≤ n → n < j → j ≤ last → cmp (f i) (f j) ≤ 0) : ExtractInv cmp g n last := by
  refine ⟨hheap, fun i j hi hij hj => ?_, fun i j hi hj hle => ?_⟩
  · rw [hperm.eq_of_not_mem (.inr hi), hperm.eq_of_not_mem (.inr (lt_of_lt_of_le hi hij))]
    exact hsorted i j hi hij hj
  · obtain ⟨k, -, hk, heq⟩ := hperm.exists_eq ⟨Nat.zero_le i, hi⟩
    rw [heq, hperm.eq_of_not_mem (.inr hj)]
    exact habove k j hk hj hle

end ExtractInv

section Extract

variable {base size pbase : Nat} {cmp : Block size → Block size → Int} {M : Mem} {n last : Nat}
  (hcmp : TotalPreorder cmp)

include hcmp

theorem extract_spec (hn : n ≤ last) (hlast : last < 2 ^ 63)
    (hinv : ExtractInv cmp (element M base size) n last) :
    ∃ M', extract base size (getSwapType pbase size) (Compare.ofBlocks cmp) n M = some M' ∧
      (∀ i j, i ≤ j → j ≤ last → cmp (element M' base size i) (element M' base size j) ≤ 0) ∧
      Rearranged M M' base size 0 last := by
  induction n generalizing M with
  | zero =>
    refine ⟨M, rfl, fun i j hij hj => ?_, .refl M base size 0 last⟩
    rcases Nat.eq_zero_or_pos i with rfl | hpos
    · rcases Nat.eq_zero_or_pos j with rfl | hpos'
      · exact Int.le_of_eq (hcmp.self _)
      · exact hinv.above 0 j (le_refl 0) hpos' hj
    · exact hinv.sorted i j hpos hij hj
  | succ n ih =>
    have happ : Apart base size (base + (n + 1) * size) size := by
      have h : Apart (base + 0 * size) size (base + (n + 1) * size) size :=
        apart_elements (by omega)
      rwa [zero_mul] at h
    have helement : element (M.exchange base (base + (n + 1) * size) size) base size =
        swapped (element M base size) 0 (n + 1) := by
      have h : element (M.exchange (base + size * 0) (base + (n + 1) * size) size) base size =
          swapped (element M base size) 0 (n + 1) := element_exchange (by omega)
      rwa [mul_zero] at h
    have hswap : Rearranged M (M.exchange base (base + (n + 1) * size) size) base size 0 last := by
      have h : Rearranged M (M.exchange (base + size * 0) (base + (n + 1) * size) size) base size 0
          last := rearranged_exchange (by omega) ⟨le_refl 0, Nat.zero_le _⟩ ⟨Nat.zero_le _, hn⟩
      rwa [mul_zero] at h
    obtain ⟨hsift, hsorted, habove⟩ := hinv.swap hcmp
    rw [← helement] at hsift hsorted habove
    have hstep : extract base size (getSwapType pbase size) (Compare.ofBlocks cmp) (n + 1) M =
        if n = 0 then some (M.exchange base (base + (n + 1) * size) size)
        else (siftdown base size (getSwapType pbase size) (Compare.ofBlocks cmp) (n + 1)
          (M.exchange base (base + (n + 1) * size) size) 0 n).bind fun M' =>
            extract base size (getSwapType pbase size) (Compare.ofBlocks cmp) n M' := by
      rw [extract, doSwap_eq happ]
      rfl
    have hrun : ∃ M₁, siftdown base size (getSwapType pbase size) (Compare.ofBlocks cmp) (n + 1)
        (M.exchange base (base + (n + 1) * size) size) 0 n = some M₁ ∧
        Heap cmp (element M₁ base size) 0 n ∧
        Rearranged (M.exchange base (base + (n + 1) * size) size) M₁ base size 0 n :=
      siftdown_spec hcmp hsift (le_refl 0) (Nat.zero_le n) (by omega) (by omega)
    obtain ⟨M₁, hrun₁, hheap₁, hrest₁⟩ := hrun
    rw [hstep]
    by_cases hzero : n = 0
    · -- the last turn does not sift: a heap of one element is in order
      subst hzero
      have hheap :
          Heap cmp (element (M.exchange base (base + (0 + 1) * size) size) base size) 0 0 :=
        fun i c _ hc hle => by
          unfold IsChild at hc
          omega
      obtain ⟨M', hrun', hdone, hrest⟩ := ih (by omega) ⟨hheap, hsorted, habove⟩
      exact ⟨M', hrun', hdone, hswap.trans hrest⟩
    · rw [if_neg hzero, hrun₁]
      obtain ⟨M', hrun', hdone, hrest⟩ :=
        ih (by omega) (.of_permutedOn hheap₁ hrest₁.permuted hsorted habove)
      exact ⟨M', hrun', hdone, hswap.trans ((hrest₁.mono (le_refl 0) (by omega)).trans hrest)⟩

/-- **`heapsort_r`** sorts the elements 0 to `n` and leaves the memory outside the array alone. -/
theorem heapsortR_spec (hn : n < 2 ^ 63) :
    ∃ M', heapsortR M base n size (Compare.ofBlocks cmp) = some M' ∧
      Sorted cmp (M'.cells base size (n + 1)) ∧
      (M'.cells base size (n + 1)).Perm (M.cells base size (n + 1)) ∧
      ∀ a, a < base ∨ base + (n + 1) * size ≤ a → M' a = M a := by
  have hrun : ∃ M', heapsortR M base n size (Compare.ofBlocks cmp) = some M' ∧
      (∀ i j, i ≤ j → j ≤ n → cmp (element M' base size i) (element M' base size j) ≤ 0) ∧
      Rearranged M M' base size 0 n := by
    unfold heapsortR
    by_cases hzero : n = 0
    · subst hzero
      refine ⟨M, rfl, fun i j hij hj => ?_, .refl M base size 0 0⟩
      obtain rfl : i = j := by omega
      exact Int.le_of_eq (hcmp.self _)
    · have hbuild : ∃ M₁, heapify base size (getSwapType base size) (Compare.ofBlocks cmp) M n =
          some M₁ ∧ Heap cmp (element M₁ base size) 0 n ∧ Rearranged M M₁ base size 0 n :=
        heapify_spec hcmp hn
      obtain ⟨M₁, hrun₁, hheap₁, hrest₁⟩ := hbuild
      have hinv : ExtractInv cmp (element M₁ base size) n n :=
        ⟨hheap₁, fun i j hi hij hj => by omega, fun i j _ hj hle => by omega⟩
      have hsort : ∃ M₂, extract base size (getSwapType base size) (Compare.ofBlocks cmp) n M₁ =
          some M₂ ∧ (∀ i j, i ≤ j → j ≤ n →
            cmp (element M₂ base size i) (element M₂ base size j) ≤ 0) ∧
          Rearranged M₁ M₂ base size 0 n := extract_spec hcmp (le_refl n) hn hinv
      obtain ⟨M₂, hrun₂, hdone, hrest₂⟩ := hsort
      refine ⟨M₂, ?_, hdone, hrest₁.trans hrest₂⟩
      simp only [if_neg hzero, hrun₁]
      exact hrun₂
  obtain ⟨M', hrun, hdone, hrest⟩ := hrun
  refine ⟨M', hrun, ?_, hrest.permuted.perm, hrest.frame⟩
  refine List.pairwise_map.mpr (List.pairwise_lt_range.imp_of_mem fun {i j} _ hj hlt => ?_)
  exact hdone i j (le_of_lt hlt) (Nat.lt_succ_iff.mp (List.mem_range.mp hj))

end Extract

end SafeLibc.Stdlib
