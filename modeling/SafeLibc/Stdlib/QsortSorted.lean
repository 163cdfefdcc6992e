import SafeLibc.Stdlib.Indirect

/-!
# `qsort_r` sorts

`qsortR_sorts` puts the three algorithms together.
-/

namespace SafeLibc.Stdlib

open SafeLibc.Lib

section

variable {pbase n size buf : Nat} {cmp : Block size → Block size → Int} {M : Mem}

theorem width_getSwapType (cmp : Compare) :
    (MsortParam.mk size (getSwapType pbase size) cmp buf).width = size := by
  rcases getSwapType_cases pbase size with ⟨htype, rfl⟩ | ⟨htype, rfl⟩ | htype
  · simp only [MsortParam.width, htype]
  · simp only [MsortParam.width, htype]
  · simp only [MsortParam.width, htype]

theorem compare_getSwapType (cmp : Compare) (x y : Nat) :
    (MsortParam.mk size (getSwapType pbase size) cmp buf).compare M x y = cmp M x y := by
  rcases getSwapType_cases pbase size with ⟨htype, -⟩ | ⟨htype, -⟩ | htype
  · simp only [MsortParam.compare, htype]
  · simp only [MsortParam.compare, htype]
  · simp only [MsortParam.compare, htype]

theorem msortWithTmp_direct (happ : Apart pbase (n * size) buf (n * size)) :
    (msortWithTmp ⟨size, getSwapType pbase size, Compare.ofBlocks cmp, buf⟩ M pbase n).cells
      pbase size n = mergeSorted cmp (M.cells pbase size n) := by
  have hres : Respects ⟨size, getSwapType pbase size, Compare.ofBlocks cmp, buf⟩ M (fun _ => True)
      (fun _ => True) cmp := fun _ x y _ _ _ => compare_getSwapType _ x y
  exact (msortWithTmp_spec (width_getSwapType _) hres (fun _ _ => rfl) (fun _ _ _ => trivial)
    (fun _ _ _ => trivial) happ.symm fun _ _ => trivial).2

variable {malloc : Nat → Option Nat} {tmp totalElems : Nat}

/-- The buffer of `qsort_r` is as large as its sort needs it. -/
theorem apart_buffer (hstack : Apart pbase (totalElems * size) tmp qsortStackSize)
    (hmalloc : ∀ need buf, malloc need = some buf → Apart pbase (totalElems * size) buf need)
    {need : Nat} (h : (if need ≤ qsortStackSize then some tmp else malloc need) = some buf) :
    Apart pbase (totalElems * size) buf need := by
  split at h
  · next hle =>
    cases h
    exact hstack.mono le_rfl le_rfl le_rfl (Nat.add_le_add_left hle _)
  · exact hmalloc need buf h

theorem qsortR_of_buffer (hsize : 1 ≤ size)
    (hbytes : totalElems * size < 2 ^ 64) (htable : 2 * totalElems * pointerSize + size < 2 ^ 64)
    (hfits : pbase + totalElems * size ≤ 2 ^ 64) (hmany : ¬ totalElems ≤ 1)
    (hbuf : (if totalSize totalElems size ≤ qsortStackSize then some tmp
      else malloc (totalSize totalElems size)) = some buf)
    (happ : Apart pbase (totalElems * size) buf (totalSize totalElems size)) :
    ∃ M', qsortR malloc tmp (Compare.ofBlocks cmp) M pbase totalElems size = some M' ∧
      M'.cells pbase size totalElems = mergeSorted cmp (M.cells pbase size totalElems) := by
  simp only [qsortR, if_neg hmany, hbuf]
  unfold totalSize at happ
  split
  · next hlarge =>
    rw [if_pos hlarge, Nat.mod_eq_of_lt htable] at happ
    obtain ⟨M', hrun, hcells, -⟩ := indirectMsortWithTmp_spec cmp hsize hfits happ
    exact ⟨M', hrun, hcells⟩
  · next hsmall =>
    rw [if_neg hsmall, Nat.mod_eq_of_lt hbytes] at happ
    exact ⟨_, rfl, msortWithTmp_direct happ⟩

end

/-- **`qsort_r`**: for every comparison that is a total preorder, the array ends up as a sorted
permutation of what it was. If the buffer on the stack is large enough or `malloc` returns one, it
is the stable sort; the direct and the indirect merge sort leave the same array. -/
theorem qsortR_sorts {malloc : Nat → Option Nat} {tmp pbase totalElems size : Nat} {M : Mem}
    {cmp : Block size → Block size → Int} (hsize : 1 ≤ size) (hbytes : totalElems * size < 2 ^ 64)
    (htable : 2 * totalElems * pointerSize + size < 2 ^ 64) (hcmp : TotalPreorder cmp)
    (hfits : pbase + totalElems * size ≤ 2 ^ 64)
    (hstack : Apart pbase (totalElems * size) tmp qsortStackSize)
    (hmalloc : ∀ need buf, malloc need = some buf → Apart pbase (totalElems * size) buf need) :
    (∃ M', qsortR malloc tmp (Compare.ofBlocks cmp) M pbase totalElems size = some M' ∧
      Sorted cmp (M'.cells pbase size totalElems) ∧
      (M'.cells pbase size totalElems).Perm (M.cells pbase size totalElems) ∧
      (totalSize totalElems size ≤ qsortStackSize ∨
          (malloc (totalSize totalElems size)).isSome = true →
        StableSort cmp (M.cells pbase size totalElems) (M'.cells pbase size totalElems))) ∧
    ∀ buf buf', Apart pbase (totalElems * size) buf (totalElems * size) →
      Apart pbase (totalElems * size) buf' (2 * totalElems * pointerSize + size) →
      ∃ M', indirectMsortWithTmp ⟨pointerSize, .voidArg, Compare.ofBlocks cmp, buf'⟩ M pbase
          totalElems size = some M' ∧
        M'.cells pbase size totalElems =
          (msortWithTmp ⟨size, getSwapType pbase size, Compare.ofBlocks cmp, buf⟩ M pbase
            totalElems).cells pbase size totalElems := by
  have hmerged : ∀ M' : Mem,
      M'.cells pbase size totalElems = mergeSorted cmp (M.cells pbase size totalElems) →
      Sorted cmp (M'.cells pbase size totalElems) ∧
        (M'.cells pbase size totalElems).Perm (M.cells pbase size totalElems) ∧
        StableSort cmp (M.cells pbase size totalElems) (M'.cells pbase size totalElems) := by
    intro M' hM'
    have hstable := stableSort_mergeSorted hcmp (M.cells pbase size totalElems)
    rw [hM']
    exact ⟨hstable.sorted, mergeSorted_perm cmp _, hstable⟩
  constructor
  · by_cases hmany : totalElems ≤ 1
    · have hself := hmerged M (mergeSorted_of_length_le (by rwa [Mem.length_cells])).symm
      exact ⟨M, if_pos hmany, hself.1, hself.2.1, fun _ => hself.2.2⟩
    · cases hbuf : if totalSize totalElems size ≤ qsortStackSize then some tmp
        else malloc (totalSize totalElems size) with
      | none =>
        have hlast : totalElems - 1 + 1 = totalElems := by omega
        have hfew : totalElems - 1 < 2 ^ 63 := by
          unfold pointerSize at htable
          omega
        obtain ⟨M', hrun, hsorted, hperm, -⟩ := @heapsortR_spec pbase size cmp M _ hcmp hfew
        rw [hlast] at hsorted hperm
        refine ⟨M', ?_, hsorted, hperm, fun hbuffer => ?_⟩
        · simp only [qsortR, if_neg hmany, hbuf]
          exact hrun
        · split at hbuf
          · cases hbuf
          · next hlarge =>
            rw [hbuf] at hbuffer
            exact absurd hbuffer (by simp [hlarge])
      | some buf =>
        obtain ⟨M', hrun, hcells⟩ := qsortR_of_buffer hsize hbytes htable hfits hmany hbuf
          (apart_buffer hstack hmalloc hbuf)
        have hM' := hmerged M' hcells
        exact ⟨M', hrun, hM'.1, hM'.2.1, fun _ => hM'.2.2⟩
  · intro buf buf' hdirect hindirect
    obtain ⟨M', hrun, hcells, -⟩ := indirectMsortWithTmp_spec cmp hsize hfits hindirect
    exact ⟨M', hrun, hcells.trans (msortWithTmp_direct hdirect).symm⟩

/-- Three records of two bytes, sorted by the first one. -/
def records : Mem := fun a => ([2, 0, 1, 0, 2, 1] : List UInt8).getD (a - 4096) 0

def byFirst (x y : Block 2) : Int := (x 0).toNat - (y 0).toNat

theorem qsortR_sorts_records :
    ∃ M', qsortR (fun _ => none) 0 (Compare.ofBlocks byFirst) records 4096 3 2 = some M' ∧
      Sorted byFirst (M'.cells 4096 2 3) ∧
      StableSort byFirst (records.cells 4096 2 3) (M'.cells 4096 2 3) := by
  have hcmp : TotalPreorder byFirst := by
    constructor
    · intro a b
      unfold byFirst
      omega
    · intro a b c hab hbc
      unfold byFirst at *
      omega
  obtain ⟨⟨M', hrun, hsorted, -, hstable⟩, -⟩ := @qsortR_sorts (fun _ => none) 0 4096 3 2 records
    byFirst (by decide) (by decide) (by decide) hcmp (by decide) (by decide) nofun
  exact ⟨M', hrun, hsorted, hstable (.inl (by decide))⟩

example : (qsortR (fun _ => none) 0 (Compare.ofBlocks byFirst) records 4096 3 2).map
    (fun M => (List.range 6).map fun i => M (4096 + i)) = some [1, 0, 2, 0, 2, 1] := by
  decide +kernel

example : (heapsortR records 4096 2 2 (Compare.ofBlocks byFirst)).map
    (fun M => (List.range 6).map fun i => M (4096 + i)) = some [1, 0, 2, 1, 2, 0] := by
  decide +kernel

end SafeLibc.Stdlib
