import SafeLibc.Stdlib.Heapsort
import SafeLibc.Stdlib.Msort

/-!
# Indirect sorting

`indirect_msort_with_tmp` sorts a table of pointers to the elements and then moves the elements to
where the table says. The table is a permutation `σ`: position `q` is to get the element `σ q`. The
loop follows the cycles of `σ` and overwrites the entry of each position it has filled with the
position itself.

A position is either still as it was or filled (`TableInv`). On a cycle that starts at `i`, the
positions filled so far are a path to the current one (`Cycle`), so that the loop comes back to `i`
and only there, after at most `n` turns, and the filled positions are a union of cycles again.
-/

namespace SafeLibc.Stdlib

open SafeLibc.Lib List

/-! ## Cycles -/

structure Shuffle (σ : Nat → Nat) (n : Nat) : Prop where
  maps : ∀ q, q < n → σ q < n
  inj : ∀ q r, q < n → r < n → σ q = σ r → q = r

/-- `done` is a union of cycles. -/
def Closed (σ : Nat → Nat) (n : Nat) (done : Finset Nat) : Prop :=
  ∀ q, q < n → (σ q ∈ done ↔ q ∈ done)

/-- `path` leads from `i` to `j`, apart from the cycles that are done. -/
structure Cycle (σ : Nat → Nat) (n i : Nat) (done path : Finset Nat) (j : Nat) : Prop where
  bound : j < n
  path_lt : ∀ q ∈ path, q < n
  closed : Closed σ n done
  not_done : j ∉ done
  not_path : j ∉ path
  next : ∀ q ∈ path, σ q ∈ path ∨ σ q = j
  back : ∀ q, q < n → σ q ∈ path ∨ σ q = j → σ q = i ∨ q ∈ path
  start : i ∈ path ∨ j = i

namespace Cycle

variable {σ : Nat → Nat} {n i j : Nat} {done path : Finset Nat} (hσ : Shuffle σ n)
  (h : Cycle σ n i done path j)

include hσ h

omit hσ in
theorem insert_lt : ∀ q ∈ insert j path, q < n :=
  (Finset.forall_mem_insert _ _ _).2 ⟨h.bound, h.path_lt⟩

theorem step (hne : σ j ≠ i) : Cycle σ n i done (insert j path) (σ j) := by
  have hback := h.back j h.bound
  constructor
  case bound => exact hσ.maps j h.bound
  case path_lt => exact h.insert_lt
  case closed => exact h.closed
  case not_done => exact fun hmem => h.not_done ((h.closed j h.bound).mp hmem)
  case not_path =>
    intro hmem
    exact (hback (Finset.mem_insert.mp hmem).symm).elim hne h.not_path
  case next =>
    intro q hq
    rcases Finset.mem_insert.mp hq with rfl | hq
    · exact .inr rfl
    · exact .inl (Finset.mem_insert.mpr (h.next q hq).symm)
  case back =>
    intro q hq hmem
    rcases hmem with hmem | heq
    · exact (h.back q hq (Finset.mem_insert.mp hmem).symm).imp_right (Finset.mem_insert_of_mem ·)
    · exact .inr (Finset.mem_insert.mpr (.inl (hσ.inj q j hq h.bound heq)))
  case start =>
    rcases h.start with hmem | rfl
    · exact .inl (Finset.mem_insert_of_mem hmem)
    · exact .inl (Finset.mem_insert_self j path)

theorem close (heq : σ j = i) : Closed σ n (done ∪ insert j path) := by
  intro q hq
  simp only [Finset.mem_union, Finset.mem_insert]
  rw [h.closed q hq]
  refine or_congr_right ⟨fun hmem => ?_, fun hmem => ?_⟩
  · rcases h.back q hq hmem.symm with hqi | hpath
    · exact .inl (hσ.inj q j hq h.bound (hqi.trans heq.symm))
    · exact .inr hpath
  · rcases hmem with rfl | hpath
    · rw [heq]
      exact h.start.symm.imp Eq.symm id
    · exact (h.next q hpath).symm

omit hσ in
theorem card_lt : path.card < n := by
  have hsub : insert j path ⊆ Finset.range n := fun q hq => Finset.mem_range.mpr (h.insert_lt q hq)
  have hcard := Finset.card_le_card hsub
  rw [Finset.card_insert_of_notMem h.not_path, Finset.card_range] at hcard
  omega

end Cycle

/-! ## Filling positions -/

/-- The pointer at place `q` of the table. -/
def entry (M : Mem) (tp q : Nat) : Nat := M.load64 (tp + q * pointerSize)

/-- Where the array, the table and the storage for one element are. -/
structure Layout (b s n tp tmpStorage : Nat) : Prop where
  size_pos : 0 < s
  fits : b + n * s ≤ 2 ^ 64
  table : Apart b (n * s) tp (n * pointerSize)
  storage : Apart b (n * s) tmpStorage s
  storage_table : Apart tp (n * pointerSize) tmpStorage s

/-- The positions `done` are filled, the others are as they were. -/
structure TableInv (M : Mem) (b s n tp : Nat) (σ : Nat → Nat) (orig : Nat → Block s)
    (done : Finset Nat) : Prop where
  filled : ∀ q, q < n → q ∈ done → entry M tp q = b + q * s ∧ element M b s q = orig (σ q)
  waiting : ∀ q, q < n → q ∉ done → entry M tp q = b + σ q * s ∧ element M b s q = orig q

def fill (M : Mem) (b s tp j src : Nat) : Mem :=
  (M.store64 (tp + j * pointerSize) (b + j * s)).copy (b + j * s) src s

section Fill

variable {b s n tp tmpStorage j src : Nat} {M : Mem}
  (hlay : Layout b s n tp tmpStorage) (hj : j < n)

include hj

theorem fill_frame {a : Nat} (harray : a < b ∨ b + n * s ≤ a)
    (htable : a < tp ∨ tp + n * pointerSize ≤ a) : fill M b s tp j src a = M a := by
  have hs := Mem.mul_add_le (s := s) hj
  unfold pointerSize at *
  rw [fill, Mem.copy_of_not_mem (by omega)]
  exact Mem.store_of_lt (by simp only [pointerSize]; omega)

include hlay

variable {q : Nat}

theorem entry_fill (hq : q < n) :
    entry (fill M b s tp j src) tp q = if q = j then b + j * s else entry M tp q := by
  have hs := Mem.mul_add_le (s := s) hj
  have htable := hlay.table
  have hcopy : entry (fill M b s tp j src) tp q =
      entry (M.store64 (tp + j * pointerSize) (b + j * s)) tp q := by
    refine Mem.load64_congr (Mem.load_congr fun a hge hlt => Mem.copy_of_not_mem ?_)
    unfold Apart pointerSize at *
    omega
  rw [hcopy]
  split
  · next heq =>
    subst heq
    have hfits := hlay.fits
    have hpos := hlay.size_pos
    exact Mem.load64_store64 (by omega)
  · next hne =>
    refine Mem.load64_congr (Mem.load_store_of_apart ?_)
    have h : Apart (tp + j * pointerSize) pointerSize (tp + q * pointerSize) pointerSize :=
      apart_elements (Ne.symm hne)
    exact h

theorem element_fill (hsrc : Apart tp (n * pointerSize) src s) (hq : q < n) :
    element (fill M b s tp j src) b s q = if q = j then M.load src s else element M b s q := by
  have hstore : ∀ r, Apart tp (n * pointerSize) r s →
      (M.store64 (tp + j * pointerSize) (b + j * s)).load r s = M.load r s := by
    intro r hr
    refine Mem.load_store_of_apart (hr.mono (by omega) ?_ le_rfl le_rfl)
    unfold pointerSize at *
    omega
  split
  · next heq =>
    subst heq
    exact (Mem.load_store _).trans (hstore src hsrc)
  · next hne =>
    have happ : Apart (b + j * s) s (b + q * s) s := apart_elements (Ne.symm hne)
    refine (Mem.load_store_of_apart happ).trans (hstore _ ?_)
    have hs := Mem.mul_add_le (s := s) hq
    have htable := hlay.table
    unfold Apart at *
    omega

theorem TableInv.fill {σ : Nat → Nat} {orig : Nat → Block s} {done : Finset Nat}
    (h : TableInv M b s n tp σ orig done) (hsrc : Apart tp (n * pointerSize) src s)
    (hload : M.load src s = orig (σ j)) :
    TableInv (fill M b s tp j src) b s n tp σ orig (insert j done) := by
  constructor
  · intro q hq hmem
    rw [entry_fill hlay hj hq, element_fill hlay hj hsrc hq]
    split
    · next heq =>
      subst heq
      exact ⟨rfl, hload⟩
    · next hne => exact h.filled q hq ((Finset.mem_insert.mp hmem).resolve_left hne)
  · intro q hq hnot
    rw [Finset.mem_insert, not_or] at hnot
    rw [entry_fill hlay hj hq, element_fill hlay hj hsrc hq, if_neg hnot.1, if_neg hnot.1]
    exact h.waiting q hq hnot.2

end Fill

/-! ## The loops -/

section Loops

variable {b s n tp tmpStorage : Nat} (hlay : Layout b s n tp tmpStorage) {σ : Nat → Nat}
  (hσ : Shuffle σ n) {orig : Nat → Block s}

include hlay

variable {M M' : Mem} {done : Finset Nat} {i q : Nat}

theorem Layout.load_storage
    (hframe : ∀ a, a < b ∨ b + n * s ≤ a → a < tp ∨ tp + n * pointerSize ≤ a → M' a = M a) :
    M'.load tmpStorage s = M.load tmpStorage s := by
  have hstorage := hlay.storage
  have htable := hlay.storage_table
  unfold Apart at hstorage htable
  exact Mem.load_congr fun a _ _ => hframe a (by omega) (by omega)

theorem Layout.apart_element (hq : q < n) : Apart tp (n * pointerSize) (b + q * s) s := by
  have hs := Mem.mul_add_le (s := s) hq
  have htable := hlay.table
  unfold Apart at *
  omega

theorem Layout.index : (b + q * s - b) / s = q := by
  rw [Nat.add_sub_cancel_left, Nat.mul_div_cancel q hlay.size_pos]

theorem Layout.address_inj {r : Nat} (h : b + q * s = b + r * s) : q = r :=
  Nat.eq_of_mul_eq_mul_right hlay.size_pos (Nat.add_left_cancel h)

omit hlay in
theorem element_congr (h : ∀ a, b ≤ a → a < b + n * s → M' a = M a) (hq : q < n) :
    element M' b s q = element M b s q := by
  have hs := Mem.mul_add_le (s := s) hq
  exact Mem.load_congr fun a _ _ => h a (by omega) (by omega)

omit hlay in
theorem TableInv.congr (h : TableInv M b s n tp σ orig done)
    (harray : ∀ a, b ≤ a → a < b + n * s → M' a = M a)
    (htable : ∀ a, tp ≤ a → a < tp + n * pointerSize → M' a = M a) :
    TableInv M' b s n tp σ orig done := by
  have hentry : ∀ q, q < n → entry M' tp q = entry M tp q := by
    intro q hq
    have hp := Mem.mul_add_le (s := pointerSize) hq
    have hsize : pointerSize = 8 := rfl
    exact Mem.load64_congr (Mem.load_congr fun a _ _ => htable a (by omega) (by omega))
  refine ⟨fun q hq => ?_, fun q hq => ?_⟩
  · rw [hentry q hq, element_congr harray hq]
    exact h.filled q hq
  · rw [hentry q hq, element_congr harray hq]
    exact h.waiting q hq

include hσ

theorem TableInv.fixed (hi : i < n) (hclosed : Closed σ n done)
    (h : TableInv M b s n tp σ orig done) (hentry : entry M tp i = b + i * s) :
    Closed σ n (insert i done) ∧ TableInv M b s n tp σ orig (insert i done) := by
  by_cases hmem : i ∈ done
  · rw [Finset.insert_eq_of_mem hmem]
    exact ⟨hclosed, h⟩
  · obtain ⟨hwait, helement⟩ := h.waiting i hi hmem
    have hfix : σ i = i := hlay.address_inj (hwait.symm.trans hentry)
    refine ⟨fun q hq => ?_, fun q hq hq' => ?_, fun q hq hq' => ?_⟩
    · rw [Finset.mem_insert, Finset.mem_insert, hclosed q hq]
      refine or_congr_left ⟨fun heq => hσ.inj q i hq hi (heq.trans hfix.symm), ?_⟩
      rintro rfl
      exact hfix
    · rcases Finset.mem_insert.mp hq' with rfl | hq'
      · exact ⟨hentry, by rw [hfix, helement]⟩
      · exact h.filled q hq hq'
    · exact h.waiting q hq fun hq'' => hq' (Finset.mem_insert_of_mem hq'')

/-- The inner loop comes to the position that is to get the element of the start. -/
theorem followCycle_spec {fuel : Nat} {path : Finset Nat} {j : Nat}
    (hcycle : Cycle σ n i done path j) (htable : TableInv M b s n tp σ orig (done ∪ path))
    (hne : σ j ≠ i) (hfuel : n ≤ fuel + path.card) :
    ∃ M' j' path', followCycle b s tp (b + i * s) fuel M j (b + j * s) (b + σ j * s) =
        some (M', j', b + j' * s) ∧
      Cycle σ n i done path' j' ∧ TableInv M' b s n tp σ orig (done ∪ path') ∧ σ j' = i ∧
      ∀ a, a < b ∨ b + n * s ≤ a → a < tp ∨ tp + n * pointerSize ≤ a → M' a = M a := by
  induction fuel generalizing M path j with
  | zero =>
    have hcard := hcycle.card_lt
    omega
  | succ fuel ih =>
    have hk := hσ.maps j hcycle.bound
    have hcycle' := hcycle.step hσ hne
    have hload : M.load (b + σ j * s) s = orig (σ j) := by
      refine (htable.waiting (σ j) hk ?_).2
      have hnot := hcycle'.not_path
      simp only [Finset.mem_union, Finset.mem_insert, not_or] at hnot ⊢
      exact ⟨hcycle'.not_done, hnot.2⟩
    have htable' : TableInv (fill M b s tp j (b + σ j * s)) b s n tp σ orig
        (done ∪ insert j path) := by
      rw [Finset.union_insert]
      exact htable.fill hlay hcycle.bound (hlay.apart_element hk) hload
    have hentry : entry (fill M b s tp j (b + σ j * s)) tp (σ j) = b + σ (σ j) * s := by
      refine (htable'.waiting (σ j) hk ?_).1
      rw [Finset.mem_union, not_or]
      exact ⟨hcycle'.not_done, hcycle'.not_path⟩
    have hstep : followCycle b s tp (b + i * s) (fuel + 1) M j (b + j * s) (b + σ j * s) =
        if b + σ (σ j) * s ≠ b + i * s then
          followCycle b s tp (b + i * s) fuel (fill M b s tp j (b + σ j * s)) (σ j) (b + σ j * s)
            (b + σ (σ j) * s)
        else some (fill M b s tp j (b + σ j * s), σ j, b + σ j * s) := by
      rw [followCycle, hlay.index, ← hentry]
      rfl
    rw [hstep]
    by_cases hlast : σ (σ j) = i
    · rw [hlast, if_neg (fun h => h rfl)]
      exact ⟨_, σ j, insert j path, rfl, hcycle', htable', hlast, fun a ha ht =>
        fill_frame hcycle.bound ha ht⟩
    · rw [if_pos fun h => hlast (hlay.address_inj h)]
      have hcard := Finset.card_insert_of_notMem hcycle.not_path
      obtain ⟨M', j', path', hrun, hcycle'', htable'', hend, hframe⟩ :=
        ih hcycle' htable' hlast (by omega)
      refine ⟨M', j', path', hrun, hcycle'', htable'', hend, fun a ha ht => ?_⟩
      rw [hframe a ha ht, fill_frame hcycle.bound ha ht]

/-- One turn of the outer loop fills the cycle of `i`. -/
theorem permuteAt_spec (hi : i < n) (hclosed : Closed σ n done)
    (htable : TableInv M b s n tp σ orig done) :
    ∃ M' done', permuteAt b s tp n tmpStorage M i (b + i * s) = some M' ∧ Closed σ n done' ∧
      TableInv M' b s n tp σ orig done' ∧ i ∈ done' ∧ done ⊆ done' ∧
      ∀ a, a < b ∨ b + n * s ≤ a → a < tp ∨ tp + n * pointerSize ≤ a →
        a < tmpStorage ∨ tmpStorage + s ≤ a → M' a = M a := by
  by_cases hentry : entry M tp i = b + i * s
  · obtain ⟨hclosed', htable'⟩ := htable.fixed hlay hσ hi hclosed hentry
    refine ⟨M, insert i done, ?_, hclosed', htable', Finset.mem_insert_self i done,
      Finset.subset_insert i done, fun _ _ _ _ => rfl⟩
    exact if_neg fun hne => hne hentry
  · have hnot : i ∉ done := fun hmem => hentry (htable.filled i hi hmem).1
    obtain ⟨hwait, helement⟩ := htable.waiting i hi hnot
    have hne : σ i ≠ i := fun heq => hentry (by rw [hwait, heq])
    have hstorage := hlay.storage
    have hstorage' := hlay.storage_table
    unfold Apart at hstorage hstorage'
    -- the element of `i` is kept in the storage
    have htable₁ : TableInv (M.copy tmpStorage (b + i * s) s) b s n tp σ orig (done ∪ ∅) := by
      rw [Finset.union_empty]
      exact htable.congr (fun a _ _ => Mem.copy_of_not_mem (by omega))
        fun a _ _ => Mem.copy_of_not_mem (by omega)
    have hcycle : Cycle σ n i done ∅ i := by
      refine ⟨hi, nofun, hclosed, hnot, Finset.notMem_empty i, nofun,
        fun q _ hq => .inl ?_, .inr rfl⟩
      exact hq.resolve_left (Finset.notMem_empty _)
    obtain ⟨M₂, j, path, hrun, hcycle₂, htable₂, hend, hframe⟩ :=
      followCycle_spec hlay hσ hcycle htable₁ hne
        (show n ≤ n + (∅ : Finset Nat).card from Nat.le_add_right n _)
    have hload : M₂.load tmpStorage s = orig (σ j) := by
      rw [hlay.load_storage hframe, hend, ← helement]
      exact Mem.load_store _
    refine ⟨fill M₂ b s tp j tmpStorage, done ∪ insert j path, ?_, hcycle₂.close hσ hend, ?_, ?_,
      Finset.subset_union_left, fun a ha ht hst => ?_⟩
    · have hstep : permuteAt b s tp n tmpStorage M i (b + i * s) =
          if entry M tp i ≠ b + i * s then
            (followCycle b s tp (b + i * s) n (M.copy tmpStorage (b + i * s) s) i (b + i * s)
              (entry M tp i)).bind fun r =>
                some ((r.1.store64 (tp + r.2.1 * pointerSize) r.2.2).copy r.2.2 tmpStorage s)
          else some M := rfl
      rw [hstep, if_pos hentry, hwait, hrun]
      rfl
    · rw [Finset.union_insert]
      exact htable₂.fill hlay hcycle₂.bound hlay.storage_table hload
    · rw [Finset.mem_union, Finset.mem_insert]
      exact .inr (hcycle₂.start.symm.imp Eq.symm id)
    · rw [fill_frame hcycle₂.bound ha ht, hframe a ha ht, Mem.copy_of_not_mem hst]

theorem permuteFrom_spec (hi : i ≤ n) (hclosed : Closed σ n done)
    (htable : TableInv M b s n tp σ orig done) (hbefore : ∀ q, q < i → q ∈ done) :
    ∃ M', permuteFrom b s tp n tmpStorage M i (b + i * s) = some M' ∧
      (∀ q, q < n → element M' b s q = orig (σ q)) ∧
      ∀ a, a < b ∨ b + n * s ≤ a → a < tp ∨ tp + n * pointerSize ≤ a →
        a < tmpStorage ∨ tmpStorage + s ≤ a → M' a = M a := by
  induction hrest : n - i generalizing i M done with
  | zero =>
    obtain rfl : i = n := by omega
    refine ⟨M, ?_, fun q hq => (htable.filled q hq (hbefore q hq)).2, fun _ _ _ _ => rfl⟩
    rw [permuteFrom, if_neg (lt_irrefl i)]
  | succ rest ih =>
    have hlt : i < n := by omega
    obtain ⟨M₁, done₁, hrun, hclosed₁, htable₁, hmem, hsub, hframe⟩ :=
      permuteAt_spec hlay hσ hlt hclosed htable
    have hbefore₁ : ∀ q, q < i + 1 → q ∈ done₁ := by
      intro q hq
      rcases Nat.lt_succ_iff_lt_or_eq.mp hq with hq | rfl
      · exact hsub (hbefore q hq)
      · exact hmem
    obtain ⟨M', hrun', hdone, hframe'⟩ := ih (by omega) hclosed₁ htable₁ hbefore₁ (by omega)
    refine ⟨M', ?_, hdone, fun a ha ht hst => by rw [hframe' a ha ht hst, hframe a ha ht hst]⟩
    rw [Nat.succ_mul, ← add_assoc] at hrun'
    rw [permuteFrom, if_pos hlt, hrun]
    exact hrun'

end Loops

/-! ## The table -/

def pointer (u : Block pointerSize) : Nat := leNat (List.ofFn u)

theorem fillTable_spec {M : Mem} {t ip s n : Nat} (hs : 0 < s) (hfits : ip + n * s ≤ 2 ^ 64) :
    (∀ q, q < n → entry (fillTable M t ip s (t + n * pointerSize)) t q = ip + q * s) ∧
      ∀ a, a < t ∨ t + n * pointerSize ≤ a → fillTable M t ip s (t + n * pointerSize) a = M a := by
  have hsize : pointerSize = 8 := rfl
  induction n generalizing M t ip with
  | zero =>
    rw [zero_mul, add_zero, fillTable, if_neg (lt_irrefl t)]
    exact ⟨fun q hq => absurd hq (Nat.not_lt_zero q), fun _ _ => rfl⟩
  | succ n ih =>
    have hstop : t + (n + 1) * pointerSize = t + pointerSize + n * pointerSize := by
      rw [Nat.succ_mul]
      omega
    have hip : ip + (n + 1) * s = ip + s + n * s := by
      rw [Nat.succ_mul]
      omega
    rw [fillTable, if_pos (by omega), hstop]
    obtain ⟨hentries, hframe⟩ := @ih (M.store64 t ip) (t + pointerSize) (ip + s) (by omega)
    refine ⟨fun q hq => ?_, fun a ha => ?_⟩
    · rcases Nat.eq_zero_or_pos q with rfl | hpos
      · rw [zero_mul]
        have hload : ∀ M' : Mem, entry M' t 0 = M'.load64 t := fun M' => by
          rw [entry, zero_mul, add_zero]
        rw [hload, Mem.load64_congr (Mem.load_congr fun a _ hlt => hframe a (by omega))]
        exact Mem.load64_store64 (by omega)
      · obtain ⟨q, rfl⟩ := Nat.exists_eq_succ_of_ne_zero hpos.ne'
        have haddr : t + (q + 1) * pointerSize = t + pointerSize + q * pointerSize := by
          rw [Nat.succ_mul]
          omega
        have hq' := hentries q (by omega)
        rw [entry, haddr, Nat.succ_mul]
        rw [entry] at hq'
        omega
    · rw [hframe a (by omega)]
      exact Mem.store_of_lt (by omega)

section Table

variable {M : Mem} {tp n : Nat}

theorem map_pointer_cells :
    (M.cells tp pointerSize n).map pointer = (List.range n).map (entry M tp) := by
  rw [Mem.cells, map_map]
  rfl

theorem shuffle_of_perm {b s : Nat} (hs : 0 < s)
    (hperm : ((List.range n).map (entry M tp)).Perm ((List.range n).map fun q => b + q * s)) :
    ∃ σ, Shuffle σ n ∧ ∀ q, q < n → entry M tp q = b + σ q * s := by
  have hexists : ∀ q, q < n → ∃ r, r < n ∧ entry M tp q = b + r * s := by
    intro q hq
    have hmem := hperm.mem_iff.mp (mem_map_of_mem (mem_range.mpr hq))
    obtain ⟨r, hr, heq⟩ := mem_map.mp hmem
    exact ⟨r, mem_range.mp hr, heq.symm⟩
  have haddr : ∀ q, q < n → entry M tp q = b + (entry M tp q - b) / s * s := by
    intro q hq
    obtain ⟨r, -, heq⟩ := hexists q hq
    rw [heq, Nat.add_sub_cancel_left, Nat.mul_div_cancel r hs]
  refine ⟨fun q => (entry M tp q - b) / s, ⟨fun q hq => ?_, fun q r hq hr heq => ?_⟩, haddr⟩
  · obtain ⟨r, hr, heq⟩ := hexists q hq
    rwa [heq, Nat.add_sub_cancel_left, Nat.mul_div_cancel r hs]
  · have hnodup : ((List.range n).map (entry M tp)).Nodup := by
      refine hperm.nodup_iff.mpr (List.Nodup.map (fun q r h => ?_) nodup_range)
      exact Nat.eq_of_mul_eq_mul_right hs (Nat.add_left_cancel h)
    refine inj_on_of_nodup_map hnodup (mem_range.mpr hq) (mem_range.mpr hr) ?_
    rw [haddr q hq, haddr r hr]
    exact congrArg (fun k => b + k * s) heq

end Table

section Pointers

variable {M₁ : Mem} {b s n buf : Nat} (cmp : Block s → Block s → Int)

/-- The cell points to an element of the array. -/
def PointsInto (b s n : Nat) (u : Block pointerSize) : Prop := ∃ q, q < n ∧ pointer u = b + q * s

/-- Comparing through the pointers is a comparison of the pointers while the array is not
written. -/
theorem respects_pointers (happ : Apart b (n * s) buf (2 * n * pointerSize)) :
    Respects ⟨pointerSize, .voidArg, Compare.ofBlocks cmp, buf⟩ M₁
      (fun a => buf ≤ a ∧ a < buf + 2 * n * pointerSize) (PointsInto b s n)
      fun u v => cmp (M₁.load (pointer u) s) (M₁.load (pointer v) s) := by
  intro M x y hM hx hy
  have hload : ∀ z, PointsInto b s n (M.load z pointerSize) →
      M.load (M.load64 z) s = M₁.load (pointer (M.load z pointerSize)) s := by
    rintro z ⟨q, hq, heq⟩
    have hs := Mem.mul_add_le (s := s) hq
    unfold Apart at happ
    refine Mem.load_congr fun a hge hlt => hM a ?_
    have haddr : M.load64 z = b + q * s := heq
    omega
  show cmp (M.load (M.load64 x) s) (M.load (M.load64 y) s) = _
  rw [hload x hx, hload y hy]

theorem sorted_table (happ : Apart b (n * s) buf (2 * n * pointerSize))
    (hentries : ∀ q, q < n → entry M₁ (buf + n * pointerSize) q = b + q * s) :
    ∃ M₂, msortWithTmp ⟨pointerSize, .voidArg, Compare.ofBlocks cmp, buf⟩ M₁
      (buf + n * pointerSize) n = M₂ ∧
      (∀ a, a < buf ∨ buf + 2 * n * pointerSize ≤ a → M₂ a = M₁ a) ∧
      M₂.cells (buf + n * pointerSize) pointerSize n =
        mergeSorted (fun u v => cmp (M₁.load (pointer u) s) (M₁.load (pointer v) s))
          (M₁.cells (buf + n * pointerSize) pointerSize n) := by
  have htwo : 2 * n * pointerSize = n * pointerSize + n * pointerSize := by
    rw [mul_assoc, two_mul]
  have hgood : ∀ u ∈ M₁.cells (buf + n * pointerSize) pointerSize n, PointsInto b s n u := by
    intro u hu
    obtain ⟨q, hq, rfl⟩ := mem_map.mp hu
    exact ⟨q, mem_range.mp hq, hentries q (mem_range.mp hq)⟩
  have htable : Writable (fun a => buf ≤ a ∧ a < buf + 2 * n * pointerSize) (buf + n * pointerSize)
      (n * pointerSize) := fun a hge hlt => ⟨by omega, by omega⟩
  have hbuffer :
      Writable (fun a => buf ≤ a ∧ a < buf + 2 * n * pointerSize) buf (n * pointerSize) :=
    fun a hge hlt => ⟨by omega, by omega⟩
  obtain ⟨hframe, hcells⟩ := msortWithTmp_spec rfl (respects_pointers cmp happ) (fun _ _ => rfl)
    htable hbuffer (.inl le_rfl) hgood
  refine ⟨_, rfl, fun a ha => hframe a ?_ ?_, hcells⟩
  · show a < buf + n * pointerSize ∨ buf + n * pointerSize + n * pointerSize ≤ a
    omega
  · show a < buf ∨ buf + n * pointerSize ≤ a
    omega

/-- **`indirect_msort_with_tmp`** leaves the stable sort of the array and writes nothing but the
array and the buffer. -/
theorem indirectMsortWithTmp_spec {M : Mem} (hs : 0 < s) (hfits : b + n * s ≤ 2 ^ 64)
    (happ : Apart b (n * s) buf (2 * n * pointerSize + s)) :
    ∃ M', indirectMsortWithTmp ⟨pointerSize, .voidArg, Compare.ofBlocks cmp, buf⟩ M b n s =
      some M' ∧
      M'.cells b s n = mergeSorted cmp (M.cells b s n) ∧
      ∀ a, a < b ∨ b + n * s ≤ a → a < buf ∨ buf + (2 * n * pointerSize + s) ≤ a → M' a = M a := by
  have htwo : 2 * n * pointerSize = n * pointerSize + n * pointerSize := by
    rw [mul_assoc, two_mul]
  obtain ⟨M₁, hfill, hentries, hframe₁⟩ : ∃ M₁, fillTable M (buf + n * pointerSize) b s
        (buf + n * pointerSize + n * pointerSize) = M₁ ∧
      (∀ q, q < n → entry M₁ (buf + n * pointerSize) q = b + q * s) ∧
      ∀ a, a < buf + n * pointerSize ∨ buf + n * pointerSize + n * pointerSize ≤ a → M₁ a = M a :=
    ⟨_, rfl, fillTable_spec hs hfits⟩
  have happ' : Apart b (n * s) buf (2 * n * pointerSize) := by
    unfold Apart at *
    omega
  obtain ⟨M₂, hsort, hframe₂, hcells⟩ := sorted_table cmp happ' hentries
  have hlay : Layout b s n (buf + n * pointerSize) (buf + n * pointerSize + n * pointerSize) := by
    refine ⟨hs, hfits, ?_, ?_, .inl le_rfl⟩
    · unfold Apart at *
      omega
    · unfold Apart at *
      omega
  -- the entries are the addresses of the elements in another order
  have haddresses : (M₁.cells (buf + n * pointerSize) pointerSize n).map pointer =
      (List.range n).map fun q => b + q * s := by
    rw [map_pointer_cells]
    exact map_congr_left fun q hq => hentries q (mem_range.mp hq)
  have hperm : ((List.range n).map (entry M₂ (buf + n * pointerSize))).Perm
      ((List.range n).map fun q => b + q * s) := by
    rw [← map_pointer_cells, hcells, ← haddresses]
    exact (mergeSorted_perm _ _).map pointer
  obtain ⟨σ, hσ, hσentry⟩ := shuffle_of_perm hs hperm
  unfold Apart at happ'
  have helement₁ : ∀ q, q < n → element M₁ b s q = element M b s q := fun q =>
    element_congr fun a _ _ => hframe₁ a (by omega)
  have helement₂ : ∀ q, q < n → element M₂ b s q = element M₁ b s q := fun q =>
    element_congr fun a _ _ => hframe₂ a (by omega)
  have htable : TableInv M₂ b s n (buf + n * pointerSize) σ (element M b s) ∅ :=
    ⟨nofun, fun q hq _ => ⟨hσentry q hq, by rw [helement₂ q hq, helement₁ q hq]⟩⟩
  obtain ⟨M', hrun, hdone, hframe₃⟩ := permuteFrom_spec hlay hσ (Nat.zero_le n)
    (fun q _ => by simp) htable nofun
  rw [zero_mul] at hrun
  refine ⟨M', ?_, ?_, fun a ha hbuf => ?_⟩
  · rw [← hsort, ← hfill] at hrun
    exact hrun
  · -- both sides read the elements through the sorted table
    have hbefore : (M₁.cells (buf + n * pointerSize) pointerSize n).map
        (fun u => M₁.load (pointer u) s) = M.cells b s n := by
      have hmap := congrArg (map fun p => M₁.load p s) haddresses
      rw [map_map, map_map] at hmap
      exact hmap.trans (map_congr_left fun q hq => helement₁ q (mem_range.mp hq))
    have hafter : (M₂.cells (buf + n * pointerSize) pointerSize n).map
        (fun u => M₁.load (pointer u) s) = M'.cells b s n := by
      have hmap := congrArg (map fun p => M₁.load p s)
        (@map_pointer_cells M₂ (buf + n * pointerSize) n)
      rw [map_map, map_map] at hmap
      refine hmap.trans (map_congr_left fun q hq => ?_)
      have hq := mem_range.mp hq
      calc M₁.load (entry M₂ (buf + n * pointerSize) q) s
          = element M₁ b s (σ q) := by rw [hσentry q hq]; rfl
        _ = element M b s (σ q) := helement₁ (σ q) (hσ.maps q hq)
        _ = element M' b s q := (hdone q hq).symm
    rw [← hafter, hcells, map_mergeSorted (fun u => M₁.load (pointer u) s), hbefore]
  · rw [hframe₃ a ha (by omega) (by omega), hframe₂ a (by omega), hframe₁ a (by omega)]

end Pointers

end SafeLibc.Stdlib
