import Mathlib.Data.List.Perm.Basic
import SafeLibc.Ldso.FindObject
import SafeLibc.Lib.Intervals

/-!
# The lookups of `_dl_find_object`

An array is in order when the ranges of its entries ascend (`Sorted`); a closed entry keeps its
place with an empty range. The binary search then finds the entry that covers the address, and a
chain of segments is searched like the one array of all its entries in use.
-/

namespace SafeLibc.Ldso.FindObject

open SafeLibc.Lib List

abbrev Entry.contains (pc : Nat) : Entry → Bool := covers Entry.mapStart Entry.mapEnd pc

abbrev Sorted : List Entry → Prop := Ascending Entry.mapStart Entry.mapEnd

variable {i : Nat} {e : Entry} {st : State} {r : Option Nat} {xs : List Entry}

theorem read_eq {objects : List Entry} (h : objects[i]? = some e) : read objects i = .ok e := by
  simp [read, h]

/-! ## The binary search -/

variable {objects : List Entry} {size pc : Nat}

/-- What the loop keeps: all before `first` start below `pc`, all from `first + left` on do not. -/
structure Between (objects : List Entry) (size pc first left : Nat) : Prop where
  bound : first + left ≤ size
  below : ∀ i e, i < first → objects[i]? = some e → e.mapStart < pc
  above : ∀ i e, first + left ≤ i → i < size → objects[i]? = some e → pc ≤ e.mapStart

theorem lowerBound_spec (hsorted : Sorted (objects.take size)) (hsize : size ≤ objects.length)
    {fuel first left : Nat} (hfuel : left ≤ fuel) (h : Between objects size pc first left) :
    ∃ r, lowerBound objects pc fuel first left = .ok r ∧ Between objects size pc r 0 := by
  induction fuel generalizing first left with
  | zero =>
    obtain rfl : left = 0 := by omega
    exact ⟨first, rfl, h⟩
  | succ fuel ih =>
    cases left with
    | zero => exact ⟨first, rfl, h⟩
    | succ left =>
      have hbound := h.bound
      have hlt : first + (left + 1) / 2 < size := by omega
      obtain ⟨e, he⟩ : ∃ e, objects[first + (left + 1) / 2]? = some e :=
        ⟨_, getElem?_eq_getElem (by omega)⟩
      -- what stands before or after the middle starts before or after it
      have hbefore : ∀ i j a b, i < j → j < size → objects[i]? = some a → objects[j]? = some b →
          a.mapStart ≤ b.mapStart := by
        intro i j a b hij hj ha hb
        rw [← getElem?_take_of_lt (by omega : i < size)] at ha
        rw [← getElem?_take_of_lt hj] at hb
        exact (hsorted.before hij ha hb).lo_le
      rw [lowerBound]
      simp only [read_eq he, ok_bind]
      by_cases hless : e.mapStart < pc
      · rw [if_pos hless]
        refine ih (by omega) ⟨by omega, fun i a hi ha => ?_, fun i a hi hj ha => ?_⟩
        · rcases lt_or_ge i (first + (left + 1) / 2) with hi' | hi'
          · exact lt_of_le_of_lt (hbefore _ _ a e hi' hlt ha he) hless
          · obtain rfl : i = first + (left + 1) / 2 := by omega
            obtain rfl := Option.some.inj (he.symm.trans ha)
            exact hless
        · exact h.above i a (by omega) hj ha
      · rw [if_neg hless]
        refine ih (by omega) ⟨by omega, h.below, fun i a hi hj ha => ?_⟩
        rcases lt_or_ge (first + (left + 1) / 2) i with hi' | hi'
        · have := hbefore _ _ e a hi' hj he ha
          omega
        · obtain rfl : i = first + (left + 1) / 2 := by omega
          obtain rfl := Option.some.inj (he.symm.trans ha)
          omega

def Located (objects : List Entry) (size pc : Nat) (r : Option Nat) : Prop :=
  ∀ i, r = some i ↔ ∃ e, (objects.take size)[i]? = some e ∧ e.contains pc = true

/-- If only the entry at `i` can contain the address, it alone is to be looked at. -/
theorem located_of_only (hi : (objects.take size)[i]? = some e) (hstart : e.mapStart ≤ pc)
    (honly : ∀ j a, j ≠ i → (objects.take size)[j]? = some a → a.contains pc = false) :
    Located objects size pc (if pc < e.mapEnd then some i else none) := by
  intro j
  by_cases hj : j = i
  · subst hj
    by_cases hend : pc < e.mapEnd
    · simp only [hend, if_true, true_iff]
      exact ⟨e, hi, covers_iff.2 ⟨hstart, hend⟩⟩
    · simp only [hend, if_false, reduceCtorEq, false_iff]
      rintro ⟨a, ha, hcontains⟩
      obtain rfl := Option.some.inj (hi.symm.trans ha)
      exact hend (covers_iff.1 hcontains).2
  · constructor
    · intro h
      split at h
      · exact absurd (Option.some.inj h).symm hj
      · cases h
    · rintro ⟨a, ha, hcontains⟩
      rw [honly j a hj ha] at hcontains
      cases hcontains

/-- `_dlfo_lookup` over an array that is in order and does not start above the address. -/
theorem lookup_spec (hsorted : Sorted (objects.take size)) (hsize : size ≤ objects.length)
    {first : Entry} (hpos : 0 < size) (hfirst : objects[0]? = some first)
    (hstart : first.mapStart ≤ pc) :
    ∃ r, lookup objects size pc = .ok r ∧ Located objects size pc r := by
  have hall : Between objects size pc 0 size :=
    ⟨by omega, fun i _ hi => absurd hi (Nat.not_lt_zero i), fun i _ hge hlt => by omega⟩
  obtain ⟨r, hrun, h⟩ := lowerBound_spec hsorted hsize (le_refl size) hall
  unfold lookup
  rw [hrun, ok_bind]
  have hbound := h.bound
  -- the entry before the lower bound decides, unless the entry at the bound starts at `pc`
  have hprevious : (∀ e, r < size → objects[r]? = some e → pc ≠ e.mapStart) →
      ∃ r', lookupPrevious objects pc r = .ok r' ∧ Located objects size pc r' := by
    intro hne
    cases r with
    | zero =>
      have := h.above 0 first (le_refl 0) hpos hfirst
      exact absurd (by omega) (hne first hpos hfirst)
    | succ i =>
      obtain ⟨e, he⟩ : ∃ e, objects[i]? = some e := ⟨_, getElem?_eq_getElem (by omega)⟩
      refine ⟨_, by rw [lookupPrevious, read_eq he, ok_bind], ?_⟩
      have he' : (objects.take size)[i]? = some e := by rw [getElem?_take_of_lt (by omega), he]
      refine located_of_only he' (le_of_lt (h.below i e (by omega) he)) fun j a hj ha => ?_
      rcases lt_or_ge j i with hj' | hj'
      · exact (hsorted.before hj' ha he').not_covers_left (le_of_lt (h.below i e (by omega) he))
      · have hlt : j < size := by
          have := (List.getElem?_eq_some_iff.1 ha).1
          rw [length_take] at this
          omega
        rw [getElem?_take_of_lt hlt] at ha
        refine not_covers_of_lt (Nat.lt_of_le_of_ne (h.above j a (by omega) hlt ha) ?_)
        rcases Nat.eq_or_lt_of_le (by omega : i + 1 ≤ j) with rfl | hj''
        · exact hne a hlt ha
        · obtain ⟨b, hb⟩ : ∃ b, objects[i + 1]? = some b :=
            ⟨_, getElem?_eq_getElem (by omega)⟩
          have hb' : (objects.take size)[i + 1]? = some b := by
            rw [getElem?_take_of_lt (by omega), hb]
          rw [← getElem?_take_of_lt hlt] at ha
          have := (hsorted.before hj'' hb' ha).lo_le
          have := hne b (by omega) hb
          have := h.above (i + 1) b (by omega) (by omega) hb
          omega
  by_cases hend : r = size
  · rw [if_pos hend]
    exact hprevious fun e hr => by omega
  · rw [if_neg hend]
    obtain ⟨e, he⟩ : ∃ e, objects[r]? = some e := ⟨_, getElem?_eq_getElem (by omega)⟩
    rw [read_eq he, ok_bind]
    by_cases heq : pc = e.mapStart
    · rw [if_pos heq]
      refine ⟨_, rfl, ?_⟩
      have he' : (objects.take size)[r]? = some e := by rw [getElem?_take_of_lt (by omega), he]
      refine located_of_only he' (by omega) fun j a hj ha => ?_
      rcases lt_or_ge j r with hj' | hj'
      · exact (hsorted.before hj' ha he').not_covers_left (by omega)
      · exact (hsorted.before (by omega : r < j) he' ha).not_covers_right (le_of_eq heq)
    · rw [if_neg heq]
      refine hprevious fun a _ ha => ?_
      obtain rfl := Option.some.inj (he.symm.trans ha)
      exact heq

theorem Located.find?_eq (h : Located objects size pc r) (hsorted : Sorted (objects.take size)) :
    (objects.take size).find? (Entry.contains pc) = r.bind fun i => (objects.take size)[i]? := by
  cases r with
  | none =>
    rw [Option.bind_none, find?_eq_none]
    intro e he hcontains
    obtain ⟨i, hi⟩ := mem_iff_getElem?.1 he
    cases (h i).2 ⟨e, hi, hcontains⟩
  | some i =>
    obtain ⟨e, he, hcontains⟩ := (h i).1 rfl
    rw [Option.bind_some, he]
    exact hsorted.find?_eq (mem_of_getElem? he) hcontains

theorem getElem?_of_take (h : (objects.take size)[i]? = some e) : objects[i]? = some e := by
  have hlt := (List.getElem?_eq_some_iff.1 h).1
  rw [length_take] at hlt
  rwa [getElem?_take_of_lt (by omega)] at h

theorem lookup_read_spec {β : Type} (hsorted : Sorted (objects.take size))
    (h : Located objects size pc r) (found : Entry → Except Fault β) (other : Except Fault β) :
    (match r with
      | some i => read objects i >>= found
      | none => other)
    = match (objects.take size).find? (Entry.contains pc) with
      | some e => found e
      | none => other := by
  rw [h.find?_eq hsorted]
  cases r with
  | none => rfl
  | some i =>
    obtain ⟨e, he, -⟩ := (h i).1 rfl
    simp only [Option.bind_some, he, read_eq (getElem?_of_take he), ok_bind]

/-! ## Chains of segments -/

/-- The entries in use, in ascending order of addresses: the first segment that is not used ends
the chain. -/
def used : List Segment → List Entry
  | [] => []
  | seg :: previous =>
    if seg.size = 0 then [] else used previous ++ seg.objects.take seg.size

def Fits (chain : List Segment) : Prop :=
  ∀ seg ∈ chain, 0 < seg.objects.length ∧ seg.size ≤ seg.objects.length

/-- The first segment is in use, so that the search does not go on to leftovers in the others. -/
def HeadUsed (chain : List Segment) : Prop :=
  ∀ seg ∈ chain.head?, seg.size ≠ 0

variable {seg : Segment} {chain previous : List Segment}

theorem used_cons (h : seg.size ≠ 0) :
    used (seg :: previous) = used previous ++ seg.objects.take seg.size := by
  rw [used, if_neg h]

theorem find?_eq_none_of (h : ∀ x ∈ xs, x.contains pc = false) :
    xs.find? (Entry.contains pc) = none := by
  rw [find?_eq_none]
  intro x hx
  rw [h x hx]
  exact Bool.false_ne_true

/-- The first entry of a used segment decides where the search goes on. -/
theorem Fits.first (hfits : Fits (seg :: previous)) (hsize : seg.size ≠ 0)
    (hsorted : Sorted (used (seg :: previous))) (pc : Nat) :
    ∃ e, seg.objects[0]? = some e ∧ Sorted (used previous) ∧
      Sorted (seg.objects.take seg.size) ∧
      (e.mapStart ≤ pc → (∀ x ∈ used previous, x.contains pc = false) ∧
        ∃ r, lookup seg.objects seg.size pc = .ok r ∧ Located seg.objects seg.size pc r) ∧
      (¬ e.mapStart ≤ pc → ∀ x ∈ seg.objects.take seg.size, x.contains pc = false) := by
  have hfit := hfits seg mem_cons_self
  rw [used_cons hsize] at hsorted
  obtain ⟨e, rest, htake⟩ : ∃ e rest, seg.objects.take seg.size = e :: rest := by
    refine exists_cons_of_ne_nil fun hnil => hsize ?_
    have := congrArg List.length hnil
    rw [length_take, length_nil] at this
    omega
  obtain ⟨hprevious, hseg, hacross⟩ := pairwise_append.1 hsorted
  have hfirst : seg.objects[0]? = some e := getElem?_of_take (by rw [htake]; rfl)
  refine ⟨e, hfirst, hprevious, hseg, fun hstart => ⟨fun x hx => ?_, ?_⟩, fun hstart x hx => ?_⟩
  · exact (hacross x hx e (htake ▸ mem_cons_self)).not_covers_left hstart
  · exact lookup_spec hseg hfit.2 (Nat.pos_of_ne_zero hsize) hfirst hstart
  · rw [htake] at hx hseg
    refine not_covers_of_lt (Nat.lt_of_lt_of_le (Nat.lt_of_not_le hstart) ?_)
    rcases mem_cons.1 hx with rfl | hx
    · exact le_rfl
    · exact ((pairwise_cons.1 hseg).1 x hx).lo_le

/-- A chain is searched like the array of all its entries in use. -/
theorem searchSegments_spec (hfits : Fits chain) (hsorted : Sorted (used chain)) :
    searchSegments pc chain
      = .ok (((used chain).find? (Entry.contains pc)).map Entry.toExternal) := by
  induction chain with
  | nil => rfl
  | cons seg previous ih =>
    by_cases hsize : seg.size = 0
    · simp [searchSegments, used, hsize]
    · obtain ⟨first, hfirst, hprevious, hseg, hin, hbelow⟩ := hfits.first hsize hsorted pc
      rw [searchSegments, if_neg hsize, read_eq hfirst, ok_bind, used_cons hsize, find?_append]
      by_cases hstart : first.mapStart ≤ pc
      · obtain ⟨habove, r, hrun, hlocated⟩ := hin hstart
        rw [if_pos hstart, hrun, find?_eq_none_of habove]
        refine (lookup_read_spec hseg hlocated (fun e => .ok (some e.toExternal))
          (.ok none)).trans ?_
        cases (seg.objects.take seg.size).find? (Entry.contains pc) <;> rfl
      · rw [if_neg hstart, find?_eq_none_of (hbelow hstart), Option.or_none]
        exact ih (fun s hs => hfits s (mem_cons_of_mem _ hs)) hprevious

/-! ## The whole lookup -/

structure Started (st : State) : Prop where
  main : st.main.mapEnd ≠ 0
  sorted : Sorted st.nodelete
  last : st.nodeleteEnd = (st.nodelete.getLast?.map Entry.mapEnd).getD 0
  ordered : ∀ e ∈ st.nodelete, e.mapStart ≤ e.mapEnd

theorem Started.outside (h : Started st)
    (hpc : ¬ ((st.nodelete.headD st.beyond).mapStart ≤ pc ∧ pc < st.nodeleteEnd)) :
    st.nodelete.find? (Entry.contains pc) = none := by
  refine find?_eq_none_of fun x hx => ?_
  have hfirst : (st.nodelete.headD st.beyond).mapStart ≤ x.mapStart := by
    obtain ⟨first, rest, hlist⟩ := exists_cons_of_ne_nil (ne_nil_of_mem hx)
    have hsorted := h.sorted
    rw [hlist] at hsorted hx ⊢
    rcases mem_cons.1 hx with rfl | hx
    · exact le_rfl
    · exact ((pairwise_cons.1 hsorted).1 x hx).lo_le
  have hend : x.mapEnd ≤ st.nodeleteEnd := by
    rcases eq_nil_or_concat' st.nodelete with hlist | ⟨init, last, hlist⟩
    · rw [hlist] at hx
      cases hx
    · have hsorted := h.sorted
      have hlast := h.last
      rw [hlist] at hsorted hx hlast
      rw [hlast, getLast?_concat, Option.map_some, Option.getD_some]
      rcases mem_append.1 hx with hx | hx
      · have hbefore := (pairwise_append.1 hsorted).2.2 x hx last mem_cons_self
        have hin : last ∈ st.nodelete := hlist ▸ mem_append_right _ mem_cons_self
        exact le_trans hbefore.hi_le (h.ordered _ hin)
      · exact le_of_eq (by rw [mem_singleton.1 hx])
  have hout : ¬ (x.mapStart ≤ pc ∧ pc < x.mapEnd) := by omega
  simpa [covers] using hout

theorem searchNodelete_spec (h : Started st) (hfits : Fits st.active)
    (hsorted : Sorted (used st.active)) :
    searchNodelete st pc = .ok (((st.nodelete ++ used st.active).find? (Entry.contains pc)).map
      Entry.toExternal) := by
  unfold searchNodelete
  rw [find?_append]
  by_cases hrange : (st.nodelete.headD st.beyond).mapStart ≤ pc ∧ pc < st.nodeleteEnd
  · obtain ⟨first, rest, hlist⟩ : ∃ first rest, st.nodelete = first :: rest := by
      refine exists_cons_of_ne_nil fun hnil => ?_
      have := h.last
      rw [hnil] at this
      simp [this] at hrange
    have htake : st.nodelete.take st.nodelete.length = st.nodelete := take_length
    have hsorted' : Sorted (st.nodelete.take st.nodelete.length) := htake.symm ▸ h.sorted
    have hpos : 0 < st.nodelete.length := by simp [hlist]
    obtain ⟨r, hrun, hlocated⟩ := lookup_spec hsorted' le_rfl hpos
      (by rw [hlist]; rfl) (hlist ▸ hrange.1)
    simp only [if_pos hrange, hrun]
    refine (lookup_read_spec hsorted' hlocated (fun e => .ok (some e.toExternal))
      (searchSegments pc st.active)).trans ?_
    rw [htake]
    cases st.nodelete.find? (Entry.contains pc) with
    | some e => rfl
    | none => exact searchSegments_spec hfits hsorted
  · simp only [if_neg hrange]
    rw [h.outside hrange]
    exact searchSegments_spec hfits hsorted

/-- The lookup is a search through the main map, the maps loaded at startup and the entries in
use. -/
theorem dlFindObject_spec (h : Started st) (hfits : Fits st.active)
    (hsorted : Sorted (used st.active)) (slow : Nat → Option Found) : dlFindObject st slow pc
      = .ok (((st.main :: (st.nodelete ++ used st.active)).find? (Entry.contains pc)).map
          Entry.toExternal) := by
  unfold dlFindObject
  rw [if_neg h.main]
  by_cases hmain : st.main.contains pc = true
  · rw [if_pos (covers_iff.1 hmain), find?_cons_of_pos hmain]
    rfl
  · rw [if_neg fun hin => hmain (covers_iff.2 hin), find?_cons_of_neg hmain]
    exact searchNodelete_spec h hfits hsorted

/-! ## Closing -/

def Entry.close (e : Entry) : Entry := { e with mapEnd := e.mapStart, map := none }

def Entry.closeAt (pc : Nat) (e : Entry) : Entry := if e.contains pc then e.close else e

theorem map_closeAt_of (h : ∀ x ∈ xs, x.contains pc = false) : xs.map (Entry.closeAt pc) = xs := by
  refine (map_congr_left fun x hx => ?_).trans (map_id xs)
  rw [Entry.closeAt, h x hx]
  rfl

theorem Located.close (h : Located objects size pc (some i)) :
    (objects.modify i Entry.close).take size = (objects.take size).map (Entry.closeAt pc) := by
  refine ext_getElem? fun j => ?_
  by_cases hj : j < size
  · rw [getElem?_take_of_lt hj, getElem?_map, getElem?_take_of_lt hj,
      getElem?_modify]
    cases he : objects[j]? with
    | none => rfl
    | some e =>
      have he' : (objects.take size)[j]? = some e := by rw [getElem?_take_of_lt hj, he]
      by_cases hij : i = j
      · subst hij
        obtain ⟨a, ha, hcontains⟩ := (h i).1 rfl
        obtain rfl := Option.some.inj (he'.symm.trans ha)
        simp [Entry.closeAt, hcontains]
      · have hnot : e.contains pc = false := by
          rw [← Bool.not_eq_true]
          exact fun hcontains => hij (Option.some.inj ((h j).2 ⟨e, he', hcontains⟩))
        simp [Entry.closeAt, hnot, hij]
  · rw [getElem?_eq_none, getElem?_eq_none]
    · simp only [length_map, length_take]
      omega
    · simp only [length_take]
      omega

theorem Segment.close_size (seg : Segment) (i : Nat) : (seg.close i).size = seg.size := rfl

/-- `_dl_find_object_dlclose` closes the entry in use that contains the start of the map. -/
theorem closeIn_spec (hfits : Fits chain) (hsorted : Sorted (used chain)) :
    ∃ chain', closeIn pc chain = .ok chain' ∧ Fits chain' ∧ (HeadUsed chain → HeadUsed chain') ∧
      used chain' = (used chain).map (Entry.closeAt pc) := by
  induction chain with
  | nil => exact ⟨[], rfl, hfits, id, rfl⟩
  | cons seg previous ih =>
    by_cases hsize : seg.size = 0
    · exact ⟨seg :: previous, by simp [closeIn, hsize], hfits, id, by simp [used, hsize]⟩
    · obtain ⟨first, hfirst, hprevious, hseg, hin, hbelow⟩ := hfits.first hsize hsorted pc
      obtain ⟨hfit, hfits'⟩ := forall_mem_cons.1 hfits
      rw [closeIn, if_neg hsize, read_eq hfirst, ok_bind, used_cons hsize, map_append]
      by_cases hstart : first.mapStart ≤ pc
      · obtain ⟨habove, r, hrun, hlocated⟩ := hin hstart
        rw [if_pos hstart, hrun, map_closeAt_of habove]
        cases r with
        | none =>
          refine ⟨_, rfl, hfits, id, ?_⟩
          rw [used_cons hsize, map_closeAt_of]
          intro x hx
          have hnone := hlocated.find?_eq hseg
          rw [Option.bind_none, find?_eq_none] at hnone
          exact Bool.eq_false_iff.2 (hnone x hx)
        | some i =>
          refine ⟨_, rfl, forall_mem_cons.2 ⟨?_, hfits'⟩, fun hhead => ?_, ?_⟩
          · simpa [Segment.close] using hfit
          · simpa [HeadUsed, Segment.close] using hhead
          · rw [used_cons (by rwa [Segment.close_size]), ← hlocated.close]
            rfl
      · obtain ⟨previous', hrun, hclosed, -, hused⟩ := ih hfits' hprevious
        rw [if_neg hstart]
        refine ⟨seg :: previous', by rw [hrun, ok_bind], forall_mem_cons.2 ⟨hfit, hclosed⟩, id, ?_⟩
        rw [used_cons hsize, hused, map_closeAt_of (hbelow hstart)]

/-! ## The selection sort -/

section Selection

variable {α : Type} (key : α → Nat)

theorem minIndex_spec (xs : List α) (j minIdx minVal : Nat) :
    (minIndex key xs j minIdx minVal = minIdx ∧ ∀ x ∈ xs, minVal ≤ key x) ∨
      ∃ k y, xs[k]? = some y ∧ minIndex key xs j minIdx minVal = j + k ∧ key y < minVal ∧
        ∀ x ∈ xs, key y ≤ key x := by
  induction xs generalizing j minIdx minVal with
  | nil => exact .inl ⟨rfl, fun x hx => (nomatch hx)⟩
  | cons a xs ih =>
    rw [minIndex]
    by_cases hless : key a < minVal
    · rw [if_pos hless]
      rcases ih (j + 1) j (key a) with ⟨hidx, hmin⟩ | ⟨k, y, hk, hidx, hy, hmin⟩
      · exact .inr ⟨0, a, rfl, hidx, hless, forall_mem_cons.2 ⟨Nat.le_refl _, hmin⟩⟩
      · exact .inr ⟨k + 1, y, hk, by omega, by omega, forall_mem_cons.2 ⟨Nat.le_of_lt hy, hmin⟩⟩
    · rw [if_neg hless]
      rcases ih (j + 1) minIdx minVal with ⟨hidx, hmin⟩ | ⟨k, y, hk, hidx, hy, hmin⟩
      · exact .inl ⟨hidx, forall_mem_cons.2 ⟨Nat.le_of_not_lt hless, hmin⟩⟩
      · exact .inr ⟨k + 1, y, hk, by omega, hy, forall_mem_cons.2 ⟨by omega, hmin⟩⟩

theorem selectionSort_round (x : α) (xs : List α) (rounds : Nat) :
    ∃ y ys, selectionSort key (rounds + 1) (x :: xs) = y :: selectionSort key rounds ys ∧
      (y :: ys).Perm (x :: xs) ∧ ∀ z ∈ ys, key y ≤ key z := by
  rcases minIndex_spec key xs 1 0 (key x) with ⟨hidx, hmin⟩ | ⟨k, y, hk, hidx, hy, hmin⟩
  · exact ⟨x, xs, by simp [selectionSort, hidx], .refl _, hmin⟩
  · obtain ⟨hlt, rfl⟩ := List.getElem?_eq_some_iff.1 hk
    refine ⟨xs[k], xs.set k x, ?_, ?_, ?_⟩
    · simp [selectionSort, hidx, add_comm 1 k, hlt]
    · rw [set_eq_take_append_cons_drop, if_pos hlt]
      have hsplit : xs = xs.take k ++ xs[k] :: xs.drop (k + 1) := by
        rw [getElem_cons_drop, take_append_drop]
      refine (perm_middle.cons _).trans ((List.Perm.swap _ _ _).trans ?_)
      exact (perm_middle.symm.trans (.of_eq hsplit.symm)).cons x
    · intro z hz
      rcases mem_or_eq_of_mem_set hz with hz | rfl
      · exact hmin z hz
      · exact le_of_lt hy

theorem selectionSort_perm (rounds : Nat) (xs : List α) :
    (selectionSort key rounds xs).Perm xs := by
  induction rounds generalizing xs with
  | zero => exact .refl _
  | succ rounds ih =>
    cases xs with
    | nil => exact .refl _
    | cons x xs =>
      obtain ⟨y, ys, heq, hperm, -⟩ := selectionSort_round key x xs rounds
      rw [heq]
      exact ((ih ys).cons y).trans hperm

theorem selectionSort_sorted (rounds : Nat) (xs : List α) (h : xs.length - 1 ≤ rounds) :
    (selectionSort key rounds xs).Pairwise fun a b => key a ≤ key b := by
  induction rounds generalizing xs with
  | zero =>
    match xs with
    | [] => exact .nil
    | [x] => exact pairwise_singleton _ _
    | _ :: _ :: _ => simp at h
  | succ rounds ih =>
    cases xs with
    | nil => exact .nil
    | cons x xs =>
      obtain ⟨y, ys, heq, hperm, hmin⟩ := selectionSort_round key x xs rounds
      have hlen := hperm.length_eq
      simp only [length_cons] at hlen h
      rw [heq]
      refine .cons (fun z hz => hmin z ((selectionSort_perm key rounds ys).mem_iff.1 hz)) (ih ys ?_)
      omega

end Selection

end SafeLibc.Ldso.FindObject
