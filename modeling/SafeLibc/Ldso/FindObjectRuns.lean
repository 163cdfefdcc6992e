import SafeLibc.Ldso.FindObjectMerge

/-!
# `_dl_find_object` over histories of `dlopen` and `dlclose`

A history is a list of updates and closes after the initialization. As long as the maps that are
live at one time have no address in common, every call returns without a failed assertion, and a
lookup finds exactly the map that covers the address: the main map, a map loaded at startup or a
map that has been added and not closed.
-/

namespace SafeLibc.Ldso.FindObject

open SafeLibc.Lib List

/-! ## Histories -/

inductive Op
  | update (chain : List (LinkMap × Bool)) (block : Block)
  | dlclose (map : LinkMap)

def Op.perform (st : State) : Op → Except Fault State
  | .update chain block => do
    let result ← dlFindObjectUpdate st chain true (some block)
    .ok result.2
  | .dlclose map => dlFindObjectDlclose st map

def run : List Op → State → Except Fault State
  | [], st => .ok st
  | op :: ops, st => do
    let st ← op.perform st
    run ops st

def startEntries (main : LinkMap) (others : List LinkMap) : List Entry :=
  (if main.contiguous then [Entry.fromMap main] else []) ++ initialNodelete main others

def liveEntries (main : LinkMap) (others loaded : List LinkMap) : List Entry :=
  startEntries main others ++ loaded.map Entry.fromMap

/-- A sequence of calls and the maps that are loaded after it; closing a map of the startup has no
effect. -/
inductive History (main : LinkMap) (others : List LinkMap) : List Op → List LinkMap → Prop
  | start : History main others [] []
  | update {ops : List Op} {loaded : List LinkMap} {chain : List (LinkMap × Bool)} {block : Block}
      (before : History main others ops loaded)
      (disjoint : (liveEntries main others (loaded ++ newMaps chain)).Pairwise Entry.Apart) :
      History main others (ops ++ [.update chain block]) (loaded ++ newMaps chain)
  | dlclose {ops : List Op} {loaded : List LinkMap} {map : LinkMap}
      (before : History main others ops loaded) (live : map ∈ loaded) :
      History main others (ops ++ [.dlclose map]) (loaded.erase map)
  | dlcloseStart {ops : List Op} {loaded : List LinkMap} {map : LinkMap} {e : Entry}
      (before : History main others ops loaded) (live : e ∈ startEntries main others)
      (start : e.contains map.mapStart = true) :
      History main others (ops ++ [.dlclose map]) loaded

theorem run_append (ops : List Op) (op : Op) (st : State) :
    run (ops ++ [op]) st = run ops st >>= fun st => op.perform st := by
  induction ops generalizing st with
  | nil =>
    simp only [nil_append, run, ok_bind]
    cases op.perform st <;> rfl
  | cons first ops ih =>
    simp only [cons_append, run]
    cases first.perform st with
    | error f => rfl
    | ok st' => exact ih st'

/-! ## The initialization -/

variable {es : List Entry} {e : Entry} {map : LinkMap} {pc : Nat} {maps : List LinkMap}

theorem unique_of_apart (h : es.Pairwise Entry.Apart) :
    ∀ x ∈ es, ∀ y ∈ es, x.contains pc = true → y.contains pc = true → x = y := by
  intro x hx y hy hpx hpy
  by_contra hne
  have : Std.Symm Entry.Apart := ⟨fun _ _ hsep => hsep.symm⟩
  have hapart := h.forall hx hy hne
  have hx' := covers_iff.1 hpx
  have hy' := covers_iff.1 hpy
  rcases hapart with hsep | hsep
  · omega
  · omega

theorem sortMappings_perm (es : List Entry) : (sortMappings es).Perm es :=
  selectionSort_perm _ _ _

theorem linkMapSort_perm (maps : List LinkMap) : (linkMapSort maps).Perm maps :=
  selectionSort_perm _ _ _

theorem linkMapSort_sorted (h : Disjoint (maps.map Entry.fromMap)) :
    Sorted ((linkMapSort maps).map Entry.fromMap) := by
  have hdisjoint := h.perm ((linkMapSort_perm maps).map Entry.fromMap).symm
  exact ascending_of_separate (fun e he => le_of_lt (hdisjoint.nonempty e he)) hdisjoint.apart
    (distinct_of_separate hdisjoint.nonempty hdisjoint.apart)
    (pairwise_map.2 (selectionSort_sorted _ _ _ le_rfl))

/-- Where the maps are at startup: no two of those that cannot be deleted have an address in common.
The segments of a main program that is not contiguous do not wrap around, and an empty one does not
start where a segment or a map does that is not empty. -/
structure Laid (main : LinkMap) (others : List LinkMap) : Prop where
  apart : (startEntries main others).Pairwise Entry.Apart
  ordered : main.contiguous = false → ∀ e ∈ mainPieces main, e.mapStart ≤ e.mapEnd
  distinct : (initialNodelete main others).Pairwise (Distinct Entry.mapStart Entry.mapEnd)

/-- The maps at startup, when none of them can be deleted. -/
structure Startup (main : LinkMap) (others : List LinkMap) : Prop extends Laid main others where
  nodelete : ∀ l ∈ others, l.real = true → l.nodelete = true

variable {main : LinkMap} {others : List LinkMap}

theorem fromMap_nonempty (he : e ∈ maps.map Entry.fromMap) : e.mapStart < e.mapEnd := by
  obtain ⟨l, -, rfl⟩ := mem_map.1 he
  exact l.mapped

theorem disjoint_fromMap (h : (maps.map Entry.fromMap).Pairwise Entry.Apart) :
    Disjoint (maps.map Entry.fromMap) :=
  ⟨fun _ he => fromMap_nonempty he, h⟩

section

variable (h : Laid main others)
include h

theorem Laid.ordered_nodelete : ∀ e ∈ initialNodelete main others, e.mapStart ≤ e.mapEnd := by
  intro e he
  rcases mem_append.1 he with he | he
  · split at he
    · cases he
    · next hcontiguous => exact h.ordered (Bool.eq_false_of_not_eq_true hcontiguous) e he
  · exact le_of_lt (fromMap_nonempty he)

theorem Laid.started (beyond : Entry) (junk : Nat → Entry) :
    Started (dlFindObjectInit main others beyond junk) := by
  have hperm := sortMappings_perm (initialNodelete main others)
  have hordered : ∀ e ∈ sortMappings (initialNodelete main others), e.mapStart ≤ e.mapEnd :=
    fun e he => h.ordered_nodelete e (hperm.mem_iff.1 he)
  have hapart := (hperm.pairwise_iff Separate.symm).2 (pairwise_append.1 h.apart).2.1
  have hdistinct := (hperm.pairwise_iff Distinct.symm).2 h.distinct
  refine ⟨?_, ascending_of_separate hordered hapart hdistinct (selectionSort_sorted _ _ _ le_rfl),
    rfl, hordered⟩
  cases hcontiguous : main.contiguous with
  | true =>
    have hmain := main.mapped
    simp only [dlFindObjectInit, hcontiguous, if_true, Entry.fromMap]
    omega
  | false => simp [dlFindObjectInit, hcontiguous]

/-- The search through the main map and the array of the others is one through their ranges. -/
theorem Laid.find? (beyond : Entry) (junk : Nat → Entry) (pc : Nat) :
    let st := dlFindObjectInit main others beyond junk
    (st.main :: st.nodelete).find? (Entry.contains pc)
      = (startEntries main others).find? (Entry.contains pc) := by
  have hperm := sortMappings_perm (initialNodelete main others)
  have hsorted : (sortMappings (initialNodelete main others)).find? (Entry.contains pc)
      = (initialNodelete main others).find? (Entry.contains pc) :=
    find?_eq_of_perm hperm (unique_of_apart
      ((hperm.pairwise_iff Separate.symm).2 (pairwise_append.1 h.apart).2.1))
  simp only [dlFindObjectInit, startEntries]
  cases main.contiguous with
  | true =>
    simp only [if_true, singleton_append, find?_cons, hsorted]
  | false =>
    simp only [Bool.false_eq_true, if_false, nil_append, find?_cons, hsorted]
    have hnone : Entry.contains pc ⟨2 ^ 64 - 1, 2 ^ 64 - 1, none, 0⟩ = false := by
      simp only [covers, Bool.and_eq_false_iff, decide_eq_false_iff_not]
      omega
    rw [hnone]

end

/-! ## The invariant -/

/-- The state after a history: the data of the startup are as they were, both chains can be written,
and the active chain holds the loaded maps, in order, next to entries that have been closed. -/
structure Inv (main : LinkMap) (others loaded : List LinkMap) (init st : State) : Prop where
  started : Started st
  start : st.main = init.main ∧ st.nodelete = init.nodelete
  fits : ∀ idx, Fits (st.mappings idx)
  head : HeadUsed st.active
  sorted : Sorted (used st.active)
  closed : ∀ e ∈ used st.active, e.map = none → e.mapEnd = e.mapStart
  live : (live (used st.active)).Perm (loaded.map Entry.fromMap)
  apart : (liveEntries main others loaded).Pairwise Entry.Apart

variable {loaded : List LinkMap} {init st : State}

theorem Startup.inv (h : Startup main others) (beyond : Entry) (junk : Nat → Entry) :
    let init := dlFindObjectInit main others beyond junk
    Inv main others [] init init := by
  have hloaded : initialLoaded others = [] := by
    rw [initialLoaded, map_eq_nil_iff, filter_eq_nil_iff]
    intro l hl
    cases hreal : l.real with
    | true => simp [h.nodelete l hl hreal]
    | false => simp
  have hchain : ∀ idx, (dlFindObjectInit main others beyond junk).mappings idx = [] := by
    intro idx
    simp [dlFindObjectInit, hloaded, initialSegment]
  have hactive : (dlFindObjectInit main others beyond junk).active = [] := hchain _
  exact
    { started := h.toLaid.started beyond junk
      start := ⟨rfl, rfl⟩
      fits := fun idx => by rw [hchain idx]; exact fun s hs => (nomatch hs)
      head := by rw [hactive]; exact fun s hs => (nomatch hs)
      sorted := by rw [hactive]; exact .nil
      closed := by rw [hactive]; exact fun e he => (nomatch he)
      live := by rw [hactive]; exact .refl _
      apart := by
        simp only [liveEntries, map_nil, append_nil]
        exact h.apart }

theorem Inv.loaded_disjoint (hinv : Inv main others loaded init st) :
    Disjoint (loaded.map Entry.fromMap) :=
  disjoint_fromMap (pairwise_append.1 hinv.apart).2.1

theorem find?_live (h : ∀ e ∈ es, e.map = none → e.mapEnd = e.mapStart) (pc : Nat) :
    es.find? (Entry.contains pc) = (live es).find? (Entry.contains pc) := by
  induction es with
  | nil => rfl
  | cons e es ih =>
    have ih := ih fun x hx => h x (mem_cons_of_mem _ hx)
    cases hmap : e.map with
    | some l =>
      rw [live, filter_cons_of_pos (by simp [hmap]), find?_cons, ih]
      rfl
    | none =>
      have hempty := h e mem_cons_self hmap
      have hnot : ¬ e.contains pc = true := by
        rw [covers_iff]
        omega
      rw [live, filter_cons_of_neg (by simp [hmap]), find?_cons_of_neg hnot, ih]
      rfl

/-- What the lookups find in a state that satisfies the invariant. -/
theorem Inv.find (hinv : Inv main others loaded init st)
    (hinit : ∀ pc, (init.main :: init.nodelete).find? (Entry.contains pc)
      = (startEntries main others).find? (Entry.contains pc))
    (slow : Nat → Option Found) (pc : Nat) :
    dlFindObject st slow pc = .ok (((liveEntries main others loaded).find? (Entry.contains pc)).map
      Entry.toExternal) := by
  have hlive : (used st.active).find? (Entry.contains pc)
      = (loaded.map Entry.fromMap).find? (Entry.contains pc) := by
    rw [find?_live hinv.closed pc]
    exact find?_eq_of_perm hinv.live
      (unique_of_apart (hinv.loaded_disjoint.perm hinv.live.symm).apart)
  rw [dlFindObject_spec hinv.started (hinv.fits _) hinv.sorted slow, ← cons_append,
    find?_append, hinv.start.1, hinv.start.2, hinit pc, hlive, liveEntries, find?_append]

/-! ## Updates -/

/-- An update counts the version up by one, and that changes the active chain. -/
theorem activeIdx_succ {st' : State} (h : st'.version = (st.version + 1) % 2 ^ 64) :
    st'.activeIdx = !st.activeIdx := by
  unfold State.activeIdx
  rcases Nat.mod_two_eq_zero_or_one st.version with hv | hv
  · have : st'.version % 2 = 1 := by omega
    simp [hv, this]
  · have : st'.version % 2 = 0 := by omega
    simp [hv, this]

theorem Inv.update (hinv : Inv main others loaded init st) {chain : List (LinkMap × Bool)}
    {block : Block}
    (hapart : (liveEntries main others (loaded ++ newMaps chain)).Pairwise Entry.Apart) :
    ∃ st', dlFindObjectUpdate st chain true (some block) = .ok (true, st') ∧
      Inv main others (loaded ++ newMaps chain) init st' := by
  unfold dlFindObjectUpdate
  by_cases hnone : (newMaps chain).length = 0
  · rw [length_eq_zero_iff.1 hnone, append_nil]
    exact ⟨st, rfl, hinv⟩
  · rw [if_neg hnone]
    have hperm := linkMapSort_perm (newMaps chain)
    have hall : Disjoint (loaded.map Entry.fromMap ++ (newMaps chain).map Entry.fromMap) := by
      rw [← map_append]
      exact disjoint_fromMap (pairwise_append.1 hapart).2.1
    have htotal :
        (FindObject.live (used st.active) ++ (linkMapSort (newMaps chain)).map Entry.fromMap).Perm
        (loaded.map Entry.fromMap ++ (newMaps chain).map Entry.fromMap) :=
      hinv.live.append (hperm.map _)
    obtain ⟨target, hspace, htarget, hroom⟩ := ensureSpace_spec
      (countUsed st.active + (linkMapSort (newMaps chain)).length) block (hinv.fits !st.activeIdx)
    have hcurrent : Fits st.active := hinv.fits st.activeIdx
    obtain ⟨chain', hmerge, hfits, hhead, hsorted, hused⟩ := mergeInto_spec hcurrent
      hinv.head hinv.sorted (linkMapSort_sorted hall.right) (hall.perm htotal.symm) htarget rfl
      (by rw [hperm.length_eq]; omega) hroom
    let st' : State := { st with
      mappings := fun idx => if idx = st.activeIdx then st.mappings idx else chain'
      version := (st.version + 1) % 2 ^ 64 }
    have hrun : updateSorted st (linkMapSort (newMaps chain)) (some block) = .ok (true, st') := by
      unfold updateSorted
      simp only [hspace, ok_bind, hmerge]
      rfl
    have hactive : st'.active = chain' := by
      unfold State.active
      rw [activeIdx_succ (rfl : st'.version = (st.version + 1) % 2 ^ 64)]
      simp [st']
    have hopen : ∀ e ∈ used chain', e.map ≠ none := by
      intro e he
      rcases mem_append.1 (hused.mem_iff.1 he) with he | he
      · have := (mem_filter.1 he).2
        intro hmap
        rw [hmap] at this
        cases this
      · obtain ⟨l, -, rfl⟩ := mem_map.1 he
        exact Option.some_ne_none l
    have hlive : FindObject.live (used chain') = used chain' := by
      rw [FindObject.live, filter_eq_self]
      exact fun e he => Option.isSome_iff_ne_none.2 (hopen e he)
    refine ⟨st', hrun, ?_⟩
    exact
      { started := { hinv.started with }
        start := hinv.start
        fits := by
          intro idx
          by_cases hidx : idx = st.activeIdx
          · simpa [st', hidx] using hinv.fits st.activeIdx
          · simpa [st', hidx] using hfits
        head := hactive ▸ hhead
        sorted := hactive ▸ hsorted
        closed := by
          rw [hactive]
          exact fun e he hmap => absurd hmap (hopen e he)
        live := by
          rw [hactive, hlive, map_append]
          exact hused.trans htotal
        apart := hapart }

/-! ## Closing -/

theorem closeAt_mapStart (pc : Nat) (e : Entry) : (e.closeAt pc).mapStart = e.mapStart := by
  unfold Entry.closeAt
  split <;> rfl

theorem sorted_closeAt (h : Sorted es) (pc : Nat) : Sorted (es.map (Entry.closeAt pc)) := by
  refine pairwise_map.2 (h.imp fun {a b} hab => ?_)
  refine ⟨?_, ?_, ?_⟩
  · rw [closeAt_mapStart, closeAt_mapStart]
    exact hab.lo_le
  · rw [closeAt_mapStart]
    unfold Entry.closeAt
    split
    · exact hab.lo_le
    · exact hab.hi_le
  · rw [closeAt_mapStart, closeAt_mapStart]
    intro heq
    unfold Entry.closeAt
    split
    · exact le_rfl
    · exact hab.empty heq

theorem live_closeAt (es : List Entry) (pc : Nat) :
    live (es.map (Entry.closeAt pc)) = (live es).filter fun e => !e.contains pc := by
  induction es with
  | nil => rfl
  | cons e es ih =>
    have ih' : (es.map (Entry.closeAt pc)).filter (·.map.isSome)
        = (es.filter (·.map.isSome)).filter fun e => !e.contains pc := ih
    simp only [live, map_cons, filter_cons]
    cases hcontains : e.contains pc with
    | true =>
      have hclosed : e.closeAt pc = e.close := by rw [Entry.closeAt, if_pos hcontains]
      rw [hclosed, ih']
      cases e.map <;> simp [Entry.close, hcontains]
    | false =>
      have hkept : e.closeAt pc = e := by simp [Entry.closeAt, hcontains]
      rw [hkept, ih']
      cases e.map <;> simp [hcontains]

/-- Closing the entry at an address keeps the invariant, for the maps that remain. -/
theorem Inv.close (hinv : Inv main others loaded init st) {remaining : List LinkMap}
    (hremaining : ((loaded.map Entry.fromMap).filter fun e => !e.contains map.mapStart).Perm
      (remaining.map Entry.fromMap))
    (hapart : (liveEntries main others remaining).Pairwise Entry.Apart) :
    ∃ st', dlFindObjectDlclose st map = .ok st' ∧ Inv main others remaining init st' := by
  obtain ⟨chain, hrun, hfits, hhead, hused⟩ :=
    @closeIn_spec map.mapStart st.active (hinv.fits st.activeIdx) hinv.sorted
  let st' : State :=
    { st with mappings := fun idx => if idx = st.activeIdx then chain else st.mappings idx }
  have hactive : st'.active = chain := if_pos rfl
  refine ⟨st', ?_, ?_⟩
  · rw [dlFindObjectDlclose, hrun, ok_bind]
  · exact
      { started := { hinv.started with }
        start := hinv.start
        fits := by
          intro idx
          by_cases hidx : idx = st.activeIdx
          · simpa [st', hidx] using hfits
          · simpa [st', hidx] using hinv.fits idx
        head := hactive ▸ hhead hinv.head
        sorted := by
          rw [hactive, hused]
          exact sorted_closeAt hinv.sorted _
        closed := by
          rw [hactive, hused]
          intro e he hmap
          obtain ⟨a, ha, rfl⟩ := mem_map.1 he
          unfold Entry.closeAt at hmap ⊢
          split
          · rfl
          · next hnot =>
            rw [if_neg hnot] at hmap
            exact hinv.closed a ha hmap
        live := by
          rw [hactive, hused, live_closeAt]
          exact (hinv.live.filter _).trans hremaining
        apart := hapart }

theorem not_contains_of_apart {x : Entry} (hapart : e.Apart x) (he : e.contains pc = true) :
    x.contains pc = false := by
  have he := covers_iff.1 he
  rw [← Bool.not_eq_true, covers_iff]
  rcases hapart with h | h
  · omega
  · omega

theorem Inv.dlclose (hinv : Inv main others loaded init st) (hmap : map ∈ loaded) :
    ∃ st', dlFindObjectDlclose st map = .ok st' ∧ Inv main others (loaded.erase map) init st' := by
  have hsplit := (perm_cons_erase hmap).map Entry.fromMap
  rw [map_cons] at hsplit
  have hcons := hinv.loaded_disjoint.perm hsplit
  have hstart : (Entry.fromMap map).contains map.mapStart = true :=
    covers_iff.2 ⟨le_rfl, hcons.nonempty _ mem_cons_self⟩
  refine hinv.close ((hsplit.filter _).trans ?_) ?_
  · rw [filter_cons_of_neg (by simp [hstart]), filter_eq_self.2]
    intro e he
    rw [not_contains_of_apart ((pairwise_cons.1 hcons.apart).1 e he) hstart]
    rfl
  · have hall : (liveEntries main others loaded).Perm
        (Entry.fromMap map :: liveEntries main others (loaded.erase map)) :=
      (hsplit.append_left _).trans perm_middle
    exact (pairwise_cons.1 ((hall.pairwise_iff Separate.symm).1 hinv.apart)).2

/-- No loaded entry contains the start of a map that was there from the start. -/
theorem Inv.dlcloseStart (hinv : Inv main others loaded init st) (he : e ∈ startEntries main others)
    (hstart : e.contains map.mapStart = true) :
    ∃ st', dlFindObjectDlclose st map = .ok st' ∧ Inv main others loaded init st' := by
  refine hinv.close ?_ hinv.apart
  rw [filter_eq_self.2]
  intro x hx
  rw [not_contains_of_apart ((pairwise_append.1 hinv.apart).2.2 e he x hx) hstart]
  rfl

/-! ## Whole histories -/

theorem History.inv (hstartup : Startup main others) (beyond : Entry) (junk : Nat → Entry)
    {ops : List Op} (h : History main others ops loaded) :
    ∃ st, run ops (dlFindObjectInit main others beyond junk) = .ok st ∧
      Inv main others loaded (dlFindObjectInit main others beyond junk) st := by
  induction h with
  | start => exact ⟨_, rfl, hstartup.inv beyond junk⟩
  | update _ hapart ih =>
    obtain ⟨st, hrun, hinv⟩ := ih
    obtain ⟨st', hstep, hinv'⟩ := hinv.update hapart
    exact ⟨st', by rw [run_append, hrun, ok_bind, Op.perform, hstep, ok_bind], hinv'⟩
  | dlclose _ hmap ih =>
    obtain ⟨st, hrun, hinv⟩ := ih
    obtain ⟨st', hstep, hinv'⟩ := hinv.dlclose hmap
    exact ⟨st', by rw [run_append, hrun, ok_bind, Op.perform, hstep], hinv'⟩
  | dlcloseStart _ he hstart ih =>
    obtain ⟨st, hrun, hinv⟩ := ih
    obtain ⟨st', hstep, hinv'⟩ := hinv.dlcloseStart he hstart
    exact ⟨st', by rw [run_append, hrun, ok_bind, Op.perform, hstep], hinv'⟩

/-- After any history no call has failed, and a lookup finds the live map that covers the
address. -/
theorem dlFindObject_history (hstartup : Startup main others) (beyond : Entry) (junk : Nat → Entry)
    {ops : List Op} (h : History main others ops loaded) :
    ∃ st, run ops (dlFindObjectInit main others beyond junk) = .ok st ∧
      (liveEntries main others loaded).Pairwise Entry.Apart ∧
      ∀ (slow : Nat → Option Found) (pc : Nat), dlFindObject st slow pc
        = .ok (((liveEntries main others loaded).find? (Entry.contains pc)).map
          Entry.toExternal) := by
  obtain ⟨st, hrun, hinv⟩ := h.inv hstartup beyond junk
  exact ⟨st, hrun, hinv.apart, fun slow pc => hinv.find (hstartup.toLaid.find? beyond junk) slow pc⟩

/-- An address in a segment of type `PT_LOAD`. -/
def LinkMap.Covers (l : LinkMap) (pc : Nat) : Prop :=
  ∃ e ∈ mainPieces l, e.contains pc = true

def page (n : Nat) (type : MapType) : LinkMap :=
  { ident := n, addr := n * 4096, mapStart := n * 4096, mapEnd := (n + 1) * 4096
    mapped := by omega
    phdr := [], real := true, type := type, nodeleteActive := false, contiguous := true }

def noEntry : Entry := ⟨0, 0, none, 0⟩

theorem startup_pages : Startup (page 1 .executable) [page 5 .library] where
  nodelete := by decide
  apart := by decide
  ordered := by decide
  distinct := by decide

/-- One page whose segment is the whole of it. -/
def filled (n : Nat) (type : MapType) : LinkMap := { page n type with phdr := [⟨ptLoad, 0, 4096⟩] }

theorem history_pages : History (page 1 .executable) [page 5 .library]
    [.update [(page 8 .loaded, false), (page 3 .loaded, false)] ⟨64, fun _ => noEntry⟩,
      .dlclose (page 8 .loaded)] [page 3 .loaded] := by
  have hopen : History (page 1 .executable) [page 5 .library]
      [.update [(page 8 .loaded, false), (page 3 .loaded, false)] ⟨64, fun _ => noEntry⟩]
      [page 8 .loaded, page 3 .loaded] :=
    .update .start (by decide)
  exact .dlclose hopen mem_cons_self

theorem dlFindObject_history_pages :
    ∃ st, run [.update [(page 8 .loaded, false), (page 3 .loaded, false)] ⟨64, fun _ => noEntry⟩,
        .dlclose (page 8 .loaded)]
        (dlFindObjectInit (page 1 .executable) [page 5 .library] noEntry fun _ => noEntry) =
          .ok st ∧
      dlFindObject st (fun _ => none) 0x3800 =
        .ok (some (Entry.fromMap (page 3 .loaded)).toExternal) ∧
      dlFindObject st (fun _ => none) 0x8800 = .ok none := by
  obtain ⟨st, hrun, -, hfind⟩ :=
    dlFindObject_history startup_pages noEntry (fun _ => noEntry) history_pages
  refine ⟨st, hrun, ?_, ?_⟩
  · rw [hfind]
    rfl
  · rw [hfind]
    rfl

/-- A main program that is not contiguous, with an empty segment where its other one starts. -/
def hollow : LinkMap :=
  { page 1 .executable with
    phdr := [⟨ptLoad, 0, 0⟩, ⟨ptLoad, 0, 4096⟩], contiguous := false }

/-- The search stops at the empty segment. -/
theorem dlFindObject_hollow :
    (startEntries hollow []).Pairwise Entry.Apart ∧ hollow.Covers 0x1000 ∧
      dlFindObject (dlFindObjectInit hollow [] noEntry fun _ => noEntry) (fun _ => none) 0x1000 =
        .ok none := by
  unfold LinkMap.Covers
  decide

end SafeLibc.Ldso.FindObject
