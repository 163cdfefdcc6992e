import SafeLibc.Ldso.FindObjectLookup

/-!
# The merge of `_dl_find_object_update_1`

The loop reads the entries of the current chain and the loaded maps from the highest address down
and writes the target chain from its highest slot down. What is still to be read is `left`, what has
been written is `written`; both together are always the same entries (`Merging`), and what is
written lies above what is left. The number of entries left is `remaining_to_add`, which gives the
assertions.
-/

namespace SafeLibc.Ldso.FindObject

open SafeLibc.Lib List

/-- The entries that have not been closed. -/
def live (es : List Entry) : List Entry := es.filter (·.map.isSome)

theorem live_append (xs ys : List Entry) : live (xs ++ ys) = live xs ++ live ys :=
  filter_append _ _

abbrev Entry.Below : Entry → Entry → Prop := Before Entry.mapStart Entry.mapEnd

abbrev Entry.Apart : Entry → Entry → Prop := Separate Entry.mapStart Entry.mapEnd

structure Disjoint (es : List Entry) : Prop where
  nonempty : ∀ e ∈ es, e.mapStart < e.mapEnd
  apart : es.Pairwise Entry.Apart

variable {m' : Merge} {e : Entry} {xs : List Entry} {i : Nat} {target : List Segment}
  {ys : List Entry} {l : LinkMap} (chain : List Segment)

theorem Disjoint.perm (h : Disjoint xs) (hperm : xs.Perm ys) : Disjoint ys where
  nonempty e he := h.nonempty e (hperm.mem_iff.2 he)
  apart := (hperm.pairwise_iff Separate.symm).1 h.apart

theorem Disjoint.right (h : Disjoint (xs ++ ys)) : Disjoint ys :=
  ⟨fun e he => h.nonempty e (mem_append_right _ he), (pairwise_append.1 h.apart).2.1⟩

/-! ## What the loop has done and has to do -/

namespace Merge

/-- The entries of the old chain that are left. -/
def pending (m : Merge) : List Entry :=
  match m.current with
  | [] => []
  | seg :: previous => used previous ++ seg.objects.take m.currentIndex

/-- The new maps that are left. -/
def waiting (loaded : List LinkMap) (m : Merge) : List Entry :=
  (loaded.take m.loadedIndex).map Entry.fromMap

def left (loaded : List LinkMap) (m : Merge) : List Entry :=
  live m.pending ++ m.waiting loaded

/-- What has been written to the new chain. -/
def written (m : Merge) : List Entry :=
  (m.target.objects.take m.target.size).drop m.targetIndex ++
    m.filled.flatMap fun seg => seg.objects.take seg.size

/-- The old chain can be read and ascends. -/
structure Reading (m : Merge) : Prop where
  fits : Fits m.current
  index : ∀ seg previous, m.current = seg :: previous → m.currentIndex ≤ seg.objects.length
  sorted : Sorted m.pending

/-- The new chain can be written. -/
structure Writing (m : Merge) : Prop where
  index : m.targetIndex ≤ m.target.size
  size : m.target.size ≤ m.target.objects.length
  nonempty : 0 < m.target.size
  le_remaining : m.targetIndex ≤ m.remaining
  room : m.remaining ≤ m.targetIndex + countAllocated m.unfilled
  unfilled : Fits m.unfilled
  filled : ∀ seg ∈ m.filled, 0 < seg.size ∧ seg.size ≤ seg.objects.length

/-- The entries written and the entries left are those of `total`. -/
structure Merging (loaded : List LinkMap) (total : List Entry) (m : Merge) : Prop where
  reading : m.Reading
  writing : m.Writing
  loadedIndex : m.loadedIndex ≤ loaded.length
  remaining : m.remaining = (m.left loaded).length
  perm : (m.written ++ m.left loaded).Perm total
  sorted : Sorted m.written
  above : ∀ x ∈ m.left loaded, ∀ w ∈ m.written, x.Below w

/-- One entry more has been taken from the two sources. -/
def Taken (loaded : List LinkMap) (total : List Entry) (m m' : Merge) : Prop :=
  Merging loaded total m' ∧
    m'.pending.length + m'.loadedIndex + 1 = m.pending.length + m.loadedIndex

/-- The same has been read. -/
structure SameSource (m' m : Merge) : Prop where
  current : m'.current = m.current
  currentIndex : m'.currentIndex = m.currentIndex
  loadedIndex : m'.loadedIndex = m.loadedIndex

end Merge

open Merge

variable {loaded : List LinkMap} {total : List Entry} {m : Merge}

/-! ## Reading the current chain -/

theorem switchCurrent_pending (m : Merge) : m.switchCurrent.pending = m.pending := by
  unfold switchCurrent
  split
  · next hindex =>
    unfold pending
    cases hcurrent : m.current with
    | nil => simp
    | cons seg previous =>
      cases previous with
      | nil => simp [used, hindex]
      | cons seg' previous =>
        by_cases hsize : seg'.size = 0
        · simp [used, hindex, hsize]
        · simp [used, hindex, hsize]
  · rfl

theorem switchCurrent_eq (m : Merge) : ∃ current currentIndex,
    m.switchCurrent = { m with current := current, currentIndex := currentIndex } := by
  unfold switchCurrent
  split
  · split
    · exact ⟨_, _, rfl⟩
    · split
      · exact ⟨_, _, rfl⟩
      · exact ⟨_, _, rfl⟩
  · exact ⟨_, _, rfl⟩

theorem switchCurrent_reading (h : m.Reading) : m.switchCurrent.Reading := by
  have hsorted : Sorted m.switchCurrent.pending := switchCurrent_pending m ▸ h.sorted
  revert hsorted
  unfold switchCurrent
  split
  · split
    · exact fun hsorted => ⟨fun s hs => (nomatch hs), fun _ _ hc => (nomatch hc), hsorted⟩
    · next seg previous htail =>
      have htail' : ∀ s ∈ seg :: previous, s ∈ m.current := fun s hs =>
        mem_of_mem_tail (htail ▸ hs)
      split
      · exact fun hsorted => ⟨fun s hs => (nomatch hs), fun _ _ hc => (nomatch hc), hsorted⟩
      · intro hsorted
        refine ⟨fun s hs => h.fits s (htail' s hs), fun s p hc => ?_, hsorted⟩
        obtain ⟨rfl, rfl⟩ := List.cons.inj hc
        exact (h.fits seg (htail' seg mem_cons_self)).2
  · exact fun _ => h

theorem switchCurrent_index (h : m.switchCurrent.current ≠ []) :
    m.switchCurrent.currentIndex ≠ 0 := by
  revert h
  unfold switchCurrent
  split
  · split
    · exact fun h => absurd rfl h
    · split
      · exact fun h => absurd rfl h
      · next hsize => exact fun _ => hsize
  · next hindex => exact fun _ => hindex

theorem currentEntry_spec (h : m.Reading) (hindex : m.current ≠ [] → m.currentIndex ≠ 0) :
    (m.currentEntry = .ok none ∧ m.current = [] ∧ m.pending = []) ∨
      ∃ e i, m.currentEntry = .ok (some e) ∧ m.current ≠ [] ∧ m.currentIndex = i + 1 ∧
        m.pending = { m with currentIndex := i }.pending ++ [e] := by
  cases hcurrent : m.current with
  | nil => exact .inl ⟨by simp [currentEntry, hcurrent], rfl, by simp [pending, hcurrent]⟩
  | cons seg previous =>
    obtain ⟨i, hi⟩ := Nat.exists_eq_succ_of_ne_zero (hindex (by simp [hcurrent]))
    have hlt : i < seg.objects.length := by
      have := h.index seg previous hcurrent
      omega
    refine .inr ⟨seg.objects[i], i, ?_, cons_ne_nil _ _, hi, ?_⟩
    · simp [currentEntry, hcurrent, hi, read_eq (getElem?_eq_getElem hlt)]
    · simp only [pending, hcurrent, hi]
      rw [take_succ_eq_append_getElem hlt, append_assoc]

/-! ## Writing the target chain -/

theorem updateInitSeg_size (seg : Segment) (n : Nat) :
    (updateInitSeg seg n).size = min n seg.objects.length := by
  simp only [updateInitSeg]
  split <;> omega

theorem writing_init {seg : Segment} (htarget : m.target = updateInitSeg seg m.remaining)
    (hindex : m.targetIndex = m.target.size) (hpos : 0 < m.remaining)
    (hroom : m.remaining ≤ seg.objects.length + countAllocated m.unfilled)
    (hfits : Fits (seg :: m.unfilled))
    (hfilled : ∀ seg ∈ m.filled, 0 < seg.size ∧ seg.size ≤ seg.objects.length) : m.Writing := by
  obtain ⟨hseg, hunfilled⟩ := forall_mem_cons.1 hfits
  have hsize : m.target.size = min m.remaining seg.objects.length := by
    rw [htarget, updateInitSeg_size]
  refine ⟨le_of_eq hindex, ?_, by omega, by omega, by omega, hunfilled, hfilled⟩
  rw [hsize, htarget]
  exact Nat.min_le_right _ _

theorem makeRoom_spec (h : m.Writing) (hpos : 0 < m.remaining) :
    ∃ m', m.makeRoom = .ok m' ∧ m'.Writing ∧ 0 < m'.targetIndex ∧ m'.written = m.written ∧
      m'.remaining = m.remaining ∧ m'.SameSource m := by
  unfold makeRoom
  rw [if_neg (by omega)]
  by_cases hindex : m.targetIndex = 0
  · rw [if_pos hindex]
    have hroom := h.room
    cases hunfilled : m.unfilled with
    | nil =>
      rw [hunfilled, countAllocated] at hroom
      omega
    | cons seg previous =>
      rw [hunfilled] at hroom
      rw [hindex, zero_add] at hroom
      have hfits : Fits (seg :: previous) := hunfilled ▸ h.unfilled
      refine ⟨_, rfl, writing_init rfl rfl hpos hroom hfits ?_, ?_, ?_, rfl, rfl, rfl, rfl⟩
      · exact forall_mem_cons.2 ⟨⟨h.nonempty, h.size⟩, h.filled⟩
      · have hseg := (hfits seg mem_cons_self).1
        show 0 < (updateInitSeg seg m.remaining).size
        rw [updateInitSeg_size]
        omega
      · simp [written, hindex]
  · rw [if_neg hindex]
    exact ⟨m, rfl, h, pos_of_ne_zero hindex, rfl, rfl, rfl, rfl, rfl⟩

theorem store_spec (h : m.Writing) (hindex : 0 < m.targetIndex) (e : Entry) :
    ∃ m', m.store e = .ok m' ∧ m'.Writing ∧ m'.written = e :: m.written ∧
      m'.remaining = m.remaining - 1 ∧ m'.SameSource m := by
  obtain ⟨i, hi⟩ := Nat.exists_eq_succ_of_ne_zero (Nat.pos_iff_ne_zero.1 hindex)
  have hsize := h.index
  have hlength := h.size
  have hle := h.le_remaining
  have hroom := h.room
  have hlt : i < m.target.objects.length := by omega
  have hrun : m.store e = .ok { m with
      target := { m.target with objects := m.target.objects.set i e }
      targetIndex := i, remaining := m.remaining - 1 } := by
    simp only [store, hi, if_pos hlt]
  refine ⟨_, hrun, ?_, ?_, rfl, rfl, rfl, rfl⟩
  · refine { h with index := ?_, size := by simpa using hlength, le_remaining := ?_, room := ?_ }
    · show i ≤ m.target.size
      omega
    · show i ≤ m.remaining - 1
      omega
    · show m.remaining - 1 ≤ i + countAllocated m.unfilled
      omega
  · have hin : i < ((m.target.objects.set i e).take m.target.size).length := by
      simp only [length_take, length_set]
      omega
    simp only [written, hi]
    rw [drop_eq_getElem_cons hin]
    simp [take_set, drop_set_of_lt]

/-! ## One round of the loop -/

/-- An entry that lies above all others that are left is written. -/
theorem Merge.Merging.put (h : Merging loaded total m) (hreading : m'.Reading)
    (hwriting : m'.Writing) (hloaded : m'.loadedIndex ≤ loaded.length)
    (hwritten : m'.written = e :: m.written) (hremaining : m'.remaining = m.remaining - 1)
    (hleft : (m.left loaded).Perm (e :: m'.left loaded)) (hmax : ∀ x ∈ m'.left loaded, x.Below e) :
    Merging loaded total m' where
  reading := hreading
  writing := hwriting
  loadedIndex := hloaded
  remaining := by
    rw [hremaining, h.remaining, hleft.length_eq, length_cons, Nat.add_sub_cancel]
  perm := by
    rw [hwritten]
    exact (perm_middle.symm.trans (hleft.symm.append_left _)).trans h.perm
  sorted := by
    rw [hwritten]
    exact pairwise_cons.2 ⟨fun w hw => h.above e (hleft.mem_iff.2 mem_cons_self) w hw, h.sorted⟩
  above := by
    intro x hx w hw
    rw [hwritten] at hw
    rcases mem_cons.1 hw with rfl | hw
    · exact hmax x hx
    · exact h.above x (hleft.mem_iff.2 (mem_cons_of_mem _ hx)) w hw

theorem Merge.SameSource.pending (h : m'.SameSource m) : m'.pending = m.pending := by
  unfold Merge.pending
  rw [h.current, h.currentIndex]

theorem Merge.SameSource.left (h : m'.SameSource m) : m'.left loaded = m.left loaded := by
  unfold Merge.left Merge.waiting
  rw [h.pending, h.loadedIndex]

theorem Merge.SameSource.reading (h : m'.SameSource m) (hreading : m.Reading) : m'.Reading where
  fits := h.current ▸ hreading.fits
  index seg previous hcurrent := by
    rw [h.currentIndex]
    exact hreading.index seg previous (h.current ▸ hcurrent)
  sorted := h.pending ▸ hreading.sorted

theorem Merge.Merging.keep (h : Merging loaded total m) (hreading : m'.Reading)
    (hwriting : m'.Writing) (hloaded : m'.loadedIndex = m.loadedIndex)
    (hleft : m'.left loaded = m.left loaded) (hwritten : m'.written = m.written)
    (hremaining : m'.remaining = m.remaining) : Merging loaded total m' where
  reading := hreading
  writing := hwriting
  loadedIndex := hloaded ▸ h.loadedIndex
  remaining := by rw [hremaining, hleft, h.remaining]
  perm := by rw [hwritten, hleft]; exact h.perm
  sorted := hwritten ▸ h.sorted
  above := by rw [hwritten, hleft]; exact h.above

/-- The last of an ascending list lies above an entry that is apart from it and starts no higher. -/
theorem below_of_last {last : Entry} (hsorted : Sorted (xs ++ [last])) (hbelow : last.Below e) :
    ∀ x ∈ xs ++ [last], x.Below e := by
  intro x hx
  rcases mem_append.1 hx with hx | hx
  · exact ((pairwise_append.1 hsorted).2.2 x hx last mem_cons_self).trans hbelow
  · rw [mem_singleton.1 hx]
    exact hbelow

theorem live_sorted (h : Sorted xs) : Sorted (live xs) := h.filter _


theorem live_pending (hlive : e.map.isSome = true)
    (hpending : m.pending = { m with currentIndex := i }.pending ++ [e]) :
    live m.pending = live { m with currentIndex := i }.pending ++ [e] := by
  rw [hpending]
  simp [live, hlive]

theorem waiting_sorted (hloaded : Sorted (loaded.map Entry.fromMap)) :
    Sorted (m.waiting loaded) := by
  unfold Merge.waiting
  rw [map_take]
  exact hloaded.sublist (take_sublist _ _)

theorem waiting_succ (hindex : m.loadedIndex = i + 1) (hl : loaded[i]? = some l) :
    m.waiting loaded = (loaded.take i).map Entry.fromMap ++ [Entry.fromMap l] := by
  obtain ⟨hlt, rfl⟩ := List.getElem?_eq_some_iff.1 hl
  rw [Merge.waiting, hindex, take_succ_eq_append_getElem hlt, map_append]
  rfl

/-- The last entry pending is copied when it lies above the loaded maps. -/
theorem takeCurrent_spec (h : Merging loaded total m) (hpos : 0 < m.targetIndex)
    (hindex : m.currentIndex = i + 1)
    (hpending : m.pending = { m with currentIndex := i }.pending ++ [e])
    (hlive : e.map.isSome = true) (hbelow : ∀ x ∈ m.waiting loaded, x.Below e) :
    ∃ m', m.takeCurrent (some e) = .ok m' ∧ m.Taken loaded total m' := by
  obtain ⟨m₂, hstore, hwriting, hwritten, hremaining, hsame⟩ := store_spec h.writing hpos e
  have hpending' :
      { m₂ with currentIndex := i }.pending = { m with currentIndex := i }.pending := by
    unfold Merge.pending
    rw [hsame.current]
  have hsorted : Sorted ({ m with currentIndex := i }.pending ++ [e]) := hpending ▸ h.reading.sorted
  have hwaiting : { m₂ with currentIndex := i }.waiting loaded = m.waiting loaded := by
    unfold Merge.waiting
    rw [hsame.loadedIndex]
  refine ⟨{ m₂ with currentIndex := i }, by simp [takeCurrent, hindex, hstore], ?_, ?_⟩
  · refine h.put ?_ { hwriting with } (hsame.loadedIndex ▸ h.loadedIndex) hwritten hremaining ?_ ?_
    · refine ⟨hsame.current ▸ h.reading.fits, fun seg previous hcurrent => ?_, ?_⟩
      · have := h.reading.index seg previous (hsame.current ▸ hcurrent)
        show i ≤ _
        omega
      · rw [hpending']
        exact (pairwise_append.1 hsorted).1
    · unfold Merge.left
      rw [hpending', hwaiting, live_pending hlive hpending, append_assoc]
      exact perm_middle
    · unfold Merge.left
      rw [hpending', hwaiting]
      intro x hx
      rcases mem_append.1 hx with hx | hx
      · exact (pairwise_append.1 hsorted).2.2 x (mem_of_mem_filter hx) e mem_cons_self
      · exact hbelow x hx
  · rw [hpending', hpending, length_append, length_singleton]
    show _ + m₂.loadedIndex + 1 = _
    rw [hsame.loadedIndex]
    omega

/-- The last loaded map is copied when it lies above the entries pending. -/
theorem takeLoaded_spec (hloaded : Sorted (loaded.map Entry.fromMap)) (h : Merging loaded total m)
    (hpos : 0 < m.targetIndex) {k : Nat} (hindex : m.loadedIndex = k + 1)
    (hl : loaded[k]? = some l) (hbelow : ∀ x ∈ live m.pending, x.Below (Entry.fromMap l)) :
    ∃ m', m.takeLoaded loaded = .ok m' ∧ m.Taken loaded total m' := by
  obtain ⟨m₂, hstore, hwriting, hwritten, hremaining, hsame⟩ :=
    store_spec h.writing hpos (Entry.fromMap l)
  have hpending : { m₂ with loadedIndex := k }.pending = m.pending := hsame.pending
  have hwaiting : m.waiting loaded
      = { m₂ with loadedIndex := k }.waiting loaded ++ [Entry.fromMap l] := waiting_succ hindex hl
  have hsorted : Sorted (m.waiting loaded) := waiting_sorted hloaded
  refine ⟨{ m₂ with loadedIndex := k }, by simp [takeLoaded, hindex, hl, hstore], ?_, ?_⟩
  · refine h.put ?_ { hwriting with } ?_ hwritten hremaining ?_ ?_
    · exact { hsame.reading h.reading with }
    · have := h.loadedIndex
      show k ≤ loaded.length
      omega
    · unfold Merge.left
      rw [hpending, hwaiting, ← append_assoc]
      exact perm_append_singleton _ _
    · unfold Merge.left
      rw [hpending]
      intro x hx
      rcases mem_append.1 hx with hx | hx
      · exact hbelow x hx
      · rw [hwaiting] at hsorted
        exact (pairwise_append.1 hsorted).2.2 x hx _ mem_cons_self
  · rw [hpending]
    show _ + k + 1 = _
    omega

theorem Merge.SameSource.currentEntry (h : m'.SameSource m) : m'.currentEntry = m.currentEntry := by
  unfold Merge.currentEntry
  rw [h.current, h.currentIndex]

section

variable (hdisjoint : Disjoint total) (hloaded : Sorted (loaded.map Entry.fromMap))
  (h : Merging loaded total m)
include hdisjoint hloaded h

/-- The choice between the two sources takes the highest entry that is left. -/
theorem choose_spec (hpos : 0 < m.targetIndex) {e : Option Entry}
    (hentry : m.currentEntry = .ok e) (hindex : m.current ≠ [] → m.currentIndex ≠ 0)
    (hlive : e.any (·.map.isNone) = false) (hmore : ¬ (m.loadedIndex = 0 ∧ m.current.isEmpty)) :
    ∃ current m', preferCurrent loaded m e = .ok current ∧
      (if current then m.takeCurrent e else m.takeLoaded loaded) = .ok m' ∧
      m.Taken loaded total m' := by
  have hapart := (hdisjoint.perm h.perm.symm).right
  have hwaiting : Sorted (m.waiting loaded) := waiting_sorted hloaded
  rcases currentEntry_spec h.reading hindex with
    ⟨hnone, hnull, hpending⟩ | ⟨e', i, hsome, -, hi, hpending⟩
  · -- there are only loaded maps left
    obtain rfl := Except.ok.inj (hentry.symm.trans hnone)
    obtain ⟨k, hk⟩ : ∃ k, m.loadedIndex = k + 1 :=
      Nat.exists_eq_succ_of_ne_zero fun hzero => hmore ⟨hzero, by simp [hnull]⟩
    have hlt : k < loaded.length := by
      have := h.loadedIndex
      omega
    obtain ⟨m', hrun, htaken⟩ := takeLoaded_spec hloaded h hpos hk
      (getElem?_eq_getElem hlt) (by simp [hpending, live])
    exact ⟨false, m', by simp [preferCurrent, hk], hrun, htaken⟩
  · obtain rfl := Except.ok.inj (hentry.symm.trans hsome)
    have hmap : e'.map.isSome = true := by simpa using hlive
    have hlast := live_pending hmap hpending
    cases hk : m.loadedIndex with
    | zero =>
      obtain ⟨m', hrun, htaken⟩ := takeCurrent_spec h hpos hi hpending hmap
        (by simp [Merge.waiting, hk])
      exact ⟨true, m', by simp [preferCurrent, hk], hrun, htaken⟩
    | succ k =>
      have hlt : k < loaded.length := by
        have := h.loadedIndex
        omega
      have htop := waiting_succ hk (getElem?_eq_getElem hlt)
      -- the two candidates are apart, so the one that starts higher lies above the other
      have he : e' ∈ live m.pending := by rw [hlast]; simp
      have hl : Entry.fromMap loaded[k] ∈ m.waiting loaded := by rw [htop]; simp
      have hsep := (pairwise_append.1 hapart.apart).2.2 e' he _ hl
      have hne := hapart.nonempty e' (mem_append_left _ he)
      have hnl := hapart.nonempty _ (mem_append_right _ hl)
      have hprefer : preferCurrent loaded m (some e')
          = .ok (decide (loaded[k].mapStart < e'.mapStart)) := by
        simp [preferCurrent, hk, getElem?_eq_getElem hlt]
      by_cases hless : loaded[k].mapStart < e'.mapStart
      · obtain ⟨m', hrun, htaken⟩ := takeCurrent_spec h hpos hi hpending hmap (by
          rw [htop]
          exact below_of_last (htop ▸ hwaiting) (hsep.symm.before hne hnl (Nat.le_of_lt hless)))
        exact ⟨true, m', by rw [hprefer, decide_eq_true hless], hrun, htaken⟩
      · obtain ⟨m', hrun, htaken⟩ := takeLoaded_spec hloaded h hpos hk
          (getElem?_eq_getElem hlt) (by
            rw [hlast]
            refine below_of_last (hlast ▸ live_sorted h.reading.sorted) ?_
            exact hsep.before hnl hne (Nat.le_of_not_lt hless))
        exact ⟨false, m', by rw [hprefer, decide_eq_false hless], hrun, htaken⟩

theorem add_spec {e : Option Entry} (hentry : m.currentEntry = .ok e)
    (hindex : m.current ≠ [] → m.currentIndex ≠ 0) (hlive : e.any (·.map.isNone) = false)
    (hmore : ¬ (m.loadedIndex = 0 ∧ m.current.isEmpty)) :
    ∃ m', m.add loaded e = .ok m' ∧ m.Taken loaded total m' := by
  have hremaining : 0 < m.remaining := by
    rw [h.remaining, Merge.left, length_append]
    rcases currentEntry_spec h.reading hindex with ⟨-, hnull, -⟩ | ⟨e', i, hsome, -, -, hpending⟩
    · have hpos : m.loadedIndex ≠ 0 := fun hzero => hmore ⟨hzero, by simp [hnull]⟩
      have := h.loadedIndex
      have : 0 < (m.waiting loaded).length := by
        simp only [Merge.waiting, length_map, length_take]
        omega
      omega
    · obtain rfl := Except.ok.inj (hentry.symm.trans hsome)
      rw [live_pending (by simpa using hlive) hpending, length_append, length_singleton]
      omega
  obtain ⟨m₁, hroom, hwriting, hpos, hwritten, hremaining₁, hsame⟩ :=
    makeRoom_spec h.writing hremaining
  have h₁ :=
    h.keep (hsame.reading h.reading) hwriting hsame.loadedIndex hsame.left hwritten hremaining₁
  obtain ⟨current, m', hprefer, hrun, hmerging, hmeasure⟩ := choose_spec hdisjoint hloaded h₁ hpos
    (hsame.currentEntry.trans hentry) (by rw [hsame.current, hsame.currentIndex]; exact hindex)
    hlive (by rw [hsame.current, hsame.loadedIndex]; exact hmore)
  refine ⟨m', by rw [Merge.add, hroom, ok_bind, hprefer, ok_bind, hrun], hmerging, ?_⟩
  rw [hmeasure, hsame.pending, hsame.loadedIndex]

end

/-! ## The loop -/

theorem Merge.Merging.switchCurrent (h : Merging loaded total m) :
    Merging loaded total m.switchCurrent := by
  have hreading := switchCurrent_reading h.reading
  have hpending := switchCurrent_pending m
  obtain ⟨current, currentIndex, heq⟩ := switchCurrent_eq m
  rw [heq] at hreading hpending ⊢
  have hleft : { m with current := current, currentIndex := currentIndex }.left loaded
      = m.left loaded := by
    unfold Merge.left
    rw [hpending]
    rfl
  exact h.keep hreading { h.writing with } rfl hleft rfl rfl

theorem Merge.Merging.skip (h : Merging loaded total m) (hindex : m.currentIndex = i + 1)
    (hpending : m.pending = { m with currentIndex := i }.pending ++ [e])
    (hclosed : e.map.isNone = true) : Merging loaded total { m with currentIndex := i } := by
  have hsorted : Sorted ({ m with currentIndex := i }.pending ++ [e]) := hpending ▸ h.reading.sorted
  have hleft : { m with currentIndex := i }.left loaded = m.left loaded := by
    unfold Merge.left
    rw [hpending, live_append]
    have hnil : live [e] = [] := by
      simp [live, hclosed]
    rw [hnil, append_nil]
    rfl
  refine h.keep ⟨h.reading.fits, ?_, (pairwise_append.1 hsorted).1⟩
    { h.writing with } rfl hleft rfl rfl
  intro seg previous hcurrent
  have := h.reading.index seg previous hcurrent
  show i ≤ _
  omega

/-- The loop ends with all of both sources written. -/
theorem mergeLoop_spec (hdisjoint : Disjoint total) (hloaded : Sorted (loaded.map Entry.fromMap))
    {fuel : Nat} (h : Merging loaded total m) (hfuel : m.pending.length + m.loadedIndex < fuel) :
    ∃ m', mergeLoop loaded fuel m = .ok m' ∧ Merging loaded total m' ∧ m'.left loaded = [] := by
  induction fuel generalizing m with
  | zero => omega
  | succ fuel ih =>
    have h₁ := h.switchCurrent
    have hindex := @switchCurrent_index m
    have hmeasure : m.switchCurrent.pending.length + m.switchCurrent.loadedIndex < fuel + 1 := by
      obtain ⟨_, _, heq⟩ := switchCurrent_eq m
      rw [switchCurrent_pending, heq]
      exact hfuel
    rw [mergeLoop]
    generalize m.switchCurrent = m₁ at h₁ hindex hmeasure ⊢
    rcases currentEntry_spec h₁.reading hindex with
      ⟨hentry, hnull, hpending⟩ | ⟨e, i, hentry, hcurrent, hi, hpending⟩
    · simp only [hentry, ok_bind, Option.any_none, Bool.false_eq_true]
      by_cases hend : m₁.loadedIndex = 0 ∧ m₁.current.isEmpty
      · rw [if_pos hend]
        exact ⟨m₁, rfl, h₁, by simp [Merge.left, Merge.waiting, hpending, live, hend.1]⟩
      · rw [if_neg hend]
        obtain ⟨m₂, hadd, h₂, hless⟩ := add_spec hdisjoint hloaded h₁ hentry hindex rfl hend
        rw [hadd]
        exact ih h₂ (by omega)
    · simp only [hentry, ok_bind, Option.any_some]
      by_cases hclosed : e.map.isNone = true
      · rw [if_pos hclosed, hi, Nat.add_sub_cancel]
        refine ih (h₁.skip hi hpending hclosed) ?_
        rw [hpending, length_append, length_singleton] at hmeasure
        show _ + m₁.loadedIndex < fuel
        omega
      · have hend : ¬ (m₁.loadedIndex = 0 ∧ m₁.current.isEmpty) := by
          rintro ⟨-, hempty⟩
          exact hcurrent (isEmpty_iff.1 hempty)
        rw [if_neg hclosed, if_neg hend]
        obtain ⟨m₂, hadd, h₂, hless⟩ := add_spec hdisjoint hloaded h₁ hentry hindex
          (Bool.eq_false_iff.2 hclosed) hend
        rw [hadd]
        exact ih h₂ (by omega)

/-! ## The chain that the merge leaves -/

theorem used_filled {filled chain : List Segment} (h : ∀ seg ∈ filled, 0 < seg.size) :
    used (filled.reverse ++ chain)
      = used chain ++ filled.flatMap fun seg => seg.objects.take seg.size := by
  induction filled generalizing chain with
  | nil => simp
  | cons seg filled ih =>
    have hsize : seg.size ≠ 0 := Nat.pos_iff_ne_zero.1 (h seg mem_cons_self)
    rw [reverse_cons, append_assoc, ih fun s hs => h s (mem_cons_of_mem _ hs)]
    simp [used_cons hsize]

/-- When nothing is left the target is full, and the entries in use are those that were written. -/
theorem finish_spec (h : Merging loaded total m) (hleft : m.left loaded = []) :
    ∃ chain, m.finish = .ok chain ∧ Fits chain ∧ HeadUsed chain ∧ Sorted (used chain) ∧
      (used chain).Perm total := by
  have hremaining : m.remaining = 0 := by rw [h.remaining, hleft]; rfl
  have hindex : m.targetIndex = 0 := by
    have := h.writing.le_remaining
    omega
  have hperm := h.perm
  rw [hleft, append_nil] at hperm
  have hsize : m.target.size ≠ 0 := Nat.pos_iff_ne_zero.1 h.writing.nonempty
  have hchain : ∀ unused, Fits unused → used unused = [] →
      Fits (m.filled.reverse ++ m.target :: unused) ∧
        HeadUsed (m.filled.reverse ++ m.target :: unused) ∧
        used (m.filled.reverse ++ m.target :: unused) = m.written := by
    intro unused hfits hused
    refine ⟨forall_mem_append.2 ⟨fun seg hseg => ?_, forall_mem_cons.2 ⟨?_, hfits⟩⟩,
      fun seg hseg => ?_, ?_⟩
    · have := h.writing.filled seg (mem_reverse.1 hseg)
      omega
    · have := h.writing.size
      omega
    · cases hhead : m.filled.reverse.head? with
      | none =>
        obtain rfl : m.target = seg := by simpa [hhead] using hseg
        exact hsize
      | some s =>
        obtain rfl : s = seg := by simpa [hhead] using hseg
        have := h.writing.filled s (mem_reverse.1 (mem_of_head? hhead))
        omega
    · rw [used_filled fun seg hseg => (h.writing.filled seg hseg).1, used_cons hsize, hused,
        nil_append, Merge.written, hindex, drop_zero]
  unfold Merge.finish
  rw [if_neg (by simpa using hremaining), if_neg (by simpa using hindex)]
  cases hunfilled : m.unfilled with
  | nil =>
    obtain ⟨hfits, hhead, hused⟩ := hchain [] (fun seg hseg => (nomatch hseg)) rfl
    exact ⟨_, rfl, hfits, hhead, hused ▸ h.sorted, hused ▸ hperm⟩
  | cons seg previous =>
    obtain ⟨hseg, hprevious⟩ := forall_mem_cons.1 (hunfilled ▸ h.writing.unfilled)
    have hfits' : Fits ({ seg with size := 0 } :: previous) :=
      forall_mem_cons.2 ⟨⟨hseg.1, Nat.zero_le _⟩, hprevious⟩
    obtain ⟨hfits, hhead, hused⟩ := hchain _ hfits' (by simp [used])
    exact ⟨_, rfl, hfits, hhead, hused ▸ h.sorted, hused ▸ hperm⟩

theorem countUsed_eq : countUsed chain = (live (used chain)).length := by
  induction chain with
  | nil => rfl
  | cons seg previous ih =>
    by_cases hsize : seg.size = 0
    · simp [countUsed, used, hsize, live]
    · rw [countUsed, if_neg hsize, used_cons hsize, live_append, length_append, ih,
        countP_eq_length_filter, add_comm]
      rfl

theorem length_used_le : (used chain).length ≤ countAllocated chain := by
  induction chain with
  | nil => exact le_refl 0
  | cons seg previous ih =>
    by_cases hsize : seg.size = 0
    · simp [used, hsize]
    · rw [used_cons hsize, length_append, length_take, countAllocated]
      omega

theorem mergeInto_spec {current : List Segment} {needed : Nat} (hfits : Fits current)
    (hhead : HeadUsed current) (hsorted : Sorted (used current))
    (hloaded : Sorted (loaded.map Entry.fromMap))
    (hdisjoint : Disjoint (live (used current) ++ loaded.map Entry.fromMap)) (htarget : Fits target)
    (hneeded : needed = countUsed current + loaded.length) (hpos : 0 < needed)
    (hroom : needed ≤ countAllocated target) :
    ∃ chain, mergeInto current target loaded needed = .ok chain ∧ Fits chain ∧ HeadUsed chain ∧
      Sorted (used chain) ∧
      (used chain).Perm (live (used current) ++ loaded.map Entry.fromMap) := by
  cases target with
  | nil =>
    rw [countAllocated] at hroom
    omega
  | cons seg unfilled =>
    let m : Merge :=
      { current := current, currentIndex := (current.head?.map Segment.size).getD 0,
        loadedIndex := loaded.length, filled := [], target := updateInitSeg seg needed,
        targetIndex := (updateInitSeg seg needed).size, unfilled := unfilled, remaining := needed }
    have hpending : m.pending = used current := by
      cases current with
      | nil => rfl
      | cons seg previous =>
        rw [used_cons (hhead seg rfl)]
        rfl
    have hleft : m.left loaded = live (used current) ++ loaded.map Entry.fromMap := by
      simp [Merge.left, Merge.waiting, hpending, m]
    have hwritten : m.written = [] := by simp [Merge.written, m]
    have hmerging : Merging loaded (live (used current) ++ loaded.map Entry.fromMap) m :=
      { reading :=
          { fits := hfits
            index := by
              intro s previous (hcurrent : current = s :: previous)
              subst hcurrent
              exact (hfits s mem_cons_self).2
            sorted := hpending ▸ hsorted }
        writing := writing_init rfl rfl hpos hroom htarget (fun s hs => (nomatch hs))
        loadedIndex := le_rfl
        remaining := by
          rw [hleft, length_append, length_map, ← countUsed_eq]
          exact hneeded
        perm := by rw [hwritten, hleft]; exact .refl _
        sorted := by rw [hwritten]; exact .nil
        above := by rw [hwritten]; exact fun x _ w hw => (nomatch hw) }
    have hfuel : m.pending.length + m.loadedIndex < countAllocated current + loaded.length + 1 := by
      have := length_used_le current
      rw [hpending]
      show _ + loaded.length < _
      omega
    obtain ⟨m', hloop, hmerging', hdone⟩ := mergeLoop_spec hdisjoint hloaded hmerging hfuel
    obtain ⟨chain, hfinish, hresult⟩ := finish_spec hmerging' hdone
    exact ⟨chain, by rw [mergeInto, hloop, ok_bind, hfinish], hresult⟩

/-! ## Making room -/

/-- The two cache lines that are added leave room for the alignment of both ends. -/
theorem le_allocatedSlots (ptr size : Nat) : size ≤ allocatedSlots ptr size := by
  simp only [allocatedSlots, elementSize, cacheLine]
  omega

theorem minimumGrowth_pos {previous : List Segment} (h : Fits previous) :
    0 < minimumGrowth previous := by
  cases previous with
  | nil => decide
  | cons seg previous =>
    have := (h seg mem_cons_self).1
    rw [minimumGrowth]
    omega

theorem segmentAllocate_spec (size : Nat) (previous : List Segment) (block : Block)
    (hprevious : Fits previous) :
    ∃ seg, segmentAllocate size previous block = .ok seg ∧ seg.size = 0 ∧
      size ≤ seg.objects.length ∧ 0 < seg.objects.length := by
  have hslots := le_allocatedSlots block.ptr (max size (minimumGrowth previous))
  have hgrowth := minimumGrowth_pos hprevious
  refine ⟨_, if_pos hslots, rfl, ?_, ?_⟩
  · rw [length_map, length_range]
    omega
  · rw [length_map, length_range]
    omega

theorem ensureSpace_spec (needed : Nat) (block : Block) (htarget : Fits target) :
    ∃ chain, ensureSpace target needed (some block) = .ok (some chain) ∧ Fits chain ∧
      needed ≤ countAllocated chain := by
  unfold ensureSpace
  split
  · next hless =>
    obtain ⟨seg, hrun, hzero, hsize, hpos⟩ :=
      segmentAllocate_spec (needed - countAllocated target) target block htarget
    refine ⟨seg :: target, by simp [hrun], forall_mem_cons.2 ⟨by omega, htarget⟩, ?_⟩
    rw [countAllocated]
    omega
  · next hless => exact ⟨target, rfl, htarget, Nat.le_of_not_lt hless⟩

end SafeLibc.Ldso.FindObject
