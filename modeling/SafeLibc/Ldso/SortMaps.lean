import Mathlib.Data.List.Perm.Basic
import SafeLibc.Lib.DepthFirst
import SafeLibc.Lib.Machine

/-!
# `_dl_sort_maps_dfs` of `elf/dl-sort-maps.c`

The link maps of a namespace are sorted so that destructors and constructors run in an order that
respects the dependencies. The link maps are the elements of a type `α`; what the sort reads of
them (`l_initfini`, `l_reldeps`, `l_faked`, `l_main_map`) is a `LinkMaps α`, and the flag
`l_visited` it writes is part of the state.

The result array is filled from its end through a pointer: `placed` is what stands from that
pointer on and `room` the number of slots below it, so that a store below the array is a fault and
the assertions compare `room` with zero.

Every call of `dfsTraversal` is a traversal in the sense of `Lib.Traverse` (`Placed`), from which
the permutation and the two orders follow.
-/

namespace SafeLibc.Ldso.SortMaps

open SafeLibc.Lib List

/-! ## The model -/

/-- What the sort reads of the link maps. A null `l_initfini` or `l_reldeps` is `none`. -/
structure LinkMaps (α : Type) where
  initfini : α → Option (List α)
  reldeps : α → Option (List α)
  faked : α → Bool
  mainMap : α → Bool

inductive Fault
  /-- `assert (rpo_head == rpo)` or `assert (maps_head == maps)` -/
  | assertion
  /-- a map stored below the first slot of the array -/
  | underrun
  /-- the search for `first_map` leaves the array -/
  | overrun
  | fuel
  deriving DecidableEq, Repr

/-- The flags `l_visited`, the array that is being filled and `do_reldeps`. -/
structure Sorting (α : Type) where
  visited : α → Bool
  placed : List α
  room : Nat
  doReldeps : Bool

variable {α : Type}

def Sorting.mark [DecidableEq α] (t : Sorting α) (map : α) : Sorting α :=
  { t with visited := fun m => if m = map then true else t.visited m }

/-- `*rpo -= 1; **rpo = map;` -/
def Sorting.store (t : Sorting α) (map : α) : Except Fault (Sorting α) :=
  match t.room with
  | 0 => .error .underrun
  | room + 1 => .ok { t with placed := map :: t.placed, room := room }

/-- The loop over a dependency list: `go` is the recursive call. -/
def followAll (objects : LinkMaps α) (go : α → Sorting α → Except Fault (Sorting α)) :
    List α → Sorting α → Except Fault (Sorting α)
  | [], t => .ok t
  | dep :: deps, t =>
    if !t.visited dep && !objects.mainMap dep then do
      let t ← go dep t
      followAll objects go deps t
    else followAll objects go deps t

def followInitfini (objects : LinkMaps α) (go : α → Sorting α → Except Fault (Sorting α)) (map : α)
    (t : Sorting α) : Except Fault (Sorting α) :=
  match objects.initfini map with
  | some deps => followAll objects go deps t
  | none => .ok t

/-- `ref` says whether `do_reldeps` is non-null; the list is walked from its end. -/
def followReldeps (objects : LinkMaps α) (ref : Bool)
    (go : α → Sorting α → Except Fault (Sorting α)) (map : α) (t : Sorting α) :
    Except Fault (Sorting α) :=
  match ref, objects.reldeps map with
  | true, some deps => followAll objects go deps.reverse { t with doReldeps := true }
  | _, _ => .ok t

/-- `dfs_traversal`. The fuel bounds the depth of the recursion. -/
def dfsTraversal [DecidableEq α] (objects : LinkMaps α) (ref : Bool) :
    Nat → α → Sorting α → Except Fault (Sorting α)
  | 0, _, _ => .error .fuel
  | fuel + 1, map, t =>
    if t.visited map || objects.faked map then .ok t
    else do
      let t ← followInitfini objects (dfsTraversal objects ref fuel) map (t.mark map)
      let t ← followReldeps objects ref (dfsTraversal objects ref fuel) map t
      t.store map

def sortLoop [DecidableEq α] (objects : LinkMaps α) (ref : Bool) (fuel : Nat) :
    List α → Sorting α → Except Fault (Sorting α)
  | [], t => .ok t
  | map :: maps, t => do
    let t ← dfsTraversal objects ref fuel map t
    if t.room = 0 then .ok t else sortLoop objects ref fuel maps t

/-- A pass over `maps`: clear the flags, traverse from the last map, and check that the array is
full. -/
def sortPass [DecidableEq α] (objects : LinkMaps α) (ref : Bool) (fuel : Nat) (maps : List α)
    (visited : α → Bool) : Except Fault (Sorting α) := do
  let t ← sortLoop objects ref fuel maps.reverse
    ⟨fun m => if m ∈ maps then false else visited m, [], maps.length, false⟩
  if t.room = 0 then .ok t else .error .assertion

/-- The second pass, without relocation dependencies, or the copy of the first pass's result. -/
def secondPass [DecidableEq α] (objects : LinkMaps α) (fuel : Nat) (t : Sorting α) :
    Except Fault (List α) :=
  if t.doReldeps then do
    let t ← sortPass objects false fuel t.placed t.visited
    .ok t.placed
  else .ok t.placed

/-- Search `first_map`, move what stands before it up by one and put it in front. An empty array
has no first map. -/
def moveFirst [DecidableEq α] (first : Option α) (maps : List α) : Except Fault (List α) :=
  if maps.head? = first then .ok maps
  else match first with
    | none => .ok maps
    | some map =>
      match maps.idxOf? map with
      | none => .error .overrun
      | some i => .ok (map :: (maps.take i ++ maps.drop (i + 1)))

def dlSortMapsDfs [DecidableEq α] (objects : LinkMaps α) (fuel : Nat) (visited : α → Bool)
    (maps : List α) (forceFirst forFini : Bool) : Except Fault (List α) := do
  let t ← sortPass objects forFini fuel maps visited
  let sorted ← secondPass objects fuel t
  if forceFirst then moveFirst maps.head? sorted else .ok sorted

/-! ## The graph that is traversed -/

namespace LinkMaps

variable (objects : LinkMaps α)

def relocs (ref : Bool) (map : α) : List α :=
  if ref then ((objects.reldeps map).getD []).reverse else []

/-- The dependencies of a map: those of `l_initfini`, and with `ref` those of `l_reldeps`. -/
def deps (ref : Bool) (map : α) : List α :=
  (objects.initfini map).getD [] ++ objects.relocs ref map

/-- The traversal follows a dependency unless it is the main map or a placeholder. -/
def followed (dep : α) : Bool :=
  !objects.mainMap dep && !objects.faked dep

def succ (ref : Bool) (map : α) : List α :=
  (objects.deps ref map).filter objects.followed

/-- Every dependency of a map of the list is in the list, placeholders apart. -/
def Closed (ref : Bool) (maps : List α) : Prop :=
  ∀ m ∈ maps, ∀ d ∈ objects.deps ref m, d ∈ maps ∨ objects.faked d = true

variable {m d : α} {ref : Bool} {maps : List α}

theorem deps_false_subset (hd : d ∈ objects.deps false m) :
    d ∈ objects.deps ref m := by
  simp only [deps, relocs, Bool.false_eq_true, if_false, append_nil] at hd
  exact mem_append_left _ hd

theorem Closed.static (h : objects.Closed ref maps) :
    objects.Closed false maps :=
  fun m hm d hd => h m hm d (objects.deps_false_subset hd)

variable {objects}

theorem Closed.mem_of_followed (h : objects.Closed ref maps)
    (hm : m ∈ maps) (hd : d ∈ objects.deps ref m) (hfollowed : objects.followed d = true) :
    d ∈ maps := by
  refine (h m hm d hd).resolve_right fun hfaked => ?_
  simp [followed, hfaked] at hfollowed

end LinkMaps

/-! ## Every call is a depth-first traversal -/

variable {objects : LinkMaps α} {ref : Bool} {maps : List α}

/-- From `t` to `t'` the roots `ms` were traversed and the maps `O` placed. -/
structure Placed (objects : LinkMaps α) (ref : Bool) (t : Sorting α) (ms : List α) (t' : Sorting α)
    (O : List α) : Prop where
  traverse : Traverse (objects.succ ref) {x | t.visited x = true} ms {x | t'.visited x = true} O
  placed : t'.placed = O ++ t.placed
  room : t.room = t'.room + O.length
  doReldeps : t'.doReldeps = true ↔
    t.doReldeps = true ∨ ref = true ∧ ∃ x ∈ O, (objects.reldeps x).isSome = true

structure Ready (maps : List α) (t : Sorting α) : Prop where
  nodup : t.placed.Nodup
  subset : ∀ x ∈ t.placed, x ∈ maps
  visited : ∀ x ∈ t.placed, t.visited x = true
  room : t.room + t.placed.length = maps.length

namespace Placed

variable {t t₁ t₂ : Sorting α} {ms ns O O₁ O₂ : List α}

theorem refl (t : Sorting α) : Placed objects ref t [] t [] where
  traverse := .nil _
  placed := rfl
  room := rfl
  doReldeps := by simp

theorem append (h₁ : Placed objects ref t ms t₁ O₁) (h₂ : Placed objects ref t₁ ns t₂ O₂) :
    Placed objects ref t (ms ++ ns) t₂ (O₂ ++ O₁) where
  traverse := h₁.traverse.append h₂.traverse
  placed := by rw [h₂.placed, h₁.placed, append_assoc]
  room := by
    have := h₁.room
    have := h₂.room
    simp only [length_append]
    omega
  doReldeps := by
    rw [h₂.doReldeps, h₁.doReldeps]
    grind

theorem visited_mono (h : Placed objects ref t ms t₁ O) {x : α} (hx : t.visited x = true) :
    t₁.visited x = true :=
  h.traverse.mem_visited.2 (.inl hx)

end Placed

def unvisited (maps : List α) (t : Sorting α) : Nat :=
  maps.countP fun x => !t.visited x

variable {t t₁ : Sorting α} {map first : α} {sorted ms O : List α} {fuel bound : Nat}
  {go : α → Sorting α → Except Fault (Sorting α)} {V V' : Set α}

theorem Placed.unvisited_le (h : Placed objects ref t ms t₁ O) :
    unvisited maps t₁ ≤ unvisited maps t := by
  refine countP_mono_left fun x _ hx => ?_
  cases hv : t.visited x with
  | false => rfl
  | true => rw [h.visited_mono hv] at hx; cases hx

theorem unvisited_mark [DecidableEq α] (hmap : map ∈ maps) (hnew : t.visited map = false) :
    unvisited maps (t.mark map) < unvisited maps t := by
  unfold unvisited
  rw [(perm_cons_erase hmap).countP_eq, (perm_cons_erase hmap).countP_eq,
    countP_cons_of_neg (by simp [Sorting.mark]), countP_cons_of_pos (by simp [hnew])]
  refine Nat.lt_succ_of_le (countP_mono_left fun x _ hx => ?_)
  simp only [Sorting.mark] at hx
  split at hx
  · cases hx
  · exact hx

theorem Placed.ready (h : Placed objects ref t ms t₁ O) (hready : Ready maps t)
    (hclosed : objects.Closed ref maps) (hms : ∀ m ∈ ms, m ∈ maps) : Ready maps t₁ where
  nodup := by
    rw [h.placed]
    refine nodup_append'.2 ⟨h.traverse.nodup, hready.nodup, fun x hx hx' => ?_⟩
    exact h.traverse.not_mem hx (hready.visited x hx')
  subset := by
    intro x hx
    rw [h.placed] at hx
    rcases mem_append.1 hx with hx | hx
    · refine h.traverse.mem_of_closed (S := (· ∈ maps)) hms (fun m hm d hd => ?_) hx
      obtain ⟨hdep, hfollowed⟩ := mem_filter.1 hd
      exact hclosed.mem_of_followed hm hdep hfollowed
    · exact hready.subset x hx
  visited := by
    intro x hx
    rw [h.placed] at hx
    rcases mem_append.1 hx with hx | hx
    · exact h.traverse.mem_visited.2 (.inr hx)
    · exact h.visited_mono (hready.visited x hx)
  room := by
    have := h.room
    have := hready.room
    rw [h.placed, length_append]
    omega

/-- What a call with `fuel` has to do: traverse its map, unless that is a placeholder. -/
def Traverses (objects : LinkMaps α) (ref : Bool) (maps : List α) (bound : Nat)
    (go : α → Sorting α → Except Fault (Sorting α)) : Prop :=
  ∀ m t, (m ∈ maps ∨ objects.faked m = true) → Ready maps t → unvisited maps t < bound →
    ∃ t' O, go m t = .ok t' ∧ Placed objects ref t ([m].filter (!objects.faked ·)) t' O

section

variable (hgo : Traverses objects ref maps bound go) (hclosed : objects.Closed ref maps)

include hgo hclosed

theorem followAll_spec (deps : List α) (hdeps : ∀ d ∈ deps, d ∈ maps ∨ objects.faked d = true)
    (hready : Ready maps t) (hbound : unvisited maps t < bound) :
    ∃ t' O, followAll objects go deps t = .ok t' ∧
      Placed objects ref t (deps.filter objects.followed) t' O ∧ Ready maps t' := by
  induction deps generalizing t with
  | nil => exact ⟨t, [], rfl, .refl t, hready⟩
  | cons dep deps ih =>
    have hrest : ∀ d ∈ deps, d ∈ maps ∨ objects.faked d = true :=
      fun d hd => hdeps d (mem_cons_of_mem _ hd)
    rw [followAll]
    by_cases hcall : (!t.visited dep && !objects.mainMap dep) = true
    · rw [if_pos hcall]
      obtain ⟨t₁, O₁, hrun, hplaced⟩ := hgo dep t (hdeps dep mem_cons_self) hready hbound
      have hroots : ∀ m ∈ [dep].filter (!objects.faked ·), m ∈ maps := by
        intro m hm
        obtain ⟨hm, hfaked⟩ := mem_filter.1 hm
        obtain rfl := mem_singleton.1 hm
        exact (hdeps m mem_cons_self).resolve_right (by simpa using hfaked)
      obtain ⟨t₂, O₂, hrun₂, hplaced₂, hready₂⟩ := ih hrest
        (hplaced.ready hready hclosed hroots) (lt_of_le_of_lt hplaced.unvisited_le hbound)
      refine ⟨t₂, O₂ ++ O₁, by rw [hrun, ok_bind, hrun₂], ?_, hready₂⟩
      have hsplit : (dep :: deps).filter objects.followed
          = [dep].filter (!objects.faked ·) ++ deps.filter objects.followed := by
        simp only [Bool.and_eq_true] at hcall
        simp only [filter_cons, LinkMaps.followed, hcall.2, Bool.true_and]
        split <;> rfl
      rw [hsplit]
      exact hplaced.append hplaced₂
    · rw [if_neg hcall]
      obtain ⟨t', O, hrun, hplaced, hready'⟩ := ih hrest hready hbound
      refine ⟨t', O, hrun, ?_, hready'⟩
      -- a dependency that is not called is visited or is not followed
      by_cases hfollowed : objects.followed dep = true
      · rw [filter_cons_of_pos hfollowed]
        have hvisited : t.visited dep = true := by
          simp only [LinkMaps.followed, Bool.and_eq_true] at hfollowed
          simpa [hfollowed.1] using hcall
        exact { hplaced with traverse := .skip hvisited hplaced.traverse }
      · rw [filter_cons_of_neg hfollowed]
        exact hplaced

theorem followInitfini_spec (hmap : map ∈ maps) (hready : Ready maps t)
    (hbound : unvisited maps t < bound) : ∃ t' O, followInitfini objects go map t = .ok t' ∧
      Placed objects ref t (((objects.initfini map).getD []).filter objects.followed) t' O ∧
      Ready maps t' := by
  unfold followInitfini
  have hdeps : ∀ d ∈ (objects.initfini map).getD [], d ∈ maps ∨ objects.faked d = true :=
    fun d hd => hclosed map hmap d (mem_append_left _ hd)
  cases hlist : objects.initfini map with
  | none => exact ⟨t, [], rfl, .refl t, hready⟩
  | some deps =>
    rw [hlist] at hdeps
    exact followAll_spec hgo hclosed deps hdeps hready hbound

/-- The relocation dependencies are followed in `flagged`, which differs from `t` in the flag
only. -/
theorem followReldeps_spec (hmap : map ∈ maps) (hready : Ready maps t)
    (hbound : unvisited maps t < bound) : ∃ t' O, followReldeps objects ref go map t = .ok t' ∧
      Placed objects ref { t with doReldeps := t.doReldeps || ref && (objects.reldeps map).isSome }
        ((objects.relocs ref map).filter objects.followed) t' O ∧ Ready maps t' := by
  have hdeps : ∀ d ∈ objects.relocs ref map, d ∈ maps ∨ objects.faked d = true :=
    fun d hd => hclosed map hmap d (mem_append_right _ hd)
  unfold followReldeps
  cases ref with
  | false => exact ⟨t, [], rfl, by simpa [LinkMaps.relocs] using Placed.refl t, hready⟩
  | true =>
    cases hlist : objects.reldeps map with
    | none => exact ⟨t, [], rfl, by simpa [LinkMaps.relocs, hlist] using Placed.refl t, hready⟩
    | some deps =>
      simp only [LinkMaps.relocs, hlist] at hdeps
      simp only [LinkMaps.relocs, hlist, Option.isSome_some, Bool.and_self,
        Bool.or_true]
      exact followAll_spec hgo hclosed _ hdeps { hready with } hbound

end

theorem Ready.room_pos (hready : Ready maps t) (hmap : map ∈ maps) (hnew : map ∉ t.placed) :
    0 < t.room := by
  have hsub : (map :: t.placed).Subperm maps := by
    refine subperm_of_subset (nodup_cons.2 ⟨hnew, hready.nodup⟩) fun x hx => ?_
    rcases mem_cons.1 hx with rfl | hx
    · exact hmap
    · exact hready.subset x hx
  have := hsub.length_le
  have := hready.room
  simp only [length_cons] at *
  omega

theorem Ready.perm (hready : Ready maps t) (hfull : t.room = 0) : t.placed.Perm maps := by
  refine (subperm_of_subset hready.nodup hready.subset).perm_of_length_le ?_
  have := hready.room
  omega

/-! ## Orders -/

namespace LinkMaps

/-- No map of the list depends on the main map or, with `forceFirst`, on the first of the list. -/
def Unforced (objects : LinkMaps α) (ref forceFirst : Bool) (maps : List α) : Prop :=
  ∀ m ∈ maps, ∀ d, Edge (objects.deps ref) m d →
    objects.mainMap d = false ∧ (forceFirst = true → maps.head? ≠ some d)

theorem succ_eq_of_reldeps {x : α} (h : ¬ (ref = true ∧ (objects.reldeps x).isSome = true)) :
    objects.succ false x = objects.succ ref x := by
  have hnone : objects.relocs ref x = [] := by
    cases ref with
    | false => rfl
    | true =>
      have hnull := Option.not_isSome_iff_eq_none.1 fun hsome => h ⟨rfl, hsome⟩
      simp [relocs, hnull]
  rw [succ, succ, deps, deps, hnone]
  rfl

end LinkMaps

def Respects (objects : LinkMaps α) (ref : Bool) (maps sorted : List α) : Prop :=
  ∀ m ∈ maps, ∀ d ∈ maps, Edge (objects.deps ref) m d → [m, d].Sublist sorted

/-- A reverse postorder of a graph without cycles has every map before its dependencies. -/
theorem ordered {order : List α} {forceFirst : Bool} (hreal : ∀ m ∈ maps, objects.faked m = false)
    (hperm : sorted.Perm maps) (hfresh : ∀ m ∈ maps, m ∉ V)
    (h : Traverse (objects.succ ref) V order V' sorted)
    (hacyclic : AcyclicOn (objects.deps ref) maps) (hfree : objects.Unforced ref forceFirst maps) :
    Respects objects ref maps sorted := by
  intro m hm d hd hedge
  have hsucc : Edge (objects.succ ref) m d := by
    refine ⟨mem_filter.2 ⟨hedge.1, ?_⟩, hedge.2⟩
    simp [LinkMaps.followed, hreal d hd, (hfree m hm d hedge).1]
  have hacyclic' : AcyclicOn (objects.succ ref) sorted := by
    intro x hx
    exact (hacyclic.mono fun _ _ hy => (mem_filter.1 hy).1) x (hperm.mem_iff.1 hx)
  exact (h.sublist_of_acyclic hacyclic' (hperm.mem_iff.2 hm) hsucc).resolve_left (hfresh d hd)

/-! ## The traversal -/

variable [DecidableEq α]

theorem Ready.mark (hready : Ready maps t) (map : α) : Ready maps (t.mark map) where
  nodup := hready.nodup
  subset := hready.subset
  room := hready.room
  visited := by
    intro x hx
    simp only [Sorting.mark]
    split
    · rfl
    · exact hready.visited x hx

theorem visited_mark (t : Sorting α) (map : α) :
    {x | (t.mark map).visited x = true} = insert map {x | t.visited x = true} := by
  ext x
  by_cases hx : x = map <;> simp [Sorting.mark]

/-- A call of `dfs_traversal` with enough fuel for the maps that are left is a traversal. -/
theorem dfsTraversal_spec (hclosed : objects.Closed ref maps) (fuel : Nat) :
    Traverses objects ref maps fuel (dfsTraversal objects ref fuel) := by
  induction fuel with
  | zero => exact fun m t _ _ hbound => absurd hbound (Nat.not_lt_zero _)
  | succ fuel ih =>
    intro m t hm hready hbound
    rw [dfsTraversal]
    cases hfaked : objects.faked m with
    | true => exact ⟨t, [], by simp, by simpa [hfaked] using Placed.refl t⟩
    | false =>
      have hroot : [m].filter (!objects.faked ·) = [m] := by simp [hfaked]
      rw [hroot, Bool.or_false]
      cases hvisited : t.visited m with
      | true =>
        refine ⟨t, [], rfl, { Placed.refl t with traverse := .skip hvisited (.nil _) }⟩
      | false =>
        have hmem : m ∈ maps := hm.resolve_right (by simp [hfaked])
        have hless := lt_of_lt_of_le (unvisited_mark hmem hvisited) (Nat.le_of_lt_succ hbound)
        obtain ⟨t₁, O₁, hrun₁, hplaced₁, hready₁⟩ :=
          followInitfini_spec ih hclosed hmem (hready.mark m) hless
        obtain ⟨t₂, O₂, hrun₂, hplaced₂, hready₂⟩ := followReldeps_spec ih hclosed hmem hready₁
          (lt_of_le_of_lt hplaced₁.unvisited_le hless)
        have htraverse : Traverse (objects.succ ref) (insert m {x | t.visited x = true})
            (objects.succ ref m) {x | t₂.visited x = true} (O₂ ++ O₁) := by
          rw [← visited_mark, LinkMaps.succ, LinkMaps.deps, filter_append]
          exact hplaced₁.traverse.append hplaced₂.traverse
        have hplaced : t₂.placed = O₂ ++ O₁ ++ t.placed := by
          rw [hplaced₂.placed, hplaced₁.placed, append_assoc]
          rfl
        have hnew : m ∉ t₂.placed := by
          rw [hplaced]
          intro hin
          rcases mem_append.1 hin with hin | hin
          · exact htraverse.not_mem hin (Set.mem_insert _ _)
          · rw [hready.visited m hin] at hvisited
            cases hvisited
        obtain ⟨room, hroom⟩ := Nat.exists_eq_succ_of_ne_zero (hready₂.room_pos hmem hnew).ne'
        refine ⟨{ t₂ with placed := m :: t₂.placed, room := room }, m :: (O₂ ++ O₁), ?_, ?_⟩
        · simp only [Bool.false_eq_true, if_false, hrun₁, ok_bind, hrun₂, Sorting.store, hroom]
        · exact {
            traverse := .visit (by simp [hvisited]) htraverse (.nil _)
            placed := by rw [hplaced]; rfl
            room := by
              have h₁ := hplaced₁.room
              have h₂ := hplaced₂.room
              simp only [Sorting.mark, length_cons, length_append] at *
              omega
            doReldeps := by
              have h₁ := hplaced₁.doReldeps
              have h₂ := hplaced₂.doReldeps
              simp only [Sorting.mark] at h₁
              simp only [Bool.or_eq_true] at h₂
              grind }

/-! ## A pass -/

/-- The loop traverses the maps in order, up to the point where the array is full. -/
theorem sortLoop_spec (hclosed : objects.Closed ref maps)
    (hreal : ∀ m ∈ maps, objects.faked m = false) (ms : List α) (hms : ∀ m ∈ ms, m ∈ maps)
    (hready : Ready maps t) (hbound : unvisited maps t < fuel) :
    ∃ t' O done rest, sortLoop objects ref fuel ms t = .ok t' ∧ ms = done ++ rest ∧
      Placed objects ref t done t' O ∧ (t'.room = 0 ∨ rest = []) := by
  induction ms generalizing t with
  | nil => exact ⟨t, [], [], [], rfl, rfl, .refl t, .inr rfl⟩
  | cons m ms ih =>
    have hm : m ∈ maps := hms m mem_cons_self
    obtain ⟨t₁, O₁, hrun, hplaced⟩ := dfsTraversal_spec hclosed fuel m t (.inl hm) hready hbound
    rw [filter_cons_of_pos (by simp [hreal m hm])] at hplaced
    rw [sortLoop, hrun, ok_bind]
    by_cases hfull : t₁.room = 0
    · rw [if_pos hfull]
      exact ⟨t₁, O₁, [m], ms, rfl, rfl, hplaced, .inl hfull⟩
    · rw [if_neg hfull]
      have hready₁ : Ready maps t₁ := by
        refine hplaced.ready hready hclosed fun d hd => ?_
        rw [mem_singleton.1 hd]
        exact hm
      obtain ⟨t₂, O₂, done, rest, hrun₂, hsplit, hplaced₂, hend⟩ :=
        ih (fun d hd => hms d (mem_cons_of_mem _ hd)) hready₁
          (lt_of_le_of_lt hplaced.unvisited_le hbound)
      exact ⟨t₂, O₂ ++ O₁, m :: done, rest, hrun₂,
        by rw [hsplit]; rfl, hplaced.append hplaced₂, hend⟩

structure Pass (objects : LinkMaps α) (ref : Bool) (order : List α) (t : Sorting α) : Prop where
  perm : t.placed.Perm order
  traverse : ∃ V V', (∀ m ∈ order, m ∉ V) ∧
    Traverse (objects.succ ref) V order.reverse V' t.placed
  doReldeps : t.doReldeps = true ↔ ref = true ∧ ∃ x ∈ order, (objects.reldeps x).isSome = true

theorem sortPass_spec (hclosed : objects.Closed ref maps)
    (hreal : ∀ m ∈ maps, objects.faked m = false) (hnodup : maps.Nodup) (hfuel : maps.length < fuel)
    (visited : α → Bool) :
    ∃ t, sortPass objects ref fuel maps visited = .ok t ∧ Pass objects ref maps t := by
  let t₀ : Sorting α := ⟨fun m => if m ∈ maps then false else visited m, [], maps.length, false⟩
  have hfresh : ∀ m ∈ maps, m ∉ {x | t₀.visited x = true} := by
    intro m hm
    simp [t₀, hm]
  have hready₀ : Ready maps t₀ :=
    { nodup := nodup_nil
      subset := fun x hx => (nomatch hx)
      visited := fun x hx => (nomatch hx)
      room := by simp [t₀] }
  have hbound : unvisited maps t₀ < fuel := lt_of_le_of_lt countP_le_length hfuel
  obtain ⟨t, O, done, rest, hrun, hsplit, hplaced, hend⟩ := sortLoop_spec hclosed hreal maps.reverse
    (fun m hm => mem_reverse.1 hm) hready₀ hbound
  have hdone : ∀ m ∈ done, m ∈ maps :=
    fun m hm => mem_reverse.1 (hsplit ▸ mem_append_left rest hm)
  have hready : Ready maps t := hplaced.ready hready₀ hclosed hdone
  have hO : t.placed = O := by
    rw [hplaced.placed]
    exact append_nil O
  have hfull : t.room = 0 := by
    refine hend.elim id fun hrest => ?_
    -- every map was a root, so every map is placed
    have hall : maps ⊆ t.placed := by
      intro m hm
      have hroot : m ∈ done := by
        rw [hrest, append_nil] at hsplit
        exact hsplit ▸ mem_reverse.2 hm
      rw [hO]
      exact (hplaced.traverse.mem_visited.1 (hplaced.traverse.root_mem hroot)).resolve_left
        (hfresh m hm)
    have := (subperm_of_subset hnodup hall).length_le
    have := hready.room
    omega
  have hperm := hready.perm hfull
  refine ⟨t, ?_, hperm, ⟨_, {x | t.visited x = true}, hfresh, ?_⟩, ?_⟩
  · unfold sortPass
    rw [hrun, ok_bind, if_pos hfull]
  · -- the maps the loop did not come to are placed already
    have hrest : ∀ m ∈ rest, t.visited m = true := by
      intro m hm
      have hin : m ∈ maps := mem_reverse.1 (hsplit ▸ mem_append_right done hm)
      exact hready.visited m (hperm.mem_iff.2 hin)
    rw [hsplit, hO]
    exact hplaced.traverse.append (.skips hrest)
  · rw [hplaced.doReldeps, ← hO]
    simp only [t₀, Bool.false_eq_true, false_or, hperm.mem_iff]

/-! ## The two orders -/

theorem moveFirst_spec (hin : first ∈ sorted) :
    moveFirst (some first) sorted = .ok (first :: sorted.erase first) := by
  unfold moveFirst
  split
  · next hhead =>
    cases sorted with
    | nil => cases hin
    | cons m ms =>
      simp only [head?_cons, Option.some.injEq] at hhead
      rw [hhead, erase_cons_head]
  · obtain ⟨i, hi⟩ := Option.isSome_iff_exists.1 (isSome_idxOf?.2 hin)
    simp only [erase_eq_eraseIdx, hi, eraseIdx_eq_take_drop_succ]

/-- Moving a map that nothing depends on to the front keeps the order of the others. -/
theorem sublist_moveFirst {m d : α} (hsub : [m, d].Sublist sorted) (hd : d ≠ first) :
    [m, d].Sublist (first :: sorted.erase first) := by
  by_cases hm : m = first
  · subst hm
    refine List.Sublist.cons_cons _ (singleton_sublist.2 ?_)
    exact (mem_erase_of_ne hd).2 (hsub.subset (by simp))
  · have hkeep : [m, d].erase first = [m, d] := erase_of_not_mem (by simp [Ne.symm hm, hd.symm])
    exact (hkeep ▸ hsub.erase first).trans (sublist_cons_self _ _)

/-- What the two passes leave in the array is a reverse postorder of the `l_initfini` graph. -/
theorem secondPass_spec (hpass : Pass objects ref maps t) (hclosed : objects.Closed ref maps)
    (hreal : ∀ m ∈ maps, objects.faked m = false) (hnodup : maps.Nodup)
    (hfuel : maps.length < fuel) :
    ∃ sorted, secondPass objects fuel t = .ok sorted ∧ sorted.Perm maps ∧
      ∃ V V' order, (∀ m ∈ maps, m ∉ V) ∧ Traverse (objects.succ false) V order V' sorted ∧
        (sorted = t.placed ∨ order = t.placed.reverse) := by
  unfold secondPass
  cases hflag : t.doReldeps with
  | true =>
    have hclosed' : objects.Closed false t.placed := by
      intro m hm d hd
      rw [hpass.perm.mem_iff] at hm ⊢
      exact (LinkMaps.Closed.static objects hclosed) m hm d hd
    obtain ⟨t₂, hrun, hpass₂⟩ := sortPass_spec hclosed'
      (fun m hm => hreal m (hpass.perm.mem_iff.1 hm)) (hpass.perm.nodup_iff.2 hnodup)
      (hpass.perm.length_eq ▸ hfuel) t.visited
    obtain ⟨V, V', hfresh, htraverse⟩ := hpass₂.traverse
    refine ⟨t₂.placed, by simp [hrun], hpass₂.perm.trans hpass.perm, V, V', _, ?_, htraverse,
      .inr rfl⟩
    exact fun m hm => hfresh m (hpass.perm.mem_iff.2 hm)
  | false =>
    obtain ⟨V, V', hfresh, htraverse⟩ := hpass.traverse
    refine ⟨t.placed, rfl, hpass.perm, V, V', _, hfresh, htraverse.congr fun x hx => ?_, .inl rfl⟩
    -- no map has relocation dependencies, or they were not looked at
    refine LinkMaps.succ_eq_of_reldeps fun ⟨href, hsome⟩ => ?_
    have := hpass.doReldeps.2 ⟨href, x, hpass.perm.mem_iff.1 hx, hsome⟩
    rw [hflag] at this
    cases this

/-- The second pass keeps the order of the first when that respects the dependencies. -/
theorem secondPass_eq {rpo : List α} (hperm : rpo.Perm maps) (hnodup : maps.Nodup)
    (hfresh : ∀ m ∈ maps, m ∉ V) (hclosed : objects.Closed ref maps)
    (hordered : Respects objects ref maps rpo)
    (h : Traverse (objects.succ false) V rpo.reverse V' sorted) : sorted = rpo := by
  have hback : sorted = rpo.reverse.reverse := by
    refine h.eq_reverse ?_ ?_ fun m hm d hd => ?_
    · exact nodup_reverse.2 (hperm.nodup_iff.2 hnodup)
    · exact fun m hm => hfresh m (hperm.mem_iff.1 (mem_reverse.1 hm))
    · have hm := hperm.mem_iff.1 (mem_reverse.1 hm)
      obtain ⟨hdep, hfollowed⟩ := mem_filter.1 hd
      have hdep : d ∈ objects.deps ref m := objects.deps_false_subset hdep
      by_cases hself : d = m
      · exact .inl hself
      · have hin : d ∈ maps := hclosed.mem_of_followed hm hdep hfollowed
        exact .inr (.inr (hordered m hm d hin ⟨hdep, hself⟩).reverse)
  rw [hback, reverse_reverse]

theorem passes_spec (hclosed : objects.Closed ref maps)
    (hreal : ∀ m ∈ maps, objects.faked m = false) (hnodup : maps.Nodup) (hfuel : maps.length < fuel)
    (visited : α → Bool) : ∃ t sorted, sortPass objects ref fuel maps visited = .ok t ∧
      secondPass objects fuel t = .ok sorted ∧ sorted.Perm maps ∧
      ∀ (r forceFirst : Bool), (r = true → ref = true) → AcyclicOn (objects.deps r) maps →
        objects.Unforced r forceFirst maps → Respects objects r maps sorted := by
  obtain ⟨t, hrun, hpass⟩ := sortPass_spec hclosed hreal hnodup hfuel visited
  obtain ⟨sorted, hrun₂, hperm, V, V', order, hfresh, htraverse, horder⟩ :=
    secondPass_spec hpass hclosed hreal hnodup hfuel
  refine ⟨t, sorted, hrun, hrun₂, hperm, fun r forceFirst href hacyclic hfree => ?_⟩
  cases r with
  | false => exact ordered hreal hperm hfresh htraverse hacyclic hfree
  | true =>
    obtain rfl := href rfl
    obtain ⟨W, W', hfresh₁, htraverse₁⟩ := hpass.traverse
    have hrpo : Respects objects true maps t.placed :=
      ordered hreal hpass.perm hfresh₁ htraverse₁ hacyclic hfree
    rcases horder with rfl | rfl
    · exact hrpo
    · rw [secondPass_eq hpass.perm hnodup hfresh hclosed hrpo htraverse]
      exact hrpo

/-- Over a list of different maps that are no placeholders and that has the dependencies of its
maps, the sort ends without a failed assertion with a permutation of the list, the first map in
front if that is asked for. Each map comes before its dependencies when those form no cycle and are
neither the forced first map nor the main map; with relocation dependencies the same holds of
these. -/
theorem dlSortMapsDfs_sorts (objects : LinkMaps α) {maps : List α} (forceFirst forFini : Bool)
    (visited : α → Bool) {fuel : Nat} (hfuel : maps.length < fuel) (hnodup : maps.Nodup)
    (hreal : ∀ m ∈ maps, objects.faked m = false) (hclosed : objects.Closed forFini maps) :
    ∃ sorted, dlSortMapsDfs objects fuel visited maps forceFirst forFini = .ok sorted ∧
      sorted.Perm maps ∧
      (forceFirst = true → sorted.head? = maps.head?) ∧
      (AcyclicOn (objects.deps false) maps → objects.Unforced false forceFirst maps →
        Respects objects false maps sorted) ∧
      (forFini = true → AcyclicOn (objects.deps true) maps → objects.Unforced true forceFirst maps →
        Respects objects true maps sorted) := by
  obtain ⟨t, sorted, hrun, hrun₂, hperm, horder⟩ :=
    passes_spec hclosed hreal hnodup hfuel visited
  unfold dlSortMapsDfs
  simp only [hrun, hrun₂, ok_bind]
  cases forceFirst with
  | false =>
    refine ⟨sorted, rfl, hperm, fun h => (nomatch h), ?_, fun hfini => ?_⟩
    · exact horder false false (fun h => (nomatch h))
    · exact horder true false fun _ => hfini
  | true =>
    cases hhead : maps.head? with
    | none =>
      obtain rfl := head?_eq_none_iff.1 hhead
      obtain rfl := perm_nil.1 hperm
      exact ⟨[], rfl, hperm, fun _ => rfl, fun _ _ m hm => (nomatch hm),
        fun _ _ _ m hm => (nomatch hm)⟩
    | some first =>
      have hin : first ∈ sorted := hperm.mem_iff.2 (mem_of_head? hhead)
      have hmove : ∀ r : Bool, (r = true → forFini = true) → AcyclicOn (objects.deps r) maps →
          objects.Unforced r true maps → Respects objects r maps (first :: sorted.erase first) := by
        intro r href hacyclic hfree m hm d hd hedge
        refine sublist_moveFirst (horder r true href hacyclic hfree m hm d hd hedge) ?_
        rintro rfl
        exact (hfree m hm d hedge).2 rfl hhead
      refine ⟨first :: sorted.erase first, moveFirst_spec hin, ?_,
        fun _ => rfl, ?_, fun hfini => ?_⟩
      · exact (perm_cons_erase hin).symm.trans hperm
      · exact hmove false fun h => (nomatch h)
      · exact hmove true fun _ => hfini

/-- A program `0` that needs `1` and `2`, where `1` needs `2` and `2` was found to use `3`. -/
def chain : LinkMaps Nat where
  initfini
    | 0 => some [0, 1, 2]
    | 1 => some [1, 2]
    | _ => none
  reldeps
    | 2 => some [3]
    | _ => none
  faked _ := false
  mainMap m := m == 0

theorem chain_edge {m d : Nat} (h : Edge (chain.deps true) m d) : m < d := by
  obtain ⟨hd, hne⟩ := h
  match m with
  | 0 => omega
  | 1 => simp [chain, LinkMaps.deps, LinkMaps.relocs] at hd; omega
  | 2 => simp [chain, LinkMaps.deps, LinkMaps.relocs] at hd; omega
  | m + 3 => simp [chain, LinkMaps.deps, LinkMaps.relocs] at hd

theorem chain_acyclic (maps : List Nat) : AcyclicOn (chain.deps true) maps := by
  have hless : ∀ m d, Relation.TransGen (Edge (chain.deps true)) m d → m < d := by
    intro m d h
    induction h with
    | single h => exact chain_edge h
    | tail _ h ih => exact ih.trans (chain_edge h)
  exact fun m _ h => lt_irrefl m (hless m m h)

theorem chain_unforced : chain.Unforced true true [0, 3, 2, 1] := by
  intro m _ d hedge
  have hless := chain_edge hedge
  refine ⟨?_, fun _ hd => ?_⟩
  · simp only [chain, beq_eq_false_iff_ne]
    omega
  · simp only [head?_cons, Option.some.injEq] at hd
    omega

theorem dlSortMapsDfs_sorts_chain :
    ∃ sorted, dlSortMapsDfs chain 5 (fun _ => true) [0, 3, 2, 1] true true = .ok sorted ∧
      sorted.Perm [0, 3, 2, 1] ∧ sorted.head? = some 0 ∧
      Respects chain true [0, 3, 2, 1] sorted := by
  have hclosed : chain.Closed true [0, 3, 2, 1] := by
    unfold LinkMaps.Closed
    decide
  have hfuel : [0, 3, 2, 1].length < 5 := by decide
  obtain ⟨sorted, hrun, hperm, hfirst, -, hrel⟩ := dlSortMapsDfs_sorts chain true true
    (fun _ => true) hfuel (by decide) (fun _ _ => rfl) hclosed
  exact ⟨sorted, hrun, hperm, hfirst rfl, hrel rfl (chain_acyclic _) chain_unforced⟩

example : dlSortMapsDfs chain 5 (fun _ => true) [0, 3, 2, 1] true true = .ok [0, 1, 2, 3] := by
  rfl

def placeholder : LinkMaps Unit where
  initfini _ := none
  reldeps _ := none
  faked _ := true
  mainMap _ := false

/-- A placeholder in the list is never placed, so the assertion after the loop fails. -/
theorem dlSortMapsDfs_placeholder : placeholder.Closed true [()] ∧
    ∀ fuel, dlSortMapsDfs placeholder (fuel + 1) (fun _ => false) [()] false true
      = .error .assertion :=
  ⟨fun _ _ _ hd => (nomatch hd), fun _ => rfl⟩

end SafeLibc.Ldso.SortMaps
