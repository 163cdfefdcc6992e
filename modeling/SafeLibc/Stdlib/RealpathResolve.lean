import SafeLibc.Stdlib.Realpath

/-!
# `realpath` resolves names

The loop of `realpath_stk` follows `Lib.resolve`: `rname` is the name of the path that the
resolution has reached (`Holds`), and the text that is left has the steps that are left. The two
differ at a file that is not the end of the name: the resolution stops there at once, and the loop
only when it asks for a name below the file, or in `dir_check` when no such name comes (`needsDir`).
`loop_spec` is the simulation.
-/

namespace SafeLibc.Stdlib.Realpath

open SafeLibc.Lib List

/-! ## Steps of a text -/

theorem steps_nil : steps [] = [] := by
  rw [steps, components_of_empty rfl]
  rfl

variable {s rest e : Str} {p : List Str} {limit : Nat}

theorem getLast?_ne_of_not_mem (h : slash ∉ s) : s.getLast? ≠ some slash :=
  fun hlast => h (mem_of_getLast? hlast)

theorem getLast?_afterComponent (h : component slash s ≠ []) :
    s.getLast? = some slash ↔ (afterComponent slash s).getLast? = some slash := by
  have hsplit : s = (s.takeWhile fun b => b = slash) ++
      (component slash s ++ afterComponent slash s) := by
    rw [component_append_afterComponent]
    exact takeWhile_append_dropWhile.symm
  have hlast : s.getLast? = (component slash s ++ afterComponent slash s).getLast? := by
    conv_lhs => rw [hsplit]
    exact getLast?_append_of_ne_nil _ (by simp [h])
  rw [hlast]
  by_cases hafter : afterComponent slash s = []
  · simp [getLast?_ne_of_not_mem (not_mem_component slash s)]
  · rw [getLast?_append_of_ne_nil _ hafter]

theorem steps_of_ne (h : component slash s ≠ []) :
    steps s = parseStep (component slash s) :: steps (afterComponent slash s) := by
  simp only [steps, components_of_ne h, getLast?_afterComponent h, map_cons, cons_append]

theorem steps_slashes (h : component slash s = []) (hne : s ≠ []) : steps s = [.here] := by
  have hlast : s.getLast? = some slash := by
    rw [getLast?_eq_some_getLast hne,
      all_of_component_eq_nil h _ (getLast_mem hne)]
  rw [steps, components_of_empty h, if_pos hlast]
  rfl

theorem steps_ne_nil (hne : s ≠ []) : steps s ≠ [] := by
  by_cases h : component slash s = []
  · rw [steps_slashes h hne]
    exact cons_ne_nil _ _
  · rw [steps_of_ne h]
    exact cons_ne_nil _ _

/-- **Splicing loses and repeats no step**: before a rest at a boundary a target has its own
steps. -/
theorem resolve_splice {tree : List Str → Option (FileNode Str)} {links : Nat} (target : Str)
    (hrest : rest = [] ∨ rest.head? = some slash) :
    resolve tree limit p (steps (target ++ rest)) links =
      resolve tree limit p (steps target ++ steps rest) links := by
  by_cases hnil : rest = []
  · rw [hnil, append_nil, steps_nil, append_nil]
  · have hsteps : steps (target ++ rest) =
        (components slash target).map parseStep ++ steps rest := by
      simp only [steps, components_append hrest, getLast?_append_of_ne_nil _ hnil,
        map_append, append_assoc]
    rw [hsteps, steps.eq_def target]
    split
    · rw [append_assoc, cons_append, nil_append,
        resolve_here_before _ (steps_ne_nil hnil)]
    · rw [append_nil]

/-! ## The check for directories -/

/-- Steps before which a file is noticed at once: no name comes before they end or go up. -/
def needsDir : List (PathStep Str) → Bool
  | [] => false
  | .up :: _ => true
  | .name _ :: _ => false
  | .here :: todo => todo = [] || needsDir todo

theorem parseStep_name {c : Str} (hdot : c ≠ dot) (hdotDot : c ≠ dotDot) :
    parseStep c = .name c := by
  rw [parseStep, if_neg hdot, if_neg hdotDot]

/-- The component that starts with the first character that is no slash. -/
theorem component_of_dropWhile {ch : UInt8} (h : (e.dropWhile fun b => b = slash) = ch :: rest) :
    component slash e = ch :: rest.takeWhile (fun b => b ≠ slash) ∧
      afterComponent slash e = rest.dropWhile fun b => b ≠ slash := by
  have hch : ch ≠ slash := by
    have := head?_dropWhile_not (fun b => decide (b = slash)) e
    rw [h] at this
    simpa using this
  rw [component, afterComponent, h, takeWhile_cons_of_pos (by simpa using hch),
    dropWhile_cons_of_pos (by simpa using hch)]
  exact ⟨rfl, rfl⟩

theorem boundary_of_takeWhile_eq_nil (h : (s.takeWhile fun b => b ≠ slash) = []) :
    s = [] ∨ s.head? = some slash := by
  cases s with
  | nil => exact .inl rfl
  | cons b s =>
    by_cases hb : b = slash
    · exact .inr (congrArg some hb)
    · rw [takeWhile_cons_of_pos (by simpa using hb)] at h
      cases h

theorem suffixRequiresDirCheck_eq (he : e = [] ∨ e.head? = some slash) :
    suffixRequiresDirCheck e = needsDir (steps e) := by
  fun_induction suffixRequiresDirCheck e with
  | case1 e hslash comp hcomp =>
    have hne : e ≠ [] := by
      rintro rfl
      cases hslash
    have hnone : component slash e = [] := by
      rw [component, show (e.dropWhile fun b => decide (b = slash)) = [] from hcomp]
      rfl
    rw [steps_slashes hnone hne]
    rfl
  | case2 e hslash comp hcomp hdot =>
    obtain ⟨ch, rest, hcons⟩ := exists_cons_of_ne_nil hcomp
    obtain ⟨hfirst, -⟩ := component_of_dropWhile hcons
    have hch : ch ≠ byte '.' := by
      rintro rfl
      exact hdot (by rw [hcons]; rfl)
    -- an ordinary component
    rw [steps_of_ne (by simp [hfirst]), parseStep_name]
    · rfl
    · rw [hfirst]
      exact fun heq => hch (head_eq_of_cons_eq heq)
    · rw [hfirst]
      exact fun heq => hch (head_eq_of_cons_eq heq)
  | case3 e hslash comp hcomp hdot hend =>
    obtain ⟨ch, rest, hcons⟩ := exists_cons_of_ne_nil hcomp
    obtain ⟨hfirst, hafter⟩ := component_of_dropWhile hcons
    rw [show comp = ch :: rest from hcons] at hdot hend
    obtain rfl : ch = byte '.' := by simpa using hdot
    rw [steps_of_ne (by simp [hfirst]), hfirst, hafter]
    rcases hend with hnil | ⟨hsecond, hboundary⟩
    · obtain rfl : rest = [] := hnil
      simp [parseStep, dot, needsDir, steps_nil]
    · obtain ⟨rest', rfl⟩ := head?_eq_some_iff.1 hsecond
      rw [tail_cons, tail_cons] at hboundary
      rw [takeWhile_cons_of_pos (by decide), (takeWhile_of_boundary hboundary).1]
      rfl
  | case4 e hslash comp hcomp hdot hend ih =>
    obtain ⟨ch, rest, hcons⟩ := exists_cons_of_ne_nil hcomp
    obtain ⟨hfirst, hafter⟩ := component_of_dropWhile hcons
    rw [show comp = ch :: rest from hcons] at hdot hend ih ⊢
    obtain rfl : ch = byte '.' := by simpa using hdot
    rw [tail_cons] at hend ih ⊢
    rw [steps_of_ne (by simp [hfirst]), hfirst, hafter]
    by_cases hboundary : rest = [] ∨ rest.head? = some slash
    · -- a component that stays; what follows decides
      rw [ih hboundary, (takeWhile_of_boundary hboundary).1,
        (takeWhile_of_boundary hboundary).2]
      have hne : rest ≠ [] := fun hnil => hend (.inl hnil)
      simp [parseStep, dot, needsDir, steps_ne_nil hne]
    · have hfalse : suffixRequiresDirCheck rest = false := by
        rw [suffixRequiresDirCheck, if_neg fun hhead => hboundary (.inr hhead)]
      have hne : (rest.takeWhile fun b => b ≠ slash) ≠ [] :=
        fun hnil => hboundary (boundary_of_takeWhile_eq_nil hnil)
      rw [hfalse, parseStep_name]
      · rfl
      · exact fun heq => hne (tail_eq_of_cons_eq heq)
      · intro heq
        have htail : (rest.takeWhile fun b => b ≠ slash) = [byte '.'] := tail_eq_of_cons_eq heq
        cases rest with
        | nil => exact hne rfl
        | cons b rest =>
          have hb : b ≠ slash := fun hb => hboundary (.inr (congrArg some hb))
          rw [takeWhile_cons_of_pos (by simpa using hb)] at htail
          refine hend (.inr ⟨congrArg some (head_eq_of_cons_eq htail), ?_⟩)
          exact boundary_of_takeWhile_eq_nil (tail_eq_of_cons_eq htail)
  | case5 e hslash =>
    rw [he.resolve_right hslash, steps_nil]
    rfl

/-! ## The name that is built -/

/-- `rname` is the name of the path, maybe with a slash after it. -/
def Holds (rname : Str) (p : List Str) : Prop :=
  rname = joined slash p ++ [slash] ∨ p ≠ [] ∧ rname = joined slash p

theorem joined_concat (p : List Str) (c : Str) :
    joined slash (p ++ [c]) = joined slash p ++ slash :: c := by
  simp [joined]

theorem joined_ne_nil (hp : p ≠ []) : joined slash p ≠ [] := by
  cases p with
  | nil => exact absurd rfl hp
  | cons c p => simp [joined]

theorem getLast?_joined (hp : p ≠ []) (hnames : ∀ c ∈ p, ValidName c) :
    (joined slash p).getLast? ≠ some slash := by
  obtain ⟨q, c, rfl⟩ := (eq_nil_or_concat' p).resolve_left hp
  have hc := hnames c (mem_append_right _ mem_cons_self)
  rw [joined_concat, append_cons, getLast?_append_of_ne_nil _ hc.ne_nil]
  exact getLast?_ne_of_not_mem hc.no_slash

section Names

variable {rname : Str} {p : List Str}

theorem Holds.append (h : Holds rname p) (hnames : ∀ c ∈ p, ValidName c) (c : Str) :
    (if rname.getLast? = some slash then rname else rname ++ [slash]) ++ c =
      joined slash (p ++ [c]) := by
  rw [joined_concat]
  rcases h with rfl | ⟨hp, rfl⟩
  · simp
  · rw [if_neg (getLast?_joined hp hnames)]
    simp

theorem strip_append {s c : Str} (hc : slash ∉ c) :
    ((s ++ slash :: c).reverse.dropWhile fun b => b ≠ slash).reverse = s ++ [slash] := by
  have hall : ∀ b ∈ c.reverse, decide (b ≠ slash) = true := by
    intro b hb
    simpa using fun heq : b = slash => hc (heq ▸ mem_reverse.1 hb)
  rw [reverse_append, reverse_cons, append_assoc,
    dropWhile_append_of_pos hall, singleton_append]
  simp

theorem Holds.backUp (h : Holds rname p) (hnames : ∀ c ∈ p, ValidName c) :
    Holds (backUp rname) p.dropLast := by
  unfold Realpath.backUp
  by_cases hp : p = []
  · obtain rfl : rname = [slash] := by
      rcases h with h | ⟨hne, -⟩
      · rwa [hp] at h
      · exact absurd hp hne
    rw [if_neg (by decide), hp]
    exact .inl rfl
  · obtain ⟨q, c, rfl⟩ := (eq_nil_or_concat' p).resolve_left hp
    have hc := hnames c (mem_append_right _ mem_cons_self)
    have hlen := length_pos_iff.2 hc.ne_nil
    rw [dropLast_concat]
    left
    rcases h with rfl | ⟨-, rfl⟩
    · rw [if_pos (by simp [joined_concat]; omega), dropLast_concat, joined_concat,
        strip_append hc.no_slash]
    · rw [if_pos (by simp [joined_concat]; omega), joined_concat, append_cons,
        dropLast_append_of_ne_nil hc.ne_nil, ← append_cons,
        strip_append fun hmem => hc.no_slash ((dropLast_sublist c).subset hmem)]

theorem Holds.final (h : Holds rname p) (hnames : ∀ c ∈ p, ValidName c) :
    (if rname.length > 1 ∧ rname.getLast? = some slash then rname.dropLast else rname) =
      pathString p := by
  unfold pathString
  by_cases hp : p = []
  · rcases h with h | ⟨hne, -⟩
    · rw [h, hp]
      rfl
    · exact absurd hp hne
  · have hpos := length_pos_iff.2 (joined_ne_nil hp)
    rw [if_neg hp]
    rcases h with rfl | ⟨-, rfl⟩
    · rw [if_pos (by simp; omega), dropLast_concat]
    · rw [if_neg fun h => getLast?_joined hp hnames h.2]

theorem holds_pathString (p : List Str) : Holds (pathString p) p := by
  unfold pathString
  split
  · next hp =>
    left
    rw [hp]
    rfl
  · next hp => exact .inr ⟨hp, rfl⟩

end Names

/-! ## System calls on such names -/

section

variable (hnames : ∀ c ∈ p, ValidName c)
include hnames

theorem components_names : components slash (joined slash p) = p :=
  components_joined fun c hc => ⟨(hnames c hc).ne_nil, (hnames c hc).no_slash⟩

theorem map_parseStep : p.map parseStep = p.map .name :=
  map_congr_left fun c hc => parseStep_name (hnames c hc).ne_dot (hnames c hc).ne_dotDot

theorem steps_names : steps (joined slash p) = p.map .name := by
  have hlast : (joined slash p).getLast? ≠ some slash := by
    by_cases hp : p = []
    · rw [hp]
      simp [joined]
    · exact getLast?_joined hp hnames
  rw [steps, components_names hnames, if_neg hlast, append_nil, map_parseStep hnames]

theorem steps_names_slash :
    steps (joined slash p ++ [slash]) = p.map .name ++ [.here] := by
  have hempty : component slash [slash] = [] := by decide
  have hcomponents : components slash (joined slash p ++ [slash]) = p := by
    rw [components_append (.inr rfl), components_names hnames, components_of_empty hempty,
      append_nil]
  rw [steps, hcomponents, if_pos (by simp), map_parseStep hnames]

end

section Calls

variable {fs : FileSystem} {kernelLimit : Nat} {p : List Str} {c : Str}
  (hnames : ∀ c ∈ p, ValidName c) (hc : ValidName c) (hp : Canonical fs.tree p)

variable {q : List Str}

theorem tree_eq_dir : fs.tree q = some .dir ↔ fs.node q = some .dir := by
  unfold FileSystem.tree
  cases hnode : fs.node q with
  | none => simp
  | some node => cases node <;> simp [Node.parsed]

theorem tree_eq_file : fs.tree q = some .file ↔ fs.node q = some .file := by
  unfold FileSystem.tree
  cases hnode : fs.node q with
  | none => simp
  | some node => cases node <;> simp [Node.parsed]

include hnames hc

theorem valid_append : ∀ d ∈ p ++ [c], ValidName d := by
  intro d hd
  rcases mem_append.1 hd with hd | hd
  · exact hnames d hd
  · rw [mem_singleton.1 hd]
    exact hc

include hp

theorem readlink_joined :
    fs.readlink kernelLimit (joined slash (p ++ [c])) =
      match fs.node p with
      | some .dir =>
        match fs.node (p ++ [c]) with
        | none => .error .enoent
        | some (.link target) => .ok target
        | some _ => .error .einval
      | _ => .error .enotdir := by
  have hwalk := hp.resolve_names kernelLimit [] 0
  rw [append_nil, resolve_nil] at hwalk
  have habsolute : isAbsolute (joined slash (p ++ [c])) = true := by
    cases p <;> simp [joined, isAbsolute]
  rw [FileSystem.readlink, if_neg (joined_ne_nil (by simp)), steps_names (valid_append hnames hc),
    FileSystem.base, habsolute, if_pos rfl, map_append, map_singleton,
    dropLast_concat, hwalk]
  simp only [Except.mapError, getLast?_concat]
  cases fs.node p with
  | none => rfl
  | some node => cases node <;> rfl

theorem access_joined :
    fs.access kernelLimit (joined slash (p ++ [c]) ++ [slash]) =
      ((resolve fs.tree kernelLimit p [.name c, .here] 0).mapError errnoOf).map fun _ => () := by
  have habsolute : isAbsolute (joined slash (p ++ [c]) ++ [slash]) = true := by
    cases p <;> simp [joined, isAbsolute]
  rw [FileSystem.access, FileSystem.resolveName, if_neg (by simp), FileSystem.base, habsolute,
    if_pos rfl, steps_names_slash (valid_append hnames hc), map_append, map_singleton,
    append_assoc, singleton_append, hp.resolve_names]

end Calls

/-! ## The loop -/

section Loop

variable {fs : FileSystem} {kernelLimit threshold : Nat} {rname : Str}
  {text : Text} {numLinks : Nat}
  {p : List Str}

/-- A canonical path, which is a file only where the text does not ask for a directory at once. -/
structure Reached (fs : FileSystem) (rname : Str) (text : Text) (p : List Str) : Prop where
  holds : Holds rname p
  names : ∀ c ∈ p, ValidName c
  canonical : Canonical fs.tree p
  checked : fs.tree p = some .file → needsDir (steps text.chars) = false

def Ended.Agrees : Ended → Except ResolveError (List Str) → Prop
  | .done rname, .ok p => Holds rname p
  | .failed errno _, .error e => errno = errnoOf e
  | _, _ => False

variable {rest : Text} {c : Str} {q : List Str}

theorem Reached.next (h : Reached fs rname text p) (hc : ValidName c) (hdir : fs.tree p = some .dir)
    (hchild : fs.tree (p ++ [c]) = some .dir ∨ fs.tree (p ++ [c]) = some .file)
    (hchecked : fs.tree (p ++ [c]) = some .file → needsDir (steps rest.chars) = false) :
    Reached fs (joined slash (p ++ [c])) rest (p ++ [c]) :=
  ⟨.inr ⟨by simp, rfl⟩, valid_append h.names hc, h.canonical.append hdir hchild, hchecked⟩

/-- What a turn does to the resolution: it goes on from where the resolution does, or both end. -/
def TurnAgrees (fs : FileSystem) (threshold : Nat) (p : List Str) (text : Text) (numLinks : Nat) :
    Turn → Prop
  | .next rname' text' numLinks' =>
    ∃ p', Reached fs rname' text' p' ∧
      resolve fs.tree threshold p (steps text.chars) numLinks =
        resolve fs.tree threshold p' (steps text'.chars) numLinks'
  | .done rname' =>
    Holds rname' p ∧ resolve fs.tree threshold p (steps text.chars) numLinks = .ok p
  | .fail errno _ =>
    ∃ e, errno = errnoOf e ∧ resolve fs.tree threshold p (steps text.chars) numLinks = .error e

theorem ne_dir_of_file (h : fs.tree q = some .file) : fs.tree q ≠ some .dir := by
  rw [h]
  exact nofun

theorem reached_dir (hholds : Holds rname p) (hnames : ∀ c ∈ p, ValidName c)
    (hcanonical : Canonical fs.tree p) (hdir : fs.tree p = some .dir) : Reached fs rname text p :=
  ⟨hholds, hnames, hcanonical, fun hfile => absurd hdir (ne_dir_of_file hfile)⟩

theorem reached_root : Reached fs [slash] text [] :=
  reached_dir (.inl rfl) (fun _ hc => absurd hc not_mem_nil) (.root (tree_eq_dir.2 fs.root_dir))
    (tree_eq_dir.2 fs.root_dir)

section

variable (h : Reached fs rname text p)

include h

theorem Reached.dir_of_needsDir (hneeds : needsDir (steps text.chars) = true) :
    fs.tree p = some .dir := by
  refine h.canonical.node.resolve_right fun hfile => ?_
  rw [h.checked hfile] at hneeds
  cases hneeds

section

variable (hc : ValidName c) (hboundary : rest.chars = [] ∨ rest.chars.head? = some slash)
  (hsteps : steps text.chars = .name c :: steps rest.chars)
include hc hboundary hsteps

theorem link_agrees (hdir : fs.tree p = some .dir)
    {target : CString} (hlink : fs.node (p ++ [c]) = some (.link target))
    (hlimit : numLinks < threshold) : TurnAgrees fs threshold p text numLinks
      (.next (if isAbsolute target.1 then [slash] else backUp (joined slash (p ++ [c])))
        (rest.splice target.1) (numLinks + 1)) := by
  have htree : fs.tree (p ++ [c]) = some (.link (isAbsolute target.1) (steps target.1)) := by
    rw [FileSystem.tree, hlink]
    rfl
  have hresolve : resolve fs.tree threshold p (steps text.chars) numLinks =
      resolve fs.tree threshold (linkBase (isAbsolute target.1) p)
        (steps (rest.splice target.1).chars) (numLinks + 1) := by
    rw [hsteps, resolve_link hdir htree, if_pos hlimit, Text.chars_splice _ target.2,
      resolve_splice _ hboundary]
  refine ⟨_, ?_, hresolve⟩
  unfold linkBase
  split
  · exact reached_root
  · have hholds : Holds (joined slash (p ++ [c])) (p ++ [c]) := .inr ⟨by simp, rfl⟩
    have hbackUp := hholds.backUp (valid_append h.names hc)
    rw [dropLast_concat] at hbackUp
    exact reached_dir hbackUp h.names h.canonical hdir

theorem ordinary_agrees :
    TurnAgrees fs threshold p text numLinks
      (ordinary fs kernelLimit threshold rname c rest numLinks) := by
  unfold ordinary
  rw [h.holds.append h.names c, suffixRequiresDirCheck_eq hboundary]
  dsimp only
  rw [readlink_joined h.names hc h.canonical, access_joined h.names hc h.canonical]
  rcases h.canonical.node with hdir | hfile
  · rw [tree_eq_dir.1 hdir]
    cases hchild : fs.node (p ++ [c]) with
    | none =>
      have hmissing : fs.tree (p ++ [c]) = none := by
        rw [FileSystem.tree, hchild]
        rfl
      rw [resolve_missing hdir hmissing]
      simp only [Except.mapError, Except.map, errnoOf, reduceCtorEq, if_false, ite_self]
      exact ⟨.missing, rfl, by rw [hsteps, resolve_missing hdir hmissing]⟩
    | some node =>
      cases node with
      | dir =>
        have hsub := tree_eq_dir.2 hchild
        rw [resolve_name hdir (.inl hsub), resolve_here hsub, resolve_nil]
        simp only [Except.mapError, Except.map, if_true, ite_self]
        refine ⟨p ++ [c], h.next hc hdir (.inl hsub) ?_,
          by rw [hsteps, resolve_name hdir (.inl hsub)]⟩
        exact fun hfile => absurd hsub (ne_dir_of_file hfile)
      | file =>
        have hsub := tree_eq_file.2 hchild
        have hresolve : resolve fs.tree threshold p (steps text.chars) numLinks =
            resolve fs.tree threshold (p ++ [c]) (steps rest.chars) numLinks := by
          rw [hsteps, resolve_name hdir (.inr hsub)]
        rw [resolve_name hdir (.inr hsub), resolve_not_dir (ne_dir_of_file hsub)]
        simp only [Except.mapError]
        split
        · next hneeds =>
          obtain ⟨step, todo, htodo⟩ : ∃ step todo, steps rest.chars = step :: todo := by
            apply exists_cons_of_ne_nil
            intro hnil
            rw [hnil] at hneeds
            cases hneeds
          refine ⟨.notDirectory, rfl, ?_⟩
          rw [hresolve, htodo, resolve_not_dir (ne_dir_of_file hsub)]
        · next hneeds =>
          exact ⟨p ++ [c], h.next hc hdir (.inr hsub) fun _ => by simpa using hneeds, hresolve⟩
      | link target =>
        dsimp only
        split
        · next hlimit =>
          have htree : fs.tree (p ++ [c]) =
              some (.link (isAbsolute target.1) (steps target.1)) := by
            rw [FileSystem.tree, hchild]
            rfl
          refine ⟨.tooManyLinks, rfl, ?_⟩
          rw [hsteps, resolve_link hdir htree, if_neg (by omega)]
        · next hlimit => exact link_agrees h hc hboundary hsteps hdir hchild (by omega)
  · rw [tree_eq_file.1 hfile, resolve_not_dir (ne_dir_of_file hfile)]
    simp only [Except.mapError, Except.map, errnoOf, reduceCtorEq, if_false, ite_self]
    refine ⟨.notDirectory, rfl, ?_⟩
    rw [hsteps, resolve_not_dir (ne_dir_of_file hfile)]

end

theorem dot_agrees (hsteps : steps text.chars = .here :: steps rest.chars) :
    TurnAgrees fs threshold p text numLinks (.next rname rest numLinks) := by
  rcases h.canonical.node with hdir | hfile
  · exact ⟨p, reached_dir h.holds h.names h.canonical hdir, by rw [hsteps, resolve_here hdir]⟩
  · -- the resolution fails at once, and also after the step
    have hchecked := h.checked hfile
    rw [hsteps, needsDir, Bool.or_eq_false_iff] at hchecked
    obtain ⟨step, todo, htodo⟩ :=
      exists_cons_of_ne_nil (show steps rest.chars ≠ [] by simpa using hchecked.1)
    refine ⟨p, ⟨h.holds, h.names, h.canonical, fun _ => hchecked.2⟩, ?_⟩
    rw [hsteps, resolve_not_dir (ne_dir_of_file hfile), htodo,
      resolve_not_dir (ne_dir_of_file hfile)]

theorem dotDot_agrees (hsteps : steps text.chars = .up :: steps rest.chars) :
    TurnAgrees fs threshold p text numLinks (.next (backUp rname) rest numLinks) := by
  have hdir : fs.tree p = some .dir := h.dir_of_needsDir (by rw [hsteps]; rfl)
  have hfront := dropLast_prefix p
  have hparent := h.canonical.dir_of_prefix hdir hfront
  refine ⟨p.dropLast, reached_dir (h.holds.backUp h.names) ?_ (h.canonical.dropLast hdir) hparent,
    ?_⟩
  · exact fun c hc => h.names c ((dropLast_sublist p).subset hc)
  · rw [hsteps, resolve_up hdir]

end

variable (kernelLimit threshold numLinks) in
/-- **One turn.** -/
theorem turn_agrees (h : Reached fs rname text p) (hne : text.chars ≠ []) :
    TurnAgrees fs threshold p text numLinks
      (turn fs kernelLimit threshold rname text numLinks) := by
  obtain ⟨rest, hrest, hturn⟩ := turn_eq fs kernelLimit threshold rname text numLinks
  rw [hturn]
  by_cases hnone : component slash text.chars = []
  · have hsteps := steps_slashes hnone hne
    have hdir : fs.tree p = some .dir := h.dir_of_needsDir (by rw [hsteps]; rfl)
    rw [if_pos hnone]
    exact ⟨h.holds, by rw [hsteps, resolve_here hdir, resolve_nil]⟩
  have hsteps := steps_of_ne hnone
  rw [← hrest] at hsteps
  rw [if_neg hnone]
  by_cases hdot : component slash text.chars = dot
  · rw [if_pos hdot]
    exact dot_agrees h (by rw [hsteps, hdot]; rfl)
  rw [if_neg hdot]
  by_cases hdotDot : component slash text.chars = dotDot
  · rw [if_pos hdotDot]
    exact dotDot_agrees h (by rw [hsteps, hdotDot]; rfl)
  · rw [if_neg hdotDot]
    apply ordinary_agrees h ⟨hnone, not_mem_component slash _, hdot, hdotDot⟩
    · rw [hrest]
      exact afterComponent_boundary slash text.chars
    · rw [hsteps, parseStep_name hdot hdotDot]

variable (kernelLimit threshold numLinks) in
/-- **The whole loop** ends as the resolution of the text does. -/
theorem loop_agrees (h : Reached fs rname text p) :
    (loop fs kernelLimit threshold rname text numLinks).Agrees
      (resolve fs.tree threshold p (steps text.chars) numLinks) := by
  fun_induction loop fs kernelLimit threshold rname text numLinks generalizing p with
  | case1 rname text numLinks hnil =>
    rw [hnil, steps_nil, resolve_nil]
    exact h.holds
  | case2 rname text numLinks hne rname' text' numLinks' hturn ih =>
    have hagrees := turn_agrees kernelLimit threshold numLinks h hne
    rw [hturn] at hagrees
    obtain ⟨p', hreached, hresolve⟩ := hagrees
    rw [hresolve]
    exact ih hreached
  | case3 rname text numLinks hne rname' hturn =>
    have hagrees := turn_agrees kernelLimit threshold numLinks h hne
    rw [hturn] at hagrees
    rw [hagrees.2]
    exact hagrees.1
  | case4 rname text numLinks hne errno rname' hturn =>
    have hagrees := turn_agrees kernelLimit threshold numLinks h hne
    rw [hturn] at hagrees
    obtain ⟨e, herrno, hresolve⟩ := hagrees
    rw [hresolve]
    exact herrno

end Loop

/-! ## The function -/

theorem reached_start (fs : FileSystem) (name : CString) :
    Reached fs (if isAbsolute name.1 then [slash] else pathString fs.cwd) ⟨name, [], false, 0⟩
      (fs.base name.1) := by
  unfold FileSystem.base
  split
  · exact reached_root
  · have hdir : fs.tree fs.cwd = some .dir := tree_eq_dir.2 (fs.cwd_dir _ (prefix_refl _))
    exact reached_dir (holds_pathString _) fs.cwd_names
      ⟨fun q hq _ => tree_eq_dir.2 (fs.cwd_dir q hq), .inl hdir⟩ hdir

/-- The names in the steps of a text are names of entries. -/
theorem named_steps (s : Str) : Named ValidName (steps s) := by
  induction hn : s.length using Nat.strongRecOn generalizing s with
  | ind n ih =>
    intro c hc
    by_cases hnone : component slash s = []
    · by_cases hs : s = []
      · rw [hs, steps_nil] at hc
        exact absurd hc not_mem_nil
      · rw [steps_slashes hnone hs] at hc
        cases mem_singleton.1 hc
    · rw [steps_of_ne hnone] at hc
      rcases mem_cons.1 hc with hc | hc
      · unfold parseStep at hc
        split at hc
        · cases hc
        · next hdot =>
          split at hc
          · cases hc
          · next hdotDot =>
            cases hc
            exact ⟨hnone, not_mem_component slash s, hdot, hdotDot⟩
      · exact ih _ (hn ▸ length_afterComponent_lt hnone) _ rfl c hc

/-- A path that a resolution of a name reaches. -/
theorem canonical_of_resolveName {fs : FileSystem} {name : CString}
    (h : fs.resolveName limit name.1 = .ok p) : Canonical fs.tree p ∧ ∀ c ∈ p, ValidName c := by
  have hstart := reached_start fs name
  unfold FileSystem.resolveName at h
  split at h
  · cases h
  · cases hresolve : resolve fs.tree limit (fs.base name.1) (steps name.1) 0 with
    | error e =>
      rw [hresolve] at h
      cases h
    | ok q =>
      rw [hresolve] at h
      cases h
      refine canonical_of_resolve (tree_eq_dir.2 fs.root_dir) ?_ hstart.canonical hstart.names
        (named_steps _) hresolve
      intro q absolute target hlink
      obtain ⟨node, -, hnode⟩ := Option.map_eq_some_iff.1 hlink
      cases node with
      | dir => cases hnode
      | file => cases hnode
      | link text =>
        cases hnode
        exact named_steps _

/-- What is returned, by the resolution of the name. -/
theorem returned_eq (fs : FileSystem) (kernelLimit threshold pathMax : Nat) (name : CString)
    (resolved : Bool) :
    (realpathStk fs kernelLimit threshold pathMax (some name) resolved).returned =
      match fs.resolveName threshold name.1 with
      | .ok p =>
        if resolved = true ∧ pathMax ≤ (pathString p).length then .error .enametoolong
        else .ok (pathString p)
      | .error e => .error e := by
  by_cases hname : name.1 = []
  · simp only [realpathStk, FileSystem.resolveName, hname, if_true]
  have hagrees := loop_agrees kernelLimit threshold 0 (reached_start fs name)
  rw [show Text.chars ⟨name, [], false, 0⟩ = name.1 from rfl] at hagrees
  have hresolveName : fs.resolveName threshold name.1 =
      (resolve fs.tree threshold (fs.base name.1) (steps name.1) 0).mapError errnoOf := by
    rw [FileSystem.resolveName, if_neg hname]
  simp only [realpathStk, hname, if_false]
  cases hloop : loop fs kernelLimit threshold
      (if isAbsolute name.1 then [slash] else pathString fs.cwd) ⟨name, [], false, 0⟩ 0 with
  | done rname =>
    cases hresolve : resolve fs.tree threshold (fs.base name.1) (steps name.1) 0 with
    | error e =>
      rw [hloop, hresolve] at hagrees
      exact hagrees.elim
    | ok p =>
      rw [hloop, hresolve] at hagrees
      rw [hresolve] at hresolveName
      obtain ⟨-, hnames⟩ := canonical_of_resolveName hresolveName
      rw [hresolveName]
      dsimp only [Except.mapError]
      rw [Holds.final hagrees hnames]
      cases resolved with
      | false => simp
      | true =>
        by_cases hlong : pathMax ≤ (pathString p).length
        · rw [if_pos rfl, if_neg (by omega), if_pos ⟨rfl, hlong⟩]
        · rw [if_pos rfl, if_pos (by omega), if_neg fun h => hlong h.2]
  | failed errno rname =>
    cases hresolve : resolve fs.tree threshold (fs.base name.1) (steps name.1) 0 with
    | error e =>
      rw [hloop, hresolve] at hagrees
      rw [hresolveName, hresolve]
      exact congrArg _ hagrees
    | ok p =>
      rw [hloop, hresolve] at hagrees
      exact hagrees.elim

/-- **`realpath` resolves names.** On every file system and name it returns. A path that it returns
is absolute, has only names of entries as components, leads through directories to a directory or
file that is no link, and is what the resolution of the name reaches; a resolution that reaches
something is returned, unless it does not fit the caller's buffer. An error of the resolution is
returned only where the resolution fails with it. And the target of a link is put before the rest of
the name with all components of both, in order. -/
theorem realpathStk_resolves (fs : FileSystem) (kernelLimit threshold pathMax : Nat)
    (name : CString) (resolved : Bool) :
    (∀ path, (realpathStk fs kernelLimit threshold pathMax (some name) resolved).returned =
      .ok path →
      ∃ p, fs.resolveName threshold name.1 = .ok p ∧ path = pathString p ∧
        path.head? = some slash ∧ components slash path = p ∧ (∀ c ∈ p, ValidName c) ∧
        (∀ q, q <+: p → q ≠ p → fs.node q = some .dir) ∧
        (fs.node p = some .dir ∨ fs.node p = some .file)) ∧
    (∀ p, fs.resolveName threshold name.1 = .ok p →
      (realpathStk fs kernelLimit threshold pathMax (some name) resolved).returned =
        if resolved = true ∧ pathMax ≤ (pathString p).length then .error .enametoolong
        else .ok (pathString p)) ∧
    (∀ e, e = .enoent ∨ e = .enotdir ∨ e = .eloop →
      (realpathStk fs kernelLimit threshold pathMax (some name) resolved).returned = .error e →
      fs.resolveName threshold name.1 = .error e) ∧
    ∀ (rest : Text) (target : CString), rest.chars = [] ∨ rest.chars.head? = some slash →
      (rest.splice target.1).chars = target.1 ++ rest.chars ∧
        components slash (rest.splice target.1).chars =
          components slash target.1 ++ components slash rest.chars := by
  have hreturned := returned_eq fs kernelLimit threshold pathMax name resolved
  refine ⟨fun path hpath => ?_, fun p hp => ?_, fun e he herror => ?_, fun rest target hrest => ?_⟩
  · cases hname : fs.resolveName threshold name.1 with
    | error e =>
      rw [hname, hpath] at hreturned
      cases hreturned
    | ok p =>
      obtain ⟨hcanonical, hnames⟩ := canonical_of_resolveName hname
      rw [hname, hpath] at hreturned
      dsimp only at hreturned
      split at hreturned
      · cases hreturned
      · cases hreturned
        refine ⟨p, rfl, rfl, ?_, ?_, hnames,
          fun q hq hne => tree_eq_dir.1 (hcanonical.dirs q hq hne),
          hcanonical.node.imp tree_eq_dir.1 tree_eq_file.1⟩
        · cases p <;> rfl
        · unfold pathString
          split
          · next hp => rw [hp, components_of_empty (by decide)]
          · exact components_names hnames
  · rw [hreturned, hp]
  · cases hname : fs.resolveName threshold name.1 with
    | error e' =>
      rw [hname, herror] at hreturned
      cases hreturned
      rfl
    | ok p =>
      rw [hname, herror] at hreturned
      dsimp only at hreturned
      split at hreturned
      · cases hreturned
        rcases he with he | he | he <;> cases he
      · cases hreturned
  · have hsplice := rest.chars_splice target.2
    exact ⟨hsplice, by rw [hsplice, components_append hrest]⟩

theorem resolveName_pathString {fs : FileSystem} {p : List Str} (limit : Nat)
    (hcanonical : Canonical fs.tree p) (hnames : ∀ c ∈ p, ValidName c) :
    fs.resolveName limit (pathString p) = .ok p := by
  cases p with
  | nil =>
    have hsteps : steps [slash] = [.here] := steps_names_slash hnames
    rw [pathString, if_pos rfl, FileSystem.resolveName, if_neg (by simp), hsteps,
      show fs.base [slash] = [] from rfl, resolve_here (tree_eq_dir.2 fs.root_dir), resolve_nil]
    rfl
  | cons c p =>
    have hwalk := hcanonical.resolve_names limit [] 0
    rw [append_nil, resolve_nil] at hwalk
    rw [pathString, if_neg (by simp), FileSystem.resolveName, if_neg (joined_ne_nil (by simp)),
      steps_names hnames, show fs.base (joined slash (c :: p)) = [] from rfl, hwalk]
    rfl

/-- The paths that `realpath` returns are those that it returns for themselves. -/
theorem realpathStk_idempotent (fs : FileSystem) (kernelLimit threshold pathMax : Nat)
    (path : CString) (resolved : Bool) :
    (∃ name, (realpathStk fs kernelLimit threshold pathMax (some name) resolved).returned =
      .ok path.1) ↔
      (realpathStk fs kernelLimit threshold pathMax (some path) resolved).returned =
        .ok path.1 := by
  refine ⟨?_, fun h => ⟨path, h⟩⟩
  rintro ⟨name, h⟩
  rw [returned_eq] at h ⊢
  cases hname : fs.resolveName threshold name.1 with
  | error e =>
    rw [hname] at h
    cases h
  | ok p =>
    obtain ⟨hcanonical, hnames⟩ := canonical_of_resolveName hname
    rw [hname] at h
    have hpath : pathString p = path.1 := by
      dsimp only at h
      split at h
      · cases h
      · exact Except.ok.inj h
    rwa [← hpath, resolveName_pathString threshold hcanonical hnames, hpath]

end SafeLibc.Stdlib.Realpath
