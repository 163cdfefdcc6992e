import Mathlib.Data.List.Basic

/-!
# Resolution of names in a file tree

A tree gives each path, a list of names from the root, a directory, a file or a link. A link has
steps of its own, which are taken before those that are left. `resolve` takes the steps one after
another, each from a directory, and follows at most `limit` links; where it ends, it ends at a path
of directories to a directory or file (`canonical_of_resolve`).
-/

namespace SafeLibc.Lib

open List

variable {ν : Type*}

/-- `.`, `..` or a name. -/
inductive PathStep (ν : Type*)
  | here
  | up
  | name (n : ν)
  deriving DecidableEq

/-- What is at a path. The steps of a link start at the root or where the link is. -/
inductive FileNode (ν : Type*)
  | dir
  | file
  | link (absolute : Bool) (target : List (PathStep ν))

inductive ResolveError
  | missing
  | notDirectory
  | tooManyLinks
  deriving DecidableEq, Repr

/-- Where the target of a link starts. -/
def linkBase (absolute : Bool) (p : List ν) : List ν := if absolute then [] else p

section Resolve

variable (tree : List ν → Option (FileNode ν)) (limit : Nat)

/-- Take the steps `todo` at `p`, after `links` links. -/
def resolve (p : List ν) (todo : List (PathStep ν)) (links : Nat) :
    Except ResolveError (List ν) :=
  match todo with
  | [] => .ok p
  | step :: todo =>
    match tree p with
    | some .dir =>
      match step with
      | .here => resolve p todo links
      | .up => resolve p.dropLast todo links
      | .name n =>
        match tree (p ++ [n]) with
        | none => .error .missing
        | some (.link absolute target) =>
          if links < limit then resolve (linkBase absolute p) (target ++ todo) (links + 1)
          else .error .tooManyLinks
        | some _ => resolve (p ++ [n]) todo links
    | _ => .error .notDirectory
termination_by (limit - links, todo.length)
decreasing_by
  · exact Prod.Lex.right _ (Nat.lt_succ_self _)
  · exact Prod.Lex.right _ (Nat.lt_succ_self _)
  · exact Prod.Lex.left _ _ (by omega)
  · exact Prod.Lex.right _ (Nat.lt_succ_self _)

end Resolve

variable {tree : List ν → Option (FileNode ν)} {limit links : Nat} {p q : List ν}
  {n : ν} {todo : List (PathStep ν)}

theorem resolve_nil : resolve tree limit p [] links = .ok p := by
  rw [resolve]

theorem resolve_not_dir (h : tree p ≠ some .dir) (step : PathStep ν) :
    resolve tree limit p (step :: todo) links = .error .notDirectory := by
  rw [resolve.eq_def]
  dsimp only
  split
  · next hdir => exact absurd hdir h
  · rfl

section Dir

variable (h : tree p = some .dir)

include h

theorem resolve_here :
    resolve tree limit p (.here :: todo) links = resolve tree limit p todo links := by
  rw [resolve.eq_def]
  simp only [h]

theorem resolve_up :
    resolve tree limit p (.up :: todo) links = resolve tree limit p.dropLast todo links := by
  rw [resolve.eq_def]
  simp only [h]

theorem resolve_missing (hn : tree (p ++ [n]) = none) :
    resolve tree limit p (.name n :: todo) links = .error .missing := by
  rw [resolve.eq_def]
  simp only [h, hn]

theorem resolve_link {absolute : Bool} {target : List (PathStep ν)}
    (hn : tree (p ++ [n]) = some (.link absolute target)) :
    resolve tree limit p (.name n :: todo) links =
      if links < limit then
        resolve tree limit (linkBase absolute p) (target ++ todo) (links + 1)
      else .error .tooManyLinks := by
  rw [resolve.eq_def]
  simp only [h, hn]

theorem resolve_name (hn : tree (p ++ [n]) = some .dir ∨ tree (p ++ [n]) = some .file) :
    resolve tree limit p (.name n :: todo) links = resolve tree limit (p ++ [n]) todo links := by
  rw [resolve.eq_def]
  rcases hn with hn | hn
  · simp only [h, hn]
  · simp only [h, hn]

end Dir

theorem dir_or_file {node : FileNode ν} (h : tree q = some node)
    (hnotlink : ∀ absolute target, node = .link absolute target → False) :
    tree q = some .dir ∨ tree q = some .file := by
  cases node with
  | dir => exact .inl h
  | file => exact .inr h
  | link absolute target => exact (hnotlink absolute target rfl).elim

/-- A path through directories to a directory or file. -/
structure Canonical (tree : List ν → Option (FileNode ν)) (p : List ν) : Prop where
  dirs : ∀ q, q <+: p → q ≠ p → tree q = some .dir
  node : tree p = some .dir ∨ tree p = some .file

theorem Canonical.root (h : tree [] = some .dir) : Canonical tree [] :=
  ⟨fun _ hq hne => absurd (prefix_nil.1 hq) hne, .inl h⟩

section

variable (h : Canonical tree p) (hdir : tree p = some .dir)
include h hdir

theorem Canonical.dir_of_prefix (hq : q <+: p) : tree q = some .dir := by
  by_cases heq : q = p
  · rw [heq]
    exact hdir
  · exact h.dirs q hq heq

theorem Canonical.dropLast :
    Canonical tree p.dropLast := by
  have hprefix : p.dropLast <+: p := dropLast_prefix p
  exact ⟨fun q hq _ => h.dir_of_prefix hdir (hq.trans hprefix),
    .inl (h.dir_of_prefix hdir hprefix)⟩

theorem Canonical.append (hn : tree (p ++ [n]) = some .dir ∨ tree (p ++ [n]) = some .file) :
    Canonical tree (p ++ [n]) := by
  refine ⟨fun q hq hne => ?_, hn⟩
  rcases prefix_concat_iff.1 hq with heq | hprefix
  · exact absurd heq hne
  · exact h.dir_of_prefix hdir hprefix

end

/-- Every name among the steps has the property. -/
def Named (P : ν → Prop) (todo : List (PathStep ν)) : Prop := ∀ n, .name n ∈ todo → P n

/-- **Where a resolution ends**: at a path of directories, with the names of the steps and links
that were taken. -/
theorem canonical_of_resolve (hroot : tree [] = some .dir) {P : ν → Prop}
    (hlinks : ∀ q absolute target, tree q = some (.link absolute target) → Named P target)
    (hp : Canonical tree p) (hnames : ∀ n ∈ p, P n) (htodo : Named P todo)
    (h : resolve tree limit p todo links = .ok q) : Canonical tree q ∧ ∀ n ∈ q, P n := by
  fun_induction resolve tree limit p todo links with
  | case1 p links =>
    cases h
    exact ⟨hp, hnames⟩
  | case2 p links todo hdir ih =>
    exact ih hp hnames (fun n hn => htodo n (mem_cons_of_mem _ hn)) h
  | case3 p links todo hdir ih =>
    apply ih (hp.dropLast hdir) _ (fun n hn => htodo n (mem_cons_of_mem _ hn)) h
    exact fun n hn => hnames n ((dropLast_sublist p).subset hn)
  | case4 p links todo hdir n hmissing => cases h
  | case5 p links todo hdir n absolute target hlink hlimit ih =>
    apply ih _ _ _ h
    · unfold linkBase
      split
      · exact .root hroot
      · exact hp
    · unfold linkBase
      split
      · exact fun n hn => absurd hn not_mem_nil
      · exact hnames
    · intro m hm
      rcases mem_append.1 hm with hm | hm
      · exact hlinks _ _ _ hlink m hm
      · exact htodo m (mem_cons_of_mem _ hm)
  | case6 p links todo hdir n absolute target hlink hlimit => cases h
  | case7 p links todo hdir n node hnotlink hnode ih =>
    have hn := dir_or_file hnode hnotlink
    apply ih (hp.append hdir hn) _ (fun m hm => htodo m (mem_cons_of_mem _ hm)) h
    intro m hm
    rcases mem_append.1 hm with hm | hm
    · exact hnames m hm
    · rw [mem_singleton.1 hm]
      exact htodo n mem_cons_self
  | case8 p links step todo hdir => cases h

theorem resolve_names {ns : List ν} (hdirs : ∀ q, q <+: ns → q ≠ ns → tree (p ++ q) = some .dir)
    (hnode : tree (p ++ ns) = some .dir ∨ tree (p ++ ns) = some .file) :
    resolve tree limit p (ns.map .name ++ todo) links =
      resolve tree limit (p ++ ns) todo links := by
  induction ns generalizing p with
  | nil => rw [append_nil]; rfl
  | cons n ns ih =>
    have hdir : tree p = some .dir := by
      simpa using hdirs [] nil_prefix (by simp)
    have hnext : ∀ q, q <+: ns → q ≠ ns → tree (p ++ [n] ++ q) = some .dir := by
      intro q hq hne
      have := hdirs (n :: q) (cons_prefix_cons.2 ⟨rfl, hq⟩) (by simpa using hne)
      rwa [append_cons] at this
    have hn : tree (p ++ [n]) = some .dir ∨ tree (p ++ [n]) = some .file := by
      by_cases hns : ns = []
      · rwa [hns] at hnode
      · left
        have := hnext [] nil_prefix (fun heq => hns heq.symm)
        rwa [append_nil] at this
    rw [map_cons, cons_append, resolve_name hdir hn, ih hnext (by rwa [← append_cons]),
      ← append_cons]

theorem Canonical.resolve_names (h : Canonical tree p) (limit : Nat) (todo : List (PathStep ν))
    (links : Nat) :
    resolve tree limit [] (p.map .name ++ todo) links = resolve tree limit p todo links :=
  Lib.resolve_names (p := []) h.dirs h.node

/-- A step that stays changes nothing before another step, which needs a directory too. -/
theorem resolve_here_before (front : List (PathStep ν)) (htodo : todo ≠ []) :
    resolve tree limit p (front ++ .here :: todo) links =
      resolve tree limit p (front ++ todo) links := by
  fun_induction resolve tree limit p front links with
  | case1 p links =>
    rw [nil_append, nil_append]
    by_cases hdir : tree p = some .dir
    · exact resolve_here hdir
    · obtain ⟨step, rest, rfl⟩ := exists_cons_of_ne_nil htodo
      rw [resolve_not_dir hdir, resolve_not_dir hdir]
  | case2 p links front hdir ih =>
    rw [cons_append, resolve_here hdir, ih, cons_append, resolve_here hdir]
  | case3 p links front hdir ih =>
    rw [cons_append, resolve_up hdir, ih, cons_append, resolve_up hdir]
  | case4 p links front hdir n hmissing =>
    rw [cons_append, resolve_missing hdir hmissing, cons_append, resolve_missing hdir hmissing]
  | case5 p links front hdir n absolute target hlink hlimit ih =>
    simp only [cons_append, resolve_link hdir hlink, ← append_assoc, ih]
  | case6 p links front hdir n absolute target hlink hlimit =>
    simp only [cons_append, resolve_link hdir hlink, if_neg hlimit]
  | case7 p links front hdir n node hnotlink hnode ih =>
    have hn := dir_or_file hnode hnotlink
    rw [cons_append, resolve_name hdir hn, ih, cons_append, resolve_name hdir hn]
  | case8 p links step front hdir =>
    rw [cons_append, resolve_not_dir hdir, cons_append, resolve_not_dir hdir]

end SafeLibc.Lib
