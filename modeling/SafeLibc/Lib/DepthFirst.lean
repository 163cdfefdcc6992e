import Mathlib.Data.Set.Insert
import Mathlib.Data.List.Nodup

/-!
# Depth-first traversals and their reverse postorder

`Traverse succ V ms V' O` says that a depth-first traversal of the graph `succ` that starts with
the nodes `V` visited and goes through the roots `ms` in order ends with the nodes `V'` visited,
and that `O` lists the nodes it finished, the last one first. Nothing is assumed of the graph: the
relation has a derivation as soon as the traversal ends.

In a graph without cycles (edges of a node to itself do not count) the list is a topological order,
`Traverse.sublist_of_acyclic`; and roots that already come in such an order, taken from its end,
are listed as they were, `Traverse.eq_reverse`.
-/

namespace SafeLibc.Lib

open List

variable {α : Type*} {succ : α → List α}

/-- A depth-first traversal through a list of roots. -/
inductive Traverse (succ : α → List α) : Set α → List α → Set α → List α → Prop
  | nil (V : Set α) : Traverse succ V [] V []
  | skip {V V' : Set α} {m : α} {ms O : List α} (hm : m ∈ V) (rest : Traverse succ V ms V' O) :
      Traverse succ V (m :: ms) V' O
  | visit {V V₁ V₂ : Set α} {m : α} {ms O₁ O₂ : List α} (hm : m ∉ V)
      (below : Traverse succ (insert m V) (succ m) V₁ O₁) (rest : Traverse succ V₁ ms V₂ O₂) :
      Traverse succ V (m :: ms) V₂ (O₂ ++ m :: O₁)

def Edge (succ : α → List α) (x y : α) : Prop :=
  y ∈ succ x ∧ y ≠ x

/-- No node of `S` is reached from itself, its own loops apart. -/
def AcyclicOn (succ : α → List α) (S : List α) : Prop :=
  ∀ x ∈ S, ¬ Relation.TransGen (Edge succ) x x

theorem AcyclicOn.mono {succ' : α → List α} {S : List α} (h : AcyclicOn succ' S)
    (hsub : ∀ x, ∀ y ∈ succ x, y ∈ succ' x) : AcyclicOn succ S := by
  intro x hx hcycle
  exact h x hx (hcycle.lift id fun a b hab => ⟨hsub a b hab.1, hab.2⟩)

theorem sublist_append {xs ys : List α} {x y : α} (hx : x ∈ xs) (hy : y ∈ ys) :
    [x, y].Sublist (xs ++ ys) :=
  (singleton_sublist.2 hx).append (singleton_sublist.2 hy)

namespace Traverse

variable {V V' V₁ V₂ : Set α} {ms ns O O₁ O₂ : List α} {m x y : α}

theorem append (h₁ : Traverse succ V ms V₁ O₁) (h₂ : Traverse succ V₁ ns V₂ O₂) :
    Traverse succ V (ms ++ ns) V₂ (O₂ ++ O₁) := by
  induction h₁ with
  | nil V => simpa using h₂
  | skip hm _ ih => exact .skip hm (ih h₂)
  | visit hm below _ _ ih =>
    rw [← append_assoc]
    exact .visit hm below (ih h₂)

section

variable (h : Traverse succ V ms V' O)

include h

/-- What is visited at the end: what was visited before, and what was finished. -/
theorem mem_visited : x ∈ V' ↔ x ∈ V ∨ x ∈ O := by
  induction h with
  | nil V => simp
  | skip _ _ ih => exact ih
  | visit _ _ _ ih₁ ih₂ =>
    rw [ih₂, ih₁]
    simp only [Set.mem_insert_iff, mem_append, mem_cons]
    tauto

theorem not_mem (hx : x ∈ O) : x ∉ V := by
  induction h with
  | nil V => cases hx
  | skip _ _ ih => exact ih hx
  | visit hm below _ ih₁ ih₂ =>
    rcases mem_append.1 hx with hx | hx
    · intro hV
      exact ih₂ hx (below.mem_visited.2 (.inl (Set.mem_insert_of_mem _ hV)))
    · rcases mem_cons.1 hx with rfl | hx
      · exact hm
      · exact fun hV => ih₁ hx (Set.mem_insert_of_mem _ hV)

theorem nodup : O.Nodup := by
  induction h with
  | nil V => exact nodup_nil
  | skip _ _ ih => exact ih
  | visit hm below rest ih₁ ih₂ =>
    refine nodup_append'.2 ⟨ih₂, nodup_cons.2 ⟨?_, ih₁⟩, ?_⟩
    · exact fun hin => below.not_mem hin (Set.mem_insert _ _)
    · intro x hx hx'
      refine rest.not_mem hx (below.mem_visited.2 ?_)
      rcases mem_cons.1 hx' with rfl | hx'
      · exact .inl (Set.mem_insert _ _)
      · exact .inr hx'

theorem root_mem (hx : x ∈ ms) : x ∈ V' := by
  induction h with
  | nil V => cases hx
  | skip hm rest ih =>
    rcases mem_cons.1 hx with rfl | hx
    · exact rest.mem_visited.2 (.inl hm)
    · exact ih hx
  | visit hm below rest _ ih =>
    rcases mem_cons.1 hx with rfl | hx
    · exact rest.mem_visited.2 (.inl (below.mem_visited.2 (.inl (Set.mem_insert _ _))))
    · exact ih hx

/-- What is finished is reached from a root that was not visited before. -/
theorem reached (hx : x ∈ O) : ∃ d ∈ ms, d ∉ V ∧ Relation.ReflTransGen (Edge succ) d x := by
  induction h with
  | nil V => cases hx
  | skip _ _ ih =>
    obtain ⟨d, hd, hnew, hpath⟩ := ih hx
    exact ⟨d, mem_cons_of_mem _ hd, hnew, hpath⟩
  | @visit V _ _ m _ _ _ hm below _ ih₁ ih₂ =>
    rcases mem_append.1 hx with hx | hx
    · obtain ⟨d, hd, hnew, hpath⟩ := ih₂ hx
      refine ⟨d, mem_cons_of_mem _ hd, fun hV => hnew ?_, hpath⟩
      exact below.mem_visited.2 (.inl (Set.mem_insert_of_mem _ hV))
    · refine ⟨m, mem_cons_self, hm, ?_⟩
      rcases mem_cons.1 hx with rfl | hx
      · exact .refl
      · obtain ⟨d, hd, hnew, hpath⟩ := ih₁ hx
        have hne : d ≠ m := fun he => hnew (he ▸ Set.mem_insert _ _)
        exact .head ⟨hd, hne⟩ hpath

/-- A set that holds the roots and is closed under the edges holds all that is finished. -/
theorem mem_of_closed {S : α → Prop} (hroots : ∀ m ∈ ms, S m)
    (hclosed : ∀ x, S x → ∀ y ∈ succ x, S y) (hx : x ∈ O) : S x := by
  obtain ⟨d, hd, -, hpath⟩ := h.reached hx
  clear hx
  induction hpath with
  | refl => exact hroots d hd
  | tail _ hedge ih => exact hclosed _ ih _ hedge.1

/-- A traversal only reads the successors of the nodes it finishes. -/
theorem congr {succ' : α → List α} (hsame : ∀ x ∈ O, succ' x = succ x) :
    Traverse succ' V ms V' O := by
  induction h with
  | nil V => exact .nil V
  | skip hm _ ih => exact .skip hm (ih hsame)
  | visit hm _ _ ih₁ ih₂ =>
    refine .visit hm ?_ (ih₂ fun x hx => hsame x (mem_append_left _ hx))
    rw [hsame _ (by simp)]
    exact ih₁ fun x hx => hsame x (by simp [hx])

end

theorem skips (hms : ∀ m ∈ ms, m ∈ V) : Traverse succ V ms V [] := by
  induction ms with
  | nil => exact .nil V
  | cons m ms ih =>
    exact .skip (hms m mem_cons_self) (ih fun d hd => hms d (mem_cons_of_mem _ hd))

theorem eq_nil (h : Traverse succ V ms V' O) (hms : ∀ m ∈ ms, m ∈ V) : O = [] := by
  cases hO : O with
  | nil => rfl
  | cons x xs =>
    obtain ⟨d, hd, hnew, -⟩ := h.reached (x := x) (hO ▸ mem_cons_self)
    exact absurd (hms d hd) hnew

/-- Without cycles, a finished node comes before those of its successors that were not visited
before. -/
theorem sublist_of_acyclic (h : Traverse succ V ms V' O) (hacyclic : AcyclicOn succ O) (hx : x ∈ O)
    (hedge : Edge succ x y) : y ∈ V ∨ [x, y].Sublist O := by
  induction h with
  | nil V => cases hx
  | skip _ _ ih => exact ih hacyclic hx
  | @visit V V₁ V₂ m ms O₁ O₂ hm below rest ih₁ ih₂ =>
    have hfinished : m ∈ O₂ ++ m :: O₁ := mem_append_right _ mem_cons_self
    rcases mem_append.1 hx with hx₂ | hx₁
    · -- `x` was finished after `m`
      rcases ih₂ (fun z hz => hacyclic z (mem_append_left _ hz)) hx₂ with hy | hsub
      · rcases below.mem_visited.1 hy with hy | hy
        · rcases Set.mem_insert_iff.1 hy with rfl | hy
          · exact .inr (sublist_append hx₂ mem_cons_self)
          · exact .inl hy
        · exact .inr (sublist_append hx₂ (mem_cons_of_mem _ hy))
      · exact .inr (hsub.trans (sublist_append_left _ _))
    · rcases mem_cons.1 hx₁ with rfl | hfin
      · -- the successors of `m` are all visited when it is finished
        rcases below.mem_visited.1 (below.root_mem hedge.1) with hy | hy
        · exact .inl (Set.mem_of_mem_insert_of_ne hy hedge.2)
        · refine .inr (List.Sublist.trans ?_ (sublist_append_right _ _))
          exact List.Sublist.cons_cons _ (singleton_sublist.2 hy)
      · -- `x` was reached from `m`: an edge back to `m` would close a cycle
        rcases ih₁ (fun z hz => hacyclic z (by simp [hz])) hfin with hy | hsub
        · rcases Set.mem_insert_iff.1 hy with rfl | hy
          · obtain ⟨d, hd, hnew, hpath⟩ := below.reached hfin
            have hne : d ≠ y := fun he => hnew (he ▸ Set.mem_insert _ _)
            exact absurd ((Relation.TransGen.head' ⟨hd, hne⟩ hpath).tail hedge)
              (hacyclic y hfinished)
          · exact .inl hy
        · exact .inr ((hsub.trans (sublist_cons_self _ _)).trans (sublist_append_right _ _))

/-- Roots each of whose successors is visited or an earlier root are finished one by one. -/
theorem eq_reverse (h : Traverse succ V ms V' O) (hnodup : ms.Nodup) (hnew : ∀ m ∈ ms, m ∉ V)
    (hearlier : ∀ m ∈ ms, ∀ y ∈ succ m, y = m ∨ y ∈ V ∨ [y, m].Sublist ms) : O = ms.reverse := by
  induction h with
  | nil V => rfl
  | skip hm _ _ => exact absurd hm (hnew _ mem_cons_self)
  | @visit V V₁ V₂ m ms O₁ O₂ hm below rest _ ih =>
    obtain ⟨hmem, hnodup⟩ := nodup_cons.1 hnodup
    have hO₁ : O₁ = [] := by
      refine below.eq_nil fun y hy => ?_
      rcases hearlier m mem_cons_self y hy with rfl | hV | hsub
      · exact Set.mem_insert _ _
      · exact Set.mem_insert_of_mem _ hV
      · -- nothing stands before the first root
        cases hsub with
        | cons _ hsub | cons_cons _ hsub => exact absurd (hsub.subset (by simp)) hmem
    subst hO₁
    have hV₁ : ∀ z, z ∈ V₁ ↔ z = m ∨ z ∈ V := by
      intro z
      rw [below.mem_visited]
      simp
    have hO₂ : O₂ = ms.reverse := by
      refine ih hnodup (fun z hz hzV => ?_) fun z hz y hy => ?_
      · rcases (hV₁ z).1 hzV with rfl | hzV
        · exact hmem hz
        · exact hnew z (mem_cons_of_mem _ hz) hzV
      · rcases hearlier z (mem_cons_of_mem _ hz) y hy with he | hV | hsub
        · exact .inl he
        · exact .inr (.inl ((hV₁ y).2 (.inr hV)))
        · cases hsub with
          | cons _ hsub => exact .inr (.inr hsub)
          | cons_cons _ _ => exact .inr (.inl ((hV₁ _).2 (.inl rfl)))
    rw [hO₂, reverse_cons]

end Traverse

end SafeLibc.Lib
