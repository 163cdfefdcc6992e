import Mathlib.Data.List.TakeWhile

/-!
# Names with separators

A text is read as the components between its separators, where several separators in a row count as
one. `components_append` says that a text in front of another one, which is empty or starts with a
separator, neither loses nor joins components, and `components_joined` that components can be
written one after another and read back.
-/

namespace SafeLibc.Lib

open List

variable {α : Type*} [DecidableEq α]

/-- The first component, after the separators before it; it is empty where there is none. -/
def component (sep : α) (s : List α) : List α :=
  (s.dropWhile fun b => b = sep).takeWhile fun b => b ≠ sep

/-- What follows the first component. -/
def afterComponent (sep : α) (s : List α) : List α :=
  (s.dropWhile fun b => b = sep).dropWhile fun b => b ≠ sep

variable {sep : α} {s rest : List α}

theorem component_append_afterComponent (sep : α) (s : List α) :
    component sep s ++ afterComponent sep s = s.dropWhile fun b => b = sep :=
  takeWhile_append_dropWhile

theorem length_afterComponent_lt (h : component sep s ≠ []) :
    (afterComponent sep s).length < s.length := by
  have hsplit := congrArg List.length (component_append_afterComponent sep s)
  have hdrop := (dropWhile_sublist (l := s) fun b => decide (b = sep)).length_le
  have hpos := length_pos_iff.2 h
  rw [length_append] at hsplit
  omega

/-- All components, none of them empty. -/
def components (sep : α) (s : List α) : List (List α) :=
  if component sep s = [] then [] else component sep s :: components sep (afterComponent sep s)
termination_by s.length
decreasing_by exact length_afterComponent_lt ‹_›

theorem components_of_empty (h : component sep s = []) : components sep s = [] := by
  rw [components, if_pos h]

theorem components_of_ne (h : component sep s ≠ []) :
    components sep s = component sep s :: components sep (afterComponent sep s) := by
  rw [components, if_neg h]

theorem not_mem_component (sep : α) (s : List α) : sep ∉ component sep s := by
  intro hmem
  have := mem_takeWhile_imp hmem
  simp at this

theorem afterComponent_boundary (sep : α) (s : List α) :
    afterComponent sep s = [] ∨ (afterComponent sep s).head? = some sep := by
  cases h : afterComponent sep s with
  | nil => exact .inl rfl
  | cons b t =>
    right
    have := head?_dropWhile_not (fun b => decide (b ≠ sep)) (s.dropWhile fun b => b = sep)
    rw [afterComponent] at h
    rw [h] at this
    simpa using this

theorem all_of_component_eq_nil (h : component sep s = []) : ∀ b ∈ s, b = sep := by
  have hdrop : (s.dropWhile fun b => b = sep) = [] := by
    cases hs : s.dropWhile fun b => b = sep with
    | nil => rfl
    | cons b t =>
      have hhead := head?_dropWhile_not (fun b => decide (b = sep)) s
      rw [component, hs] at h
      simp_all
  intro b hb
  have := dropWhile_eq_nil_iff.1 hdrop b hb
  simpa using this

section Append

variable (hrest : rest = [] ∨ rest.head? = some sep)

include hrest

theorem takeWhile_of_boundary :
    (rest.takeWhile fun b => b ≠ sep) = [] ∧ (rest.dropWhile fun b => b ≠ sep) = rest := by
  rcases hrest with rfl | hhead
  · exact ⟨rfl, rfl⟩
  · obtain ⟨t, rfl⟩ := head?_eq_some_iff.1 hhead
    simp

theorem takeWhile_append_boundary (s : List α) :
    ((s ++ rest).takeWhile fun b => b ≠ sep) = s.takeWhile fun b => b ≠ sep := by
  rw [takeWhile_append, (takeWhile_of_boundary hrest).1, append_nil]
  split
  · next hall =>
    have hstart := takeWhile_prefix (l := s) fun b => b ≠ sep
    exact (hstart.eq_of_length hall).symm
  · rfl

theorem dropWhile_append_boundary (s : List α) :
    ((s ++ rest).dropWhile fun b => b ≠ sep) = (s.dropWhile fun b => b ≠ sep) ++ rest := by
  rw [dropWhile_append, (takeWhile_of_boundary hrest).2]
  split
  · next hnone => rw [isEmpty_iff.1 hnone, nil_append]
  · rfl

theorem component_append (h : component sep s ≠ []) :
    component sep (s ++ rest) = component sep s ∧
      afterComponent sep (s ++ rest) = afterComponent sep s ++ rest := by
  have hskip :
      ((s ++ rest).dropWhile fun b => b = sep) = (s.dropWhile fun b => b = sep) ++ rest := by
    rw [dropWhile_append, if_neg]
    intro hnone
    exact h (by rw [component, isEmpty_iff.1 hnone]; rfl)
  rw [component, afterComponent, hskip]
  exact ⟨takeWhile_append_boundary hrest _, dropWhile_append_boundary hrest _⟩

omit hrest in
theorem component_append_empty (h : component sep s = []) (rest : List α) :
    component sep (s ++ rest) = component sep rest ∧
      afterComponent sep (s ++ rest) = afterComponent sep rest := by
  have hskip : ((s ++ rest).dropWhile fun b => b = sep) = rest.dropWhile fun b => b = sep := by
    rw [dropWhile_append_of_pos]
    intro b hb
    simpa using all_of_component_eq_nil h b hb
  rw [component, component, afterComponent, afterComponent, hskip]
  exact ⟨rfl, rfl⟩

/-- **A text in front of another one**: its components come first, and none is lost or joined. -/
theorem components_append (s : List α) :
    components sep (s ++ rest) = components sep s ++ components sep rest := by
  induction hn : s.length using Nat.strongRecOn generalizing s with
  | ind n ih =>
    by_cases h : component sep s = []
    · obtain ⟨hcomp, hafter⟩ := component_append_empty h rest
      rw [components_of_empty h, nil_append]
      by_cases hnone : component sep rest = []
      · rw [components_of_empty hnone, components_of_empty (hcomp.trans hnone)]
      · rw [components_of_ne hnone, components_of_ne (by rwa [hcomp]), hcomp, hafter]
    · obtain ⟨hcomp, hafter⟩ := component_append hrest h
      have hlt := length_afterComponent_lt h
      rw [components_of_ne (by rwa [hcomp]), hcomp, hafter, components_of_ne h, cons_append,
        ih _ (hn ▸ hlt) _ rfl]

end Append

/-- A separator before each part. -/
def joined (sep : α) (parts : List (List α)) : List α := parts.flatMap fun part => sep :: part

omit [DecidableEq α] in
theorem joined_boundary (sep : α) (parts : List (List α)) :
    joined sep parts = [] ∨ (joined sep parts).head? = some sep := by
  cases parts with
  | nil => exact .inl rfl
  | cons part parts => exact .inr rfl

/-- One part is one component. -/
theorem component_single {part : List α} (hpart : sep ∉ part) :
    component sep (sep :: part) = part ∧ afterComponent sep (sep :: part) = [] := by
  have hskip : ((sep :: part).dropWhile fun b => b = sep) = part := by
    rw [dropWhile_cons_of_pos (by simp)]
    cases part with
    | nil => rfl
    | cons b part =>
      have hb : b ≠ sep := fun hb => hpart (hb ▸ mem_cons_self)
      simp [hb]
  have hall : ∀ b ∈ part, decide (b ≠ sep) = true := by
    intro b hb
    simpa using fun heq : b = sep => hpart (heq ▸ hb)
  rw [component, afterComponent, hskip]
  exact ⟨takeWhile_eq_self_iff.2 hall, dropWhile_eq_nil_iff.2 hall⟩

/-- Splitting undoes joining. -/
theorem components_joined {parts : List (List α)} (h : ∀ part ∈ parts, part ≠ [] ∧ sep ∉ part) :
    components sep (joined sep parts) = parts := by
  induction parts with
  | nil => exact components_of_empty rfl
  | cons part parts ih =>
    obtain ⟨hne, hsep⟩ := h part mem_cons_self
    obtain ⟨hcomp, hafter⟩ := component_single hsep
    have hcons : joined sep (part :: parts) = (sep :: part) ++ joined sep parts := by simp [joined]
    rw [hcons, components_append (joined_boundary sep parts),
      components_of_ne (by rwa [hcomp]), hcomp, hafter, components_of_empty rfl,
      ih fun p hp => h p (mem_cons_of_mem _ hp)]
    rfl

end SafeLibc.Lib
