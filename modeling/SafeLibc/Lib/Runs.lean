import Mathlib.Tactic.Ring

/-!
# Runs of a transition system

A system takes actions: `step s a` is the state after `a`, and `none` when `a` is not enabled in
`s`. A run is any sequence of actions; `Reaches` says which states a run gets to when each of its
steps is `allowed`. What holds at the start and is kept by every allowed step holds in every state
of every such run (`Reaches.invariant`). A list of actions is replayed by `replay`, which decides
that it is such a run (`reaches_of_replay`).

Two kinds of runs have only one path: a partial step that is repeated (`stepN`), and a fold. Of a
fold whose steps write what is read afterwards, or leave it, the last write is what is read
(`read_foldl`, `findSome?_reverse_eq_some_iff`).
-/

namespace SafeLibc.Lib

section Reaches

variable {σ α : Type*} (step : σ → α → Option σ)

/-- The states of the runs from `start` whose steps are all allowed. -/
inductive Reaches (allowed : σ → α → Bool) (start : σ) : σ → Prop
  | start : Reaches allowed start start
  | step {s s' : σ} {a : α} (reached : Reaches allowed start s) (ok : allowed s a = true)
      (taken : step s a = some s') : Reaches allowed start s'

/-- Take these actions, each of which must be enabled and allowed. -/
def replay (allowed : σ → α → Bool) : σ → List α → Option σ
  | s, [] => some s
  | s, a :: actions =>
    if allowed s a then (step s a).bind fun s' => replay allowed s' actions else none

variable {step}

variable {allowed : σ → α → Bool} {start s : σ}

theorem Reaches.invariant {P : σ → Prop} (hstart : P start)
    (hstep : ∀ s a s', P s → allowed s a = true → step s a = some s' → P s')
    (h : Reaches step allowed start s) : P s := by
  induction h with
  | start => exact hstart
  | step _ ok taken ih => exact hstep _ _ _ ih ok taken

theorem Reaches.trans {mid : σ} (hfirst : Reaches step allowed start mid)
    (hthen : Reaches step allowed mid s) : Reaches step allowed start s := by
  induction hthen with
  | start => exact hfirst
  | step _ ok taken ih => exact ih.step ok taken

theorem reaches_of_replay {actions : List α} (h : replay step allowed start actions = some s) :
    Reaches step allowed start s := by
  have hfrom : ∀ (actions : List α) (now : σ), Reaches step allowed start now →
      replay step allowed now actions = some s → Reaches step allowed start s := by
    intro actions
    induction actions with
    | nil =>
      intro now hnow hreplay
      exact Option.some.inj hreplay ▸ hnow
    | cons a actions ih =>
      intro now hnow hreplay
      rw [replay] at hreplay
      split at hreplay
      · next hok =>
        obtain ⟨next, hnext, hrest⟩ := Option.bind_eq_some_iff.mp hreplay
        exact ih next (hnow.step hok hnext) hrest
      · cases hreplay
  exact hfrom actions start .start h

end Reaches

/-! ## Repeating a partial step -/

section StepN

variable {α : Type*} (f : α → Option α)

/-- `f` applied exactly `n` times, if none of the steps fails. -/
def stepN : Nat → α → Option α
  | 0, a => some a
  | n + 1, a => (f a).bind (stepN n)

@[simp] theorem stepN_zero (a : α) : stepN f 0 a = some a := rfl

theorem stepN_succ (n : Nat) (a : α) : stepN f (n + 1) a = (f a).bind (stepN f n) := rfl

theorem stepN_add (m n : Nat) (a : α) : stepN f (m + n) a = (stepN f m a).bind (stepN f n) := by
  induction m generalizing a with
  | zero => simp
  | succ m ih =>
    rw [Nat.succ_add, stepN_succ, stepN_succ]
    cases f a with
    | none => rfl
    | some b => exact ih b

/-- Where the step fails there is no second one. -/
theorem stepN_eq_some_of_none {n : Nat} {a b : α} (ha : f a = none) (h : stepN f n a = some b) :
    n = 0 := by
  cases n with
  | zero => rfl
  | succ n =>
    rw [stepN_succ, ha] at h
    cases h

end StepN

/-! ## The last write of a fold -/

section LastIn

variable {σ α β : Type*}

/-- The last element of the list that `P` relates to anything is related to `b`. -/
def LastIn (P : α → β → Prop) (l : List α) (b : β) : Prop :=
  ∃ before a after, l = before ++ a :: after ∧ P a b ∧ ∀ c ∈ after, ∀ b', ¬P c b'

theorem findSome?_reverse_eq_some_iff {f : α → Option β} {P : α → β → Prop}
    (h : ∀ a b, f a = some b ↔ P a b) {l : List α} {b : β} :
    l.reverse.findSome? f = some b ↔ LastIn P l b := by
  rw [List.findSome?_eq_some_iff]
  constructor
  · rintro ⟨after, a, before, hl, ha, hafter⟩
    refine ⟨before.reverse, a, after.reverse, ?_, (h a b).1 ha, ?_⟩
    · rw [← List.reverse_reverse l, hl]
      simp
    · intro c hc b' hP
      have hsome := (h c b').2 hP
      rw [hafter c (List.mem_reverse.1 hc)] at hsome
      cases hsome
  · rintro ⟨before, a, after, rfl, ha, hafter⟩
    refine ⟨after.reverse, a, before.reverse, by simp, (h a b).2 ha, fun c hc => ?_⟩
    cases hc' : f c with
    | none => rfl
    | some b' => exact absurd ((h c b').1 hc') (hafter c (List.mem_reverse.1 hc) b')

/-- A step writes `f a` over what is read, where that is a value. -/
theorem read_foldl {step : σ → α → σ} (read : σ → Option β) {f : α → Option β}
    (h : ∀ s a, read (step s a) = (f a).or (read s)) (l : List α) (s : σ) :
    read (l.foldl step s) = (l.reverse.findSome? f).or (read s) := by
  induction l generalizing s with
  | nil => rfl
  | cons a l ih =>
    rw [List.foldl_cons, ih, h, List.reverse_cons, List.findSome?_append, Option.or_assoc]
    simp

end LastIn

end SafeLibc.Lib
