import Mathlib.Data.Finset.Card

/-!
# Worklists

A queue of nodes that are needed and a list of those that are known. A turn takes the first needed
node, makes it known, and adds those of its successors that are neither. From one node, after as
many turns as there are nodes, nothing is needed any more and each reachable node is known once
(`run_spec`).
-/

namespace SafeLibc.Lib

open List

variable {α : Type*} [DecidableEq α]

/-- The queue, and what has left it. -/
structure Worklist (α : Type*) where
  needed : List α
  known : List α

namespace Worklist

def start (x : α) : Worklist α := ⟨[x], []⟩

/-- A node joins the queue once. -/
def add (w : Worklist α) (y : α) : Worklist α :=
  if y ∈ w.needed ∨ y ∈ w.known then w else { w with needed := w.needed ++ [y] }

variable (succ : α → List α)

/-- Visit the first node of the queue. -/
def turn (w : Worklist α) : Worklist α :=
  match w.needed with
  | [] => w
  | x :: rest => (succ x).foldl add ⟨rest, x :: w.known⟩

def run : Nat → Worklist α → Worklist α
  | 0, w => w
  | n + 1, w => run n (w.turn succ)

/-- All nodes that have joined the queue. -/
def met (w : Worklist α) : List α := w.needed ++ w.known

def Reachable (x y : α) : Prop := Relation.ReflTransGen (fun a b => b ∈ succ a) x y

variable {succ} {w : Worklist α} {x : α}

@[simp] theorem known_add (w : Worklist α) (y : α) : (w.add y).known = w.known := by
  unfold add
  split <;> rfl

@[simp] theorem known_foldl_add (w : Worklist α) (ys : List α) :
    (ys.foldl add w).known = w.known := by
  induction ys generalizing w with
  | nil => rfl
  | cons y ys ih => rw [foldl_cons, ih, known_add]

theorem mem_met_add {y z : α} : z ∈ (w.add y).met ↔ z ∈ w.met ∨ z = y := by
  unfold add met
  split
  · next h =>
    constructor
    · exact .inl
    · rintro (hz | rfl)
      · exact hz
      · exact mem_append.2 h
  · simp only [mem_append, mem_singleton]
    tauto

theorem nodup_met_add (h : w.met.Nodup) (y : α) : (w.add y).met.Nodup := by
  unfold add
  split
  · exact h
  · next hy =>
    unfold met at h ⊢
    rw [append_assoc, nodup_append_comm, append_assoc, singleton_append,
      nodup_cons]
    rw [nodup_append_comm] at h
    refine ⟨fun hmem => hy ?_, h⟩
    exact (mem_append.1 hmem).symm

theorem mem_met_foldl_add {ys : List α} {z : α} :
    z ∈ (ys.foldl add w).met ↔ z ∈ w.met ∨ z ∈ ys := by
  induction ys generalizing w with
  | nil => simp
  | cons y ys ih =>
    rw [foldl_cons, ih, mem_met_add, mem_cons]
    tauto

theorem nodup_met_foldl_add (h : w.met.Nodup) (ys : List α) : (ys.foldl add w).met.Nodup := by
  induction ys generalizing w with
  | nil => exact h
  | cons y ys ih => exact ih (nodup_met_add h y)

/-- What is known is reachable and closed but for the queue. -/
structure Inv (succ : α → List α) (x : α) (w : Worklist α) : Prop where
  nodup : w.met.Nodup
  start_mem : x ∈ w.met
  closed : ∀ y ∈ w.known, ∀ z ∈ succ y, z ∈ w.met
  reachable : ∀ y ∈ w.met, Reachable succ x y

omit [DecidableEq α] in
theorem inv_start (succ : α → List α) (x : α) : Inv succ x (start x) where
  nodup := nodup_singleton x
  start_mem := mem_singleton_self x
  closed y hy := absurd hy not_mem_nil
  reachable y hy := by
    rw [mem_singleton.1 hy]
    exact .refl

theorem Inv.turn (h : Inv succ x w) : Inv succ x (w.turn succ) := by
  unfold Worklist.turn
  split
  · exact h
  · next y rest hneeded =>
    -- the node only changes its list
    have hmet : ∀ z, z ∈ (⟨rest, y :: w.known⟩ : Worklist α).met ↔ z ∈ w.met := by
      intro z
      simp only [met, hneeded, mem_append, mem_cons]
      tauto
    have hperm : (rest ++ y :: w.known).Perm w.met := by
      rw [met, hneeded]
      exact perm_middle
    have hy : y ∈ w.met := by
      rw [met, hneeded]
      exact mem_append_left _ mem_cons_self
    have hnodup : (⟨rest, y :: w.known⟩ : Worklist α).met.Nodup := hperm.nodup_iff.2 h.nodup
    refine ⟨nodup_met_foldl_add hnodup _, ?_, ?_, ?_⟩
    · exact mem_met_foldl_add.2 (.inl ((hmet x).2 h.start_mem))
    · intro z hz v hv
      rw [known_foldl_add] at hz
      rcases mem_cons.1 hz with rfl | hz
      · exact mem_met_foldl_add.2 (.inr hv)
      · exact mem_met_foldl_add.2 (.inl ((hmet v).2 (h.closed z hz v hv)))
    · intro z hz
      rcases mem_met_foldl_add.1 hz with hz | hz
      · exact h.reachable z ((hmet z).1 hz)
      · exact (h.reachable y hy).tail hz

theorem Inv.run (h : Inv succ x w) (n : Nat) : Inv succ x (w.run succ n) := by
  induction n generalizing w with
  | zero => exact h
  | succ n ih => exact ih h.turn

omit [DecidableEq α] in
/-- Where nothing is needed, the known nodes are the reachable ones. -/
theorem Inv.mem_known_iff (h : Inv succ x w) (hdone : w.needed = []) {y : α} :
    y ∈ w.known ↔ Reachable succ x y := by
  have hmet : w.met = w.known := by rw [met, hdone, nil_append]
  constructor
  · intro hy
    exact h.reachable y (hmet ▸ hy)
  · intro hy
    induction hy with
    | refl => exact hmet ▸ h.start_mem
    | tail _ hedge ih => exact hmet ▸ h.closed _ ih _ hedge

theorem run_add (m n : Nat) : w.run succ (m + n) = (w.run succ m).run succ n := by
  induction m generalizing w with
  | zero => rw [Nat.zero_add, run]
  | succ m ih => rw [Nat.succ_add, run, run, ih]

theorem run_eq_self (h : w.needed = []) (n : Nat) : w.run succ n = w := by
  induction n with
  | zero => rfl
  | succ n ih =>
    rw [Worklist.run, Worklist.turn, h]
    exact ih

theorem length_known_run (n : Nat) :
    (w.run succ n).needed = [] ∨ (w.run succ n).known.length = w.known.length + n := by
  induction n generalizing w with
  | zero => exact .inr rfl
  | succ n ih =>
    rw [Worklist.run]
    rcases ih with hdone | hlength
    · exact .inl hdone
    · unfold Worklist.turn at hlength ⊢
      split
      · next hneeded =>
        left
        rw [run_eq_self hneeded, hneeded]
      · next y rest hneeded =>
        right
        rw [hneeded] at hlength
        rw [hlength, known_foldl_add, length_cons]
        omega

/-- **The closure of a node**: enough turns leave nothing needed, and each reachable node known
once. -/
theorem run_spec (succ : α → List α) (x : α) {nodes : List α}
    (hnodes : ∀ y, ∀ z ∈ succ y, z ∈ nodes) {n : Nat} (hn : nodes.length < n) :
    ((start x).run succ n).needed = [] ∧ ((start x).run succ n).known.Nodup ∧
      ∀ y, y ∈ ((start x).run succ n).known ↔ Reachable succ x y := by
  have hinv := (inv_start succ x).run n
  have hdone : ((start x).run succ n).needed = [] := by
    by_contra hneeded
    have hlength := (length_known_run n).resolve_left hneeded
    have hsub : ((start x).run succ n).met ⊆ x :: nodes := by
      intro y hy
      rcases Relation.ReflTransGen.cases_tail (hinv.reachable y hy) with rfl | ⟨z, -, hz⟩
      · exact mem_cons_self
      · exact mem_cons_of_mem _ (hnodes z y hz)
    have hle := (subperm_of_subset hinv.nodup hsub).length_le
    have hpos := length_pos_iff.2 hneeded
    rw [met, length_append, length_cons] at hle
    omega
  exact ⟨hdone, (nodup_append.1 hinv.nodup).2.1, fun y => hinv.mem_known_iff hdone⟩

end Worklist

end SafeLibc.Lib
