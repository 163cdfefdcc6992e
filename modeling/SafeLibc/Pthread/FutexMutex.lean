import SafeLibc.Lib.Runs
import SafeLibc.Lib.Threads

/-!
# The futex mutex

`FutexMutex` of `libpthread`'s `sync.rs` as a transition system over any number of threads: the
compare-exchange of `lock`, the futex wait behind it, and the store and the wake of `unlock` are one
action each. The kernel compares the word and puts the caller to sleep in one step, a wait may
return at any time, and a wake takes one of the sleepers, whichever it likes, if there is one.

The invariant counts threads (`Inv`): as many hold the mutex as the word says, and while the word is
0 and somebody sleeps, a wake is due or a woken thread is about to try again.
-/

namespace SafeLibc.Pthread.FutexMutex

open SafeLibc.Lib

/-- Where a thread is: before the compare-exchange of `lock` (after a wake or not), before or in the
futex wait, between `lock` and `unlock`, or between the store and the wake of `unlock`. -/
inductive Pc
  | idle
  | locking (woken : Bool)
  | waiting
  | asleep
  | holding
  | waking
  deriving DecidableEq, Repr

structure State (ι : Type*) where
  /-- The word, an `AtomicI32`. -/
  state : Int
  pc : ι → Pc

/-- One step of a thread. -/
inductive Action (ι : Type*)
  | lock (t : ι)
  | compareExchange (t : ι)
  | wait (t : ι)
  | spuriousReturn (t : ι)
  | store (t : ι)
  | wake (t : ι) (woken : Option ι)
  deriving DecidableEq, Repr

section

variable {ι : Type*}

def State.start : State ι := ⟨0, fun _ => .idle⟩

variable [DecidableEq ι]

def State.move (s : State ι) (word : Int) (t : ι) (pc : Pc) : State ι :=
  ⟨word, Function.update s.pc t pc⟩

variable [Fintype ι]

def step (s : State ι) : Action ι → Option (State ι)
  | .lock t => if s.pc t = .idle then some (s.move s.state t (.locking false)) else none
  | .compareExchange t =>
    match s.pc t with
    | .locking _ =>
      if s.state = 0 then some (s.move 1 t .holding) else some (s.move s.state t .waiting)
    | _ => none
  | .wait t =>
    if s.pc t = .waiting then
      if s.state = 1 then some (s.move s.state t .asleep)
      else some (s.move s.state t (.locking false))
    else none
  | .spuriousReturn t =>
    if s.pc t = .asleep then some (s.move s.state t (.locking false)) else none
  | .store t => if s.pc t = .holding then some (s.move 0 t .waking) else none
  | .wake t woken =>
    if s.pc t = .waking then
      match woken with
      | some u =>
        if s.pc u = .asleep then
          some ((s.move s.state t .idle).move s.state u (.locking true))
        else none
      | none => if ∀ u, s.pc u ≠ .asleep then some (s.move s.state t .idle) else none
    else none

end

/-! ## The invariant -/

section

variable {ι : Type*} [Fintype ι]

/-- How many threads are there. -/
def State.at (s : State ι) (pc : Pc) : Nat := population (fun x => decide (x = pc)) s.pc

/-- The mutex is free and somebody sleeps, but no wake is due and no woken thread tries again. -/
def State.Stranded (s : State ι) : Prop :=
  s.state = 0 ∧ (∃ t, s.pc t = .asleep) ∧ (∀ t, s.pc t ≠ .waking) ∧ ∀ t, s.pc t ≠ .locking true

/-- The counts of threads that every step keeps. -/
structure Inv (s : State ι) : Prop where
  holders : s.state = s.at .holding
  holders_le : s.at .holding ≤ 1
  due : s.state = 0 → 0 < s.at .asleep → 0 < s.at .waking + s.at (.locking true)

variable {t : ι} {pc x : Pc} {woken : Bool} {s s' : State ι}

theorem at_pos (h : s.pc t = pc) : 0 < s.at pc :=
  population_pos.mpr ⟨t, decide_eq_true h⟩

theorem at_eq_zero (h : ∀ t, s.pc t ≠ pc) : s.at pc = 0 :=
  population_eq_zero.mpr fun t => decide_eq_false (h t)

theorem inv_start : Inv (State.start : State ι) := by
  have hzero : ∀ pc, pc ≠ .idle → (State.start : State ι).at pc = 0 := fun pc hne =>
    at_eq_zero fun _ heq => hne heq.symm
  refine ⟨?_, ?_, fun _ hsleeper => ?_⟩
  · rw [hzero .holding (by decide)]
    rfl
  · rw [hzero .holding (by decide)]
    exact Nat.zero_le 1
  · rw [hzero .asleep (by decide)] at hsleeper
    exact absurd hsleeper (lt_irrefl 0)

theorem Inv.not_stranded (h : Inv s) : ¬ s.Stranded := by
  rintro ⟨hfree, ⟨t, hasleep⟩, hwaking, hwoken⟩
  have hdue := h.due hfree (at_pos hasleep)
  rw [at_eq_zero hwaking, at_eq_zero hwoken] at hdue
  exact absurd hdue (lt_irrefl 0)

theorem Inv.keep (h : Inv s) (hword : s'.state = s.state)
    (hholding : s'.at .holding = s.at .holding)
    (hdue : s.state = 0 → 0 < s'.at .asleep → 0 < s'.at .waking + s'.at (.locking true)) :
    Inv s' := by
  refine ⟨?_, hholding ▸ h.holders_le, hword ▸ hdue⟩
  rw [hword, hholding]
  exact h.holders

variable [DecidableEq ι] {s : State ι}

theorem at_move (h : s.pc t = x) (word : Int) (y pc : Pc) :
    (s.move word t y).at pc + (decide (x = pc)).toNat = s.at pc + (decide (y = pc)).toNat :=
  population_update h _ y

section

variable (h : Inv s)
include h

/-- A thread that leaves an uncounted place, or the futex wait, to try again. -/
theorem Inv.retry (hpc : s.pc t = x) (hx : x = .idle ∨ x = .waiting ∨ x = .asleep) :
    Inv (s.move s.state t (.locking false)) := by
  have hholding := at_move hpc s.state (.locking false) .holding
  have hasleep := at_move hpc s.state (.locking false) .asleep
  have hwaking := at_move hpc s.state (.locking false) .waking
  have hwoken := at_move hpc s.state (.locking false) (.locking true)
  rcases hx with rfl | rfl | rfl <;> simp at hholding hasleep hwaking hwoken
  all_goals
    refine h.keep rfl hholding fun hfree hsleeper => ?_
    have hdue := h.due hfree (by omega)
    omega

theorem Inv.acquire (hpc : s.pc t = .locking woken) (hfree : s.state = 0) :
    Inv (s.move 1 t .holding) := by
  have hholding := at_move hpc 1 .holding .holding
  simp at hholding
  have hnone : s.at .holding = 0 := by
    have := h.holders
    omega
  refine ⟨?_, ?_, fun hword => absurd hword Int.one_ne_zero⟩
  · rw [hholding, hnone]
    rfl
  · rw [hholding, hnone]

theorem Inv.blocked (hpc : s.pc t = .locking woken) (htaken : s.state ≠ 0) :
    Inv (s.move s.state t .waiting) := by
  have hholding := at_move hpc s.state .waiting .holding
  exact h.keep rfl hholding fun hfree => absurd hfree htaken

theorem Inv.sleep (hpc : s.pc t = .waiting) (htaken : s.state = 1) :
    Inv (s.move s.state t .asleep) := by
  have hholding := at_move hpc s.state .asleep .holding
  exact h.keep rfl hholding fun hfree => absurd (htaken.symm.trans hfree) (by decide)

theorem Inv.store (hpc : s.pc t = .holding) : Inv (s.move 0 t .waking) := by
  have hholding := at_move hpc 0 .waking .holding
  have hwaking := at_move hpc 0 .waking .waking
  simp at hholding hwaking
  have hone := h.holders_le
  have hnone : (s.move 0 t .waking).at .holding = 0 := by omega
  refine ⟨?_, ?_, fun _ _ => ?_⟩
  · rw [hnone]
    rfl
  · omega
  · omega

theorem Inv.wake {u : ι} (hpc : s.pc t = .waking) (hsleeper : s.pc u = .asleep) :
    Inv ((s.move s.state t .idle).move s.state u (.locking true)) := by
  have hne : u ≠ t := by
    rintro rfl
    rw [hpc] at hsleeper
    cases hsleeper
  have hsleeper' : (s.move s.state t .idle).pc u = .asleep := by
    rw [← hsleeper]
    exact Function.update_of_ne hne _ _
  have hholding := at_move hpc s.state .idle .holding
  have hholding' := at_move hsleeper' s.state (.locking true) .holding
  have hwoken := at_move hsleeper' s.state (.locking true) (.locking true)
  simp at hholding hholding' hwoken
  refine h.keep rfl (hholding'.trans hholding) fun _ _ => ?_
  omega

theorem Inv.wakeNobody (hpc : s.pc t = .waking) (hnobody : ∀ u, s.pc u ≠ .asleep) :
    Inv (s.move s.state t .idle) := by
  have hholding := at_move hpc s.state .idle .holding
  have hasleep := at_move hpc s.state .idle .asleep
  simp at hholding hasleep
  have hzero := at_eq_zero hnobody
  refine h.keep rfl hholding fun _ hsleeper => ?_
  omega

theorem Inv.step {a : Action ι} (hstep : step s a = some s') :
    Inv s' := by
  cases a with
  | lock t =>
    simp only [FutexMutex.step, Option.ite_none_right_eq_some, Option.some.injEq] at hstep
    obtain ⟨hpc, rfl⟩ := hstep
    exact h.retry hpc (.inl rfl)
  | compareExchange t =>
    simp only [FutexMutex.step] at hstep
    split at hstep
    · next woken hpc =>
      split at hstep
      · next hfree =>
        cases hstep
        exact h.acquire hpc hfree
      · next htaken =>
        cases hstep
        exact h.blocked hpc htaken
    · cases hstep
  | wait t =>
    simp only [FutexMutex.step, Option.ite_none_right_eq_some] at hstep
    obtain ⟨hpc, hstep⟩ := hstep
    split at hstep
    · next htaken =>
      cases hstep
      exact h.sleep hpc htaken
    · cases hstep
      exact h.retry hpc (.inr (.inl rfl))
  | spuriousReturn t =>
    simp only [FutexMutex.step, Option.ite_none_right_eq_some, Option.some.injEq] at hstep
    obtain ⟨hpc, rfl⟩ := hstep
    exact h.retry hpc (.inr (.inr rfl))
  | store t =>
    simp only [FutexMutex.step, Option.ite_none_right_eq_some, Option.some.injEq] at hstep
    obtain ⟨hpc, rfl⟩ := hstep
    exact h.store hpc
  | wake t woken =>
    simp only [FutexMutex.step, Option.ite_none_right_eq_some] at hstep
    obtain ⟨hpc, hstep⟩ := hstep
    cases woken with
    | none =>
      simp only [Option.ite_none_right_eq_some, Option.some.injEq] at hstep
      obtain ⟨hnobody, rfl⟩ := hstep
      exact h.wakeNobody hpc hnobody
    | some u =>
      simp only [Option.ite_none_right_eq_some, Option.some.injEq] at hstep
      obtain ⟨hsleeper, rfl⟩ := hstep
      exact h.wake hpc hsleeper

end

/-- **The mutex over every interleaving**: at most one thread holds it, and no thread is left asleep
on a free mutex. -/
theorem futexMutex_safe (h : Reaches FutexMutex.step (fun _ _ => true) State.start s) :
    (∀ t u, s.pc t = .holding → s.pc u = .holding → t = u) ∧ ¬ s.Stranded := by
  have hinv : Inv s := h.invariant inv_start fun _ _ _ hs _ hstep => hs.step hstep
  refine ⟨fun t u ht hu => ?_, hinv.not_stranded⟩
  exact eq_of_population_le_one hinv.holders_le (decide_eq_true ht) (decide_eq_true hu)

end

/-- Thread 0 has unlocked while thread 1 slept; thread 2 has taken the mutex before the wake. -/
theorem futexMutex_safe_barging :
    ∃ s : State (Fin 3), s.pc 0 = .waking ∧ s.pc 1 = .asleep ∧ s.pc 2 = .holding ∧
      (∀ t u, s.pc t = .holding → s.pc u = .holding → t = u) ∧ ¬ s.Stranded := by
  have hrun : (replay FutexMutex.step (fun _ _ => true) (State.start : State (Fin 3))
      [.lock 0, .compareExchange 0, .lock 1, .compareExchange 1, .wait 1, .store 0, .lock 2,
        .compareExchange 2]).map (fun s => (s.pc 0, s.pc 1, s.pc 2)) =
        some (.waking, .asleep, .holding) := by
    decide +kernel
  obtain ⟨s, hreplay, hpcs⟩ := Option.map_eq_some_iff.mp hrun
  simp only [Prod.mk.injEq] at hpcs
  exact ⟨s, hpcs.1, hpcs.2.1, hpcs.2.2, futexMutex_safe (reaches_of_replay hreplay)⟩

end SafeLibc.Pthread.FutexMutex
