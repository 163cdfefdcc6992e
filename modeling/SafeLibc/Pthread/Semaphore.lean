import SafeLibc.Lib.Runs
import SafeLibc.Lib.Threads

/-!
# The 64-bit semaphore

`__new_sem_post` and `__new_sem_wait_fast`/`__new_sem_wait_slow64` of `nptl`, the variant with
64-bit atomics, as a transition system over any number of threads. The low half of the word counts
the tokens and the high half the threads registered in the slow path. Loads, compare-and-swaps
(which may fail for no reason), the two fetch-and-adds, the futex wait and the wake are one action
each; a test of a value already loaded belongs to the action it leads to. The futex compares and
sleeps in one step, returns an error only to a thread that was not woken, and a wake takes one of
the sleepers.

No thread is left asleep beside a token because, while somebody sleeps, there are no more tokens
than threads that will look for one or owe a wake (`Inv.due`). The high half holds fewer than
`2 ^ 32` threads: `semaphore_waiters_wrap` registers that many.
-/

namespace SafeLibc.Pthread.Semaphore

open SafeLibc.Lib

def semValueMax : Nat := 2147483647

/-- `d & SEM_VALUE_MASK`. -/
def value (d : Nat) : Nat := d % 2 ^ 32

/-- `d >> SEM_NWAITERS_SHIFT`. -/
def nwaiters (d : Nat) : Nat := d / 2 ^ 32

def plus (d k : Nat) : Nat := (d + k) % 2 ^ 64

def minus (d k : Nat) : Nat := (d + 2 ^ 64 - k) % 2 ^ 64

/-- One waiter, `1 << SEM_NWAITERS_SHIFT`. -/
def waiter : Nat := 2 ^ 32

section Word

variable {d : Nat}

section

variable (hwaiters : nwaiters d < 2 ^ 32)
include hwaiters

theorem word_take (hvalue : value d ≠ 0) :
    value (minus d 1) + 1 = value d ∧ nwaiters (minus d 1) = nwaiters d := by
  unfold value nwaiters minus at *
  omega

theorem word_takeRegistered (hpos : 0 < nwaiters d) (hvalue : value d ≠ 0) :
    value (minus d (1 + waiter)) + 1 = value d ∧
      nwaiters (minus d (1 + waiter)) + 1 = nwaiters d := by
  unfold value nwaiters minus waiter at *
  omega

theorem word_post (hvalue : value d < semValueMax) :
    value (plus d 1) = value d + 1 ∧ nwaiters (plus d 1) = nwaiters d := by
  unfold value nwaiters semValueMax plus at *
  omega

end

theorem word_register (hwaiters : nwaiters d + 1 < 2 ^ 32) :
    value (plus d waiter) = value d ∧ nwaiters (plus d waiter) = nwaiters d + 1 := by
  unfold value nwaiters plus waiter at *
  omega

theorem word_deregister (hwaiters : nwaiters d < 2 ^ 32) (hpos : 0 < nwaiters d) :
    value (minus d waiter) = value d ∧ nwaiters (minus d waiter) + 1 = nwaiters d := by
  unfold value nwaiters minus waiter at *
  omega

end Word

/-- Where a thread is; `d` is the word as it saw it last. -/
inductive Pc
  | idle
  /-- `sem_wait`, before the load of the fast path. -/
  | fastLoad
  | fast (d : Nat)
  /-- Before the fetch-and-add that registers a waiter. -/
  | register
  /-- At the top of the loop of the slow path. -/
  | slow (d : Nat)
  | asleep
  /-- After the futex wait, before the load. -/
  | reload
  /-- After a failed wait, before the fetch-and-add that ends the registration. -/
  | deregister
  | postLoad
  /-- At the top of the loop of `sem_post`. -/
  | posting (d : Nat)
  /-- `sem_post` between its compare-and-swap and its wake. -/
  | waking
  deriving DecidableEq, Repr

namespace Pc

/-- Between the two ends of the registration. -/
def registered : Pc → Bool
  | slow _ | asleep | reload | deregister => true
  | _ => false

def sleeps : Pc → Bool
  | asleep => true
  | _ => false

/-- Awake in the loop of the slow path. -/
def awake : Pc → Bool
  | slow _ | reload => true
  | _ => false

/-- In the loop, and going to take a token if there is one. -/
def looks : Pc → Bool
  | slow d => value d ≠ 0
  | reload => true
  | _ => false

def owesWake : Pc → Bool
  | waking => true
  | _ => false

end Pc

/-- The word, how many posts and waits have succeeded, and the threads. -/
structure State (ι : Type*) where
  data : Nat
  posts : Nat
  waits : Nat
  pc : ι → Pc

inductive Action (ι : Type*)
  | wait (t : ι)
  | post (t : ι)
  | load (t : ι)
  /-- A weak compare-and-swap; it may fail although the word is the expected one. -/
  | exchange (t : ι) (fails : Bool)
  | fetchAdd (t : ι)
  | futexWait (t : ι)
  /-- The wait returns without a wake and without an error. -/
  | futexReturn (t : ι)
  /-- The wait times out, is interrupted or overflows. -/
  | futexFail (t : ι)
  | wake (t : ι) (woken : Option ι)
  deriving DecidableEq, Repr

section

variable {ι : Type*}

def State.start (initial : Nat) : State ι := ⟨initial, 0, 0, fun _ => .idle⟩

variable [DecidableEq ι]

def State.move (s : State ι) (t : ι) (pc : Pc) : State ι :=
  { s with pc := Function.update s.pc t pc }

variable [Fintype ι]

def step (s : State ι) : Action ι → Option (State ι)
  | .wait t => if s.pc t = .idle then some (s.move t .fastLoad) else none
  | .post t => if s.pc t = .idle then some (s.move t .postLoad) else none
  | .load t =>
    match s.pc t with
    | .fastLoad => some (s.move t (.fast s.data))
    | .reload => some (s.move t (.slow s.data))
    | .postLoad => some (s.move t (.posting s.data))
    | _ => none
  | .exchange t fails =>
    match s.pc t with
    | .fast d =>
      if value d = 0 then some (s.move t .register)
      else if s.data = d ∧ fails = false then
        some { s.move t .idle with data := minus d 1, waits := s.waits + 1 }
      else some (s.move t .register)
    | .slow d =>
      if value d = 0 then none
      else if s.data = d ∧ fails = false then
        some { s.move t .idle with data := minus d (1 + waiter), waits := s.waits + 1 }
      else some (s.move t (.slow s.data))
    | .posting d =>
      -- `EOVERFLOW`
      if value d = semValueMax then some (s.move t .idle)
      else if s.data = d ∧ fails = false then
        some { s.move t (if 0 < nwaiters d then .waking else .idle) with
          data := plus d 1, posts := s.posts + 1 }
      else some (s.move t (.posting s.data))
    | _ => none
  | .fetchAdd t =>
    match s.pc t with
    | .register => some { s.move t (.slow s.data) with data := plus s.data waiter }
    | .deregister => some { s.move t .idle with data := minus s.data waiter }
    | _ => none
  | .futexWait t =>
    match s.pc t with
    | .slow d =>
      if value d ≠ 0 then none
      else if value s.data = 0 then some (s.move t .asleep) else some (s.move t .reload)
    | _ => none
  | .futexReturn t =>
    match s.pc t with
    | .slow d => if value d ≠ 0 then none else some (s.move t .reload)
    | .asleep => some (s.move t .reload)
    | _ => none
  | .futexFail t =>
    match s.pc t with
    | .slow d => if value d ≠ 0 then none else some (s.move t .deregister)
    | .asleep => some (s.move t .deregister)
    | _ => none
  | .wake t woken =>
    if s.pc t = .waking then
      match woken with
      | some u => if s.pc u = .asleep then some ((s.move t .idle).move u .reload) else none
      | none => if ∀ u, s.pc u ≠ .asleep then some (s.move t .idle) else none
    else none

end

/-! ## The invariant -/

section

variable {ι : Type*} [Fintype ι]

/-- There is a token and somebody sleeps, but nobody in the loop is awake and no wake is due. -/
def State.Stranded (s : State ι) : Prop :=
  0 < value s.data ∧ (∃ t, s.pc t = .asleep) ∧ (∀ t, (s.pc t).awake = false) ∧
    ∀ t, s.pc t ≠ .waking

structure Inv (initial : Nat) (s : State ι) : Prop where
  waiters : nwaiters s.data = population Pc.registered s.pc
  tokens : value s.data + s.waits = initial + s.posts
  value_le : value s.data ≤ semValueMax
  due : 0 < population Pc.sleeps s.pc →
    value s.data ≤ population Pc.looks s.pc + population Pc.owesWake s.pc

variable {initial : Nat} {s : State ι}

variable {t : ι} {s' : State ι} {x y : Pc}

theorem Inv.nwaiters_pos (h : Inv initial s) (hpc : s.pc t = x) (hx : x.registered = true) :
    0 < nwaiters s.data := by
  rw [h.waiters]
  exact population_pos.mpr ⟨t, by rw [hpc, hx]⟩

theorem Inv.sleeps_eq_zero (h : Inv initial s) (hnone : nwaiters s.data = 0) :
    population Pc.sleeps s.pc = 0 := by
  refine population_eq_zero.mpr fun t => ?_
  cases hpc : s.pc t with
  | asleep => exact absurd hnone (h.nwaiters_pos hpc rfl).ne'
  | _ => rfl

theorem Inv.nwaiters_lt (hcard : Fintype.card ι < 2 ^ 32) (h : Inv initial s) :
    nwaiters s.data < 2 ^ 32 := by
  rw [h.waiters]
  exact (population_le_card ..).trans_lt hcard

theorem inv_start (hinitial : initial ≤ semValueMax) :
    Inv initial (State.start initial : State ι) := by
  have hsmall : initial < 2 ^ 32 := hinitial.trans_lt (by decide)
  have hvalue : value initial = initial := Nat.mod_eq_of_lt hsmall
  refine ⟨?_, ?_, ?_, fun hasleep => ?_⟩
  · rw [population_eq_zero.mpr fun _ => rfl]
    exact Nat.div_eq_of_lt hsmall
  · exact congrArg (· + 0) hvalue
  · exact hvalue.trans_le hinitial
  · rw [population_eq_zero.mpr fun _ => rfl] at hasleep
    exact absurd hasleep (lt_irrefl 0)

theorem Inv.not_stranded (h : Inv initial s) : ¬ s.Stranded := by
  rintro ⟨hpos, ⟨t, hasleep⟩, hawake, hwaking⟩
  have hlooks : population Pc.looks s.pc = 0 := population_eq_zero.mpr fun u => by
    have hu := hawake u
    cases hpc : s.pc u with
    | slow d => rw [hpc] at hu; cases hu
    | reload => rw [hpc] at hu; cases hu
    | _ => rfl
  have howes : population Pc.owesWake s.pc = 0 := population_eq_zero.mpr fun u => by
    cases hpc : s.pc u with
    | waking => exact absurd hpc (hwaking u)
    | _ => rfl
  have hdue := h.due (population_pos.mpr ⟨t, by rw [hasleep]; rfl⟩)
  rw [hlooks, howes] at hdue
  exact absurd hpos (not_lt.mpr hdue)

variable [DecidableEq ι]

section

variable (h : Inv initial s)

include h

/-- One thread goes from `x` to `y` and leaves the word `d` behind. -/
theorem Inv.move {d posts waits : Nat} (hpc : s.pc t = x)
    (hwaiters : nwaiters d + x.registered.toNat = nwaiters s.data + y.registered.toNat)
    (htokens : value d + waits + s.posts = value s.data + s.waits + posts)
    (hle : value d ≤ semValueMax)
    (hdue : y.sleeps.toNat ≤ x.sleeps.toNat ∧ value d + x.looks.toNat + x.owesWake.toNat ≤
        value s.data + y.looks.toNat + y.owesWake.toNat ∨
      value d = 0 ∨ population Pc.sleeps s.pc + y.sleeps.toNat = 0) :
    Inv initial { s.move t y with data := d, posts := posts, waits := waits } := by
  have hregistered := population_update hpc Pc.registered y
  have hsleeps := population_update hpc Pc.sleeps y
  have hlooks := population_update hpc Pc.looks y
  have howes := population_update hpc Pc.owesWake y
  refine ⟨?_, ?_, hle, fun hasleep => ?_⟩
  · have hold := h.waiters
    simp only [State.move]
    omega
  · have hold := h.tokens
    simp only
    omega
  · have hold := h.due
    simp only [State.move] at hasleep ⊢
    omega

theorem Inv.quiet (hpc : s.pc t = x) (hregistered : y.registered = x.registered)
    (hdue : y.sleeps.toNat ≤ x.sleeps.toNat ∧
        x.looks.toNat + x.owesWake.toNat ≤ y.looks.toNat + y.owesWake.toNat ∨
      value s.data = 0 ∨ population Pc.sleeps s.pc + y.sleeps.toNat = 0) :
    Inv initial (s.move t y) := by
  refine h.move hpc ?_ (by omega) h.value_le (by omega)
  rw [hregistered]

theorem Inv.load (hstep : step s (.load t) = some s') : Inv initial s' := by
  simp only [step] at hstep
  split at hstep
  · next hpc =>
    cases hstep
    exact h.quiet hpc rfl (.inl ⟨le_rfl, le_rfl⟩)
  · next hpc =>
    cases hstep
    refine h.quiet hpc rfl ?_
    by_cases hzero : value s.data = 0
    · exact .inr (.inl hzero)
    · exact .inl ⟨le_rfl, by simp [Pc.looks, Pc.owesWake, hzero]⟩
  · next hpc =>
    cases hstep
    exact h.quiet hpc rfl (.inl ⟨le_rfl, le_rfl⟩)
  · cases hstep

theorem Inv.futexWait (hstep : step s (.futexWait t) = some s') : Inv initial s' := by
  simp only [step] at hstep
  split at hstep
  · next d hpc =>
    split at hstep
    · cases hstep
    · split at hstep
      · next hempty =>
        cases hstep
        exact h.quiet hpc rfl (.inr (.inl hempty))
      · cases hstep
        exact h.quiet hpc rfl (.inl ⟨le_rfl, Nat.add_le_add_right (Bool.toNat_le _) _⟩)
  · cases hstep

theorem Inv.futexReturn (hstep : step s (.futexReturn t) = some s') : Inv initial s' := by
  simp only [step] at hstep
  split at hstep
  · next d hpc =>
    split at hstep
    · cases hstep
    · cases hstep
      exact h.quiet hpc rfl (.inl ⟨le_rfl, Nat.add_le_add_right (Bool.toNat_le _) _⟩)
  · next hpc =>
    cases hstep
    exact h.quiet hpc rfl (.inl ⟨Nat.zero_le _, by simp [Pc.looks, Pc.owesWake]⟩)
  · cases hstep

theorem Inv.futexFail (hstep : step s (.futexFail t) = some s') : Inv initial s' := by
  simp only [step] at hstep
  split at hstep
  · next d hpc =>
    split at hstep
    · cases hstep
    · next hd =>
      have hzero : value d = 0 := Decidable.not_not.mp hd
      cases hstep
      exact h.quiet hpc rfl (.inl ⟨le_rfl, by simp [Pc.looks, Pc.owesWake, hzero]⟩)
  · next hpc =>
    cases hstep
    exact h.quiet hpc rfl (.inl ⟨Nat.zero_le _, le_rfl⟩)
  · cases hstep

/-- A wake moves the debt of the poster to the thread it wakes. -/
theorem Inv.wake {woken : Option ι} (hstep : step s (.wake t woken) = some s') :
    Inv initial s' := by
  simp only [step, Option.ite_none_right_eq_some] at hstep
  obtain ⟨hpc, hstep⟩ := hstep
  cases woken with
  | none =>
    simp only [Option.ite_none_right_eq_some, Option.some.injEq] at hstep
    obtain ⟨hnobody, rfl⟩ := hstep
    have hzero : population Pc.sleeps s.pc = 0 := population_eq_zero.mpr fun u => by
      cases hu : s.pc u with
      | asleep => exact absurd hu (hnobody u)
      | _ => rfl
    exact h.quiet hpc rfl (.inr (.inr hzero))
  | some u =>
    simp only [Option.ite_none_right_eq_some, Option.some.injEq] at hstep
    obtain ⟨hsleeper, rfl⟩ := hstep
    have hne : u ≠ t := by
      rintro rfl
      rw [hpc] at hsleeper
      cases hsleeper
    have hsleeper' : (s.move t .idle).pc u = .asleep := by
      rw [← hsleeper]
      exact Function.update_of_ne hne _ _
    have hregistered := population_update hpc Pc.registered .idle
    have hregistered' := population_update hsleeper' Pc.registered .reload
    have hsleeps := population_update hpc Pc.sleeps .idle
    have hsleeps' := population_update hsleeper' Pc.sleeps .reload
    have hlooks := population_update hpc Pc.looks .idle
    have hlooks' := population_update hsleeper' Pc.looks .reload
    have howes := population_update hpc Pc.owesWake .idle
    have howes' := population_update hsleeper' Pc.owesWake .reload
    simp only [State.move, Pc.registered, Pc.sleeps, Pc.looks, Pc.owesWake, Bool.toNat_true,
      Bool.toNat_false] at *
    refine ⟨?_, h.tokens, h.value_le, fun hasleep => ?_⟩
    · have hold := h.waiters
      simp only
      omega
    · have hold := h.due (by omega)
      simp only
      omega

end

variable (hcard : Fintype.card ι < 2 ^ 32)

include hcard

section

variable (h : Inv initial s)

include h

theorem Inv.exchange {fails : Bool} (hstep : step s (.exchange t fails) = some s') :
    Inv initial s' := by
  have hlt := h.nwaiters_lt hcard
  have hle := h.value_le
  simp only [step] at hstep
  split at hstep
  · next d hpc =>
    split at hstep
    · cases hstep
      exact h.quiet hpc rfl (.inl ⟨le_rfl, le_rfl⟩)
    · next hvalue =>
      split at hstep
      · next hsame =>
        obtain rfl := Option.some.inj hstep
        obtain ⟨rfl, -⟩ := hsame
        obtain ⟨htoken, hwaiters⟩ := word_take hlt hvalue
        refine h.move hpc ?_ ?_ ?_ (.inl ⟨le_rfl, ?_⟩)
        · simp only [Pc.registered]
          omega
        · simp only [State.move]
          omega
        · omega
        · simp only [Pc.looks, Pc.owesWake]
          omega
      · cases hstep
        exact h.quiet hpc rfl (.inl ⟨le_rfl, le_rfl⟩)
  · next d hpc =>
    split at hstep
    · cases hstep
    · next hvalue =>
      split at hstep
      · next hsame =>
        obtain rfl := Option.some.inj hstep
        obtain ⟨rfl, -⟩ := hsame
        obtain ⟨htoken, hwaiters⟩ := word_takeRegistered hlt (h.nwaiters_pos hpc rfl) hvalue
        refine h.move hpc ?_ ?_ ?_ (.inl ⟨le_rfl, ?_⟩)
        · simp only [Pc.registered, Bool.toNat_true, Bool.toNat_false]
          omega
        · simp only [State.move]
          omega
        · omega
        · have hlooks : (Pc.slow s.data).looks = true := decide_eq_true hvalue
          rw [hlooks]
          simp only [Pc.owesWake, Bool.toNat_true]
          omega
      · cases hstep
        refine h.quiet hpc rfl ?_
        by_cases hzero : value s.data = 0
        · exact .inr (.inl hzero)
        · exact .inl ⟨le_rfl, by simp [Pc.looks, Pc.owesWake, hzero, hvalue]⟩
  · next d hpc =>
    split at hstep
    · cases hstep
      exact h.quiet hpc rfl (.inl ⟨le_rfl, le_rfl⟩)
    · next hvalue =>
      split at hstep
      · next hsame =>
        obtain rfl := Option.some.inj hstep
        obtain ⟨rfl, -⟩ := hsame
        obtain ⟨htoken, hwaiters⟩ := word_post hlt (by omega)
        by_cases hwake : 0 < nwaiters s.data
        · rw [if_pos hwake]
          refine h.move hpc (by simp only [Pc.registered]; omega) ?_ (by omega) (.inl ⟨le_rfl, ?_⟩)
          · simp only [State.move]
            omega
          · simp only [Pc.looks, Pc.owesWake, Bool.toNat_true, Bool.toNat_false]
            omega
        · -- nobody is registered, so nobody sleeps
          rw [if_neg hwake]
          have hnone : population Pc.sleeps s.pc = 0 := h.sleeps_eq_zero (Nat.le_zero.mp
            (Nat.le_of_not_lt hwake))
          refine h.move hpc (by simp only [Pc.registered]; omega) ?_ (by omega) (.inr (.inr hnone))
          simp only [State.move]
          omega
      · cases hstep
        exact h.quiet hpc rfl (.inl ⟨le_rfl, le_rfl⟩)
  · cases hstep

/-- A thread that is not registered leaves room for one more. -/
theorem Inv.register (hpc : s.pc t = .register) :
    Inv initial { s.move t (.slow s.data) with data := plus s.data waiter } := by
  have hroom : nwaiters s.data + 1 < 2 ^ 32 := by
    have hmove := population_update hpc Pc.registered .reload
    have hmax := population_le_card Pc.registered (Function.update s.pc t .reload)
    simp only [Pc.registered, Bool.toNat_true, Bool.toNat_false] at hmove
    have hold := h.waiters
    omega
  obtain ⟨htoken, hwaiters⟩ := word_register hroom
  have hregistered : nwaiters (plus s.data waiter) + Pc.register.registered.toNat =
      nwaiters s.data + (Pc.slow s.data).registered.toNat := by
    rw [hwaiters]
    rfl
  have hlooks : value (plus s.data waiter) + Pc.register.looks.toNat +
      Pc.register.owesWake.toNat ≤
        value s.data + (Pc.slow s.data).looks.toNat + (Pc.slow s.data).owesWake.toNat := by
    rw [htoken]
    exact Nat.add_le_add_right (Nat.add_le_add_left (Nat.zero_le _) _) _
  refine h.move hpc hregistered ?_ ?_ (.inl ⟨le_rfl, hlooks⟩)
  · rw [htoken]
    rfl
  · rw [htoken]
    exact h.value_le

theorem Inv.deregister (hpc : s.pc t = .deregister) :
    Inv initial { s.move t .idle with data := minus s.data waiter } := by
  obtain ⟨htoken, hwaiters⟩ := word_deregister (h.nwaiters_lt hcard) (h.nwaiters_pos hpc rfl)
  refine h.move hpc hwaiters ?_ ?_ (.inl ⟨le_rfl, ?_⟩)
  · rw [htoken]
    rfl
  · rw [htoken]
    exact h.value_le
  · rw [htoken]
    exact le_rfl

theorem Inv.fetchAdd (hstep : step s (.fetchAdd t) = some s') : Inv initial s' := by
  simp only [step] at hstep
  split at hstep
  · next hpc =>
    obtain rfl := Option.some.inj hstep
    exact h.register hcard hpc
  · next hpc =>
    obtain rfl := Option.some.inj hstep
    exact h.deregister hcard hpc
  · cases hstep

theorem Inv.step {a : Action ι} (hstep : step s a = some s') : Inv initial s' := by
  cases a with
  | wait t | post t =>
    simp only [Semaphore.step, Option.ite_none_right_eq_some, Option.some.injEq] at hstep
    obtain ⟨hpc, rfl⟩ := hstep
    exact h.quiet hpc rfl (.inl ⟨le_rfl, le_rfl⟩)
  | load t => exact h.load hstep
  | exchange t fails => exact h.exchange hcard hstep
  | fetchAdd t => exact h.fetchAdd hcard hstep
  | futexWait t => exact h.futexWait hstep
  | futexReturn t => exact h.futexReturn hstep
  | futexFail t => exact h.futexFail hstep
  | wake t woken => exact h.wake hstep

end

/-- **The semaphore over every interleaving** of fewer than `2 ^ 32` threads: the tokens are what
was there and was posted less what was taken, the high half is the number of registered threads, and
nobody is left asleep beside a token. -/
theorem semaphore_safe (hinitial : initial ≤ semValueMax)
    (h : Reaches Semaphore.step (fun _ _ => true) (State.start initial) s) :
    value s.data + s.waits = initial + s.posts ∧
      nwaiters s.data = population Pc.registered s.pc ∧ ¬ s.Stranded := by
  have hinv : Inv initial s :=
    h.invariant (inv_start hinitial) fun _ _ _ hs _ hstep => hs.step hcard hstep
  exact ⟨hinv.tokens, hinv.waiters, hinv.not_stranded⟩

end

/-- Thread 0 sleeps, thread 1 has posted and owes the wake, and thread 2 has taken the token. -/
theorem semaphore_safe_barging :
    ∃ s : State (Fin 3), s.pc 0 = .asleep ∧ s.pc 1 = .waking ∧ s.waits = 1 ∧
      value s.data + s.waits = 0 + s.posts ∧
      nwaiters s.data = population Pc.registered s.pc ∧ ¬ s.Stranded := by
  have hrun : (replay step (fun _ _ => true) (State.start 0 : State (Fin 3))
      [.wait 0, .load 0, .exchange 0 false, .fetchAdd 0, .futexWait 0, .post 1, .load 1,
        .exchange 1 false, .wait 2, .load 2, .exchange 2 false]).map
        (fun s => (s.pc 0, s.pc 1, s.waits)) = some (.asleep, .waking, 1) := by
    decide +kernel
  obtain ⟨s, hreplay, hpcs⟩ := Option.map_eq_some_iff.mp hrun
  simp only [Prod.mk.injEq] at hpcs
  exact ⟨s, hpcs.1, hpcs.2.1, hpcs.2.2,
    semaphore_safe (by simp) (Nat.zero_le _) (reaches_of_replay hreplay)⟩

/-! ## The width of the waiter field -/

section Wrap

variable {n : Nat}

def crowd (n k : Nat) : State (Fin n) :=
  ⟨k * waiter % 2 ^ 64, 0, 0, fun t => if t.val < k then .slow (t.val * waiter % 2 ^ 64) else .idle⟩

theorem value_crowd (k : Nat) : value (k * waiter % 2 ^ 64) = 0 := by
  unfold value waiter
  omega

variable {k : Nat}

/-- The next thread registers, too. -/
theorem replay_crowd (hk : k < n) : replay step (fun _ _ => true) (crowd n k)
      [.wait ⟨k, hk⟩, .load ⟨k, hk⟩, .exchange ⟨k, hk⟩ false, .fetchAdd ⟨k, hk⟩] =
        some (crowd n (k + 1)) := by
  have hidle : (crowd n k).pc ⟨k, hk⟩ = .idle := if_neg (lt_irrefl k)
  have hpc : Function.update (crowd n k).pc ⟨k, hk⟩ (.slow (k * waiter % 2 ^ 64)) =
      (crowd n (k + 1)).pc := by
    funext t
    by_cases ht : t = ⟨k, hk⟩
    · subst ht
      rw [Function.update_self]
      exact (if_pos (Nat.lt_succ_self k)).symm
    · rw [Function.update_of_ne ht]
      have hne : t.val ≠ k := fun heq => ht (Fin.ext heq)
      simp only [crowd]
      by_cases hlt : t.val < k
      · rw [if_pos hlt, if_pos (Nat.lt_succ_of_lt hlt)]
      · rw [if_neg hlt, if_neg (by omega)]
  have hdata : plus (k * waiter % 2 ^ 64) waiter = (k + 1) * waiter % 2 ^ 64 := by
    unfold plus waiter
    omega
  simp only [replay, if_true, step, hidle, Option.bind_some, State.move, Function.update_self]
  have hvalue : value (crowd n k).data = 0 := value_crowd k
  rw [if_pos hvalue]
  simp only [Option.bind_some, Function.update_self, Function.update_idem]
  simp only [crowd] at hpc ⊢
  rw [hpc, hdata]

theorem reaches_crowd (hk : k ≤ n) :
    Reaches step (fun _ _ => true) (State.start 0) (crowd n k) := by
  induction k with
  | zero =>
    have hstart : crowd n 0 = State.start 0 := by
      simp [crowd, State.start]
    exact .start
  | succ k ih =>
    exact (ih (Nat.le_of_succ_le hk)).trans (reaches_of_replay (replay_crowd hk))

end Wrap

/-- **The high half counts modulo `2 ^ 32`**: when that many threads have registered, it is 0. -/
theorem semaphore_waiters_wrap :
    ∃ s : State (Fin (2 ^ 32)), Reaches step (fun _ _ => true) (State.start 0) s ∧
      population Pc.registered s.pc = 2 ^ 32 ∧ nwaiters s.data = 0 := by
  refine ⟨crowd (2 ^ 32) (2 ^ 32), reaches_crowd le_rfl, ?_, by decide⟩
  rw [population_eq_card fun t => ?_, Fintype.card_fin]
  simp only [crowd, if_pos t.isLt, Pc.registered]

end SafeLibc.Pthread.Semaphore
