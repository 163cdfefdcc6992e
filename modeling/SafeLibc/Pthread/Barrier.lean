import SafeLibc.Lib.Runs
import SafeLibc.Lib.Threads

/-!
# The barrier

`___pthread_barrier_wait` of `nptl` as a transition system over any number of threads that call it
any number of times. The fetch-and-adds on `in` and `out`, the loads, the compare-and-swap of
`current_round` (which may fail for no reason), the futex waits and wakes and the three stores of
the reset are one action each; a test of a value already loaded belongs to the action before it. A
futex wait compares and sleeps in one step and may return at any time; a wake takes all sleepers of
its word.

A call that gets a position up to `max_in_before_reset` has *entered*. The model numbers these calls
in the order of their entries, across resets, and keeps a list of the calls that have returned: both
are for the statements only. Round `r` consists of the calls `r * count + 1` to `(r + 1) * count`.

`barrier_safe` is the result. Its invariant has three parts: how many threads are where
(`Counters`), what the words say about the rounds in flight (`Rounds`), and which calls are in
flight or have returned (`Calls`).
-/

namespace SafeLibc.Pthread.Barrier

open SafeLibc.Lib List

/-! ## The model -/

/-- `UINT_MAX / 2`. -/
def barrierInThreshold : Nat := 2147483647

def barrierSerialThread : Int := -1

def maxInBeforeReset (count : Nat) : Nat := barrierInThreshold - barrierInThreshold % count

def wrap (x : Nat) : Nat := x % 2 ^ 32

inductive Phase
  | loadRound
  | tryFinish (cr : Nat)
  | wakeRound
  | roundWait (cr : Nat)
  | roundAsleep
  | roundLoad
  | leave
  deriving DecidableEq, Repr

inductive Stage
  | storeRound
  | storeOut
  | storeIn
  | wakeIn
  deriving DecidableEq, Repr

/-- Where a thread is: not in a call, before the fetch-and-add on `in`, in the loop that waits for a
reset, between the two fetch-and-adds, or in the reset. `call` is the number of the call and `i` its
position. -/
inductive Pc
  | idle
  | enter
  | resetWait (i : Nat)
  | resetAsleep
  | resetLoad
  | inside (call i : Nat) (phase : Phase)
  | resetting (call i : Nat) (stage : Stage)
  deriving DecidableEq, Repr

structure State (ι : Type*) where
  /-- `in`. -/
  inCount : Nat
  /-- `out`. -/
  outCount : Nat
  currentRound : Nat
  pc : ι → Pc
  /-- The calls that have entered. -/
  entries : Nat
  /-- The calls that have returned and what they returned, newest first. -/
  returns : List (Nat × Int)

inductive Action (ι : Type*)
  | call (t : ι)
  | fetchAddIn (t : ι)
  | futexWaitIn (t : ι)
  | futexReturnIn (t : ι)
  | loadIn (t : ι)
  | loadRound (t : ι)
  | exchange (t : ι) (fails : Bool)
  | wakeRound (t : ι)
  | futexWaitRound (t : ι)
  | futexReturnRound (t : ι)
  | fetchAddOut (t : ι)
  | storeRound (t : ι)
  | storeOut (t : ι)
  | storeIn (t : ι)
  | wakeIn (t : ι)
  deriving DecidableEq, Repr

/-- `while (i > cr)`. -/
def waitPhase (i cr : Nat) : Phase := if cr < i then .roundWait cr else .leave

/-- `while (cr + count <= i)`, and the loop behind it. -/
def finishPhase (count i cr : Nat) : Phase :=
  if wrap (cr + count) ≤ i then .tryFinish cr else waitPhase i cr

/-- `i % count == 0 ? PTHREAD_BARRIER_SERIAL_THREAD : 0`. -/
def result (count i : Nat) : Int := if i % count = 0 then barrierSerialThread else 0

/-- `futex_wake (&bar->current_round, INT_MAX, ..)`. -/
def Pc.rouseRound : Pc → Pc
  | .inside call i .roundAsleep => .inside call i .roundLoad
  | pc => pc

/-- `futex_wake (&bar->in, INT_MAX, ..)`. -/
def Pc.rouseIn : Pc → Pc
  | .resetAsleep => .resetLoad
  | pc => pc

section

variable {ι : Type*}

def State.start : State ι := ⟨0, 0, 0, fun _ => .idle, 0, []⟩

def State.rouse (s : State ι) (f : Pc → Pc) : State ι := { s with pc := fun t => f (s.pc t) }

variable [DecidableEq ι]

def State.move (s : State ι) (t : ι) (pc : Pc) : State ι :=
  { s with pc := Function.update s.pc t pc }

@[simp] theorem move_pc_self (s : State ι) (t : ι) (pc : Pc) : (s.move t pc).pc t = pc :=
  Function.update_self (f := s.pc) ..

variable {t u : ι} {x y : Pc} {call i : Nat}

theorem move_pc_of_ne (s : State ι) (pc : Pc) (hne : u ≠ t) :
    (s.move t pc).pc u = s.pc u := Function.update_of_ne hne ..

theorem pc_of_move {s : State ι} (h : (s.move t y).pc u = x) :
    u = t ∧ y = x ∨ u ≠ t ∧ s.pc u = x := by
  by_cases hut : u = t
  · subst hut
    exact .inl ⟨rfl, (move_pc_self s u y).symm.trans h⟩
  · exact .inr ⟨hut, (move_pc_of_ne s y hut).symm.trans h⟩

theorem pc_of_move_ne {s : State ι} (h : (s.move t y).pc u = x) (hne : y ≠ x) :
    s.pc u = x := (pc_of_move h).elim (fun ht => absurd ht.2 hne) And.right

theorem move_pc_of {s : State ι} (h : s.pc u = x) (ht : s.pc t ≠ x) :
    (s.move t y).pc u = x := by
  have hut : u ≠ t := fun heq => ht (heq ▸ h)
  exact (move_pc_of_ne s y hut).trans h

def State.finish (s : State ι) (count : Nat) (t : ι) (call i : Nat) : State ι :=
  { s.move t .idle with returns := (call, result count i) :: s.returns }

def step (count : Nat) (s : State ι) : Action ι → Option (State ι)
  | .call t => if s.pc t = .idle then some (s.move t .enter) else none
  | .fetchAddIn t =>
    if s.pc t = .enter then
      let i := wrap (s.inCount + 1)
      if maxInBeforeReset count < i then some { s.move t (.resetWait i) with inCount := i }
      else
        some { s.move t (.inside (s.entries + 1) i .loadRound) with
          inCount := i, entries := s.entries + 1 }
    else none
  | .futexWaitIn t =>
    match s.pc t with
    | .resetWait i => some (s.move t (if s.inCount = i then .resetAsleep else .resetLoad))
    | _ => none
  | .futexReturnIn t => if s.pc t = .resetAsleep then some (s.move t .resetLoad) else none
  | .loadIn t =>
    if s.pc t = .resetLoad then
      -- below the threshold the call goes back to `reset_restart`
      some (s.move t (if maxInBeforeReset count < s.inCount then .resetWait s.inCount else .enter))
    else none
  | .loadRound t =>
    match s.pc t with
    | .inside call i .loadRound =>
      some (s.move t (.inside call i (finishPhase count i s.currentRound)))
    | .inside call i .roundLoad => some (s.move t (.inside call i (waitPhase i s.currentRound)))
    | _ => none
  | .exchange t fails =>
    match s.pc t with
    | .inside call i (.tryFinish cr) =>
      if s.currentRound = cr ∧ fails = false then
        some { s.move t (.inside call i .wakeRound) with currentRound := i - i % count }
      else some (s.move t (.inside call i (finishPhase count i s.currentRound)))
    | _ => none
  | .wakeRound t =>
    match s.pc t with
    | .inside call i .wakeRound =>
      some ((s.rouse .rouseRound).move t (.inside call i (waitPhase i (i - i % count))))
    | _ => none
  | .futexWaitRound t =>
    match s.pc t with
    | .inside call i (.roundWait cr) =>
      some (s.move t (.inside call i (if s.currentRound = cr then .roundAsleep else .roundLoad)))
    | _ => none
  | .futexReturnRound t =>
    match s.pc t with
    | .inside call i .roundAsleep => some (s.move t (.inside call i .roundLoad))
    | _ => none
  | .fetchAddOut t =>
    match s.pc t with
    | .inside call i .leave =>
      let o := wrap (s.outCount + 1)
      if o = maxInBeforeReset count then
        some { s.move t (.resetting call i .storeRound) with outCount := o }
      else some { s.finish count t call i with outCount := o }
    | _ => none
  | .storeRound t =>
    match s.pc t with
    | .resetting call i .storeRound =>
      some { s.move t (.resetting call i .storeOut) with currentRound := 0 }
    | _ => none
  | .storeOut t =>
    match s.pc t with
    | .resetting call i .storeOut =>
      some { s.move t (.resetting call i .storeIn) with outCount := 0 }
    | _ => none
  | .storeIn t =>
    match s.pc t with
    | .resetting call i .storeIn => some { s.move t (.resetting call i .wakeIn) with inCount := 0 }
    | _ => none
  | .wakeIn t =>
    match s.pc t with
    | .resetting call i .wakeIn => some ((s.rouse .rouseIn).finish count t call i)
    | _ => none

end

/-! ## What is to be shown -/

/-- The call a thread is in, once it has entered. -/
def Pc.call : Pc → Option Nat
  | .inside call _ _ | .resetting call _ _ => some call
  | _ => none

/-- Between the entry and the exit increment. -/
def Pc.isInside : Pc → Bool
  | .inside _ _ _ => true
  | _ => false

/-- Before one of the three stores of the reset. -/
def Pc.isStoring : Pc → Bool
  | .resetting _ _ stage => stage ≠ .wakeIn
  | _ => false

/-- Before the compare-and-swap of `current_round`. -/
def Phase.isPending : Phase → Bool
  | .loadRound | .tryFinish _ => true
  | _ => false

/-- The round of a call, counted from 0. -/
def round (count call : Nat) : Nat := (call - 1) / count

/-- The last call of the round. -/
def roundEnd (count call : Nat) : Nat := (round count call + 1) * count

section

variable {ι : Type*}

/-- The returns of `PTHREAD_BARRIER_SERIAL_THREAD` in round `r`. -/
def State.serials (s : State ι) (count r : Nat) : Nat :=
  s.returns.countP fun c => round count c.1 = r ∧ c.2 = barrierSerialThread

/-- Somebody has completed rounds and not woken the sleepers yet, or the round of this call is still
to be completed by its last call, which has not got past the compare-and-swap. -/
def State.WakeDue (s : State ι) (count call : Nat) : Prop :=
  (∃ t n i, s.pc t = .inside n i .wakeRound) ∨
    ∃ t i phase, s.pc t = .inside (roundEnd count call) i phase ∧ phase.isPending = true ∧
      s.currentRound < i

end

/-! ## Counting -/

section

variable {count : Nat}

theorem wrap_of_lt {x : Nat} (h : x < 2 ^ 32) : wrap x = x := Nat.mod_eq_of_lt h

theorem maxInBeforeReset_le : maxInBeforeReset count ≤ barrierInThreshold := Nat.sub_le _ _

theorem maxInBeforeReset_mod : maxInBeforeReset count % count = 0 :=
  Nat.mod_eq_zero_of_dvd (Nat.dvd_sub_mod barrierInThreshold)

variable {m i n call : Nat}

/-- The end of the last complete round among `i` calls. -/
theorem le_sub_mod (hm : m % count = 0) (hle : m ≤ i) : m ≤ i - i % count := by
  have hdiv := Nat.div_add_mod i count
  calc m = count * (m / count) := (Nat.mul_div_cancel' (Nat.dvd_of_mod_eq_zero hm)).symm
    _ ≤ count * (i / count) := Nat.mul_le_mul_left count (Nat.div_le_div_right hle)
    _ = i - i % count := by omega

theorem add_le_of_lt_of_mod (hm : m % count = 0) (hn : n % count = 0) (hlt : m < n) :
    m + count ≤ n := by
  obtain ⟨k, rfl⟩ := Nat.dvd_of_mod_eq_zero hm
  obtain ⟨l, rfl⟩ := Nat.dvd_of_mod_eq_zero hn
  exact Nat.mul_le_mul_left count (Nat.lt_of_mul_lt_mul_left hlt)

theorem roundEnd_le (hpos : 0 < call) (hle : call ≤ m) (hm : m % count = 0) :
    roundEnd count call ≤ m := by
  obtain ⟨k, rfl⟩ := Nat.dvd_of_mod_eq_zero hm
  have hround : round count call < k := Nat.div_lt_of_lt_mul (by omega)
  rw [roundEnd, mul_comm]
  exact Nat.mul_le_mul_left count hround

theorem le_roundEnd (hcount : 0 < count) : call ≤ roundEnd count call := by
  have hlt : call - 1 < (call - 1) / count * count + count := Nat.lt_div_mul_add hcount
  rw [roundEnd, round, Nat.succ_mul]
  omega

theorem round_mul (hcount : 0 < count) (r : Nat) : round count ((r + 1) * count) = r := by
  refine Nat.div_eq_of_lt_le ?_ ?_
  · rw [Nat.succ_mul]
    omega
  · have hpos : 0 < (r + 1) * count := Nat.mul_pos (Nat.succ_pos r) hcount
    omega

/-- The call of a round that returns `PTHREAD_BARRIER_SERIAL_THREAD` is its last one. -/
theorem result_eq_serial (hcount : 0 < count) {r : Nat} (hpos : 0 < call) :
    round count call = r ∧ result count call = barrierSerialThread ↔ call = (r + 1) * count := by
  constructor
  · rintro ⟨hround, hresult⟩
    have hmod : call % count = 0 := by
      by_contra hne
      rw [result, if_neg hne] at hresult
      exact absurd hresult (by decide)
    obtain ⟨k, rfl⟩ := Nat.dvd_of_mod_eq_zero hmod
    obtain ⟨l, rfl⟩ := Nat.exists_eq_succ_of_ne_zero (Nat.pos_of_mul_pos_left hpos).ne'
    rw [← hround, mul_comm count, round_mul hcount]
  · rintro rfl
    exact ⟨round_mul hcount r, if_pos (Nat.mul_mod_left _ _)⟩

theorem result_congr (h : n % count = i % count) : result count n = result count i := by
  rw [result, result, h]

end

inductive Kind
  | apart
  | waiting
  | inside
  | early
  | late
  deriving DecidableEq, Repr

def Pc.kind : Pc → Kind
  | .idle | .enter | .resetting _ _ .wakeIn => .apart
  | .resetWait _ | .resetAsleep | .resetLoad => .waiting
  | .inside _ _ _ => .inside
  | .resetting _ _ .storeRound | .resetting _ _ .storeOut => .early
  | .resetting _ _ .storeIn => .late

def ofKind (k k' : Kind) : Bool := k' = k

/-- What a thread that changes its kind does to `in` and `out`. -/
inductive Shift (max : Nat) : Kind → Kind → Nat → Nat → Nat → Nat → Prop
  | accept {i o : Nat} : i < max → Shift max .apart .inside i o (i + 1) o
  | refuse {i o : Nat} : max ≤ i → Shift max .apart .waiting i o (i + 1) o
  | restart {i o : Nat} : i ≤ max → Shift max .waiting .apart i o i o
  | leave {i o : Nat} : Shift max .inside .apart i o i (o + 1)
  | leaveLast {i o : Nat} : o + 1 = max → Shift max .inside .early i o i (o + 1)
  | clearOut {i o : Nat} : Shift max .early .late i o i 0
  | clearIn {i o : Nat} : Shift max .late .apart i o 0 o

section

variable {ι : Type*} [Fintype ι]

/-- `in` exceeds the threshold by no more than the threads that wait for the reset; `out` counts the
calls that have left, until the reset has cleared it; and one thread at most resets. -/
structure Counters (max inCount outCount : Nat) (kind : ι → Kind) : Prop where
  entered : inCount ≤ max + population (ofKind .waiting) kind
  left : population (ofKind .late) kind = 0 →
    outCount + population (ofKind .inside) kind = min inCount max
  cleared : 0 < population (ofKind .late) kind →
    outCount = 0 ∧ population (ofKind .inside) kind = 0 ∧ max ≤ inCount
  one : population (ofKind .early) kind + population (ofKind .late) kind ≤ 1
  full : 0 < population (ofKind .early) kind → outCount = max

namespace Counters

variable [DecidableEq ι] {max inCount outCount : Nat} {kind : ι → Kind} {t : ι}

/-- One thread goes from one kind to another. -/
theorem shift {x y : Kind} {inCount' outCount' : Nat} (h : Counters max inCount outCount kind)
    (ht : kind t = x) (hshift : Shift max x y inCount outCount inCount' outCount') :
    Counters max inCount' outCount' (Function.update kind t y) := by
  have hwaiting := population_update ht (ofKind .waiting) y
  have hinside := population_update ht (ofKind .inside) y
  have hearly := population_update ht (ofKind .early) y
  have hlate := population_update ht (ofKind .late) y
  obtain ⟨entered, left, cleared, one, full⟩ := h
  cases hshift <;> simp [ofKind] at hwaiting hinside hearly hlate <;> constructor <;> omega

omit [DecidableEq ι] in
/-- Nobody is inside while somebody resets. -/
theorem inside_eq_zero (h : Counters max inCount outCount kind)
    (ht : kind t = .early ∨ kind t = .late) :
    population (ofKind .inside) kind = 0 ∧ max ≤ inCount := by
  obtain ⟨entered, left, cleared, one, full⟩ := h
  rcases ht with ht | ht
  · have hearly : 0 < population (ofKind .early) kind :=
      population_pos.mpr ⟨t, by simp [ofKind, ht]⟩
    omega
  · have hlate : 0 < population (ofKind .late) kind := population_pos.mpr ⟨t, by simp [ofKind, ht]⟩
    omega

end Counters

end

/-! ## Rounds in flight -/

/-- What a call in this phase knows of its position and the completed rounds. -/
def Phase.Fits (count currentRound i : Nat) : Phase → Prop
  | .tryFinish cr => cr + count ≤ i
  | .wakeRound => i - i % count ≤ currentRound
  | .roundWait cr => cr < i
  | .leave => i ≤ currentRound
  | .loadRound | .roundAsleep | .roundLoad => True

section

variable {ι : Type*}

/-- The calls that have entered since the last reset. -/
def State.accepted (s : State ι) (count : Nat) : Nat := min s.inCount (maxInBeforeReset count)

/-- `current_round` is the end of a round that is complete; a complete round behind it is left to
its last call, which is before its compare-and-swap (`last`); and a sleeper has a wake to come. -/
structure Rounds (count : Nat) (s : State ι) : Prop where
  round_mod : s.currentRound % count = 0
  round_le : s.currentRound ≤ s.accepted count
  position : ∀ t call i phase, s.pc t = .inside call i phase →
    0 < i ∧ i ≤ s.accepted count ∧ call + s.accepted count = s.entries + i
  fits : ∀ t call i phase, s.pc t = .inside call i phase → phase.Fits count s.currentRound i
  last : ∀ m, m % count = 0 → s.currentRound < m → m ≤ s.accepted count →
    (∃ t call phase, s.pc t = .inside call m phase ∧ phase.isPending = true) ∨
      ∃ t call i, s.pc t = .resetting call i .storeOut ∨ s.pc t = .resetting call i .storeIn
  asleep : ∀ t call i, s.pc t = .inside call i .roundAsleep →
    s.currentRound < i ∨ ∃ u call' i', s.pc u = .inside call' i' .wakeRound
  asleepIn : ∀ t, s.pc t = .resetAsleep →
    maxInBeforeReset count < s.inCount ∨ ∃ u call i, s.pc u = .resetting call i .wakeIn
  cleared : ∀ t call i,
    s.pc t = .resetting call i .storeOut ∨ s.pc t = .resetting call i .storeIn → s.currentRound = 0

/-- The calls that have entered are the ones in flight and the ones that have returned, each
once. -/
structure Calls (count : Nat) (s : State ι) : Prop where
  entries_eq : ∃ base, base % count = 0 ∧ s.entries = base + s.accepted count
  distinct : ∀ t u call, (s.pc t).call = some call → (s.pc u).call = some call → t = u
  flying : ∀ t call, (s.pc t).call = some call →
    0 < call ∧ call ≤ s.entries ∧ call ∉ s.returns.map Prod.fst
  resetting : ∀ t call i stage, s.pc t = .resetting call i stage →
    call % count = i % count ∧ roundEnd count call ≤ s.entries
  returned : ∀ call value, (call, value) ∈ s.returns →
    0 < call ∧ value = result count call ∧ roundEnd count call ≤ s.entries
  nodup : (s.returns.map Prod.fst).Nodup
  covered : ∀ call, 0 < call → call ≤ s.entries →
    (∃ t, (s.pc t).call = some call) ∨ call ∈ s.returns.map Prod.fst

variable {count : Nat} {s : State ι}

namespace Rounds

variable {s' : State ι}

theorem words (h : Rounds count s) (hin : s'.inCount = s.inCount)
    (hround : s'.currentRound = s.currentRound) (hpc : s'.pc = s.pc)
    (hentries : s'.entries = s.entries) : Rounds count s' := by
  cases s
  cases s'
  cases hin
  cases hround
  cases hpc
  cases hentries
  exact { h with }

variable [DecidableEq ι] {t u : ι} {x y : Pc} {call i : Nat}

section

variable (h : Rounds count s)
include h

/-- A thread moves on and leaves the words alone. -/
theorem move (hpc : s.pc t = x)
    (hinside : ∀ call i phase, y = .inside call i phase → (∃ phase', x = .inside call i phase') ∧
      phase.Fits count s.currentRound i ∧ (phase = .roundAsleep → s.currentRound < i))
    (hpending : ∀ call i phase, x = .inside call i phase → phase.isPending = true →
      i % count = 0 → s.currentRound < i →
        ∃ phase', y = .inside call i phase' ∧ phase'.isPending = true)
    (hwake : (∀ call i, x ≠ .inside call i .wakeRound) ∨
      ∀ u call i, s.pc u ≠ .inside call i .roundAsleep)
    (hreset : ∀ call i stage, x = .resetting call i stage →
      stage = .wakeIn ∧ ∀ u, s.pc u ≠ .resetAsleep)
    (hsleep : y = .resetAsleep → maxInBeforeReset count < s.inCount)
    (hstore : ∀ call i stage, y = .resetting call i stage → stage = .storeRound) :
    Rounds count (s.move t y) := by
  constructor
  case round_mod => exact h.round_mod
  case round_le => exact h.round_le
  case position =>
    intro u call i phase hu
    rcases pc_of_move hu with ⟨rfl, hy⟩ | ⟨-, hu⟩
    · obtain ⟨⟨phase', hx⟩, -, -⟩ := hinside call i phase hy
      exact h.position u call i phase' (hpc.trans hx)
    · exact h.position u call i phase hu
  case fits =>
    intro u call i phase hu
    rcases pc_of_move hu with ⟨-, hy⟩ | ⟨-, hu⟩
    · exact (hinside call i phase hy).2.1
    · exact h.fits u call i phase hu
  case last =>
    intro m hm hlt hle
    rcases h.last m hm hlt hle with ⟨u, call, phase, hu, hphase⟩ | ⟨u, call, i, hu⟩
    · left
      by_cases hut : u = t
      · subst hut
        obtain ⟨phase', hy, hphase'⟩ := hpending call m phase (hpc.symm.trans hu) hphase hm hlt
        exact ⟨u, call, phase', (move_pc_self s u y).trans hy, hphase'⟩
      · exact ⟨u, call, phase, (move_pc_of_ne s y hut).trans hu, hphase⟩
    · right
      have hx : ∀ stage, stage ≠ .wakeIn → s.pc t ≠ .resetting call i stage :=
        fun stage hne ht => hne (hreset call i stage (hpc.symm.trans ht)).1
      exact ⟨u, call, i, hu.imp (move_pc_of · (hx _ (by decide))) (move_pc_of · (hx _ (by decide)))⟩
  case asleep =>
    intro u call i hu
    rcases pc_of_move hu with ⟨-, hy⟩ | ⟨-, hu⟩
    · exact .inl ((hinside call i _ hy).2.2 rfl)
    · rcases h.asleep u call i hu with hlt | ⟨v, call', i', hv⟩
      · exact .inl hlt
      · rcases hwake with hx | hnobody
        · exact .inr ⟨v, call', i', move_pc_of hv (hpc ▸ hx call' i')⟩
        · exact absurd hu (hnobody u call i)
  case asleepIn =>
    intro u hu
    rcases pc_of_move hu with ⟨-, hy⟩ | ⟨-, hu⟩
    · exact .inl (hsleep hy)
    · rcases h.asleepIn u hu with hlt | ⟨v, call, i, hv⟩
      · exact .inl hlt
      · refine .inr ⟨v, call, i, move_pc_of hv fun ht => ?_⟩
        exact (hreset call i _ (hpc.symm.trans ht)).2 u hu
  case cleared =>
    intro u call i hu
    have hy : ∀ stage, stage ≠ .storeRound → y ≠ .resetting call i stage :=
      fun stage hne heq => hne (hstore call i stage heq)
    exact h.cleared u call i
      (hu.imp (pc_of_move_ne · (hy _ (by decide))) (pc_of_move_ne · (hy _ (by decide))))

theorem refuse (hpc : s.pc t = .enter) (hge : maxInBeforeReset count ≤ s.inCount) (i : Nat) :
    Rounds count { s.move t (.resetWait i) with inCount := s.inCount + 1 } := by
  have hmove : Rounds count (s.move t (.resetWait i)) := by
    apply h.move hpc <;> simp
  have haccepted : State.accepted { s.move t (.resetWait i) with inCount := s.inCount + 1 } count =
      (s.move t (.resetWait i)).accepted count := by
    simp only [State.accepted, State.move]
    omega
  refine ⟨hmove.round_mod, ?_, ?_, hmove.fits, ?_, hmove.asleep, fun _ _ => .inl ?_, hmove.cleared⟩
  · rw [haccepted]
    exact hmove.round_le
  · rw [haccepted]
    exact hmove.position
  · rw [haccepted]
    exact hmove.last
  · exact Nat.lt_succ_of_le hge

theorem accept (hpc : s.pc t = .enter) (hlt : s.inCount < maxInBeforeReset count) :
    Rounds count { s.move t (.inside (s.entries + 1) (s.inCount + 1) .loadRound) with
      inCount := s.inCount + 1, entries := s.entries + 1 } := by
  have hbefore : s.accepted count = s.inCount := min_eq_left (le_of_lt hlt)
  have hafter : State.accepted { s.move t (.inside (s.entries + 1) (s.inCount + 1) .loadRound) with
      inCount := s.inCount + 1, entries := s.entries + 1 } count = s.inCount + 1 :=
    min_eq_left hlt
  constructor
  case round_mod => exact h.round_mod
  case round_le =>
    rw [hafter]
    exact Nat.le_succ_of_le (hbefore ▸ h.round_le)
  case position =>
    intro u call i phase hu
    rw [hafter]
    rcases pc_of_move hu with ⟨-, hy⟩ | ⟨-, hu⟩
    · cases hy
      exact ⟨Nat.succ_pos _, le_rfl, rfl⟩
    · obtain ⟨hpos, hle, heq⟩ := h.position u call i phase hu
      rw [hbefore] at hle heq
      refine ⟨hpos, Nat.le_succ_of_le hle, ?_⟩
      show call + (s.inCount + 1) = s.entries + 1 + i
      omega
  case fits =>
    intro u call i phase hu
    rcases pc_of_move hu with ⟨-, hy⟩ | ⟨-, hu⟩
    · cases hy
      trivial
    · exact h.fits u call i phase hu
  case last =>
    intro m hm hlt' hle
    rw [hafter] at hle
    rcases Nat.le_succ_iff.mp hle with hle | rfl
    · rcases h.last m hm hlt' (hbefore ▸ hle) with ⟨u, call, phase, hu, hphase⟩ | ⟨u, call, i, hu⟩
      · exact .inl ⟨u, call, phase, move_pc_of hu (by simp [hpc]), hphase⟩
      · exact .inr ⟨u, call, i,
          hu.imp (move_pc_of · (by simp [hpc])) (move_pc_of · (by simp [hpc]))⟩
    · exact .inl ⟨t, s.entries + 1, .loadRound, move_pc_self s t _, rfl⟩
  case asleep =>
    intro u call i hu
    rcases h.asleep u call i (pc_of_move_ne hu nofun) with hlt' | ⟨v, call', i', hv⟩
    · exact .inl hlt'
    · exact .inr ⟨v, call', i', move_pc_of hv (by simp [hpc])⟩
  case asleepIn =>
    intro u hu
    rcases h.asleepIn u (pc_of_move_ne hu nofun) with hgt | ⟨v, call, i, hv⟩
    · exact absurd hgt (lt_asymm hlt)
    · exact .inr ⟨v, call, i, move_pc_of hv (by simp [hpc])⟩
  case cleared =>
    intro u call i hu
    exact h.cleared u call i (hu.imp (pc_of_move_ne · (by simp)) (pc_of_move_ne · (by simp)))

theorem advance (hpc : s.pc t = .inside call i (.tryFinish s.currentRound))
    (hnobody : ∀ u, (s.pc u).isStoring = false) :
    Rounds count { s.move t (.inside call i .wakeRound) with currentRound := i - i % count } := by
  have hstoring : ∀ u call' i',
      ¬ (s.pc u = .resetting call' i' .storeOut ∨ s.pc u = .resetting call' i' .storeIn) := by
    intro u call' i' hu
    have hfalse := hnobody u
    rcases hu with hu | hu <;> rw [hu] at hfalse <;> cases hfalse
  have hfits : s.currentRound + count ≤ i := h.fits t call i _ hpc
  obtain ⟨hpos, hle, heq⟩ := h.position t call i _ hpc
  have hraise : s.currentRound ≤ i - i % count := le_sub_mod h.round_mod (by omega)
  constructor
  case round_mod => exact Nat.mod_eq_zero_of_dvd (Nat.dvd_sub_mod i)
  case round_le => exact le_trans (Nat.sub_le i _) hle
  case position =>
    intro u call' i' phase hu
    rcases pc_of_move hu with ⟨-, hy⟩ | ⟨-, hu⟩
    · cases hy
      exact ⟨hpos, hle, heq⟩
    · exact h.position u call' i' phase hu
  case fits =>
    intro u call' i' phase hu
    rcases pc_of_move hu with ⟨-, hy⟩ | ⟨-, hu⟩
    · cases hy
      exact le_rfl
    · have hold := h.fits u call' i' phase hu
      cases phase with
      | wakeRound | leave => exact le_trans hold hraise
      | loadRound | tryFinish cr | roundWait cr | roundAsleep | roundLoad => exact hold
  case last =>
    intro m hm hlt hle'
    rcases h.last m hm (lt_of_le_of_lt hraise hlt) hle' with
      ⟨u, call', phase, hu, hphase⟩ | ⟨u, call', i', hu⟩
    · refine .inl ⟨u, call', phase, move_pc_of hu fun ht => ?_, hphase⟩
      cases hpc.symm.trans ht
      -- its own round is complete now
      rw [hm] at hlt
      exact lt_irrefl i hlt
    · exact absurd hu (hstoring u call' i')
  case asleep => exact fun _ _ _ _ => .inr ⟨t, call, i, move_pc_self s t _⟩
  case asleepIn =>
    intro u hu
    rcases h.asleepIn u (pc_of_move_ne hu nofun) with hgt | ⟨v, call', i', hv⟩
    · exact .inl hgt
    · exact .inr ⟨v, call', i', move_pc_of hv (by simp [hpc])⟩
  case cleared =>
    intro u call' i' hu
    exact absurd (hu.imp (pc_of_move_ne · (by simp)) (pc_of_move_ne · (by simp)))
      (hstoring u call' i')

end

omit [DecidableEq ι] in
/-- During the reset nobody is inside. -/
theorem of_empty (hempty : ∀ u, (s.pc u).isInside = false) (hmod : s.currentRound % count = 0)
    (hle : s.currentRound ≤ s.accepted count)
    (hlast : s.accepted count = 0 ∨
      ∃ t call i, s.pc t = .resetting call i .storeOut ∨ s.pc t = .resetting call i .storeIn)
    (hasleep : ∀ t, s.pc t = .resetAsleep →
      maxInBeforeReset count < s.inCount ∨ ∃ u call i, s.pc u = .resetting call i .wakeIn)
    (hcleared : ∀ t call i, s.pc t = .resetting call i .storeOut ∨
      s.pc t = .resetting call i .storeIn → s.currentRound = 0) :
    Rounds count s := by
  have hnone : ∀ u call i phase, s.pc u ≠ .inside call i phase := by
    intro u call i phase hu
    have hfalse := hempty u
    rw [hu] at hfalse
    cases hfalse
  refine ⟨hmod, hle, fun u call i phase hu => absurd hu (hnone u call i phase),
    fun u call i phase hu => absurd hu (hnone u call i phase), fun m _ hlt hm => ?_,
    fun u call i hu => absurd hu (hnone u call i _), hasleep, hcleared⟩
  rcases hlast with hzero | hstoring
  · omega
  · exact .inr hstoring

end Rounds

/-! ## Calls in flight -/

namespace Calls

variable {s' : State ι}

theorem words (h : Calls count s) (hpc : s'.pc = s.pc) (hentries : s'.entries = s.entries)
    (hreturns : s'.returns = s.returns)
    (heq : ∃ base, base % count = 0 ∧ s'.entries = base + s'.accepted count) : Calls count s' := by
  cases s
  cases s'
  cases hpc
  cases hentries
  cases hreturns
  exact { h with entries_eq := heq }

variable [DecidableEq ι] {t u : ι} {x y : Pc} {call i : Nat}

theorem call_of_move {n : Nat} (h : ((s.move t y).pc u).call = some n) :
    u = t ∧ y.call = some n ∨ u ≠ t ∧ (s.pc u).call = some n := by
  rcases pc_of_move (s := s) (t := t) (y := y) rfl with ⟨hut, hy⟩ | ⟨hut, hu⟩
  · exact .inl ⟨hut, hy ▸ h⟩
  · exact .inr ⟨hut, hu ▸ h⟩

theorem move (h : Calls count s) (hpc : s.pc t = x) (hcall : y.call = x.call)
    (hreset : ∀ call i stage, y = .resetting call i stage →
      call % count = i % count ∧ roundEnd count call ≤ s.entries) : Calls count (s.move t y) := by
  have hcalls : ∀ u, ((s.move t y).pc u).call = (s.pc u).call := by
    intro u
    by_cases hut : u = t
    · subst hut
      rw [move_pc_self, hpc, hcall]
    · rw [move_pc_of_ne s y hut]
  constructor
  case entries_eq => exact h.entries_eq
  case distinct =>
    intro u v call hu hv
    exact h.distinct u v call ((hcalls u).symm.trans hu) ((hcalls v).symm.trans hv)
  case flying => exact fun u call hu => h.flying u call ((hcalls u).symm.trans hu)
  case resetting =>
    intro u call i stage hu
    rcases pc_of_move hu with ⟨-, hy⟩ | ⟨-, hu⟩
    · exact hreset call i stage hy
    · exact h.resetting u call i stage hu
  case returned => exact h.returned
  case nodup => exact h.nodup
  case covered =>
    intro call hpos hle
    rcases h.covered call hpos hle with ⟨u, hu⟩ | hmem
    · exact .inl ⟨u, (hcalls u).trans hu⟩
    · exact .inr hmem

theorem enter (h : Calls count s) (hcount : 0 < count) (hpc : s.pc t = .enter)
    (hlt : s.inCount < maxInBeforeReset count) :
    Calls count { s.move t (.inside (s.entries + 1) (s.inCount + 1) .loadRound) with
      inCount := s.inCount + 1, entries := s.entries + 1 } := by
  constructor
  case entries_eq =>
    obtain ⟨base, hbase, heq⟩ := h.entries_eq
    refine ⟨base, hbase, ?_⟩
    simp only [State.accepted] at heq ⊢
    omega
  case distinct =>
    intro u v call hu hv
    rcases call_of_move hu with ⟨hut, ⟨⟩⟩ | ⟨-, hold⟩
    · rcases call_of_move hv with ⟨hvt, -⟩ | ⟨-, hold⟩
      · exact hut.trans hvt.symm
      · exact absurd (h.flying v _ hold).2.1 (Nat.not_succ_le_self _)
    · rcases call_of_move hv with ⟨-, ⟨⟩⟩ | ⟨-, hold'⟩
      · exact absurd (h.flying u _ hold).2.1 (Nat.not_succ_le_self _)
      · exact h.distinct u v call hold hold'
  case flying =>
    intro u call hu
    rcases call_of_move hu with ⟨-, ⟨⟩⟩ | ⟨-, hold⟩
    · refine ⟨Nat.succ_pos _, le_rfl, fun hmem => ?_⟩
      obtain ⟨⟨_, value⟩, hret, rfl⟩ := mem_map.mp hmem
      exact absurd (le_trans (le_roundEnd hcount) (h.returned _ value hret).2.2)
        (Nat.not_succ_le_self _)
    · obtain ⟨hpos, hle, hnot⟩ := h.flying u call hold
      exact ⟨hpos, Nat.le_succ_of_le hle, hnot⟩
  case resetting =>
    intro u call i stage hu
    obtain ⟨hmod, hle⟩ := h.resetting u call i stage (pc_of_move_ne hu nofun)
    exact ⟨hmod, Nat.le_succ_of_le hle⟩
  case returned =>
    intro call value hmem
    obtain ⟨hpos, hvalue, hle⟩ := h.returned call value hmem
    exact ⟨hpos, hvalue, Nat.le_succ_of_le hle⟩
  case nodup => exact h.nodup
  case covered =>
    intro call hpos hle
    rcases Nat.le_succ_iff.mp hle with hle | rfl
    · rcases h.covered call hpos hle with ⟨u, hu⟩ | hmem
      · have hut : u ≠ t := by
          rintro rfl
          rw [hpc] at hu
          cases hu
        exact .inl ⟨u, (congrArg Pc.call (move_pc_of_ne s _ hut)).trans hu⟩
      · exact .inr hmem
    · exact .inl ⟨t, congrArg Pc.call (move_pc_self s t _)⟩

theorem finish (h : Calls count s) (hpc : (s.pc t).call = some call)
    (hmod : call % count = i % count) (hend : roundEnd count call ≤ s.entries) :
    Calls count (s.finish count t call i) := by
  have hcall : ∀ u n, ((s.move t .idle).pc u).call = some n → u ≠ t ∧ (s.pc u).call = some n :=
    fun u n hu => (call_of_move hu).resolve_left (by simp [Pc.call])
  obtain ⟨hpos, hle, hnot⟩ := h.flying t call hpc
  constructor
  case entries_eq => exact h.entries_eq
  case distinct => exact fun u v n hu hv => h.distinct u v n (hcall u n hu).2 (hcall v n hv).2
  case flying =>
    intro u n hu
    obtain ⟨hut, hold⟩ := hcall u n hu
    obtain ⟨hpos', hle', hnot'⟩ := h.flying u n hold
    refine ⟨hpos', hle', fun hmem => ?_⟩
    rcases mem_cons.mp hmem with rfl | hmem
    · exact hut (h.distinct u t n hold hpc)
    · exact hnot' hmem
  case resetting =>
    intro u n i' stage hu
    exact h.resetting u n i' stage (pc_of_move_ne hu nofun)
  case returned =>
    intro n value hmem
    rcases mem_cons.mp hmem with heq | hmem
    · cases heq
      exact ⟨hpos, result_congr hmod.symm, hend⟩
    · exact h.returned n value hmem
  case nodup => exact nodup_cons.mpr ⟨hnot, h.nodup⟩
  case covered =>
    intro n hpos' hle'
    rcases h.covered n hpos' hle' with ⟨u, hu⟩ | hmem
    · by_cases hut : u = t
      · subst hut
        exact .inr (mem_cons.mpr (.inl (Option.some.inj (hu.symm.trans hpc))))
      · exact .inl ⟨u, (congrArg Pc.call (move_pc_of_ne s _ hut)).trans hu⟩
    · exact .inr (mem_cons_of_mem _ hmem)

end Calls

end

/-! ## The invariant -/

section

variable {ι : Type*} [Fintype ι]

structure Inv (count : Nat) (s : State ι) : Prop where
  counters : Counters (maxInBeforeReset count) s.inCount s.outCount fun t => (s.pc t).kind
  rounds : Rounds count s
  calls : Calls count s
  beyond : ∀ t i, s.pc t = .resetWait i → maxInBeforeReset count < i

variable {count : Nat} {s : State ι}

theorem inv_start : Inv count (State.start : State ι) := by
  have hnobody : ∀ k, k ≠ .apart → population (ofKind k) (fun _ : ι => Kind.apart) = 0 := by
    intro k hk
    exact population_eq_zero.mpr fun _ => decide_eq_false hk.symm
  refine ⟨?_, ?_, ?_, nofun⟩
  · have hinside := hnobody .inside (by decide)
    have hearly := hnobody .early (by decide)
    have hlate := hnobody .late (by decide)
    constructor <;> simp only [State.start, Pc.kind] <;> omega
  · exact .of_empty (fun _ => rfl) (Nat.zero_mod count) (Nat.zero_le _) (.inl (Nat.zero_min _))
      (fun _ h => nomatch h) fun _ _ _ _ => rfl
  · exact ⟨⟨0, Nat.zero_mod count, (Nat.zero_min (maxInBeforeReset count)).symm⟩, nofun, nofun,
      nofun, nofun, nodup_nil, fun call hpos hle => absurd hpos (not_lt.mpr hle)⟩

variable {t : ι}

theorem Counters.isInside {max inCount outCount : Nat} {pc : ι → Pc}
    (h : Counters max inCount outCount fun t => (pc t).kind)
    (ht : (pc t).isStoring = true) (u : ι) : (pc u).isInside = false ∧ max ≤ inCount := by
  have hkind : (pc t).kind = .early ∨ (pc t).kind = .late := by
    revert ht
    rcases pc t with _ | _ | _ | _ | _ | _ | ⟨_, _, _ | _ | _ | _⟩ <;>
      simp [Pc.isStoring, Pc.kind]
  obtain ⟨hzero, hle⟩ := h.inside_eq_zero hkind
  refine ⟨?_, hle⟩
  have hu := population_eq_zero.mp hzero u
  revert hu
  cases pc u <;> simp [ofKind, Pc.kind, Pc.isInside]

namespace Inv

variable {t : ι}

theorem round_le (h : Inv count s) : s.currentRound ≤ maxInBeforeReset count :=
  le_trans h.rounds.round_le (Nat.min_le_right _ _)

variable {call i : Nat}

/-- A call leaves only when its round is complete. -/
theorem complete (h : Inv count s) (hpc : s.pc t = .inside call i .leave) :
    call % count = i % count ∧ roundEnd count call ≤ s.entries := by
  obtain ⟨base, hbase, hentries⟩ := h.calls.entries_eq
  obtain ⟨hpos, hle, heq⟩ := h.rounds.position t call i _ hpc
  have hround : i ≤ s.currentRound := h.rounds.fits t call i _ hpc
  have hcall : call = base + i := by omega
  have hend : roundEnd count call ≤ base + s.currentRound := by
    refine roundEnd_le (by omega) (by omega) ?_
    rw [Nat.add_mod, hbase, h.rounds.round_mod]
    simp
  refine ⟨?_, le_trans hend ?_⟩
  · rw [hcall, Nat.add_mod, hbase]
    simp
  · have := h.rounds.round_le
    omega

theorem isStoring (h : Inv count s) {phase : Phase}
    (hpc : s.pc t = .inside call i phase) (u : ι) : (s.pc u).isStoring = false := by
  cases hu : (s.pc u).isStoring with
  | false => rfl
  | true =>
    have hfalse := (h.counters.isInside hu t).1
    rw [hpc] at hfalse
    cases hfalse

variable [DecidableEq ι] {x y : Pc}

omit [Fintype ι] in
theorem kind_move (s : State ι) (t : ι) (y : Pc) :
    (fun u => ((s.move t y).pc u).kind) = Function.update (fun u => (s.pc u).kind) t y.kind := by
  funext u
  by_cases hut : u = t
  · subst hut
    simp
  · rw [move_pc_of_ne s y hut, Function.update_of_ne hut]

theorem counters_move (h : Inv count s) (hpc : s.pc t = x) (hkind : y.kind = x.kind) :
    Counters (maxInBeforeReset count) s.inCount s.outCount fun u => ((s.move t y).pc u).kind := by
  rw [kind_move, hkind, ← hpc, Function.update_eq_self t fun u => (s.pc u).kind]
  exact h.counters

omit [Fintype ι] in
theorem beyond_move (h : ∀ u i, s.pc u = .resetWait i → maxInBeforeReset count < i)
    (hy : ∀ i, y = .resetWait i → maxInBeforeReset count < i) (u : ι) (i : Nat)
    (hu : (s.move t y).pc u = .resetWait i) : maxInBeforeReset count < i := by
  rcases pc_of_move hu with ⟨-, hu⟩ | ⟨-, hu⟩
  · exact hy i hu
  · exact h u i hu

section

variable (h : Inv count s)

include h

theorem outside (hpc : s.pc t = x) (hx : x.call = none) (hy : y.call = none)
    (hkind : y.kind = x.kind ∨ x.kind = .waiting ∧ y.kind = .apart ∧
      s.inCount ≤ maxInBeforeReset count)
    (hsleep : y = .resetAsleep → maxInBeforeReset count < s.inCount)
    (hy' : ∀ i, y = .resetWait i → maxInBeforeReset count < i) : Inv count (s.move t y) := by
  refine ⟨?_, ?_, ?_, beyond_move h.beyond hy'⟩
  · rcases hkind with hkind | ⟨hx, hy, hle⟩
    · exact h.counters_move hpc hkind
    · rw [kind_move, hy]
      exact h.counters.shift (by rw [hpc, hx]) (.restart hle)
  · refine h.rounds.move hpc ?_ ?_ (.inl ?_) ?_ hsleep ?_
    · rintro call i phase rfl
      cases hy
    · rintro call i phase rfl
      cases hx
    · rintro call i rfl
      cases hx
    · rintro call i stage rfl
      cases hx
    · rintro call i stage rfl
      cases hy
  · refine h.calls.move hpc (hy.trans hx.symm) ?_
    rintro call i stage rfl
    cases hy

variable {s' : State ι} {i : Nat} {phase : Phase}

/-- A call moves on between its entry and its exit increment. -/
theorem inside {phase' : Phase} (hpc : s.pc t = .inside call i phase)
    (hfits : phase'.Fits count s.currentRound i)
    (hsleep : phase' = .roundAsleep → s.currentRound < i)
    (hpending : phase.isPending = true → i % count = 0 → s.currentRound < i →
      phase'.isPending = true)
    (hwake : phase ≠ .wakeRound ∨ ∀ u call i, s.pc u ≠ .inside call i .roundAsleep) :
    Inv count (s.move t (.inside call i phase')) := by
  refine ⟨h.counters_move hpc rfl, ?_, ?_, beyond_move h.beyond nofun⟩
  · refine h.rounds.move hpc ?_ ?_ ?_ (by simp) (by simp) (by simp)
    · rintro call' i' phase'' heq
      cases heq
      exact ⟨⟨phase, rfl⟩, hfits, hsleep⟩
    · rintro call' i' phase'' heq hphase hmod hlt
      cases heq
      exact ⟨phase', rfl, hpending hphase hmod hlt⟩
    · refine hwake.imp_left fun hne call' i' heq => ?_
      cases heq
      exact hne rfl
  · exact h.calls.move hpc rfl (by simp)

/-- A call that has seen `cr` as the current round goes on to wait or to leave. -/
theorem waits {cr : Nat} (hpc : s.pc t = .inside call i phase) (hcr : i ≤ cr → i ≤ s.currentRound)
    (hphase : phase.isPending = true → i % count = 0 → s.currentRound < i → False)
    (hwake : phase ≠ .wakeRound ∨ ∀ u call i, s.pc u ≠ .inside call i .roundAsleep) :
    Inv count (s.move t (.inside call i (waitPhase i cr))) := by
  unfold waitPhase
  split
  · next hlt =>
    exact h.inside hpc hlt nofun (fun hpending hmod hbelow => (hphase hpending hmod hbelow).elim)
      hwake
  · next hge =>
    exact h.inside hpc (hcr (Nat.le_of_not_lt hge)) nofun
      (fun hpending hmod hbelow => (hphase hpending hmod hbelow).elim) hwake

/-- A call that loads the current round, or fails to exchange it. -/
theorem finishes (hle : count ≤ barrierInThreshold)
    (hpc : s.pc t = .inside call i phase) (hphase : phase ≠ .wakeRound) :
    Inv count (s.move t (.inside call i (finishPhase count i s.currentRound))) := by
  have hwrap : wrap (s.currentRound + count) = s.currentRound + count := by
    have hround := le_trans h.round_le maxInBeforeReset_le
    refine wrap_of_lt ?_
    unfold barrierInThreshold at hle hround
    omega
  unfold finishPhase
  rw [hwrap]
  split
  · next hfits => exact h.inside hpc hfits nofun (fun _ _ _ => rfl) (.inl hphase)
  · next hnot =>
    refine h.waits hpc id (fun _ hmod hlt => hnot ?_) (.inl hphase)
    exact add_le_of_lt_of_mod h.rounds.round_mod hmod hlt

theorem fetchAddIn (hcount : 0 < count) (hcard : Fintype.card ι < 2 ^ 31)
    (hstep : step count s (.fetchAddIn t) = some s') : Inv count s' := by
  simp only [step, Option.ite_none_right_eq_some] at hstep
  obtain ⟨hpc, hstep⟩ := hstep
  have hwrap : wrap (s.inCount + 1) = s.inCount + 1 := by
    have hentered := h.counters.entered
    have hwaiting := population_le_card (ofKind .waiting) fun t => (s.pc t).kind
    have hmax := @maxInBeforeReset_le count
    refine wrap_of_lt ?_
    unfold barrierInThreshold at hmax
    omega
  rw [hwrap] at hstep
  have hkind : (s.pc t).kind = .apart := by rw [hpc]; rfl
  split at hstep
  · next hgt =>
    cases hstep
    have hge := Nat.le_of_lt_succ hgt
    refine ⟨?_, h.rounds.refuse hpc hge _, ?_, beyond_move h.beyond ?_⟩
    · rw [kind_move]
      exact h.counters.shift hkind (.refuse hge)
    · refine (h.calls.move hpc (y := .resetWait (s.inCount + 1)) rfl (by simp)).words rfl rfl rfl ?_
      obtain ⟨base, hbase, heq⟩ := h.calls.entries_eq
      refine ⟨base, hbase, ?_⟩
      simp only [State.accepted, State.move] at heq ⊢
      omega
    · rintro i heq
      cases heq
      exact hgt
  · next hle =>
    cases hstep
    have hlt : s.inCount < maxInBeforeReset count := by omega
    refine ⟨?_, h.rounds.accept hpc hlt, h.calls.enter hcount hpc hlt, beyond_move h.beyond nofun⟩
    rw [kind_move]
    exact h.counters.shift hkind (.accept hlt)

omit h in
/-- A wake is a return of every sleeper. -/
theorem rouse {f : Pc → Pc}
    (hone : ∀ (s : State ι) (t : ι), Inv count s → f (s.pc t) = s.pc t ∨
      Inv count (s.move t (f (s.pc t)))) (h : Inv count s) : Inv count (s.rouse f) := by
  refine comp_of_update (Q := fun pc => Inv count { s with pc := pc }) (fun pc t hpc => ?_) h
  rcases hone _ t hpc with hsame | hmove
  · rw [hsame]
    rwa [Function.update_eq_self]
  · exact hmove

theorem exchange {fails : Bool} (hle : count ≤ barrierInThreshold)
    (hstep : step count s (.exchange t fails) = some s') : Inv count s' := by
  simp only [step] at hstep
  split at hstep
  · next call i cr hpc =>
    split at hstep
    · next hcr =>
      cases hstep
      obtain ⟨rfl, -⟩ := hcr
      refine ⟨h.counters_move hpc rfl, h.rounds.advance hpc (h.isStoring hpc), ?_,
        beyond_move h.beyond nofun⟩
      exact (h.calls.move hpc (y := .inside call i .wakeRound) rfl (by simp)).words rfl rfl rfl
        h.calls.entries_eq
    · cases hstep
      exact h.finishes hle hpc (by simp)
  · cases hstep

theorem wakeRound (hstep : step count s (.wakeRound t) = some s') : Inv count s' := by
  simp only [step] at hstep
  split at hstep
  · next call i hpc =>
    cases hstep
    have hfits : i - i % count ≤ s.currentRound := h.rounds.fits t call i _ hpc
    have hpc' : (s.rouse Pc.rouseRound).pc t = .inside call i .wakeRound := by
      simp only [State.rouse, hpc, Pc.rouseRound]
    have hroused : Inv count (s.rouse Pc.rouseRound) := by
      refine rouse (fun s u hs => ?_) h
      unfold Pc.rouseRound
      split
      · next hu => exact .inr (hs.inside hu trivial nofun nofun (.inl nofun))
      · exact .inl rfl
    refine hroused.waits hpc' (fun hi => le_trans hi hfits) nofun (.inr ?_)
    intro u call' i' hu
    simp only [State.rouse, Pc.rouseRound] at hu
    split at hu
    · cases hu
    · next hawake => exact hawake _ _ hu
  · cases hstep

theorem fetchAddOut (hstep : step count s (.fetchAddOut t) = some s') : Inv count s' := by
  simp only [step] at hstep
  split at hstep
  · next call i hpc =>
    have hwrap : wrap (s.outCount + 1) = s.outCount + 1 := by
      have hleft := h.counters.left
      have hcleared := h.counters.cleared
      have hmax := @maxInBeforeReset_le count
      refine wrap_of_lt ?_
      unfold barrierInThreshold at hmax
      omega
    rw [hwrap] at hstep
    obtain ⟨hmod, hend⟩ := h.complete hpc
    have hkind : (s.pc t).kind = .inside := by rw [hpc]; rfl
    split at hstep
    · next hlast =>
      cases hstep
      refine ⟨?_, ?_, ?_, beyond_move h.beyond nofun⟩
      · rw [kind_move]
        exact h.counters.shift hkind (.leaveLast hlast)
      · have hrounds : Rounds count (s.move t (.resetting call i .storeRound)) := by
          apply h.rounds.move hpc <;> simp [Phase.isPending]
        exact hrounds.words rfl rfl rfl rfl
      · refine (h.calls.move hpc (y := .resetting call i .storeRound) rfl ?_).words rfl rfl rfl
          h.calls.entries_eq
        rintro call' i' stage heq
        cases heq
        exact ⟨hmod, hend⟩
    · cases hstep
      refine ⟨?_, ?_, ?_, beyond_move h.beyond nofun⟩
      · exact (kind_move s t .idle) ▸ h.counters.shift hkind .leave
      · have hrounds : Rounds count (s.move t .idle) := by
          apply h.rounds.move hpc <;> simp [Phase.isPending]
        exact hrounds.words rfl rfl rfl rfl
      · exact (h.calls.finish (by rw [hpc]; rfl) hmod hend).words rfl rfl rfl h.calls.entries_eq
  · cases hstep

/-- The three stores of the reset: no call is in flight whose position they could spoil. -/
theorem stores {stage stage' : Stage} (hpc : s.pc t = .resetting call i stage)
    (hstage : stage ≠ .wakeIn) (hpc' : s'.pc = (s.move t (.resetting call i stage')).pc)
    (hentries : s'.entries = s.entries) (hreturns : s'.returns = s.returns)
    (hround : s'.currentRound = 0)
    (hin : s'.inCount = s.inCount ∧ (stage' = .storeOut ∨ stage' = .storeIn) ∨
      s'.inCount = 0 ∧ stage' = .wakeIn)
    (hcounters : Counters (maxInBeforeReset count) s'.inCount s'.outCount
      (Function.update (fun u => (s.pc u).kind) t (Pc.resetting call i stage').kind)) :
    Inv count s' := by
  have hself : s'.pc t = .resetting call i stage' := by rw [hpc', move_pc_self]
  have hother : ∀ u, u ≠ t → s'.pc u = s.pc u := fun u hut => by rw [hpc', move_pc_of_ne s _ hut]
  have hstoring : (s.pc t).isStoring = true := by
    rw [hpc]
    exact decide_eq_true hstage
  have hfull : maxInBeforeReset count ≤ s.inCount := (h.counters.isInside hstoring t).2
  refine ⟨?_, ?_, ?_, ?_⟩
  · rw [hpc', kind_move]
    exact hcounters
  · refine .of_empty ?_ ?_ ?_ ?_ ?_ fun _ _ _ _ => hround
    · intro u
      by_cases hut : u = t
      · rw [hut, hself]
        rfl
      · rw [hother u hut]
        exact (h.counters.isInside hstoring u).1
    · rw [hround]
      exact Nat.zero_mod count
    · rw [hround]
      exact Nat.zero_le _
    · rcases hin with ⟨-, rfl | rfl⟩ | ⟨hzero, -⟩
      · exact .inr ⟨t, call, i, .inl hself⟩
      · exact .inr ⟨t, call, i, .inr hself⟩
      · left
        rw [State.accepted, hzero]
        exact Nat.zero_min _
    · intro u hu
      rcases hin with ⟨hin, -⟩ | ⟨-, rfl⟩
      · have hut : u ≠ t := by
          rintro rfl
          cases hself.symm.trans hu
        rcases h.rounds.asleepIn u ((hother u hut).symm.trans hu) with hlt | ⟨v, call', i', hv⟩
        · exact .inl (hin ▸ hlt)
        · have hvt : v ≠ t := by
            rintro rfl
            cases hpc.symm.trans hv
            exact hstage rfl
          exact .inr ⟨v, call', i', (hother v hvt).trans hv⟩
      · exact .inr ⟨t, call, i, hself⟩
  · have hcalls : Calls count (s.move t (.resetting call i stage')) := by
      refine h.calls.move hpc rfl ?_
      rintro call' i' stage'' heq
      cases heq
      exact h.calls.resetting t call i stage hpc
    refine hcalls.words hpc' hentries hreturns ?_
    obtain ⟨base, hbase, heq⟩ := h.calls.entries_eq
    rcases hin with ⟨hin, -⟩ | ⟨hin, -⟩
    · exact ⟨base, hbase, by rw [hentries, heq, State.accepted, State.accepted, hin]⟩
    · -- the calls of the finished period now lie before the numbering
      refine ⟨base + maxInBeforeReset count, ?_, ?_⟩
      · rw [Nat.add_mod, hbase, maxInBeforeReset_mod]
        exact Nat.zero_mod count
      · rw [hentries, heq, State.accepted, State.accepted]
        omega
  · rw [hpc']
    exact beyond_move h.beyond nofun

theorem storeRound (hstep : step count s (.storeRound t) = some s') : Inv count s' := by
  simp only [step] at hstep
  split at hstep
  · next call i hpc =>
    cases hstep
    refine h.stores hpc (by decide) rfl rfl rfl rfl (.inl ⟨rfl, .inl rfl⟩) ?_
    rw [← kind_move]
    exact h.counters_move hpc rfl
  · cases hstep

theorem storeOut (hstep : step count s (.storeOut t) = some s') : Inv count s' := by
  simp only [step] at hstep
  split at hstep
  · next call i hpc =>
    cases hstep
    have hkind : (s.pc t).kind = .early := by
      rw [hpc]
      rfl
    exact h.stores hpc (by decide) rfl rfl rfl (h.rounds.cleared t call i (.inl hpc))
      (.inl ⟨rfl, .inr rfl⟩) (h.counters.shift hkind .clearOut)
  · cases hstep

theorem storeIn (hstep : step count s (.storeIn t) = some s') : Inv count s' := by
  simp only [step] at hstep
  split at hstep
  · next call i hpc =>
    cases hstep
    have hkind : (s.pc t).kind = .late := by
      rw [hpc]
      rfl
    exact h.stores hpc (by decide) rfl rfl rfl (h.rounds.cleared t call i (.inr hpc))
      (.inr ⟨rfl, rfl⟩) (h.counters.shift hkind .clearIn)
  · cases hstep

theorem wakeIn (hstep : step count s (.wakeIn t) = some s') : Inv count s' := by
  simp only [step] at hstep
  split at hstep
  · next call i hpc =>
    cases hstep
    have hroused : Inv count (s.rouse Pc.rouseIn) := by
      refine rouse (fun s u hs => ?_) h
      unfold Pc.rouseIn
      split
      · next hu => exact .inr (hs.outside hu rfl rfl (.inl rfl) nofun nofun)
      · exact .inl rfl
    have hpc' : (s.rouse Pc.rouseIn).pc t = .resetting call i .wakeIn := by
      simp only [State.rouse, hpc, Pc.rouseIn]
    have hawake : ∀ u, (s.rouse Pc.rouseIn).pc u ≠ .resetAsleep := by
      intro u hu
      simp only [State.rouse, Pc.rouseIn] at hu
      split at hu
      · cases hu
      · next hawake => exact hawake hu
    obtain ⟨hmod, hend⟩ := h.calls.resetting t call i _ hpc
    refine ⟨hroused.counters_move hpc' rfl, ?_, ?_, beyond_move hroused.beyond nofun⟩
    · have hrounds : Rounds count ((s.rouse Pc.rouseIn).move t .idle) := by
        apply hroused.rounds.move hpc' <;> simp [hawake]
      exact hrounds.words rfl rfl rfl rfl
    · exact hroused.calls.finish (by rw [hpc']; rfl) hmod hend
  · cases hstep

theorem step {a : Action ι} (hcount : 0 < count) (hle : count ≤ barrierInThreshold)
    (hcard : Fintype.card ι < 2 ^ 31) (hstep : step count s a = some s') : Inv count s' := by
  cases a with
  | call t | futexReturnIn t =>
    simp only [Barrier.step, Option.ite_none_right_eq_some, Option.some.injEq] at hstep
    obtain ⟨hpc, rfl⟩ := hstep
    exact h.outside hpc rfl rfl (.inl rfl) nofun nofun
  | fetchAddIn t => exact h.fetchAddIn hcount hcard hstep
  | futexWaitIn t =>
    simp only [Barrier.step] at hstep
    split at hstep
    · next i hpc =>
      obtain rfl := Option.some.inj hstep
      split
      · next heq => exact h.outside hpc rfl rfl (.inl rfl) (fun _ => heq ▸ h.beyond t i hpc) nofun
      · exact h.outside hpc rfl rfl (.inl rfl) nofun nofun
    · cases hstep
  | loadIn t =>
    simp only [Barrier.step, Option.ite_none_right_eq_some, Option.some.injEq] at hstep
    obtain ⟨hpc, rfl⟩ := hstep
    split
    · next hgt =>
      refine h.outside hpc rfl rfl (.inl rfl) nofun ?_
      rintro i heq
      cases heq
      exact hgt
    · next hnot => exact h.outside hpc rfl rfl (.inr ⟨rfl, rfl, Nat.le_of_not_lt hnot⟩) nofun nofun
  | loadRound t =>
    simp only [Barrier.step] at hstep
    split at hstep
    · next call i hpc =>
      obtain rfl := Option.some.inj hstep
      exact h.finishes hle hpc nofun
    · next call i hpc =>
      obtain rfl := Option.some.inj hstep
      exact h.waits hpc id nofun (.inl nofun)
    · cases hstep
  | exchange t fails => exact h.exchange hle hstep
  | wakeRound t => exact h.wakeRound hstep
  | futexWaitRound t =>
    simp only [Barrier.step] at hstep
    split at hstep
    · next call i cr hpc =>
      obtain rfl := Option.some.inj hstep
      split
      · next heq =>
        have hlt : cr < i := h.rounds.fits t call i _ hpc
        exact h.inside hpc trivial (fun _ => heq ▸ hlt) nofun (.inl nofun)
      · exact h.inside hpc trivial nofun nofun (.inl nofun)
    · cases hstep
  | futexReturnRound t =>
    simp only [Barrier.step] at hstep
    split at hstep
    · next call i hpc =>
      obtain rfl := Option.some.inj hstep
      exact h.inside hpc trivial nofun nofun (.inl nofun)
    · cases hstep
  | fetchAddOut t => exact h.fetchAddOut hstep
  | storeRound t => exact h.storeRound hstep
  | storeOut t => exact h.storeOut hstep
  | storeIn t => exact h.storeIn hstep
  | wakeIn t => exact h.wakeIn hstep

end

end Inv

omit [Fintype ι] in
theorem Calls.serials_eq (h : Calls count s) (hcount : 0 < count) (r : Nat) :
    s.serials count r = (s.returns.map Prod.fst).count ((r + 1) * count) := by
  rw [State.serials, List.count, countP_map]
  refine countP_congr fun c hc => ?_
  obtain ⟨hpos, hvalue, -⟩ := h.returned c.1 c.2 hc
  simp only [decide_eq_true_eq, Function.comp, beq_iff_eq, hvalue]
  exact result_eq_serial hcount hpos

/-- The sleepers of a complete round. -/
theorem Inv.wakeDue {call i : Nat} (h : Inv count s) (hcount : 0 < count)
    (hpc : s.pc t = .inside call i .roundAsleep) (hend : roundEnd count call ≤ s.entries) :
    s.WakeDue count call := by
  obtain ⟨base, hbase, hentries⟩ := h.calls.entries_eq
  obtain ⟨hpos, hle, heq⟩ := h.rounds.position t call i _ hpc
  rcases h.rounds.asleep t call i hpc with hlt | ⟨u, call', i', hu⟩
  · -- nobody has completed the round yet: its last call is still to do so
    have hcall : call ≤ roundEnd count call := le_roundEnd hcount
    have hmod : (roundEnd count call - base) % count = 0 := by
      have hdvd : count ∣ roundEnd count call - base :=
        Nat.dvd_sub (Nat.dvd_mul_left count _) (Nat.dvd_of_mod_eq_zero hbase)
      exact Nat.mod_eq_zero_of_dvd hdvd
    rcases h.rounds.last (roundEnd count call - base) hmod (by omega) (by omega) with
      ⟨u, call', phase, hu, hphase⟩ | ⟨u, call', i', hu⟩
    · obtain ⟨-, -, heq'⟩ := h.rounds.position u call' _ phase hu
      have hlast : call' = roundEnd count call := by omega
      exact .inr ⟨u, _, phase, hlast ▸ hu, hphase, by omega⟩
    · have hfalse := h.isStoring hpc u
      rcases hu with hu | hu <;> rw [hu] at hfalse <;> cases hfalse
  · exact .inl ⟨u, call', i', hu⟩

/-- **The barrier over every interleaving**: a call returns only when its round is complete; a round
whose calls have all returned has had one `PTHREAD_BARRIER_SERIAL_THREAD`, and no round has more;
the stores of the reset are never concurrent with a call between its two increments; and a sleeper
whose round is complete, or who waits for a reset, will be woken. -/
theorem barrier_safe [DecidableEq ι] (hcount : 0 < count) (hle : count ≤ barrierInThreshold)
    (hcard : Fintype.card ι < 2 ^ 31)
    (h : Reaches (step count) (fun _ _ => true) State.start s) :
    (∀ call value, (call, value) ∈ s.returns → (round count call + 1) * count ≤ s.entries) ∧
      (∀ r, s.serials count r ≤ 1 ∧ ((r + 1) * count ≤ s.entries →
        (∀ t call, (s.pc t).call = some call → round count call ≠ r) → s.serials count r = 1)) ∧
      (∀ t u, (s.pc t).isStoring = true → (s.pc u).isInside = false) ∧
      (∀ t call i, s.pc t = .inside call i .roundAsleep →
        (round count call + 1) * count ≤ s.entries → s.WakeDue count call) ∧
      ∀ t, s.pc t = .resetAsleep →
        maxInBeforeReset count < s.inCount ∨ ∃ u call i, s.pc u = .resetting call i .wakeIn := by
  have hinv : Inv count s :=
    h.invariant inv_start fun _ _ _ hs _ hstep => hs.step hcount hle hcard hstep
  refine ⟨fun call value hmem => (hinv.calls.returned call value hmem).2.2, fun r => ⟨?_, ?_⟩,
    fun t u ht => (hinv.counters.isInside ht u).1, fun t call i hpc => hinv.wakeDue hcount hpc,
    hinv.rounds.asleepIn⟩
  · rw [hinv.calls.serials_eq hcount]
    exact nodup_iff_count_le_one.mp hinv.calls.nodup _
  · intro hcomplete hreturned
    have hpos : 0 < (r + 1) * count := Nat.mul_pos (Nat.succ_pos r) hcount
    rw [hinv.calls.serials_eq hcount]
    rcases hinv.calls.covered _ hpos hcomplete with ⟨t, ht⟩ | hmem
    · exact absurd (round_mul hcount r) (hreturned t _ ht)
    · exact count_eq_one_of_mem hinv.calls.nodup hmem

end

/-- Two threads have completed the first round; one has entered the second and owes thread 2 the
wake. -/
theorem barrier_safe_secondRound :
    ∃ s : State (Fin 3), s.returns = [(2, barrierSerialThread)] ∧
      s.pc 2 = .inside 3 3 .roundAsleep ∧ s.entries = 4 ∧ s.serials 2 0 ≤ 1 ∧ s.WakeDue 2 3 := by
  have hrun : (replay (step 2) (fun _ _ => true) (State.start : State (Fin 3))
      [.call 0, .fetchAddIn 0, .loadRound 0, .futexWaitRound 0, .call 1, .fetchAddIn 1,
        .loadRound 1, .exchange 1 false, .wakeRound 1, .fetchAddOut 1, .call 2,
        .fetchAddIn 2, .loadRound 2, .futexWaitRound 2, .call 1, .fetchAddIn 1, .loadRound 1,
        .exchange 1 false]).map
        (fun s => (s.returns, s.pc 2, s.entries)) =
        some ([(2, barrierSerialThread)], .inside 3 3 .roundAsleep, 4) := by
    decide +kernel
  obtain ⟨s, hreplay, hs⟩ := Option.map_eq_some_iff.mp hrun
  simp only [Prod.mk.injEq] at hs
  obtain ⟨hreturns, hpc, hentries⟩ := hs
  have hsafe := barrier_safe (by decide) (by decide) (by simp) (reaches_of_replay hreplay)
  exact ⟨s, hreturns, hpc, hentries, (hsafe.2.1 0).1,
    hsafe.2.2.2.1 2 3 3 hpc (by rw [hentries]; decide)⟩

end SafeLibc.Pthread.Barrier
