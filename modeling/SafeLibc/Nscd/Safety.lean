import SafeLibc.Nscd.Model

/-!
# Invalidations and generations over all interleavings

Reading the snapshot and publishing the next one are separate operations, and nothing keeps another
party from publishing in between. `updatesKept_lost_update` is such an interleaving: the daemon
reads and lists, an invocation runs to its end, and the daemon then publishes the same generation
again, without the database that was invalidated.

The invariant of the runs in which no publication overtakes another one (`allowed`) is `Running`:
the snapshot in place is the one that was published last, it lists what has completed, and its names
all have markers, so that a later listing of the directory has them too.
-/

namespace SafeLibc.Nscd

open SafeLibc.Lib List

def State.current (s : State) : Option NscdSnapshot :=
  match s.attempt with
  | .read snapshot => some snapshot
  | _ => none

/-- An update of what was read replaces just that, and has a generation to go to. -/
def State.replaces (s : State) (seen : Option NscdSnapshot) : Bool :=
  seen.any fun snapshot => s.current = some snapshot && snapshot.generation < 2 ^ 64 - 1

/-- The steps without a race: every update replaces the snapshot its author read, markers are
written under clean names after the daemon's first snapshot, and reads do not fail. After the
shutdown, every step. -/
def allowed (s : State) (a : Action) : Bool :=
  decide (.shutdown ∈ s.history) ||
    match a with
    | .daemon =>
      match s.daemon with
      | .publishing seen _ => s.replaces seen
      | _ => true
    | .client i =>
      match (s.clients i).pc with
      | .marking =>
        cleanName (s.clients i).database && plainFileName (s.clients i).database &&
          (lastPublished s.history).isSome
      | .publishing seen => s.replaces (some seen)
      | _ => true
    | .daemonReadFails | .clientReadFails _ => false
    | _ => true

/-! ## The invariant -/

/-- What the daemon has read and listed is not behind the markers. -/
def DaemonOk (markers : List (List Char)) : DaemonPc → Prop
  | .starting | .initial | .leaving => False
  | .sleeping | .reading _ | .stopped => True
  | .listing seen => ∀ snapshot ∈ seen, snapshot.invalidations ⊆ markers
  | .publishing seen invalidations =>
    (∀ snapshot ∈ seen, snapshot.invalidations ⊆ invalidations) ∧ invalidations ⊆ markers

/-- An invocation has its marker from the first write on, and its database in the snapshot from the
second. -/
def ClientOk (markers invalidations : List (List Char)) (c : Client) : Prop :=
  match c.pc with
  | .reading _ | .publishing _ => c.database ∈ markers
  | .returning => c.database ∈ invalidations
  | _ => True

structure Waiting (s : State) : Prop where
  daemon : s.daemon = .starting ∨ s.daemon = .initial ∨ s.daemon = .stopped
  history : s.history = []
  clients : ∀ i, (s.clients i).pc = .idle ∨ (s.clients i).pc = .marking ∨ (s.clients i).pc = .failed

/-- Since the first snapshot, with the snapshot that is in place. -/
structure Running (s : State) (cur : NscdSnapshot) : Prop where
  snapshot_eq : s.snapshot = some (render cur)
  clean : cur.Clean
  last : lastPublished s.history = some (render cur)
  marked : cur.invalidations ⊆ s.markers
  completed : ∀ database, .completed database ∈ s.history → database ∈ cur.invalidations
  daemon : DaemonOk s.markers s.daemon
  clients : ∀ i, ClientOk s.markers cur.invalidations (s.clients i)

structure Inv (s : State) : Prop where
  kept : updatesKept s.history = true
  phase : .shutdown ∈ s.history ∨ ((∀ name ∈ s.markers, cleanName name = true) ∧
    (Waiting s ∨ ∃ cur, Running s cur))

/-! ## Small facts -/

variable {s s' : State} {name : List Char} {a : Action}
  {invalidations markers markers' : List (List Char)}

theorem mem_dedupSorted (l : List (List Char)) : name ∈ dedupSorted l ↔ name ∈ l := by
  fun_induction dedupSorted l with
  | case1 a rest ih => simp [ih]
  | case2 a b rest hne ih => rw [mem_cons, ih, ← mem_cons]
  | case3 => rfl

theorem State.mem_collectInvalidations : name ∈ s.collectInvalidations ↔ name ∈ s.markers := by
  rw [State.collectInvalidations, mem_dedupSorted, mem_insertionSort]

variable {database : List Char} {c : Client} (i : Nat)

theorem mem_withDatabase :
    name ∈ withDatabase database invalidations ↔ name = database ∨ name ∈ invalidations := by
  unfold withDatabase
  split
  · next hmem =>
    constructor
    · exact .inr
    · rintro (rfl | h)
      · exact hmem
      · exact h
  · rw [mem_append, mem_singleton, or_comm]

theorem DaemonOk.mono {pc : DaemonPc} (hsub : markers ⊆ markers') (h : DaemonOk markers pc) :
    DaemonOk markers' pc := by
  cases pc with
  | listing seen => exact fun snapshot hsnapshot => List.Subset.trans (h snapshot hsnapshot) hsub
  | publishing seen invalidations => exact ⟨h.1, List.Subset.trans h.2 hsub⟩
  | _ => exact h

theorem ClientOk.mono {invalidations' : List (List Char)}
    (hmarkers : markers ⊆ markers') (hsub : invalidations ⊆ invalidations')
    (h : ClientOk markers invalidations c) : ClientOk markers' invalidations' c := by
  obtain ⟨database, pc⟩ := c
  cases pc with
  | reading | publishing => exact hmarkers h
  | returning => exact hsub h
  | _ => trivial

/-! ## Marking -/

theorem State.mark_eq (s : State) (database : List Char) :
    ∃ markers, s.mark database = { s with markers } ∧ s.markers ⊆ markers ∧
      (∀ name ∈ markers, name = database ∨ name ∈ s.markers) ∧
      (plainFileName database = true → database ∈ markers) := by
  unfold State.mark
  split
  · refine ⟨_, rfl, subset_append_left .., fun name hname => ?_, fun _ => by simp⟩
    rcases mem_append.mp hname with hold | hnew
    · exact .inr hold
    · exact .inl (mem_singleton.mp hnew)
  · next h =>
    refine ⟨_, rfl, List.Subset.refl _, fun name hname => .inr hname, fun hplain => ?_⟩
    by_contra hnew
    exact h ⟨hplain, hnew⟩

/-! ## After the shutdown -/

theorem daemonStep_history (h : s.daemonStep = some s') :
    s'.history = s.history ∨ ∃ event, s'.history = event :: s.history := by
  unfold State.daemonStep at h
  split at h
  case h_3 =>
    split at h <;> cases h
    · exact .inl rfl
    · exact .inr ⟨_, rfl⟩
  case h_4 =>
    split at h <;>
    · cases h
      exact .inl rfl
  case h_8 => cases h
  all_goals
    cases h
    first
    | exact .inl rfl
    | exact .inr ⟨_, rfl⟩

theorem clientStep_history {i : Nat} (h : s.clientStep i = some s') :
    s'.history = s.history ∨ ∃ event, s'.history = event :: s.history := by
  unfold State.clientStep at h
  split at h
  · cases h
    obtain ⟨markers, hmark, -⟩ := s.mark_eq (s.clients i).database
    exact .inl (by rw [hmark]; rfl)
  · split at h <;>
    · cases h
      exact .inl rfl
  · cases h
    exact .inr ⟨_, rfl⟩
  · cases h
    exact .inr ⟨_, rfl⟩
  · cases h

/-- History only grows, by one event at most. -/
theorem step_history (h : step s a = some s') :
    s'.history = s.history ∨ ∃ event, s'.history = event :: s.history := by
  cases a with
  | daemon => exact daemonStep_history h
  | client i => exact clientStep_history h
  | removePidFile =>
    cases h
    exact .inr ⟨_, rfl⟩
  | daemonReadFails | invoke | clientReadFails | removeSnapshot =>
    simp only [step] at h
    split at h
    · cases h
      exact .inl rfl
    · cases h
  | daemonFails =>
    simp only [step] at h
    split at h
    · cases h
    · cases h
      exact .inl rfl
  | clientFails =>
    simp only [step] at h
    split at h
    case h_5 =>
      cases h
      exact .inl rfl
    all_goals cases h

theorem Inv.step_of_shutdown (h : Inv s) (hdown : .shutdown ∈ s.history)
    (hstep : step s a = some s') : Inv s' := by
  rcases step_history hstep with hsame | ⟨event, hgrown⟩
  · exact ⟨by rw [hsame]; exact h.kept, .inl (by rw [hsame]; exact hdown)⟩
  · refine ⟨?_, .inl (by rw [hgrown]; exact mem_cons_of_mem _ hdown)⟩
    rw [hgrown]
    simp only [updatesKept, h.kept, hdown, decide_true, Bool.true_or, Bool.and_self]

/-! ## While the daemon runs -/

section Running

variable {s : State} {cur : NscdSnapshot}

section

variable (h : Running s cur)

include h

theorem Running.attempt_eq : s.attempt = .read cur := by
  simp only [State.attempt, h.snapshot_eq, parse_render h.clean]

theorem Running.current_eq : s.current = some cur := by
  rw [State.current, h.attempt_eq]

/-- An update is allowed only over the snapshot in place. -/
theorem Running.of_replaces {seen : Option NscdSnapshot} (hreplaces : s.replaces seen = true) :
    seen = some cur ∧ cur.generation < 2 ^ 64 - 1 := by
  cases seen with
  | none => cases hreplaces
  | some snapshot =>
    simp only [State.replaces, h.current_eq, Option.any_some, Bool.and_eq_true,
      decide_eq_true_eq, Option.some.injEq] at hreplaces
    obtain ⟨rfl, hlt⟩ := hreplaces
    exact ⟨rfl, hlt⟩

theorem Running.setDaemon (pc : DaemonPc) (hpc : DaemonOk s.markers pc) :
    Running { s with daemon := pc } cur := { h with daemon := hpc }

theorem Running.updateClient (c : Client) (hc : ClientOk s.markers cur.invalidations c) :
    Running { s with clients := Function.update s.clients i c } cur := by
  refine { h with clients := fun j => ?_ }
  by_cases hj : j = i
  · subst hj
    simpa using hc
  · simpa [Function.update_of_ne hj] using h.clients j

theorem Running.setClient (pc : ClientPc)
    (hpc : ClientOk s.markers cur.invalidations { s.clients i with pc }) :
    Running (s.setClient i pc) cur :=
  h.updateClient i _ hpc

theorem Running.complete (hmem : database ∈ cur.invalidations) :
    Running { s with history := .completed database :: s.history } cur := by
  refine { h with completed := fun database' hcompleted => ?_ }
  rcases mem_cons.mp hcompleted with hevent | hold
  · obtain rfl := Event.completed.inj hevent
    exact hmem
  · exact h.completed database' hold

/-- A publication that is newer than the snapshot in place and drops none of its names. -/
theorem Running.publish (hkept : updatesKept s.history = true) {next : NscdSnapshot}
    (hclean : next.Clean) (hnewer : cur.generation < next.generation)
    (hsub : cur.invalidations ⊆ next.invalidations) (hmarked : next.invalidations ⊆ s.markers) :
    Running (s.publish next) next ∧ updatesKept (s.publish next).history = true := by
  constructor
  · refine ⟨rfl, hclean, rfl, hmarked, fun database hcompleted => ?_, h.daemon, fun i => ?_⟩
    · rcases mem_cons.mp hcompleted with hevent | hold
      · cases hevent
      · exact hsub (h.completed database hold)
    · exact (h.clients i).mono (List.Subset.refl _) hsub
  · have hwell : publishedWell s.history (render next) = true := by
      rw [publishedWell, h.last, Bool.and_eq_true, all_eq_true]
      refine ⟨by simp [newer, parse_render h.clean, parse_render hclean, hnewer], ?_⟩
      intro event hevent
      cases event with
      | completed database =>
        simpa [lists, parse_render hclean] using hsub (h.completed database hevent)
      | _ => rfl
    simp [State.publish, updatesKept, hkept, hwell]

theorem Running.mark {markers : List (List Char)} (hsub : s.markers ⊆ markers) :
    Running { s with markers } cur :=
  ⟨h.snapshot_eq, h.clean, h.last, List.Subset.trans h.marked hsub, h.completed,
    h.daemon.mono hsub, fun i => (h.clients i).mono hsub (List.Subset.refl _)⟩

theorem Running.inv (hkept : updatesKept s.history = true)
    (hmarkers : ∀ name ∈ s.markers, cleanName name = true) : Inv s :=
  ⟨hkept, .inr ⟨hmarkers, .inr ⟨cur, h⟩⟩⟩

end

theorem saturatingAdd_one {n : Nat} (h : n < 2 ^ 64 - 1) : saturatingAdd 64 n 1 = n + 1 := by
  rw [saturatingAdd]
  omega

theorem Running.next_clean (h : Running s cur) (hlt : cur.generation < 2 ^ 64 - 1)
    {pid : List Char} (hpid : pid.all isDecimalDigit = true) {names : List (List Char)}
    (hnames : ∀ name ∈ names, cleanName name = true) :
    NscdSnapshot.Clean ⟨saturatingAdd 64 cur.generation 1, pid, names⟩ where
  generation_pos := by
    rw [saturatingAdd_one hlt]
    exact Nat.succ_pos _
  generation_lt := by
    have hlt' := h.clean.generation_lt
    rw [saturatingAdd_one hlt]
    dsimp only
    omega
  pid_digits := hpid
  names := hnames

variable {s' : State} (h : Running s cur) (hkept : updatesKept s.history = true)
  (hmarkers : ∀ name ∈ s.markers, cleanName name = true) (hdown : .shutdown ∉ s.history)

include h hkept hmarkers hdown

theorem Running.daemonStep (hok : allowed s .daemon = true) (hstep : s.daemonStep = some s') :
    Inv s' := by
  have hdaemon := h.daemon
  simp only [allowed, hdown, decide_false] at hok
  unfold State.daemonStep at hstep
  cases hpc : s.daemon with
  | starting | initial | leaving =>
    rw [hpc] at hdaemon
    exact hdaemon.elim
  | stopped =>
    rw [hpc] at hstep
    cases hstep
  | sleeping =>
    simp only [hpc] at hstep
    split at hstep
    · cases hstep
      exact (h.setDaemon (.reading 2) trivial).inv hkept hmarkers
    · cases hstep
      exact ⟨by simp [updatesKept, hkept], .inl (by simp)⟩
  | reading retries =>
    simp only [hpc, h.attempt_eq] at hstep
    cases hstep
    have hlisting : DaemonOk s.markers (.listing (some cur)) := by
      rintro snapshot hsnapshot
      obtain rfl := Option.mem_some.mp hsnapshot
      exact h.marked
    exact (h.setDaemon _ hlisting).inv hkept hmarkers
  | listing seen =>
    rw [hpc] at hdaemon
    simp only [hpc] at hstep
    cases hstep
    have hlisted : DaemonOk s.markers (.publishing seen s.collectInvalidations) :=
      ⟨fun snapshot hsnapshot name hname =>
        State.mem_collectInvalidations.mpr (hdaemon snapshot hsnapshot hname),
        fun name hname => State.mem_collectInvalidations.mp hname⟩
    exact (h.setDaemon _ hlisted).inv hkept hmarkers
  | publishing seen invalidations =>
    rw [hpc] at hdaemon
    simp only [hpc] at hstep hok
    cases hstep
    obtain ⟨rfl, hlt⟩ := h.of_replaces hok
    obtain ⟨hsub, hlisted⟩ := hdaemon
    -- the markers that were listed include the names of the snapshot that was read
    obtain ⟨hrunning, hkept'⟩ := h.publish hkept
      (h.next_clean hlt (all_isDecimalDigit_toDigits s.pid)
        fun name hname => hmarkers name (hlisted hname))
      (by rw [saturatingAdd_one hlt]; exact Nat.lt_succ_self _) (hsub cur rfl) hlisted
    exact (hrunning.setDaemon .sleeping trivial).inv hkept' hmarkers

theorem Running.clientStep {i : Nat} (hok : allowed s (.client i) = true)
    (hstep : s.clientStep i = some s') : Inv s' := by
  have hclient := h.clients i
  simp only [allowed, hdown, decide_false, Bool.false_or] at hok
  unfold State.clientStep at hstep
  unfold ClientOk at hclient
  cases hpc : (s.clients i).pc with
  | idle | done | failed =>
    simp only [hpc] at hstep
    cases hstep
  | marking =>
    simp only [hpc, Bool.and_eq_true] at hstep hok
    obtain rfl := Option.some.inj hstep
    obtain ⟨markers, hmark, hsub, hnew, hmem⟩ := s.mark_eq (s.clients i).database
    rw [hmark]
    refine ((h.mark hsub).setClient i (.reading 2) ?_).inv hkept fun name hname => ?_
    · exact hmem hok.1.2
    · rcases hnew name hname with rfl | hold
      · exact hok.1.1
      · exact hmarkers name hold
  | reading retries =>
    simp only [hpc, h.attempt_eq] at hstep hclient
    obtain rfl := Option.some.inj hstep
    exact (h.setClient i (.publishing cur) hclient).inv hkept hmarkers
  | publishing seen =>
    simp only [hpc] at hstep hok hclient
    obtain rfl := Option.some.inj hstep
    obtain ⟨hseen, hlt⟩ := h.of_replaces hok
    obtain rfl := Option.some.inj hseen
    have hnames : withDatabase (s.clients i).database seen.invalidations ⊆ s.markers := by
      intro name hname
      rcases mem_withDatabase.mp hname with rfl | hold
      · exact hclient
      · exact h.marked hold
    obtain ⟨hrunning, hkept'⟩ := h.publish hkept
      (h.next_clean hlt h.clean.pid_digits fun name hname => hmarkers name (hnames hname))
      (by rw [saturatingAdd_one hlt]; exact Nat.lt_succ_self _)
      (fun name hname => mem_withDatabase.mpr (.inr hname)) hnames
    exact (hrunning.setClient i .returning (mem_withDatabase.mpr (.inl rfl))).inv hkept'
      hmarkers
  | returning =>
    simp only [hpc] at hstep hclient
    obtain rfl := Option.some.inj hstep
    have hkept' : updatesKept (.completed (s.clients i).database :: s.history) = true := by
      simp [updatesKept, hkept]
    exact ((h.setClient i .done trivial).complete hclient).inv hkept' hmarkers

theorem Running.step (hok : allowed s a = true) (hstep : step s a = some s') :
    Inv s' := by
  cases a with
  | daemon => exact h.daemonStep hkept hmarkers hdown hok hstep
  | client i => exact h.clientStep hkept hmarkers hdown hok hstep
  | daemonReadFails | clientReadFails => simp [allowed, hdown] at hok
  | daemonFails =>
    simp only [Nscd.step] at hstep
    split at hstep
    · cases hstep
    · cases hstep
      exact (h.setDaemon .stopped trivial).inv hkept hmarkers
  | invoke i database =>
    simp only [Nscd.step] at hstep
    split at hstep
    · cases hstep
      exact (h.updateClient i ⟨database, .marking⟩ trivial).inv hkept hmarkers
    · cases hstep
  | clientFails i =>
    simp only [Nscd.step] at hstep
    split at hstep
    case h_5 =>
      cases hstep
      exact (h.setClient i .failed trivial).inv hkept hmarkers
    all_goals cases hstep
  | removePidFile =>
    cases hstep
    exact ⟨by simp [updatesKept, hkept], .inl (by simp)⟩
  | removeSnapshot => simp [Nscd.step, hdown] at hstep

end Running

/-! ## Before the first snapshot -/

section Waiting

variable {s s' : State} (h : Waiting s) (hmarkers : ∀ name ∈ s.markers, cleanName name = true)

include h hmarkers

theorem Waiting.inv : Inv s :=
  ⟨by rw [h.history]; rfl, .inr ⟨hmarkers, .inl h⟩⟩

omit hmarkers in
theorem Waiting.updateClient (hc : c.pc = .idle ∨ c.pc = .marking ∨ c.pc = .failed) :
    Waiting { s with clients := Function.update s.clients i c } where
  daemon := h.daemon
  history := h.history
  clients j := by
    by_cases hj : j = i
    · subst hj
      simpa using hc
    · simpa [Function.update_of_ne hj] using h.clients j

theorem Waiting.publish : Inv { s.publish ⟨1, s.pidText, []⟩ with daemon := .sleeping } := by
  have hclean : NscdSnapshot.Clean ⟨1, s.pidText, []⟩ :=
    ⟨one_pos, Nat.one_lt_two_pow (by decide), all_isDecimalDigit_toDigits s.pid, by simp⟩
  have hrunning : Running { s.publish ⟨1, s.pidText, []⟩ with daemon := .sleeping }
      ⟨1, s.pidText, []⟩ := by
    refine ⟨rfl, hclean, rfl, nil_subset _, fun database hcompleted => ?_, trivial,
      fun i => ?_⟩
    · simp [State.publish, h.history] at hcompleted
    · have hclient := h.clients i
      unfold ClientOk
      rcases hclient with hpc | hpc | hpc <;> simp [State.publish, hpc]
  exact hrunning.inv (by simp [State.publish, h.history, updatesKept, publishedWell, lastPublished])
    hmarkers

theorem Waiting.step (hok : allowed s a = true) (hstep : step s a = some s') :
    Inv s' := by
  have hdown : .shutdown ∉ s.history := by simp [h.history]
  simp only [allowed, hdown, decide_false, Bool.false_or] at hok
  cases a with
  | daemon =>
    simp only [Nscd.step, State.daemonStep] at hstep
    rcases h.daemon with hpc | hpc | hpc
    · simp only [hpc] at hstep
      cases hstep
      exact Waiting.inv ⟨.inr (.inl rfl), h.history, h.clients⟩ hmarkers
    · simp only [hpc] at hstep
      cases hstep
      exact h.publish hmarkers
    · simp [hpc] at hstep
  | client i =>
    simp only [Nscd.step, State.clientStep] at hstep
    rcases h.clients i with hpc | hpc | hpc
    · simp [hpc] at hstep
    · -- no marker is written before the first snapshot
      simp [hpc, h.history, lastPublished] at hok
    · simp [hpc] at hstep
  | daemonReadFails | clientReadFails => cases hok
  | daemonFails =>
    simp only [Nscd.step] at hstep
    split at hstep
    · cases hstep
    · cases hstep
      exact Waiting.inv ⟨.inr (.inr rfl), h.history, h.clients⟩ hmarkers
  | invoke i database =>
    simp only [Nscd.step] at hstep
    split at hstep
    · cases hstep
      exact (h.updateClient i (.inr (.inl rfl))).inv hmarkers
    · cases hstep
  | clientFails i =>
    simp only [Nscd.step] at hstep
    split at hstep
    case h_5 =>
      cases hstep
      exact (h.updateClient i (.inr (.inr rfl))).inv hmarkers
    all_goals cases hstep
  | removePidFile =>
    cases hstep
    exact ⟨by simp [updatesKept, h.history], .inl (by simp)⟩
  | removeSnapshot => simp [Nscd.step, hdown] at hstep

end Waiting

/-! ## All runs -/

theorem Inv.step (h : Inv s) (hok : allowed s a = true) (hstep : step s a = some s') : Inv s' := by
  by_cases hdown : .shutdown ∈ s.history
  · exact h.step_of_shutdown hdown hstep
  · rcases h.phase with hshutdown | ⟨hmarkers, hwaiting | ⟨cur, hrunning⟩⟩
    · exact absurd hshutdown hdown
    · exact hwaiting.step hmarkers hok hstep
    · exact hrunning.step h.kept hmarkers hdown hok hstep

/-- **No update is lost or confused where none overtakes another**: over every run of allowed steps,
whatever an earlier daemon left behind, in every state that is reached, the generations published so
far increase and completed invalidations stay listed, until the shutdown. -/
theorem updatesKept_of_reaches {pid : Nat} {leftover : Option (List Char)}
    {markers : List (List Char)} (hmarkers : ∀ name ∈ markers, cleanName name = true) {s : State}
    (h : Reaches step allowed (State.start pid leftover markers) s) :
    updatesKept s.history = true := by
  have hstart : Waiting (State.start pid leftover markers) :=
    ⟨.inl rfl, rfl, fun _ => .inl rfl⟩
  have hinv : Inv s := h.invariant (P := Inv) (hstart.inv hmarkers) fun s a s' hs hok hstep =>
    hs.step hok hstep
  exact hinv.kept

/-- Two invocations and a round of the daemon, one after another. -/
def orderlyRun : List Action :=
  [.daemon, .daemon, .invoke 0 "hosts".toList, .client 0, .client 0, .client 0, .client 0,
    .invoke 1 "passwd".toList, .client 1, .client 1, .client 1, .client 1,
    .daemon, .daemon, .daemon, .daemon]

theorem updatesKept_orderlyRun : ∃ s,
    replay step allowed (State.start 7 none ["group".toList]) orderlyRun = some s ∧
      lastPublished s.history = some (render ⟨4, "7".toList,
        ["group".toList, "hosts".toList, "passwd".toList]⟩) ∧ updatesKept s.history = true := by
  have hrun : (replay step allowed (State.start 7 none ["group".toList]) orderlyRun).map
      (fun s => lastPublished s.history) = some (some (render ⟨4, "7".toList,
        ["group".toList, "hosts".toList, "passwd".toList]⟩)) := by
    decide +kernel
  obtain ⟨s, hreplay, hlast⟩ := Option.map_eq_some_iff.mp hrun
  exact ⟨s, hreplay, hlast, updatesKept_of_reaches (by decide +kernel) (reaches_of_replay hreplay)⟩

/-- The daemon reads and lists; an invocation runs to its end; the daemon publishes. -/
def lostUpdate : List Action :=
  [.daemon, .daemon, .daemon, .daemon, .daemon,
    .invoke 0 "hosts".toList, .client 0, .client 0, .client 0, .client 0, .daemon]

/-- The generation is published twice, and the second time without the database. -/
theorem updatesKept_lost_update : ∃ s,
    Reaches step (fun _ _ => true) (State.start 7 none []) s ∧ s.history =
      [.published (render ⟨2, "7".toList, []⟩), .completed "hosts".toList,
        .published (render ⟨2, "7".toList, ["hosts".toList]⟩),
        .published (render ⟨1, "7".toList, []⟩)] ∧ updatesKept s.history = false := by
  have hrun : (replay step (fun _ _ => true) (State.start 7 none []) lostUpdate).map
      State.history = some
        [.published (render ⟨2, "7".toList, []⟩), .completed "hosts".toList,
          .published (render ⟨2, "7".toList, ["hosts".toList]⟩),
          .published (render ⟨1, "7".toList, []⟩)] := by
    decide +kernel
  obtain ⟨s, hreplay, hhistory⟩ := Option.map_eq_some_iff.mp hrun
  refine ⟨s, reaches_of_replay hreplay, hhistory, ?_⟩
  rw [hhistory]
  decide +kernel

end SafeLibc.Nscd
