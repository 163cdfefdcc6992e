import SafeLibc.Lib.Runs
import SafeLibc.Nscd.Snapshot
import Mathlib.Data.List.Sort
import Mathlib.Data.String.Basic

/-!
# One nscd and its invalidations

`run_nscd_loop`, `invalidate_database` and `shutdown_nscd` of `network_tools.rs` as a transition
system: one daemon, any number of invocations of `nscd -i`, and the files they share. Each action is
one file operation of one party: reading or removing a file, writing a marker, listing the marker
directory, publishing a snapshot (a temporary file and its rename). An operation may fail at any
time and ends its party, except that a failed read of the snapshot counts as none. The snapshot file
may be left over from an earlier daemon, and so may markers.

The history records what the statement is about, newest first: snapshots as they were published,
invocations that returned, and the end of the daemon.
-/

namespace SafeLibc.Nscd

open SafeLibc.Lib

/-- Where the daemon is. `seen` is what it read, from which it takes the next generation. -/
inductive DaemonPc
  | starting
  /-- The pid file is written, the first snapshot is not. -/
  | initial
  | sleeping
  /-- `retries` are left if this attempt finds no whole snapshot. -/
  | reading (retries : Nat)
  | listing (seen : Option NscdSnapshot)
  | publishing (seen : Option NscdSnapshot) (invalidations : List (List Char))
  | leaving
  | stopped
  deriving DecidableEq, Repr

inductive ClientPc
  | idle
  | marking
  | reading (retries : Nat)
  | publishing (seen : NscdSnapshot)
  /-- All writes are done, or there was no snapshot to update. -/
  | returning
  | done
  | failed
  deriving DecidableEq, Repr

/-- An invocation `nscd -i database`. -/
structure Client where
  database : List Char
  pc : ClientPc
  deriving DecidableEq, Repr

inductive Event
  | published (contents : List Char)
  | completed (database : List Char)
  | shutdown
  deriving DecidableEq, Repr

structure State where
  pid : Nat
  pidFile : Option (List Char)
  snapshot : Option (List Char)
  markers : List (List Char)
  daemon : DaemonPc
  clients : Nat → Client
  history : List Event

inductive Action
  | daemon
  | daemonReadFails
  | daemonFails
  | invoke (i : Nat) (database : List Char)
  | client (i : Nat)
  | clientReadFails (i : Nat)
  | clientFails (i : Nat)
  | removePidFile
  | removeSnapshot
  deriving DecidableEq, Repr

/-! ## File operations -/

inductive Attempt
  | absent
  | torn
  | read (snapshot : NscdSnapshot)
  deriving DecidableEq, Repr

def State.attempt (s : State) : Attempt :=
  match s.snapshot with
  | none => .absent
  | some contents =>
    match parseNscdSnapshot contents with
    | none => .torn
    | some snapshot => .read snapshot

def State.publish (s : State) (snapshot : NscdSnapshot) : State :=
  { s with
    snapshot := some (render snapshot)
    history := .published (render snapshot) :: s.history }

def State.pidText (s : State) : List Char := Nat.toDigits 10 s.pid

/-- A name that `join` puts into the directory of markers, and not elsewhere. -/
def plainFileName (name : List Char) : Bool :=
  !name.isEmpty && name ≠ ['.'] && name ≠ ['.', '.'] && !name.contains '/'

/-- Write a marker; with a name that is none, the file that is written is no marker. -/
def State.mark (s : State) (database : List Char) : State :=
  if plainFileName database ∧ database ∉ s.markers then
    { s with markers := s.markers ++ [database] }
  else s

/-- `Vec::dedup`: drop an element that equals the one before it. -/
def dedupSorted : List (List Char) → List (List Char)
  | a :: b :: rest => if a = b then dedupSorted (b :: rest) else a :: dedupSorted (b :: rest)
  | l => l

def State.collectInvalidations (s : State) : List (List Char) :=
  dedupSorted (s.markers.insertionSort (· ≤ ·))

/-! ## Steps -/

def nextGeneration : Option NscdSnapshot → Nat
  | some seen => saturatingAdd 64 seen.generation 1
  | none => 1

def State.daemonStep (s : State) : Option State :=
  match s.daemon with
  | .starting =>
    some { s with pidFile := some (s.pidText ++ ['\n']), daemon := .initial }
  | .initial =>
    some { s.publish ⟨1, s.pidText, []⟩ with daemon := .sleeping }
  | .sleeping =>
    if s.pidFile.map trim = some s.pidText then some { s with daemon := .reading 2 }
    else some { s with daemon := .leaving, history := .shutdown :: s.history }
  | .reading retries =>
    match s.attempt, retries with
    | .absent, _ => some { s with daemon := .listing none }
    | .read snapshot, _ => some { s with daemon := .listing (some snapshot) }
    | .torn, 0 => some { s with daemon := .listing none }
    | .torn, retries + 1 => some { s with daemon := .reading retries }
  | .listing seen => some { s with daemon := .publishing seen s.collectInvalidations }
  | .publishing seen invalidations =>
    some { s.publish ⟨nextGeneration seen, s.pidText, invalidations⟩ with daemon := .sleeping }
  | .leaving => some { s with snapshot := none, daemon := .stopped }
  | .stopped => none

def State.setClient (s : State) (i : Nat) (pc : ClientPc) : State :=
  { s with clients := Function.update s.clients i { s.clients i with pc } }

def withDatabase (database : List Char) (invalidations : List (List Char)) : List (List Char) :=
  if database ∈ invalidations then invalidations else invalidations ++ [database]

def State.clientStep (s : State) (i : Nat) : Option State :=
  let database := (s.clients i).database
  match (s.clients i).pc with
  | .marking => some ((s.mark database).setClient i (.reading 2))
  | .reading retries =>
    match s.attempt, retries with
    | .absent, _ => some (s.setClient i .returning)
    | .read snapshot, _ => some (s.setClient i (.publishing snapshot))
    | .torn, 0 => some (s.setClient i .returning)
    | .torn, retries + 1 => some (s.setClient i (.reading retries))
  | .publishing seen =>
    some ((s.publish ⟨saturatingAdd 64 seen.generation 1, seen.pid,
      withDatabase database seen.invalidations⟩).setClient i .returning)
  | .returning =>
    some { s.setClient i .done with history := .completed database :: s.history }
  | _ => none

def step (s : State) : Action → Option State
  | .daemon => s.daemonStep
  | .daemonReadFails =>
    match s.daemon with
    | .reading _ => some { s with daemon := .listing none }
    | _ => none
  | .daemonFails =>
    if s.daemon = .leaving ∨ s.daemon = .stopped then none else some { s with daemon := .stopped }
  | .invoke i database =>
    if (s.clients i).pc = .idle then
      some { s with clients := Function.update s.clients i ⟨database, .marking⟩ }
    else none
  | .client i => s.clientStep i
  | .clientReadFails i =>
    match (s.clients i).pc with
    | .reading _ => some (s.setClient i .returning)
    | _ => none
  | .clientFails i =>
    match (s.clients i).pc with
    | .idle | .returning | .done | .failed => none
    | _ => some (s.setClient i .failed)
  -- `shutdown_nscd` removes the pid file, then the snapshot
  | .removePidFile => some { s with pidFile := none, history := .shutdown :: s.history }
  | .removeSnapshot =>
    if .shutdown ∈ s.history then some { s with snapshot := none } else none

/-- Before the daemon starts, with what earlier runs left behind. -/
def State.start (pid : Nat) (leftover : Option (List Char)) (markers : List (List Char)) :
    State where
  pid := pid
  pidFile := none
  snapshot := leftover
  markers := markers
  daemon := .starting
  clients := fun _ => ⟨[], .idle⟩
  history := []

/-! ## What is promised -/

def newer (previous contents : List Char) : Bool :=
  match parseNscdSnapshot previous, parseNscdSnapshot contents with
  | some old, some new => old.generation < new.generation
  | _, _ => false

def lists (contents database : List Char) : Bool :=
  (parseNscdSnapshot contents).any fun snapshot => database ∈ snapshot.invalidations

def lastPublished : List Event → Option (List Char)
  | [] => none
  | .published contents :: _ => some contents
  | _ :: older => lastPublished older

/-- A snapshot published after `older` is newer, and lists every database that has been
invalidated. -/
def publishedWell (older : List Event) (contents : List Char) : Bool :=
  ((lastPublished older).all fun previous => newer previous contents) &&
    older.all fun event =>
      match event with
      | .completed database => lists contents database
      | _ => true

/-- Every snapshot published before the shutdown was published well. -/
def updatesKept : List Event → Bool
  | [] => true
  | event :: older =>
    updatesKept older &&
      (decide (.shutdown ∈ older) ||
        match event with
        | .published contents => publishedWell older contents
        | _ => true)

end SafeLibc.Nscd
