import Mathlib.Data.List.Basic
import SafeLibc.Lib.Machine

/-!
# `_dl_find_object` of `elf/dl-find_object.c`

The unwinder asks which loaded object covers a program counter. The main program and the objects
loaded at startup are recorded once; objects that come and go with `dlopen` and `dlclose` are kept
in chains of segments. There are two chains, and the low bit of a version counter says which one is
current: an update writes the other chain and then counts the version up.

A segment is the array of its allocated slots with the number of slots in use; a chain is the list
of its segments, the one with the highest addresses first, each followed by its `previous`. What
`malloc` gives is part of the input: the address, on which the number of slots of a new segment
depends, and the contents of the memory. Reads outside an array, a null `previous` and a failed
assertion are faults.

All calls are made by one thread, so that the version read at the end of a lookup is the one it
started with.
-/

namespace SafeLibc.Ldso.FindObject

open SafeLibc.Lib

inductive Fault
  | assertion
  /-- an access outside an array -/
  | bounds
  | null
  | fuel
  deriving DecidableEq, Repr

/-! ## Link maps and their ranges -/

def ptLoad : Nat := 1

/-- `PT_GNU_EH_FRAME`, the default of `DLFO_EH_SEGMENT_TYPE` -/
def ptGnuEhFrame : Nat := 0x6474e550

structure Phdr where
  type : Nat
  vaddr : Nat
  memsz : Nat
  deriving DecidableEq, Repr

inductive MapType
  | executable
  | library
  | loaded
  deriving DecidableEq, Repr

/-- The fields of `struct link_map` that are read here. `ident` is the address of the structure and
`real` says that `l_real` points back to it. An object is mapped to at least one address. -/
structure LinkMap where
  ident : Nat
  addr : Nat
  mapStart : Nat
  mapEnd : Nat
  mapped : mapStart < mapEnd
  phdr : List Phdr
  real : Bool
  type : MapType
  nodeleteActive : Bool
  contiguous : Bool
  deriving DecidableEq, Repr

/-- `struct dl_find_object_internal`. The null pointer is `none` in `map` and 0 in `ehFrame`. -/
structure Entry where
  mapStart : Nat
  mapEnd : Nat
  map : Option LinkMap
  ehFrame : Nat
  deriving DecidableEq, Repr

structure Found where
  flags : Nat
  mapStart : Nat
  mapEnd : Nat
  linkMap : Option LinkMap
  ehFrame : Nat
  deriving DecidableEq, Repr

/-- `_dl_find_object_to_external` -/
def Entry.toExternal (e : Entry) : Found :=
  ⟨0, e.mapStart, e.mapEnd, e.map, e.ehFrame⟩

def LinkMap.ehFrame (l : LinkMap) : Nat :=
  match l.phdr.find? fun ph => ph.type = ptGnuEhFrame with
  | some ph => (ph.vaddr + l.addr) % 2 ^ 64
  | none => 0

/-- `_dl_find_object_from_map` -/
def Entry.fromMap (l : LinkMap) : Entry :=
  ⟨l.mapStart, l.mapEnd, some l, l.ehFrame⟩

/-! ## Looking up an address -/

def read (objects : List Entry) (i : Nat) : Except Fault Entry :=
  match objects[i]? with
  | some e => .ok e
  | none => .error .bounds

/-- The search for a lower bound: the first of `size` elements from `first` on that does not start
below `pc`. -/
def lowerBound (objects : List Entry) (pc : Nat) : Nat → Nat → Nat → Except Fault Nat
  | _, first, 0 => .ok first
  | 0, _, _ + 1 => .error .fuel
  | fuel + 1, first, size + 1 => do
    let half := (size + 1) / 2
    let middle ← read objects (first + half)
    if middle.mapStart < pc then lowerBound objects pc fuel (first + half + 1) (size - half)
    else lowerBound objects pc fuel first half

/-- `--first; if (pc < first->map_end) …` -/
def lookupPrevious (objects : List Entry) (pc : Nat) : Nat → Except Fault (Option Nat)
  | 0 => .error .bounds
  | i + 1 => do
    let e ← read objects i
    .ok (if pc < e.mapEnd then some i else none)

/-- `_dlfo_lookup`: the index of the element that contains `pc`. -/
def lookup (objects : List Entry) (size pc : Nat) : Except Fault (Option Nat) := do
  let first ← lowerBound objects pc size 0 size
  if first = size then lookupPrevious objects pc first
  else do
    let e ← read objects first
    if pc = e.mapStart then .ok (if pc < e.mapEnd then some first else none)
    else lookupPrevious objects pc first

/-! ## Segments -/

/-- `struct dlfo_mappings_segment`: the allocated slots and how many of them are in use. -/
structure Segment where
  objects : List Entry
  size : Nat
  deriving Repr

/-- `_dlfo_mappings_segment_count_used`: what has been closed does not count. -/
def countUsed : List Segment → Nat
  | [] => 0
  | seg :: previous =>
    if seg.size = 0 then 0
    else (seg.objects.take seg.size).countP (·.map.isSome) + countUsed previous

def countAllocated : List Segment → Nat
  | [] => 0
  | seg :: previous => seg.objects.length + countAllocated previous

def initialSegmentSize : Nat := 63

/-- A block that `malloc` returned: its address, and what the memory holds. -/
structure Block where
  ptr : Nat
  junk : Nat → Entry

/-- The bytes of a segment without its objects, and of one object. -/
def headerSize : Nat := 32

def elementSize : Nat := 32

def cacheLine : Nat := 128

/-- The least size of a new segment: the chain grows exponentially. -/
def minimumGrowth : List Segment → Nat
  | [] => initialSegmentSize
  | seg :: _ => 2 * seg.objects.length

/-- The slots of a segment for `size` objects, between the cache line boundaries of a block at
`ptr`. -/
def allocatedSlots (ptr size : Nat) : Nat :=
  let toAllocate := headerSize + size * elementSize + 2 * cacheLine
  let stop := (ptr + toAllocate) / cacheLine * cacheLine
  let start := (ptr + cacheLine - 1) / cacheLine * cacheLine
  (stop - start - headerSize) / elementSize

/-- `_dlfo_mappings_segment_allocate`, when `malloc` succeeds. -/
def segmentAllocate (size : Nat) (previous : List Segment) (block : Block) : Except Fault Segment :=
  let size := max size (minimumGrowth previous)
  let allocated := allocatedSlots block.ptr size
  if allocated ≥ size then .ok ⟨(List.range allocated).map block.junk, 0⟩
  else .error .assertion

/-- The state: `_dlfo_main`, `_dlfo_nodelete_mappings` with its end, the two chains and the
version. `beyond` is what a read of the first element of an empty array finds. -/
structure State where
  main : Entry
  nodelete : List Entry
  nodeleteEnd : Nat
  beyond : Entry
  mappings : Bool → List Segment
  version : Nat

/-- The index of the active chain: the low bit of the version. -/
def State.activeIdx (st : State) : Bool := st.version % 2 = 1

def State.active (st : State) : List Segment := st.mappings st.activeIdx

/-! ## `_dl_find_object` -/

/-- The search through the segments: a segment that starts at or below `pc` decides. -/
def searchSegments (pc : Nat) : List Segment → Except Fault (Option Found)
  | [] => .ok none
  | seg :: previous =>
    if seg.size = 0 then .ok none
    else do
      let first ← read seg.objects 0
      if first.mapStart ≤ pc then do
        match ← lookup seg.objects seg.size pc with
        | some i => do
          let e ← read seg.objects i
          .ok (some e.toExternal)
        | none => .ok none
      else searchSegments pc previous

def searchNodelete (st : State) (pc : Nat) : Except Fault (Option Found) :=
  let first := st.nodelete.headD st.beyond
  if first.mapStart ≤ pc ∧ pc < st.nodeleteEnd then do
    match ← lookup st.nodelete st.nodelete.length pc with
    | some i => do
      let e ← read st.nodelete i
      .ok (some e.toExternal)
    | none => searchSegments pc st.active
  else searchSegments pc st.active

/-- `_dl_find_object`. Before the initialization the answer is `slow`, that of
`_dl_find_object_slow`. -/
def dlFindObject (st : State) (slow : Nat → Option Found) (pc : Nat) :
    Except Fault (Option Found) :=
  if st.main.mapEnd = 0 then .ok (slow pc)
  else if st.main.mapStart ≤ pc ∧ pc < st.main.mapEnd then .ok (some st.main.toExternal)
  else searchNodelete st pc

/-! ## Initialization -/

/-- The index of the first minimum: `j` is that of the head of the list, `minIdx` and `minVal` the
minimum so far. -/
def minIndex {α : Type} (key : α → Nat) : List α → Nat → Nat → Nat → Nat
  | [], _, minIdx, _ => minIdx
  | x :: xs, j, minIdx, minVal =>
    if key x < minVal then minIndex key xs (j + 1) j (key x)
    else minIndex key xs (j + 1) minIdx minVal

/-- Selection sort, in as many rounds as there are elements; what a round has passed is not touched
again. -/
def selectionSort {α : Type} (key : α → Nat) : Nat → List α → List α
  | 0, xs => xs
  | _ + 1, [] => []
  | rounds + 1, x :: xs =>
    let minIdx := minIndex key xs 1 0 (key x)
    match (x :: xs)[minIdx]? with
    | some y => y :: selectionSort key rounds (((x :: xs).set minIdx x).drop 1)
    | none => x :: xs

def sortMappings (objects : List Entry) : List Entry :=
  selectionSort Entry.mapStart (objects.length - 1) objects

def linkMapSort (loaded : List LinkMap) : List LinkMap :=
  selectionSort LinkMap.mapStart (loaded.length - 1) loaded

/-- The entries of a main program whose segments are not contiguous: one for each of them. -/
def mainPieces (main : LinkMap) : List Entry :=
  (main.phdr.filter fun ph => ph.type = ptLoad).map fun ph =>
    let start := (ph.vaddr + main.addr) % 2 ^ 64
    { Entry.fromMap main with mapStart := start, mapEnd := (start + ph.memsz) % 2 ^ 64 }

/-- Library link maps are implicitly not deletable. -/
def LinkMap.nodelete (l : LinkMap) : Bool :=
  l.type = .library || l.nodeleteActive

/-- `_dlfo_process_initial`, the part that is not deletable; proxy maps are skipped. -/
def initialNodelete (main : LinkMap) (others : List LinkMap) : List Entry :=
  (if main.contiguous then [] else mainPieces main) ++
    (others.filter fun l => l.real && l.nodelete).map Entry.fromMap

/-- `_dlfo_process_initial`, the part that is loaded and can go away. -/
def initialLoaded (others : List LinkMap) : List Entry :=
  (others.filter fun l => l.real && !l.nodelete && decide (l.type = .loaded)).map Entry.fromMap

/-- The segment for the initially loaded maps. Its `size` stays 0. -/
def initialSegment (loaded : List Entry) (junk : Nat → Entry) : List Segment :=
  if loaded.length = 0 then []
  else [⟨loaded ++ (List.range (initialSegmentSize - loaded.length)).map junk, 0⟩]

/-- `_dl_find_object_init`, for the main map and the other maps of all namespaces. -/
def dlFindObjectInit (main : LinkMap) (others : List LinkMap)
    (beyond : Entry) (junk : Nat → Entry) : State :=
  let nodelete := sortMappings (initialNodelete main others)
  { main := if main.contiguous then Entry.fromMap main else ⟨2 ^ 64 - 1, 2 ^ 64 - 1, none, 0⟩
    nodelete := nodelete
    nodeleteEnd := (nodelete.getLast?.map Entry.mapEnd).getD 0
    beyond := beyond
    mappings := fun idx => if idx then [] else initialSegment (initialLoaded others) junk
    version := 0 }

/-! ## `_dl_find_object_update` -/

/-- `_dlfo_update_init_seg`: the size of the segment, which is also the write index plus 1. -/
def updateInitSeg (seg : Segment) (remainingToAdd : Nat) : Segment :=
  { seg with size := if remainingToAdd < seg.objects.length then remainingToAdd
      else seg.objects.length }

/-- The state of the merge. `current` is `current_seg` with its `previous` segments, empty for the
null pointer; the target chain is split at `target_seg` into the segments already `filled`, the
nearest first, and the `unfilled` ones. -/
structure Merge where
  current : List Segment
  currentIndex : Nat
  loadedIndex : Nat
  filled : List Segment
  target : Segment
  targetIndex : Nat
  unfilled : List Segment
  remaining : Nat

def Merge.switchCurrent (m : Merge) : Merge :=
  if m.currentIndex = 0 then
    match m.current.tail with
    | [] => { m with current := [] }
    | seg :: previous =>
      if seg.size = 0 then { m with current := [], currentIndex := 0 }
      else { m with current := seg :: previous, currentIndex := seg.size }
  else m

/-- `current_seg->objects[current_seg_index1 - 1]`, if there is a current segment. -/
def Merge.currentEntry (m : Merge) : Except Fault (Option Entry) :=
  match m.current with
  | [] => .ok none
  | seg :: _ =>
    match m.currentIndex with
    | 0 => .error .bounds
    | i + 1 => do
      let e ← read seg.objects i
      .ok (some e)

def Merge.makeRoom (m : Merge) : Except Fault Merge :=
  if m.remaining = 0 then .error .assertion
  else if m.targetIndex = 0 then
    match m.unfilled with
    | [] => .error .null
    | seg :: previous =>
      let seg := updateInitSeg seg m.remaining
      .ok { m with filled := m.target :: m.filled, target := seg, targetIndex := seg.size,
                   unfilled := previous }
  else .ok m

def Merge.store (m : Merge) (e : Entry) : Except Fault Merge :=
  match m.targetIndex with
  | 0 => .error .bounds
  | i + 1 =>
    if i < m.target.objects.length then
      .ok { m with target := { m.target with objects := m.target.objects.set i e }
                   targetIndex := i, remaining := m.remaining - 1 }
    else .error .bounds

/-- Whether the entry of the current segment is taken before the last of the loaded maps. -/
def preferCurrent (loaded : List LinkMap) (m : Merge) (e : Option Entry) : Except Fault Bool :=
  match m.loadedIndex with
  | 0 => .ok true
  | i + 1 =>
    match e with
    | none => .ok false
    | some e =>
      match loaded[i]? with
      | none => .error .bounds
      | some l => .ok (l.mapStart < e.mapStart)

def Merge.takeCurrent (m : Merge) (e : Option Entry) : Except Fault Merge :=
  match e, m.currentIndex with
  | some e, i + 1 => do
    let m ← m.store e
    .ok { m with currentIndex := i }
  | _, _ => .error .assertion

def Merge.takeLoaded (m : Merge) (loaded : List LinkMap) : Except Fault Merge :=
  match m.loadedIndex with
  | 0 => .error .assertion
  | i + 1 =>
    match loaded[i]? with
    | none => .error .bounds
    | some l => do
      let m ← m.store (Entry.fromMap l)
      .ok { m with loadedIndex := i }

def Merge.add (m : Merge) (loaded : List LinkMap) (e : Option Entry) : Except Fault Merge := do
  let m ← m.makeRoom
  let current ← preferCurrent loaded m e
  if current then m.takeCurrent e else m.takeLoaded loaded

def mergeLoop (loaded : List LinkMap) : Nat → Merge → Except Fault Merge
  | 0, _ => .error .fuel
  | fuel + 1, m => do
    let m := m.switchCurrent
    let e ← m.currentEntry
    if e.any (·.map.isNone) then
      mergeLoop loaded fuel { m with currentIndex := m.currentIndex - 1 }
    else if m.loadedIndex = 0 ∧ m.current.isEmpty then .ok m
    else do
      let m ← m.add loaded e
      mergeLoop loaded fuel m

/-- The checks after the loop; the first unused segment is marked as such. -/
def Merge.finish (m : Merge) : Except Fault (List Segment) :=
  if m.remaining ≠ 0 then .error .assertion
  else if m.targetIndex ≠ 0 then .error .assertion
  else
    let unused := match m.unfilled with
      | [] => []
      | seg :: previous => { seg with size := 0 } :: previous
    .ok (m.filled.reverse ++ m.target :: unused)

/-- The target chain with enough room: a segment is put in front if there is not. `none` says that
there is no memory. -/
def ensureSpace (target : List Segment) (needed : Nat) (block : Option Block) :
    Except Fault (Option (List Segment)) :=
  if countAllocated target < needed then
    match block with
    | none => .ok none
    | some block => do
      let seg ← segmentAllocate (needed - countAllocated target) target block
      .ok (some (seg :: target))
  else .ok (some target)

def mergeInto (current target : List Segment) (loaded : List LinkMap) (needed : Nat) :
    Except Fault (List Segment) :=
  match target with
  | [] => .error .null
  | seg :: unfilled => do
    let seg := updateInitSeg seg needed
    let m ← mergeLoop loaded (countAllocated current + loaded.length + 1)
      { current := current, currentIndex := (current.head?.map Segment.size).getD 0,
        loadedIndex := loaded.length, filled := [], target := seg, targetIndex := seg.size,
        unfilled := unfilled, remaining := needed }
    m.finish

/-- `_dl_find_object_update_1` -/
def updateSorted (st : State) (loaded : List LinkMap) (block : Option Block) :
    Except Fault (Bool × State) := do
  let needed := countUsed st.active + loaded.length
  match ← ensureSpace (st.mappings !st.activeIdx) needed block with
  | none => .ok (false, st)
  | some target => do
    let target ← mergeInto st.active target loaded needed
    .ok (true, { st with
      mappings := fun idx => if idx = st.activeIdx then st.mappings idx else target
      version := (st.version + 1) % 2 ^ 64 })

/-- The maps of the chain of `new_map` that are to be added, with their flags
`l_find_object_processed`. -/
def newMaps (chain : List (LinkMap × Bool)) : List LinkMap :=
  (chain.filter fun p => p.1.real && !p.2).map Prod.fst

/-- `_dl_find_object_update`; `array` says whether the array of the new maps can be allocated. -/
def dlFindObjectUpdate (st : State) (chain : List (LinkMap × Bool)) (array : Bool)
    (block : Option Block) : Except Fault (Bool × State) :=
  if (newMaps chain).length = 0 then .ok (true, st)
  else if !array then .ok (false, st)
  else updateSorted st (linkMapSort (newMaps chain)) block

/-! ## `_dl_find_object_dlclose` -/

def Segment.close (seg : Segment) (i : Nat) : Segment :=
  { seg with objects := seg.objects.modify i fun e => { e with mapEnd := e.mapStart, map := none } }

def closeIn (mapStart : Nat) : List Segment → Except Fault (List Segment)
  | [] => .ok []
  | seg :: previous =>
    if seg.size = 0 then .ok (seg :: previous)
    else do
      let first ← read seg.objects 0
      if first.mapStart ≤ mapStart then do
        match ← lookup seg.objects seg.size mapStart with
        | none => .ok (seg :: previous)
        | some i => .ok (seg.close i :: previous)
      else do
        let previous ← closeIn mapStart previous
        .ok (seg :: previous)

def dlFindObjectDlclose (st : State) (map : LinkMap) : Except Fault State := do
  let chain ← closeIn map.mapStart st.active
  .ok { st with mappings := fun idx => if idx = st.activeIdx then chain else st.mappings idx }

end SafeLibc.Ldso.FindObject
