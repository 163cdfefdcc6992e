import SafeLibc.Lib.Str
import SafeLibc.Lib.Worklist
import Mathlib.Tactic.Ring

/-!
# Netgroups in nscd

`addgetnetgrentX` and `addinnetgrX` of `nscd/netgroupcache.c`. The first collects the triples of a
netgroup and of the groups in it, with the two lists of `struct __netgrent`: the groups that are
still needed, a queue, and those that are known. Triples are stored one after another as strings, in
a buffer that grows. The second reads them from there and compares.

The NSS module is a function from group names to its answers. It may refuse a group, and answers a
call of `getnetgrent_r` with the next entry or, any number of times, with `ERANGE`. Allocations
succeed.
-/

namespace SafeLibc.Nscd.Netgroup

open SafeLibc.Lib

/-! ## The NSS module -/

inductive Entry
  | triple (host user domain : Option CString)
  | group (name : CString)

inductive Answer
  | success (entry : Entry)
  /-- `NSS_STATUS_TRYAGAIN` with `ERANGE` -/
  | tryAgain

def Answer.members : Answer → List CString
  | .success (.group name) => [name]
  | _ => []

/-- A finite netgroup database: `setnetgrent` fails, or the answers come one after another and the
end after them. Only groups of a finite list are members of groups. -/
structure Netgroups where
  answers : CString → Option (List Answer)
  groups : List CString
  members_mem : ∀ g, ∀ a ∈ (answers g).getD [], ∀ name ∈ a.members, name ∈ groups

/-! ## Collecting triples -/

/-- `sizeof (struct dataset)`: the header before the triples. -/
def sizeofDataset : Nat := 40

/-- The staging buffers. A buffer of `struct scratch_buffer` has 1024 bytes, doubled as often as it
has grown. -/
structure Scratch where
  strdata : List UInt8
  doublings : Nat
  tmpDoublings : Nat

def Scratch.init : Scratch := ⟨[], 0, 0⟩

def growTo (doublings need : Nat) : Nat :=
  if need ≤ 1024 * 2 ^ doublings then doublings else growTo (doublings + 1) need
termination_by need - 1024 * 2 ^ doublings
decreasing_by
  have hpos : 0 < 2 ^ doublings := Nat.two_pow_pos doublings
  rw [pow_succ]
  omega

def appendN (scratch : Scratch) (s : List UInt8) : Scratch :=
  { scratch with
    strdata := scratch.strdata ++ s
    doublings := growTo scratch.doublings (sizeofDataset + scratch.strdata.length + s.length) }

/-- `addgetnetgrentX_append`: a null pointer is stored as the empty string. -/
def append (scratch : Scratch) (s : Option CString) : Scratch :=
  appendN scratch (s.getD CString.empty).stored

structure Data where
  neededGroups : List CString
  knownGroups : List CString
  scratch : Scratch
  nentries : Nat
  found : Bool
  queries : List CString

def Data.receive (d : Data) : Answer → Data
  | .success (.triple host user domain) =>
    { d with
      scratch := append (append (append d.scratch host) user) domain
      nentries := d.nentries + 1 }
  | .success (.group name) =>
    -- the group may have been requested before
    if name ∈ d.neededGroups then d
    else if name ∈ d.knownGroups then d
    else { d with neededGroups := d.neededGroups ++ [name] }
  | .tryAgain => { d with scratch := { d.scratch with tmpDoublings := d.scratch.tmpDoublings + 1 } }

def Data.visit (ng : Netgroups) (d : Data) (group : CString) (rest : List CString) : Data :=
  let d := { d with
    neededGroups := rest
    knownGroups := group :: d.knownGroups
    queries := d.queries ++ [group] }
  match ng.answers group with
  | none => d
  | some answers => answers.foldl Data.receive { d with found := true }

/-- `while (data.needed_groups != NULL)`, at most `fuel` turns. -/
def Data.loop (ng : Netgroups) : Nat → Data → Option Data
  | fuel, d =>
    match d.neededGroups with
    | [] => some d
    | group :: rest =>
      match fuel with
      | 0 => none
      | fuel + 1 => Data.loop ng fuel (d.visit ng group rest)

structure Dataset where
  found : Bool
  /-- An `int32_t`. -/
  nresults : Int
  strdata : List UInt8

/-- The conversion to `nscd_ssize_t`. -/
def toInt32 (n : Nat) : Int := (n : Int).bmod (2 ^ 32)

/-- `addgetnetgrentX`: the calls of `setnetgrent`, and the dataset. -/
def addgetnetgrentX (ng : Netgroups) (fuel : Nat) (key : CString) :
    Option (List CString × Dataset) :=
  (Data.loop ng fuel ⟨[key], [], .init, 0, false, []⟩).map fun d =>
    (d.queries,
      if d.found then
        ⟨true, toInt32 d.nentries, (appendN d.scratch key.stored).strdata⟩
      else ⟨false, 0, key.stored⟩)

/-! ## Comparing -/

structure Request where
  group : CString
  host : Option CString
  user : Option CString
  domain : Option CString

/-- `*key++ ? key : NULL`, and what comes after the argument. -/
def takeArgument (key : List UInt8) : Option CString × List UInt8 :=
  if key.head? ≠ some 0 then (some (cstringAt key.tail), afterNul key.tail) else (none, key.tail)

def parseKey (key : List UInt8) : Request :=
  let host := takeArgument (afterNul key)
  let user := takeArgument host.2
  let domain := takeArgument user.2
  ⟨cstringAt key, host.1, user.1, domain.1⟩

def scanTriplets (req : Request) : Nat → List UInt8 → Nat
  | 0, _ => 0
  | n + 1, host =>
    let success := if req.host ≠ none ∧ host.head? ≠ some 0 then
      decide (req.host = some (cstringAt host)) else true
    let user := afterNul host
    let success := if success = true ∧ req.user ≠ none ∧ user.head? ≠ some 0 then
      decide (req.user = some (cstringAt user)) else success
    let domain := afterNul user
    if success = true ∧ (req.domain = none ∨ domain.head? = some 0 ∨
        req.domain = some (cstringAt domain)) then 1
    else scanTriplets req n (afterNul domain)

structure InResponse where
  found : Bool
  result : Nat
  deriving DecidableEq, Repr

def compareDataset (req : Request) (result : Dataset) : InResponse :=
  ⟨result.found, if result.found then scanTriplets req result.nresults.toNat result.strdata else 0⟩

/-- `addinnetgrX`, where the triples are in the cache or are collected. -/
def addinnetgrX (ng : Netgroups) (fuel : Nat) (cached : Option Dataset) (key : List UInt8) :
    Option InResponse :=
  let req := parseKey key
  match cached with
  | some result => some (compareDataset req result)
  | none => (addgetnetgrentX ng fuel req.group).map fun r => compareDataset req r.2

end SafeLibc.Nscd.Netgroup
