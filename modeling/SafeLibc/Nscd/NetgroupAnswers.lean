import SafeLibc.Nscd.NetgroupClosure

/-!
# What nscd answers to innetgr

The response headers that `addgetnetgrentX` and `addinnetgrX` send, over all the ways in which they
end. The lookup of the group is shared with getnetgrent and answers the descriptor that it is given.
`addinnetgrX` gives it none, and answers itself only if the group is found.
-/

namespace SafeLibc.Nscd.Netgroup

open SafeLibc.Lib

structure Response where
  fd : Nat
  found : Bool
  deriving DecidableEq

/-- What can fail on the way. -/
structure Resources where
  /-- `__nss_database_get` -/
  database : Bool
  /-- The buffers grow whenever an entry needs it. -/
  growth : Bool
  /-- There is room for the copy of the key. -/
  keyCopy : Bool
  /-- `mempool_alloc` in `do_notfound` -/
  notfoundAlloc : Bool

/-- `send_notfound`; `none` is the descriptor -1. -/
def sendNotfound (fd : Option Nat) : List Response := fd.toList.map fun fd => ⟨fd, false⟩

/-- How the lookup ends. -/
structure Lookup where
  /-- The time returned is negative. -/
  failed : Bool
  dataset : Option Dataset
  sent : List Response

def doNotfound (res : Resources) (fd : Option Nat) (key : CString) : Lookup where
  failed := false
  dataset := if res.notfoundAlloc then some ⟨false, 0, key.stored⟩ else none
  sent := sendNotfound fd

/-- `addgetnetgrentX` without a cached entry. -/
def lookupNetgroup (ng : Netgroups) (fuel : Nat) (res : Resources)
    (fd : Option Nat) (key : CString) : Option Lookup :=
  if res.database then
    (addgetnetgrentX ng fuel key).map fun collected =>
      if !res.growth then ⟨true, none, sendNotfound fd⟩
      else if !collected.2.found then doNotfound res fd key
      else if !res.keyCopy then ⟨true, none, sendNotfound fd⟩
      else ⟨false, some collected.2, fd.toList.map fun fd => ⟨fd, true⟩⟩
  else some (doNotfound res fd key)

/-- The lookup in `addinnetgrX`, where `cached` is the entry of the group. -/
def nestedLookup (ng : Netgroups) (fuel : Nat) (res : Resources) (group : CString) :
    Option Dataset → Option Lookup
  | some result => some ⟨false, some result, []⟩
  | none => lookupNetgroup ng fuel res none group

/-- What `addinnetgrX` sends for a request without a cached entry of its own. -/
def addinnetgrXSent (ng : Netgroups) (fuel : Nat) (res : Resources) (fd : Nat)
    (cached : Option Dataset) (key : List UInt8) : Option (List Response) :=
  (nestedLookup ng fuel res (parseKey key).group cached).map fun lookup =>
    if lookup.failed then lookup.sent
    else if lookup.dataset.any Dataset.found then lookup.sent ++ [⟨fd, true⟩]
    else lookup.sent

/-- The group is found, in the cache or by the lookup. -/
def GroupFound (ng : Netgroups) (res : Resources) (group : CString) : Option Dataset → Prop
  | some result => result.found = true
  | none => res.database = true ∧ res.growth = true ∧ res.keyCopy = true ∧ ng.isFound group = true

/-- The nested lookup sends nothing, and has a dataset with entries exactly for a group that is
found. -/
theorem nestedLookup_spec (ng : Netgroups) (res : Resources) (group : CString)
    (cached : Option Dataset) {fuel : Nat} (h : ng.groups.length < fuel) :
    ∃ lookup, nestedLookup ng fuel res group cached = some lookup ∧ lookup.sent = [] ∧
      (lookup.failed = false ∧ lookup.dataset.any Dataset.found = true ↔
        GroupFound ng res group cached) := by
  cases cached with
  | some result => exact ⟨_, rfl, rfl, and_iff_right rfl⟩
  | none =>
    have hfound : (ng.dataset group).found = ng.isFound group := by
      unfold Netgroups.dataset
      split <;> simp_all
    unfold nestedLookup lookupNetgroup GroupFound
    rw [addgetnetgrentX_eq ng group h, Option.map_some, ← apply_ite some]
    refine ⟨_, rfl, ?_⟩
    obtain ⟨database, growth, keyCopy, notfoundAlloc⟩ := res
    cases database with
    | false => cases notfoundAlloc <;> simp [doNotfound, sendNotfound]
    | true =>
      cases growth with
      | false => simp [sendNotfound]
      | true =>
        rw [← hfound]
        cases hset : (ng.dataset group).found with
        | false => cases notfoundAlloc <;> simp [doNotfound, sendNotfound]
        | true => cases keyCopy <;> simp [hset, sendNotfound]

/-- **Answers to innetgr**: one response if the group is found, and none at all if it is not. -/
theorem addinnetgrX_answers (ng : Netgroups) (res : Resources) (fd : Nat) (cached : Option Dataset)
    (key : List UInt8) {fuel : Nat} (h : ng.groups.length < fuel) :
    ∃ sent, addinnetgrXSent ng fuel res fd cached key = some sent ∧
      (GroupFound ng res (parseKey key).group cached → sent = [⟨fd, true⟩]) ∧
      (¬GroupFound ng res (parseKey key).group cached → sent = []) := by
  obtain ⟨⟨failed, dataset, sent⟩, hlookup, rfl, hiff⟩ :=
    nestedLookup_spec ng res (parseKey key).group cached h
  rw [← hiff]
  refine ⟨_, congrArg (Option.map _) hlookup, ?_, ?_⟩
  · rintro ⟨rfl, hfound⟩
    exact if_pos hfound
  · intro hnot
    cases failed with
    | true => rfl
    | false => exact if_neg fun hfound => hnot ⟨rfl, hfound⟩

theorem addinnetgrX_answers_ring :
    addinnetgrXSent ring 3 ⟨true, true, true, true⟩ 7 none
      (Request.key ⟨groupA, none, none, none⟩) =
      some [⟨7, true⟩] := by
  obtain ⟨sent, hsent, hone, -⟩ := addinnetgrX_answers ring ⟨true, true, true, true⟩ 7 none
    (Request.key ⟨groupA, none, none, none⟩) (by decide : ring.groups.length < 3)
  rw [hsent, hone ⟨rfl, rfl, rfl, by rw [parseKey_key]; decide⟩]

/-- No netgroup is known. -/
def noGroups : Netgroups := ⟨fun _ => none, [], fun _ _ ha => absurd ha List.not_mem_nil⟩

/-- A request for a group that does not exist is not answered, although nothing fails. -/
theorem addinnetgrX_unanswered :
    addinnetgrXSent noGroups 1 ⟨true, true, true, true⟩ 7 none
      (Request.key ⟨groupA, none, none, none⟩) = some [] := by
  decide

end SafeLibc.Nscd.Netgroup
