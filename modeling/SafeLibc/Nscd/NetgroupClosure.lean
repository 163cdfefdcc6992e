import SafeLibc.Lib.Bytes
import SafeLibc.Nscd.Netgroup

/-!
# The closure of a netgroup

The two lists of `addgetnetgrentX` are a worklist over the graph of groups and members, so each
group that is reachable from the key is asked for once (`run_visits`), and the triples of all of
them are in the dataset in that order (`Collected`). `scanTriplets` reads the first `nresults` of
them, and these are all if their number is an `int32_t`.
-/

namespace SafeLibc.Nscd.Netgroup

open SafeLibc.Lib List

/-! ## The graph -/

/-- The groups that are members of the group. -/
def Netgroups.members (ng : Netgroups) (g : CString) : List CString :=
  ((ng.answers g).getD []).flatMap Answer.members

def Data.worklist (d : Data) : Worklist CString := ⟨d.neededGroups, d.knownGroups⟩

theorem worklist_receive (d : Data) (a : Answer) :
    (d.receive a).worklist = a.members.foldl Worklist.add d.worklist := by
  cases a with
  | tryAgain => rfl
  | success entry =>
    cases entry with
    | triple host user domain => rfl
    | group name =>
      simp only [Data.receive, Answer.members, foldl_cons, Worklist.add,
        Data.worklist]
      by_cases hneeded : name ∈ d.neededGroups
      · simp [hneeded]
      · by_cases hknown : name ∈ d.knownGroups
        · simp [hknown]
        · simp [hneeded, hknown]

theorem worklist_foldl_receive (d : Data) (answers : List Answer) :
    (answers.foldl Data.receive d).worklist =
      (answers.flatMap Answer.members).foldl Worklist.add d.worklist := by
  induction answers generalizing d with
  | nil => rfl
  | cons a answers ih =>
    rw [foldl_cons, ih, worklist_receive, flatMap_cons, foldl_append]

theorem worklist_visit (ng : Netgroups) (d : Data) {group : CString} {rest : List CString}
    (h : d.neededGroups = group :: rest) :
    (d.visit ng group rest).worklist = d.worklist.turn ng.members := by
  have hturn : d.worklist.turn ng.members =
      (ng.members group).foldl Worklist.add ⟨rest, group :: d.knownGroups⟩ := by
    simp only [Worklist.turn, Data.worklist, h]
  rw [hturn, Data.visit, Netgroups.members]
  cases ng.answers group with
  | none => rfl
  | some answers => exact worklist_foldl_receive _ answers

/-! ## The triples -/

/-- A triple as it is stored, with empty strings for wildcards. -/
structure Triple where
  host : CString
  user : CString
  domain : CString
  deriving DecidableEq

def Triple.stored (t : Triple) : List UInt8 := t.host.stored ++ (t.user.stored ++ t.domain.stored)

/-- The triples that an answer has, with empty strings for null pointers. -/
def Answer.triples : Answer → List Triple
  | .success (.triple host user domain) =>
    [⟨host.getD .empty, user.getD .empty, domain.getD .empty⟩]
  | _ => []

def Netgroups.triples (ng : Netgroups) (g : CString) : List Triple :=
  ((ng.answers g).getD []).flatMap Answer.triples

structure Collected (ng : Netgroups) (d : Data) : Prop where
  queries_eq : d.queries = d.knownGroups.reverse
  strdata_eq : d.scratch.strdata = (d.queries.flatMap ng.triples).flatMap Triple.stored
  nentries_eq : d.nentries = (d.queries.flatMap ng.triples).length
  found_eq : d.found = d.queries.any fun g => (ng.answers g).isSome

theorem receive_spec (d : Data) (a : Answer) :
    (d.receive a).knownGroups = d.knownGroups ∧ (d.receive a).queries = d.queries ∧
      (d.receive a).found = d.found ∧
      (d.receive a).scratch.strdata = d.scratch.strdata ++ a.triples.flatMap Triple.stored ∧
      (d.receive a).nentries = d.nentries + a.triples.length := by
  cases a with
  | tryAgain => exact ⟨rfl, rfl, rfl, (append_nil _).symm, rfl⟩
  | success entry =>
    cases entry with
    | triple host user domain =>
      refine ⟨rfl, rfl, rfl, ?_, rfl⟩
      simp [Data.receive, append, appendN, Answer.triples, Triple.stored]
    | group name =>
      unfold Data.receive
      dsimp only
      split
      · exact ⟨rfl, rfl, rfl, (append_nil _).symm, rfl⟩
      split
      · exact ⟨rfl, rfl, rfl, (append_nil _).symm, rfl⟩
      · exact ⟨rfl, rfl, rfl, (append_nil _).symm, rfl⟩

theorem foldl_receive_spec (answers : List Answer) (d : Data) :
    (answers.foldl Data.receive d).knownGroups = d.knownGroups ∧
      (answers.foldl Data.receive d).queries = d.queries ∧
      (answers.foldl Data.receive d).found = d.found ∧
      (answers.foldl Data.receive d).scratch.strdata =
        d.scratch.strdata ++ (answers.flatMap Answer.triples).flatMap Triple.stored ∧
      (answers.foldl Data.receive d).nentries =
        d.nentries + (answers.flatMap Answer.triples).length := by
  induction answers generalizing d with
  | nil => exact ⟨rfl, rfl, rfl, (append_nil _).symm, rfl⟩
  | cons a answers ih =>
    obtain ⟨hknown, hqueries, hfound, hstrdata, hnentries⟩ := receive_spec d a
    obtain ⟨hknown', hqueries', hfound', hstrdata', hnentries'⟩ := ih (d.receive a)
    rw [foldl_cons, flatMap_cons, flatMap_append, length_append]
    refine ⟨hknown'.trans hknown, hqueries'.trans hqueries, hfound'.trans hfound, ?_, ?_⟩
    · rw [hstrdata', hstrdata, append_assoc]
    · rw [hnentries', hnentries, add_assoc]

theorem Collected.visit {ng : Netgroups} {d : Data} (h : Collected ng d) (group : CString)
    (rest : List CString) : Collected ng (d.visit ng group rest) := by
  unfold Data.visit
  cases hanswers : ng.answers group with
  | none =>
    have htriples : ng.triples group = [] := by rw [Netgroups.triples, hanswers]; rfl
    refine ⟨?_, ?_, ?_, ?_⟩
    · simp [h.queries_eq]
    · simp [h.strdata_eq, htriples]
    · simp [h.nentries_eq, htriples]
    · simp [h.found_eq, hanswers]
  | some answers =>
    have htriples : ng.triples group = answers.flatMap Answer.triples := by
      rw [Netgroups.triples, hanswers]
      rfl
    obtain ⟨hknown, hqueries, hfound, hstrdata, hnentries⟩ := foldl_receive_spec answers
      { d with
        neededGroups := rest
        knownGroups := group :: d.knownGroups
        queries := d.queries ++ [group]
        found := true }
    refine ⟨?_, ?_, ?_, ?_⟩
    · rw [hqueries, hknown]
      simp [h.queries_eq]
    · rw [hstrdata, hqueries]
      simp [h.strdata_eq, htriples]
    · rw [hnentries, hqueries]
      simp [h.nentries_eq, htriples]
    · rw [hfound, hqueries]
      simp [hanswers]

/-! ## The outer loop -/

/-- The loop is a run of the worklist, and collects. -/
theorem loop_spec (ng : Netgroups) (fuel : Nat) {d : Data} (h : Collected ng d)
    (hdone : (d.worklist.run ng.members fuel).needed = []) :
    ∃ d', Data.loop ng fuel d = some d' ∧ d'.worklist = d.worklist.run ng.members fuel ∧
      Collected ng d' := by
  induction fuel generalizing d with
  | zero =>
    have hneeded : d.neededGroups = [] := hdone
    refine ⟨d, ?_, rfl, h⟩
    rw [Data.loop, hneeded]
  | succ fuel ih =>
    cases hneeded : d.neededGroups with
    | nil =>
      refine ⟨d, ?_, ?_, h⟩
      · rw [Data.loop, hneeded]
      · exact (Worklist.run_eq_self hneeded (fuel + 1)).symm
    | cons group rest =>
      rw [Worklist.run, ← worklist_visit ng d hneeded] at hdone
      obtain ⟨d', hloop, hworklist, hcollected⟩ := ih (h.visit group rest) hdone
      refine ⟨d', ?_, ?_, hcollected⟩
      · rw [Data.loop, hneeded]
        exact hloop
      · rw [hworklist, Worklist.run, ← worklist_visit ng d hneeded]

/-- The groups in the order of the queries; with a turn for each and one for the key the queue is
empty. -/
def Netgroups.reached (ng : Netgroups) (key : CString) : List CString :=
  ((Worklist.start key).run ng.members (ng.groups.length + 1)).known.reverse

/-- The triples of all groups that are reached. -/
def Netgroups.closure (ng : Netgroups) (key : CString) : List Triple :=
  (ng.reached key).flatMap ng.triples

def Netgroups.isFound (ng : Netgroups) (key : CString) : Bool :=
  (ng.reached key).any fun g => (ng.answers g).isSome

theorem Netgroups.mem_groups (ng : Netgroups) : ∀ g, ∀ name ∈ ng.members g, name ∈ ng.groups := by
  intro g name hname
  obtain ⟨a, ha, hmem⟩ := mem_flatMap.1 hname
  exact ng.members_mem g a ha name hmem

theorem reached_spec (ng : Netgroups) (key : CString) :
    (ng.reached key).Nodup ∧ ∀ g, g ∈ ng.reached key ↔ Worklist.Reachable ng.members key g := by
  obtain ⟨-, hnodup, hmem⟩ := Worklist.run_spec ng.members key ng.mem_groups (Nat.lt_succ_self _)
  refine ⟨nodup_reverse.2 hnodup, ?_⟩
  intro g
  rw [Netgroups.reached, mem_reverse]
  exact hmem g

theorem known_run (ng : Netgroups) (key : CString) {fuel : Nat} (h : ng.groups.length < fuel) :
    ((Worklist.start key).run ng.members fuel).known.reverse = ng.reached key := by
  obtain ⟨k, rfl⟩ := Nat.exists_eq_add_of_le h
  have hdone := (Worklist.run_spec ng.members key ng.mem_groups (Nat.lt_succ_self _)).1
  rw [Worklist.run_add, Worklist.run_eq_self hdone]
  rfl

/-- What `addgetnetgrentX` leaves in the cache. -/
def Netgroups.dataset (ng : Netgroups) (key : CString) : Dataset :=
  if ng.isFound key then
    ⟨true, toInt32 (ng.closure key).length, (ng.closure key).flatMap Triple.stored ++ key.stored⟩
  else ⟨false, 0, key.stored⟩

theorem addgetnetgrentX_eq (ng : Netgroups) (key : CString) {fuel : Nat}
    (h : ng.groups.length < fuel) :
    addgetnetgrentX ng fuel key = some (ng.reached key, ng.dataset key) := by
  have hdone := (Worklist.run_spec ng.members key ng.mem_groups h).1
  have hinit : Collected ng ⟨[key], [], .init, 0, false, []⟩ := ⟨rfl, rfl, rfl, rfl⟩
  obtain ⟨d, hloop, hworklist, hcollected⟩ := loop_spec ng fuel hinit hdone
  have hqueries : d.queries = ng.reached key := by
    rw [hcollected.queries_eq, ← known_run ng key h]
    exact congrArg (fun w : Worklist CString => w.known.reverse) hworklist
  have hfound : d.found = ng.isFound key := by rw [hcollected.found_eq, hqueries]; rfl
  rw [addgetnetgrentX, hloop, Option.map_some, hfound, appendN,
    hcollected.strdata_eq, hcollected.nentries_eq, hqueries]
  rfl

/-! ## The scan -/

/-- An argument and a field match, or one of them is a wildcard. -/
def Admits (arg : Option CString) (field : CString) : Prop :=
  arg = none ∨ field = .empty ∨ arg = some field

instance (arg : Option CString) (field : CString) : Decidable (Admits arg field) :=
  inferInstanceAs (Decidable (_ ∨ _))

def Triple.Matches (t : Triple) (req : Request) : Prop :=
  Admits req.host t.host ∧ Admits req.user t.user ∧ Admits req.domain t.domain

instance (t : Triple) (req : Request) : Decidable (t.Matches req) :=
  inferInstanceAs (Decidable (_ ∧ _ ∧ _))

theorem compare_eq (ok : Bool) (arg : Option CString) (field : CString) :
    (if ok = true ∧ ¬arg = none ∧ ¬field = .empty then decide (arg = some field) else ok) =
      (ok && decide (Admits arg field)) := by
  unfold Admits
  cases ok with
  | false => simp
  | true =>
    by_cases harg : arg = none
    · simp [harg]
    · by_cases hfield : field = .empty
      · simp [hfield]
      · simp [hfield]

theorem scanTriplets_cons (req : Request) (n : Nat) (t : Triple) (rest : List UInt8) :
    scanTriplets req (n + 1) (t.stored ++ rest) =
      if t.Matches req then 1 else scanTriplets req n rest := by
  have hstored :
      t.stored ++ rest = t.host.stored ++ (t.user.stored ++ (t.domain.stored ++ rest)) := by
    simp only [Triple.stored, append_assoc]
  have hhost := compare_eq true req.host t.host
  simp only [true_and, Bool.true_and] at hhost
  simp only [hstored, scanTriplets, ne_eq, afterNul_stored, cstringAt_stored, head?_stored]
  rw [hhost, compare_eq]
  refine if_congr ?_ rfl rfl
  rw [Bool.and_eq_true, decide_eq_true_eq, decide_eq_true_eq, and_assoc]
  rfl

theorem scanTriplets_eq (req : Request) (n : Nat) (ts : List Triple) (rest : List UInt8)
    (h : n ≤ ts.length) :
    scanTriplets req n (ts.flatMap Triple.stored ++ rest) =
      if ∃ t ∈ ts.take n, t.Matches req then 1 else 0 := by
  induction ts generalizing n with
  | nil =>
    obtain rfl : n = 0 := Nat.le_zero.1 h
    simp [scanTriplets]
  | cons t ts ih =>
    cases n with
    | zero => simp [scanTriplets]
    | succ n =>
      rw [flatMap_cons, append_assoc, scanTriplets_cons, ih n (Nat.le_of_succ_le_succ h)]
      by_cases ht : t.Matches req
      · simp [ht]
      · simp [ht]

/-! ## Requests -/

def sendArgument : Option CString → List UInt8
  | none => [0]
  | some s => 1 :: s.stored

/-- The key of a request as the client sends it. -/
def Request.key (req : Request) : List UInt8 :=
  req.group.stored ++
    (sendArgument req.host ++ (sendArgument req.user ++ sendArgument req.domain))

theorem takeArgument_send (arg : Option CString) (rest : List UInt8) :
    takeArgument (sendArgument arg ++ rest) = (arg, rest) := by
  cases arg with
  | none => rfl
  | some s => simp [takeArgument, sendArgument, cstringAt_stored, afterNul_stored]

theorem parseKey_key (req : Request) : parseKey req.key = req := by
  have hdomain := takeArgument_send req.domain []
  rw [append_nil] at hdomain
  simp only [parseKey, Request.key, cstringAt_stored, afterNul_stored, takeArgument_send, hdomain]

theorem toInt32_of_lt {n : Nat} (h : n < 2 ^ 31) : toInt32 n = n := by
  apply Int.bmod_eq_of_le
  · omega
  · omega

theorem toInt32_le (n : Nat) : toInt32 n ≤ n := by
  have hdef := Int.bmod_def (n : Int) (2 ^ 32)
  unfold toInt32
  split at hdef
  · omega
  · omega

theorem closure_of_not_found {ng : Netgroups} {key : CString} (h : ng.isFound key = false) :
    ng.closure key = [] := by
  rw [Netgroups.isFound, any_eq_false] at h
  apply flatMap_eq_nil_iff.2
  intro g hg
  have hnone : ng.answers g = none := by simpa using h g hg
  rw [Netgroups.triples, hnone]
  rfl

theorem compareDataset_eq (ng : Netgroups) (req : Request) :
    compareDataset req (ng.dataset req.group) =
      ⟨ng.isFound req.group,
        if ∃ t ∈ (ng.closure req.group).take (toInt32 (ng.closure req.group).length).toNat,
          t.Matches req then 1 else 0⟩ := by
  unfold Netgroups.dataset compareDataset
  cases hfound : ng.isFound req.group with
  | false => simp [closure_of_not_found hfound]
  | true =>
    have hle := toInt32_le (ng.closure req.group).length
    rw [if_pos rfl, if_pos rfl]
    dsimp only
    rw [scanTriplets_eq _ _ _ _ (by omega)]

/-- The answer to a request, when the triples are in the cache or have to be collected. -/
theorem addinnetgrX_eq (ng : Netgroups) (req : Request) {fuel : Nat} (h : ng.groups.length < fuel)
    {cached : Option Dataset} (hcached : cached = none ∨ cached = some (ng.dataset req.group)) :
    addinnetgrX ng fuel cached req.key = some (compareDataset req (ng.dataset req.group)) := by
  unfold addinnetgrX
  rw [parseKey_key]
  rcases hcached with rfl | rfl
  · dsimp only
    rw [addgetnetgrentX_eq ng req.group h]
    rfl
  · rfl

/-- The closure of a netgroup as a request should see it: `addgetnetgrentX` asks for each group that
is reachable from the key once and stores the triples of all of them, and `addinnetgrX` answers 1
exactly if one of these matches. -/
structure AnswersClosure (ng : Netgroups) (req : Request) : Prop where
  nodup : (ng.reached req.group).Nodup
  mem_reached : ∀ g, g ∈ ng.reached req.group ↔ Worklist.Reachable ng.members req.group g
  answers : ∀ fuel, ng.groups.length < fuel →
    ∃ dataset, addgetnetgrentX ng fuel req.group = some (ng.reached req.group, dataset) ∧
      dataset.found = ng.isFound req.group ∧
      (dataset.found →
        dataset.strdata = (ng.closure req.group).flatMap Triple.stored ++ req.group.stored) ∧
      ∀ cached, cached = none ∨ cached = some dataset →
        addinnetgrX ng fuel cached req.key =
          some ⟨dataset.found, if ∃ t ∈ ng.closure req.group, t.Matches req then 1 else 0⟩

/-- The triples that a request is compared with: as many as their number says as an `int32_t`. -/
def Netgroups.compared (ng : Netgroups) (key : CString) : List Triple :=
  (ng.closure key).take (toInt32 (ng.closure key).length).toNat

theorem mem_of_mem_compared {ng : Netgroups} {key : CString} {t : Triple}
    (h : t ∈ ng.compared key) : t ∈ ng.closure key :=
  mem_of_mem_take h

theorem compared_of_lt {ng : Netgroups} {key : CString} (h : (ng.closure key).length < 2 ^ 31) :
    ng.compared key = ng.closure key := by
  rw [Netgroups.compared, toInt32_of_lt h, Int.toNat_natCast, take_length]

/-- **The closure of a netgroup** is answered, in every finite database and for every request,
exactly if a triple that matches is among those that the count lets the scan see. -/
theorem answersClosure_iff (ng : Netgroups) (req : Request) :
    AnswersClosure ng req ↔
      ((∃ t ∈ ng.closure req.group, t.Matches req) →
        ∃ t ∈ ng.compared req.group, t.Matches req) := by
  have hfound : (ng.dataset req.group).found = ng.isFound req.group := by
    unfold Netgroups.dataset
    cases ng.isFound req.group <;> rfl
  have hanswer : ∀ {fuel}, ng.groups.length < fuel → ∀ {cached},
      cached = none ∨ cached = some (ng.dataset req.group) →
      addinnetgrX ng fuel cached req.key = some ⟨ng.isFound req.group,
        if ∃ t ∈ ng.compared req.group, t.Matches req then 1 else 0⟩ := by
    intro fuel hfuel cached hcached
    rw [addinnetgrX_eq ng req hfuel hcached, compareDataset_eq]
    rfl
  constructor
  · rintro ⟨-, -, hrun⟩ hmatch
    obtain ⟨dataset, hget, -, -, hin⟩ := hrun _ (Nat.lt_succ_self ng.groups.length)
    have hone := hin none (.inl rfl)
    rw [hanswer (Nat.lt_succ_self _) (.inl rfl), if_pos hmatch] at hone
    by_contra hnone
    simp [hnone] at hone
  · intro hseen
    have hiff : (∃ t ∈ ng.compared req.group, t.Matches req) ↔
        ∃ t ∈ ng.closure req.group, t.Matches req :=
      ⟨fun ⟨t, ht, hm⟩ => ⟨t, mem_of_mem_compared ht, hm⟩, hseen⟩
    obtain ⟨hnodup, hmem⟩ := reached_spec ng req.group
    refine ⟨hnodup, hmem, fun fuel hfuel => ?_⟩
    refine ⟨ng.dataset req.group, addgetnetgrentX_eq ng req.group hfuel, hfound, ?_, ?_⟩
    · intro h
      rw [hfound] at h
      rw [Netgroups.dataset, if_pos h]
    · intro cached hcached
      rw [hanswer hfuel hcached, hfound]
      simp only [hiff]

/-! A ring of two groups that name each other twice. -/

def groupA : CString := ⟨bytesOf "a", by decide⟩

def groupB : CString := ⟨bytesOf "b", by decide⟩

def hostH : CString := ⟨bytesOf "h", by decide⟩

def ringAnswers (g : CString) : List Answer :=
  if g = groupA then
    [.success (.group groupB), .tryAgain, .success (.triple (some hostH) none none),
      .success (.group groupB)]
  else if g = groupB then [.success (.group groupA), .success (.triple none (some hostH) none)]
  else []

/-- Two groups, each a member of the other. -/
def ring : Netgroups where
  answers g := some (ringAnswers g)
  groups := [groupA, groupB]
  members_mem g a ha name hname := by
    change a ∈ ringAnswers g at ha
    unfold ringAnswers at ha
    split at ha
    · rcases a with (_ | _) | _ <;> simp_all [Answer.members]
    · split at ha
      · rcases a with (_ | _) | _ <;> simp_all [Answer.members]
      · exact absurd ha List.not_mem_nil

/-- Two triples in the ring, so the scan sees both. -/
theorem answersClosure_ring :
    AnswersClosure ring ⟨groupA, some groupB, some hostH, none⟩ ∧
      addinnetgrX ring 3 none (Request.key ⟨groupA, some groupB, some hostH, none⟩) =
        some ⟨true, 1⟩ := by
  refine ⟨(answersClosure_iff ring _).2 ?_, by decide⟩
  rw [compared_of_lt (by decide)]
  exact id

/-! Groups with many wildcards. -/

def wildcard : Triple := ⟨.empty, .empty, .empty⟩

def wildcards (n : Nat) : Netgroups where
  answers _ := some (List.replicate n (.success (.triple none none none)))
  groups := []
  members_mem g a ha name hname := by
    rw [Option.getD_some] at ha
    obtain rfl := List.eq_of_mem_replicate ha
    exact absurd hname List.not_mem_nil

theorem triples_wildcards (n : Nat) (g : CString) :
    (wildcards n).triples g = replicate n wildcard := by
  change (replicate n _).flatMap Answer.triples = _
  induction n with
  | zero => rfl
  | succ n ih =>
    rw [replicate_succ, flatMap_cons, ih]
    rfl

theorem closure_wildcards (n : Nat) (key : CString) :
    (wildcards n).closure key = replicate n wildcard ∧ (wildcards n).isFound key = true := by
  have hmembers : (wildcards n).members key = [] := by
    apply eq_nil_iff_forall_not_mem.2
    intro name hname
    exact absurd ((wildcards n).mem_groups key name hname) not_mem_nil
  have hreached : (wildcards n).reached key = [key] := by
    change ((Worklist.start key).run (wildcards n).members 1).known.reverse = _
    simp only [Worklist.run, Worklist.turn, Worklist.start, hmembers, foldl_nil,
      reverse_singleton]
  rw [Netgroups.closure, Netgroups.isFound, hreached, flatMap_singleton, triples_wildcards]
  exact ⟨rfl, rfl⟩

/-- If the count is negative as an `int32_t`, the scan ends before it begins. -/
theorem addinnetgrX_wildcards (n : Nat) (hcount : (toInt32 n).toNat = 0) (req : Request) :
    addinnetgrX (wildcards n) 1 none req.key = some ⟨true, 0⟩ := by
  obtain ⟨hclosure, hfound⟩ := closure_wildcards n req.group
  rw [addinnetgrX_eq (wildcards n) req one_pos (.inl rfl), compareDataset_eq, hclosure,
    length_replicate, hcount, hfound]
  simp

/-- With `2 ^ 31` triples that match everything, nothing is in the group. -/
theorem innetgr_count_overflows :
    let req : Request := ⟨groupA, some groupB, some hostH, none⟩
    (∃ t ∈ (wildcards (2 ^ 31)).closure req.group, t.Matches req) ∧
      addinnetgrX (wildcards (2 ^ 31)) 1 none req.key = some ⟨true, 0⟩ := by
  intro req
  have hcount : (toInt32 (2 ^ 31)).toNat = 0 := by decide
  have hpos : 2 ^ 31 ≠ 0 := by decide
  generalize 2 ^ 31 = n at hcount hpos ⊢
  refine ⟨⟨wildcard, ?_, ?_⟩, addinnetgrX_wildcards n hcount req⟩
  · rw [(closure_wildcards n req.group).1]
    exact mem_replicate.2 ⟨hpos, rfl⟩
  · exact ⟨.inr (.inl rfl), .inr (.inl rfl), .inr (.inl rfl)⟩

end SafeLibc.Nscd.Netgroup
