import SafeLibc.Ldso.TunablesC

/-!
# How the C loader reads a string of tunables

In terms of the entries between colons, `parse_tunables_string` records the assignments up to the
first entry with two `=` signs, and accepts the string if there is none and the last entry has one
(`parseTunablesLoop_eq`).
-/

namespace SafeLibc.Ldso

open SafeLibc.Lib List

/-- What may follow a value: the end of the line, or a colon. -/
def EndsValue (tail : List Char) : Prop := ∀ c ∈ tail.head?, c = ':'

theorem endsValue_nil : EndsValue [] := fun c hc => by cases hc

theorem EndsValue.eq_nil_or {tail : List Char} (htail : EndsValue tail) :
    tail = [] ∨ ∃ rest, tail = ':' :: rest := by
  cases tail with
  | nil => exact .inl rfl
  | cons c rest =>
    obtain rfl : c = ':' := htail c rfl
    exact .inr ⟨rest, rfl⟩

variable {entry s raw tail name rest : List Char} {list : List Tunable}

/-- An entry the C scanner can pass: at most one `=`. -/
def entryOk (entry : List Char) : Bool := entry.count '=' ≤ 1

/-- The string is well-formed from `p` on, for the C scanner: no entry has two `=` signs, and the
last one has one. -/
def wellFormedFrom (p : List Char) : Bool :=
  (splitColon p).all entryOk && ((splitColon p).getLast?.any fun entry => entry.contains '=')

theorem splitColon_cons (h : ':' ∉ entry) (rest : List Char) :
    splitColon (entry ++ ':' :: rest) = entry :: splitColon rest :=
  splitOn_append_cons_self_of_not_mem h rest

theorem splitColon_single (h : ':' ∉ entry) : splitColon entry = [entry] :=
  splitOn_eq_singleton h

theorem splitOnceEq_cases (entry : List Char) :
    ('=' ∉ entry ∧ splitOnceEq entry = none) ∨
      ∃ name raw, '=' ∉ name ∧ entry = name ++ '=' :: raw ∧
        splitOnceEq entry = some (name, raw) := by
  by_cases h : '=' ∈ entry
  · obtain ⟨name, raw, rfl, hname⟩ := eq_append_cons_of_mem h
    exact .inr ⟨name, raw, hname, rfl, splitOnceEq_eq_some_iff.2 ⟨rfl, hname⟩⟩
  · refine .inl ⟨h, Option.eq_none_iff_forall_ne_some.2 fun split hsplit => h ?_⟩
    obtain ⟨rfl, -⟩ := splitOnceEq_eq_some_iff.1 hsplit
    simp

theorem dropWhile_notSeparator (hcolon : ':' ∉ s) (heq : '=' ∉ s) (rest : List Char) :
    (s ++ rest).dropWhile notSeparator = rest.dropWhile notSeparator := by
  refine dropWhile_append_of_pos fun c hc => ?_
  have h1 : c ≠ '=' := fun h => heq (h ▸ hc)
  have h2 : c ≠ ':' := fun h => hcolon (h ▸ hc)
  simp [notSeparator, h1, h2]

section Loop

variable (list : List Tunable) {p : List Char} (tunables : List TunableToset)

theorem parseTunablesLoop_nil (h : p.dropWhile notSeparator = []) :
    parseTunablesLoop list p tunables = some none := by
  rw [parseTunablesLoop]
  split <;> simp_all

theorem parseTunablesLoop_colon {p' : List Char} (h : p.dropWhile notSeparator = ':' :: p') :
    parseTunablesLoop list p tunables = parseTunablesLoop list p' tunables := by
  rw [parseTunablesLoop]
  split <;> simp_all

def continueLoop (tail : List Char) (tunables : List TunableToset) :
    Option (Option (List TunableToset)) :=
  if tail = [] then some (some tunables) else parseTunablesLoop list tail tunables

theorem parseTunablesLoop_equals {value : List Char}
    (h : p.dropWhile notSeparator = '=' :: value) :
    parseTunablesLoop list p tunables =
      if (value.dropWhile notSeparator).head? = some '=' then some none
      else
        match list.findIdx? fun cur => tunableIsName cur.name p with
        | none => continueLoop list (value.dropWhile notSeparator) tunables
        | some i =>
          if tunables.length < list.length then
            continueLoop list (value.dropWhile notSeparator)
              (tunables ++ [⟨i, value, value.length - (value.dropWhile notSeparator).length⟩])
          else none := by
  rw [parseTunablesLoop]
  split
  · simp_all
  · simp_all
  · next c value' hne hdrop =>
    rw [h] at hdrop
    obtain ⟨rfl, rfl⟩ := List.cons.inj hdrop
    rfl

/-! ### The scan, entry by entry -/

variable {entry rest name raw tail : List Char}

theorem parseTunablesLoop_last (hcolon : ':' ∉ entry) (heq : '=' ∉ entry) :
    parseTunablesLoop list entry tunables = some none := by
  refine parseTunablesLoop_nil list tunables ?_
  have h := dropWhile_notSeparator hcolon heq []
  rwa [append_nil] at h

theorem parseTunablesLoop_skip (hcolon : ':' ∉ entry) (heq : '=' ∉ entry) :
    parseTunablesLoop list (entry ++ ':' :: rest) tunables =
      parseTunablesLoop list rest tunables :=
  parseTunablesLoop_colon list tunables (dropWhile_notSeparator hcolon heq _)

theorem continueLoop_cons : continueLoop list (':' :: rest) tunables =
    parseTunablesLoop list rest tunables :=
  parseTunablesLoop_colon list tunables rfl

theorem parseTunablesLoop_badValue (hname : ':' ∉ name) (hname' : '=' ∉ name) (hraw : ':' ∉ raw)
    (hbad : '=' ∈ raw) (tail : List Char) :
    parseTunablesLoop list (name ++ '=' :: (raw ++ tail)) tunables = some none := by
  obtain ⟨before, after, rfl, hbefore⟩ := eq_append_cons_of_mem hbad
  have hcolon : ':' ∉ before := fun h => hraw (mem_append_left _ h)
  have hdrop := dropWhile_notSeparator hcolon hbefore ('=' :: (after ++ tail))
  rw [parseTunablesLoop_equals list tunables (dropWhile_notSeparator hname hname' _)]
  simp only [append_assoc, cons_append, hdrop]
  rfl

theorem EndsValue.dropWhile_notSeparator (htail : EndsValue tail) :
    tail.dropWhile notSeparator = tail := by
  obtain rfl | ⟨rest, rfl⟩ := htail.eq_nil_or
  · rfl
  · rfl

def findTunable (name : List Char) : Option Nat := list.findIdx? fun cur => cur.name = name

theorem findIdx?_tunableIsName (hlist : ∀ cur ∈ list, '=' ∉ cur.name) (hname : '=' ∉ name) :
    (list.findIdx? fun cur => tunableIsName cur.name (name ++ '=' :: rest)) =
      findTunable list name := by
  induction list with
  | nil => rfl
  | cons cur list ih =>
    have hcur : tunableIsName cur.name (name ++ '=' :: rest) = decide (cur.name = name) :=
      Bool.eq_iff_iff.mpr
        (by simpa using tunableIsName_iff (hlist cur mem_cons_self) hname rest)
    have hrec := ih fun cur hcur => hlist cur (mem_cons_of_mem _ hcur)
    simp only [findTunable, findIdx?_cons, hcur] at hrec ⊢
    rw [hrec]

theorem parseTunablesLoop_assign (hlist : ∀ cur ∈ list, '=' ∉ cur.name) (hname : ':' ∉ name)
    (hname' : '=' ∉ name) (hraw : ':' ∉ raw) (hraw' : '=' ∉ raw) (htail : EndsValue tail) :
    parseTunablesLoop list (name ++ '=' :: (raw ++ tail)) tunables =
      match findTunable list name with
      | none => continueLoop list tail tunables
      | some i =>
        if tunables.length < list.length then
          continueLoop list tail (tunables ++ [⟨i, raw ++ tail, raw.length⟩])
        else none := by
  have hdrop : (raw ++ tail).dropWhile notSeparator = tail :=
    (dropWhile_notSeparator hraw hraw' tail).trans htail.dropWhile_notSeparator
  have hhead : tail.head? ≠ some '=' := by
    intro h
    have := htail '=' h
    cases this
  have hlen : (raw ++ tail).length - tail.length = raw.length := by simp
  rw [parseTunablesLoop_equals list tunables (dropWhile_notSeparator hname hname' _), hdrop,
    if_neg hhead, findIdx?_tunableIsName list hlist hname', hlen]

def recordEntry (entry : List Char) : Option (Nat × List Char) :=
  (splitOnceEq entry).bind fun (name, raw) => (findTunable list name).map fun i => (i, raw)

/-- The assignments the scan records from `p` on, before it ends or gives up. -/
def recordedFrom (p : List Char) : List (Nat × List Char) :=
  ((splitColon p).takeWhile entryOk).filterMap (recordEntry list)

/-- A cell of the array holds an assignment: the text of the value, in front of what follows it. -/
def Records (s : TunableToset) (e : Nat × List Char) : Prop :=
  s.t = e.1 ∧ s.len = e.2.length ∧ ∃ tail, EndsValue tail ∧ s.value = e.2 ++ tail

/-- The verdict of a scan that has recorded `tunables` and still records `tosets`. -/
def verdict (wellFormed : Bool) (tunables tosets : List TunableToset) :
    Option (Option (List TunableToset)) :=
  if list.length < tunables.length + tosets.length then none
  else if wellFormed then some (some (tunables ++ tosets)) else some none

/-- A continuation of the scan does what these assignments and this verdict say. -/
def Scans (scan : List TunableToset → Option (Option (List TunableToset)))
    (recorded : List (Nat × List Char)) (wellFormed : Bool) : Prop :=
  ∀ tunables : List TunableToset, tunables.length ≤ list.length →
    ∃ tosets, List.Forall₂ Records tosets recorded ∧
      scan tunables = verdict list wellFormed tunables tosets

end Loop

theorem entryOk_of_not_mem (h : '=' ∉ entry) : entryOk entry = true := by
  simp [entryOk, count_eq_zero_of_not_mem h]

theorem entryOk_append (hname : '=' ∉ name) : entryOk (name ++ '=' :: raw) = true ↔ '=' ∉ raw := by
  simp [entryOk, count_eq_zero_of_not_mem hname, count_eq_zero]

theorem wellFormedFrom_cons (hcolon : ':' ∉ entry) :
    wellFormedFrom (entry ++ ':' :: rest) = (entryOk entry && wellFormedFrom rest) := by
  have hne : splitColon rest ≠ [] := splitOn_ne_nil _ _
  rw [wellFormedFrom, wellFormedFrom, splitColon_cons hcolon, all_cons,
    getLast?_cons_of_ne_nil hne, Bool.and_assoc]

theorem wellFormedFrom_single (hcolon : ':' ∉ entry) :
    wellFormedFrom entry = (entryOk entry && entry.contains '=') := by
  simp [wellFormedFrom, splitColon_single hcolon]

theorem recordedFrom_cons (list : List Tunable) (hcolon : ':' ∉ entry) (rest : List Char) :
    recordedFrom list (entry ++ ':' :: rest) =
      if entryOk entry then (recordEntry list entry).toList ++ recordedFrom list rest else [] := by
  rw [recordedFrom, splitColon_cons hcolon, takeWhile_cons]
  split
  · rw [filterMap_cons]
    cases recordEntry list entry <;> rfl
  · rfl

theorem recordedFrom_single (list : List Tunable) (hcolon : ':' ∉ entry) : recordedFrom list entry =
      if entryOk entry then (recordEntry list entry).toList else [] := by
  rw [recordedFrom, splitColon_single hcolon, takeWhile_cons]
  split
  · rw [filterMap_cons]
    cases recordEntry list entry <;> rfl
  · rfl

theorem scans_gaveUp {scan : List TunableToset → Option (Option (List TunableToset))}
    (h : ∀ tunables, scan tunables = some none) : Scans list scan [] false := by
  intro tunables hroom
  refine ⟨[], .nil, ?_⟩
  rw [h, verdict, length_nil, if_neg (by omega)]
  rfl

theorem scans_end (list : List Tunable) : Scans list (continueLoop list []) [] true := by
  intro tunables hroom
  refine ⟨[], .nil, ?_⟩
  rw [verdict, length_nil, if_neg (by omega), append_nil]
  rfl

variable {recorded : List (Nat × List Char)} {wellFormed : Bool}

section

variable (hlist : ∀ cur ∈ list, '=' ∉ cur.name)
include hlist

/-- One well-formed assignment in front of a scan. -/
theorem scans_assign (hname : ':' ∉ name) (hname' : '=' ∉ name) (hraw : ':' ∉ raw)
    (hraw' : '=' ∉ raw) (htail : EndsValue tail)
    (h : Scans list (continueLoop list tail) recorded wellFormed) :
    Scans list (parseTunablesLoop list (name ++ '=' :: (raw ++ tail)))
      (((findTunable list name).map fun i => (i, raw)).toList ++ recorded) wellFormed := by
  intro tunables hroom
  rw [parseTunablesLoop_assign list tunables hlist hname hname' hraw hraw' htail]
  cases findTunable list name with
  | none => exact h tunables hroom
  | some i =>
    let s : TunableToset := ⟨i, raw ++ tail, raw.length⟩
    have hs : Records s (i, raw) := ⟨rfl, rfl, tail, htail, rfl⟩
    by_cases hfull : tunables.length < list.length
    · obtain ⟨tosets, hrec, hscan⟩ := h (tunables ++ [s])
        (by rw [length_append]; exact hfull)
      refine ⟨s :: tosets, .cons hs hrec, ?_⟩
      simp only [if_pos hfull]
      rw [hscan]
      simp [verdict, add_assoc, add_comm 1]
    · -- the array is full: whatever follows, the write of this cell is out of bounds
      obtain ⟨tosets, hrec, -⟩ := h tunables hroom
      refine ⟨s :: tosets, .cons hs hrec, ?_⟩
      simp only [if_neg hfull]
      rw [verdict, length_cons, if_pos (by omega)]

/-- An entry with an `=` in front of a scan: it makes the scan give up, or is an assignment. -/
theorem scans_value (hname : '=' ∉ name)
    (hsplit : splitOnceEq (name ++ '=' :: raw) = some (name, raw))
    (hcolon : ':' ∉ name ++ '=' :: raw) (htail : EndsValue tail)
    (h : Scans list (continueLoop list tail) recorded wellFormed) :
    Scans list (parseTunablesLoop list (name ++ '=' :: raw ++ tail))
      (if entryOk (name ++ '=' :: raw) then
        (recordEntry list (name ++ '=' :: raw)).toList ++ recorded else [])
      (entryOk (name ++ '=' :: raw) && wellFormed) := by
  have hname' : ':' ∉ name := fun h => hcolon (mem_append_left _ h)
  have hraw : ':' ∉ raw := fun h => hcolon (mem_append_right _ (mem_cons_of_mem _ h))
  rw [append_assoc]
  cases hok : entryOk (name ++ '=' :: raw) with
  | false =>
    have hbad : '=' ∈ raw := by
      by_contra hbad
      exact absurd ((entryOk_append hname).mpr hbad) (by simp [hok])
    exact scans_gaveUp fun tunables =>
      parseTunablesLoop_badValue list tunables hname' hname hraw hbad _
  | true =>
    rw [recordEntry, hsplit]
    exact scans_assign hlist hname' hname hraw ((entryOk_append hname).mp hok) htail h

theorem scans_entry (hcolon : ':' ∉ entry)
    (h : Scans list (parseTunablesLoop list rest) (recordedFrom list rest) (wellFormedFrom rest)) :
    Scans list (parseTunablesLoop list (entry ++ ':' :: rest))
      (recordedFrom list (entry ++ ':' :: rest)) (wellFormedFrom (entry ++ ':' :: rest)) := by
  rw [wellFormedFrom_cons hcolon, recordedFrom_cons list hcolon]
  obtain ⟨heq, hsplit⟩ | ⟨name, raw, hname, rfl, hsplit⟩ := splitOnceEq_cases entry
  · rw [entryOk_of_not_mem heq, recordEntry, hsplit]
    intro tunables hroom
    rw [parseTunablesLoop_skip list tunables hcolon heq]
    exact h tunables hroom
  · refine scans_value hlist hname hsplit hcolon (fun c hc => (Option.some.inj hc).symm) ?_
    intro tunables hroom
    rw [continueLoop_cons]
    exact h tunables hroom

theorem scans_single (hcolon : ':' ∉ entry) :
    Scans list (parseTunablesLoop list entry) (recordedFrom list entry)
      (wellFormedFrom entry) := by
  rw [wellFormedFrom_single hcolon, recordedFrom_single list hcolon]
  obtain ⟨heq, hsplit⟩ | ⟨name, raw, hname, rfl, hsplit⟩ := splitOnceEq_cases entry
  · have hcontains : entry.contains '=' = false := by simpa using heq
    rw [entryOk_of_not_mem heq, recordEntry, hsplit, hcontains]
    exact scans_gaveUp fun tunables => parseTunablesLoop_last list tunables hcolon heq
  · have hvalue := scans_value hlist hname hsplit hcolon endsValue_nil (scans_end list)
    have hcontains : (name ++ '=' :: raw).contains '=' = true := by simp
    rw [append_nil, append_nil] at hvalue
    rw [hcontains]
    exact hvalue

end

/-- **The scan of `parse_tunables_string`**, in terms of the entries of the string. -/
theorem parseTunablesLoop_eq (hlist : ∀ cur ∈ list, '=' ∉ cur.name) (p : List Char) :
    Scans list (parseTunablesLoop list p) (recordedFrom list p) (wellFormedFrom p) := by
  by_cases hcolon : ':' ∈ p
  · obtain ⟨entry, rest, hp, hentry⟩ := eq_append_cons_of_mem hcolon
    rw [hp]
    exact scans_entry hlist hentry (parseTunablesLoop_eq hlist rest)
  · exact scans_single hlist hcolon
termination_by p.length
decreasing_by
  rw [hp, List.length_append, List.length_cons]
  omega

end SafeLibc.Ldso
