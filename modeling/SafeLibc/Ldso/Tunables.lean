import SafeLibc.Lib.Runs
import SafeLibc.Lib.Str
import Mathlib.Data.List.TakeWhile

/-!
# The tunables of the Rust loader

`TunableRegistry::parse_env` and what it calls. The map of values is a function of the name, and
`i64` and `u64` are integers and naturals with the range check of `str::parse`. What it computes is
stated in terms of the text of the environment alone (`TunableRegistry.parseEnv_eq_some_iff`).

An environment variable is a name and a value, and a name never holds `=`: that is what makes the
line `NAME=VALUE`, which the C code scans, and the pair, which the Rust code gets, the same thing.
-/

namespace SafeLibc.Ldso

open SafeLibc.Lib

/-! ## Environment variables -/

structure EnvVar where
  name : List Char
  value : List Char
  name_valid : '=' ∉ name
  deriving DecidableEq, Repr

def glibcTunables : List Char := "GLIBC_TUNABLES".toList

def EnvVar.line (v : EnvVar) : List Char := v.name ++ '=' :: v.value

/-- Comparison of a fixed name with the name that begins a line: `tunable_is_name`, and the inner
loop of `unsetenv`. -/
def tunableIsName : List Char → List Char → Bool
  | [], envname => envname.head? == some '='
  | _ :: _, [] => false
  | a :: orig, b :: envname => a == b && tunableIsName orig envname

theorem tunableIsName_iff {orig name : List Char} (horig : '=' ∉ orig) (hname : '=' ∉ name)
    (rest : List Char) : tunableIsName orig (name ++ '=' :: rest) = true ↔ orig = name := by
  induction orig generalizing name with
  | nil =>
    cases name with
    | nil => simp [tunableIsName]
    | cons c name =>
      have hc : c ≠ '=' := fun h => hname (h ▸ List.mem_cons_self)
      simp [tunableIsName, hc]
  | cons a orig ih =>
    have ha : a ≠ '=' := fun h => horig (h ▸ List.mem_cons_self)
    cases name with
    | nil => simp [tunableIsName, ha]
    | cons c name =>
      have hrec := ih (fun h => horig (List.mem_cons_of_mem _ h))
        (fun h => hname (List.mem_cons_of_mem _ h))
      simp [tunableIsName, hrec]

theorem EnvVar.tunableIsName_line {orig : List Char} (horig : '=' ∉ orig) (v : EnvVar) :
    tunableIsName orig v.line = true ↔ orig = v.name :=
  tunableIsName_iff horig v.name_valid v.value

/-! ## The registry -/

inductive TunableKind
  | string
  | int32 (min max : Int)
  | uint64 (min max : Nat)
  deriving DecidableEq, Repr

inductive TunableValue
  | string (s : List Char)
  | integer (n : Int)
  | unsigned (n : Nat)
  deriving DecidableEq, Repr

structure TunableDefinition where
  name : List Char
  envAlias : Option (List Char)
  kind : TunableKind
  deriving DecidableEq, Repr

abbrev TunablesState := List Char → Option TunableValue

def TunablesState.empty : TunablesState := fun _ => none

def TunablesState.insert (state : TunablesState) (name : List Char) (value : TunableValue) :
    TunablesState :=
  fun n => if n = name then some value else state n

structure TunableRegistry where
  defs : List TunableDefinition
  deriving DecidableEq, Repr

def TunableRegistry.find (registry : TunableRegistry) (name : List Char) :
    Option TunableDefinition :=
  registry.defs.find? fun item => item.name = name

/-! ## Values -/

def parseValue (tunable : TunableDefinition) (raw : List Char) : Option TunableValue :=
  match tunable.kind with
  | .string => some (.string raw)
  | .int32 min max => do
    let parsed ← parseI64 raw
    if parsed < min ∨ parsed > max then none else some (.integer parsed)
  | .uint64 min max => do
    let parsed ← parseU64 raw
    if parsed < min ∨ parsed > max then none else some (.unsigned parsed)

/-! ## Assignments -/

/-- `split(':')`. -/
def splitColon (value : List Char) : List (List Char) :=
  value.splitOn ':'

/-- `split_once('=')`. -/
def splitOnceEq (entry : List Char) : Option (List Char × List Char) :=
  match entry.dropWhile (· ≠ '=') with
  | [] => none
  | _ :: raw => some (entry.takeWhile (· ≠ '='), raw)

def parseTunablesAssignments (value : List Char) : List (List Char × List Char) :=
  if value.isEmpty then []
  else
    (splitColon value).filterMap fun entry => do
      let (name, raw) ← splitOnceEq entry
      if name.isEmpty then none else some (name, raw)

section Registry

variable (registry : TunableRegistry)

def TunableRegistry.parseEnvVar (state : TunablesState) (v : EnvVar) : TunablesState :=
  if v.name = glibcTunables then
    (parseTunablesAssignments v.value).foldl (fun state (name, raw) =>
      match registry.find name with
      | none => state
      | some tunable =>
        match parseValue tunable raw with
        | none => state
        | some parsed => state.insert tunable.name parsed) state
  else
    registry.defs.foldl (fun state tunable =>
      if tunable.envAlias = some v.name then
        match parseValue tunable v.value with
        | none => state
        | some parsed => state.insert tunable.name parsed
      else state) state

def TunableRegistry.parseEnv (secure : Bool) (env : List EnvVar) : TunablesState :=
  if secure then .empty else env.foldl registry.parseEnvVar .empty

end Registry

/-! ## What an environment says

The specification: which text denotes which value, which entries and variables set a tunable, and
that the last of them counts. -/

/-- `raw` is a value of the kind, and denotes it. -/
inductive Denotes : TunableKind → List Char → TunableValue → Prop
  | string (raw : List Char) : Denotes .string raw (.string raw)
  | integer {digits raw : List Char} {n : Nat} {z min max : Int} :
      Numeral digits n →
        (z = n ∧ (raw = digits ∨ raw = '+' :: digits) ∨ z = -n ∧ raw = '-' :: digits) →
      -2 ^ 63 ≤ z ∧ z < 2 ^ 63 → min ≤ z ∧ z ≤ max → Denotes (.int32 min max) raw (.integer z)
  | unsigned {digits raw : List Char} {n min max : Nat} :
      Numeral digits n → raw = digits ∨ raw = '+' :: digits → n < 2 ^ 64 → min ≤ n ∧ n ≤ max →
      Denotes (.uint64 min max) raw (.unsigned n)

theorem parseValue_eq_some_iff {tunable : TunableDefinition}
    {raw : List Char} {value : TunableValue} :
    parseValue tunable raw = some value ↔ Denotes tunable.kind raw value := by
  unfold parseValue
  split
  · next hkind =>
    rw [hkind]
    constructor
    · rintro ⟨⟩
      exact .string raw
    · rintro ⟨⟩
      rfl
  · next min max hkind =>
    rw [hkind]
    constructor
    · intro h
      obtain ⟨z, hz, hrange⟩ := Option.bind_eq_some_iff.1 h
      obtain ⟨digits, n, hn, hraw, hz⟩ := parseI64_eq_some_iff.1 hz
      split at hrange
      · cases hrange
      · obtain rfl := Option.some.inj hrange
        exact .integer hn hraw hz (by omega)
    · rintro (_ | ⟨hn, hraw, hz, hrange⟩)
      exact Option.bind_eq_some_iff.2 ⟨_, parseI64_eq_some_iff.2 ⟨_, _, hn, hraw, hz⟩,
        if_neg (by omega)⟩
  · next min max hkind =>
    rw [hkind]
    constructor
    · intro h
      obtain ⟨n, hn, hrange⟩ := Option.bind_eq_some_iff.1 h
      obtain ⟨digits, hraw, hn, hlt⟩ := parseU64_eq_some_iff.1 hn
      split at hrange
      · cases hrange
      · obtain rfl := Option.some.inj hrange
        exact .unsigned hn hraw hlt (by omega)
    · rintro (_ | _ | ⟨hn, hraw, hlt, hrange⟩)
      exact Option.bind_eq_some_iff.2 ⟨_, parseU64_eq_some_iff.2 ⟨_, hraw, hn, hlt⟩,
        if_neg (by omega)⟩

section Registry

variable (registry : TunableRegistry)

/-- An entry `name=raw` sets the tunable to what `raw` denotes for the first definition of that
name. -/
def TunableRegistry.EntrySets (name entry : List Char) (value : TunableValue) : Prop :=
  ∃ raw tunable earlier later, entry = name ++ '=' :: raw ∧ name ≠ [] ∧ '=' ∉ name ∧
    registry.defs = earlier ++ tunable :: later ∧ tunable.name = name ∧
    (∀ other ∈ earlier, other.name ≠ name) ∧ Denotes tunable.kind raw value

/-- A variable sets the tunable: `GLIBC_TUNABLES` by its last entry that does, another one as an
alias. -/
def TunableRegistry.VarSets (name : List Char) (v : EnvVar) (value : TunableValue) : Prop :=
  if v.name = glibcTunables then
    ∃ entries, v.value = [':'].intercalate entries ∧ entries ≠ [] ∧
      (∀ entry ∈ entries, ':' ∉ entry) ∧
      LastIn (registry.EntrySets name) entries value
  else
    LastIn (fun tunable value => tunable.name = name ∧ tunable.envAlias = some v.name ∧
      Denotes tunable.kind v.value value) registry.defs value

/-- What `parse_env` takes from one entry for the tunable. -/
def TunableRegistry.entryValue (name entry : List Char) : Option TunableValue :=
  (splitOnceEq entry).bind fun (n, raw) =>
    if n.isEmpty then none
    else (registry.find n).bind fun tunable =>
      if tunable.name = name then parseValue tunable raw else none

def TunableRegistry.varValue (name : List Char) (v : EnvVar) : Option TunableValue :=
  if v.name = glibcTunables then (splitColon v.value).reverse.findSome? (registry.entryValue name)
  else registry.defs.reverse.findSome? fun tunable =>
    if tunable.name = name ∧ tunable.envAlias = some v.name then parseValue tunable v.value
      else none

theorem splitOnceEq_eq_some_iff {entry n raw : List Char} :
    splitOnceEq entry = some (n, raw) ↔ entry = n ++ '=' :: raw ∧ '=' ∉ n := by
  constructor
  · intro h
    unfold splitOnceEq at h
    split at h
    · cases h
    · next c rest hdrop =>
      obtain ⟨rfl, rfl⟩ := Prod.mk.inj (Option.some.inj h)
      have hc := List.head?_dropWhile_not (· ≠ '=') entry
      rw [hdrop] at hc
      obtain rfl : c = '=' := by simpa using hc
      refine ⟨?_, fun hmem => by simpa using List.mem_takeWhile_imp hmem⟩
      rw [← hdrop, List.takeWhile_append_dropWhile]
  · rintro ⟨rfl, hn⟩
    have hall : ∀ c ∈ n, decide (c ≠ '=') = true := fun c hc => by
      simpa using fun h : c = '=' => hn (h ▸ hc)
    unfold splitOnceEq
    rw [List.dropWhile_append_of_pos hall, List.takeWhile_append_of_pos hall]
    simp

theorem TunableRegistry.entryValue_eq_some_iff {name entry : List Char} {value : TunableValue} :
    registry.entryValue name entry = some value ↔ registry.EntrySets name entry value := by
  unfold entryValue EntrySets
  rw [Option.bind_eq_some_iff]
  constructor
  · rintro ⟨⟨n, raw⟩, hentry, h⟩
    obtain ⟨rfl, hn⟩ := splitOnceEq_eq_some_iff.1 hentry
    dsimp only at h
    split at h
    · cases h
    · next hne =>
      obtain ⟨tunable, hfind, hvalue⟩ := Option.bind_eq_some_iff.1 h
      split at hvalue
      · next hname =>
        obtain ⟨hfound, earlier, later, hdefs, hearlier⟩ := List.find?_eq_some_iff_append.1 hfind
        obtain rfl : tunable.name = n := by simpa using hfound
        subst hname
        exact ⟨raw, tunable, earlier, later, rfl, by simpa using hne, hn, hdefs, rfl,
          fun other hother => by simpa using hearlier other hother,
          parseValue_eq_some_iff.1 hvalue⟩
      · cases hvalue
  · rintro ⟨raw, tunable, earlier, later, rfl, hne, hn, hdefs, hname, hearlier, hvalue⟩
    refine ⟨(name, raw), splitOnceEq_eq_some_iff.2 ⟨rfl, hn⟩, ?_⟩
    have hfind : registry.find name = some tunable := List.find?_eq_some_iff_append.2
      ⟨by simpa using hname, earlier, later, hdefs, fun other hother => by
        simpa using hearlier other hother⟩
    dsimp only
    rw [if_neg (by simpa using hne), hfind, Option.bind_some, if_pos hname]
    exact parseValue_eq_some_iff.2 hvalue

theorem parseTunablesAssignments_eq (value : List Char) :
    parseTunablesAssignments value = (splitColon value).filterMap fun entry =>
      (splitOnceEq entry).bind fun (name, raw) =>
        if name.isEmpty then none else some (name, raw) := by
  unfold parseTunablesAssignments
  split
  · next hempty =>
    obtain rfl := List.isEmpty_iff.1 hempty
    rfl
  · rfl

/-- An accepted assignment changes its own tunable. -/
theorem apply_insert_parseValue (state : TunablesState) (tunable : TunableDefinition)
    (raw name : List Char) :
    (match parseValue tunable raw with
      | none => state
      | some parsed => state.insert tunable.name parsed) name =
      (if tunable.name = name then parseValue tunable raw else none).or (state name) := by
  cases parseValue tunable raw with
  | none => simp
  | some parsed =>
    by_cases hname : tunable.name = name
    · simp [TunablesState.insert, hname]
    · simp [TunablesState.insert, hname, Ne.symm hname]

theorem TunableRegistry.parseEnvVar_apply (state : TunablesState) (v : EnvVar) (name : List Char) :
    registry.parseEnvVar state v name = (registry.varValue name v).or (state name) := by
  unfold parseEnvVar varValue
  split
  · rw [parseTunablesAssignments_eq, List.foldl_filterMap]
    apply read_foldl fun state : TunablesState => state name
    intro state entry
    unfold entryValue
    cases splitOnceEq entry with
    | none => rfl
    | some assignment =>
      obtain ⟨n, raw⟩ := assignment
      simp only [Option.bind_some]
      by_cases hempty : n.isEmpty = true
      · simp only [hempty, if_true, Option.none_or]
      · simp only [hempty, Bool.false_eq_true, if_false]
        cases registry.find n with
        | none => simp
        | some tunable =>
          simp only [Option.bind_some]
          exact apply_insert_parseValue state tunable raw name
  · apply read_foldl fun state : TunablesState => state name
    intro state tunable
    by_cases halias : tunable.envAlias = some v.name
    · simp only [halias, and_true]
      exact apply_insert_parseValue state tunable v.value name
    · simp [halias]

theorem TunableRegistry.varValue_eq_some_iff {name : List Char}
    {v : EnvVar} {value : TunableValue} :
    registry.varValue name v = some value ↔ registry.VarSets name v value := by
  unfold varValue VarSets
  split
  · rw [findSome?_reverse_eq_some_iff fun _ _ => registry.entryValue_eq_some_iff]
    constructor
    · intro h
      exact ⟨splitColon v.value, (List.intercalate_splitOn ':').symm, List.splitOn_ne_nil _ _,
        fun entry hentry => (forall_mem_splitOn ':' v.value entry hentry).1, h⟩
    · rintro ⟨entries, hvalue, hne, hcolon, h⟩
      rw [splitColon, hvalue, List.splitOn_intercalate _ hcolon hne]
      exact h
  · apply findSome?_reverse_eq_some_iff
    intro tunable value
    rw [← parseValue_eq_some_iff]
    split
    · next h => simp [h]
    · next h => simp; tauto

/-- **What `parse_env` computes**: a tunable has the value of the last variable that sets it,
outside of secure mode. -/
theorem TunableRegistry.parseEnv_eq_some_iff (secure : Bool) (env : List EnvVar) (name : List Char)
    (value : TunableValue) :
    registry.parseEnv secure env name = some value ↔
      secure = false ∧ LastIn (registry.VarSets name) env value := by
  unfold parseEnv
  cases secure with
  | true => simp [TunablesState.empty]
  | false =>
    have hread := read_foldl (fun state : TunablesState => state name)
      (registry.parseEnvVar_apply · · name) env .empty
    simp only [Bool.false_eq_true, if_false, true_and]
    rw [hread, ← findSome?_reverse_eq_some_iff fun _ _ => registry.varValue_eq_some_iff]
    exact Option.or_none ▸ Iff.rfl

end Registry

def defaultTunableRegistry : TunableRegistry where
  defs := [
    ⟨"glibc.cpu.hwcaps".toList, none, .string⟩,
    ⟨"glibc.cpu.plt_rewrite".toList, none, .int32 0 2⟩,
    ⟨"glibc.cpu.prefer_map_32bit_exec".toList, some "LD_PREFER_MAP_32BIT_EXEC".toList,
      .int32 0 1⟩,
    ⟨"glibc.cpu.x86_ibt".toList, none, .string⟩,
    ⟨"glibc.cpu.x86_shstk".toList, none, .string⟩]

end SafeLibc.Ldso
