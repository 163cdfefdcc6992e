import Mathlib.Data.List.TakeWhile
import SafeLibc.Lib.Bytes
import SafeLibc.Lib.Machine

/-!
# The environment

`setenv`, `unsetenv`, `clearenv` (`stdlib/setenv.c`), `putenv` and `getenv`. `environ` points to an
array of string pointers that ends in a null pointer. The array of the start of the program is not
the library's; the first addition copies it, and later ones reallocate the copy (`last_environ`).

Strings and arrays live at addresses, and every access to something that does not live there faults.
A string is its bytes before the NUL. What `malloc` and `realloc` return is part of the call.

`Good env ps` says that the array of the environment holds the entries `ps`. The loops and
`__add_to_environ` are run on such environments.
-/

namespace SafeLibc.Stdlib

open SafeLibc.Lib List

/-! ## Memory -/

inductive Fault
  | unmapped
  | overrun
  deriving DecidableEq, Repr

/-- The strings and arrays in memory, and the variables of the file. -/
structure Env where
  strings : Nat → Option (List UInt8)
  arrays : Nat → Option (List (Option Nat))
  environ : Option Nat
  last_environ : Option Nat
  /-- The strings in the search tree of the known values. -/
  known_values : List Nat

namespace Env

def string (env : Env) (p : Nat) : Except Fault (List UInt8) :=
  match env.strings p with
  | none => throw .unmapped
  | some s => return s

def array (env : Env) (a : Nat) : Except Fault (List (Option Nat)) :=
  match env.arrays a with
  | none => throw .unmapped
  | some l => return l

def setArray (env : Env) (a : Nat) (l : List (Option Nat)) : Env :=
  { env with arrays := fun b => if b = a then some l else env.arrays b }

def freeArray (env : Env) (a : Nat) : Env :=
  { env with arrays := fun b => if b = a then none else env.arrays b }

def setString (env : Env) (p : Nat) (s : List UInt8) : Env :=
  { env with strings := fun q => if q = p then some s else env.strings q }

def freeString (env : Env) (p : Nat) : Env :=
  { env with strings := fun q => if q = p then none else env.strings q }

end Env

/-! ## The functions -/

/-- `!strncmp (s, name, namelen) && s[namelen] == '='`. -/
def named (name s : List UInt8) : Bool := name.isPrefixOf s && s[name.length]? == some (byte '=')

/-- The first entry of this name: the number of entries before it, and the entry, which is null at
the end of the array. -/
def findEntry (env : Env) (name : List UInt8) :
    List (Option Nat) → Nat → Except Fault (Nat × Option Nat)
  | [], _ => throw .overrun
  | none :: _, size => return (size, none)
  | some p :: rest, size => do
    let s ← env.string p
    if named name s then return (size, some p) else findEntry env name rest (size + 1)

def firstByte (s : List UInt8) : UInt8 := s.headD 0

def getenvLoop (env : Env) (name : List UInt8) : List (Option Nat) →
    Except Fault (Option (List UInt8))
  | [] => throw .overrun
  | none :: _ => return none
  | some p :: rest => do
    let s ← env.string p
    if firstByte name = firstByte s && named name s then return some (s.drop (name.length + 1))
    else getenvLoop env name rest

/-- The string at the pointer that `getenv` returns. -/
def getenv (env : Env) (name : List UInt8) : Except Fault (Option (List UInt8)) :=
  match env.environ with
  | none => return none
  | some a => do
    if firstByte name = 0 then return none
    else getenvLoop env name (← env.array a)

/-- The answers of the allocator: the block of `realloc`, with its new cells, and that of
`malloc`. -/
structure Blocks where
  array : Nat
  junk : Nat → Option Nat
  string : Nat

/-- A larger array with `size` entries and two null pointers, which becomes the environment. -/
def growEnviron (env : Env) (size : Nat) (blocks : Blocks) : Except Fault Env := do
  let old ← match env.last_environ with
    | none => pure []
    | some a => env.array a
  let cells := (List.range (size + 2)).map fun i => old.getD i (blocks.junk i)
  let freed := match env.last_environ with
    | none => env
    | some a => env.freeArray a
  let cells ←
    if env.environ ≠ env.last_environ then
      match env.environ with
      | none => if size = 0 then pure cells else throw .unmapped
      | some a => do
        let entries ← freed.array a
        if entries.length < size then throw .overrun
          else pure (entries.take size ++ cells.drop size)
    else pure cells
  let cells := (cells.set size none).set (size + 1) none
  return { freed.setArray blocks.array cells with
    environ := some blocks.array, last_environ := some blocks.array }

/-- The string of a new entry: the caller's own, or one that is made of the name and the value. -/
inductive Source
  | combined (string : Nat)
  | value (value : List UInt8)

def knownValue (env : Env) (s : List UInt8) : Option Nat :=
  env.known_values.find? fun p => env.strings p == some s

def newString (env : Env) (name : List UInt8) (source : Source) (blocks : Blocks) : Env × Nat :=
  match source with
  | .combined p => (env, p)
  | .value v =>
    let new_value := name ++ byte '=' :: v
    let env := env.setString blocks.string new_value
    match knownValue env new_value with
    | none => ({ env with known_values := blocks.string :: env.known_values }, blocks.string)
    | some np => (env.freeString blocks.string, np)

/-- `*ep = np`, where `ep` is an entry of the environment. -/
def storeEntry (env : Env) (i np : Nat) : Except Fault Env :=
  match env.environ with
  | none => throw .unmapped
  | some a => do
    let entries ← env.array a
    if i < entries.length then return env.setArray a (entries.set i (some np)) else throw .overrun

/-- The end of `__add_to_environ`: make the string, and store it. -/
def putEntry (env : Env) (name : List UInt8) (source : Source) (blocks : Blocks) (i : Nat) :
    Except Fault Env :=
  let (env, np) := newString env name source blocks
  storeEntry env i np

/-- The loop of `__add_to_environ`, where there is an environment. -/
def findPlace (env : Env) (name : List UInt8) : Except Fault (Nat × Option Nat) :=
  match env.environ with
  | none => return (0, none)
  | some a => do findEntry env name (← env.array a) 0

def addToEnviron (env : Env) (name : List UInt8) (source : Source)
    (replace : Bool) (blocks : Blocks) : Except Fault Env := do
  let (size, ep) ← findPlace env name
  match ep with
  | none => putEntry (← growEnviron env size blocks) name source blocks size
  | some _ => if replace then putEntry env name source blocks size else return env

/-- The return value of -1 is with `errno` set to `EINVAL`. -/
inductive Status
  | ok
  | EINVAL
  deriving DecidableEq, Repr

def invalidName (name : List UInt8) : Bool := name.isEmpty || name.contains (byte '=')

def setenv (env : Env) (name value : List UInt8) (replace : Bool) (blocks : Blocks) :
    Except Fault (Env × Status) := do
  if invalidName name then return (env, .EINVAL)
  else return (← addToEnviron env name (.value value) replace blocks, .ok)

/-- Move the later pointers back, up to the null pointer. -/
def moveBack : List (Option Nat) → Except Fault (List (Option Nat))
  | _ :: some q :: rest => do return some q :: (← moveBack (some q :: rest))
  | _ :: none :: rest => return none :: none :: rest
  | _ => throw .overrun

def pointers (l : List (Option Nat)) : Nat := (l.takeWhile Option.isSome).length

theorem pointers_moveBack {p : Nat} {rest l : List (Option Nat)}
    (h : moveBack (some p :: rest) = .ok l) : pointers l < pointers (some p :: rest) := by
  induction rest generalizing p l with
  | nil => cases h
  | cons q rest ih =>
    cases q with
    | none =>
      cases h
      simp [pointers]
    | some q =>
      rw [moveBack] at h
      cases hrest : moveBack (some q :: rest) with
      | error e =>
        rw [hrest] at h
        cases h
      | ok l' =>
        rw [hrest] at h
        cases h
        have hlt := ih hrest
        simp only [pointers, takeWhile_cons, Option.isSome_some, if_true, length_cons] at hlt ⊢
        omega

/-- The loop of `unsetenv` at `ep`, with the array from there on. -/
def unsetenvLoop (env : Env) (name : List UInt8) (l : List (Option Nat)) :
    Except Fault (List (Option Nat)) :=
  match l with
  | [] => .error .overrun
  | none :: rest => .ok (none :: rest)
  | some p :: rest =>
    match env.string p with
    | .error e => .error e
    | .ok s =>
      if named name s then
        match _hmove : moveBack (some p :: rest) with
        | .error e => .error e
        -- continue the loop in case the name appears again
        | .ok l' => unsetenvLoop env name l'
      else (unsetenvLoop env name rest).map (some p :: ·)
termination_by pointers l
decreasing_by
  · exact pointers_moveBack _hmove
  · simp [pointers]

def unsetenv (env : Env) (name : List UInt8) : Except Fault (Env × Status) :=
  if invalidName name then return (env, .EINVAL)
  else match env.environ with
    | none => return (env, .ok)
    | some a => do
      let entries ← unsetenvLoop env name (← env.array a)
      return (env.setArray a entries, .ok)

def putenv (env : Env) (string : Nat) (blocks : Blocks) : Except Fault Env := do
  let s ← env.string string
  if s.contains (byte '=') then
    addToEnviron env (s.takeWhile (· ≠ byte '=')) (.combined string) true blocks
  else return (← unsetenv env s).1

def clearenv (env : Env) : Env :=
  if env.environ = env.last_environ then
    match env.environ with
    | none => env
    | some a => { env.freeArray a with environ := none, last_environ := none }
  else { env with environ := none }

/-! ## Calls -/

inductive EnvOp
  | setenv (name value : List UInt8) (replace : Bool)
  | unsetenv (name : List UInt8)
  | putenv (string : Nat)
  | clearenv

def EnvOp.perform (env : Env) (blocks : Blocks) : EnvOp → Except Fault Env
  | .setenv name value replace => do return (← Stdlib.setenv env name value replace blocks).1
  | .unsetenv name => do return (← Stdlib.unsetenv env name).1
  | .putenv string => Stdlib.putenv env string blocks
  | .clearenv => return Stdlib.clearenv env

/-! ## Entries -/

theorem named_iff {name s : List UInt8} : named name s = true ↔ ∃ v, s = name ++ byte '=' :: v := by
  rw [named, Bool.and_eq_true, isPrefixOf_iff_prefix, beq_iff_eq]
  constructor
  · rintro ⟨⟨t, rfl⟩, hget⟩
    rw [getElem?_append_right le_rfl, Nat.sub_self] at hget
    cases t with
    | nil => cases hget
    | cons c t =>
      cases hget
      exact ⟨t, rfl⟩
  · rintro ⟨v, rfl⟩
    refine ⟨prefix_append _ _, ?_⟩
    rw [getElem?_append_right le_rfl, Nat.sub_self]
    rfl

def text (env : Env) (p : Nat) : List UInt8 := (env.strings p).getD []

/-- The array of the environment: its entries, and a null pointer. -/
inductive Entries (env : Env) : List Nat → Prop
  | null (environ : env.environ = none) : Entries env []
  | array {a : Nat} {ps : List Nat} {tail : List (Option Nat)} (environ : env.environ = some a)
      (cells : env.arrays a = some (ps.map some ++ none :: tail)) : Entries env ps

/-- The array is `environ`, and its strings and the known values are in memory. -/
structure Good (env : Env) (ps : List Nat) : Prop where
  entries : Entries env ps
  own : env.last_environ = none ∨ env.last_environ = env.environ
  live : ∀ p ∈ ps, env.strings p = some (text env p)
  known : ∀ p ∈ env.known_values, env.strings p ≠ none

section Loops

variable {env : Env} {ps : List Nat}

variable {blocks : Blocks} {p a i : Nat} {source : Source} {name : List UInt8}
  {cells : List (Option Nat)}

theorem string_ok (h : env.strings p = some (text env p)) : env.string p = .ok (text env p) := by
  rw [Env.string, h]
  rfl

theorem array_ok {l : List (Option Nat)} (h : env.arrays a = some l) : env.array a = .ok l := by
  rw [Env.array, h]
  rfl

theorem findEntry_spec (name : List UInt8) (hlive : ∀ p ∈ ps, env.strings p = some (text env p))
    (tail : List (Option Nat)) (size : Nat) :
    findEntry env name (ps.map some ++ none :: tail) size =
      .ok (size + ps.findIdx (fun p => named name (text env p)),
        ps[ps.findIdx fun p => named name (text env p)]?) := by
  induction ps generalizing size with
  | nil => rfl
  | cons p ps ih =>
    obtain ⟨hp, hps⟩ := forall_mem_cons.mp hlive
    rw [map_cons, cons_append, findEntry, string_ok hp, ok_bind, findIdx_cons]
    cases named name (text env p) with
    | true => rfl
    | false =>
      rw [if_neg (by simp), ih hps]
      simp only [cond_false, getElem?_cons_succ]
      rw [add_right_comm, add_assoc]

theorem getenvLoop_spec (hname : name ≠ []) (hlive : ∀ p ∈ ps, env.strings p = some (text env p))
    (tail : List (Option Nat)) : getenvLoop env name (ps.map some ++ none :: tail) =
      .ok (((ps.map (text env)).find? (named name)).map (·.drop (name.length + 1))) := by
  induction ps with
  | nil => rfl
  | cons p ps ih =>
    obtain ⟨hp, hps⟩ := forall_mem_cons.mp hlive
    rw [map_cons, cons_append, getenvLoop, string_ok hp, ok_bind, map_cons,
      find?_cons]
    cases hnamed : named name (text env p) with
    | true =>
      obtain ⟨v, hv⟩ := named_iff.mp hnamed
      have hfirst : firstByte name = firstByte (text env p) := by
        obtain ⟨c, t, rfl⟩ := exists_cons_of_ne_nil hname
        rw [hv]
        rfl
      rw [if_pos (by simp [hfirst])]
      rfl
    | false =>
      rw [if_neg (by simp)]
      exact ih hps

theorem moveBack_spec (p : Option Nat) (ps : List Nat) (tail : List (Option Nat)) :
    moveBack (p :: (ps.map some ++ none :: tail)) = .ok (ps.map some ++ none :: none :: tail) := by
  induction ps generalizing p with
  | nil => rfl
  | cons q ps ih =>
    rw [map_cons, cons_append, moveBack, ih]
    rfl

theorem unsetenvLoop_spec (name : List UInt8) (hlive : ∀ p ∈ ps, env.strings p = some (text env p))
    (tail : List (Option Nat)) :
    ∃ tail', unsetenvLoop env name (ps.map some ++ none :: tail) =
      .ok ((ps.filter fun p => !named name (text env p)).map some ++ none :: tail') := by
  induction ps generalizing tail with
  | nil => exact ⟨tail, by rw [map_nil, nil_append, unsetenvLoop]; rfl⟩
  | cons p ps ih =>
    obtain ⟨hp, hps⟩ := forall_mem_cons.mp hlive
    rw [map_cons, cons_append, unsetenvLoop, string_ok hp]
    simp only
    cases hnamed : named name (text env p) with
    | true =>
      obtain ⟨tail', htail⟩ := ih hps (none :: tail)
      refine ⟨tail', ?_⟩
      rw [if_pos rfl]
      split
      · next e he =>
        rw [moveBack_spec] at he
        cases he
      · next l' hl =>
        rw [moveBack_spec] at hl
        cases hl
        rw [htail, filter_cons_of_neg (by simp [hnamed])]
    | false =>
      obtain ⟨tail', htail⟩ := ih hps tail
      refine ⟨tail', ?_⟩
      rw [htail, filter_cons_of_pos (by simp [hnamed])]
      rfl

/-! ## Adding an entry -/

/-- The blocks of the call are not in use, but for the array that is reallocated. -/
structure Fresh (env : Env) (blocks : Blocks) : Prop where
  array : env.arrays blocks.array = none ∨ env.last_environ = some blocks.array
  string : env.strings blocks.string = none

theorem set_two {ps : List Nat} (hlength : cells.length = ps.length + 2)
    (htake : cells.take ps.length = ps.map some) :
    (cells.set ps.length none).set (ps.length + 1) none = ps.map some ++ [none, none] := by
  obtain ⟨x, y, hdrop⟩ : ∃ x y, cells.drop ps.length = [x, y] := by
    have hlen : (cells.drop ps.length).length = 2 := by
      rw [length_drop]
      omega
    match cells.drop ps.length, hlen with
    | [x, y], _ => exact ⟨x, y, rfl⟩
  rw [← take_append_drop ps.length cells, htake, hdrop]
  simp

theorem copied_cells (ps : List Nat) (tail : List (Option Nat)) (junk : Nat → Option Nat) :
    ((List.range (ps.length + 2)).map fun i => (ps.map some ++ none :: tail).getD i (junk i)).take
      ps.length = ps.map some := by
  apply ext_getElem
  · simp
  · intro i hi hi'
    have hlt : i < ps.length := by simpa using hi'
    simp [getElem?_append_left, hlt]

theorem growEnviron_spec (hgood : Good env ps) : growEnviron env ps.length blocks = .ok
      { (match env.last_environ with
          | none => env
          | some a => env.freeArray a).setArray blocks.array (ps.map some ++ [none, none]) with
        environ := some blocks.array, last_environ := some blocks.array } := by
  have hcells : ∀ old : List (Option Nat), (map (fun i => old.getD i (blocks.junk i))
      (List.range (ps.length + 2))).length = ps.length + 2 := by
    intro old
    rw [length_map, length_range]
  rw [growEnviron]
  cases hgood.entries with
  | null henviron =>
    have hlast : env.last_environ = none := hgood.own.elim id (·.trans henviron)
    simp only [hlast, henviron, pure_ok, ok_bind, ne_eq, not_true, if_false]
    rw [@set_two _ [] (by simp) rfl]
  | @array a _ tail henviron hcell =>
    rcases hgood.own with hlast | hlast
    · simp only [hlast, henviron, pure_ok, ok_bind, ne_eq, reduceCtorEq, not_false_iff, if_true,
        array_ok hcell]
      rw [if_neg (by simp), set_two]
      · simp
      · simp
    · simp only [hlast, henviron, pure_ok, ok_bind, ne_eq, not_true, if_false, array_ok hcell]
      rw [set_two (hcells _) (copied_cells ps tail blocks.junk)]

theorem growEnviron_good (hgood : Good env ps) :
    ∃ env', growEnviron env ps.length blocks = .ok env' ∧ env'.strings = env.strings ∧
      env'.known_values = env.known_values ∧ env'.environ = some blocks.array ∧
      env'.last_environ = some blocks.array ∧
      env'.arrays blocks.array = some (ps.map some ++ [none, none]) := by
  refine ⟨_, growEnviron_spec hgood, ?_, ?_, rfl, rfl, ?_⟩
  · split <;> rfl
  · split <;> rfl
  · exact if_pos rfl

/-- No string in memory has changed. -/
def Extends (env env' : Env) : Prop := ∀ p, env.strings p ≠ none → env'.strings p = env.strings p

def Source.text (env : Env) (name : List UInt8) : Source → List UInt8
  | .combined p => Stdlib.text env p
  | .value v => name ++ byte '=' :: v

def Source.Lives (env : Env) : Source → Prop
  | .combined p => env.strings p ≠ none
  | .value _ => True

theorem text_of_ne_none (h : env.strings p ≠ none) : env.strings p = some (text env p) := by
  obtain ⟨s, hs⟩ := Option.ne_none_iff_exists'.mp h
  rw [text, hs]
  rfl

theorem newString_spec (name : List UInt8) (hknown : ∀ p ∈ env.known_values, env.strings p ≠ none)
    (hfresh : env.strings blocks.string = none) (hsource : source.Lives env) :
    ∃ env' np, newString env name source blocks = (env', np) ∧ env'.environ = env.environ ∧
      env'.arrays = env.arrays ∧ env'.last_environ = env.last_environ ∧ Extends env env' ∧
      env'.strings np = some (source.text env name) ∧
      ∀ p ∈ env'.known_values, env'.strings p ≠ none := by
  cases source with
  | combined p =>
    exact ⟨env, p, rfl, rfl, rfl, rfl, fun _ _ => rfl, text_of_ne_none hsource, hknown⟩
  | value v =>
    have hne : ∀ p, env.strings p ≠ none → p ≠ blocks.string := by
      rintro p hp rfl
      exact hp hfresh
    have hset : ∀ p, env.strings p ≠ none →
        (env.setString blocks.string (name ++ byte '=' :: v)).strings p = env.strings p :=
      fun p hp => if_neg (hne p hp)
    rw [newString]
    cases hfind : knownValue (env.setString blocks.string (name ++ byte '=' :: v))
        (name ++ byte '=' :: v) with
    | none =>
      refine ⟨{ env.setString blocks.string (name ++ byte '=' :: v) with
        known_values := blocks.string :: env.known_values }, blocks.string, rfl,
        rfl, rfl, rfl, hset, if_pos rfl, ?_⟩
      intro p hp
      rcases mem_cons.mp hp with rfl | hp
      · simp [Env.setString]
      · exact fun hnone => hknown p hp ((hset p (hknown p hp)).symm.trans hnone)
    | some np =>
      have hmem : np ∈ env.known_values := mem_of_find?_eq_some hfind
      have htext : (env.setString blocks.string (name ++ byte '=' :: v)).strings np =
          some (name ++ byte '=' :: v) := by
        simpa using find?_some hfind
      have hfree : ∀ p, env.strings p ≠ none →
          ((env.setString blocks.string (name ++ byte '=' :: v)).freeString
            blocks.string).strings p = env.strings p :=
          fun p hp => (if_neg (hne p hp)).trans (hset p hp)
      refine ⟨(env.setString blocks.string (name ++ byte '=' :: v)).freeString blocks.string, np,
        rfl, rfl, rfl, rfl, hfree, ?_, ?_⟩
      · rw [hfree np (hknown np hmem), ← hset np (hknown np hmem), htext]
        rfl
      · intro p hp
        rw [hfree p (hknown p hp)]
        exact hknown p hp

theorem set_entry {np : Nat} (hi : i < ps.length) (tail : List (Option Nat)) :
    (ps.map some ++ none :: tail).set i (some np) =
      (ps.take i ++ np :: ps.drop (i + 1)).map some ++ none :: tail := by
  rw [set_append_left _ _ (by simpa using hi), ← map_set, set_eq_take_append_cons_drop,
    if_pos hi]

theorem set_last (ps : List Nat) (np : Nat) :
    (ps.map some ++ [none, none]).set ps.length (some np) = (ps ++ [np]).map some ++ [none] := by
  simp

/-- The index of the entry with the name. -/
def place (env : Env) (ps : List Nat) (name : List UInt8) : Nat :=
  ps.findIdx fun p => named name (text env p)

theorem findPlace_spec (hgood : Good env ps) (name : List UInt8) :
    findPlace env name = .ok (place env ps name, ps[place env ps name]?) := by
  rw [findPlace]
  cases hgood.entries with
  | null henviron =>
    rw [henviron]
    rfl
  | array henviron hcells =>
    rw [henviron]
    dsimp only
    rw [array_ok hcells, ok_bind, findEntry_spec name hgood.live, zero_add]
    rfl

theorem Extends.text_eq {env' : Env} (h : Extends env env') (hp : env.strings p ≠ none) :
    text env' p = text env p := by
  rw [text, text, h p hp]

theorem putEntry_spec (name : List UInt8) {tail : List (Option Nat)}
    (hown : env.last_environ = none ∨ env.last_environ = env.environ)
    (henviron : env.environ = some a) (hcells : env.arrays a = some cells) (hi : i < cells.length)
    (hset : ∀ np,
      cells.set i (some np) = (ps.take i ++ np :: ps.drop (i + 1)).map some ++ none :: tail)
    (hlive : ∀ p ∈ ps, env.strings p = some (text env p))
    (hknown : ∀ p ∈ env.known_values, env.strings p ≠ none)
    (hfresh : env.strings blocks.string = none) (hsource : source.Lives env) :
    ∃ env' np, putEntry env name source blocks i = .ok env' ∧
      Good env' (ps.take i ++ np :: ps.drop (i + 1)) ∧ Extends env env' ∧
      text env' np = source.text env name := by
  obtain ⟨env₁, np, hnew, henviron₁, harrays₁, hlast₁, hext, hnp, hknown₁⟩ :=
    newString_spec name hknown hfresh hsource
  have hcells₁ : env₁.arrays a = some cells := harrays₁ ▸ hcells
  refine ⟨env₁.setArray a (cells.set i (some np)), np, ?_, ?_, hext, ?_⟩
  · rw [putEntry, hnew]
    dsimp only
    rw [storeEntry, henviron₁, henviron]
    dsimp only
    rw [array_ok hcells₁, ok_bind, if_pos hi]
    rfl
  · refine ⟨.array (henviron₁.trans henviron) ((if_pos rfl).trans (congrArg some (hset np))), ?_,
      ?_, hknown₁⟩
    · change env₁.last_environ = none ∨ env₁.last_environ = env₁.environ
      rwa [hlast₁, henviron₁]
    · intro p hp
      have hmem : p ∈ ps ∨ p = np := by
        rcases mem_append.mp hp with hp | hp
        · exact .inl (mem_of_mem_take hp)
        · rcases mem_cons.mp hp with rfl | hp
          · exact .inr rfl
          · exact .inl (mem_of_mem_drop hp)
      apply text_of_ne_none
      rcases hmem with hp | rfl
      · exact fun hnone => nomatch (hlive p hp).symm.trans
          ((hext p (by simp [hlive p hp])).symm.trans hnone)
      · exact fun hnone => nomatch hnp.symm.trans hnone
  · change text env₁ np = _
    rw [text, hnp]
    rfl

/-- `__add_to_environ` puts the string in the place of the first entry of this name, or at the
end. -/
theorem addToEnviron_spec {replace : Bool} (hgood : Good env ps) (hfresh : Fresh env blocks)
    (hsource : source.Lives env) (hadd : place env ps name < ps.length → replace = true) :
    ∃ env' np, addToEnviron env name source replace blocks = .ok env' ∧
      Good env' (ps.take (place env ps name) ++ np :: ps.drop (place env ps name + 1)) ∧
      Extends env env' ∧ text env' np = source.text env name := by
  rw [addToEnviron, findPlace_spec hgood, ok_bind]
  by_cases hlt : place env ps name < ps.length
  · rw [getElem?_eq_getElem hlt]
    dsimp only
    rw [if_pos (hadd hlt)]
    cases hgood.entries with
    | null => exact absurd hlt (Nat.not_lt_zero _)
    | @array a _ tail henviron hcells =>
      exact putEntry_spec name hgood.own henviron hcells (by simp; omega)
        (fun np => set_entry hlt tail)
        hgood.live hgood.known hfresh.string hsource
  · have hend : place env ps name = ps.length :=
      le_antisymm findIdx_le_length (not_lt.mp hlt)
    obtain ⟨env₁, hgrow, hstrings, hknown, henviron, hlast, hcells⟩ := growEnviron_good hgood
    rw [hend, getElem?_eq_none le_rfl]
    dsimp only
    rw [hgrow]
    have htext : ∀ p, text env₁ p = text env p := fun p => by rw [text, text, hstrings]
    have hset : ∀ np, (ps.map some ++ [none, none]).set ps.length (some np) =
        (ps.take ps.length ++ np :: ps.drop (ps.length + 1)).map some ++ none :: [] := by
      intro np
      rw [set_last, take_length, drop_eq_nil_of_le (Nat.le_succ _)]
    have hlive₁ : ∀ p ∈ ps, env₁.strings p = some (text env₁ p) := by
      intro p hp
      rw [hstrings, htext]
      exact hgood.live p hp
    have hsource₁ : source.Lives env₁ ∧ source.text env₁ name = source.text env name := by
      cases source with
      | combined p => exact ⟨fun hnone => hsource (hstrings ▸ hnone), htext p⟩
      | value v => exact ⟨trivial, rfl⟩
    obtain ⟨env', np, hput, hgood', hext, htext'⟩ :=
      putEntry_spec name (.inr (hlast.trans henviron.symm)) henviron hcells (by simp) hset
        hlive₁ (hstrings ▸ hknown ▸ hgood.known) (hstrings ▸ hfresh.string) hsource₁.1
    refine ⟨env', np, hput, hgood', ?_, htext'.trans hsource₁.2⟩
    intro p hp
    rw [← hstrings] at hp ⊢
    exact hext p hp

end Loops

end SafeLibc.Stdlib
