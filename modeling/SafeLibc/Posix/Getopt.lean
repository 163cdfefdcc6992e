import SafeLibc.Lib.Blocks
import SafeLibc.Lib.Bytes

/-!
# `_getopt_internal_r` of `posix/getopt.c`

A call returns the next option. The state between calls is the index of the next element, the rest
of the element that is being scanned, and the range of the non-options that have been skipped; in
`PERMUTE` mode a call moves these behind the options that have been found since.

What a call decides about one option depends on the text of the element and on the elements after it
only, and is in `longOption` and `shortOption`. A `none` of the model is an access outside of
`argv`.
-/

namespace SafeLibc.Posix.Getopt

open SafeLibc.Lib

/-- A string, without its null byte. -/
abbrev Str := List UInt8

/-! ## The data -/

/-- `struct option`; the flag is an address. -/
structure LongOption where
  name : Str
  hasArg : Int
  flag : Option Nat
  val : Int
  deriving DecidableEq, Repr

inductive Order
  | requireOrder
  | permute
  | returnInOrder
  deriving DecidableEq, Repr

/-- The arguments that are the same in all calls; `posixlyCorrect` is the environment variable,
too. -/
structure Config where
  optstring : Str
  longopts : Option (List LongOption)
  longOnly : Bool
  posixlyCorrect : Bool
  opterr : Bool
  deriving DecidableEq, Repr

/-- The members of `struct _getopt_data` that are read by later calls. -/
structure Data where
  optind : Nat
  nextchar : Option Str
  order : Order
  firstNonopt : Nat
  lastNonopt : Nat
  initialized : Bool
  deriving DecidableEq, Repr

inductive Message
  | ambiguous (dashes text : Str) (possibilities : List Str)
  | unrecognized (dashes text : Str)
  | doesntAllowArgument (dashes name : Str)
  | requiresArgument (dashes name : Str)
  | invalidOption (c : UInt8)
  | optionRequiresArgument (c : UInt8)
  deriving DecidableEq, Repr

/-- The return value, `optarg`, and where they are set `optopt`, `*longind` and the flag of the
option. -/
structure Result where
  ret : Int
  optarg : Option Str
  optopt : Option Int
  longind : Option Nat
  store : Option (Nat × Int)
  messages : List Message
  deriving DecidableEq, Repr

def Result.blank : Result := ⟨-1, none, none, none, none, []⟩

def Result.andThen (first second : Result) : Result where
  ret := second.ret
  optarg := second.optarg.or first.optarg
  optopt := second.optopt.or first.optopt
  longind := second.longind.or first.longind
  store := second.store.or first.store
  messages := first.messages ++ second.messages

/-- The outcome for one option: `optind` is increased by `advance`. -/
structure Step where
  result : Result
  advance : Nat
  nextchar : Option Str
  deriving DecidableEq, Repr

def questionMark : Int := (byte '?').toNat
def colon : Int := (byte ':').toNat

def charInt (c : UInt8) : Int := if c.toNat < 128 then c.toNat else (c.toNat : Int) - 256

/-- `strchr`, for a character other than the null byte; the empty string is a null pointer. -/
def strchr (s : Str) (c : UInt8) : Str := s.dropWhile fun b => b ≠ c

/-! ## Long options -/

def exactMatch (name : Str) : List LongOption → Nat → Option (Nat × LongOption)
  | [], _ => none
  | p :: longopts, i => if p.name = name then some (i, p) else exactMatch name longopts (i + 1)

/-- The search for abbreviations: the first match, and the names in `ambig_set`. -/
def abbreviations (longOnly : Bool) (name : Str) :
    List LongOption → Nat → Option (Nat × LongOption) → List Str →
      Option (Nat × LongOption) × List Str
  | [], _, found, ambig => (found, ambig)
  | p :: longopts, i, found, ambig =>
    if name.isPrefixOf p.name then
      match found with
      | none => abbreviations longOnly name longopts (i + 1) (some (i, p)) ambig
      | some (j, q) =>
        if longOnly || q.hasArg ≠ p.hasArg || q.flag ≠ p.flag || q.val ≠ p.val then
          abbreviations longOnly name longopts (i + 1) (some (j, q))
            (if ambig.isEmpty then [q.name, p.name] else ambig ++ [p.name])
        else abbreviations longOnly name longopts (i + 1) (some (j, q)) ambig
    else abbreviations longOnly name longopts (i + 1) found ambig

inductive Lookup
  | found (index : Nat) (p : LongOption)
  | ambiguous (possibilities : List Str)
  | unknown
  deriving DecidableEq, Repr

def lookup (longopts : List LongOption) (longOnly : Bool) (name : Str) : Lookup :=
  match exactMatch name longopts 0 with
  | some (i, p) => .found i p
  | none =>
    match abbreviations longOnly name longopts 0 none [] with
    | (some (i, p), []) => .found i p
    | (none, []) => .unknown
    | (_, possibilities) => .ambiguous possibilities

/-- An error: the return of `'?'`, or of `':'` for an argument that is missing. -/
def failure (ret : Int) (optopt : Int) (printErrors : Bool) (message : Message) : Result :=
  { Result.blank with
    ret
    optopt := some optopt
    messages := if printErrors then [message] else [] }

def missing (optstring : Str) : Int :=
  if optstring.head? = some (byte ':') then colon else questionMark

/-- The end of `process_long_option`. -/
def longFound (index : Nat) (p : LongOption) (optarg : Option Str) : Result :=
  { Result.blank with
    ret := if p.flag.isSome then 0 else p.val
    optarg
    longind := some index
    store := p.flag.map fun flag => (flag, p.val) }

/-- `process_long_option` on `text`, where `twoDashes` says that the second character of the element
is a dash and `next` is the element after it, if there is one. A return of -1 that advances by
nothing says that it is not a long option. -/
def longOption (optstring : Str) (longopts : List LongOption) (longOnly printErrors : Bool)
    (dashes : Str) (twoDashes : Bool) (text : Str) (next : Option Str) : Step :=
  let name := text.takeWhile fun b => b ≠ byte '='
  match lookup longopts longOnly name with
  | .ambiguous possibilities =>
    ⟨failure questionMark 0 printErrors (.ambiguous dashes text possibilities), 1, some []⟩
  | .unknown =>
    if !longOnly || twoDashes || text.head?.any fun c => (strchr optstring c).isEmpty then
      ⟨failure questionMark 0 printErrors (.unrecognized dashes text), 1, none⟩
    else ⟨Result.blank, 0, some text⟩
  | .found index p =>
    match text.dropWhile fun b => b ≠ byte '=' with
    | _ :: value =>
      if p.hasArg ≠ 0 then ⟨longFound index p (some value), 1, none⟩
      else ⟨failure questionMark p.val printErrors (.doesntAllowArgument dashes p.name), 1, none⟩
    | [] =>
      if p.hasArg = 1 then
        match next with
        | some value => ⟨longFound index p (some value), 2, none⟩
        | none =>
          ⟨failure (missing optstring) p.val printErrors (.requiresArgument dashes p.name), 1, none⟩
      else ⟨longFound index p none, 1, none⟩

/-! ## Short options -/

/-- `-W foo` as `--foo`: the name is the rest of the element or the next element. -/
def shortW (optstring : Str) (longopts : List LongOption) (printErrors : Bool) (first : Result)
    (c : UInt8) (text : Str) (following : List Str) : Step :=
  let cleared := { first with optarg := none }
  let dashes := bytesOf "-W "
  if text ≠ [] then
    let step := longOption optstring longopts false printErrors dashes false text following.head?
    { step with result := cleared.andThen step.result }
  else match following with
    | [] => ⟨first.andThen (failure (missing optstring) (charInt c) printErrors
        (.optionRequiresArgument c)), 1, some []⟩
    | name :: following =>
      let step := longOption optstring longopts false printErrors dashes false name following.head?
      { step with result := cleared.andThen step.result, advance := step.advance + 1 }

def shortArgument (optstring : Str) (optional printErrors : Bool) (first : Result) (c : UInt8)
    (text : Str) (following : List Str) : Step :=
  if text ≠ [] then ⟨{ first with ret := charInt c, optarg := some text }, 1, none⟩
  else if optional then ⟨{ first with ret := charInt c, optarg := none }, 1, none⟩
  else match following with
    | [] => ⟨first.andThen (failure (missing optstring) (charInt c) printErrors
        (.optionRequiresArgument c)), 1, none⟩
    | value :: _ => ⟨{ first with ret := charInt c, optarg := some value }, 2, none⟩

/-- The short option `c`; `first` is what an attempt at a long option has set. -/
def shortOption (optstring : Str) (longopts : Option (List LongOption)) (printErrors : Bool)
    (first : Result) (c : UInt8) (text : Str) (following : List Str) : Step :=
  let temp := strchr optstring c
  -- `optind` is increased when the last character of the element is processed
  let last := if text = [] then 1 else 0
  if temp = [] ∨ c = byte ':' ∨ c = byte ';' then
    ⟨first.andThen (failure questionMark (charInt c) printErrors (.invalidOption c)), last,
      some text⟩
  else if c = byte 'W' ∧ temp[1]? = some (byte ';') ∧ longopts.isSome then
    shortW optstring (longopts.getD []) printErrors first c text following
  else if temp[1]? = some (byte ':') then
    shortArgument optstring (temp[2]? = some (byte ':')) printErrors first c text following
  else ⟨{ first with ret := charInt c }, last, some text⟩

/-! ## Elements -/

def nonoption (e : Str) : Bool := e.head? ≠ some (byte '-') || e[1]?.isNone

def dashDash : Str := bytesOf "--"

def exchange (argv : List Str) (d : Data) : Option (List Str × Data) := do
  let argv ← exchangeBlocks argv d.firstNonopt d.lastNonopt d.optind
  some (argv, { d with
    firstNonopt := d.firstNonopt + (d.optind - d.lastNonopt)
    lastNonopt := d.optind })

/-- `_getopt_initialize`, and the part of `_getopt_internal_r` that takes its place in later
calls. -/
def getoptInitialize (cfg : Config) (d : Data) : Str × Data :=
  let plain := cfg.optstring.head? ≠ some (byte '-') && cfg.optstring.head? ≠ some (byte '+')
  let optstring := if plain then cfg.optstring else cfg.optstring.tail
  if d.optind = 0 || !d.initialized then
    let optind := if d.optind = 0 then 1 else d.optind
    (optstring, {
      optind
      nextchar := none
      order :=
        if cfg.optstring.head? = some (byte '-') then .returnInOrder
        else if cfg.optstring.head? = some (byte '+') then .requireOrder
        else if cfg.posixlyCorrect then .requireOrder
        else .permute
      firstNonopt := optind
      lastNonopt := optind
      initialized := true })
  else (optstring, d)

/-- The options that follow non-options are moved before them. -/
def regroup (argv : List Str) (d : Data) : Option (List Str × Data) :=
  if d.firstNonopt ≠ d.lastNonopt ∧ d.lastNonopt ≠ d.optind then exchange argv d
  else if d.lastNonopt ≠ d.optind then some (argv, { d with firstNonopt := d.optind })
  else some (argv, d)

/-- The part for `PERMUTE`: after the exchange, more non-options are skipped. -/
def permuteStep (argv : List Str) (d : Data) : Option (List Str × Data) := do
  let (argv, d) ← regroup argv d
  let optind := d.optind + ((argv.drop d.optind).takeWhile nonoption).length
  some (argv, { d with optind, lastNonopt := optind })

/-- The exchange of a `--` with the non-options before it. -/
def regroupEnd (argv : List Str) (d : Data) : Option (List Str × Data) :=
  if d.firstNonopt ≠ d.lastNonopt ∧ d.lastNonopt ≠ d.optind then exchange argv d
  else if d.firstNonopt = d.lastNonopt then some (argv, { d with firstNonopt := d.optind })
  else some (argv, d)

/-- The special element `--`: it is skipped like an option, and all after it like non-options. -/
def endOfOptions (argv : List Str) (d : Data) : Option (List Str × Data) := do
  if d.optind = argv.length then some (argv, d)
  else
    let e ← argv[d.optind]?
    if e = dashDash then
      let (argv, d) ← regroupEnd argv { d with optind := d.optind + 1 }
      some (argv, { d with lastNonopt := argv.length, optind := argv.length })
    else some (argv, d)

def advance (argv : List Str) (d : Data) : Option (List Str × Data) := do
  let d := { d with
    lastNonopt := min d.lastNonopt d.optind, firstNonopt := min d.firstNonopt d.optind }
  let (argv, d) ← (if d.order = .permute then permuteStep argv d else some (argv, d))
  endOfOptions argv d

def nextShort (cfg : Config) (optstring : Str) (printErrors : Bool)
    (first : Result) (argv : List Str) (d : Data) : Option (Result × List Str × Data) :=
  match d.nextchar with
  | some (c :: text) =>
    let step :=
      shortOption optstring cfg.longopts printErrors first c text (argv.drop (d.optind + 1))
    some (step.result, argv,
      { d with optind := d.optind + step.advance, nextchar := step.nextchar })
  | _ => none

/-- The element at `optind`, an option: a long option or the start of a cluster of short ones. -/
def element (cfg : Config) (optstring : Str) (printErrors : Bool)
    (argv : List Str) (d : Data) (e : Str) : Option (Result × List Str × Data) :=
  let next := argv[d.optind + 1]?
  let short : Option (Result × List Str × Data) :=
    nextShort cfg optstring printErrors Result.blank argv { d with nextchar := some (e.drop 1) }
  match cfg.longopts with
  | none => short
  | some longopts =>
    if e[1]? = some (byte '-') then
      let step :=
        longOption optstring longopts cfg.longOnly printErrors dashDash true (e.drop 2) next
      some (step.result, argv,
        { d with optind := d.optind + step.advance, nextchar := step.nextchar })
    else if cfg.longOnly && (e[2]?.isSome || e[1]?.any fun c => (strchr optstring c).isEmpty) then
      let step :=
        longOption optstring longopts cfg.longOnly printErrors [byte '-'] false (e.drop 1) next
      let d := { d with optind := d.optind + step.advance, nextchar := step.nextchar }
      if step.result.ret ≠ -1 then some (step.result, argv, d)
      else do
        let e ← argv[d.optind]?
        nextShort cfg optstring printErrors step.result argv { d with nextchar := some (e.drop 1) }
    else short

/-- After the advance: the end of the scan, a non-option, or an option. -/
def afterAdvance (cfg : Config) (optstring : Str) (printErrors : Bool)
    (argv : List Str) (d : Data) : Option (Result × List Str × Data) := do
  if d.optind = argv.length then
    some (Result.blank, argv,
      if d.firstNonopt ≠ d.lastNonopt then { d with optind := d.firstNonopt } else d)
  else
    let e ← argv[d.optind]?
    if nonoption e then
      if d.order = .requireOrder then some (Result.blank, argv, d)
      else some ({ Result.blank with ret := 1, optarg := some e }, argv,
        { d with optind := d.optind + 1 })
    else element cfg optstring printErrors argv d e

def getoptInternalR (cfg : Config) (argv : List Str) (d : Data) :
    Option (Result × List Str × Data) := do
  if argv.length < 1 then some (Result.blank, argv, d)
  else
    let (optstring, d) := getoptInitialize cfg d
    let printErrors := cfg.opterr && optstring.head? ≠ some (byte ':')
    match d.nextchar with
    | some (_ :: _) => nextShort cfg optstring printErrors Result.blank argv d
    | _ => do
      let (argv, d) ← advance argv d
      afterAdvance cfg optstring printErrors argv d

/-- Calls until one returns -1, at most `fuel` of them: what the others returned, and `argv` and the
data in the end. -/
def getoptAll (cfg : Config) : Nat → List Str → Data → Option (List Result × List Str × Data)
  | 0, _, _ => none
  | fuel + 1, argv, d => do
    let (r, argv, d) ← getoptInternalR cfg argv d
    if r.ret = -1 then some ([], argv, d)
    else
      let (rs, argv, d) ← getoptAll cfg fuel argv d
      some (r :: rs, argv, d)

end SafeLibc.Posix.Getopt
