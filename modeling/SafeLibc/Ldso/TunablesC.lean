import SafeLibc.Ldso.Tunables

/-!
# The tunables of the C loader

`parse_tunables_string`, `tunable_initialize` and `do_tunable_update_val` of `dl-tunables.c`, with
`_dl_strtoul`, over a list of tunables. A pointer into a string is the rest of the string from
there, and the end of a list is the terminating NUL; the warnings printed on rejected values are
left out.

The array that collects the assignments of one `GLIBC_TUNABLES` string has one cell for each tunable
of the list, and nothing checks its bound: a write past it is `none` here.
-/

namespace SafeLibc.Ldso

open SafeLibc.Lib

inductive TunableTypeCode
  | int32
  | uint64
  | sizeT
  | string
  deriving DecidableEq, Repr

structure TunableType where
  typeCode : TunableTypeCode
  min : Int
  max : Int
  deriving DecidableEq, Repr

inductive TunableVal
  | num (numval : Int)
  | str (strval : List Char)
  deriving DecidableEq, Repr

structure Tunable where
  name : List Char
  type : TunableType
  val : TunableVal
  initialized : Bool
  /-- Empty when the tunable has none. -/
  envAlias : List Char
  deriving DecidableEq, Repr

/-! ## Numbers -/

def isBlank (c : Char) : Bool := c == ' ' || c == '\t'

/-- The sign of a number, true for a positive one, and the text after it. -/
def strtoulSign : List Char → Bool × List Char
  | '-' :: nptr => (false, nptr)
  | '+' :: nptr => (true, nptr)
  | nptr => (true, nptr)

/-- The base of a number that begins with a digit, and the text its digits begin at. -/
def strtoulBase : List Char → Nat × List Char
  | '0' :: 'x' :: nptr => (16, nptr)
  | '0' :: 'X' :: nptr => (16, nptr)
  | '0' :: nptr => (8, '0' :: nptr)
  | nptr => (10, nptr)

def strtoulDigit (base : Nat) (c : Char) : Option Nat :=
  let maxDigit := if base = 8 then 7 else 9
  if '0'.toNat ≤ c.toNat ∧ c.toNat ≤ '0'.toNat + maxDigit then some (c.toNat - '0'.toNat)
  else if base = 16 then
    if 'a'.toNat ≤ c.toNat ∧ c.toNat ≤ 'f'.toNat then some (c.toNat - 'a'.toNat + 10)
    else if 'A'.toNat ≤ c.toNat ∧ c.toNat ≤ 'F'.toNat then some (c.toNat - 'A'.toNat + 10)
    else none
  else none

/-- The digit loop; `none` is the early return of an overflow, at the digit that causes it. -/
def strtoulLoop (base : Nat) : List Char → Nat → Option Nat × List Char
  | [], result => (some result, [])
  | c :: nptr, result =>
    match strtoulDigit base c with
    | none => (some result, c :: nptr)
    | some digval =>
      -- `cutoff` and `cutlim`
      if result > (2 ^ 64 - 1) / base ∨
          result = (2 ^ 64 - 1) / base ∧ digval > (2 ^ 64 - 1) % base then (none, c :: nptr)
      else strtoulLoop base nptr (result * base + digval)

def strtoulResult (positive : Bool) : Option Nat → Nat
  | none => 2 ^ 64 - 1
  | some result => if positive then result else (2 ^ 64 - result) % 2 ^ 64

/-- `_dl_strtoul`: the 64-bit result, and the text at `*endptr`. -/
def dlStrtoul (nptr : List Char) : Nat × List Char :=
  let (positive, nptr) := strtoulSign (nptr.dropWhile isBlank)
  if nptr.head?.any isDecimalDigit then
    let (base, nptr) := strtoulBase nptr
    let (result, endptr) := strtoulLoop base nptr 0
    (strtoulResult positive result, endptr)
  else (0, nptr)

/-! ## Values -/

def unsignedTunableType : TunableTypeCode → Bool
  | .int32 => false
  | .uint64 | .sizeT | .string => true

def tunableValLt (lhs rhs : Int) (unsignedCmp : Bool) : Bool :=
  if unsignedCmp then lhs % 2 ^ 64 < rhs % 2 ^ 64 else lhs < rhs

def tunableValGt (lhs rhs : Int) (unsignedCmp : Bool) : Bool :=
  if unsignedCmp then lhs % 2 ^ 64 > rhs % 2 ^ 64 else lhs > rhs

/-- The conversion to the type of the tunable, read back as `tunable_num_t`. -/
def TunableTypeCode.convert : TunableTypeCode → Int → Int
  | .int32, numval => Int.bmod numval (2 ^ 32)
  | .uint64, numval | .sizeT, numval | .string, numval => Int.bmod numval (2 ^ 64)

def doTunableUpdateVal (cur : Tunable) (valp : TunableVal) (minp maxp : Option Int) : Tunable :=
  match cur.type.typeCode, valp with
  | .string, strval => { cur with val := strval, initialized := true }
  | _, .str _ => cur
  | code, .num numval =>
    let val := code.convert numval
    let unsignedCmp := unsignedTunableType code
    let min := minp.getD cur.type.min
    let max := maxp.getD cur.type.max
    -- only increasingly restrictive bounds
    let min := if tunableValLt min cur.type.min unsignedCmp then cur.type.min else min
    let max := if tunableValGt max cur.type.max unsignedCmp then cur.type.max else max
    let (min, max) :=
      if tunableValGt min max unsignedCmp then (cur.type.min, cur.type.max) else (min, max)
    if tunableValLt val min unsignedCmp || tunableValLt max val unsignedCmp then cur
    else { cur with
      val := .num val, type := { cur.type with min := min, max := max }, initialized := true }

/-- `tunable_initialize`: whether the value is well-formed, and the tunable after it. -/
def tunableInitialize (cur : Tunable) (strval : List Char) (len : Nat) : Bool × Tunable :=
  if cur.type.typeCode ≠ .string then
    let (numval, endptr) := dlStrtoul strval
    if strval.length - endptr.length ≠ len then (false, cur)
    else (true, doTunableUpdateVal cur (.num (Int.bmod numval (2 ^ 64))) none none)
  else (true, doTunableUpdateVal cur (.str (strval.take len)) none none)

/-! ## `GLIBC_TUNABLES` -/

/-- An assignment to make: the tunable, by its position, and the text from its value on. -/
structure TunableToset where
  t : Nat
  value : List Char
  len : Nat
  deriving DecidableEq, Repr

def notSeparator (c : Char) : Bool := c ≠ '=' && c ≠ ':'

section List

variable (list : List Tunable)

/-- The loop of `parse_tunables_string`: `none` when a write misses the array, `some none` for an
ill-formed string. -/
def parseTunablesLoop (p : List Char) (tunables : List TunableToset) :
    Option (Option (List TunableToset)) :=
  match _h : p.dropWhile notSeparator with
  | [] => some none
  | ':' :: p' => parseTunablesLoop p' tunables
  | _ :: value =>
    let p' := value.dropWhile notSeparator
    if p'.head? = some '=' then some none
    else
      match list.findIdx? fun cur => tunableIsName cur.name p with
      | none => if p' = [] then some (some tunables) else parseTunablesLoop p' tunables
      | some i =>
        let tunables' := tunables ++ [⟨i, value, value.length - p'.length⟩]
        if tunables.length < list.length then
          if p' = [] then some (some tunables') else parseTunablesLoop p' tunables'
        else none
termination_by p.length
decreasing_by
  all_goals
    have hp := List.length_dropWhile_le notSeparator p
    rw [_h, List.length_cons] at hp
  · omega
  · have hv := List.length_dropWhile_le notSeparator value
    omega
  · have hv := List.length_dropWhile_le notSeparator value
    omega

def parseTunablesString (valstring : List Char) : Option (Option (List TunableToset)) :=
  if valstring = [] then some (some []) else parseTunablesLoop list valstring []

end List

end SafeLibc.Ldso
