import SafeLibc.Lib.Bytes

/-!
# UTF-7 and UTF-7-IMAP

The two loops of `iconvdata/utf-7.c`, each in the loop of `iconv/loop.c`, and the reset of the
encoder. A buffer is what is left of it: the bytes still to read, the number of bytes that still
fit. The encoder writes all bytes of a character or none, and keeps what it must remember in
`__count`; the decoder keeps up to 31 bits of a character in `__wch`.
-/

namespace SafeLibc.Iconv.Utf7

open SafeLibc.Lib

inductive Variant
  | utf7
  | utf7Imap
  deriving DecidableEq, Repr

inductive GconvResult
  | emptyInput
  | fullOutput
  | illegalInput
  | incompleteInput
  /-- A failed assertion, or `abort ()`. -/
  | aborted
  deriving DecidableEq, Repr

/-! ## Characters -/

def shiftCharacter : Variant → Nat
  | .utf7 => '+'.toNat
  | .utf7Imap => '&'.toNat

def between (ch lower upper : Nat) : Bool := lower ≤ ch && ch ≤ upper

def isdirect (ch : Nat) : Variant → Bool
  | .utf7 =>
    between ch 'A'.toNat 'Z'.toNat || between ch 'a'.toNat 'z'.toNat ||
      between ch '0'.toNat '9'.toNat || ch == '\''.toNat || ch == '('.toNat || ch == ')'.toNat ||
      between ch ','.toNat '/'.toNat || ch == ':'.toNat || ch == '?'.toNat || ch == ' '.toNat ||
      ch == '\t'.toNat || ch == '\n'.toNat || ch == '\r'.toNat
  | .utf7Imap => ch != '&'.toNat && between ch ' '.toNat '~'.toNat

def isxdirect (ch : Nat) (var : Variant) : Bool :=
  if isdirect ch var then true
  else if var ≠ .utf7 then false
  else
    between ch '!'.toNat '&'.toNat || ch == '*'.toNat || between ch ';'.toNat '@'.toNat ||
      (between ch '['.toNat 0x60 && ch != '\\'.toNat) || between ch 0x7b 0x7d

def needsExplicitShift (ch : Nat) : Bool :=
  between ch 'A'.toNat 'Z'.toNat || between ch 'a'.toNat 'z'.toNat ||
    between ch '/'.toNat '9'.toNat || ch == '+'.toNat || ch == '-'.toNat

/-- The character of a value below 64; the others abort. -/
def base64 (i : Nat) (var : Variant) : Option UInt8 :=
  if i < 26 then some (UInt8.ofNat (i + 'A'.toNat))
  else if i < 52 then some (UInt8.ofNat (i - 26 + 'a'.toNat))
  else if i < 62 then some (UInt8.ofNat (i - 52 + '0'.toNat))
  else if i = 62 then some (byte '+')
  else if i = 63 then
    match var with
    | .utf7 => some (byte '/')
    | .utf7Imap => some (byte ',')
  else none

/-! ## From UTF-7 -/

/-- The state of the decoder: `__count` and `__wch`. -/
structure FromState where
  count : Nat
  wch : Nat
  deriving DecidableEq, Repr

def FromState.start : FromState := ⟨0, 0⟩

def digit (var : Variant) (ch : Nat) : Option Nat :=
  if 'A'.toNat ≤ ch ∧ ch ≤ 'Z'.toNat then some (ch - 'A'.toNat)
  else if 'a'.toNat ≤ ch ∧ ch ≤ 'z'.toNat then some (ch - 'a'.toNat + 26)
  else if '0'.toNat ≤ ch ∧ ch ≤ '9'.toNat then some (ch - '0'.toNat + 52)
  else if ch = '+'.toNat then some 62
  else if (var = .utf7 ∧ ch = '/'.toNat) ∨ (var = .utf7Imap ∧ ch = ','.toNat) then some 63
  else none

def isHigh (wc : Nat) : Prop := 0xd800 ≤ wc ∧ wc < 0xdc00

def isLow (wc : Nat) : Prop := 0xdc00 ≤ wc ∧ wc < 0xe000

instance (wc : Nat) : Decidable (isHigh wc) := inferInstanceAs (Decidable (_ ∧ _))

instance (wc : Nat) : Decidable (isLow wc) := inferInstanceAs (Decidable (_ ∧ _))

/-- What a base64 value does: it may complete a character, or be the wrong half of a surrogate
pair. -/
inductive Accumulated
  | ok (out : List Nat) (s : FromState)
  | illegal
  | aborted

def accumulate (s : FromState) (i : Nat) : Accumulated :=
  let shift := s.count >>> 3
  if shift > 6 then
    let shift := shift - 6
    let wch := s.wch ||| i <<< shift
    if shift ≤ 16 ∧ shift > 10 then
      -- a unit is complete; after a high surrogate, its other half has to follow
      let wc1 := wch >>> 16
      if ¬isHigh wc1 then .ok [wc1] ⟨(shift + 16) <<< 3, wch <<< 16 % 2 ^ 32⟩
      else .ok [] ⟨shift <<< 3, wch⟩
    else if shift ≤ 10 ∧ shift > 4 then
      let wc2 := wch &&& 0xffff
      if ¬isLow wc2 then .illegal else .ok [] ⟨shift <<< 3, wch⟩
    else .ok [] ⟨shift <<< 3, wch⟩
  else
    let wc1 := s.wch >>> 16
    let wc2 := (s.wch &&& 0xffff) ||| i >>> (6 - shift)
    if ¬isHigh wc1 then .aborted
    else if ¬isLow wc2 then .aborted
    else
      .ok [0x10000 + (wc1 - 0xd800) <<< 10 + (wc2 - 0xdc00)]
        ⟨(shift + 26) <<< 3, i <<< shift <<< 26 % 2 ^ 32⟩

/-- One turn of the loop: the bytes that are left, the characters that were put out and the state;
or why it stops. An error has the state in which the loop goes on behind the byte, if it is
ignored. -/
inductive FromTurn
  | next (left : List UInt8) (out : List Nat) (s : FromState)
  | incomplete
  | illegal (ignored : FromState)
  | aborted

def fromBody (var : Variant) (s : FromState) (ch : UInt8) (rest : List UInt8) : FromTurn :=
  if s.count >>> 3 = 0 then
    if isxdirect ch.toNat var then .next rest [ch.toNat] s
    else if ch.toNat = shiftCharacter var then
      match rest with
      | [] => .incomplete
      | following :: rest' =>
        if following = byte '-' then .next rest' [ch.toNat] s
        else .next rest [] ⟨32 <<< 3, 0⟩
    else .illegal s
  else
    match digit var ch.toNat with
    | none =>
      if s.wch ≠ 0 ∨ s.count >>> 3 ≤ 26 ∨ (var = .utf7Imap ∧ ch ≠ byte '-') then
        .illegal { s with count := 0 }
      -- another character than `-` is read again, as a direct one
      else .next (if ch = byte '-' then rest else ch :: rest) [] { s with count := 0 }
    | some i =>
      match accumulate s i with
      | .ok out s => .next rest out s
      | .illegal => .illegal { s with count := 0 }
      | .aborted => .aborted

/-- How far the loop is from its end: leaving base64 may read nothing. -/
def distance (s : FromState) (input : List UInt8) : Nat :=
  2 * input.length + if s.count >>> 3 = 0 then 0 else 1

theorem distance_lt_of_fromBody {var : Variant} {s s' : FromState} {ch : UInt8}
    {rest left : List UInt8} {out : List Nat} (h : fromBody var s ch rest = .next left out s') :
    distance s' left < distance s (ch :: rest) := by
  have hread : ∀ {s' : FromState} {left : List UInt8}, left.length ≤ rest.length →
      distance s' left < distance s (ch :: rest) := by
    intro s' left hle
    unfold distance
    rw [List.length_cons]
    split <;> split <;> omega
  unfold fromBody at h
  split at h
  · split at h
    · cases h
      exact hread le_rfl
    split at h
    · split at h
      · cases h
      · split at h
        · cases h
          exact hread (Nat.le_succ _)
        · cases h
          exact hread le_rfl
    · cases h
  · next hactive =>
    split at h
    · split at h
      · cases h
      · cases h
        split
        · exact hread le_rfl
        · simp [distance, hactive]
    · split at h
      · cases h
        exact hread le_rfl
      · cases h
      · cases h

structure FromCall where
  result : GconvResult
  state : FromState
  left : List UInt8
  out : List Nat
  deriving DecidableEq, Repr

def FromCall.after (out : List Nat) (call : FromCall) : FromCall :=
  { call with out := out ++ call.out }

/-- The loop, with room for `room` bytes of four-byte characters. -/
def fromLoop (var : Variant) (ignoreErrors : Bool) (s : FromState) (input : List UInt8)
    (room : Nat) : FromCall :=
  match input with
  | [] => ⟨.emptyInput, s, [], []⟩
  | ch :: rest =>
    if room < 4 then ⟨.fullOutput, s, ch :: rest, []⟩
    else
      match _h : fromBody var s ch rest with
      | .next left out s' => (fromLoop var ignoreErrors s' left (room - 4 * out.length)).after out
      | .incomplete => ⟨.incompleteInput, s, ch :: rest, []⟩
      | .illegal ignored =>
        if ignoreErrors then fromLoop var ignoreErrors ignored rest room
        else ⟨.illegalInput, s, ch :: rest, []⟩
      | .aborted => ⟨.aborted, s, ch :: rest, []⟩
termination_by distance s input
decreasing_by
  · exact distance_lt_of_fromBody ‹_›
  · unfold distance
    rw [List.length_cons]
    split <;> split <;> omega

/-! ## To UTF-7 -/

/-- One turn of the loop: the bytes that were written and the state, or why it stops. -/
inductive ToTurn
  | next (bytes : List UInt8) (count : Nat)
  | full
  | illegal
  | aborted
  deriving DecidableEq, Repr

/-- Store the base64 characters of the values, after `bytes` and before the new state. -/
def putBase64 (var : Variant) (bytes : List UInt8) (values : List Nat) (count : Nat) : ToTurn :=
  match values.mapM fun i => base64 i var with
  | some chars => .next (bytes ++ chars) count
  | none => .aborted

def surrogates (ch : Nat) : Nat :=
  let ch1 := 0xd800 + (ch - 0x10000) >>> 10
  let ch2 := 0xdc00 + ((ch - 0x10000) &&& 0x3ff)
  ch1 <<< 16 ||| ch2

/-- `(count >> 3) & ~3`: the bits that wait for the next base64 character, at their place in it. -/
def waiting (count : Nat) : Nat := count >>> 3 &&& 0xfffffffc

def toBodyInactive (var : Variant) (count ch room : Nat) : ToTurn :=
  if isdirect ch var then .next [UInt8.ofNat ch] count
  else
    let shift := UInt8.ofNat (shiftCharacter var)
    if ch = shiftCharacter var then
      if room < 2 then .full else .next [shift, byte '-'] count
    else if ch < 0x10000 then
      if room < 3 then .full
      else putBase64 var [shift] [ch >>> 10, ch >>> 4 &&& 0x3f] ((ch &&& 15) <<< 5 ||| 3 <<< 3)
    else if ch < 0x110000 then
      if room < 6 then .full
      else
        let ch := surrogates ch
        putBase64 var [shift] [ch >>> 26, ch >>> 20 &&& 0x3f, ch >>> 14 &&& 0x3f, ch >>> 8 &&& 0x3f,
          ch >>> 2 &&& 0x3f] ((ch &&& 3) <<< 7 ||| 2 <<< 3)
    else .illegal

def toBodyDeactivate (var : Variant) (count ch room : Nat) : ToTurn :=
  let flush := decide (count &&& 0x18 ≥ 0x10)
  let explicit := decide (var = .utf7Imap) || needsExplicitShift ch
  let literal := decide (var = .utf7Imap ∧ ch = '&'.toNat)
  if room < flush.toNat + explicit.toNat + literal.toNat + 1 then .full
  else
    match if flush then (base64 (waiting count) var).map ([·]) else some [] with
    | none => .aborted
    | some pending =>
      .next (pending ++ (if explicit then [byte '-'] else []) ++ [UInt8.ofNat ch] ++
        if literal then [byte '-'] else []) 0

def toBodyUnit (var : Variant) (count ch : Nat) : ToTurn :=
  match count >>> 3 &&& 3 with
  | 1 => putBase64 var [] [ch >>> 10, ch >>> 4 &&& 0x3f] ((ch &&& 15) <<< 5 ||| 3 <<< 3)
  | 2 => putBase64 var [] [waiting count ||| ch >>> 12, ch >>> 6 &&& 0x3f, ch &&& 0x3f] (1 <<< 3)
  | 3 =>
    putBase64 var [] [waiting count ||| ch >>> 14, ch >>> 8 &&& 0x3f, ch >>> 2 &&& 0x3f]
      ((ch &&& 3) <<< 7 ||| 2 <<< 3)
  | _ => .aborted

def toBodyPair (var : Variant) (count ch : Nat) : ToTurn :=
  match count >>> 3 &&& 3 with
  | 1 =>
    putBase64 var [] [ch >>> 26, ch >>> 20 &&& 0x3f, ch >>> 14 &&& 0x3f, ch >>> 8 &&& 0x3f,
      ch >>> 2 &&& 0x3f] ((ch &&& 3) <<< 7 ||| 2 <<< 3)
  | 2 =>
    putBase64 var [] [waiting count ||| ch >>> 28, ch >>> 22 &&& 0x3f, ch >>> 16 &&& 0x3f,
      ch >>> 10 &&& 0x3f, ch >>> 4 &&& 0x3f] ((ch &&& 15) <<< 5 ||| 3 <<< 3)
  | 3 =>
    putBase64 var [] [waiting count ||| ch >>> 30, ch >>> 24 &&& 0x3f, ch >>> 18 &&& 0x3f,
      ch >>> 12 &&& 0x3f, ch >>> 6 &&& 0x3f, ch &&& 0x3f] (1 <<< 3)
  | _ => .aborted

def toBodyActive (var : Variant) (count ch room : Nat) : ToTurn :=
  if (var = .utf7Imap ∧ ch = '&'.toNat) ∨ isdirect ch var then toBodyDeactivate var count ch room
  else if ch < 0x10000 then
    if room < if count &&& 0x18 ≥ 0x10 then 3 else 2 then .full
    else toBodyUnit var count ch
  else if ch < 0x110000 then
    if room < if count &&& 0x18 ≥ 0x18 then 6 else 5 then .full
    else toBodyPair var count (surrogates ch)
  else .illegal

def toBody (var : Variant) (count ch room : Nat) : ToTurn :=
  if count &&& 0x18 = 0 then toBodyInactive var count ch room else toBodyActive var count ch room

structure ToCall where
  result : GconvResult
  count : Nat
  left : List Nat
  bytes : List UInt8
  deriving DecidableEq, Repr

def ToCall.after (bytes : List UInt8) (call : ToCall) : ToCall :=
  { call with bytes := bytes ++ call.bytes }

/-- The loop. A word from 0x110000 on is an error, which stops it or is ignored. -/
def toLoop (var : Variant) (ignoreErrors : Bool) (count : Nat) : List Nat → Nat → ToCall
  | [], _ => ⟨.emptyInput, count, [], []⟩
  | ch :: rest, room =>
    if room < 1 then ⟨.fullOutput, count, ch :: rest, []⟩
    else
      match toBody var count ch room with
      | .next bytes count' =>
        (toLoop var ignoreErrors count' rest (room - bytes.length)).after bytes
      | .full => ⟨.fullOutput, count, ch :: rest, []⟩
      | .illegal =>
        if ignoreErrors then toLoop var ignoreErrors count rest room
        else ⟨.illegalInput, count, ch :: rest, []⟩
      | .aborted => ⟨.aborted, count, ch :: rest, []⟩

/-- `EMIT_SHIFT_TO_INIT` -/
def emitShiftToInit (var : Variant) (count room : Nat) : ToTurn :=
  if count &&& 0x18 ≠ 0 then
    if room < (decide (count &&& 0x18 ≥ 0x10)).toNat + 1 then .full
    else
      match if count &&& 0x18 ≥ 0x10 then (base64 (waiting count) var).map ([·]) else some [] with
      | none => .aborted
      | some pending => .next (pending ++ [byte '-']) 0
  else .next [] 0

/-! ## Conversions in pieces -/

/-- A conversion to UTF-7: what is left to convert, the bytes so far, and whether the final reset
has been made. -/
structure Encoding where
  count : Nat
  left : List Nat
  bytes : List UInt8
  done : Bool
  deriving DecidableEq, Repr

def Encoding.start (text : List Nat) : Encoding := ⟨0, text, [], false⟩

/-- The next call gets a buffer of `room` bytes: it goes on with the text, or makes the reset. -/
def Encoding.call (var : Variant) (e : Encoding) (room : Nat) : Encoding :=
  if e.done then e
  else if e.left = [] then
    match emitShiftToInit var e.count room with
    | .next bytes count => { e with count, bytes := e.bytes ++ bytes, done := true }
    | _ => e
  else
    let call := toLoop var false e.count e.left room
    { e with count := call.count, left := call.left, bytes := e.bytes ++ call.bytes }

def encodePieces (var : Variant) (text rooms : List Nat) : Encoding :=
  rooms.foldl (Encoding.call var) (.start text)

/-- The results of successive calls of the decoder, each on any input and any room. -/
def decodeCalls (var : Variant) : FromState → List (Bool × List UInt8 × Nat) → List GconvResult
  | _, [] => []
  | s, (ignoreErrors, input, room) :: calls =>
    let call := fromLoop var ignoreErrors s input room
    call.result :: decodeCalls var call.state calls

end SafeLibc.Iconv.Utf7
