import SafeLibc.Lib.Bytes
import SafeLibc.Lib.Str
import SafeLibc.Lib.Unicode

/-!
# Character set conversion

`convert_bytes` and everything it calls: encoding names, the five decoders and the five encoders,
each with the behaviour of `omit_invalid` and the text of its errors. Byte strings are lists of
bytes, strings are lists of characters; the standard library's UTF-8 and UTF-16 are those of
`Lib.Unicode`.
-/

namespace SafeLibc.Iconv

open SafeLibc.Lib

structure ConversionOptions where
  omitInvalid : Bool
  deriving DecidableEq, Repr

inductive IconvErrorKind
  | unknownEncoding
  | invalidSequence
  | incompleteSequence
  | unrepresentable
  deriving DecidableEq, Repr

structure IconvError where
  kind : IconvErrorKind
  detail : String
  deriving DecidableEq, Repr

inductive Encoding
  | utf8
  | ascii
  | latin1
  | utf16Le
  | utf16Be
  deriving DecidableEq, Repr

/-! ## Encoding names -/

def normalizedEncodingName (value : List Char) : List Char :=
  ((before ['/', '/'] (trim value)).filter Char.isAlphanum).map Char.toUpper

def parseEncoding (value : List Char) : Except IconvError Encoding :=
  let name := String.ofList (normalizedEncodingName value)
  if name = "UTF8" then .ok .utf8
  else if name = "ASCII" ∨ name = "ANSIX341968" ∨ name = "USASCII" then .ok .ascii
  else if name = "ISO88591" ∨ name = "LATIN1" then .ok .latin1
  else if name = "UTF16LE" then .ok .utf16Le
  else if name = "UTF16BE" then .ok .utf16Be
  else .error ⟨.unknownEncoding, "unsupported character encoding " ++ String.ofList value⟩

/-! ## Decoders -/

/-- `Utf8Error` of the standard library: `errorLen` is `None` when the input ends inside a
sequence that could go on. -/
structure Utf8Error where
  validUpTo : Nat
  errorLen : Option Nat
  deriving DecidableEq, Repr

/-- Whether `second` may follow the lead byte `first` of a sequence of three or four bytes. -/
def secondByteOk (first second : UInt8) : Bool :=
  if first = 0xe0 then 0xa0 ≤ second && second ≤ 0xbf
  else if first = 0xed then 0x80 ≤ second && second ≤ 0x9f
  else if first = 0xf0 then 0x90 ≤ second && second ≤ 0xbf
  else if first = 0xf4 then 0x80 ≤ second && second ≤ 0x8f
  else 0x80 ≤ second && second ≤ 0xbf

def isContinuation (byte : UInt8) : Bool := 0x80 ≤ byte && byte ≤ 0xbf

/-- The length of the invalid sequence that `bytes` begin with. -/
def utf8ErrorLen (bytes : List UInt8) : Option Nat :=
  match bytes with
  | [] => none
  | first :: rest =>
    if 0xc2 ≤ first ∧ first ≤ 0xdf then if rest.isEmpty then none else some 1
    else if 0xe0 ≤ first ∧ first ≤ 0xef then
      match rest with
      | [] => none
      | [second] => if secondByteOk first second then none else some 1
      | second :: _ :: _ => if secondByteOk first second then some 2 else some 1
    else if 0xf0 ≤ first ∧ first ≤ 0xf4 then
      match rest with
      | [] => none
      | [second] => if secondByteOk first second then none else some 1
      | [second, third] =>
        if secondByteOk first second then if isContinuation third then none else some 2 else some 1
      | second :: third :: _ :: _ =>
        if secondByteOk first second then if isContinuation third then some 3 else some 2
        else some 1
    else some 1

/-- `std::str::from_utf8`. -/
def fromUtf8 (bytes : List UInt8) : Except Utf8Error (List Char) :=
  match validUtf8 bytes with
  | (text, []) => .ok text
  | (_, rest) => .error ⟨bytes.length - rest.length, utf8ErrorLen rest⟩

def decodeUtf8Omit (remaining : List UInt8) (output : List Char) : Except IconvError (List Char) :=
  if _h : remaining = [] then .ok output
  else
    match fromUtf8 remaining with
    | .ok valid => .ok (output ++ valid)
    | .error error =>
      -- with `valid_up_to == 0` the source skips the push; it would push nothing
      match fromUtf8 (remaining.take error.validUpTo) with
      | .error _ => .error ⟨.invalidSequence, "internal UTF-8 validation inconsistency"⟩
      | .ok valid =>
        let advance := error.errorLen.getD (remaining.length - error.validUpTo)
        let next := min (error.validUpTo + advance) remaining.length
        if next = 0 then .ok (output ++ valid)
        else decodeUtf8Omit (remaining.drop next) (output ++ valid)
termination_by remaining.length
decreasing_by
  have hpos := List.length_pos_of_ne_nil _h
  rw [List.length_drop]
  omega

def decodeUtf8 (input : List UInt8) (omitInvalid : Bool) : Except IconvError (List Char) :=
  if !omitInvalid then
    (fromUtf8 input).mapError fun error =>
      ⟨.invalidSequence, s!"invalid UTF-8 input at byte {error.validUpTo}"⟩
  else decodeUtf8Omit input []

/-- `byte as char`. -/
def byteChar (byte : UInt8) : Char := Char.ofNat byte.toNat

def decodeAscii (input : List UInt8) (omitInvalid : Bool) : Except IconvError (List Char) :=
  match input with
  | [] => .ok []
  | byte :: input =>
    if byte.toNat < 0x80 then (decodeAscii input omitInvalid).map (byteChar byte :: ·)
    else if !omitInvalid then
      .error ⟨.invalidSequence,
        "invalid ASCII input byte 0x" ++ String.ofList (hex 2 byte.toNat)⟩
    else decodeAscii input omitInvalid

def decodeLatin1 (input : List UInt8) : List Char := input.map byteChar

/-- `u16::from_le_bytes` or `u16::from_be_bytes`. -/
def readUnit (littleEndian : Bool) (b0 b1 : UInt8) : UInt16 :=
  UInt16.ofNat (if littleEndian then leNat [b0, b1] else beNat [b0, b1])

/-- The units of `chunks_exact(2)`, and its remainder. -/
def readUnits (littleEndian : Bool) : List UInt8 → List UInt16 × List UInt8
  | b0 :: b1 :: input =>
    let (words, remainder) := readUnits littleEndian input
    (readUnit littleEndian b0 b1 :: words, remainder)
  | remainder => ([], remainder)

/-- The loop of `decode_utf16` over the items of `char::decode_utf16`. -/
def collectUtf16 (omitInvalid : Bool) : List (Except UInt16 Char) → Except IconvError (List Char)
  | [] => .ok []
  | .ok ch :: items => (collectUtf16 omitInvalid items).map (ch :: ·)
  | .error _ :: items =>
    if omitInvalid then collectUtf16 omitInvalid items
    else .error ⟨.invalidSequence, "invalid UTF-16 input sequence"⟩

def decodeUtf16Bytes (input : List UInt8) (littleEndian omitInvalid : Bool) :
    Except IconvError (List Char) :=
  let (words, remainder) := readUnits littleEndian input
  if !remainder.isEmpty && !omitInvalid then
    .error ⟨.incompleteSequence, "incomplete UTF-16 input unit"⟩
  else collectUtf16 omitInvalid (decodeUtf16 words)

def decodeToString (input : List UInt8) (encoding : Encoding) (options : ConversionOptions) :
    Except IconvError (List Char) :=
  match encoding with
  | .utf8 => decodeUtf8 input options.omitInvalid
  | .ascii => decodeAscii input options.omitInvalid
  | .latin1 => .ok (decodeLatin1 input)
  | .utf16Le => decodeUtf16Bytes input true options.omitInvalid
  | .utf16Be => decodeUtf16Bytes input false options.omitInvalid

/-! ## Encoders -/

/-- The loop of the single-byte encoders: characters up to `limit` are one byte each. -/
def encodeSingleByte (limit : Nat) (charset : String) (omitInvalid : Bool) :
    List Char → Except IconvError (List UInt8)
  | [] => .ok []
  | ch :: text =>
    if ch.toNat ≤ limit then
      (encodeSingleByte limit charset omitInvalid text).map (UInt8.ofNat ch.toNat :: ·)
    else if !omitInvalid then
      .error ⟨.unrepresentable,
        "character U+" ++ String.ofList ((hex 4 ch.toNat).map Char.toUpper) ++
          " cannot be represented as " ++ charset⟩
    else encodeSingleByte limit charset omitInvalid text

def encodeAscii (text : List Char) (omitInvalid : Bool) : Except IconvError (List UInt8) :=
  encodeSingleByte 0x7f "ASCII" omitInvalid text

def encodeLatin1 (text : List Char) (omitInvalid : Bool) : Except IconvError (List UInt8) :=
  encodeSingleByte 0xff "ISO-8859-1" omitInvalid text

/-- `to_le_bytes` or `to_be_bytes`. -/
def writeUnit (littleEndian : Bool) (word : UInt16) : List UInt8 :=
  if littleEndian then leBytes 2 word.toNat else beBytes 2 word.toNat

def encodeUtf16Bytes (text : List Char) (littleEndian : Bool) : List UInt8 :=
  (encodeUtf16 text).flatMap (writeUnit littleEndian)

def encodeFromString (text : List Char) (encoding : Encoding) (options : ConversionOptions) :
    Except IconvError (List UInt8) :=
  match encoding with
  | .utf8 => .ok (encodeUtf8 text)
  | .ascii => encodeAscii text options.omitInvalid
  | .latin1 => encodeLatin1 text options.omitInvalid
  | .utf16Le => .ok (encodeUtf16Bytes text true)
  | .utf16Be => .ok (encodeUtf16Bytes text false)

/-! ## Conversion -/

def convertBytes (input : List UInt8) (source target : List Char) (options : ConversionOptions) :
    Except IconvError (List UInt8) := do
  let source ← parseEncoding source
  let target ← parseEncoding target
  if source = target then
    return input
  let text ← decodeToString input source options
  encodeFromString text target options

example : convertBytes [0x61, 0xf0, 0x28, 0x8c, 0x28, 0x62] "UTF-8".toList "ASCII".toList ⟨true⟩ =
    .ok [0x61, 0x28, 0x28, 0x62] := by
  decide +kernel

end SafeLibc.Iconv
