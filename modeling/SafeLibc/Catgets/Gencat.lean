import SafeLibc.Lib.Bytes
import SafeLibc.Lib.Machine
import SafeLibc.Lib.Str
import Mathlib.Data.List.Nodup

/-!
# gencat: reading message source files

`Catalog` and the functions that fill it line by line, from `libc-support-tools`' `aux_tools.rs`. A
set is kept under its stored number, which is one more than the number the source file gives. The
symbols, file names and line numbers that only the header output reads are left out.

Sums are `u32` and go through `Overflow.settle`: `none` is a panic, of an addition in a build with
overflow checks or of an index. `Catalog.Valid` is what every catalog reached from `Catalog.new`
satisfies (`Reachable.valid`).
-/

namespace SafeLibc.Catgets

open SafeLibc.Lib List

/-! ## Data -/

structure Message where
  number : Nat
  text : List UInt8
  deriving DecidableEq, Repr

/-- A set, under its stored number. -/
structure MessageSet where
  number : Nat
  deleted : Bool
  messages : List Message
  lastMessage : Nat
  deriving DecidableEq, Repr

structure Catalog where
  sets : List MessageSet
  currentSet : Nat
  lastSet : Nat
  deriving DecidableEq, Repr

inductive MessageEncoding
  | bytes
  | shiftJis
  deriving DecidableEq, Repr

def nlSetd : Nat := 1

/-! ## Bytes of a line -/

def isSpace (b : UInt8) : Bool := b = byte ' ' || b = byte '\t'

def isAsciiDigit (b : UInt8) : Bool := byte '0' ≤ b && b ≤ byte '9'

def isIdentStart (b : UInt8) : Bool :=
  isAsciiDigit b || (byte 'A' ≤ b && b ≤ byte 'Z') || (byte 'a' ≤ b && b ≤ byte 'z') || b = byte '_'

def trimAsciiStart (bytes : List UInt8) : List UInt8 := bytes.dropWhile isSpace

/-- The bytes up to a blank. -/
def nextToken (bytes : List UInt8) : List UInt8 := bytes.takeWhile fun b => !isSpace b

def toAsciiLowercase (b : UInt8) : UInt8 :=
  if byte 'A' ≤ b && b ≤ byte 'Z' then b + 32 else b

def eqIgnoreAsciiCase (a b : List UInt8) : Bool :=
  a.map toAsciiLowercase = b.map toAsciiLowercase

/-- `str::parse` at `u32`: an optional sign, then at least one digit, in range. -/
def parseU32 (bytes : List UInt8) : Option Nat :=
  let digits := (stripHead [byte '+'] bytes).getD bytes
  let value := digits.foldl (fun n d => n * 10 + (d - byte '0').toNat) 0
  if digits.isEmpty || !digits.all isAsciiDigit || 2 ^ 32 ≤ value then none else some value

/-! ## Message texts -/

def isShiftJisLead (b : UInt8) : Bool := (0x81 ≤ b && b ≤ 0x9f) || (0xe0 ≤ b && b ≤ 0xfc)

def isShiftJisTrail (b : UInt8) : Bool := (0x40 ≤ b && b ≤ 0x7e) || (0x80 ≤ b && b ≤ 0xfc)

def isOctalDigit (b : UInt8) : Bool := byte '0' ≤ b && b ≤ byte '7'

/-- The rest of an octal escape: digits are taken while the value so far is at most `255 / 8`. -/
def octalEscape (value : Nat) : List UInt8 → Nat × List UInt8
  | [] => (value, [])
  | d :: rest =>
    if isOctalDigit d && value ≤ 255 / 8 then octalEscape (value * 8 + (d - byte '0').toNat) rest
    else (value, d :: rest)

theorem length_octalEscape (value : Nat) (input : List UInt8) :
    (octalEscape value input).2.length ≤ input.length := by
  induction input generalizing value with
  | nil => simp [octalEscape]
  | cons d rest ih =>
    rw [octalEscape]
    split
    · exact Nat.le_succ_of_le (ih _)
    · exact le_rfl

/-- What a backslash and a byte that starts no octal escape stand for. -/
def escapedByte (escaped : UInt8) : UInt8 :=
  if escaped = byte 'n' then byte '\n'
  else if escaped = byte 't' then byte '\t'
  else if escaped = byte 'v' then 0x0b
  else if escaped = byte 'b' then 0x08
  else if escaped = byte 'r' then byte '\r'
  else if escaped = byte 'f' then 0x0c
  else escaped

/-- The loop of `normalize_message`, on the input that is left. -/
def normalizeFrom (quote : Option UInt8) (quoted : Bool) (encoding : MessageEncoding) :
    List UInt8 → List UInt8
  | [] => []
  | b :: rest =>
    if encoding = .shiftJis && isShiftJisLead b && rest.head?.any isShiftJisTrail then
      b :: (rest.take 1 ++ normalizeFrom quote quoted encoding (rest.drop 1))
    else if quoted && some b = quote then []
    else if b ≠ byte '\\' then b :: normalizeFrom quote quoted encoding rest
    else
      match rest with
      | [] => []
      | escaped :: rest =>
        if some escaped = quote then escaped :: normalizeFrom quote quoted encoding rest
        else if isOctalDigit escaped then
          let octal := octalEscape (escaped - byte '0').toNat rest
          UInt8.ofNat octal.1 :: normalizeFrom quote quoted encoding octal.2
        else escapedByte escaped :: normalizeFrom quote quoted encoding rest
termination_by input => input.length
decreasing_by
  · simp only [List.length_drop, List.length_cons]
    omega
  · simp only [List.length_cons]
    omega
  · simp only [List.length_cons]
    omega
  · have hlen := length_octalEscape (escaped - byte '0').toNat rest
    simp only [List.length_cons]
    omega
  · simp only [List.length_cons]
    omega

def normalizeMessage (input : List UInt8) (quote : Option UInt8) (encoding : MessageEncoding) :
    List UInt8 :=
  let quoted := quote.any fun value => input.head? = some value
  normalizeFrom quote quoted encoding (if quoted then input.drop 1 else input)

theorem normalizeMessage_plain {input : List UInt8} (h : byte '\\' ∉ input) :
    normalizeMessage input none .bytes = input := by
  have hloop : normalizeFrom none false .bytes input = input := by
    induction input with
    | nil => simp [normalizeFrom]
    | cons b rest ih =>
      rw [mem_cons, not_or] at h
      rw [normalizeFrom.eq_def]
      simp [Ne.symm h.1, ih h.2]
  simpa [normalizeMessage] using hloop

/-! ## Sets and messages -/

/-- The position of the set, which is added if it is new. -/
def Catalog.findOrCreateSet (cat : Catalog) (storedNumber : Nat) : Catalog × Nat :=
  match cat.sets.findIdx? fun set => set.number = storedNumber with
  | some index => (cat, index)
  | none =>
    ({ cat with sets := cat.sets ++ [⟨storedNumber, false, [], 0⟩] }, cat.sets.length)

def Catalog.new : Catalog :=
  let created := Catalog.findOrCreateSet ⟨[], 0, 0⟩ (nlSetd + 1)
  { created.1 with currentSet := created.2 }

/-- A text replaces the one of its number. -/
def upsertText (number : Nat) (text : List UInt8) : List Message → List Message
  | [] => [⟨number, text⟩]
  | message :: rest =>
    if message.number = number then { message with text } :: rest
    else message :: upsertText number text rest

def MessageSet.upsertMessage (set : MessageSet) (number : Nat) (text : List UInt8) : MessageSet :=
  { set with
    lastMessage := if set.lastMessage < number then number else set.lastMessage
    messages := upsertText number text set.messages }

/-- Change the current set; an index past the sets is a panic. -/
def Catalog.modifyCurrent (cat : Catalog) (f : MessageSet → MessageSet) : Option Catalog :=
  if cat.currentSet < cat.sets.length then
    some { cat with sets := cat.sets.modify cat.currentSet f }
  else none

def Catalog.upsertMessage (cat : Catalog) (number : Nat) (text : List UInt8) : Option Catalog :=
  cat.modifyCurrent fun set => set.upsertMessage number text

def Catalog.enterSet (cat : Catalog) (storedNumber : Nat) : Catalog :=
  let found := cat.findOrCreateSet storedNumber
  { found.1 with currentSet := found.2 }

/-! ## Lines -/

/-- What `process_line` reads and changes; the quote character and the encoding are those of the
file. -/
structure Input where
  catalog : Catalog
  quote : Option UInt8
  encoding : MessageEncoding
  deriving DecidableEq, Repr

/-- `$set`: by number, or by a symbol, which takes the next number. -/
def setDirective (mode : Overflow) (value : List UInt8) (cat : Catalog) : Option Catalog :=
  let token := nextToken (trimAsciiStart value)
  if token.isEmpty then some cat
  else if token.all isAsciiDigit then
    let external := (parseU32 token).getD 0
    (mode.settle 32 (external + 1)).map
      { cat with lastSet := if cat.lastSet < external then external else cat.lastSet }.enterSet
  else
    (mode.settle 32 (cat.lastSet + 1)).bind fun lastSet =>
      (mode.settle 32 (lastSet + 1)).map { cat with lastSet }.enterSet

def delsetDirective (mode : Overflow) (value : List UInt8) (cat : Catalog) : Option Catalog :=
  let token := nextToken (trimAsciiStart value)
  if token.all isAsciiDigit then
    (mode.settle 32 ((parseU32 token).getD 0 + 1)).map fun stored =>
      let found := cat.findOrCreateSet stored
      { found.1 with
        sets := found.1.sets.modify found.2 fun set => { set with deleted := true } }
  else some cat

/-- `$ codeset=`; anything else after a blank is a comment. -/
def codesetDirective (rest : List UInt8) (encoding : MessageEncoding) : MessageEncoding :=
  match stripHead (bytesOf "codeset=") (trimAsciiStart rest) with
  | none => encoding
  | some value =>
    let token := nextToken value
    if eqIgnoreAsciiCase token (bytesOf "sjis") || eqIgnoreAsciiCase token (bytesOf "shift_jis") ||
        eqIgnoreAsciiCase token (bytesOf "shift-jis") then .shiftJis
    else encoding

def processDirective (mode : Overflow) (rest : List UInt8) (input : Input) : Option Input :=
  if rest.head?.any isSpace then
    some { input with encoding := codesetDirective rest input.encoding }
  else if let some value := stripHead (bytesOf "set") rest then
    (setDirective mode value input.catalog).map fun catalog => { input with catalog }
  else if let some value := stripHead (bytesOf "delset") rest then
    (delsetDirective mode value input.catalog).map fun catalog => { input with catalog }
  else if let some value := stripHead (bytesOf "quote") rest then
    some { input with quote := (trimAsciiStart value).head? }
  else some input

/-- Store a message; number 0 is dropped. -/
def Catalog.addMessage (cat : Catalog) (number : Nat) (text : List UInt8) : Option Catalog :=
  if number = 0 then some cat else cat.upsertMessage number text

/-- A line `ident message`: by number, or by a symbol, which takes the set's next number. -/
def messageLine (mode : Overflow) (line : List UInt8) (input : Input) : Option Catalog :=
  let cat := input.catalog
  let ident := nextToken line
  let message := normalizeMessage (line.drop (ident.length + 1)) input.quote input.encoding
  if ident.all isAsciiDigit then cat.addMessage ((parseU32 ident).getD 0) message
  else
    (cat.sets[cat.currentSet]?).bind fun set =>
      (mode.settle 32 (set.lastMessage + 1)).bind fun number =>
        (cat.modifyCurrent fun set => { set with lastMessage := number }).bind fun cat =>
          cat.addMessage number message

/-- `process_line`; `none` is a panic. -/
def processLine (mode : Overflow) (line : List UInt8) (input : Input) : Option Input :=
  match line with
  | [] => some input
  | first :: rest =>
    if first = byte '$' then processDirective mode rest input
    else if isIdentStart first then
      (messageLine mode line input).map fun catalog => { input with catalog }
    else some input

/-! ## Input files -/

def hasOddTrailingBackslashes (line : List UInt8) : Bool :=
  (line.reverse.takeWhile (· = byte '\\')).length % 2 = 1

def rawLines (bytes : List UInt8) : List (List UInt8) :=
  let pieces := bytes.splitOn (byte '\n')
  -- no line follows a final newline
  if pieces.getLast? = some [] then pieces.dropLast else pieces

/-- The loop of `logical_lines`: `current` is the line that is being continued. -/
def joinLines (current : List UInt8) : List (List UInt8) → List (List UInt8)
  | [] => if current.isEmpty then [] else [current]
  | raw :: rest =>
    let line := if raw.getLast? = some (byte '\r') then raw.dropLast else raw
    if hasOddTrailingBackslashes line then joinLines (current ++ line.dropLast) rest
    else (current ++ line) :: joinLines [] rest

/-- The lines, with continued ones joined. -/
def logicalLines (bytes : List UInt8) : List (List UInt8) :=
  if bytes.isEmpty then [[]] else joinLines [] (rawLines bytes)

def Catalog.readInput (mode : Overflow) (cat : Catalog) (bytes : List UInt8) : Option Catalog :=
  ((logicalLines bytes).foldlM (fun input line => processLine mode line input)
    ⟨cat, none, .bytes⟩).map Input.catalog

/-- The catalogs that `process_line` calls make of the empty one, with any quote characters and
encodings. -/
inductive Reachable (mode : Overflow) : Catalog → Prop
  | new : Reachable mode Catalog.new
  | line {cat : Catalog} (reached : Reachable mode cat) (line : List UInt8) (quote : Option UInt8)
      (encoding : MessageEncoding) {after : Input}
      (step : processLine mode line ⟨cat, quote, encoding⟩ = some after) :
      Reachable mode after.catalog

variable {mode : Overflow} {cat cat' : Catalog} {number : Nat} {set : MessageSet}
  {f : MessageSet → MessageSet}

/-- What `gencat` reads from its input files is reached line by line. -/
theorem Reachable.readInput {bytes : List UInt8}
    (reached : Reachable mode cat) (h : cat.readInput mode bytes = some cat') :
    Reachable mode cat' := by
  have hlines : ∀ (lines : List (List UInt8)) (input after : Input),
      Reachable mode input.catalog →
      lines.foldlM (fun input line => processLine mode line input) input = some after →
      Reachable mode after.catalog := by
    intro lines
    induction lines with
    | nil =>
      intro input after hinput hfold
      obtain rfl : input = after := by simpa using hfold
      exact hinput
    | cons line lines ih =>
      intro input after hinput hfold
      obtain ⟨next, hnext, hrest⟩ := Option.bind_eq_some_iff.mp hfold
      exact ih next after (hinput.line line input.quote input.encoding hnext) hrest
  obtain ⟨after, hafter, rfl⟩ := Option.map_eq_some_iff.mp h
  exact hlines _ _ after reached hafter

/-! ## What every catalog satisfies -/

structure MessageSet.Valid (set : MessageSet) : Prop where
  number_lt : set.number < 2 ^ 32
  messages_nodup : (set.messages.map Message.number).Nodup
  message_number : ∀ n ∈ set.messages.map Message.number, 0 < n ∧ n < 2 ^ 32

/-- Sets and messages have numbers of their own, and the current set exists. -/
structure Catalog.Valid (cat : Catalog) : Prop where
  sets_nodup : (cat.sets.map MessageSet.number).Nodup
  sets_valid : ∀ set ∈ cat.sets, set.Valid
  current_lt : cat.currentSet < cat.sets.length

theorem parseU32_getD_lt (bytes : List UInt8) : (parseU32 bytes).getD 0 < 2 ^ 32 := by
  unfold parseU32
  dsimp only
  split
  · exact Nat.two_pow_pos 32
  · next h =>
    simp only [Bool.or_eq_true, decide_eq_true_eq, not_or, not_le] at h
    exact h.2

theorem map_number_upsertText (number : Nat) (text : List UInt8) (messages : List Message) :
    (upsertText number text messages).map Message.number =
      if number ∈ messages.map Message.number then messages.map Message.number
      else messages.map Message.number ++ [number] := by
  induction messages with
  | nil => simp [upsertText]
  | cons message rest ih =>
    rw [upsertText]
    by_cases hhead : message.number = number
    · simp [hhead]
    · rw [if_neg hhead, map_cons, ih]
      by_cases hrest : number ∈ rest.map Message.number
      · rw [if_pos hrest, map_cons, if_pos (mem_cons_of_mem _ hrest)]
      · have hnew : number ∉ (message :: rest).map Message.number := by
          rw [map_cons, mem_cons, not_or]
          exact ⟨Ne.symm hhead, hrest⟩
        rw [if_neg hrest, if_neg hnew, map_cons, cons_append]

theorem forall_number_upsertText {p : Nat → Prop} {messages : List Message}
    (h : ∀ n ∈ messages.map Message.number, p n) (hnumber : p number) (text : List UInt8) :
    ∀ n ∈ (upsertText number text messages).map Message.number, p n := by
  rw [map_number_upsertText]
  split
  · exact h
  · exact forall_mem_append.2 ⟨h, forall_mem_singleton.2 hnumber⟩

theorem MessageSet.Valid.of_eq {set' : MessageSet} (h : set.Valid)
    (hnumber : set'.number = set.number) (hmessages : set'.messages = set.messages) :
    set'.Valid where
  number_lt := hnumber ▸ h.number_lt
  messages_nodup := hmessages ▸ h.messages_nodup
  message_number := hmessages ▸ h.message_number

theorem MessageSet.Valid.upsertMessage (h : set.Valid)
    (hpos : 0 < number) (hlt : number < 2 ^ 32) (text : List UInt8) :
    (set.upsertMessage number text).Valid where
  number_lt := h.number_lt
  messages_nodup := by
    simp only [MessageSet.upsertMessage, map_number_upsertText]
    split
    · exact h.messages_nodup
    · next hnew =>
      rw [← concat_eq_append, nodup_concat]
      exact ⟨hnew, h.messages_nodup⟩
  message_number := forall_number_upsertText h.message_number ⟨hpos, hlt⟩ text

theorem forall_mem_modify {α : Type} {p q : α → Prop} {f : α → α} {l : List α}
    (hl : ∀ a ∈ l, p a) (hkeep : ∀ a, p a → q a) (hf : ∀ a, p a → q (f a)) (index : Nat) :
    ∀ a ∈ l.modify index f, q a := by
  intro a ha
  obtain ⟨i, hi⟩ := getElem?_of_mem ha
  rw [getElem?_modify] at hi
  obtain ⟨old, hold, rfl⟩ := Option.map_eq_some_iff.mp hi
  have hp := hl old (mem_of_getElem? hold)
  split
  · exact hf old hp
  · exact hkeep old hp

section

variable (h : cat.Valid) (hvalid : ∀ set, set.Valid → (f set).Valid)
  (hnumber : ∀ set, (f set).number = set.number)
include h hvalid hnumber

theorem Catalog.Valid.modify
    (index : Nat) : Catalog.Valid { cat with sets := cat.sets.modify index f } where
  sets_nodup := by
    have hmap : (cat.sets.modify index f).map MessageSet.number =
        cat.sets.map MessageSet.number := by
      apply ext_getElem?
      intro i
      simp only [getElem?_map, getElem?_modify]
      cases cat.sets[i]? with
      | none => rfl
      | some set =>
        by_cases hi : index = i
        · simp [hi, hnumber]
        · simp [hi]
    rw [hmap]
    exact h.sets_nodup
  sets_valid := forall_mem_modify h.sets_valid (fun _ hset => hset) hvalid index
  current_lt := by
    rw [length_modify]
    exact h.current_lt

theorem Catalog.Valid.modifyCurrent (hcat : cat.modifyCurrent f = some cat') :
    cat'.Valid := by
  rw [Catalog.modifyCurrent, if_pos h.current_lt] at hcat
  cases hcat
  exact h.modify hvalid hnumber cat.currentSet

end

theorem findOrCreateSet_valid
    (hnodup : (cat.sets.map MessageSet.number).Nodup) (hsets : ∀ set ∈ cat.sets, set.Valid)
    {stored : Nat} (hstored : stored < 2 ^ 32) :
    (((cat.findOrCreateSet stored).1.sets).map MessageSet.number).Nodup ∧
      (∀ set ∈ (cat.findOrCreateSet stored).1.sets, set.Valid) ∧
      (cat.findOrCreateSet stored).2 < (cat.findOrCreateSet stored).1.sets.length ∧
      cat.sets.length ≤ (cat.findOrCreateSet stored).1.sets.length ∧
      (cat.findOrCreateSet stored).1.currentSet = cat.currentSet := by
  unfold Catalog.findOrCreateSet
  split
  · next index hindex =>
    exact ⟨hnodup, hsets, (findIdx?_eq_some_iff_getElem.mp hindex).1, le_rfl, rfl⟩
  · next hnone =>
    have hfresh : ∀ set ∈ cat.sets, set.number ≠ stored := by
      simpa [findIdx?_eq_none_iff] using hnone
    refine ⟨?_, ?_, by simp, by simp, rfl⟩
    · rw [map_append, map_singleton, ← concat_eq_append, nodup_concat]
      exact ⟨by simpa using hfresh, hnodup⟩
    · intro set hset
      rcases mem_append.mp hset with hold | hnew
      · exact hsets set hold
      · rw [mem_singleton.mp hnew]
        exact ⟨hstored, nodup_nil, by simp⟩

theorem Catalog.Valid.enterSet (h : cat.Valid) {stored : Nat}
    (hstored : stored < 2 ^ 32) : (cat.enterSet stored).Valid := by
  obtain ⟨hnodup, hsets, hindex, -, -⟩ := findOrCreateSet_valid h.sets_nodup h.sets_valid hstored
  exact ⟨hnodup, hsets, hindex⟩

theorem Catalog.Valid.withLastSet (h : cat.Valid) (lastSet : Nat) :
    Catalog.Valid { cat with lastSet } :=
  { h with }

theorem valid_new : Catalog.new.Valid := by
  have hempty := @findOrCreateSet_valid ⟨[], 0, 0⟩ nodup_nil (by simp) (nlSetd + 1) (by decide)
  exact ⟨hempty.1, hempty.2.1, hempty.2.2.1⟩

section Step

theorem Catalog.Valid.addMessage (h : cat.Valid) (hlt : number < 2 ^ 32)
    {text : List UInt8} (hcat : cat.addMessage number text = some cat') : cat'.Valid := by
  unfold Catalog.addMessage at hcat
  split at hcat
  · cases hcat
    exact h
  · next hpos =>
    exact h.modifyCurrent (fun set hset => hset.upsertMessage (pos_of_ne_zero hpos) hlt text)
      (fun _ => rfl) hcat

variable {value line : List UInt8} {input : Input}

theorem Catalog.Valid.setDirective (h : cat.Valid)
    (hcat : Catgets.setDirective mode value cat = some cat') : cat'.Valid := by
  unfold Catgets.setDirective at hcat
  dsimp only at hcat
  split at hcat
  · cases hcat
    exact h
  split at hcat
  · obtain ⟨stored, hstored, rfl⟩ := Option.map_eq_some_iff.mp hcat
    exact (h.withLastSet _).enterSet (Overflow.settle_lt hstored)
  · obtain ⟨lastSet, -, hrest⟩ := Option.bind_eq_some_iff.mp hcat
    obtain ⟨stored, hstored, rfl⟩ := Option.map_eq_some_iff.mp hrest
    exact (h.withLastSet _).enterSet (Overflow.settle_lt hstored)

theorem Catalog.Valid.delsetDirective (h : cat.Valid)
    (hcat : Catgets.delsetDirective mode value cat = some cat') : cat'.Valid := by
  unfold Catgets.delsetDirective at hcat
  dsimp only at hcat
  split at hcat
  · obtain ⟨stored, hstored, rfl⟩ := Option.map_eq_some_iff.mp hcat
    obtain ⟨hnodup, hsets, -, hlen, hcurrent⟩ :=
      findOrCreateSet_valid h.sets_nodup h.sets_valid (Overflow.settle_lt hstored)
    have hcur : (cat.findOrCreateSet stored).1.Valid :=
      ⟨hnodup, hsets, by rw [hcurrent]; exact lt_of_lt_of_le h.current_lt hlen⟩
    exact hcur.modify (f := fun set => { set with deleted := true })
      (fun set hset => hset.of_eq rfl rfl) (fun _ => rfl) _
  · cases hcat
    exact h

theorem Catalog.Valid.messageLine (h : input.catalog.Valid)
    (hcat : Catgets.messageLine mode line input = some cat') : cat'.Valid := by
  unfold Catgets.messageLine at hcat
  dsimp only at hcat
  split at hcat
  · exact h.addMessage (parseU32_getD_lt _) hcat
  · obtain ⟨set, -, hset⟩ := Option.bind_eq_some_iff.mp hcat
    obtain ⟨number, hnumber, hnext⟩ := Option.bind_eq_some_iff.mp hset
    obtain ⟨counted, hcounted, hadd⟩ := Option.bind_eq_some_iff.mp hnext
    have hvalid : counted.Valid :=
      h.modifyCurrent (f := fun set => { set with lastMessage := number })
        (fun set hset => hset.of_eq rfl rfl) (fun _ => rfl) hcounted
    exact hvalid.addMessage (Overflow.settle_lt hnumber) hadd

theorem Catalog.Valid.processLine {after : Input}
    (h : input.catalog.Valid) (hafter : Catgets.processLine mode line input = some after) :
    after.catalog.Valid := by
  cases line with
  | nil =>
    cases hafter
    exact h
  | cons first rest =>
    simp only [Catgets.processLine] at hafter
    split at hafter
    · unfold processDirective at hafter
      split at hafter
      · cases hafter
        exact h
      split at hafter
      · obtain ⟨cat, hcat, rfl⟩ := Option.map_eq_some_iff.mp hafter
        exact h.setDirective hcat
      split at hafter
      · obtain ⟨cat, hcat, rfl⟩ := Option.map_eq_some_iff.mp hafter
        exact h.delsetDirective hcat
      split at hafter <;>
      · cases hafter
        exact h
    · split at hafter
      · obtain ⟨cat, hcat, rfl⟩ := Option.map_eq_some_iff.mp hafter
        exact h.messageLine hcat
      · cases hafter
        exact h

end Step

/-- **Every catalog is valid**, whatever lines it was made from. -/
theorem Reachable.valid (reached : Reachable mode cat) :
    cat.Valid := by
  induction reached with
  | new => exact valid_new
  | line _ line quote encoding step ih => exact Catalog.Valid.processLine ih step

end SafeLibc.Catgets
