import SafeLibc.Lib.Runs
import SafeLibc.Resolv.Name

/-!
# The reverse-lookup response validator

`validate_reverse_ptr_response` walks a whole DNS response and classifies it by the first PTR record
of class IN in its answer section; `dns_response_is_well_formed` is its negative reading.
`IsResponse` says what a well-formed response is.

The validator stops at the first PTR answer and adds the last two counts with saturation, so the two
differ.
-/

namespace SafeLibc.Resolv

open SafeLibc.Lib

/-! ## The validator -/

def readU16At (message : List UInt8) (offset : Nat) : Option Nat := do
  let hi ← message[offset]?
  let lo ← message[← checkedAdd 64 offset 1]?
  some (hi.toNat * 256 + lo.toNat)

def questionEnd (message : List UInt8) (cursor : Nat) : Option Nat := do
  let cursor ← skipDnsNameField message cursor
  let cursor ← checkedAdd 64 cursor dnsQFixedLen
  if cursor > message.length then none else some cursor

def skipDnsHeaderAndQuestions (message : List UInt8) : Option Nat :=
  if message.length < dnsHeaderLen then none
  else do
    let questionCount ← readU16At message 4
    stepN (questionEnd message) questionCount dnsHeaderLen

structure ResourceRecord where
  next : Nat
  rrType : Nat
  rrClass : Nat
  rdataStart : Nat
  rdataEnd : Nat
  deriving DecidableEq, Repr

def parseResourceRecord (message : List UInt8) (offset : Nat) : Option ResourceRecord := do
  let «metadata» ← skipDnsNameField message offset
  let rrType ← readU16At message «metadata»
  let rrClass ← readU16At message (← checkedAdd 64 «metadata» 2)
  let rdlen ← readU16At message (← checkedAdd 64 «metadata» 8)
  let rdataStart ← checkedAdd 64 «metadata» dnsRrFixedLen
  let rdataEnd ← checkedAdd 64 rdataStart rdlen
  if rdataEnd > message.length then none
  else some ⟨rdataEnd, rrType, rrClass, rdataStart, rdataEnd⟩

inductive ReversePtrResponseStatus
  | validPtrAnswer
  | noPtrAnswer
  | invalidPtrName
  | malformedMessage
  deriving DecidableEq, Repr

def ResourceRecord.isPtrAnswer (rr : ResourceRecord) : Bool :=
  rr.rrType == dnsTypePtr && rr.rrClass == dnsClassIn

/-- The verdict on the RDATA of the first PTR answer. -/
def ptrStatus (message : List UInt8) (rr : ResourceRecord) : ReversePtrResponseStatus :=
  match validateHostnameNameField message rr.rdataStart rr.rdataEnd 0 with
  | some stop => if stop = rr.rdataEnd then .validPtrAnswer else .malformedMessage
  | none => .invalidPtrName

/-- The answer loop: it returns from the function (`error`) or leaves the cursor after the last
answer. -/
def scanAnswers (message : List UInt8) : Nat → Nat → Except ReversePtrResponseStatus Nat
  | 0, cursor => .ok cursor
  | n + 1, cursor =>
    match parseResourceRecord message cursor with
    | none => .error .malformedMessage
    | some rr =>
      if rr.isPtrAnswer then .error (ptrStatus message rr) else scanAnswers message n rr.next

/-- The end of the record at `cursor`: one turn of the authority and additional loop. -/
def recordEnd (message : List UInt8) (cursor : Nat) : Option Nat :=
  (parseResourceRecord message cursor).map ResourceRecord.next

def validateReversePtrResponse (message : List UInt8) : ReversePtrResponseStatus :=
  match skipDnsHeaderAndQuestions message, readU16At message 6, readU16At message 8,
      readU16At message 10 with
  | some cursor, some answerCount, some authorityCount, some additionalCount =>
    match scanAnswers message answerCount cursor with
    | .error status => status
    | .ok cursor =>
      match stepN (recordEnd message) (saturatingAdd 16 authorityCount additionalCount) cursor with
      | none => .malformedMessage
      | some cursor => if cursor = message.length then .noPtrAnswer else .malformedMessage
  | _, _, _, _ => .malformedMessage

def dnsResponseIsWellFormed (message : List UInt8) : Bool :=
  validateReversePtrResponse message != .malformedMessage

/-! ## Well-formed responses -/

def headerCount (message : List UInt8) (offset : Nat) : Nat :=
  (readU16At message offset).getD 0

def trailerCount (message : List UInt8) : Nat :=
  headerCount message 8 + headerCount message 10

/-- A header and `QDCOUNT` questions, ending at `body`. -/
def QuestionsEnd (message : List UInt8) (body : Nat) : Prop :=
  dnsHeaderLen ≤ message.length ∧
    stepN (questionEnd message) (headerCount message 4) dnsHeaderLen = some body

/-- A header, `QDCOUNT` questions and `ANCOUNT + NSCOUNT + ARCOUNT` records up to the end. -/
def IsResponse (message : List UInt8) : Prop :=
  ∃ body, QuestionsEnd message body ∧
    stepN (recordEnd message) (headerCount message 6 + trailerCount message) body =
      some message.length

/-- The first PTR record of class IN among `n` records from `cursor`, with the number of records
that follow it. -/
def firstPtr (message : List UInt8) : Nat → Nat → Option (ResourceRecord × Nat)
  | 0, _ => none
  | n + 1, cursor =>
    match parseResourceRecord message cursor with
    | none => none
    | some rr => if rr.isPtrAnswer then some (rr, n) else firstPtr message n rr.next

/-- What the answer loop does, in terms of the first PTR answer. -/
theorem scanAnswers_eq (message : List UInt8) (n cursor : Nat) :
    scanAnswers message n cursor =
      match firstPtr message n cursor with
      | some (rr, _) => .error (ptrStatus message rr)
      | none =>
        match stepN (recordEnd message) n cursor with
        | some stop => .ok stop
        | none => .error .malformedMessage := by
  induction n generalizing cursor with
  | zero => rfl
  | succ n ih =>
    simp only [scanAnswers, firstPtr, stepN_succ, recordEnd]
    rcases parseResourceRecord message cursor with - | rr
    · rfl
    · by_cases hptr : rr.isPtrAnswer = true
      · simp only [hptr, ↓reduceIte]
      · simp only [hptr, Bool.false_eq_true, Option.map_some]
        exact ih rr.next

variable {message : List UInt8} {n body : Nat} {rr : ResourceRecord}

theorem stepN_of_firstPtr {cursor left : Nat} (h : firstPtr message n cursor = some (rr, left))
    (k : Nat) :
    stepN (recordEnd message) (n + k) cursor = stepN (recordEnd message) (left + k) rr.next := by
  induction n generalizing cursor with
  | zero => cases h
  | succ n ih =>
    simp only [firstPtr] at h
    rw [Nat.succ_add, stepN_succ, recordEnd]
    split at h
    · cases h
    · next rr' hparse =>
      rw [hparse, Option.map_some]
      split at h
      · cases h
        rfl
      · exact ih h

theorem skipDnsNameField_lt {offset k : Nat} (h : skipDnsNameField message offset = some k) :
    offset < message.length := by
  unfold skipDnsNameField at h
  by_contra hlt
  rw [walkLabels, if_pos (by omega)] at h
  cases h

theorem recordEnd_length (message : List UInt8) : recordEnd message message.length = none := by
  rw [recordEnd, parseResourceRecord]
  rcases h : skipDnsNameField message message.length with - | k
  · rfl
  · exact absurd (skipDnsNameField_lt h) (lt_irrefl _)

theorem readU16At_of_lt (message : List UInt8) (offset : Nat) (h : offset + 1 < message.length)
    (hoff : offset < 16) : readU16At message offset = some (headerCount message offset) := by
  have hadd : checkedAdd 64 offset 1 = some (offset + 1) :=
    checkedAdd_eq_some.2 ⟨rfl, by omega⟩
  have hhi : message[offset]? = some message[offset] := List.getElem?_eq_getElem (by omega)
  have hlo : message[offset + 1]? = some message[offset + 1] := List.getElem?_eq_getElem h
  simp [headerCount, readU16At, hadd, hhi, hlo]

theorem skipDnsHeaderAndQuestions_eq_some :
    skipDnsHeaderAndQuestions message = some body ↔ QuestionsEnd message body := by
  unfold skipDnsHeaderAndQuestions QuestionsEnd
  by_cases hlen : message.length < dnsHeaderLen
  · simp [not_le.2 hlen]
  · have hle : dnsHeaderLen ≤ message.length := not_lt.1 hlen
    have hread := readU16At_of_lt message 4 (by simp only [dnsHeaderLen] at hle; omega) (by omega)
    simp [hle, hread]

/-- The RDATA of a PTR record is a whole name or no host name at all: not a host name followed by
further bytes. -/
def PtrRdataWhole (message : List UInt8) (rr : ResourceRecord) : Prop :=
  ∀ stop, validateHostnameNameField message rr.rdataStart rr.rdataEnd 0 = some stop →
    stop = rr.rdataEnd

theorem ptrStatus_ne_malformed :
    ptrStatus message rr ≠ .malformedMessage ↔ PtrRdataWhole message rr := by
  unfold ptrStatus PtrRdataWhole
  split
  · next stop h =>
    split
    · next hstop => simp [h, hstop]
    · next hstop => simp [h, hstop]
  · next h => simp [h]

/-- The validator on a message whose header and questions end at `body`. -/
theorem dnsResponseIsWellFormed_of_body (hbody : QuestionsEnd message body) :
    dnsResponseIsWellFormed message = true ↔
      match firstPtr message (headerCount message 6) body with
      | some (rr, _) => PtrRdataWhole message rr
      | none => ∃ stop, stepN (recordEnd message) (headerCount message 6) body = some stop ∧
          stepN (recordEnd message) (min (trailerCount message) 65535) stop =
            some message.length := by
  have hlen : dnsHeaderLen ≤ message.length := hbody.1
  simp only [dnsHeaderLen] at hlen
  unfold dnsResponseIsWellFormed validateReversePtrResponse
  rw [skipDnsHeaderAndQuestions_eq_some.2 hbody, readU16At_of_lt message 6 (by omega) (by omega),
    readU16At_of_lt message 8 (by omega) (by omega),
    readU16At_of_lt message 10 (by omega) (by omega)]
  simp only [scanAnswers_eq, bne_iff_ne]
  rcases firstPtr message (headerCount message 6) body with - | ⟨rr, left⟩
  · have hsat : saturatingAdd 16 (headerCount message 8) (headerCount message 10) =
        min (trailerCount message) 65535 := rfl
    rcases stepN (recordEnd message) (headerCount message 6) body with - | stop
    · simp
    · simp only [hsat, Option.some.injEq, exists_eq_left']
      rcases stepN (recordEnd message) (min (trailerCount message) 65535) stop with - | last
      · simp
      · by_cases hlast : last = message.length <;> simp [hlast]
  · exact ptrStatus_ne_malformed

/-! ## Where the validator and well-formedness agree -/

/-- With a PTR answer in reach, the verdict on its RDATA has to match what the unread rest of the
message is; without one, the two trailing counts must not exceed 65535 together, unless the records
end with the message neither at the saturated nor at the true count. -/
def AgreesOn (message : List UInt8) (body : Nat) : Prop :=
  match firstPtr message (headerCount message 6) body with
  | some (rr, left) => PtrRdataWhole message rr ↔
      stepN (recordEnd message) (left + trailerCount message) rr.next = some message.length
  | none => trailerCount message ≤ 65535 ∨
      ∀ stop, stepN (recordEnd message) (headerCount message 6) body = some stop →
        stepN (recordEnd message) 65535 stop ≠ some message.length ∧
        stepN (recordEnd message) (trailerCount message) stop ≠ some message.length

theorem questionsEnd_unique {b b' : Nat} (h : QuestionsEnd message b)
    (h' : QuestionsEnd message b') : b = b' :=
  Option.some.inj (h.2.symm.trans h'.2)

/-- Records that end with the message do so at one count only. -/
theorem stepN_length_unique {m stop : Nat}
    (hm : stepN (recordEnd message) m stop = some message.length)
    (hn : stepN (recordEnd message) n stop = some message.length) (hle : m ≤ n) : m = n := by
  obtain ⟨k, rfl⟩ := Nat.exists_eq_add_of_le hle
  rw [stepN_add, hm] at hn
  rw [stepN_eq_some_of_none _ (recordEnd_length message) hn, add_zero]

/-- The saturated count gives the verdict of the true one exactly when it is the true one or both
verdicts are negative. -/
theorem saturated_agrees_iff (message : List UInt8) (stop : Nat) :
    (stepN (recordEnd message) (min (trailerCount message) 65535) stop = some message.length ↔
      stepN (recordEnd message) (trailerCount message) stop = some message.length) ↔
    trailerCount message ≤ 65535 ∨
      stepN (recordEnd message) 65535 stop ≠ some message.length ∧
      stepN (recordEnd message) (trailerCount message) stop ≠ some message.length := by
  by_cases hle : trailerCount message ≤ 65535
  · simp [hle]
  · rw [min_eq_right (by omega)]
    simp only [hle, false_or]
    constructor
    · intro h
      have hboth : ¬ stepN (recordEnd message) 65535 stop = some message.length := fun h65535 =>
        hle (le_of_eq (stepN_length_unique h65535 (h.1 h65535) (by omega)).symm)
      exact ⟨hboth, fun h' => hboth (h.2 h')⟩
    · rintro ⟨h₁, h₂⟩
      exact iff_of_false h₁ h₂

/-- **The validator decides well-formedness exactly on the messages described by `AgreesOn`.** -/
theorem dnsResponseIsWellFormed_iff (message : List UInt8) :
    (dnsResponseIsWellFormed message = true ↔ IsResponse message) ↔
      ∀ body, QuestionsEnd message body → AgreesOn message body := by
  by_cases hbody : ∃ body, QuestionsEnd message body
  · obtain ⟨body, hbody⟩ := hbody
    have hall : (∀ b, QuestionsEnd message b → AgreesOn message b) ↔ AgreesOn message body :=
      ⟨fun h => h body hbody, fun h b hb => questionsEnd_unique hbody hb ▸ h⟩
    have hresp : IsResponse message ↔
        stepN (recordEnd message) (headerCount message 6 + trailerCount message) body =
          some message.length :=
      ⟨fun ⟨b, hb, h⟩ => questionsEnd_unique hb hbody ▸ h, fun h => ⟨body, hbody, h⟩⟩
    rw [hall, hresp, dnsResponseIsWellFormed_of_body hbody]
    unfold AgreesOn
    rcases hptr : firstPtr message (headerCount message 6) body with - | ⟨rr, left⟩
    · rw [stepN_add]
      rcases stepN (recordEnd message) (headerCount message 6) body with - | stop
      · simp
      · simpa using saturated_agrees_iff message stop
    · simp only [stepN_of_firstPtr hptr]
  · have hskip : skipDnsHeaderAndQuestions message = none := by
      rw [Option.eq_none_iff_forall_ne_some]
      exact fun body h => hbody ⟨body, skipDnsHeaderAndQuestions_eq_some.1 h⟩
    have hcode : ¬ dnsResponseIsWellFormed message = true := by
      simp [dnsResponseIsWellFormed, validateReversePtrResponse, hskip]
    exact iff_of_true (iff_of_false hcode fun ⟨body, hb, _⟩ => hbody ⟨body, hb⟩)
      fun body hb => absurd ⟨body, hb⟩ hbody

/-- One answer, a PTR record naming the root, and a stray byte after it. -/
def trailingByteMessage : List UInt8 :=
  [0, 0, 0, 0, 0, 0, 0, 1, 0, 0, 0, 0] ++ [0, 0, 12, 0, 1, 0, 0, 0, 0, 0, 1, 0] ++ [255]

/-- The early return accepts the stray byte. -/
theorem dnsResponseIsWellFormed_trailingByte :
    ¬ (dnsResponseIsWellFormed trailingByteMessage = true ↔ IsResponse trailingByteMessage) := by
  intro h
  obtain ⟨body, hbody, hrecords⟩ := h.1 (by decide +kernel)
  have hbody12 : QuestionsEnd trailingByteMessage 12 := ⟨by decide, by decide +kernel⟩
  rw [questionsEnd_unique hbody hbody12] at hrecords
  revert hrecords
  decide +kernel

end SafeLibc.Resolv
