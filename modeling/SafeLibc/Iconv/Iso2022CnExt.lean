import SafeLibc.Lib.Bytes

/-!
# ISO-2022-CN-EXT: the output of the encoder

The `to` direction of `iconvdata/iso-2022-cn-ext.c` in the loop of `iconv/loop.c`. A character may
need a designation (an escape sequence that announces a character set), a shift and two bytes, each
with a check of its own. The model keeps every store with its address, also those of a
transliteration that is given up, and lets it run in any state, over any conversion tables.

`Stage.Inside` is what each part of `BODY` preserves: after its check, its stores are below
`outend`. The invariant of a whole run is `toLoop_inside`.
-/

namespace SafeLibc.Iconv.Iso2022CnExt

open SafeLibc.Lib

/-! ## Character sets and states -/

/-- An `int`. -/
abbrev Word := BitVec 32

def asciiSet : Word := 0
def gb2312Set : Word := 1
def cns11643Set1 : Word := 3
def isoIr165Set : Word := 4
def soMask : Word := 7
def cns11643Set2 : Word := 3 <<< 3
def ss2Mask : Word := 3 <<< 3
def cns11643Set3 : Word := 3 <<< 5
def cns11643Set7 : Word := 7 <<< 5
def ss3Mask : Word := 7 <<< 5
def currentMask : Word := soMask ||| ss2Mask ||| ss3Mask

def cns11643Ann1 : Word := 3 <<< 8
def isoIr165Ann : Word := 4 <<< 8
def soAnn : Word := 7 <<< 8
def ss2Ann : Word := 3 <<< 11
def ss3Ann : Word := 7 <<< 13

def esc : UInt8 := 0x1b
def si : UInt8 := 0x0f
def so : UInt8 := 0x0e
def ss2Shift : List UInt8 := [esc, 0x4e]
def ss3Shift : List UInt8 := [esc, 0x4f]

/-- The conversion tables; `none` is `__UNKNOWN_10646_CHAR`, and the last one gives the plane. -/
structure Tables where
  ucs4ToGb2312 : UInt32 → Option (Nat × UInt8 × UInt8)
  ucs4ToIsoir165 : UInt32 → Option (Nat × UInt8 × UInt8)
  ucs4ToCns11643l1 : UInt32 → Option (Nat × UInt8 × UInt8)
  ucs4ToCns11643l2 : UInt32 → Option (Nat × UInt8 × UInt8)
  ucs4ToCns11643 : UInt32 → Option (Nat × UInt8 × UInt8 × UInt8)

structure Loop where
  set : Word
  ann : Word
  outptr : Nat
  stores : List (Nat × UInt8)

/-- `*outptr++ = b` -/
def Loop.store (s : Loop) (b : UInt8) : Loop :=
  { s with outptr := s.outptr + 1, stores := s.stores ++ [(s.outptr, b)] }

def Loop.emit (s : Loop) (bytes : List UInt8) : Loop := bytes.foldl Loop.store s

/-- `INIT_PARAMS` -/
def Loop.init (setp : Word) (outptr : Nat) (stores : List (Nat × UInt8)) : Loop :=
  ⟨setp.sshiftRight 3 &&& currentMask, setp.sshiftRight 3 &&& ~~~currentMask, outptr, stores⟩

/-- `UPDATE_PARAMS` -/
def Loop.setp (s : Loop) : Word := (s.set ||| s.ann) <<< 3

inductive GconvResult
  | ok
  | emptyInput
  | fullOutput
  | illegalInput
  | incompleteInput
  /-- An assertion or `abort ()`. -/
  | aborted
  deriving DecidableEq, Repr

/-! ## One character -/

/-- The set of the character and its bytes: the current SO set, the SS2 set, another SO set, an SS3
set, in this order. -/
def select (tables : Tables) (s : Loop) (ch : UInt32) : Option (Word × Nat × UInt8 × UInt8) :=
  let current : Word × Option (Nat × UInt8 × UInt8) :=
    if s.set = gb2312Set ∨ (s.ann &&& soAnn ≠ cns11643Ann1 ∧ s.ann &&& soAnn ≠ isoIr165Ann) then
      (gb2312Set, tables.ucs4ToGb2312 ch)
    -- the announcement is compared with the number of the set here
    else if s.set = isoIr165Set ∨ s.ann &&& soAnn = isoIr165Set then
      (isoIr165Set, tables.ucs4ToIsoir165 ch)
    else (cns11643Set1, tables.ucs4ToCns11643l1 ch)
  let another (used : Word) (found : Option (Nat × UInt8 × UInt8)) :=
    if current.1 ≠ used then found.map fun r => (used, r) else none
  match current.2 with
  | some found => some (current.1, found)
  | none =>
    match tables.ucs4ToCns11643l2 ch with
    | some found => some (cns11643Set2, found)
    | none =>
      another gb2312Set (tables.ucs4ToGb2312 ch) <|>
        another isoIr165Set (tables.ucs4ToIsoir165 ch) <|>
        another cns11643Set1 (tables.ucs4ToCns11643l1 ch) <|>
        match tables.ucs4ToCns11643 ch with
        | some (written, plane, b0, b1) =>
          if written = 3 ∧ 3 ≤ plane ∧ plane ≤ 7 then
            some (BitVec.ofNat 32 plane.toNat <<< 5, 2, b0, b1)
          else none
        | none => none

inductive Stage
  | go (s : Loop)
  | leave (result : GconvResult) (s : Loop)

def Stage.andThen (stage : Stage) (next : Loop → Stage) : Stage :=
  match stage with
  | .go s => next s
  | .leave result s => .leave result s

/-- `if (outptr + n > outend) { result = __GCONV_FULL_OUTPUT; break; }` -/
def checkRoom (outend n : Nat) (s : Loop) : Stage :=
  if s.outptr + n > outend then .leave .fullOutput s else .go s

/-- Write an escape sequence; `final` has its last two bytes, or is out of range, which an assertion
excludes. -/
def announce (outend : Nat) (final : Option (List UInt8)) (ann : Word) (s : Loop) : Stage :=
  (checkRoom outend 4 s).andThen fun s =>
    match final with
    | some [c, d] => .go { s.emit [esc, byte '$', c, d] with ann }
    | _ => .leave .aborted s

def escseq (pairs : List UInt8) (index : Nat) : List UInt8 := (pairs.drop (2 * index)).take 2

/-- The designation, where the set has not been announced on this line. -/
def designate (outend : Nat) (used : Word) (s : Loop) : Stage :=
  if used &&& soMask ≠ 0 ∧ s.ann &&& soAnn ≠ used <<< 8 then
    announce outend
      (if 1 ≤ used.toNat ∧ used.toNat ≤ 4 then
        some (escseq [byte ')', byte 'A', 0, 0, byte ')', byte 'G', byte ')', byte 'E']
          (used.toNat - 1))
      else none)
      ((s.ann &&& ~~~soAnn) ||| used <<< 8) s
  else if used &&& ss2Mask ≠ 0 ∧ s.ann &&& ss2Ann ≠ used <<< 8 then
    announce outend (if used = cns11643Set2 then some [byte '*', byte 'H'] else none)
      ((s.ann &&& ~~~ss2Ann) ||| used <<< 8) s
  else if used &&& ss3Mask ≠ 0 ∧ s.ann &&& ss3Ann ≠ used <<< 8 then
    announce outend
      (if 3 ≤ (used >>> 5).toNat ∧ (used >>> 5).toNat ≤ 7 then
        some (escseq [byte '+', byte 'I', byte '+', byte 'J', byte '+', byte 'K', byte '+',
          byte 'L', byte '+', byte 'M'] ((used >>> 5).toNat - 3))
      else none)
      ((s.ann &&& ~~~ss3Ann) ||| used <<< 8) s
  else .go s

def shift (outend : Nat) (used : Word) (s : Loop) : Stage :=
  if used = cns11643Set2 then
    (checkRoom outend 2 s).andThen fun s => .go (s.emit ss2Shift)
  else if cns11643Set3.toNat ≤ used.toNat ∧ used.toNat ≤ cns11643Set7.toNat then
    (checkRoom outend 2 s).andThen fun s => .go (s.emit ss3Shift)
  else if s.set = asciiSet then
    (checkRoom outend 1 s).andThen fun s => .go (s.emit [so])
  else .go s

def writeChar (outend : Nat) (used : Word) (b0 b1 : UInt8) (s : Loop) : Stage :=
  let prepared :=
    if s.set ≠ used then (designate outend used s).andThen (shift outend used) else .go s
  (prepared.andThen (checkRoom outend 2)).andThen fun s =>
    .go { s.emit [b0, b1] with set := used }

/-- The shift back to ASCII; the loop has made sure of its byte. -/
def shiftIn (outend : Nat) (s : Loop) : Stage :=
  if s.set ≠ asciiSet then
    let s := { s.emit [si] with set := asciiSet }
    if s.outptr = outend then .leave .fullOutput s else .go s
  else .go s

def writeAscii (outend : Nat) (ch : UInt32) (s : Loop) : Stage :=
  (shiftIn outend s).andThen fun s =>
    let s := s.emit [ch.toUInt8]
    .go (if ch = 10 then { s with ann := 0 } else s)

/-- How `BODY` treats a character: it is converted, or it is in none of the sets. -/
def body (tables : Tables) (outend : Nat) (ch : UInt32) (s : Loop) : Option Stage :=
  if ch < 0x80 then some (writeAscii outend ch s)
  else
    match select tables s ch with
    | none => if ch >>> 7 = (0xe0000 : UInt32) >>> 7 then some (.go s) else none
    | some (used, written, b0, b1) =>
      if written = 2 then some (writeChar outend used b0 b1 s) else some (.leave .aborted s)

/-! ## The loop -/

section Run

variable (tables : Tables) (outend : Nat)

def plainLoop : List UInt32 → Loop → GconvResult × Loop
  | [], s => (.emptyInput, s)
  | ch :: rest, s =>
    if s.outptr ≥ outend then (.fullOutput, s)
    else
      match body tables outend ch s with
      | some (.go s) => plainLoop rest s
      | some (.leave result s) => (result, s)
      | none => (.illegalInput, s)

/-- What the locale has for the characters that are left: the replacement texts that are tried, each
with the number of characters it replaces; whether the search ends at a longer entry; which
characters are ignored; and the default replacement. -/
structure Translit where
  replacements : List UInt32 → List (List UInt32 × Nat)
  incomplete : List UInt32 → Bool
  ignored : UInt32 → Bool
  defaultMissing : Option (List UInt32)

/-- A call of the step function from `__gconv_transliterate`, which starts and ends in the stored
state. -/
def convertText (text : List UInt32) (s : Loop) : GconvResult × Loop :=
  let called := plainLoop tables outend text (.init s.setp s.outptr s.stores)
  (called.1, .init called.2.setp called.2.outptr called.2.stores)

def tryReplacements : List (List UInt32 × Nat) → Loop → Option (GconvResult × Nat) × Loop
  | [], s => (none, s)
  | (text, count) :: more, s =>
    let called := convertText tables outend text s
    match called.1 with
    | .illegalInput => tryReplacements more { called.2 with outptr := s.outptr }
    | .emptyInput => (some (.ok, count), called.2)
    | .fullOutput => (some (.fullOutput, 0), { called.2 with outptr := s.outptr })
    | result => (some (result, 0), called.2)

/-- `__gconv_transliterate`: the result and the number of characters that were read. -/
def transliterate (locale : Translit) (input : List UInt32) (s : Loop) :
    (GconvResult × Nat) × Loop :=
  match tryReplacements tables outend (locale.replacements input) s with
  | (some found, s) => (found, s)
  | (none, s) =>
    if locale.incomplete input then ((.incompleteInput, 0), s)
    else if input.head?.any locale.ignored then ((.ok, 1), s)
    else
      match locale.defaultMissing with
      | none => ((.illegalInput, 0), s)
      | some text =>
        let called := convertText tables outend text s
        match called.1 with
        | .illegalInput => ((.illegalInput, 0), { called.2 with outptr := s.outptr })
        | .emptyInput => ((.ok, 1), called.2)
        | result => ((result, 0), called.2)

structure Flags where
  translit : Bool
  ignoreErrors : Bool

/-- `STANDARD_TO_LOOP_ERR_HANDLER`: what is left of the input, or `none` to stop. -/
def handleError (locale : Translit) (flags : Flags) (input : List UInt32) (s : Loop) :
    Option (List UInt32) × Loop :=
  let called :=
    if flags.translit then transliterate tables outend locale input s
    else ((.illegalInput, 0), .init s.setp s.outptr s.stores)
  match called.1.1 with
  | .illegalInput => (if flags.ignoreErrors then some (input.drop 1) else none, called.2)
  | .fullOutput => (none, called.2)
  | .aborted => (none, called.2)
  | _ => (some (input.drop called.1.2), called.2)

def toLoop (locale : Translit) (flags : Flags) : Nat → List UInt32 → Loop → Loop
  | 0, _, s => s
  | _ + 1, [], s => s
  | fuel + 1, ch :: rest, s =>
    if s.outptr ≥ outend then s
    else
      match body tables outend ch s with
      | some (.go s) => toLoop locale flags fuel rest s
      | some (.leave _ s) => s
      | none =>
        match handleError tables outend locale flags (ch :: rest) s with
        | (some left, s) => toLoop locale flags fuel left s
        | (none, s) => s

end Run

/-! ## Stores are inside the buffer -/

structure Loop.Inside (start outend : Nat) (s : Loop) : Prop where
  start_le : start ≤ s.outptr
  stores_lt : ∀ store ∈ s.stores, start ≤ store.1 ∧ store.1 < outend

def Stage.Inside (start outend : Nat) : Stage → Prop
  | .go s => s.Inside start outend
  | .leave _ s => s.Inside start outend

section Inside

variable {start outend : Nat}

variable {s s' : Loop} {stage : Stage} {next : Loop → Stage}

theorem Loop.Inside.store (h : s.Inside start outend) (hroom : s.outptr < outend) (b : UInt8) :
    (s.store b).Inside start outend := by
  have hstart := h.start_le
  refine ⟨by simp only [Loop.store]; omega, ?_⟩
  intro p hp
  rcases List.mem_append.1 hp with hold | hnew
  · exact h.stores_lt p hold
  · rw [List.mem_singleton.1 hnew]
    exact ⟨hstart, hroom⟩

/-- **A write after its check**: all bytes are below `outend` when there is room for all. -/
theorem Loop.Inside.emit (h : s.Inside start outend) (bytes : List UInt8)
    (hroom : s.outptr + bytes.length ≤ outend) : (s.emit bytes).Inside start outend := by
  induction bytes generalizing s with
  | nil => exact h
  | cons b bytes ih =>
    rw [List.length_cons] at hroom
    apply ih (h.store (by omega) b)
    simp only [Loop.store]
    omega

theorem Stage.Inside.andThen (h : stage.Inside start outend)
    (hnext : ∀ s, stage = .go s → s.Inside start outend → (next s).Inside start outend) :
    (stage.andThen next).Inside start outend := by
  cases stage with
  | go s => exact hnext s rfl h
  | leave result s => exact h

section

variable (h : s.Inside start outend)

include h

theorem inside_checkRoom {n : Nat} (hnext : s.outptr + n ≤ outend → (next s).Inside start outend) :
    ((checkRoom outend n s).andThen next).Inside start outend := by
  unfold checkRoom
  split
  · exact h
  · exact hnext (by omega)

theorem inside_announce (final : Option (List UInt8)) (ann : Word) :
    (announce outend final ann s).Inside start outend := by
  apply inside_checkRoom h
  intro hroom
  split
  · next c d =>
    have hemit := h.emit [esc, byte '$', c, d] hroom
    exact ⟨hemit.start_le, hemit.stores_lt⟩
  · exact h

variable (used : Word)

theorem inside_designate : (designate outend used s).Inside start outend := by
  unfold designate
  split
  · exact inside_announce h _ _
  split
  · exact inside_announce h _ _
  split
  · exact inside_announce h _ _
  · exact h

theorem inside_shift : (shift outend used s).Inside start outend := by
  unfold shift
  split
  · apply inside_checkRoom h
    intro hroom
    exact h.emit _ hroom
  split
  · apply inside_checkRoom h
    intro hroom
    exact h.emit _ hroom
  split
  · apply inside_checkRoom h
    intro hroom
    exact h.emit _ hroom
  · exact h

theorem inside_writeChar (b0 b1 : UInt8) :
    (writeChar outend used b0 b1 s).Inside start outend := by
  have hprepared : Stage.Inside start outend
      (if s.set ≠ used then (designate outend used s).andThen (shift outend used) else .go s) := by
    split
    · apply (inside_designate h used).andThen
      intro s' _ hs'
      exact inside_shift hs' used
    · exact h
  unfold writeChar
  -- the last check is made in every case, right before the two bytes
  cases hstage : if s.set ≠ used then (designate outend used s).andThen (shift outend used)
    else .go s with
  | leave result s' =>
    rw [hstage] at hprepared
    exact hprepared
  | go s' =>
    rw [hstage] at hprepared
    apply inside_checkRoom hprepared
    intro hroom
    have hemit := Loop.Inside.emit hprepared [b0, b1] hroom
    exact ⟨hemit.start_le, hemit.stores_lt⟩

theorem inside_shiftIn (hroom : s.outptr < outend) : (shiftIn outend s).Inside start outend := by
  unfold shiftIn
  split
  · have hemit := h.emit [si] hroom
    dsimp only
    split
    · exact ⟨hemit.start_le, hemit.stores_lt⟩
    · exact ⟨hemit.start_le, hemit.stores_lt⟩
  · exact h

end

theorem lt_of_shiftIn (hroom : s.outptr < outend) (hgo : shiftIn outend s = .go s') :
    s'.outptr < outend := by
  unfold shiftIn at hgo
  split at hgo
  · dsimp only at hgo
    split at hgo
    · cases hgo
    · next hfull =>
      cases hgo
      have hptr : (s.emit [si]).outptr = s.outptr + 1 := rfl
      dsimp only
      omega
  · cases hgo
    exact hroom

theorem inside_writeAscii (h : s.Inside start outend) (hroom : s.outptr < outend) (ch : UInt32) :
    (writeAscii outend ch s).Inside start outend := by
  apply (inside_shiftIn h hroom).andThen
  intro s' hs' hinside
  have hemit := hinside.emit [ch.toUInt8] (lt_of_shiftIn hroom hs')
  split
  · exact ⟨hemit.start_le, hemit.stores_lt⟩
  · exact hemit

variable (tables : Tables)

/-- **One character**: every part that is written is covered by its check. -/
theorem inside_body (h : s.Inside start outend) (hroom : s.outptr < outend)
    {ch : UInt32} (hstage : body tables outend ch s = some stage) : stage.Inside start outend := by
  unfold body at hstage
  split at hstage
  · cases hstage
    exact inside_writeAscii h hroom ch
  split at hstage
  · split at hstage
    · cases hstage
      exact h
    · cases hstage
  · split at hstage
    · cases hstage
      exact inside_writeChar h _ _ _
    · cases hstage
      exact h

variable (text : List UInt32) (locale : Translit)

theorem inside_plainLoop (h : s.Inside start outend) :
    (plainLoop tables outend text s).2.Inside start outend := by
  induction text generalizing s with
  | nil => exact h
  | cons ch rest ih =>
    rw [plainLoop]
    split
    · exact h
    · next hroom =>
      cases hbody : body tables outend ch s with
      | none => exact h
      | some stage =>
        have hstage := inside_body tables h (by omega) hbody
        cases stage with
        | go s' => exact ih hstage
        | leave result s' => exact hstage

theorem inside_convertText (h : s.Inside start outend) :
    (convertText tables outend text s).2.Inside start outend := by
  have hcalled := inside_plainLoop tables text (s := .init s.setp s.outptr s.stores)
    ⟨h.start_le, h.stores_lt⟩
  exact ⟨hcalled.start_le, hcalled.stores_lt⟩

/-- The stores of a text that is given up stay, and the pointer goes back. -/
theorem Loop.Inside.rewind (h : s.Inside start outend) (h' : s'.Inside start outend) :
    Loop.Inside start outend { s' with outptr := s.outptr } :=
  ⟨h.start_le, h'.stores_lt⟩

theorem inside_tryReplacements (texts : List (List UInt32 × Nat)) (h : s.Inside start outend) :
    (tryReplacements tables outend texts s).2.Inside start outend := by
  induction texts generalizing s with
  | nil => exact h
  | cons text more ih =>
    have hcalled := inside_convertText tables text.1 h
    rw [tryReplacements]
    split
    · exact ih (h.rewind hcalled)
    · exact hcalled
    · exact h.rewind hcalled
    · exact hcalled

theorem inside_transliterate (input : List UInt32) (h : s.Inside start outend) :
    (transliterate tables outend locale input s).2.Inside start outend := by
  have htried := inside_tryReplacements tables (locale.replacements input) h
  unfold transliterate
  split
  · next found s' heq =>
    rw [heq] at htried
    exact htried
  · next s' heq =>
    rw [heq] at htried
    split
    · exact htried
    split
    · exact htried
    split
    · exact htried
    · next text _ =>
      have hcalled := inside_convertText tables text htried
      dsimp only
      split
      · exact htried.rewind hcalled
      · exact hcalled
      · exact hcalled

theorem inside_handleError (flags : Flags) (input : List UInt32) (h : s.Inside start outend) :
    (handleError tables outend locale flags input s).2.Inside start outend := by
  have hcalled : Loop.Inside start outend
      (if flags.translit then transliterate tables outend locale input s
        else ((.illegalInput, 0), .init s.setp s.outptr s.stores)).2 := by
    split
    · exact inside_transliterate tables locale input h
    · exact ⟨h.start_le, h.stores_lt⟩
  unfold handleError
  dsimp only
  split <;> exact hcalled

/-- **A run of any length** keeps its stores inside, by induction on the turns. -/
theorem toLoop_inside (flags : Flags) (fuel : Nat)
    (input : List UInt32) (h : s.Inside start outend) :
    (toLoop tables outend locale flags fuel input s).Inside start outend := by
  induction fuel generalizing input s with
  | zero => exact h
  | succ fuel ih =>
    cases input with
    | nil => exact h
    | cons ch rest =>
      rw [toLoop]
      split
      · exact h
      · next hroom =>
        cases hbody : body tables outend ch s with
        | some stage =>
          have hstage := inside_body tables h (by omega) hbody
          cases stage with
          | go s' => exact ih rest hstage
          | leave result s' => exact hstage
        | none =>
          have hhandled := inside_handleError tables locale flags (ch :: rest) h
          dsimp only
          split
          · next left s' heq =>
            rw [heq] at hhandled
            exact ih left hhandled
          · next s' heq =>
            rw [heq] at hhandled
            exact hhandled

end Inside

/-- **No byte is stored at or beyond `outend`**, from any state and output pointer, for any tables,
locale and flags, however long the loop runs. -/
theorem toLoop_stores_lt (tables : Tables) (locale : Translit) (flags : Flags) (outend : Nat)
    (setp : Word) (outptr fuel : Nat) (input : List UInt32) :
    ∀ store ∈ (toLoop tables outend locale flags fuel input (.init setp outptr [])).stores,
      outptr ≤ store.1 ∧ store.1 < outend := by
  have hstart : (Loop.init setp outptr []).Inside outptr outend :=
    ⟨le_rfl, fun store hstore => by cases hstore⟩
  exact (toLoop_inside tables locale flags fuel input hstart).stores_lt

/-- Two characters with a designation and a shift each, and the shift back in the last byte of the
buffer. -/
theorem toLoop_stores_lt_designations :
    let tables : Tables := ⟨fun ch => if ch = 0x4e00 then some (2, 0x52, 0x3b) else none,
      fun _ => none, fun _ => none, fun ch => if ch = 0x4e42 then some (2, 0x21, 0x21) else none,
      fun _ => none⟩
    let run := toLoop tables 23 ⟨fun _ => [], fun _ => false, fun _ => false, none⟩ ⟨true, false⟩ 4
      [0x4e00, 0x4e42, 0x41] (.init 0 7 [])
    run.stores.map Prod.snd = [esc, byte '$', byte ')', byte 'A', so, 0x52, 0x3b,
        esc, byte '$', byte '*', byte 'H', esc, 0x4e, 0x21, 0x21, si] ∧
      ∀ store ∈ run.stores, 7 ≤ store.1 ∧ store.1 < 23 := by
  intro tables run
  exact ⟨by decide +kernel, toLoop_stores_lt _ _ _ _ _ _ _ _⟩

end SafeLibc.Iconv.Iso2022CnExt
