import SafeLibc.Catgets.Writer
import SafeLibc.Lib.Runs

/-!
# gencat: the numbers stay in range

Set and message numbers come from the input and are counted on for symbols, set numbers are stored
one higher, and the writer multiplies the two. A single directive takes the stored number out of
range (`readInputs_last_set`).

A line adds up what `Catalog.sums` lists; `no_overflow` is about all lines for which this stays in
range.
-/

namespace SafeLibc.Catgets

open SafeLibc.Lib List

/-! ## Input files -/

def readInputs (mode : Overflow) (files : List (List UInt8)) : Option Catalog :=
  files.foldlM (fun cat bytes => cat.readInput mode bytes) Catalog.new

/-- A line, and the quote character and the encoding with which it is read. -/
structure LineRead where
  line : List UInt8
  quote : Option UInt8
  encoding : MessageEncoding

def lineStep (mode : Overflow) (cat : Catalog) (read : LineRead) : Option Catalog :=
  (processLine mode read.line ⟨cat, read.quote, read.encoding⟩).map Input.catalog

/-! ## The sums of a line -/

/-- The sums of `$set`: a symbol counts the last set on, and the number is stored one higher. -/
def Catalog.setSums (cat : Catalog) (token : List UInt8) : List Nat :=
  if token.isEmpty then []
  else if token.all isAsciiDigit then [(parseU32 token).getD 0 + 1]
  else [cat.lastSet + 1, cat.lastSet + 1 + 1]

def delsetSums (token : List UInt8) : List Nat :=
  if token.all isAsciiDigit then [(parseU32 token).getD 0 + 1] else []

/-- The sum of a message line: a symbol counts the set's last message on. -/
def Catalog.messageSums (cat : Catalog) (token : List UInt8) : List Nat :=
  if token.all isAsciiDigit then []
  else (cat.sets[cat.currentSet]?).toList.map fun set => set.lastMessage + 1

/-- What a line adds up, as exact numbers. -/
def Catalog.sums (cat : Catalog) : List UInt8 → List Nat
  | [] => []
  | first :: rest =>
    if first = byte '$' then
      if rest.head?.any isSpace then []
      else if let some value := stripHead (bytesOf "set") rest then
        cat.setSums (nextToken (trimAsciiStart value))
      else if let some value := stripHead (bytesOf "delset") rest then
        delsetSums (nextToken (trimAsciiStart value))
      else []
    else if isIdentStart first then cat.messageSums (nextToken (first :: rest))
    else []

def inRange (cat : Catalog) (read : LineRead) : Bool := (cat.sums read.line).all (· < 2 ^ 32)

/-- No set has the number that marks a vacant cell. -/
def Catalog.Positive (cat : Catalog) : Prop := ∀ set ∈ cat.sets, set.number ≠ 0

section Step

variable {cat cat' : Catalog} {set : MessageSet} {stored : Nat} {value line : List UInt8}
  {input after : Input} {mode : Overflow}

theorem Catalog.Positive.modify (h : cat.Positive) {f : MessageSet → MessageSet}
    (hf : ∀ set, (f set).number = set.number) (index : Nat) :
    Catalog.Positive { cat with sets := cat.sets.modify index f } :=
  forall_mem_modify h (fun _ hset => hset) (fun set hset => hf set ▸ hset) index

theorem Catalog.Positive.findOrCreateSet (h : cat.Positive) (hstored : stored ≠ 0) :
    (cat.findOrCreateSet stored).1.Positive := by
  unfold Catalog.findOrCreateSet
  split
  · exact h
  · exact forall_mem_append.2 ⟨h, forall_mem_singleton.2 hstored⟩

/-- Sums in range are what the operators give, in either build. -/
theorem setDirective_inRange (h : cat.Positive)
    (hsums : ∀ n ∈ cat.setSums (nextToken (trimAsciiStart value)), n < 2 ^ 32) :
    ∃ cat', setDirective mode value cat = some cat' ∧ cat'.Positive := by
  unfold Catalog.setSums at hsums
  unfold setDirective
  dsimp only
  by_cases hempty : (nextToken (trimAsciiStart value)).isEmpty = true
  · rw [if_pos hempty]
    exact ⟨cat, rfl, h⟩
  rw [if_neg hempty] at hsums ⊢
  by_cases hdigits : (nextToken (trimAsciiStart value)).all isAsciiDigit = true
  · rw [if_pos hdigits] at hsums ⊢
    rw [Overflow.settle_of_lt (hsums _ mem_cons_self)]
    exact ⟨_, rfl, Catalog.Positive.findOrCreateSet h (Nat.succ_ne_zero _)⟩
  · rw [if_neg hdigits] at hsums ⊢
    rw [Overflow.settle_of_lt (hsums _ mem_cons_self), Option.bind_some,
      Overflow.settle_of_lt (hsums _ (mem_cons_of_mem _ mem_cons_self))]
    exact ⟨_, rfl, Catalog.Positive.findOrCreateSet h (Nat.succ_ne_zero _)⟩

theorem delsetDirective_inRange (h : cat.Positive)
    (hsums : ∀ n ∈ delsetSums (nextToken (trimAsciiStart value)), n < 2 ^ 32) :
    ∃ cat', delsetDirective mode value cat = some cat' ∧ cat'.Positive := by
  unfold delsetSums at hsums
  unfold delsetDirective
  dsimp only
  split_ifs at hsums ⊢
  · rw [Overflow.settle_of_lt (hsums _ mem_cons_self)]
    refine ⟨_, rfl, ?_⟩
    apply (h.findOrCreateSet (Nat.succ_ne_zero _)).modify
    exact fun _ => rfl
  · exact ⟨cat, rfl, h⟩

theorem addMessage_positive (hlt : cat.currentSet < cat.sets.length) (h : cat.Positive)
    (number : Nat) (text : List UInt8) :
    ∃ cat', cat.addMessage number text = some cat' ∧ cat'.Positive := by
  unfold Catalog.addMessage
  split
  · exact ⟨cat, rfl, h⟩
  · rw [Catalog.upsertMessage, Catalog.modifyCurrent, if_pos hlt]
    refine ⟨_, rfl, ?_⟩
    apply h.modify
    exact fun _ => rfl

theorem messageLine_inRange (hlt : input.catalog.currentSet < input.catalog.sets.length)
    (h : input.catalog.Positive)
    (hsums : ∀ n ∈ input.catalog.messageSums (nextToken line), n < 2 ^ 32) :
    ∃ cat', messageLine mode line input = some cat' ∧ cat'.Positive := by
  unfold Catalog.messageSums at hsums
  unfold messageLine
  dsimp only
  split_ifs at hsums ⊢
  · exact addMessage_positive hlt h _ _
  · rw [getElem?_eq_getElem hlt] at hsums ⊢
    rw [Option.bind_some, Overflow.settle_of_lt (hsums _ mem_cons_self), Option.bind_some,
      Catalog.modifyCurrent, if_pos hlt, Option.bind_some]
    apply addMessage_positive
    · simpa using hlt
    · apply h.modify
      exact fun _ => rfl

theorem processLine_inRange (hvalid : input.catalog.Valid) (h : input.catalog.Positive)
    (hsums : ∀ n ∈ input.catalog.sums line, n < 2 ^ 32) :
    ∃ after, processLine mode line input = some after ∧ after.catalog.Positive := by
  cases line with
  | nil => exact ⟨input, rfl, h⟩
  | cons first rest =>
    simp only [processLine, processDirective, Catalog.sums] at hsums ⊢
    split_ifs at hsums ⊢
    · exact ⟨_, rfl, h⟩
    · cases hset : stripHead (bytesOf "set") rest with
      | some value =>
        simp only [hset] at hsums
        obtain ⟨cat', hcat', hpos⟩ := setDirective_inRange h hsums
        exact ⟨_, Option.map_eq_some_iff.2 ⟨cat', hcat', rfl⟩, hpos⟩
      | none =>
        simp only [hset] at hsums
        cases hdelset : stripHead (bytesOf "delset") rest with
        | some value =>
          simp only [hdelset] at hsums
          obtain ⟨cat', hcat', hpos⟩ := delsetDirective_inRange h hsums
          exact ⟨_, Option.map_eq_some_iff.2 ⟨cat', hcat', rfl⟩, hpos⟩
        | none =>
          dsimp only
          split <;> exact ⟨_, rfl, h⟩
    · obtain ⟨cat', hcat', hpos⟩ := messageLine_inRange hvalid.current_lt h hsums
      exact ⟨_, Option.map_eq_some_iff.2 ⟨cat', hcat', rfl⟩, hpos⟩
    · exact ⟨_, rfl, h⟩

theorem inRange_of_setDirective (h : setDirective .panic value cat = some cat') :
    ∀ n ∈ cat.setSums (nextToken (trimAsciiStart value)), n < 2 ^ 32 := by
  unfold setDirective at h
  dsimp only at h
  unfold Catalog.setSums
  split_ifs with hempty hdigits
  · simp
  · rw [if_neg hempty, if_pos hdigits] at h
    obtain ⟨_, hstored, -⟩ := Option.map_eq_some_iff.1 h
    exact forall_mem_singleton.2 (Overflow.lt_of_settle_panic hstored).1
  · rw [if_neg hempty, if_neg hdigits] at h
    obtain ⟨_, hlast, h⟩ := Option.bind_eq_some_iff.1 h
    obtain ⟨_, hstored, -⟩ := Option.map_eq_some_iff.1 h
    obtain ⟨hlt, rfl⟩ := Overflow.lt_of_settle_panic hlast
    exact forall_mem_cons.2 ⟨hlt, forall_mem_singleton.2 (Overflow.lt_of_settle_panic hstored).1⟩

theorem inRange_of_delsetDirective (h : delsetDirective .panic value cat = some cat') :
    ∀ n ∈ delsetSums (nextToken (trimAsciiStart value)), n < 2 ^ 32 := by
  unfold delsetDirective at h
  dsimp only [delsetSums] at h ⊢
  split_ifs at h ⊢
  · obtain ⟨_, hstored, -⟩ := Option.map_eq_some_iff.1 h
    exact forall_mem_singleton.2 (Overflow.lt_of_settle_panic hstored).1
  · simp

theorem inRange_of_messageLine (h : messageLine .panic line input = some cat') :
    ∀ n ∈ input.catalog.messageSums (nextToken line), n < 2 ^ 32 := by
  unfold messageLine at h
  dsimp only [Catalog.messageSums] at h ⊢
  split_ifs at h ⊢
  · simp
  · obtain ⟨set, hset, h⟩ := Option.bind_eq_some_iff.1 h
    obtain ⟨_, hnumber, -⟩ := Option.bind_eq_some_iff.1 h
    rw [hset]
    exact forall_mem_singleton.2 (Overflow.lt_of_settle_panic hnumber).1

/-- With overflow checks a line that was read had its sums in range. -/
theorem inRange_of_processLine (h : processLine .panic line input = some after) :
    ∀ n ∈ input.catalog.sums line, n < 2 ^ 32 := by
  cases line with
  | nil => simp [Catalog.sums]
  | cons first rest =>
    simp only [processLine, processDirective, Catalog.sums] at h ⊢
    split_ifs at h ⊢
    · simp
    · cases hset : stripHead (bytesOf "set") rest with
      | some value =>
        simp only [hset] at h
        obtain ⟨_, hcat', -⟩ := Option.map_eq_some_iff.1 h
        exact inRange_of_setDirective hcat'
      | none =>
        simp only [hset] at h
        cases hdelset : stripHead (bytesOf "delset") rest with
        | some value =>
          simp only [hdelset] at h
          obtain ⟨_, hcat', -⟩ := Option.map_eq_some_iff.1 h
          exact inRange_of_delsetDirective hcat'
        | none => simp
    · obtain ⟨_, hcat', -⟩ := Option.map_eq_some_iff.1 h
      exact inRange_of_messageLine hcat'
    · simp

theorem lineStep_isSome_iff (hvalid : cat.Valid) (h : cat.Positive) (read : LineRead) :
    (lineStep .panic cat read).isSome ↔ inRange cat read = true := by
  rw [inRange, all_eq_true, lineStep, Option.isSome_map, Option.isSome_iff_exists]
  simp only [decide_eq_true_eq]
  constructor
  · rintro ⟨after, hafter⟩
    exact inRange_of_processLine hafter
  · intro hsums
    obtain ⟨after, hafter, -⟩ := @processLine_inRange read.line ⟨cat, read.quote, read.encoding⟩
      .panic hvalid h hsums
    exact ⟨after, hafter⟩

end Step

/-! ## Whole runs -/

/-- Reading files with overflow checks is a run of lines whose sums are all in range. -/
theorem reaches_readInputs {files : List (List UInt8)} {cat : Catalog}
    (h : readInputs .panic files = some cat) :
    Reaches (lineStep .panic) inRange Catalog.new cat := by
  have hlines : ∀ (lines : List (List UInt8)) (input after : Input),
      lines.foldlM (fun input line => processLine .panic line input) input = some after →
      Reaches (lineStep .panic) inRange input.catalog after.catalog := by
    intro lines
    induction lines with
    | nil =>
      intro input after hfold
      cases hfold
      exact .start
    | cons line lines ih =>
      intro input after hfold
      obtain ⟨next, hnext, hrest⟩ := Option.bind_eq_some_iff.1 hfold
      have hread : inRange input.catalog ⟨line, input.quote, input.encoding⟩ = true := by
        simpa [inRange] using inRange_of_processLine hnext
      have hstep : lineStep .panic input.catalog ⟨line, input.quote, input.encoding⟩ =
          some next.catalog := Option.map_eq_some_iff.2 ⟨next, hnext, rfl⟩
      exact (Reaches.start.step hread hstep).trans (ih next after hrest)
  have hfiles : ∀ (files : List (List UInt8)) (start cat : Catalog),
      files.foldlM (fun cat bytes => cat.readInput .panic bytes) start = some cat →
      Reaches (lineStep .panic) inRange start cat := by
    intro files
    induction files with
    | nil =>
      intro start cat hfold
      cases hfold
      exact .start
    | cons file files ih =>
      intro start cat hfold
      obtain ⟨next, hnext, hrest⟩ := Option.bind_eq_some_iff.1 hfold
      obtain ⟨after, hafter, rfl⟩ := Option.map_eq_some_iff.1 hnext
      exact (hlines _ _ after hafter).trans (ih _ cat hrest)
  exact hfiles files _ cat h

theorem reaches_valid {mode : Overflow} {cat : Catalog}
    (h : Reaches (lineStep mode) inRange Catalog.new cat) : cat.Valid ∧ cat.Positive := by
  refine h.invariant (P := fun cat => cat.Valid ∧ cat.Positive) ⟨valid_new, ?_⟩ ?_
  · have hempty : Catalog.Positive ⟨[], 0, 0⟩ := by simp [Catalog.Positive]
    exact hempty.findOrCreateSet (Nat.succ_ne_zero nlSetd)
  · rintro cat read cat' ⟨hvalid, hpos⟩ hread hstep
    obtain ⟨after, hafter, rfl⟩ := Option.map_eq_some_iff.1 hstep
    have hsums : ∀ n ∈ cat.sums read.line, n < 2 ^ 32 := by simpa [inRange] using hread
    obtain ⟨_, hafter', hpos'⟩ := @processLine_inRange read.line ⟨cat, read.quote, read.encoding⟩
      mode hvalid hpos hsums
    rw [hafter] at hafter'
    cases hafter'
    exact ⟨hvalid.processLine hafter, hpos'⟩

/-- The products of the writer and its first table stay in range. -/
def WritesInRange (messages : List (Nat × Message)) : Prop :=
  (∀ entry ∈ messages, entry.1 * entry.2.number < 2 ^ 32) ∧ ∃ depth, FirstFits messages depth

theorem writeCatalog_isSome (mode : Overflow) {cat : Catalog} (hvalid : cat.Valid)
    (h : WritesInRange cat.stored) : (writeCatalog mode cat).isSome := by
  obtain ⟨hprod, depth, hfirst⟩ := h
  by_cases hempty : cat.stored = []
  · have hone : mode.settle 32 (1 * 1) = some 1 := Overflow.settle_of_lt (by decide)
    have hthree : mode.settle 32 (1 * 3) = some 3 := Overflow.settle_of_lt (by decide)
    simp [writeCatalog, hempty, hashDimensions, hone, hthree]
  · have hentries : ∀ entry ∈ cat.stored, Representable entry := by
      intro entry hentry
      obtain ⟨set, hset, -, hnumber, hmessage⟩ := Catalog.mem_stored.1 hentry
      have hset := hvalid.sets_valid set hset
      exact ⟨hprod entry hentry, hnumber ▸ hset.number_lt,
        (hset.message_number _ (mem_map_of_mem hmessage)).2⟩
    obtain ⟨planeSize, planeDepth, table, -, -, -, hfile⟩ :=
      writeCatalog_of_first mode hempty hentries hfirst
    rw [hfile]
    rfl

/-- **No overflow**: in every catalog that lines with their sums in range lead to, set numbers are
distinct and not 0, the next line overflows exactly where one of its sums does, and the catalog is
written without an overflow where the writer's products and its first table are in range. -/
theorem no_overflow {mode : Overflow} {cat : Catalog}
    (h : Reaches (lineStep mode) inRange Catalog.new cat) :
    (∀ set ∈ cat.sets, set.number ≠ 0) ∧ (cat.sets.map MessageSet.number).Nodup ∧
      (∀ read, (lineStep .panic cat read).isSome ↔ inRange cat read = true) ∧
      (WritesInRange cat.stored → (writeCatalog .panic cat).isSome) := by
  obtain ⟨hvalid, hpos⟩ := reaches_valid h
  exact ⟨hpos, hvalid.sets_nodup, lineStep_isSome_iff hvalid hpos,
    writeCatalog_isSome .panic hvalid⟩

def greetingsFile : List UInt8 := bytesOf "$set 3\n1 hello\nbye good bye\n$set more\n7 seven\n"

theorem no_overflow_greetings : ∃ cat, readInputs .panic [greetingsFile] = some cat ∧
    (∀ set ∈ cat.sets, set.number ≠ 0) ∧ (writeCatalog .panic cat).isSome := by
  obtain ⟨cat, hcat⟩ := Option.isSome_iff_exists.1
    (show (readInputs .panic [greetingsFile]).isSome = true by decide +kernel)
  have hstored : (readInputs .panic [greetingsFile]).map Catalog.stored =
      some [(4, ⟨1, bytesOf "hello"⟩), (4, ⟨2, bytesOf "good bye"⟩),
        (5, ⟨7, bytesOf "seven"⟩)] := by
    decide +kernel
  rw [hcat] at hstored
  obtain ⟨hpos, -, -, hwrite⟩ := no_overflow (reaches_readInputs hcat)
  refine ⟨cat, hcat, hpos, hwrite ?_⟩
  rw [Option.some.inj hstored]
  refine ⟨by decide +kernel, 3, by decide, fun r => ?_, by decide⟩
  exact countP_le_length

/-- **The last set number overflows**: a build without checks stores the set under 0, the mark of a
vacant cell. -/
theorem readInputs_last_set :
    readInputs .panic [bytesOf "$set 4294967295\n"] = none ∧
      ∃ cat, readInputs .wrap [bytesOf "$set 4294967295\n"] = some cat ∧
        ∃ set ∈ cat.sets, set.number = 0 := by
  refine ⟨by decide +kernel, ⟨[⟨2, false, [], 0⟩, ⟨0, false, [], 0⟩], 1, 4294967295⟩,
    by decide +kernel, ⟨0, false, [], 0⟩, by decide, rfl⟩

end SafeLibc.Catgets
