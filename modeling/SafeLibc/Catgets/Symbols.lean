import SafeLibc.Catgets.Gencat

/-!
# gencat: messages by number and by symbol

A message line stores its text under the number it gives, or, with a symbol, under the next number
of its set. The `symbol` members of the messages, which `Gencat` leaves out, are a column beside the
catalog here: `symbols i n` is that of message `n` in the set at position `i`. A run also keeps the
log of its message lines, and `Logged` says that the catalog holds exactly what is in the log.

A number that is given after a symbol has received it replaces that message
(`runLines_number_taken`), where the C program moves it to another number.
-/

namespace SafeLibc.Catgets

open SafeLibc.Lib List

/-! ## Runs with a log -/

/-- A message line: the position of its set, the number it gets, its symbol if it has one, and the
text. -/
structure Entry (σ : Type) where
  set : Nat
  number : Nat
  symbol : Option σ
  text : List UInt8
  deriving DecidableEq, Repr

def Entry.message {σ : Type} (entry : Entry σ) : Message := ⟨entry.number, entry.text⟩

structure Run (σ : Type) where
  input : Input
  symbols : Nat → Nat → Option σ
  log : List (Entry σ)

section Runs

variable {σ : Type} (mode : Overflow) (lossy : List UInt8 → σ)

/-- The entry of a message line; `lossy` is `String::from_utf8_lossy`. -/
def messageEntry (line : List UInt8) (input : Input) : Option (Entry σ) :=
  let cat := input.catalog
  let ident := nextToken line
  let text := normalizeMessage (line.drop (ident.length + 1)) input.quote input.encoding
  if ident.all isAsciiDigit then some ⟨cat.currentSet, (parseU32 ident).getD 0, none, text⟩
  else
    (cat.sets[cat.currentSet]?).bind fun set =>
      (mode.settle 32 (set.lastMessage + 1)).map fun number =>
        ⟨cat.currentSet, number, some (lossy ident), text⟩

def isMessageLine (line : List UInt8) : Bool :=
  line.head?.any fun first => first ≠ byte '$' && isIdentStart first

/-- The column of symbols after a message was stored; number 0 is dropped. -/
def storeSymbol (symbols : Nat → Nat → Option σ) (entry : Entry σ) : Nat → Nat → Option σ :=
  if entry.number = 0 then symbols
  else Function.update symbols entry.set
    (Function.update (symbols entry.set) entry.number entry.symbol)

def runLine (line : List UInt8) (run : Run σ) : Option (Run σ) :=
  (processLine mode line run.input).bind fun input =>
    if isMessageLine line then
      (messageEntry mode lossy line run.input).map fun entry =>
        ⟨input, storeSymbol run.symbols entry, run.log ++ [entry]⟩
    else some { run with input }

def Run.new : Run σ := ⟨⟨Catalog.new, none, .bytes⟩, fun _ _ => none, []⟩

def runLines (lines : List (List UInt8)) : Option (Run σ) :=
  lines.foldlM (fun run line => runLine mode lossy line run) Run.new

end Runs

/-! ## What a set holds -/

def messagesAt (cat : Catalog) (i : Nat) : List Message :=
  (cat.sets[i]?).elim [] MessageSet.messages

def lastMessageAt (cat : Catalog) (i : Nat) : Nat := (cat.sets[i]?).elim 0 MessageSet.lastMessage

/-- The sets hold the same messages and counters; sets that were created hold none. -/
def SameMessages (cat cat' : Catalog) : Prop :=
  ∀ i, messagesAt cat' i = messagesAt cat i ∧ lastMessageAt cat' i = lastMessageAt cat i

section Sets

theorem SameMessages.refl (cat : Catalog) : SameMessages cat cat := fun _ => ⟨rfl, rfl⟩

variable {cat : Catalog}

theorem sameMessages_findOrCreateSet (cat : Catalog) (stored : Nat) :
    SameMessages cat (cat.findOrCreateSet stored).1 := by
  intro i
  unfold Catalog.findOrCreateSet messagesAt lastMessageAt
  split
  · exact ⟨rfl, rfl⟩
  · rw [getElem?_append]
    split
    · exact ⟨rfl, rfl⟩
    · next hlt =>
      rw [getElem?_eq_none (Nat.le_of_not_lt hlt)]
      cases hi : i - cat.sets.length with
      | zero => exact ⟨rfl, rfl⟩
      | succ k => exact ⟨rfl, rfl⟩

theorem sameMessages_modify (cat : Catalog) {f : MessageSet → MessageSet}
    (hmessages : ∀ set, (f set).messages = set.messages)
    (hlast : ∀ set, (f set).lastMessage = set.lastMessage) (index : Nat) :
    SameMessages cat { cat with sets := cat.sets.modify index f } := by
  intro i
  unfold messagesAt lastMessageAt
  rw [getElem?_modify]
  cases cat.sets[i]? with
  | none => exact ⟨rfl, rfl⟩
  | some set =>
    by_cases hi : index = i
    · simp [hi, hmessages, hlast]
    · simp [hi]

variable {mode : Overflow} {cat' : Catalog} {value : List UInt8} {number : Nat}

theorem sameMessages_setDirective (h : setDirective mode value cat = some cat') :
    SameMessages cat cat' := by
  unfold setDirective at h
  dsimp only at h
  split at h
  · cases h
    exact .refl _
  split at h
  · obtain ⟨stored, -, rfl⟩ := Option.map_eq_some_iff.mp h
    exact sameMessages_findOrCreateSet { cat with lastSet := _ } stored
  · obtain ⟨lastSet, -, hrest⟩ := Option.bind_eq_some_iff.mp h
    obtain ⟨stored, -, rfl⟩ := Option.map_eq_some_iff.mp hrest
    exact sameMessages_findOrCreateSet { cat with lastSet } stored

theorem sameMessages_delsetDirective (h : delsetDirective mode value cat = some cat') :
    SameMessages cat cat' := by
  unfold delsetDirective at h
  dsimp only at h
  split at h
  · obtain ⟨stored, -, rfl⟩ := Option.map_eq_some_iff.mp h
    have hfound := sameMessages_findOrCreateSet cat stored
    have hdeleted := sameMessages_modify (cat.findOrCreateSet stored).1
      (f := fun set => { set with deleted := true }) (fun _ => rfl) (fun _ => rfl)
      (cat.findOrCreateSet stored).2
    intro i
    exact ⟨(hdeleted i).1.trans (hfound i).1, (hdeleted i).2.trans (hfound i).2⟩
  · cases h
    exact .refl _

theorem sameMessages_processLine {line : List UInt8} {input after : Input}
    (hline : isMessageLine line = false) (h : processLine mode line input = some after) :
    SameMessages input.catalog after.catalog := by
  cases line with
  | nil =>
    cases h
    exact .refl _
  | cons first rest =>
    simp only [processLine] at h
    split at h
    · unfold processDirective at h
      split at h
      · cases h
        exact .refl _
      split at h
      · obtain ⟨cat', hcat', rfl⟩ := Option.map_eq_some_iff.mp h
        exact sameMessages_setDirective hcat'
      split at h
      · obtain ⟨cat', hcat', rfl⟩ := Option.map_eq_some_iff.mp h
        exact sameMessages_delsetDirective hcat'
      split at h <;>
      · cases h
        exact .refl _
    · next hfirst =>
      simp only [isMessageLine, head?_cons, Option.any_some, hfirst, ne_eq, not_false_eq_true,
        decide_true, Bool.true_and] at hline
      rw [if_neg (by simp [hline])] at h
      cases h
      exact .refl _

theorem upsertText_of_fresh (text : List UInt8) {messages : List Message}
    (h : number ∉ messages.map Message.number) :
    upsertText number text messages = messages ++ [⟨number, text⟩] := by
  induction messages with
  | nil => rfl
  | cons message rest ih =>
    rw [map_cons, mem_cons, not_or] at h
    rw [upsertText, if_neg (Ne.symm h.1), ih h.2, cons_append]

/-- Storing a message under a fresh number; the counter may have been moved before. -/
theorem at_upsertMessage {i last : Nat} {set : MessageSet} (hset : cat.sets[i]? = some set)
    (text : List UInt8) (hfresh : number ∉ (messagesAt cat i).map Message.number)
    (hcat' : cat'.sets = cat.sets.modify i fun set =>
      MessageSet.upsertMessage { set with lastMessage := last } number text) (j : Nat) :
    messagesAt cat' j = (if j = i then messagesAt cat i ++ [⟨number, text⟩] else messagesAt cat j) ∧
      lastMessageAt cat' j = if j = i then max last number else lastMessageAt cat j := by
  have hmessages : messagesAt cat i = set.messages := by simp [messagesAt, hset]
  rw [hmessages] at hfresh ⊢
  unfold messagesAt lastMessageAt
  rw [hcat']
  by_cases hj : j = i
  · subst hj
    have hcounter : (if last < number then number else last) = max last number := by
      split <;> omega
    simp [hset, MessageSet.upsertMessage, upsertText_of_fresh text hfresh, hcounter]
  · simp [hj, Ne.symm hj]

end Sets

/-! ## The log -/

section Logged

variable {σ : Type} {mode : Overflow} {lossy : List UInt8 → σ}

/-- Every set holds exactly the messages of its lines, with their symbols, and no number above its
counter. -/
structure Logged (run : Run σ) : Prop where
  messages : ∀ i, messagesAt run.input.catalog i =
    (run.log.filter fun entry => entry.set = i).map Entry.message
  number_le : ∀ entry ∈ run.log, entry.number ≤ lastMessageAt run.input.catalog entry.set
  lastMessage_lt : ∀ i, lastMessageAt run.input.catalog i < 2 ^ 32
  symbols : ∀ entry ∈ run.log, run.symbols entry.set entry.number = entry.symbol

/-- No message line has number 0 or a number that an earlier message of its set has. -/
structure Orderly (log : List (Entry σ)) : Prop where
  number_ne : ∀ entry ∈ log, entry.number ≠ 0
  not_taken : log.Pairwise fun earlier later =>
    later.symbol = none → earlier.set = later.set → earlier.number ≠ later.number

theorem Orderly.of_append {log rest : List (Entry σ)} (h : Orderly (log ++ rest)) :
    Orderly log where
  number_ne entry hentry := h.number_ne entry (mem_append_left _ hentry)
  not_taken := (pairwise_append.mp h.not_taken).1

variable {run after : Run σ} {line : List UInt8} {input : Input} {entry : Entry σ}
  {lines : List (List UInt8)}

theorem Logged.numbers (h : Logged run) (i : Nat) :
    (messagesAt run.input.catalog i).map Message.number =
      (run.log.filter fun entry => entry.set = i).map Entry.number := by
  rw [h.messages i, map_map]
  rfl

/-- How a message line is processed, once it has an entry with a number. A symbol gets a number
above the counter. -/
theorem processLine_of_entry {after : Input} (hline : isMessageLine line = true)
    (hafter : processLine mode line input = some after)
    (hentry : messageEntry mode lossy line input = some entry) (hnumber : entry.number ≠ 0)
    (hlt : ∀ i, lastMessageAt input.catalog i < 2 ^ 32) : entry.number < 2 ^ 32 ∧
      (entry.symbol = none ∨ lastMessageAt input.catalog entry.set < entry.number) ∧
      ∃ set last, input.catalog.sets[entry.set]? = some set ∧
        lastMessageAt input.catalog entry.set ≤ last ∧ last < 2 ^ 32 ∧
        after.catalog.sets = input.catalog.sets.modify entry.set fun set =>
          MessageSet.upsertMessage { set with lastMessage := last } entry.number entry.text := by
  cases line with
  | nil => cases hline
  | cons first rest =>
    simp only [isMessageLine, head?_cons, Option.any_some, Bool.and_eq_true, decide_eq_true_eq]
      at hline
    simp only [processLine, if_neg hline.1, if_pos hline.2] at hafter
    obtain ⟨cat', hcat', rfl⟩ := Option.map_eq_some_iff.mp hafter
    unfold messageLine at hcat'
    unfold messageEntry at hentry
    by_cases hdigits : (nextToken (first :: rest)).all isAsciiDigit = true
    · rw [if_pos hdigits] at hcat' hentry
      cases hentry
      rw [Catalog.addMessage, if_neg hnumber, Catalog.upsertMessage, Catalog.modifyCurrent] at hcat'
      split at hcat'
      · next hcurrent =>
        cases hcat'
        refine ⟨parseU32_getD_lt _, .inl rfl, _, _, getElem?_eq_getElem hcurrent,
          le_rfl, hlt _, ?_⟩
        apply ext_getElem?
        intro j
        rw [getElem?_modify, getElem?_modify]
        by_cases hj : input.catalog.currentSet = j
        · subst hj
          simp only [lastMessageAt, getElem?_eq_getElem hcurrent]
          rfl
        · simp [hj]
      · cases hcat'
    · rw [if_neg hdigits] at hcat' hentry
      obtain ⟨set, hset, hrest⟩ := Option.bind_eq_some_iff.mp hentry
      obtain ⟨number, hsettle, rfl⟩ := Option.map_eq_some_iff.mp hrest
      rw [hset, Option.bind_some, hsettle, Option.bind_some, Catalog.modifyCurrent] at hcat'
      dsimp only at hnumber
      have hcurrent := (List.getElem?_eq_some_iff.mp hset).1
      have hlast : lastMessageAt input.catalog input.catalog.currentSet = set.lastMessage := by
        simp [lastMessageAt, hset]
      rw [if_pos hcurrent, Option.bind_some, Catalog.addMessage, if_neg hnumber,
        Catalog.upsertMessage, Catalog.modifyCurrent] at hcat'
      rw [length_modify, if_pos hcurrent] at hcat'
      cases hcat'
      -- the counter has not wrapped, since the number is not 0
      have hbig : set.lastMessage < number := by
        have hmod := Overflow.settle_eq_some hsettle
        have hsmall := hlt input.catalog.currentSet
        omega
      have hnumber_lt := Overflow.settle_lt hsettle
      refine ⟨hnumber_lt, .inr (hlast ▸ hbig), set, number, hset, hlast ▸ le_of_lt hbig,
        hnumber_lt, ?_⟩
      rw [modify_modify_eq]
      rfl

theorem Logged.of_sameMessages (h : Logged run)
    (hsame : SameMessages run.input.catalog input.catalog) : Logged { run with input } where
  messages i := (hsame i).1.trans (h.messages i)
  number_le entry hentry := by
    rw [(hsame entry.set).2]
    exact h.number_le entry hentry
  lastMessage_lt i := by
    rw [(hsame i).2]
    exact h.lastMessage_lt i
  symbols := h.symbols

/-- **One message line**: where its number is not taken, its message is appended to the set and the
others stay. -/
theorem Logged.messageLine (h : Logged run) {after : Input} (hline : isMessageLine line = true)
    (hafter : processLine mode line run.input = some after)
    (hentry : messageEntry mode lossy line run.input = some entry)
    (horderly : Orderly (run.log ++ [entry])) :
    Logged ⟨after, storeSymbol run.symbols entry, run.log ++ [entry]⟩ := by
  have hnumber := horderly.number_ne entry (by simp)
  obtain ⟨hnumber_lt, hkind, set, last, hset, hle, hlast_lt, hsets⟩ :=
    processLine_of_entry hline hafter hentry hnumber h.lastMessage_lt
  -- the number is not taken: a symbol's number is above the counter, a given one by assumption
  have hother : ∀ e ∈ run.log, e.set = entry.set → e.number ≠ entry.number := by
    intro e he heset
    rcases hkind with hgiven | habove
    · exact (pairwise_append.mp horderly.not_taken).2.2 e he entry (by simp) hgiven heset
    · have hbound := h.number_le e he
      rw [heset] at hbound
      omega
  have hfresh : entry.number ∉ (messagesAt run.input.catalog entry.set).map Message.number := by
    rw [h.numbers]
    intro hmem
    obtain ⟨e, he, heq⟩ := mem_map.mp hmem
    rw [mem_filter, decide_eq_true_eq] at he
    exact hother e he.1 he.2 heq
  have hat := at_upsertMessage hset entry.text hfresh hsets
  refine ⟨?_, ?_, ?_, ?_⟩
  · intro i
    rw [(hat i).1, filter_append]
    by_cases hi : i = entry.set
    · subst hi
      simp [h.messages, Entry.message]
    · simp [hi, Ne.symm hi, h.messages]
  · intro e he
    rw [(hat e.set).2]
    rcases mem_append.mp he with hold | hnew
    · have hbound := h.number_le e hold
      split
      · next heset =>
        rw [heset] at hbound
        omega
      · exact hbound
    · rw [mem_singleton.mp hnew, if_pos rfl]
      omega
  · intro i
    rw [(hat i).2]
    split
    · omega
    · exact h.lastMessage_lt i
  · intro e he
    simp only [storeSymbol, if_neg hnumber]
    rcases mem_append.mp he with hold | hnew
    · by_cases heset : e.set = entry.set
      · rw [heset, Function.update_self, Function.update_of_ne (hother e hold heset), ← heset]
        exact h.symbols e hold
      · rw [Function.update_of_ne heset]
        exact h.symbols e hold
    · rw [mem_singleton.mp hnew, Function.update_self, Function.update_self]

theorem Logged.runLine (h : Logged run) (hafter : Catgets.runLine mode lossy line run = some after)
    (horderly : Orderly after.log) : Logged after := by
  obtain ⟨input, hinput, hrest⟩ := Option.bind_eq_some_iff.mp hafter
  by_cases hline : isMessageLine line = true
  · rw [if_pos hline] at hrest
    obtain ⟨entry, hentry, rfl⟩ := Option.map_eq_some_iff.mp hrest
    exact h.messageLine hline hinput hentry horderly
  · rw [if_neg hline] at hrest
    cases hrest
    exact h.of_sameMessages (sameMessages_processLine (by simpa using hline) hinput)

theorem log_of_runLine (h : Catgets.runLine mode lossy line run = some after) :
    run.log <+: after.log := by
  obtain ⟨input, -, hrest⟩ := Option.bind_eq_some_iff.mp h
  by_cases hline : isMessageLine line = true
  · rw [if_pos hline] at hrest
    obtain ⟨entry, -, rfl⟩ := Option.map_eq_some_iff.mp hrest
    exact prefix_append _ _
  · rw [if_neg hline] at hrest
    cases hrest
    exact prefix_refl _

theorem logged_new : Logged (Run.new : Run σ) := by
  have hsame := sameMessages_findOrCreateSet ⟨[], 0, 0⟩ (nlSetd + 1)
  refine ⟨fun i => (hsame i).1, by simp [Run.new], ?_, by simp [Run.new]⟩
  intro i
  rw [show lastMessageAt Run.new.input.catalog i = 0 from (hsame i).2]
  exact Nat.two_pow_pos 32

theorem log_of_foldlM
    (h : lines.foldlM (fun run line => Catgets.runLine mode lossy line run) run = some after) :
    run.log <+: after.log := by
  induction lines generalizing run with
  | nil =>
    obtain rfl : run = after := by simpa using h
    exact prefix_refl _
  | cons line lines ih =>
    obtain ⟨next, hnext, hrest⟩ := Option.bind_eq_some_iff.mp h
    exact (log_of_runLine hnext).trans (ih hrest)

/-- What a whole run preserves, by induction on the lines that are left. -/
theorem Logged.foldlM (h : Logged run)
    (hafter : lines.foldlM (fun run line => Catgets.runLine mode lossy line run) run = some after)
    (horderly : Orderly after.log) : Logged after := by
  induction lines generalizing run with
  | nil =>
    obtain rfl : run = after := by simpa using hafter
    exact h
  | cons line lines ih =>
    obtain ⟨next, hnext, hrest⟩ := Option.bind_eq_some_iff.mp hafter
    obtain ⟨rest, hlog⟩ := log_of_foldlM hrest
    exact ih (h.runLine hnext (hlog.symm ▸ horderly).of_append) hrest

end Logged

/-! ## A build without overflow checks never stops -/

section Total

theorem settle_wrap (w n : Nat) : Overflow.wrap.settle w n = some (n % 2 ^ w) := by
  unfold Overflow.settle
  split
  · next hlt => rw [Nat.mod_eq_of_lt hlt]
  · rfl

theorem setDirective_wrap (value : List UInt8) (cat : Catalog) :
    ∃ cat', setDirective .wrap value cat = some cat' := by
  unfold setDirective
  simp only [settle_wrap]
  split
  · exact ⟨_, rfl⟩
  · split <;> exact ⟨_, rfl⟩

theorem delsetDirective_wrap (value : List UInt8) (cat : Catalog) :
    ∃ cat', delsetDirective .wrap value cat = some cat' := by
  unfold delsetDirective
  simp only [settle_wrap]
  split <;> exact ⟨_, rfl⟩

theorem addMessage_of_valid {cat : Catalog} (h : cat.Valid) (number : Nat) (text : List UInt8) :
    ∃ cat', cat.addMessage number text = some cat' := by
  unfold Catalog.addMessage
  split
  · exact ⟨_, rfl⟩
  · rw [Catalog.upsertMessage, Catalog.modifyCurrent, if_pos h.current_lt]
    exact ⟨_, rfl⟩

variable {input : Input}

theorem messageLine_wrap (line : List UInt8) (h : input.catalog.Valid) :
    ∃ cat', messageLine .wrap line input = some cat' := by
  unfold messageLine
  dsimp only
  split
  · exact addMessage_of_valid h _ _
  · rw [getElem?_eq_getElem h.current_lt, Option.bind_some, settle_wrap, Option.bind_some,
      Catalog.modifyCurrent, if_pos h.current_lt]
    apply addMessage_of_valid
    refine h.modify ?_ ?_ _
    · exact fun set hset => hset.of_eq rfl rfl
    · exact fun set => rfl

theorem processLine_wrap (line : List UInt8) (h : input.catalog.Valid) :
    ∃ after, processLine .wrap line input = some after := by
  cases line with
  | nil => exact ⟨_, rfl⟩
  | cons first rest =>
    simp only [processLine]
    split
    · unfold processDirective
      split
      · exact ⟨_, rfl⟩
      split
      · next value _ =>
        obtain ⟨cat', hcat'⟩ := setDirective_wrap value input.catalog
        rw [hcat']
        exact ⟨_, rfl⟩
      split
      · next value _ =>
        obtain ⟨cat', hcat'⟩ := delsetDirective_wrap value input.catalog
        rw [hcat']
        exact ⟨_, rfl⟩
      split <;> exact ⟨_, rfl⟩
    · split
      · obtain ⟨cat', hcat'⟩ := messageLine_wrap (first :: rest) h
        rw [hcat']
        exact ⟨_, rfl⟩
      · exact ⟨_, rfl⟩

variable {σ : Type} (lossy : List UInt8 → σ)

theorem runLine_wrap (line : List UInt8) {run : Run σ} (h : run.input.catalog.Valid) :
    ∃ after, runLine .wrap lossy line run = some after ∧ after.input.catalog.Valid := by
  obtain ⟨input, hinput⟩ := processLine_wrap line h
  have hvalid := h.processLine hinput
  rw [runLine, hinput]
  split
  · have hentry : ∃ entry, messageEntry .wrap lossy line run.input = some entry := by
      unfold messageEntry
      dsimp only
      split
      · exact ⟨_, rfl⟩
      · rw [getElem?_eq_getElem h.current_lt, Option.bind_some, settle_wrap]
        exact ⟨_, rfl⟩
    obtain ⟨entry, hentry⟩ := hentry
    rw [hentry]
    exact ⟨_, rfl, hvalid⟩
  · exact ⟨_, rfl, hvalid⟩

theorem runLines_wrap (lines : List (List UInt8)) :
    ∃ after, runLines .wrap lossy lines = some after := by
  have hlines : ∀ run : Run σ, run.input.catalog.Valid → ∃ after,
      lines.foldlM (fun run line => runLine .wrap lossy line run) run = some after := by
    induction lines with
    | nil => exact fun run _ => ⟨run, rfl⟩
    | cons line lines ih =>
      intro run hrun
      obtain ⟨next, hnext, hvalid⟩ := runLine_wrap lossy line hrun
      obtain ⟨after, hafter⟩ := ih next hvalid
      exact ⟨after, by rw [foldlM_cons, hnext]; exact hafter⟩
  exact hlines Run.new valid_new

end Total

/-- **No message is lost** where no number is 0 or already taken: a build without overflow checks
reads all lines, and then every set holds exactly one message for each of its lines, with the line's
text and symbol. The same holds in a build with overflow checks that has read them all. -/
theorem runLines_logged {σ : Type} (lossy : List UInt8 → σ) (lines : List (List UInt8)) :
    (∃ run, runLines .wrap lossy lines = some run) ∧
      ∀ mode run, runLines mode lossy lines = some run → Orderly run.log → Logged run := by
  refine ⟨runLines_wrap lossy lines, ?_⟩
  intro mode run hrun horderly
  exact logged_new.foldlM hrun horderly

/-- A symbol and a number that is not taken. -/
theorem runLines_logged_greetings :
    ∃ run : Run (List UInt8),
      runLines .panic id [bytesOf "hello first", bytesOf "2 second"] = some run ∧ Logged run := by
  have hlast : (runLines .panic id [bytesOf "hello first", bytesOf "2 second"]).map Run.log =
      some [⟨0, 1, some (bytesOf "hello"), bytesOf "first"⟩, ⟨0, 2, none, bytesOf "second"⟩] := by
    decide +kernel
  obtain ⟨run, hlines, hlog⟩ := Option.map_eq_some_iff.mp hlast
  refine ⟨run, hlines, (runLines_logged id _).2 .panic run hlines ?_⟩
  rw [hlog]
  exact ⟨by simp, by simp⟩

/-- **A number that is taken**: the symbol receives number 1, and the line that then gives 1
replaces its message. -/
theorem runLines_number_taken :
    ∃ run : Run (List UInt8),
      runLines .panic id [bytesOf "hello first", bytesOf "1 second"] = some run ∧
      run.log = [⟨0, 1, some (bytesOf "hello"), bytesOf "first"⟩, ⟨0, 1, none, bytesOf "second"⟩] ∧
      messagesAt run.input.catalog 0 = [⟨1, bytesOf "second"⟩] ∧ run.symbols 0 1 = none ∧
      ¬Logged run := by
  have hlast : (runLines .panic id [bytesOf "hello first", bytesOf "1 second"]).map
      (fun run => (run.log, messagesAt run.input.catalog 0, run.symbols 0 1)) =
        some ([⟨0, 1, some (bytesOf "hello"), bytesOf "first"⟩, ⟨0, 1, none, bytesOf "second"⟩],
          [⟨1, bytesOf "second"⟩], none) := by decide +kernel
  obtain ⟨run, hlines, hparts⟩ := Option.map_eq_some_iff.mp hlast
  obtain ⟨hlog, hmore⟩ := Prod.mk.inj hparts
  obtain ⟨hmessages, hsymbols⟩ := Prod.mk.inj hmore
  refine ⟨run, hlines, hlog, hmessages, hsymbols, ?_⟩
  intro hlogged
  have hfirst := hlogged.symbols ⟨0, 1, some (bytesOf "hello"), bytesOf "first"⟩ (by simp [hlog])
  rw [hsymbols] at hfirst
  cases hfirst

end SafeLibc.Catgets
