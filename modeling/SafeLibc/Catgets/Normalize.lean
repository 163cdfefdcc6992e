import SafeLibc.Catgets.Gencat
import Mathlib.Data.List.TakeWhile

/-!
# gencat: message texts in Rust and in C

`normalize_line` of `catgets/gencat.c` works in place, with a read pointer that the write pointer
never passes; here it takes the characters that are left to read and gives the text that is written
and the characters it stops before. The codeset is a single-byte one whose conversion changes
nothing, so a wide character is a byte; the escape character is the backslash, and a quote character
of 0 is none.

The C function ends the text at every quote character that is not escaped, the Rust one only where
the text starts with one. `normalizeMessage_eq_iff` says when that makes a difference.
-/

namespace SafeLibc.Catgets

open SafeLibc.Lib List

namespace C

def normalizeLoop (quoteChar : UInt8) : List UInt8 → List UInt8 × List UInt8
  | [] => ([], [])
  | c :: rest =>
    if c = quoteChar then ([], c :: rest)
    else if c = byte '\\' then
      match rest with
      -- the terminator is no case of the `switch`, and ends the loop
      | [] => ([], [])
      | e :: rest =>
        if quoteChar ≠ 0 ∧ e = quoteChar then
          (normalizeLoop quoteChar rest).map (e :: ·) id
        else if e = byte 'n' then (normalizeLoop quoteChar rest).map (byte '\n' :: ·) id
        else if e = byte 't' then (normalizeLoop quoteChar rest).map (byte '\t' :: ·) id
        else if e = byte 'v' then (normalizeLoop quoteChar rest).map (0x0b :: ·) id
        else if e = byte 'b' then (normalizeLoop quoteChar rest).map (0x08 :: ·) id
        else if e = byte 'r' then (normalizeLoop quoteChar rest).map (byte '\r' :: ·) id
        else if e = byte 'f' then (normalizeLoop quoteChar rest).map (0x0c :: ·) id
        else if isOctalDigit e then
          let octal := octalEscape (e - byte '0').toNat rest
          (normalizeLoop quoteChar octal.2).map (UInt8.ofNat octal.1 :: ·) id
        else if e = byte '\\' then (normalizeLoop quoteChar rest).map (byte '\\' :: ·) id
        -- only the backslash is dropped
        else normalizeLoop quoteChar (e :: rest)
    else (normalizeLoop quoteChar rest).map (c :: ·) id
termination_by line => line.length
decreasing_by
  all_goals
    try have hlen := length_octalEscape (e - byte '0').toNat rest
    simp only [List.length_cons]
    omega

/-- The text, up to where the terminator is written, and what the loop stopped before. -/
def normalizeLine (line : List UInt8) (quoteChar : UInt8) : List UInt8 × List UInt8 :=
  normalizeLoop quoteChar
    (if quoteChar ≠ 0 ∧ line.head? = some quoteChar then line.drop 1 else line)

end C

def upToNul (text : List UInt8) : List UInt8 := text.takeWhile (· ≠ 0)

/-! ## The two loops -/

/-- `r` goes on from `c`'s text where `c` has stopped before a quote character. -/
structure GoesOn (quoteChar : UInt8) (quoted : Bool) (c : List UInt8 × List UInt8)
    (r : List UInt8) : Prop where
  text : ∃ more, r = c.1 ++ more ∧ (c.2 = [] ∨ quoted = true → more = []) ∧
    (c.2 ≠ [] → quoted = false → more.head? = some quoteChar)
  stop : c.2 ≠ [] → quoteChar ≠ 0

theorem GoesOn.cons {quoteChar : UInt8} {quoted : Bool} {c : List UInt8 × List UInt8}
    {r : List UInt8} (h : GoesOn quoteChar quoted c r) (b : UInt8) :
    GoesOn quoteChar quoted (c.map (b :: ·) id) (b :: r) := by
  obtain ⟨⟨more, rfl, hnil, hquote⟩, hstop⟩ := h
  exact ⟨⟨more, rfl, hnil, hquote⟩, hstop⟩

theorem isOctalDigit_ne {e : UInt8} (h : isOctalDigit e = true) :
    escapedByte e = e ∧ e ≠ byte 'n' ∧ e ≠ byte 't' ∧ e ≠ byte 'v' ∧ e ≠ byte 'b' ∧ e ≠ byte 'r' ∧
      e ≠ byte 'f' := by
  revert e
  exact @forall_byte _ (by decide +kernel)

theorem octalEscape_suffix (value : Nat) (input : List UInt8) :
    (octalEscape value input).2 <:+ input := by
  induction input generalizing value with
  | nil => exact suffix_rfl
  | cons d rest ih =>
    rw [octalEscape]
    split
    · exact (ih _).trans (suffix_cons d rest)
    · exact suffix_rfl

section Loops

variable {quote : Option UInt8} {c : UInt8}

theorem eq_getD_iff (hc : c ≠ 0) : c = quote.getD 0 ↔ some c = quote := by
  cases quote <;> simp [hc]

theorem isQuoteChar_iff (hc : c ≠ 0) : quote.getD 0 ≠ 0 ∧ c = quote.getD 0 ↔ some c = quote := by
  rw [← eq_getD_iff hc]
  exact ⟨And.right, fun h => ⟨h ▸ hc, h⟩⟩

variable (quoted : Bool) (hbackslash : quote ≠ some (byte '\\'))

include hbackslash

/-- An escape is one byte in both loops. -/
theorem goesOn_escape {rest : List UInt8} (hc : c ≠ 0)
    (ih : ∀ tail, tail <:+ rest → GoesOn (quote.getD 0) quoted (C.normalizeLoop (quote.getD 0) tail)
      (normalizeFrom quote quoted .bytes tail)) :
    GoesOn (quote.getD 0) quoted (C.normalizeLoop (quote.getD 0) (byte '\\' :: c :: rest))
      (normalizeFrom quote quoted .bytes (byte '\\' :: c :: rest)) := by
  have hrest := ih rest suffix_rfl
  have hescape := (eq_getD_iff (by decide)).not.2 (Ne.symm hbackslash)
  rw [C.normalizeLoop.eq_def, normalizeFrom.eq_def]
  simp only [hescape, Ne.symm hbackslash, isQuoteChar_iff hc, reduceCtorEq, decide_false,
    Bool.false_and, Bool.and_false, Bool.false_eq_true, ↓reduceIte, ne_eq, not_true_eq_false]
  by_cases hquote : some c = quote
  · rw [if_pos hquote, if_pos hquote]
    exact hrest.cons c
  rw [if_neg hquote, if_neg hquote]
  by_cases hoctal : isOctalDigit c = true
  · obtain ⟨-, h1, h2, h3, h4, h5, h6⟩ := isOctalDigit_ne hoctal
    simp only [h1, h2, h3, h4, h5, h6, hoctal]
    exact (ih _ (octalEscape_suffix _ rest)).cons _
  by_cases hsecond : c = byte '\\'
  · subst hsecond
    exact hrest.cons (byte '\\')
  -- the other letters; a byte without a meaning is read again, as itself
  have hagain : C.normalizeLoop (quote.getD 0) (c :: rest) =
      (C.normalizeLoop (quote.getD 0) rest).map (c :: ·) id := by
    rw [C.normalizeLoop.eq_def]
    simp only [(eq_getD_iff hc).not.2 hquote, hsecond, ↓reduceIte]
  rw [hagain]
  unfold escapedByte
  split_ifs <;> exact hrest.cons _

/-- **One message in both loops**: each escape is one byte in both, and only a bare quote character
tells them apart. -/
theorem normalizeLoop_goesOn (input : List UInt8) (hnul : 0 ∉ input) :
    GoesOn (quote.getD 0) quoted (C.normalizeLoop (quote.getD 0) input)
      (normalizeFrom quote quoted .bytes input) := by
  induction hn : input.length using Nat.strongRecOn generalizing input with
  | ind n ih =>
    cases input with
    | nil =>
      rw [C.normalizeLoop, normalizeFrom]
      exact ⟨⟨[], rfl, fun _ => rfl, fun h => absurd rfl h⟩, fun h => absurd rfl h⟩
    | cons c rest =>
      rw [mem_cons, not_or] at hnul
      rw [length_cons] at hn
      have hc := Ne.symm hnul.1
      by_cases hslash : c = byte '\\'
      · subst hslash
        cases rest with
        | nil =>
          rw [C.normalizeLoop.eq_def, normalizeFrom.eq_def]
          simp only [(eq_getD_iff hc).not.2 (Ne.symm hbackslash), Ne.symm hbackslash, decide_false,
            Bool.and_false, Bool.false_eq_true, ↓reduceIte]
          exact ⟨⟨[], rfl, fun _ => rfl, fun h => absurd rfl h⟩, fun h => absurd rfl h⟩
        | cons e rest =>
          rw [mem_cons, not_or] at hnul
          rw [length_cons] at hn
          refine goesOn_escape quoted hbackslash (Ne.symm hnul.2.1) fun tail htail => ?_
          have hlen := htail.length_le
          exact ih tail.length (by omega) tail (fun hmem => hnul.2.2 (htail.subset hmem)) rfl
      · rw [C.normalizeLoop.eq_def, normalizeFrom.eq_def]
        simp only [eq_getD_iff hc, hslash, reduceCtorEq, decide_false, Bool.false_and,
          Bool.false_eq_true, ne_eq, not_false_eq_true, ↓reduceIte]
        by_cases hquote : some c = quote
        · -- a bare quote character
          have hstop : quote.getD 0 ≠ 0 := ((isQuoteChar_iff hc).2 hquote).1
          cases quoted with
          | true =>
            simp only [hquote]
            exact ⟨⟨[], rfl, fun _ => rfl, fun _ h => absurd h (by decide)⟩, fun _ => hstop⟩
          | false =>
            simp only [hquote, Bool.false_and]
            refine ⟨⟨_, rfl, fun h => by simp at h, fun _ _ => ?_⟩, fun _ => hstop⟩
            rw [head?_cons, (eq_getD_iff hc).2 hquote]
        · simp only [hquote, decide_false, Bool.and_false, Bool.false_eq_true, ↓reduceIte]
          exact (ih rest.length (by omega) rest hnul.2 rfl).cons c

end Loops

/-! ## The texts -/

theorem upToNul_append (text : List UInt8) {more : List UInt8} (h : 0 ∈ text ∨ more = []) :
    upToNul (text ++ more) = upToNul text := by
  rcases h with hnul | rfl
  · unfold upToNul
    induction text with
    | nil => cases hnul
    | cons b text ih =>
      by_cases hb : b = 0
      · simp [hb]
      · have hmem : 0 ∈ text := by
          rcases mem_cons.mp hnul with h | h
          · exact absurd h.symm hb
          · exact h
        rw [cons_append, takeWhile_cons_of_pos (by simpa using hb),
          takeWhile_cons_of_pos (by simpa using hb), ih hmem]
  · rw [append_nil]

theorem upToNul_append_ne {text more : List UInt8} {q : UInt8} (hnul : 0 ∉ text) (hq : q ≠ 0)
    (hmore : more.head? = some q) : upToNul (text ++ more) ≠ upToNul text := by
  obtain ⟨tail, rfl⟩ := head?_eq_some_iff.mp hmore
  intro heq
  have hall : ∀ b ∈ text, decide (b ≠ 0) = true := by
    intro b hb
    simpa using fun h : b = 0 => hnul (h ▸ hb)
  unfold upToNul at heq
  rw [takeWhile_append_of_pos hall, takeWhile_eq_self_iff.mpr hall,
    takeWhile_cons_of_pos (by simpa using hq)] at heq
  simpa using congrArg List.length heq

/-- The texts from one rest of the line on. -/
theorem texts_eq_iff {quote : Option UInt8} (quoted : Bool)
    (hbackslash : quote ≠ some (byte '\\')) {input : List UInt8} (hnul : 0 ∉ input) :
    upToNul (normalizeFrom quote quoted .bytes input) =
        upToNul (C.normalizeLoop (quote.getD 0) input).1 ↔
      quoted = true ∨ ¬((C.normalizeLoop (quote.getD 0) input).2 ≠ [] ∧
        0 ∉ (C.normalizeLoop (quote.getD 0) input).1) := by
  obtain ⟨⟨more, hmore, hnil, hquote⟩, hstop⟩ :=
    normalizeLoop_goesOn quoted hbackslash input hnul
  rw [hmore]
  constructor
  · intro heq
    by_contra hnot
    rw [not_or, not_not, Bool.not_eq_true] at hnot
    obtain ⟨hopen, hrest, htext⟩ := hnot
    exact upToNul_append_ne htext (hstop hrest) (hquote hrest hopen) heq
  · rw [not_and_or, not_not, not_not]
    rintro (h | h | h)
    · exact upToNul_append _ (.inr (hnil (.inr h)))
    · exact upToNul_append _ (.inr (hnil (.inl h)))
    · exact upToNul_append _ (.inl h)

/-- The line has a quote character that no backslash stands before, and before it no octal escape of
value 0. The digits of an octal escape are no quote characters. -/
def bareQuote (q : UInt8) : List UInt8 → Bool
  | [] => false
  | c :: rest =>
    if c = q then true
    else if c = byte '\\' then
      match rest with
      | [] => false
      | e :: rest =>
        if e ≠ q ∧ isOctalDigit e then
          let octal := octalEscape (e - byte '0').toNat rest
          UInt8.ofNat octal.1 ≠ 0 && bareQuote q octal.2
        else bareQuote q rest
    else bareQuote q rest
termination_by line => line.length
decreasing_by
  all_goals
    try have hlen := length_octalEscape (e - byte '0').toNat rest
    simp only [List.length_cons]
    omega

theorem bareQuote_escape {q e : UInt8} (rest : List UInt8) (hslash : q ≠ byte '\\')
    (he : e = q ∨ isOctalDigit e = false) :
    bareQuote q (byte '\\' :: e :: rest) = bareQuote q rest := by
  rw [bareQuote, if_neg (Ne.symm hslash), if_pos rfl]
  dsimp only
  rw [if_neg]
  rintro ⟨hne, hoctal⟩
  rcases he with rfl | he
  · exact hne rfl
  · rw [he] at hoctal
    cases hoctal

theorem stops_cons {c : List UInt8 × List UInt8} {b : UInt8} (hb : b ≠ 0) :
    ((c.map (b :: ·) id).2 ≠ [] ∧ 0 ∉ (c.map (b :: ·) id).1) ↔ (c.2 ≠ [] ∧ 0 ∉ c.1) := by
  simp [Ne.symm hb]

/-- The C loop stops before a bare quote character, with no NUL in its text, if there is one. -/
theorem bareQuote_iff {q : UInt8} (hslash : q ≠ byte '\\') {input : List UInt8}
    (hnul : 0 ∉ input) :
    bareQuote q input = true ↔
      (C.normalizeLoop q input).2 ≠ [] ∧ 0 ∉ (C.normalizeLoop q input).1 := by
  fun_induction C.normalizeLoop q input with
  | case1 => simp [bareQuote]
  | case2 => simp [bareQuote.eq_def]
  | case3 => simp [bareQuote, Ne.symm hslash]
  | case4 e rest he _ ih =>
    simp only [mem_cons, not_or] at hnul
    rw [bareQuote_escape rest hslash (.inl he.2), ih hnul.2.2, stops_cons (Ne.symm hnul.2.1)]
  | case11 e rest he _ _ _ _ _ _ hoctal octal _ ih =>
    simp only [mem_cons, not_or] at hnul
    obtain ⟨digits, hdigits⟩ := octalEscape_suffix (e - byte '0').toNat rest
    have hrest : 0 ∉ octal.2 := fun h => hnul.2.2 (hdigits ▸ mem_append_right digits h)
    rw [bareQuote, if_neg (Ne.symm hslash), if_pos rfl]
    dsimp only
    rw [if_pos ⟨fun h => he ⟨h ▸ Ne.symm hnul.2.1, h⟩, hoctal⟩, Bool.and_eq_true, ih hrest,
      decide_eq_true_eq]
    constructor
    · rintro ⟨hvalue, hstops⟩
      exact (stops_cons hvalue).2 hstops
    · intro hstops
      have hvalue : UInt8.ofNat octal.1 ≠ 0 := fun h => hstops.2 (h ▸ mem_cons_self)
      exact ⟨hvalue, (stops_cons hvalue).1 hstops⟩
  | case13 e rest he _ _ _ _ _ _ hoctal hother _ ih =>
    simp only [mem_cons, not_or] at hnul
    have hbyte : bareQuote q (e :: rest) = bareQuote q rest := by
      rw [bareQuote.eq_def]
      simp only [if_neg fun h : e = q => he ⟨h ▸ Ne.symm hnul.2.1, h⟩, if_neg hother]
    rw [bareQuote_escape rest hslash (.inr (by simpa using hoctal)), ← hbyte]
    exact ih (by simp [hnul])
  | case14 c rest hc hother ih =>
    simp only [mem_cons, not_or] at hnul
    rw [stops_cons (Ne.symm hnul.1), ← ih hnul.2, bareQuote.eq_def]
    simp only [if_neg hc, if_neg hother]
  | _ =>
    -- the letters that stand for one other byte, and the backslash itself
    rename_i ih
    simp only [mem_cons, not_or] at hnul
    rw [bareQuote_escape _ hslash (.inr (by decide)), ih hnul.2.2, stops_cons (by decide)]

/-- **When the texts agree**: exactly where no quote character is set, the message starts with it,
or the message has no bare quote character. -/
theorem normalizeMessage_eq_iff {line : List UInt8} {quote : Option UInt8} (hnul : 0 ∉ line)
    (hbackslash : quote ≠ some (byte '\\')) :
    upToNul (normalizeMessage line quote .bytes) = upToNul (C.normalizeLine line (quote.getD 0)).1 ↔
      ∀ q, quote = some q → line.head? = some q ∨ bareQuote q line = false := by
  cases quote with
  | none =>
    obtain ⟨-, hstop⟩ := normalizeLoop_goesOn false hbackslash line hnul
    have hline : C.normalizeLine line 0 = C.normalizeLoop 0 line := rfl
    have hmessage : normalizeMessage line none .bytes = normalizeFrom none false .bytes line := rfl
    rw [Option.getD_none, hline, hmessage]
    exact iff_of_true
      ((texts_eq_iff false hbackslash hnul).2 (.inr fun h => hstop h.1 rfl)) (by simp)
  | some q =>
    simp only [Option.some.injEq, forall_eq']
    by_cases hhead : line.head? = some q
    · obtain ⟨tail, rfl⟩ := head?_eq_some_iff.mp hhead
      rw [mem_cons, not_or] at hnul
      have hline : C.normalizeLine (q :: tail) q = C.normalizeLoop q tail := by
        simp [C.normalizeLine, Ne.symm hnul.1]
      have hmessage : normalizeMessage (q :: tail) (some q) .bytes =
          normalizeFrom (some q) true .bytes tail := by simp [normalizeMessage]
      rw [Option.getD_some, hline, hmessage]
      exact iff_of_true ((texts_eq_iff true hbackslash hnul.2).2 (.inl rfl)) (.inl hhead)
    · have hline : C.normalizeLine line q = C.normalizeLoop q line := by
        simp [C.normalizeLine, hhead]
      have hmessage : normalizeMessage line (some q) .bytes =
          normalizeFrom (some q) false .bytes line := by simp [normalizeMessage, hhead]
      have htexts := texts_eq_iff false hbackslash hnul
      rw [Option.getD_some, ← bareQuote_iff (fun h => hbackslash (congrArg some h)) hnul] at htexts
      rw [Option.getD_some, hline, hmessage, htexts]
      simp [hhead]

/-- A message that is not quoted, with an escaped quote character and one in an octal escape. -/
theorem normalizeMessage_eq_escaped :
    upToNul (normalizeMessage (bytesOf "a\\1b\\0612 c") (some (byte '1')) .bytes) =
      upToNul (C.normalizeLine (bytesOf "a\\1b\\0612 c") (byte '1')).1 :=
  (normalizeMessage_eq_iff (show 0 ∉ bytesOf "a\\1b\\0612 c" by decide +kernel)
    (show some (byte '1') ≠ some (byte '\\') by decide)).mpr
    (by rintro q ⟨⟩; exact .inr (by decide +kernel))

/-- **A quote character inside of an unquoted message** ends the text in C and is kept in Rust. -/
theorem normalizeMessage_inner_quote :
    normalizeMessage (bytesOf "a\"b") (some (byte '"')) .bytes = bytesOf "a\"b" ∧
      (C.normalizeLine (bytesOf "a\"b") (byte '"')).1 = bytesOf "a" ∧
      upToNul (normalizeMessage (bytesOf "a\"b") (some (byte '"')) .bytes) ≠
        upToNul (C.normalizeLine (bytesOf "a\"b") (byte '"')).1 := by
  decide +kernel

end SafeLibc.Catgets
