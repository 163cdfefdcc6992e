import SafeLibc.Lib.Str

/-!
# Word expansion without commands, and shell quoting

`wordexp_no_cmd` is one scan over the characters with a quote state; the arms of its `match` are
kept in the source's order, which decides what a special character means in each state. A Rust
string is its list of `char`s, and the process environment is a parameter.

A word written in single quotes does not always survive: the arms for `\` and `$` are taken inside
single quotes too, and an empty word is never pushed.
-/

namespace SafeLibc.Posix

open SafeLibc.Lib List

/-! ## The scanner -/

inductive ParserErrorKind
  | regex
  | commandSubstitution
  | unterminatedQuote
  | glob
  deriving DecidableEq, Repr

structure ParserError where
  kind : ParserErrorKind
  detail : String
  deriving DecidableEq, Repr

def isNameChar (c : Char) : Bool :=
  c == '_' || c.isAlphanum

/-- The process environment; `none` is an unset variable, or one that is not Unicode. -/
abbrev Env := List Char → Option (List Char)

/-- `read_env_expansion`: the expansion and the characters left. -/
def readEnvExpansion (env : Env) (chars : List Char) : List Char × List Char :=
  let name := chars.takeWhile isNameChar
  let rest := chars.dropWhile isNameChar
  if name.isEmpty then (['$'], rest) else ((env name).getD [], rest)

variable (env : Env) (w : List Char)

theorem readEnvExpansion_length (chars : List Char) :
    (readEnvExpansion env chars).2.length ≤ chars.length := by
  have h := (dropWhile_suffix (l := chars) isNameChar).length_le
  simp only [readEnvExpansion]
  split <;> exact h

/-- The `while let` loop of `wordexp_no_cmd`, and what follows it. -/
def wordexpLoop (env : Env) (chars : List Char) (words : List (List Char)) (current : List Char)
    (quote : Option Char) : Except ParserError (List (List Char)) :=
  match chars with
  | [] =>
    if quote.isSome then
      .error ⟨.unterminatedQuote, "unterminated quote in word expansion input"⟩
    else if !current.isEmpty then .ok (words ++ [current])
    else .ok words
  | ch :: chars =>
    if quote = none ∧ ch = '`' then
      .error ⟨.commandSubstitution, "command substitution is disabled"⟩
    else if quote = none ∧ ch = '$' ∧ chars.head? = some '(' then
      .error ⟨.commandSubstitution, "command substitution is disabled"⟩
    else if quote = none ∧ (ch = '\'' ∨ ch = '"') then wordexpLoop env chars words current (some ch)
    else if quote = some ch then wordexpLoop env chars words current none
    else if quote = none ∧ isWhitespace ch then
      if !current.isEmpty then wordexpLoop env chars (words ++ [current]) [] quote
      else wordexpLoop env chars words current quote
    else if ch = '\\' then
      -- `if let Some(next) = chars.next()`
      wordexpLoop env chars.tail words (current ++ chars.head?.toList) quote
    else if ch = '$' then
      wordexpLoop env (readEnvExpansion env chars).2 words
        (current ++ (readEnvExpansion env chars).1) quote
    else wordexpLoop env chars words (current ++ [ch]) quote
termination_by chars.length
decreasing_by
  all_goals simp only [List.length_cons, List.length_tail]
  all_goals first
    | omega
    | exact Nat.lt_succ_of_le (readEnvExpansion_length ..)

def wordexpNoCmd (env : Env) (input : List Char) : Except ParserError (List (List Char)) :=
  wordexpLoop env input [] [] none

/-! ## Quoting -/

/-- The inside of a single-quoted word: an embedded quote closes, escapes itself and reopens. -/
def quotedBody (w : List Char) : List Char :=
  w.flatMap fun c => if c = '\'' then ['\'', '\\', '\'', '\''] else [c]

def shellQuote (w : List Char) : List Char :=
  '\'' :: (quotedBody w ++ ['\''])

def shellJoin (ws : List (List Char)) : List Char :=
  [' '].intercalate (ws.map shellQuote)

/-- A word the scanner copies as it is inside single quotes: no backslash, and no dollar sign before
a name character. -/
def Verbatim : List Char → Prop
  | [] => True
  | c :: w => (c ≠ '\\' ∧ (c = '$' → ∀ d ∈ w.head?, isNameChar d = false)) ∧ Verbatim w

/-! ## The scanner, arm by arm -/

section Arms

variable (env : Env) {words : List (List Char)} {current : List Char} (chars : List Char)

theorem wordexpLoop_openQuote :
    wordexpLoop env ('\'' :: chars) words current none =
      wordexpLoop env chars words current (some '\'') := by
  rw [wordexpLoop]
  simp

theorem wordexpLoop_closeQuote :
    wordexpLoop env ('\'' :: chars) words current (some '\'') =
      wordexpLoop env chars words current none := by
  rw [wordexpLoop]
  simp

theorem wordexpLoop_space (h : current ≠ []) :
    wordexpLoop env (' ' :: chars) words current none =
      wordexpLoop env chars (words ++ [current]) [] none := by
  rw [wordexpLoop]
  simp [isWhitespace, h]

theorem wordexpLoop_backslash (next : Char) (chars : List Char) (quote : Option Char)
    (h : quote ≠ some '\\') :
    wordexpLoop env ('\\' :: next :: chars) words current quote =
      wordexpLoop env chars words (current ++ [next]) quote := by
  rw [wordexpLoop]
  simp [isWhitespace, h]

theorem wordexpLoop_dollar :
    wordexpLoop env ('$' :: chars) words current (some '\'') =
      wordexpLoop env (readEnvExpansion env chars).2 words
        (current ++ (readEnvExpansion env chars).1) (some '\'') := by
  rw [wordexpLoop]
  simp

theorem wordexpLoop_plain {c : Char} (hq : c ≠ '\'') (hb : c ≠ '\\') (hd : c ≠ '$') :
    wordexpLoop env (c :: chars) words current (some '\'') =
      wordexpLoop env chars words (current ++ [c]) (some '\'') := by
  rw [wordexpLoop]
  simp [hb, hd, Ne.symm hq]

end Arms

/-! ## Words the scanner copies -/

theorem quotedBody_cons (c : Char) (w : List Char) :
    quotedBody (c :: w) =
      (if c = '\'' then ['\'', '\\', '\'', '\''] else [c]) ++ quotedBody w := by
  simp [quotedBody]

/-- The first character after the quoted form of `w` starts: that of `w`, or a quote. -/
theorem head?_quotedBody (tail : List Char) :
    (quotedBody w ++ '\'' :: tail).head? = some (w.headD '\'') := by
  cases w with
  | nil => rfl
  | cons c w =>
    rw [quotedBody_cons]
    split
    · next hc => simp [hc]
    · rfl

/-- A dollar sign before no name character stands for itself. -/
theorem readEnvExpansion_none {chars : List Char} (h : ∀ d ∈ chars.head?, isNameChar d = false) :
    readEnvExpansion env chars = (['$'], chars) := by
  cases chars with
  | nil => rfl
  | cons d chars =>
    have hd : isNameChar d = false := h d rfl
    simp [readEnvExpansion, hd]

variable {words rest ws : List (List Char)} {w tail current target : List Char} {c : Char}
  {j k : Nat}

theorem wordexpLoop_quotedBody_cons (hb : c ≠ '\\')
    (hd : c = '$' → ∀ d ∈ w.head?, isNameChar d = false) :
    wordexpLoop env (quotedBody (c :: w) ++ '\'' :: tail) words current (some '\'') =
      wordexpLoop env (quotedBody w ++ '\'' :: tail) words (current ++ [c]) (some '\'') := by
  rw [quotedBody_cons]
  by_cases hq : c = '\''
  · subst hq
    simp only [↓reduceIte, cons_append, nil_append]
    rw [wordexpLoop_closeQuote, wordexpLoop_backslash _ _ _ _ (by simp), wordexpLoop_openQuote]
  · rw [if_neg hq]
    simp only [cons_append, nil_append]
    by_cases hdollar : c = '$'
    · subst hdollar
      have hnext : ∀ d ∈ (quotedBody w ++ '\'' :: tail).head?, isNameChar d = false := by
        intro d hmem
        rw [head?_quotedBody, Option.mem_some_iff] at hmem
        subst hmem
        cases w with
        | nil => rfl
        | cons c' w => exact hd rfl c' rfl
      rw [wordexpLoop_dollar, readEnvExpansion_none env hnext]
    · exact wordexpLoop_plain env _ hq hb hdollar

theorem wordexpLoop_quotedBody (hw : Verbatim w) (tail : List Char)
    (words : List (List Char)) (current : List Char) :
    wordexpLoop env (quotedBody w ++ '\'' :: tail) words current (some '\'') =
      wordexpLoop env tail words (current ++ w) none := by
  induction w generalizing current with
  | nil =>
    rw [append_nil]
    exact wordexpLoop_closeQuote env tail
  | cons c w ih =>
    rw [wordexpLoop_quotedBody_cons env hw.1.1 hw.1.2, ih hw.2, append_assoc]
    rfl

theorem shellJoin_cons_cons (w' : List Char) (ws : List (List Char)) :
    shellJoin (w :: w' :: ws) = '\'' :: (quotedBody w ++ '\'' :: ' ' :: shellJoin (w' :: ws)) := by
  simp [shellJoin, shellQuote]

theorem shellJoin_singleton :
    shellJoin [w] = '\'' :: (quotedBody w ++ ['\'']) := by
  simp [shellJoin, shellQuote]

theorem wordexpLoop_shellJoin (h : ∀ w ∈ ws, w ≠ [] ∧ Verbatim w) (words : List (List Char)) :
    wordexpLoop env (shellJoin ws) words [] none = .ok (words ++ ws) := by
  induction ws generalizing words with
  | nil => simp [shellJoin, wordexpLoop]
  | cons w ws ih =>
    obtain ⟨hne, hw⟩ := h w mem_cons_self
    have hws : ∀ w ∈ ws, w ≠ [] ∧ Verbatim w := fun w hw => h w (mem_cons_of_mem _ hw)
    cases ws with
    | nil =>
      rw [shellJoin_singleton, wordexpLoop_openQuote, wordexpLoop_quotedBody env hw, wordexpLoop]
      simp [hne]
    | cons w' ws =>
      rw [shellJoin_cons_cons, wordexpLoop_openQuote, wordexpLoop_quotedBody env hw,
        nil_append, wordexpLoop_space env _ hne, ih hws]
      simp

/-! ## Words the scanner changes -/

section Output

variable {env : Env} {chars : List Char} {words out : List (List Char)} {current : List Char}
  {quote : Option Char}

section

variable (h : wordexpLoop env chars words current quote = .ok out)
include h

theorem wordexpLoop_ne_nil (hwords : ∀ w ∈ words, w ≠ []) : ∀ w ∈ out, w ≠ [] := by
  fun_induction wordexpLoop env chars words current quote with
  | case2 words current quote hquote hcur =>
    cases h
    intro w hw
    rcases mem_append.1 hw with hw | hw
    · exact hwords w hw
    · rw [mem_singleton.1 hw]
      simpa using hcur
  | case3 => cases h; exact hwords
  | case8 words current quote ch chars _ _ _ _ _ hcur ih =>
    refine ih h fun w hw => ?_
    rcases mem_append.1 hw with hw | hw
    · exact hwords w hw
    · rw [mem_singleton.1 hw]
      simpa using hcur
  | case1 | case4 | case5 => cases h
  | case6 | case7 | case9 | case10 | case11 | case12 => rename_i ih; exact ih h hwords

/-- The words pushed so far stay, and the word under construction only grows. -/
theorem wordexpLoop_extends :
    words <+: out ∧ (current ≠ [] → ∃ more, words ++ [current ++ more] <+: out) := by
  fun_induction wordexpLoop env chars words current quote with
  | case2 words current quote hquote hcur =>
    cases h
    exact ⟨prefix_append _ _, fun _ => ⟨[], by simp⟩⟩
  | case3 words current quote hquote hcur =>
    cases h
    exact ⟨prefix_rfl, fun hne => absurd (by simpa using hcur) hne⟩
  | case8 words current quote ch chars _ _ _ _ _ hcur ih =>
    have hpre := (ih h).1
    exact ⟨(prefix_append _ _).trans hpre, fun _ => ⟨[], by simpa using hpre⟩⟩
  | case1 | case4 | case5 => cases h
  | case6 | case7 | case9 => rename_i ih; exact ih h
  | case10 | case11 | case12 =>
    rename_i ih
    refine ⟨(ih h).1, fun hne => ?_⟩
    obtain ⟨more, hmore⟩ := (ih h).2 (by simp [hne])
    exact ⟨_, by simpa only [append_assoc] using hmore⟩

end

variable {target : List Char} {rest : List (List Char)}

/-- The word under construction is a prefix of the word at its place in the result. -/
theorem wordexpLoop_current_append
    (h : wordexpLoop env chars words current quote = .ok (words ++ target :: rest))
    (hne : current ≠ []) : current <+: target := by
  obtain ⟨more, hmore⟩ := (wordexpLoop_extends h).2 hne
  rw [prefix_append_right_inj, cons_prefix_cons] at hmore
  exact ⟨more, hmore.1⟩

/-- A word pushed by now is the word at its place in the result. -/
theorem wordexpLoop_pushed_eq {word : List Char}
    (h : wordexpLoop env chars (words ++ [word]) current quote = .ok (words ++ target :: rest)) :
    word = target := by
  have hpre := (wordexpLoop_extends h).1
  rw [prefix_append_right_inj, cons_prefix_cons] at hpre
  exact hpre.1

end Output

def xEnv : Env := fun _ => some ['x']

def WordEnd (tail : List Char) : Prop :=
  tail = [] ∨ ∃ t, tail = ' ' :: t

/-- A dollar sign before a name character is replaced by the variable's value. -/
theorem wordexpLoop_expanded (hd : ¬ (c = '$' → ∀ d ∈ w.head?, isNameChar d = false))
    (h : wordexpLoop xEnv (quotedBody (c :: w) ++ '\'' :: tail) words current (some '\'') =
      .ok (words ++ target :: rest)) : c = '$' ∧ current ++ ['x'] <+: target := by
  obtain ⟨rfl, d, hhead, hname⟩ : c = '$' ∧ ∃ d, w.head? = some d ∧ isNameChar d = true := by
    simpa using hd
  have hne : (quotedBody w ++ '\'' :: tail).takeWhile isNameChar ≠ [] := by
    obtain ⟨w', rfl⟩ : ∃ w', w = d :: w' := head?_eq_some_iff.1 hhead
    have hquote : d ≠ '\'' := by
      rintro rfl
      cases hname
    simp [quotedBody_cons, hquote, hname]
  have hx : (readEnvExpansion xEnv (quotedBody w ++ '\'' :: tail)).1 = ['x'] := by
    simp [readEnvExpansion, hne, xEnv]
  rw [quotedBody_cons, if_neg (by decide), singleton_append, cons_append,
    wordexpLoop_dollar, hx] at h
  exact ⟨rfl, wordexpLoop_current_append h (by simp)⟩

/-- A character that is no backslash puts no backslash next into the word. -/
theorem wordexpLoop_next_ne_backslash (hc : c ≠ '\\')
    (h : wordexpLoop xEnv (quotedBody (c :: w) ++ '\'' :: tail) words current (some '\'') =
      .ok (words ++ target :: rest)) : ∃ f, f ≠ '\\' ∧ current ++ [f] <+: target := by
  by_cases hd : c = '$' → ∀ d ∈ w.head?, isNameChar d = false
  · rw [wordexpLoop_quotedBody_cons xEnv hc hd] at h
    exact ⟨c, hc, wordexpLoop_current_append h (by simp)⟩
  · exact ⟨'x', by decide, (wordexpLoop_expanded hd h).2⟩

/-- Of a run of backslashes every second one is lost. -/
theorem replicate_backslash_append {f : Char} {s : List Char} (hjk : j < k)
    (h : replicate j '\\' ++ [f] <+: replicate k '\\' ++ s) : f = '\\' := by
  obtain ⟨more, hmore⟩ := h
  have hget := congrArg (·[j]?) hmore
  simpa [getElem?_append, hjk] using hget

/-- At the end of a word a run of backslashes has lost half of its length. -/
theorem wordexpLoop_run_end (htail : WordEnd tail) {cur : List Char} (hj : 0 < j) (hjk : j < k)
    (h : wordexpLoop xEnv ('\'' :: tail) words (cur ++ replicate j '\\') (some '\'') =
      .ok (words ++ (cur ++ replicate k '\\') :: rest)) : False := by
  have hne : cur ++ replicate j '\\' ≠ [] := by
    rw [Ne, append_eq_nil_iff, replicate_eq_nil_iff]
    omega
  have heq : cur ++ replicate j '\\' = cur ++ replicate k '\\' := by
    rw [wordexpLoop_closeQuote] at h
    rcases htail with rfl | ⟨t, rfl⟩
    · rw [wordexpLoop] at h
      simp only [Option.isSome_none, Bool.false_eq_true, ↓reduceIte, isEmpty_eq_false_iff.2 hne,
        Bool.not_false, Except.ok.injEq, append_cancel_left_eq, List.cons.injEq] at h
      rw [h.1]
    · rw [wordexpLoop_space _ _ hne] at h
      exact wordexpLoop_pushed_eq h
  have := congrArg List.length heq
  simp only [length_append, length_replicate] at this
  omega

theorem wordexpLoop_backslash_run {tail : List Char} (htail : WordEnd tail)
    (words : List (List Char)) (cur : List Char) (rest : List (List Char)) :
    ∀ (s : List Char) (j : Nat),
      wordexpLoop xEnv (quotedBody ('\\' :: s) ++ '\'' :: tail) words
        (cur ++ replicate j '\\') (some '\'') ≠
      .ok (words ++ (cur ++ (replicate (2 * j + 1) '\\' ++ s)) :: rest)
  | s, j => by
    intro h
    have hbody : quotedBody ('\\' :: s) = '\\' :: quotedBody s := quotedBody_cons _ _
    have hhead := head?_quotedBody s tail
    obtain ⟨chars, hchars⟩ := head?_eq_some_iff.1 hhead
    rw [hbody, cons_append, hchars, wordexpLoop_backslash _ _ _ _ (by decide)] at h
    -- the escaped character lands where the word has a backslash, so it is one
    have hpre := wordexpLoop_current_append h (by simp)
    rw [append_assoc, prefix_append_right_inj] at hpre
    have hd : s.headD '\'' = '\\' := replicate_backslash_append (by omega) hpre
    match s with
    | [] => exact absurd hd (by decide)
    | c :: s' =>
      obtain rfl : c = '\\' := hd
      have hbody' : quotedBody ('\\' :: s') = '\\' :: quotedBody s' := quotedBody_cons _ _
      rw [hbody', cons_append, headD_cons, List.cons.injEq] at hchars
      rw [headD_cons, ← hchars.2, append_assoc, ← replicate_succ'] at h
      have htarget : replicate (2 * j + 1) '\\' ++ '\\' :: s' =
          replicate (2 * (j + 1)) '\\' ++ s' := by
        rw [show 2 * (j + 1) = 2 * j + 1 + 1 from rfl, replicate_succ' (n := 2 * j + 1)]
        simp
      rw [htarget] at h
      match s' with
      | [] =>
        rw [append_nil] at h
        exact wordexpLoop_run_end htail (by omega) (by omega) h
      | c :: t =>
        by_cases hc : c = '\\'
        · subst hc
          refine wordexpLoop_backslash_run htail words cur rest t (j + 1) (h.trans ?_)
          rw [replicate_succ' (n := 2 * (j + 1))]
          simp
        · obtain ⟨f, hf, hpre'⟩ := wordexpLoop_next_ne_backslash hc h
          rw [append_assoc, prefix_append_right_inj] at hpre'
          exact hf (replicate_backslash_append (by omega) hpre')
termination_by s => s.length

/-- A word that is not verbatim is not read back. -/
theorem wordexpLoop_not_verbatim (htail : WordEnd tail) (hw : ¬ Verbatim w) (cur : List Char) :
    wordexpLoop xEnv (quotedBody w ++ '\'' :: tail) words cur (some '\'') ≠
      .ok (words ++ (cur ++ w) :: rest) := by
  induction w generalizing cur with
  | nil => exact absurd trivial hw
  | cons c w ih =>
    intro h
    by_cases hc : c = '\\'
    · subst hc
      refine wordexpLoop_backslash_run htail words cur rest w 0 ?_
      simpa using h
    · by_cases hd : c = '$' → ∀ d ∈ w.head?, isNameChar d = false
      · rw [wordexpLoop_quotedBody_cons xEnv hc hd] at h
        refine ih (fun hw' => hw ⟨⟨hc, hd⟩, hw'⟩) (cur ++ [c]) ?_
        simpa using h
      · obtain ⟨rfl, hpre⟩ := wordexpLoop_expanded hd h
        rw [prefix_append_right_inj, cons_prefix_cons] at hpre
        exact absurd hpre.1 (by decide)

theorem verbatim_of_wordexpLoop (hne : ∀ w ∈ ws, w ≠ [])
    (h : wordexpLoop xEnv (shellJoin ws) words [] none = .ok (words ++ ws)) :
    ∀ w ∈ ws, Verbatim w := by
  induction ws generalizing words with
  | nil => simp
  | cons w ws ih =>
    have hws : ∀ w ∈ ws, w ≠ [] := fun w hw => hne w (mem_cons_of_mem _ hw)
    have hw : Verbatim w := by
      by_contra hw
      cases ws with
      | nil =>
        rw [shellJoin_singleton, wordexpLoop_openQuote] at h
        exact wordexpLoop_not_verbatim (.inl rfl) hw [] h
      | cons w' ws =>
        rw [shellJoin_cons_cons, wordexpLoop_openQuote] at h
        exact wordexpLoop_not_verbatim (.inr ⟨_, rfl⟩) hw [] h
    intro v hv
    rcases mem_cons.1 hv with rfl | hv
    · exact hw
    · cases ws with
      | nil => cases hv
      | cons w' ws =>
        rw [shellJoin_cons_cons, wordexpLoop_openQuote, wordexpLoop_quotedBody xEnv hw,
          nil_append, wordexpLoop_space xEnv _ (hne w mem_cons_self)] at h
        exact ih hws (by rwa [append_assoc]) v hv

/-- **Shell quoting.** The words of a list, each written in single quotes, are read back under
every environment exactly when no word is empty, holds a backslash, or holds a dollar sign before
a letter, a digit or an underscore. -/
theorem wordexpNoCmd_shellJoin_iff (ws : List (List Char)) :
    (∀ env, wordexpNoCmd env (shellJoin ws) = .ok ws) ↔ ∀ w ∈ ws, w ≠ [] ∧ Verbatim w := by
  constructor
  · intro h
    have hx : wordexpLoop xEnv (shellJoin ws) [] [] none = .ok ([] ++ ws) := h xEnv
    have hne := wordexpLoop_ne_nil hx (by simp)
    exact fun w hw => ⟨hne w hw, verbatim_of_wordexpLoop hne hx w hw⟩
  · intro h env
    exact wordexpLoop_shellJoin env h []

/-- A backslash in single quotes is dropped. -/
theorem wordexpNoCmd_backslash :
    ¬ ∀ env, wordexpNoCmd env (shellJoin [['a', '\\', 'b']]) = .ok [['a', '\\', 'b']] := by
  intro h
  have hab : wordexpNoCmd xEnv (shellJoin [['a', '\\', 'b']]) = .ok [['a', 'b']] := by
    decide +kernel
  rw [h xEnv] at hab
  cases hab

end SafeLibc.Posix
