import Mathlib.Data.List.Perm.Basic
import Mathlib.Data.List.TakeWhile
import SafeLibc.Posix.Getopt

/-!
# Permutation and the order of options

`scan` says what the options of an argument list are, from left to right and without a state: an
element is a non-option, the `--` that ends the options, or one or more options together with the
elements after it that are taken as arguments.

In `PERMUTE` mode the calls of `_getopt_internal_r` follow this scan. `Layout` splits `argv` at the
indices of the state. `getoptInternalR_step` is one call, and `getoptAll_inv` all calls until the
return of -1.
-/

namespace SafeLibc.Posix.Getopt

open SafeLibc.Lib List

/-! ## The scan from left to right -/

/-- The results, the option elements with their arguments and a possible `--`, and the
non-options. -/
structure Scan where
  results : List Result
  options : List Str
  nonoptions : List Str
  deriving DecidableEq, Repr

def printErrors (cfg : Config) : Bool := cfg.opterr && cfg.optstring.head? ≠ some (byte ':')

/-- The results for the rest of a cluster of short options, and how many of the following elements
are taken. -/
def cluster (cfg : Config) : Str → List Str → List Result × Nat
  | [], _ => ([], 0)
  | c :: text, following =>
    let step :=
      shortOption cfg.optstring cfg.longopts (printErrors cfg) Result.blank c text following
    if step.advance = 0 then
      (step.result :: (cluster cfg text following).1, (cluster cfg text following).2)
    else ([step.result], step.advance - 1)

def scanElement (cfg : Config) (e : Str) (following : List Str) : List Result × Nat :=
  match cfg.longopts with
  | none => cluster cfg (e.drop 1) following
  | some longopts =>
    let long (dashes : Str) (twoDashes : Bool) (text : Str) : Step :=
      longOption cfg.optstring longopts cfg.longOnly (printErrors cfg) dashes
        twoDashes text following.head?
    if e[1]? = some (byte '-') then
      ([(long dashDash true (e.drop 2)).result], (long dashDash true (e.drop 2)).advance - 1)
    else if cfg.longOnly && (e[2]?.isSome ||
        e[1]?.any fun c => (strchr cfg.optstring c).isEmpty) then
      if (long [byte '-'] false (e.drop 1)).advance = 0 then cluster cfg (e.drop 1) following
      else ([(long [byte '-'] false (e.drop 1)).result],
        (long [byte '-'] false (e.drop 1)).advance - 1)
    else cluster cfg (e.drop 1) following

def scan (cfg : Config) : List Str → Scan
  | [] => ⟨[], [], []⟩
  | e :: rest =>
    if nonoption e then
      { scan cfg rest with nonoptions := e :: (scan cfg rest).nonoptions }
    else if e = dashDash then ⟨[], [e], rest⟩
    else
      let found := scanElement cfg e rest
      let s := scan cfg (rest.drop found.2)
      ⟨found.1 ++ s.results, e :: rest.take found.2 ++ s.options, s.nonoptions⟩
termination_by args => args.length

theorem some_bind {α β : Type} (a : α) (f : α → Option β) : (some a >>= f) = f a := rfl

/-! ## One option -/

/-- No option is returned as -1: a long option with that value, or the character 255. -/
structure NoMinusOne (cfg : Config) : Prop where
  long : ∀ longopts, cfg.longopts = some longopts → ∀ p ∈ longopts, p.flag = none → p.val ≠ -1
  short : 255 ∉ cfg.optstring

def NoNext (nextchar : Option Str) : Prop := nextchar = none ∨ nextchar = some []

variable {cfg : Config} {longopts : List LongOption} {longOnly pe : Bool} {dashes text : Str}
  {two : Bool} {optstring : Str}

variable {e name : Str} {i : Nat} {p : LongOption} {c : UInt8} {following : List Str} {step : Step}
  {goal : Scan}

theorem exactMatch_mem {ps : List LongOption} {k : Nat} (h : exactMatch name ps k = some (i, p)) :
    p ∈ ps := by
  induction ps generalizing k with
  | nil => nomatch h
  | cons q ps ih =>
    rw [exactMatch] at h
    split at h
    · cases h
      exact mem_cons_self
    · exact mem_cons_of_mem _ (ih h)

theorem abbreviations_mem (ps : List LongOption) (k : Nat) (found : Option (Nat × LongOption))
    (ambig : List Str) (h : (abbreviations longOnly name ps k found ambig).1 = some (i, p)) :
    p ∈ ps ∨ found = some (i, p) := by
  fun_induction abbreviations longOnly name ps k found ambig with
  | case1 => exact .inr h
  | case2 q ps k ambig hname ih =>
    rcases ih h with hmem | hfound
    · exact .inl (mem_cons_of_mem _ hmem)
    · cases hfound
      exact .inl mem_cons_self
  | case3 q ps k ambig hname j first hdiffers ih
  | case4 q ps k ambig hname j first hsame ih
  | case5 q ps k found ambig hname ih => exact (ih h).imp_left (mem_cons_of_mem _)

theorem lookup_mem (h : lookup longopts longOnly name = .found i p) : p ∈ longopts := by
  unfold lookup at h
  split at h
  case h_1 i' p' hexact =>
    cases h
    exact exactMatch_mem hexact
  case h_2 hexact =>
    split at h
    case h_1 i' p' habbr =>
      cases h
      have hfound :
          (abbreviations longOnly name longopts 0 none []).1 = some (i, p) := by rw [habbr]
      exact (abbreviations_mem longopts 0 none [] hfound).resolve_right (by simp)
    case h_2 => nomatch h
    case h_3 => nomatch h

theorem missing_ne (optstring : Str) : missing optstring ≠ -1 := by
  unfold missing
  split <;> decide

theorem questionMark_ne : questionMark ≠ -1 := by decide

/-- An attempt at a long option that advances: it takes the next element at most, and leaves nothing
of its own. -/
structure Advances (step : Step) (following : Nat) : Prop where
  pos : 0 < step.advance
  le : step.advance ≤ 1 + following
  next : NoNext step.nextchar

theorem longFound_ne {arg : Option Str} (h : p.flag = none → p.val ≠ -1) :
    (longFound i p arg).ret ≠ -1 := by
  unfold longFound
  cases hflag : p.flag with
  | none => simpa [hflag] using h hflag
  | some flag => simp

theorem longOption_spec (h : ∀ p ∈ longopts, p.flag = none → p.val ≠ -1)
    (step : Step)
    (hstep : longOption optstring longopts longOnly pe dashes two text following.head? = step) :
    step = ⟨Result.blank, 0, some text⟩ ∧ longOnly = true ∧ two = false ∨
      Advances step following.length ∧ step.result.ret ≠ -1 := by
  unfold longOption at hstep
  dsimp only at hstep
  split at hstep
  case h_1 => subst hstep; exact .inr ⟨⟨by simp, by simp, .inr rfl⟩, questionMark_ne⟩
  case h_2 =>
    split at hstep
    case isTrue => subst hstep; exact .inr ⟨⟨by simp, by simp, .inl rfl⟩, questionMark_ne⟩
    case isFalse hshort =>
      simp only [Bool.or_eq_true, not_or] at hshort
      exact .inl ⟨hstep.symm, by simpa using hshort.1.1, by simpa using hshort.1.2⟩
  case h_3 index p hfound =>
    right
    have hp := h p (lookup_mem hfound)
    split at hstep
    · split at hstep
      · subst hstep
        exact ⟨⟨by simp, by simp, .inl rfl⟩, longFound_ne hp⟩
      · subst hstep
        exact ⟨⟨by simp, by simp, .inl rfl⟩, questionMark_ne⟩
    · split at hstep
      · split at hstep
        · next value hnext =>
          subst hstep
          have hpos := length_pos_of_mem (mem_of_mem_head? hnext)
          exact ⟨⟨by simp, by dsimp only; omega, .inl rfl⟩, longFound_ne hp⟩
        · subst hstep
          exact ⟨⟨by simp, by simp, .inl rfl⟩, missing_ne optstring⟩
      · subst hstep
        exact ⟨⟨by simp, by simp, .inl rfl⟩, longFound_ne hp⟩

theorem charInt_ne (h : c ≠ 255) : charInt c ≠ -1 := by
  revert c
  exact @forall_byte _ (by decide +kernel)

theorem mem_of_strchr {s : Str} (h : strchr s c ≠ []) : c ∈ s := by
  by_contra hmem
  apply h
  unfold strchr
  rw [dropWhile_eq_nil_iff]
  intro b hb
  simp only [decide_eq_true_eq]
  rintro rfl
  exact hmem hb

theorem shortW_spec (h : ∀ p ∈ longopts, p.flag = none → p.val ≠ -1) (first : Result) (c : UInt8)
    (text : Str) (following : List Str) (step : Step)
    (hstep : shortW optstring longopts pe first c text following = step) :
    Advances step following.length ∧ step.result.ret ≠ -1 := by
  -- `long_only` is not passed on, so that the attempt at a long option always advances
  have hlong : ∀ (name : Str) (following : List Str) (s : Step),
      longOption optstring longopts false pe (bytesOf "-W ") false name following.head? = s →
      Advances s following.length ∧ s.result.ret ≠ -1 := by
    intro name following s hs
    exact (longOption_spec h s hs).resolve_left fun hblank => Bool.false_ne_true hblank.2.1
  unfold shortW at hstep
  split at hstep
  · obtain ⟨hadv, hret⟩ := hlong text following _ rfl
    subst hstep
    exact ⟨⟨hadv.pos, hadv.le, hadv.next⟩, hret⟩
  · split at hstep
    · subst hstep
      exact ⟨⟨by simp, by simp, .inr rfl⟩, missing_ne optstring⟩
    case h_2 name following =>
      obtain ⟨hadv, hret⟩ := hlong name following _ rfl
      subst hstep
      exact ⟨⟨by simp, Nat.succ_le_succ hadv.le, hadv.next⟩, hret⟩

theorem shortArgument_spec (hc : charInt c ≠ -1) (optional : Bool) (first : Result) (text : Str)
    (following : List Str) (step : Step)
    (hstep : shortArgument optstring optional pe first c text following = step) :
    Advances step following.length ∧ step.result.ret ≠ -1 := by
  unfold shortArgument at hstep
  split at hstep
  · subst hstep
    exact ⟨⟨by simp, by simp, .inl rfl⟩, hc⟩
  · split at hstep
    · subst hstep
      exact ⟨⟨by simp, by simp, .inl rfl⟩, hc⟩
    · split at hstep
      · subst hstep
        exact ⟨⟨by simp, by simp, .inl rfl⟩, missing_ne optstring⟩
      · subst hstep
        exact ⟨⟨by simp, by simp only [length_cons]; omega, .inl rfl⟩, hc⟩

/-- A short option: either its element goes on, or it takes some of the following ones. -/
theorem shortOption_spec (h : NoMinusOne cfg) (first : Result) (c : UInt8) (text : Str)
    (following : List Str) (step : Step)
    (hstep : shortOption cfg.optstring cfg.longopts pe first c text following = step) :
    (step.advance = 0 ∧ step.nextchar = some text ∧ text ≠ [] ∨ Advances step following.length) ∧
      step.result.ret ≠ -1 := by
  have hplain : ∀ r : Result, (⟨r, if text = [] then 1 else 0, some text⟩ : Step) = step →
      step.advance = 0 ∧ step.nextchar = some text ∧ text ≠ [] ∨
        Advances step following.length := by
    rintro r rfl
    by_cases htext : text = []
    · right
      subst htext
      exact ⟨by simp, by simp, .inr rfl⟩
    · exact .inl ⟨if_neg htext, rfl, htext⟩
  unfold shortOption at hstep
  dsimp only at hstep
  split at hstep
  case isTrue =>
    refine ⟨hplain _ hstep, ?_⟩
    subst hstep
    exact questionMark_ne
  case isFalse hvalid =>
    have hc : charInt c ≠ -1 := by
      apply charInt_ne
      rintro rfl
      exact h.short (mem_of_strchr fun hnone => hvalid (.inl hnone))
    split at hstep
    case isTrue hw =>
      obtain ⟨longopts, hlongopts⟩ := Option.isSome_iff_exists.1 hw.2.2
      rw [hlongopts] at hstep
      obtain ⟨hadv, hret⟩ :=
        shortW_spec (h.long longopts hlongopts) first c text following step hstep
      exact ⟨.inr hadv, hret⟩
    case isFalse =>
      split at hstep
      · obtain ⟨hadv, hret⟩ := shortArgument_spec hc _ first text following step hstep
        exact ⟨.inr hadv, hret⟩
      · refine ⟨hplain _ hstep, ?_⟩
        subst hstep
        exact hc

/-! ## Elements of the scan -/

theorem scan_nil : scan cfg [] = ⟨[], [], []⟩ := by
  rw [scan]

theorem scan_append (skipped rest : List Str) (h : ∀ e ∈ skipped, nonoption e = true) :
    scan cfg (skipped ++ rest) =
      { scan cfg rest with nonoptions := skipped ++ (scan cfg rest).nonoptions } := by
  induction skipped with
  | nil => rfl
  | cons e skipped ih =>
    rw [cons_append, scan, if_pos (h e mem_cons_self),
      ih fun e he => h e (mem_cons_of_mem _ he)]
    rfl

theorem scan_dashDash (rest : List Str) : scan cfg (dashDash :: rest) = ⟨[], [dashDash], rest⟩ := by
  rw [scan, if_neg (by decide), if_pos rfl]

def Scan.after (found : List Result × Nat) (e : Str) (rest : List Str) (s : Scan) : Scan :=
  ⟨found.1 ++ s.results, e :: rest.take found.2 ++ s.options, s.nonoptions⟩

theorem scan_option (rest : List Str) (hopt : nonoption e = false) (hdash : e ≠ dashDash) :
    scan cfg (e :: rest) = Scan.after (scanElement cfg e rest) e rest
      (scan cfg (rest.drop (scanElement cfg e rest).2)) := by
  rw [scan, if_neg (by rw [hopt]; decide), if_neg hdash]
  rfl

/-! ## The layout of `argv` -/

/-- The parts of `argv` after the name of the program: options that are in their place, non-options
that have been skipped, options since then, and the elements that have not been scanned. -/
structure Layout (prog : Str) (argv : List Str) (d : Data) (done skipped fresh rest : List Str) :
    Prop where
  argv : argv = prog :: done ++ skipped ++ fresh ++ rest
  first : d.firstNonopt = (prog :: done).length
  last : d.lastNonopt = (prog :: done).length + skipped.length
  optind : d.optind = (prog :: done).length + skipped.length + fresh.length
  order : d.order = .permute
  initialized : d.initialized = true

variable {prog : Str} {argv : List Str} {d : Data} {done skipped fresh rest : List Str}

section

variable (h : Layout prog argv d done skipped fresh rest)

include h

theorem Layout.optind_eq : d.optind = (prog :: done ++ skipped ++ fresh).length := by
  rw [h.optind, length_append, length_append]

theorem Layout.drop (k : Nat) : argv.drop (d.optind + k) = rest.drop k := by
  rw [h.argv, h.optind_eq, ← drop_drop, drop_left]

theorem Layout.get (k : Nat) : argv[d.optind + k]? = rest[k]? := by
  rw [h.argv, h.optind_eq, getElem?_append_right (Nat.le_add_right _ _), Nat.add_sub_cancel_left]

theorem Layout.length : argv.length = d.optind + rest.length := by
  rw [h.argv, h.optind_eq, length_append]

/-- The exchange of the skipped non-options with the options after them. -/
theorem Layout.exchange :
    exchange argv d = some (prog :: (done ++ fresh) ++ skipped ++ rest, { d with
      firstNonopt := (prog :: (done ++ fresh)).length
      lastNonopt := d.optind }) := by
  have hblocks : exchangeBlocks argv d.firstNonopt d.lastNonopt d.optind =
      some (prog :: done ++ fresh ++ skipped ++ rest) := by
    rw [h.argv, h.first, h.last, h.optind]
    exact exchangeBlocks_eq (prog :: done) skipped fresh rest
  have hfirst : d.firstNonopt + (d.optind - d.lastNonopt) = (prog :: (done ++ fresh)).length := by
    rw [h.first, h.last, h.optind, length_cons, length_cons, length_append]
    omega
  rw [Getopt.exchange, hblocks, some_bind, hfirst]
  rfl

/-- The options since the last non-options are put in their place. -/
theorem Layout.regroup :
    ∃ last, regroup argv d = some (prog :: (done ++ fresh) ++ skipped ++ rest, { d with
      firstNonopt := (prog :: (done ++ fresh)).length, lastNonopt := last }) := by
  unfold Getopt.regroup
  split
  · exact ⟨_, h.exchange⟩
  case isFalse hnone =>
    have hfirst := h.first
    have hlast := h.last
    have hoptind := h.optind
    simp only [length_cons] at hfirst hlast hoptind
    split
    case isTrue hfresh =>
      -- nothing has been skipped before
      have hskipped : skipped = [] := by
        apply length_eq_zero_iff.1
        omega
      subst hskipped
      refine ⟨d.lastNonopt, ?_⟩
      have hposition : d.optind = (prog :: (done ++ fresh)).length := by
        simp only [length_cons, length_append, length_nil] at hoptind ⊢
        omega
      rw [h.argv, ← hposition]
      simp
    case isFalse hfresh =>
      have hfresh : fresh = [] := by
        apply length_eq_zero_iff.1
        omega
      subst hfresh
      refine ⟨d.lastNonopt, ?_⟩
      rw [append_nil, ← h.first, h.argv, append_nil]

theorem Layout.permuteStep : ∃ argv' d', permuteStep argv d = some (argv', d') ∧
      Layout prog argv' d' (done ++ fresh) (skipped ++ rest.takeWhile nonoption) []
        (rest.dropWhile nonoption) := by
  obtain ⟨last, hregroup⟩ := h.regroup
  have hoptind : d.optind = (prog :: (done ++ fresh) ++ skipped).length := by
    rw [h.optind_eq]
    simp only [length_append, length_cons]
    omega
  have hdrop : (prog :: (done ++ fresh) ++ skipped ++ rest).drop d.optind = rest := by
    rw [hoptind, drop_left]
  rw [Getopt.permuteStep, hregroup, some_bind]
  dsimp only
  rw [hdrop]
  refine ⟨_, _, rfl, ?_, rfl, ?_, ?_, h.order, h.initialized⟩
  · rw [append_nil]
    simp
  · dsimp only
    rw [hoptind]
    simp only [length_append]
    omega
  · dsimp only
    rw [hoptind]
    simp only [length_append, length_nil]
    omega

end

/-- Where there are options to be put in their place, both calls do the same. -/
theorem regroupEnd_eq (h : d.lastNonopt ≠ d.optind) : regroupEnd argv d = regroup argv d := by
  unfold regroupEnd regroup
  by_cases hskipped : d.firstNonopt = d.lastNonopt <;> simp [h, hskipped]

/-- The element `--` and all after it. -/
theorem Layout.endOfOptions (h : Layout prog argv d done skipped [] (dashDash :: rest)) :
    ∃ argv' d', endOfOptions argv d = some (argv', d') ∧
      Layout prog argv' d' (done ++ [dashDash]) (skipped ++ rest) [] [] := by
  have hlength := h.length
  have hoptind := h.optind
  have hget : argv[d.optind]? = some dashDash := h.get 0
  have hnext : Layout prog argv { d with optind := d.optind + 1 } done skipped [dashDash] rest := by
    refine ⟨?_, h.first, h.last, ?_, h.order, h.initialized⟩
    · rw [h.argv]
      simp
    · dsimp only
      rw [hoptind]
      rfl
  obtain ⟨last, hgroup⟩ := hnext.regroup
  rw [← regroupEnd_eq (by dsimp only; rw [h.last, hoptind, length_nil]; omega)] at hgroup
  have hend : d.optind ≠ argv.length := by
    rw [hlength, length_cons]
    omega
  rw [Getopt.endOfOptions, if_neg hend, hget, some_bind, if_pos rfl, hgroup,
    some_bind]
  refine ⟨_, _, rfl, ?_, rfl, ?_, ?_, h.order, h.initialized⟩
  · simp
  · simp only [length_append]
    omega
  · simp only [length_append, length_nil]
    omega

theorem endOfOptions_of_not (h : Layout prog argv d done skipped fresh rest)
    (hrest : rest.head? ≠ some dashDash) : endOfOptions argv d = some (argv, d) := by
  unfold endOfOptions
  split
  · rfl
  case isFalse hend =>
    cases rest with
    | nil => exact absurd h.length.symm (fun hlength => hend (by simpa using hlength))
    | cons e rest =>
      have hget : argv[d.optind]? = some e := h.get 0
      have he : e ≠ dashDash := fun he => hrest (congrArg some he)
      rw [hget, some_bind, if_neg he]

theorem Layout.clamp (h : Layout prog argv d done skipped fresh rest) :
    { d with lastNonopt := min d.lastNonopt d.optind, firstNonopt := min d.firstNonopt d.optind } =
      d := by
  have hlast : d.lastNonopt ≤ d.optind := by
    rw [h.last, h.optind]
    exact Nat.le_add_right _ _
  have hfirst : d.firstNonopt ≤ d.optind := by
    rw [h.first, h.optind, add_assoc]
    exact Nat.le_add_right _ _
  rw [min_eq_left hlast, min_eq_left hfirst]

def Finished (cfg : Config) (prog : Str) (argv : List Str) (d : Data)
    (done skipped fresh rest : List Str) : Prop :=
  (scan cfg rest).results = [] ∧ Layout prog argv d (done ++ fresh ++ (scan cfg rest).options)
    (skipped ++ (scan cfg rest).nonoptions) [] []

def AtOption (prog : Str) (argv : List Str) (d : Data) (done skipped fresh rest : List Str) :
    Prop :=
  ∃ skipped' e rest', rest = skipped' ++ e :: rest' ∧ (∀ n ∈ skipped', nonoption n = true) ∧
    nonoption e = false ∧ e ≠ dashDash ∧
    Layout prog argv d (done ++ fresh) (skipped ++ skipped') [] (e :: rest')

/-- The advance puts the options in their place, skips non-options and stops at an option or at the
end. -/
theorem Layout.advance (cfg : Config) (h : Layout prog argv d done skipped fresh rest) :
    ∃ argv' d', advance argv d = some (argv', d') ∧
      (Finished cfg prog argv' d' done skipped fresh rest ∨
        AtOption prog argv' d' done skipped fresh rest) := by
  obtain ⟨argv₁, d₁, hpermute, h₁⟩ := h.permuteStep
  have hskip : ∀ n ∈ rest.takeWhile nonoption, nonoption n = true := by
    intro n hn
    exact mem_takeWhile_imp hn
  have hsplit : rest = rest.takeWhile nonoption ++ rest.dropWhile nonoption :=
    takeWhile_append_dropWhile.symm
  unfold Getopt.advance
  rw [h.clamp]
  dsimp only
  rw [if_pos h.order, hpermute, some_bind]
  generalize rest.takeWhile nonoption = skipped' at *
  cases hrest : rest.dropWhile nonoption with
  | nil =>
    rw [hrest] at h₁ hsplit
    refine ⟨argv₁, d₁, endOfOptions_of_not h₁ (by simp), .inl ?_⟩
    unfold Finished
    rw [hsplit, scan_append _ _ hskip, scan_nil]
    refine ⟨rfl, ?_⟩
    dsimp only
    rwa [append_nil, append_nil]
  | cons e rest' =>
    rw [hrest] at h₁ hsplit
    by_cases he : e = dashDash
    · subst he
      obtain ⟨argv₂, d₂, hend, h₂⟩ := h₁.endOfOptions
      refine ⟨argv₂, d₂, hend, .inl ?_⟩
      unfold Finished
      rw [hsplit, scan_append _ _ hskip, scan_dashDash]
      refine ⟨rfl, ?_⟩
      dsimp only
      rwa [← append_assoc]
    · have hopt : nonoption e = false := by
        have := head?_dropWhile_not nonoption rest
        rw [hrest] at this
        simpa using this
      refine ⟨argv₁, d₁, endOfOptions_of_not h₁ (by simpa using he), .inr ?_⟩
      exact ⟨skipped', e, rest', hsplit, hskip, hopt, he, h₁⟩

/-! ## One call -/

/-- The part of the scan that is left in the middle of a cluster. -/
def InCluster (cfg : Config) (text : Str) (e : Str) (following : List Str) : Scan :=
  Scan.after (cluster cfg text following) e following
    (scan cfg (following.drop (cluster cfg text following).2))

/-- What is left to return is the scan of the rest, after the options and the non-options that have
been seen. -/
def Inv (cfg : Config) (prog : Str) (argv : List Str) (d : Data) (goal : Scan) : Prop :=
  ∃ done skipped fresh rest, Layout prog argv d done skipped fresh rest ∧
    ∃ left : Scan,
      goal = ⟨left.results, done ++ fresh ++ left.options, skipped ++ left.nonoptions⟩ ∧
      (NoNext d.nextchar ∧ left = scan cfg rest ∨
        ∃ c text e following, d.nextchar = some (c :: text) ∧ rest = e :: following ∧
          left = InCluster cfg (c :: text) e following)

theorem afterAdvance_finished (h : Layout prog argv d done skipped [] []) (pe : Bool) :
    ∃ d', afterAdvance cfg cfg.optstring pe argv d = some (Result.blank, argv, d') ∧
      d'.optind = (prog :: done).length := by
  have hend : d.optind = argv.length := by
    rw [h.length, length_nil, add_zero]
  have hfirst := h.first
  have hlast := h.last
  have hoptind := h.optind
  rw [afterAdvance, if_pos hend]
  refine ⟨_, rfl, ?_⟩
  split
  · exact hfirst
  · rw [length_nil] at hoptind
    omega

def Scan.extend (done skipped fresh : List Str) (left : Scan) : Scan :=
  ⟨left.results, done ++ fresh ++ left.options, skipped ++ left.nonoptions⟩

def Returns (cfg : Config) (prog : Str) (goal : Scan) (call : Option (Result × List Str × Data)) :
    Prop :=
  ∃ r argv' d' rs, call = some (r, argv', d') ∧ r.ret ≠ -1 ∧ goal.results = r :: rs ∧
    Inv cfg prog argv' d' { goal with results := rs }

theorem Layout.withNext (h : Layout prog argv d done skipped fresh rest) (nextchar : Option Str) :
    Layout prog argv { d with nextchar } done skipped fresh rest :=
  { h with }

section

variable (h : Layout prog argv d done skipped fresh (e :: following))
  (hstep : Advances step following.length)

include h hstep

/-- An element and the arguments after it have been processed. -/
theorem Layout.consume :
    Layout prog argv
      { d with optind := d.optind + step.advance, nextchar := step.nextchar } done skipped
      (fresh ++ e :: following.take (step.advance - 1)) (following.drop (step.advance - 1)) := by
  have hpos := hstep.pos
  have hle := hstep.le
  refine ⟨?_, h.first, h.last, ?_, h.order, h.initialized⟩
  · rw [h.argv]
    simp
  · rw [h.optind]
    simp only [length_append, length_cons, length_take]
    omega

theorem Layout.returns_last (hret : step.result.ret ≠ -1) :
    Returns cfg prog (Scan.extend done skipped fresh (Scan.after ([step.result], step.advance - 1) e
        following (scan cfg (following.drop (step.advance - 1)))))
      (some (step.result, argv,
        { d with optind := d.optind + step.advance, nextchar := step.nextchar })) := by
  refine ⟨_, _, _, _, rfl, hret, rfl, done, skipped, _, _, h.consume hstep, _,
    ?_, .inl ⟨hstep.next, rfl⟩⟩
  simp [Scan.extend, Scan.after]

end

theorem nextShort_returns (hcfg : NoMinusOne cfg) {text : Str}
    (h : Layout prog argv d done skipped fresh (e :: following))
    (hnext : d.nextchar = some (c :: text)) :
    Returns cfg prog (Scan.extend done skipped fresh (InCluster cfg (c :: text) e following))
      (nextShort cfg cfg.optstring (printErrors cfg) Result.blank argv d) := by
  have hfollowing : argv.drop (d.optind + 1) = following := h.drop 1
  obtain ⟨step, hstep⟩ :
      ∃ step, shortOption cfg.optstring cfg.longopts (printErrors cfg) Result.blank c
      text following = step := ⟨_, rfl⟩
  have hcall :
      nextShort cfg cfg.optstring (printErrors cfg) Result.blank argv d = some (step.result, argv,
      { d with optind := d.optind + step.advance, nextchar := step.nextchar }) := by
    rw [nextShort, hnext]
    dsimp only
    rw [hfollowing, hstep]
  rw [hcall]
  obtain ⟨hcases, hret⟩ := shortOption_spec hcfg _ _ _ _ step hstep
  rcases hcases with ⟨hadvance, hnextchar, htext⟩ | hadv
  · -- the element goes on
    obtain ⟨c', text', rfl⟩ := exists_cons_of_ne_nil htext
    have hcluster : cluster cfg (c :: c' :: text') following =
        (step.result :: (cluster cfg (c' :: text') following).1,
          (cluster cfg (c' :: text') following).2) := by
      rw [cluster, hstep, if_pos hadvance]
    refine ⟨_, _, _, _, rfl, hret, by rw [InCluster, hcluster]; rfl, done, skipped, fresh,
      e :: following, ?_, InCluster cfg (c' :: text') e following, ?_,
      .inr ⟨c', text', e, following, hnextchar, rfl, rfl⟩⟩
    · rw [hadvance]
      exact h.withNext _
    · rw [InCluster, hcluster]
      rfl
  · have hcluster : cluster cfg (c :: text) following = ([step.result], step.advance - 1) := by
      rw [cluster, hstep, if_neg (Nat.pos_iff_ne_zero.1 hadv.pos)]
    rw [InCluster, hcluster]
    exact h.returns_last hadv hret

theorem nonoption_false (h : nonoption e = false) : ∃ c text, e = byte '-' :: c :: text := by
  match e with
  | [] => simp [nonoption] at h
  | [a] => simp [nonoption] at h
  | a :: c :: text =>
    refine ⟨c, text, ?_⟩
    have hdash : a = byte '-' := by simpa [nonoption] using h
    rw [hdash]

theorem element_returns (hcfg : NoMinusOne cfg)
    (h : Layout prog argv d done skipped fresh (e :: following)) (hopt : nonoption e = false) :
    Returns cfg prog
      (Scan.extend done skipped fresh (Scan.after (scanElement cfg e following) e following
        (scan cfg (following.drop (scanElement cfg e following).2))))
      (element cfg cfg.optstring (printErrors cfg) argv d e) := by
  obtain ⟨c, text, rfl⟩ := nonoption_false hopt
  have hget : argv[d.optind + 1]? = following.head? := by
    rw [h.get 1, head?_eq_getElem?]
    rfl
  have hhead : argv[d.optind]? = some (byte '-' :: c :: text) := h.get 0
  -- the short options of the element
  have hshort : Returns cfg prog (Scan.extend done skipped fresh (InCluster cfg (c :: text)
        (byte '-' :: c :: text) following))
      (nextShort cfg cfg.optstring (printErrors cfg) Result.blank argv
        { d with nextchar := some (c :: text) }) :=
    nextShort_returns hcfg (h.withNext _) rfl
  unfold element scanElement
  rw [hget]
  cases hlongopts : cfg.longopts with
  | none => exact hshort
  | some longopts =>
    have hlong := hcfg.long longopts hlongopts
    dsimp only
    split
    · -- two dashes
      generalize hstep : longOption cfg.optstring longopts cfg.longOnly (printErrors cfg)
        dashDash true ((byte '-' :: c :: text).drop 2) following.head? = step
      obtain ⟨hadv, hret⟩ := (longOption_spec hlong step hstep).resolve_left
        fun hblank => Bool.false_ne_true hblank.2.2.symm
      exact h.returns_last hadv hret
    · split
      · -- one dash, where long options are tried first
        obtain ⟨step, hstep⟩ :
            ∃ step, longOption cfg.optstring longopts cfg.longOnly (printErrors cfg)
            [byte '-'] false ((byte '-' :: c :: text).drop 1) following.head? = step := ⟨_, rfl⟩
        simp only [hstep]
        rcases longOption_spec hlong step hstep with ⟨hblank, -⟩ | ⟨hadv, hret⟩
        · subst hblank
          have hblank : ¬ Result.blank.ret ≠ -1 := not_not.2 rfl
          rw [if_neg hblank, add_zero, hhead]
          exact hshort
        · rw [if_pos hret, if_neg (Nat.pos_iff_ne_zero.1 hadv.pos)]
          exact h.returns_last hadv hret
      · exact hshort

/-! ## All calls -/

structure Permutes (cfg : Config) : Prop where
  dash : cfg.optstring.head? ≠ some (byte '-')
  plus : cfg.optstring.head? ≠ some (byte '+')
  posix : cfg.posixlyCorrect = false

theorem getoptInitialize_later (hmode : Permutes cfg) (hinit : d.initialized = true)
    (hoptind : d.optind ≠ 0) : getoptInitialize cfg d = (cfg.optstring, d) := by
  simp [getoptInitialize, hmode.dash, hmode.plus, hinit, hoptind]

/-- The last call: it returns -1 and leaves the options before the non-options. -/
def Ends (prog : Str) (goal : Scan) (call : Option (Result × List Str × Data)) : Prop :=
  ∃ r d', call = some (r, prog :: goal.options ++ goal.nonoptions, d') ∧ r.ret = -1 ∧
    goal.results = [] ∧ d'.optind = (prog :: goal.options).length

section Call

variable (hmode : Permutes cfg) (h : Layout prog argv d done skipped fresh rest)

include hmode h

theorem Layout.call_later : ¬ argv.length < 1 ∧ getoptInitialize cfg d = (cfg.optstring, d) := by
  refine ⟨?_, getoptInitialize_later hmode h.initialized ?_⟩
  · rw [h.argv]
    simp
  · rw [h.optind, length_cons]
    omega

theorem Layout.call_cluster {c : UInt8} {text : Str} (hnext : d.nextchar = some (c :: text)) :
    getoptInternalR cfg argv d =
      nextShort cfg cfg.optstring (printErrors cfg) Result.blank argv d := by
  obtain ⟨hargv, hinit⟩ := h.call_later hmode
  rw [getoptInternalR, if_neg hargv, hinit]
  dsimp only
  rw [hnext]
  rfl

theorem Layout.call_boundary {argv' : List Str} {d' : Data} (hnext : NoNext d.nextchar)
    (hadvance : Getopt.advance argv d = some (argv', d')) :
    getoptInternalR cfg argv d = afterAdvance cfg cfg.optstring (printErrors cfg) argv' d' := by
  obtain ⟨hargv, hinit⟩ := h.call_later hmode
  rw [getoptInternalR, if_neg hargv, hinit]
  dsimp only
  rw [hadvance]
  rcases hnext with hnext | hnext
  · rw [hnext]
    rfl
  · rw [hnext]
    rfl

end Call

section

variable (hmode : Permutes cfg) (hcfg : NoMinusOne cfg) (h : Inv cfg prog argv d goal)
include hmode hcfg h

/-- **One call** returns the next result of the scan, or -1 where nothing is left. -/
theorem getoptInternalR_step :
    Ends prog goal (getoptInternalR cfg argv d) ∨
      Returns cfg prog goal (getoptInternalR cfg argv d) := by
  obtain ⟨done, skipped, fresh, rest, hlayout, left, rfl, hleft⟩ := h
  rcases hleft with ⟨hnext, rfl⟩ | ⟨c, text, e, following, hnext, rfl, rfl⟩
  · obtain ⟨argv', d', hadvance, hcases⟩ := hlayout.advance cfg
    rw [hlayout.call_boundary hmode hnext hadvance]
    rcases hcases with ⟨hresults, hfinal⟩ | ⟨skipped', e, rest', rfl, hskipped, hopt, hdash, hat⟩
    · left
      obtain ⟨d'', hend, hoptind⟩ := afterAdvance_finished hfinal (printErrors cfg)
      refine ⟨Result.blank, d'', hend.trans ?_, rfl, hresults, hoptind⟩
      rw [hfinal.argv]
      simp
    · right
      have hend : d'.optind ≠ argv'.length := by
        rw [hat.length, length_cons]
        omega
      have hget : argv'[d'.optind]? = some e := hat.get 0
      rw [afterAdvance, if_neg hend, hget, some_bind, if_neg (by rw [hopt]; decide)]
      have hreturns := element_returns hcfg hat hopt
      rw [← scan_option rest' hopt hdash] at hreturns
      rw [scan_append _ _ hskipped]
      simpa [Scan.extend] using hreturns
  · right
    rw [hlayout.call_cluster hmode hnext]
    exact nextShort_returns hcfg hlayout hnext

/-- **All calls** until the return of -1. -/
theorem getoptAll_inv :
    ∃ d', getoptAll cfg (goal.results.length + 1) argv d =
        some (goal.results, prog :: goal.options ++ goal.nonoptions, d') ∧
      d'.optind = (prog :: goal.options).length := by
  obtain ⟨results, options, nonoptions⟩ := goal
  induction results generalizing argv d with
  | nil =>
    rcases getoptInternalR_step hmode hcfg h with
      ⟨r, d', hcall, hret, -, hoptind⟩ | ⟨r, _, _, rs, -, -, hrs, -⟩
    · refine ⟨d', ?_, hoptind⟩
      rw [getoptAll, hcall]
      exact if_pos hret
    · nomatch hrs
  | cons r results ih =>
    rcases getoptInternalR_step hmode hcfg h with
      ⟨_, _, -, -, hresults, -⟩ | ⟨r', argv', d', rs, hcall, hret, hrs, hinv⟩
    · nomatch hresults
    · cases hrs
      obtain ⟨d'', hrun, hoptind⟩ := ih hinv
      refine ⟨d'', ?_, hoptind⟩
      rw [length_cons, getoptAll, hcall, some_bind]
      dsimp only
      rw [if_neg hret, hrun, some_bind]

end

/-! ## The first call -/

/-- The state before the first call: `optind` is zero, or one in a state that is not initialized. -/
def Fresh (d : Data) : Prop := d.optind = 0 ∨ d.optind = 1 ∧ d.initialized = false

def firstData : Data := ⟨1, none, .permute, 1, 1, true⟩

theorem getoptInitialize_first (hmode : Permutes cfg) (hd : Fresh d) :
    getoptInitialize cfg d = (cfg.optstring, firstData) := by
  rcases hd with hd | ⟨hd, hinit⟩
  · simp [getoptInitialize, firstData, hmode.dash, hmode.plus, hmode.posix, hd]
  · simp [getoptInitialize, firstData, hmode.dash, hmode.plus, hmode.posix, hd, hinit]

theorem getoptInternalR_first (hmode : Permutes cfg) (hd : Fresh d) (hargv : argv ≠ []) :
    getoptInternalR cfg argv d = getoptInternalR cfg argv firstData := by
  have hlength : ¬ argv.length < 1 := by
    have := length_pos_iff.2 hargv
    omega
  rw [getoptInternalR, getoptInternalR, if_neg hlength, if_neg hlength,
    getoptInitialize_first hmode hd, getoptInitialize_later hmode rfl (by decide)]

theorem inv_first (cfg : Config) (prog : Str) (args : List Str) :
    Inv cfg prog (prog :: args) firstData (scan cfg args) :=
  ⟨[], [], [], args, ⟨rfl, rfl, rfl, rfl, rfl, rfl⟩, scan cfg args, rfl, .inl ⟨.inl rfl, rfl⟩⟩

theorem getoptAll_first (hmode : Permutes cfg) (hcfg : NoMinusOne cfg) (hd : Fresh d) (prog : Str)
    (args : List Str) :
    ∃ d', getoptAll cfg ((scan cfg args).results.length + 1) (prog :: args) d =
        some ((scan cfg args).results,
          prog :: (scan cfg args).options ++ (scan cfg args).nonoptions, d') ∧
      d'.optind = (prog :: (scan cfg args).options).length := by
  have hrun := getoptAll_inv hmode hcfg (inv_first cfg prog args)
  rw [getoptAll, ← getoptInternalR_first hmode hd (cons_ne_nil _ _)] at hrun
  exact hrun

/-! ## The order of the elements -/

/-- The options and the non-options are the arguments, each in their order. -/
theorem scan_order (cfg : Config) (args : List Str) :
    ((scan cfg args).options ++ (scan cfg args).nonoptions).Perm args ∧
      (scan cfg args).options.Sublist args ∧ (scan cfg args).nonoptions.Sublist args := by
  fun_induction scan cfg args with
  | case1 => exact ⟨.refl _, .refl _, .refl _⟩
  | case2 e rest hnonopt s ih =>
    obtain ⟨hperm, hoptions, hnonoptions⟩ := ih
    exact ⟨perm_middle.trans (hperm.cons e), hoptions.cons e, hnonoptions.cons_cons e⟩
  | case3 rest hopt =>
    exact ⟨.refl _, singleton_sublist.2 mem_cons_self, sublist_cons_self _ _⟩
  | case4 e rest hopt hdash found s ih =>
    obtain ⟨hperm, hoptions, hnonoptions⟩ := ih
    have hsplit : rest.take found.2 ++ rest.drop found.2 = rest := take_append_drop _ _
    refine ⟨?_, ?_, (hnonoptions.trans (drop_sublist _ _)).cons e⟩
    · have hassoc : e :: rest.take found.2 ++ s.options ++ s.nonoptions =
          e :: (rest.take found.2 ++ (s.options ++ s.nonoptions)) := by simp
      rw [hassoc]
      exact List.Perm.cons e ((hperm.append_left _).trans (.of_eq hsplit))
    · refine List.Sublist.cons_cons e ?_
      have := (List.Sublist.refl (rest.take found.2)).append hoptions
      rwa [hsplit] at this

/-- **`PERMUTE` mode**, where no option is returned as -1: the calls end, they return the options
and arguments of a scan of the original `argv` from left to right, and `argv` is left permuted, with
the option elements first and then the non-options, both in their original order; `optind` is the
index of the first non-option. -/
theorem getopt_permute (cfg : Config) (hmode : Permutes cfg)
    (hcfg : NoMinusOne cfg) (argv : List Str) (d : Data) (hd : Fresh d) :
    ∃ calls argv' d', getoptAll cfg calls argv d = some ((scan cfg argv.tail).results, argv', d') ∧
      argv' = argv.take 1 ++ (scan cfg argv.tail).options ++ (scan cfg argv.tail).nonoptions ∧
      argv'.Perm argv ∧
      (scan cfg argv.tail).options.Sublist argv.tail ∧
      (scan cfg argv.tail).nonoptions.Sublist argv.tail ∧
      (argv ≠ [] → d'.optind = (argv.take 1 ++ (scan cfg argv.tail).options).length) := by
  obtain ⟨hperm, hoptions, hnonoptions⟩ := scan_order cfg argv.tail
  cases argv with
  | nil =>
    refine ⟨1, [], d, ?_, ?_, .refl _, hoptions, hnonoptions, fun h => absurd rfl h⟩
    · rw [tail_nil, scan_nil]
      rfl
    · rw [tail_nil, scan_nil]
      rfl
  | cons prog args =>
    obtain ⟨d', hrun, hoptind⟩ := getoptAll_first hmode hcfg hd prog args
    refine ⟨_, _, d', hrun, rfl, ?_, hoptions, hnonoptions, fun _ => hoptind⟩
    exact hperm.cons prog

/-- A run with clusters, arguments in the same and in the next element, and a `--`. -/
theorem getopt_permute_mixed :
    let cfg : Config := ⟨bytesOf "ab:", some [⟨bytesOf "long", 1, none, 300⟩], false, false, true⟩
    let argv := ["prog", "x", "-ab", "1", "y", "--lo", "2", "--", "-a"].map bytesOf
    ∃ calls d', getoptAll cfg calls argv ⟨1, none, .permute, 0, 0, false⟩ =
        some ((scan cfg argv.tail).results,
          ["prog", "-ab", "1", "--lo", "2", "--", "x", "y", "-a"].map bytesOf, d') ∧
      d'.optind = 6 ∧ (scan cfg argv.tail).results.map (fun r => (r.ret, r.optarg)) =
        [(97, none), (98, some (bytesOf "1")), (300, some (bytesOf "2"))] := by
  intro cfg argv
  have hmode : Permutes cfg := ⟨by decide, by decide, rfl⟩
  have hcfg : NoMinusOne cfg := by
    refine ⟨?_, by decide⟩
    rintro longopts h
    cases h
    decide
  obtain ⟨calls, argv', d', hrun, rfl, -, -, -, hoptind⟩ :=
    getopt_permute cfg hmode hcfg argv ⟨1, none, .permute, 0, 0, false⟩ (.inr ⟨rfl, rfl⟩)
  have hscan : scan cfg argv.tail = ⟨(scan cfg argv.tail).results,
      ["-ab", "1", "--lo", "2", "--"].map bytesOf, ["x", "y", "-a"].map bytesOf⟩ := by
    decide +kernel
  refine ⟨calls, d', ?_, ?_, by decide +kernel⟩
  · rw [hrun, hscan]
    rfl
  · rw [hoptind (by decide), hscan]
    rfl

/-- Where an option is returned as -1, here a long option with that value or the character 255, the
calls stop at it: the non-option before it is still before it, and `optind` is not its index. -/
theorem getopt_minus_one :
    let long : Config := ⟨bytesOf "a", some [⟨bytesOf "v", 0, none, -1⟩], false, false, true⟩
    let short : Config := ⟨[255], none, false, false, true⟩
    let fresh : Data := ⟨1, none, .permute, 0, 0, false⟩
    let argv := ["prog", "x", "--v"].map bytesOf
    let argv₂ := [bytesOf "prog", bytesOf "x", [byte '-', 255]]
    (getoptAll long 1 argv fresh).map (fun r => (r.1, r.2.1, r.2.2.optind)) = some ([], argv, 3) ∧
      argv ≠ argv.take 1 ++ (scan long argv.tail).options ++ (scan long argv.tail).nonoptions ∧
      (getoptAll short 1 argv₂ fresh).map (fun r => (r.1, r.2.1, r.2.2.optind)) =
        some ([], argv₂, 3) ∧
      argv₂ ≠ argv₂.take 1 ++ (scan short argv₂.tail).options ++
        (scan short argv₂.tail).nonoptions := by
  decide +kernel

end SafeLibc.Posix.Getopt
