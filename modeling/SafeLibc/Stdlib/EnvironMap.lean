import SafeLibc.Stdlib.Environ

/-!
# The environment as a map

Two names never fit one entry, so that the entries are a map from names to values. One call changes
the map as `EnvOp.update` says (`EnvOp.step`), and a whole run the map of the start of the program
(`environ_is_map`).
-/

namespace SafeLibc.Stdlib

open SafeLibc.Lib List

/-! ## The variables -/

structure ValidName (name : List UInt8) : Prop where
  ne_nil : name ≠ []
  no_nul : 0 ∉ name
  no_equals : byte '=' ∉ name

variable {name n v other : List UInt8} {env : Env} {ps : List Nat}
  {vars : List UInt8 → Option (List UInt8)}

theorem ValidName.invalidName_eq (h : ValidName name) : invalidName name = false := by
  simp [invalidName, h.ne_nil, h.no_equals]

theorem eq_of_append_equals {w : List UInt8} (hname : byte '=' ∉ name) (hother : byte '=' ∉ other)
    (h : name ++ byte '=' :: v = other ++ byte '=' :: w) : name = other ∧ v = w := by
  induction name generalizing other with
  | nil =>
    cases other with
    | nil => exact ⟨rfl, (List.cons.inj h).2⟩
    | cons c other => exact absurd ((List.cons.inj h).1 ▸ mem_cons_self) hother
  | cons c name ih =>
    cases other with
    | nil => exact absurd ((List.cons.inj h).1 ▸ mem_cons_self) hname
    | cons d other =>
      obtain ⟨rfl, htail⟩ := List.cons.inj h
      obtain ⟨rfl, rfl⟩ := ih (fun hm => hname (mem_cons_of_mem _ hm))
        (fun hm => hother (mem_cons_of_mem _ hm)) htail
      exact ⟨rfl, rfl⟩

theorem named_append (hname : byte '=' ∉ name) (hother : byte '=' ∉ other) :
    named name (other ++ byte '=' :: v) = true ↔ name = other := by
  rw [named_iff]
  constructor
  · rintro ⟨w, hw⟩
    exact (eq_of_append_equals hother hname hw).1.symm
  · rintro rfl
    exact ⟨v, rfl⟩

def lookup (texts : List (List UInt8)) (name : List UInt8) : Option (List UInt8) :=
  (texts.find? (named name)).map (·.drop (name.length + 1))

theorem getenv_spec (hgood : Good env ps) (hname : ValidName name) :
    getenv env name = .ok (lookup (ps.map (text env)) name) := by
  have hfirst : firstByte name ≠ 0 := by
    obtain ⟨c, t, rfl⟩ := exists_cons_of_ne_nil hname.ne_nil
    rintro rfl
    exact hname.no_nul mem_cons_self
  rw [getenv]
  cases hgood.entries with
  | null henviron =>
    rw [henviron]
    rfl
  | array henviron hcells =>
    rw [henviron]
    dsimp only
    rw [if_neg hfirst, array_ok hcells, ok_bind, getenvLoop_spec hname.ne_nil hgood.live]
    rfl

theorem lookup_cons (s : List UInt8) (texts : List (List UInt8)) (name : List UInt8) :
    lookup (s :: texts) name =
      if named name s then some (s.drop (name.length + 1)) else lookup texts name := by
  rw [lookup, find?_cons]
  cases named name s <;> rfl

theorem lookup_append_equals (hname : byte '=' ∉ name) (texts : List (List UInt8))
    (hn : byte '=' ∉ n) :
    lookup ((name ++ byte '=' :: v) :: texts) n = if n = name then some v else lookup texts n := by
  rw [lookup_cons]
  by_cases heq : n = name
  · subst heq
    rw [if_pos ((named_append hn hn).mpr rfl), if_pos rfl, ← drop_drop, drop_left]
    rfl
  · rw [if_neg (mt (named_append hn hname).mp heq), if_neg heq]

theorem named_other {s : List UInt8} (hname : byte '=' ∉ name) (hn : byte '=' ∉ n) (hne : n ≠ name)
    (h : named name s = true) : named n s = false := by
  obtain ⟨v, rfl⟩ := named_iff.mp h
  rw [← Bool.not_eq_true, named_append hn hname]
  exact hne

/-- Where the first entry of this name is replaced, or the entry added at the end. -/
theorem lookup_add (hname : byte '=' ∉ name) (texts : List (List UInt8)) (hn : byte '=' ∉ n) :
    lookup (texts.take (texts.findIdx (named name)) ++
      (name ++ byte '=' :: v) :: texts.drop (texts.findIdx (named name) + 1)) n =
      if n = name then some v else lookup texts n := by
  induction texts with
  | nil => exact lookup_append_equals hname [] hn
  | cons s texts ih =>
    rw [findIdx_cons]
    cases hs : named name s with
    | true =>
      rw [cond_true, take_zero, nil_append, drop_succ_cons, drop_zero,
        lookup_append_equals hname texts hn]
      by_cases heq : n = name
      · rw [if_pos heq, if_pos heq]
      · rw [if_neg heq, if_neg heq, lookup_cons, named_other hname hn heq hs]
        rfl
    | false =>
      rw [cond_false, take_succ_cons, cons_append, drop_succ_cons, lookup_cons,
        lookup_cons, ih]
      by_cases heq : n = name
      · subst heq
        rw [hs]
        rfl
      · rw [if_neg heq, if_neg heq]

theorem lookup_filter (hname : byte '=' ∉ name) (texts : List (List UInt8)) (hn : byte '=' ∉ n) :
    lookup (texts.filter fun s => !named name s) n = if n = name then none else lookup texts n := by
  induction texts with
  | nil => exact (ite_self _).symm
  | cons s texts ih =>
    cases hs : named name s with
    | true =>
      rw [filter_cons_of_neg (by simp [hs]), ih, lookup_cons]
      by_cases heq : n = name
      · rw [if_pos heq, if_pos heq]
      · rw [if_neg heq, if_neg heq, named_other hname hn heq hs]
        rfl
    | false =>
      rw [filter_cons_of_pos (by simp [hs]), lookup_cons, lookup_cons, ih]
      by_cases heq : n = name
      · subst heq
        rw [hs, if_pos rfl, if_pos rfl]
        rfl
      · rw [if_neg heq, if_neg heq]

theorem lookup_eq_none_iff {texts : List (List UInt8)} :
    lookup texts name = none ↔ ¬ texts.findIdx (named name) < texts.length := by
  rw [lookup, Option.map_eq_none_iff, find?_eq_none, findIdx_lt_length]
  push Not
  rfl

theorem filter_add {P Q : Nat → Bool} {np : Nat} (hsame : ∀ p ∈ ps, Q p = P p) (hnp : Q np = true) :
    (ps.take (ps.findIdx P) ++ np :: ps.drop (ps.findIdx P + 1)).filter (fun p => !Q p) =
      ps.filter fun p => !P p := by
  induction ps with
  | nil => simp [hnp]
  | cons p ps ih =>
    obtain ⟨hp, hps⟩ := forall_mem_cons.mp hsame
    rw [findIdx_cons]
    cases hP : P p with
    | true =>
      rw [cond_true, take_zero, nil_append, drop_succ_cons,
        filter_cons_of_neg (by simp [hnp]), filter_cons_of_neg (by simp [hP])]
      exact filter_congr fun q hq => by rw [hps q hq]
    | false =>
      rw [cond_false, take_succ_cons, cons_append, drop_succ_cons,
        filter_cons_of_pos (by simp [hp, hP]), filter_cons_of_pos (by simp [hP]), ih hps]

/-! ## Whole runs -/

def EnvOp.subject (env : Env) : EnvOp → Option (List UInt8)
  | .setenv name _ _ => some name
  | .unsetenv name => some name
  | .putenv string => some ((text env string).takeWhile (· ≠ byte '='))
  | .clearenv => none

def EnvOp.update (env : Env) (vars : List UInt8 → Option (List UInt8)) :
    EnvOp → List UInt8 → Option (List UInt8)
  | .setenv name value replace, n =>
    if n = name ∧ (replace = true ∨ vars name = none) then some value else vars n
  | .unsetenv name, n => if n = name then none else vars n
  | .putenv string, n =>
    if n = (text env string).takeWhile (· ≠ byte '=') then
      -- without a `=` the variable is removed
      if byte '=' ∈ text env string then some ((text env string).drop (n.length + 1)) else none
    else vars n
  | .clearenv, _ => none

/-- Valid names, a live string, and blocks that are not in use. -/
def EnvOp.Allowed (env : Env) (blocks : Blocks) : EnvOp → Prop
  | .setenv name _ _ => ValidName name ∧ Fresh env blocks
  | .unsetenv name => ValidName name
  | .putenv string => env.strings string ≠ none ∧
      ValidName ((text env string).takeWhile (· ≠ byte '=')) ∧ Fresh env blocks
  | .clearenv => True

def others (env : Env) (ps : List Nat) (name : List UInt8) : List Nat :=
  ps.filter fun p => !named name (text env p)

structure Stepped (env : Env) (ps : List Nat) (op : EnvOp) (env' : Env) (ps' : List Nat) :
    Prop where
  good : Good env' ps'
  strings : Extends env env'
  vars : ∀ n, ValidName n →
    lookup (ps'.map (text env')) n = op.update env (lookup (ps.map (text env))) n
  others : ∀ name, op.subject env = some name → others env' ps' name = others env ps name
  unset : ∀ name, op = .unsetenv name → ∀ p ∈ ps', named name (text env' p) = false

section Step

variable {env : Env} {ps : List Nat} {blocks : Blocks}

theorem map_text_eq {env' : Env} (hgood : Good env ps) (hext : Extends env env') {qs : List Nat}
    (hqs : ∀ p ∈ qs, p ∈ ps) : qs.map (text env') = qs.map (text env) := by
  refine map_congr_left fun p hp => hext.text_eq ?_
  rw [hgood.live p (hqs p hp)]
  exact Option.some_ne_none _

variable {name : List UInt8}

theorem added (source : Source) {v : List UInt8} {replace : Bool} (hgood : Good env ps)
    (hfresh : Fresh env blocks) (hsource : source.Lives env) (hname : byte '=' ∉ name)
    (htext : source.text env name = name ++ byte '=' :: v)
    (hadd : place env ps name < ps.length → replace = true) :
    ∃ env' ps', addToEnviron env name source replace blocks = .ok env' ∧ Good env' ps' ∧
      Extends env env' ∧ (∀ n, byte '=' ∉ n → lookup (ps'.map (text env')) n =
        if n = name then some v else lookup (ps.map (text env)) n) ∧
      others env' ps' name = others env ps name := by
  obtain ⟨env', np, hrun, hgood', hext, hnp⟩ := addToEnviron_spec hgood hfresh hsource hadd
  rw [htext] at hnp
  refine ⟨env', _, hrun, hgood', hext, ?_, ?_⟩
  · intro n hn
    have hplace : place env ps name = (ps.map (text env)).findIdx (named name) := by
      rw [findIdx_map]
      rfl
    rw [map_append, map_cons, hnp,
      map_text_eq hgood hext fun p hp => mem_of_mem_take hp,
      map_text_eq hgood hext fun p hp => mem_of_mem_drop hp, hplace, map_take, map_drop]
    exact lookup_add hname _ hn
  · refine filter_add (fun p hp => ?_) ?_
    · rw [hext.text_eq]
      rw [hgood.live p hp]
      exact Option.some_ne_none _
    · rw [hnp]
      exact (named_append hname hname).mpr rfl

/-- Without `replace` an entry of this name stays as it is. -/
theorem addToEnviron_keep {source : Source} (hgood : Good env ps)
    (hlt : place env ps name < ps.length) :
    addToEnviron env name source false blocks = .ok env := by
  rw [addToEnviron, findPlace_spec hgood, getElem?_eq_getElem hlt]
  rfl

theorem unsetenv_spec (hgood : Good env ps) (hname : ValidName name) :
    ∃ env', unsetenv env name = .ok (env', .ok) ∧ env'.strings = env.strings ∧
      Good env' (others env ps name) := by
  rw [unsetenv, hname.invalidName_eq]
  cases hgood.entries with
  | null henviron =>
    rw [henviron]
    exact ⟨env, rfl, rfl, hgood⟩
  | @array a _ tail henviron hcells =>
    obtain ⟨tail', hloop⟩ := unsetenvLoop_spec name hgood.live tail
    rw [henviron]
    dsimp only
    rw [array_ok hcells, ok_bind, hloop]
    refine ⟨_, rfl, rfl, .array henviron (if_pos rfl), hgood.own, ?_, hgood.known⟩
    exact fun p hp => hgood.live p (mem_filter.mp hp).1

theorem removed (hgood : Good env ps) (hname : ValidName name) :
    ∃ env' ps', unsetenv env name = .ok (env', .ok) ∧ Good env' ps' ∧ Extends env env' ∧
      (∀ n, byte '=' ∉ n → lookup (ps'.map (text env')) n =
        if n = name then none else lookup (ps.map (text env)) n) ∧
      others env' ps' name = others env ps name ∧ ∀ p ∈ ps', named name (text env' p) = false := by
  obtain ⟨env', hrun, hstrings, hgood'⟩ := unsetenv_spec hgood hname
  have htext : text env' = text env := by
    funext p
    rw [text, text, hstrings]
  refine ⟨env', others env ps name, hrun, hgood', fun p _ => by rw [hstrings], ?_, ?_, ?_⟩
  · intro n hn
    have hmap : (others env ps name).map (text env) =
        (ps.map (text env)).filter fun s => !named name s := by
      rw [filter_map]
      rfl
    rw [htext, hmap, lookup_filter hname.no_equals _ hn]
  · rw [others, others, htext]
    simp
  · intro p hp
    rw [htext]
    simpa using (mem_filter.mp hp).2

theorem text_eq_of_contains {s : List UInt8} (h : byte '=' ∈ s) :
    s = s.takeWhile (· ≠ byte '=') ++
      byte '=' :: s.drop ((s.takeWhile (· ≠ byte '=')).length + 1) := by
  induction s with
  | nil => cases h
  | cons c s ih =>
    by_cases hc : c = byte '='
    · subst hc
      simp
    · have hmem : byte '=' ∈ s := (mem_cons.mp h).resolve_left fun heq => hc heq.symm
      rw [takeWhile_cons, if_pos (by simpa using hc)]
      exact congrArg (c :: ·) (ih hmem)

theorem EnvOp.step (hgood : Good env ps) (op : EnvOp) (hallowed : op.Allowed env blocks) :
    ∃ env' ps', op.perform env blocks = .ok env' ∧ Stepped env ps op env' ps' := by
  have hsame : Extends env env := fun _ _ => rfl
  cases op with
  | setenv name value replace =>
    obtain ⟨hname, hfresh⟩ := hallowed
    have hplace : place env ps name < ps.length ↔ lookup (ps.map (text env)) name ≠ none := by
      rw [ne_eq, lookup_eq_none_iff, not_not, length_map, findIdx_map]
      rfl
    have hperform : ∀ env', addToEnviron env name (.value value) replace blocks = .ok env' →
        (EnvOp.setenv name value replace).perform env blocks = .ok env' := by
      intro env' hrun
      simp only [EnvOp.perform, Stdlib.setenv, hname.invalidName_eq, Bool.false_eq_true, if_false,
        hrun, ok_bind, pure_ok]
    by_cases hkeep : place env ps name < ps.length ∧ replace = false
    · obtain ⟨hlt, rfl⟩ := hkeep
      refine ⟨env, ps, hperform env (addToEnviron_keep hgood hlt), hgood, hsame, ?_, fun _ _ => rfl,
        by simp⟩
      intro n _
      have hset := hplace.mp hlt
      rw [EnvOp.update, if_neg (by simp [hset])]
    · have hadd : place env ps name < ps.length → replace = true := by
        intro hlt
        rw [← Bool.not_eq_false]
        exact fun hfalse => hkeep ⟨hlt, hfalse⟩
      obtain ⟨env', ps', hrun, hgood', hext, hvars, hothers⟩ :=
        added (.value value) hgood hfresh trivial hname.no_equals rfl hadd
      refine ⟨env', ps', hperform env' hrun, hgood', hext, ?_, ?_, by simp⟩
      · intro n hn
        rw [hvars n hn.no_equals, EnvOp.update]
        by_cases heq : n = name
        · have hwhen : replace = true ∨ lookup (ps.map (text env)) name = none := by
            by_cases hnone : lookup (ps.map (text env)) name = none
            · exact .inr hnone
            · exact .inl (hadd (hplace.mpr hnone))
          rw [if_pos heq, if_pos ⟨heq, hwhen⟩]
        · rw [if_neg heq, if_neg fun h => heq h.1]
      · rintro _ ⟨⟩
        exact hothers
  | unsetenv name =>
    obtain ⟨env', ps', hrun, hgood', hext, hvars, hothers, hunset⟩ := removed hgood hallowed
    refine ⟨env', ps', ?_, hgood', hext, fun n hn => hvars n hn.no_equals, ?_, ?_⟩
    · simp only [EnvOp.perform, hrun, ok_bind, pure_ok]
    · rintro _ ⟨⟩
      exact hothers
    · rintro _ ⟨⟩
      exact hunset
  | putenv string =>
    obtain ⟨hlives, hname, hfresh⟩ := hallowed
    have hstring := string_ok (text_of_ne_none hlives)
    by_cases hequals : byte '=' ∈ text env string
    · obtain ⟨env', ps', hrun, hgood', hext, hvars, hothers⟩ :=
        added (.combined string) hgood hfresh hlives hname.no_equals
          (text_eq_of_contains hequals) (fun _ => rfl)
      refine ⟨env', ps', ?_, hgood', hext, ?_, ?_, by simp⟩
      · rw [EnvOp.perform, Stdlib.putenv, hstring, ok_bind, if_pos (by simpa using hequals)]
        exact hrun
      · intro n hn
        rw [hvars n hn.no_equals, EnvOp.update, if_pos hequals]
        by_cases heq : n = (text env string).takeWhile (· ≠ byte '=')
        · subst heq
          rfl
        · rw [if_neg heq, if_neg heq]
      · rintro _ ⟨⟩
        exact hothers
    · have hall : (text env string).takeWhile (· ≠ byte '=') = text env string := by
        rw [takeWhile_eq_self_iff]
        intro c hc
        simpa using fun heq : c = byte '=' => hequals (heq ▸ hc)
      rw [hall] at hname
      obtain ⟨env', ps', hrun, hgood', hext, hvars, hothers, -⟩ := removed hgood hname
      refine ⟨env', ps', ?_, hgood', hext, ?_, ?_, by simp⟩
      · rw [EnvOp.perform, Stdlib.putenv, hstring, ok_bind, if_neg (by simpa using hequals), hrun]
        rfl
      · intro n hn
        rw [hvars n hn.no_equals, EnvOp.update, hall, if_neg hequals]
      · rintro _ ⟨⟩
        rw [hall]
        exact hothers
  | clearenv =>
    have hshape : (Stdlib.clearenv env).environ = none ∧
        (Stdlib.clearenv env).last_environ = none ∧ (Stdlib.clearenv env).strings = env.strings ∧
        (Stdlib.clearenv env).known_values = env.known_values := by
      rw [Stdlib.clearenv]
      split
      · next heq =>
        split
        · next hnone => exact ⟨hnone, heq ▸ hnone, rfl, rfl⟩
        · exact ⟨rfl, rfl, rfl, rfl⟩
      · next hne => exact ⟨rfl, hgood.own.resolve_right fun heq => hne heq.symm, rfl, rfl⟩
    obtain ⟨henviron, hlast, hstrings, hknown⟩ := hshape
    refine ⟨Stdlib.clearenv env, [], rfl, ⟨.null henviron, .inl hlast, by simp, ?_⟩,
      fun p _ => by rw [hstrings], fun n _ => rfl, ?_, by simp⟩
    swap
    · rintro _ ⟨⟩
    rw [hknown, hstrings]
    exact hgood.known

end Step

/-- A sequence of calls, each with the blocks that the allocator returns in it, and the variables
that they leave. -/
inductive EnvRun (env₀ : Env) (ps₀ : List Nat) :
    List EnvOp → (List UInt8 → Option (List UInt8)) → Env → Prop
  | start : EnvRun env₀ ps₀ [] (lookup (ps₀.map (text env₀))) env₀
  | call {ops : List EnvOp} {vars : List UInt8 → Option (List UInt8)} {env env' : Env} {op : EnvOp}
      {blocks : Blocks} (before : EnvRun env₀ ps₀ ops vars env) (allowed : op.Allowed env blocks)
      (done : op.perform env blocks = .ok env') :
      EnvRun env₀ ps₀ (ops ++ [op]) (op.update env vars) env'

/-- The environment of the start of the program: no call has been made yet. -/
structure Initial (env : Env) (ps : List Nat) : Prop where
  entries : Entries env ps
  live : ∀ p ∈ ps, env.strings p ≠ none
  last_environ : env.last_environ = none
  known_values : env.known_values = []

theorem Initial.good (h : Initial env ps) : Good env ps where
  entries := h.entries
  own := .inl h.last_environ
  live p hp := text_of_ne_none (h.live p hp)
  known p hp := by
    rw [h.known_values] at hp
    cases hp

/-- A call looks at no variables but valid ones. -/
theorem EnvOp.update_congr {blocks : Blocks} {op : EnvOp} {vars' : List UInt8 → Option (List UInt8)}
    (hallowed : op.Allowed env blocks) (h : ∀ n, ValidName n → vars n = vars' n)
    (hn : ValidName n) : op.update env vars n = op.update env vars' n := by
  cases op with
  | setenv name value replace => rw [EnvOp.update, EnvOp.update, h n hn, h name hallowed.1]
  | unsetenv name | putenv string => rw [EnvOp.update, EnvOp.update, h n hn]
  | clearenv => rfl

theorem EnvRun.good {env₀ : Env} {ps₀ : List Nat} {ops : List EnvOp} (hinit : Initial env₀ ps₀)
    (hrun : EnvRun env₀ ps₀ ops vars env) :
    ∃ ps, Good env ps ∧ ∀ n, ValidName n → lookup (ps.map (text env)) n = vars n := by
  induction hrun with
  | start => exact ⟨ps₀, hinit.good, fun n _ => rfl⟩
  | call _ hallowed hdone ih =>
    obtain ⟨ps, hgood, hvars⟩ := ih
    obtain ⟨env', ps', hperform, hstep⟩ := EnvOp.step hgood _ hallowed
    rw [hdone] at hperform
    cases hperform
    refine ⟨ps', hstep.good, fun n hn => ?_⟩
    rw [hstep.vars n hn, EnvOp.update_congr hallowed hvars hn]

/-- After any calls `getenv` answers from the variables that they leave, and the next call succeeds,
leaves the other entries and their strings as they are, and `unsetenv` leaves no entry of its
name. -/
theorem environ_is_map {env₀ env : Env} {ps₀ : List Nat} {ops : List EnvOp}
    {vars : List UInt8 → Option (List UInt8)} (hinit : Initial env₀ ps₀)
    (hrun : EnvRun env₀ ps₀ ops vars env) :
    ∃ ps, Good env ps ∧ (∀ n, ValidName n → getenv env n = .ok (vars n)) ∧
      ∀ op blocks, EnvOp.Allowed env blocks op →
        ∃ env' ps', op.perform env blocks = .ok env' ∧ Stepped env ps op env' ps' := by
  obtain ⟨ps, hgood, hvars⟩ := hrun.good hinit
  refine ⟨ps, hgood, fun n hn => ?_, fun op blocks hallowed => EnvOp.step hgood op hallowed⟩
  rw [getenv_spec hgood hn, hvars n hn]

/-- An environment with two entries of one name, and a string for `putenv`. -/
def duplicates : Env where
  strings p := ([bytesOf "A=1", bytesOf "B=2", bytesOf "A=3", bytesOf "C=4"] : List _)[p]?
  arrays a := if a = 0 then some [some 0, some 1, some 2, none] else none
  environ := some 0
  last_environ := none
  known_values := []

theorem initial_duplicates : Initial duplicates [0, 1, 2] :=
  ⟨.array rfl rfl, by decide, rfl, rfl⟩

def sampleBlocks (i : Nat) : Blocks := ⟨i, fun _ => none, 10 * i⟩

/-- `B` is set anew, `C` is put in, and both entries of `A` are removed. -/
theorem environ_is_map_duplicates :
    ∃ vars env, EnvRun duplicates [0, 1, 2]
        [.setenv (bytesOf "B") (bytesOf "5") true, .putenv 3, .unsetenv (bytesOf "A")] vars env ∧
      getenv env (bytesOf "A") = .ok none ∧ getenv env (bytesOf "B") = .ok (some (bytesOf "5")) ∧
      getenv env (bytesOf "C") = .ok (some (bytesOf "4")) := by
  have hvalid : ValidName (bytesOf "A") ∧ ValidName (bytesOf "B") ∧ ValidName (bytesOf "C") :=
    ⟨⟨by decide, by decide, by decide⟩, ⟨by decide, by decide, by decide⟩,
      ⟨by decide, by decide, by decide⟩⟩
  have hset : EnvRun duplicates [0, 1, 2] [.setenv (bytesOf "B") (bytesOf "5") true] _ _ :=
    .call .start (show EnvOp.Allowed _ (sampleBlocks 1) _ from ⟨hvalid.2.1, .inl rfl, rfl⟩) rfl
  have hput : EnvRun duplicates [0, 1, 2]
      [.setenv (bytesOf "B") (bytesOf "5") true, .putenv 3] _ _ :=
    .call hset (show EnvOp.Allowed _ (sampleBlocks 2) (.putenv 3) from
      ⟨by decide, hvalid.2.2, .inl rfl, rfl⟩) rfl
  obtain ⟨ps, -, -, hnext⟩ := environ_is_map initial_duplicates hput
  obtain ⟨env, -, hunset, -⟩ := hnext (.unsetenv (bytesOf "A")) (sampleBlocks 3) hvalid.1
  have hrun : EnvRun duplicates [0, 1, 2]
      [.setenv (bytesOf "B") (bytesOf "5") true, .putenv 3, .unsetenv (bytesOf "A")] _ env :=
    .call hput (show EnvOp.Allowed _ (sampleBlocks 3) (.unsetenv (bytesOf "A")) from hvalid.1)
      hunset
  obtain ⟨-, -, hget, -⟩ := environ_is_map initial_duplicates hrun
  refine ⟨_, env, hrun, ?_, ?_, ?_⟩
  · rw [hget _ hvalid.1]
    rfl
  · rw [hget _ hvalid.2.1]
    rfl
  · rw [hget _ hvalid.2.2]
    rfl

end SafeLibc.Stdlib
