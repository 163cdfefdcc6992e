import SafeLibc.Ldso.Tunables

/-!
# Secure-exec start-up

In a process that runs with `AT_SECURE` the Rust start-up filters the environment by two prefixes
and a list of names, and the C start-up unsets each name of `UNSECURE_ENVVARS`.

The Rust filter is not at least as strict: seven `MALLOC_` variables pass it, and it drops variables
whose name only begins with `GLIBC_TUNABLES`. Nothing else is disputed (`startupContext_scrub_iff`).
-/

namespace SafeLibc.Startup

open SafeLibc.Ldso

/-! ## The auxiliary vector -/

def atNull : Nat := 0
def atPagesz : Nat := 6
def atFpucw : Nat := 18
def atSecure : Nat := 23
def atMinsigstksz : Nat := 51

structure AuxEntry where
  key : Nat
  value : Nat
  deriving DecidableEq, Repr

/-- One value for each key up to `AT_MINSIGSTKSZ`. -/
structure AuxValues where
  values : Vector Nat (atMinsigstksz + 1)
  deriving DecidableEq, Repr

/-- `AuxValues::new`: page size, FPU control word and signal stack size have defaults. -/
def AuxValues.new : AuxValues where
  values := (((Vector.replicate (atMinsigstksz + 1) 0).set atPagesz 4096 (by decide)).set
    atFpucw 0x037f (by decide)).set atMinsigstksz 2048 (by decide)

def AuxValues.get (aux : AuxValues) (key : Nat) : Nat := aux.values[key]?.getD 0

def AuxValues.secure (aux : AuxValues) : Bool := aux.get atSecure ≠ 0

def parseAuxvFrom (aux : AuxValues) : List AuxEntry → AuxValues
  | [] => aux
  | entry :: entries =>
    if entry.key = atNull then aux
    else if h : entry.key ≤ atMinsigstksz then
      parseAuxvFrom ⟨aux.values.set entry.key entry.value (Nat.lt_succ_of_le h)⟩ entries
    else parseAuxvFrom aux entries

/-- `parse_auxv`, up to `AT_NULL`. -/
def parseAuxv (entries : List AuxEntry) : AuxValues := parseAuxvFrom .new entries

/-! ## The Rust filter -/

open List

def loaderSensitivePrefixes : List (List Char) :=
  ["LD_", "GLIBC_TUNABLES"].map String.toList

def alwaysStripInSecureExec : List (List Char) :=
  ["GCONV_PATH", "GETCONF_DIR", "HOSTALIASES", "LD_AUDIT", "LD_ASSUME_KERNEL", "LD_BIND_NOT",
    "LD_BIND_NOW", "LD_DEBUG", "LD_DEBUG_OUTPUT", "LD_DYNAMIC_WEAK", "LD_HWCAP_MASK",
    "LD_LIBRARY_PATH", "LD_ORIGIN_PATH", "LD_POINTER_GUARD", "LD_PRELOAD", "LD_PROFILE",
    "LD_SHOW_AUXV", "LD_TRACE_LOADED_OBJECTS", "LD_USE_LOAD_BIAS", "LD_VERBOSE", "LD_WARN",
    "LD_PREFER_MAP_32BIT_EXEC", "LOCALDOMAIN", "LOCPATH", "MALLOC_TRACE", "NIS_PATH", "NLSPATH",
    "RESOLV_HOST_CONF", "RES_OPTIONS", "TMPDIR", "TZDIR"].map String.toList

/-- What the Rust filter drops. -/
def isLoaderSensitiveEnv (name : List Char) : Bool :=
  loaderSensitivePrefixes.any (fun start => start.isPrefixOf name) ||
    alwaysStripInSecureExec.contains name

def secureExecEnvFromPairs (pairs : List EnvVar) : List EnvVar :=
  pairs.filter fun v => !isLoaderSensitiveEnv v.name

structure InitialStack where
  argc : Nat
  argv : List (List Char)
  envp : List EnvVar
  auxv : AuxValues

def flattenInitialStack (argc : Nat) (argv : List (List Char)) (envp : List EnvVar)
    (auxvEntries : List AuxEntry) : InitialStack :=
  ⟨argc, argv, envp, parseAuxv auxvEntries⟩

structure StartupContext where
  secureExec : Bool
  tunables : TunablesState
  envp : List EnvVar

def StartupContext.fromInitialStack (stack : InitialStack) : StartupContext :=
  let secureExec := stack.auxv.secure
  let envp := if secureExec then secureExecEnvFromPairs stack.envp else stack.envp
  { secureExec, tunables := defaultTunableRegistry.parseEnv secureExec envp, envp }

/-! ## The C filter -/

/-- What the C code drops. -/
def unsecureEnvvars : List (List Char) :=
  ["GCONV_PATH", "GETCONF_DIR", "GLIBC_TUNABLES", "HOSTALIASES", "LD_AUDIT", "LD_BIND_NOT",
    "LD_BIND_NOW", "LD_DEBUG", "LD_DEBUG_OUTPUT", "LD_DYNAMIC_WEAK", "LD_HWCAP_MASK",
    "LD_LIBRARY_PATH", "LD_ORIGIN_PATH", "LD_PRELOAD", "LD_PROFILE", "LD_SHOW_AUXV", "LD_VERBOSE",
    "LD_WARN", "LOCALDOMAIN", "LOCPATH", "MALLOC_ARENA_MAX", "MALLOC_ARENA_TEST",
    "MALLOC_MMAP_MAX_", "MALLOC_MMAP_THRESHOLD_", "MALLOC_PERTURB_", "MALLOC_TOP_PAD_",
    "MALLOC_TRACE", "MALLOC_TRIM_THRESHOLD_", "NIS_PATH", "NLSPATH", "RESOLV_HOST_CONF",
    "RES_OPTIONS", "TMPDIR", "TZDIR"].map String.toList

/-- `unsetenv` of the dynamic linker: every line of the name goes. -/
def unsetenv (env : List EnvVar) (name : List Char) : List EnvVar :=
  env.filter fun v => !tunableIsName name v.line

/-- The loop of `process_envvars_secure` over `UNSECURE_ENVVARS`. -/
def processEnvvarsSecure (env : List EnvVar) : List EnvVar :=
  unsecureEnvvars.foldl unsetenv env

theorem foldl_unsetenv (names : List (List Char)) (hnames : ∀ name ∈ names, '=' ∉ name)
    (env : List EnvVar) : names.foldl unsetenv env = env.filter fun v => v.name ∉ names := by
  induction names generalizing env with
  | nil => exact (filter_eq_self.mpr (by simp)).symm
  | cons name names ih =>
    have hname := hnames name mem_cons_self
    have hiff : ∀ v : EnvVar, tunableIsName name v.line = decide (name = v.name) := fun v =>
      Bool.eq_iff_iff.mpr (by simpa using v.tunableIsName_line hname)
    rw [foldl_cons, ih (fun n hn => hnames n (mem_cons_of_mem _ hn)), unsetenv,
      filter_filter]
    congr 1
    funext v
    simp [hiff, eq_comm, Bool.and_comm]

variable (env : List EnvVar) {name : List Char}

/-- The C code removes exactly the variables of its list. -/
theorem processEnvvarsSecure_eq :
    processEnvvarsSecure env = env.filter fun v => v.name ∉ unsecureEnvvars :=
  foldl_unsetenv unsecureEnvvars (by decide +kernel) env

/-! ## The two filters -/

def ldVariable (name : List Char) : Bool := "LD_".toList.isPrefixOf name

/-- The names of the C list that the Rust filter does not know. -/
def mallocNames : List (List Char) :=
  ["MALLOC_ARENA_MAX", "MALLOC_ARENA_TEST", "MALLOC_MMAP_MAX_", "MALLOC_MMAP_THRESHOLD_",
    "MALLOC_PERTURB_", "MALLOC_TOP_PAD_", "MALLOC_TRIM_THRESHOLD_"].map String.toList

/-- A longer name that begins with `GLIBC_TUNABLES`. -/
def extendsGlibcTunables (name : List Char) : Bool :=
  glibcTunables.isPrefixOf name && name ≠ glibcTunables

theorem isLoaderSensitiveEnv_of_mem (h : name ∈ unsecureEnvvars) :
    isLoaderSensitiveEnv name = false ↔ name ∈ mallocNames := by
  have hall : ∀ name ∈ unsecureEnvvars,
      (isLoaderSensitiveEnv name = false ↔ name ∈ mallocNames) := by
    decide +kernel
  exact hall name h

theorem mem_unsecureEnvvars_of_strip :
    ∀ name ∈ alwaysStripInSecureExec, name ∈ unsecureEnvvars ∨ ldVariable name = true := by
  decide +kernel

theorem isLoaderSensitiveEnv_eq (name : List Char) :
    isLoaderSensitiveEnv name =
      (ldVariable name || glibcTunables.isPrefixOf name ||
        alwaysStripInSecureExec.contains name) := by
  simp only [isLoaderSensitiveEnv, loaderSensitivePrefixes, map_cons, map_nil,
    any_cons, any_nil, Bool.or_false]
  rfl

theorem isLoaderSensitiveEnv_of_not_mem (h : name ∉ unsecureEnvvars)
    (hld : ldVariable name = false) :
    isLoaderSensitiveEnv name = extendsGlibcTunables name := by
  have hstrip : alwaysStripInSecureExec.contains name = false := by
    rw [← Bool.not_eq_true, contains_iff_mem]
    intro hmem
    rcases mem_unsecureEnvvars_of_strip name hmem with hmem | hld'
    · exact h hmem
    · exact absurd hld' (by simp [hld])
  have hne : name ≠ glibcTunables := by
    rintro rfl
    exact h (by decide +kernel)
  rw [isLoaderSensitiveEnv_eq, hld, hstrip, extendsGlibcTunables]
  simp [hne]

instance (name : List Char) : Decidable (name ∈ unsecureEnvvars) :=
  decidable_of_iff (unsecureEnvvars.contains name) contains_iff_mem

/-- What the Rust filter is meant to do to an environment: drop what the C code drops, and keep, in
order, everything else that is not an `LD_` variable. -/
def Scrubs (env : List EnvVar) : Prop :=
  (∀ v ∈ secureExecEnvFromPairs env, v.name ∉ unsecureEnvvars) ∧
    (secureExecEnvFromPairs env).filter (fun v => v.name ∉ unsecureEnvvars ∧ !ldVariable v.name) =
      env.filter fun v => v.name ∉ unsecureEnvvars ∧ !ldVariable v.name

/-- A variable that only one of the two drops. -/
def Disputed (v : EnvVar) : Prop :=
  v.name ∈ mallocNames ∨ extendsGlibcTunables v.name = true

theorem not_mem_of_extendsGlibcTunables (h : extendsGlibcTunables name = true) :
    name ∉ unsecureEnvvars ∧ ldVariable name = false := by
  refine ⟨fun hmem => ?_, ?_⟩
  · have hall : ∀ name ∈ unsecureEnvvars, extendsGlibcTunables name = false := by decide +kernel
    rw [hall name hmem] at h
    cases h
  · simp only [extendsGlibcTunables, Bool.and_eq_true, isPrefixOf_iff_prefix] at h
    obtain ⟨⟨rest, rfl⟩, -⟩ := h
    rfl

theorem drops_iff :
    (∀ v ∈ secureExecEnvFromPairs env, v.name ∉ unsecureEnvvars) ↔
      ∀ v ∈ env, v.name ∉ mallocNames := by
  have hsub : ∀ name ∈ mallocNames, name ∈ unsecureEnvvars := by decide +kernel
  simp only [secureExecEnvFromPairs, mem_filter, Bool.not_eq_true']
  constructor
  · intro h v hv hm
    have hmem := hsub v.name hm
    exact h v ⟨hv, (isLoaderSensitiveEnv_of_mem hmem).mpr hm⟩ hmem
  · rintro h v ⟨hv, hpass⟩ hmem
    exact h v hv ((isLoaderSensitiveEnv_of_mem hmem).mp hpass)

theorem filter_filter_eq_iff {α : Type*} (p q : α → Bool) (l : List α) :
    (l.filter q).filter p = l.filter p ↔ ∀ a ∈ l, p a = true → q a = true := by
  rw [filter_filter]
  constructor
  · intro h a ha hp
    have hmem : a ∈ l.filter fun a => p a && q a := h ▸ mem_filter.mpr ⟨ha, hp⟩
    exact (Bool.and_eq_true_iff.mp (mem_filter.mp hmem).2).2
  · intro h
    refine filter_congr fun a ha => ?_
    cases hp : p a with
    | false => rfl
    | true => exact h a ha hp

theorem keeps_iff :
    (secureExecEnvFromPairs env).filter (fun v => v.name ∉ unsecureEnvvars ∧ !ldVariable v.name) =
        (env.filter fun v => v.name ∉ unsecureEnvvars ∧ !ldVariable v.name) ↔
      ∀ v ∈ env, extendsGlibcTunables v.name = false := by
  rw [secureExecEnvFromPairs, filter_filter_eq_iff]
  refine forall₂_congr fun v _ => ?_
  simp only [decide_eq_true_eq, Bool.not_eq_true', and_imp]
  constructor
  · intro h
    cases hext : extendsGlibcTunables v.name with
    | false => rfl
    | true =>
      obtain ⟨hmem, hld⟩ := not_mem_of_extendsGlibcTunables hext
      rw [← hext, ← isLoaderSensitiveEnv_of_not_mem hmem hld, h hmem hld]
  · intro hext hmem hld
    rw [isLoaderSensitiveEnv_of_not_mem hmem hld, hext]

theorem scrubs_iff : Scrubs env ↔ ∀ v ∈ env, ¬Disputed v := by
  rw [Scrubs, drops_iff, keeps_iff]
  simp only [Disputed, not_or, Bool.not_eq_true]
  exact ⟨fun h v hv => ⟨h.1 v hv, h.2 v hv⟩,
    fun h => ⟨fun v hv => (h v hv).1, fun v hv => (h v hv).2⟩⟩

/-! ## The start-up context -/

/-- Without disputed variables, the Rust filter reads only what the C code leaves. -/
theorem secureExecEnvFromPairs_processEnvvarsSecure {env : List EnvVar}
    (h : ∀ v ∈ env, ¬Disputed v) :
    secureExecEnvFromPairs (processEnvvarsSecure env) = secureExecEnvFromPairs env := by
  have hdrops := (drops_iff env).mpr fun v hv hm => h v hv (.inl hm)
  rw [processEnvvarsSecure_eq, secureExecEnvFromPairs, secureExecEnvFromPairs,
    filter_filter_eq_iff]
  intro v hv hpass
  simpa using hdrops v (mem_filter.mpr ⟨hv, hpass⟩)

theorem fromInitialStack_secure {stack : InitialStack} (h : stack.auxv.secure = true) :
    StartupContext.fromInitialStack stack =
      ⟨true, .empty, secureExecEnvFromPairs stack.envp⟩ := by
  simp [StartupContext.fromInitialStack, h, TunableRegistry.parseEnv]

/-- **Secure-exec scrubbing.** Of two `AT_SECURE` stacks whose environments differ only in variables
the C code removes: the Rust filter scrubs both environments and the start-up contexts are the same
exactly when no variable is disputed. -/
theorem startupContext_scrub_iff {s₁ s₂ : InitialStack} (h₁ : s₁.auxv.secure = true)
    (h₂ : s₂.auxv.secure = true)
    (hdiff : processEnvvarsSecure s₁.envp = processEnvvarsSecure s₂.envp) :
    (Scrubs s₁.envp ∧ Scrubs s₂.envp ∧
        StartupContext.fromInitialStack s₁ = StartupContext.fromInitialStack s₂) ↔
      ∀ v ∈ s₁.envp ++ s₂.envp, ¬Disputed v := by
  rw [scrubs_iff, scrubs_iff, forall_mem_append]
  constructor
  · rintro ⟨he₁, he₂, -⟩
    exact ⟨he₁, he₂⟩
  · rintro ⟨he₁, he₂⟩
    refine ⟨he₁, he₂, ?_⟩
    rw [fromInitialStack_secure h₁, fromInitialStack_secure h₂,
      ← secureExecEnvFromPairs_processEnvvarsSecure he₁, hdiff,
      secureExecEnvFromPairs_processEnvvarsSecure he₂]

def secureStack (envp : List EnvVar) : InitialStack :=
  flattenInitialStack 1 ["prog".toList] envp [⟨atSecure, 1⟩, ⟨atNull, 0⟩]

def pathVar : EnvVar := ⟨"PATH".toList, "/usr/bin".toList, by decide +kernel⟩
def preloadVar : EnvVar := ⟨"LD_PRELOAD".toList, "/tmp/x.so".toList, by decide +kernel⟩
def perturbVar : EnvVar := ⟨"MALLOC_PERTURB_".toList, "1".toList, by decide +kernel⟩

instance (v : EnvVar) : Decidable (Disputed v) := inferInstanceAs (Decidable (_ ∨ _))

/-- `PATH` stays, `LD_PRELOAD` leaves no trace. -/
theorem startupContext_scrub_preload :
    Scrubs (secureStack [pathVar, preloadVar]).envp ∧ Scrubs (secureStack [pathVar]).envp ∧
      StartupContext.fromInitialStack (secureStack [pathVar, preloadVar]) =
        StartupContext.fromInitialStack (secureStack [pathVar]) :=
  have h₁ : (secureStack [pathVar, preloadVar]).auxv.secure = true := by decide +kernel
  have h₂ : (secureStack [pathVar]).auxv.secure = true := by decide +kernel
  have hdiff : processEnvvarsSecure (secureStack [pathVar, preloadVar]).envp =
      processEnvvarsSecure (secureStack [pathVar]).envp := by decide +kernel
  (startupContext_scrub_iff h₁ h₂ hdiff).mpr (by decide +kernel)

/-- `MALLOC_PERTURB_` is on the C list, passes the Rust filter, and tells two start-up contexts
apart. -/
theorem startupContext_keeps_perturb :
    perturbVar.name ∈ unsecureEnvvars ∧
      perturbVar ∈ secureExecEnvFromPairs [perturbVar] ∧
      processEnvvarsSecure (secureStack [perturbVar]).envp =
        processEnvvarsSecure (secureStack []).envp ∧
      (StartupContext.fromInitialStack (secureStack [perturbVar])).envp ≠
        (StartupContext.fromInitialStack (secureStack [])).envp := by
  decide +kernel

end SafeLibc.Startup
