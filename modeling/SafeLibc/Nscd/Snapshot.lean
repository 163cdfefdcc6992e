import SafeLibc.Lib.Machine
import SafeLibc.Lib.Str

/-!
# The snapshot file of nscd

`write_nscd_snapshot` and `parse_nscd_snapshot` of `network_tools.rs`, as functions of the file's
text. A snapshot is read back as it was written exactly if its names and its pid can stand in the
file (`parseNscdSnapshot_render_iff`): no commas, which separate the names, no line ends, and no
carriage return before one.
-/

namespace SafeLibc.Nscd

open SafeLibc.Lib List

/-- What a snapshot file holds. -/
structure NscdSnapshot where
  generation : Nat
  pid : List Char
  invalidations : List (List Char)
  deriving DecidableEq, Repr

def generationKey : List Char := "generation=".toList

def pidKey : List Char := "pid=".toList

def invalidationsKey : List Char := "invalidations=".toList

def generationEndKey : List Char := "generation_end=".toList

/-- The payload that `write_nscd_snapshot` publishes. -/
def render (s : NscdSnapshot) : List Char :=
  generationKey ++ Nat.toDigits 10 s.generation ++ '\n' ::
    (pidKey ++ s.pid ++ '\n' ::
      ((if s.invalidations.isEmpty then []
        else invalidationsKey ++ [','].intercalate s.invalidations ++ ['\n']) ++
        (generationEndKey ++ Nat.toDigits 10 s.generation ++ ['\n'])))

structure Fields where
  generation : Option Nat := none
  generationEnd : Option Nat := none
  pid : Option (List Char) := none
  invalidations : List (List Char) := []
  deriving DecidableEq, Repr

/-- A line sets the field of its key. -/
def Fields.readLine (fields : Fields) (line : List Char) : Fields :=
  if let some value := stripHead generationKey line then
    { fields with generation := parseU64 value }
  else if let some value := stripHead generationEndKey line then
    { fields with generationEnd := parseU64 value }
  else if let some value := stripHead pidKey line then
    { fields with pid := some value }
  else if let some value := stripHead invalidationsKey line then
    { fields with invalidations := (value.splitOn ',').filter fun entry => !entry.isEmpty }
  else fields

def parseNscdSnapshot (contents : List Char) : Option NscdSnapshot :=
  let fields := (lines contents).foldl Fields.readLine {}
  fields.generation.bind fun generation =>
    if generation = 0 ∨ some generation ≠ fields.generationEnd then none
    else fields.pid.map fun pid => ⟨generation, pid, fields.invalidations⟩

/-! ## Round trip -/

/-- A name that can stand in the list of invalidations. -/
def cleanName (name : List Char) : Bool :=
  !name.isEmpty && name.all fun c => c ≠ ',' && c ≠ '\n' && c ≠ '\r'

/-- A generation, a pid and names without separators. -/
structure NscdSnapshot.Clean (s : NscdSnapshot) : Prop where
  generation_pos : 0 < s.generation
  generation_lt : s.generation < 2 ^ 64
  pid_digits : s.pid.all isDecimalDigit = true
  names : ∀ name ∈ s.invalidations, cleanName name = true

/-- Commas and line ends separate, empty names are skipped, and a final carriage return is
dropped. -/
structure NscdSnapshot.Readable (s : NscdSnapshot) : Prop where
  generation_pos : 0 < s.generation
  generation_lt : s.generation < 2 ^ 64
  pid_line : '\n' ∉ s.pid
  pid_end : s.pid.getLast? ≠ some '\r'
  names : ∀ name ∈ s.invalidations, name ≠ [] ∧ ',' ∉ name ∧ '\n' ∉ name
  names_end : ∀ name ∈ s.invalidations.getLast?, name.getLast? ≠ some '\r'

theorem cleanName_iff {name : List Char} : cleanName name = true ↔
    name ≠ [] ∧ ',' ∉ name ∧ '\n' ∉ name ∧ '\r' ∉ name := by
  simp only [cleanName, Bool.and_eq_true, all_eq_true, decide_eq_true_eq, Bool.not_eq_true',
    isEmpty_eq_false_iff]
  refine and_congr_right fun _ => ⟨?_, ?_⟩
  · intro h
    refine ⟨?_, ?_, ?_⟩ <;> intro hmem
    · exact (h _ hmem).1.1 rfl
    · exact (h _ hmem).1.2 rfl
    · exact (h _ hmem).2 rfl
  · rintro ⟨hcomma, hline, hcr⟩ c hc
    exact ⟨⟨fun h => hcomma (h ▸ hc), fun h => hline (h ▸ hc)⟩, fun h => hcr (h ▸ hc)⟩

variable {s : NscdSnapshot} {names : List (List Char)} {c : Char} {key : List Char}

theorem not_mem_digits {digits : List Char} (h : digits.all isDecimalDigit = true)
    (hc : isDecimalDigit c = false) : c ∉ digits := by
  intro hmem
  rw [all_eq_true.mp h c hmem] at hc
  cases hc

theorem NscdSnapshot.Clean.readable (h : s.Clean) : s.Readable where
  generation_pos := h.generation_pos
  generation_lt := h.generation_lt
  pid_line := not_mem_digits h.pid_digits rfl
  pid_end hlast := not_mem_digits h.pid_digits rfl (mem_of_getLast? hlast)
  names name hname := by
    obtain ⟨hne, hcomma, hline, -⟩ := cleanName_iff.1 (h.names name hname)
    exact ⟨hne, hcomma, hline⟩
  names_end name hname hlast :=
    (cleanName_iff.1 (h.names name (mem_of_getLast? hname))).2.2.2 (mem_of_getLast? hlast)

theorem not_mem_intercalate (hc : c ≠ ',') (h : ∀ name ∈ names, c ∉ name) :
    c ∉ [','].intercalate names := by
  induction names with
  | nil => simp
  | cons name names ih =>
    have hname := h name (mem_cons_self ..)
    have hrest := ih fun n hn => h n (mem_cons_of_mem _ hn)
    cases names with
    | nil => simpa [intercalate] using hname
    | cons name' names =>
      simp [hname, hc, hrest]

theorem getLast?_intercalate (h : ∀ name ∈ names, name ≠ []) :
    ([','].intercalate names).getLast? = names.getLast?.bind getLast? := by
  induction names with
  | nil => rfl
  | cons name names ih =>
    have hrest := ih fun n hn => h n (mem_cons_of_mem _ hn)
    cases names with
    | nil => simp [intercalate]
    | cons name' names =>
      have hsome : (([','].intercalate (name' :: names)).getLast?).isSome := by
        rw [hrest, getLast?_eq_some_getLast (cons_ne_nil _ _), Option.bind_some,
          getLast?_isSome]
        exact h _ (mem_cons_of_mem _ (getLast_mem _))
      rw [intercalate_cons_cons, getLast?_append, Option.or_of_isSome hsome, hrest,
        getLast?_cons_cons]

/-- The list of invalidations is read back from its line. -/
theorem filter_splitOn_intercalate (hne : names ≠ []) (h : ∀ name ∈ names, name ≠ [] ∧ ',' ∉ name) :
    (([','].intercalate names).splitOn ',').filter (fun entry => !entry.isEmpty) = names := by
  rw [splitOn_intercalate ',' (fun name hname => (h name hname).2) hne]
  refine filter_eq_self.mpr fun name hname => ?_
  simpa using (h name hname).1

def invalidationLines (names : List (List Char)) : List (List Char) :=
  if names.isEmpty then [] else [invalidationsKey ++ [','].intercalate names]

theorem not_mem_key : ∀ key ∈ [generationKey, pidKey, invalidationsKey, generationEndKey],
    '\n' ∉ key ∧ key.getLast? = some '=' := by
  decide +kernel

section

variable (hkey : key ∈ [generationKey, pidKey, invalidationsKey, generationEndKey])
include hkey

theorem lines_field {value : List Char}
    (hline : '\n' ∉ value) (hcr : value.getLast? ≠ some '\r') (rest : List Char) :
    lines (key ++ value ++ '\n' :: rest) = (key ++ value) :: lines rest := by
  obtain ⟨hkeyLine, hkeyEnd⟩ := not_mem_key key hkey
  apply lines_cons
  · rw [mem_append, not_or]
    exact ⟨hkeyLine, hline⟩
  · rw [getLast?_append, hkeyEnd]
    cases hlast : value.getLast? with
    | none => simp
    | some c => simpa [hlast] using hcr

theorem lines_number
    (n : Nat) (rest : List Char) : lines (key ++ Nat.toDigits 10 n ++ '\n' :: rest) =
      (key ++ Nat.toDigits 10 n) :: lines rest := by
  have hdigits := all_isDecimalDigit_toDigits n
  apply lines_field hkey (not_mem_digits hdigits rfl)
  intro hlast
  exact not_mem_digits hdigits rfl (mem_of_getLast? hlast)

end

theorem lines_render (h : s.Readable) :
    lines (render s) = (generationKey ++ Nat.toDigits 10 s.generation) :: (pidKey ++ s.pid) ::
      (invalidationLines s.invalidations ++
        [generationEndKey ++ Nat.toDigits 10 s.generation]) := by
  have hend : lines (generationEndKey ++ Nat.toDigits 10 s.generation ++ ['\n']) =
      [generationEndKey ++ Nat.toDigits 10 s.generation] := by
    rw [lines_number (by simp), lines_nil]
  rw [render, lines_number (by simp), lines_field (by simp) h.pid_line h.pid_end]
  unfold invalidationLines
  split
  · rw [nil_append, nil_append, hend]
  · have hline : '\n' ∉ [','].intercalate s.invalidations :=
      not_mem_intercalate (by decide) fun name hname => (h.names name hname).2.2
    have hcr : ([','].intercalate s.invalidations).getLast? ≠ some '\r' := by
      rw [getLast?_intercalate fun name hname => (h.names name hname).1]
      intro hlast
      obtain ⟨name, hname, hlast⟩ := Option.bind_eq_some_iff.1 hlast
      exact h.names_end name hname hlast
    rw [append_assoc, singleton_append, lines_field (by simp) hline hcr, hend]
    rfl

section ReadLine

variable (fields : Fields) (value : List Char)

theorem readLine_generation : fields.readLine (generationKey ++ value) =
    { fields with generation := parseU64 value } := by
  rw [Fields.readLine, stripHead_append]

theorem readLine_generationEnd : fields.readLine (generationEndKey ++ value) =
    { fields with generationEnd := parseU64 value } := by
  rw [Fields.readLine, stripHead_append_eq_none (by decide +kernel) (by decide +kernel),
    stripHead_append]

theorem readLine_pid : fields.readLine (pidKey ++ value) = { fields with pid := some value } := by
  rw [Fields.readLine, stripHead_append_eq_none (by decide +kernel) (by decide +kernel),
    stripHead_append_eq_none (by decide +kernel) (by decide +kernel), stripHead_append]

theorem readLine_invalidations : fields.readLine (invalidationsKey ++ value) =
    { fields with
      invalidations := (value.splitOn ',').filter fun entry => !entry.isEmpty } := by
  rw [Fields.readLine, stripHead_append_eq_none (by decide +kernel) (by decide +kernel),
    stripHead_append_eq_none (by decide +kernel) (by decide +kernel),
    stripHead_append_eq_none (by decide +kernel) (by decide +kernel), stripHead_append]

end ReadLine

theorem foldl_invalidationLines (h : ∀ name ∈ names, name ≠ [] ∧ ',' ∉ name) {fields : Fields}
    (hempty : fields.invalidations = []) : (invalidationLines names).foldl Fields.readLine fields =
      { fields with invalidations := names } := by
  unfold invalidationLines
  split
  · next hnil =>
    rw [isEmpty_iff.mp hnil, foldl_nil, ← hempty]
  · next hne =>
    rw [foldl_cons, foldl_nil, readLine_invalidations,
      filter_splitOn_intercalate (by simpa using hne) h]

theorem parse_render_of_readable (h : s.Readable) : parseNscdSnapshot (render s) = some s := by
  have hzero : s.generation ≠ 0 := Nat.ne_of_gt h.generation_pos
  have hnames : ∀ name ∈ s.invalidations, name ≠ [] ∧ ',' ∉ name := fun name hname =>
    ⟨(h.names name hname).1, (h.names name hname).2.1⟩
  simp only [parseNscdSnapshot, lines_render h, foldl_cons, foldl_append,
    readLine_generation, readLine_pid, readLine_generationEnd, foldl_invalidationLines hnames,
    parseU64_toDigits h.generation_lt]
  simp [hzero]

/-- **A clean snapshot is read back as it was written.** -/
theorem parse_render (h : s.Clean) : parseNscdSnapshot (render s) = some s :=
  parse_render_of_readable h.readable

/-! ## Only such snapshots are read back -/

/-- What the parser can put into its fields: lines, and pieces between commas. -/
structure Fields.Plain (fields : Fields) : Prop where
  pid : ∀ pid ∈ fields.pid, '\n' ∉ pid
  names : ∀ name ∈ fields.invalidations, name ≠ [] ∧ ',' ∉ name ∧ '\n' ∉ name

theorem not_mem_of_stripHead {line value : List Char} (h : stripHead key line = some value)
    (hc : c ∉ line) : c ∉ value := by
  unfold stripHead at h
  split at h
  · cases h
    exact fun hmem => hc (mem_of_mem_drop hmem)
  · cases h

theorem Fields.Plain.readLine {fields : Fields} {line : List Char} (h : fields.Plain)
    (hline : '\n' ∉ line) : (fields.readLine line).Plain := by
  unfold Fields.readLine
  split
  · exact ⟨h.pid, h.names⟩
  · split
    · exact ⟨h.pid, h.names⟩
    · split
      · next value hvalue =>
        refine ⟨?_, h.names⟩
        rintro pid ⟨⟩
        exact not_mem_of_stripHead hvalue hline
      · split
        · next value hvalue =>
          refine ⟨h.pid, fun name hname => ?_⟩
          obtain ⟨hmem, hne⟩ := mem_filter.mp hname
          obtain ⟨hcomma, hsub⟩ := forall_mem_splitOn ',' value name hmem
          refine ⟨by simpa using hne, hcomma, ?_⟩
          exact fun hnewline => not_mem_of_stripHead hvalue hline (hsub hnewline)
        · exact h

theorem Fields.Plain.foldl {fields : Fields} {text : List (List Char)} (h : fields.Plain)
    (htext : ∀ line ∈ text, '\n' ∉ line) : (text.foldl Fields.readLine fields).Plain := by
  induction text generalizing fields with
  | nil => exact h
  | cons line text ih =>
    exact ih (h.readLine (htext line (mem_cons_self ..))) fun l hl => htext l (mem_cons_of_mem _ hl)

theorem parseNscdSnapshot_eq_some {contents : List Char}
    (h : parseNscdSnapshot contents = some s) :
    ((lines contents).foldl Fields.readLine {}).pid = some s.pid ∧
      ((lines contents).foldl Fields.readLine {}).invalidations = s.invalidations := by
  simp only [parseNscdSnapshot, Option.bind_eq_some_iff] at h
  obtain ⟨generation, -, h⟩ := h
  split at h
  · cases h
  · obtain ⟨pid, hpid, rfl⟩ := Option.map_eq_some_iff.mp h
    exact ⟨hpid, rfl⟩

theorem stripCr_append {value : List Char}
    (hkey : key ∈ [generationKey, pidKey, invalidationsKey, generationEndKey]) :
    stripCr (key ++ value) = key ++ stripCr value := by
  obtain ⟨-, hkeyEnd⟩ := not_mem_key key hkey
  rcases eq_or_ne value [] with rfl | hne
  · simp [stripCr, hkeyEnd]
  · simp only [stripCr, getLast?_append_of_ne_nil _ hne, dropLast_append_of_ne_nil hne]
    split <;> rfl

/-- The fields that are read back, when no line end stands in the pid or in a name. -/
theorem foldl_lines_render (hpid : '\n' ∉ s.pid) (hnames : ∀ name ∈ s.invalidations, '\n' ∉ name) :
    ((lines (render s)).foldl Fields.readLine {}).pid = some (stripCr s.pid) ∧
      (s.invalidations ≠ [] →
        ((lines (render s)).foldl Fields.readLine {}).invalidations =
          ((stripCr ([','].intercalate s.invalidations)).splitOn ',').filter
            fun entry => !entry.isEmpty) := by
  have hfield : ∀ key ∈ [generationKey, pidKey, invalidationsKey, generationEndKey],
      ∀ value rest, '\n' ∉ value →
        lines (key ++ value ++ '\n' :: rest) = (key ++ stripCr value) :: lines rest := by
    intro key hkey value rest hvalue
    have hline : '\n' ∉ key ++ value := by
      rw [mem_append, not_or]
      exact ⟨(not_mem_key key hkey).1, hvalue⟩
    rw [lines_stripCr hline, stripCr_append hkey]
  have hend : lines (generationEndKey ++ Nat.toDigits 10 s.generation ++ ['\n']) =
      [generationEndKey ++ Nat.toDigits 10 s.generation] := by
    rw [lines_number (by simp), lines_nil]
  rw [render, lines_number (by simp), hfield pidKey (by simp) _ _ hpid]
  split
  · next hnil =>
    rw [nil_append, hend]
    simp only [foldl_cons, foldl_nil, readLine_generation, readLine_pid, readLine_generationEnd]
    exact ⟨trivial, fun hne => absurd (isEmpty_iff.mp hnil) hne⟩
  · have hline : '\n' ∉ [','].intercalate s.invalidations :=
      not_mem_intercalate (by decide) hnames
    rw [append_assoc, singleton_append, hfield invalidationsKey (by simp) _ _ hline, hend]
    simp only [foldl_cons, foldl_nil, readLine_generation, readLine_pid, readLine_invalidations,
      readLine_generationEnd]
    exact ⟨trivial, fun _ => trivial⟩

theorem count_intercalate (hc : c ≠ ',') (names : List (List Char)) :
    ([','].intercalate names).count c = names.flatten.count c := by
  induction names with
  | nil => rfl
  | cons name names ih =>
    cases names with
    | nil => simp [intercalate]
    | cons name' names =>
      rw [intercalate_cons_cons, count_append, count_append, ih, flatten_cons, count_append,
        count_singleton]
      simp [hc.symm]

theorem stripCr_eq_self {line : List Char} (h : (stripCr line).count '\r' = line.count '\r') :
    line.getLast? ≠ some '\r' := by
  intro hlast
  obtain ⟨init, rfl⟩ := getLast?_eq_some_iff.mp hlast
  simp [stripCr] at h

theorem readable_of_parse_render (hpos : 1 ≤ s.generation) (hlt : s.generation < 2 ^ 64)
    (h : parseNscdSnapshot (render s) = some s) : s.Readable := by
  obtain ⟨hpid, hnames⟩ := parseNscdSnapshot_eq_some h
  have hplain : ((lines (render s)).foldl Fields.readLine {}).Plain :=
    Fields.Plain.foldl ⟨fun _ hp => (by cases hp), fun _ hn => (by cases hn)⟩
      fun line hline => not_mem_of_mem_lines hline
  have hline := hplain.pid s.pid hpid
  have hclean := hplain.names
  rw [hnames] at hclean
  obtain ⟨hpid', hnames'⟩ := foldl_lines_render hline fun name hname => (hclean name hname).2.2
  refine ⟨hpos, hlt, hline, ?_, hclean, ?_⟩
  · rw [hpid, Option.some.injEq] at hpid'
    exact stripCr_eq_self (congrArg (count '\r') hpid'.symm)
  · intro name hname
    have hne : s.invalidations ≠ [] := by
      rintro hnil
      simp [hnil] at hname
    rw [hnames] at hnames'
    have hcount := congrArg (fun l => l.flatten.count '\r') (hnames' hne)
    simp only [flatten_filter_not_isEmpty, ← count_intercalate (c := '\r') (by decide),
      intercalate_splitOn] at hcount
    have hlast := stripCr_eq_self hcount.symm
    rw [getLast?_intercalate fun n hn => (hclean n hn).1, hname] at hlast
    exact hlast

/-- **The round trip of a snapshot**: what the separators of the text leave alone comes back, and
nothing else. -/
theorem parseNscdSnapshot_render_iff (generation : Nat) (pid : List Char)
    (names : List (List Char)) (hpos : 1 ≤ generation) (hlt : generation < 2 ^ 64) :
    parseNscdSnapshot (render ⟨generation, pid, names⟩) = some ⟨generation, pid, names⟩ ↔
      ('\n' ∉ pid ∧ pid.getLast? ≠ some '\r') ∧
        (∀ name ∈ names, name ≠ [] ∧ ',' ∉ name ∧ '\n' ∉ name) ∧
        ∀ name ∈ names.getLast?, name.getLast? ≠ some '\r' := by
  constructor
  · intro h
    have hreadable := readable_of_parse_render hpos hlt h
    exact ⟨⟨hreadable.pid_line, hreadable.pid_end⟩, hreadable.names, hreadable.names_end⟩
  · rintro ⟨hpid, hnames, hlast⟩
    exact parse_render_of_readable ⟨hpos, hlt, hpid.1, hpid.2, hnames, hlast⟩

/-- Two names, one of them with a blank and a carriage return inside. -/
theorem parseNscdSnapshot_render_group :
    parseNscdSnapshot (render ⟨1, ['7'], ["my\r group".toList, "hosts".toList]⟩) =
      some ⟨1, ['7'], ["my\r group".toList, "hosts".toList]⟩ :=
  (parseNscdSnapshot_render_iff 1 ['7'] ["my\r group".toList, "hosts".toList] (by decide)
    (by decide)).2 (by decide +kernel)

/-- A name with a comma comes back as two. -/
theorem parseNscdSnapshot_comma :
    parseNscdSnapshot (render ⟨1, ['7'], ["a,b".toList]⟩) = some ⟨1, ['7'], [['a'], ['b']]⟩ := by
  decide +kernel

end SafeLibc.Nscd
