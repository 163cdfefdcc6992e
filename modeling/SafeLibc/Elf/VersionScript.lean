import SafeLibc.Lib.Runs
import SafeLibc.Lib.Str
import Mathlib.Data.List.Sort
import Mathlib.Data.String.Basic

/-!
# Version scripts

`render_version_script` of `build.rs`, with `version_name_cmp` of `common.rs`, and `parse_map_file`
of `ingest_baseline.rs`. A `BTreeMap` is the list of its entries, and the digest is a parameter.

A symbol is read for a version where its line stands in a `global:` block and the version's line is
the last one of its kind before it (`records_iff_lists`). Only the last node has a `local:` block,
so that `};` is read inside a `global:` block everywhere else and `}` becomes a symbol
(`reads_nodesLines`). Which baselines are read back follows (`parseMapFile_render_iff`).
-/

namespace SafeLibc.Elf

open SafeLibc.Lib List

abbrev Versions := List (List Char × List (List Char))

structure AbiMapFile where
  kind : List Char
  versions : Versions

structure AbiBaseline where
  dsoId : List Char
  mapFiles : List AbiMapFile

/-- The components of a version, 0 for what is not a `u32`. -/
def versionParts (value : List Char) : List Nat :=
  (((stripHead "GLIBC_".toList value).getD value).splitOn '.').map fun part =>
    ((parseU64 part).filter (· < 2 ^ 32)).getD 0

def versionNameCmp (left right : List Char) : Ordering :=
  match left == "GLIBC_PRIVATE".toList, right == "GLIBC_PRIVATE".toList with
  | true, true => .eq
  | true, false => .gt
  | false, true => .lt
  | false, false => compare (versionParts left) (versionParts right)

def AbiBaseline.nodes (baseline : AbiBaseline) : Versions :=
  (baseline.mapFiles.filter fun file =>
    file.kind = "version_script".toList ∧ file.versions ≠ []).flatMap AbiMapFile.versions

def AbiBaseline.sortedNodes (baseline : AbiBaseline) : Versions :=
  baseline.nodes.insertionSort fun left right => versionNameCmp left.1 right.1 ≠ .gt

def ordered (symbols : List (List Char)) : List (List Char) := symbols.insertionSort (· ≤ ·)

def symbolLine (symbol : List Char) : List Char := "    ".toList ++ (symbol ++ [';'])

def nodeLines (isLast : Bool) (node : List Char × List (List Char)) : List (List Char) :=
  [node.1 ++ " \x7b".toList, "  global:".toList] ++ (ordered node.2).map symbolLine ++
    (if isLast then ["  local:".toList, "    *;".toList] else []) ++ ["\x7d;".toList, []]

def nodesLines : Versions → List (List Char)
  | [] => []
  | node :: nodes => nodeLines nodes.isEmpty node ++ nodesLines nodes

def headerLine (dsoId : List Char) : List Char :=
  "/* Generated from safe/generated/baseline/abi/".toList ++ dsoId ++ ".json */".toList

def scriptLines (baseline : AbiBaseline) : List (List Char) :=
  [headerLine baseline.dsoId, []] ++ nodesLines baseline.sortedNodes ++
    if baseline.sortedNodes = [] then
      ["/* No version definitions were present in the ABI baseline. */".toList]
    else []

def renderVersionScript (baseline : AbiBaseline) : List Char :=
  ['\n'].intercalate (scriptLines baseline)

/-- `entry(version).or_default().push(symbol)`. -/
def pushSymbol (version symbol : List Char) : Versions → Versions
  | [] => [(version, [symbol])]
  | (name, symbols) :: versions =>
    if name = version then (name, symbols ++ [symbol]) :: versions
    else (name, symbols) :: pushSymbol version symbol versions

structure MapState where
  versions : Versions
  currentVersion : Option (List Char)
  inGlobalBlock : Bool
  deriving DecidableEq

def MapState.readItem (s : MapState) (item : List Char) : MapState :=
  let symbol := trim item
  if symbol = [] ∨ symbol.head? = some '#' then s
  else
    match s.currentVersion with
    | none => s
    | some version => { s with versions := pushSymbol version symbol s.versions }

def MapState.readLine (s : MapState) (line : List Char) : MapState :=
  let trimmed := trim line
  if trimmed.getLast? = some '\x7b' then
    { s with
      currentVersion := some (trim (trimmed.rdropWhile (· = '\x7b')))
      inGlobalBlock := false }
  else if trimmed = "global:".toList then { s with inGlobalBlock := true }
  else if "local:".toList.isPrefixOf trimmed then { s with inGlobalBlock := false }
  else if s.inGlobalBlock then (trimmed.splitOn ';').foldl MapState.readItem s
  else s

inductive MapFile
  | linkMap (path : List Char) (lineCount : Nat) (sha256 : List Char)
  | versionScript (path : List Char) (versions : Versions) (sha256 : List Char)
  deriving DecidableEq

def parseMapFile (sha256 : List Char → List Char) (path contents : List Char) : MapFile :=
  if "Archive member included".toList.isPrefixOf contents then
    .linkMap path (lines contents).length (sha256 contents)
  else
    .versionScript path ((lines contents).foldl MapState.readLine ⟨[], none, false⟩).versions
      (sha256 contents)

/-! ## What a line does -/

/-- The version whose node a line opens. -/
def opens (line : List Char) : Option (List Char) :=
  if (trim line).getLast? = some '\x7b' then
    some (trim ((trim line).rdropWhile (· = '\x7b')))
  else none

/-- Whether a `global:` block is open after a line; `none` for a line that may hold symbols. -/
def marks (line : List Char) : Option Bool :=
  if (trim line).getLast? = some '\x7b' then some false
  else if trim line = "global:".toList then some true
  else if "local:".toList.isPrefixOf (trim line) then some false
  else none

/-- The symbols of a line. -/
def items (line : List Char) : List (List Char) :=
  (((trim line).splitOn ';').map trim).filter fun symbol => symbol ≠ [] ∧ symbol.head? ≠ some '#'

def pushAll (version : List Char) (symbols : List (List Char)) (versions : Versions) : Versions :=
  symbols.foldl (fun versions symbol => pushSymbol version symbol versions) versions

theorem foldl_readItem (pieces : List (List Char)) (s : MapState) :
    pieces.foldl MapState.readItem s = { s with
      versions := s.currentVersion.elim s.versions (fun version => pushAll version
        ((pieces.map trim).filter fun symbol => symbol ≠ [] ∧ symbol.head? ≠ some '#')
        s.versions) } := by
  obtain ⟨versions, current, inGlobalBlock⟩ := s
  induction pieces generalizing versions with
  | nil => cases current <;> rfl
  | cons piece pieces ih =>
    rw [foldl_cons, map_cons, MapState.readItem]
    dsimp only
    split
    · next hnone =>
      rw [ih, filter_cons_of_neg (by simpa [imp_iff_not_or] using hnone)]
    · next hsome =>
      rw [not_or] at hsome
      cases current with
      | none => rw [ih]; rfl
      | some version =>
        rw [ih, filter_cons_of_pos (by simpa using hsome)]
        rfl

/-- **What a line does** to the state. -/
theorem readLine_eq (s : MapState) (line : List Char) : s.readLine line =
    { versions := if marks line = none ∧ s.inGlobalBlock then
        s.currentVersion.elim s.versions fun version => pushAll version (items line) s.versions
      else s.versions
      currentVersion := (opens line).or s.currentVersion
      inGlobalBlock := (marks line).getD s.inGlobalBlock } := by
  unfold MapState.readLine opens marks items
  dsimp only
  rw [foldl_readItem]
  obtain ⟨versions, current, inGlobalBlock⟩ := s
  split_ifs <;> simp_all

theorem readLine_nil (s : MapState) : s.readLine [] = s := by
  obtain ⟨versions, current, inGlobalBlock⟩ := s
  rw [readLine_eq, show items [] = [] by decide, show marks [] = none by decide,
    show opens [] = none by decide]
  cases current <;> simp [pushAll]

/-! ## Which symbols are read -/

/-- The symbol stands under the version. -/
def Records (versions : Versions) (version symbol : List Char) : Prop :=
  ∃ symbols, (version, symbols) ∈ versions ∧ symbol ∈ symbols

section Records

variable {version symbol : List Char}

theorem records_pushSymbol (version' symbol' : List Char) (versions : Versions) :
    Records (pushSymbol version' symbol' versions) version symbol ↔
      Records versions version symbol ∨ version = version' ∧ symbol = symbol' := by
  unfold Records
  induction versions with
  | nil => simp [pushSymbol]
  | cons node versions ih =>
    obtain ⟨name, symbols⟩ := node
    rw [pushSymbol]
    split
    · next hname =>
      subst hname
      simp only [mem_cons, Prod.mk.injEq, or_and_right, exists_or, and_assoc, exists_and_left,
        exists_eq_left, mem_append, not_mem_nil, or_false]
      rw [and_or_left, or_right_comm]
    · simp only [mem_cons, or_and_right, exists_or, ih, or_assoc]

theorem records_pushAll (version' : List Char) (symbols : List (List Char)) (versions : Versions) :
    Records (pushAll version' symbols versions) version symbol ↔
      Records versions version symbol ∨ version = version' ∧ symbol ∈ symbols := by
  unfold pushAll
  induction symbols generalizing versions with
  | nil => simp
  | cons symbol' symbols ih =>
    rw [foldl_cons, ih, records_pushSymbol, mem_cons]
    tauto

theorem records_readLine (s : MapState) (line : List Char) :
    Records (s.readLine line).versions version symbol ↔ Records s.versions version symbol ∨
      marks line = none ∧ s.inGlobalBlock = true ∧ s.currentVersion = some version ∧
        symbol ∈ items line := by
  rw [readLine_eq]
  dsimp only
  split
  · next h =>
    cases hversion : s.currentVersion with
    | none => simp
    | some version' =>
      rw [Option.elim_some, records_pushAll]
      simp [h, eq_comm]
  · next h => tauto

/-- The symbol stands in a `global:` block of the version: the last line before it that opens a node
opens the version's, and the last one that opens or ends a block opens one. -/
def Lists (script : List (List Char)) (version symbol : List Char) : Prop :=
  ∃ front line rest, script = front ++ line :: rest ∧ marks line = none ∧
    LastIn (fun line block => marks line = some block) front true ∧
    LastIn (fun line version => opens line = some version) front version ∧ symbol ∈ items line

/-- **What is read** of any lines. -/
theorem records_iff_lists (script : List (List Char)) :
    Records (script.foldl MapState.readLine ⟨[], none, false⟩).versions version symbol ↔
      Lists script version symbol := by
  have hversion : ∀ front : List (List Char),
      (front.foldl MapState.readLine ⟨[], none, false⟩).currentVersion = some version ↔
        LastIn (fun line version => opens line = some version) front version := by
    intro front
    rw [← findSome?_reverse_eq_some_iff (fun _ _ => Iff.rfl),
      read_foldl MapState.currentVersion (fun s line => by rw [readLine_eq]), Option.or_none]
  have hblock : ∀ front : List (List Char),
      (front.foldl MapState.readLine ⟨[], none, false⟩).inGlobalBlock = true ↔
        LastIn (fun line block => marks line = some block) front true := by
    intro front
    have hstep : ∀ (s : MapState) (line : List Char),
        some (s.readLine line).inGlobalBlock = (marks line).or (some s.inGlobalBlock) := by
      intro s line
      rw [readLine_eq]
      cases marks line <;> rfl
    have hread :=
      read_foldl (fun s : MapState => some s.inGlobalBlock) hstep front ⟨[], none, false⟩
    rw [← findSome?_reverse_eq_some_iff (fun _ _ => Iff.rfl), ← Option.some_inj, hread]
    cases front.reverse.findSome? marks <;> simp
  induction script using List.reverseRecOn with
  | nil => simp [Records, Lists]
  | append_singleton script line ih =>
    rw [foldl_append, foldl_cons, foldl_nil, records_readLine, hversion, hblock]
    refine (or_congr_left ih).trans ?_
    constructor
    · rintro (⟨front, line', rest, rfl, h⟩ | h)
      · exact ⟨front, line', rest ++ [line], by simp, h⟩
      · exact ⟨script, line, [], rfl, h⟩
    · rintro ⟨front, line', rest, hscript, h⟩
      rcases rest.eq_nil_or_concat with rfl | ⟨rest, last, rfl⟩
      · obtain ⟨rfl, hline⟩ := append_inj' hscript rfl
        obtain rfl := (cons.inj hline).1
        exact .inr h
      · rw [concat_eq_append, ← cons_append, ← append_assoc] at hscript
        exact .inl ⟨front, line', rest, (append_inj' hscript rfl).1, h⟩

theorem Lists.isTrimmed {script : List (List Char)} (h : Lists script version symbol)
    (hscript : ∀ line ∈ script, '\n' ∉ line) :
    (trim version = version ∧ '\n' ∉ version) ∧ symbol ≠ [] ∧ symbol.head? ≠ some '#' := by
  obtain ⟨front, line, rest, rfl, -, -, ⟨before, opening, after, rfl, hopens, -⟩, hsymbol⟩ := h
  refine ⟨?_, by simpa using (mem_filter.1 hsymbol).2⟩
  unfold opens at hopens
  split at hopens
  · rw [← Option.some.inj hopens]
    refine ⟨trim_trim _, fun hmem => hscript opening (by simp) ?_⟩
    have hsubset := IsPrefix.subset <| rdropWhile_prefix (· = '\x7b') (trim opening)
    exact mem_of_mem_trim (hsubset (mem_of_mem_trim hmem))
  · cases hopens

end Records

/-- No version is without symbols. -/
theorem ne_nil_of_mem_foldl (script : List (List Char)) :
    ∀ node ∈ (script.foldl MapState.readLine ⟨[], none, false⟩).versions, node.2 ≠ [] := by
  have hpush : ∀ (version symbol : List Char) (versions : Versions),
      (∀ node ∈ versions, node.2 ≠ []) →
        ∀ node ∈ pushSymbol version symbol versions, node.2 ≠ [] := by
    intro version symbol versions h
    induction versions with
    | nil => simp [pushSymbol]
    | cons node versions ih =>
      obtain ⟨hnode, hversions⟩ := forall_mem_cons.1 h
      rw [pushSymbol]
      split
      · exact forall_mem_cons.2 ⟨by simp, hversions⟩
      · exact forall_mem_cons.2 ⟨hnode, ih hversions⟩
  have hpushAll : ∀ (version : List Char) (symbols : List (List Char)) (versions : Versions),
      (∀ node ∈ versions, node.2 ≠ []) →
        ∀ node ∈ pushAll version symbols versions, node.2 ≠ [] := by
    intro version symbols
    induction symbols with
    | nil => exact fun _ h => h
    | cons symbol symbols ih => exact fun versions h => ih _ (hpush version symbol versions h)
  induction script using List.reverseRecOn with
  | nil => simp
  | append_singleton script line ih =>
    rw [foldl_append, foldl_cons, foldl_nil, readLine_eq]
    dsimp only
    split
    · cases (script.foldl MapState.readLine ⟨[], none, false⟩).currentVersion with
      | none => exact ih
      | some version => exact hpushAll version _ _ ih
    · exact ih

/-! ## The lines of a script -/

/-- A symbol that is read from a line of its own. -/
def IsSymbol (symbol : List Char) : Prop :=
  (symbol ≠ [] ∧ symbol.head? ≠ some '#') ∧
    ∀ c ∈ symbol, isWhitespace c = false ∧ c ≠ ';' ∧ c ≠ '\x7b' ∧ c ≠ ':'

structure IsNode (node : List Char × List (List Char)) : Prop where
  version : trim node.1 = node.1 ∧ '\n' ∉ node.1
  symbol : ∀ symbol ∈ node.2, IsSymbol symbol

variable {pad symbol version : List Char} {baseline : AbiBaseline}

theorem IsSymbol.trimmed (h : IsSymbol symbol) : Trimmed symbol := by
  obtain ⟨⟨hne, -⟩, hall⟩ := h
  refine ⟨hne, ?_, ?_⟩
  · rw [head?_eq_some_head hne]
    simpa using (hall _ (head_mem hne)).1
  · rw [getLast?_eq_some_getLast hne]
    simpa using (hall _ (getLast_mem hne)).1

theorem readLine_node (h : trim version = version) (s : MapState) :
    s.readLine (version ++ " \x7b".toList) =
      { s with currentVersion := some version, inGlobalBlock := false } := by
  have hline : marks (version ++ " \x7b".toList) = some false ∧
      opens (version ++ " \x7b".toList) = some version := by
    by_cases hne : version = []
    · subst hne
      decide
    · have hversion : Trimmed version := h ▸ trimmed_trim (h.symm ▸ hne)
      have hline : Trimmed (version ++ " \x7b".toList) := by
        refine ⟨by simp, ?_, by simp [isWhitespace]⟩
        rw [head?_append_of_ne_nil _ hne]
        exact hversion.2.1
      have hname := @trim_padded [] version [' '] (by simp) (by simp [isWhitespace]) hversion
      have hdrop : (version ++ " \x7b".toList).rdropWhile (· = '\x7b') = version ++ [' '] := by
        rw [show version ++ " \x7b".toList = version ++ [' '] ++ ['\x7b'] by simp,
          rdropWhile_concat_pos _ _ _ (by simp), rdropWhile_concat_neg _ _ _ (by simp)]
      rw [nil_append] at hname
      rw [marks, opens, hline.trim_eq, hdrop, hname]
      simp
  rw [readLine_eq, hline.1, hline.2]
  simp

theorem readLine_symbol (h : IsSymbol symbol) (hpad : ∀ c ∈ pad, isWhitespace c = true)
    (versions : Versions) (version : List Char) :
    MapState.readLine ⟨versions, some version, true⟩ (pad ++ (symbol ++ [';'])) =
      ⟨pushSymbol version symbol versions, some version, true⟩ := by
  have hline : Trimmed (symbol ++ [';']) := by
    refine ⟨by simp, ?_, by simp [isWhitespace]⟩
    rw [head?_append_of_ne_nil _ h.1.1]
    exact h.trimmed.2.1
  have htrim := @trim_padded pad _ [] hpad (by simp) hline
  rw [append_nil] at htrim
  have hlocal : ¬ "local:".toList.isPrefixOf (symbol ++ [';']) = true := by
    intro hstart
    have hstart := isPrefixOf_iff_prefix.1 hstart
    have hmem := hstart.subset (by decide : ':' ∈ "local:".toList)
    rw [mem_append, mem_singleton] at hmem
    exact (h.2 ':' (hmem.resolve_right (by decide))).2.2.2 rfl
  have hglobal : symbol ++ [';'] ≠ "global:".toList := by
    intro heq
    have hlast := congrArg getLast? heq
    rw [getLast?_concat] at hlast
    exact absurd hlast (by decide)
  have hsplit : (symbol ++ [';']).splitOn ';' = [symbol, []] := by
    rw [splitOn_append_cons_self_of_not_mem fun hmem => (h.2 _ hmem).2.1 rfl, splitOn_nil]
  have hmarks : marks (pad ++ (symbol ++ [';'])) = none := by
    rw [marks, htrim, if_neg (by simp), if_neg hglobal, if_neg hlocal]
  have hopens : opens (pad ++ (symbol ++ [';'])) = none := by
    rw [opens, htrim, if_neg (by simp)]
  have hitems : items (pad ++ (symbol ++ [';'])) = [symbol] := by
    rw [items, htrim, hsplit, map_cons, h.trimmed.trim_eq, filter_cons_of_pos (by simpa using h.1)]
    rfl
  rw [readLine_eq, hmarks, hopens, hitems]
  rfl

/-- A line that `lines` gives back. -/
abbrev Printable (line : List Char) : Prop := '\n' ∉ line ∧ line.getLast? ≠ some '\r'

/-- Printed lines are read from `s` to `s'`. -/
structure Reads (printed : List (List Char)) (s s' : MapState) : Prop where
  printable : ∀ line ∈ printed, Printable line
  run : printed.foldl MapState.readLine s = s'

namespace Reads

variable {printed printed' : List (List Char)} {s s' s'' : MapState}

theorem cons {line : List Char} (hline : Printable line) (h : Reads printed (s.readLine line) s') :
    Reads (line :: printed) s s' :=
  ⟨forall_mem_cons.2 ⟨hline, h.printable⟩, h.run⟩

theorem append (h : Reads printed s s') (h' : Reads printed' s' s'') :
    Reads (printed ++ printed') s s'' :=
  ⟨forall_mem_append.2 ⟨h.printable, h'.printable⟩, by rw [foldl_append, h.run, h'.run]⟩

theorem lines (h : Reads printed s s') :
    (lines (['\n'].intercalate printed)).foldl MapState.readLine s = s' := by
  obtain ⟨hprintable, rfl⟩ := h
  induction printed generalizing s with
  | nil => rfl
  | cons line printed ih =>
    obtain ⟨⟨hline, hcr⟩, hprinted⟩ := forall_mem_cons.1 hprintable
    cases printed with
    | nil =>
      rw [intercalate_singleton, Lib.lines, splitOn_eq_singleton hline]
      by_cases hne : line = []
      · subst hne
        exact (readLine_nil s).symm
      · simp [hne]
    | cons next printed =>
      rw [intercalate_cons_cons, append_assoc, singleton_append, lines_cons hline hcr]
      exact ih hprinted

end Reads

theorem reads_symbolLines {printed : List (List Char)} (h : ∀ symbol ∈ printed, IsSymbol symbol)
    (version : List Char) (versions : Versions) :
    Reads (printed.map symbolLine) ⟨versions, some version, true⟩
      ⟨pushAll version printed versions, some version, true⟩ := by
  induction printed generalizing versions with
  | nil => exact ⟨nofun, rfl⟩
  | cons symbol printed ih =>
    obtain ⟨hsymbol, hprinted⟩ := forall_mem_cons.1 h
    apply Reads.cons
    · refine ⟨?_, by rw [symbolLine, ← append_assoc, getLast?_concat]; decide⟩
      intro hmem
      have hin : '\n' ∈ symbol := by simpa [symbolLine] using hmem
      exact absurd (hsymbol.2 _ hin).1 (by decide)
    · rw [symbolLine, readLine_symbol hsymbol (all_eq_true.1 (by decide))]
      exact ih hprinted _

/-- The symbols that are read for a node: `};` is a line of them inside a `global:` block. -/
def found (isLast : Bool) (symbols : List (List Char)) : List (List Char) :=
  ordered symbols ++ if isLast then [] else ["\x7d".toList]

theorem reads_nodeLines {symbols : List (List Char)} (h : IsNode (version, symbols)) (isLast : Bool)
    (s : MapState) :
    Reads (nodeLines isLast (version, symbols)) s
      ⟨pushAll version (found isLast symbols) s.versions, some version, !isLast⟩ := by
  have hhead : Reads [version ++ " \x7b".toList, "  global:".toList] s
      ⟨s.versions, some version, true⟩ := by
    apply Reads.cons
    · exact ⟨by simp [h.version.2], by simp⟩
    · rw [readLine_node h.version.1]
      exact ⟨by decide, rfl⟩
  have hordered : ∀ symbol ∈ ordered symbols, IsSymbol symbol := fun symbol hmem =>
    h.symbol symbol ((mem_insertionSort _).1 hmem)
  rw [nodeLines, append_assoc]
  refine (hhead.append (reads_symbolLines hordered version s.versions)).append ?_
  cases isLast with
  | true =>
    rw [show found true symbols = ordered symbols from append_nil _]
    exact ⟨by decide, rfl⟩
  | false =>
    have hbrace : IsSymbol "\x7d".toList := ⟨by decide, forall_mem_singleton.2 (by decide)⟩
    refine ⟨by decide, ?_⟩
    change MapState.readLine (MapState.readLine
      ⟨pushAll version (ordered symbols) s.versions, some version, true⟩
      ([] ++ ("\x7d".toList ++ [';']))) [] = _
    rw [readLine_nil, readLine_symbol hbrace (by simp), found, pushAll, pushAll, foldl_append]
    rfl

theorem records_cons (node : List Char × List (List Char)) (nodes : Versions) :
    Records (node :: nodes) version symbol ↔
      version = node.1 ∧ symbol ∈ node.2 ∨ Records nodes version symbol := by
  obtain ⟨name, symbols⟩ := node
  simp only [Records, mem_cons, Prod.mk.injEq, or_and_right, exists_or, and_assoc, exists_and_left,
    exists_eq_left]

/-- **What is read of the nodes**, from any state. -/
theorem reads_nodesLines {nodes : Versions} (h : ∀ node ∈ nodes, IsNode node) (s : MapState) :
    ∃ s', Reads (nodesLines nodes) s s' ∧ ∀ version symbol, Records s'.versions version symbol ↔
      Records s.versions version symbol ∨ Records nodes version symbol ∨
        version ∈ nodes.dropLast.map Prod.fst ∧ symbol = "\x7d".toList := by
  induction nodes generalizing s with
  | nil => exact ⟨s, ⟨nofun, rfl⟩, by simp [Records]⟩
  | cons node nodes ih =>
    obtain ⟨hnode, hnodes⟩ := forall_mem_cons.1 h
    obtain ⟨s', hreads, hrecords⟩ := ih hnodes
      ⟨pushAll node.1 (found nodes.isEmpty node.2) s.versions, some node.1, !nodes.isEmpty⟩
    refine ⟨s', (reads_nodeLines hnode nodes.isEmpty s).append hreads, ?_⟩
    intro version symbol
    rw [hrecords, records_pushAll, records_cons, found, mem_append, ordered, mem_insertionSort]
    cases nodes with
    | nil => simp [Records]
    | cons next nodes =>
      simp only [isEmpty_cons, Bool.false_eq_true, if_false, dropLast_cons_cons, map_cons, mem_cons]
      tauto

/-! ## The round trip -/

/-- The lines before the nodes: a line feed in the DSO id makes lines of their own of its text. -/
def AbiBaseline.prologue (baseline : AbiBaseline) : List (List Char) :=
  ((headerLine baseline.dsoId).splitOn '\n').map stripCr ++
    if baseline.nodes = [] then
      ["/* No version definitions were present in the ABI baseline. */".toList]
    else []

theorem sortedNodes_eq_nil : baseline.sortedNodes = [] ↔ baseline.nodes = [] := by
  rw [← length_eq_zero_iff, ← length_eq_zero_iff, AbiBaseline.sortedNodes, length_insertionSort]

theorem records_sortedNodes :
    Records baseline.sortedNodes version symbol ↔ Records baseline.nodes version symbol := by
  simp only [Records, AbiBaseline.sortedNodes, mem_insertionSort]

/-- The versions that are read back. -/
def readBack (baseline : AbiBaseline) : Versions :=
  ((lines (renderVersionScript baseline)).foldl MapState.readLine ⟨[], none, false⟩).versions

theorem parseMapFile_render (sha256 : List Char → List Char) (path : List Char) :
    parseMapFile sha256 path (renderVersionScript baseline) =
      .versionScript path (readBack baseline) (sha256 (renderVersionScript baseline)) :=
  if_neg Bool.false_ne_true

theorem records_readBack (h : ∀ node ∈ baseline.nodes, IsNode node) :
    Records (readBack baseline) version symbol ↔ Lists baseline.prologue version symbol ∨
      Records baseline.nodes version symbol ∨
        version ∈ baseline.sortedNodes.dropLast.map Prod.fst ∧ symbol = "\x7d".toList := by
  have hnodes : ∀ node ∈ baseline.sortedNodes, IsNode node := fun node hmem =>
    h node ((mem_insertionSort _).1 hmem)
  rw [readBack, renderVersionScript, scriptLines, cons_append, cons_append, cons_append, nil_append,
    cons_append,
    intercalate_cons_cons, append_assoc, singleton_append, lines_append, foldl_append,
    ← records_iff_lists, AbiBaseline.prologue, foldl_append]
  generalize (map stripCr _).foldl MapState.readLine ⟨[], none, false⟩ = s
  by_cases hnone : baseline.nodes = []
  · have hcomment :
        Reads [[], "/* No version definitions were present in the ABI baseline. */".toList]
        s (s.readLine "/* No version definitions were present in the ABI baseline. */".toList) :=
      ⟨by decide +kernel, by rw [foldl_cons, readLine_nil]; rfl⟩
    rw [sortedNodes_eq_nil.2 hnone, if_pos rfl, if_pos hnone, nodesLines, nil_append,
      hcomment.lines, hnone]
    simp [Records]
  · obtain ⟨s', hreads, hrecords⟩ := reads_nodesLines hnodes s
    have hscript : Reads ([] :: nodesLines baseline.sortedNodes) s s' :=
      Reads.cons (by decide) ((readLine_nil s).symm ▸ hreads)
    rw [if_neg (fun hnil => hnone (sortedNodes_eq_nil.1 hnil)), if_neg hnone, append_nil,
      hscript.lines, hrecords, records_sortedNodes]
    rfl

/-- The two maps have the same versions, each with the same set of symbols. -/
def SameMap (versions nodes : Versions) : Prop :=
  (∀ version, version ∈ versions.map Prod.fst ↔ version ∈ nodes.map Prod.fst) ∧
    ∀ version symbol, Records versions version symbol ↔ Records nodes version symbol

/-- The version is its own trim and of one line, and each of its symbols stands for itself. -/
def Readable (node : List Char × List (List Char)) : Prop :=
  (trim node.1 = node.1 ∧ '\n' ∉ node.1) ∧ node.2 ≠ [] ∧
    ∀ symbol ∈ node.2, symbol ≠ [] ∧ symbol.head? ≠ some '#'

theorem mem_of_records {nodes : Versions} (honce : (nodes.map Prod.fst).Nodup)
    {symbols : List (List Char)} (hnode : (version, symbols) ∈ nodes)
    (h : Records nodes version symbol) : symbol ∈ symbols := by
  obtain ⟨symbols', hnode', hsymbol⟩ := h
  have hsame := inj_on_of_nodup_map honce hnode' hnode rfl
  rwa [← (Prod.mk.inj hsame).2]

theorem exists_records_iff {nodes : Versions} (h : ∀ node ∈ nodes, node.2 ≠ []) :
    (∃ symbol, Records nodes version symbol) ↔ version ∈ nodes.map Prod.fst := by
  constructor
  · rintro ⟨symbol, symbols, hnode, -⟩
    exact mem_map_of_mem hnode
  · intro hmem
    obtain ⟨⟨name, symbols⟩, hnode, rfl⟩ := mem_map.1 hmem
    obtain ⟨symbol, hsymbol⟩ := exists_mem_of_ne_nil _ (h _ hnode)
    exact ⟨symbol, symbols, hnode, hsymbol⟩

theorem readable_of_sameMap (honce : (baseline.nodes.map Prod.fst).Nodup)
    (hsame : SameMap (readBack baseline) baseline.nodes) :
    ∀ node ∈ baseline.nodes, Readable node := by
  rintro ⟨version, symbols⟩ hnode
  have hlists : ∀ {symbol}, Records baseline.nodes version symbol →
      (trim version = version ∧ '\n' ∉ version) ∧ symbol ≠ [] ∧ symbol.head? ≠ some '#' := by
    intro symbol hrecords
    have hlists := (records_iff_lists _).1 ((hsame.2 version symbol).2 hrecords)
    exact hlists.isTrimmed fun line hline => not_mem_of_mem_lines hline
  have hkey := (hsame.1 version).2 (mem_map_of_mem hnode)
  obtain ⟨symbol, hsymbol⟩ := (exists_records_iff (ne_nil_of_mem_foldl _)).2 hkey
  have hsymbol := (hsame.2 version symbol).1 hsymbol
  have hmem := mem_of_records honce hnode hsymbol
  exact ⟨(hlists hsymbol).1, ne_nil_of_mem hmem, fun symbol h => (hlists ⟨symbols, hnode, h⟩).2⟩

/-- **The round trip of a version script**, for versions that are there once and symbols without
white space, `;`, the opening brace and `:`: the map comes back where every version and symbol is
readable, every version but the last has the symbol `}`, and the text of the DSO id lists nothing
that is not in the map. -/
theorem parseMapFile_render_iff (honce : (baseline.nodes.map Prod.fst).Nodup)
    (hsymbols : ∀ node ∈ baseline.nodes, ∀ symbol ∈ node.2, ∀ c ∈ symbol,
      isWhitespace c = false ∧ c ≠ ';' ∧ c ≠ '\x7b' ∧ c ≠ ':')
    (sha256 : List Char → List Char) (path : List Char) :
    (∃ versions, parseMapFile sha256 path (renderVersionScript baseline) =
        .versionScript path versions (sha256 (renderVersionScript baseline)) ∧
      SameMap versions baseline.nodes) ↔
    (∀ node ∈ baseline.nodes, Readable node) ∧
      (∀ node ∈ baseline.sortedNodes.dropLast, "\x7d".toList ∈ node.2) ∧
      ∀ version symbol, Lists baseline.prologue version symbol →
        Records baseline.nodes version symbol := by
  have hnodes : (∀ node ∈ baseline.nodes, Readable node) → ∀ node ∈ baseline.nodes, IsNode node :=
    fun h node hnode => ⟨(h node hnode).1, fun symbol hmem =>
      ⟨(h node hnode).2.2 symbol hmem, hsymbols node hnode symbol hmem⟩⟩
  have hsorted : ∀ node ∈ baseline.sortedNodes.dropLast, node ∈ baseline.nodes := fun node hmem =>
    (mem_insertionSort _).1 (dropLast_subset _ hmem)
  rw [parseMapFile_render]
  constructor
  · rintro ⟨versions, hversions, hsame⟩
    cases hversions
    have hreadable := readable_of_sameMap honce hsame
    refine ⟨hreadable, ?_, ?_⟩
    · intro node hnode
      refine mem_of_records honce (hsorted node hnode) ((hsame.2 _ _).1 ?_)
      exact (records_readBack (hnodes hreadable)).2 (.inr (.inr ⟨mem_map_of_mem hnode, rfl⟩))
    · intro version symbol hlists
      exact (hsame.2 _ _).1 ((records_readBack (hnodes hreadable)).2 (.inl hlists))
  · rintro ⟨hreadable, hbrace, hlists⟩
    have hrecords : ∀ version symbol,
        Records (readBack baseline) version symbol ↔ Records baseline.nodes version symbol := by
      intro version symbol
      rw [records_readBack (hnodes hreadable)]
      constructor
      · rintro (h | h | ⟨hversion, rfl⟩)
        · exact hlists version symbol h
        · exact h
        · obtain ⟨node, hnode, rfl⟩ := mem_map.1 hversion
          exact ⟨node.2, hsorted node hnode, hbrace node hnode⟩
      · exact fun h => .inr (.inl h)
    refine ⟨_, rfl, ?_, hrecords⟩
    intro version
    have hread : ∀ node ∈ readBack baseline, node.2 ≠ [] := ne_nil_of_mem_foldl _
    rw [← exists_records_iff hread,
      ← exists_records_iff fun node hnode => (hreadable node hnode).2.1]
    exact exists_congr (hrecords version)

def sineBaseline : AbiBaseline :=
  ⟨"libm".toList, [⟨"version_script".toList, [("GLIBC_2.2".toList, ["sin".toList])]⟩]⟩

theorem parseMapFile_render_sine :
    ∃ versions, parseMapFile id [] (renderVersionScript sineBaseline) =
        .versionScript [] versions (renderVersionScript sineBaseline) ∧
      SameMap versions [("GLIBC_2.2".toList, ["sin".toList])] := by
  refine (parseMapFile_render_iff (by decide +kernel) ?_ id []).2 ⟨?_, by decide +kernel, ?_⟩
  · refine forall_mem_singleton.2 (forall_mem_singleton.2 fun c hc => ?_)
    have hplain : "sin".toList.all fun c =>
        decide (isWhitespace c = false ∧ c ≠ ';' ∧ c ≠ '\x7b' ∧ c ≠ ':') := by decide +kernel
    exact of_decide_eq_true (all_eq_true.1 hplain c hc)
  · exact forall_mem_singleton.2 ⟨by decide +kernel, by decide,
      forall_mem_singleton.2 (by decide +kernel)⟩
  · intro version symbol hlists
    have hread := (records_iff_lists _).2 hlists
    have hnone :
        (sineBaseline.prologue.foldl MapState.readLine ⟨[], none, false⟩).versions = [] := by
      decide +kernel
    rw [hnone] at hread
    simp [Records] at hread
/-- A symbol `}` is read for the first of two versions. -/
theorem parseMapFile_brace :
    let baseline : AbiBaseline := ⟨"libm".toList, [⟨"version_script".toList,
      [("GLIBC_2.2".toList, ["sin".toList]), ("GLIBC_2.3".toList, ["cos".toList])]⟩]⟩
    parseMapFile (fun _ => []) [] (renderVersionScript baseline) =
      .versionScript [] [("GLIBC_2.2".toList, ["sin".toList, "\x7d".toList]),
        ("GLIBC_2.3".toList, ["cos".toList])] [] := by
  decide +kernel

end SafeLibc.Elf
