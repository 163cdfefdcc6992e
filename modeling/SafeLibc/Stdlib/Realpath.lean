import SafeLibc.Lib.Bytes
import SafeLibc.Lib.FileTree
import SafeLibc.Lib.Paths
import SafeLibc.Lib.Str

/-!
# `realpath`

`realpath_stk` of `stdlib/canonicalize.c` over a file system that does not change. The name is
scanned in place; at a symbolic link, its target and the rest of the name are put together in the
extra buffer, where the scan goes on (`Text.splice`). The result grows in `rname`, from which `..`
and relative links take the last component.

The system calls answer from the file system: they follow links on their way as `Lib.resolve` does,
with a limit of their own.
-/

namespace SafeLibc.Stdlib.Realpath

open SafeLibc.Lib List

abbrev Str := List UInt8

def slash : UInt8 := byte '/'

def dot : Str := [byte '.']

def dotDot : Str := [byte '.', byte '.']

inductive Errno
  | enoent
  | enotdir
  | eloop
  | einval
  | eacces
  | enametoolong
  deriving DecidableEq, Repr

/-! ## The file system -/

inductive Node
  | dir
  | file
  | link (target : CString)

structure ValidName (c : Str) : Prop where
  ne_nil : c ≠ []
  no_slash : slash ∉ c
  ne_dot : c ≠ dot
  ne_dotDot : c ≠ dotDot

/-- A map from absolute paths to what is there, and the working directory. -/
structure FileSystem where
  node : List Str → Option Node
  root_dir : node [] = some .dir
  cwd : List Str
  cwd_dir : ∀ q, q <+: cwd → node q = some .dir
  cwd_names : ∀ c ∈ cwd, ValidName c

def parseStep (c : Str) : PathStep Str :=
  if c = dot then .here else if c = dotDot then .up else .name c

/-- The steps of a name. A slash at its end stands for a step that stays, at a directory. -/
def steps (s : Str) : List (PathStep Str) :=
  (components slash s).map parseStep ++ if s.getLast? = some slash then [.here] else []

def isAbsolute (s : Str) : Bool := s.head? = some slash

def Node.parsed : Node → FileNode Str
  | .dir => .dir
  | .file => .file
  | .link target => .link (isAbsolute target.1) (steps target.1)

def FileSystem.tree (fs : FileSystem) (p : List Str) : Option (FileNode Str) :=
  (fs.node p).map Node.parsed

def FileSystem.base (fs : FileSystem) (s : Str) : List Str := if isAbsolute s then [] else fs.cwd

def errnoOf : ResolveError → Errno
  | .missing => .enoent
  | .notDirectory => .enotdir
  | .tooManyLinks => .eloop

/-- **The resolution of a name**, component by component. -/
def FileSystem.resolveName (fs : FileSystem) (limit : Nat) (name : Str) :
    Except Errno (List Str) :=
  if name = [] then .error .enoent
  else (resolve fs.tree limit (fs.base name) (steps name) 0).mapError errnoOf

def pathString (p : List Str) : Str := if p = [] then [slash] else joined slash p

/-! ## System calls -/

/-- `faccessat (AT_FDCWD, file, F_OK, AT_EACCESS)` -/
def FileSystem.access (fs : FileSystem) (kernelLimit : Nat) (file : Str) : Except Errno Unit :=
  (fs.resolveName kernelLimit file).map fun _ => ()

/-- `readlink`: links are followed up to the last step. -/
def FileSystem.readlink (fs : FileSystem) (kernelLimit : Nat) (file : Str) :
    Except Errno CString :=
  if file = [] then .error .enoent
  else
    match (resolve fs.tree kernelLimit (fs.base file) (steps file).dropLast 0).mapError errnoOf with
    | .error e => .error e
    | .ok q =>
      match fs.node q, (steps file).getLast? with
      | some .dir, some (.name c) =>
        match fs.node (q ++ [c]) with
        | none => .error .enoent
        | some (.link target) => .ok target
        | some _ => .error .einval
      | some .dir, _ => .error .einval
      | _, _ => .error .enotdir

/-! ## Scanning -/

/-- What is scanned: the name, or the extra buffer, from a position on. -/
structure Text where
  name : CString
  extra : Str
  inExtra : Bool
  pos : Nat

def Text.chars (t : Text) : Str :=
  if t.inExtra then (t.extra.drop t.pos).takeWhile (· ≠ 0) else t.name.1.drop t.pos

def Text.advance (t : Text) (n : Nat) : Text := { t with pos := t.pos + n }

/-- Put a link's target in front of the rest of the text, which may be in the extra buffer
itself. -/
def Text.splice (t : Text) (target : Str) : Text :=
  let rest := t.chars
  -- the buffer grows to have room for both and the NUL
  let grown := t.extra ++ List.replicate (rest.length + target.length + 1 - t.extra.length) 0
  let moved := grown.take target.length ++ (rest ++ [0]) ++
    grown.drop (target.length + rest.length + 1)
  { t with extra := target ++ moved.drop target.length, inExtra := true, pos := 0 }

def suffixRequiresDirCheck (e : Str) : Bool :=
  if e.head? = some slash then
    -- two or more slashes act like a single one
    let comp := e.dropWhile fun b => b = slash
    if comp = [] then true
    else if comp.head? ≠ some (byte '.') then false
    else if comp.tail = [] ∨ (comp.tail.head? = some (byte '.') ∧
        (comp.tail.tail = [] ∨ comp.tail.tail.head? = some slash)) then true
    else suffixRequiresDirCheck comp.tail
  else false
termination_by e.length
decreasing_by
  have hlen := (List.dropWhile_sublist (l := e) fun b => decide (b = slash)).length_le
  have hne : e ≠ [] := by
    rintro rfl
    contradiction
  have hpos := List.length_pos_iff.2 hne
  rw [List.length_tail]
  omega

/-- Back up to the previous component, ignore if at root already. -/
def backUp (rname : Str) : Str :=
  if rname.length > 1 then (rname.dropLast.reverse.dropWhile fun b => b ≠ slash).reverse else rname

inductive Turn
  | next (rname : Str) (text : Text) (numLinks : Nat)
  | done (rname : Str)
  | fail (errno : Errno) (rname : Str)

section Loop

variable (fs : FileSystem) (kernelLimit threshold : Nat)

def ordinary (rname comp : Str) (rest : Text) (numLinks : Nat) : Turn :=
  let rname := (if rname.getLast? = some slash then rname else rname ++ [slash]) ++ comp
  match fs.readlink kernelLimit rname with
  | .ok target =>
    if numLinks + 1 > threshold then .fail .eloop rname
    else
      .next (if isAbsolute target.1 then [slash] else backUp rname) (rest.splice target.1)
        (numLinks + 1)
  | .error e =>
    if suffixRequiresDirCheck rest.chars then
      match fs.access kernelLimit (rname ++ [slash]) with
      | .ok _ => .next rname rest numLinks
      | .error e => .fail e rname
    else if e = .einval then .next rname rest numLinks
    else .fail e rname

def turn (rname : Str) (text : Text) (numLinks : Nat) : Turn :=
  let start := text.advance (text.chars.takeWhile fun b => b = slash).length
  let startlen := (start.chars.takeWhile fun b => b ≠ slash).length
  let comp := start.chars.take startlen
  let rest := start.advance startlen
  if startlen = 0 then .done rname
  else if comp = dot then .next rname rest numLinks
  else if comp = dotDot then .next (backUp rname) rest numLinks
  else ordinary fs kernelLimit threshold rname comp rest numLinks

end Loop

/-! ## Texts as strings -/

variable {α : Type*} (p : α → Bool) {n : Nat} (t : Text)

theorem takeWhile_drop {l : List α}
    (hn : n ≤ (l.takeWhile p).length) : (l.drop n).takeWhile p = (l.takeWhile p).drop n := by
  induction n generalizing l with
  | zero => rfl
  | succ n ih =>
    cases l with
    | nil => simp at hn
    | cons a l =>
      by_cases ha : p a = true
      · rw [takeWhile_cons_of_pos ha] at hn ⊢
        rw [drop_succ_cons, drop_succ_cons, ih (by simpa using hn)]
      · rw [takeWhile_cons_of_neg ha] at hn
        simp at hn

theorem split_takeWhile (l : List α) :
    l.take (l.takeWhile p).length = l.takeWhile p ∧
      l.drop (l.takeWhile p).length = l.dropWhile p := by
  have htake : l.takeWhile p <+: l :=
     takeWhile_prefix p
  refine ⟨(prefix_iff_eq_take.1 htake).symm, append_cancel_left (?_ : l.takeWhile p ++ _ = _)⟩
  rw [prefix_iff_eq_append.1 htake, takeWhile_append_dropWhile]

theorem Text.chars_advance (hn : n ≤ t.chars.length) :
    (t.advance n).chars = t.chars.drop n := by
  unfold Text.chars Text.advance at *
  cases hin : t.inExtra with
  | false => simp [drop_drop]
  | true =>
    rw [hin] at hn
    simp only [if_true] at hn ⊢
    rw [← drop_drop, takeWhile_drop _ hn]

theorem Text.no_nul : 0 ∉ t.chars := by
  unfold Text.chars
  split
  · intro hmem
    have := mem_takeWhile_imp hmem
    simp at this
  · exact fun hmem => t.name.2 (mem_of_mem_drop hmem)

/-- **The splice**: the target, then the rest. -/
theorem Text.chars_splice {target : Str} (htarget : 0 ∉ target) :
    (t.splice target).chars = target ++ t.chars := by
  have hroom : target.length ≤
      (t.extra ++ replicate (t.chars.length + target.length + 1 - t.extra.length) 0).length := by
    rw [length_append, length_replicate]
    omega
  have hnul : ∀ b ∈ target ++ t.chars, decide (b ≠ 0) = true := by
    intro b hb
    rcases mem_append.1 hb with hb | hb
    · simpa using fun h : b = 0 => htarget (h ▸ hb)
    · simpa using fun h : b = 0 => t.no_nul (h ▸ hb)
  unfold Text.splice
  rw [Text.chars]
  simp only [drop_zero]
  -- the bytes before the rest are those of the target
  rw [append_assoc, drop_left' (length_take_of_le hroom), append_assoc,
    ← append_assoc, takeWhile_append_of_pos hnul]
  simp

/-- The component and the rest that a turn finds are those of the string. -/
theorem scan (text : Text) :
    let start := text.advance (text.chars.takeWhile fun b => b = slash).length
    let startlen := (start.chars.takeWhile fun b => b ≠ slash).length
    start.chars.take startlen = component slash text.chars ∧
      startlen = (component slash text.chars).length ∧
      (start.advance startlen).chars = afterComponent slash text.chars := by
  have hstart : (text.advance (text.chars.takeWhile fun b => b = slash).length).chars =
      text.chars.dropWhile fun b => b = slash := by
    rw [text.chars_advance (takeWhile_sublist _).length_le]
    exact (split_takeWhile _ _).2
  dsimp only
  generalize text.advance (text.chars.takeWhile fun b => b = slash).length = start at hstart ⊢
  rw [start.chars_advance (takeWhile_sublist _).length_le, hstart]
  exact ⟨(split_takeWhile _ _).1, rfl, (split_takeWhile _ _).2⟩

section Loop

variable {fs : FileSystem} {kernelLimit threshold : Nat}

variable (fs kernelLimit threshold) in
theorem turn_eq (rname : Str) (text : Text) (numLinks : Nat) :
    ∃ rest : Text, rest.chars = afterComponent slash text.chars ∧
      turn fs kernelLimit threshold rname text numLinks =
        if component slash text.chars = [] then .done rname
        else if component slash text.chars = dot then .next rname rest numLinks
        else if component slash text.chars = dotDot then .next (backUp rname) rest numLinks
        else ordinary fs kernelLimit threshold rname
          (component slash text.chars) rest numLinks := by
  obtain ⟨hcomp, hlen, hrest⟩ := scan text
  refine ⟨_, hrest, ?_⟩
  unfold turn
  dsimp only
  rw [hcomp, hlen]
  simp only [length_eq_zero_iff]

variable {rname rname' : Str} {numLinks numLinks' : Nat}

theorem ordinary_next {comp : Str} {rest text' : Text}
    (h : ordinary fs kernelLimit threshold rname comp rest numLinks =
      .next rname' text' numLinks') :
    (numLinks' = numLinks ∧ text' = rest) ∨ (numLinks < numLinks' ∧ numLinks < threshold) := by
  unfold ordinary at h
  dsimp only at h
  split at h
  · split at h
    · cases h
    · cases h
      exact .inr ⟨by omega, by omega⟩
  · split at h
    · split at h
      · cases h
        exact .inl ⟨rfl, rfl⟩
      · cases h
    · split at h
      · cases h
        exact .inl ⟨rfl, rfl⟩
      · cases h

/-- A turn that goes on follows a link or leaves less text. -/
theorem turn_next {text text' : Text}
    (h : turn fs kernelLimit threshold rname text numLinks = .next rname' text' numLinks') :
    Prod.Lex (· < ·) (· < ·) (threshold - numLinks', text'.chars.length)
      (threshold - numLinks, text.chars.length) := by
  obtain ⟨rest, hrest, hturn⟩ := turn_eq fs kernelLimit threshold rname text numLinks
  rw [hturn] at h
  split at h
  · cases h
  · next hne =>
    have hlt := length_afterComponent_lt hne
    rw [← hrest] at hlt
    split at h
    · cases h
      exact .right _ hlt
    split at h
    · cases h
      exact .right _ hlt
    · rcases ordinary_next h with ⟨rfl, rfl⟩ | ⟨hlinks, hthreshold⟩
      · exact .right _ hlt
      · exact .left _ _ (by omega)

end Loop

/-! ## The function -/

inductive Ended
  | done (rname : Str)
  | failed (errno : Errno) (rname : Str)

/-- `for ( ; *start; start = end)` -/
def loop (fs : FileSystem) (kernelLimit threshold : Nat) (rname : Str) (text : Text)
    (numLinks : Nat) : Ended :=
  if text.chars = [] then .done rname
  else
    match _h : turn fs kernelLimit threshold rname text numLinks with
    | .next rname text numLinks => loop fs kernelLimit threshold rname text numLinks
    | .done rname => .done rname
    | .fail errno rname => .failed errno rname
termination_by (threshold - numLinks, text.chars.length)
decreasing_by exact turn_next ‹_›

structure Outcome where
  returned : Except Errno Str
  copied : Option Str

/-- `realpath_stk`, with a buffer of the caller or without. -/
def realpathStk (fs : FileSystem) (kernelLimit threshold pathMax : Nat) (name : Option CString)
    (resolved : Bool) : Outcome :=
  match name with
  | none => ⟨.error .einval, none⟩
  | some name =>
    if name.1 = [] then ⟨.error .enoent, none⟩
    else
      let rname := if isAbsolute name.1 then [slash] else pathString fs.cwd
      match loop fs kernelLimit threshold rname ⟨name, [], false, 0⟩ 0 with
      | .done rname =>
        let rname :=
          if rname.length > 1 ∧ rname.getLast? = some slash then rname.dropLast else rname
        if resolved then
          if rname.length + 1 ≤ pathMax then ⟨.ok rname, some rname⟩
          else ⟨.error .enametoolong, none⟩
        else ⟨.ok rname, none⟩
      | .failed errno rname =>
        ⟨.error errno,
          if resolved ∧ (errno = .enoent ∨ errno = .eacces) ∧ rname.length + 1 ≤ pathMax then
            some rname
          else none⟩

end SafeLibc.Stdlib.Realpath
