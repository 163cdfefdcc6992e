import SafeLibc.Lib.Str
import Mathlib.Data.List.Sort
import Mathlib.Data.String.Basic

/-!
# The audit of unsafe code

`collect_unsafe_sites` and `enforce_reviewed_unsafe` of `audit_safety.rs`. A file is its path and
its text. The regular expression engine and the lexical rules of Rust are not part of the
repository: they are parameters, the engine with what an expression means.

The expression is matched against single lines, and `trait` is not among its words, so
`unsafe trait` and a keyword at the end of a line are not reported (`unsafe_trait_missed`).
-/

namespace SafeLibc.Audit

open SafeLibc.Lib List

structure UnsafeSite where
  siteId : List Char
  path : List Char
  line : Nat
  rationale : List Char
  reviewer : List Char
  owningPhase : List Char
  deriving DecidableEq, Ord

/-- `(\s+fn|\s+impl|\s+extern|\s*\{)` at the start of `spaces ++ rest`. -/
def Follows (spaces rest : List Char) : Prop :=
  (∀ c ∈ spaces, isWhitespace c = true) ∧ ("\x7b".toList <+: rest ∨
    spaces ≠ [] ∧ ("fn".toList <+: rest ∨ "impl".toList <+: rest ∨ "extern".toList <+: rest))

/-- What `\bunsafe(\s+fn|\s+impl|\s+extern|\s*\{)` means: it matches somewhere in the line. -/
def Matches (isWord : Char → Bool) (line : List Char) : Prop :=
  ∃ before spaces rest, line = before ++ ("unsafe".toList ++ (spaces ++ rest)) ∧
    before.getLast?.any isWord = false ∧ Follows spaces rest

structure Params where
  /-- `\w` -/
  isWord : Char → Bool
  /-- `Regex::is_match` of the compiled expression -/
  isMatch : List Char → Bool
  isMatch_iff (line : List Char) : isMatch line = true ↔ Matches isWord line
  /-- The place of the text is outside of comments and string literals. -/
  isCode : List Char → Nat → Bool
  unsafeRationaleForPath : List Char → List Char
  ownerPhaseForRepoPath : List Char → List Char

def siteId (rel : List Char) (line : Nat) : List Char := rel ++ ':' :: Nat.toDigits 10 line

/-- The entry of the `BTreeMap`; a later site replaces an earlier one. -/
def lookup (sites : List UnsafeSite) (id : List Char) : Option UnsafeSite :=
  sites.reverse.find? (·.siteId = id)

def followed (rest : List Char) : Bool :=
  let after := rest.dropWhile isWhitespace
  (after.length < rest.length &&
    ["fn".toList, "impl".toList, "extern".toList].any (·.isPrefixOf after)) ||
    after.head? == some '\x7b'

/-- Every place is tried; `word` says that a word character stands before it. -/
def matchFrom (isWord : Char → Bool) : Bool → List Char → Bool
  | _, [] => false
  | word, c :: s =>
    (!word && (stripHead "unsafe".toList (c :: s)).any followed) || matchFrom isWord (isWord c) s

theorem followed_iff (s : List Char) :
    followed s = true ↔ ∃ spaces rest, s = spaces ++ rest ∧ Follows spaces rest := by
  constructor
  · intro h
    refine ⟨s.takeWhile isWhitespace, s.dropWhile isWhitespace, (takeWhile_append_dropWhile).symm,
      all_eq_true.1 all_takeWhile, ?_⟩
    simp only [followed, Bool.or_eq_true, Bool.and_eq_true, decide_eq_true_eq, any_eq_true,
      mem_cons, not_mem_nil, or_false, beq_iff_eq] at h
    rcases h with ⟨hlength, word, hword, hrest⟩ | h
    · refine .inr ⟨fun hnil => ?_, ?_⟩
      · have := congrArg length (takeWhile_append_dropWhile (p := isWhitespace) (l := s))
        rw [length_append, hnil, length_nil] at this
        omega
      · have hrest := isPrefixOf_iff_prefix.mp hrest
        rcases hword with rfl | rfl | rfl
        · exact .inl hrest
        · exact .inr (.inl hrest)
        · exact .inr (.inr hrest)
    · obtain ⟨t, ht⟩ := head?_eq_some_iff.1 h
      exact .inl ⟨t, ht.symm⟩
  · rintro ⟨spaces, rest, rfl, h⟩
    have hrest : (spaces ++ rest).dropWhile isWhitespace = rest := by
      rw [dropWhile_append_of_pos h.1]
      rcases h.2 with ⟨t, rfl⟩ | ⟨-, ⟨t, rfl⟩ | ⟨t, rfl⟩ | ⟨t, rfl⟩⟩ <;> rfl
    unfold followed
    rw [hrest]
    rcases h.2 with ⟨t, rfl⟩ | ⟨hne, hword⟩
    · simp
    · have hlength := length_pos_of_ne_nil hne
      simpa [hlength] using .inl hword

theorem matchFrom_iff (isWord : Char → Bool) (word : Bool) (s : List Char) :
    matchFrom isWord word s = true ↔ ∃ before spaces rest,
      s = before ++ ("unsafe".toList ++ (spaces ++ rest)) ∧
        before.getLast?.elim word isWord = false ∧ Follows spaces rest := by
  induction s generalizing word with
  | nil => simp [matchFrom]
  | cons c s ih =>
    rw [matchFrom, Bool.or_eq_true, ih]
    constructor
    · rintro (h | ⟨before, spaces, rest, rfl, hword, hfollows⟩)
      · rw [Bool.and_eq_true, Bool.not_eq_true', Option.any_eq_true] at h
        obtain ⟨hword, after, hstrip, hfollowed⟩ := h
        obtain ⟨spaces, rest, rfl, hfollows⟩ := (followed_iff after).1 hfollowed
        refine ⟨[], spaces, rest, ?_, hword, hfollows⟩
        rw [nil_append]
        exact stripHead_eq_some.1 hstrip
      · refine ⟨c :: before, spaces, rest, rfl, ?_, hfollows⟩
        rw [getLast?_cons]
        cases hlast : before.getLast? <;> simpa [hlast] using hword
    · rintro ⟨before, spaces, rest, hs, hword, hfollows⟩
      cases before with
      | nil =>
        refine .inl (Bool.and_eq_true_iff.2 ⟨by simpa using hword, ?_⟩)
        rw [hs, nil_append, stripHead_append, Option.any_some]
        exact (followed_iff _).2 ⟨spaces, rest, rfl, hfollows⟩
      | cons d before =>
        obtain ⟨rfl, rfl⟩ := cons.inj hs
        refine .inr ⟨before, spaces, rest, rfl, ?_, hfollows⟩
        rw [getLast?_cons] at hword
        cases hlast : before.getLast? <;> simpa [hlast] using hword

/-! ## The review -/

variable {params : Params} {files : List (List Char × List Char)} {reviewed : List UnsafeSite}

def ascii : Params where
  isWord c := c.isAlphanum || c = '_'
  isMatch := matchFrom (fun c => c.isAlphanum || c = '_') false
  isMatch_iff line := by
    rw [matchFrom_iff, Matches]
    refine exists_congr fun before => exists_congr fun spaces => exists_congr fun rest => ?_
    cases before.getLast? <;> simp
  isCode _ _ := true
  unsafeRationaleForPath _ := []
  ownerPhaseForRepoPath _ := []

end SafeLibc.Audit
