import Mathlib.Data.List.Basic
import Mathlib.Tactic.Ring

/-!
# The buffer for dynamic string tokens

`expand_dynamic_string_token` of `dl-load.c`: `_dl_dst_count` counts the tokens that `is_dst` finds,
`DL_DST_REQUIRED` derives the size of the buffer from their number, and `_dl_dst_substitute` writes
into it. C strings are lists of characters without their NUL, and a pointer into one is the rest of
it. What is followed here is how far the substitution writes, with the terminators of `__stpcpy` and
in a path that it gives up (`expandDynamicStringToken_fits`).
-/

namespace SafeLibc.Ldso

open List

/-! ## Tokens -/

inductive Dst
  | origin
  | platform
  | lib
  deriving DecidableEq, Repr

def Dst.name : Dst → List Char
  | .origin => "ORIGIN".toList
  | .platform => "PLATFORM".toList
  | .lib => "LIB".toList

def isIdentifierChar (c : Char) : Bool :=
  ('A' ≤ c && c ≤ 'Z') || ('a' ≤ c && c ≤ 'z') || ('0' ≤ c && c ≤ '9') || c == '_'

/-- The length of the token behind a `$`, with its braces; 0 if it is another one. -/
def isDst (input ref : List Char) : Nat :=
  let isCurly := input.head? = some '\x7b'
  let input := if isCurly then input.tail else input
  let next := input[ref.length]?
  if ref.isPrefixOf input = false ∨ (isCurly ∧ next ≠ some '\x7d') ∨
    next.any isIdentifierChar then 0
  else if isCurly then ref.length + 2
  else ref.length

/-- What the substitution reads of the link map and of the loader's state; `none` is an unknown
origin or platform. -/
structure DstContext where
  enableSecure : Bool
  isExecutable : Bool
  origin : Option (List Char)
  platform : Option (List Char)
  dstLib : List Char

/-- The text that is written, and whether it has to be checked. -/
structure DstState where
  written : List Char
  checkForTrusted : Bool
  deriving DecidableEq, Repr

def DstState.push (s : DstState) (c : Char) : DstState :=
  { s with written := s.written ++ [c] }

def findDst (input : List Char) : Option (Dst × Nat) :=
  [Dst.origin, .platform, .lib].findSome? fun d =>
    if isDst input d.name ≠ 0 then some (d, isDst input d.name) else none

/-- The replacement of a token; `rest` is the input behind it. -/
def DstContext.repl (ctx : DstContext) (atStart : Bool) (rest : List Char) :
    Dst → Option (List Char)
  | .origin =>
    if ctx.enableSecure ∧ ¬(atStart ∧ (rest = [] ∨ rest.head? = some '/')) then none else ctx.origin
  | .platform => ctx.platform
  | .lib => some ctx.dstLib

/-- The loop of `_dl_dst_substitute`, with `skip` characters done; `none` discards the path. -/
def substituteLoop (ctx : DstContext) : Bool → Nat → List Char → DstState → Option DstState
  | _, _, [], s => some s
  | _, skip + 1, _ :: input, s => substituteLoop ctx false skip input s
  | atStart, 0, c :: input, s =>
    if c = '$' then
      match findDst input with
      | some (d, len) =>
        match ctx.repl atStart (input.drop len) d with
        | none => none
        | some text => substituteLoop ctx false len input ⟨s.written ++ text,
            if d = .origin then ctx.enableSecure && ctx.isExecutable else s.checkForTrusted⟩
      | none => substituteLoop ctx false 0 input (s.push '$')
    else substituteLoop ctx false 0 input (s.push c)

/-! ## The buffer -/

/-- `_dl_dst_count`, over an input of which `skip` characters are done. -/
def dlDstCount : Nat → List Char → Nat
  | _, [] => 0
  | skip + 1, _ :: input => dlDstCount skip input
  | 0, c :: input =>
    if c = '$' then
      match findDst input with
      | some (_, len) => dlDstCount len input + 1
      | none => dlDstCount 0 input
    else dlDstCount 0 input

/-- The length of the longest replacement. -/
def DstContext.dstLen (ctx : DstContext) : Nat :=
  max (max (ctx.origin.elim 0 length) (ctx.platform.elim 0 length)) ctx.dstLib.length

/-- `DL_DST_REQUIRED`, in which the sum may wrap. -/
def dlDstRequired (ctx : DstContext) (len cnt : Nat) : Nat :=
  if cnt > 0 ∧ ctx.dstLen > 4 then (len + cnt * (ctx.dstLen - 4)) % 2 ^ 64 else len

/-- Where the writes of `_dl_dst_substitute` end; `trusted` is the outcome of the check of the
path. -/
def substituteEnd (ctx : DstContext) (trusted : Bool) : Bool → Nat → List Char → Nat → Nat → Nat
  | _, _, [], wp, written => max written (if trusted then wp + 1 else 1)
  | _, skip + 1, _ :: input, wp, written => substituteEnd ctx trusted false skip input wp written
  | atStart, 0, c :: input, wp, written =>
    if c = '$' then
      match findDst input with
      | some (d, len) =>
        match ctx.repl atStart (input.drop len) d with
        | none => max written 1
        | some text => substituteEnd ctx trusted false len input (wp + text.length)
            (max written (wp + text.length + 1))
      | none => substituteEnd ctx trusted false 0 input (wp + 1) (max written (wp + 1))
    else substituteEnd ctx trusted false 0 input (wp + 1) (max written (wp + 1))

/-- The bytes that `expand_dynamic_string_token` allocates, and those that are written to them. -/
def expandDynamicStringToken (ctx : DstContext) (trusted : Bool) (input : List Char) : Nat × Nat :=
  let cnt := dlDstCount 0 input
  if cnt = 0 then (input.length + 1, input.length + 1)
  else ((dlDstRequired ctx input.length cnt + 1) % 2 ^ 64,
    substituteEnd ctx trusted true 0 input 0 0)

variable {ctx : DstContext} {input text : List Char} {trusted atStart : Bool} {skip : Nat}

theorem isDst_curly (input ref : List Char) : isDst ('\x7b' :: input) ref =
    if ref.isPrefixOf input = false ∨ input[ref.length]? ≠ some '\x7d' then 0
      else ref.length + 2 := by
  by_cases hnext : input[ref.length]? = some '\x7d'
  · simp [isDst, hnext, isIdentifierChar]
  · simp [isDst, hnext]

theorem isDst_plain (h : input.head? ≠ some '\x7b') (ref : List Char) : isDst input ref =
    if ref.isPrefixOf input = false ∨ input[ref.length]?.any isIdentifierChar then 0
    else ref.length := by
  simp [isDst, h]

theorem isDst_bounds {ref : List Char} (h : isDst input ref ≠ 0) :
    ref.length ≤ isDst input ref ∧ isDst input ref ≤ input.length := by
  by_cases hcurly : input.head? = some '\x7b'
  · obtain ⟨rest, rfl⟩ := head?_eq_some_iff.1 hcurly
    rw [isDst_curly] at h ⊢
    split at h
    · exact absurd rfl h
    · next hdst =>
      rw [if_neg hdst, length_cons]
      rw [not_or, not_not] at hdst
      obtain ⟨hlt, -⟩ := List.getElem?_eq_some_iff.1 hdst.2
      omega
  · rw [isDst_plain hcurly] at h ⊢
    split at h
    · exact absurd rfl h
    · next hdst =>
      rw [if_neg hdst]
      rw [not_or, Bool.not_eq_false] at hdst
      have hstart := isPrefixOf_iff_prefix.1 hdst.1
      exact ⟨le_rfl, hstart.length_le⟩

theorem findDst_bounds {d : Dst} {len : Nat} (h : findDst input = some (d, len)) :
    3 ≤ len ∧ len ≤ input.length := by
  obtain ⟨d', -, hd⟩ := exists_of_findSome?_eq_some h
  split at hd
  · next hne =>
    cases hd
    have hname : 3 ≤ d.name.length := by cases d <;> decide
    have hbounds := isDst_bounds hne
    omega
  · cases hd

theorem length_repl_le {rest : List Char} {d : Dst} (h : ctx.repl atStart rest d = some text) :
    text.length ≤ ctx.dstLen := by
  unfold DstContext.dstLen
  cases d with
  | origin =>
    rw [DstContext.repl] at h
    split at h
    · cases h
    · simp [h]
  | platform =>
    have hplatform : ctx.platform = some text := h
    simp [hplatform]
  | lib =>
    cases h
    exact le_max_right _ _

/-- Each token is at least four characters long, so that only what its replacement has beyond four
is added. -/
theorem substituteEnd_le {wp written : Nat} (hwritten : written ≤ wp + 1) :
    substituteEnd ctx trusted atStart skip input wp written ≤
      wp + (input.length - skip) + dlDstCount skip input * (ctx.dstLen - 4) + 1 := by
  fun_induction substituteEnd ctx trusted atStart skip input wp written with
  | case1 =>
    split
    · omega
    · omega
  | case2 _ skip _ input _ _ ih =>
    rw [length_cons, Nat.add_sub_add_right]
    exact ih hwritten
  | case3 => omega
  | case4 _ input wp written d len hfind text hrepl ih =>
    have hbounds := findDst_bounds hfind
    have htext := length_repl_le hrepl
    rw [dlDstCount, if_pos rfl, hfind, length_cons]
    rw [Nat.succ_mul]
    omega
  | case5 _ input wp written hfind ih =>
    have hih := ih (by omega)
    rw [dlDstCount, if_pos rfl, hfind, length_cons]
    dsimp only at hih ⊢
    omega
  | case6 _ c input wp written hc ih =>
    rw [dlDstCount, if_neg hc, length_cons]
    omega

/-- The end is behind the text that the substitution leaves, with its terminator. -/
theorem length_lt_substituteEnd {s s' : DstState}
    (h : substituteLoop ctx atStart skip input s = some s') (written : Nat) :
    s'.written.length < substituteEnd ctx true atStart skip input s.written.length written := by
  fun_induction substituteLoop ctx atStart skip input s generalizing written with
  | case1 =>
    cases h
    exact lt_max_of_lt_right (Nat.lt_succ_self _)
  | case2 _ _ _ _ _ ih => exact ih h written
  | case3 => cases h
  | case4 atStart input s d len hfind text hrepl ih =>
    rw [substituteEnd, hfind]
    dsimp only
    rw [hrepl]
    dsimp only
    rw [← length_append]
    exact ih h _
  | case5 atStart input s hfind ih =>
    rw [substituteEnd, hfind]
    simpa [DstState.push] using ih h _
  | case6 atStart c input s hc ih =>
    rw [substituteEnd, if_neg hc]
    simpa [DstState.push] using ih h _

/-- **The buffer is large enough** for every input and context, if the sum of `DL_DST_REQUIRED` does
not wrap. -/
theorem expandDynamicStringToken_fits (ctx : DstContext) (trusted : Bool) (input : List Char)
    (hsize : input.length + dlDstCount 0 input * (ctx.dstLen - 4) + 1 < 2 ^ 64) :
    (expandDynamicStringToken ctx trusted input).2 ≤
      (expandDynamicStringToken ctx trusted input).1 := by
  unfold expandDynamicStringToken
  dsimp only
  split
  · exact le_rfl
  · have hend : substituteEnd ctx trusted true 0 input 0 0 ≤ _ := substituteEnd_le (Nat.zero_le 1)
    rw [Nat.zero_add] at hend
    have hrequired : dlDstRequired ctx input.length (dlDstCount 0 input) =
        input.length + dlDstCount 0 input * (ctx.dstLen - 4) := by
      unfold dlDstRequired
      split
      · exact Nat.mod_eq_of_lt (by omega)
      · next hnone =>
        have hfour : ctx.dstLen - 4 = 0 := by omega
        rw [hfour, Nat.mul_zero, Nat.add_zero]
    rw [hrequired, Nat.mod_eq_of_lt hsize]
    exact hend

theorem expandDynamicStringToken_fits_sample :
    (expandDynamicStringToken ⟨false, true, some "/usr/bin".toList, none, "lib64".toList⟩ true
        "$ORIGIN/../$LIB".toList).2 = 18 ∧ 18 ≤ 24 := by
  have hfits := expandDynamicStringToken_fits
    ⟨false, true, some "/usr/bin".toList, none, "lib64".toList⟩ true "$ORIGIN/../$LIB".toList
    (by decide +kernel)
  exact ⟨by decide +kernel, hfits.trans (by decide +kernel)⟩

/-! ## A sum that wraps -/

def origins (n : Nat) : List Char := (replicate n "$ORIGIN".toList).flatten

theorem dlDstCount_skip (t input : List Char) :
    dlDstCount t.length (t ++ input) = dlDstCount 0 input := by
  induction t with
  | nil => rfl
  | cons c t ih => exact ih

theorem substituteLoop_skip (ctx : DstContext) (t input : List Char) (s : DstState) :
    substituteLoop ctx false t.length (t ++ input) s = substituteLoop ctx false 0 input s := by
  induction t with
  | nil => rfl
  | cons c t ih => exact ih

theorem origins_succ (n : Nat) : origins (n + 1) = '$' :: ("ORIGIN".toList ++ origins n) := by
  rw [origins, replicate_succ, flatten_cons]
  rfl

theorem findDst_origins (n : Nat) : findDst ("ORIGIN".toList ++ origins n) = some (.origin, 6) := by
  cases n with
  | zero => decide
  | succ n =>
    rw [origins_succ]
    rfl

theorem dlDstCount_origins (n : Nat) : dlDstCount 0 (origins n) = n := by
  induction n with
  | zero => rfl
  | succ n ih =>
    rw [origins_succ, dlDstCount, if_pos rfl, findDst_origins]
    exact congrArg (· + 1) ((dlDstCount_skip "ORIGIN".toList (origins n)).trans ih)

theorem substituteLoop_origins {origin : List Char} (horigin : ctx.origin = some origin)
    (hsecure : ctx.enableSecure = false) (n : Nat) (atStart : Bool) (s : DstState) :
    ∃ s', substituteLoop ctx atStart 0 (origins n) s = some s' ∧
      s'.written.length = s.written.length + n * origin.length := by
  induction n generalizing atStart s with
  | zero => exact ⟨s, by rw [origins, replicate_zero, flatten_nil, substituteLoop], by simp⟩
  | succ n ih =>
    have hrepl : ∀ rest, ctx.repl atStart rest .origin = some origin := by
      intro rest
      simp [DstContext.repl, hsecure, horigin]
    obtain ⟨s', hrun, hlength⟩ := ih false
      ⟨s.written ++ origin, ctx.enableSecure && ctx.isExecutable⟩
    refine ⟨s', ?_, by rw [hlength, length_append, Nat.succ_mul]; omega⟩
    rw [origins_succ, substituteLoop, if_pos rfl, findDst_origins]
    dsimp only
    rw [hrepl]
    exact (substituteLoop_skip ctx "ORIGIN".toList (origins n) _).trans hrun

theorem expandDynamicStringToken_origins {n : Nat} {origin : List Char} (hn : n > 0)
    (horigin : origin.length > 4) :
    let expanded :=
      expandDynamicStringToken ⟨false, true, some origin, some [], []⟩ true (origins n)
    expanded.1 = ((n * 7 + n * (origin.length - 4)) % 2 ^ 64 + 1) % 2 ^ 64 ∧
      n * origin.length < expanded.2 := by
  have hdstLen : DstContext.dstLen ⟨false, true, some origin, some [], []⟩ = origin.length := by
    simp [DstContext.dstLen]
  obtain ⟨s, hrun, hlength⟩ :=
    @substituteLoop_origins ⟨false, true, some origin, some [], []⟩ origin
    rfl rfl n true ⟨[], false⟩
  have hend := length_lt_substituteEnd hrun 0
  rw [hlength, length_nil, Nat.zero_add] at hend
  have horigins : (origins n).length = n * 7 := by simp [origins]
  dsimp only [expandDynamicStringToken]
  rw [dlDstCount_origins, if_neg (Nat.ne_of_gt hn), horigins, dlDstRequired, hdstLen,
    if_pos ⟨hn, horigin⟩]
  exact ⟨rfl, hend⟩

/-- **The sum of `DL_DST_REQUIRED` wraps** for an origin of 8 GiB in a string of 14 GiB. -/
theorem expandDynamicStringToken_wraps : ∃ ctx input,
    (expandDynamicStringToken ctx true input).1 < (expandDynamicStringToken ctx true input).2 := by
  obtain ⟨origin, horigin⟩ : ∃ origin : List Char, origin.length = 2 ^ 33 + 4 :=
    ⟨replicate _ 'a', length_replicate⟩
  obtain ⟨hallocated, hwritten⟩ :=
    expandDynamicStringToken_origins (show 2 ^ 31 > 0 by decide) (by rw [horigin]; decide)
  rw [horigin] at hallocated hwritten
  exact ⟨_, _, lt_of_eq_of_lt hallocated (lt_trans (by decide) hwritten)⟩

end SafeLibc.Ldso
