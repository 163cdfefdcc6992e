import Mathlib.Data.List.TakeWhile
import Mathlib.Tactic.Ring

/-!
# Priorities of hardware capabilities

`glibc_hwcaps_priorities_init` of `dl-cache.c` merges the subdirectory names of a cache file, given
by their string indices, with the supported subdirectories. The numbers it stores are a list here. A
loop that does not end has no result for any `fuel`, and a string that does not end in the mapping
of the file has none either.

The merge looks at an index only while a supported subdirectory is left (`Ends`).
-/

namespace SafeLibc.Ldso.HwcapsCache

open List

structure DlHwcapsPriority where
  name : List UInt8
  priority : Nat

/-- The mapping of a cache file: the bytes up to the end of its last page, and the size of the
file. -/
structure Cache where
  bytes : List UInt8
  cachesize : Nat
  cachesize_le : cachesize ≤ bytes.length

/-- The characters from an index up to a NUL. -/
def textAt (cache : Cache) (index : Nat) : List UInt8 :=
  (cache.bytes.drop index).takeWhile (· ≠ 0)

/-- The string at an index; there is none where no NUL follows. -/
def nameAt (cache : Cache) (index : Nat) : Option (List UInt8) :=
  if 0 ∈ cache.bytes.drop index then some (textAt cache index) else none

def memcmp (a b : List UInt8) (n : Nat) : Ordering := compare (a.take n) (b.take n)

/-- What `glibc_hwcaps_compare` does with the left name, whose length is a `uint32_t`. -/
def compareNames (leftName : List UInt8) (right : DlHwcapsPriority) : Ordering :=
  let leftNameLength := leftName.length % 2 ^ 32
  let toCompare :=
    if leftNameLength < right.name.length then leftNameLength else right.name.length
  match memcmp leftName right.name toCompare with
  | .eq => compare leftNameLength right.name.length
  | cmp => cmp

def glibcHwcapsCompare (cache : Cache) (leftIndex : Nat) (right : DlHwcapsPriority) :
    Option Ordering :=
  (nameAt cache leftIndex).map fun leftName => compareNames leftName right

def mergeLoop (cache : Cache) :
    Nat → List Nat → List DlHwcapsPriority → List Nat → Option (List Nat)
  | 0, _, _, _ => none
  | fuel + 1, l :: left, r :: right, result =>
    if l < cache.cachesize then
      match glibcHwcapsCompare cache l r with
      | none => none
      | some .eq => mergeLoop cache fuel left right (result ++ [r.priority])
      | some .lt => mergeLoop cache fuel left (r :: right) (result ++ [0])
      | some .gt => mergeLoop cache fuel (l :: left) right result
    -- neither list is advanced here
    else mergeLoop cache fuel (l :: left) (r :: right) (result ++ [0])
  | _ + 1, left, _, result => some (result ++ left.map fun _ => 0)

/-- The array `glibc_hwcaps_priorities`: its allocated size, and the elements up to its length. -/
structure Priorities where
  allocated : Nat
  values : List Nat

/-- `glibc_hwcaps_priorities_init`, with the section that was found and whether an allocation
succeeds. -/
def glibcHwcapsPrioritiesInit (cache : Cache) (right : List DlHwcapsPriority) (malloc : Bool)
    (fuel : Nat) (ext : Option (List Nat)) (p : Priorities) : Option Priorities :=
  match ext with
  | none => some p
  | some left =>
    if p.allocated < left.length ∧ malloc = false then some { p with allocated := 0 }
    else (mergeLoop cache fuel left right []).map fun values =>
      ⟨max p.allocated left.length, values⟩

/-- The priority of the supported subdirectory of a name, or 0. -/
def priorityOf (right : List DlHwcapsPriority) (name : List UInt8) : Nat :=
  ((right.find? (·.name = name)).map (·.priority)).getD 0

/-! ## Which indices are looked at -/

/-- The supported subdirectories that are left behind a name. -/
def passed (name : List UInt8) (right : List DlHwcapsPriority) : List DlHwcapsPriority :=
  match right.dropWhile fun r => compareNames name r = .gt with
  | [] => []
  | r :: rest => if compareNames name r = .eq then rest else r :: rest

/-- While a supported subdirectory is left, the next index is one of the file, and its string
ends. -/
def Ends (cache : Cache) : List Nat → List DlHwcapsPriority → Prop
  | [], _ => True
  | l :: left, right => right = [] ∨
    l < cache.cachesize ∧ ∃ name ∈ nameAt cache l, Ends cache left (passed name right)

variable {cache : Cache} {l : Nat} {r : DlHwcapsPriority} {left : List Nat} {name : List UInt8}
  {right : List DlHwcapsPriority}

theorem ends_nil (left : List Nat) : Ends cache left [] := by
  cases left with
  | nil => trivial
  | cons l left => exact .inl rfl

theorem ends_cons (hl : l < cache.cachesize) (hname : nameAt cache l = some name) :
    Ends cache (l :: left) right ↔ Ends cache left (passed name right) := by
  constructor
  · rintro (rfl | ⟨-, name', hname', hends⟩)
    · exact ends_nil left
    · rwa [Option.some.inj (hname.symm.trans hname')]
  · exact fun hends => .inr ⟨hl, name, hname, hends⟩

theorem compare_cons (x y : UInt8) (a b : List UInt8) :
    compare (x :: a) (y :: b) = (compare x y).then (compare a b) :=
  List.compareLex_cons_cons

theorem compare_take (a b : List UInt8) :
    (memcmp a b (min a.length b.length)).then (compare a.length b.length) = compare a b := by
  induction a generalizing b with
  | nil =>
    cases b with
    | nil => rfl
    | cons y b => exact Nat.compare_eq_lt.2 (Nat.succ_pos _)
  | cons x a ih =>
    cases b with
    | nil => exact Nat.compare_eq_gt.2 (Nat.succ_pos _)
    | cons y b =>
      have hlength : compare (a.length + 1) (b.length + 1) = compare a.length b.length := by
        simp [Nat.compare_eq_ite_lt]
      rw [compare_cons, ← ih, ← Ordering.then_assoc, memcmp, length_cons, length_cons, hlength,
        Nat.succ_min_succ, take_succ_cons, take_succ_cons, compare_cons]
      rfl

theorem compareNames_eq (hsize : name.length < 2 ^ 32) :
    compareNames name r = compare name r.name := by
  have hmin : (if name.length < r.name.length then name.length else r.name.length) =
      min name.length r.name.length := by
    split <;> omega
  rw [← compare_take, compareNames, Nat.mod_eq_of_lt hsize]
  simp only [hmin]
  rfl

/-- Names in order, without repetition. -/
def Ascending (names : List (List UInt8)) : Prop := names.Pairwise fun a b => compare a b = .lt

theorem priorityOf_cons_of_ne (h : r.name ≠ name) :
    priorityOf (r :: right) name = priorityOf right name := by
  rw [priorityOf, find?_cons_of_neg (by simpa using h), priorityOf]

theorem ne_of_compare {a b : List UInt8} (h : compare a b = .lt) : a ≠ b := by
  rintro rfl
  rw [Std.ReflOrd.compare_self] at h
  cases h

/-- A name below the first of the supported ones is not among them. -/
theorem priorityOf_eq_zero (h : compare name r.name = .lt)
    (hright : Ascending ((r :: right).map (·.name))) : priorityOf (r :: right) name = 0 := by
  have hnone : (r :: right).find? (·.name = name) = none := by
    rw [find?_eq_none]
    intro s hs
    rcases mem_cons.1 hs with rfl | hs
    · simpa using (ne_of_compare h).symm
    · have hlt := (pairwise_cons.1 hright).1 _ (mem_map_of_mem hs)
      simpa using (ne_of_compare (Std.TransCmp.lt_trans h hlt)).symm
  rw [priorityOf, hnone]
  rfl

/-- One turn stores what belongs to the name it leaves behind. -/
theorem mergeLoop_turn (hl : l < cache.cachesize) (hname : nameAt cache l = some name) :
    ∃ left' right' written,
    (∀ fuel acc, mergeLoop cache (fuel + 1) (l :: left) (r :: right) acc =
      mergeLoop cache fuel left' right' (acc ++ written)) ∧
    left' <:+ l :: left ∧ left'.length + right'.length < left.length + right.length + 2 ∧
    written.length + left'.length = left.length + 1 ∧
    (Ends cache (l :: left) (r :: right) ↔ Ends cache left' right') ∧
    ((textAt cache l).length < 2 ^ 32 → Ascending ((l :: left).map (textAt cache)) →
      Ascending ((r :: right).map (·.name)) →
      Ascending (left'.map (textAt cache)) ∧ Ascending (right'.map (·.name)) ∧
        (l :: left).map (fun i => priorityOf (r :: right) (textAt cache i)) =
          written ++ left'.map fun i => priorityOf right' (textAt cache i)) := by
  have htext : textAt cache l = name := by
    unfold nameAt at hname
    split at hname
    · exact Option.some.inj hname
    · cases hname
  have hcompare : glibcHwcapsCompare cache l r = some (compareNames name r) := by
    rw [glibcHwcapsCompare, hname]
    rfl
  rw [ends_cons hl hname, passed]
  cases hcmp : compareNames name r with
  | eq =>
    rw [dropWhile_cons_of_neg (by simp [hcmp])]
    refine ⟨left, right, [r.priority], fun fuel acc => ?_, suffix_cons _ _, by omega,
      by simp; omega, by simp [hcmp], ?_⟩
    · rw [mergeLoop, if_pos hl, hcompare, hcmp]
    · intro hsize hleft hright
      rw [compareNames_eq (htext ▸ hsize)] at hcmp
      have hname : textAt cache l = r.name := htext.trans (Std.LawfulEqCmp.eq_of_compare hcmp)
      obtain ⟨hfirst, hleft'⟩ := pairwise_cons.1 hleft
      refine ⟨hleft', (pairwise_cons.1 hright).2, ?_⟩
      have hhere : priorityOf (r :: right) (textAt cache l) = r.priority := by
        rw [priorityOf, find?_cons_of_pos (by simp [hname])]
        rfl
      rw [map_cons]
      congr 1
      refine map_congr_left fun i hi => priorityOf_cons_of_ne ?_
      rw [← hname]
      exact ne_of_compare (hfirst _ (mem_map_of_mem hi))
  | lt =>
    rw [dropWhile_cons_of_neg (by simp [hcmp])]
    refine ⟨left, r :: right, [0], fun fuel acc => ?_, suffix_cons _ _, by simp; omega,
      by simp; omega, by simp [hcmp], ?_⟩
    · rw [mergeLoop, if_pos hl, hcompare, hcmp]
    · intro hsize hleft hright
      rw [compareNames_eq (htext ▸ hsize), ← htext] at hcmp
      refine ⟨(pairwise_cons.1 hleft).2, hright, ?_⟩
      rw [map_cons, priorityOf_eq_zero hcmp hright]
      rfl
  | gt =>
    refine ⟨l :: left, right, [], fun fuel acc => ?_, suffix_rfl, by simp; omega, by simp, ?_, ?_⟩
    · rw [mergeLoop, if_pos hl, hcompare, hcmp, append_nil]
    · rw [ends_cons hl hname, passed, dropWhile_cons_of_pos (by simp [hcmp])]
    · intro hsize hleft hright
      rw [compareNames_eq (htext ▸ hsize), ← htext] at hcmp
      refine ⟨hleft, (pairwise_cons.1 hright).2, ?_⟩
      have hlt : compare r.name (textAt cache l) = .lt := Std.OrientedCmp.lt_of_gt hcmp
      refine map_congr_left fun i hi => priorityOf_cons_of_ne (ne_of_compare ?_)
      rcases mem_cons.1 hi with rfl | hi
      · exact hlt
      · exact Std.TransCmp.lt_trans hlt ((pairwise_cons.1 hleft).1 _ (mem_map_of_mem hi))

theorem mergeLoop_spec (hends : Ends cache left right) : ∃ result,
    (∀ fuel acc, left.length + right.length < fuel →
      mergeLoop cache fuel left right acc = some (acc ++ result)) ∧ result.length = left.length ∧
      ((∀ i ∈ left, (textAt cache i).length < 2 ^ 32) → Ascending (left.map (textAt cache)) →
        Ascending (right.map (·.name)) →
        result = left.map fun i => priorityOf right (textAt cache i)) := by
  induction hn : left.length + right.length using Nat.strongRecOn generalizing left right with
  | ind n ih =>
    cases left with
    | nil =>
      refine ⟨[], fun fuel acc hfuel => ?_, rfl, fun _ _ _ => rfl⟩
      obtain ⟨fuel, rfl⟩ := Nat.exists_eq_succ_of_ne_zero (Nat.ne_zero_of_lt hfuel)
      simp [mergeLoop]
    | cons l left =>
      cases right with
      | nil =>
        refine ⟨(l :: left).map fun _ => 0, fun fuel acc hfuel => ?_,
          length_map _, fun _ _ _ => rfl⟩
        obtain ⟨fuel, rfl⟩ := Nat.exists_eq_succ_of_ne_zero (Nat.ne_zero_of_lt hfuel)
        rfl
      | cons r right =>
        obtain ⟨hl, name, hname, -⟩ := hends.resolve_left (cons_ne_nil r right)
        obtain ⟨left', right', written, hturn, hsuffix, hshorter, hwritten, hends', hnames⟩ :=
          @mergeLoop_turn cache l r left name right hl hname
        simp only [length_cons] at hn
        obtain ⟨result, hrun, hlength, hresult⟩ := ih (left'.length + right'.length) (by omega)
          (hends'.1 hends) rfl
        refine ⟨written ++ result, fun fuel acc hfuel => ?_, by simp; omega, ?_⟩
        · obtain ⟨fuel, rfl⟩ := Nat.exists_eq_succ_of_ne_zero (Nat.ne_zero_of_lt hfuel)
          rw [hturn, hrun _ _ (by omega), append_assoc]
        · intro hsize hleft hright
          obtain ⟨hleft', hright', heq⟩ := hnames (hsize l mem_cons_self) hleft hright
          rw [heq, hresult (fun i hi => hsize i (hsuffix.subset hi)) hleft' hright']

/-- An index that ends the merge is not passed over: outside of the file the loop does not end. -/
theorem mergeLoop_eq_none (hends : ¬ Ends cache left right) (fuel : Nat) (acc : List Nat) :
    mergeLoop cache fuel left right acc = none := by
  induction fuel generalizing left right acc with
  | zero => rfl
  | succ fuel ih =>
    match left, right with
    | [], _ => exact absurd trivial hends
    | _ :: _, [] => exact absurd (ends_nil _) hends
    | l :: left, r :: right =>
      by_cases hl : l < cache.cachesize
      · cases hname : nameAt cache l with
        | none => rw [mergeLoop, if_pos hl, glibcHwcapsCompare, hname, Option.map_none]
        | some name =>
          obtain ⟨left', right', written, hturn, -, -, -, hends', -⟩ :=
            @mergeLoop_turn cache l r left name right hl hname
          rw [hturn, ih fun h => hends (hends'.2 h)]
      · rw [mergeLoop, if_neg hl, ih hends]

/-- **What is stored**: the merge returns where every index that it looks at is good, and then it
has stored one number for each index, which is the priority of the supported subdirectory of this
name if both lists of names ascend. -/
theorem glibcHwcapsPrioritiesInit_iff (hsize : ∀ i ∈ left, (textAt cache i).length < 2 ^ 32)
    {malloc : Bool} {p : Priorities} (hmalloc : p.allocated < left.length → malloc = true) :
    (∃ values,
      (∀ fuel, left.length + right.length < fuel →
        glibcHwcapsPrioritiesInit cache right malloc fuel (some left) p =
          some ⟨max p.allocated left.length, values⟩) ∧
      values.length = left.length ∧
      (Ascending (left.map (textAt cache)) → Ascending (right.map (·.name)) →
        (∀ i ∈ left, i < cache.cachesize) →
        values = left.map fun i => priorityOf right (textAt cache i))) ↔
    Ends cache left right := by
  have hroom : ¬ (p.allocated < left.length ∧ malloc = false) := by
    rintro ⟨hlt, rfl⟩
    cases hmalloc hlt
  simp only [glibcHwcapsPrioritiesInit, if_neg hroom]
  constructor
  · rintro ⟨values, hrun, -⟩
    by_contra hends
    have hrun := hrun _ (Nat.lt_succ_self _)
    rw [mergeLoop_eq_none hends] at hrun
    cases hrun
  · intro hends
    obtain ⟨values, hrun, hlength, hvalues⟩ := mergeLoop_spec hends
    refine ⟨values, fun fuel hfuel => ?_, hlength, fun hleft hright _ => hvalues hsize hleft hright⟩
    rw [hrun fuel [] hfuel]
    rfl

def sampleCache : Cache := ⟨[97, 0, 98, 0], 4, by decide⟩

theorem glibcHwcapsPrioritiesInit_sample :
    ∃ values, (∀ fuel, 3 < fuel → glibcHwcapsPrioritiesInit sampleCache [⟨[98], 7⟩] true fuel
        (some [0, 2]) ⟨0, []⟩ = some ⟨2, values⟩) ∧ values = [0, 7] := by
  have hends : Ends sampleCache [0, 2] [⟨[98], 7⟩] :=
    .inr ⟨by decide, [97], by decide, .inr ⟨by decide, [98], by decide, trivial⟩⟩
  obtain ⟨values, hrun, -, hvalues⟩ := (@glibcHwcapsPrioritiesInit_iff sampleCache [0, 2]
    [⟨[98], 7⟩] (by decide) true ⟨0, []⟩ fun _ => rfl).2 hends
  exact ⟨values, hrun, hvalues (by simp [Ascending]; decide) (by simp [Ascending]) (by decide)⟩

/-- **An index outside of the file**, whatever the file is, is not passed over, and the loop does
not end. -/
theorem glibcHwcapsPrioritiesInit_outside : ∃ right, ∀ cache fuel p,
    glibcHwcapsPrioritiesInit cache right true fuel (some [cache.cachesize]) p = none := by
  refine ⟨[⟨[98], 7⟩], fun cache fuel p => ?_⟩
  have hends : ¬ Ends cache [cache.cachesize] [⟨[98], 7⟩] := by
    rintro (hnil | ⟨hlt, -⟩)
    · cases hnil
    · exact Nat.lt_irrefl _ hlt
  rw [glibcHwcapsPrioritiesInit, if_neg (fun h => Bool.noConfusion h.2), mergeLoop_eq_none hends]
  rfl

end SafeLibc.Ldso.HwcapsCache
