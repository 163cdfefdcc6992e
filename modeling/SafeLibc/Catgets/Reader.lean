import SafeLibc.Lib.Bytes

/-!
# catgets: reading a catalog file

`__open_catalog`, once the file is mapped, and `catgets`, from `catgets/open_catalog.c` and
`catgets/catgets.c`. A machine is little or big endian. Pointers into the mapped file are positions,
`size_t` sums are modulo `2 ^ 64`, and a read outside the file is a fault.
-/

namespace SafeLibc.Catgets.Libc

open SafeLibc.Lib

structure CatalogInfo where
  planeSize : Nat
  planeDepth : Nat
  namePtr : Nat
  strings : Nat
  deriving DecidableEq, Repr

inductive OpenResult
  | fault
  | failed
  | opened (info : CatalogInfo)
  deriving DecidableEq, Repr

def catgetsMagic : Nat := 0x960408de

/-- The size of `struct catalog_obj`, before its tables. -/
def headerSize : Nat := 12

/-- The table in the machine's own byte order: the first one on a little endian machine. -/
def namePtr (order : ByteOrder) (words : Nat) : Nat :=
  match order with
  | .little => headerSize
  | .big => headerSize + 4 * words

def name (order : ByteOrder) (file : List UInt8) (namePtr j : Nat) : Option Nat :=
  readNat order 4 file (namePtr + 4 * j)

/-- The largest string offset mentioned in the table, from entry `cnt` on. -/
def maxOffset (name : Nat → Option Nat) (tabSize cnt largest : Nat) : Option Nat :=
  if cnt < tabSize then
    match name cnt with
    | none => none
    | some offset =>
      maxOffset name tabSize (cnt + 3) (if largest < offset then offset else largest)
  else some largest
termination_by tabSize - cnt

/-- Look for the NUL of the last string, in at most `budget` bytes. -/
def nulTerminated (file : List UInt8) (lastp budget : Nat) : Option Bool :=
  match _h : file[lastp]? with
  | none => none
  | some b =>
    if b = 0 then some true
    else
      let budget := (budget + (2 ^ 64 - 1)) % 2 ^ 64
      if budget = 0 then some false else nulTerminated file (lastp + 1) budget
termination_by file.length - lastp
decreasing_by
  have hlt := (List.getElem?_eq_some_iff.mp _h).1
  omega

def openTables (order : ByteOrder) (file : List UInt8) (planeSize planeDepth : Nat) : OpenResult :=
  let namePtr := namePtr order (planeSize * planeDepth * 3 % 2 ^ 64)
  let strings := headerSize + 4 * (planeSize * planeDepth * 3 * 2 % 2 ^ 64)
  let tabSize := 3 * planeSize * planeDepth % 2 ^ 64
  match maxOffset (name order file namePtr) tabSize 2 0 with
  | none => .fault
  | some largest =>
    if file.length ≤ (headerSize + 2 * tabSize + largest) % 2 ^ 64 then .failed
    else
      match nulTerminated file (strings + largest)
        ((file.length - headerSize + 2 * tabSize + largest) % 2 ^ 64) with
      | none => .fault
      | some false => .failed
      | some true => .opened ⟨planeSize, planeDepth, namePtr, strings⟩

def openCatalog (order : ByteOrder) (file : List UInt8) : OpenResult :=
  if file.length < headerSize then .failed
  else
    match readNat order 4 file 0, readNat order 4 file 4, readNat order 4 file 8 with
    | some magic, some planeSize, some planeDepth =>
      if magic = catgetsMagic then openTables order file planeSize planeDepth
      else if magic = swapBytes 4 catgetsMagic then
        openTables order file (swapBytes 4 planeSize) (swapBytes 4 planeDepth)
      else .failed
    | _, _, _ => .fault

/-- Compare one cell: the offset of its text, or what comes `next`. -/
def compareName (name : Nat → Option Nat) (set message idx : Nat) (next : Option (Option Nat)) :
    Option (Option Nat) :=
  match name idx with
  | none => none
  | some s =>
    if s = set then
      match name (idx + 1) with
      | none => none
      | some m => if m = message then (name (idx + 2)).map some else next
    else next

/-- The `do` loop of `catgets`, with the number of planes after this one. -/
def searchNames (name : Nat → Option Nat) (planeSize set message : Nat) :
    Nat → Nat → Option (Option Nat)
  | 0, idx => compareName name set message idx (some none)
  | planes + 1, idx =>
    compareName name set message idx
      (searchNames name planeSize set message planes (idx + planeSize * 3))

/-- The position of the text, or `some none` for the caller's own string. The product of the numbers
is an `int`. -/
def catgets (order : ByteOrder) (file : List UInt8) (info : CatalogInfo) (set message : Int) :
    Option (Option Nat) :=
  let set := (set + 1).bmod (2 ^ 32)
  if set ≤ 0 ∨ message < 0 then some none
  else if info.planeSize = 0 then none
  else
    let product := ((set * message).bmod (2 ^ 32)) % 2 ^ 64
    let idx := product.toNat % info.planeSize * 3
    (searchNames (name order file info.namePtr) info.planeSize set.toNat message.toNat
      (info.planeDepth - 1) idx).map (Option.map (info.strings + ·))

/-- The C string at a position; without a NUL, its reader runs off the file. -/
def cString (file : List UInt8) (pos : Nat) : Option (List UInt8) :=
  if 0 ∈ file.drop pos then some ((file.drop pos).takeWhile (· ≠ 0)) else none

/-- The text that `catgets` returns, or `some none` for the caller's own string. -/
def catgetsText (order : ByteOrder) (file : List UInt8) (info : CatalogInfo) (set message : Int) :
    Option (Option (List UInt8)) :=
  match catgets order file info set message with
  | none => none
  | some none => some none
  | some (some pos) => (cString file pos).map some

/-! ## The loops -/

theorem maxOffset_spec {name : Nat → Option Nat} {tabSize : Nat} {P : Nat → Prop}
    (h : ∀ k, 3 * k + 2 < tabSize → ∃ offset, name (3 * k + 2) = some offset ∧ P offset)
    (k : Nat) {largest : Nat} (hlargest : P largest) :
    ∃ offset, maxOffset name tabSize (3 * k + 2) largest = some offset ∧ P offset := by
  rw [maxOffset]
  by_cases hlt : 3 * k + 2 < tabSize
  · obtain ⟨offset, hoffset, hP⟩ := h k hlt
    rw [if_pos hlt, hoffset]
    exact maxOffset_spec h (k + 1) (by split <;> assumption)
  · exact ⟨largest, by rw [if_neg hlt], hlargest⟩
termination_by tabSize - 3 * k

/-- Every offset that the loop has read is at most the result. -/
theorem maxOffset_ge {name : Nat → Option Nat} {tabSize result : Nat} (k : Nat) {largest : Nat}
    (h : maxOffset name tabSize (3 * k + 2) largest = some result) :
    largest ≤ result ∧ ∀ j ≥ k, 3 * j + 2 < tabSize →
      ∃ offset, name (3 * j + 2) = some offset ∧ offset ≤ result := by
  rw [maxOffset] at h
  split at h
  · next hlt =>
    cases hoffset : name (3 * k + 2) with
    | none =>
      rw [hoffset] at h
      cases h
    | some offset =>
      rw [hoffset] at h
      obtain ⟨hle, hrest⟩ := maxOffset_ge (k + 1) h
      have hmax : largest ≤ result ∧ offset ≤ result := by
        split at hle <;> omega
      refine ⟨hmax.1, fun j hj hjlt => ?_⟩
      rcases Nat.eq_or_lt_of_le hj with rfl | hj
      · exact ⟨offset, hoffset, hmax.2⟩
      · exact hrest j hj hjlt
  · next hge =>
    obtain rfl := Option.some.inj h
    exact ⟨le_refl _, fun j hj hjlt => by omega⟩
termination_by tabSize - 3 * k

/-- A NUL at `pos`, `n` bytes on and within the budget, is found. -/
theorem nulTerminated_eq_true {file : List UInt8} {pos : Nat} (hnul : file[pos]? = some 0)
    {n lastp budget : Nat} (hpos : lastp + n = pos) (hbudget : n < budget)
    (hlt : budget < 2 ^ 64) : nulTerminated file lastp budget = some true := by
  induction n generalizing lastp budget with
  | zero =>
    rw [nulTerminated]
    split <;> simp_all
  | succ n ih =>
    have hin := (List.getElem?_eq_some_iff.mp hnul).1
    have hstep : (budget + (2 ^ 64 - 1)) % 2 ^ 64 = budget - 1 := by omega
    have hnext : nulTerminated file (lastp + 1) (budget - 1) = some true :=
      ih (by omega) (by omega) (by omega)
    rw [nulTerminated]
    split
    · next hnone =>
      rw [List.getElem?_eq_getElem (by omega)] at hnone
      cases hnone
    · simp only [hstep, hnext, show ¬budget - 1 = 0 by omega, if_false, ite_self]

/-- Without a NUL the scan ends with the budget, or leaves the file. -/
theorem nulTerminated_of_no_nul {file : List UInt8} {lastp budget : Nat}
    (hnul : ∀ pos ≥ lastp, file[pos]? ≠ some 0) (hbudget : 0 < budget) (hlt : budget < 2 ^ 64) :
    nulTerminated file lastp budget =
      if lastp + budget ≤ file.length then some false else none := by
  induction budget generalizing lastp with
  | zero => omega
  | succ budget ih =>
    have hstep : (budget + 1 + (2 ^ 64 - 1)) % 2 ^ 64 = budget := by omega
    rw [nulTerminated]
    split
    · next hnone =>
      have := List.getElem?_eq_none_iff.1 hnone
      rw [if_neg (by omega)]
    · next b hb =>
      have hin := (List.getElem?_eq_some_iff.1 hb).1
      rw [if_neg fun hzero : b = 0 => hnul lastp (le_refl _) (hzero ▸ hb)]
      simp only [hstep]
      split
      · rw [if_pos (by omega)]
      · rw [ih (fun pos hpos => hnul pos (by omega)) (by omega) (by omega)]
        simp only [Nat.add_assoc, Nat.add_comm 1]

end SafeLibc.Catgets.Libc
