import SafeLibc.Catgets.Reader
import Mathlib.Order.Interval.Finset.Nat

/-!
# catgets: which bytes of the file are read

`__open_catalog` compares the size of the file with a sum in which the words of the tables count as
bytes, after it has read a table; and it does not look at the dimensions. So a file it accepts need
not hold the table that `catgets` probes (`readsInside_empty_planes`).

`StaysInside` says of the bytes of a file when all reads are in it (`readsInside_iff`). A file
without planes is probed as if it had one.
-/

namespace SafeLibc.Catgets.Libc

open SafeLibc.Lib

/-- The dimensions in the header, where the magic number is right in one of the byte orders. -/
def dimensions (order : ByteOrder) (file : List UInt8) : Option (Nat × Nat) :=
  match readNat order 4 file 0, readNat order 4 file 4, readNat order 4 file 8 with
  | some magic, some planeSize, some planeDepth =>
    if magic = catgetsMagic then some (planeSize, planeDepth)
    else if magic = swapBytes 4 catgetsMagic then
      some (swapBytes 4 planeSize, swapBytes 4 planeDepth)
    else none
  | _, _, _ => none

/-- No read of `__open_catalog`, and no read of a later `catgets` or of the text it returns, is
outside the file. -/
def ReadsInside (order : ByteOrder) (file : List UInt8) : Prop :=
  openCatalog order file ≠ .fault ∧
    ∀ info, openCatalog order file = .opened info →
      ∀ set message : Int, -2 ^ 31 ≤ set → set < 2 ^ 31 → -2 ^ 31 ≤ message → message < 2 ^ 31 →
        catgetsText order file info set message ≠ none

def tableAt (order : ByteOrder) (planeSize planeDepth : Nat) : Nat :=
  namePtr order (planeSize * planeDepth * 3)

def textsAt (planeSize planeDepth : Nat) : Nat :=
  headerSize + 4 * (planeSize * planeDepth * 3 * 2)

/-- A NUL follows the start of the text. -/
def Closed (file : List UInt8) (strings offset : Nat) : Prop := 0 ∈ file.drop (strings + offset)

instance (file : List UInt8) (strings offset : Nat) : Decidable (Closed file strings offset) :=
  inferInstanceAs (Decidable (0 ∈ _))

theorem closed_iff {file : List UInt8} {strings offset : Nat} :
    Closed file strings offset ↔ ∃ pos ≥ strings + offset, file[pos]? = some 0 := by
  unfold Closed
  rw [List.mem_iff_getElem?]
  constructor
  · rintro ⟨i, hi⟩
    rw [List.getElem?_drop] at hi
    exact ⟨strings + offset + i, Nat.le_add_right _ _, hi⟩
  · rintro ⟨pos, hle, hnul⟩
    refine ⟨pos - (strings + offset), ?_⟩
    rw [List.getElem?_drop, Nat.add_sub_cancel' hle, hnul]

theorem Closed.mono {file : List UInt8} {strings offset largest : Nat} (hle : offset ≤ largest)
    (h : Closed file strings largest) : Closed file strings offset := by
  obtain ⟨pos, hpos, hnul⟩ := closed_iff.1 h
  exact closed_iff.2 ⟨pos, by omega, hnul⟩

/-- A catalog with a plane whose tables are in the file, and with a NUL after the start of every
text. -/
structure Enclosed (order : ByteOrder) (file : List UInt8) (planeSize planeDepth : Nat) : Prop where
  size_pos : 0 < planeSize
  depth_pos : 0 < planeDepth
  tables_le : textsAt planeSize planeDepth ≤ file.length
  text_closed : ∀ k < planeSize * planeDepth, ∀ offset,
    name order file (tableAt order planeSize planeDepth) (3 * k + 2) = some offset →
      Closed file (textsAt planeSize planeDepth) offset

/-- `tab_size`, the words of a table as a `size_t`. -/
def tabSize (planeSize planeDepth : Nat) : Nat := 3 * planeSize * planeDepth % 2 ^ 64

/-- The offsets among which `__open_catalog` looks for the largest one. -/
def Mentioned (order : ByteOrder) (file : List UInt8) (words offset : Nat) : Prop :=
  offset = 0 ∨
    ∃ k, 3 * k + 2 < words ∧ name order file (namePtr order words) (3 * k + 2) = some offset

/-- The row of the table in which `catgets` looks for a message. -/
def hashRow (planeSize set message : Nat) : Nat :=
  (((set : Int) * message).bmod (2 ^ 32) % 2 ^ 64).toNat % planeSize

/-- What `catgets` reads of the plane that it probes when there is none. -/
def FirstPlane (order : ByteOrder) (file : List UInt8) (planeSize : Nat) : Prop :=
  ∀ set message : Nat, 0 < set → set < 2 ^ 31 → message < 2 ^ 31 →
    ∃ s, name order file headerSize (hashRow planeSize set message * 3) = some s ∧ (s = set →
      ∃ m, name order file headerSize (hashRow planeSize set message * 3 + 1) = some m ∧
        (m = message →
        ∃ offset, name order file headerSize (hashRow planeSize set message * 3 + 2) = some offset ∧
          Closed file headerSize offset))

/-- The bytes of the file for which all reads are inside. The three outcomes: the file is too short
for what the size check counts; it has neither a table nor a NUL; it is accepted. -/
structure StaysInside (order : ByteOrder) (file : List UInt8) (planeSize planeDepth : Nat) :
    Prop where
  table_le : ∀ k, 3 * k + 2 < tabSize planeSize planeDepth →
    namePtr order (tabSize planeSize planeDepth) + 4 * (3 * k + 2) + 4 ≤ file.length
  outcome :
    (∃ offset, Mentioned order file (tabSize planeSize planeDepth) offset ∧
      file.length ≤ headerSize + 2 * tabSize planeSize planeDepth + offset) ∨
    (tabSize planeSize planeDepth = 0 ∧ 0 ∉ file.drop headerSize) ∨
    0 < planeSize ∧ (0 < planeDepth ∧ 3 * planeSize * planeDepth < 2 ^ 64 ∨
        planeDepth = 0 ∧ FirstPlane order file planeSize) ∧
      ∀ offset, Mentioned order file (tabSize planeSize planeDepth) offset →
        Closed file (headerSize + 8 * tabSize planeSize planeDepth) offset

/-! ## The table -/

variable {file : List UInt8} {order : ByteOrder} {planeSize planeDepth j : Nat}

theorem name_eq_some {namePtr : Nat} (h : namePtr + 4 * j + 4 ≤ file.length) :
    ∃ word, name order file namePtr j = some word := by
  rw [name, readNat, if_pos h]
  exact ⟨_, rfl⟩

theorem Enclosed.name_eq_some (h : Enclosed order file planeSize planeDepth)
    (hj : j < planeSize * planeDepth * 3) :
    ∃ word, name order file (tableAt order planeSize planeDepth) j = some word := by
  have hle := h.tables_le
  apply Libc.name_eq_some
  simp only [textsAt] at hle
  cases order with
  | little | big =>
    simp only [tableAt, namePtr]
    omega

theorem cString_ne_none {strings offset : Nat} (h : Closed file strings offset) :
    cString file (strings + offset) ≠ none := by
  unfold Closed at h
  rw [cString, if_pos h]
  exact Option.some_ne_none _

/-! ## Searching -/

section Search

variable {name : Nat → Option Nat} {planeSize set message cells : Nat} {P : Nat → Prop}

/-- One cell of the table: the search ends there with the offset of its text, or goes on. -/
theorem compareName_cases {k : Nat} (next : Option (Option Nat))
    (hname : ∀ j < cells * 3, ∃ word, name j = some word)
    (htext : ∀ i < cells, ∀ offset, name (3 * i + 2) = some offset → P offset) (hk : k < cells) :
    compareName name set message (k * 3) next = next ∨
      ∃ offset, compareName name set message (k * 3) next = some (some offset) ∧ P offset := by
  obtain ⟨s, hs⟩ := hname (k * 3) (by omega)
  obtain ⟨m, hm⟩ := hname (k * 3 + 1) (by omega)
  obtain ⟨offset, hoffset⟩ := hname (k * 3 + 2) (by omega)
  simp only [compareName, hs, hm, hoffset]
  split
  · split
    · right
      refine ⟨offset, rfl, htext k hk offset ?_⟩
      rwa [mul_comm 3 k]
    · exact .inl rfl
  · exact .inl rfl

/-- The search stays in the table: with `planes` more planes, each of its cells is one of the
table's. -/
theorem searchNames_cases (hname : ∀ j < cells * 3, ∃ word, name j = some word)
    (htext : ∀ i < cells, ∀ offset, name (3 * i + 2) = some offset → P offset)
    (planes k : Nat) (hk : k + planes * planeSize < cells) :
    searchNames name planeSize set message planes (k * 3) = some none ∨
      ∃ offset, searchNames name planeSize set message planes (k * 3) = some (some offset) ∧
        P offset := by
  induction planes generalizing k with
  | zero =>
    exact compareName_cases _ hname htext (by omega)
  | succ planes ih =>
    rw [add_mul] at hk
    rw [searchNames, ← add_mul]
    rcases compareName_cases (searchNames name planeSize set message planes ((k + planeSize) * 3))
      hname htext (show k < cells by omega) with hnext | hfound
    · rw [hnext]
      exact ih (k + planeSize) (by omega)
    · exact .inr hfound

end Search

theorem Enclosed.catgetsText_ne_none (h : Enclosed order file planeSize planeDepth)
    (set message : Int) :
    catgetsText order file ⟨planeSize, planeDepth, tableAt order planeSize planeDepth,
      textsAt planeSize planeDepth⟩ set message ≠ none := by
  have hsize := h.size_pos
  -- the last plane that is probed starts in row `planeDepth - 1`
  have hlast : ∀ r < planeSize, r + (planeDepth - 1) * planeSize < planeSize * planeDepth := by
    intro r hr
    obtain ⟨depth, rfl⟩ := Nat.exists_eq_add_of_lt h.depth_pos
    rw [zero_add, Nat.add_sub_cancel, mul_add, mul_comm depth]
    omega
  unfold catgetsText catgets
  dsimp only
  by_cases hcaller : (set + 1).bmod (2 ^ 32) ≤ 0 ∨ message < 0
  · rw [if_pos hcaller]
    exact Option.some_ne_none _
  · rw [if_neg hcaller, if_neg (Nat.ne_of_gt hsize)]
    have hrow := hlast _ (Nat.mod_lt ((((set + 1).bmod (2 ^ 32) * message).bmod (2 ^ 32)) %
      2 ^ 64).toNat hsize)
    rcases searchNames_cases
      (P := Closed file (textsAt planeSize planeDepth)) (fun j hj => h.name_eq_some hj)
      (fun k hk => h.text_closed k hk) (planeDepth - 1) _ hrow with hnone | ⟨offset, hsome, hclosed⟩
    · rw [hnone]
      exact Option.some_ne_none _
    · rw [hsome]
      simpa using cString_ne_none hclosed

/-! ## Opening -/

theorem openCatalog_eq_openTables (h : dimensions order file = some (planeSize, planeDepth)) :
    openCatalog order file = openTables order file planeSize planeDepth := by
  unfold dimensions at h
  unfold openCatalog
  cases hmagic : readNat order 4 file 0 with
  | none => simp [hmagic] at h
  | some magic =>
    cases hsize : readNat order 4 file 4 with
    | none => simp [hsize] at h
    | some size =>
      cases hdepth : readNat order 4 file 8 with
      | none => simp [hsize, hdepth] at h
      | some depth =>
        have hheader : ¬file.length < headerSize := by
          intro hlt
          rw [readNat, if_neg (by rw [headerSize] at hlt; omega)] at hdepth
          cases hdepth
        rw [hmagic, hsize, hdepth] at h
        simp only [hheader, ↓reduceIte]
        dsimp only at h
        split at h
        · next hnative =>
          obtain ⟨rfl, rfl⟩ := Prod.mk.inj (Option.some.inj h)
          rw [if_pos hnative]
        · next hother =>
          split at h
          · next hswapped =>
            obtain ⟨rfl, rfl⟩ := Prod.mk.inj (Option.some.inj h)
            rw [if_neg hother, if_pos hswapped]
          · cases h

theorem openCatalog_eq_failed (h : dimensions order file = none) :
    openCatalog order file = .failed := by
  unfold openCatalog
  split
  · rfl
  · next hheader =>
    rw [headerSize] at hheader
    unfold dimensions at h
    simp only [readNat, if_pos (show 0 + 4 ≤ file.length by omega),
      if_pos (show 4 + 4 ≤ file.length by omega), if_pos (show 8 + 4 ≤ file.length by omega)] at h ⊢
    split at h
    · cases h
    · next hnative =>
      split at h
      · cases h
      · next hswapped => rw [if_neg hnative, if_neg hswapped]

theorem swapBytes_four_lt (n : Nat) : swapBytes 4 n < 2 ^ 32 := by
  have h := beNat_lt (leBytes 4 n)
  rwa [length_leBytes] at h

theorem dimensions_lt (h : dimensions order file = some (planeSize, planeDepth)) :
    planeSize < 2 ^ 32 ∧ planeDepth < 2 ^ 32 := by
  unfold dimensions at h
  split at h
  · next hsize hdepth =>
    split at h
    · obtain ⟨rfl, rfl⟩ := Prod.mk.inj (Option.some.inj h)
      exact ⟨readNat_lt hsize, readNat_lt hdepth⟩
    · split at h
      · obtain ⟨rfl, rfl⟩ := Prod.mk.inj (Option.some.inj h)
        exact ⟨swapBytes_four_lt _, swapBytes_four_lt _⟩
      · cases h
  · cases h

theorem Mentioned.lt {words offset : Nat} (h : Mentioned order file words offset) :
    offset < 2 ^ 32 := by
  rcases h with rfl | ⟨k, -, hk⟩
  · decide
  · exact readNat_lt hk

section Open

variable (hfile : file.length < 2 ^ 63)
  (htable : ∀ k, 3 * k + 2 < tabSize planeSize planeDepth →
    namePtr order (tabSize planeSize planeDepth) + 4 * (3 * k + 2) + 4 ≤ file.length)

include htable

theorem exists_mentioned (k : Nat) (hk : 3 * k + 2 < tabSize planeSize planeDepth) :
    ∃ offset, name order file (namePtr order (tabSize planeSize planeDepth)) (3 * k + 2) =
      some offset ∧
      Mentioned order file (tabSize planeSize planeDepth) offset := by
  obtain ⟨offset, hoffset⟩ := Libc.name_eq_some (htable k hk)
  exact ⟨offset, hoffset, .inr ⟨k, hk, hoffset⟩⟩

include hfile

/-- The table that is read is in the file, so no sum with its size wraps around. -/
theorem tabSize_lt : tabSize planeSize planeDepth < 2 ^ 61 + 3 := by
  by_contra hlarge
  have hlast := htable ((tabSize planeSize planeDepth - 3) / 3) (by omega)
  omega

/-- What `__open_catalog` does once the table is in the file. -/
theorem openTables_eq : ∃ largest, Mentioned order file (tabSize planeSize planeDepth) largest ∧
    (∀ offset, Mentioned order file (tabSize planeSize planeDepth) offset → offset ≤ largest) ∧
    openTables order file planeSize planeDepth =
      if file.length ≤ headerSize + 2 * tabSize planeSize planeDepth + largest then .failed
      else if Closed file (headerSize + 8 * tabSize planeSize planeDepth) largest then
        .opened ⟨planeSize, planeDepth, namePtr order (tabSize planeSize planeDepth),
          headerSize + 8 * tabSize planeSize planeDepth⟩
      else if tabSize planeSize planeDepth = 0 then .failed else .fault := by
  have hsmall := tabSize_lt hfile htable
  have hwords : planeSize * planeDepth * 3 % 2 ^ 64 = tabSize planeSize planeDepth := by
    rw [tabSize, mul_comm _ 3, mul_assoc]
  have hboth : planeSize * planeDepth * 3 * 2 % 2 ^ 64 = 2 * tabSize planeSize planeDepth := by
    omega
  obtain ⟨largest, hlargest, hmentioned⟩ := maxOffset_spec
    (P := Mentioned order file (tabSize planeSize planeDepth))
      (exists_mentioned htable) 0 (.inl rfl)
  have hmax : ∀ offset, Mentioned order file (tabSize planeSize planeDepth) offset →
      offset ≤ largest := by
    rintro offset (rfl | ⟨k, hk, hoffset⟩)
    · exact Nat.zero_le _
    · obtain ⟨offset', hoffset', hle⟩ := (maxOffset_ge 0 hlargest).2 k (Nat.zero_le _) hk
      rw [hoffset] at hoffset'
      rwa [Option.some.inj hoffset']
  have hlt := hmentioned.lt
  refine ⟨largest, hmentioned, hmax, ?_⟩
  unfold openTables
  simp only [hwords, hboth]
  rw [show 3 * planeSize * planeDepth % 2 ^ 64 = tabSize planeSize planeDepth from rfl, hlargest]
  clear hwords hboth hlargest htable hmax
  generalize tabSize planeSize planeDepth = words at hsmall hmentioned ⊢
  have hzero : words = 0 → largest = 0 := by
    rintro rfl
    rcases hmentioned with h | ⟨k, hk, -⟩
    · exact h
    · omega
  have hsum : (headerSize + 2 * words + largest) % 2 ^ 64 = headerSize + 2 * words + largest :=
    Nat.mod_eq_of_lt (by rw [headerSize]; omega)
  have hbudget : (file.length - headerSize + 2 * words + largest) % 2 ^ 64 =
      file.length - headerSize + 2 * words + largest := Nat.mod_eq_of_lt (by omega)
  have hstrings : headerSize + 4 * (2 * words) = headerSize + 8 * words := by omega
  simp only [hsum, hbudget, hstrings]
  split
  · rfl
  · next hroom =>
    rw [headerSize] at hroom
    by_cases hclosed : Closed file (headerSize + 8 * words) largest
    · obtain ⟨pos, hpos, hnul⟩ := closed_iff.1 hclosed
      have hin := (List.getElem?_eq_some_iff.1 hnul).1
      have hscan : nulTerminated file (headerSize + 8 * words + largest)
          (file.length - headerSize + 2 * words + largest) = some true := by
        rw [headerSize] at hpos ⊢
        exact nulTerminated_eq_true hnul (Nat.add_sub_cancel' hpos) (by omega) (by omega)
      simp only [hclosed, hscan, if_true]
    · have hopen : ∀ pos ≥ headerSize + 8 * words + largest, file[pos]? ≠ some 0 :=
        fun pos hpos hnul => hclosed (closed_iff.2 ⟨pos, hpos, hnul⟩)
      rw [if_neg hclosed, nulTerminated_of_no_nul hopen (by rw [headerSize]; omega) (by omega)]
      by_cases hnone : words = 0
      · have := hzero hnone
        rw [if_pos (by rw [headerSize]; omega), if_pos hnone]
      · rw [if_neg (by rw [headerSize]; omega), if_neg hnone]

end Open

/-! ## Accepted files -/

/-- The words that a search in one row reads before it leaves the table. -/
theorem searchNames_eq_none {name : Nat → Option Nat} {set message planes idx : Nat}
    (hother : ∀ i ≤ planes, name (idx + i * (planeSize * 3)) ≠ some set)
    (hend : ∃ i ≤ planes, name (idx + i * (planeSize * 3)) = none) :
    searchNames name planeSize set message planes idx = none := by
  induction planes generalizing idx with
  | zero =>
    obtain ⟨i, hi, hnone⟩ := hend
    obtain rfl : i = 0 := by omega
    rw [zero_mul, add_zero] at hnone
    rw [searchNames, compareName, hnone]
  | succ planes ih =>
    rw [searchNames, compareName]
    have hfirst := hother 0 (Nat.zero_le _)
    rw [zero_mul, add_zero] at hfirst
    have hshift :
        ∀ i, idx + planeSize * 3 + i * (planeSize * 3) = idx + (i + 1) * (planeSize * 3) :=
      fun i => by rw [add_mul, one_mul, add_assoc, add_comm (planeSize * 3)]
    cases hname : name idx with
    | none => rfl
    | some s =>
      have hne : s ≠ set := fun h => hfirst (h ▸ hname)
      simp only [hne, if_false]
      apply ih
      · intro i hi
        rw [hshift]
        exact hother (i + 1) (by omega)
      · obtain ⟨i, hi, hnone⟩ := hend
        cases i with
        | zero =>
          rw [zero_mul, add_zero, hname] at hnone
          cases hnone
        | succ i => exact ⟨i, by omega, by rw [hshift]; exact hnone⟩

/-- A lookup of a set and a message starts in their row. -/
theorem catgets_eq_searchNames {info : CatalogInfo} (hsize : 0 < info.planeSize) {set message : Nat}
    (hset : 0 < set) (hset' : set < 2 ^ 31) :
    catgets order file info ((set : Int) - 1) message =
      (searchNames (name order file info.namePtr) info.planeSize set message (info.planeDepth - 1)
        (hashRow info.planeSize set message * 3)).map (Option.map (info.strings + ·)) := by
  have hnumber : ((set : Int) - 1 + 1).bmod (2 ^ 32) = set := by
    rw [Int.bmod_eq_of_le (by omega) (by omega)]
    omega
  unfold catgets hashRow
  simp only [hnumber, Int.toNat_natCast]
  rw [if_neg (by omega), if_neg (by omega)]

theorem hashRow_zero (planeSize set : Nat) : hashRow planeSize set 0 = 0 := by
  simp [hashRow]

/-- Where the product wraps around, some set is not in row 0, and the search for its message 0 goes
on behind the file. -/
theorem exists_catgetsText_eq_none (hfile : file.length < 2 ^ 63) (hsize : planeSize < 2 ^ 32)
    (hdepth : planeDepth < 2 ^ 32) (hwrap : 2 ^ 64 ≤ 3 * planeSize * planeDepth)
    (table strings : Nat) : ∃ set : Nat, set < 2 ^ 31 ∧
      catgetsText order file ⟨planeSize, planeDepth, table, strings⟩ set 0 = none := by
  have hwide : 2 ^ 32 ≤ planeSize * 3 := by
    by_contra hnarrow
    have := Nat.mul_lt_mul_of_lt_of_le (show 3 * planeSize < 2 ^ 32 by omega) (Nat.le_of_lt hdepth)
      (by decide)
    omega
  -- fewer cells of the row are in the file than there are sets
  obtain ⟨set, hset, hunused⟩ :
      ∃ set ∈ Finset.Icc 1 (2 ^ 31 - 1), set ∉ (Finset.range (2 ^ 29)).image
      fun i => (name order file table (i * (planeSize * 3))).getD 0 := by
    apply Finset.exists_mem_notMem_of_card_lt_card
    refine Nat.lt_of_le_of_lt Finset.card_image_le ?_
    rw [Finset.card_range, Nat.card_Icc]
    omega
  rw [Finset.mem_Icc] at hset
  refine ⟨set - 1, by omega, ?_⟩
  have hother : ∀ i ≤ planeDepth - 1,
      name order file table (0 + i * (planeSize * 3)) ≠ some set := by
    intro i _ hname
    rw [zero_add] at hname
    have hin : table + 4 * (i * (planeSize * 3)) + 4 ≤ file.length := by
      unfold name readNat at hname
      split at hname
      · assumption
      · cases hname
    have hi : i * 2 ^ 32 ≤ i * (planeSize * 3) := Nat.mul_le_mul_left i hwide
    refine hunused (Finset.mem_image.2 ⟨i, Finset.mem_range.2 (by omega), ?_⟩)
    rw [hname, Option.getD_some]
  have hend : name order file table (0 + (planeDepth - 1) * (planeSize * 3)) = none := by
    have hlast :
        3 * planeSize * planeDepth = (planeDepth - 1) * (planeSize * 3) + planeSize * 3 := by
      obtain ⟨depth, rfl⟩ : ∃ depth, planeDepth = depth + 1 :=
        Nat.exists_eq_succ_of_ne_zero (by rintro rfl; omega)
      rw [Nat.add_sub_cancel]
      ring
    rw [name, readNat, if_neg (by omega)]
  have hnumber : ((set - 1 : Nat) : Int) = (set : Int) - 1 := by omega
  have hcatgets : catgets order file ⟨planeSize, planeDepth, table, strings⟩ ((set : Int) - 1)
      ((0 : Nat) : Int) = none := by
    rw [catgets_eq_searchNames (show 0 < planeSize by omega) (by omega) (by omega), hashRow_zero,
      zero_mul, searchNames_eq_none hother ⟨planeDepth - 1, le_refl _, hend⟩, Option.map_none]
  rw [hnumber]
  unfold catgetsText
  rw [← Int.natCast_zero, hcatgets]

/-- What one cell has to hold for a lookup that only reads this cell. -/
theorem catgetsText_of_cell {info : CatalogInfo} {n m : Int} {name : Nat → Option Nat}
    {strings set message idx : Nat}
    (hcatgets : catgets order file info n m =
      (compareName name set message idx (some none)).map (Option.map (strings + ·))) :
    catgetsText order file info n m ≠ none ↔
      ∃ s, name idx = some s ∧ (s = set → ∃ m, name (idx + 1) = some m ∧ (m = message →
        ∃ offset, name (idx + 2) = some offset ∧ Closed file strings offset)) := by
  unfold catgetsText
  rw [hcatgets, compareName]
  cases hs : name idx with
  | none => simp
  | some s =>
    by_cases hsame : s = set
    · cases hm : name (idx + 1) with
      | none => simp [hsame]
      | some m =>
        by_cases hmessage : m = message
        · cases hoffset : name (idx + 2) with
          | none => simp [hsame, hmessage]
          | some offset =>
            by_cases hclosed : Closed file strings offset
            · simpa [hsame, hmessage, hclosed] using cString_ne_none hclosed
            · have hrun : cString file (strings + offset) = none := if_neg hclosed
              simp [hsame, hmessage, hclosed, hrun]
        · simp [hsame, hmessage]
    · simp [hsame]

/-- A file without planes is searched in the cells that would be its first plane. -/
theorem catgetsText_firstPlane (hsize : 0 < planeSize) {set message : Nat} (hset : 0 < set)
    (hset' : set < 2 ^ 31) :
    catgetsText order file ⟨planeSize, 0, headerSize, headerSize⟩ ((set : Int) - 1) message ≠ none ↔
      ∃ s, name order file headerSize (hashRow planeSize set message * 3) = some s ∧ (s = set →
        ∃ m, name order file headerSize (hashRow planeSize set message * 3 + 1) = some m ∧
          (m = message →
            ∃ offset, name order file headerSize (hashRow planeSize set message * 3 + 2) =
              some offset ∧
              Closed file headerSize offset)) := by
  have hcatgets :
      catgets order file ⟨planeSize, 0, headerSize, headerSize⟩ ((set : Int) - 1) message =
      (compareName (name order file headerSize) set message (hashRow planeSize set message * 3)
        (some none)).map (Option.map (headerSize + ·)) := by
    rw [catgets_eq_searchNames hsize hset hset', Nat.zero_sub, searchNames]
  exact catgetsText_of_cell hcatgets

theorem catgetsText_noPlanes (hsize : 0 < planeSize) :
    (∀ set message : Int, -2 ^ 31 ≤ set → set < 2 ^ 31 → -2 ^ 31 ≤ message → message < 2 ^ 31 →
      catgetsText order file ⟨planeSize, 0, headerSize, headerSize⟩ set message ≠ none) ↔
      FirstPlane order file planeSize := by
  constructor
  · intro h set message hset hset' hmessage
    exact (catgetsText_firstPlane hsize hset hset').1
      (h (set - 1) message (by omega) (by omega) (by omega) (by omega))
  · intro h set message hlow hhigh _ hmessage
    by_cases hcaller : (set + 1).bmod (2 ^ 32) ≤ 0 ∨ message < 0
    · unfold catgetsText catgets
      simp only [if_pos hcaller]
      exact Option.some_ne_none _
    · -- the caller's numbers are those of a set and a message
      rw [not_or, not_le, not_lt] at hcaller
      have hset : 0 < set + 1 ∧ set + 1 < 2 ^ 31 := by
        rw [Int.bmod_def] at hcaller
        omega
      obtain ⟨n, hn⟩ := Int.eq_ofNat_of_zero_le (Int.le_of_lt hset.1)
      obtain ⟨m, rfl⟩ := Int.eq_ofNat_of_zero_le hcaller.2
      obtain rfl : set = (n : Int) - 1 := by omega
      exact (catgetsText_firstPlane hsize (by omega) (by omega)).2
        (h n m (by omega) (by omega) (by omega))

theorem catgetsText_planeSize_zero {info : CatalogInfo} (hsize : info.planeSize = 0) :
    catgetsText order file info 0 0 = none := by
  have hcatgets : catgets order file info 0 0 = none := by
    unfold catgets
    rw [if_neg (by decide), if_pos hsize]
  unfold catgetsText
  rw [hcatgets]

theorem namePtr_zero (order : ByteOrder) : namePtr order 0 = headerSize := by
  cases order <;> rfl

theorem table_le_of_openTables (h : openTables order file planeSize planeDepth ≠ .fault) (k : Nat)
    (hk : 3 * k + 2 < tabSize planeSize planeDepth) :
    namePtr order (tabSize planeSize planeDepth) + 4 * (3 * k + 2) + 4 ≤ file.length := by
  have hwords : planeSize * planeDepth * 3 % 2 ^ 64 = tabSize planeSize planeDepth := by
    rw [tabSize, mul_comm _ 3, mul_assoc]
  unfold openTables at h
  simp only [hwords] at h
  rw [show 3 * planeSize * planeDepth % 2 ^ 64 = tabSize planeSize planeDepth from rfl] at h
  split at h
  · exact absurd rfl h
  · next largest hlargest =>
    obtain ⟨offset, hoffset, -⟩ := (maxOffset_ge 0 hlargest).2 k (Nat.zero_le _) hk
    unfold name readNat at hoffset
    split at hoffset
    · assumption
    · cases hoffset

theorem Enclosed.of_closed (hsize : 0 < planeSize) (hdepth : 0 < planeDepth)
    (hwords : tabSize planeSize planeDepth = planeSize * planeDepth * 3)
    (hclosed : ∀ offset, Mentioned order file (tabSize planeSize planeDepth) offset →
      Closed file (headerSize + 8 * tabSize planeSize planeDepth) offset) :
    Enclosed order file planeSize planeDepth := by
  have htexts : headerSize + 8 * tabSize planeSize planeDepth = textsAt planeSize planeDepth := by
    rw [hwords, textsAt]
    omega
  rw [htexts, hwords] at hclosed
  refine ⟨hsize, hdepth, ?_,
    fun k hk offset hoffset => hclosed offset (.inr ⟨k, by omega, hoffset⟩)⟩
  obtain ⟨pos, hpos, hnul⟩ := closed_iff.1 (hclosed 0 (.inl rfl))
  have hin := (List.getElem?_eq_some_iff.1 hnul).1
  omega

theorem staysInside_of_readsInside (hfile : file.length < 2 ^ 63)
    (hdims : dimensions order file = some (planeSize, planeDepth)) (h : ReadsInside order file) :
    StaysInside order file planeSize planeDepth := by
  have hbounds := dimensions_lt hdims
  rw [ReadsInside, openCatalog_eq_openTables hdims] at h
  obtain ⟨hfault, hcatgets⟩ := h
  have htable := table_le_of_openTables hfault
  refine ⟨htable, ?_⟩
  obtain ⟨largest, hmentioned, hmax, heq⟩ := openTables_eq hfile htable
  rw [heq] at hfault hcatgets
  by_cases hshort : file.length ≤ headerSize + 2 * tabSize planeSize planeDepth + largest
  · exact .inl ⟨largest, hmentioned, hshort⟩
  · rw [if_neg hshort] at hfault hcatgets
    by_cases hclosed : Closed file (headerSize + 8 * tabSize planeSize planeDepth) largest
    · rw [if_pos hclosed] at hcatgets
      have hall := fun offset h => hclosed.mono (hmax offset h)
      have hlookup := hcatgets _ rfl
      have hsize : 0 < planeSize := by
        by_contra hzero
        exact hlookup 0 0 (by decide) (by decide) (by decide) (by decide)
          (catgetsText_planeSize_zero (Nat.eq_zero_of_not_pos hzero))
      refine .inr (.inr ⟨hsize, ?_, hall⟩)
      rcases Nat.eq_zero_or_pos planeDepth with rfl | hdepth
      · have hnone : tabSize planeSize 0 = 0 := rfl
        rw [hnone, namePtr_zero] at hlookup
        exact .inr ⟨rfl, (catgetsText_noPlanes hsize).1 hlookup⟩
      · refine .inl ⟨hdepth, ?_⟩
        by_contra hwrap
        obtain ⟨set, hset, hnone⟩ := exists_catgetsText_eq_none hfile hbounds.1 hbounds.2
          (not_lt.1 hwrap) _ _
        exact hlookup set 0 (by omega) (by omega) (by decide) (by decide) hnone
    · rw [if_neg hclosed] at hfault
      have hzero : tabSize planeSize planeDepth = 0 := by
        by_contra hne
        exact hfault (if_neg hne)
      refine .inr (.inl ⟨hzero, fun hnul => hclosed ?_⟩)
      have hnone : largest = 0 := by
        rcases hmentioned with h | ⟨k, hk, -⟩
        · exact h
        · omega
      rwa [Closed, hzero, hnone]

theorem StaysInside.readsInside (hfile : file.length < 2 ^ 63)
    (hdims : dimensions order file = some (planeSize, planeDepth))
    (h : StaysInside order file planeSize planeDepth) : ReadsInside order file := by
  obtain ⟨htable, houtcome⟩ := h
  rw [ReadsInside, openCatalog_eq_openTables hdims]
  obtain ⟨largest, hmentioned, hmax, heq⟩ := openTables_eq hfile htable
  rw [heq]
  by_cases hshort : file.length ≤ headerSize + 2 * tabSize planeSize planeDepth + largest
  · rw [if_pos hshort]
    exact ⟨by simp, by simp⟩
  · rw [if_neg hshort]
    rcases houtcome with ⟨offset, hoffset, hle⟩ | ⟨hzero, hnul⟩ | ⟨hsize, hplanes, hall⟩
    · have := hmax offset hoffset
      omega
    · have hopen : ¬Closed file (headerSize + 8 * tabSize planeSize planeDepth) largest := by
        intro hclosed
        apply hnul
        have := hclosed.mono (Nat.zero_le _)
        rwa [Closed, hzero] at this
      rw [if_neg hopen, if_pos hzero]
      exact ⟨by simp, by simp⟩
    · rw [if_pos (hall largest hmentioned)]
      refine ⟨by simp, ?_⟩
      rintro info ⟨⟩ set message hlow hhigh hlow' hhigh'
      rcases hplanes with ⟨hdepth, hwrap⟩ | ⟨rfl, hfirst⟩
      · have hwords : tabSize planeSize planeDepth = planeSize * planeDepth * 3 := by
          rw [tabSize, Nat.mod_eq_of_lt hwrap, mul_assoc, mul_comm]
        have henclosed := Enclosed.of_closed hsize hdepth hwords hall
        have htext := henclosed.catgetsText_ne_none set message
        rwa [tableAt, textsAt, ← hwords, show 4 * (tabSize planeSize planeDepth * 2) =
          8 * tabSize planeSize planeDepth by omega] at htext
      · have hnone : tabSize planeSize 0 = 0 := rfl
        rw [hnone, namePtr_zero]
        exact (catgetsText_noPlanes hsize).2 hfirst set message hlow hhigh hlow' hhigh'

/-- **When all reads are inside the file.** The size is an `off_t`. -/
theorem readsInside_iff {order : ByteOrder} {file : List UInt8} (hfile : file.length < 2 ^ 63) :
    ReadsInside order file ↔ ∀ planeSize planeDepth,
      dimensions order file = some (planeSize, planeDepth) →
        StaysInside order file planeSize planeDepth := by
  cases hdims : dimensions order file with
  | none =>
    rw [ReadsInside, openCatalog_eq_failed hdims]
    simp
  | some dims =>
    constructor
    · rintro h _ _ ⟨⟩
      exact staysInside_of_readsInside hfile hdims h
    · exact fun h => (h dims.1 dims.2 rfl).readsInside hfile hdims

/-- A catalog of one plane with one empty text, which is message 1 of set 1. -/
def singleText : List UInt8 :=
  [catgetsMagic, 1, 1, 2, 1, 0, 0x02000000, 0x01000000, 0].flatMap (leBytes 4) ++ [0]

theorem readsInside_singleText : ReadsInside .little singleText := by
  refine (readsInside_iff (by decide +kernel)).2 fun planeSize planeDepth hdims => ?_
  have hone : dimensions .little singleText = some (1, 1) := by decide +kernel
  obtain ⟨rfl, rfl⟩ := Prod.mk.inj (Option.some.inj (hdims.symm.trans hone))
  refine ⟨fun k hk => ?_, .inr (.inr ⟨one_pos, .inl ⟨one_pos, by decide⟩, ?_⟩)⟩
  · obtain rfl : k = 0 := by
      change 3 * k + 2 < 3 at hk
      omega
    decide +kernel
  · rintro offset (rfl | ⟨k, hk, hoffset⟩)
    · decide +kernel
    · obtain rfl : k = 0 := by
        change 3 * k + 2 < 3 at hk
        omega
      have hzero :
          name .little singleText (namePtr .little (tabSize 1 1)) (3 * 0 + 2) = some 0 := by
        decide +kernel
      rw [← Option.some.inj (hzero.symm.trans hoffset)]
      decide +kernel

/-- A catalog of planes of size 1, but without a plane, and one NUL. -/
def emptyPlanes : List UInt8 := [catgetsMagic, 1, 0].flatMap (leBytes 4) ++ [0]

/-- **The checks are not enough**: a file without a plane is accepted and then read behind its
end. -/
theorem readsInside_empty_planes :
    openCatalog .little emptyPlanes = .opened ⟨1, 0, 12, 12⟩ ∧
      catgets .little emptyPlanes ⟨1, 0, 12, 12⟩ 1 1 = none ∧
      ¬ReadsInside .little emptyPlanes := by
  have hopen : openCatalog .little emptyPlanes = .opened ⟨1, 0, 12, 12⟩ := by decide +kernel
  have hread : catgets .little emptyPlanes ⟨1, 0, 12, 12⟩ 1 1 = none := by decide +kernel
  refine ⟨hopen, hread, ?_⟩
  intro hinside
  apply hinside.2 _ hopen 1 1 (by decide) (by decide) (by decide) (by decide)
  unfold catgetsText
  rw [hread]

end SafeLibc.Catgets.Libc
