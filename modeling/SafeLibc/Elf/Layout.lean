import SafeLibc.Lib.Bytes
import SafeLibc.Lib.Machine
import Mathlib.Data.List.ReduceOption

/-!
# The layout of an ELF image

`Elf64Layout` of `xtask`'s `build.rs`: the LOAD segments and the sections of a little-endian ELF64
image, read from its bytes. `none` is a failure, by an error or a panic. Names are the bytes of the
string tables: a name that the code compares is ASCII, and equals the decoded bytes exactly when it
equals the bytes.
-/

namespace SafeLibc.Elf

open SafeLibc.Lib

def readU16 (bytes : List UInt8) (offset : Nat) : Option Nat := readNat .little 2 bytes offset

def readU32 (bytes : List UInt8) (offset : Nat) : Option Nat := readNat .little 4 bytes offset

def readU64 (bytes : List UInt8) (offset : Nat) : Option Nat := readNat .little 8 bytes offset

/-- A program header of type `PT_LOAD`, and where it is. -/
structure Elf64LoadSegment where
  phOffset : Nat
  offset : Nat
  vaddr : Nat
  filesz : Nat
  memsz : Nat
  flags : Nat
  deriving DecidableEq, Repr

/-- The fields of a section header that are used. -/
structure Elf64Section where
  nameOffset : Nat
  offset : Nat
  size : Nat
  entsize : Nat
  deriving DecidableEq, Repr

structure Elf64Layout where
  sections : List Elf64Section
  loads : List Elf64LoadSegment
  shstr : Elf64Section
  deriving DecidableEq, Repr

/-- Where the ELF header says that the tables are. -/
structure Header where
  phoff : Nat
  shoff : Nat
  phentsize : Nat
  phnum : Nat
  shentsize : Nat
  shnum : Nat
  shstrndx : Nat
  deriving DecidableEq, Repr

/-! ## Parsing -/

def checkedOffset (base index entsize : Nat) : Option Nat :=
  (checkedMul 64 index entsize).bind (checkedAdd 64 base)

def readHeader (bytes : List UInt8) : Option Header :=
  if bytes.length < 64 ∨ bytes.take 4 ≠ [0x7f, byte 'E', byte 'L', byte 'F'] then none
  else if bytes[4]? ≠ some 2 ∨ bytes[5]? ≠ some 1 then none
  else do
    let phoff ← readU64 bytes 32
    let shoff ← readU64 bytes 40
    let phentsize ← readU16 bytes 54
    let phnum ← readU16 bytes 56
    let shentsize ← readU16 bytes 58
    let shnum ← readU16 bytes 60
    let shstrndx ← readU16 bytes 62
    some ⟨phoff, shoff, phentsize, phnum, shentsize, shnum, shstrndx⟩

/-- The segment of the program header at `ph`, if it is a LOAD segment. -/
def readLoad (bytes : List UInt8) (ph : Nat) : Option (Option Elf64LoadSegment) := do
  let ptype ← readU32 bytes ph
  if ptype ≠ 1 then some none
  else
    let flags ← readU32 bytes (ph + 4)
    let offset ← readU64 bytes (ph + 8)
    let vaddr ← readU64 bytes (ph + 16)
    let filesz ← readU64 bytes (ph + 32)
    let memsz ← readU64 bytes (ph + 40)
    some (some ⟨ph, offset, vaddr, filesz, memsz, flags⟩)

def readSection (bytes : List UInt8) (sh : Nat) : Option Elf64Section := do
  let nameOffset ← readU32 bytes sh
  let offset ← readU64 bytes (sh + 24)
  let size ← readU64 bytes (sh + 32)
  let entsize ← readU64 bytes (sh + 56)
  some ⟨nameOffset, offset, size, entsize⟩

/-- The entry of the table, `some none` if it is no `PT_LOAD`. -/
def programHeader (bytes : List UInt8) (header : Header) (index : Nat) :
    Option (Option Elf64LoadSegment) :=
  (checkedOffset header.phoff index header.phentsize).bind (readLoad bytes)

def sectionHeader (bytes : List UInt8) (header : Header) (index : Nat) : Option Elf64Section :=
  (checkedOffset header.shoff index header.shentsize).bind (readSection bytes)

def Elf64Layout.parse (bytes : List UInt8) : Option Elf64Layout := do
  let header ← readHeader bytes
  let entries ← readAll (programHeader bytes header) header.phnum
  let sections ← readAll (sectionHeader bytes header) header.shnum
  let shstr ← sections[header.shstrndx]?
  some ⟨sections, entries.reduceOption, shstr⟩

/-! ## Queries -/

/-- The NUL-terminated name at an offset of a string table; `some none` when it is not there. -/
def dynstrName (mode : Overflow) (bytes : List UInt8) (table : Elf64Section) (nameOffset : Nat) :
    Option (Option (List UInt8)) :=
  if table.size ≤ nameOffset then some none
  else do
    let start ← mode.settle 64 (table.offset + nameOffset)
    let tableEnd ← mode.settle 64 (table.offset + table.size)
    if bytes.length < tableEnd ∨ tableEnd ≤ start then some none
    else some (some (((bytes.take tableEnd).drop start).takeWhile (· ≠ 0)))

def Elf64Layout.sectionByName (mode : Overflow) (layout : Elf64Layout) (bytes : List UInt8)
    (name : List UInt8) : Option (Option Elf64Section) :=
  go layout.sections
where
  go : List Elf64Section → Option (Option Elf64Section)
    | [] => some none
    | candidate :: rest => do
      let found ← dynstrName mode bytes layout.shstr candidate.nameOffset
      if found = some name then some (some candidate) else go rest

/-- One step of `max_by_key` on the file size: of equal ones the later is kept. -/
def better (best : Option Elf64LoadSegment) (segment : Elf64LoadSegment) :
    Option Elf64LoadSegment :=
  match best with
  | none => some segment
  | some found => if found.filesz ≤ segment.filesz then some segment else some found

/-- The executable segment that the slots go to. -/
def Elf64Layout.executableLoadSegment (layout : Elf64Layout) : Option Elf64LoadSegment :=
  (layout.loads.filter fun segment => segment.flags &&& 1 ≠ 0).foldl better none

/-- Where the next segment starts in the file. -/
def Elf64Layout.nextLoadFileOffset (layout : Elf64Layout) (offset : Nat) : Option Nat :=
  ((layout.loads.filter fun segment => offset < segment.offset).map Elf64LoadSegment.offset).min?

/-- Where the next segment starts in memory. -/
def Elf64Layout.nextLoadVaddr (layout : Elf64Layout) (vaddr : Nat) : Option Nat :=
  ((layout.loads.filter fun segment => vaddr < segment.vaddr).map Elf64LoadSegment.vaddr).min?

/-! ## What a parse says -/

theorem checkedOffset_eq_some {base index entsize offset : Nat} :
    checkedOffset base index entsize = some offset ↔
      offset = base + index * entsize ∧ base + index * entsize < 2 ^ 64 := by
  unfold checkedOffset
  rw [Option.bind_eq_some_iff]
  constructor
  · rintro ⟨product, hproduct, hsum⟩
    obtain ⟨rfl, -⟩ := checkedMul_eq_some.mp hproduct
    exact checkedAdd_eq_some.mp hsum
  · rintro ⟨rfl, hlt⟩
    exact ⟨index * entsize, checkedMul_eq_some.mpr ⟨rfl, by omega⟩,
      checkedAdd_eq_some.mpr ⟨rfl, hlt⟩⟩

section Segments

variable {segment : Elf64LoadSegment} {bytes : List UInt8} {layout : Elf64Layout}

end Segments

end SafeLibc.Elf
