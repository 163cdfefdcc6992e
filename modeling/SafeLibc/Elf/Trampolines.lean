import SafeLibc.Elf.Layout

/-!
# The public-symbol trampolines

`apply_phase08_public_symbol_trampolines` of `xtask`'s `build.rs` edits a shared object in place:
each public symbol of its table gets a 64-byte slot of code behind the executable segment, the
segment is grown over the slots, and the symbol's `.dynsym` entry is pointed at its slot.

The placement is computed first (`phase08Placement`) and the edits are made after it, as in the
source. The source writes the file before it looks for table entries that no symbol has, so a run
that fails there leaves the edited file behind. `Writes` says of an image that it gets that far.
-/

namespace SafeLibc.Elf

open SafeLibc.Lib List

structure Phase08SymbolPatch where
  symOffset : Nat
  name : List UInt8
  originalValue : Nat
  deriving DecidableEq, Repr

structure Phase08StubData where
  bytes : List UInt8
  cLocaleVaddr : Nat
  wordexpVaddr : Nat
  globVaddr : Nat
  deriving DecidableEq, Repr

/-- The strings the stubs return, and their addresses from `baseVaddr` on. -/
def Phase08StubData.new (mode : Overflow) (baseVaddr : Nat) : Option Phase08StubData := do
  let cLocale := bytesOf "C\x00"
  let word := bytesOf "link_compat\x00"
  let path := bytesOf "/bin/sh\x00"
  let wordexpVaddr ← mode.settle 64 (baseVaddr + cLocale.length)
  let globVaddr ← mode.settle 64 (baseVaddr + (cLocale ++ word).length)
  some ⟨cLocale ++ word ++ path, baseVaddr, wordexpVaddr, globVaddr⟩

/-! ## Stub bodies

A slot lies below `2 ^ 64`, so the addresses inside it are exact sums. -/

/-- The segment that the slots grow, their symbols in order, and where the first one goes. -/
structure Placement where
  executable : Elf64LoadSegment
  symbols : List Phase08SymbolPatch
  fileStart : Nat
  vaddrStart : Nat
  stubData : Phase08StubData
  deriving DecidableEq, Repr

namespace Placement

variable (pl : Placement)

def codeLen : Nat := pl.symbols.length * 64

def trampolineLen : Nat := pl.codeLen + pl.stubData.bytes.length

def fileEnd : Nat := pl.fileStart + pl.trampolineLen

def vaddrEnd : Nat := pl.vaddrStart + pl.trampolineLen

end Placement

/-- `value` rounded up; the alignment is a power of two, for which clearing the low bits is this
division. -/
def alignUp (value alignment : Nat) : Option Nat :=
  if alignment = 0 then none
  else (checkedAdd 64 value (alignment - 1)).map fun sum => sum / alignment * alignment

/-- The slots start behind the executable segment, and must end before the next segment in the file
and in memory. -/
def place (mode : Overflow) (layout : Elf64Layout) (imageLen : Nat)
    (symbols : List Phase08SymbolPatch) : Option Placement := do
  let executable ← layout.executableLoadSegment
  let nextLoadOffset := (layout.nextLoadFileOffset executable.offset).getD imageLen
  let nextLoadVaddr := (layout.nextLoadVaddr executable.vaddr).getD (2 ^ 64 - 1)
  let segmentFileEnd ← checkedAdd 64 executable.offset executable.filesz
  let segmentVaddrEnd ← checkedAdd 64 executable.vaddr executable.memsz
  let fileStart ← alignUp segmentFileEnd 16
  let vaddrStart ← checkedAdd 64 executable.vaddr (fileStart - executable.offset)
  if vaddrStart < segmentVaddrEnd then none
  else
    let codeLen ← checkedMul 64 symbols.length 64
    let stubBase ← mode.settle 64 (vaddrStart + codeLen)
    let stubData ← Phase08StubData.new mode stubBase
    let trampolineLen ← checkedAdd 64 codeLen stubData.bytes.length
    let fileEnd ← checkedAdd 64 fileStart trampolineLen
    let vaddrEnd ← checkedAdd 64 vaddrStart trampolineLen
    if nextLoadOffset < fileEnd ∨ nextLoadVaddr < vaddrEnd then none
    else some ⟨executable, symbols, fileStart, vaddrStart, stubData⟩

structure Outcome where
  file : List UInt8
  ok : Bool
  deriving DecidableEq, Repr

section

variable {mode : Overflow} {layout : Elf64Layout} {imageLen : Nat}
  {symbols : List Phase08SymbolPatch} {executable : Elf64LoadSegment} {pl : Placement}

end

end SafeLibc.Elf
