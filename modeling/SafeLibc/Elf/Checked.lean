import SafeLibc.Elf.Layout

/-!
# Overflow while an image is read

The readers of `build.rs` with their sums as the machine computes them, and a panic told apart from
an `Err`. A read at an offset that lies less than its width below `2 ^ 64` panics in a build with
overflow checks, and the string tables add two numbers of the file without a check.
`readers_total_iff` says when that happens: at the first entry of a table only, and for a string
table that ends behind the address space.
-/

namespace SafeLibc.Elf

open SafeLibc.Lib

inductive Fault
  | error
  | panic
  deriving DecidableEq, Repr

def orError {α : Type} : Option α → Except Fault α
  | none => .error .error
  | some a => .ok a

/-- The operator `+` on `u64` and `usize`. -/
def addU64 (mode : Overflow) (a b : Nat) : Except Fault Nat :=
  (mode.settle 64 (a + b)).elim (.error .panic) .ok

/-- `read_u16`, `read_u32` and `read_u64`; a range that has wrapped around is empty. -/
def readRun (mode : Overflow) (w : Nat) (bytes : List UInt8) (offset : Nat) : Except Fault Nat := do
  let last ← addU64 mode offset w
  if offset ≤ last ∧ last ≤ bytes.length then .ok (leNat ((bytes.drop offset).take w))
  else .error .error

def fieldRun (mode : Overflow) (w : Nat) (bytes : List UInt8) (base field : Nat) :
    Except Fault Nat := do
  let offset ← addU64 mode base field
  readRun mode w bytes offset

def readHeaderRun (mode : Overflow) (bytes : List UInt8) : Except Fault Header :=
  if bytes.length < 64 ∨ bytes.take 4 ≠ [0x7f, byte 'E', byte 'L', byte 'F'] then .error .error
  else if bytes[4]? ≠ some 2 ∨ bytes[5]? ≠ some 1 then .error .error
  else do
    let phoff ← readRun mode 8 bytes 32
    let shoff ← readRun mode 8 bytes 40
    let phentsize ← readRun mode 2 bytes 54
    let phnum ← readRun mode 2 bytes 56
    let shentsize ← readRun mode 2 bytes 58
    let shnum ← readRun mode 2 bytes 60
    let shstrndx ← readRun mode 2 bytes 62
    .ok ⟨phoff, shoff, phentsize, phnum, shentsize, shnum, shstrndx⟩

def readLoadRun (mode : Overflow) (bytes : List UInt8) (ph : Nat) :
    Except Fault (Option Elf64LoadSegment) := do
  let ptype ← readRun mode 4 bytes ph
  if ptype ≠ 1 then .ok none
  else
    let flags ← fieldRun mode 4 bytes ph 4
    let offset ← fieldRun mode 8 bytes ph 8
    let vaddr ← fieldRun mode 8 bytes ph 16
    let filesz ← fieldRun mode 8 bytes ph 32
    let memsz ← fieldRun mode 8 bytes ph 40
    .ok (some ⟨ph, offset, vaddr, filesz, memsz, flags⟩)

def readSectionRun (mode : Overflow) (bytes : List UInt8) (sh : Nat) :
    Except Fault Elf64Section := do
  let nameOffset ← readRun mode 4 bytes sh
  let offset ← fieldRun mode 8 bytes sh 24
  let size ← fieldRun mode 8 bytes sh 32
  let entsize ← fieldRun mode 8 bytes sh 56
  .ok ⟨nameOffset, offset, size, entsize⟩

def tableRun {α : Type} (base entsize : Nat) (entry : Nat → Except Fault α) :
    Nat → Except Fault (List α)
  | 0 => .ok []
  | n + 1 => do
    let entries ← tableRun base entsize entry n
    let offset ← orError (checkedOffset base n entsize)
    let a ← entry offset
    .ok (entries ++ [a])

def parseRun (mode : Overflow) (bytes : List UInt8) : Except Fault Elf64Layout := do
  let header ← readHeaderRun mode bytes
  let entries ← tableRun header.phoff header.phentsize (readLoadRun mode bytes) header.phnum
  let sections ← tableRun header.shoff header.shentsize (readSectionRun mode bytes) header.shnum
  let shstr ← orError sections[header.shstrndx]?
  .ok ⟨sections, entries.reduceOption, shstr⟩

/-! ## Runs without overflow -/

section Exact

variable {mode : Overflow} {bytes : List UInt8} {α β : Type}

/-- Step by step, a run is its exact version. -/
theorem bind_eq_orError {x : Except Fault α} {y : Option α} {f : α → Except Fault β}
    {g : α → Option β} (hx : x = orError y) (hf : ∀ a, y = some a → f a = orError (g a)) :
    (x >>= f) = orError (y >>= g) := by
  subst hx
  cases y with
  | none => rfl
  | some a => exact hf a rfl

theorem readRun_eq {w offset : Nat} (h : offset + w < 2 ^ 64) :
    readRun mode w bytes offset = orError (readNat .little w bytes offset) := by
  have hadd : addU64 mode offset w = .ok (offset + w) := by
    rw [addU64, Overflow.settle_of_lt h]
    rfl
  rw [readRun, hadd, ok_bind, readNat]
  split
  · next hle => rw [if_pos hle.2]; rfl
  · next hle => rw [if_neg fun h => hle ⟨Nat.le_add_right _ _, h⟩]; rfl

theorem fieldRun_eq {w base field : Nat} (h : base + field + w < 2 ^ 64) :
    fieldRun mode w bytes base field = orError (readNat .little w bytes (base + field)) := by
  have hadd : addU64 mode base field = .ok (base + field) := by
    rw [addU64, Overflow.settle_of_lt (by omega)]
    rfl
  rw [fieldRun, hadd, ok_bind, readRun_eq h]

theorem readHeaderRun_eq : readHeaderRun mode bytes = orError (readHeader bytes) := by
  unfold readHeaderRun readHeader
  split
  · rfl
  · split
    · rfl
    · repeat refine bind_eq_orError (readRun_eq (by decide)) fun _ _ => ?_
      rfl

variable (hlen : bytes.length < 2 ^ 63)

include hlen

/-- Once its first field is read, a program header is far from the end of the address space. -/
theorem readLoadRun_eq {ph : Nat} (hph : ph + 4 < 2 ^ 64) :
    readLoadRun mode bytes ph = orError (readLoad bytes ph) := by
  refine bind_eq_orError (readRun_eq hph) fun ptype hread => ?_
  have hle := le_length_of_readNat hread
  split
  · rfl
  · repeat refine bind_eq_orError (fieldRun_eq (by omega)) fun _ _ => ?_
    rfl

theorem readSectionRun_eq {sh : Nat} (hsh : sh + 4 < 2 ^ 64) :
    readSectionRun mode bytes sh = orError (readSection bytes sh) := by
  refine bind_eq_orError (readRun_eq hsh) fun nameOffset hread => ?_
  have hle := le_length_of_readNat hread
  repeat refine bind_eq_orError (fieldRun_eq (by omega)) fun _ _ => ?_
  rfl

omit hlen in
theorem tableRun_eq {base entsize : Nat} {entry : Nat → Except Fault α} {exact : Nat → Option α}
    (n : Nat) (h : ∀ i < n, ∀ entries,
      readAll (fun i => (checkedOffset base i entsize).bind exact) i = some entries →
        base + i * entsize < 2 ^ 64 →
          entry (base + i * entsize) = orError (exact (base + i * entsize))) :
    tableRun base entsize entry n =
      orError (readAll (fun i => (checkedOffset base i entsize).bind exact) n) := by
  induction n with
  | zero => rfl
  | succ n ih =>
    refine bind_eq_orError (ih fun i hi => h i (Nat.lt_succ_of_lt hi)) fun entries hentries => ?_
    change _ = orError (((checkedOffset base n entsize).bind exact).map _)
    cases hoffset : checkedOffset base n entsize with
    | none => rfl
    | some offset =>
      obtain ⟨rfl, hlt⟩ := checkedOffset_eq_some.1 hoffset
      change (entry _ >>= fun a => _) = orError ((exact _).map _)
      rw [h n (Nat.lt_succ_self n) entries hentries hlt]
      cases exact (base + n * entsize) <;> rfl

/-- No entry of a table that can be read is at the end of the address space: the one before it is in
the image. -/
theorem entry_lt {base entsize i : Nat} {exact : Nat → Option α} {entries : List α}
    (hentsize : entsize < 2 ^ 16) (hfirst : base + 4 < 2 ^ 64)
    (hexact : ∀ offset, (exact offset).isSome → offset + 4 ≤ bytes.length)
    (hread : readAll (fun i => (checkedOffset base i entsize).bind exact) i = some entries) :
    base + i * entsize + 4 < 2 ^ 64 := by
  cases i with
  | zero => omega
  | succ i =>
    obtain ⟨before, -, hentry⟩ := Option.bind_eq_some_iff.1 hread
    obtain ⟨a, ha, -⟩ := Option.map_eq_some_iff.1 hentry
    obtain ⟨offset, hoffset, hsome⟩ := Option.bind_eq_some_iff.1 ha
    obtain ⟨rfl, -⟩ := checkedOffset_eq_some.1 hoffset
    have hle := hexact _ (by rw [hsome]; rfl)
    rw [Nat.succ_mul]
    omega

omit hlen in
/-- The first entry of the table is read at `base`, whatever the size of an entry. -/
theorem tableRun_eq_panic {base entsize : Nat}
    {entry : Nat → Except Fault α} (hbase : base < 2 ^ 64)
    (hentry : entry base = .error .panic) (n : Nat) :
    tableRun base entsize entry (n + 1) = .error .panic := by
  induction n with
  | zero =>
    have hoffset : checkedOffset base 0 entsize = some base :=
      checkedOffset_eq_some.2 ⟨by rw [zero_mul, add_zero], by omega⟩
    rw [tableRun, tableRun, hoffset]
    change (entry base >>= fun a => _) = _
    rw [hentry]
    rfl
  | succ n ih =>
    rw [tableRun, ih]
    rfl

omit hlen in
theorem readRun_eq_panic {w offset : Nat} (h : 2 ^ 64 ≤ offset + w) :
    readRun .panic w bytes offset = .error .panic := by
  have hadd : addU64 .panic offset w = .error .panic := by
    rw [addU64, Overflow.settle, if_neg (by omega)]
    rfl
  rw [readRun, hadd]
  rfl

/-- Neither table begins in the last bytes of the address space, as far as it is read. -/
def Header.TablesInRange (header : Header) (bytes : List UInt8) : Prop :=
  (header.phnum = 0 ∨ header.phoff + 4 < 2 ^ 64) ∧
    ((readAll (programHeader bytes header) header.phnum).isSome →
      header.shnum = 0 ∨ header.shoff + 4 < 2 ^ 64)

omit hlen in
theorem readHeader_lt {header : Header} (h : readHeader bytes = some header) :
    header.phoff < 2 ^ 64 ∧ header.shoff < 2 ^ 64 ∧ header.phentsize < 2 ^ 16 ∧
      header.shentsize < 2 ^ 16 := by
  unfold readHeader at h
  split at h
  · cases h
  · split at h
    · cases h
    · obtain ⟨phoff, hphoff, h⟩ := Option.bind_eq_some_iff.1 h
      obtain ⟨shoff, hshoff, h⟩ := Option.bind_eq_some_iff.1 h
      obtain ⟨phentsize, hphentsize, h⟩ := Option.bind_eq_some_iff.1 h
      obtain ⟨phnum, -, h⟩ := Option.bind_eq_some_iff.1 h
      obtain ⟨shentsize, hshentsize, h⟩ := Option.bind_eq_some_iff.1 h
      obtain ⟨shnum, -, h⟩ := Option.bind_eq_some_iff.1 h
      obtain ⟨shstrndx, -, h⟩ := Option.bind_eq_some_iff.1 h
      obtain rfl := Option.some.inj h
      exact ⟨readNat_lt hphoff, readNat_lt hshoff, readNat_lt hphentsize, readNat_lt hshentsize⟩

omit hlen in
theorem le_length_of_readLoad {ph : Nat} (h : (readLoad bytes ph).isSome) :
    ph + 4 ≤ bytes.length := by
  obtain ⟨entry, hentry⟩ := Option.isSome_iff_exists.1 h
  obtain ⟨ptype, hptype, -⟩ := Option.bind_eq_some_iff.1 hentry
  exact le_length_of_readNat hptype

omit hlen in
theorem le_length_of_readSection {sh : Nat} (h : (readSection bytes sh).isSome) :
    sh + 4 ≤ bytes.length := by
  obtain ⟨entry, hentry⟩ := Option.isSome_iff_exists.1 h
  obtain ⟨nameOffset, hname, -⟩ := Option.bind_eq_some_iff.1 hentry
  exact le_length_of_readNat hname

theorem programHeaders_eq {header : Header} (hheader : readHeader bytes = some header)
    (hfirst : header.phnum = 0 ∨ header.phoff + 4 < 2 ^ 64) :
    tableRun header.phoff header.phentsize (readLoadRun mode bytes) header.phnum =
      orError (readAll (programHeader bytes header) header.phnum) := by
  refine tableRun_eq _ fun i hi entries hread _ => readLoadRun_eq hlen ?_
  exact entry_lt hlen (readHeader_lt hheader).2.2.1 (by omega)
    (fun _ => le_length_of_readLoad) hread

theorem parseRun_eq (hheader : ∀ header ∈ readHeader bytes, header.TablesInRange bytes) :
    parseRun mode bytes = orError (Elf64Layout.parse bytes) := by
  refine bind_eq_orError readHeaderRun_eq fun header hread => ?_
  obtain ⟨hph, hsh⟩ := hheader header hread
  refine bind_eq_orError (programHeaders_eq hlen hread hph) fun entries hentries => ?_
  refine bind_eq_orError (tableRun_eq _ fun i hi _ hprevious _ => readSectionRun_eq hlen ?_)
    fun sections _ => ?_
  · have := hsh (by rw [hentries]; rfl)
    exact entry_lt hlen (readHeader_lt hread).2.2.2 (by omega) (fun _ => le_length_of_readSection)
      hprevious
  exact bind_eq_orError rfl fun _ _ => rfl

/-- **When `parse` panics**: where the first entry of a table that is read is at the end of the
address space. -/
theorem parseRun_ne_panic_iff :
    (∀ mode, parseRun mode bytes ≠ .error .panic) ↔
      ∀ header ∈ readHeader bytes, header.TablesInRange bytes := by
  constructor
  · intro h header hread
    have hrun := h .panic
    rw [parseRun, readHeaderRun_eq, hread] at hrun
    change (tableRun _ _ _ _ >>= fun entries => _) ≠ _ at hrun
    have hph : header.phnum = 0 ∨ header.phoff + 4 < 2 ^ 64 := by
      by_contra hlast
      rw [not_or, not_lt] at hlast
      obtain ⟨n, hn⟩ := Nat.exists_eq_succ_of_ne_zero hlast.1
      rw [hn, tableRun_eq_panic (readHeader_lt hread).1
        (by rw [readLoadRun, readRun_eq_panic hlast.2]; rfl)] at hrun
      exact hrun rfl
    refine ⟨hph, fun hentries => ?_⟩
    by_contra hlast
    rw [not_or, not_lt] at hlast
    obtain ⟨entries, hentries⟩ := Option.isSome_iff_exists.1 hentries
    obtain ⟨n, hn⟩ := Nat.exists_eq_succ_of_ne_zero hlast.1
    rw [programHeaders_eq hlen hread hph, hentries, hn] at hrun
    change (tableRun _ _ _ _ >>= fun sections => _) ≠ _ at hrun
    rw [tableRun_eq_panic (readHeader_lt hread).2.1
      (by rw [readSectionRun, readRun_eq_panic hlast.2]; rfl)] at hrun
    exact hrun rfl
  · intro h mode
    rw [parseRun_eq hlen h]
    cases Elf64Layout.parse bytes <;> simp [orError]

end Exact

/-! ## Names -/

section Names

variable {mode : Overflow} {table : Elf64Section} (bytes : List UInt8)

/-- The name is a piece of the image, and lies in the table. -/
def Elf64Section.Holds (table : Elf64Section) (bytes name : List UInt8) : Prop :=
  ∃ start, table.offset ≤ start ∧ start + name.length ≤ table.offset + table.size ∧
    table.offset + table.size ≤ bytes.length ∧ name = (bytes.drop start).take name.length

theorem dynstrName_inside (htable : table.offset + table.size < 2 ^ 64) (nameOffset : Nat) :
    ∃ found, dynstrName mode bytes table nameOffset = some found ∧
      ∀ name ∈ found, table.Holds bytes name := by
  unfold dynstrName
  split
  · exact ⟨none, rfl, fun name hname => by cases hname⟩
  · next hsize =>
    rw [Overflow.settle_of_lt (by omega), Overflow.settle_of_lt htable]
    simp only [Option.bind_eq_bind, Option.bind_some]
    split
    · exact ⟨none, rfl, fun name hname => by cases hname⟩
    · next hrange =>
      refine ⟨_, rfl, ?_⟩
      intro name hname
      cases hname
      have hstart := (List.takeWhile_prefix (· ≠ 0) (l := (bytes.take (table.offset +
        table.size)).drop (table.offset + nameOffset)))
      have hlength := hstart.length_le
      rw [List.length_drop, List.length_take] at hlength
      refine ⟨table.offset + nameOffset, Nat.le_add_right _ _, by omega, by omega, ?_⟩
      rw [List.drop_take] at hstart ⊢
      exact List.prefix_iff_eq_take.1 (hstart.trans (List.take_prefix _ _))

theorem dynstrName_of_size_le {nameOffset : Nat} (h : table.size ≤ nameOffset) :
    dynstrName mode bytes table nameOffset = some none := if_pos h

theorem dynstrName_eq_none {nameOffset : Nat} (hsize : nameOffset < table.size)
    (htable : 2 ^ 64 ≤ table.offset + table.size) :
    dynstrName .panic bytes table nameOffset = none := by
  have hend : Overflow.panic.settle 64 (table.offset + table.size) = none := by
    rw [Overflow.settle, if_neg (by omega)]
  rw [dynstrName, if_neg (by omega), hend]
  cases Overflow.panic.settle 64 (table.offset + nameOffset) <;> rfl

theorem dynstrName_inside_iff (nameOffset : Nat) :
    (∀ mode, ∃ found, dynstrName mode bytes table nameOffset = some found ∧
      ∀ name ∈ found, table.Holds bytes name) ↔
      table.offset + table.size < 2 ^ 64 ∨ table.size ≤ nameOffset := by
  constructor
  · intro h
    by_contra hlast
    rw [not_or, not_lt, not_le] at hlast
    obtain ⟨found, hfound, -⟩ := h .panic
    rw [dynstrName_eq_none bytes hlast.2 hlast.1] at hfound
    cases hfound
  · rintro (htable | hsize) mode
    · exact dynstrName_inside bytes htable nameOffset
    · exact ⟨none, dynstrName_of_size_le bytes hsize, fun name hname => by cases hname⟩

theorem sectionByName_ne_none_iff (layout : Elf64Layout) (name : List UInt8) :
    (∀ mode, layout.sectionByName mode bytes name ≠ none) ↔
      layout.shstr.offset + layout.shstr.size < 2 ^ 64 ∨
        ∀ candidate ∈ layout.sections, layout.shstr.size ≤ candidate.nameOffset := by
  unfold Elf64Layout.sectionByName
  by_cases htable : layout.shstr.offset + layout.shstr.size < 2 ^ 64
  · refine iff_of_true (fun mode => ?_) (.inl htable)
    induction layout.sections with
    | nil => exact Option.some_ne_none _
    | cons candidate rest ih =>
      obtain ⟨found, hfound, -⟩ := @dynstrName_inside mode _ bytes htable candidate.nameOffset
      rw [Elf64Layout.sectionByName.go, hfound, Option.bind_eq_bind, Option.bind_some]
      split
      · exact Option.some_ne_none _
      · exact ih
  · -- no name can be read, so no candidate is found before the last one
    rw [or_iff_right htable]
    induction layout.sections with
    | nil => exact iff_of_true (fun mode => Option.some_ne_none _) (by simp)
    | cons candidate rest ih =>
      rw [List.forall_mem_cons, ← ih]
      by_cases hsize : layout.shstr.size ≤ candidate.nameOffset
      · have hgo : ∀ mode, Elf64Layout.sectionByName.go mode layout bytes name (candidate :: rest) =
            Elf64Layout.sectionByName.go mode layout bytes name rest := by
          intro mode
          rw [Elf64Layout.sectionByName.go, dynstrName_of_size_le bytes hsize, Option.bind_eq_bind,
            Option.bind_some, if_neg (by simp)]
        simp only [hgo, hsize, true_and]
      · refine iff_of_false (fun h => h .panic ?_) (fun h => hsize h.1)
        rw [Elf64Layout.sectionByName.go,
          dynstrName_eq_none bytes (not_le.1 hsize) (not_lt.1 htable)]
        rfl

end Names

/-- **When the readers are total**: `parse`, `section_by_name` and `dynstr_name` do not overflow,
and names lie in their table, exactly where no table begins and no string table ends behind the
address space, as far as they are read. -/
theorem readers_total_iff (bytes : List UInt8) (hlen : bytes.length < 2 ^ 63) :
    ((∀ mode, parseRun mode bytes ≠ .error .panic) ↔
        ∀ header ∈ readHeader bytes, header.TablesInRange bytes) ∧
      (∀ (layout : Elf64Layout) (name : List UInt8),
        (∀ mode, layout.sectionByName mode bytes name ≠ none) ↔
          layout.shstr.offset + layout.shstr.size < 2 ^ 64 ∨
            ∀ candidate ∈ layout.sections, layout.shstr.size ≤ candidate.nameOffset) ∧
      ∀ (table : Elf64Section) (nameOffset : Nat),
        (∀ mode, ∃ found, dynstrName mode bytes table nameOffset = some found ∧
          ∀ name ∈ found, table.Holds bytes name) ↔
          table.offset + table.size < 2 ^ 64 ∨ table.size ≤ nameOffset :=
  ⟨parseRun_ne_panic_iff hlen, sectionByName_ne_none_iff bytes,
    fun _ => dynstrName_inside_iff bytes⟩

def headerImage (phoff : Nat) : List UInt8 :=
  [[0x7f, byte 'E', byte 'L', byte 'F', 2, 1], List.replicate 26 0, leBytes 8 phoff,
    List.replicate 14 0, leBytes 2 56, leBytes 2 1, List.replicate 6 0].flatten

/-- A table that begins behind the image, but not at the end of the address space. -/
theorem readers_total_header : parseRun .panic (headerImage (2 ^ 64 - 57)) ≠ .error .panic := by
  have hlen : (headerImage (2 ^ 64 - 57)).length < 2 ^ 63 := by decide +kernel
  have hread : readHeader (headerImage (2 ^ 64 - 57)) = some ⟨2 ^ 64 - 57, 0, 56, 1, 0, 0, 0⟩ := by
    decide +kernel
  refine (readers_total_iff (headerImage (2 ^ 64 - 57)) hlen).1.2 ?_ .panic
  intro header hheader
  obtain rfl := Option.some.inj (hread.symm.trans hheader)
  exact ⟨.inr (by decide), fun _ => .inl rfl⟩

/-- A program header at `u64::MAX`, and a string table that wraps around and gives a name from
before it. -/
theorem readers_overflow :
    parseRun .panic (headerImage (2 ^ 64 - 1)) = .error .panic ∧
      dynstrName .panic (headerImage 0) ⟨0, 2 ^ 64 - 1, 5, 0⟩ 2 = none ∧
      dynstrName .wrap (headerImage 0) ⟨0, 2 ^ 64 - 1, 5, 0⟩ 2 = some (some (bytesOf "ELF")) := by
  decide +kernel

end SafeLibc.Elf
