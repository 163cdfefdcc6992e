import Mathlib
import SafeLibc.Lib.Signed

/-!
# `_dl_determine_tlsoffset` of `elf/dl-tls.c`

The blocks of the modules lie below the thread pointer, where the TCB is. The offset of a block is
the distance of its first byte, so that it takes the addresses from `-off` to `-off + blocksize`.
The function puts each block after the ones before, at the next offset with the residue that the
block asks for; the bytes that this leaves unused are a gap, and one gap, the largest so far, is
filled with later blocks that fit.

All of this is in `size_t`. The sum in `roundup` may pass through a negative number, where the block
is smaller than its correction; then it wraps around to 0 and the offset is the correction itself.
`place_eq` says that the words compute the exact layout as long as that fits.
-/

namespace SafeLibc.Ldso.Tls

open SafeLibc.Lib List

/-! ## Words -/

/-- A sum of `size_t`. -/
def addWord (a b : Nat) : Nat := (a + b) % 2 ^ 64

def subWord (a b : Nat) : Nat := (a + (2 ^ 64 - b)) % 2 ^ 64

def roundup (x y : Nat) : Nat := addWord x (y - 1) / y * y

/-! ## The layout -/

structure TlsModule where
  blocksize : Nat
  align : Nat
  firstbyteOffset : Nat
  blocksize_lt : blocksize < 2 ^ 64
  align_eq : ∃ k < 64, align = 2 ^ k
  firstbyteOffset_lt : firstbyteOffset < 2 ^ 64

/-- `-l_tls_firstbyte_offset & (l_tls_align - 1)` -/
def TlsModule.firstbyte (m : TlsModule) : Nat := subWord 0 m.firstbyteOffset &&& (m.align - 1)

/-- The largest alignment, the offset so far and the gap. -/
structure Layout where
  maxAlign : Nat
  freetop : Nat
  freebottom : Nat
  offset : Nat
  deriving DecidableEq, Repr

def tcbAlignment : Nat := 64

def Layout.start : Layout := ⟨tcbAlignment, 0, 0, 0⟩

def offsetAfter (top : Nat) (m : TlsModule) : Nat :=
  addWord (roundup (subWord (addWord top m.blocksize) m.firstbyte) m.align) m.firstbyte

/-- A block after all others; the padding becomes the gap if it is larger. -/
def Layout.extend (s : Layout) (m : TlsModule) : Layout × Nat :=
  let off := offsetAfter s.offset m
  if off > addWord (addWord s.offset m.blocksize) (subWord s.freebottom s.freetop) then
    ({ s with freetop := s.offset, freebottom := subWord off m.blocksize, offset := off }, off)
  else ({ s with offset := off }, off)

def Layout.place (s : Layout) (m : TlsModule) : Layout × Nat :=
  let s := { s with maxAlign := max s.maxAlign m.align }
  if subWord s.freebottom s.freetop ≥ m.blocksize then
    let off := offsetAfter s.freetop m
    if off ≤ s.freebottom then ({ s with freetop := off }, off) else s.extend m
  else s.extend m

def Layout.placeAll (s : Layout) : List TlsModule → Layout × List Nat
  | [] => (s, [])
  | m :: modules =>
    let placed := s.place m
    let rest := placed.1.placeAll modules
    (rest.1, placed.2 :: rest.2)

/-- What the function sets: `l_tls_offset` of each module, `dl_tls_static_used` and
`dl_tls_static_size`. -/
structure StaticTls where
  offsets : List Nat
  used : Nat
  size : Nat
  deriving DecidableEq, Repr

def dlDetermineTlsoffset (surplus tcbSize : Nat) (modules : List TlsModule) : StaticTls :=
  let final := Layout.start.placeAll modules
  ⟨final.2, final.1.offset,
    addWord (roundup (addWord final.1.offset surplus) final.1.maxAlign) tcbSize⟩

/-! ## The same layout in exact arithmetic -/

namespace Exact

def offsetAfter (top : Nat) (m : TlsModule) : Nat :=
  nextCongruent m.align m.firstbyte (top + m.blocksize)

def extend (s : Layout) (m : TlsModule) : Layout × Nat :=
  let off := offsetAfter s.offset m
  if off > s.offset + m.blocksize + (s.freebottom - s.freetop) then
    ({ s with freetop := s.offset, freebottom := off - m.blocksize, offset := off }, off)
  else ({ s with offset := off }, off)

def place (s : Layout) (m : TlsModule) : Layout × Nat :=
  let s := { s with maxAlign := max s.maxAlign m.align }
  if s.freebottom - s.freetop ≥ m.blocksize ∧ offsetAfter s.freetop m ≤ s.freebottom then
    ({ s with freetop := offsetAfter s.freetop m }, offsetAfter s.freetop m)
  else extend s m

def placeAll (s : Layout) : List TlsModule → Layout × List Nat
  | [] => (s, [])
  | m :: modules =>
    let placed := place s m
    let rest := placeAll placed.1 modules
    (rest.1, placed.2 :: rest.2)

end Exact

def totalSpace (modules : List TlsModule) : Nat := (Exact.placeAll Layout.start modules).1.offset

/-! ## The correction of a block -/

variable (m : TlsModule) (top : Nat)

theorem TlsModule.align_pos : 0 < m.align := by
  obtain ⟨k, -, hk⟩ := m.align_eq
  rw [hk]
  exact Nat.two_pow_pos k

theorem TlsModule.align_le : m.align ≤ 2 ^ 63 := by
  obtain ⟨k, hlt, hk⟩ := m.align_eq
  rw [hk]
  exact Nat.pow_le_pow_right (by decide) (by omega)

theorem TlsModule.firstbyte_eq :
    m.firstbyte = (2 ^ 64 - m.firstbyteOffset) % m.align := by
  obtain ⟨k, hlt, hk⟩ := m.align_eq
  have hdvd : 2 ^ k ∣ 2 ^ 64 := Nat.pow_dvd_pow 2 (by omega)
  rw [TlsModule.firstbyte, hk, Nat.and_two_pow_sub_one_eq_mod, subWord, zero_add,
    Nat.mod_mod_of_dvd _ hdvd]

theorem TlsModule.firstbyte_lt : m.firstbyte < m.align := by
  rw [m.firstbyte_eq]
  exact Nat.mod_lt _ m.align_pos

/-- An offset with the residue of the correction gives a start address with the residue that the
module asks for. -/
theorem TlsModule.neg_modEq {off : Nat} (h : (off : Int) ≡ m.firstbyte [ZMOD m.align]) :
    -(off : Int) ≡ m.firstbyteOffset [ZMOD m.align] := by
  obtain ⟨k, hlt, hk⟩ := m.align_eq
  have hdvd : (m.align : Int) ∣ 2 ^ 64 := by
    rw [hk]
    exact_mod_cast Nat.pow_dvd_pow 2 (le_of_lt hlt)
  have hcast : ((2 ^ 64 - m.firstbyteOffset : Nat) : Int) = 2 ^ 64 - m.firstbyteOffset := by
    have := m.firstbyteOffset_lt
    omega
  have hfirst : (m.firstbyte : Int) ≡ 2 ^ 64 - m.firstbyteOffset [ZMOD m.align] := by
    rw [m.firstbyte_eq, ← hcast, Int.natCast_emod]
    exact Int.mod_modEq _ _
  calc -(off : Int) ≡ -(2 ^ 64 - m.firstbyteOffset) [ZMOD m.align] := (h.trans hfirst).neg
    _ ≡ m.firstbyteOffset [ZMOD m.align] := by
      apply Int.modEq_iff_dvd.2
      rw [show (m.firstbyteOffset : Int) - -(2 ^ 64 - m.firstbyteOffset) = 2 ^ 64 by ring]
      exact hdvd

/-! ## Words and exact numbers -/

variable {m : TlsModule} {s : Layout} {a b : Nat}

theorem addWord_of_lt (h : a + b < 2 ^ 64) : addWord a b = a + b := Nat.mod_eq_of_lt h

theorem subWord_of_le (hle : b ≤ a) (ha : a < 2 ^ 64) : subWord a b = a - b := by
  rw [subWord, show a + (2 ^ 64 - b) = a - b + 2 ^ 64 by omega, Nat.add_mod_right]
  exact Nat.mod_eq_of_lt (by omega)

/-- **The wrapped sum rounds up all the same**: below the correction it wraps to a number below the
alignment. -/
theorem offsetAfter_eq {top : Nat} (h : top + m.blocksize < 2 ^ 63) :
    offsetAfter top m = Exact.offsetAfter top m := by
  have hfirst := m.firstbyte_lt
  have halign := m.align_le
  rw [offsetAfter, Exact.offsetAfter, addWord_of_lt (a := top) (by omega)]
  by_cases hle : m.firstbyte ≤ top + m.blocksize
  · have hnext := nextCongruent_lt (r := m.firstbyte) (x := top + m.blocksize) m.align_pos
    rw [nextCongruent_eq_roundup hfirst hle] at hnext ⊢
    rw [subWord_of_le hle (by omega), roundup,
      addWord_of_lt (a := top + m.blocksize - m.firstbyte) (by omega), addWord_of_lt (by omega)]
  · have hwrap : addWord (subWord (top + m.blocksize) m.firstbyte) (m.align - 1) =
        m.align - 1 - (m.firstbyte - (top + m.blocksize)) := by
      rw [addWord, subWord, Nat.mod_eq_of_lt (show top + m.blocksize + (2 ^ 64 - m.firstbyte) <
        2 ^ 64 by omega)]
      rw [show top + m.blocksize + (2 ^ 64 - m.firstbyte) + (m.align - 1) =
        m.align - 1 - (m.firstbyte - (top + m.blocksize)) + 2 ^ 64 by omega, Nat.add_mod_right]
      exact Nat.mod_eq_of_lt (by omega)
    rw [nextCongruent_of_le hfirst (by omega), roundup,
      Nat.div_eq_of_lt (by omega), zero_mul, addWord_of_lt (by omega), zero_add]

structure Layout.Fits (s : Layout) : Prop where
  free_le : s.freetop ≤ s.freebottom
  free_offset : s.freebottom ≤ s.offset
  offset_lt : s.offset < 2 ^ 63

theorem Exact.le_offsetAfter (m : TlsModule) :
    top + m.blocksize ≤ Exact.offsetAfter top m := le_nextCongruent _ _ _

theorem Layout.Fits.extend_eq (h : s.Fits) (hlt : Exact.offsetAfter s.offset m < 2 ^ 63) :
    s.extend m = Exact.extend s m := by
  obtain ⟨hfree, hoffset, hsmall⟩ := h
  have hle := Exact.le_offsetAfter s.offset m
  unfold Layout.extend Exact.extend
  dsimp only
  rw [offsetAfter_eq (by omega), subWord_of_le hfree (by omega),
    addWord_of_lt (a := s.offset) (by omega), addWord_of_lt (by omega),
    subWord_of_le (by omega) (by omega)]

theorem Exact.offset_extend (s : Layout) (m : TlsModule) :
    (Exact.extend s m).1.offset = Exact.offsetAfter s.offset m := by
  unfold Exact.extend
  dsimp only
  split <;> rfl

theorem Exact.offset_le_place (s : Layout) (m : TlsModule) :
    s.offset ≤ (Exact.place s m).1.offset := by
  unfold Exact.place
  dsimp only
  split
  · exact le_rfl
  · rw [Exact.offset_extend]
    exact le_trans (Nat.le_add_right _ _) (Exact.le_offsetAfter _ _)

/-- **One turn in words is one turn in exact numbers**, if the space after it fits. -/
theorem place_eq (h : s.Fits) (hlt : (Exact.place s m).1.offset < 2 ^ 63) :
    s.place m = Exact.place s m := by
  obtain ⟨hfree, hoffset, hsmall⟩ := h
  have hfits : Layout.Fits { s with maxAlign := max s.maxAlign m.align } := ⟨hfree, hoffset, hsmall⟩
  unfold Exact.place at hlt ⊢
  unfold Layout.place
  dsimp only at hlt ⊢
  rw [subWord_of_le hfree (by omega)]
  by_cases hroom : s.freebottom - s.freetop ≥ m.blocksize
  · rw [if_pos hroom, offsetAfter_eq (by omega)]
    by_cases hgap : Exact.offsetAfter s.freetop m ≤ s.freebottom
    · rw [if_pos hgap, if_pos ⟨hroom, hgap⟩]
    · rw [if_neg (fun hand => hgap hand.2), Exact.offset_extend] at hlt
      rw [if_neg hgap, if_neg (fun hand => hgap hand.2)]
      exact hfits.extend_eq hlt
  · rw [if_neg (fun hand => hroom hand.1), Exact.offset_extend] at hlt
    rw [if_neg hroom, if_neg (fun hand => hroom hand.1)]
    exact hfits.extend_eq hlt

/-! ## Blocks and gap are apart -/

abbrev Block := TlsModule × Nat

/-- No byte is in both: a block takes the distances from `off - blocksize` to `off`. -/
def Apart (a b : Block) : Prop :=
  a.2 + b.1.blocksize ≤ b.2 ∨ b.2 + a.1.blocksize ≤ a.2 ∨ a.1.blocksize = 0 ∨ b.1.blocksize = 0

/-- Blocks and gap are apart. -/
structure Arranged (s : Layout) (blocks : List Block) : Prop where
  free_le : s.freetop ≤ s.freebottom
  free_offset : s.freebottom ≤ s.offset
  within : ∀ b ∈ blocks, b.1.blocksize ≤ b.2 ∧ b.2 ≤ s.offset
  residue : ∀ b ∈ blocks, (b.2 : Int) ≡ b.1.firstbyte [ZMOD b.1.align]
  gap : ∀ b ∈ blocks, b.2 ≤ s.freetop ∨ s.freebottom + b.1.blocksize ≤ b.2 ∨ b.1.blocksize = 0 ∨
    s.freetop = s.freebottom
  apart : blocks.Pairwise Apart

variable {blocks : List Block}

theorem arranged_start : Arranged Layout.start [] where
  free_le := le_refl 0
  free_offset := le_refl 0
  within := by simp
  residue := by simp
  gap := by simp
  apart := List.Pairwise.nil

theorem pairwise_concat {b : Block} (h : blocks.Pairwise Apart) (hb : ∀ a ∈ blocks, Apart a b) :
    (blocks ++ [b]).Pairwise Apart := by
  apply pairwise_append.2
  refine ⟨h, pairwise_singleton _ _, ?_⟩
  intro a ha c hc
  rw [mem_singleton.1 hc]
  exact hb a ha

theorem Exact.offsetAfter_residue (m : TlsModule) :
    (Exact.offsetAfter top m : Int) ≡ m.firstbyte [ZMOD m.align] := nextCongruent_modEq m.align_pos

section Arranged

variable (h : Arranged s blocks) (m : TlsModule)

include h

/-- A block in the gap shortens it from below. -/
theorem Arranged.fillGap (hgap : Exact.offsetAfter s.freetop m ≤ s.freebottom) (maxAlign : Nat) :
    Arranged { s with maxAlign, freetop := Exact.offsetAfter s.freetop m }
      (blocks ++ [(m, Exact.offsetAfter s.freetop m)]) := by
  have hle := Exact.le_offsetAfter s.freetop m
  have hoffset := h.free_offset
  refine ⟨hgap, hoffset, ?_, ?_, ?_, ?_⟩
  · intro b hb
    rcases mem_append.1 hb with hold | hnew
    · exact h.within b hold
    · rw [mem_singleton.1 hnew]
      dsimp only
      omega
  · intro b hb
    rcases mem_append.1 hb with hold | hnew
    · exact h.residue b hold
    · rw [mem_singleton.1 hnew]
      exact Exact.offsetAfter_residue s.freetop m
  · intro b hb
    dsimp only
    rcases mem_append.1 hb with hold | hnew
    · have hb := h.gap b hold
      omega
    · rw [mem_singleton.1 hnew]
      exact .inl le_rfl
  · apply pairwise_concat h.apart
    intro a ha
    have hold := h.gap a ha
    simp only [Apart]
    omega

/-- A block after all others; the gap stays, or is the new padding. -/
theorem Arranged.extend (maxAlign : Nat) :
    Arranged (Exact.extend { s with maxAlign } m).1
      (blocks ++ [(m, (Exact.extend { s with maxAlign } m).2)]) := by
  have hle := Exact.le_offsetAfter s.offset m
  have hfree := h.free_le
  have hoffset := h.free_offset
  have hwithin : ∀ b ∈ blocks ++ [(m, Exact.offsetAfter s.offset m)],
      b.1.blocksize ≤ b.2 ∧ b.2 ≤ Exact.offsetAfter s.offset m := by
    intro b hb
    rcases mem_append.1 hb with hold | hnew
    · have := h.within b hold
      omega
    · rw [mem_singleton.1 hnew]
      dsimp only
      omega
  have hresidue : ∀ b ∈ blocks ++ [(m, Exact.offsetAfter s.offset m)],
      (b.2 : Int) ≡ b.1.firstbyte [ZMOD b.1.align] := by
    intro b hb
    rcases mem_append.1 hb with hold | hnew
    · exact h.residue b hold
    · rw [mem_singleton.1 hnew]
      exact Exact.offsetAfter_residue s.offset m
  have hapart : (blocks ++ [(m, Exact.offsetAfter s.offset m)]).Pairwise Apart := by
    apply pairwise_concat h.apart
    intro a ha
    have := h.within a ha
    simp only [Apart]
    omega
  unfold Exact.extend
  dsimp only
  split
  · refine ⟨by dsimp only; omega, by dsimp only; omega, hwithin, hresidue, ?_, hapart⟩
    intro b hb
    dsimp only
    rcases mem_append.1 hb with hold | hnew
    · have := h.within b hold
      omega
    · rw [mem_singleton.1 hnew]
      dsimp only
      omega
  · refine ⟨hfree, by dsimp only; omega, hwithin, hresidue, ?_, hapart⟩
    intro b hb
    rcases mem_append.1 hb with hold | hnew
    · exact h.gap b hold
    · rw [mem_singleton.1 hnew]
      dsimp only
      omega

/-- **One turn keeps the blocks apart.** -/
theorem Arranged.place : Arranged (Exact.place s m).1 (blocks ++ [(m, (Exact.place s m).2)]) := by
  unfold Exact.place
  dsimp only
  split
  · next hgap => exact h.fillGap m hgap.2 _
  · exact h.extend m _

end Arranged

/-! ## The loop -/

theorem Exact.offset_le_placeAll (s : Layout) (modules : List TlsModule) :
    s.offset ≤ (Exact.placeAll s modules).1.offset := by
  induction modules generalizing s with
  | nil => exact le_rfl
  | cons m modules ih => exact le_trans (Exact.offset_le_place s m) (ih _)

theorem Arranged.placeAll (h : Arranged s blocks) {modules : List TlsModule}
    (hlt : (Exact.placeAll s modules).1.offset < 2 ^ 63) :
    s.placeAll modules = Exact.placeAll s modules ∧
      (s.placeAll modules).2.length = modules.length ∧
      Arranged (s.placeAll modules).1 (blocks ++ modules.zip (s.placeAll modules).2) := by
  induction modules generalizing s blocks with
  | nil => exact ⟨rfl, rfl, by simpa [Layout.placeAll] using h⟩
  | cons m modules ih =>
    have hnext := Exact.offset_le_placeAll (Exact.place s m).1 modules
    have hle := Exact.offset_le_place s m
    have hplace : s.place m = Exact.place s m :=
      place_eq ⟨h.free_le, h.free_offset, by
        exact lt_of_le_of_lt (le_trans hle hnext) hlt⟩ (lt_of_le_of_lt hnext hlt)
    obtain ⟨heq, hlength, harranged⟩ := ih (h.place m) hlt
    rw [Layout.placeAll, Exact.placeAll, hplace]
    refine ⟨by rw [heq], by rw [length_cons, hlength, length_cons], ?_⟩
    rw [zip_cons_cons, append_cons]
    exact harranged

/-! ## Addresses -/

/-- The addresses of a block, relative to the thread pointer. -/
def addresses (b : Block) : Set Int := Set.Ico (-(b.2 : Int)) (-(b.2 : Int) + b.1.blocksize)

theorem Apart.disjoint {a b : Block} (h : Apart a b) : Disjoint (addresses a) (addresses b) := by
  rw [Set.disjoint_left]
  intro p hp hq
  simp only [addresses, Set.mem_Ico] at hp hq
  simp only [Apart] at h
  omega

/-- **The static TLS layout**: the blocks are apart, within the size that is recorded, and
aligned. -/
theorem dlDetermineTlsoffset_layout (surplus tcbSize : Nat) (modules : List TlsModule)
    (h : totalSpace modules < 2 ^ 63) :
    let result := dlDetermineTlsoffset surplus tcbSize modules
    result.offsets.length = modules.length ∧
      (modules.zip result.offsets).Pairwise (fun a b => Disjoint (addresses a) (addresses b)) ∧
      ∀ b ∈ modules.zip result.offsets, addresses b ⊆ Set.Ico (-(result.used : Int)) 0 ∧
        -(b.2 : Int) ≡ b.1.firstbyteOffset [ZMOD b.1.align] := by
  obtain ⟨-, hlength, harranged⟩ := arranged_start.placeAll h
  refine ⟨hlength, harranged.apart.imp Apart.disjoint, ?_⟩
  intro b hb
  refine ⟨?_, b.1.neg_modEq (harranged.residue b hb)⟩
  intro p hp
  obtain ⟨hsize, hused⟩ := harranged.within b hb
  have hused' : b.2 ≤ (dlDetermineTlsoffset surplus tcbSize modules).used := hused
  simp only [addresses, Set.mem_Ico] at hp ⊢
  omega

def threeModules : List TlsModule :=
  [⟨4, 4, 0, by decide, ⟨2, by decide, rfl⟩, by decide⟩,
    ⟨8, 64, 16, by decide, ⟨6, by decide, rfl⟩, by decide⟩,
    ⟨2, 2, 0, by decide, ⟨1, by decide, rfl⟩, by decide⟩]

theorem dlDetermineTlsoffset_layout_three :
    (dlDetermineTlsoffset 0 0 threeModules).offsets = [4, 48, 6] ∧
      (threeModules.zip (dlDetermineTlsoffset 0 0 threeModules).offsets).Pairwise
        (fun a b => Disjoint (addresses a) (addresses b)) :=
  ⟨by decide +kernel, (dlDetermineTlsoffset_layout 0 0 threeModules (by decide +kernel)).2.1⟩

end SafeLibc.Ldso.Tls
