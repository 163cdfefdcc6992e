import SafeLibc.Malloc.Trim

/-!
# Aligned allocation

`_mid_memalign` and `_int_memalign` of `malloc.c`, on 64-bit words. What lies below, `malloc`,
`_int_malloc` and the thread cache, is a `Heap`, which carries what they promise.

The alignment is rounded up to a power of two, and the result is a multiple of that
(`midMemalign_spec`); for 48 it is 64, and the result need not be a multiple of 48.
-/

namespace SafeLibc.Malloc

structure Chunk where
  addr : Nat
  size : Nat
  mmapped : Bool
  deriving DecidableEq

structure Heap where
  libcMalloc : Nat → Option Nat
  intMalloc : Nat → Option Chunk
  /-- The list of the thread cache for a chunk size. -/
  cached : Nat → List Nat
  /-- The chunk after the one obtained is unused. -/
  nextUnused : Bool
  aligned : ∀ bytes, ∀ m ∈ libcMalloc bytes, 16 ∣ m
  serves : ∀ bytes, ∀ p ∈ intMalloc bytes,
    16 ∣ p.addr ∧ request2size bytes ≤ p.size ∧ p.addr + p.size < 2 ^ 64

/-- The chunk at `chunk`, cut out of `obtained` with `lead` bytes before it and `tail` after it
given back. -/
structure Carved where
  obtained : Chunk
  chunk : Nat
  size : Nat
  lead : Nat
  tail : Nat
  deriving DecidableEq

inductive Served
  | relayed (mem : Nat)
  | cached (te : Nat)
  | carved (c : Carved)
  deriving DecidableEq

def Served.mem : Served → Nat
  | relayed mem => mem
  | cached te => te
  | carved c => c.chunk + 16

def add64 (a b : Nat) : Nat := (a + b) % 2 ^ 64

def sub64 (a b : Nat) : Nat := (a + (2 ^ 64 - b)) % 2 ^ 64

/-- The spare room at the end. -/
def Carved.giveBack (nextUnused : Bool) (nb : Nat) (c : Carved) : Carved :=
  if c.obtained.mmapped then c
  else if c.size > nb then
    if c.size - nb ≥ MINSIZE ∨ nextUnused then { c with size := nb, tail := c.size - nb } else c
  else c

def carve (nextUnused : Bool) (alignment nb : Nat) (p : Chunk) : Carved :=
  let m := add64 p.addr 16
  if m % alignment ≠ 0 then
    let aligned := sub64 (add64 m (alignment - 1) / alignment * alignment) 16
    let brk := if sub64 aligned p.addr < MINSIZE then add64 aligned alignment else aligned
    let leadsize := sub64 brk p.addr
    Carved.giveBack nextUnused nb ⟨p, brk, sub64 p.size leadsize, leadsize, 0⟩
  else Carved.giveBack nextUnused nb ⟨p, p.addr, p.size, 0, 0⟩

def intMemalign (heap : Heap) (alignment bytes : Nat) : Option Carved :=
  let nb := checkedRequest2size bytes
  if nb = 0 ∨ alignment > PTRDIFF_MAX then none
  else (heap.intMalloc (add64 (add64 nb alignment) MINSIZE)).map
    (carve heap.nextUnused alignment nb)

/-- `while (a < alignment) a <<= 1`; `none` when it has not ended after so many turns. -/
def roundLoop (alignment : Nat) : Nat → Nat → Option Nat
  | 0, _ => none
  | turns + 1, a => if a < alignment then roundLoop alignment turns (a * 2 % 2 ^ 64) else some a

/-- `powerof2`, for a number that is not 0. -/
def powerof2 (x : Nat) : Bool := x &&& (x - 1) == 0

def roundAlignment (alignment : Nat) : Option Nat :=
  if powerof2 alignment then some alignment else roundLoop alignment 64 32

/-- `_mid_memalign` after the rounding. -/
def takeAligned (heap : Heap) (bytes alignment : Nat) : Option Served :=
  let tbytes := checkedRequest2size bytes
  if tbytes = 0 then none
  else
    match (heap.cached tbytes).find? fun te => te % alignment = 0 with
    | some te => some (.cached te)
    | none => (intMemalign heap alignment bytes).map .carved

/-- The result is `none` when the rounding does not end, `some none` for `NULL`. -/
def midMemalign (heap : Heap) (alignment bytes : Nat) : Option (Option Served) :=
  if alignment ≤ 16 then some ((heap.libcMalloc bytes).map .relayed)
  else
    let alignment := if alignment < MINSIZE then MINSIZE else alignment
    if alignment > 2 ^ 63 then some none
    else (roundAlignment alignment).map (takeAligned heap bytes)

/-! ## The rounding -/

variable {alignment bytes nb a k : Nat}

/-- The loop ends at the least power of two from `2 ^ k` on that is large enough. -/
theorem roundLoop_eq {turns : Nat} (hle : alignment ≤ 2 ^ 63)
    (hturns : 63 < turns + k) (hk : k ≤ 63) :
    ∃ j, roundLoop alignment turns (2 ^ k) = some (2 ^ j) ∧ alignment ≤ 2 ^ j := by
  induction turns generalizing k with
  | zero => omega
  | succ turns ih =>
    rw [roundLoop]
    by_cases hlt : 2 ^ k < alignment
    · have hk' : k < 63 := (Nat.pow_lt_pow_iff_right (by decide)).1 (Nat.lt_of_lt_of_le hlt hle)
      have hnext : 2 ^ k * 2 % 2 ^ 64 = 2 ^ (k + 1) := by
        rw [← Nat.pow_succ, Nat.mod_eq_of_lt (Nat.pow_lt_pow_right (by decide) (by omega))]
      rw [if_pos hlt, hnext]
      exact ih (by omega) hk'
    · rw [if_neg hlt]
      exact ⟨k, rfl, Nat.le_of_not_lt hlt⟩

theorem roundAlignment_eq (hle : alignment ≤ 2 ^ 63) (hmin : MINSIZE ≤ alignment) :
    ∃ j, roundAlignment alignment = some (2 ^ j) ∧ alignment ≤ 2 ^ j := by
  unfold roundAlignment
  split
  · next hpow =>
    unfold MINSIZE at hmin
    obtain ⟨j, rfl⟩ := (Nat.and_sub_one_eq_zero_iff_isPowerOfTwo (by omega)).1 (beq_iff_eq.1 hpow)
    exact ⟨j, rfl, Nat.le_refl _⟩
  · exact @roundLoop_eq alignment 5 64 hle (by decide) (by decide)

/-! ## The cut -/

theorem checkedRequest2size_le (bytes : Nat) : checkedRequest2size bytes ≤ 2 ^ 63 + 16 := by
  unfold checkedRequest2size request2size PTRDIFF_MAX MINSIZE
  split
  · omega
  · split <;> omega

/-- What is cut out of a chunk obtained for `nb + a + MINSIZE` bytes. -/
structure Fits (nb a : Nat) (c : Carved) : Prop where
  aligned : a ∣ c.chunk + 16
  start : c.chunk = c.obtained.addr + c.lead
  lead : c.lead = 0 ∨ MINSIZE ≤ c.lead
  size : nb ≤ c.size
  stop : c.chunk + c.size + c.tail = c.obtained.addr + c.obtained.size

theorem Fits.giveBack {c : Carved} (h : Fits nb a c) (htail : c.tail = 0) (nextUnused : Bool) :
    Fits nb a (c.giveBack nextUnused nb) ∧ (c.giveBack nextUnused nb).obtained = c.obtained := by
  have hstop := h.stop
  unfold Carved.giveBack
  split
  · exact ⟨h, rfl⟩
  · split
    · split
      · refine ⟨⟨h.aligned, h.start, h.lead, Nat.le_refl nb, ?_⟩, rfl⟩
        dsimp only
        omega
      · exact ⟨h, rfl⟩
    · exact ⟨h, rfl⟩

theorem sub64_of_le {b : Nat} (hle : b ≤ a) (hlt : a < 2 ^ 64) : sub64 a b = a - b := by
  unfold sub64
  omega

theorem carve_fits {p : Chunk} (haddr : 16 ∣ p.addr) (ha : 16 ∣ a) (hpos : 32 ≤ a)
    (hserves : request2size (nb + a + MINSIZE) ≤ p.size) (hend : p.addr + p.size < 2 ^ 64)
    (nextUnused : Bool) :
    Fits nb a (carve nextUnused a nb p) ∧ (carve nextUnused a nb p).obtained = p := by
  have hroom : nb + a + 40 ≤ p.size := by
    unfold request2size MINSIZE at hserves
    split at hserves <;> omega
  have hm : add64 p.addr 16 = p.addr + 16 := Nat.mod_eq_of_lt (by omega)
  unfold carve
  dsimp only
  rw [hm]
  split
  · next hmis =>
    -- the next multiple of the alignment, above the memory obtained
    have hsum : add64 (p.addr + 16) (a - 1) = p.addr + 16 + (a - 1) := Nat.mod_eq_of_lt (by omega)
    have hdvd := Nat.dvd_mul_left a ((p.addr + 16 + (a - 1)) / a)
    have hlt := Nat.lt_div_mul_add (a := p.addr + 16 + (a - 1)) (show 0 < a by omega)
    have hle := Nat.div_mul_le_self (p.addr + 16 + (a - 1)) a
    rw [hsum]
    generalize (p.addr + 16 + (a - 1)) / a * a = q at hdvd hlt hle ⊢
    rw [sub64_of_le (show 16 ≤ q by omega) (by omega), sub64_of_le (by omega) (by omega)]
    unfold MINSIZE
    split
    · have hbrk : add64 (q - 16) a = q - 16 + a := Nat.mod_eq_of_lt (by omega)
      have hlead := sub64_of_le (show p.addr ≤ q - 16 + a by omega) (by omega)
      rw [hbrk, sub64_of_le (by omega) (by omega)]
      apply Fits.giveBack _ rfl
      constructor
      · have hmem : q - 16 + a + 16 = q + a := by omega
        exact hmem ▸ Nat.dvd_add hdvd (Nat.dvd_refl a)
      all_goals
        dsimp only [MINSIZE]
        omega
    · have hlead := sub64_of_le (show p.addr ≤ q - 16 by omega) (by omega)
      rw [sub64_of_le (by omega) (by omega)]
      apply Fits.giveBack _ rfl
      constructor
      · have hmem : q - 16 + 16 = q := by omega
        exact hmem ▸ hdvd
      all_goals
        dsimp only [MINSIZE]
        omega
  · next hdvd =>
    apply Fits.giveBack _ rfl
    exact ⟨Nat.dvd_of_mod_eq_zero (not_not.1 hdvd), rfl, .inl rfl, by dsimp only; omega, rfl⟩

theorem sum_lt (ha : a.isPowerOfTwo) (hle : a ≤ PTRDIFF_MAX) (bytes : Nat) :
    checkedRequest2size bytes + a + MINSIZE < 2 ^ 64 := by
  have hnb := checkedRequest2size_le bytes
  obtain ⟨k, rfl⟩ := ha
  unfold PTRDIFF_MAX at hle
  have hk : k < 63 := (Nat.pow_lt_pow_iff_right (by decide)).1 (show 2 ^ k < 2 ^ 63 by omega)
  have hpow : 2 ^ k ≤ 2 ^ 62 := Nat.pow_le_pow_right (by decide) (by omega)
  unfold MINSIZE
  omega

/-- What is returned is cut out of the chunk obtained for the sum. -/
theorem intMemalign_fits (heap : Heap) (hk : 32 ≤ 2 ^ k) {c : Carved}
    (h : intMemalign heap (2 ^ k) bytes = some c) :
    heap.intMalloc (checkedRequest2size bytes + 2 ^ k + MINSIZE) = some c.obtained ∧
      Fits (checkedRequest2size bytes) (2 ^ k) c := by
  unfold intMemalign at h
  dsimp only at h
  split at h
  · cases h
  · next hok =>
    rw [not_or, not_lt] at hok
    have hsum := sum_lt ⟨k, rfl⟩ hok.2 bytes
    have hdvd : 16 ∣ 2 ^ k :=
      Nat.pow_dvd_pow 2
        (Nat.le_of_succ_le ((Nat.pow_le_pow_iff_right (show 1 < 2 by decide)).1 hk) : 4 ≤ k)
    rw [add64, add64, Nat.mod_add_mod, Nat.mod_eq_of_lt hsum] at h
    obtain ⟨p, hp, rfl⟩ := Option.map_eq_some_iff.1 h
    obtain ⟨haddr, hserves, hend⟩ := heap.serves _ p hp
    obtain ⟨hfits, hobtained⟩ := carve_fits haddr hdvd hk hserves hend heap.nextUnused
    exact ⟨by rw [hobtained, hp], hfits⟩

/-- A result for a rounded alignment `a`. -/
structure Served.Good (heap : Heap) (bytes a : Nat) (s : Served) : Prop where
  aligned : a ∣ s.mem
  fits : ∀ c, s = carved c →
    heap.intMalloc (checkedRequest2size bytes + a + MINSIZE) = some c.obtained ∧
      Fits (checkedRequest2size bytes) a c

theorem takeAligned_good {heap : Heap} (hk : 32 ≤ 2 ^ k) {s : Served}
    (h : takeAligned heap bytes (2 ^ k) = some s) : s.Good heap bytes (2 ^ k) := by
  unfold takeAligned at h
  dsimp only at h
  split at h
  · cases h
  · split at h
    · next te hte =>
      cases h
      have hmod : te % 2 ^ k = 0 := by simpa using List.find?_some hte
      exact ⟨Nat.dvd_of_mod_eq_zero hmod, fun c hc => by cases hc⟩
    · obtain ⟨c, hc, rfl⟩ := Option.map_eq_some_iff.1 h
      have hfits := intMemalign_fits heap hk hc
      refine ⟨hfits.2.aligned, ?_⟩
      rintro _ ⟨⟩
      exact hfits

/-- The rounding ends; a sum that is requested does not wrap; a result that is not `NULL` is a
multiple of a power of two that is at least the alignment, cut out of the chunk obtained. -/
theorem midMemalign_spec (heap : Heap) (alignment bytes : Nat) :
    (∀ a, a.isPowerOfTwo → a ≤ PTRDIFF_MAX → checkedRequest2size bytes + a + MINSIZE < 2 ^ 64) ∧
    ∃ r, midMemalign heap alignment bytes = some r ∧
      (2 ^ 63 < alignment ∨ 16 < alignment ∧ PTRDIFF_MAX < bytes → r = none) ∧
      ∀ s ∈ r, (∃ a, a.isPowerOfTwo ∧ alignment ≤ a ∧ s.Good heap bytes a) ∧
        (alignment.isPowerOfTwo → alignment ∣ s.mem) := by
  refine ⟨fun a ha hle => sum_lt ha hle bytes, ?_⟩
  -- a power of two that is not larger divides
  have hgood : ∀ {k : Nat} {s : Served}, alignment ≤ 2 ^ k → s.Good heap bytes (2 ^ k) →
      (∃ a, a.isPowerOfTwo ∧ alignment ≤ a ∧ s.Good heap bytes a) ∧
        (alignment.isPowerOfTwo → alignment ∣ s.mem) := by
    intro k s hle hs
    refine ⟨⟨2 ^ k, ⟨k, rfl⟩, hle, hs⟩, ?_⟩
    rintro ⟨j, rfl⟩
    exact (Nat.pow_dvd_pow 2 ((Nat.pow_le_pow_iff_right (by decide)).1 hle)).trans hs.aligned
  unfold midMemalign
  by_cases hsmall : alignment ≤ 16
  · rw [if_pos hsmall]
    refine ⟨_, rfl, fun h => by omega, ?_⟩
    intro s hs
    obtain ⟨m, hm, rfl⟩ := Option.map_eq_some_iff.1 hs
    exact hgood (k := 4) hsmall ⟨heap.aligned bytes m hm, fun c hc => by cases hc⟩
  · have hraised : MINSIZE ≤ (if alignment < MINSIZE then MINSIZE else alignment) ∧
        alignment ≤ (if alignment < MINSIZE then MINSIZE else alignment) := by
      split <;> omega
    rw [if_neg hsmall]
    generalize (if alignment < MINSIZE then MINSIZE else alignment) = a at hraised
    dsimp only
    split
    · exact ⟨none, rfl, fun _ => rfl, fun s hs => by cases hs⟩
    · next hle =>
      obtain ⟨k, hround, hk⟩ := roundAlignment_eq (not_lt.1 hle) hraised.1
      rw [hround]
      refine ⟨_, rfl, ?_, fun s hs =>
        hgood (hraised.2.trans hk) (takeAligned_good (hraised.1.trans hk) hs)⟩
      rintro (hlarge | ⟨-, hbytes⟩)
      · omega
      · exact if_pos (if_pos hbytes)

/-- One chunk of two pages. -/
def pages : Heap where
  libcMalloc _ := none
  intMalloc bytes := if request2size bytes ≤ 8192 then some ⟨4096, 8192, false⟩ else none
  cached _ := []
  nextUnused := false
  aligned _ m hm := by cases hm
  serves bytes p hp := by
    split at hp
    · next hle =>
      cases hp
      exact ⟨by decide, hle, by decide⟩
    · cases hp

/-- The chunk of two pages is cut at the next multiple of 1024. -/
theorem midMemalign_spec_page :
    ∃ s, midMemalign pages 1024 100 = some (some s) ∧ 1024 ∣ s.mem := by
  obtain ⟨-, r, hr, -, hs⟩ := midMemalign_spec pages 1024 100
  have hcarved : midMemalign pages 1024 100 =
      some (some (.carved ⟨⟨4096, 8192, false⟩, 5104, 112, 1008, 7072⟩)) := by
    decide
  obtain rfl := Option.some.inj (hr.symm.trans hcarved)
  exact ⟨_, hcarved, (hs _ rfl).2 ⟨10, rfl⟩⟩

/-- An alignment that is no power of two need not divide the result. -/
theorem midMemalign_fortyEight :
    ∃ s, midMemalign pages 48 100 = some (some s) ∧ ¬ 48 ∣ s.mem :=
  ⟨.carved ⟨⟨4096, 8192, false⟩, 4144, 112, 48, 8032⟩, by decide, by decide⟩

end SafeLibc.Malloc
