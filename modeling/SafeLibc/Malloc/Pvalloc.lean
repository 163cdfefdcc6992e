import SafeLibc.Malloc.Memalign
import Mathlib.Order.Bounds.Defs

/-!
# `__libc_pvalloc`

The byte count is rounded up to whole pages by a sum and a mask, and `_mid_memalign` is asked for
the result. The mask is the negative of `pagesize - 1`, not its complement: it keeps the lowest bit
of the sum, which is set where the byte count is even.
-/

namespace SafeLibc.Malloc

/-- The byte count that `_mid_memalign` is asked for; `none` is the return with `ENOMEM`. -/
def pvallocRequest (pagesize bytes : Nat) : Option Nat :=
  if 2 ^ 64 ≤ bytes + (pagesize - 1) then none
  else some ((bytes + (pagesize - 1)) &&& sub64 0 (pagesize - 1))

/-- The result is `none` when `_mid_memalign` does not return, `some none` for `NULL`. -/
def libcPvalloc (heap : Heap) (pagesize bytes : Nat) : Option (Option Served) :=
  match pvallocRequest pagesize bytes with
  | none => some none
  | some roundedBytes => midMemalign heap pagesize roundedBytes

variable {k bytes : Nat}

theorem and_blocks {a b c d : Nat} (hb : b < 2 ^ k) (hd : d < 2 ^ k) :
    (2 ^ k * a + b) &&& (2 ^ k * c + d) = 2 ^ k * (a &&& c) + (b &&& d) := by
  apply Nat.eq_of_testBit_eq
  intro j
  rw [Nat.testBit_and, Nat.testBit_two_pow_mul_add _ hb, Nat.testBit_two_pow_mul_add _ hd,
    Nat.testBit_two_pow_mul_add _ (lt_of_le_of_lt Nat.and_le_left hb)]
  split <;> rw [Nat.testBit_and]

/-- The mask keeps whole pages and the lowest bit. -/
theorem and_mask {sum : Nat} (hk : 1 < 2 ^ k) (hk' : k < 64) (hsum : sum < 2 ^ 64) :
    sum &&& sub64 0 (2 ^ k - 1) = 2 ^ k * (sum / 2 ^ k) + sum % 2 ^ k % 2 := by
  have hpow : 2 ^ k * 2 ^ (64 - k) = 2 ^ 64 := by
    rw [← pow_add, Nat.add_sub_cancel' (le_of_lt hk')]
  have hmask : sub64 0 (2 ^ k - 1) = 2 ^ k * (2 ^ (64 - k) - 1) + 1 := by
    have hle : 2 ^ k ≤ 2 ^ 64 := Nat.pow_le_pow_right (by decide) (by omega)
    rw [Nat.mul_sub, hpow, mul_one]
    unfold sub64
    omega
  have hpages : sum / 2 ^ k < 2 ^ (64 - k) := Nat.div_lt_of_lt_mul (hpow ▸ hsum)
  have hand := @and_blocks k (sum / 2 ^ k) (sum % 2 ^ k) (2 ^ (64 - k) - 1) 1
    (Nat.mod_lt _ (Nat.two_pow_pos k)) hk
  rw [Nat.div_add_mod, Nat.and_two_pow_sub_one_eq_mod, Nat.mod_eq_of_lt hpages,
    Nat.and_one_is_mod] at hand
  rw [hmask, hand]

theorem midMemalign_two_pow (heap : Heap) (hk : 32 ≤ 2 ^ k) (hk' : k < 64) (bytes : Nat) :
    ∃ r, midMemalign heap (2 ^ k) bytes = some r ∧ ∀ s ∈ r, 2 ^ k ∣ s.mem := by
  have hle : 2 ^ k ≤ 2 ^ 63 := Nat.pow_le_pow_right (by decide) (by omega)
  obtain ⟨j, hround, hj⟩ := roundAlignment_eq hle hk
  have hraised : (if 2 ^ k < MINSIZE then MINSIZE else 2 ^ k) = 2 ^ k := if_neg (Nat.not_lt.2 hk)
  rw [midMemalign, if_neg (by omega)]
  simp only [hraised]
  rw [if_neg (Nat.not_lt.2 hle), hround]
  refine ⟨_, rfl, fun s hs => ?_⟩
  have hgood := takeAligned_good (hk.trans hj) hs
  exact (Nat.pow_dvd_pow 2 ((Nat.pow_le_pow_iff_right (by decide)).1 hj)).trans hgood.aligned

theorem isLeast_pages (hpos : 0 < k) (bytes : Nat) :
    IsLeast {m | k ∣ m ∧ bytes ≤ m} (k * ((bytes + (k - 1)) / k)) := by
  refine ⟨⟨Nat.dvd_mul_right _ _, ?_⟩, ?_⟩
  · have hdiv := Nat.div_add_mod (bytes + (k - 1)) k
    have hmod := Nat.mod_lt (bytes + (k - 1)) hpos
    omega
  · rintro m ⟨⟨q, rfl⟩, hle⟩
    have hlt : (bytes + (k - 1)) / k < q + 1 := by
      rw [Nat.div_lt_iff_lt_mul hpos, mul_comm, Nat.mul_succ]
      omega
    exact Nat.mul_le_mul_left k (Nat.lt_succ_iff.1 hlt)

/-- What `pvalloc` is for: it fails exactly where the least number of whole pages is not a word,
asks for that number elsewhere, and returns at the start of a page. -/
structure ServesPages (pagesize bytes : Nat) : Prop where
  request : ∃ rounded, IsLeast {m | pagesize ∣ m ∧ bytes ≤ m} rounded ∧
    pvallocRequest pagesize bytes = if 2 ^ 64 ≤ rounded then none else some rounded
  aligned : ∀ heap, ∃ r, libcPvalloc heap pagesize bytes = some r ∧ ∀ s ∈ r, pagesize ∣ s.mem

theorem libcPvalloc_aligned (heap : Heap) (hk : 32 ≤ 2 ^ k) (hk' : k < 64) (bytes : Nat) :
    ∃ r, libcPvalloc heap (2 ^ k) bytes = some r ∧ ∀ s ∈ r, 2 ^ k ∣ s.mem := by
  unfold libcPvalloc
  split
  · exact ⟨none, rfl, fun s hs => by cases hs⟩
  · next roundedBytes _ => exact midMemalign_two_pow heap hk hk' roundedBytes

/-- The sum overflows exactly where the number of whole pages does. -/
theorem overflow_iff (hk : k < 64) (sum : Nat) :
    2 ^ 64 ≤ 2 ^ k * (sum / 2 ^ k) ↔ 2 ^ 64 ≤ sum := by
  refine ⟨fun hle => hle.trans (Nat.mul_div_le sum (2 ^ k)), fun hle => ?_⟩
  obtain ⟨q, hq⟩ := Nat.pow_dvd_pow 2 (le_of_lt hk)
  rw [hq, mul_comm] at hle
  rw [hq]
  exact Nat.mul_le_mul_left _ ((Nat.le_div_iff_mul_le (Nat.two_pow_pos k)).2 hle)

/-- **Whole pages are asked for** if the byte count is odd, and otherwise only where the sum
overflows. -/
theorem servesPages_iff {pagesize : Nat} (hpage : pagesize.isPowerOfTwo) (hmin : 4096 ≤ pagesize)
    (hsize : pagesize < 2 ^ 64) :
    ServesPages pagesize bytes ↔ bytes % 2 = 1 ∨ 2 ^ 64 ≤ bytes + (pagesize - 1) := by
  obtain ⟨k, rfl⟩ := hpage
  have hk : k < 64 := (Nat.pow_lt_pow_iff_right (by decide)).1 hsize
  have hleast := isLeast_pages (Nat.two_pow_pos k) bytes
  have hlast := overflow_iff hk (bytes + (2 ^ k - 1))
  -- the bit that the mask keeps
  have hbit : (bytes + (2 ^ k - 1)) % 2 ^ k % 2 = (bytes + 1) % 2 := by
    have hdvd : 2 ∣ 2 ^ k := dvd_pow_self 2 (by rintro rfl; omega)
    rw [Nat.mod_mod_of_dvd _ hdvd]
    omega
  constructor
  · rintro ⟨⟨rounded, hrounded, hrequest⟩, -⟩
    by_contra hnot
    push Not at hnot
    obtain ⟨heven, hlt⟩ := hnot
    obtain rfl := hrounded.unique hleast
    rw [pvallocRequest, if_neg (by omega), if_neg (mt hlast.1 (by omega)),
      and_mask (by omega) hk hlt, hbit] at hrequest
    have heq := Option.some.inj hrequest
    omega
  · intro hwhen
    refine ⟨⟨_, hleast, ?_⟩, fun heap => libcPvalloc_aligned heap (by omega) hk bytes⟩
    rw [pvallocRequest]
    by_cases hover : 2 ^ 64 ≤ bytes + (2 ^ k - 1)
    · rw [if_pos hover, if_pos (hlast.2 hover)]
    · have hodd : (bytes + 1) % 2 = 0 := by omega
      rw [if_neg hover, if_neg (mt hlast.1 hover), and_mask (by omega) hk (by omega), hbit, hodd,
        add_zero]

/-- Five bytes take one page; a byte count one below the largest overflows. -/
theorem servesPages_five : ServesPages 4096 5 ∧ ServesPages 4096 (2 ^ 64 - 2) :=
  ⟨(servesPages_iff ⟨12, rfl⟩ (by decide) (by decide)).2 (.inl (by decide)),
    (servesPages_iff ⟨12, rfl⟩ (by decide) (by decide)).2 (.inr (by decide))⟩

/-- Two bytes: one more than a page is asked for. -/
theorem not_servesPages_two :
    pvallocRequest 4096 2 = some 4097 ∧ IsLeast {m | 4096 ∣ m ∧ 2 ≤ m} 4096 ∧
      ¬ ServesPages 4096 2 := by
  have hleast : IsLeast {m | 4096 ∣ m ∧ 2 ≤ m} 4096 := isLeast_pages (by decide) 2
  refine ⟨rfl, hleast, ?_⟩
  rintro ⟨⟨rounded, hrounded, hrequest⟩, -⟩
  obtain rfl := hrounded.unique hleast
  cases hrequest

end SafeLibc.Malloc
