import SafeLibc.Lib.Sorting
import SafeLibc.Stdlib.Qsort

/-!
# Merge sort through the temporary buffer

`msort_with_tmp` leaves the stable sort of its elements and changes no byte outside the array and
the buffer (`msortWithTmp_spec`). The elements may be pointers, whose comparison looks at memory
elsewhere: `Respects` says that it is a comparison `rel` of the elements as long as that memory is
not written.
-/

namespace SafeLibc.Stdlib

open SafeLibc.Lib List

def AgreesOff (W : Nat → Prop) (M₀ M : Mem) : Prop := ∀ a, ¬ W a → M a = M₀ a

/-- On good elements the comparison is `rel`, in every memory that is `M₀` outside `W`. -/
def Respects (p : MsortParam) (M₀ : Mem) (W : Nat → Prop) (good : Block p.s → Prop)
    (rel : Block p.s → Block p.s → Int) : Prop :=
  ∀ M x y, AgreesOff W M₀ M → good (M.load x p.s) → good (M.load y p.s) →
    p.compare M x y = rel (M.load x p.s) (M.load y p.s)

def Writable (W : Nat → Prop) (p n : Nat) : Prop := ∀ a, p ≤ a → a < p + n → W a

variable {W : Nat → Prop} {M₀ M : Mem} {src n b m : Nat}

theorem AgreesOff.copy (h : AgreesOff W M₀ M) {dst : Nat}
    (hw : Writable W dst n) : AgreesOff W M₀ (M.copy dst src n) := by
  intro a ha
  have hout : a < dst ∨ dst + n ≤ a := by
    by_contra hin
    exact ha (hw a (by omega) (by omega))
  rw [Mem.copy_of_not_mem hout, h a ha]

/-- Writing an array and a buffer that are writable. -/
theorem AgreesOff.frame {M' : Mem} (h : AgreesOff W M₀ M) {t : Nat}
    (hb : Writable W b n) (ht : Writable W t m)
    (hframe : ∀ a, a < b ∨ b + n ≤ a → a < t ∨ t + m ≤ a → M' a = M a) : AgreesOff W M₀ M' := by
  intro a ha
  rw [hframe a, h a ha]
  · by_contra hin
    exact ha (hb a (by omega) (by omega))
  · by_contra hin
    exact ha (ht a (by omega) (by omega))

theorem Writable.mono {p q : Nat} (h : Writable W p n) (hq : p ≤ q)
    (hm : q + m ≤ p + n) : Writable W q m :=
  fun a hge hlt => h a (by omega) (by omega)

/-- With `i` and `j` elements taken from the halves, what is written and what is left is the
merge. -/
structure MergeSpec {p : MsortParam} (rel : Block p.s → Block p.s → Int) (M : Mem)
    (b₁ n₁ b₂ n₂ tmp : Nat) (m : Merged) (i j : Nat) : Prop where
  n₁_eq : n₁ = i + m.n₁
  n₂_eq : n₂ = j + m.n₂
  done : m.n₁ = 0 ∨ m.n₂ = 0
  b₁_eq : m.b₁ = b₁ + i * p.s
  tmp_eq : m.tmp = tmp + (i + j) * p.s
  frame : ∀ a, a < tmp ∨ tmp + (i + j) * p.s ≤ a → m.mem a = M a
  cells : m.mem.cells tmp p.s (i + j) ++
      (M.cells (b₁ + i * p.s) p.s m.n₁ ++ M.cells (b₂ + j * p.s) p.s m.n₂) =
    (M.cells b₁ p.s n₁).merge (M.cells b₂ p.s n₂) fun a b => rel a b ≤ 0

section

variable {p : MsortParam} {rel : Block p.s → Block p.s → Int} {M : Mem}
  {b₁ n₁ b₂ n₂ tmp i j : Nat} {m : Merged}

theorem MergeSpec.cons (h₁ : Apart tmp p.s b₁ (n₁ * p.s)) (h₂ : Apart tmp p.s b₂ (n₂ * p.s))
    (h : MergeSpec rel (M.copy tmp src p.s) b₁ n₁ b₂ n₂ (tmp + p.s) m i j) :
    (∀ a, a < tmp ∨ tmp + (i + j + 1) * p.s ≤ a → m.mem a = M a) ∧
      m.mem.cells tmp p.s (i + j + 1) ++
          (M.cells (b₁ + i * p.s) p.s m.n₁ ++ M.cells (b₂ + j * p.s) p.s m.n₂) =
        M.load src p.s :: (M.cells b₁ p.s n₁).merge (M.cells b₂ p.s n₂) fun a b => rel a b ≤ 0 := by
  constructor
  · intro a ha
    rw [Nat.succ_mul] at ha
    rw [h.frame a (by omega), Mem.copy_of_not_mem (by omega)]
  · have hload : m.mem.load tmp p.s = M.load src p.s := by
      rw [Mem.load_congr fun a _ hlt => h.frame a (.inl hlt)]
      exact Mem.load_store _
    have hrest₁ : (M.copy tmp src p.s).cells (b₁ + i * p.s) p.s m.n₁ =
        M.cells (b₁ + i * p.s) p.s m.n₁ := by
      refine Mem.cells_copy_of_apart (h₁.mono le_rfl le_rfl (by omega) ?_)
      rw [h.n₁_eq, add_mul, add_assoc]
    have hrest₂ : (M.copy tmp src p.s).cells (b₂ + j * p.s) p.s m.n₂ =
        M.cells (b₂ + j * p.s) p.s m.n₂ := by
      refine Mem.cells_copy_of_apart (h₂.mono le_rfl le_rfl (by omega) ?_)
      rw [h.n₂_eq, add_mul, add_assoc]
    have hmerge := h.cells
    rw [hrest₁, hrest₂, Mem.cells_copy_of_apart h₁, Mem.cells_copy_of_apart h₂] at hmerge
    rw [Mem.cells_succ, hload, cons_append, hmerge]

theorem MergeSpec.consLeft (h₁ : Apart tmp p.s (b₁ + p.s) (n₁ * p.s))
    (h₂ : Apart tmp p.s b₂ ((n₂ + 1) * p.s)) (hle : rel (M.load b₁ p.s) (M.load b₂ p.s) ≤ 0)
    (h : MergeSpec rel (M.copy tmp b₁ p.s) (b₁ + p.s) n₁ b₂ (n₂ + 1) (tmp + p.s) m i j) :
    MergeSpec rel M b₁ (n₁ + 1) b₂ (n₂ + 1) tmp m (i + 1) j := by
  obtain ⟨hframe, hcells⟩ := h.cons h₁ h₂
  have hij : i + 1 + j = i + j + 1 := by omega
  have hi : (i + 1) * p.s = p.s + i * p.s := by rw [Nat.succ_mul, add_comm]
  refine ⟨?_, h.n₂_eq, h.done, ?_, ?_, hij ▸ hframe, ?_⟩
  · rw [h.n₁_eq, add_right_comm]
  · rw [h.b₁_eq, hi, add_assoc]
  · rw [h.tmp_eq, hij, Nat.succ_mul, add_right_comm, add_assoc]
  · rw [hij, hi, ← add_assoc, hcells, Mem.cells_succ (n := n₁), Mem.cells_succ (n := n₂),
      cons_merge_cons, if_pos (decide_eq_true hle)]

theorem MergeSpec.consRight (h₁ : Apart tmp p.s b₁ ((n₁ + 1) * p.s))
    (h₂ : Apart tmp p.s (b₂ + p.s) (n₂ * p.s)) (hgt : ¬ rel (M.load b₁ p.s) (M.load b₂ p.s) ≤ 0)
    (h : MergeSpec rel (M.copy tmp b₂ p.s) b₁ (n₁ + 1) (b₂ + p.s) n₂ (tmp + p.s) m i j) :
    MergeSpec rel M b₁ (n₁ + 1) b₂ (n₂ + 1) tmp m i (j + 1) := by
  obtain ⟨hframe, hcells⟩ := h.cons h₁ h₂
  have hj : (j + 1) * p.s = p.s + j * p.s := by rw [Nat.succ_mul, add_comm]
  refine ⟨h.n₁_eq, ?_, h.done, h.b₁_eq, ?_, hframe, ?_⟩
  · rw [h.n₂_eq, add_right_comm]
  · rw [h.tmp_eq, ← add_assoc i, Nat.succ_mul, add_right_comm, add_assoc]
  · rw [hj, ← add_assoc b₂, ← add_assoc i, hcells, Mem.cells_succ (n := n₁),
      Mem.cells_succ (n := n₂), cons_merge_cons, if_neg (by simpa using hgt)]

/-- What follows the loop: the rest of the first half goes to the buffer, and the buffer to the
array. -/
def Merged.copyBack (p : MsortParam) (m : Merged) (b n : Nat) : Mem :=
  (if 0 < m.n₁ then m.mem.copy m.tmp m.b₁ (m.n₁ * p.s) else m.mem).copy b p.t ((n - m.n₂) * p.s)

section CopyBack

variable {b : Nat} (h : MergeSpec rel M b n₁ (b + n₁ * p.s) n₂ p.t m i j)
  (happ : Apart p.t ((n₁ + n₂) * p.s) b ((n₁ + n₂) * p.s))

include h

/-- The buffer and what is beyond it after the first of the two copies. -/
theorem MergeSpec.flush (happ : Apart p.t ((n₁ + n₂) * p.s) b ((n₁ + n₂) * p.s)) :
    ∃ M₃, (if 0 < m.n₁ then m.mem.copy m.tmp m.b₁ (m.n₁ * p.s) else m.mem) = M₃ ∧
      (∀ a, a < p.t ∨ p.t + (i + j + m.n₁) * p.s ≤ a → M₃ a = M a) ∧
      M₃.cells p.t p.s (i + j + m.n₁) =
        m.mem.cells p.t p.s (i + j) ++ M.cells (b + i * p.s) p.s m.n₁ := by
  have hall : (n₁ + n₂) * p.s = i * p.s + m.n₁ * p.s + (j * p.s + m.n₂ * p.s) := by
    rw [h.n₁_eq, h.n₂_eq, add_mul, add_mul, add_mul]
  have hij : (i + j) * p.s = i * p.s + j * p.s := add_mul ..
  have hijn : (i + j + m.n₁) * p.s = i * p.s + j * p.s + m.n₁ * p.s := by rw [add_mul, hij]
  have htmp := h.tmp_eq
  have hb₁ := h.b₁_eq
  unfold Apart at happ
  rcases Nat.eq_zero_or_pos m.n₁ with hzero | hpos
  · refine ⟨m.mem, if_neg (by omega), fun a ha => h.frame a ?_, ?_⟩
    · rwa [hzero] at ha
    · rw [hzero]
      simp [Mem.cells]
  · refine ⟨_, if_pos hpos, fun a ha => ?_, ?_⟩
    · rw [Mem.copy_of_not_mem (by omega), h.frame a (by omega)]
    · rw [Mem.cells_add, Mem.cells_copy_of_apart (by unfold Apart; omega),
        ← htmp, Mem.cells_copy, hb₁]
      exact congrArg _ (Mem.cells_congr fun a _ _ => h.frame a (by omega))

include happ

theorem MergeSpec.frame_copyBack {a : Nat} (hb : a < b ∨ b + (n₁ + n₂) * p.s ≤ a)
    (ht : a < p.t ∨ p.t + (n₁ + n₂) * p.s ≤ a) : m.copyBack p b (n₁ + n₂) a = M a := by
  obtain ⟨M₃, heq, hframe, -⟩ := h.flush happ
  have htaken : n₁ + n₂ - m.n₂ = i + j + m.n₁ := by
    have := h.n₁_eq
    have := h.n₂_eq
    omega
  have hle : (i + j + m.n₁) * p.s ≤ (n₁ + n₂) * p.s := Nat.mul_le_mul_right _ (by omega)
  rw [Merged.copyBack, heq, htaken, Mem.copy_of_not_mem (by omega), hframe a (by omega)]

theorem MergeSpec.cells_copyBack : (m.copyBack p b (n₁ + n₂)).cells b p.s (n₁ + n₂) =
    (M.cells b p.s n₁).merge (M.cells (b + n₁ * p.s) p.s n₂) fun a b => rel a b ≤ 0 := by
  obtain ⟨M₃, heq, hframe, hcells⟩ := h.flush happ
  have htaken : n₁ + n₂ - m.n₂ = i + j + m.n₁ := by
    have := h.n₁_eq
    have := h.n₂_eq
    omega
  have hsplit : n₁ + n₂ = i + j + m.n₁ + m.n₂ := by
    have := h.n₂_eq
    omega
  have hall : (n₁ + n₂) * p.s = (i + j + m.n₁) * p.s + m.n₂ * p.s := by rw [hsplit, add_mul]
  have hplace : b + (i + j + m.n₁) * p.s = b + n₁ * p.s + j * p.s := by
    rw [h.n₁_eq, add_mul, add_mul, add_mul]
    omega
  have hrest : ((M₃.copy b p.t ((i + j + m.n₁) * p.s)).cells (b + (i + j + m.n₁) * p.s) p.s m.n₂) =
      M.cells (b + n₁ * p.s + j * p.s) p.s m.n₂ := by
    rw [hplace]
    refine Mem.cells_congr fun a hge hlt => ?_
    unfold Apart at happ
    rw [Mem.copy_of_not_mem (by omega), hframe a (by omega)]
  rw [Merged.copyBack, heq, htaken, hsplit, Mem.cells_add, Mem.cells_copy, hrest, hcells,
    append_assoc, h.cells]

end CopyBack

variable {M₀ : Mem} {W : Nat → Prop} {good : Block p.s → Prop} (hwidth : p.width = p.s)
  (hres : Respects p M₀ W good rel)

include hwidth hres

theorem mergeLoop_spec (hM : AgreesOff W M₀ M)
    (htmp : Writable W tmp ((n₁ + n₂) * p.s)) (h₁ : Apart tmp ((n₁ + n₂) * p.s) b₁ (n₁ * p.s))
    (h₂ : Apart tmp ((n₁ + n₂) * p.s) b₂ (n₂ * p.s)) (hgood₁ : ∀ x ∈ M.cells b₁ p.s n₁, good x)
    (hgood₂ : ∀ x ∈ M.cells b₂ p.s n₂, good x) :
    ∃ i j, MergeSpec rel M b₁ n₁ b₂ n₂ tmp (mergeLoop p M b₁ n₁ b₂ n₂ tmp) i j := by
  fun_induction mergeLoop p M b₁ n₁ b₂ n₂ tmp with
  | case1 M b₁ n₁ b₂ n₂ tmp hpos hle ih =>
    obtain ⟨k, rfl⟩ := Nat.exists_eq_succ_of_ne_zero hpos.1.ne'
    obtain ⟨l, rfl⟩ := Nat.exists_eq_succ_of_ne_zero hpos.2.ne'
    have hk : (k + 1) * p.s = k * p.s + p.s := Nat.succ_mul k p.s
    have hall : (k + 1 + (l + 1)) * p.s = k * p.s + p.s + (l + 1) * p.s := by rw [add_mul, hk]
    have hrest : (k + (l + 1)) * p.s = k * p.s + (l + 1) * p.s := add_mul ..
    rw [hwidth] at ih ⊢
    simp only [Nat.succ_eq_add_one, Nat.add_sub_cancel] at *
    rw [Mem.cells_succ] at hgood₁
    have hx : good (M.load b₁ p.s) := hgood₁ _ mem_cons_self
    have hy : good (M.load b₂ p.s) := hgood₂ _ (by rw [Mem.cells_succ]; exact mem_cons_self)
    have happ₁ : Apart tmp p.s (b₁ + p.s) (k * p.s) := by unfold Apart at *; omega
    have happ₂ : Apart tmp p.s b₂ ((l + 1) * p.s) := by unfold Apart at *; omega
    obtain ⟨i, j, hspec⟩ := ih (hM.copy (htmp.mono le_rfl (by omega)))
      (htmp.mono (by omega) (by omega)) (by unfold Apart at *; omega) (by unfold Apart at *; omega)
      (by rw [Mem.cells_copy_of_apart happ₁]; exact fun x hx => hgood₁ x (mem_cons_of_mem _ hx))
      (by rwa [Mem.cells_copy_of_apart happ₂])
    exact ⟨i + 1, j, hspec.consLeft happ₁ happ₂ (hres M b₁ b₂ hM hx hy ▸ hle)⟩
  | case2 M b₁ n₁ b₂ n₂ tmp hpos hgt ih =>
    obtain ⟨k, rfl⟩ := Nat.exists_eq_succ_of_ne_zero hpos.1.ne'
    obtain ⟨l, rfl⟩ := Nat.exists_eq_succ_of_ne_zero hpos.2.ne'
    have hl : (l + 1) * p.s = l * p.s + p.s := Nat.succ_mul l p.s
    have hall : (k + 1 + (l + 1)) * p.s = (k + 1) * p.s + (l * p.s + p.s) := by rw [add_mul, hl]
    have hrest : (k + 1 + l) * p.s = (k + 1) * p.s + l * p.s := add_mul ..
    rw [hwidth] at ih ⊢
    simp only [Nat.succ_eq_add_one, Nat.add_sub_cancel] at *
    rw [Mem.cells_succ] at hgood₂
    have hx : good (M.load b₁ p.s) := hgood₁ _ (by rw [Mem.cells_succ]; exact mem_cons_self)
    have hy : good (M.load b₂ p.s) := hgood₂ _ mem_cons_self
    have happ₁ : Apart tmp p.s b₁ ((k + 1) * p.s) := by unfold Apart at *; omega
    have happ₂ : Apart tmp p.s (b₂ + p.s) (l * p.s) := by unfold Apart at *; omega
    obtain ⟨i, j, hspec⟩ := ih (hM.copy (htmp.mono le_rfl (by omega)))
      (htmp.mono (by omega) (by omega)) (by unfold Apart at *; omega) (by unfold Apart at *; omega)
      (by rwa [Mem.cells_copy_of_apart happ₁])
      (by rw [Mem.cells_copy_of_apart happ₂]; exact fun x hx => hgood₂ x (mem_cons_of_mem _ hx))
    exact ⟨i, j + 1, hspec.consRight happ₁ happ₂ (hres M b₁ b₂ hM hx hy ▸ hgt)⟩
  | case3 M b₁ n₁ b₂ n₂ tmp hdone =>
    have hzero : n₁ = 0 ∨ n₂ = 0 := by omega
    refine ⟨0, 0, (zero_add _).symm, (zero_add _).symm, hzero, ?_, ?_, fun _ _ => rfl, ?_⟩
    · simp
    · simp
    · rcases hzero with rfl | rfl <;> simp [Mem.cells]

/-- **`msort_with_tmp`** leaves the stable sort of the array and writes nothing but the array and
the buffer. -/
theorem msortWithTmp_spec (hM : AgreesOff W M₀ M) (hb : Writable W b (n * p.s))
    (ht : Writable W p.t (n * p.s)) (happ : Apart p.t (n * p.s) b (n * p.s))
    (hgood : ∀ x ∈ M.cells b p.s n, good x) :
    (∀ a, a < b ∨ b + n * p.s ≤ a → a < p.t ∨ p.t + n * p.s ≤ a → msortWithTmp p M b n a = M a) ∧
      (msortWithTmp p M b n).cells b p.s n = mergeSorted rel (M.cells b p.s n) := by
  fun_induction msortWithTmp p M b n with
  | case1 M b n hle =>
    exact ⟨fun _ _ _ => rfl, (mergeSorted_of_length_le (by simpa using hle)).symm⟩
  | case2 M b n hlt n₁ n₂ b₂ M₁ M₂ m M₃ ih₁ _ ih₂ =>
    have hn : n = n₁ + n₂ := by omega
    have hmul : n * p.s = n₁ * p.s + n₂ * p.s := by rw [hn, add_mul]
    have hhalves : M.cells b p.s n = M.cells b p.s n₁ ++ M.cells b₂ p.s n₂ := by
      rw [hn, Mem.cells_add]
    rw [hhalves] at hgood ⊢
    unfold Apart at happ
    obtain ⟨hframe₁, hcells₁⟩ := ih₁ hM (hb.mono le_rfl (by omega))
      (ht.mono le_rfl (by omega)) (by unfold Apart; omega)
      fun x hx => hgood x (mem_append_left _ hx)
    have hM₁ : AgreesOff W M₀ M₁ := hM.frame hb ht fun a hba hta => hframe₁ a (by omega) (by omega)
    have hright₁ : M₁.cells b₂ p.s n₂ = M.cells b₂ p.s n₂ :=
      Mem.cells_congr fun a _ _ => hframe₁ a (by omega) (by omega)
    obtain ⟨hframe₂, hcells₂⟩ := ih₂ hM₁ (hb.mono (by omega) (by omega))
      (ht.mono le_rfl (by omega)) (by unfold Apart; omega)
      (by rw [hright₁]; exact fun x hx => hgood x (mem_append_right _ hx))
    have hM₂ : AgreesOff W M₀ M₂ := hM₁.frame hb ht fun a hba hta => hframe₂ a (by omega) (by omega)
    have hleft₂ : M₂.cells b p.s n₁ = M₁.cells b p.s n₁ :=
      Mem.cells_congr fun a _ _ => hframe₂ a (by omega) (by omega)
    have hgood₁ : ∀ x ∈ M₂.cells b p.s n₁, good x := by
      rw [hleft₂, hcells₁]
      exact fun x hx => hgood x (mem_append_left _ (mem_mergeSorted.mp hx))
    have hgood₂ : ∀ x ∈ M₂.cells b₂ p.s n₂, good x := by
      rw [hcells₂, hright₁]
      exact fun x hx => hgood x (mem_append_right _ (mem_mergeSorted.mp hx))
    have happ₁ : Apart p.t ((n₁ + n₂) * p.s) b (n₁ * p.s) := by
      unfold Apart
      rw [← hn]
      omega
    have happ₂ : Apart p.t ((n₁ + n₂) * p.s) b₂ (n₂ * p.s) := by
      unfold Apart
      rw [← hn]
      omega
    obtain ⟨i, j, hspec⟩ : ∃ i j, MergeSpec rel M₂ b n₁ b₂ n₂ p.t m i j :=
      mergeLoop_spec hwidth hres hM₂ (by rwa [← hn]) happ₁ happ₂ hgood₁ hgood₂
    have hback : M₃.copy b p.t ((n - m.n₂) * p.s) = m.copyBack p b (n₁ + n₂) := by
      rw [← hn]
      rfl
    have happ' : Apart p.t ((n₁ + n₂) * p.s) b ((n₁ + n₂) * p.s) := by
      rw [← hn]
      exact happ
    rw [hback]
    constructor
    · intro a hba hta
      rw [hn] at hba hta
      rw [hspec.frame_copyBack happ' hba hta]
      have hall := add_mul n₁ n₂ p.s
      exact (hframe₂ a (by omega) (by omega)).trans (hframe₁ a (by omega) (by omega))
    · have hlong : ¬ (M.cells b p.s n₁ ++ M.cells b₂ p.s n₂).length ≤ 1 := by
        rw [← hhalves, Mem.length_cells]
        exact hlt
      have htake :
          (M.cells b p.s n₁ ++ M.cells b₂ p.s n₂).length / 2 = (M.cells b p.s n₁).length := by
        rw [← hhalves, Mem.length_cells, Mem.length_cells]
      rw [hn, hspec.cells_copyBack happ', hleft₂, hcells₁, hcells₂, hright₁,
        mergeSorted_of_one_lt hlong, htake, take_left, drop_left]

end

end SafeLibc.Stdlib
