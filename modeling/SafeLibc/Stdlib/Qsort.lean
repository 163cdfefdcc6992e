import SafeLibc.Lib.Memory

/-!
# `qsort_r`

`__qsort_r` of `stdlib/qsort.c` with everything below it, on a byte memory: the merge sort through a
temporary buffer, the indirect sort of a table of pointers with the permutation that follows it, and
the heapsort it falls back to. Addresses are naturals; `2 * k + 1` in `siftdown` and `total_size`
are `size_t` and wrap. The comparison is given the memory and two addresses. `malloc` and the
address of the buffer on the stack are parameters.

Loops that follow data take fuel, and `none` is a loop that has not ended; `swapWords` also fails
where the C code would run below the block. `qsortR` gives each loop as many turns as the array has
elements, which is enough (`qsortR_sorts`).
-/

namespace SafeLibc.Stdlib

open SafeLibc.Lib

/-- `__compar_d_fn_t` with its argument. -/
abbrev Compare := Mem → Nat → Nat → Int

/-- A comparison that looks at nothing but the two elements. -/
def Compare.ofBlocks {size : Nat} (cmp : Block size → Block size → Int) : Compare := fun M a b =>
  cmp (M.load a size) (M.load b size)

inductive SwapType
  | words64
  | words32
  | voidArg
  | bytes
  deriving DecidableEq, Repr

def pointerSize : Nat := 8

/-! ## Swapping -/

/-- `swap_words_64` and `swap_words_32`, for words of `w` bytes. -/
def swapWords (w : Nat) (M : Mem) (a b n : Nat) : Option Mem :=
  if 0 < w ∧ w ≤ n then
    let n' := n - w
    let t := M.load (a + n') w
    let M' := (M.copy (a + n') (b + n') w).store (b + n') t
    if n' = 0 then some M' else swapWords w M' a b n'
  else none
termination_by n

def swapWords64 : Mem → Nat → Nat → Nat → Option Mem := swapWords 8

def swapWords32 : Mem → Nat → Nat → Nat → Option Mem := swapWords 4

def swapGenericSize : Nat := 32

/-- The second loop of `__memswap`. -/
def memswapBytes (M : Mem) (p₁ p₂ : Nat) : Nat → Mem
  | 0 => M
  | n + 1 => memswapBytes ((M.copy (p₁ + n) (p₂ + n) 1).store (p₂ + n) (M.load (p₁ + n) 1)) p₁ p₂ n

def memswap (M : Mem) (p₁ p₂ n : Nat) : Mem :=
  if swapGenericSize < n then
    let tmp := M.load p₁ swapGenericSize
    let M' := (M.copy p₁ p₂ swapGenericSize).store p₂ tmp
    memswap M' (p₁ + swapGenericSize) (p₂ + swapGenericSize) (n - swapGenericSize)
  else memswapBytes M p₁ p₂ n
termination_by n
decreasing_by
  simp only [swapGenericSize] at *
  omega

def doSwap (M : Mem) (a b size : Nat) : SwapType → Option Mem
  | .words64 => swapWords64 M a b size
  | .words32 => swapWords32 M a b size
  | .voidArg | .bytes => some (memswap M a b size)

def getSwapType (pbase size : Nat) : SwapType :=
  if size &&& 3 = 0 ∧ pbase % 4 = 0 then
    if size = 4 then .words32
    else if size = 8 ∧ pbase % 8 = 0 then .words64
    else .bytes
  else .bytes

theorem getSwapType_cases (pbase size : Nat) :
    getSwapType pbase size = .words32 ∧ size = 4 ∨ getSwapType pbase size = .words64 ∧ size = 8 ∨
      getSwapType pbase size = .bytes := by
  unfold getSwapType
  split
  · split
    · next hsize => exact .inl ⟨rfl, hsize⟩
    · split
      · next hsize => exact .inr (.inl ⟨rfl, hsize.1⟩)
      · exact .inr (.inr rfl)
  · exact .inr (.inr rfl)

/-! ## Heapsort -/

section Heapsort

variable (base size : Nat) (swapType : SwapType) (cmp : Compare)

def siftdown : Nat → Mem → Nat → Nat → Option Mem
  | 0, _, _, _ => none
  | fuel + 1, M, k, n =>
    let left := (2 * k + 1) % 2 ^ 64
    if left ≤ n then
      -- the right child if it is larger
      let j := if left < n ∧ cmp M (base + left * size) (base + (left + 1) * size) < 0
        then left + 1 else left
      if j = k ∨ 0 ≤ cmp M (base + k * size) (base + j * size) then some M
      else do
        let M' ← doSwap M (base + size * j) (base + k * size) size swapType
        siftdown fuel M' j n
    else some M

/-- `heapify` from index `k` down to the root. -/
def heapifyFrom (n : Nat) : Nat → Mem → Option Mem
  | 0, M => siftdown base size swapType cmp (n + 1) M 0 n
  | k + 1, M => do
    let M' ← siftdown base size swapType cmp (n + 1) M (k + 1) n
    heapifyFrom n k M'

def heapify (M : Mem) (n : Nat) : Option Mem := heapifyFrom base size swapType cmp n (n / 2) M

/-- The loop of `heapsort_r`: indices 0 to `n` contain the heap. -/
def extract : Nat → Mem → Option Mem
  | 0, M => some M
  | n + 1, M => do
    let M' ← doSwap M base (base + (n + 1) * size) size swapType
    if n = 0 then some M'
    else do
      let M'' ← siftdown base size swapType cmp (n + 1) M' 0 n
      extract n M''

end Heapsort

def heapsortR (M : Mem) (base n size : Nat) (cmp : Compare) : Option Mem :=
  if n = 0 then some M
  else do
    let swapType := getSwapType base size
    let M' ← heapify base size swapType cmp M n
    extract base size swapType cmp n M'

/-! ## Merge sort -/

def qsortStackSize : Nat := 1024

def indirectSortSizeThres : Nat := 32

structure MsortParam where
  s : Nat
  var : SwapType
  cmp : Compare
  t : Nat

/-- How far the merging loop of this kind moves with one element. -/
def MsortParam.width (p : MsortParam) : Nat :=
  match p.var with
  | .words32 => 4
  | .words64 => 8
  | .voidArg => pointerSize
  | .bytes => p.s

/-- The elements are pointers to what is compared in the one kind of loop. -/
def MsortParam.compare (p : MsortParam) (M : Mem) (b₁ b₂ : Nat) : Int :=
  match p.var with
  | .voidArg => p.cmp M (M.load64 b₁) (M.load64 b₂)
  | .words32 | .words64 | .bytes => p.cmp M b₁ b₂

structure Merged where
  mem : Mem
  b₁ : Nat
  n₁ : Nat
  n₂ : Nat
  tmp : Nat

/-- The four loops of `msort_with_tmp`. -/
def mergeLoop (p : MsortParam) (M : Mem) (b₁ n₁ b₂ n₂ tmp : Nat) : Merged :=
  if 0 < n₁ ∧ 0 < n₂ then
    if p.compare M b₁ b₂ ≤ 0 then
      mergeLoop p (M.copy tmp b₁ p.width) (b₁ + p.width) (n₁ - 1) b₂ n₂ (tmp + p.width)
    else mergeLoop p (M.copy tmp b₂ p.width) b₁ n₁ (b₂ + p.width) (n₂ - 1) (tmp + p.width)
  else ⟨M, b₁, n₁, n₂, tmp⟩
termination_by n₁ + n₂

def msortWithTmp (p : MsortParam) (M : Mem) (b n : Nat) : Mem :=
  if n ≤ 1 then M
  else
    let n₁ := n / 2
    let n₂ := n - n₁
    let b₂ := b + n₁ * p.s
    let M₁ := msortWithTmp p M b n₁
    let M₂ := msortWithTmp p M₁ b₂ n₂
    let m := mergeLoop p M₂ b n₁ b₂ n₂ p.t
    let M₃ := if 0 < m.n₁ then m.mem.copy m.tmp m.b₁ (m.n₁ * p.s) else m.mem
    M₃.copy b p.t ((n - m.n₂) * p.s)
termination_by n

/-! ## Indirect sorting -/

/-- `while (t < tmp_storage) { *t++ = ip; ip += s; }` -/
def fillTable (M : Mem) (t ip s tmpStorage : Nat) : Mem :=
  if t < tmpStorage then fillTable (M.store64 t ip) (t + pointerSize) (ip + s) s tmpStorage else M
termination_by tmpStorage - t
decreasing_by
  simp only [pointerSize]
  omega

section Permute

variable (b s tp : Nat)

/-- The inner loop: it ends with the last index and position of the cycle. -/
def followCycle (ip : Nat) : Nat → Mem → Nat → Nat → Nat → Option (Mem × Nat × Nat)
  | 0, _, _, _, _ => none
  | fuel + 1, M, j, jp, kp =>
    let k := (kp - b) / s
    let M₁ := M.store64 (tp + j * pointerSize) jp
    let M₂ := M₁.copy jp kp s
    let kp' := M₂.load64 (tp + k * pointerSize)
    if kp' ≠ ip then followCycle ip fuel M₂ k kp kp' else some (M₂, k, kp)

def permuteAt (n tmpStorage : Nat) (M : Mem) (i ip : Nat) : Option Mem :=
  let kp := M.load64 (tp + i * pointerSize)
  if kp ≠ ip then do
    let M₁ := M.copy tmpStorage ip s
    let (M₂, j, jp) ← followCycle b s tp ip n M₁ i ip kp
    let M₃ := M₂.store64 (tp + j * pointerSize) jp
    some (M₃.copy jp tmpStorage s)
  else some M

/-- `for (i = 0, ip = b; i < n; i++, ip += s)`, from an `i` on. -/
def permuteFrom (n tmpStorage : Nat) (M : Mem) (i ip : Nat) : Option Mem :=
  if i < n then do
    let M' ← permuteAt b s tp n tmpStorage M i ip
    permuteFrom n tmpStorage M' (i + 1) (ip + s)
  else some M
termination_by n - i

end Permute

def indirectMsortWithTmp (p : MsortParam) (M : Mem) (b n s : Nat) : Option Mem :=
  let tp := p.t + n * pointerSize
  let tmpStorage := tp + n * pointerSize
  let M₁ := fillTable M tp b s tmpStorage
  let M₂ := msortWithTmp p M₁ tp n
  permuteFrom b s tp n tmpStorage M₂ 0 b

/-! ## The entry point -/

def totalSize (totalElems size : Nat) : Nat :=
  if indirectSortSizeThres < size then (2 * totalElems * pointerSize + size) % 2 ^ 64
  else totalElems * size % 2 ^ 64

def qsortR (malloc : Nat → Option Nat) (tmp : Nat) (cmp : Compare) (M : Mem)
    (pbase totalElems size : Nat) : Option Mem :=
  if totalElems ≤ 1 then some M
  else
    let need := totalSize totalElems size
    match if need ≤ qsortStackSize then some tmp else malloc need with
    | none => heapsortR M pbase (totalElems - 1) size cmp
    | some buf =>
      if indirectSortSizeThres < size then
        indirectMsortWithTmp ⟨pointerSize, .voidArg, cmp, buf⟩ M pbase totalElems size
      else some (msortWithTmp ⟨size, getSwapType pbase size, cmp, buf⟩ M pbase totalElems)

end SafeLibc.Stdlib
