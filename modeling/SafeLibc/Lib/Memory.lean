import SafeLibc.Lib.Bytes
import Mathlib.Data.Fintype.Pi

/-!
# Byte memory

A memory gives every address a byte. `load` and `store` move a block of bytes at an address, `copy`
moves one inside the memory, and `exchange` swaps two blocks. A block is read back where it was
stored and other blocks stay (`load_store`, `load_store_of_disjoint`).

An array of `n` elements of `s` bytes is read element by element (`cells`). Storing an element sets
one entry of it, and a block that holds `k` elements is copied as `k` elements.
-/

namespace SafeLibc.Lib

open List

/-- A byte for each address. -/
def Mem := Nat → UInt8

abbrev Block (s : Nat) := Fin s → UInt8

/-- `[p, p + n)` and `[q, q + m)` have no address in common. -/
def Apart (p n q m : Nat) : Prop := p + n ≤ q ∨ q + m ≤ p

instance (p n q m : Nat) : Decidable (Apart p n q m) := inferInstanceAs (Decidable (_ ∨ _))

variable {p n q m : Nat}

theorem Apart.symm (h : Apart p n q m) : Apart q m p n := Or.symm h

theorem Apart.mono {p' n' q' m' : Nat} (h : Apart p n q m) (hp : p ≤ p') (hn : p' + n' ≤ p + n)
    (hq : q ≤ q') (hm : q' + m' ≤ q + m) : Apart p' n' q' m' := by
  unfold Apart at *
  omega

namespace Mem

/-- The `s` bytes from `p` on. -/
def load (M : Mem) (p s : Nat) : Block s := fun i => M (p + i)

def store {s : Nat} (M : Mem) (p : Nat) (x : Block s) : Mem := fun a =>
  if h : p ≤ a ∧ a < p + s then x ⟨a - p, by omega⟩ else M a

/-- The bytes from `src` on, put at `dst`. -/
def copy (M : Mem) (dst src n : Nat) : Mem := M.store dst (M.load src n)

/-- The word at `p`, little-endian. -/
def load64 (M : Mem) (p : Nat) : Nat := leNat (List.ofFn (M.load p 8))

def store64 (M : Mem) (p v : Nat) : Mem :=
  M.store p (fun i : Fin 8 => (leBytes 8 v).get (i.cast (length_leBytes 8 v).symm))

/-- The `n` elements of `s` bytes from `p` on. -/
def cells (M : Mem) (p s n : Nat) : List (Block s) :=
  (List.range n).map fun i => M.load (p + i * s) s

/-- Two areas of `n` bytes change places. -/
def exchange (M : Mem) (p q n : Nat) : Mem := fun a =>
  if p ≤ a ∧ a < p + n then M (q + (a - p))
  else if q ≤ a ∧ a < q + n then M (p + (a - q))
  else M a

variable {M M' : Mem} {p q s n : Nat}

/-! ## Loads and stores -/

variable {a dst src k i : Nat} {x : Block s}

theorem store_of_lt (h : a < p ∨ p + s ≤ a) : M.store p x a = M a :=
  dif_neg (by omega)

theorem load_congr (h : ∀ a, p ≤ a → a < p + s → M' a = M a) : M'.load p s = M.load p s :=
  funext fun i => h (p + i) (Nat.le_add_right p i) (Nat.add_lt_add_left i.isLt p)

@[simp] theorem load_store (x : Block s) : (M.store p x).load p s = x := by
  funext i
  have hin : p ≤ p + i.val ∧ p + i.val < p + s := ⟨Nat.le_add_right p i, by omega⟩
  simp only [load, store, dif_pos hin, Nat.add_sub_cancel_left]

/-- A store changes nothing apart from it. -/
theorem load_store_of_apart (h : Apart p s q n) : (M.store p x).load q n = M.load q n :=
  load_congr fun a _ _ => store_of_lt (by unfold Apart at h; omega)

theorem load64_congr (h : M'.load p 8 = M.load p 8) : M'.load64 p = M.load64 p := by
  rw [load64, load64, h]

theorem load64_store64 {v : Nat} (hv : v < 2 ^ 64) : (M.store64 p v).load64 p = v := by
  rw [load64, store64, load_store]
  have hbytes : ofFn (fun i : Fin 8 => (leBytes 8 v).get (i.cast (length_leBytes 8 v).symm)) =
      leBytes 8 v :=
    (ofFn_congr (length_leBytes 8 v) (leBytes 8 v).get).symm.trans (ofFn_get _)
  rw [hbytes]
  exact leNat_leBytes (by simpa using hv)

theorem copy_of_mem (hge : dst ≤ a) (hlt : a < dst + n) :
    M.copy dst src n a = M (src + (a - dst)) :=
  dif_pos ⟨hge, hlt⟩

theorem copy_of_not_mem (h : a < dst ∨ dst + n ≤ a) : M.copy dst src n a = M a :=
  store_of_lt h

/-! ## Arrays -/

@[simp] theorem length_cells : (M.cells p s n).length = n := by simp [cells]

theorem mul_add_le (hi : i < n) : i * s + s ≤ n * s := by
  rw [← Nat.succ_mul]
  exact Nat.mul_le_mul_right s hi

theorem cells_congr (h : ∀ a, p ≤ a → a < p + n * s → M' a = M a) :
    M'.cells p s n = M.cells p s n := by
  refine map_congr_left fun i hi => load_congr fun a hge hlt => h a ?_ ?_
  · omega
  · have hle := mul_add_le (s := s) (mem_range.mp hi)
    omega

theorem cells_add (m : Nat) :
    M.cells p s (m + n) = M.cells p s m ++ M.cells (p + m * s) s n := by
  rw [cells, range_add, map_append, map_map]
  refine congrArg _ (map_congr_left fun i _ => ?_)
  simp only [Function.comp, add_mul, add_assoc]

theorem cells_succ : M.cells p s (n + 1) = M.load p s :: M.cells (p + s) s n := by
  have hone : M.cells p s 1 = [M.load p s] := by simp [cells]
  rw [add_comm, cells_add, hone, one_mul]
  rfl

theorem cells_copy : (M.copy dst src (n * s)).cells dst s n = M.cells src s n := by
  refine map_congr_left fun i hi => funext fun k => ?_
  have hle := mul_add_le (s := s) (mem_range.mp hi)
  rw [load, copy_of_mem (by omega) (by omega)]
  exact congrArg M (by omega)

theorem cells_copy_of_apart (h : Apart dst k p (n * s)) :
    (M.copy dst src k).cells p s n = M.cells p s n := by
  unfold Apart at h
  exact cells_congr fun a _ _ => copy_of_not_mem (by omega)

/-! ## Exchanging blocks -/

theorem exchange_left (hk : k < n) : M.exchange p q n (p + k) = M (q + k) := by
  rw [exchange, if_pos (by omega), Nat.add_sub_cancel_left]

theorem exchange_right (h : Apart p n q n) (hk : k < n) : M.exchange p q n (q + k) = M (p + k) := by
  unfold Apart at h
  rw [exchange, if_neg (by omega), if_pos (by omega), Nat.add_sub_cancel_left]

theorem exchange_other (h : (a < p ∨ p + n ≤ a) ∧ (a < q ∨ q + n ≤ a)) :
    M.exchange p q n a = M a := by
  rw [exchange, if_neg (by omega), if_neg (by omega)]

@[simp] theorem exchange_zero : M.exchange p q 0 = M :=
  funext fun a => exchange_other (by omega)

/-- A memory is the exchange when each block holds what the other one did. -/
theorem eq_exchange (h : Apart p n q n) (hp : ∀ k, k < n → M' (p + k) = M (q + k))
    (hq : ∀ k, k < n → M' (q + k) = M (p + k))
    (hother : ∀ a, a < p ∨ p + n ≤ a → a < q ∨ q + n ≤ a → M' a = M a) :
    M' = M.exchange p q n := by
  funext a
  by_cases hap : p ≤ a ∧ a < p + n
  · obtain ⟨k, rfl⟩ := Nat.exists_eq_add_of_le hap.1
    rw [exchange_left (by omega), hp k (by omega)]
  · by_cases haq : q ≤ a ∧ a < q + n
    · obtain ⟨k, rfl⟩ := Nat.exists_eq_add_of_le haq.1
      rw [exchange_right h (by omega), hq k (by omega)]
    · rw [exchange_other (by omega), hother a (by omega) (by omega)]

/-- The blocks change places through a third one that holds the first. -/
theorem store_copy_load (h : Apart p n q n) :
    (M.copy p q n).store q (M.load p n) = M.exchange p q n := by
  refine eq_exchange h (fun k hk => ?_) (fun k hk => ?_) fun a hp hq => ?_
  · unfold Apart at h
    rw [store_of_lt (by omega), copy_of_mem (by omega) (by omega), Nat.add_sub_cancel_left]
  · exact congrFun (load_store (M.load p n)) ⟨k, hk⟩
  · rw [store_of_lt hq, copy_of_not_mem hp]

section Parts

variable {m : Nat} (h : Apart p (m + n) q (m + n))

include h

theorem exchange_exchange :
    (M.exchange p q m).exchange (p + m) (q + m) n = M.exchange p q (m + n) := by
  unfold Apart at h
  refine eq_exchange h (fun k hk => ?_) (fun k hk => ?_) fun a hp hq => ?_
  · rcases lt_or_ge k m with hkm | hkm
    · rw [exchange_other (by omega), exchange_left hkm]
    · obtain ⟨l, rfl⟩ := Nat.exists_eq_add_of_le hkm
      rw [← add_assoc, exchange_left (by omega), exchange_other (by omega),
        ← add_assoc]
  · rcases lt_or_ge k m with hkm | hkm
    · rw [exchange_other (by omega), exchange_right (by unfold Apart; omega) hkm]
    · obtain ⟨l, rfl⟩ := Nat.exists_eq_add_of_le hkm
      rw [← add_assoc, exchange_right (by unfold Apart; omega) (by omega),
        exchange_other (by omega), ← add_assoc]
  · rw [exchange_other (by omega), exchange_other (by omega)]

theorem exchange_exchange_last :
    (M.exchange (p + m) (q + m) n).exchange p q m = M.exchange p q (m + n) := by
  unfold Apart at h
  refine eq_exchange h (fun k hk => ?_) (fun k hk => ?_) fun a hp hq => ?_
  · rcases lt_or_ge k m with hkm | hkm
    · rw [exchange_left hkm, exchange_other (by omega)]
    · obtain ⟨l, rfl⟩ := Nat.exists_eq_add_of_le hkm
      rw [exchange_other (by omega), ← add_assoc, exchange_left (by omega),
        ← add_assoc]
  · rcases lt_or_ge k m with hkm | hkm
    · rw [exchange_right (by unfold Apart; omega) hkm, exchange_other (by omega)]
    · obtain ⟨l, rfl⟩ := Nat.exists_eq_add_of_le hkm
      rw [exchange_other (by omega), ← add_assoc,
        exchange_right (by unfold Apart; omega) (by omega), ← add_assoc]
  · rw [exchange_other (by omega), exchange_other (by omega)]

end Parts

theorem load_exchange_left : (M.exchange p q n).load p n = M.load q n :=
  funext fun k => exchange_left k.isLt

theorem load_exchange_right (h : Apart p n q n) : (M.exchange p q n).load q n = M.load p n :=
  funext fun k => exchange_right h k.isLt

theorem load_exchange_other {r : Nat} (hp : Apart p n r s) (hq : Apart q n r s) :
    (M.exchange p q n).load r s = M.load r s := by
  unfold Apart at hp hq
  exact load_congr fun a _ _ => exchange_other (by omega)

end Mem

end SafeLibc.Lib
