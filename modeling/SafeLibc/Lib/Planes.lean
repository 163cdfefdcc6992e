import Mathlib.Tactic.Ring

/-!
# Chained planes

A table of `depth` planes of `size` cells each. An item with hash `r` goes into cell `r` of the
first plane where that cell is vacant, and is searched from plane to plane. The cells are a partial
function of the position: cell `r` of plane `k` is at `r + k * size`.

`Planes.Holds` says what the table looks like after some items went in: the cells of each hash hold,
plane by plane, the items of that hash in the order of insertion. It gives the position the next
insertion finds (`Holds.vacant_at`), is kept by it (`Holds.insert`), and decides every search
(`Holds.search_eq`). An item that is itself vacant leaves its cell free for the next one.
-/

namespace SafeLibc.Lib.Planes

open List

variable {α : Type*} (vacant : α → Bool) (size depth : Nat)

/-- The items of hash `r` that occupy a cell, in the order of insertion. -/
def chain (r : Nat) (items : List (Nat × α)) : List α :=
  (items.filter fun item => item.1 = r && !vacant item.2).map Prod.snd

@[simp] theorem chain_nil (r : Nat) : chain vacant r [] = [] := rfl

theorem chain_concat (r : Nat) (items : List (Nat × α)) (item : Nat × α) :
    chain vacant r (items ++ [item]) =
      chain vacant r items ++ if item.1 = r ∧ vacant item.2 = false then [item.2] else [] := by
  unfold chain
  rw [filter_append, map_append]
  congr 1
  by_cases h : item.1 = r ∧ vacant item.2 = false
  · simp [h]
  · have hfalse : (decide (item.1 = r) && !vacant item.2) = false := by
      simpa [not_and] using h
    simp [h]

variable {r k : Nat}

theorem mem_chain {items : List (Nat × α)} {a : α} :
    a ∈ chain vacant r items ↔ (r, a) ∈ items ∧ vacant a = false := by
  simp only [chain, mem_map, mem_filter, Bool.and_eq_true, decide_eq_true_eq,
    Bool.not_eq_true']
  constructor
  · rintro ⟨⟨r', a'⟩, ⟨hmem, rfl, hvacant⟩, rfl⟩
    exact ⟨hmem, hvacant⟩
  · rintro ⟨hmem, hvacant⟩
    exact ⟨(r, a), ⟨hmem, rfl, hvacant⟩, rfl⟩

/-- The table after `items` went into a table of `blank` cells. -/
structure Holds (blank : α) (cells : Nat → Option α) (items : List (Nat × α)) : Prop where
  /-- The cell of hash `r` in plane `k` holds the item number `k` of that hash, if there is one. -/
  cell : ∀ r < size, ∀ k < depth, ∃ c, cells (r + k * size) = some c ∧
    match (chain vacant r items)[k]? with
    | some a => c = a
    | none => vacant c = true
  length_le : ∀ r, (chain vacant r items).length ≤ depth
  origin : ∀ i c, cells i = some c → c = blank ∨ ∃ item ∈ items, item.2 = c

/-- Search plane by plane, from position `i` on; `none` when a cell is missing. -/
def search (cells : Nat → Option α) (p : α → Bool) (i : Nat) : Nat → Option (Option α)
  | 0 => some none
  | planes + 1 =>
    match cells i with
    | none => none
    | some c => if p c then some (some c) else search cells p (i + size) planes

variable {vacant size depth}

theorem position_inj {r' k' : Nat} (hr : r < size) (hr' : r' < size)
    (h : r + k * size = r' + k' * size) : r = r' ∧ k = k' := by
  have hmod := congrArg (· % size) h
  simp only [Nat.add_mul_mod_self_right, Nat.mod_eq_of_lt hr, Nat.mod_eq_of_lt hr'] at hmod
  subst hmod
  refine ⟨rfl, Nat.eq_of_mul_eq_mul_right (Nat.zero_lt_of_lt hr) ?_⟩
  exact Nat.add_left_cancel h

namespace Holds

variable {blank : α} {cells : Nat → Option α} {items : List (Nat × α)}

theorem empty (hblank : vacant blank = true)
    (hcells : ∀ i, i < size * depth → cells i = some blank)
    (hnone : ∀ i c, cells i = some c → c = blank) : Holds vacant size depth blank cells [] where
  cell r hr k hk := by
    have hlt : r + k * size < size * depth := by
      have hmul : (k + 1) * size ≤ depth * size := Nat.mul_le_mul_right _ hk
      rw [add_mul] at hmul
      rw [mul_comm size depth]
      omega
    exact ⟨blank, hcells _ hlt, by simpa using hblank⟩
  length_le r := Nat.zero_le depth
  origin i c h := .inl (hnone i c h)

section

variable (h : Holds vacant size depth blank cells items)

include h

theorem occupied_at (hr : r < size) (hk : k < depth) (hlen : k < (chain vacant r items).length) :
    ∃ c, cells (r + k * size) = some c ∧ vacant c = false := by
  obtain ⟨c, hc, hcell⟩ := h.cell r hr k hk
  rw [getElem?_eq_getElem hlen] at hcell
  refine ⟨c, hc, ?_⟩
  rw [show c = _ from hcell]
  exact ((mem_chain vacant).mp (getElem_mem hlen)).2

theorem vacant_at (hr : r < size) (hlen : (chain vacant r items).length < depth) :
    ∃ c, cells (r + (chain vacant r items).length * size) = some c ∧ vacant c = true := by
  obtain ⟨c, hc, hcell⟩ := h.cell r hr _ hlen
  rw [getElem?_eq_none le_rfl] at hcell
  exact ⟨c, hc, hcell⟩

theorem insert (hr : r < size) (hlen : (chain vacant r items).length < depth) (a : α) :
    Holds vacant size depth blank
      (Function.update cells (r + (chain vacant r items).length * size) (some a))
      (items ++ [(r, a)]) where
  cell r' hr' k hk := by
    rw [chain_concat]
    by_cases hat : r' = r ∧ k = (chain vacant r items).length
    · obtain ⟨rfl, rfl⟩ := hat
      refine ⟨a, Function.update_self .., ?_⟩
      cases vacant a <;> simp
    · have hne : r' + k * size ≠ r + (chain vacant r items).length * size := fun heq =>
        hat (position_inj hr' hr heq)
      obtain ⟨c, hc, hcell⟩ := h.cell r' hr' k hk
      refine ⟨c, by rw [Function.update_of_ne hne, hc], ?_⟩
      by_cases hk' : k < (chain vacant r' items).length
      · rwa [getElem?_append_left hk']
      · rw [getElem?_eq_none (Nat.le_of_not_lt hk')] at hcell
        have hnone : (chain vacant r' items ++
            if (r, a).1 = r' ∧ vacant (r, a).2 = false then [(r, a).2] else [])[k]? = none := by
          apply getElem?_eq_none
          rw [length_append]
          split
          · next hsame =>
            obtain ⟨rfl, -⟩ := hsame
            have hle : (chain vacant r items).length ≤ k := Nat.le_of_not_lt hk'
            simp only [length_singleton]
            omega
          · simpa using Nat.le_of_not_lt hk'
        rw [hnone]
        exact hcell
  length_le r' := by
    have hle := h.length_le r'
    rw [chain_concat, length_append]
    split
    · next hsame =>
      obtain ⟨rfl, -⟩ := hsame
      exact hlen
    · exact hle
  origin i c hc := by
    by_cases hi : i = r + (chain vacant r items).length * size
    · subst hi
      rw [Function.update_self] at hc
      exact .inr ⟨(r, a), by simp, Option.some.inj hc⟩
    · rw [Function.update_of_ne hi] at hc
      rcases h.origin i c hc with hblank | ⟨item, hitem, heq⟩
      · exact .inl hblank
      · exact .inr ⟨item, mem_append_left _ hitem, heq⟩

/-- A search that no vacant cell satisfies finds the first item of its chain that does. -/
theorem search_eq (hr : r < size) {p : α → Bool} (hp : ∀ c, vacant c = true → p c = false) :
    search size cells p r depth = some ((chain vacant r items).find? p) := by
  -- from plane `k` on, what is left to find is in the rest of the chain
  have hfrom : ∀ planes k, k + planes = depth →
      search size cells p (r + k * size) planes =
        some (((chain vacant r items).drop k).find? p) := by
    intro planes
    induction planes with
    | zero =>
      intro k hk
      have hle := h.length_le r
      rw [drop_eq_nil_of_le (by omega)]
      rfl
    | succ planes ih =>
      intro k hk
      obtain ⟨c, hc, hcell⟩ := h.cell r hr k (by omega)
      have hnext := ih (k + 1) (by omega)
      rw [Nat.add_mul, Nat.one_mul, ← Nat.add_assoc] at hnext
      rw [search, hc]
      simp only [hnext]
      by_cases hk' : k < (chain vacant r items).length
      · rw [getElem?_eq_getElem hk'] at hcell
        obtain rfl : c = (chain vacant r items)[k] := hcell
        rw [drop_eq_getElem_cons hk', find?_cons]
        cases p (chain vacant r items)[k] <;> rfl
      · rw [getElem?_eq_none (Nat.le_of_not_lt hk')] at hcell
        rw [hp c hcell, drop_eq_nil_of_le (by omega), drop_eq_nil_of_le (by omega)]
        rfl
  have hzero := hfrom depth 0 (by omega)
  simpa using hzero

end

end Holds

end SafeLibc.Lib.Planes
