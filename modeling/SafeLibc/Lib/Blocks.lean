import Mathlib.Data.List.Basic

/-!
# Exchanging adjacent blocks in place

Two adjacent blocks of an array change places by swaps alone: the shorter block is swapped with the
far end of the longer one, which puts it in its place, and what is left are two adjacent blocks
again. `exchangeBlocks_eq` says that each block keeps its order.
-/

namespace SafeLibc.Lib

open List

variable {α : Type*}

/-- Swap the `len` elements from `i` on with those from `j` on; `none` is an access outside. -/
def swapRange : Nat → Nat → Nat → List α → Option (List α)
  | 0, _, _, l => some l
  | len + 1, i, j, l => do
    let x ← l[i]?
    let y ← l[j]?
    swapRange len (i + 1) (j + 1) ((l.set i y).set j x)

/-- Exchange the elements from `bottom` to `middle` with those from `middle` to `top`. -/
def exchangeBlocks (l : List α) (bottom middle top : Nat) : Option (List α) :=
  if top > middle ∧ middle > bottom then
    if top - middle > middle - bottom then do
      -- the bottom segment is the short one
      let len := middle - bottom
      let l ← swapRange len bottom (top - (middle - bottom)) l
      exchangeBlocks l bottom middle (top - len)
    else do
      let len := top - middle
      let l ← swapRange len bottom middle l
      exchangeBlocks l (bottom + len) middle top
  else some l
termination_by top - bottom

theorem set_append_cons (l : List α) (x : α) (r : List α) {i : Nat} (hi : i = l.length) (y : α) :
    (l ++ x :: r).set i y = l ++ y :: r := by
  rw [hi, set_append_right _ _ (Nat.le_refl _), Nat.sub_self, set_cons_zero]

theorem getElem?_append_cons (l : List α) (x : α) (r : List α) {i : Nat} (hi : i = l.length) :
    (l ++ x :: r)[i]? = some x := by
  simp [hi]

theorem swapRange_eq (pre left mid right post : List α) (hlen : left.length = right.length) :
    swapRange left.length pre.length (pre.length + left.length + mid.length)
        (pre ++ left ++ mid ++ right ++ post) =
      some (pre ++ right ++ mid ++ left ++ post) := by
  induction left generalizing pre mid right with
  | nil =>
    obtain rfl := length_eq_zero_iff.1 hlen.symm
    rfl
  | cons x left ih =>
    obtain ⟨y, right, rfl⟩ := exists_cons_of_length_eq_add_one hlen.symm
    -- the two heads change places; `x` is then behind the middle and `y` before the left block
    have hfirst : (pre ++ x :: left ++ mid ++ y :: right ++ post)[pre.length]? = some x := by
      simp
    have hsecond : (pre ++ x :: left ++ mid ++ y :: right ++ post)[pre.length + (x :: left).length +
        mid.length]? = some y := by
      have : pre ++ x :: left ++ mid ++ y :: right ++ post =
          (pre ++ x :: left ++ mid) ++ y :: (right ++ post) := by simp
      rw [this]
      apply getElem?_append_cons
      simp only [length_append]
    have hset : ((pre ++ x :: left ++ mid ++ y :: right ++ post).set pre.length y).set
        (pre.length + (x :: left).length + mid.length) x =
        (pre ++ [y]) ++ left ++ (mid ++ [x]) ++ right ++ post := by
      have hl : pre ++ x :: left ++ mid ++ y :: right ++ post =
          pre ++ x :: (left ++ mid ++ y :: (right ++ post)) := by simp
      have hr : pre ++ y :: (left ++ mid ++ y :: (right ++ post)) =
          (pre ++ y :: (left ++ mid)) ++ y :: (right ++ post) := by simp
      rw [hl, set_append_cons _ _ _ rfl, hr, set_append_cons]
      · simp
      · simp only [length_append, length_cons]
        omega
    have hnext := ih (pre ++ [y]) (mid ++ [x]) right (by simpa using hlen)
    rw [length_cons, swapRange, hfirst, Option.bind_eq_bind, Option.bind_some]
    rw [length_cons] at hsecond hset
    rw [hsecond, Option.bind_some, hset]
    simp only [length_append, length_singleton] at hnext
    have hj : pre.length + (left.length + 1) + mid.length + 1 =
        pre.length + 1 + left.length + (mid.length + 1) := by omega
    rw [hj, hnext]
    simp

theorem exchangeBlocks_eq (pre left right post : List α) :
    exchangeBlocks (pre ++ left ++ right ++ post) pre.length (pre.length + left.length)
        (pre.length + left.length + right.length) =
      some (pre ++ right ++ left ++ post) := by
  -- by induction on the number of elements that are not in their place
  induction hn : left.length + right.length using Nat.strongRecOn
    generalizing pre left right post with
  | ind n ih =>
    rw [exchangeBlocks]
    split
    case isFalse hempty =>
      have : left = [] ∨ right = [] := by
        rcases Nat.eq_zero_or_pos left.length with h | h
        · exact .inl (length_eq_zero_iff.1 h)
        · exact .inr (length_eq_zero_iff.1 (by omega))
      rcases this with rfl | rfl <;> simp
    case isTrue hblocks =>
      split
      case isTrue hshort =>
        -- the left block is swapped with the end of the right one
        obtain ⟨right₁, right₂, rfl, hlen⟩ : ∃ right₁ right₂, right = right₁ ++ right₂ ∧
            left.length = right₂.length := by
          refine ⟨right.take (right.length - left.length), right.drop (right.length - left.length),
            (take_append_drop _ _).symm, ?_⟩
          rw [length_drop]
          omega
        rw [length_append] at hn hblocks hshort ⊢
        have hswap := swapRange_eq pre left right₁ right₂ post hlen
        have hmid : pre.length + left.length - pre.length = left.length := by omega
        have htop : pre.length + left.length + (right₁.length + right₂.length) - left.length =
            pre.length + left.length + right₁.length := by omega
        have hrest :=
          ih (right₂.length + right₁.length) (by omega) pre right₂ right₁ (left ++ post) rfl
        rw [← hlen] at hrest
        simp only [hmid, htop, ← append_assoc] at hrest ⊢
        rw [hswap, Option.bind_eq_bind, Option.bind_some, hrest]
      case isFalse hshort =>
        -- the right block is swapped with the start of the left one
        obtain ⟨left₁, left₂, rfl, hlen⟩ : ∃ left₁ left₂, left = left₁ ++ left₂ ∧
            left₁.length = right.length := by
          refine ⟨left.take right.length, left.drop right.length,
            (take_append_drop _ _).symm, ?_⟩
          rw [length_take]
          omega
        rw [length_append] at hn hblocks hshort ⊢
        have hswap := swapRange_eq pre left₁ left₂ right post hlen
        have htop : pre.length + (left₁.length + left₂.length) + right.length -
            (pre.length + (left₁.length + left₂.length)) = left₁.length := by omega
        have hrest :=
          ih (left₂.length + left₁.length) (by omega) (pre ++ right) left₂ left₁ post rfl
        have hmiddle : (pre ++ right).length + left₂.length =
            pre.length + (left₁.length + left₂.length) := by
          rw [length_append]
          omega
        have hend : pre.length + (left₁.length + left₂.length) + left₁.length =
            pre.length + (left₁.length + left₂.length) + right.length := by omega
        rw [hmiddle, length_append, ← hlen] at hrest
        simp only [htop, ← append_assoc] at hrest ⊢
        rw [Nat.add_assoc] at hswap
        rw [hswap, Option.bind_eq_bind, Option.bind_some, ← hlen, hrest]

end SafeLibc.Lib
