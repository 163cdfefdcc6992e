import SafeLibc.Lib.RedBlack

/-!
# Ascending insertions into a red-black tree

Where every element belongs to the right of all before it, insertion only changes the right spine of
the tree. Level by level the spine is a numeral (`Above`): at level `k` it has one black node, a
black and a red one, or these two with a red node to the left as well (the digits 1, 2 and 3), each
over black subtrees of height `k`. An insertion adds 1 at level 0, and every digit 3 on the way is
split into a 1 and a carry (`succDigits`, `insertDown_above`).

`count k n` is how often level `k` has been added to after `n` insertions, and `digit` is the
numeral in terms of it.
-/

namespace SafeLibc.Lib.RBTree

open List

variable {α : Type*}

/-! ## The numeral -/

/-- A tree of black nodes, of the same height everywhere. -/
def Perfect : Nat → RBTree α → Prop
  | 0, t => t = nil
  | _ + 1, nil => False
  | k + 1, node red _ l r => red = false ∧ Perfect k l ∧ Perfect k r

variable {k n : Nat} {fs : List (Frame α)} {f : Nat → Nat} {t : RBTree α} {dir : α → Option Side}
  {x : α}

theorem Perfect.isRed_eq (h : Perfect k t) : t.isRed = false := by
  cases t with
  | nil => rfl
  | node red x l r =>
    cases k with
    | zero => exact absurd h (by simp [Perfect])
    | succ k => exact h.1

/-- The frames of the right spine from level `k` up; the digit 0 is above the root. -/
inductive Above (f : Nat → Nat) : Nat → List (Frame α) → Prop
  | nil {k : Nat} (digit : f k = 0) : Above f k []
  | one {k : Nat} {c : Bool} {x : α} {b : RBTree α} {gs : List (Frame α)} (digit : f k = 1)
      (below : Perfect k b) (root : gs ≠ [] → c = false) (rest : Above f (k + 1) gs) :
      Above f k (⟨c, x, .right, b⟩ :: gs)
  | two {k : Nat} {x y : α} {b d : RBTree α} {gs : List (Frame α)} (digit : f k = 2)
      (below : Perfect k b) (below' : Perfect k d) (rest : Above f (k + 1) gs) :
      Above f k (⟨true, y, .right, d⟩ :: ⟨false, x, .right, b⟩ :: gs)
  | three {k : Nat} {x y z : α} {b c d : RBTree α} {gs : List (Frame α)} (digit : f k = 3)
      (below : Perfect k b) (below' : Perfect k c) (below'' : Perfect k d)
      (rest : Above f (k + 1) gs) :
      Above f k (⟨true, y, .right, d⟩ :: ⟨false, x, .right, node true z b c⟩ :: gs)

/-- A right spine whose levels have the digits of `f`. -/
inductive Spine (f : Nat → Nat) : Nat → RBTree α → Prop
  | nil : Spine f 0 nil
  | one {k : Nat} {x : α} {b t : RBTree α} (digit : f k = 1) (below : Perfect k b)
      (rest : Spine f k t) : Spine f (k + 1) (node false x b t)
  | two {k : Nat} {x y : α} {b d t : RBTree α} (digit : f k = 2) (below : Perfect k b)
      (below' : Perfect k d) (rest : Spine f k t) :
      Spine f (k + 1) (node false x b (node true y d t))
  | three {k : Nat} {x y z : α} {b c d t : RBTree α} (digit : f k = 3) (below : Perfect k b)
      (below' : Perfect k c) (below'' : Perfect k d) (rest : Spine f k t) :
      Spine f (k + 1) (node false x (node true z b c) (node true y d t))

theorem Above.congr {g : Nat → Nat} (h : Above f k fs) (hfg : ∀ i, k ≤ i → g i = f i) :
    Above g k fs := by
  induction h with
  | nil digit => exact .nil ((hfg _ le_rfl).trans digit)
  | one digit below root _ ih =>
    exact .one ((hfg _ le_rfl).trans digit) below root (ih fun i hi => hfg i (by omega))
  | two digit below below' _ ih =>
    exact .two ((hfg _ le_rfl).trans digit) below below' (ih fun i hi => hfg i (by omega))
  | three digit below below' below'' _ ih =>
    exact .three ((hfg _ le_rfl).trans digit) below below' below''
      (ih fun i hi => hfg i (by omega))

theorem Spine.isRed_eq (h : Spine f k t) : t.isRed = false := by
  cases h <;> rfl

theorem Above.spine (h : Above f k fs) (ht : Spine f k t) :
    ∃ m, f m = 0 ∧ Spine f m (plug fs t).blacken := by
  induction h generalizing t with
  | @nil k digit => exact ⟨k, digit, by rwa [plug, blacken_of_not_red ht.isRed_eq]⟩
  | @one k c x b gs digit below root rest ih =>
    cases gs with
    | nil =>
      cases rest with
      | nil hzero => exact ⟨k + 1, hzero, .one digit below ht⟩
    | cons g gs =>
      rw [root (by simp)]
      exact ih (.one digit below ht)
  | two digit below below' _ ih => exact ih (.two digit below below' ht)
  | three digit below below' below'' _ ih => exact ih (.three digit below below' below'' ht)

/-! ## One insertion -/

def reset (d : Nat) : Nat := if d = 3 then 1 else d

def carry (d : Nat) : Nat := if d = 3 then 1 else 0

/-- Add one, in a numeral with digits up to 3. -/
def succDigits (f : Nat → Nat) : Nat → Nat
  | 0 => reset (f 0) + 1
  | k + 1 => reset (f (k + 1)) + carry (f k)

/-- The numeral while the insertion is at level `k`: the carry into this level is still to come. -/
def pending (f : Nat → Nat) (k i : Nat) : Nat := if i = k then reset (f k) else succDigits f i

theorem Above.rise {f g : Nat → Nat} {k : Nat} {fs : List (Frame α)} (h : Above f k fs)
    (hroot : ∀ p, fs = [p] → p.red = false) (hle : f k ≤ 2) (hzero : f k = 0 → f (k + 1) = 0)
    (hk : g k = f k + 1) (habove : ∀ i, k < i → g i = f i) {y : α} {b : RBTree α}
    (hb : Perfect k b) : Above g k (rise ⟨true, y, .right, b⟩ fs) := by
  cases h with
  | nil digit =>
    refine .one (by omega) hb (fun hne => absurd rfl hne) (.nil ?_)
    rw [habove _ (Nat.lt_succ_self k), hzero digit]
  | @one _ c x b' gs digit below root rest =>
    have hrest := rest.congr fun i hi => habove i (by omega)
    have hc : c = false := by
      cases gs with
      | nil => exact hroot _ rfl
      | cons g gs => exact root (by simp)
    subst hc
    have hrise : RBTree.rise ⟨true, y, .right, b⟩ (⟨false, x, .right, b'⟩ :: gs) =
        ⟨true, y, .right, b⟩ :: ⟨false, x, .right, b'⟩ :: gs := by
      cases gs <;> rfl
    rw [hrise]
    exact .two (by omega) below hb hrest
  | two digit below below' rest =>
    exact .three (by omega) below below' hb (rest.congr fun i hi => habove i (by omega))
  | three digit => omega

theorem hang_eq_rise (h : Above f k fs) (x : α) :
    hang x fs = plug (rise ⟨true, x, .right, nil⟩ fs) nil := by
  cases h with
  | nil => rfl
  | @one _ c _ _ gs _ _ root _ =>
    cases gs with
    | nil => rfl
    | cons g gs =>
      rw [root (by simp)]
      rfl
  | two => rfl
  | three => rfl

theorem reset_le {d : Nat} (h : d ≤ 3) : reset d ≤ 2 := by
  unfold reset
  split <;> omega

theorem pending_zero (hzero : ∀ i, f i = 0 → f (i + 1) = 0) (h : pending f k k = 0) :
    pending f k (k + 1) = 0 := by
  rw [pending, if_pos rfl] at h
  have hk : f k = 0 := by
    unfold reset at h
    split at h <;> omega
  rw [pending, if_neg (by omega), succDigits, hk, hzero k hk]
  rfl

theorem pending_succ (i : Nat) (hi : k + 1 ≤ i) (h : f k ≠ 3) :
    pending f k i = pending f (k + 1) i := by
  unfold pending
  by_cases heq : i = k + 1
  · subst heq
    rw [if_neg (by omega), if_pos rfl, succDigits, carry, if_neg h, add_zero]
  · rw [if_neg (by omega), if_neg heq]

theorem insertDown_right {y : α} {red : Bool} {l r : RBTree α} (hdir : dir y = some .right)
    (hl : l.isRed = false) :
    insertDown dir x fs (node red y l r) = insertDown dir x (⟨red, y, .right, l⟩ :: fs) r := by
  rw [insertDown, hdir]
  simp only [hl, Bool.false_and, Bool.false_eq_true]
  rfl

/-- The walk down from level `k`. The digits from there on up are done. -/
theorem insertDown_above (hspine : Spine f k t) (hdir : ∀ y ∈ t.toList, dir y = some .right)
    (habove : Above (pending f k) k fs) (hroot : ∀ p, fs = [p] → p.red = false)
    (hdigit : ∀ i, f i ≤ 3) (hzero : ∀ i, f i = 0 → f (i + 1) = 0) :
    ∃ gs, (insertDown dir x fs t).1 = plug gs nil ∧ Above (succDigits f) 0 gs := by
  induction hspine generalizing fs with
  | nil =>
    refine ⟨rise ⟨true, x, .right, nil⟩ fs, ?_, ?_⟩
    · rw [insertDown, hang_eq_rise habove x]
    · refine habove.rise hroot ?_ ?_ ?_ ?_ rfl
      · exact reset_le (hdigit 0)
      · exact pending_zero hzero
      · rfl
      · intro i hi
        rw [pending, if_neg (by omega)]
  | @one k y b t digit below rest ih =>
    rw [insertDown_right (hdir y (by simp [toList])) below.isRed_eq]
    refine ih (fun w hw => hdir w (by simp [toList, hw])) ?_ ?_
    · refine .one ?_ below (fun _ => rfl) (habove.congr fun i hi => pending_succ i hi (by omega))
      rw [pending, if_pos rfl, digit]
      rfl
    · rintro p hp
      cases hp
      rfl
  | @two k y w b d t digit below below' rest ih =>
    rw [insertDown_right (hdir y (by simp [toList])) below.isRed_eq,
      insertDown_right (hdir w (by simp [toList])) below'.isRed_eq]
    refine ih (fun w hw => hdir w (by simp [toList, hw])) ?_ ?_
    · refine .two ?_ below below' (habove.congr fun i hi => pending_succ i hi (by omega))
      rw [pending, if_pos rfl, digit]
      rfl
    · rintro p hp
      cases hp
  | @three k y w z b c d t digit below below' below'' rest ih =>
    have hsplit : insertDown dir x fs (node false y (node true z b c) (node true w d t)) =
        insertDown dir x (rise ⟨true, y, .right, node false z b c⟩ fs) (node false w d t) := by
      rw [insertDown, hdir y (by simp [toList])]
      rfl
    rw [hsplit, insertDown_right (hdir w (by simp [toList])) below''.isRed_eq]
    refine ih (fun w hw => hdir w (by simp [toList, hw])) ?_ ?_
    · have hrise : Above (pending f k) (k + 1) (rise ⟨true, y, .right, node false z b c⟩ fs) := by
        refine habove.rise hroot ?_ ?_ ?_ ?_ ⟨rfl, below, below'⟩
        · rw [pending, if_pos rfl]
          exact reset_le (hdigit (k + 1))
        · exact pending_zero hzero
        · rw [pending, pending, if_neg (by omega), if_pos rfl, succDigits, carry, if_pos digit]
        · intro i hi
          rw [pending, pending, if_neg (by omega), if_neg (by omega)]
      refine .one ?_ below'' (fun _ => rfl) hrise
      rw [pending, if_pos rfl, digit]
      rfl
    · rintro p hp
      rw [← (List.cons.inj hp).1]

/-! ## Numerals -/

/-- How often level `k` has been added to in `n` insertions. -/
def count (k n : Nat) : Nat := (n + 1 - 2 ^ k - k) / 2 ^ k

def digit (n k : Nat) : Nat := count k n - 2 * count (k + 1) n

theorem count_zero_left (n : Nat) : count 0 n = n := by
  simp [count]

/-- Every second addition to a level is carried on, one insertion later. -/
theorem count_succ_succ (k n : Nat) : count (k + 1) (n + 1) = (count k n - 1) / 2 := by
  have hsub := Nat.sub_mul_div (n + 1 - 2 ^ k - k) (2 ^ k) 1
  rw [count, count, ← hsub, Nat.div_div_eq_div_mul]
  congr 1
  omega

theorem count_zero_right (k : Nat) : count k 0 = 0 := by
  have hpos : 0 < 2 ^ k := Nat.two_pow_pos k
  exact Nat.div_eq_of_lt (by omega)

theorem count_succ_left (k n : Nat) : count (k + 1) n = (count k (n - 1) - 1) / 2 := by
  cases n with
  | zero => rw [count_zero_right, count_zero_right]
  | succ n => rw [count_succ_succ, Nat.add_sub_cancel]

/-- One insertion adds at most once to a level. -/
theorem count_step (k n : Nat) : count k (n - 1) ≤ count k n ∧ count k n ≤ count k (n - 1) + 1 := by
  induction k generalizing n with
  | zero =>
    rw [count_zero_left, count_zero_left]
    omega
  | succ k ih =>
    have hstep := ih (n - 1)
    rw [count_succ_left, count_succ_left k n]
    omega

theorem digit_le (n k : Nat) : digit n k ≤ 3 := by
  have hstep := count_step k n
  rw [digit, count_succ_left]
  omega

theorem digit_succ_eq_zero (h : digit n k = 0) : digit n (k + 1) = 0 := by
  have hstep := count_step k n
  rw [digit, count_succ_left] at h
  rw [digit, count_succ_left]
  omega

theorem carry_digit (n k : Nat) : carry (digit n k) = count (k + 1) (n + 1) - count (k + 1) n := by
  have hstep := count_step k n
  rw [digit, count_succ_succ, count_succ_left]
  unfold carry
  split <;> omega

theorem reset_digit (n k : Nat) : reset (digit n k) = count k n - 2 * count (k + 1) (n + 1) := by
  have hstep := count_step k n
  rw [digit, count_succ_succ, count_succ_left]
  unfold reset
  split <;> omega

theorem succDigits_digit (n : Nat) : succDigits (digit n) = digit (n + 1) := by
  funext k
  cases k with
  | zero =>
    rw [succDigits, reset_digit, digit, count_succ_succ, count_zero_left, count_zero_left]
    omega
  | succ k =>
    have hstep := count_step (k + 1) (n + 1)
    rw [succDigits, reset_digit, carry_digit, digit, count_succ_succ (k + 1)]
    rw [Nat.add_sub_cancel] at hstep
    omega

/-! ## The tree -/

/-- The tree after `n` ascending insertions. -/
def Ascended (n : Nat) (t : RBTree α) : Prop := ∃ fs, t = plug fs nil ∧ Above (digit n) 0 fs

theorem ascended_nil : Ascended 0 (nil : RBTree α) :=
  ⟨[], rfl, .nil (by rw [digit, count_zero_left, Nat.zero_sub])⟩

theorem Ascended.insert (h : Ascended n t) (hdir : ∀ y ∈ t.toList, dir y = some .right) (x : α) :
    Ascended (n + 1) (insertDown dir x [] t.blacken).1 := by
  obtain ⟨fs, rfl, habove⟩ := h
  obtain ⟨m, hm, hspine⟩ := habove.spine .nil
  rw [Ascended, ← succDigits_digit]
  refine insertDown_above hspine (by rwa [toList_blacken]) (.nil ?_) (fun p hp => nomatch hp)
    (digit_le n) (fun i => digit_succ_eq_zero)
  rw [pending, if_pos rfl, hm]
  rfl

theorem Above.right (h : Above f k fs) : ∀ g ∈ fs, g.side = .right := by
  induction h with
  | nil => exact fun g hg => nomatch hg
  | one _ _ _ _ ih => exact forall_mem_cons.mpr ⟨rfl, ih⟩
  | two _ _ _ _ ih
  | three _ _ _ _ _ ih => exact forall_mem_cons.mpr ⟨rfl, forall_mem_cons.mpr ⟨rfl, ih⟩⟩

theorem after_eq_nil (h : ∀ g ∈ fs, g.side = .right) : after fs = [] := by
  induction fs with
  | nil => rfl
  | cons g fs ih =>
    obtain ⟨hg, hfs⟩ := forall_mem_cons.mp h
    rw [after, ih hfs, Frame.after, hg]
    rfl

theorem follows_of_right (h : ∀ g ∈ fs, g.side = .right)
    (hdir : ∀ y ∈ before fs, dir y = some .right) : Follows dir fs := by
  induction fs with
  | nil => exact fun g hg => nomatch hg
  | cons g fs ih =>
    obtain ⟨hg, hfs⟩ := forall_mem_cons.mp h
    have hbefore : before (g :: fs) = before fs ++ (g.sib.toList ++ [g.x]) := by
      rw [before, Frame.before, hg]
    rw [hbefore] at hdir
    refine forall_mem_cons.mpr ⟨?_, ih hfs fun y hy => hdir y (by simp [hy])⟩
    rw [hg]
    exact hdir g.x (by simp)

/-- The height of a spine with a black and a red node at each of `j` levels below the root. -/
theorem Above.length_eq {j : Nat} (h : Above f k fs) (htwo : ∀ i, k ≤ i → i < k + j → f i = 2)
    (hone : f (k + j) = 1) (htop : f (k + j + 1) = 0) : fs.length = 2 * j + 1 := by
  induction j generalizing k fs with
  | zero =>
    rw [add_zero] at hone htop
    cases h with
    | nil digit => omega
    | one _ _ _ rest =>
      cases rest with
      | nil => rfl
      | one digit => omega
      | two digit => omega
      | three digit => omega
    | two digit => omega
    | three digit => omega
  | succ j ih =>
    have hk := htwo k (le_refl k) (by omega)
    cases h with
    | nil digit => omega
    | one digit => omega
    | two _ _ _ rest =>
      have hlength := ih rest (fun i hi hlt => htwo i (by omega) (by omega))
        (by rw [← hone]; congr 1; omega) (by rw [← htop]; congr 1; omega)
      rw [length_cons, length_cons]
      omega
    | three digit => omega

theorem locate_plug {gs : List (Frame α)} (h : Follows dir gs) (t : RBTree α) :
    locate dir fs (plug gs t) = locate dir (gs ++ fs) t := by
  induction gs generalizing t with
  | nil => rfl
  | cons g gs ih =>
    obtain ⟨hg, hgs⟩ := forall_mem_cons.mp h
    rw [plug, ih hgs, cons_append]
    rcases g with ⟨red, x, side, sib⟩
    cases side <;> simp only [Frame.attach, join, locate, hg]

/-! ## Three times a power of two -/

theorem count_pow (hk : 2 ≤ k) (j : Nat) : count k (3 * 2 ^ (k + j)) = 3 * 2 ^ j - 2 := by
  have hlt : k < 2 ^ k := Nat.lt_two_pow_self
  have hpos : 0 < 2 ^ j := Nat.two_pow_pos j
  have hexpand : 3 * 2 ^ (k + j) + 1 - 2 ^ k - k = (2 ^ k + 1 - k) + 2 ^ k * (3 * 2 ^ j - 2) := by
    rw [pow_add, Nat.mul_sub]
    have hle : 2 ^ k ≤ 2 ^ k * 2 ^ j := Nat.le_mul_of_pos_right _ hpos
    rw [mul_left_comm (2 ^ k) 3]
    omega
  rw [count, hexpand, Nat.add_mul_div_left _ _ (Nat.two_pow_pos k), Nat.div_eq_of_lt (by omega),
    zero_add]

/-- The numeral of `3 * 2 ^ (m + 2)`: 1 at the top, then 2s, and 3 and 2 at the lowest levels. -/
theorem digit_pow (m : Nat) :
    digit (3 * 2 ^ (m + 2)) 0 = 2 ∧ digit (3 * 2 ^ (m + 2)) 1 = 3 ∧
      (∀ i, 2 ≤ i → i < 2 + m → digit (3 * 2 ^ (m + 2)) i = 2) ∧
      digit (3 * 2 ^ (m + 2)) (2 + m) = 1 ∧ digit (3 * 2 ^ (m + 2)) (2 + m + 1) = 0 := by
  have hpos : 0 < 2 ^ m := Nat.two_pow_pos m
  have hfour : 3 * 2 ^ (m + 2) = 12 * 2 ^ m := by
    rw [Nat.pow_add]
    omega
  have hcount : ∀ i, 2 ≤ i → i ≤ 2 + m → count i (3 * 2 ^ (m + 2)) = 3 * 2 ^ (2 + m - i) - 2 := by
    intro i hi hle
    rw [← count_pow hi, show i + (2 + m - i) = m + 2 by omega]
  have hzero : count 0 (3 * 2 ^ (m + 2)) = 12 * 2 ^ m := by rw [count_zero_left, hfour]
  have hone : count 1 (3 * 2 ^ (m + 2)) = 6 * 2 ^ m - 1 := by
    rw [count_succ_left, count_zero_left]
    omega
  have htwo : count 2 (3 * 2 ^ (m + 2)) = 3 * 2 ^ m - 2 := by
    rw [hcount 2 (Nat.le_refl 2) (by omega), Nat.add_sub_cancel_left]
  have htop : count (2 + m) (3 * 2 ^ (m + 2)) = 1 := by
    rw [hcount (2 + m) (by omega) (Nat.le_refl _), Nat.sub_self, Nat.pow_zero]
  have hover : ∀ i, count (2 + m + 1 + i) (3 * 2 ^ (m + 2)) = 0 := by
    intro i
    apply Nat.div_eq_of_lt
    have hpow : 2 * (4 * 2 ^ m) ≤ 2 ^ (2 + m + 1 + i) := by
      calc 2 * (4 * 2 ^ m) = 2 ^ (2 + m + 1) := by
            rw [Nat.pow_succ, Nat.pow_add]
            omega
        _ ≤ 2 ^ (2 + m + 1 + i) := Nat.pow_le_pow_right (by decide) (by omega)
    omega
  refine ⟨?_, ?_, ?_, ?_, ?_⟩
  · rw [digit, hone]
    omega
  · rw [digit, htwo]
    omega
  · intro i hi hlt
    rw [digit, hcount i hi (by omega), hcount (i + 1) (by omega) (by omega)]
    have hdouble : 2 ^ (2 + m - i) = 2 * 2 ^ (2 + m - (i + 1)) := by
      rw [← Nat.pow_succ', show (2 + m - (i + 1)).succ = 2 + m - i by omega]
    have hhalf : 0 < 2 ^ (2 + m - (i + 1)) := Nat.two_pow_pos _
    omega
  · rw [digit, htop, show 2 + m + 1 = 2 + m + 1 + 0 by omega, hover]
  · rw [digit, show 2 + m + 1 = 2 + m + 1 + 0 by omega, hover]
    exact Nat.zero_sub _

end SafeLibc.Lib.RBTree
