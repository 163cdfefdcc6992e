import Mathlib.Data.List.Basic
import Mathlib.Tactic.Ring

/-!
# Red-black trees, seen from a node

A position in a tree is the list of `Frame`s from it up to the root, and `plug` puts a subtree back.
A tree is `Balanced` with its root's colour and its black height; a list of frames `Accepts` a
colour and a height when any such subtree may stand there.

Insertion works on the way down (`insertDown`): a node with two red children is split, and where
that makes two red nodes in a row the grandparent is rotated at once (`rise`), so that the new leaf
finds at most one such pair (`hang`). What makes this sound is that a red node is only ever entered
below a black one whose other child is not red (`Fresh`), and that no split follows a split
(`Settled`).

Deletion works on the way up (`rebalance`): the subtree in the hole has lost one black node.
-/

namespace SafeLibc.Lib

open List

inductive Side
  | left
  | right
  deriving DecidableEq, Repr

def Side.other : Side → Side
  | .left => .right
  | .right => .left

inductive RBTree (α : Type*)
  | nil
  | node (red : Bool) (x : α) (l r : RBTree α)

namespace RBTree

variable {α : Type*}

/-- The node with `near` on side `s` and `far` on the other one. -/
def join (s : Side) (red : Bool) (x : α) (near far : RBTree α) : RBTree α :=
  match s with
  | .left => node red x near far
  | .right => node red x far near

/-- Of a left and a right subtree, the one on side `s`. -/
def pick (s : Side) (l r : RBTree α) : RBTree α :=
  match s with
  | .left => l
  | .right => r

def isRed : RBTree α → Bool
  | nil => false
  | node red _ _ _ => red

def blacken : RBTree α → RBTree α
  | nil => nil
  | node _ x l r => node false x l r

def toList : RBTree α → List α
  | nil => []
  | node _ x l r => l.toList ++ x :: r.toList

def size : RBTree α → Nat
  | nil => 0
  | node _ _ l r => l.size + r.size + 1

@[simp] theorem join_pick (s : Side) (red : Bool) (x : α) (l r : RBTree α) :
    join s red x (pick s l r) (pick s.other l r) = node red x l r := by
  cases s <;> rfl

theorem join_other (s : Side) (red : Bool) (x : α) (near far : RBTree α) :
    join s.other red x far near = join s red x near far := by
  cases s <;> rfl

theorem pick_blacken (s : Side) (l r : RBTree α) :
    (pick s l r).blacken = pick s (blacken l) (blacken r) := by
  cases s <;> rfl

@[simp] theorem isRed_join (s : Side) (red : Bool) (x : α) (near far : RBTree α) :
    (join s red x near far).isRed = red := by
  cases s <;> rfl

@[simp] theorem blacken_join (s : Side) (red : Bool) (x : α) (near far : RBTree α) :
    (join s red x near far).blacken = join s false x near far := by
  cases s <;> rfl

@[simp] theorem isRed_blacken (t : RBTree α) : t.blacken.isRed = false := by
  cases t <;> rfl

@[simp] theorem toList_blacken (t : RBTree α) : t.blacken.toList = t.toList := by
  cases t <;> rfl

@[simp] theorem size_blacken (t : RBTree α) : t.blacken.size = t.size := by
  cases t <;> rfl

variable {t l r near far : RBTree α} {n : Nat} {c red d ured : Bool} {x y u : α} {s : Side}
  {dir : α → Option Side} {lt : α → α → Prop}

theorem blacken_of_not_red (h : t.isRed = false) : t.blacken = t := by
  cases t with
  | nil => rfl
  | node red x l r => exact congrArg (node · x l r) h.symm

theorem eq_node_of_isRed (h : t.isRed = true) : ∃ x l r, t = node true x l r := by
  cases t with
  | nil => cases h
  | node red x l r => exact ⟨x, l, r, congrArg (node · x l r) h⟩

theorem length_toList (t : RBTree α) : t.toList.length = t.size := by
  induction t with
  | nil => rfl
  | node red x l r ihl ihr =>
    rw [toList, length_append, length_cons, size]
    omega

theorem size_pick_lt (s : Side) (red : Bool) (x : α) (l r : RBTree α) :
    (pick s l r).size < (node red x l r).size := by
  cases s <;> simp only [pick, size] <;> omega

/-! ## Colours and black heights -/

/-- No red node has a red child, and every path to a leaf has the same number of black nodes. -/
inductive Balanced : RBTree α → Bool → Nat → Prop
  | nil : Balanced nil false 0
  | red {x : α} {l r : RBTree α} {n : Nat} (hl : Balanced l false n) (hr : Balanced r false n) :
      Balanced (node true x l r) true n
  | black {x : α} {l r : RBTree α} {c d : Bool} {n : Nat} (hl : Balanced l c n)
      (hr : Balanced r d n) : Balanced (node false x l r) false (n + 1)

theorem Balanced.isRed_eq (h : t.Balanced c n) : t.isRed = c := by
  cases h <;> rfl

theorem Balanced.join_red (hnear : near.Balanced false n) (hfar : far.Balanced false n) :
    (join s true x near far).Balanced true n := by
  cases s with
  | left => exact .red hnear hfar
  | right => exact .red hfar hnear

theorem Balanced.join_black (hnear : near.Balanced c n) (hfar : far.Balanced d n) :
    (join s false x near far).Balanced false (n + 1) := by
  cases s with
  | left => exact .black hnear hfar
  | right => exact .black hfar hnear

theorem Balanced.blacken_red (h : t.Balanced true n) : t.blacken.Balanced false (n + 1) := by
  cases h with
  | red hl hr => exact .black hl hr

theorem Balanced.blacken_black (h : t.Balanced false n) : t.blacken.Balanced false n := by
  cases h with
  | nil => exact .nil
  | black hl hr => exact .black hl hr

theorem Balanced.blacken (h : t.Balanced c n) : ∃ N, t.blacken.Balanced false N := by
  cases c with
  | false => exact ⟨n, h.blacken_black⟩
  | true => exact ⟨n + 1, h.blacken_red⟩

def NoRedRed : RBTree α → Prop
  | nil => True
  | node red _ l r => (red = true → l.isRed = false ∧ r.isRed = false) ∧ NoRedRed l ∧ NoRedRed r

/-- The numbers of black nodes on the paths from the root to the leaves. -/
def blackCounts : RBTree α → List Nat
  | nil => [0]
  | node red _ l r => (blackCounts l ++ blackCounts r).map (· + if red then 0 else 1)

theorem Balanced.noRedRed (h : t.Balanced c n) : t.NoRedRed := by
  induction h with
  | nil => trivial
  | red hl hr ihl ihr => exact ⟨fun _ => ⟨hl.isRed_eq, hr.isRed_eq⟩, ihl, ihr⟩
  | black _ _ ihl ihr => exact ⟨fun hred => (nomatch hred), ihl, ihr⟩

theorem Balanced.blackCounts_eq (h : t.Balanced c n) : ∀ b ∈ t.blackCounts, b = n := by
  induction h with
  | nil => simp [blackCounts]
  | red _ _ ihl ihr =>
    intro b hb
    obtain ⟨m, hm, rfl⟩ := mem_map.mp hb
    rcases mem_append.mp hm with hm | hm
    · exact ihl m hm
    · exact ihr m hm
  | black _ _ ihl ihr =>
    intro b hb
    obtain ⟨m, hm, rfl⟩ := mem_map.mp hb
    rcases mem_append.mp hm with hm | hm
    · exact congrArg (· + 1) (ihl m hm)
    · exact congrArg (· + 1) (ihr m hm)

/-- A tree of black height `n` has at least `2 ^ n - 1` nodes. -/
theorem Balanced.two_pow_le (h : t.Balanced c n) : 2 ^ n ≤ t.size + 1 := by
  induction h with
  | nil => exact le_rfl
  | red _ _ ihl ihr =>
    rw [size]
    omega
  | black _ _ ihl ihr =>
    rw [size]
    omega

theorem Balanced.exists_black (h : t.Balanced false (n + 1)) :
    ∃ x l r c d, t = node false x l r ∧ l.Balanced c n ∧ r.Balanced d n := by
  cases h with
  | black hl hr => exact ⟨_, _, _, _, _, rfl, hl, hr⟩

theorem Balanced.exists_red (h : t.Balanced true n) :
    ∃ x l r, t = node true x l r ∧ l.Balanced false n ∧ r.Balanced false n := by
  cases h with
  | red hl hr => exact ⟨_, _, _, rfl, hl, hr⟩

theorem Balanced.pick {s : Side} {l r : RBTree α} {c d : Bool} {n : Nat} (hl : l.Balanced c n)
    (hr : r.Balanced d n) : ∃ e, (pick s l r).Balanced e n := by
  cases s with
  | left => exact ⟨c, hl⟩
  | right => exact ⟨d, hr⟩

/-! ## Positions -/

/-- A node above the hole: the hole is on `side`, the other subtree is `sib`. -/
structure Frame (α : Type*) where
  red : Bool
  x : α
  side : Side
  sib : RBTree α

def Frame.attach (f : Frame α) (t : RBTree α) : RBTree α := join f.side f.red f.x t f.sib

def plug : List (Frame α) → RBTree α → RBTree α
  | [], t => t
  | f :: fs, t => plug fs (f.attach t)

variable {f : Frame α} {fs gs : List (Frame α)}

theorem plug_append (fs gs : List (Frame α)) (t : RBTree α) :
    plug (fs ++ gs) t = plug gs (plug fs t) := by
  induction fs generalizing t with
  | nil => rfl
  | cons f fs ih => exact ih (f.attach t)

@[simp] theorem plug_pick (fs : List (Frame α)) (s : Side) (red : Bool) (x : α) (l r : RBTree α) :
    plug (⟨red, x, s, pick s.other l r⟩ :: fs) (pick s l r) = plug fs (node red x l r) := by
  cases s <;> rfl

def Frame.before (f : Frame α) : List α :=
  match f.side with
  | .left => []
  | .right => f.sib.toList ++ [f.x]

def Frame.after (f : Frame α) : List α :=
  match f.side with
  | .left => f.x :: f.sib.toList
  | .right => []

def before : List (Frame α) → List α
  | [] => []
  | f :: fs => before fs ++ f.before

def after : List (Frame α) → List α
  | [] => []
  | f :: fs => f.after ++ after fs

theorem Frame.toList_attach (f : Frame α) (t : RBTree α) :
    (f.attach t).toList = f.before ++ t.toList ++ f.after := by
  rcases f with ⟨red, x, side, sib⟩
  cases side <;> simp [attach, join, toList, Frame.before, Frame.after]

theorem toList_plug (fs : List (Frame α)) (t : RBTree α) :
    (plug fs t).toList = before fs ++ t.toList ++ after fs := by
  induction fs generalizing t with
  | nil => simp [plug, before, after]
  | cons f fs ih =>
    rw [plug, ih, f.toList_attach]
    simp [before, after]

/-- The frames over a hole where any subtree of this colour and height may stand. -/
inductive Accepts : List (Frame α) → Bool → Nat → Prop
  | nil (c : Bool) (n : Nat) : Accepts [] c n
  | red {x : α} {s : Side} {sib : RBTree α} {fs : List (Frame α)} {n : Nat}
      (hsib : sib.Balanced false n) (habove : Accepts fs true n) :
      Accepts (⟨true, x, s, sib⟩ :: fs) false n
  | black {x : α} {s : Side} {sib : RBTree α} {fs : List (Frame α)} {c d : Bool} {n : Nat}
      (hsib : sib.Balanced d n) (habove : Accepts fs false (n + 1)) :
      Accepts (⟨false, x, s, sib⟩ :: fs) c n

theorem Accepts.black_of (h : Accepts fs c n) : Accepts fs false n := by
  cases h with
  | nil => exact .nil false n
  | red hsib habove => exact .red hsib habove
  | black hsib habove => exact .black hsib habove

theorem Accepts.plug_balanced (h : Accepts fs c n) (ht : t.Balanced c n) :
    ∃ d N, (plug fs t).Balanced d N := by
  induction h generalizing t with
  | nil c n => exact ⟨c, n, ht⟩
  | red hsib _ ih => exact ih (.join_red ht hsib)
  | black hsib _ ih => exact ih (.join_black ht hsib)

theorem Accepts.attach (h : Accepts fs c n) (hattach : (f.attach t).Balanced c n) :
    ∃ d m, t.Balanced d m ∧ Accepts (f :: fs) d m := by
  rcases f with ⟨red, x, side, sib⟩
  cases side with
  | left =>
    cases hattach with
    | red hl hr => exact ⟨_, _, hl, .red hr h⟩
    | black hl hr => exact ⟨_, _, hl, .black hr h⟩
  | right =>
    cases hattach with
    | red hl hr => exact ⟨_, _, hr, .red hl h⟩
    | black hl hr => exact ⟨_, _, hr, .black hl h⟩

theorem balanced_of_plug {N : Nat} (h : (plug fs t).Balanced d N) :
    ∃ c n, t.Balanced c n ∧ Accepts fs c n := by
  induction fs generalizing t with
  | nil => exact ⟨d, N, h, .nil d N⟩
  | cons f fs ih =>
    obtain ⟨c, n, hattach, habove⟩ := ih h
    exact habove.attach hattach

/-- Above a hole of height `n` the height grows by one at least every other frame. -/
theorem Accepts.two_pow_le (h : Accepts fs c n) (ht : t.Balanced c n) :
    ∃ N, 2 ^ N ≤ (plug fs t).size + 1 ∧ fs.length ≤ 2 * (N - n) + (if c then 0 else 1) ∧ n ≤ N := by
  induction h generalizing t with
  | nil c n => exact ⟨n, ht.two_pow_le, Nat.zero_le _, le_refl n⟩
  | red hsib _ ih =>
    obtain ⟨N, hsize, hlength, hle⟩ := ih (.join_red ht hsib)
    refine ⟨N, hsize, ?_, hle⟩
    simp only [length_cons, if_true, Bool.false_eq_true, if_false] at hlength ⊢
    omega
  | black hsib _ ih =>
    obtain ⟨N, hsize, hlength, hle⟩ := ih (.join_black ht hsib)
    refine ⟨N, hsize, ?_, by omega⟩
    simp only [length_cons, Bool.false_eq_true, if_false] at hlength ⊢
    omega

/-! ## Insertion on the way down -/

/-- The frames over a child of a node that was split: `f` is its own, and under a red parent they
are rotated. -/
def rise (f : Frame α) : List (Frame α) → List (Frame α)
  | p :: g :: fs =>
    if p.red then
      if p.side = g.side then
        -- the parent becomes the top, over the grandparent and the node
        f :: ⟨false, p.x, p.side, join g.side true g.x p.sib g.sib⟩ :: fs
      else if f.side = p.side then
        -- the node becomes the top, and the hole is below the grandparent
        ⟨true, g.x, g.side, g.sib⟩ :: ⟨false, f.x, f.side, join p.side true p.x f.sib p.sib⟩ :: fs
      else
        ⟨true, p.x, p.side, p.sib⟩ :: ⟨false, f.x, f.side, join g.side true g.x f.sib g.sib⟩ :: fs
    else f :: p :: g :: fs
  | fs => f :: fs

def hang (x : α) : List (Frame α) → RBTree α
  | p :: g :: fs =>
    if p.red then
      if p.side = g.side then
        plug (⟨false, p.x, p.side, join g.side true g.x p.sib g.sib⟩ :: fs) (node true x nil nil)
      else
        plug fs (join p.side false x (join g.side true g.x nil g.sib)
          (join p.side true p.x nil p.sib))
    else plug (p :: g :: fs) (node true x nil nil)
  | fs => plug fs (node true x nil nil)

/-- Insert `x` below this position, on the side `dir y` of each `y`; an equal element is
returned. -/
def insertDown (dir : α → Option Side) (x : α) (fs : List (Frame α)) :
    RBTree α → RBTree α × Option α
  | nil => (hang x fs, none)
  | node red y l r =>
    match dir y with
    | none => (plug fs (node red y l r), some y)
    | some s =>
      if l.isRed && r.isRed then
        insertDown dir x (rise ⟨true, y, s, (pick s.other l r).blacken⟩ fs) (pick s l r).blacken
      else insertDown dir x (⟨red, y, s, pick s.other l r⟩ :: fs) (pick s l r)
termination_by t => t.size
decreasing_by
  · rw [size_blacken]
    exact size_pick_lt s red y l r
  · exact size_pick_lt s red y l r

/-- A red node stands below a black one whose other child is not red, both for the focus and for its
parent. -/
structure Fresh (fs : List (Frame α)) (t : RBTree α) : Prop where
  focus : t.isRed = true → ∃ f gs, fs = f :: gs ∧ f.red = false ∧ f.sib.isRed = false
  parent : ∀ f gs, fs = f :: gs → f.red = true →
    ∃ g hs, gs = g :: hs ∧ g.red = false ∧ g.sib.isRed = false

/-- A black node without red children, as they are right after their parent was split. -/
def Settled : RBTree α → Prop
  | nil => False
  | node red _ l r => red = false ∧ l.isRed = false ∧ r.isRed = false

def Poised (fs : List (Frame α)) (t : RBTree α) : Prop := Fresh fs t ∨ Settled t

theorem fresh_root (h : t.isRed = false) : Fresh [] t :=
  ⟨fun hred => absurd hred (by simp [h]), fun _ _ heq => nomatch heq⟩

theorem Fresh.of_black (hf : f.red = false) (hnot : t.isRed = true → f.sib.isRed = false) :
    Fresh (f :: fs) t :=
  ⟨fun hred => ⟨f, fs, rfl, hf, hnot hred⟩, fun g gs heq hred => by
    cases heq
    exact absurd hred (by simp [hf])⟩

theorem Poised.enter (h : Poised fs (node red y l r)) (hbal : (node red y l r).Balanced red n)
    (hnot : (l.isRed && r.isRed) = false) (s : Side) :
    Poised (⟨red, y, s, pick s.other l r⟩ :: fs) (pick s l r) := by
  left
  cases red with
  | false =>
    apply Fresh.of_black rfl
    intro hred
    cases s <;> simp_all [pick, Side.other]
  | true =>
    -- a red node has black children, so that only its own parent matters
    cases hbal with
    | red hl hr =>
      have hfresh : Fresh fs (node true y l r) := by
        rcases h with hfresh | hsettled
        · exact hfresh
        · exact absurd hsettled.1 (by simp)
      constructor
      · intro hred
        cases s
        · exact absurd hred (by simp [pick, hl.isRed_eq])
        · exact absurd hred (by simp [pick, hr.isRed_eq])
      · intro f gs heq _
        cases heq
        exact hfresh.focus rfl

/-- A node that has to be split is not a child of one that was. -/
theorem Poised.fresh_of_split (h : Poised fs (node red y l r))
    (hsplit : (l.isRed && r.isRed) = true) : Fresh fs (node red y l r) := by
  rcases h with hfresh | hsettled
  · exact hfresh
  · simp [hsettled.2.1] at hsplit

/-- What a node with two red children is. -/
theorem Balanced.of_split (hbal : (node red y l r).Balanced c n)
    (hsplit : (l.isRed && r.isRed) = true) :
    red = false ∧ ∃ m, n = m + 1 ∧ l.Balanced true m ∧ r.Balanced true m := by
  rw [Bool.and_eq_true] at hsplit
  cases hbal with
  | red hl hr => exact absurd hsplit.1 (by simp [hl.isRed_eq])
  | black hl hr =>
    rw [hl.isRed_eq, hr.isRed_eq] at hsplit
    rw [hsplit.1] at hl
    rw [hsplit.2] at hr
    exact ⟨rfl, _, rfl, hl, hr⟩

theorem settled_blacken (h : t.Balanced true n) : Settled t.blacken := by
  cases h with
  | red hl hr => exact ⟨rfl, hl.isRed_eq, hr.isRed_eq⟩

/-- The parent is black, or it is red and its own parent is black with another child that is not
red. -/
theorem Fresh.parent_cases {p : Frame α} (h : Fresh (p :: fs) t)
    (hacc : Accepts (p :: fs) false n) : (p.red = false ∧ Accepts (p :: fs) true n) ∨
      p.red = true ∧ ∃ g gs, fs = g :: gs ∧ p.sib.Balanced false n ∧ g.sib.Balanced false n ∧
        Accepts gs false (n + 1) := by
  cases hacc with
  | black hp habove => exact .inl ⟨rfl, .black hp habove⟩
  | red hp habove =>
    obtain ⟨g, gs, rfl, hg, hsib⟩ := h.parent _ fs rfl rfl
    cases habove with
    | black hsib' habove' =>
      rw [hsib'.isRed_eq] at hsib
      subst hsib
      exact .inr ⟨rfl, _, gs, rfl, hp, hsib', habove'⟩

theorem accepts_rise (hf : f.red = true) (hsib : f.sib.Balanced false n) (hacc : Accepts fs false n)
    (hfresh : Fresh fs t) : Accepts (rise f fs) false n := by
  rcases f with ⟨fred, fx, fside, fsib⟩
  cases hf
  cases fs with
  | nil => exact .red hsib (.nil true n)
  | cons p fs =>
    rcases hfresh.parent_cases hacc with ⟨hred, hany⟩ | ⟨hred, g, gs, rfl, hp, hg, habove⟩
    · have hrise : rise ⟨true, fx, fside, fsib⟩ (p :: fs) = ⟨true, fx, fside, fsib⟩ :: p :: fs := by
        cases fs <;> simp [rise, hred]
      rw [hrise]
      exact .red hsib hany
    · rw [rise, if_pos hred]
      split
      · exact .red hsib (.black (.join_red hp hg) habove)
      · split
        · exact .red hg (.black (.join_red hsib hp) habove)
        · exact .red hp (.black (.join_red hsib hg) habove)

theorem hang_balanced (hacc : Accepts fs false 0) (hfresh : Fresh fs nil) :
    ∃ c N, (hang x fs).Balanced c N := by
  have hleaf : (node true x nil nil).Balanced true 0 := .red .nil .nil
  cases fs with
  | nil => exact ⟨true, 0, hleaf⟩
  | cons p fs =>
    rcases hfresh.parent_cases hacc with ⟨hred, hany⟩ | ⟨hred, g, gs, rfl, hp, hg, habove⟩
    · have hhang : hang x (p :: fs) = plug (p :: fs) (node true x nil nil) := by
        cases fs <;> simp [hang, hred]
      rw [hhang]
      exact hany.plug_balanced hleaf
    · rw [hang, if_pos hred]
      split
      · exact Accepts.plug_balanced (.black (.join_red hp hg) habove) hleaf
      · exact habove.plug_balanced (.join_black (.join_red .nil hg) (.join_red .nil hp))

theorem Accepts.enter (hacc : Accepts fs c n) (hbal : (node red y l r).Balanced c n) (s : Side) :
    ∃ d m, (pick s l r).Balanced d m ∧ Accepts (⟨red, y, s, pick s.other l r⟩ :: fs) d m := by
  apply hacc.attach
  rw [Frame.attach, join_pick]
  exact hbal

theorem pick_blacken_of_split (s : Side) (hl : l.Balanced true n) (hr : r.Balanced true n) :
    (pick s l r).blacken.Balanced false (n + 1) ∧ Settled (pick s l r).blacken := by
  cases s with
  | left => exact ⟨hl.blacken_red, settled_blacken hl⟩
  | right => exact ⟨hr.blacken_red, settled_blacken hr⟩

theorem insertDown_balanced (dir : α → Option Side) (x : α) (fs : List (Frame α)) (t : RBTree α)
    (hacc : Accepts fs c n) (hbal : t.Balanced c n) (hpoised : Poised fs t) :
    ∃ d N, (insertDown dir x fs t).1.Balanced d N := by
  fun_induction insertDown dir x fs t generalizing c n with
  | case1 fs =>
    cases hbal
    rcases hpoised with hfresh | hsettled
    · exact hang_balanced hacc hfresh
    · exact hsettled.elim
  | case2 fs red y l r _ => exact hacc.plug_balanced hbal
  | case3 fs red y l r s _ hsplit ih =>
    obtain ⟨rfl, m, rfl, hl, hr⟩ := hbal.of_split hsplit
    have hfresh := hpoised.fresh_of_split hsplit
    have hrise := accepts_rise (f := ⟨true, y, s, (pick s.other l r).blacken⟩) rfl
      (pick_blacken_of_split s.other hl hr).1 hacc.black_of hfresh
    exact ih hrise (pick_blacken_of_split s hl hr).1 (.inr (pick_blacken_of_split s hl hr).2)
  | case4 fs red y l r s _ hnot ih =>
    have henter := hpoised.enter (hbal.isRed_eq ▸ hbal) (by simpa using hnot) s
    obtain ⟨d, m, hpick, hframe⟩ := hacc.enter hbal s
    exact ih hframe hpick henter

theorem before_after_rise (f : Frame α) (fs : List (Frame α)) :
    before (rise f fs) = before (f :: fs) ∧ after (rise f fs) = after (f :: fs) := by
  match fs with
  | [] => exact ⟨rfl, rfl⟩
  | [p] => exact ⟨rfl, rfl⟩
  | p :: g :: gs =>
    rcases f with ⟨fred, fx, fside, fsib⟩
    rcases p with ⟨pred, px, pside, psib⟩
    rcases g with ⟨gred, gx, gside, gsib⟩
    cases pred
    · exact ⟨rfl, rfl⟩
    · cases fside <;> cases pside <;> cases gside <;>
        simp [rise, before, after, Frame.before, Frame.after, join, toList]

theorem toList_hang (x : α) (fs : List (Frame α)) :
    (hang x fs).toList = before fs ++ x :: after fs := by
  have hplain : (plug fs (node true x nil nil)).toList = before fs ++ x :: after fs := by
    rw [toList_plug]
    simp [toList]
  match fs with
  | [] => exact hplain
  | [p] => exact hplain
  | p :: g :: gs =>
    rcases p with ⟨pred, px, pside, psib⟩
    rcases g with ⟨gred, gx, gside, gsib⟩
    cases pred
    · exact hplain
    · cases pside <;> cases gside <;>
        simp [hang, toList_plug, before, after, Frame.before, Frame.after, join, toList]

/-! ## The side on which an element belongs -/

/-- Every frame has its hole on the side on which the sought element belongs. -/
def Follows (dir : α → Option Side) (fs : List (Frame α)) : Prop :=
  ∀ f ∈ fs, dir f.x = some f.side

/-- `dir` goes along with the order: what is below an element goes the way it goes. -/
structure Directs (lt : α → α → Prop) (dir : α → Option Side) : Prop where
  right : ∀ a b, lt a b → dir b = some .right → dir a = some .right
  left : ∀ a b, lt a b → dir a = some .left → dir b = some .left

theorem Follows.rise {dir : α → Option Side} {f : Frame α} {fs : List (Frame α)}
    (h : Follows dir (f :: fs)) : Follows dir (rise f fs) := by
  match fs with
  | [] => exact h
  | [p] => exact h
  | p :: g :: gs =>
    have hf := h f (by simp)
    have hp := h p (by simp)
    have hg := h g (by simp)
    have hgs : ∀ k ∈ gs, dir k.x = some k.side := fun k hk => h k (by simp [hk])
    rw [RBTree.rise]
    split
    · split
      · simp only [Follows, forall_mem_cons]
        exact ⟨hf, hp, hgs⟩
      · split
        · simp only [Follows, forall_mem_cons]
          exact ⟨hg, hf, hgs⟩
        · simp only [Follows, forall_mem_cons]
          exact ⟨hp, hf, hgs⟩
    · exact h

/-- Everything before the hole has the sought element to its right, everything after it to its
left. -/
theorem Follows.sides (hdir : Directs lt dir) {mid : List α} (h : Follows dir fs)
    (hsorted : (before fs ++ mid ++ after fs).Pairwise lt) :
    (∀ a ∈ before fs, dir a = some .right) ∧ ∀ b ∈ after fs, dir b = some .left := by
  induction fs generalizing mid with
  | nil => exact ⟨fun a ha => (nomatch ha), fun b hb => (nomatch hb)⟩
  | cons f fs ih =>
    have hf := h f (by simp)
    have hfs : Follows dir fs := fun k hk => h k (by simp [hk])
    rw [before] at hsorted
    have hmid : (before fs ++ (f.before ++ mid ++ f.after) ++ after fs).Pairwise lt := by
      simp only [append_assoc] at hsorted ⊢
      exact hsorted
    have hih := ih hfs hmid
    -- the frame's own elements lie beyond the frame's node on the side away from the hole
    rcases f with ⟨red, x, side, sib⟩
    cases side with
    | left =>
      refine ⟨by simpa [before, Frame.before] using hih.1, fun b hb => ?_⟩
      simp only [after, Frame.after, cons_append, mem_cons, mem_append] at hb
      rcases hb with rfl | hb | hb
      · exact hf
      · have hpair : lt x b := by
          have hafter := (pairwise_append.mp hsorted).2.1
          exact (pairwise_cons.mp hafter).1 b (by simp [hb])
        exact hdir.left x b hpair hf
      · exact hih.2 b hb
    | right =>
      refine ⟨fun a ha => ?_, by simpa [after, Frame.after] using hih.2⟩
      simp only [before, Frame.before, mem_append, mem_singleton] at ha
      rcases ha with ha | ha | rfl
      · exact hih.1 a ha
      · have hpair : lt a x := by
          have hbefore := (pairwise_append.mp (pairwise_append.mp hsorted).1).1
          have hframe := (pairwise_append.mp hbefore).2.1
          exact (pairwise_append.mp hframe).2.2 a ha x (by simp)
        exact hdir.right a x hpair hf
      · exact hf

@[simp] theorem insertDown_nil (dir : α → Option Side) (x : α) (fs : List (Frame α)) :
    insertDown dir x fs nil = (hang x fs, none) := by
  rw [insertDown]

/-- The elements around the hole in which a split leaves the child on side `s`. -/
theorem toList_rise (fs : List (Frame α)) (red : Bool) (y : α) (l r : RBTree α) (s : Side) :
    (plug (rise ⟨true, y, s, (pick s.other l r).blacken⟩ fs) (pick s l r).blacken).toList =
      (plug fs (node red y l r)).toList := by
  rw [toList_plug, toList_plug, (before_after_rise _ fs).1, (before_after_rise _ fs).2]
  cases s <;> simp [before, after, Frame.before, Frame.after, pick, Side.other, toList]

theorem insertDown_some (h : (insertDown dir x fs t).2 = some y) :
    dir y = none ∧ y ∈ (plug fs t).toList ∧
      (insertDown dir x fs t).1.toList = (plug fs t).toList := by
  fun_induction insertDown dir x fs t with
  | case1 fs => cases h
  | case2 fs red z l r hnone =>
    cases h
    exact ⟨hnone, by simp [toList_plug, toList], rfl⟩
  | case3 fs red z l r s _ _ ih =>
    rw [toList_rise fs red] at ih
    exact ih h
  | case4 fs red z l r s _ _ ih =>
    rw [plug_pick] at ih
    exact ih h

/-- Insertion without an equal element on the way hangs the new one into some position. -/
theorem insertDown_none (h : (insertDown dir x fs t).2 = none) (hfollows : Follows dir fs) :
    ∃ gs, (insertDown dir x fs t).1 = hang x gs ∧ Follows dir gs ∧
      before gs ++ after gs = (plug fs t).toList := by
  fun_induction insertDown dir x fs t with
  | case1 fs => exact ⟨fs, rfl, hfollows, by simp [toList_plug, toList]⟩
  | case2 fs red z l r _ => cases h
  | case3 fs red z l r s hsome _ ih =>
    rw [toList_rise fs red] at ih
    exact ih h (Follows.rise (forall_mem_cons.mpr ⟨hsome, hfollows⟩))
  | case4 fs red z l r s hsome _ ih =>
    rw [plug_pick] at ih
    exact ih h (forall_mem_cons.mpr ⟨hsome, hfollows⟩)

/-- In an ordered tree insertion puts the new element between what is below and what is above it. -/
theorem toList_insertDown (hdir : Directs lt dir) (h : (insertDown dir x [] t).2 = none)
    (hsorted : t.toList.Pairwise lt) :
    ∃ us vs, t.toList = us ++ vs ∧ (insertDown dir x [] t).1.toList = us ++ x :: vs ∧
      (∀ a ∈ us, dir a = some .right) ∧ ∀ b ∈ vs, dir b = some .left := by
  obtain ⟨gs, hresult, hfollows, hlist⟩ := insertDown_none h (fun f hf => (nomatch hf))
  have hgap : (before gs ++ [] ++ after gs).Pairwise lt := by
    rw [append_nil, hlist]
    exact hsorted
  obtain ⟨hus, hvs⟩ := hfollows.sides hdir hgap
  exact ⟨before gs, after gs, hlist.symm, hresult ▸ toList_hang x gs, hus, hvs⟩

/-! ## Deletion on the way up -/

/-- The subtree in the hole of `f` has lost a black node, and its brother is black. Either the
brother turns red, so that the whole subtree has lost one (`false`), or a red nephew fills the gap
(`true`). -/
def lend (f : Frame α) (t : RBTree α) : RBTree α × Bool :=
  match f.sib with
  | nil => (f.attach t, true)
  | node red y l r =>
    let near := pick f.side l r
    let far := pick f.side.other l r
    if !near.isRed && !far.isRed then (join f.side f.red f.x t (node true y l r), false)
    else if !far.isRed then
      match near with
      | nil => (f.attach t, true)
      | node _ z a b =>
        (join f.side f.red z (join f.side false f.x t (pick f.side a b))
          (join f.side red y (pick f.side.other a b) far), true)
    else (join f.side f.red y (join f.side false f.x t near) far.blacken, true)

/-- Give the subtree in the hole its black node back; a red brother is first rotated up. -/
def rebalance : List (Frame α) → RBTree α → RBTree α
  | [], t => t.blacken
  | f :: fs, t =>
    if t.isRed then plug (f :: fs) t.blacken
    else
      match f.sib with
      | node true y l r =>
        let lent := lend ⟨true, f.x, f.side, pick f.side l r⟩ t
        let upper := ⟨false, y, f.side, pick f.side.other l r⟩ :: fs
        if lent.2 then plug upper lent.1 else plug upper lent.1.blacken
      | _ =>
        let lent := lend f t
        if lent.2 then plug fs lent.1 else rebalance fs lent.1

theorem toList_lend (f : Frame α) (t : RBTree α) : (lend f t).1.toList = (f.attach t).toList := by
  rcases f with ⟨red, x, side, sib⟩
  cases sib with
  | nil => rfl
  | node qred y l r =>
    simp only [lend]
    split
    · cases side <;> rfl
    · split
      · split
        · rfl
        · next z a b heq =>
          cases side <;> simp only [pick] at heq <;>
            simp [Frame.attach, join, pick, Side.other, toList, heq]
      · cases side <;> simp [Frame.attach, join, pick, Side.other, toList]

theorem toList_rebalance (fs : List (Frame α)) (t : RBTree α) :
    (rebalance fs t).toList = (plug fs t).toList := by
  induction fs generalizing t with
  | nil => exact toList_blacken t
  | cons f fs ih =>
    rw [rebalance]
    split
    · rw [toList_plug, toList_plug, toList_blacken]
    · split
      · next y l r hsib =>
        rcases f with ⟨red, x, side, sib⟩
        cases hsib
        have hlent := toList_lend (⟨true, x, side, pick side l r⟩ : Frame α) t
        have hrotate : (Frame.attach ⟨false, y, side, pick side.other l r⟩
            (Frame.attach ⟨true, x, side, pick side l r⟩ t)).toList =
            (Frame.attach ⟨red, x, side, node true y l r⟩ t).toList := by
          cases side <;> simp [Frame.attach, join, pick, Side.other, toList]
        rw [Frame.toList_attach, ← hlent] at hrotate
        dsimp only
        split
        · rw [plug, plug, toList_plug, toList_plug, ← hrotate, Frame.toList_attach]
        · rw [plug, plug, toList_plug, toList_plug, ← hrotate, Frame.toList_attach, toList_blacken]
      · have hlent := toList_lend f t
        dsimp only
        split
        · rw [toList_plug, hlent, plug, toList_plug]
        · rw [ih, toList_plug, hlent, plug, toList_plug]

theorem rebalance_of_red (h : t.isRed = true) : rebalance fs t = plug fs t.blacken := by
  cases fs with
  | nil => rfl
  | cons f fs => rw [rebalance, if_pos h]

theorem rebalance_black (h : t.isRed = false) (hsib : f.sib.isRed = false) : rebalance (f :: fs) t =
      if (lend f t).2 then plug fs (lend f t).1 else rebalance fs (lend f t).1 := by
  rw [rebalance, h, if_neg (by decide)]
  split
  · next heq => simp [heq, isRed] at hsib
  · rfl

theorem rebalance_brother (h : t.isRed = false) : rebalance (⟨red, x, s, node true y l r⟩ :: fs) t =
      if (lend ⟨true, x, s, pick s l r⟩ t).2 then
        plug (⟨false, y, s, pick s.other l r⟩ :: fs) (lend ⟨true, x, s, pick s l r⟩ t).1
      else plug (⟨false, y, s, pick s.other l r⟩ :: fs)
        (lend ⟨true, x, s, pick s l r⟩ t).1.blacken := by
  rw [rebalance, h, if_neg (by decide)]

/-- What lending gives, when the brother is black. -/
theorem lend_balanced (ht : t.Balanced false n) (hsib : f.sib.Balanced false (n + 1)) :
    if (lend f t).2 then (lend f t).1.Balanced f.red (n + 1 + if f.red then 0 else 1)
    else (lend f t).1.isRed = f.red ∧ (lend f t).1.blacken.Balanced false (n + 1) := by
  rcases f with ⟨red, x, side, sib⟩
  obtain ⟨y, l, r, c, d, rfl, hl, hr⟩ := hsib.exists_black
  obtain ⟨cnear, hnear⟩ : ∃ e, (pick side l r).Balanced e n := hl.pick hr
  obtain ⟨cfar, hfar⟩ : ∃ e, (pick side.other l r).Balanced e n := hl.pick hr
  -- a node of the parent's colour over two black subtrees of one height
  have htop : ∀ (z : α) (near far : RBTree α), near.Balanced false (n + 1) →
      far.Balanced false (n + 1) →
      (join side red z near far).Balanced red (n + 1 + if red then 0 else 1) := by
    intro z near far hz hz'
    cases red with
    | false => exact .join_black hz hz'
    | true => exact .join_red hz hz'
  simp only [lend, hnear.isRed_eq, hfar.isRed_eq]
  cases cfar with
  | true =>
    simp only [Bool.not_true, Bool.and_false, Bool.false_eq_true, if_false, if_true]
    exact htop y _ _ (.join_black ht hnear) hfar.blacken_red
  | false =>
    cases cnear with
    | false =>
      simp only [Bool.not_false, Bool.and_self, if_true, Bool.false_eq_true, if_false, isRed_join,
        blacken_join, true_and]
      have hbrother : (node true y l r).Balanced true n := by
        cases side with
        | left => exact .red hnear hfar
        | right => exact .red hfar hnear
      exact .join_black ht hbrother
    | true =>
      obtain ⟨z, a, b, hz, ha, hb⟩ := hnear.exists_red
      simp only [Bool.not_false, Bool.not_true, Bool.and_true, Bool.false_eq_true, if_false,
        if_true, hz]
      obtain ⟨_, hpick⟩ : ∃ e, (pick side a b).Balanced e n := ha.pick hb
      obtain ⟨_, hpick'⟩ : ∃ e, (pick side.other a b).Balanced e n := ha.pick hb
      exact htop z _ _ (.join_black ht hpick) (.join_black hpick' hfar)

theorem Accepts.above (h : Accepts (f :: fs) c n) :
    Accepts fs f.red (n + if f.red then 0 else 1) := by
  cases h with
  | red _ habove => exact habove
  | black _ habove => exact habove

theorem Accepts.brother (h : Accepts (f :: fs) c n) (hsib : f.sib.isRed = false) :
    f.sib.Balanced false n := by
  cases h with
  | red hbal _ => exact hbal
  | black hbal _ => exact hsib ▸ hbal.isRed_eq ▸ hbal

/-- Where a black brother turned red below a black parent, the whole subtree has lost a black
node. -/
theorem Accepts.lost (hacc : Accepts (f :: fs) false (n + 1)) (ht : t.Balanced false n)
    (hf : f.red = false) (hsib : f.sib.isRed = false) (hdone : (lend f t).2 = false) :
    (lend f t).1.Balanced false (n + 1) ∧ Accepts fs false (n + 2) := by
  have hlent := lend_balanced ht (hacc.brother hsib)
  have habove := hacc.above
  rw [hf] at habove
  rw [if_neg (by simp [hdone]), hf] at hlent
  rw [← blacken_of_not_red hlent.1]
  exact ⟨hlent.2, habove⟩

/-- A red brother has black children that are no leaves. -/
theorem Accepts.nephews (hacc : Accepts (⟨red, x, s, node true y l r⟩ :: fs) false (n + 1)) :
    (pick s l r).Balanced false (n + 1) ∧
      ∀ c, Accepts (⟨false, y, s, pick s.other l r⟩ :: fs) c (n + 1) := by
  cases hacc with
  | red hsib _ => cases hsib
  | black hsib habove =>
    cases hsib with
    | red hl hr =>
      cases s with
      | left => exact ⟨hl, fun c => .black hr habove⟩
      | right => exact ⟨hr, fun c => .black hl habove⟩

theorem rebalance_balanced (hacc : Accepts fs false (n + 1)) (ht : t.Balanced c n) :
    ∃ d N, (rebalance fs t).Balanced d N := by
  induction fs generalizing t c n with
  | nil =>
    obtain ⟨N, hN⟩ := ht.blacken
    exact ⟨false, N, hN⟩
  | cons f fs ih =>
    cases c with
    | true =>
      rw [rebalance_of_red ht.isRed_eq]
      exact hacc.plug_balanced ht.blacken_red
    | false =>
      cases hbrother : f.sib.isRed with
      | true =>
        obtain ⟨y, l, r, hy⟩ := eq_node_of_isRed hbrother
        rcases f with ⟨red, x, s, sib⟩
        subst hy
        obtain ⟨hnear, hupper⟩ := hacc.nephews
        have hlent := lend_balanced (f := ⟨true, x, s, pick s l r⟩) ht hnear
        rw [rebalance_brother ht.isRed_eq]
        split
        · next hdone =>
          rw [if_pos hdone] at hlent
          exact (hupper true).plug_balanced hlent
        · next hdone =>
          rw [if_neg hdone] at hlent
          exact (hupper false).plug_balanced hlent.2
      | false =>
        rw [rebalance_black ht.isRed_eq hbrother]
        have hlent := lend_balanced ht (hacc.brother hbrother)
        split
        · next hdone =>
          rw [if_pos hdone] at hlent
          exact hacc.above.plug_balanced hlent
        · next hdone =>
          cases hf : f.red with
          | true =>
            -- below a red node the repair ends here
            rw [if_neg hdone, hf] at hlent
            have habove := hacc.above
            rw [hf] at habove
            rw [rebalance_of_red hlent.1]
            exact habove.black_of.plug_balanced hlent.2
          | false =>
            obtain ⟨hlost, habove⟩ := hacc.lost ht hf hbrother (by simpa using hdone)
            exact ih habove hlost

/-! ## Finding the node to delete -/

def locate (dir : α → Option Side) (fs : List (Frame α)) : RBTree α → List (Frame α) × RBTree α
  | nil => (fs, nil)
  | node red y l r =>
    match dir y with
    | none => (fs, node red y l r)
    | some .left => locate dir (⟨red, y, .left, r⟩ :: fs) l
    | some .right => locate dir (⟨red, y, .right, l⟩ :: fs) r

/-- The frames down to the leftmost node, with its colour, its element and its right subtree. -/
def leftmost (fs : List (Frame α)) (red : Bool) (x : α) (r : RBTree α) :
    RBTree α → List (Frame α) × Bool × α × RBTree α
  | nil => (fs, red, x, r)
  | node red' x' l' r' => leftmost (⟨red, x, .left, r⟩ :: fs) red' x' r' l'

/-- Take out the node at this position. With two children its element is overwritten by that of the
next node (`overwrite` says by what), which is taken out in its place. The result is the hole, the
colour of the node taken out, and what stands in the hole now. -/
def detach (overwrite : α → α → α) (fs : List (Frame α)) (red : Bool) (x : α) :
    RBTree α → RBTree α → List (Frame α) × Bool × RBTree α
  | nil, r => (fs, red, r)
  | l, nil => (fs, red, l)
  | l, node red' x' l' r' =>
    let (gs, ured, u, ur) := leftmost [] red' x' r' l'
    (gs ++ ⟨red, overwrite x u, .right, l⟩ :: fs, ured, ur)

def remove (overwrite : α → α → α) (fs : List (Frame α)) (red : Bool) (x : α) (l r : RBTree α) :
    RBTree α :=
  let (gs, ured, t) := detach overwrite fs red x l r
  if ured then plug gs t else rebalance gs t

theorem plug_locate (dir : α → Option Side) (fs : List (Frame α)) (t : RBTree α) :
    plug (locate dir fs t).1 (locate dir fs t).2 = plug fs t := by
  fun_induction locate dir fs t with
  | case1 fs => rfl
  | case2 fs red y l r _ => rfl
  | case3 fs red y l r _ ih => exact ih
  | case4 fs red y l r _ ih => exact ih

theorem follows_locate (t : RBTree α) (h : Follows dir fs) : Follows dir (locate dir fs t).1 := by
  fun_induction locate dir fs t with
  | case1 fs => exact h
  | case2 fs red y l r _ => exact h
  | case3 fs red y l r hside ih
  | case4 fs red y l r hside ih => exact ih (forall_mem_cons.mpr ⟨hside, h⟩)

theorem dir_locate (h : (locate dir fs t).2 = node red y l r) : dir y = none := by
  fun_induction locate dir fs t with
  | case1 fs => cases h
  | case2 fs red' y' l' r' hnone =>
    cases h
    exact hnone
  | case3 fs red' y' l' r' _ ih => exact ih h
  | case4 fs red' y' l' r' _ ih => exact ih h

/-- In an ordered tree an equal element is found exactly when there is one. -/
theorem locate_nil_iff (hdir : Directs lt dir) (hsorted : t.toList.Pairwise lt) :
    (locate dir [] t).2 = nil ↔ ∀ y ∈ t.toList, dir y ≠ none := by
  have hplug := plug_locate dir [] t
  rw [plug] at hplug
  have hfollows : Follows dir (locate dir [] t).1 := follows_locate t (fun f hf => (nomatch hf))
  constructor
  · intro hnil y hy
    rw [← hplug, toList_plug] at hsorted hy
    obtain ⟨hus, hvs⟩ := hfollows.sides hdir hsorted
    rw [hnil] at hy
    simp only [toList, append_nil, mem_append] at hy
    rcases hy with hy | hy
    · simp [hus y hy]
    · simp [hvs y hy]
  · intro hall
    cases hfound : (locate dir [] t).2 with
    | nil => rfl
    | node red y l r =>
      have hy : y ∈ t.toList := by
        rw [← hplug, toList_plug, hfound]
        simp [toList]
      exact absurd (dir_locate hfound) (hall y hy)

theorem leftmost_spec (fs : List (Frame α)) (red : Bool) (x : α) (r l : RBTree α) :
    plug (leftmost fs red x r l).1 (node (leftmost fs red x r l).2.1 (leftmost fs red x r l).2.2.1
      nil (leftmost fs red x r l).2.2.2) = plug fs (node red x l r) := by
  induction l generalizing fs red x r with
  | nil => rfl
  | node red' x' l' r' ihl _ => exact ihl (⟨red, x, .left, r⟩ :: fs) red' x' r'

theorem leftmost_append (fs gs : List (Frame α)) (red : Bool) (x : α) (r l : RBTree α) :
    leftmost (fs ++ gs) red x r l =
      ((leftmost fs red x r l).1 ++ gs, (leftmost fs red x r l).2) := by
  induction l generalizing fs red x r with
  | nil => rfl
  | node red' x' l' r' ihl _ => exact ihl (⟨red, x, .left, r⟩ :: fs) red' x' r'

theorem before_leftmost (fs : List (Frame α)) (red : Bool) (x : α) (r l : RBTree α) :
    before (leftmost fs red x r l).1 = before fs := by
  induction l generalizing fs red x r with
  | nil => rfl
  | node red' x' l' r' ihl _ =>
    rw [leftmost, ihl, before, Frame.before, append_nil]

theorem before_append (fs gs : List (Frame α)) : before (fs ++ gs) = before gs ++ before fs := by
  induction fs with
  | nil => simp [before]
  | cons f fs ih => rw [cons_append, before, ih, before, append_assoc]

theorem after_append (fs gs : List (Frame α)) : after (fs ++ gs) = after fs ++ after gs := by
  induction fs with
  | nil => rfl
  | cons f fs ih => rw [cons_append, after, ih, after, append_assoc]

/-- Removal takes one element out; with two children the element's place is taken by the next
one. -/
theorem toList_remove (overwrite : α → α → α) (fs : List (Frame α)) (red : Bool) (x : α)
    (l r : RBTree α) :
    (remove overwrite fs red x l r).toList = before fs ++ (l.toList ++ r.toList) ++ after fs ∨
      ∃ u us, r.toList = u :: us ∧
        (remove overwrite fs red x l r).toList =
          before fs ++ (l.toList ++ overwrite x u :: us) ++ after fs := by
  have hresult : (remove overwrite fs red x l r).toList =
      (plug (detach overwrite fs red x l r).1 (detach overwrite fs red x l r).2.2).toList := by
    rw [remove]
    dsimp only
    split
    · rfl
    · exact toList_rebalance _ _
  rw [hresult, toList_plug]
  match l, r with
  | nil, r => exact .inl (by simp [detach, toList])
  | node lred lx ll lr, nil => exact .inl (by simp [detach, toList])
  | node lred lx ll lr, node red' x' l' r' =>
    right
    have hspec := congrArg toList (leftmost_spec [] red' x' r' l')
    have hbefore := before_leftmost [] red' x' r' l'
    rw [plug, toList_plug, hbefore] at hspec
    refine ⟨(leftmost [] red' x' r' l').2.2.1, (leftmost [] red' x' r' l').2.2.2.toList ++
      after (leftmost [] red' x' r' l').1, ?_, ?_⟩
    · rw [← hspec]
      simp [before, toList]
    · simp only [detach, before_append, after_append, hbefore]
      simp [before, after, Frame.before, Frame.after]

theorem balanced_only_child (h : (plug gs (join s ured u nil t)).Balanced c n) :
    ∃ e k, t.Balanced e k ∧ (ured = true → e = false ∧ Accepts gs true k) ∧
      (ured = false → Accepts gs false (k + 1)) := by
  obtain ⟨d, m, hnode, hacc⟩ := balanced_of_plug h
  cases s <;> cases hnode <;> exact ⟨_, _, by assumption, by simp [hacc], by simp [hacc]⟩

theorem drop_balanced (h : (plug gs (join s ured u nil t)).Balanced c n) :
    ∃ d N, (if ured then plug gs t else rebalance gs t).Balanced d N := by
  obtain ⟨e, k, ht, hred, hblack⟩ := balanced_only_child h
  cases ured with
  | true =>
    obtain ⟨rfl, hacc⟩ := hred rfl
    exact hacc.black_of.plug_balanced ht
  | false => exact rebalance_balanced (hblack rfl) ht

/-- Colours and heights do not depend on the elements. -/
theorem Balanced.overwrite (h : (node red x l r).Balanced c n) : (node red y l r).Balanced c n := by
  cases h with
  | red hl hr => exact .red hl hr
  | black hl hr => exact .black hl hr

/-- The hole that `detach` leaves, before the node is taken out of it. -/
theorem detach_spec (overwrite : α → α → α) (fs : List (Frame α)) (red : Bool) (x : α)
    (l r : RBTree α) :
    ∃ y u s, plug fs (node red y l r) =
      plug (detach overwrite fs red x l r).1 (join s (detach overwrite fs red x l r).2.1 u nil
        (detach overwrite fs red x l r).2.2) := by
  match l, r with
  | nil, r => exact ⟨x, x, .left, rfl⟩
  | node lred lx ll lr, nil => exact ⟨x, x, .right, rfl⟩
  | node lred lx ll lr, node red' x' l' r' =>
    have hspec := leftmost_spec [] red' x' r' l'
    refine ⟨overwrite x (leftmost [] red' x' r' l').2.2.1, (leftmost [] red' x' r' l').2.2.1, .left,
      ?_⟩
    simp only [detach, plug_append, join, hspec]
    rfl

theorem remove_balanced (overwrite : α → α → α) (h : (plug fs (node red x l r)).Balanced c n) :
    ∃ d N, (remove overwrite fs red x l r).Balanced d N := by
  obtain ⟨y, u, s, hspec⟩ := detach_spec overwrite fs red x l r
  obtain ⟨d, m, hnode, hacc⟩ := balanced_of_plug h
  obtain ⟨e, k, hover⟩ := hacc.plug_balanced (hnode.overwrite (y := y))
  rw [hspec] at hover
  exact drop_balanced hover

end RBTree

end SafeLibc.Lib
