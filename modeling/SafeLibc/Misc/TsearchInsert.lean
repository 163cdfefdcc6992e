import SafeLibc.Misc.TsearchHeap

/-!
# `tsearch` inserts on the way down

The loop of `tsearch` keeps the places of the parent and of the grandparent and the comparisons that
led there. A rotation makes them stale: `Trail` says what is still right about them. It is enough,
since no split follows a split (`Settled`), and without a split they are not read. So the heap that
`tsearch` leaves is that of `insertDown` (`tsearch_spec`), and a grandparent that is needed is
there.
-/

namespace SafeLibc.Misc

open SafeLibc.Lib RBTree List

variable {K : Type} {z : Ptr → Nat}

/-! ## One call of `maybe_split_for_insert` -/

def parentOf : List (Frame (Ptr × K)) → Option Slot
  | [] => none
  | _ :: fs => some (slotOf fs)

def Leads (r : Int) (s : Side) : Prop := (r < 0 ↔ s = .left) ∧ (r > 0 ↔ s = .right)

/-- The focus after the rotation for two red nodes; the lower one has `x` and the black children
`l`, `r`. -/
def turn (fs : List (Frame (Ptr × K))) (x : Ptr × K) (l r : Tree K) :
    List (Frame (Ptr × K)) × Tree K :=
  match fs with
  | p :: g :: gs =>
    if p.red then
      if p.side = g.side then
        (⟨false, p.x, p.side, join g.side true g.x p.sib g.sib⟩ :: gs, .node true x l r)
      else
        (gs, join p.side false x (join g.side true g.x (pick p.side l r) g.sib)
          (join p.side true p.x (pick p.side.other l r) p.sib))
    else (p :: g :: gs, .node true x l r)
  | gs => (gs, .node true x l r)

theorem plug_turn_leaf (fs : List (Frame (Ptr × K))) (x : Ptr × K) :
    plug (turn fs x .nil .nil).1 (turn fs x .nil .nil).2 = hang x fs := by
  match fs with
  | [] => rfl
  | [p] => rfl
  | p :: g :: gs =>
    rw [turn, hang]
    split
    · split
      · rfl
      · cases p.side <;> rfl
    · rfl

theorem plug_turn_child (fs : List (Frame (Ptr × K))) (x : Ptr × K) (l r : Tree K) (s : Side) :
    plug (rise ⟨true, x, s, pick s.other l r⟩ fs) (pick s l r) =
      plug (turn fs x l r).1 (turn fs x l r).2 := by
  match fs with
  | [] => exact plug_pick _ _ _ _ _ _
  | [p] => exact plug_pick _ _ _ _ _ _
  | p :: g :: gs =>
    rw [turn, rise]
    split
    · split
      · exact plug_pick _ _ _ _ _ _
      · next hside =>
        split
        · next hs =>
          subst hs
          rfl
        · next hs =>
          have hother : s = p.side.other := by
            cases s <;> cases hp : p.side <;> simp_all [Side.other]
          subst hother
          cases p.side <;> simp [plug, Frame.attach, join, Side.other]
    · exact plug_pick _ _ _ _ _ _

theorem mustSplit_mode (h : Heap K) (rpn lpn : Ptr) : mustSplit h rpn lpn 1 = .ok true := rfl

/-- With mode 0 a node is split when both of its successors are red. -/
theorem Focus.mustSplit {h : Heap K} {fs : List (Frame (Ptr × K))} {red : Bool} {x : Ptr × K}
    {l r : Tree K} (hfocus : Focus z h fs (.node red x l r)) :
    mustSplit h (addr r) (addr l) 0 = .ok (l.isRed && r.isRed) := by
  have hl : Focus z h (⟨red, x, .left, r⟩ :: fs) l := focus_cons.mpr hfocus
  have hr : Focus z h (⟨red, x, .right, l⟩ :: fs) r := focus_cons.mpr hfocus
  rw [Misc.mustSplit, if_neg (by decide)]
  cases l with
  | nil => simp [addr, isRed]
  | node lred lx ll lr =>
    cases r with
    | nil => simp [addr, isRed]
    | node rred rx rl rr =>
      rw [if_neg (by simp [addr, hl.tree.2.1, hr.tree.2.1]), addr, addr, node_ok hr.tree.1,
        node_ok hl.tree.1]
      simp only [ok_bind, red_pack, pure_ok, isRed]
      cases rred <;> simp

section Split

variable {h : Heap K} {fs : List (Frame (Ptr × K))} {red : Bool} {x : Ptr × K} {l r : Tree K}

/-- Nothing happens at a node that need not be split. -/
theorem Focus.maybeSplit_skip (hfocus : Focus z h fs (.node red x l r))
    (hnot : (l.isRed && r.isRed) = false) (parentp gparentp : Option Slot) (p_r gp_r : Int) :
    maybeSplitForInsert h (slotOf fs) parentp gparentp p_r gp_r 0 = .ok h := by
  rw [maybeSplitForInsert, deref_slotOf hfocus.frames, ok_bind, addr, node_ok hfocus.tree.1,
    ok_bind, right_pack, left_pack]
  simp only [hfocus.mustSplit, hnot, ok_bind, Bool.false_eq_true, if_false, pure_ok]

/-- For a rotation: above a red parent there is a grandparent, and the comparisons led to the
two. -/
def KnowsPair (fs : List (Frame (Ptr × K))) (gparentp : Option Slot) (p_r gp_r : Int) : Prop :=
  ∀ p gs, fs = p :: gs → p.red = true → ∃ g hs, gs = g :: hs ∧ gparentp = some (slotOf hs) ∧
    Leads p_r p.side ∧ Leads gp_r g.side

theorem leads_differ {r r' : Int} {s s' : Side} (h : Leads r s) (h' : Leads r' s') :
    (decide (r > 0) != decide (r' > 0)) = decide (s ≠ s') := by
  have hr := h.2
  have hr' := h'.2
  cases s <;> cases s' <;> simp_all
  omega

theorem Focus.rotateIfRed (hfocus : Focus z h fs (.node true x l r)) {gparentp : Option Slot}
    {p_r gp_r : Int} (hpair : KnowsPair fs gparentp p_r gp_r) :
    ∃ h', rotateIfRed h x.1 (addr r) (addr l) (parentOf fs) gparentp p_r gp_r = .ok h' ∧
      Focus z h' (turn fs x l r).1 (turn fs x l r).2 := by
  cases fs with
  | nil => exact ⟨h, rfl, hfocus⟩
  | cons p gs =>
    rw [parentOf, Misc.rotateIfRed]
    simp only [deref_slotOf hfocus.frames.2.2.2, node_ok hfocus.frames.1, ok_bind, red_packAt]
    by_cases hred : p.red = true
    · obtain ⟨g, hs, rfl, rfl, hp, hg⟩ := hpair p gs rfl hred
      obtain ⟨-, -, -, hgmem, -, -, hhs⟩ := hfocus.frames
      rw [if_pos hred]
      simp only [deref_slotOf hhs, ok_bind, leads_differ hp hg, turn, hred, if_true]
      by_cases hside : p.side = g.side
      · simp only [hside, ne_eq, not_true, decide_false, Bool.false_eq_true, if_false, if_true]
        obtain ⟨h', hrun, hfocus'⟩ := hfocus.rotateOnce hside hp.1
        refine ⟨h', hrun, focus_cons.mpr ?_⟩
        rw [hside] at hfocus'
        exact hfocus'
      · simp only [hside, ne_eq, not_false_iff, decide_true, if_true, if_false]
        have hother : g.side = p.side.other := by
          cases hps : p.side <;> cases hgs : g.side <;> simp_all [Side.other]
        exact hfocus.rotateTwice hother hp.1
    · rw [if_neg hred]
      refine ⟨h, rfl, ?_⟩
      cases gs with
      | nil => exact hfocus
      | cons g hs =>
        rw [turn, if_neg hred]
        exact hfocus

/-- A node that is split turns red, and below a red parent the grandparent is rotated. -/
theorem Focus.maybeSplit (hfocus : Focus z h fs (.node red x l r)) {mode : Nat}
    (hsplit : Misc.mustSplit h (addr r) (addr l) mode = .ok true) {gparentp : Option Slot}
    {p_r gp_r : Int} (hpair : KnowsPair fs gparentp p_r gp_r) :
    ∃ h', maybeSplitForInsert h (slotOf fs) (parentOf fs) gparentp p_r gp_r mode = .ok h' ∧
      Focus z h' (turn fs x l.blacken r.blacken).1 (turn fs x l.blacken r.blacken).2 := by
  obtain ⟨h₁, h₂, h₃, hrun₁, hrun₂, hrun₃, hcoloured⟩ := hfocus.split
  obtain ⟨h₄, hrun₄, hturned⟩ := hcoloured.rotateIfRed hpair
  rw [addr_blacken, addr_blacken] at hrun₄
  refine ⟨h₄, ?_, hturned⟩
  rw [maybeSplitForInsert, deref_slotOf hfocus.frames, ok_bind, addr, node_ok hfocus.tree.1,
    ok_bind, right_pack, left_pack]
  simp only [hsplit, ok_bind, if_true, hrun₁, hrun₂, hrun₃, hrun₄]

end Split

/-! ## The loop -/

variable (compar : K → K → Int)

def dirOf (key : K) (y : Ptr × K) : Option Side :=
  if compar key y.2 = 0 then none else some (sideOf (compar key y.2))

variable {compar}

variable {key : K} {y : Ptr × K}

theorem dirOf_eq_none : dirOf compar key y = none ↔ compar key y.2 = 0 := by
  unfold dirOf
  split <;> simp_all

theorem leads_sideOf {r : Int} (hne : r ≠ 0) : Leads r (sideOf r) := by
  unfold sideOf Leads
  split <;> simp <;> omega

theorem dirOf_eq_some {s : Side} (h : dirOf compar key y = some s) :
    compar key y.2 ≠ 0 ∧ sideOf (compar key y.2) = s ∧ Leads (compar key y.2) s := by
  unfold dirOf at h
  split at h
  · cases h
  · next hne =>
    cases h
    exact ⟨hne, rfl, leads_sideOf hne⟩

/-- What the loop's variables say of a position. The grandparent is only right where a split may
happen. -/
structure Trail (w : Walk) (fs : List (Frame (Ptr × K))) (t : Tree K) : Prop where
  rootp : w.rootp = slotOf fs
  nextp : w.nextp = slotOf fs
  parentp : w.parentp = parentOf fs
  p_r : ∀ p gs, fs = p :: gs → Leads w.p_r p.side
  pair : ¬ Settled t → KnowsPair fs w.gparentp w.p_r w.gp_r

def Walk.next (w : Walk) (nextp : Slot) (r : Int) : Walk :=
  { rootp := nextp, nextp := nextp, parentp := some w.rootp, gparentp := w.parentp, r := r,
    p_r := r, gp_r := w.p_r }

section Loop

variable {h h' : Heap K} {fs : List (Frame (Ptr × K))} {red : Bool} {y : Ptr × K} {l r : Tree K}
  {w : Walk} {key : K}

variable {s : Side} {t : Tree K} {f : Frame (Ptr × K)} {gs : List (Frame (Ptr × K))}

theorem Trail.pair_enter (htrail : Trail w fs (.node red y l r))
    (hpoised : Poised fs (.node red y l r)) {o : Int} (hleads : Leads o s) :
    KnowsPair (⟨red, y, s, pick s.other l r⟩ :: fs) w.parentp o w.p_r := by
  intro p gs heq hred
  cases heq
  cases hred
  -- a red node is not settled, so that its parent is known and black
  have hfresh : Fresh fs (.node true y l r) := by
    rcases hpoised with hfresh | hsettled
    · exact hfresh
    · cases hsettled.1
  obtain ⟨g, hs, rfl, -, -⟩ := hfresh.focus rfl
  exact ⟨g, hs, rfl, htrail.parentp, hleads, htrail.p_r g hs rfl⟩

theorem tsearchLoop_found (hfocus : Focus z h fs (.node red y l r))
    (htrail : Trail w fs (.node red y l r)) (heq : compar key y.2 = 0) (fuel : Nat) :
    tsearchLoop compar key (fuel + 1) w h = .ok (h, .inl y.1) := by
  rw [tsearchLoop, htrail.nextp, htrail.rootp]
  simp only [deref_slotOf hfocus.frames, ok_bind, addr, hfocus.tree.2.1, if_false,
    node_ok hfocus.tree.1, key_pack, heq, if_true, pure_ok]

/-- One round of the loop, given what `maybe_split_for_insert` does in it. -/
theorem tsearchLoop_step (hfocus : Focus z h fs (.node red y l r)) (hrootp : w.rootp = slotOf fs)
    (hnextp : w.nextp = slotOf fs) (hdir : dirOf compar key y = some s)
    (hsplit : maybeSplitForInsert h (slotOf fs) w.parentp w.gparentp w.p_r w.gp_r 0 = .ok h')
    {v : Ptr} (hderef : h'.deref (.child s y.1) = .ok v) (fuel : Nat) :
    tsearchLoop compar key (fuel + 1) w h =
      if v = .NULL then
        .ok (h', .inr { w with nextp := .child s y.1, r := compar key y.2 })
      else tsearchLoop compar key fuel (w.next (.child s y.1) (compar key y.2)) h' := by
  obtain ⟨hne, hside, -⟩ := dirOf_eq_some hdir
  rw [tsearchLoop, hnextp]
  simp only [deref_slotOf hfocus.frames, ok_bind, addr, hfocus.tree.2.1, if_false,
    node_ok hfocus.tree.1, key_pack, hne, hsplit, hside, hderef, pure_ok, Walk.next, hrootp]

theorem tsearchLoop_skip {near far : Tree K} (hfocus : Focus z h fs (join s red y near far))
    (hrootp : w.rootp = slotOf fs) (hnextp : w.nextp = slotOf fs)
    (hnot : (near.isRed && far.isRed) = false) (hdir : dirOf compar key y = some s) (fuel : Nat) :
    tsearchLoop compar key (fuel + 1) w h =
      if addr near = .NULL then
        .ok (h, .inr { w with nextp := .child s y.1, r := compar key y.2 })
      else tsearchLoop compar key fuel (w.next (.child s y.1) (compar key y.2)) h := by
  have hchild : Focus z h (⟨red, y, s, far⟩ :: fs) near := focus_cons.mpr hfocus
  have hderef : h.deref (.child s y.1) = .ok (addr near) := deref_slotOf hchild.frames
  cases s with
  | left =>
    exact tsearchLoop_step hfocus hrootp hnextp hdir (hfocus.maybeSplit_skip hnot _ _ _ _) hderef
      fuel
  | right =>
    rw [Bool.and_comm] at hnot
    exact tsearchLoop_step hfocus hrootp hnextp hdir (hfocus.maybeSplit_skip hnot _ _ _ _) hderef
      fuel

theorem addr_eq_null_iff (ht : InMem h t) : addr t = .NULL ↔ t = .nil := by
  cases t with
  | nil => simp [addr]
  | node red x l r => simp [addr, ht.2.1]

theorem addr_ne_null_of_settled (hsettled : Settled t) (ht : InMem h t) : addr t ≠ .NULL := by
  cases t with
  | nil => exact hsettled.elim
  | node red x l r => exact ht.2.1

section

variable (hfocus : Focus z h fs (.node red y l r)) (htrail : Trail w fs (.node red y l r))
  (hdir : dirOf compar key y = some s)
  (hsplit : maybeSplitForInsert h (slotOf fs) w.parentp w.gparentp w.p_r w.gp_r 0 = .ok h')
  (hf : f.x = y ∧ f.side = s)

include hfocus htrail hdir hsplit hf

/-- Past a node that is split and stays below its parent. -/
theorem tsearchLoop_split_stay (hgs : slotOf gs = slotOf fs) (hchild : Focus z h' (f :: gs) t)
    (hsettled : Settled t) (fuel : Nat) :
    ∃ w', tsearchLoop compar key (fuel + 1) w h = tsearchLoop compar key fuel w' h' ∧
      Trail w' (f :: gs) t := by
  obtain ⟨rfl, rfl⟩ := hf
  refine ⟨w.next (.child f.side f.x.1) (compar key f.x.2), ?_, rfl, rfl, ?_, ?_, ?_⟩
  · rw [tsearchLoop_step hfocus htrail.rootp htrail.nextp hdir hsplit (deref_slotOf hchild.frames),
      if_neg (addr_ne_null_of_settled hsettled hchild.tree)]
  · rw [Walk.next, htrail.rootp, parentOf, hgs]
  · intro p ps heq
    cases heq
    exact (dirOf_eq_some hdir).2.2
  · exact fun hnot => absurd hsettled hnot

/-- The round after a rotation: the former grandparent or parent is between the top and the
child. -/
theorem tsearchLoop_split_top {g : Frame (Ptr × K)} (hchild : Focus z h' (g :: f :: gs) t)
    (hg : dirOf compar key g.x = some g.side) (hsettled : Settled t) (fuel : Nat) :
    ∃ w', tsearchLoop compar key (fuel + 2) w h = tsearchLoop compar key fuel w' h' ∧
      Trail w' (g :: f :: gs) t := by
  obtain ⟨rfl, rfl⟩ := hf
  have hbetween : Focus z h' (f :: gs) (g.attach t) := focus_cons.mp hchild
  have hnull : addr (g.attach t) ≠ .NULL := by
    rw [Frame.attach, addr_join]
    exact hchild.frames.2.1
  have hblack : (t.isRed && g.sib.isRed) = false := by
    cases t with
    | nil => rfl
    | node red x l r => rw [isRed, hsettled.1, Bool.false_and]
  refine ⟨(w.next (.child f.side f.x.1) (compar key f.x.2)).next (.child g.side g.x.1)
    (compar key g.x.2), ?_, rfl, rfl, rfl, ?_, ?_⟩
  · rw [tsearchLoop_step hfocus htrail.rootp htrail.nextp hdir hsplit
      (deref_slotOf hbetween.frames),
      if_neg hnull, tsearchLoop_skip hbetween rfl rfl hblack hg,
      if_neg (addr_ne_null_of_settled hsettled hchild.tree)]
  · intro p ps heq
    cases heq
    exact (dirOf_eq_some hg).2.2
  · exact fun hnot => absurd hsettled hnot

end

/-- Past a node that is split. -/
theorem tsearchLoop_split (hfocus : Focus z h fs (.node red y l r))
    (htrail : Trail w fs (.node red y l r)) (hfollows : Follows (dirOf compar key) fs)
    (hdir : dirOf compar key y = some s) (hsplit : (l.isRed && r.isRed) = true)
    (hsettled : Settled (pick s l r).blacken) (fuel : Nat) : ∃ h' w' fuel', fuel ≤ fuel' ∧
      tsearchLoop compar key (fuel + 2) w h = tsearchLoop compar key fuel' w' h' ∧
      Focus z h' (rise ⟨true, y, s, (pick s.other l r).blacken⟩ fs) (pick s l r).blacken ∧
      Trail w' (rise ⟨true, y, s, (pick s.other l r).blacken⟩ fs) (pick s l r).blacken := by
  have hnot : ¬ Settled (.node red y l r) := by
    rintro ⟨-, hl, -⟩
    simp [hl] at hsplit
  have hmust := hfocus.mustSplit
  rw [hsplit] at hmust
  obtain ⟨h', hrun, hturned⟩ := hfocus.maybeSplit hmust (htrail.pair hnot)
  rw [← htrail.parentp] at hrun
  have hrise :
      Focus z h' (rise ⟨true, y, s, (pick s.other l r).blacken⟩ fs) (pick s l r).blacken := by
    rw [pick_blacken, pick_blacken, ← focus_root, plug_turn_child, focus_root]
    exact hturned
  refine ⟨h', ?_⟩
  -- in which of its cases `rise` is
  have hcases : (∃ gs, rise ⟨true, y, s, (pick s.other l r).blacken⟩ fs =
        ⟨true, y, s, (pick s.other l r).blacken⟩ :: gs ∧ slotOf gs = slotOf fs) ∨
      ∃ (f g : Frame (Ptr × K)) (gs : _), rise ⟨true, y, s, (pick s.other l r).blacken⟩ fs =
        g :: f :: gs ∧ f.x = y ∧ f.side = s ∧ dirOf compar key g.x = some g.side := by
    match fs with
    | [] => exact .inl ⟨[], rfl, rfl⟩
    | [p] => exact .inl ⟨[p], rfl, rfl⟩
    | p :: g :: gs =>
      rw [rise]
      split
      · split
        · exact .inl ⟨_, rfl, rfl⟩
        · split
          · exact .inr ⟨_, _, _, rfl, rfl, rfl, hfollows g (by simp)⟩
          · exact .inr ⟨_, _, _, rfl, rfl, rfl, hfollows p (by simp)⟩
      · exact .inl ⟨_, rfl, rfl⟩
  rcases hcases with ⟨gs, heq, hgs⟩ | ⟨f, g, gs, heq, hfx, hfs, hg⟩
  · rw [heq] at hrise ⊢
    obtain ⟨w', hloop, htrail'⟩ :=
      tsearchLoop_split_stay hfocus htrail hdir hrun ⟨rfl, rfl⟩ hgs hrise hsettled (fuel + 1)
    exact ⟨w', fuel + 1, Nat.le_succ fuel, hloop, hrise, htrail'⟩
  · rw [heq] at hrise ⊢
    obtain ⟨w', hloop, htrail'⟩ :=
      tsearchLoop_split_top hfocus htrail hdir hrun ⟨hfx, hfs⟩ hrise hg hsettled fuel
    exact ⟨w', fuel, le_refl fuel, hloop, hrise, htrail'⟩

def Outcome (z : Ptr → Nat) (h' : Heap K) (x : Ptr × K) (result : Tree K × Option (Ptr × K)) :
    Ptr ⊕ Walk → Prop
  | .inl a => ∃ y, result.2 = some y ∧ y.1 = a ∧ Focus z h' [] result.1
  | .inr w => result.2 = none ∧ ∃ p gs, result.1 = hang x (p :: gs) ∧ Focus z h' (p :: gs) .nil ∧
      w.nextp = slotOf (p :: gs) ∧ w.rootp = slotOf gs ∧
      KnowsPair (p :: gs) w.parentp w.r w.p_r

/-- The loop goes where `insertDown` goes. -/
theorem tsearchLoop_spec (x : Ptr × K) (t : Tree K) {c : Bool} {n fuel : Nat} (ht : t ≠ .nil)
    (hfocus : Focus z h fs t) (htrail : Trail w fs t) (hfollows : Follows (dirOf compar key) fs)
    (hacc : Accepts fs c n) (hbal : t.Balanced c n) (hpoised : Poised fs t)
    (hfuel : 2 * t.size ≤ fuel) :
    ∃ h' out, tsearchLoop compar key fuel w h = .ok (h', out) ∧
      Outcome z h' x (insertDown (dirOf compar key) x fs t) out := by
  fun_induction insertDown (dirOf compar key) x fs t generalizing h w c n fuel with
  | case1 fs => exact absurd rfl ht
  | case2 fs red y l r hnone =>
    obtain ⟨fuel, rfl⟩ : ∃ k, fuel = k + 1 := ⟨fuel - 1, by simp only [size] at hfuel; omega⟩
    exact ⟨h, .inl y.1, tsearchLoop_found hfocus htrail (dirOf_eq_none.mp hnone) fuel, y, rfl, rfl,
      focus_root.mpr hfocus⟩
  | case3 fs red y l r s hdir hsplit ih =>
    obtain ⟨rfl, m, rfl, hl, hr⟩ := hbal.of_split hsplit
    obtain ⟨hchild, hsettled⟩ := pick_blacken_of_split s hl hr
    have hrise := accepts_rise (f := ⟨true, y, s, (pick s.other l r).blacken⟩) rfl
      (pick_blacken_of_split s.other hl hr).1 hacc.black_of (hpoised.fresh_of_split hsplit)
    have hsize := size_pick_lt s false y l r
    obtain ⟨fuel, rfl⟩ : ∃ k, fuel = k + 2 := ⟨fuel - 2, by simp only [size] at hfuel; omega⟩
    obtain ⟨h', w', fuel', hle, hloop, hfocus', htrail'⟩ :=
      tsearchLoop_split hfocus htrail hfollows hdir hsplit hsettled fuel
    rw [hloop]
    refine ih ?_ hfocus' htrail' (Follows.rise (forall_mem_cons.mpr ⟨hdir, hfollows⟩)) hrise
      hchild (.inr hsettled) ?_
    · intro hnil
      rw [hnil] at hsettled
      exact hsettled
    · rw [size_blacken]
      omega
  | case4 fs red y l r s hdir hnot ih =>
    have hnot' : ((pick s l r).isRed && (pick s.other l r).isRed) = false := by
      cases s <;> simp_all [pick, Side.other, Bool.and_comm]
    have hred := hbal.isRed_eq
    obtain ⟨d, m, hpick, hframe⟩ := hacc.enter hbal s
    have henter := hpoised.enter (hred ▸ hbal) (by simpa using hnot) s
    have hchild : Focus z h (⟨red, y, s, pick s.other l r⟩ :: fs) (pick s l r) := by
      rw [focus_cons, Frame.attach, join_pick]
      exact hfocus
    have hpair := htrail.pair_enter hpoised (dirOf_eq_some hdir).2.2
    have hsize := size_pick_lt s red y l r
    obtain ⟨fuel, rfl⟩ : ∃ k, fuel = k + 2 := ⟨fuel - 2, by simp only [size] at hfuel; omega⟩
    rw [← join_pick s] at hfocus
    rw [tsearchLoop_skip hfocus htrail.rootp htrail.nextp hnot' hdir]
    by_cases hnil : pick s l r = .nil
    · rw [hnil] at hchild ⊢
      rw [insertDown_nil]
      exact ⟨h, _, if_pos rfl, rfl, _, _, rfl, hchild, rfl, htrail.rootp, hpair⟩
    · rw [if_neg (mt (addr_eq_null_iff hchild.tree).mp hnil)]
      refine ih hnil hchild ⟨rfl, rfl, ?_, ?_, fun _ => hpair⟩
        (forall_mem_cons.mpr ⟨hdir, hfollows⟩) hframe hpick henter (by omega)
      · rw [Walk.next, htrail.rootp]
        rfl
      · intro p gs heq
        cases heq
        exact (dirOf_eq_some hdir).2.2

end Loop

/-! ## The new node -/

/-- What the writes to a new node leave of the old contents of its memory. -/
theorem new_node (junk : Node K) (key : K) :
    (({ junk with key := key } : Node K).setRed.setChild .left .NULL).setChild .right .NULL =
      pack true key .NULL .NULL := by
  have hbit : (junk.leftNode ||| 1) &&& 1 = 1 := by
    apply UInt64.toBitVec_inj.mp
    ext i hi
    simp only [UInt64.toBitVec_and, UInt64.toBitVec_or, BitVec.getElem_and, BitVec.getElem_or,
      Bool.and_comm, Bool.and_or_distrib_left]
    cases (UInt64.toBitVec 1)[i] <;> simp
  simp only [Node.setRed, Node.setChild, pack, hbit, flag, if_true]

section New

variable {h : Heap K} {fs : List (Frame (Ptr × K))}

theorem occ_plug (a : Ptr) (fs : List (Frame (Ptr × K))) (t : Tree K) :
    occ a (plug fs t) = occ a t + occFrames a fs := by
  induction fs generalizing t with
  | nil => rfl
  | cons f fs ih =>
    rw [plug, ih, Frame.attach, occ_join, occFrames]
    omega

theorem occ_hang (a : Ptr) (x : Ptr × K) (fs : List (Frame (Ptr × K))) :
    occ a (hang x fs) = here x.1 a + occFrames a fs := by
  have hplain : occ a (plug fs (.node true x .nil .nil)) = here x.1 a + occFrames a fs := by
    rw [occ_plug]
    simp [occ]
  rcases fs with _ | ⟨p, _ | ⟨g, gs⟩⟩
  · exact hplain
  · exact hplain
  · rw [hang]
    split
    · split
      · simp only [occ_plug, occ, occFrames, occ_join]
        omega
      · simp only [occ_plug, occ, occFrames, occ_join]
        omega
    · exact hplain

theorem occ_eq_count (a : Ptr) (t : Tree K) : occ a t = (t.toList.map Prod.fst).count a := by
  induction t with
  | nil => rfl
  | node red x l r ihl ihr =>
    simp only [occ, toList, map_append, map_cons, count_append, count_cons, here, beq_iff_eq]
    omega

theorem InMem.live {t : Tree K} (ht : InMem h t) {a : Ptr} (ha : 0 < occ a t) : h.mem a ≠ none := by
  induction t with
  | nil => exact absurd ha (lt_irrefl 0)
  | node red x l r ihl ihr =>
    by_cases hl : 0 < occ a l
    · exact ihl ht.2.2.1 hl
    · by_cases hr : 0 < occ a r
      · exact ihr ht.2.2.2 hr
      · have hx : x.1 = a := here_pos (by simp only [occ] at ha; omega)
        rw [← hx, ht.1]
        exact Option.some_ne_none _

theorem slotOf_cons_ne (hfocus : Focus z h fs (.nil : Tree K)) {p : Frame (Ptr × K)}
    {gs : List (Frame (Ptr × K))} (heq : fs = p :: gs) : slotOf fs ≠ slotOf gs := by
  subst heq
  cases gs with
  | nil => exact fun h => nomatch h
  | cons g gs =>
    intro hslot
    injection hslot with _ haddr
    have hself := hfocus.once p.x.1
    simp only [occFrames, ← haddr, here_self] at hself
    omega

theorem Focus.link (hfocus : Focus z h fs (.nil : Tree K)) {q : Ptr} (hnull : q ≠ .NULL)
    (hnew : occFrames q fs + z q = 0) (key : K) (junk : Node K) :
    ∃ h₁ h₂ h₃ h₄ h₅, (h.set q junk).setNodePtr q (slotOf fs) = .ok h₁ ∧
      h₁.modify q ({ · with key := key }) = .ok h₂ ∧ h₂.modify q .setRed = .ok h₃ ∧
      h₃.modify q (.setChild .left .NULL) = .ok h₄ ∧
      h₄.modify q (.setChild .right .NULL) = .ok h₅ ∧
      Focus z h₅ fs (.node true (q, key) .nil .nil) := by
  have hpieces : Pieces z (h.set q junk) fs .NULL [(q, junk)] [] := by
    refine ⟨hfocus.frames.set (by omega) _, ?_, fun t ht => (nomatch ht), ?_, ?_⟩
    · intro c hc
      rw [mem_singleton.mp hc]
      exact ⟨mem_set_self, hnull⟩
    · intro a
      have ha := hfocus.once a
      simp only [occPieces, map_cons, map_nil, sum_cons, sum_nil] at ha ⊢
      by_cases hqa : q = a
      · rw [← hqa, here_self]
        omega
      · rw [here, if_neg hqa]
        omega
    · intro a ha
      by_cases hqa : q = a
      · simp only [occPieces, map_cons, sum_cons, hqa, here_self]
        omega
      · rw [mem_set_ne (Ne.symm hqa)] at ha
        have hpos := hfocus.live a ha
        simp only [occ] at hpos
        omega
  obtain ⟨h₁, hrun₁, hp₁⟩ := hpieces.slot q
  obtain ⟨h₂, hrun₂, hp₂⟩ := hp₁.first (f := ({ · with key := key })) rfl
  obtain ⟨h₃, hrun₃, hp₃⟩ := hp₂.first (f := Node.setRed) rfl
  obtain ⟨h₄, hrun₄, hp₄⟩ := hp₃.first (f := Node.setChild .left .NULL) rfl
  obtain ⟨h₅, hrun₅, hp₅⟩ := hp₄.first (f := Node.setChild .right .NULL) rfl
  refine ⟨h₁, h₂, h₃, h₄, h₅, hrun₁, hrun₂, hrun₃, hrun₄, hrun₅, hp₅.close rfl ?_ ?_⟩
  · refine ⟨?_, hnull, trivial, trivial⟩
    rw [hp₅.mem_first.1, new_node]
    rfl
  · intro a
    simp [occPieces, occ]

end New

/-! ## `tsearch` -/

section Spec

variable {h : Heap K} {t : Tree K} {key : K} {q : Ptr} {junk : Node K}

variable (key junk) in
/-- The new node is linked where the loop ended. -/
theorem linkNew_spec {fs : List (Frame (Ptr × K))}
    (hfocus : Focus z h fs (.nil : Tree K)) {w : Walk}
    (hnull : q ≠ .NULL) (hnew : occFrames q fs + z q = 0) (hnextp : w.nextp = slotOf fs)
    (hrootp : w.rootp = slotOf fs.tail) (hpair : KnowsPair fs w.parentp w.r w.p_r) :
    ∃ h', linkNew key q junk w h = .ok h' ∧ Focus z h' [] (hang (q, key) fs) := by
  obtain ⟨h₁, h₂, h₃, h₄, h₅, hrun₁, hrun₂, hrun₃, hrun₄, hrun₅, hlinked⟩ :=
    hfocus.link hnull hnew key junk
  simp only [linkNew, hnextp, hrootp, hrun₁, hrun₂, hrun₃, hrun₄, hrun₅, ok_bind]
  cases fs with
  | nil => exact ⟨h₅, rfl, hlinked⟩
  | cons p gs =>
    obtain ⟨h₆, hrun₆, hturned⟩ := hlinked.maybeSplit (mustSplit_mode ..) hpair
    refine ⟨h₆, ?_, ?_⟩
    · rw [tail_cons, if_pos (slotOf_cons_ne hfocus rfl)]
      exact hrun₆
    · rw [← plug_turn_leaf, focus_root]
      exact hturned

def Walk.start : Walk := ⟨.root, .root, none, none, 0, 0, 0⟩

variable {c : Bool} {n fuel : Nat}

theorem tsearchLoop_root (x : Ptr × K) (hfocus : Focus z h [] t.blacken) (hbal : t.Balanced c n)
    (ht : t ≠ .nil) (hfuel : 2 * t.size ≤ fuel) :
    ∃ h' out, tsearchLoop compar key fuel .start h = .ok (h', out) ∧
      Outcome z h' x (insertDown (dirOf compar key) x [] t.blacken) out := by
  obtain ⟨N, hN⟩ := hbal.blacken
  refine tsearchLoop_spec x t.blacken ?_ hfocus ⟨rfl, rfl, rfl, ?_, ?_⟩ ?_ (.nil false N) hN
    (.inl (fresh_root (isRed_blacken t))) (by rwa [size_blacken])
  · cases t with
    | nil => exact absurd rfl ht
    | node red y l r => exact fun heq => nomatch heq
  · exact fun p gs heq => nomatch heq
  · exact fun _ p gs heq => nomatch heq
  · exact fun f hf => nomatch hf

/-- `tsearch` leaves the heap of `insertDown`, and returns the node with an equal key or the new
one. -/
theorem tsearch_spec (hfocus : Holds h t) (hbal : t.Balanced c n) (hnull : q ≠ .NULL)
    (hnew : h.mem q = none) (hfuel : 2 * t.size < fuel) :
    ∃ h', tsearch compar fuel key q junk (some .root) h =
        .ok (h', (insertDown (dirOf compar key) (q, key) [] t.blacken).2.elim q Prod.fst) ∧
      Holds h' (insertDown (dirOf compar key) (q, key) [] t.blacken).1 := by
  have hqt : occ q t = 0 := by
    by_contra hpos
    exact hfocus.tree.live (pos_of_ne_zero hpos) hnew
  obtain ⟨h₁, hrun₁, hblack⟩ := hfocus.blackenAt
  rw [tsearch, Heap.deref, hfocus.frames]
  simp only [pure_ok, ok_bind, hrun₁]
  by_cases ht : t = .nil
  · -- the first node
    subst ht
    obtain ⟨fuel, rfl⟩ : ∃ k, fuel = k + 1 := ⟨fuel - 1, by omega⟩
    have hloop : tsearchLoop compar key (fuel + 1) .start h₁ = .ok (h₁, .inr .start) := by
      have hnil : h₁.root = .NULL := hblack.frames
      simp only [tsearchLoop, Walk.start, Heap.deref, hnil, pure_ok, ok_bind, if_true]
    obtain ⟨h', hrun, hhang⟩ := linkNew_spec key junk (w := .start) hblack hnull rfl rfl rfl
      (fun p gs heq => absurd heq (by simp))
    refine ⟨h', ?_, ?_⟩
    · rw [Walk.start] at hloop hrun
      simp only [hloop, ok_bind, hnull, if_false, hrun, blacken, insertDown_nil, Option.elim]
    · rw [blacken, insertDown_nil]
      exact hhang
  · obtain ⟨h₂, out, hloop, hout⟩ := tsearchLoop_root (q, key) hblack hbal ht (le_of_lt hfuel)
    rw [Walk.start] at hloop
    rw [hloop]
    cases out with
    | inl a =>
      obtain ⟨y, hsome, rfl, hfocus'⟩ := hout
      exact ⟨h₂, by simp only [ok_bind, hsome, Option.elim], hfocus'⟩
    | inr w =>
      obtain ⟨hnone, p, gs, hresult, hhole, hnextp, hrootp, hpair⟩ := hout
      have hfree : occFrames q (p :: gs) = 0 := by
        -- the nodes on the way are those of the old tree
        obtain ⟨hs, hsame, -, hlist⟩ := insertDown_none hnone (by intro; simp)
        have hcount := congrArg (occ q) (hresult.symm.trans hsame)
        rw [occ_hang, occ_hang] at hcount
        have hold : occFrames q hs = 0 := by
          have hplug : (plug hs (.nil : Tree K)).toList = t.blacken.toList := by
            rw [toList_plug, toList, append_nil, hlist]
            rfl
          have hocc := occ_plug q hs (.nil : Tree K)
          rw [occ_eq_count, hplug, ← occ_eq_count, occ_blacken] at hocc
          omega
        omega
      obtain ⟨h', hrun, hhang⟩ := linkNew_spec key junk hhole hnull hfree hnextp hrootp hpair
      refine ⟨h', ?_, ?_⟩
      · simp only [ok_bind, hnull, if_false, hrun, hnone, Option.elim]
      · rw [hresult]
        exact hhang

end Spec

end SafeLibc.Misc
