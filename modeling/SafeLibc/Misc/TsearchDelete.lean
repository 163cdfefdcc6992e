import SafeLibc.Misc.TsearchInsert

/-!
# `tdelete` repairs on the way up

`nodestack` holds the places of the ancestors, so that the loop of `tdelete` walks the frames of
`rebalance`, and the heap it leaves is that of `remove` (`tdelete_spec`).

The array grows when the search for the node finds it full. The loop that balances stores one more
place, without looking, when it rotates a red brother up. `Roomy` is the condition under which there
is room for it.
-/

namespace SafeLibc.Misc

open SafeLibc.Lib RBTree List

variable {K : Type} {z : Ptr → Nat} {compar : K → K → Int}

/-! ## The stack of places -/

def ancestors : List (Frame (Ptr × K)) → List Slot
  | [] => []
  | _ :: fs => slotOf fs :: ancestors fs

/-- The size of the array after `n` checked pushes. -/
def capacity (n : Nat) : Nat := 40 + 20 * ((n - 21) / 20)

def stackOf (fs : List (Frame (Ptr × K))) : NodeStack := ⟨capacity fs.length, ancestors fs⟩

@[simp] theorem length_ancestors (fs : List (Frame (Ptr × K))) :
    (ancestors fs).length = fs.length := by
  induction fs with
  | nil => rfl
  | cons f fs ih => rw [ancestors, length_cons, ih, length_cons]

theorem stackOf_nil : stackOf ([] : List (Frame (Ptr × K))) = ⟨40, []⟩ := by
  simp [stackOf, capacity, ancestors]

theorem le_capacity (n : Nat) : n ≤ capacity n := by
  unfold capacity
  omega

theorem grow_store (f : Frame (Ptr × K)) (fs : List (Frame (Ptr × K))) :
    (stackOf fs).grow.store (slotOf fs) = .ok (stackOf (f :: fs)) := by
  unfold NodeStack.grow stackOf
  simp only [length_ancestors, length_cons]
  split
  · next hfull =>
    have hcap : capacity (fs.length + 1) = capacity fs.length + 20 := by
      unfold capacity at hfull ⊢
      omega
    rw [NodeStack.store, if_pos (by simp only [length_ancestors]; omega), hcap]
    rfl
  · next hroom =>
    have hle := le_capacity fs.length
    have hcap : capacity (fs.length + 1) = capacity fs.length := by
      unfold capacity at hroom hle ⊢
      omega
    rw [NodeStack.store, if_pos (by simp only [length_ancestors]; omega), hcap]
    rfl

/-! ## The search -/

section Seek

variable {h : Heap K} {fs : List (Frame (Ptr × K))}

variable {key : K} {fuel : Nat} {red : Bool} {l r t : Tree K} {s s' : Side} {f : Frame (Ptr × K)}
  {v : Ptr}

theorem seek_step {y : Ptr × K} (hfocus : Focus z h fs (.node red y l r))
    (hdir : dirOf compar key y = some s) (p : Ptr) (fuel : Nat) :
    seek compar key h (fuel + 1) (slotOf fs) y.1 p (stackOf fs) =
      if addr (pick s l r) = .NULL then .ok none
      else seek compar key h fuel (.child s y.1) (addr (pick s l r)) y.1
        (stackOf (⟨red, y, s, pick s.other l r⟩ :: fs)) := by
  obtain ⟨hne, hside, -⟩ := dirOf_eq_some hdir
  have hnode := node_ok hfocus.tree.1
  have hchild : (pack red y.2 (addr l) (addr r)).child s = addr (pick s l r) := by
    cases s
    · exact left_pack ..
    · exact right_pack ..
  have hderef : h.deref (slotOf fs) = .ok y.1 := deref_slotOf hfocus.frames
  rw [seek, hnode]
  simp only [key_pack, hne, if_false, hside, grow_store ⟨red, y, s, pick s.other l r⟩ fs, ok_bind,
    hderef, hnode, hchild, pure_ok]

theorem seek_spec {u : Tree K} {gs : List (Frame (Ptr × K))} (hfocus : Focus z h fs t)
    (ht : t ≠ .nil) (hloc : locate (dirOf compar key) fs t = (gs, u)) (p : Ptr)
    (hfuel : t.size ≤ fuel) :
    (u = .nil → seek compar key h fuel (slotOf fs) (addr t) p (stackOf fs) = .ok none) ∧
    (u ≠ .nil → ∃ p', seek compar key h fuel (slotOf fs) (addr t) p (stackOf fs) =
      .ok (some (slotOf gs, p', stackOf gs))) := by
  induction t generalizing fs p fuel with
  | nil => exact absurd rfl ht
  | node red y l r ihl ihr =>
    simp only [size] at hfuel
    obtain _ | fuel := fuel
    · omega
    cases hdir : dirOf compar key y with
    | none =>
      simp only [locate, hdir] at hloc
      obtain ⟨rfl, rfl⟩ := hloc
      refine ⟨by simp, fun _ => ⟨p, ?_⟩⟩
      rw [seek, addr, node_ok hfocus.tree.1]
      simp only [ok_bind, key_pack, dirOf_eq_none.mp hdir, if_true, pure_ok]
    | some s =>
      rw [addr, seek_step hfocus hdir]
      have hchild : Focus z h (⟨red, y, s, pick s.other l r⟩ :: fs) (pick s l r) := by
        rw [focus_cons, Frame.attach, join_pick]
        exact hfocus
      have hloc' : locate (dirOf compar key) (⟨red, y, s, pick s.other l r⟩ :: fs) (pick s l r) =
          (gs, u) := by
        rw [← hloc, locate, hdir]
        cases s <;> rfl
      by_cases hnil : pick s l r = .nil
      · rw [hnil, Prod.mk.injEq] at hloc'
        rw [hnil]
        exact ⟨fun _ => rfl, fun hne => absurd hloc'.2.symm hne⟩
      · rw [if_neg (mt (addr_eq_null_iff hchild.tree).mp hnil)]
        cases s with
        | left => exact ihl hchild hnil hloc' y.1 (by omega)
        | right => exact ihr hchild hnil hloc' y.1 (by omega)

theorem tfindLoop_spec (hfocus : Focus z h fs t) (hfuel : t.size < fuel) :
    tfindLoop compar key h fuel (slotOf fs) = .ok (addr (locate (dirOf compar key) fs t).2) := by
  induction t generalizing fs fuel with
  | nil =>
    obtain _ | fuel := fuel
    · omega
    rw [tfindLoop, deref_slotOf hfocus.frames, ok_bind]
    rfl
  | node red y l r ihl ihr =>
    simp only [size] at hfuel
    obtain _ | fuel := fuel
    · omega
    have hderef : h.deref (slotOf fs) = .ok y.1 := deref_slotOf hfocus.frames
    rw [tfindLoop, hderef, ok_bind, if_neg hfocus.tree.2.1,
      node_ok hfocus.tree.1, ok_bind, key_pack]
    cases hdir : dirOf compar key y with
    | none =>
      simp only [dirOf_eq_none.mp hdir, locate, hdir]
      rfl
    | some s =>
      obtain ⟨hne, hside, -⟩ := dirOf_eq_some hdir
      simp only [hne, hside, locate, hdir]
      cases s with
      | left =>
        have hleft : Focus z h (⟨red, y, .left, r⟩ :: fs) l := focus_cons.mpr hfocus
        exact ihl hleft (by omega)
      | right =>
        have hright : Focus z h (⟨red, y, .right, l⟩ :: fs) r := focus_cons.mpr hfocus
        exact ihr hright (by omega)

theorem seekNext_spec {x : Ptr × K}
    (hfocus : Focus z h (f :: fs) (.node red x l r)) (hfuel : l.size < fuel) :
    seekNext h fuel (slotOf fs) (slotOf (f :: fs)) (stackOf fs) =
      .ok (slotOf (leftmost (f :: fs) red x r l).1, stackOf (leftmost (f :: fs) red x r l).1) := by
  induction l generalizing f fs red x r fuel with
  | nil =>
    obtain _ | fuel := fuel
    · omega
    rw [seekNext, grow_store f fs]
    simp only [ok_bind, deref_slotOf hfocus.frames, addr, node_ok hfocus.tree.1, left_pack, if_true,
      pure_ok, leftmost]
  | node red' x' l' r' ihl _ =>
    simp only [size] at hfuel
    obtain _ | fuel := fuel
    · omega
    have hchild : Focus z h (⟨red, x, .left, r⟩ :: f :: fs) (.node red' x' l' r') :=
      focus_cons.mpr hfocus
    rw [seekNext, grow_store f fs]
    simp only [ok_bind, deref_slotOf hfocus.frames, addr, node_ok hfocus.tree.1, left_pack,
      hchild.tree.2.1]
    exact ihl hchild (by omega)

end Seek

/-! ## Rotations on the way up -/

section Rotate

variable {h : Heap K} {fs : List (Frame (Ptr × K))}

variable {red qred : Bool} {s : Side} {x y w : Ptr × K} {t near far a b : Tree K}
  {f : Frame (Ptr × K)}

/-- The parent taken out, with the brother and the focus below it. -/
theorem Focus.takeParent {sib : Tree K} (hfocus : Focus z h (⟨red, x, s, sib⟩ :: fs) t) :
    Pieces z h fs x.1 [(x.1, packAt s red x.2 (addr t) (addr sib))] [sib, t] := by
  have hopen := (focus_cons.mp hfocus).pieces.takeRoot
  rw [Frame.attach, addr_join] at hopen
  exact hopen.perm (.refl _) (.swap _ _ _)

/-- A red brother becomes the parent's parent. -/
theorem Focus.raiseBrother (hfocus : Focus z h (⟨red, x, s, join s qred y near far⟩ :: fs) t) :
    ∃ h', raiseBrother h s (slotOf fs) x.1 y.1 = .ok h' ∧
      Focus z h' (⟨true, x, s, near⟩ :: ⟨false, y, s, far⟩ :: fs) t := by
  rcases x with ⟨P, pk⟩
  rcases y with ⟨Q, qk⟩
  have hpieces : Pieces z h fs P [(Q, packAt s qred qk (addr near) (addr far)),
      (P, packAt s red pk (addr t) Q)] [near, far, t] := by
    simpa only [addr_join] using hfocus.takeParent.takeRoot
  obtain ⟨h₁, hrun₁, hp₁⟩ := hpieces.first (setBlack_packAt s qred qk (addr near) (addr far))
  obtain ⟨h₂, hrun₂, hp₂⟩ := hp₁.second (setRed_packAt s red pk (addr t) Q)
  obtain ⟨h₃, hrun₃, hp₃⟩ := hp₂.second (setFar_packAt s true pk (addr t) Q (addr near))
  obtain ⟨h₄, hrun₄, hp₄⟩ := hp₃.first (setNear_packAt s false qk (addr near) (addr far) P)
  obtain ⟨h₅, hrun₅, hp₅⟩ := hp₄.slot Q
  have hread : h₂.node Q = .ok (packAt s false qk (addr near) (addr far)) := node_ok hp₂.mem_first.1
  refine ⟨h₅, ?_, ?_⟩
  · rw [Misc.raiseBrother, hrun₁, ok_bind, hrun₂, ok_bind, hread, ok_bind, near_packAt, hrun₃,
      ok_bind, hrun₄, ok_bind, hrun₅]
  · rw [focus_cons, focus_cons]
    refine hp₅.close (addr_join ..) ?_ ?_
    · simp [Frame.attach, inMem_join, hp₅.mem_first, hp₅.mem_second, hp₅.tree]
    · intro a
      simp [occPieces, Frame.attach]
      omega

theorem copyColour_spec {P a v : Ptr} {red' : Bool} {s' : Side} {pk k : K}
    {near far near' far' : Ptr} {cells : List (Ptr × Node K)} {trees : List (Tree K)}
    (hp : Pieces z h fs v
      ((a, packAt s' red' k near' far') :: (P, packAt s red pk near far) :: cells)
      trees) : ∃ h', copyColour h P a = .ok h' ∧
      Pieces z h' fs v ((a, packAt s' red k near' far') :: (P, packAt s red pk near far) :: cells)
        trees := by
  have hcolour : (if red then Node.setRed else Node.setBlack) (packAt s' red' k near' far') =
      packAt s' red k near' far' := by
    cases red
    · exact setBlack_packAt ..
    · exact setRed_packAt ..
  obtain ⟨h', hrun, hp'⟩ := hp.first hcolour
  refine ⟨h', ?_, hp'⟩
  rw [copyColour, node_ok hp.mem_second.1, ok_bind, red_packAt, hrun]

/-- A red nephew on the near side becomes the top. -/
theorem Focus.raiseNear {zred : Bool}
    (hfocus : Focus z h (⟨red, x, s, join s qred y (join s zred w a b) far⟩ :: fs) t) :
    ∃ h', raiseNear h s (slotOf fs) x.1 y.1 = .ok h' ∧
      Focus z h' fs (join s red w (join s false x t a) (join s qred y b far)) := by
  rcases x with ⟨P, pk⟩
  rcases y with ⟨Q, qk⟩
  rcases w with ⟨W, wk⟩
  have hpieces : Pieces z h fs P [(W, packAt s zred wk (addr a) (addr b)),
      (P, packAt s red pk (addr t) Q), (Q, packAt s qred qk W (addr far))] [a, b, far, t] := by
    have hopen := hfocus.takeParent.takeRoot.takeRoot
    simp only [addr_join] at hopen
    exact hopen.perm ((List.Perm.swap _ _ _).cons _) (.refl _)
  have hread : h.node Q = .ok (packAt s qred qk W (addr far)) := node_ok hpieces.mem_third.1
  obtain ⟨h₁, hrun₁, hp₁⟩ := copyColour_spec hpieces
  have hread₁ : h₁.node W = .ok (packAt s red wk (addr a) (addr b)) := node_ok hp₁.mem_first.1
  obtain ⟨h₂, hrun₂, hp₂⟩ := hp₁.second (setFar_packAt s red pk (addr t) Q (addr a))
  obtain ⟨h₃, hrun₃, hp₃⟩ := hp₂.third (setNear_packAt s qred qk W (addr far) (addr b))
  obtain ⟨h₄, hrun₄, hp₄⟩ := hp₃.first (setFar_packAt s red wk (addr a) (addr b) Q)
  obtain ⟨h₅, hrun₅, hp₅⟩ := hp₄.first (setNear_packAt s red wk (addr a) Q P)
  obtain ⟨h₆, hrun₆, hp₆⟩ := hp₅.slot W
  obtain ⟨h₇, hrun₇, hp₇⟩ := hp₆.second (setBlack_packAt s red pk (addr t) (addr a))
  refine ⟨h₇, ?_, hp₇.close (addr_join ..) ?_ ?_⟩
  · simp only [Misc.raiseNear, hread, ok_bind, near_packAt, hrun₁, hread₁, far_packAt, hrun₂, hrun₃,
      hrun₄, hrun₅, hrun₆, hrun₇]
  · simp [inMem_join, hp₇.mem_first, hp₇.mem_second, hp₇.mem_third, hp₇.tree]
  · intro a
    simp [occPieces]
    omega

/-- The brother becomes the top, over a red nephew on the far side. -/
theorem Focus.raiseFar {wred : Bool}
    (hfocus : Focus z h (⟨red, x, s, join s qred y near (join s wred w a b)⟩ :: fs) t) :
    ∃ h', raiseFar h s (slotOf fs) x.1 y.1 = .ok h' ∧
      Focus z h' fs (join s red y (join s false x t near) (join s false w a b)) := by
  rcases x with ⟨P, pk⟩
  rcases y with ⟨Q, qk⟩
  rcases w with ⟨W, wk⟩
  have hpieces : Pieces z h fs P [(Q, packAt s qred qk (addr near) W),
      (P, packAt s red pk (addr t) Q), (W, packAt s wred wk (addr a) (addr b))] [a, b, near,
        t] := by
    have hopen := (hfocus.takeParent.takeRoot.perm (.refl _) (.swap _ _ _)).takeRoot
    simp only [addr_join] at hopen
    exact hopen.perm (@perm_append_comm _ [_, _] [_]) (.refl _)
  obtain ⟨h₁, hrun₁, hp₁⟩ := copyColour_spec hpieces
  obtain ⟨h₂, hrun₂, hp₂⟩ := hp₁.second (setBlack_packAt s red pk (addr t) Q)
  have hread₂ : h₂.node Q = .ok (packAt s red qk (addr near) W) := node_ok hp₂.mem_first.1
  obtain ⟨h₃, hrun₃, hp₃⟩ := hp₂.third (setBlack_packAt s wred wk (addr a) (addr b))
  have hread₃ : h₃.node Q = .ok (packAt s red qk (addr near) W) := node_ok hp₃.mem_first.1
  obtain ⟨h₄, hrun₄, hp₄⟩ := hp₃.second (setFar_packAt s false pk (addr t) Q (addr near))
  obtain ⟨h₅, hrun₅, hp₅⟩ := hp₄.first (setNear_packAt s red qk (addr near) W P)
  obtain ⟨h₆, hrun₆, hp₆⟩ := hp₅.slot Q
  refine ⟨h₆, ?_, hp₆.close (addr_join ..) ?_ ?_⟩
  · rw [Misc.raiseFar, hrun₁, ok_bind, hrun₂, ok_bind, hread₂, ok_bind, far_packAt, hrun₃, ok_bind,
      hread₃, ok_bind, near_packAt, hrun₄, ok_bind, hrun₅, ok_bind, hrun₆]
  · simp [inMem_join, hp₆.mem_first, hp₆.mem_second, hp₆.mem_third, hp₆.tree]
  · intro a
    simp [occPieces]
    omega

/-- The brother lends a black node, or turns red. -/
theorem Focus.balanceBrother {t : Tree K} (hfocus : Focus z h (f :: fs) t) (hsib : f.sib ≠ .nil) :
    ∃ h', balanceBrother h f.side (slotOf fs) f.x.1 (addr f.sib) = .ok (h', (lend f t).2) ∧
      Focus z h' fs (lend f t).1 := by
  rcases f with ⟨red, x, s, sib⟩
  cases sib with
  | nil => exact absurd rfl hsib
  | node qred y l r =>
    dsimp only at *
    have hmem := hfocus.frames.2.2.1
    rw [← join_pick s] at hmem
    obtain ⟨hq, -, hnear, hfar⟩ := inMem_join.mp hmem
    rw [Misc.balanceBrother, addr, node_ok hq]
    simp only [ok_bind, near_packAt, far_packAt, hnear.redAt, hfar.redAt, pure_ok, lend]
    rw [← join_pick s qred y l r] at hfocus
    cases hfred : (pick s.other l r).isRed with
    | true =>
      -- a red nephew on the far side
      obtain ⟨w, a, b, hw⟩ := eq_node_of_isRed hfred
      rw [hw, ← join_pick s] at hfocus
      obtain ⟨h', hrun, hfocus'⟩ := hfocus.raiseFar
      rw [join_pick] at hfocus'
      refine ⟨h', ?_, ?_⟩
      · cases (pick s l r).isRed <;> simp [hrun]
      · simpa [hw, blacken] using hfocus'
    | false =>
      cases hnred : (pick s l r).isRed with
      | false =>
        -- the brother turns red
        rw [join_pick] at hfocus
        obtain ⟨h', hrun, hfocus'⟩ := (focus_sib.mp hfocus).setRed
        refine ⟨h', ?_, ?_⟩
        · simp [hrun]
        · simp only [Bool.not_false, Bool.and_self, if_true]
          exact focus_cons.mp (focus_sib.mpr hfocus')
      | true =>
        -- a red nephew on the near side only
        obtain ⟨w, a, b, hw⟩ := eq_node_of_isRed hnred
        rw [hw, ← join_pick s true w a b] at hfocus
        obtain ⟨h', hrun, hfocus'⟩ := hfocus.raiseNear
        refine ⟨h', ?_, ?_⟩
        · simp [hrun, hw]
        · simpa [hw] using hfocus'

end Rotate

/-! ## The loop -/

/-- There is room for one more place, or the brother at the first step is not red and none is
stored. -/
def Roomy (cap : Nat) : List (Frame (Ptr × K)) → Prop
  | [] => True
  | f :: fs => fs.length + 1 ≤ cap ∧ (f.sib.isRed = true → fs.length + 1 < cap)

section Loop

variable {h : Heap K} {fs : List (Frame (Ptr × K))}

variable {t : Tree K} {f : Frame (Ptr × K)} {cap n : Nat} {c : Bool}

theorem Roomy.tail (h : Roomy cap (f :: fs)) : Roomy cap fs := by
  cases fs with
  | nil => trivial
  | cons g fs =>
    have hle := h.1
    simp only [length_cons] at hle
    exact ⟨by omega, fun _ => by omega⟩

def Balances (z : Ptr → Nat) (h : Heap K) (fuel : Nat) (stack : NodeStack) (r : Ptr) (t : Tree K) :
    Prop :=
  ∃ h₁ r' h₂, balanceLoop fuel stack r h = .ok (h₁, r') ∧ h₁.blackenAt r' = .ok h₂ ∧ Focus z h₂ [] t

/-- The loop stops at a red node, which is then made black. -/
theorem balanceLoop_red (hfocus : Focus z h fs t) (hred : t.isRed = true) (cap fuel : Nat) :
    Balances z h (fuel + 1) ⟨cap, ancestors fs⟩ (addr t) (rebalance fs t) := by
  obtain ⟨h', hrun, hfocus'⟩ := hfocus.blackenAt
  refine ⟨h, addr t, h', ?_, hrun, ?_⟩
  · cases fs with
    | nil => rfl
    | cons f fs =>
      simp only [balanceLoop, ancestors, hfocus.tree.redAt, hred, ok_bind, if_true, pure_ok]
  · rw [rebalance_of_red hred, focus_root]
    exact hfocus'

/-- The side of the parent on which the loop finds itself. -/
theorem side_of_child (hfocus : Focus z h (f :: fs) t) (hsib : f.sib ≠ .nil) :
    (if addr t = (packAt f.side f.red f.x.2 (addr t) (addr f.sib)).child .left then Side.left
      else .right) = f.side := by
  rcases f with ⟨red, x, side, sib⟩
  cases side with
  | left => simp [packAt]
  | right =>
    rw [if_neg]
    simp only [packAt, left_pack]
    intro heq
    cases sib with
    | nil => exact hsib rfl
    | node sred y l r =>
      have honce := hfocus.once y.1
      have hmem := hfocus.frames.2.2.1
      cases t with
      | nil => exact hmem.2.1 heq.symm
      | node tred w a b =>
        rw [addr, addr] at heq
        simp only [occ, occFrames, heq, here_self] at honce
        omega

/-- A brother that only turned red leaves the parent in its place. -/
theorem lend_not_done (hsib : f.sib ≠ .nil) (hdone : (lend f t).2 = false) :
    (lend f t).1.isRed = f.red ∧ addr (lend f t).1 = f.x.1 := by
  rcases f with ⟨red, x, s, sib⟩
  cases sib with
  | nil => exact absurd rfl hsib
  | node qred y l r =>
    simp only [lend] at hdone ⊢
    split
    · exact ⟨isRed_join .., addr_join ..⟩
    · next hnot =>
      rw [if_neg hnot] at hdone
      split at hdone
      · split at hdone <;> cases hdone
      · cases hdone

theorem Accepts.sib_ne_nil (hacc : Accepts (f :: fs) c (n + 1)) : f.sib ≠ .nil := by
  intro hnil
  cases hacc with
  | red hsib _ | black hsib _ =>
    subst hnil
    cases hsib

/-- What the loop reads of the brother. -/
theorem node_brother (hfocus : Focus z h (f :: fs) t) (hsib : f.sib ≠ .nil) :
    ∃ n, h.node (addr f.sib) = .ok n ∧ n.red = f.sib.isRed := by
  have hmem := hfocus.frames.2.2.1
  cases hf : f.sib with
  | nil => exact absurd hf hsib
  | node qred y l r =>
    rw [hf] at hmem
    exact ⟨_, node_ok hmem.1, red_pack ..⟩

/-- One round of the loop, at a brother that is black. -/
theorem balanceLoop_black (hfocus : Focus z h (f :: fs) t) (hsib : f.sib ≠ .nil)
    (hred : t.isRed = false) (hbrother : f.sib.isRed = false) (cap fuel : Nat) :
    ∃ h', Focus z h' fs (lend f t).1 ∧
      balanceLoop (fuel + 1) ⟨cap, ancestors (f :: fs)⟩ (addr t) h =
        if (lend f t).2 then .ok (h', .NULL)
        else balanceLoop fuel ⟨cap, ancestors fs⟩ (addr (lend f t).1) h' := by
  obtain ⟨h', hrun, hfocus'⟩ := hfocus.balanceBrother hsib
  have hp : h.node f.x.1 = .ok (packAt f.side f.red f.x.2 (addr t) (addr f.sib)) :=
    node_ok hfocus.frames.1
  obtain ⟨n, hn, hnred⟩ := node_brother hfocus hsib
  rw [hbrother] at hnred
  refine ⟨h', hfocus', ?_⟩
  simp only [balanceLoop, ancestors, hfocus.tree.redAt, hred, ok_bind, Bool.false_eq_true, if_false,
    deref_slotOf hfocus.frames.2.2.2, hp, side_of_child hfocus hsib, far_packAt, hn, hnred, hrun,
    pure_ok]
  cases hdone : (lend f t).2 with
  | true => rfl
  | false => rw [(lend_not_done hsib hdone).2]

section Brother

variable {red : Bool} {x y : Ptr × K} {s : Side} {l r : Tree K}
  (hfocus : Focus z h (⟨red, x, s, .node true y l r⟩ :: fs) t) (hred : t.isRed = false)

include hfocus hred

/-- One round of the loop, at a brother that is red: it is rotated up, and its place is stored. -/
theorem balanceLoop_raise (cap fuel : Nat) :
    ∃ h₁, Focus z h₁ (⟨true, x, s, pick s l r⟩ :: ⟨false, y, s, pick s.other l r⟩ :: fs) t ∧
      balanceLoop (fuel + 1) ⟨cap, slotOf fs :: ancestors fs⟩ (addr t) h =
        NodeStack.store ⟨cap, slotOf fs :: ancestors fs⟩ (.child s y.1) >>= fun stack =>
          balanceBrother h₁ s (.child s y.1) x.1 (addr (pick s l r)) >>= fun lent =>
            if lent.2 then .ok (lent.1, .NULL)
            else balanceLoop fuel { stack with slots := slotOf fs :: ancestors fs } x.1 lent.1 := by
  have hp : h.node x.1 = .ok (packAt s red x.2 (addr t) y.1) := node_ok hfocus.frames.1
  have hside : (if addr t = (packAt s red x.2 (addr t) y.1).child .left then Side.left
      else .right) = s := side_of_child hfocus (fun heq => nomatch heq)
  obtain ⟨n, hn, hnred⟩ : ∃ n, h.node y.1 = .ok n ∧ n.red = true :=
    node_brother hfocus (fun heq => nomatch heq)
  have hjoin := hfocus
  rw [← join_pick s true y l r] at hjoin
  obtain ⟨h₁, hrun₁, hraised⟩ := hjoin.raiseBrother
  have hp₁ : h₁.node x.1 = .ok (packAt s true x.2 (addr t) (addr (pick s l r))) :=
    node_ok hraised.frames.1
  refine ⟨h₁, hraised, ?_⟩
  simp only [balanceLoop, hfocus.tree.redAt, hred, ok_bind, Bool.false_eq_true,
    deref_slotOf hfocus.frames.2.2.2, hp, hside, far_packAt, hn, hnred, hrun₁, hp₁]
  rfl

theorem balanceLoop_brother (hnear : pick s l r ≠ .nil) (hroom : fs.length + 1 < cap) (fuel : Nat) :
    ∃ h', Focus z h' (⟨false, y, s, pick s.other l r⟩ :: fs) (lend ⟨true, x, s, pick s l r⟩ t).1 ∧
      balanceLoop (fuel + 1) ⟨cap, slotOf fs :: ancestors fs⟩ (addr t) h =
        if (lend ⟨true, x, s, pick s l r⟩ t).2 then .ok (h', .NULL)
        else balanceLoop fuel ⟨cap, slotOf fs :: ancestors fs⟩
          (addr (lend ⟨true, x, s, pick s l r⟩ t).1) h' := by
  obtain ⟨h₁, hraised, hloop⟩ := balanceLoop_raise hfocus hred cap fuel
  obtain ⟨h', hrun, hfocus'⟩ := hraised.balanceBrother hnear
  dsimp only [slotOf] at hrun
  have hstore : (NodeStack.mk cap (slotOf fs :: ancestors fs)).store (.child s y.1) =
      .ok ⟨cap, .child s y.1 :: slotOf fs :: ancestors fs⟩ := by
    rw [NodeStack.store, if_pos (by simpa using hroom)]
    rfl
  refine ⟨h', hfocus', ?_⟩
  simp only [hloop, hstore, ok_bind, hrun]
  cases hdone : (lend (⟨true, x, s, pick s l r⟩ : Frame (Ptr × K)) t).2 with
  | true => rfl
  | false => rw [(lend_not_done (f := ⟨true, x, s, pick s l r⟩) hnear hdone).2]

end Brother

/-- The loop leaves the tree that `rebalance` builds. -/
theorem balanceLoop_spec {fuel : Nat} (hfocus : Focus z h fs t) (hacc : Accepts fs false (n + 1))
    (hbal : t.Balanced c n) (hroomy : t.isRed = false → Roomy cap fs)
    (hfuel : fs.length + 1 < fuel) :
    Balances z h fuel ⟨cap, ancestors fs⟩ (addr t) (rebalance fs t) := by
  induction fs generalizing h t c n fuel with
  | nil =>
    obtain _ | fuel := fuel
    · omega
    obtain ⟨h', hrun, hfocus'⟩ := hfocus.blackenAt
    exact ⟨h, addr t, h', rfl, hrun, hfocus'⟩
  | cons f fs ih =>
    obtain ⟨fuel, rfl⟩ : ∃ k, fuel = k + 2 := ⟨fuel - 2, by omega⟩
    simp only [length_cons] at hfuel
    cases c with
    | true => exact balanceLoop_red hfocus hbal.isRed_eq cap (fuel + 1)
    | false =>
      have hsib := Accepts.sib_ne_nil hacc
      have ht := hbal.isRed_eq
      cases hbrother : f.sib.isRed with
      | false =>
        obtain ⟨h', hfocus', hloop⟩ := balanceLoop_black hfocus hsib ht hbrother cap (fuel + 1)
        rw [Balances, hloop, rebalance_black ht hbrother]
        cases hdone : (lend f t).2 with
        | true => exact ⟨h', .NULL, h', rfl, rfl, focus_root.mpr hfocus'⟩
        | false =>
          cases hlent : (lend f t).1.isRed with
          | true => exact balanceLoop_red hfocus' hlent cap fuel
          | false =>
            -- the parent was black, and the whole subtree has lost a black node
            rw [(lend_not_done hsib hdone).1] at hlent
            obtain ⟨hlost, habove⟩ := hacc.lost hbal hlent hbrother hdone
            exact ih hfocus' habove hlost (fun _ => (hroomy ht).tail) (by omega)
      | true =>
        obtain ⟨y, l, r, hy⟩ := eq_node_of_isRed hbrother
        rcases f with ⟨red, x, s, sib⟩
        subst hy
        have hnear : pick s l r ≠ .nil := by
          intro hnil
          have hheight := hacc.nephews.1
          rw [hnil] at hheight
          cases hheight
        obtain ⟨h', hfocus', hloop⟩ :=
          balanceLoop_brother hfocus ht hnear ((hroomy ht).2 rfl) (fuel + 1)
        rw [Balances, ancestors, hloop, rebalance_brother ht]
        cases hdone : (lend (⟨true, x, s, pick s l r⟩ : Frame (Ptr × K)) t).2 with
        | true => exact ⟨h', .NULL, h', rfl, rfl, focus_root.mpr hfocus'⟩
        | false =>
          have hlent := (lend_not_done (f := ⟨true, x, s, pick s l r⟩) hnear hdone).1
          have hrest := balanceLoop_red hfocus' hlent cap fuel
          rw [rebalance_of_red hlent] at hrest
          exact hrest

end Loop

/-! ## Taking a node out -/

section Unchain

variable {h : Heap K} {fs : List (Frame (Ptr × K))}

/-- The address of the node that was taken out and is not freed yet. -/
def plus (z : Ptr → Nat) (u : Ptr) : Ptr → Nat := fun a => z a + here u a

variable {t sib : Tree K} {s s' : Side} {ured d red : Bool} {u x : Ptr × K} {v : Ptr} {N fuel : Nat}
  {gs : List (Frame (Ptr × K))}

theorem Focus.free {u : Ptr} (hfocus : Focus (plus z u) h fs t) : Focus z (h.free u) fs t := by
  have hself := hfocus.once u
  simp only [plus, here_self] at hself
  have hsame : ∀ a, a ≠ u → (h.free u).mem a = h.mem a := by
    intro a hne
    simp [Heap.free, hne]
  refine ⟨hfocus.frames.congr rfl fun a ha => hsame a ?_, hfocus.tree.congr fun a ha => hsame a ?_,
    ?_, ?_⟩
  · rintro rfl
    omega
  · rintro rfl
    omega
  · intro a
    have ha := hfocus.once a
    rw [plus] at ha
    omega
  · intro a ha
    have hne : a ≠ u := by
      rintro rfl
      simp [Heap.free] at ha
    rw [hsame a hne] at ha
    have hpos := hfocus.live a ha
    rw [plus, here, if_neg (Ne.symm hne)] at hpos
    exact hpos

theorem Focus.unlink (hfocus : Focus z h fs (join s ured u .nil t)) :
    ∃ h', h.setNodePtr (addr t) (slotOf fs) = .ok h' ∧ Focus (plus z u.1) h' fs t ∧
      h'.mem u.1 = some (packAt s ured u.2 .NULL (addr t)) := by
  obtain ⟨h', hrun, hp⟩ := hfocus.pieces.takeRoot.slot (addr t)
  refine ⟨h', hrun, ⟨hp.frames, hp.tree t (by simp), ?_, ?_⟩, hp.mem_first.1⟩
  · intro a
    have ha := hp.once a
    simp only [occPieces, map_cons, map_nil, sum_cons] at ha
    rw [plus]
    omega
  · intro a ha
    have hpos := hp.live a ha
    simp only [occPieces, map_cons, map_nil, sum_cons, sum_nil, occ] at hpos
    rw [plus]
    omega

theorem Focus.rekey (hfocus : Focus z h (fs ++ ⟨red, x, s, sib⟩ :: gs) t) (k : K) :
    ∃ h', h.modify x.1 ({ · with key := k }) = .ok h' ∧
      Focus z h' (fs ++ ⟨red, (x.1, k), s, sib⟩ :: gs) t ∧ ∀ a, a ≠ x.1 → h'.mem a = h.mem a := by
  rw [focus_plug, focus_cons] at hfocus
  have hmem := (inMem_join.mp hfocus.tree).1
  have hkey : ({ packAt s red x.2 (addr (plug fs t)) (addr sib) with key := k } : Node K) =
      packAt s red k (addr (plug fs t)) (addr sib) := by
    cases s <;> rfl
  obtain ⟨h', hrun, hp⟩ := hfocus.pieces.takeRoot.first (f := ({ · with key := k })) hkey
  have hset := modify_ok hmem ({ · with key := k })
  refine ⟨h', hrun, ?_, ?_⟩
  · rw [focus_plug, focus_cons]
    refine hp.close ?_ (inMem_join.mpr ⟨hp.mem_first.1, hp.mem_first.2, hp.tree _ (by simp),
      hp.tree _ (by simp)⟩) ?_
    · rw [Frame.attach, Frame.attach, addr_join, addr_join]
    · intro a
      simp [occPieces, Frame.attach]
      omega
  · intro a hne
    rw [hrun] at hset
    cases hset
    exact mem_set_ne hne

/-- The pointer that is replaced is the one to the node. -/
theorem chainInto_spec (hfocus : Focus z h fs t) (ht : t ≠ .nil) {rootp : Slot}
    (hrootp : fs = [] → rootp = .root) (r : Ptr) :
    chainInto rootp (ancestors fs) (addr t) r h = h.setNodePtr r (slotOf fs) := by
  cases fs with
  | nil => rw [ancestors, chainInto, hrootp rfl, slotOf]
  | cons f fs =>
    have hright : addr t = (packAt f.side f.red f.x.2 (addr t) (addr f.sib)).child .right ↔
        f.side = .right := by
      rcases f with ⟨red, x, side, sib⟩
      cases side with
      | right => simp [packAt]
      | left =>
        simp only [packAt, right_pack, reduceCtorEq, iff_false]
        intro heq
        cases t with
        | nil => exact ht rfl
        | node tred w a b =>
          have honce := hfocus.once w.1
          cases sib with
          | nil => exact hfocus.tree.2.1 heq
          | node sred y l r =>
            rw [addr, addr] at heq
            simp only [occ, occFrames, ← heq, here_self] at honce
            omega
    rw [ancestors, chainInto, deref_slotOf hfocus.frames.2.2.2, ok_bind, node_ok hfocus.frames.1,
      ok_bind, slotOf, setNodePtr_child]
    cases hside : f.side with
    | right =>
      rw [if_pos (hside ▸ hright.mpr hside)]
    | left =>
      rw [if_neg (by simpa [hside] using hright)]

/-- The repair after the node has been taken out, and `free`. -/
theorem balanceAndFree_spec (hfocus : Focus (plus z u.1) h fs t)
    (hmem : h.mem u.1 = some (packAt s ured u.2 .NULL v))
    (hbal : (plug fs (join s ured u .nil t)).Balanced d N) {cap : Nat}
    (hroomy : ured = false → t.isRed = false → Roomy cap fs) (hfuel : fs.length + 1 < fuel) :
    ∃ h', balanceAndFree fuel ⟨cap, ancestors fs⟩ u.1 (addr t) h = .ok h' ∧
      Focus z h' [] (if ured then plug fs t else rebalance fs t) := by
  rw [balanceAndFree, node_ok hmem]
  simp only [ok_bind, red_packAt]
  cases hred : ured with
  | true => exact ⟨h.free u.1, rfl, focus_root.mpr hfocus.free⟩
  | false =>
    obtain ⟨e, k, ht, -, hacc⟩ := balanced_only_child hbal
    obtain ⟨h₁, r', h₂, hloop, hblacken, hbalanced⟩ :=
      balanceLoop_spec hfocus (hacc hred) ht (hroomy hred) hfuel
    refine ⟨h₂.free u.1, ?_, hbalanced.free⟩
    simp only [Bool.false_eq_true, if_false, hloop, ok_bind, hblacken, pure_ok]

theorem only_successor (s : Side) (ured : Bool) (k : K) (v : Ptr) :
    (if (packAt s ured k .NULL v).child .left = .NULL then (packAt s ured k .NULL v).child .right
      else (packAt s ured k .NULL v).child .left) = v := by
  cases s with
  | left => simp [packAt]
  | right =>
    simp only [packAt, left_pack]
    split
    · next hnull => exact hnull.symm
    · rfl

/-- The node is taken out of its place, and the rest is its key and the balance. -/
theorem unchain_eq (rootp : Slot) (hfocus : Focus z h fs (join s ured u .nil t))
    (hrootp : fs = [] → rootp = .root) (fuel : Nat) (root : Ptr) :
    ∃ h₁, Focus (plus z u.1) h₁ fs t ∧ h₁.mem u.1 = some (packAt s ured u.2 .NULL (addr t)) ∧
      unchain fuel rootp root u.1 (stackOf fs) h =
        if u.1 ≠ root then
          h₁.modify root ({ · with key := u.2 }) >>= balanceAndFree fuel (stackOf fs) u.1 (addr t)
        else balanceAndFree fuel (stackOf fs) u.1 (addr t) h₁ := by
  obtain ⟨h₁, hrun₁, hunlinked, hmem⟩ := hfocus.unlink
  have hchain := chainInto_spec hfocus (by cases s <;> simp [join]) hrootp (addr t)
  rw [addr_join, hrun₁] at hchain
  refine ⟨h₁, hunlinked, hmem, ?_⟩
  rw [unchain, node_ok (inMem_join.mp hfocus.tree).1]
  simp only [ok_bind, addr_nil, only_successor, stackOf, hchain, node_ok hmem, key_packAt]

theorem unchain_self (hfocus : Focus z h fs (join s ured u .nil t)) (fuel : Nat) :
    ∃ h₁, Focus (plus z u.1) h₁ fs t ∧ h₁.mem u.1 = some (packAt s ured u.2 .NULL (addr t)) ∧
      unchain fuel (slotOf fs) u.1 u.1 (stackOf fs) h =
        balanceAndFree fuel (stackOf fs) u.1 (addr t) h₁ := by
  have hrootp : fs = [] → slotOf fs = .root := fun hnil => congrArg slotOf hnil
  obtain ⟨h₁, hunlinked, hmem, hrun⟩ := unchain_eq _ hfocus hrootp fuel u.1
  exact ⟨h₁, hunlinked, hmem, by rw [hrun, if_neg (not_not.mpr rfl)]⟩

theorem occFrames_append (a : Ptr) (fs gs : List (Frame (Ptr × K))) :
    occFrames a (fs ++ gs) = occFrames a fs + occFrames a gs := by
  induction fs with
  | nil => simp [occFrames]
  | cons f fs ih =>
    rw [cons_append, occFrames, occFrames]
    omega

/-- The stack has addresses in it, no keys. -/
theorem ancestors_rekey (fs gs : List (Frame (Ptr × K))) (red : Bool)
    (x : Ptr × K) (k : K) (s : Side) (sib : Tree K) :
    ancestors (fs ++ ⟨red, (x.1, k), s, sib⟩ :: gs) = ancestors (fs ++ ⟨red, x, s, sib⟩ :: gs) := by
  induction fs with
  | nil => rfl
  | cons f fs ih =>
    simp only [cons_append, ancestors, ih]
    cases fs <;> rfl

/-- Unchaining the next node, whose key the node to be deleted gets. -/
theorem unchain_next (hfocus : Focus z h (fs ++ ⟨red, x, s', sib⟩ :: gs) (join s ured u .nil t))
    (rootp : Slot) (fuel : Nat) :
    ∃ h₂, Focus (plus z u.1) h₂ (fs ++ ⟨red, (x.1, u.2), s', sib⟩ :: gs) t ∧
      h₂.mem u.1 = some (packAt s ured u.2 .NULL (addr t)) ∧
      unchain fuel rootp x.1 u.1 (stackOf (fs ++ ⟨red, x, s', sib⟩ :: gs)) h =
        balanceAndFree fuel (stackOf (fs ++ ⟨red, (x.1, u.2), s', sib⟩ :: gs)) u.1 (addr t) h₂ := by
  have hne : u.1 ≠ x.1 := by
    intro heq
    have honce := hfocus.once u.1
    rw [occ_join, occFrames_append, occFrames, ← heq, here_self] at honce
    omega
  obtain ⟨h₁, hunlinked, hmem, hrun⟩ := unchain_eq rootp hfocus (by simp) fuel x.1
  obtain ⟨h₂, hrun₂, hrekeyed, hsame⟩ := hunlinked.rekey u.2
  refine ⟨h₂, hrekeyed, (hsame u.1 hne).trans hmem, ?_⟩
  have hstack : stackOf (fs ++ ⟨red, (x.1, u.2), s', sib⟩ :: gs) =
      stackOf (fs ++ ⟨red, x, s', sib⟩ :: gs) := by
    simp only [stackOf, ancestors_rekey, length_append, length_cons]
  rw [hrun, if_pos hne, hrun₂, ok_bind, hstack]

end Unchain

/-! ## `tdelete` -/

def overwrite (x u : Ptr × K) : Ptr × K := (x.1, u.2)

theorem size_plug (fs : List (Frame (Ptr × K))) (t : Tree K) :
    fs.length + t.size ≤ (plug fs t).size := by
  induction fs generalizing t with
  | nil => simp [plug]
  | cons f fs ih =>
    have hle := ih (f.attach t)
    have hsize : (f.attach t).size = t.size + f.sib.size + 1 := by
      rw [Frame.attach]
      cases f.side <;> simp only [join, size]
      omega
    rw [plug, length_cons]
    omega

variable {t l r : Tree K} {c red : Bool} {n fuel : Nat} {h : Heap K} {gs : List (Frame (Ptr × K))}
  {x : Ptr × K} {s : Side} {key : K}

/-- In a tree with fewer than `2 ^ 21 - 1` nodes there is room on the stack. -/
theorem roomy_of_size {fs : List (Frame (Ptr × K))} {u : Ptr × K}
    (hbal : (plug fs (join s false u .nil t)).Balanced c n)
    (hsize : (plug fs (join s false u .nil t)).size + 1 < 2 ^ 21) :
    Roomy (capacity fs.length) fs := by
  cases fs with
  | nil => trivial
  | cons f fs =>
    have hle := le_capacity (f :: fs).length
    refine ⟨hle, fun hred => ?_⟩
    by_contra hfull
    -- the array is full, so that there are at least 40 ancestors, and the lowest one is black
    have hlong : 39 ≤ fs.length := by
      unfold capacity at hfull
      omega
    obtain ⟨d, m, hnode, hacc⟩ := balanced_of_plug hbal
    obtain ⟨m, rfl⟩ : ∃ k, m = k + 1 := by
      cases s <;> cases hnode <;> exact ⟨_, rfl⟩
    have hattach : ∃ N, 2 ^ N ≤ (plug fs (f.attach (join s false u .nil t))).size + 1 ∧
        fs.length ≤ 2 * (N - (m + 2)) + 1 ∧ m + 2 ≤ N := by
      cases hacc with
      | red hsib _ => exact absurd hred (by simp [hsib.isRed_eq])
      | black hsib habove =>
        exact habove.two_pow_le (.join_black hnode hsib)
    obtain ⟨N, hpow, hlength, hheight⟩ := hattach
    have hN : 2 ^ 21 ≤ 2 ^ N := Nat.pow_le_pow_right (by decide) (by omega)
    rw [plug] at hsize
    omega

/-- Where a black node is taken out and no red one takes its place, there is room on the stack. -/
def RoomToRemove (gs : List (Frame (Ptr × K))) (red : Bool) (x : Ptr × K) (l r : Tree K) : Prop :=
  (detach overwrite gs red x l r).2.1 = false → (detach overwrite gs red x l r).2.2.isRed = false →
    Roomy (capacity (detach overwrite gs red x l r).1.length) (detach overwrite gs red x l r).1

/-- `tdelete` takes a node out as `detach` does, and has to balance at the hole. -/
theorem deleteAt_eq (hfocus : Focus z h gs (.node red x l r))
    (hbal : (plug gs (.node red x l r)).Balanced c n)
    (hfuel : (plug gs (.node red x l r)).size < fuel) :
    ∃ s u h₁ d N,
      (plug (detach overwrite gs red x l r).1 (join s (detach overwrite gs red x l r).2.1 u .nil
        (detach overwrite gs red x l r).2.2)).Balanced d N ∧
      (detach overwrite gs red x l r).1.length < fuel - 1 ∧
      Focus (plus z u.1) h₁ (detach overwrite gs red x l r).1
        (detach overwrite gs red x l r).2.2 ∧
      h₁.mem u.1 = some (packAt s (detach overwrite gs red x l r).2.1 u.2 .NULL
        (addr (detach overwrite gs red x l r).2.2)) ∧
      deleteAt fuel (slotOf gs) (stackOf gs) h =
        balanceAndFree fuel (stackOf (detach overwrite gs red x l r).1) u.1
          (addr (detach overwrite gs red x l r).2.2) h₁ := by
  have hlength := size_plug gs (.node red x l r)
  rw [deleteAt, deref_slotOf hfocus.frames, ok_bind, addr, node_ok hfocus.tree.1, ok_bind]
  simp only [left_pack, right_pack]
  rcases l with _ | ⟨lred, lx, ll, lr⟩
  · obtain ⟨h₁, hunlinked, hmem, hrun⟩ := unchain_self (s := .left) hfocus fuel
    simp only [size] at hlength
    exact ⟨.left, x, h₁, c, n, hbal, by simp only [detach]; omega, hunlinked, hmem, hrun⟩
  rcases r with _ | ⟨red', x', l', r'⟩
  · obtain ⟨h₁, hunlinked, hmem, hrun⟩ := unchain_self (s := .right) hfocus fuel
    rw [if_pos (.inr rfl)]
    simp only [size] at hlength
    exact ⟨.right, x, h₁, c, n, hbal, by simp only [detach]; omega, hunlinked, hmem, hrun⟩
  · have hright : Focus z h (⟨red, x, .right, .node lred lx ll lr⟩ :: gs) (.node red' x' l' r') :=
      focus_cons.mpr hfocus
    have hnull : ¬ (addr (.node lred lx ll lr : Tree K) = .NULL ∨
        addr (.node red' x' l' r' : Tree K) = .NULL) := by
      rintro (hnull | hnull)
      · exact hfocus.tree.2.2.1.2.1 hnull
      · exact hright.tree.2.1 hnull
    simp only [size] at hlength
    rw [if_neg hnull, show (Slot.child .right x.1) =
      slotOf (⟨red, x, .right, .node lred lx ll lr⟩ :: gs) from rfl,
      seekNext_spec hright (by omega), ok_bind]
    have hpath := leftmost_append [] (⟨red, x, .right, .node lred lx ll lr⟩ :: gs) red' x' r' l'
    have hwithin := leftmost_spec [] red' x' r' l'
    have hdetach : detach overwrite gs red x (.node lred lx ll lr) (.node red' x' l' r') =
        ((leftmost [] red' x' r' l').1 ++
          ⟨red, overwrite x (leftmost [] red' x' r' l').2.2.1, .right, .node lred lx ll lr⟩ :: gs,
          (leftmost [] red' x' r' l').2.1, (leftmost [] red' x' r' l').2.2.2) := rfl
    rw [nil_append] at hpath
    rw [hpath, hdetach]
    generalize leftmost [] red' x' r' l' = next at *
    obtain ⟨hs, ured, u, ur⟩ := next
    have hnext : Focus z h (hs ++ ⟨red, x, .right, .node lred lx ll lr⟩ :: gs)
        (.node ured u .nil ur) := by
      rw [focus_plug, hwithin]
      exact hright
    have hover : plug (hs ++ ⟨red, (x.1, u.2), .right, .node lred lx ll lr⟩ :: gs)
        (join .left ured u .nil ur) =
        plug gs (.node red (x.1, u.2) (.node lred lx ll lr) (.node red' x' l' r')) := by
      rw [plug_append, join, hwithin]
      rfl
    obtain ⟨d, m, hnode, hacc⟩ := balanced_of_plug hbal
    obtain ⟨e, N, hbal'⟩ := hacc.plug_balanced (hnode.overwrite (y := (x.1, u.2)))
    have hlength' := size_plug (hs ++ ⟨red, (x.1, u.2), .right, .node lred lx ll lr⟩ :: gs)
      (join .left ured u .nil ur)
    rw [hover] at hlength'
    have hsame : (plug gs (.node red (x.1, u.2) (.node lred lx ll lr) (.node red' x' l' r'))).size =
        (plug gs (.node red x (.node lred lx ll lr) (.node red' x' l' r'))).size := by
      simp only [← length_toList, toList_plug, toList, length_append, length_cons]
    rw [← hover] at hbal'
    rw [deref_slotOf hnext.frames]
    obtain ⟨h₂, hunlinked, hmem, hrun⟩ := unchain_next (s := .left) hnext (slotOf gs) fuel
    refine ⟨.left, u, h₂, e, N, hbal', ?_, hunlinked, hmem, hrun⟩
    simp only [join, size] at hlength'
    simp only [overwrite]
    omega

/-- `tdelete` turns the heap of a tree into that of `remove`. -/
theorem deleteAt_spec (hfocus : Focus z h gs (.node red x l r))
    (hbal : (plug gs (.node red x l r)).Balanced c n) (hroom : RoomToRemove gs red x l r)
    (hfuel : (plug gs (.node red x l r)).size + 1 < fuel) :
    ∃ h', deleteAt fuel (slotOf gs) (stackOf gs) h = .ok h' ∧
      Focus z h' [] (remove overwrite gs red x l r) := by
  obtain ⟨s, u, h₁, d, N, hbal', hlength, hunlinked, hmem, hrun⟩ :=
    deleteAt_eq hfocus hbal (Nat.lt_of_succ_lt hfuel)
  rw [hrun]
  exact balanceAndFree_spec hunlinked hmem hbal' hroom (by omega)

theorem tdelete_missing (hholds : Holds h t) (hloc : (locate (dirOf compar key) [] t).2 = .nil)
    (hfuel : t.size < fuel) : tdelete compar fuel key (some .root) h = .ok (h, .NULL) := by
  rw [tdelete, Heap.deref, hholds.frames]
  simp only [pure_ok, ok_bind]
  by_cases ht : t = .nil
  · rw [ht, addr_nil, if_pos rfl]
  · have hseek := (seek_spec hholds ht (Prod.ext rfl rfl) (addr t) (le_of_lt hfuel)).1 hloc
    rw [stackOf_nil, slotOf] at hseek
    rw [if_neg (mt (addr_eq_null_iff hholds.tree).mp ht), hseek]
    rfl

theorem tdelete_eq (hholds : Holds h t)
    (hloc : locate (dirOf compar key) [] t = (gs, .node red x l r)) (hfuel : t.size < fuel) :
    plug gs (.node red x l r) = t ∧ Focus (fun _ => 0) h gs (.node red x l r) ∧
      ∃ retval, tdelete compar fuel key (some .root) h =
        deleteAt fuel (slotOf gs) (stackOf gs) h >>= fun h' => .ok (h', retval) := by
  have hplug := plug_locate (dirOf compar key) [] t
  rw [hloc] at hplug
  have ht : t ≠ .nil := by
    rintro rfl
    simp [locate] at hloc
  obtain ⟨retval, hseek⟩ :=
    (seek_spec hholds ht hloc (addr t) (le_of_lt hfuel)).2 (fun heq => by cases heq)
  rw [stackOf_nil, slotOf] at hseek
  refine ⟨hplug, ?_, retval, ?_⟩
  · rw [← focus_root, hplug]
    exact hholds
  · rw [tdelete, Heap.deref, hholds.frames]
    simp only [pure_ok, ok_bind]
    rw [if_neg (mt (addr_eq_null_iff hholds.tree).mp ht), hseek]
    rfl

theorem tdelete_spec (hholds : Holds h t) (hbal : t.Balanced c n)
    (hloc : locate (dirOf compar key) [] t = (gs, .node red x l r))
    (hroom : RoomToRemove gs red x l r) (hfuel : t.size + 1 < fuel) :
    ∃ h' retval, tdelete compar fuel key (some .root) h = .ok (h', retval) ∧
      Holds h' (remove overwrite gs red x l r) := by
  obtain ⟨hplug, hfocus, retval, hrun⟩ := tdelete_eq hholds hloc (Nat.lt_of_succ_lt hfuel)
  obtain ⟨h', hdelete, hremoved⟩ := deleteAt_spec hfocus (hplug ▸ hbal) hroom (hplug ▸ hfuel)
  exact ⟨h', retval, by rw [hrun, hdelete, ok_bind], hremoved⟩

end SafeLibc.Misc
