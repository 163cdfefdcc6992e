import Mathlib.Algebra.Order.BigOperators.Group.List
import SafeLibc.Lib.Machine
import SafeLibc.Misc.Tsearch

/-!
# The heap of `tsearch` as a tree

A node of the tree carries its address and its key. `Focus z h fs t` says that the heap holds the
tree with `t` at the position `fs`: every frame and every node is where its parent points, no
address occurs twice, and nothing else lives in memory but what `z` counts. Moving the focus up and
down changes nothing (`focus_cons`). Addresses are counted (`occ`), so that disjointness is
arithmetic.

The rest of the module runs the pieces of `maybe_split_for_insert` and of the loop of `tdelete` on
such heaps: each turns the heap of one tree into the heap of another.
-/

namespace SafeLibc.Misc

open SafeLibc.Lib RBTree List

/-! ## Nodes with a colour in the left pointer -/

theorem or_and_distrib (a b c : UInt64) : (a ||| b) &&& c = (a &&& c) ||| (b &&& c) := by
  apply UInt64.toBitVec_inj.mp
  ext i hi
  simp [Bool.and_or_distrib_right]

theorem aligned_mask {w : UInt64} (h : w &&& 1 = 0) : w &&& ~~~1 = w := by
  calc w &&& ~~~1 = (1 &&& w) ||| (~~~1 &&& w) := by
        rw [UInt64.and_comm 1 w, h, UInt64.zero_or, UInt64.and_comm]
    _ = (1 ||| ~~~1) &&& w := (or_and_distrib 1 (~~~1) w).symm
    _ = w := by
        have hall : (1 ||| ~~~1 : UInt64) = -1 := by decide
        rw [hall, UInt64.neg_one_and]

/-- The colour as the low bit of the left pointer. -/
def flag (red : Bool) : UInt64 := if red then 1 else 0

variable (red : Bool) (s : Side)

theorem flag_or_bit (p : Ptr) : (flag red ||| p.word) &&& 1 = flag red := by
  rw [or_and_distrib, p.aligned]
  cases red <;> decide

theorem flag_or_mask (p : Ptr) : (flag red ||| p.word) &&& ~~~1 = p.word := by
  rw [or_and_distrib, aligned_mask p.aligned]
  cases red <;> simp [flag]

section Pack

variable {K : Type}

/-- A node as it is in memory. -/
def pack (red : Bool) (key : K) (l r : Ptr) : Node K := ⟨key, flag red ||| l.word, r⟩

/-- A node with its child on side `s` first. -/
def packAt (s : Side) (red : Bool) (key : K) (near far : Ptr) : Node K :=
  match s with
  | .left => pack red key near far
  | .right => pack red key far near

variable (red : Bool) (key : K) (l r : Ptr)

@[simp] theorem red_pack : (pack red key l r).red = red := by
  rw [Node.red, pack, flag_or_bit]
  cases red <;> decide

@[simp] theorem left_pack : (pack red key l r).child .left = l := by
  simp only [Node.child, pack, flag_or_mask]

@[simp] theorem right_pack : (pack red key l r).child .right = r := rfl

@[simp] theorem setRed_pack : (pack red key l r).setRed = pack true key l r := by
  simp only [Node.setRed, pack, Node.mk.injEq]
  rw [UInt64.or_comm, ← UInt64.or_assoc]
  cases red <;> simp [flag]

@[simp] theorem setBlack_pack : (pack red key l r).setBlack = pack false key l r := by
  simp only [Node.setBlack, pack, flag_or_mask]
  simp [flag]

@[simp] theorem setLeft_pack (p : Ptr) :
    (pack red key l r).setChild .left p = pack red key p r := by
  simp only [Node.setChild, pack, flag_or_bit]

@[simp] theorem setRight_pack (p : Ptr) :
    (pack red key l r).setChild .right p = pack red key l p := rfl

@[simp] theorem key_pack : (pack red key l r).key = key := rfl

end Pack

section PackAt

variable {K : Type} (s : Side) (red : Bool) (key : K) (near far : Ptr)

@[simp] theorem red_packAt : (packAt s red key near far).red = red := by
  cases s <;> simp [packAt]

@[simp] theorem near_packAt : (packAt s red key near far).child s = near := by
  cases s <;> simp [packAt]

@[simp] theorem far_packAt : (packAt s red key near far).child s.other = far := by
  cases s <;> simp [packAt, Side.other]

@[simp] theorem setRed_packAt :
    (packAt s red key near far).setRed = packAt s true key near far := by
  cases s <;> simp [packAt]

@[simp] theorem setBlack_packAt :
    (packAt s red key near far).setBlack = packAt s false key near far := by
  cases s <;> simp [packAt]

@[simp] theorem setNear_packAt (p : Ptr) :
    (packAt s red key near far).setChild s p = packAt s red key p far := by
  cases s <;> simp [packAt]

@[simp] theorem setFar_packAt (p : Ptr) :
    (packAt s red key near far).setChild s.other p = packAt s red key near p := by
  cases s <;> simp [packAt, Side.other]

@[simp] theorem key_packAt : (packAt s red key near far).key = key := by
  cases s <;> rfl

end PackAt

/-! ## Writing and reading -/

section Access

variable {K : Type} {h : Heap K} {a b : Ptr} {n : Node K}

@[simp] theorem mem_set_self : (h.set a n).mem a = some n := by
  simp [Heap.set]

theorem mem_set_ne (hne : b ≠ a) : (h.set a n).mem b = h.mem b := by
  simp [Heap.set, hne]

theorem node_ok (hn : h.mem a = some n) : h.node a = .ok n := by
  simp [Heap.node, hn]

theorem modify_ok (hn : h.mem a = some n) (f : Node K → Node K) :
    h.modify a f = .ok (h.set a (f n)) := by
  simp [Heap.modify, node_ok hn, bind, Except.bind, pure, Except.pure]

theorem setNodePtr_child (p : Ptr) :
    h.setNodePtr p (.child s a) = h.modify a (.setChild s p) := rfl

end Access

/-! ## Heaps that hold a tree -/

abbrev Tree (K : Type) := RBTree (Ptr × K)

section Represent

variable {K : Type} {z : Ptr → Nat}

/-- The pointer to the root of a tree. -/
def addr : Tree K → Ptr
  | .nil => .NULL
  | .node _ x _ _ => x.1

def here (a b : Ptr) : Nat := if a = b then 1 else 0

/-- How often the address is one of the tree. -/
def occ (a : Ptr) : Tree K → Nat
  | .nil => 0
  | .node _ x l r => here x.1 a + occ a l + occ a r

def occFrames (a : Ptr) : List (Frame (Ptr × K)) → Nat
  | [] => 0
  | f :: fs => here f.x.1 a + occ a f.sib + occFrames a fs

/-- Every node of the tree is in memory. -/
def InMem (h : Heap K) : Tree K → Prop
  | .nil => True
  | .node red x l r => h.mem x.1 = some (pack red x.2 (addr l) (addr r)) ∧ x.1 ≠ .NULL ∧
      InMem h l ∧ InMem h r

/-- Every frame is in memory, and `v` stands where the hole is. -/
def FramesIn (h : Heap K) : List (Frame (Ptr × K)) → Ptr → Prop
  | [], v => h.root = v
  | f :: fs, v => h.mem f.x.1 = some (packAt f.side f.red f.x.2 v (addr f.sib)) ∧ f.x.1 ≠ .NULL ∧
      InMem h f.sib ∧ FramesIn h fs f.x.1

/-- The heap is the tree with `t` at the position `fs`, and the nodes that `z` counts. -/
structure Focus (z : Ptr → Nat) (h : Heap K) (fs : List (Frame (Ptr × K))) (t : Tree K) : Prop where
  frames : FramesIn h fs (addr t)
  tree : InMem h t
  once : ∀ a, occ a t + occFrames a fs + z a ≤ 1
  live : ∀ a, h.mem a ≠ none → 0 < occ a t + occFrames a fs + z a

/-- The root pointer leads to the tree, and nothing else is in memory. -/
def Holds (h : Heap K) (t : Tree K) : Prop := Focus (fun _ => 0) h [] t

variable (a : Ptr)

@[simp] theorem here_self : here a a = 1 := if_pos rfl

variable {h h' : Heap K} {fs : List (Frame (Ptr × K))} {v a b : Ptr} {t l r near far : Tree K}
  {cells : List (Ptr × Node K)} {trees : List (Tree K)} {red : Bool} {x : Ptr × K} {n m : Node K}
  {c d : Ptr × Node K} {s : Side} {f : Node K → Node K} {p g : Frame (Ptr × K)} {p_r : Int}

theorem here_pos (h : 0 < here a b) : a = b := by
  by_contra hne
  rw [here, if_neg hne] at h
  exact lt_irrefl 0 h

@[simp] theorem addr_nil : addr (.nil : Tree K) = .NULL := rfl

@[simp] theorem addr_join (red : Bool) (x : Ptr × K) (near far : Tree K) :
    addr (join s red x near far) = x.1 := by
  cases s <;> rfl

@[simp] theorem occ_join (s : Side) (red : Bool) (x : Ptr × K) (near far : Tree K) :
    occ a (join s red x near far) = here x.1 a + occ a near + occ a far := by
  cases s with
  | left => rfl
  | right =>
    simp only [join, occ]
    omega

@[simp] theorem addr_blacken (t : Tree K) : addr t.blacken = addr t := by
  cases t <;> rfl

@[simp] theorem occ_blacken (t : Tree K) : occ a t.blacken = occ a t := by
  cases t <;> rfl

theorem inMem_join : InMem h (join s red x near far) ↔
      h.mem x.1 = some (packAt s red x.2 (addr near) (addr far)) ∧ x.1 ≠ .NULL ∧
        InMem h near ∧ InMem h far := by
  cases s with
  | left => rfl
  | right =>
    simp only [join, InMem]
    tauto

/-- One step up the path. -/
theorem focus_cons {f : Frame (Ptr × K)} : Focus z h (f :: fs) t ↔ Focus z h fs (f.attach t) := by
  have hocc : ∀ a, occ a (f.attach t) + occFrames a fs + z a =
      occ a t + occFrames a (f :: fs) + z a := by
    intro a
    rw [Frame.attach, occ_join, occFrames]
    omega
  constructor
  · rintro ⟨⟨hmem, hnull, hsib, hframes⟩, htree, honce, hlive⟩
    refine ⟨?_, ?_, fun a => hocc a ▸ honce a, fun a ha => hocc a ▸ hlive a ha⟩
    · rw [Frame.attach, addr_join]
      exact hframes
    · exact inMem_join.mpr ⟨hmem, hnull, htree, hsib⟩
  · rintro ⟨hframes, htree, honce, hlive⟩
    obtain ⟨hmem, hnull, ht, hsib⟩ := inMem_join.mp htree
    rw [Frame.attach, addr_join] at hframes
    exact ⟨⟨hmem, hnull, hsib, hframes⟩, ht, fun a => hocc a ▸ honce a,
      fun a ha => hocc a ▸ hlive a ha⟩

theorem focus_sib {sib : Tree K} :
    Focus z h (⟨red, x, s, sib⟩ :: fs) t ↔ Focus z h (⟨red, x, s.other, t⟩ :: fs) sib := by
  rw [focus_cons, focus_cons, Frame.attach, Frame.attach, join_other]

theorem focus_plug {gs : List (Frame (Ptr × K))} :
    Focus z h (fs ++ gs) t ↔ Focus z h gs (plug fs t) := by
  induction fs generalizing t with
  | nil => rfl
  | cons f fs ih =>
    rw [cons_append, focus_cons, ih]
    rfl

theorem focus_root : Focus z h [] (plug fs t) ↔ Focus z h fs t := by
  rw [← focus_plug, append_nil]

/-- At the start. -/
theorem holds_empty : Holds (Heap.empty : Heap K) .nil :=
  ⟨rfl, trivial, fun _ => Nat.zero_le 1, fun _ ha => absurd rfl ha⟩

/-! ## What a write leaves alone -/

theorem InMem.congr (ht : InMem h t) (hsame : ∀ a, 0 < occ a t → h'.mem a = h.mem a) :
    InMem h' t := by
  induction t with
  | nil => trivial
  | node red x l r ihl ihr =>
    obtain ⟨hmem, hnull, hl, hr⟩ := ht
    refine ⟨?_, hnull, ihl hl fun a ha => ?_, ihr hr fun a ha => ?_⟩
    · rw [hsame x.1 (by simp only [occ, here_self]; omega), hmem]
    · exact hsame a (by simp only [occ]; omega)
    · exact hsame a (by simp only [occ]; omega)

theorem FramesIn.congr (hfs : FramesIn h fs v) (hroot : h'.root = h.root)
    (hsame : ∀ a, 0 < occFrames a fs → h'.mem a = h.mem a) : FramesIn h' fs v := by
  induction fs generalizing v with
  | nil => exact hroot.trans hfs
  | cons f fs ih =>
    obtain ⟨hmem, hnull, hsib, hframes⟩ := hfs
    refine ⟨?_, hnull, hsib.congr fun a ha => ?_, ih hframes fun a ha => ?_⟩
    · rw [hsame f.x.1 (by simp only [occFrames, here_self]; omega), hmem]
    · exact hsame a (by simp only [occFrames]; omega)
    · exact hsame a (by simp only [occFrames]; omega)

theorem InMem.set (ht : InMem h t) (hnot : occ a t = 0) (n : Node K) : InMem (h.set a n) t := by
  refine ht.congr fun b hb => mem_set_ne ?_
  rintro rfl
  omega

theorem FramesIn.set (hfs : FramesIn h fs v) (hnot : occFrames a fs = 0) (n : Node K) :
    FramesIn (h.set a n) fs v := by
  refine hfs.congr rfl fun b hb => mem_set_ne ?_
  rintro rfl
  omega

/-- Writing to a live node makes no other address live. -/
theorem live_set (hmem : h.mem a = some m) (hb : (h.set a n).mem b ≠ none) : h.mem b ≠ none := by
  by_cases hab : b = a
  · rw [hab, hmem]
    exact Option.some_ne_none m
  · rwa [mem_set_ne hab] at hb

/-! ## Places -/

/-- The place that points to the subtree in the hole. -/
def slotOf : List (Frame (Ptr × K)) → Slot
  | [] => .root
  | f :: _ => .child f.side f.x.1

theorem deref_slotOf (hfs : FramesIn h fs v) : h.deref (slotOf fs) = .ok v := by
  cases fs with
  | nil => exact congrArg Except.ok hfs
  | cons f fs => simp [slotOf, Heap.deref, node_ok hfs.1]

/-- Writing the pointer to the hole. -/
theorem setNodePtr_slotOf (hfs : FramesIn h fs v) (honce : ∀ a, occFrames a fs ≤ 1) (p : Ptr) :
    ∃ h', h.setNodePtr p (slotOf fs) = .ok h' ∧ FramesIn h' fs p ∧
      (∀ a, occFrames a fs = 0 → h'.mem a = h.mem a) ∧
      ∀ a, h'.mem a ≠ none → h.mem a ≠ none := by
  cases fs with
  | nil => exact ⟨{ h with root := p }, rfl, rfl, fun _ _ => rfl, fun _ ha => ha⟩
  | cons f fs =>
    obtain ⟨hmem, hnull, hsib, hframes⟩ := hfs
    have hself := honce f.x.1
    simp only [occFrames, here_self] at hself
    refine ⟨h.set f.x.1 (packAt f.side f.red f.x.2 p (addr f.sib)), ?_, ⟨mem_set_self, hnull,
      hsib.set (by omega) _, hframes.set (by omega) _⟩, fun a ha => mem_set_ne ?_,
      fun a ha => live_set hmem ha⟩
    · rw [slotOf, Heap.setNodePtr, modify_ok hmem, setNear_packAt]
    · rintro rfl
      simp only [occFrames, here_self] at ha
      omega

/-! ## Recolouring -/

section

variable (hfocus : Focus z h fs (.node red x l r))
include hfocus

theorem Focus.recolour {red' : Bool} :
    Focus z (h.set x.1 (pack red' x.2 (addr l) (addr r))) fs (.node red' x l r) := by
  obtain ⟨hframes, ⟨hmem, hnull, hl, hr⟩, honce, hlive⟩ := hfocus
  have hself := honce x.1
  simp only [occ, here_self] at hself
  exact ⟨hframes.set (by omega) _, ⟨mem_set_self, hnull, hl.set (by omega) _, hr.set (by omega) _⟩,
    honce, fun a ha => hlive a (live_set hmem ha)⟩

theorem Focus.setRed :
    ∃ h', h.modify x.1 .setRed = .ok h' ∧ Focus z h' fs (.node true x l r) :=
  ⟨_, modify_ok hfocus.tree.1 _, by
    rw [setRed_pack]
    exact hfocus.recolour⟩

theorem Focus.setBlack :
    ∃ h', h.modify x.1 .setBlack = .ok h' ∧ Focus z h' fs (.node false x l r) :=
  ⟨_, modify_ok hfocus.tree.1 _, by
    rw [setBlack_pack]
    exact hfocus.recolour⟩

end

theorem Focus.blackenAt (hfocus : Focus z h fs t) :
    ∃ h', h.blackenAt (addr t) = .ok h' ∧ Focus z h' fs t.blacken := by
  cases t with
  | nil => exact ⟨h, rfl, hfocus⟩
  | node red x l r =>
    obtain ⟨h', hrun, hfocus'⟩ := hfocus.setBlack
    refine ⟨h', ?_, hfocus'⟩
    rw [addr, Heap.blackenAt, if_neg hfocus.tree.2.1, hrun]

theorem InMem.redAt (ht : InMem h t) : h.redAt (addr t) = .ok t.isRed := by
  cases t with
  | nil => rfl
  | node red x l r =>
    rw [addr, Heap.redAt, if_neg ht.2.1, node_ok ht.1]
    simp [isRed]

/-- The colours that a split gives a node and its children. -/
theorem Focus.split (hfocus : Focus z h fs (.node red x l r)) :
    ∃ h₁ h₂ h₃, h.modify x.1 .setRed = .ok h₁ ∧ h₁.blackenAt (addr r) = .ok h₂ ∧
      h₂.blackenAt (addr l) = .ok h₃ ∧ Focus z h₃ fs (.node true x l.blacken r.blacken) := by
  obtain ⟨h₁, hrun₁, hfocus₁⟩ := hfocus.setRed
  have hright : Focus z h₁ (⟨true, x, .right, l⟩ :: fs) r := focus_cons.mpr hfocus₁
  obtain ⟨h₂, hrun₂, hfocus₂⟩ := hright.blackenAt
  have hnode : Focus z h₂ fs (.node true x l r.blacken) := focus_cons.mp hfocus₂
  have hleft : Focus z h₂ (⟨true, x, .left, r.blacken⟩ :: fs) l := focus_cons.mpr hnode
  obtain ⟨h₃, hrun₃, hfocus₃⟩ := hleft.blackenAt
  exact ⟨h₁, h₂, h₃, hrun₁, hrun₂, hrun₃, focus_cons.mp hfocus₃⟩

/-! ## Nodes taken out of the tree

While pointers are turned around the heap is no tree. It still consists of the frames above, of some
single nodes whose pointers are arbitrary, and of the subtrees below them. -/

def occPieces (a : Ptr) (cells : List (Ptr × Node K)) (trees : List (Tree K)) : Nat :=
  (cells.map fun c => here c.1 a).sum + (trees.map (occ a)).sum

/-- Cells and subtrees that are in memory without overlap, in any arrangement. -/
structure Pieces (z : Ptr → Nat) (h : Heap K) (fs : List (Frame (Ptr × K))) (v : Ptr)
    (cells : List (Ptr × Node K)) (trees : List (Tree K)) : Prop where
  frames : FramesIn h fs v
  cell : ∀ c ∈ cells, h.mem c.1 = some c.2 ∧ c.1 ≠ .NULL
  tree : ∀ t ∈ trees, InMem h t
  once : ∀ a, occPieces a cells trees + occFrames a fs + z a ≤ 1
  live : ∀ a, h.mem a ≠ none → 0 < occPieces a cells trees + occFrames a fs + z a

theorem Pieces.mem_first (hp : Pieces z h fs v ((a, n) :: cells) trees) :
    h.mem a = some n ∧ a ≠ .NULL :=
  hp.cell (a, n) (by simp)

theorem Pieces.mem_second (hp : Pieces z h fs v (c :: (a, n) :: cells) trees) :
    h.mem a = some n ∧ a ≠ .NULL :=
  hp.cell (a, n) (by simp)

theorem Pieces.mem_third (hp : Pieces z h fs v (c :: d :: (a, n) :: cells) trees) :
    h.mem a = some n ∧ a ≠ .NULL :=
  hp.cell (a, n) (by simp)

/-- The first of the single nodes is written. -/
theorem Pieces.first (hp : Pieces z h fs v ((a, n) :: cells) trees) (hf : f n = m) :
    ∃ h', h.modify a f = .ok h' ∧ Pieces z h' fs v ((a, m) :: cells) trees := by
  have hself := hp.once a
  simp only [occPieces, map_cons, sum_cons, here_self] at hself
  obtain ⟨hmem, hnull⟩ := hp.cell (a, n) (by simp)
  refine ⟨h.set a m, ?_, hp.frames.set (by omega) _, ?_, ?_, hp.once, fun b hb =>
    hp.live b (live_set hmem hb)⟩
  · rw [modify_ok hmem, hf]
  · intro c hc
    rcases mem_cons.mp hc with rfl | hc
    · exact ⟨mem_set_self, hnull⟩
    · have hne : c.1 ≠ a := by
        intro heq
        have hle := single_le_sum (fun _ _ => Nat.zero_le _) (here c.1 a)
          (mem_map_of_mem hc (f := fun c => here c.1 a))
        rw [heq, here_self] at hle
        omega
      rw [mem_set_ne hne]
      exact hp.cell c (by simp [hc])
  · intro t ht
    have hle := single_le_sum (fun _ _ => Nat.zero_le _) (occ a t)
      (mem_map_of_mem ht (f := occ a))
    exact (hp.tree t ht).set (by omega) _

theorem Pieces.perm {cells' : List (Ptr × Node K)} {trees' : List (Tree K)}
    (hp : Pieces z h fs v cells trees) (hcells : cells'.Perm cells) (htrees : trees'.Perm trees) :
    Pieces z h fs v cells' trees' := by
  have hocc : ∀ a, occPieces a cells' trees' = occPieces a cells trees := by
    intro a
    rw [occPieces, occPieces, (hcells.map _).sum_eq, (htrees.map _).sum_eq]
  exact ⟨hp.frames, fun c hc => hp.cell c (hcells.mem_iff.mp hc),
    fun t ht => hp.tree t (htrees.mem_iff.mp ht), fun a => hocc a ▸ hp.once a,
    fun a ha => hocc a ▸ hp.live a ha⟩

theorem Pieces.second (hp : Pieces z h fs v (c :: (a, n) :: cells) trees) (hf : f n = m) :
    ∃ h', h.modify a f = .ok h' ∧ Pieces z h' fs v (c :: (a, m) :: cells) trees := by
  obtain ⟨h', hrun, hp'⟩ := (hp.perm (.swap _ _ _) (.refl _)).first hf
  exact ⟨h', hrun, hp'.perm (.swap _ _ _) (.refl _)⟩

theorem Pieces.third (hp : Pieces z h fs v (c :: d :: (a, n) :: cells) trees) (hf : f n = m) :
    ∃ h', h.modify a f = .ok h' ∧ Pieces z h' fs v (c :: d :: (a, m) :: cells) trees := by
  obtain ⟨h', hrun, hp'⟩ := (hp.perm ((List.Perm.swap _ _ _).cons c) (.refl _)).second hf
  exact ⟨h', hrun, hp'.perm ((List.Perm.swap _ _ _).cons c) (.refl _)⟩

/-- The pointer in the lowest frame is written. -/
theorem Pieces.slot (hp : Pieces z h fs v cells trees) (p : Ptr) :
    ∃ h', h.setNodePtr p (slotOf fs) = .ok h' ∧ Pieces z h' fs p cells trees := by
  obtain ⟨h', hrun, hfs', hsame, hdom⟩ :=
    setNodePtr_slotOf hp.frames (fun a => by
      have ha := hp.once a
      omega) p
  refine ⟨h', hrun, hfs', ?_, ?_, hp.once, fun a ha => hp.live a (hdom a ha)⟩
  · intro c hc
    have hle := single_le_sum (fun _ _ => Nat.zero_le _) (here c.1 c.1)
      (mem_map_of_mem hc (f := fun d => here d.1 c.1))
    have hself := hp.once c.1
    rw [occPieces] at hself
    rw [here_self] at hle
    rw [hsame c.1 (by omega)]
    exact hp.cell c hc
  · intro t ht
    refine (hp.tree t ht).congr fun a ha => hsame a ?_
    have hle := single_le_sum (fun _ _ => Nat.zero_le _) (occ a t)
      (mem_map_of_mem ht (f := occ a))
    have hself := hp.once a
    rw [occPieces] at hself
    omega

theorem Focus.pieces (hfocus : Focus z h fs t) : Pieces z h fs (addr t) [] [t] := by
  refine ⟨hfocus.frames, fun c hc => (nomatch hc), ?_, ?_, ?_⟩
  · intro u hu
    rw [mem_singleton.mp hu]
    exact hfocus.tree
  · intro a
    simpa [occPieces] using hfocus.once a
  · intro a ha
    simpa [occPieces] using hfocus.live a ha

/-- Take the root of the first subtree out. -/
theorem Pieces.takeRoot (hp : Pieces z h fs v cells (join s red x near far :: trees)) :
    Pieces z h fs v ((x.1, packAt s red x.2 (addr near) (addr far)) :: cells)
      (near :: far :: trees) := by
  obtain ⟨hmem, hnull, hnear, hfar⟩ := inMem_join.mp (hp.tree (join s red x near far) (by simp))
  have hocc : ∀ a, occPieces a ((x.1, packAt s red x.2 (addr near) (addr far)) :: cells)
      (near :: far :: trees) = occPieces a cells (join s red x near far :: trees) := by
    intro a
    simp only [occPieces, map_cons, sum_cons, occ_join]
    omega
  refine ⟨hp.frames, ?_, ?_, fun a => hocc a ▸ hp.once a, fun a ha => hocc a ▸ hp.live a ha⟩
  · intro c hc
    rcases mem_cons.mp hc with rfl | hc
    · exact ⟨hmem, hnull⟩
    · exact hp.cell c hc
  · intro t ht
    simp only [mem_cons] at ht
    rcases ht with rfl | rfl | ht
    · exact hnear
    · exact hfar
    · exact hp.tree t (by simp [ht])

/-- Put the pieces together. -/
theorem Pieces.close (hp : Pieces z h fs v cells trees) (hv : addr t = v) (ht : InMem h t)
    (hocc : ∀ a, occ a t = occPieces a cells trees) : Focus z h fs t :=
  ⟨hv ▸ hp.frames, ht, fun a => hocc a ▸ hp.once a, fun a ha => hocc a ▸ hp.live a ha⟩

/-! ## Rotations on the way down -/

/-- Both red edges go to the same side. -/
theorem Focus.rotateOnce (hfocus : Focus z h (p :: g :: fs) t) (hside : p.side = g.side)
    (hp_r : p_r < 0 ↔ p.side = .left) : ∃ h', rotateOnce h p.x.1 g.x.1 (slotOf fs) p_r = .ok h' ∧
      Focus z h' fs (join p.side false p.x t (join g.side true g.x p.sib g.sib)) := by
  rcases p with ⟨pred, ⟨P, pk⟩, side, psib⟩
  rcases g with ⟨gred, ⟨G, gk⟩, gside, gsib⟩
  cases hside
  have hopen : Pieces z h fs G [(P, packAt side pred pk (addr t) (addr psib)),
      (G, packAt side gred gk P (addr gsib))] [t, psib, gsib] := by
    have hpieces := (focus_cons.mp (focus_cons.mp hfocus)).pieces.takeRoot.takeRoot
    simpa only [Frame.attach, addr_join] using hpieces
  obtain ⟨h₁, hrun₁, hp₁⟩ := hopen.slot P
  obtain ⟨h₂, hrun₂, hp₂⟩ := hp₁.first (setBlack_packAt side pred pk (addr t) (addr psib))
  obtain ⟨h₃, hrun₃, hp₃⟩ := hp₂.second (setRed_packAt side gred gk P (addr gsib))
  obtain ⟨h₄, hrun₄, hp₄⟩ := hp₃.second (setNear_packAt side true gk P (addr gsib) (addr psib))
  obtain ⟨h₅, hrun₅, hp₅⟩ := hp₄.first (setFar_packAt side false pk (addr t) (addr psib) G)
  have hread : h₃.node P = .ok (packAt side false pk (addr t) (addr psib)) :=
    node_ok hp₃.mem_first.1
  refine ⟨h₅, ?_, hp₅.close (addr_join ..) ?_ ?_⟩
  · rw [Misc.rotateOnce, hrun₁, ok_bind, hrun₂, ok_bind, hrun₃, ok_bind, hread, ok_bind]
    cases side <;> simp only [Side.other] at hrun₄ hrun₅ <;>
      simp [hp_r, packAt, hrun₄, hrun₅, ok_bind]
  · simp [inMem_join, hp₅.mem_first, hp₅.mem_second, hp₅.tree]
  · intro a
    simp [occPieces]
    omega

/-- The two red edges go to different sides. -/
theorem Focus.rotateTwice (hfocus : Focus z h (p :: g :: fs) (.node red x l r))
    (hside : g.side = p.side.other) (hp_r : p_r < 0 ↔ p.side = .left) :
    ∃ h', rotateTwice h x.1 p.x.1 g.x.1 (addr r) (addr l) (slotOf fs) p_r = .ok h' ∧
      Focus z h' fs (join p.side false x (join g.side true g.x (pick p.side l r) g.sib)
        (join p.side true p.x (pick p.side.other l r) p.sib)) := by
  rcases p with ⟨pred, ⟨P, pk⟩, side, psib⟩
  rcases g with ⟨gred, ⟨G, gk⟩, gside, gsib⟩
  rcases x with ⟨X, xk⟩
  dsimp only at hside
  subst hside
  dsimp only at *
  generalize hnear : pick side l r = near
  generalize hfar : pick side.other l r = far
  have hpieces : Pieces z h fs G [(X, packAt side red xk (addr near) (addr far)),
      (P, packAt side pred pk X (addr psib)), (G, packAt side.other gred gk P (addr gsib))]
      [near, far, psib, gsib] := by
    rw [← join_pick side, hnear, hfar] at hfocus
    have hopen := (focus_cons.mp (focus_cons.mp hfocus)).pieces.takeRoot.takeRoot.takeRoot
    simpa only [Frame.attach, addr_join] using hopen
  obtain ⟨h₁, hrun₁, hp₁⟩ := hpieces.second (setRed_packAt side pred pk X (addr psib))
  obtain ⟨h₂, hrun₂, hp₂⟩ := hp₁.third (setRed_packAt side.other gred gk P (addr gsib))
  obtain ⟨h₃, hrun₃, hp₃⟩ := hp₂.first (setBlack_packAt side red xk (addr near) (addr far))
  obtain ⟨h₄, hrun₄, hp₄⟩ := hp₃.second (setNear_packAt side true pk X (addr psib) (addr far))
  obtain ⟨h₅, hrun₅, hp₅⟩ := hp₄.first (setFar_packAt side false xk (addr near) (addr far) P)
  obtain ⟨h₆, hrun₆, hp₆⟩ :=
    hp₅.third (setNear_packAt side.other true gk P (addr gsib) (addr near))
  obtain ⟨h₇, hrun₇, hp₇⟩ := hp₆.first (setNear_packAt side false xk (addr near) P G)
  obtain ⟨h₈, hrun₈, hp₈⟩ := hp₇.slot X
  refine ⟨h₈, ?_, hp₈.close (addr_join ..) ?_ ?_⟩
  · rw [Misc.rotateTwice, hrun₁, ok_bind, hrun₂, ok_bind, hrun₃, ok_bind]
    subst hnear hfar
    cases side <;> simp only [pick, Side.other] at hrun₄ hrun₅ hrun₆ hrun₇ <;>
      simp [hp_r, setNodePtr_child, hrun₄, hrun₅, hrun₆, hrun₇, ok_bind, hrun₈]
  · simp [inMem_join, hp₈.mem_first, hp₈.mem_second, hp₈.mem_third, hp₈.tree]
  · intro a
    simp [occPieces]
    omega

end Represent

end SafeLibc.Misc
