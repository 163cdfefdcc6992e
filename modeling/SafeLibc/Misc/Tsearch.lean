import SafeLibc.Lib.RedBlack

/-!
# `tsearch`, `tfind` and `tdelete`

Model of `misc/tsearch.c` as it is compiled, with the colour of a node in the low bit of its left
pointer (`USE_MALLOC_LOW_BIT`). Nodes live in a heap of addresses, and a `node *` is the place of a
pointer: the caller's root variable or the left or right pointer of a node. Every access is checked:
one through a null pointer, to an address where no node lives, or past the end of `nodestack` ends
the run with a `Fault`. Loops take fuel, and running out of it is a fault too.

The mirrored halves of the loop of `tdelete` are one definition with the side as a parameter. What
`malloc` answers, and what it left in the memory, are parameters of `tsearch`.
-/

namespace SafeLibc.Misc

open SafeLibc.Lib (Side)

/-- A `node`: an address whose low bit is clear. -/
structure Ptr where
  word : UInt64
  aligned : word &&& 1 = 0
  deriving DecidableEq

def Ptr.NULL : Ptr := ⟨0, by decide⟩

theorem mask_aligned (w : UInt64) : w &&& ~~~1 &&& 1 = 0 := by
  rw [UInt64.and_assoc]
  have hone : (~~~1 &&& 1 : UInt64) = 0 := by decide
  rw [hone, UInt64.and_zero]

/-- `struct node_t`. The right pointer has no flag in it. -/
structure Node (K : Type) where
  key : K
  leftNode : UInt64
  rightNode : Ptr

namespace Node

variable {K : Type}

def red (n : Node K) : Bool := n.leftNode &&& 1 != 0

def setRed (n : Node K) : Node K := { n with leftNode := n.leftNode ||| 1 }

def setBlack (n : Node K) : Node K := { n with leftNode := n.leftNode &&& ~~~1 }

/-- `LEFT(N)` and `RIGHT(N)`. -/
def child (s : Side) (n : Node K) : Ptr :=
  match s with
  | .left => ⟨n.leftNode &&& ~~~1, mask_aligned n.leftNode⟩
  | .right => n.rightNode

/-- `SETLEFT(N,P)` and `SETRIGHT(N,P)`. -/
def setChild (s : Side) (p : Ptr) (n : Node K) : Node K :=
  match s with
  | .left => { n with leftNode := (n.leftNode &&& 1) ||| p.word }
  | .right => { n with rightNode := p }

end Node

def sideOf (r : Int) : Side := if r < 0 then .left else .right

/-- A non-null `node *`: the caller's root pointer, `LEFTPTR(N)` or `RIGHTPTR(N)`. -/
inductive Slot
  | root
  | child (s : Side) (a : Ptr)
  deriving DecidableEq

inductive Fault
  | unmapped
  | nullPointer
  | nodestack
  | fuel
  deriving DecidableEq, Repr

structure Heap (K : Type) where
  root : Ptr
  mem : Ptr → Option (Node K)

namespace Heap

variable {K : Type}

def empty : Heap K := ⟨.NULL, fun _ => none⟩

def node (h : Heap K) (a : Ptr) : Except Fault (Node K) :=
  match h.mem a with
  | some n => .ok n
  | none => .error .unmapped

def set (h : Heap K) (a : Ptr) (n : Node K) : Heap K :=
  { h with mem := Function.update h.mem a (some n) }

def modify (h : Heap K) (a : Ptr) (f : Node K → Node K) : Except Fault (Heap K) := do
  let n ← h.node a
  return h.set a (f n)

def free (h : Heap K) (a : Ptr) : Heap K := { h with mem := Function.update h.mem a none }

/-- `DEREFNODEPTR(NP)`. -/
def deref (h : Heap K) : Slot → Except Fault Ptr
  | .root => return h.root
  | .child s a => do
    let n ← h.node a
    return n.child s

/-- `SETNODEPTR(NP,P)`, which keeps the low bit of the place: the colour of the node in a left
pointer. -/
def setNodePtr (h : Heap K) (p : Ptr) : Slot → Except Fault (Heap K)
  | .root => return { h with root := p }
  | .child s a => h.modify a (.setChild s p)

/-- `a != NULL && RED(a)`. -/
def redAt (h : Heap K) (a : Ptr) : Except Fault Bool :=
  if a = .NULL then return false
  else do
    let n ← h.node a
    return n.red

def blackenAt (h : Heap K) (a : Ptr) : Except Fault (Heap K) :=
  if a = .NULL then return h else h.modify a .setBlack

end Heap

section Insert

variable {K : Type}

def mustSplit (h : Heap K) (rpn lpn : Ptr) (mode : Nat) : Except Fault Bool :=
  if mode = 1 then return true
  else if rpn = .NULL ∨ lpn = .NULL then return false
  else do
    let rnode ← h.node rpn
    if rnode.red then
      let lnode ← h.node lpn
      return lnode.red
    else return false

/-- The red edges differ in type: the child goes to the top, over its parent and grandparent. -/
def rotateTwice (h : Heap K) (root p gp rpn lpn : Ptr) (gparentp : Slot) (p_r : Int) :
    Except Fault (Heap K) := do
  let h ← h.modify p .setRed
  let h ← h.modify gp .setRed
  let h ← h.modify root .setBlack
  if p_r < 0 then
    -- Child is left of parent.
    let h ← h.modify p (.setChild .left rpn)
    let h ← h.setNodePtr p (.child .right root)
    let h ← h.modify gp (.setChild .right lpn)
    let h ← h.setNodePtr gp (.child .left root)
    h.setNodePtr root gparentp
  else
    -- Child is right of parent.
    let h ← h.modify p (.setChild .right lpn)
    let h ← h.setNodePtr p (.child .left root)
    let h ← h.modify gp (.setChild .left rpn)
    let h ← h.setNodePtr gp (.child .right root)
    h.setNodePtr root gparentp

/-- Both red edges are of the same type: the parent goes to the top, over grandparent and child. -/
def rotateOnce (h : Heap K) (p gp : Ptr) (gparentp : Slot) (p_r : Int) : Except Fault (Heap K) := do
  let h ← h.setNodePtr p gparentp
  let h ← h.modify p .setBlack
  let h ← h.modify gp .setRed
  let pn ← h.node p
  if p_r < 0 then
    -- Left edges.
    let h ← h.modify gp (.setChild .left (pn.child .right))
    h.modify p (.setChild .right gp)
  else
    -- Right edges.
    let h ← h.modify gp (.setChild .right (pn.child .left))
    h.modify p (.setChild .left gp)

/-- If the parent of the node that became red is also red, we have to do rotations. -/
def rotateIfRed (h : Heap K) (root rpn lpn : Ptr) (parentp gparentp : Option Slot)
    (p_r gp_r : Int) : Except Fault (Heap K) :=
  match parentp with
  | none => return h
  | some parentp => do
    let p ← h.deref parentp
    let pn ← h.node p
    if pn.red then
      match gparentp with
      | none => throw .nullPointer
      | some gparentp =>
        let gp ← h.deref gparentp
        if (decide (p_r > 0)) != (decide (gp_r > 0)) then
          rotateTwice h root p gp rpn lpn gparentp p_r
        else rotateOnce h p gp gparentp p_r
    else return h

def maybeSplitForInsert (h : Heap K) (rootp : Slot)
    (parentp gparentp : Option Slot) (p_r gp_r : Int) (mode : Nat) : Except Fault (Heap K) := do
  let root ← h.deref rootp
  let n ← h.node root
  let rpn := n.child .right
  let lpn := n.child .left
  -- See if we have to split this node (both successors red).
  if ← mustSplit h rpn lpn mode then
    -- This node becomes red, its successors black.
    let h ← h.modify root .setRed
    let h ← h.blackenAt rpn
    let h ← h.blackenAt lpn
    rotateIfRed h root rpn lpn parentp gparentp p_r gp_r
  else return h

structure Walk where
  rootp : Slot
  nextp : Slot
  parentp : Option Slot
  gparentp : Option Slot
  r : Int
  p_r : Int
  gp_r : Int

variable (compar : K → K → Int)

/-- The loop of `tsearch`: it returns the node with an equal key, or the variables at its end. -/
def tsearchLoop (key : K) : Nat → Walk → Heap K → Except Fault (Heap K × (Ptr ⊕ Walk))
  | 0, _, _ => throw .fuel
  | fuel + 1, w, h => do
    if (← h.deref w.nextp) = .NULL then return (h, .inr w)
    else
      let root ← h.deref w.rootp
      let n ← h.node root
      let r := compar key n.key
      if r = 0 then return (h, .inl root)
      else
        let h ← maybeSplitForInsert h w.rootp w.parentp w.gparentp w.p_r w.gp_r 0
        let nextp : Slot := .child (sideOf r) root
        if (← h.deref nextp) = .NULL then return (h, .inr { w with nextp := nextp, r := r })
        else
          tsearchLoop key fuel
            { rootp := nextp, nextp := nextp, parentp := some w.rootp, gparentp := w.parentp,
              r := r, p_r := r, gp_r := w.p_r } h

/-- Link the new node `q` to the old ones and initialize it. `junk` is what was in its memory. -/
def linkNew (key : K) (q : Ptr) (junk : Node K) (w : Walk) (h : Heap K) :
    Except Fault (Heap K) := do
  let h := h.set q junk
  let h ← h.setNodePtr q w.nextp
  let h ← h.modify q ({ · with key := key })
  let h ← h.modify q .setRed
  let h ← h.modify q (.setChild .left .NULL)
  let h ← h.modify q (.setChild .right .NULL)
  if w.nextp ≠ w.rootp then
    -- There may be two red edges in a row now, which we must avoid by rotating the tree.
    maybeSplitForInsert h w.nextp (some w.rootp) w.parentp w.r w.p_r 1
  else return h

/-- `q` is what `malloc` answers. -/
def tsearch (fuel : Nat) (key : K) (q : Ptr) (junk : Node K) (vrootp : Option Slot) (h : Heap K) :
    Except Fault (Heap K × Ptr) :=
  match vrootp with
  | none => return (h, .NULL)
  | some rootp => do
    let root ← h.deref rootp
    let h ← h.blackenAt root
    let (h, found) ← tsearchLoop compar key fuel
      { rootp := rootp, nextp := rootp, parentp := none, gparentp := none, r := 0, p_r := 0,
        gp_r := 0 } h
    match found with
    | .inl root => return (h, root)
    | .inr w =>
      if q = .NULL then return (h, q)
      else return (← linkNew key q junk w h, q)

def tfindLoop (key : K) (h : Heap K) : Nat → Slot → Except Fault Ptr
  | 0, _ => throw .fuel
  | fuel + 1, rootp => do
    let root ← h.deref rootp
    if root = .NULL then return .NULL
    else
      let n ← h.node root
      let r := compar key n.key
      if r = 0 then return root
      else tfindLoop key h fuel (.child (sideOf r) root)

def tfind (fuel : Nat) (key : K) (vrootp : Option Slot) (h : Heap K) : Except Fault Ptr :=
  match vrootp with
  | none => return .NULL
  | some rootp => tfindLoop compar key h fuel rootp

end Insert

/-! ## Deletion -/

/-- `nodestack` with room for `stacksize` entries, the last one first. `sp` is their number. -/
structure NodeStack where
  stacksize : Nat
  slots : List Slot

/-- The `alloca` of a larger array when this one is full. -/
def NodeStack.grow (stack : NodeStack) : NodeStack :=
  if stack.slots.length = stack.stacksize then { stack with stacksize := stack.stacksize + 20 }
  else stack

/-- `nodestack[sp++] = slot`. -/
def NodeStack.store (stack : NodeStack) (slot : Slot) : Except Fault NodeStack :=
  if stack.slots.length < stack.stacksize then return { stack with slots := slot :: stack.slots }
  else throw .nodestack

section Delete

variable {K : Type} (compar : K → K → Int)

/-- The search for the node to delete: its place, its parent and the places of its ancestors. -/
def seek (key : K) (h : Heap K) :
    Nat → Slot → Ptr → Ptr → NodeStack → Except Fault (Option (Slot × Ptr × NodeStack))
  | 0, _, _, _, _ => throw .fuel
  | fuel + 1, rootp, root, p, stack => do
    let n ← h.node root
    let cmp := compar key n.key
    if cmp = 0 then return some (rootp, p, stack)
    else
      let stack ← stack.grow.store rootp
      let p ← h.deref rootp
      let pn ← h.node p
      let s := sideOf cmp
      if pn.child s = .NULL then return none
      else seek key h fuel (.child s p) (pn.child s) p stack

/-- The search for the successor: its place, and the places of its ancestors. -/
def seekNext (h : Heap K) : Nat → Slot → Slot → NodeStack → Except Fault (Slot × NodeStack)
  | 0, _, _, _ => throw .fuel
  | fuel + 1, parentp, up, stack => do
    let stack ← stack.grow.store parentp
    let upn ← h.deref up
    let n ← h.node upn
    if n.child .left = .NULL then return (up, stack)
    else seekNext h fuel up (.child .left upn) stack

/-- `q` is `r`'s brother on side `s.other` and red. Rotate `p` so that `q` becomes the top node. -/
def raiseBrother (h : Heap K) (s : Side) (pp : Slot) (p q : Ptr) : Except Fault (Heap K) := do
  let h ← h.modify q .setBlack
  let h ← h.modify p .setRed
  let qn ← h.node q
  let h ← h.modify p (.setChild s.other (qn.child s))
  let h ← h.modify q (.setChild s p)
  h.setNodePtr q pp

/-- `SETRED(a)` or `SETBLACK(a)`, as `p` is. -/
def copyColour (h : Heap K) (p a : Ptr) : Except Fault (Heap K) := do
  let pn ← h.node p
  h.modify a (if pn.red then .setRed else .setBlack)

/-- Only the brother's successor on `r`'s side is red: it becomes the top of the subtree. -/
def raiseNear (h : Heap K) (s : Side) (pp : Slot) (p q : Ptr) : Except Fault (Heap K) := do
  let qn ← h.node q
  let q2 := qn.child s
  let h ← copyColour h p q2
  let q2n ← h.node q2
  let h ← h.modify p (.setChild s.other (q2n.child s))
  let h ← h.modify q (.setChild s (q2n.child s.other))
  let h ← h.modify q2 (.setChild s.other q)
  let h ← h.modify q2 (.setChild s p)
  let h ← h.setNodePtr q2 pp
  h.modify p .setBlack

/-- The brother's other successor is red: rotate `p`. -/
def raiseFar (h : Heap K) (s : Side) (pp : Slot) (p q : Ptr) : Except Fault (Heap K) := do
  let h ← copyColour h p q
  let h ← h.modify p .setBlack
  let qn ← h.node q
  let h ← h.modify (qn.child s.other) .setBlack
  let qn ← h.node q
  let h ← h.modify p (.setChild s.other (qn.child s))
  let h ← h.modify q (.setChild s p)
  h.setNodePtr q pp

/-- The brother `q` is black: colour it red, or repair the tree. The result tells whether the
repair is done. -/
def balanceBrother (h : Heap K) (s : Side) (pp : Slot) (p q : Ptr) :
    Except Fault (Heap K × Bool) := do
  let qn ← h.node q
  let far := h.redAt (qn.child s.other)
  if ← (if ← h.redAt (qn.child s) then return false else return !(← far)) then
    return (← h.modify q .setRed, false)
  else if !(← far) then return (← raiseNear h s pp p q, true)
  else return (← raiseFar h s pp p q, true)

/-- The loop of `tdelete` that moves up from `r`, below which a black edge is missing. -/
def balanceLoop : Nat → NodeStack → Ptr → Heap K → Except Fault (Heap K × Ptr)
  | 0, _, _, _ => throw .fuel
  | fuel + 1, stack, r, h => do
    match stack.slots with
    | [] => return (h, r)
    | pp :: below =>
      if ← h.redAt r then return (h, r)
      else
        let p ← h.deref pp
        let pn ← h.node p
        let s : Side := if r = pn.child .left then .left else .right
        let q := pn.child s.other
        let qn ← h.node q
        if qn.red then
          let h ← raiseBrother h s pp p q
          let stack ← stack.store (.child s q)
          let pn ← h.node p
          let (h, done) ← balanceBrother h s (.child s q) p (pn.child s.other)
          if done then return (h, .NULL)
          else balanceLoop fuel { stack with slots := pp :: below } p h
        else
          let (h, done) ← balanceBrother h s pp p q
          if done then return (h, .NULL)
          else balanceLoop fuel { stack with slots := below } p h

def chainInto (rootp : Slot) (slots : List Slot) (unchained r : Ptr) (h : Heap K) :
    Except Fault (Heap K) :=
  match slots with
  | [] => h.setNodePtr r rootp
  | pp :: _ => do
    let q ← h.deref pp
    let qn ← h.node q
    if unchained = qn.child .right then h.modify q (.setChild .right r)
    else h.modify q (.setChild .left r)

/-- If a black edge was lost balance the tree, and free the node. -/
def balanceAndFree (fuel : Nat) (stack : NodeStack) (unchained r : Ptr) (h : Heap K) :
    Except Fault (Heap K) := do
  let un ← h.node unchained
  if un.red then return h.free unchained
  else
    let (h, r) ← balanceLoop fuel stack r h
    let h ← h.blackenAt r
    return h.free unchained

/-- Unchain a node of which the left or the right successor is NULL, and give its key to `root`. -/
def unchain (fuel : Nat) (rootp : Slot) (root unchained : Ptr) (stack : NodeStack) (h : Heap K) :
    Except Fault (Heap K) := do
  let un ← h.node unchained
  let r := if un.child .left = .NULL then un.child .right else un.child .left
  let h ← chainInto rootp stack.slots unchained r h
  if unchained ≠ root then
    let un ← h.node unchained
    let h ← h.modify root ({ · with key := un.key })
    balanceAndFree fuel stack unchained r h
  else balanceAndFree fuel stack unchained r h

/-- Delete the node in this place. We don't unchain the node we want to delete. Instead, we
overwrite it with its successor and unchain the successor. If there is no successor, we really
unchain the node to be deleted. -/
def deleteAt (fuel : Nat) (rootp : Slot) (stack : NodeStack) (h : Heap K) :
    Except Fault (Heap K) := do
  let root ← h.deref rootp
  let n ← h.node root
  if n.child .left = .NULL ∨ n.child .right = .NULL then unchain fuel rootp root root stack h
  else
    let (up, stack) ← seekNext h fuel rootp (.child .right root) stack
    let unchained ← h.deref up
    unchain fuel rootp root unchained stack h

def tdelete (fuel : Nat) (key : K) (vrootp : Option Slot) (h : Heap K) :
    Except Fault (Heap K × Ptr) :=
  match vrootp with
  | none => return (h, .NULL)
  | some rootp => do
    let p ← h.deref rootp
    if p = .NULL then return (h, .NULL)
    else
      match ← seek compar key h fuel rootp p p ⟨40, []⟩ with
      | none => return (h, .NULL)
      | some (rootp, retval, stack) => return (← deleteAt fuel rootp stack h, retval)

end Delete

end SafeLibc.Misc
