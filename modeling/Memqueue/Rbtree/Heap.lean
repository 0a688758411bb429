import Memqueue.Lib.Rebalancing

/-! rbtree.c on pointers: the node fields as maps from addresses, every dereference of NULL a `none`.
The code for the left side and its mirror image are one function of the side. -/
namespace Memqueue

/-- The fields of every struct rb_node by address, and the rb_node of the struct rb_root. -/
structure RbHeap (α : Type) where
  root : Option α
  parent : α → Option α
  red : α → Bool
  child : α → Side → Option α

namespace RbHeap
variable {α : Type} [DecidableEq α]

def setRoot (h : RbHeap α) (q : Option α) : RbHeap α := { h with root := q }

/-- rb_set_parent keeps the colour. -/
def setParent (h : RbHeap α) (a : α) (q : Option α) : RbHeap α := { h with parent := Function.update h.parent a q }

/-- rb_set_red, rb_set_black and rb_set_color keep the parent. -/
def setRed (h : RbHeap α) (a : α) (c : Bool) : RbHeap α := { h with red := Function.update h.red a c }

def setChild (h : RbHeap α) (a : α) (s : Side) (q : Option α) : RbHeap α :=
  { h with child := Function.update h.child a (Function.update (h.child a) s q) }

section Fields
variable (h : RbHeap α) (a b : α) (s : Side) (c : Bool) (q : Option α)

@[simp] theorem setParent_root : (h.setParent a q).root = h.root := rfl

@[simp] theorem setParent_red : (h.setParent a q).red = h.red := rfl

@[simp] theorem setParent_child : (h.setParent a q).child = h.child := rfl

@[simp] theorem setParent_parent : (h.setParent a q).parent b = if b = a then q else h.parent b :=
  Function.update_apply ..

@[simp] theorem setRed_root : (h.setRed a c).root = h.root := rfl

@[simp] theorem setRed_parent : (h.setRed a c).parent = h.parent := rfl

@[simp] theorem setRed_child : (h.setRed a c).child = h.child := rfl

@[simp] theorem setRed_red : (h.setRed a c).red b = if b = a then c else h.red b := Function.update_apply ..

@[simp] theorem setChild_root : (h.setChild a s q).root = h.root := rfl

@[simp] theorem setChild_parent : (h.setChild a s q).parent = h.parent := rfl

@[simp] theorem setChild_red : (h.setChild a s q).red = h.red := rfl

@[simp] theorem setChild_self : (h.setChild a s q).child a s = q := by simp [setChild]

@[simp] theorem setChild_other : (h.setChild a s q).child a s.other = h.child a s.other := by simp [setChild]

variable {a b}

theorem setChild_of_ne (hne : b ≠ a) : (h.setChild a s q).child b = h.child b := Function.update_of_ne hne _ _

end Fields

/-- A NULL child is left alone. -/
def adopt (h : RbHeap α) (child : Option α) (q : Option α) : RbHeap α :=
  match child with
  | some a => h.setParent a q
  | none => h

/-- NULL or black. -/
def isBlack (h : RbHeap α) : Option α → Bool
  | some a => !h.red a
  | none => true

/-- rb_set_black, unless the pointer is NULL. -/
def paintBlack (h : RbHeap α) : Option α → RbHeap α
  | some a => h.setRed a false
  | none => h

/-- The link of `parent` to `old`, or the root when there is no parent, is made to point at `new`. -/
def relink (h : RbHeap α) (s : Side) (parent : Option α) (old : α) (new : Option α) : RbHeap α :=
  match parent with
  | some q => if h.child q s = some old then h.setChild q s new else h.setChild q s.other new
  | none => h.setRoot new

/-- The links between `node` and the child `right` that goes up, before the link from above is changed. -/
def rotateInner (s : Side) (h : RbHeap α) (node right : α) : RbHeap α :=
  let parent := h.parent node
  let inner := h.child right s
  let h := (h.setChild node s.other inner).adopt inner (some node)
  (h.setChild right s (some node)).setParent right parent

/-- __rb_rotate_left for the left side, __rb_rotate_right for the right one. -/
def rbRotate (s : Side) (h : RbHeap α) (node : α) : Option (RbHeap α) :=
  (h.child node s.other).map fun right =>
    ((h.rotateInner s node right).relink s (h.parent node) node (some right)).setParent node (some right)

/-- The turns of the loop of rb_insert_color after which it is over, the grandparent's child `parent` on side `s`. -/
def rbInsertTurn (s : Side) (h : RbHeap α) (node parent gparent : α) : Option (RbHeap α × α) := do
  let (h,node,parent) ←
    if h.child parent s.other = some node then (rbRotate s h parent).map (fun h => (h,parent,node))
    else some (h,node,parent)
  let h ← rbRotate s.other ((h.setRed parent false).setRed gparent true) gparent
  pure (h,node)

def rbInsertColorLoop : Nat → RbHeap α → α → Option (RbHeap α)
  | 0, _, _ => none
  | fuel + 1, h, node =>
    match h.parent node with
    | none => some h
    | some parent =>
      if h.red parent then do
        let gparent ← h.parent parent
        let s := if h.child gparent .left = some parent then Side.left else .right
        let uncle := h.child gparent s.other
        if h.isBlack uncle then do
          let (h,node) ← rbInsertTurn s h node parent gparent
          rbInsertColorLoop fuel h node
        else
          rbInsertColorLoop fuel (((h.paintBlack uncle).setRed parent false).setRed gparent true) gparent
      else some h

def rbInsertColor (fuel : Nat) (h : RbHeap α) (node : α) : Option (RbHeap α) := do
  let h ← rbInsertColorLoop fuel h node
  let root ← h.root
  pure (h.setRed root false)

/-- A red sibling is turned up above the parent; `other` is the sibling then. -/
def rbEraseTurn (s : Side) (h : RbHeap α) (parent : α) : Option (RbHeap α × α) := do
  let other ← h.child parent s.other
  if h.red other then do
    let h ← rbRotate s ((h.setRed other false).setRed parent true) parent
    let other ← h.child parent s.other
    pure (h,other)
  else pure (h,other)

/-- The rotation that ends the loop of __rb_erase_color, with a red far child below the sibling `other`. -/
def rbEraseLast (s : Side) (h : RbHeap α) (parent other : α) : Option (RbHeap α) := do
  let h := (h.setRed other (h.red parent)).setRed parent false
  let far ← h.child other s.other
  let h ← rbRotate s (h.setRed far false) parent
  pure (h.paintBlack h.root)

/-- The turns that end the loop, with a red child below the sibling on either side. -/
def rbEraseEnd (s : Side) (h : RbHeap α) (parent other : α) : Option (RbHeap α) :=
  if h.isBlack (h.child other s.other) then do
    let near ← h.child other s
    let h ← rbRotate s.other ((h.setRed near false).setRed other true) other
    let other ← h.child parent s.other
    rbEraseLast s h parent other
  else rbEraseLast s h parent other

def rbEraseColor : Nat → RbHeap α → Option α → Option α → Option (RbHeap α)
  | 0, _, _, _ => none
  | fuel + 1, h, node, parent =>
    if h.isBlack node ∧ node ≠ h.root then do
      let parent ← parent
      let s := if h.child parent .left = node then Side.left else .right
      let (h,other) ← rbEraseTurn s h parent
      if h.isBlack (h.child other .left) && h.isBlack (h.child other .right) then
        rbEraseColor fuel (h.setRed other true) (some parent) (h.parent parent)
      else rbEraseEnd s h parent other
    else some (h.paintBlack node)

/-- The walk down to the leftmost node. -/
def leftmostFrom : Nat → RbHeap α → α → Option α
  | 0, _, _ => none
  | fuel + 1, h, node =>
    match h.child node .left with
    | some left => leftmostFrom fuel h left
    | none => some node

/-- The successor leaves its place to its right child and takes over the right subtree of the node erased. -/
def cutOut (h : RbHeap α) (node parent : α) (child : Option α) (right : α) : RbHeap α :=
  let h := (h.adopt child (some parent)).setChild parent .left child
  (h.setChild node .right (some right)).setParent right (some node)

/-- The successor takes over the parent, the colour and the left subtree of the node erased. -/
def standIn (h : RbHeap α) (old node left : α) : RbHeap α :=
  let h := (h.setParent node (h.parent old)).setRed node (h.red old)
  (h.setChild node .left (some left)).setParent left (some node)

/-- The successor `node` of `old` is put in the place of `old`. Also given back are the child and the
parent at the place it left, and its colour. -/
def rbTakePlace (h : RbHeap α) (old node : α) : Option (RbHeap α × Option α × α × Bool) := do
  let h := h.relink .left (h.parent old) old (some node)
  let child := h.child node .right
  let parent ← h.parent node
  let color := h.red node
  let (h,parent) ←
    if parent = old then some (h,node)
    else (h.child old .right).map fun right => (h.cutOut node parent child right,parent)
  let left ← h.child old .left
  pure (h.standIn old node left,child,parent,color)

/-- The part of rb_erase for a node with two children. -/
def rbEraseTwo (fuel : Nat) (h : RbHeap α) (old right : α) : Option (RbHeap α) := do
  let node ← leftmostFrom fuel h right
  let (h,child,parent,color) ← rbTakePlace h old node
  if color then pure h else rbEraseColor fuel h child (some parent)

/-- The part of rb_erase for a node with at most one child. -/
def rbEraseOne (fuel : Nat) (h : RbHeap α) (node : α) (child : Option α) : Option (RbHeap α) :=
  let parent := h.parent node
  let color := h.red node
  let h := (h.adopt child parent).relink .left parent node child
  if color then some h else rbEraseColor fuel h child parent

def rbErase (fuel : Nat) (h : RbHeap α) (node : α) : Option (RbHeap α) :=
  match h.child node .left with
  | none => rbEraseOne fuel h node (h.child node .right)
  | some l =>
    match h.child node .right with
    | none => rbEraseOne fuel h node (some l)
    | some right => rbEraseTwo fuel h node right

/-- The copy at the end takes over the victim's links and colour. -/
def rbReplaceNode (h : RbHeap α) (victim new : α) : RbHeap α :=
  let h := h.relink .left (h.parent victim) victim (some new)
  let h := h.adopt (h.child victim .left) (some new)
  let h := h.adopt (h.child victim .right) (some new)
  { h with
    parent := Function.update h.parent new (h.parent victim)
    red := Function.update h.red new (h.red victim)
    child := Function.update h.child new (h.child victim) }

/-- rb_link_node, with the link given as a node and its side, or the root. -/
def rbLinkNode (h : RbHeap α) (node : α) (parent : Option α) (link : Option (α × Side)) : RbHeap α :=
  let h := (h.setParent node parent).setRed node true
  let h := (h.setChild node .left none).setChild node .right none
  match link with
  | some (q,s) => h.setChild q s (some node)
  | none => h.setRoot (some node)

end RbHeap
end Memqueue
