import Kalisto.Include
import Kalisto.Lib.Outcome
import Kalisto.Lib.ColoredTree

/-!
# The red-black tree of `adt/rbtree.c`

The nodes are records with a colour and three pointers, kept in a map from node names to records;
`NULL` is `none`.  The functions follow `adt/rbtree.c` statement by statement, in the monad
`Outcome Fault`: a `NULL` that is dereferenced is the fault `nullDeref`, a failed `assert` is the
fault `assertion`, and the loops run for at most `fuel` iterations.

`__rbtree_rotate_left` and `__rbtree_rotate_right` are one function that takes the side to rotate
towards.  The two rebalancing loops are given by one iteration each (`insertStep`, `deleteStep`),
with the branches of the deletion as functions of their own.
-/

namespace Kalisto

/-- `struct rbnode`. -/
structure Rbnode (α : Type) where
  color : Color
  left : Option α
  right : Option α
  parent : Option α
  deriving DecidableEq

/-- `struct rbtree`, together with the memory of all nodes, those of the tree and all others. -/
structure Rbtree (α : Type) where
  root : Option α
  node : α → Rbnode α

/-- A value of type `struct rbnode **`: where a pointer to a node is stored. -/
inductive ChildLink (α : Type) where
  | root
  | left (x : α)
  | right (x : α)

/-- Dereferencing a pointer. -/
def deref {β : Type} : Option β → Outcome Fault β
  | some x => .ok x
  | none => .fault .nullDeref

/-- `assert (expr)`. -/
def assert (b : Bool) : Outcome Fault Unit := if b then .ok () else .fault .assertion

/-- The child link of a node on one side. -/
def Rbnode.child {α : Type} (n : Rbnode α) : Side → Option α
  | .left => n.left
  | .right => n.right

/-- The record with the child link on one side replaced. -/
def Rbnode.withChild {α : Type} (n : Rbnode α) (s : Side) (v : Option α) : Rbnode α :=
  match s with
  | .left => { n with left := v }
  | .right => { n with right := v }

namespace Rbtree

variable {α : Type} [DecidableEq α]

/-! ### Reading and writing nodes -/

/-- `rbtree_is_red (node)`. -/
def isRed (t : Rbtree α) : Option α → Bool
  | some x => (t.node x).color == .red
  | none => false

/-- `rbtree_is_black (node)`. -/
def isBlack (t : Rbtree α) : Option α → Bool
  | some x => (t.node x).color == .black
  | none => true

/-- Store a record. -/
def setNode (t : Rbtree α) (x : α) (n : Rbnode α) : Rbtree α :=
  { t with node := Function.update t.node x n }

/-- `x->color = c`. -/
def setColor (t : Rbtree α) (x : α) (c : Color) : Rbtree α :=
  t.setNode x { t.node x with color := c }

/-- `x->parent = v`. -/
def setParent (t : Rbtree α) (x : α) (v : Option α) : Rbtree α :=
  t.setNode x { t.node x with parent := v }

/-- `x->left = v` or `x->right = v`. -/
def setChild (t : Rbtree α) (x : α) (s : Side) (v : Option α) : Rbtree α :=
  t.setNode x ((t.node x).withChild s v)

/-- `*clinkp = v`. -/
def setLink (t : Rbtree α) (link : ChildLink α) (v : Option α) : Rbtree α :=
  match link with
  | .root => { t with root := v }
  | .left x => t.setChild x .left v
  | .right x => t.setChild x .right v

/-! ### Moving links -/

/-- `if (rbtree_is_node (child)) child->parent = parent`. -/
def adopt (t : Rbtree α) (child parent : Option α) : Rbtree α :=
  match child with
  | some c => t.setParent c parent
  | none => t

/-- `__rbtree_move_parent`: the new tree and the parent. -/
def moveParent (t : Rbtree α) (old : α) (new : Option α) : Rbtree α × Option α :=
  let parent := (t.node old).parent
  let t := t.adopt new parent
  let t := match parent with
    | some p =>
      if some old = (t.node p).left then t.setChild p .left new else t.setChild p .right new
    | none => { t with root := new }
  (t, parent)

/-- `__rbtree_move_children`. -/
def moveChildren (t : Rbtree α) (old : α) (new : Option α) : Rbtree α :=
  let t := match new with
    | some n =>
      let t := t.setChild n .left (t.node old).left
      t.setChild n .right (t.node old).right
    | none => t
  let t := t.adopt (t.node old).left new
  t.adopt (t.node old).right new

/-- `__rbtree_replace`. -/
def replace (t : Rbtree α) (old : α) (new : Option α) : Rbtree α :=
  let t := match new with
    | some n => t.setColor n (t.node old).color
    | none => t
  let t := t.moveChildren old new
  (t.moveParent old new).1

/-! ### Rotations -/

/-- A rotation around `pivot` towards side `s`: its child on the other side takes its place. -/
def rotateToward (t : Rbtree α) (s : Side) (pivot : α) : Outcome Fault (Rbtree α) := do
  let child ← deref ((t.node pivot).child s.flip)
  let t := t.setChild pivot s.flip ((t.node child).child s)
  let t := t.setChild child s (some pivot)
  let t := t.adopt ((t.node pivot).child s.flip) (some pivot)
  let t := (t.moveParent pivot (some child)).1
  return t.setParent pivot (some child)

/-- `__rbtree_rotate_left`. -/
def rotateLeft (t : Rbtree α) (pivot : α) : Outcome Fault (Rbtree α) := t.rotateToward .left pivot

/-- `__rbtree_rotate_right`. -/
def rotateRight (t : Rbtree α) (pivot : α) : Outcome Fault (Rbtree α) := t.rotateToward .right pivot

/-- `__rbtree_rotate`. -/
def rotate (t : Rbtree α) (pivot : α) (left : Bool) : Outcome Fault (Rbtree α) :=
  if left then t.rotateLeft pivot else t.rotateRight pivot

/-! ### Insertion -/

/-- The rotations at the end of an iteration of `__rbtree_rebalance_insert`: the tree and the
node the loop goes on with. -/
def insertRotate (t : Rbtree α) (node parent gparent : α) :
    Outcome Fault (Rbtree α × α) := do
  let nleft := decide ((t.node parent).left = some node)
  let pleft := decide ((t.node gparent).left = some parent)
  let (t, node, parent) ←
    if nleft != pleft then do
      let t ← t.rotate parent pleft
      let parent' ← deref (t.node parent).parent
      pure (t, parent, parent')
    else pure (t, node, parent)
  let t ← t.rotate gparent !pleft
  let t := t.setColor gparent .red
  let t := t.setColor parent .black
  return (t, node)

/-- One iteration of the loop of `__rbtree_rebalance_insert`. -/
def insertStep (st : Rbtree α × α) : Outcome Fault ((Rbtree α × α) ⊕ Rbtree α) := do
  let (t, node) := st
  if t.isRed (t.node node).parent then
    let parent ← deref (t.node node).parent
    let gparent ← deref (t.node parent).parent
    let uncle := if (t.node gparent).left = some parent then (t.node gparent).right
      else (t.node gparent).left
    if t.isRed uncle then
      let u ← deref uncle
      let t := t.setColor u .black
      let t := t.setColor parent .black
      let t := t.setColor gparent .red
      return .inl (t, gparent)
    else
      let r ← t.insertRotate node parent gparent
      return .inl r
  else return .inr t

/-- `__rbtree_rebalance_insert`. -/
def rebalanceInsert (fuel : ℕ) (t : Rbtree α) (node : α) : Outcome Fault (Rbtree α) := do
  let t ← Outcome.loop insertStep fuel (t, node)
  let root ← deref t.root
  return t.setColor root .black

/-- `__rbtree_insert`. -/
def insert (fuel : ℕ) (t : Rbtree α) (node : α) (parent : Option α) (clinkp : ChildLink α) :
    Outcome Fault (Rbtree α) :=
  let t := t.setNode node ⟨.red, none, none, parent⟩
  let t := t.setLink clinkp (some node)
  t.rebalanceInsert fuel node

/-- `rbtree_insert`. -/
def rbtreeInsert (fuel : ℕ) (t : Rbtree α) (node parent : Option α)
    (clinkp : Option (ChildLink α)) : Outcome Fault (Rbtree α) := do
  assert clinkp.isSome
  assert node.isSome
  let clinkp ← deref clinkp
  let node ← deref node
  t.insert fuel node parent clinkp

/-! ### Deletion -/

/-- `__rbtree_first`. -/
def first (fuel : ℕ) (t : Rbtree α) (root : α) : Outcome Fault α :=
  Outcome.loop (fun x => .ok (match (t.node x).left with
    | some l => .inl l
    | none => .inr x)) fuel root

/-- `rbtree_first`. -/
def rbtreeFirst (fuel : ℕ) (t : Rbtree α) (root : Option α) : Outcome Fault α := do
  assert root.isSome
  let root ← deref root
  t.first fuel root

/-- The rotation of `__rbtree_rebalance_delete` that gets rid of a red sibling. -/
def deleteSibling (t : Rbtree α) (parent : α) (nleft : Bool) (sibling : Option α) :
    Outcome Fault (Rbtree α × Option α) := do
  if t.isRed sibling then
    let t ← t.rotate parent nleft
    let t := t.setColor parent .red
    let s ← deref sibling
    let t := t.setColor s .black
    return (t, if nleft then (t.node parent).right else (t.node parent).left)
  else return (t, sibling)

/-- The last rotation of `__rbtree_rebalance_delete`. -/
def deleteLast (t : Rbtree α) (parent : α) (nleft : Bool) (sibling : α) (inner : Option α) :
    Outcome Fault (Rbtree α) := do
  assert (t.isRed inner)
  let t ← t.rotate parent nleft
  let t := t.setColor sibling (t.node parent).color
  let t := t.setColor parent .black
  let i ← deref inner
  return t.setColor i .black

/-- The branch of `__rbtree_rebalance_delete` for a sibling with a red child.  The names of the two
children are the source's: `inner` is the one away from the deleted node. -/
def deleteNephews (t : Rbtree α) (parent : α) (nleft : Bool) (sibling : α) :
    Outcome Fault (Rbtree α) := do
  let inner := if nleft then (t.node sibling).right else (t.node sibling).left
  let (t, inner, sibling) ←
    if t.isBlack inner then do
      let outer := if nleft then (t.node sibling).left else (t.node sibling).right
      assert (t.isRed outer)
      let t ← t.rotate sibling !nleft
      let o ← deref outer
      let t := t.setColor o .black
      let t := t.setColor sibling .red
      pure (t, some sibling, o)
    else pure (t, inner, sibling)
  t.deleteLast parent nleft sibling inner

/-- The part of an iteration of `__rbtree_rebalance_delete` in which the sibling is black. -/
def deleteBlack (t : Rbtree α) (parent : α) (nleft : Bool) (sibling : Option α) :
    Outcome Fault ((Rbtree α × Option α × Option α) ⊕ (Rbtree α × Option α)) := do
  let sibling ← deref sibling
  if t.isBlack (t.node sibling).left && t.isBlack (t.node sibling).right then
    let t := t.setColor sibling .red
    return .inl (t, (t.node parent).parent, some parent)
  else
    let t ← t.deleteNephews parent nleft sibling
    return .inr (t, t.root)

/-- One iteration of the loop of `__rbtree_rebalance_delete`, on the tree, `parent` and `node`; the
loop leaves with the tree and the node to paint black. -/
def deleteStep (st : Rbtree α × Option α × Option α) :
    Outcome Fault ((Rbtree α × Option α × Option α) ⊕ (Rbtree α × Option α)) := do
  let (t, parent, node) := st
  if t.isBlack node && decide (node ≠ t.root) then
    let parent ← deref parent
    let nleft := decide (node = (t.node parent).left)
    let sibling := if nleft then (t.node parent).right else (t.node parent).left
    let (t, sibling) ← t.deleteSibling parent nleft sibling
    t.deleteBlack parent nleft sibling
  else return .inr (t, node)

/-- `__rbtree_rebalance_delete`. -/
def rebalanceDelete (fuel : ℕ) (t : Rbtree α) (parent node : Option α) :
    Outcome Fault (Rbtree α) := do
  let (t, node) ← Outcome.loop deleteStep fuel (t, parent, node)
  match node with
  | some x => return t.setColor x .black
  | none => return t

/-- The first half of `__rbtree_delete`: unlink the node, or the node that takes its place.  The
tree, the parent and child of the node that was really taken out, and its colour. -/
def unlink (fuel : ℕ) (t : Rbtree α) (node : α) :
    Outcome Fault (Rbtree α × Option α × Option α × Color) := do
  if ¬ ((t.node node).left.isSome ∧ (t.node node).right.isSome) then
    let child := if (t.node node).left.isSome then (t.node node).left else (t.node node).right
    let (t, parent) := t.moveParent node child
    return (t, parent, child, (t.node node).color)
  else
    let subst ← t.rbtreeFirst fuel (t.node node).right
    let child := (t.node subst).right
    let (t, parent) := t.moveParent subst child
    let color := (t.node subst).color
    let t := t.replace node (some subst)
    return (t, if parent = some node then some subst else parent, child, color)

/-- `__rbtree_delete`. -/
def delete (fuel : ℕ) (t : Rbtree α) (node : α) : Outcome Fault (Rbtree α) := do
  let (t, parent, child, color) ← t.unlink fuel node
  if color = .black then t.rebalanceDelete fuel parent child
  else return t

/-- `rbtree_delete`. -/
def rbtreeDelete (fuel : ℕ) (t : Rbtree α) (node : Option α) : Outcome Fault (Rbtree α) := do
  assert node.isSome
  let node ← deref node
  t.delete fuel node

end Rbtree

end Kalisto
