import OSLab.Foundation.ColorTree
import OSLab.Foundation.Loop
import Mathlib.Logic.Function.Basic

/-!
# Red-black trees in memory

`common/rbtree.c`.  A node is known by its address; a null pointer is `none`.  The
word `__rb_parent_color` is kept as its two parts.  A function that follows a null
pointer has no result.

The branches of the two repairs are mirror images of each other: each is written
once, for the side on which it works, and a loop chooses the side as the source does.
-/

namespace OSLab.Common
open Foundation

structure RbNode (ptr : Type) where
 parent : Option ptr
 color : Color
 right : Option ptr
 left : Option ptr
deriving DecidableEq

namespace RbNode
variable {ptr : Type}

def child (side : Side) (n : RbNode ptr) : Option ptr :=
 match side with
 | .left => n.left
 | .right => n.right

def setChild (side : Side) (child : Option ptr) (n : RbNode ptr) : RbNode ptr :=
 match side with
 | .left => { n with left := child }
 | .right => { n with right := child }

def setBlack (n : RbNode ptr) : RbNode ptr := { n with color := .black }

def setParent (p : Option ptr) (n : RbNode ptr) : RbNode ptr := { n with parent := p }

def setParentColor (p : Option ptr) (color : Color) (n : RbNode ptr) : RbNode ptr :=
 { n with parent := p, color := color }

/-- `rb_red_parent`: the whole word of a black node is no pointer. -/
def redParent (n : RbNode ptr) : Option (Option ptr) :=
 match n.color with
 | .red => some n.parent
 | .black => none

end RbNode

structure RbMemory (ptr : Type) where
 cell : ptr -> RbNode ptr
 root : Option ptr

namespace RbMemory
variable {ptr : Type} [DecidableEq ptr]

def update (x : ptr) (f : RbNode ptr -> RbNode ptr) (m : RbMemory ptr) : RbMemory ptr :=
 { m with cell := Function.update m.cell x (f (m.cell x)) }

def setChild (x : ptr) (side : Side) (child : Option ptr) (m : RbMemory ptr) : RbMemory ptr :=
 m.update x (RbNode.setChild side child)

def setBlack (x : ptr) (m : RbMemory ptr) : RbMemory ptr := m.update x RbNode.setBlack

def setParent (x : ptr) (p : Option ptr) (m : RbMemory ptr) : RbMemory ptr :=
 m.update x (RbNode.setParent p)

def setParentColor (x : ptr) (p : Option ptr) (color : Color) (m : RbMemory ptr) : RbMemory ptr :=
 m.update x (RbNode.setParentColor p color)

def guarded (tmp : Option ptr) (f : ptr -> RbMemory ptr -> RbMemory ptr)
  (m : RbMemory ptr) : RbMemory ptr :=
 match tmp with
 | none => m
 | some x => f x m

def isRed (tmp : Option ptr) (m : RbMemory ptr) : Bool :=
 match tmp with
 | none => false
 | some x => decide ((m.cell x).color = .red)

def changeChild (old : ptr) (new parent : Option ptr) (m : RbMemory ptr) : RbMemory ptr :=
 match parent with
 | none => { m with root := new }
 | some parent =>
  if (m.cell parent).left = some old then
   m.setChild parent .left new
  else
   m.setChild parent .right new

def rotateSetParents (old new : ptr) (color : Color) (m : RbMemory ptr) : RbMemory ptr :=
 let parent := (m.cell old).parent
 let m := m.setParentColor new (m.cell old).parent (m.cell old).color
 let m := m.setParentColor old (some new) color
 m.changeChild old (some new) parent

/-!
# Insertion
-/

def insertFixRotate (side : Side) (gparent parent : ptr) (tmp : Option ptr)
  (m : RbMemory ptr) : RbMemory ptr :=
 let m := m.setChild gparent side tmp
 let m := m.guarded tmp (fun tmp => setParentColor tmp (some gparent) .black)
 let m := m.setChild parent side.other (some gparent)
 m.rotateSetParents gparent parent .red

/-- A round of `__rb_insert_fix` whose `parent` is the child of `gparent` on this side. -/
def insertFixUnder (side : Side) (node parent gparent : ptr) (m : RbMemory ptr) :
  Round (ptr × Option ptr × RbMemory ptr) (RbMemory ptr) :=
 let tmp := (m.cell gparent).child side.other
 if m.isRed tmp then
  let m := m.guarded tmp (fun tmp => setParentColor tmp (some gparent) .black)
  let m := m.setParentColor parent (some gparent) .black
  let above := (m.cell gparent).parent
  .again (gparent, above, m.setParentColor gparent above .red)
 else
  let tmp := (m.cell parent).child side.other
  if some node = tmp then
   let tmp := (m.cell node).child side
   let m := m.setChild parent side.other tmp
   let m := m.guarded tmp (fun tmp => setParentColor tmp (some parent) .black)
   let m := m.setChild node side (some parent)
   let m := m.setParentColor parent (some node) .red
   .done (m.insertFixRotate side gparent node ((m.cell node).child side.other))
  else
   .done (m.insertFixRotate side gparent parent tmp)

def insertFixRound : ptr × Option ptr × RbMemory ptr ->
  Option (Round (ptr × Option ptr × RbMemory ptr) (RbMemory ptr))
 | (node, none, m) => some (.done { m.setParentColor node none .black with root := some node })
 | (node, some parent, m) =>
  if (m.cell parent).color = .black then
   some (.done m)
  else do
   let gparent <- (m.cell parent).redParent
   let gparent <- gparent
   if (m.cell gparent).right ≠ some parent then
    some (m.insertFixUnder .left node parent gparent)
   else
    some (m.insertFixUnder .right node parent gparent)

def insertFix (fuel : Nat) (node : ptr) (m : RbMemory ptr) : Option (RbMemory ptr) := do
 let parent <- (m.cell node).redParent
 loop insertFixRound fuel (node, parent, m)

/-- One turn of the search in `_rb_insert`, which may end it. -/
def insertTurn (side : Side) (node parent : ptr) (m : RbMemory ptr) : Option ptr × RbMemory ptr :=
 match (m.cell parent).child side with
 | some nw => (some nw, m)
 | none =>
  let m := m.setChild parent side (some node)
  (none, m.setParentColor node (some parent) .red)

variable (cmp : ptr -> ptr -> Bool)

def insertRound (node : ptr) : Option ptr × RbMemory ptr ->
  Option (Round (Option ptr × RbMemory ptr) (Bool × RbMemory ptr))
 | (none, m) => some (.done (false, m))
 | (some nw, m) =>
  if cmp node nw then
   some (.again (m.insertTurn .left node nw))
  else if cmp nw node then
   some (.again (m.insertTurn .right node nw))
  else
   some (.done (true, m))

def clear (node : ptr) (m : RbMemory ptr) : RbMemory ptr :=
 m.update node (fun _ => ⟨none, .red, none, none⟩)

def rbInsert (fuel : Nat) (node : ptr) (m : RbMemory ptr) : Option (Int × RbMemory ptr) := do
 let (found, m) <- loop (insertRound cmp node) fuel (m.root, m.clear node)
 if found then
  some (-1, m)
 else
  let m <- insertFix fuel node m
  some (0, m)

/-!
# Removal
-/

def successorRound (m : RbMemory ptr) : ptr × ptr -> Option (Round (ptr × ptr) (ptr × ptr))
 | (successor, tmp) =>
  match (m.cell tmp).left with
  | none => some (.done (successor, tmp))
  | some next => some (.again (tmp, next))

/-- The last lines of `__rb_erase`; `pc` is the node that has been taken out. -/
def eraseRecolor (successor parent : ptr) (child2 : Option ptr) (pc : RbNode ptr)
  (m : RbMemory ptr) : Option ptr × RbMemory ptr :=
 match child2 with
 | some child2 =>
  let m := m.setParentColor successor pc.parent pc.color
  (none, m.setParentColor child2 (some parent) .black)
 | none =>
  let pc2 := m.cell successor
  let m := m.setParentColor successor pc.parent pc.color
  (if pc2.color = .black then some parent else none, m)

/-- The end of `__rb_erase` for a node with two children. -/
def eraseSplice (node successor parent : ptr) (child2 : Option ptr) (m : RbMemory ptr) :
  Option (Option ptr × RbMemory ptr) := do
 let tmp := (m.cell node).left
 let m := m.setChild successor .left tmp
 let tmp <- tmp
 let m := m.setParent tmp (some successor)
 let pc := m.cell node
 let m := m.changeChild node (some successor) pc.parent
 some (m.eraseRecolor successor parent child2 pc)

def eraseNode (fuel : Nat) (node : ptr) (m : RbMemory ptr) : Option (Option ptr × RbMemory ptr) :=
 let pc := m.cell node
 match pc.left, pc.right with
 | none, child =>
  let m := m.changeChild node child pc.parent
  match child with
  | some child => some (none, m.setParentColor child pc.parent pc.color)
  | none => some (if pc.color = .black then pc.parent else none, m)
 | some tmp, none =>
  let m := m.setParentColor tmp pc.parent pc.color
  some (none, m.changeChild node (some tmp) pc.parent)
 | some _, some child =>
  match (m.cell child).left with
  | none => m.eraseSplice node child child (m.cell child).right
  | some tmp => do
   let (parent, successor) <- loop m.successorRound fuel (child, tmp)
   let child2 := (m.cell successor).right
   let m := m.setChild parent .left child2
   let m := m.setChild successor .right (some child)
   let m := m.setParent child (some successor)
   m.eraseSplice node successor parent child2

def eraseFixRotate (side : Side) (parent sibling tmp1 : ptr) (m : RbMemory ptr) : RbMemory ptr :=
 let tmp2 := (m.cell sibling).child side
 let m := m.setChild parent side.other tmp2
 let m := m.guarded tmp2 (fun tmp2 => setParent tmp2 (some parent))
 let m := m.setChild sibling side (some parent)
 let m := m.setParentColor tmp1 (some sibling) .black
 m.rotateSetParents parent sibling .black

def eraseFixClimb (parent : ptr) (m : RbMemory ptr) :
  Round (Option ptr × ptr × RbMemory ptr) (RbMemory ptr) :=
 if (m.cell parent).color = .red then
  .done (m.setBlack parent)
 else
  match (m.cell parent).parent with
  | some above => .again (some parent, above, m)
  | none => .done m

/-- A round of `__rb_erase_fix` once the sibling is black; `node` is on this side. -/
def eraseFixSettle (side : Side) (parent sibling : ptr) (m : RbMemory ptr) :
  Option (Round (Option ptr × ptr × RbMemory ptr) (RbMemory ptr)) := do
 let tmp1 := (m.cell sibling).child side.other
 if m.isRed tmp1 then
  let tmp1 <- tmp1
  some (.done (m.eraseFixRotate side parent sibling tmp1))
 else
  let tmp2 := (m.cell sibling).child side
  if m.isRed tmp2 then
   let tmp2 <- tmp2
   let tmp1 := (m.cell tmp2).child side.other
   let m := m.setChild sibling side tmp1
   let m := m.guarded tmp1 (fun tmp1 => setParentColor tmp1 (some sibling) .black)
   let m := m.setChild tmp2 side.other (some sibling)
   let m := m.setChild parent side.other (some tmp2)
   some (.done (m.eraseFixRotate side parent tmp2 sibling))
  else
   let m := m.setParentColor sibling (some parent) .red
   some (m.eraseFixClimb parent)

/-- A round of `__rb_erase_fix` whose `node` is on this side. -/
def eraseFixUnder (side : Side) (parent : ptr) (m : RbMemory ptr) :
  Option (Round (Option ptr × ptr × RbMemory ptr) (RbMemory ptr)) := do
 let sibling <- (m.cell parent).child side.other
 if (m.cell sibling).color = .red then
  let tmp1 := (m.cell sibling).child side
  let m := m.setChild parent side.other tmp1
  let tmp1 <- tmp1
  let m := m.setParentColor tmp1 (some parent) .black
  let m := m.setChild sibling side (some parent)
  let m := m.rotateSetParents parent sibling .red
  m.eraseFixSettle side parent tmp1
 else
  m.eraseFixSettle side parent sibling

def eraseFixRound : Option ptr × ptr × RbMemory ptr ->
  Option (Round (Option ptr × ptr × RbMemory ptr) (RbMemory ptr))
 | (node, parent, m) =>
  if (m.cell parent).right ≠ node then
   m.eraseFixUnder .left parent
  else
   m.eraseFixUnder .right parent

def eraseFix (fuel : Nat) (parent : ptr) (m : RbMemory ptr) : Option (RbMemory ptr) :=
 loop eraseFixRound fuel (none, parent, m)

def rbErase (fuel : Nat) (node : ptr) (m : RbMemory ptr) : Option (RbMemory ptr) := do
 let (rebalance, m) <- m.eraseNode fuel node
 match rebalance with
 | none => some m
 | some parent => m.eraseFix fuel parent

/-!
# Search
-/

def lookupRound (node : ptr) (m : RbMemory ptr) :
  Option ptr -> Option (Round (Option ptr) (Option ptr))
 | none => some (.done none)
 | some nw =>
  if cmp node nw then
   some (.again (m.cell nw).left)
  else if cmp nw node then
   some (.again (m.cell nw).right)
  else
   some (.done (some nw))

def rbLookup (fuel : Nat) (node : ptr) (m : RbMemory ptr) : Option (Option ptr) :=
 loop (m.lookupRound cmp node) fuel m.root

def firstRound (m : RbMemory ptr) (n : ptr) : Option (Round ptr ptr) :=
 match (m.cell n).left with
 | some next => some (.again next)
 | none => some (.done n)

def rbFirst (fuel : Nat) (m : RbMemory ptr) : Option (Option ptr) :=
 match m.root with
 | none => some none
 | some n => do
  let least <- loop m.firstRound fuel n
  some (some least)

end OSLab.Common.RbMemory
