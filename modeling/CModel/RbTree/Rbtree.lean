import CModel.Foundation.RedBlack
import CModel.Foundation.Store

/-!
# The red-black tree of the kernel

`rbtree.h` and `rbtree.c`, on nodes behind pointers.  The parent of a node and its colour are in one
number.  What the source writes twice, once for each side, is here once with the side as argument.

* `NodeType`, `RbRoot`: a node, and a root with the memory of the nodes.
* `rbRotateLeft`, `rbRotateRight`, `rbInsertColor`, `rbEraseColor`, `rbErase`, `rbFirst`, `rbNext`.

An access through a null pointer is undefined.  A loop gets as many rounds as there are addresses,
and one more.
-/

namespace CModel
namespace RbTree

open RedBlack

/-! ## Nodes -/

/-- `struct node_type`, with its `struct rb_node`. -/
structure NodeType where
  rbParentColor : ℕ
  rbRight : Option ℕ
  rbLeft : Option ℕ
  dataContent : ℕ

/-- A pointer as a number.  Nodes are aligned, so that the last two bits are free. -/
def address : Option ℕ → ℕ
  | none => 0
  | some p => 4 * (p + 1)

/-- The pointer with an address. -/
def pointer (a : ℕ) : Option ℕ := if a = 0 then none else some (a / 4 - 1)

/-- `RB_RED` is 0, `RB_BLACK` is 1. -/
def colorBit : Color → ℕ
  | .red => 0
  | .black => 1

namespace NodeType

/-- `rb_parent`, the number without its last two bits. -/
def rbParent (n : NodeType) : Option ℕ := pointer (n.rbParentColor / 4 * 4)

/-- `rb_color`, the last bit. -/
def rbColor (n : NodeType) : Color := if n.rbParentColor % 2 = 0 then .red else .black

/-- `rb_set_parent` -/
def rbSetParent (p : Option ℕ) (n : NodeType) : NodeType :=
  { n with rbParentColor := n.rbParentColor % 4 + address p }

/-- `rb_set_color`; `rb_set_red` and `rb_set_black` do the same for one colour. -/
def rbSetColor (c : Color) (n : NodeType) : NodeType :=
  { n with rbParentColor := n.rbParentColor / 2 * 2 + colorBit c }

/-- `rb_set_red` -/
def rbSetRed (n : NodeType) : NodeType := n.rbSetColor .red

/-- `rb_set_black` -/
def rbSetBlack (n : NodeType) : NodeType := n.rbSetColor .black

/-- `rb_left` or `rb_right` -/
def child (d : Side) (n : NodeType) : Option ℕ :=
  match d with
  | .left => n.rbLeft
  | .right => n.rbRight

/-- An assignment to `rb_left` or `rb_right`. -/
def setChild (d : Side) (p : Option ℕ) (n : NodeType) : NodeType :=
  match d with
  | .left => { n with rbLeft := p }
  | .right => { n with rbRight := p }

end NodeType

/-- `struct rb_root`, with the memory its nodes are in. -/
structure RbRoot where
  rbNode : Option ℕ
  mem : Store NodeType

namespace RbRoot

/-- A field of the node at `p`. -/
def get {β : Type} (t : RbRoot) (p : ℕ) (f : NodeType → β) : Option β := (t.mem.cell p).map f

/-- An assignment to a field of the node at `p`. -/
def set (t : RbRoot) (p : ℕ) (f : NodeType → NodeType) : Option RbRoot :=
  (t.mem.modify p f).map fun mem => { t with mem }

/-- The rounds for a loop. -/
def fuel (t : RbRoot) : ℕ := t.mem.next + 1

/-- `if (child) rb_set_parent(child, parent);` -/
def setParentOf (t : RbRoot) (child parent : Option ℕ) : Option RbRoot :=
  match child with
  | none => some t
  | some p => t.set p (NodeType.rbSetParent parent)

/-- Where `parent` has `old` as a child it gets `new`; without a parent the root does.  The child on
the side `d` is looked at. -/
def replaceChild (d : Side) (t : RbRoot) (parent : Option ℕ) (old : ℕ) (new : Option ℕ) :
    Option RbRoot :=
  match parent with
  | none => some { t with rbNode := new }
  | some parent => do
    if (← t.get parent (NodeType.child d)) = some old then
      t.set parent (NodeType.setChild d new)
    else t.set parent (NodeType.setChild d.other new)

end RbRoot

open RbRoot NodeType

/-! ## Rotations -/

/-- `__rb_rotate_left` for the left side. -/
def rbRotate (d : Side) (t : RbRoot) (node : ℕ) : Option RbRoot := do
  let right ← (← t.get node (child d.other))
  let parent ← t.get node rbParent
  let inner ← t.get right (child d)
  let t ← t.set node (setChild d.other inner)
  let t ← t.setParentOf inner (some node)
  let t ← t.set right (setChild d (some node))
  let t ← t.set right (rbSetParent parent)
  let t ← t.replaceChild d parent node (some right)
  t.set node (rbSetParent (some right))

/-- `__rb_rotate_left` -/
def rbRotateLeft : RbRoot → ℕ → Option RbRoot := rbRotate .left

/-- `__rb_rotate_right` -/
def rbRotateRight : RbRoot → ℕ → Option RbRoot := rbRotate .right

/-! ## A new node -/

/-- A `struct rb_node **`: `&root->rb_node`, or the address of a child of a node. -/
abbrev Slot : Type := Option (ℕ × Side)

/-- `*slot` -/
def readSlot (t : RbRoot) : Slot → Option (Option ℕ)
  | none => some t.rbNode
  | some (p, d) => t.get p (child d)

/-- `*slot = node;` -/
def writeSlot (t : RbRoot) (node : Option ℕ) : Slot → Option RbRoot
  | none => some { t with rbNode := node }
  | some (p, d) => t.set p (setChild d node)

/-- `rb_link_node` -/
def rbLinkNode (t : RbRoot) (node : ℕ) (parent : Option ℕ) (slot : Slot) : Option RbRoot := do
  let t ← t.set node fun n =>
    { n with rbParentColor := address parent, rbLeft := none, rbRight := none }
  writeSlot t (some node) slot

/-! ## After an insertion -/

/-- `p && rb_is_red(p)` -/
def isRed (t : RbRoot) : Option ℕ → Option Bool
  | none => some false
  | some p => (t.get p rbColor).map fun c => c == .red

/-- A round of the loop of `rb_insert_color`, where `parent` is the child of `gparent` on the side
`d`; the node for the next round. -/
def insertRound (d : Side) (t : RbRoot) (node parent gparent : ℕ) : Option (RbRoot × ℕ) := do
  let uncle ← t.get gparent (child d.other)
  if ← isRed t uncle then
    let t ← t.set (← uncle) rbSetBlack
    let t ← t.set parent rbSetBlack
    let t ← t.set gparent rbSetRed
    some (t, gparent)
  else
    let (t, node, parent) ← (do
      if (← t.get parent (child d.other)) = some node then
        let t ← rbRotate d t parent
        some (t, parent, node)
      else some (t, node, parent))
    let t ← t.set parent rbSetBlack
    let t ← t.set gparent rbSetRed
    let t ← rbRotate d.other t gparent
    some (t, node)

/-- The loop of `rb_insert_color`. -/
def insertLoop : ℕ → RbRoot → ℕ → Option RbRoot
  | 0, _, _ => none
  | fuel + 1, t, node => do
    match ← t.get node rbParent with
    | none => some t
    | some parent =>
      if (← t.get parent rbColor) = .red then
        let gparent ← (← t.get parent rbParent)
        let left ← t.get gparent (child .left)
        let (t, node) ← (if left = some parent then insertRound .left t node parent gparent
          else insertRound .right t node parent gparent)
        insertLoop fuel t node
      else some t

/-- `rb_insert_color` -/
def rbInsertColor (t : RbRoot) (node : ℕ) : Option RbRoot := do
  let t ← insertLoop t.fuel t node
  t.set (← t.rbNode) rbSetBlack

/-! ## After a deletion -/

/-- What a round of the loop of `__rb_erase_color` comes to. -/
inductive EraseRound where
  | again (t : RbRoot) (node parent : Option ℕ)
  /-- `break;` -/
  | done (t : RbRoot) (node : Option ℕ)

/-- The last step of a round, where the child of `other` on the far side is red. -/
def eraseFar (d : Side) (t : RbRoot) (parent other : ℕ) : Option EraseRound := do
  let t ← t.set other (rbSetColor (← t.get parent rbColor))
  let t ← t.set parent rbSetBlack
  let t ← t.set (← (← t.get other (child d.other))) rbSetBlack
  let t ← rbRotate d t parent
  some (.done t t.rbNode)

/-- The part of a round where `other` is black. -/
def eraseBlack (d : Side) (t : RbRoot) (parent other : ℕ) : Option EraseRound := do
  let redLeft ← isRed t (← t.get other rbLeft)
  let redRight ← isRed t (← t.get other rbRight)
  if !redLeft && !redRight then
    let t ← t.set other rbSetRed
    some (.again t (some parent) (← t.get parent rbParent))
  else
    let (t, other) ← (do
      if ← isRed t (← t.get other (child d.other)) then some (t, other)
      else
        let t ← t.set (← (← t.get other (child d))) rbSetBlack
        let t ← t.set other rbSetRed
        let t ← rbRotate d.other t other
        let other ← (← t.get parent (child d.other))
        some (t, other))
    eraseFar d t parent other

/-- A round of the loop of `__rb_erase_color`, where `node` is the child of `parent` on the side
`d`. -/
def eraseRound (d : Side) (t : RbRoot) (parent : ℕ) : Option EraseRound := do
  let other ← (← t.get parent (child d.other))
  let (t, other) ← (do
    if (← t.get other rbColor) = .red then
      let t ← t.set other rbSetBlack
      let t ← t.set parent rbSetRed
      let t ← rbRotate d t parent
      let other ← (← t.get parent (child d.other))
      some (t, other)
    else some (t, other))
  eraseBlack d t parent other

/-- The loop of `__rb_erase_color`, and the last assignment. -/
def eraseLoop : ℕ → RbRoot → Option ℕ → Option ℕ → Option RbRoot
  | 0, _, _, _ => none
  | fuel + 1, t, node, parent => do
    if !(← isRed t node) && node ≠ t.rbNode then
      let parent ← parent
      let left ← t.get parent (child .left)
      let round ← (if left = node then eraseRound .left t parent else eraseRound .right t parent)
      match round with
      | .again t node parent => eraseLoop fuel t node parent
      | .done t node => setBlackOf t node
    else setBlackOf t node
where
  /-- `if (node) rb_set_black(node);` -/
  setBlackOf (t : RbRoot) : Option ℕ → Option RbRoot
    | none => some t
    | some p => t.set p rbSetBlack

/-- `__rb_erase_color` -/
def rbEraseColor (t : RbRoot) (node parent : Option ℕ) : Option RbRoot :=
  eraseLoop t.fuel t node parent

/-- `while (n->rb_left) n = n->rb_left;` -/
def leftmost : ℕ → RbRoot → ℕ → Option ℕ
  | 0, _, _ => none
  | fuel + 1, t, n => do
    match ← t.get n rbLeft with
    | none => some n
    | some left => leftmost fuel t left

/-- `rb_erase` of a node that has at most the child `child`. -/
def eraseOne (t : RbRoot) (node : ℕ) (child : Option ℕ) : Option RbRoot := do
  let parent ← t.get node rbParent
  let color ← t.get node rbColor
  let t ← t.setParentOf child parent
  let t ← t.replaceChild .left parent node child
  if color = .black then rbEraseColor t child parent else some t

/-- The part of `rb_erase` that takes `node`, the next one after `old`, from its place, and gives it
the right child of `old`; with the parent of `child` after that. -/
def takeNext (t : RbRoot) (old node : ℕ) (child parent : Option ℕ) : Option (RbRoot × ℕ) := do
  if parent = some old then some (t, node)
  else
    let parent ← parent
    let t ← t.setParentOf child (some parent)
    let t ← t.set parent (setChild .left child)
    let oldRight ← t.get old rbRight
    let t ← t.set node (setChild .right oldRight)
    let t ← t.set (← oldRight) (rbSetParent (some node))
    some (t, parent)

/-- `rb_erase` of a node with two children, whose place the next node takes. -/
def eraseTwo (t : RbRoot) (old right : ℕ) : Option RbRoot := do
  let node ← leftmost t.fuel t right
  let t ← t.replaceChild .left (← t.get old rbParent) old (some node)
  let child ← t.get node rbRight
  let parent ← t.get node rbParent
  let color ← t.get node rbColor
  let (t, parent) ← takeNext t old node child parent
  let parentColor ← t.get old NodeType.rbParentColor
  let t ← t.set node fun n => { n with rbParentColor := parentColor }
  let oldLeft ← t.get old rbLeft
  let t ← t.set node (setChild .left oldLeft)
  let t ← t.set (← oldLeft) (rbSetParent (some node))
  if color = .black then rbEraseColor t child (some parent) else some t

/-- `rb_erase` -/
def rbErase (t : RbRoot) (node : ℕ) : Option RbRoot := do
  let left ← t.get node rbLeft
  let right ← t.get node rbRight
  match left, right with
  | none, _ => eraseOne t node right
  | some _, none => eraseOne t node left
  | some _, some right => eraseTwo t node right

/-! ## In order -/

/-- `rb_first` -/
def rbFirst (t : RbRoot) : Option (Option ℕ) :=
  match t.rbNode with
  | none => some none
  | some n => (leftmost t.fuel t n).map some

/-- The loop of `rb_next` up to the first node that is reached from the left. -/
def climb : ℕ → RbRoot → ℕ → Option (Option ℕ)
  | 0, _, _ => none
  | fuel + 1, t, node => do
    match ← t.get node rbParent with
    | none => some none
    | some parent =>
      if (← t.get parent rbRight) = some node then climb fuel t parent else some (some parent)

/-- `rb_next` -/
def rbNext (t : RbRoot) (node : ℕ) : Option (Option ℕ) := do
  if (← t.get node rbParent) = some node then some none
  else
    match ← t.get node rbRight with
    | some right => (leftmost t.fuel t right).map some
    | none => climb t.fuel t node

end RbTree
end CModel
