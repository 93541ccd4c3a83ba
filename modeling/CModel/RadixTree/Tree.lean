import Mathlib.Algebra.GroupWithZero.Nat
import Mathlib.Data.Fin.Basic
import Mathlib.Logic.Function.Basic
import Mathlib.Data.Int.Order.Basic

/-!
# `radix-tree.h` and `radix-tree.c`

A map from small numbers to pointers.  A node has eight slots; a slot of an inner node leads to a
node one level down, a slot of a node at the bottom holds an item.  Both are a `void *`, and only
the height in the head tells which of the two is meant.

* `Slot`: what a `void *` of the tree leads to.  Every node is in one slot only, so the tree is a
  term; a slot that is taken for a node and is not one is undefined behaviour, which is `none`.
* `Head`: `radix_tree_head`.
* `radixTreeExtend`, `radixTreeInsert`, `radixTreeLookup`, `radixTreeGangLookup`.  Whether the
  `n`-th `calloc` of a call fails is up to `fails n`; the functions that allocate hand on how many
  there were.
-/

namespace CModel
namespace RadixTree

variable {α : Type}

/-- `RADIX_TREE_MAP_SHIFT` -/
def radixTreeMapShift : ℕ := 3

/-- `RADIX_TREE_MAX_PATH` -/
def radixTreeMaxPath : ℕ := 4

/-! ## The data -/

/-- A node has slots. -/
scoped instance neZero_slots : NeZero 8 := ⟨by decide⟩

/-- What a slot holds: `NULL`, a `radix_tree_node` with its `count` and `slots`, or an item. -/
inductive Slot (α : Type) where
  | null
  | node (count : ℕ) (slots : Fin 8 → Slot α)
  | item (x : α)

/-- The test `!slot`. -/
def Slot.isNull : Slot α → Bool
  | .null => true
  | _ => false

/-- `radix_tree_head` -/
structure Head (α : Type) where
  height : ℕ := 0
  rnode : Slot α := .null
  heightToMaxindex : List ℕ := []

/-- `__maxindex`, on 32-bit numbers. -/
def maxindex (height : ℕ) : ℕ :=
  let tmp := height * radixTreeMapShift
  if 32 ≤ tmp then 0xffffffff else 0xffffffff >>> (32 - tmp - 1) >>> 1

/-- `radix_tree_init_maxindex`, which is all of `radix_tree_initial`. -/
def radixTreeInitial (head : Head α) : Head α :=
  { head with heightToMaxindex := (List.range radixTreeMaxPath).map maxindex }

/-- A head from `radix_tree_head_new`, where `calloc` has set all to zero, and
`radix_tree_initial`. -/
def initialised : Head α := radixTreeInitial {}

/-- `radix_tree_maxindex`; a height that the table does not have is undefined. -/
def radixTreeMaxindex (head : Head α) : Option ℕ := head.heightToMaxindex[head.height]?

/-- `(index >> shift) & RADIX_TREE_MAP_MASK` where `h` levels are left, `shift` being three times
that. -/
def digit (index h : ℕ) : Fin 8 := Fin.ofNat 8 (index >>> (h * radixTreeMapShift))

/-! ## Insertion -/

/-- The first loop of `radix_tree_extend`, on the part of the table that is left: the first height
whose largest index is not below `index`.  Reading past the table is undefined. -/
def findHeight (index : ℕ) : List ℕ → ℕ → Option ℕ
  | [], _ => none
  | m :: table, height => if index > m then findHeight index table (height + 1) else some height

/-- The second loop of `radix_tree_extend`: `k` new nodes on top, each with the tree so far in its
first slot. -/
def growTree (fails : ℕ → Bool) : ℕ → Head α → ℕ → ℤ × Head α × ℕ
  | 0, head, n => (0, head, n)
  | k + 1, head, n =>
    if fails n then (1, head, n + 1)
    else
      let node := Slot.node 1 (Function.update (fun _ => .null) 0 head.rnode)
      growTree fails k { head with rnode := node, height := head.height + 1 } (n + 1)

/-- `radix_tree_extend`: return code, head, and the number of `calloc`s so far. -/
def radixTreeExtend (fails : ℕ → Bool) (head : Head α) (index : ℕ) : Option (ℤ × Head α × ℕ) := do
  let height ← findHeight index (head.heightToMaxindex.drop (head.height + 1)) (head.height + 1)
  if head.rnode.isNull then some (0, { head with height := height }, 0)
  else some (growTree fails (height - head.height) head 0)

/-- The node that `*slot` leads to, one fresh from `calloc` where there is none yet; `none` inside
is the failure of that `calloc`. -/
def childNode (fails : ℕ → Bool) : Slot α → ℕ → Option (Option (ℕ × (Fin 8 → Slot α)) × ℕ)
  | .null, n => if fails n then some (none, n + 1) else some (some (0, fun _ => .null), n + 1)
  | .node count slots, n => some (some (count, slots), n)
  | .item _, _ => none

/-- The loop of `radix_tree_insert` on `*slot` with `height` levels left, and the store at its end.
A node counts a slot when it gets its first contents. -/
def insertAt (fails : ℕ → Bool) (index : ℕ) (x : α) :
    (height : ℕ) → Slot α → ℕ → Option (ℤ × Slot α × ℕ)
  | 0, slot, n => if slot.isNull then some (0, .item x, n) else some (1, slot, n)
  | h + 1, slot, n => do
    let (node, n) ← childNode fails slot n
    match node with
    | none => some (1, slot, n)
    | some (count, slots) =>
      let old := slots (digit index h)
      let (code, new, n) ← insertAt fails index x h old n
      let count := if old.isNull && !new.isNull then count + 1 else count
      some (code, .node count (Function.update slots (digit index h) new), n)

/-- `radix_tree_insert`: return code, head, and the number of `calloc`s. -/
def radixTreeInsert (fails : ℕ → Bool) (head : Head α) (index : ℕ) (x : α) :
    Option (ℤ × Head α × ℕ) := do
  let m ← radixTreeMaxindex head
  let (error, head, n) ←
    if index > m ∨ m = 0 then radixTreeExtend fails head index else some (0, head, 0)
  if error ≠ 0 then some (error, head, n)
  else do
    let (code, rnode, n) ← insertAt fails index x head.height head.rnode n
    some (code, { head with rnode := rnode }, n)

/-! ## Lookup -/

/-- The loop of `radix_tree_lookup` on `*slot` with `height` levels left. -/
def lookupAt (index : ℕ) : (height : ℕ) → Slot α → Option (Slot α)
  | 0, slot => some slot
  | _ + 1, .null => some .null
  | h + 1, .node _ slots => lookupAt index h (slots (digit index h))
  | _ + 1, .item _ => none

/-- `radix_tree_lookup` -/
def radixTreeLookup (head : Head α) (index : ℕ) : Option (Slot α) := do
  let m ← radixTreeMaxindex head
  if index > m then some .null else lookupAt index head.height head.rnode

/-- The loop of `__lookup` over the slots `js` of a node at the bottom: the items found, and the
next index, which is `0` if `maxItems` have been found. -/
def scanSlots (slots : Fin 8 → Slot α) (maxItems : ℕ) :
    List (Fin 8) → (index : ℕ) → (results : List (Slot α)) → List (Slot α) × ℕ
  | [], index, results => (results, index)
  | j :: js, index, results =>
    if (slots j).isNull then scanSlots slots maxItems js (index + 1) results
    else if results.length + 1 = maxItems then (results ++ [slots j], 0)
    else scanSlots slots maxItems js (index + 1) (results ++ [slots j])

/-- `__lookup` on `slot` with `height` levels left.  Where the slot of an inner node is `NULL` it
prints a message and follows it all the same. -/
def lookupFrom (index maxItems : ℕ) :
    (height : ℕ) → Slot α → Option (List (Slot α) × ℕ)
  | 0, _ => some ([], index)
  | 1, .node _ slots =>
    some (scanSlots slots maxItems ((List.finRange 8).drop (digit index 0)) index [])
  | h + 2, .node _ slots => lookupFrom index maxItems (h + 1) (slots (digit index (h + 1)))
  | _ + 1, _ => none

/-- The loop of `radix_tree_gang_lookup` from `curIndex` on, with the items found so far.  A
`__lookup` that did not move on would be repeated for ever, and is `none`. -/
def gangFrom (head : Head α) (maxIndex maxItems curIndex : ℕ) (results : List (Slot α)) :
    Option (List (Slot α)) :=
  if results.length < maxItems then
    if _hmax : curIndex > maxIndex then some results
    else match lookupFrom curIndex (maxItems - results.length) head.height head.rnode with
      | none => none
      | some (found, nextIndex) =>
        if nextIndex = 0 then some (results ++ found)
        else if _hnext : curIndex < nextIndex then
          gangFrom head maxIndex maxItems nextIndex (results ++ found)
        else none
  else some results
termination_by maxIndex + 1 - curIndex
decreasing_by omega

/-- `radix_tree_gang_lookup`: what it stores in `results`; it returns how many these are. -/
def radixTreeGangLookup (head : Head α) (firstIndex maxItems : ℕ) : Option (List (Slot α)) := do
  let maxIndex ← radixTreeMaxindex head
  if head.rnode.isNull ∨ maxIndex = 0 then some []
  else gangFrom head maxIndex maxItems firstIndex []

end RadixTree
end CModel
