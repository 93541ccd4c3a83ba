import CModel.RbTree.Rbtree
import Mathlib.Data.Finset.Basic

/-!
# A store of ids

`ex-rbtree.c`: the nodes of the tree point to data of the caller, which have an `id`.

* `Ids`: the tree with the data; `rbtreeInit`, `rbtreeSearch`, `rbtreeInsert`, `rbtreeDelete`,
  `printRbtree`.
* `Calls`: the sequences of calls, with the finite set of the ids that should be in the store.
-/

namespace CModel
namespace RbTree

open RedBlack RbRoot NodeType

/-- A tree, with the memory of its nodes and that of the data, of which only the `id` is used. -/
structure Ids where
  root : RbRoot
  data : Store ℤ

namespace Ids

/-- `data->data_content->id` of the node at `p`. -/
def idOf (w : Ids) (p : ℕ) : Option ℤ := do w.data.cell (← w.root.get p dataContent)

/-- `rbtree_init` -/
def rbtreeInit : Ids := ⟨⟨none, Store.empty⟩, Store.empty⟩

/-- The loop of `rbtree_search`. -/
def searchLoop (w : Ids) (content : ℕ) : ℕ → Option ℕ → Option (Option ℕ)
  | 0, _ => none
  | _ + 1, none => some none
  | fuel + 1, some node => do
    let id ← w.data.cell content
    let here ← w.idOf node
    if id < here then searchLoop w content fuel (← w.root.get node rbLeft)
    else if id > here then searchLoop w content fuel (← w.root.get node rbRight)
    else some (some node)

/-- `rbtree_search` -/
def rbtreeSearch (w : Ids) (content : ℕ) : Option (Option ℕ) :=
  searchLoop w content w.root.fuel w.root.rbNode

/-- The loop of `rbtree_insert` for the new node `data`; there is no place where the `id` is. -/
def slotLoop (w : Ids) (data : ℕ) : ℕ → Slot → Option ℕ → Option (Option (Slot × Option ℕ))
  | 0, _, _ => none
  | fuel + 1, tmp, parent => do
    match ← readSlot w.root tmp with
    | none => some (some (tmp, parent))
    | some thiz =>
      let id ← w.idOf data
      let here ← w.idOf thiz
      if id < here then slotLoop w data fuel (some (thiz, .left)) (some thiz)
      else if id > here then slotLoop w data fuel (some (thiz, .right)) (some thiz)
      else some none

/-- `calloc` of a node for the data at `content`. -/
def calloc (w : Ids) (content : ℕ) : ℕ × Ids :=
  let (data, mem) := w.root.mem.new ⟨0, none, none, content⟩
  (data, { w with root := { w.root with mem } })

/-- `rbtree_insert`, which does not free the node where it returns `-1`. -/
def rbtreeInsert (w : Ids) (content : ℕ) : Option (ℤ × Ids) := do
  let (data, w) := w.calloc content
  match ← slotLoop w data w.root.fuel none none with
  | none => some (-1, w)
  | some (tmp, parent) =>
    let root ← rbLinkNode w.root data parent tmp
    let root ← rbInsertColor root data
    some (0, { w with root })

/-- `rbtree_delete` -/
def rbtreeDelete (w : Ids) (content : ℕ) : Option Ids := do
  match ← w.rbtreeSearch content with
  | none => some w
  | some node =>
    let root ← rbErase w.root node
    let found ← root.get node dataContent
    let data ← w.data.delete found
    let mem ← root.mem.delete node
    some ⟨{ root with mem }, data⟩

/-- The loop of `print_rbtree`. -/
def printLoop (w : Ids) : ℕ → Option ℕ → Option (List ℤ)
  | 0, _ => none
  | _ + 1, none => some []
  | fuel + 1, some node => do
    let id ← w.idOf node
    let ids ← printLoop w fuel (← rbNext w.root node)
    some (id :: ids)

/-- What `print_rbtree` prints. -/
def printRbtree (w : Ids) : Option (List ℤ) := do
  printLoop w w.root.fuel (← rbFirst w.root)

end Ids

/-- The sequences of calls from `rbtree_init` on, and the ids that are in the store by then.  The
caller makes new data at any time. -/
inductive Calls : Ids → Finset ℤ → Prop where
  | init : Calls Ids.rbtreeInit ∅
  | data {w : Ids} {s : Finset ℤ} (id : ℤ) :
      Calls w s → Calls { w with data := (w.data.new id).2 } s
  | insert {w w' : Ids} {s : Finset ℤ} {content : ℕ} {id code : ℤ} :
      Calls w s → w.data.cell content = some id → w.rbtreeInsert content = some (code, w') →
      Calls w' (insert id s)
  | delete {w w' : Ids} {s : Finset ℤ} {content : ℕ} {id : ℤ} :
      Calls w s → w.data.cell content = some id → w.rbtreeDelete content = some w' →
      Calls w' (s.erase id)

end RbTree
end CModel
