import Mathlib.Logic.Function.Basic
import Mathlib.Data.List.Basic

/-!
# A heap of blocks

Enough of `new[]`, `delete[]` and `memcpy` to tell a pointer into a live block from one into a
block that is gone.  A block is named by a number that is never used again, so a pointer is a block
and an offset, and two pointers are equal only if they point into the same allocation.

* `Heap`: live blocks by number; no number from `next` on has been given out, which is a field.
* `Heap.alloc`, `Heap.free`, `Heap.write`: `new[]`, `delete[]`, `memcpy` into a block.
* `Heap.read`: the bytes a pointer leads to.
-/

namespace CModel

universe u

/-- A pointer: a block and an offset into it. -/
structure Ptr where
  block : ℕ
  off : ℕ
  deriving DecidableEq, Repr

/-- The live blocks. -/
structure Heap (α : Type u) where
  /-- the number the next allocation gets -/
  next : ℕ
  /-- the contents of the live blocks -/
  block : ℕ → Option (List α)
  /-- blocks not given out yet are not live -/
  fresh : ∀ i, next ≤ i → block i = none

namespace Heap

variable {α : Type u}

/-- No block at all. -/
def empty : Heap α := ⟨0, fun _ => none, fun _ _ => rfl⟩

/-- `new[]`, and the `memcpy`s that fill the block. -/
def alloc (h : Heap α) (contents : List α) : ℕ × Heap α :=
  (h.next,
    { next := h.next + 1
      block := Function.update h.block h.next (some contents)
      fresh := fun i hi => by
        rw [Function.update_of_ne (by omega)]
        exact h.fresh i (by omega) })

/-- `delete[]`; deleting a block that is not live is undefined. -/
def free (h : Heap α) (i : ℕ) : Option (Heap α) :=
  match h.block i with
  | none => none
  | some _ =>
    some { next := h.next
           block := Function.update h.block i none
           fresh := fun j hj => by
             by_cases hij : j = i
             · rw [hij, Function.update_self]
             · rw [Function.update_of_ne hij]
               exact h.fresh j hj }

/-- `memcpy(block + off, data, ..)`; bytes past the end of the block are undefined. -/
def write (h : Heap α) (i off : ℕ) (data : List α) : Option (Heap α) :=
  match hb : h.block i with
  | none => none
  | some contents =>
    if off + data.length ≤ contents.length then
      some { next := h.next
             block := Function.update h.block i
               (some (contents.take off ++ data ++ contents.drop (off + data.length)))
             fresh := fun j hj => by
               have hij : j ≠ i := by
                 rintro rfl
                 rw [h.fresh j hj] at hb
                 exact absurd hb (by simp)
               rw [Function.update_of_ne hij]
               exact h.fresh j hj }
    else none

/-- The `len` bytes a pointer leads to; a read outside of a live block is undefined. -/
def read (h : Heap α) (p : Ptr) (len : ℕ) : Option (List α) :=
  match h.block p.block with
  | none => none
  | some contents =>
    if p.off + len ≤ contents.length then some ((contents.drop p.off).take len) else none

@[simp] theorem alloc_fst (h : Heap α) (contents : List α) : (h.alloc contents).1 = h.next := rfl

@[simp] theorem alloc_block_next (h : Heap α) (contents : List α) :
    (h.alloc contents).2.block h.next = some contents :=
  Function.update_self ..

theorem alloc_block_of_ne {h : Heap α} {contents : List α} {i : ℕ} (hi : i ≠ h.next) :
    (h.alloc contents).2.block i = h.block i :=
  Function.update_of_ne hi ..

/-- A live block is older than the next allocation. -/
theorem lt_next {h : Heap α} {i : ℕ} {contents : List α} (hi : h.block i = some contents) :
    i < h.next := by
  by_contra hlt
  rw [h.fresh i (by omega)] at hi
  exact absurd hi (by simp)

/-- Deleting a live block leaves the others alone. -/
theorem free_of_some {h : Heap α} {i : ℕ} {contents : List α} (hi : h.block i = some contents) :
    ∃ h', h.free i = some h' ∧ h'.next = h.next ∧ h'.block i = none ∧
      ∀ j ≠ i, h'.block j = h.block j := by
  unfold free
  split
  · next hn => rw [hi] at hn; exact absurd hn (by simp)
  · exact ⟨_, rfl, rfl, Function.update_self .., fun j hj => Function.update_of_ne hj ..⟩

theorem read_of_some {h : Heap α} {p : Ptr} {l : List α} {len : ℕ}
    (hp : h.block p.block = some l) (hlen : p.off + len ≤ l.length) :
    h.read p len = some ((l.drop p.off).take len) := by
  rw [read, hp]
  exact if_pos hlen

end Heap

end CModel
