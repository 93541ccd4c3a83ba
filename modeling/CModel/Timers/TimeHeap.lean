import CModel.Foundation.Store
import Mathlib.Data.Int.Order.Basic

/-!
# `time_heap.h`

Timers in a binary heap, the one that expires first at the root.  A timer that is deleted stays in
the heap without its callback.  The C++ variant, `TimeHeap.h`, differs in the callback only, which
is a handler there.

* `HeapTimer`, `TimeHeap`: `heap_timer` and `time_heap`.  An index that is not below `capacity`, a
  `NULL` pointer and the address of no timer are undefined behaviour where they are used, which is
  `none`.
* `new`, `fromArray`: the constructors.
* `addTimer`, `delTimer`, `top`, `popTimer`, `tick`, with `percolateDown` and `resize`.  What a
  callback does to the heap is a parameter of `tick`, which also tells which callbacks it has run.
-/

namespace CModel
namespace Timers

variable {κ : Type}

/-! ## The data -/

/-- `heap_timer`.  The callback stands for `cb_func` and `user_data`. -/
structure HeapTimer (κ : Type) where
  expire : ℤ
  cbFunc : Option κ

/-- `time_heap`, with the timers that there are. -/
structure TimeHeap (κ : Type) where
  mem : Store (HeapTimer κ)
  array : ℕ → Option ℕ
  capacity : ℕ
  curSize : ℕ

namespace TimeHeap

/-- `time_heap(cap)` -/
def new (cap : ℕ) : TimeHeap κ := ⟨.empty, fun _ => none, cap, 0⟩

/-- `array[i]` -/
def read (h : TimeHeap κ) (i : ℕ) : Option (Option ℕ) :=
  if i < h.capacity then some (h.array i) else none

/-- `array[i] = p` -/
def write (h : TimeHeap κ) (i : ℕ) (p : Option ℕ) : Option (TimeHeap κ) :=
  if i < h.capacity then some { h with array := Function.update h.array i p } else none

/-- `p->expire` -/
def expireOf (h : TimeHeap κ) (p : Option ℕ) : Option ℤ := do
  let p ← p
  let t ← h.mem.cell p
  some t.expire

/-- `array[i]->expire` -/
def expireAt (h : TimeHeap κ) (i : ℕ) : Option ℤ := do
  let p ← h.read i
  h.expireOf p

/-! ## Operations -/

/-- `resize` -/
def resize (h : TimeHeap κ) : Option (TimeHeap κ) :=
  if h.curSize ≤ h.capacity then
    some { h with
      array := fun i => if i < h.curSize then h.array i else none
      capacity := 2 * h.capacity }
  else none

/-- The loop of `add_timer`, for `fuel` rounds at most: the heap and the place of the hole. -/
def percolateUp (expire : ℤ) : (fuel : ℕ) → TimeHeap κ → (hole : ℕ) → Option (TimeHeap κ × ℕ)
  | 0, _, _ => none
  | fuel + 1, h, hole =>
    if 0 < hole then do
      let parent := (hole - 1) / 2
      let e ← h.expireAt parent
      if e ≤ expire then some (h, hole)
      else do
        let p ← h.read parent
        let h ← h.write hole p
        percolateUp expire fuel h parent
    else some (h, hole)

/-- `add_timer`.  The hole moves up the heap, so there are no more rounds than entries. -/
def addTimer (h : TimeHeap κ) : Option ℕ → Option (TimeHeap κ)
  | none => some h
  | some timer => do
    let t ← h.mem.cell timer
    let h ← (if h.curSize ≥ h.capacity then h.resize else some h)
    let hole := h.curSize
    let (h, hole) ← percolateUp t.expire (hole + 1) { h with curSize := h.curSize + 1 } hole
    h.write hole (some timer)

/-- `del_timer` -/
def delTimer (h : TimeHeap κ) : Option ℕ → Option (TimeHeap κ)
  | none => some h
  | some timer => do
    let mem ← h.mem.modify timer fun t => { t with cbFunc := none }
    some { h with mem }

/-- The child of `hole` that `percolate_down` looks at, the right one if it expires earlier. -/
def smallerChild (h : TimeHeap κ) (hole : ℕ) : Option ℕ :=
  let child := hole * 2 + 1
  if child + 1 < h.curSize then do
    let right ← h.expireAt (child + 1)
    let left ← h.expireAt child
    some (if right < left then child + 1 else child)
  else some child

/-- The loop of `percolate_down`, for `fuel` rounds at most: the heap and the place of the hole. -/
def percolateLoop (temp : Option ℕ) :
    (fuel : ℕ) → TimeHeap κ → (hole : ℕ) → Option (TimeHeap κ × ℕ)
  | 0, _, _ => none
  | fuel + 1, h, hole =>
    if hole * 2 + 1 < h.curSize then do
      let child ← h.smallerChild hole
      let e ← h.expireAt child
      let e' ← h.expireOf temp
      if e < e' then do
        let p ← h.read child
        let h ← h.write hole p
        percolateLoop temp fuel h child
      else some (h, hole)
    else some (h, hole)

/-- `percolate_down`.  The hole moves down the heap, so there are no more rounds than entries. -/
def percolateDown (h : TimeHeap κ) (hole : ℕ) : Option (TimeHeap κ) := do
  let temp ← h.read hole
  let (h, hole) ← percolateLoop temp (h.curSize + 1) h hole
  h.write hole temp

/-- `top` -/
def top (h : TimeHeap κ) : Option (Option ℕ) :=
  if h.curSize = 0 then some none else h.read 0

/-- The last loop of the constructor from an array, from `percolate_down(i)` down to
`percolate_down(0)`. -/
def buildLoop : (i : ℕ) → TimeHeap κ → Option (TimeHeap κ)
  | 0, h => h.percolateDown 0
  | i + 1, h => do
    let h ← h.percolateDown (i + 1)
    buildLoop i h

/-- `time_heap(init_array, size, capacity)`, where `mem` are the timers that there are; the inner
`none` is its exception. -/
def fromArray (mem : Store (HeapTimer κ)) (initArray : ℕ → Option ℕ) (size capacity : ℕ) :
    Option (Option (TimeHeap κ)) :=
  if capacity < size then some none
  else
    let h : TimeHeap κ := ⟨mem, fun i => if i < size then initArray i else none, capacity, size⟩
    if size ≠ 0 then (buildLoop ((h.curSize - 1) / 2) h).map some else some (some h)

/-- `pop_timer` -/
def popTimer (h : TimeHeap κ) : Option (TimeHeap κ) :=
  if h.curSize = 0 then some h
  else do
    let top ← h.read 0
    match top with
    | none => some h
    | some top => do
      let mem ← h.mem.delete top
      let h := { h with mem, curSize := h.curSize - 1 }
      let last ← h.read h.curSize
      let h ← h.write 0 last
      h.percolateDown 0

/-- The callback of `array[0]`, if it has one: the heap, and the callback that has been run, with
its timer. -/
def runTop (call : κ → TimeHeap κ → Option (TimeHeap κ)) (h : TimeHeap κ) :
    Option (TimeHeap κ × List (ℕ × κ)) := do
  let top ← h.read 0
  let top ← top
  let t ← h.mem.cell top
  match t.cbFunc with
  | none => some (h, [])
  | some callback => do
    let h ← call callback h
    some (h, [(top, callback)])

/-- The loop of `tick` at the time `cur`, for `fuel` rounds at most. -/
def tickLoop (call : κ → TimeHeap κ → Option (TimeHeap κ)) (cur : ℤ) :
    (fuel : ℕ) → TimeHeap κ → Option ℕ → List (ℕ × κ) →
      Option (TimeHeap κ × List (ℕ × κ))
  | 0, _, _, _ => none
  | fuel + 1, h, tmp, calls =>
    if h.curSize = 0 then some (h, calls)
    else match tmp with
      | none => some (h, calls)
      | some tmp => do
        let t ← h.mem.cell tmp
        if cur < t.expire then some (h, calls)
        else do
          let (h, called) ← h.runTop call
          let h ← h.popTimer
          let tmp ← h.read 0
          tickLoop call cur fuel h tmp (calls ++ called)

/-- `tick` at the time `cur`.  A callback that does not touch the heap leaves one entry less to go,
so there are no more rounds than entries. -/
def tick (call : κ → TimeHeap κ → Option (TimeHeap κ)) (cur : ℤ) (h : TimeHeap κ) :
    Option (TimeHeap κ × List (ℕ × κ)) := do
  let tmp ← h.read 0
  tickLoop call cur (h.curSize + 1) h tmp []

/-- A callback that does not touch the heap. -/
def inert (_ : κ) (h : TimeHeap κ) : Option (TimeHeap κ) := some h

/-- `new heap_timer` with its time of expiry and its callback, and `add_timer` with it. -/
def addNew (h : TimeHeap κ) (expire : ℤ) (callback : κ) : Option (ℕ × TimeHeap κ) := do
  let (timer, mem) := h.mem.new ⟨expire, some callback⟩
  let h ← addTimer { h with mem } (some timer)
  some (timer, h)

end TimeHeap
end Timers
end CModel
