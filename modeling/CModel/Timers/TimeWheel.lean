import CModel.Foundation.Links
import CModel.Foundation.Store
import Mathlib.Algebra.GroupWithZero.Nat
import Mathlib.Data.Fin.Basic
import Mathlib.Data.Int.Order.Basic

/-!
# `time_wheel.h`

A wheel of sixty slots, each with a doubly linked list of timers.  A timer waits for the wheel to
come to its slot, and to go round `rotation` times more.  The C++ variant, `TimeWheel.h`, differs in
the callback only, which is a handler there.

* `TwTimer`, `TimeWheel`: `tw_timer` and `time_wheel`.  A timer is an address in a `Store`, so that
  one that has been deleted can be told from one that is there; what a `NULL` pointer or an address
  of no timer is used for is undefined, which is `none`.
* `addTimer`, `delTimer`, `tick`.  What a callback does to the wheel is a parameter of `tick`, which
  also tells which callbacks it has run.
-/

namespace CModel
namespace Timers

variable {κ : Type}

/-! ## The data -/

/-- A wheel has slots. -/
scoped instance neZero_slots : NeZero 60 := ⟨by decide⟩

/-- What a timer has besides its place in a list.  The callback stands for `cb_func` and
`user_data`. -/
structure TwData (κ : Type) where
  rotation : ℤ
  timeSlot : Fin 60
  callback : κ

/-- `tw_timer` -/
structure TwTimer (κ : Type) extends TwData κ, Link ℕ

/-- `time_wheel`, with the timers that there are. -/
structure TimeWheel (κ : Type) where
  mem : Store (TwTimer κ)
  slots : Fin 60 → Option ℕ
  curSlot : Fin 60

namespace TimeWheel

/-- `time_wheel()` -/
def new : TimeWheel κ := ⟨.empty, fun _ => none, 0⟩

/-- `p->prev = prev`, where `p` is not `NULL`. -/
def setPrev (mem : Store (TwTimer κ)) (p prev : Option ℕ) : Option (Store (TwTimer κ)) :=
  match p with
  | none => some mem
  | some p => mem.modify p fun t => { t with prev := prev }

/-! ## Operations -/

/-- The second half of `add_timer`: a new timer with a rotation and a slot, in front of the list of
its slot. -/
def pushTimer (w : TimeWheel κ) (d : TwData κ) : Option (Option ℕ × TimeWheel κ) :=
  let (timer, mem) := w.mem.new ⟨d, ⟨none, none⟩⟩
  let slots := Function.update w.slots d.timeSlot (some timer)
  match w.slots d.timeSlot with
  | none => some (some timer, { w with mem, slots })
  | some head => do
    let mem ← mem.modify timer fun t => { t with next := some head }
    let mem ← setPrev mem (some head) (some timer)
    some (some timer, { w with mem, slots })

/-- `add_timer`: the new timer, or `NULL`, and the wheel. -/
def addTimer (w : TimeWheel κ) (timeout : ℤ) (callback : κ) :
    Option (Option ℕ × TimeWheel κ) :=
  if timeout < 0 then some (none, w)
  else
    let ticks := if timeout < 1 then 1 else timeout.toNat
    let rotation := ticks / 60
    let ts := Fin.ofNat 60 (w.curSlot + ticks % 60)
    pushTimer w ⟨rotation, ts, callback⟩

/-- `del_timer` -/
def delTimer (w : TimeWheel κ) : Option ℕ → Option (TimeWheel κ)
  | none => some w
  | some timer => do
    let t ← w.mem.cell timer
    let ts := t.timeSlot
    if w.slots ts = some timer then
      let mem ← setPrev w.mem t.next none
      let mem ← mem.delete timer
      some { w with mem, slots := Function.update w.slots ts t.next }
    else
      let prev ← t.prev
      let mem ← w.mem.modify prev fun t' => { t' with next := t.next }
      let t ← mem.cell timer
      let mem ← setPrev mem t.next t.prev
      let mem ← mem.delete timer
      some { w with mem }

/-- The removal of a timer that `tick` has run the callback of, and the timer that comes next. -/
def removeFired (w : TimeWheel κ) (tmp : ℕ) : Option (TimeWheel κ × Option ℕ) := do
  let t ← w.mem.cell tmp
  if w.slots w.curSlot = some tmp then
    let mem ← w.mem.delete tmp
    let mem ← setPrev mem t.next none
    some ({ w with mem, slots := Function.update w.slots w.curSlot t.next }, t.next)
  else
    let prev ← t.prev
    let mem ← w.mem.modify prev fun t' => { t' with next := t.next }
    let t ← mem.cell tmp
    let mem ← setPrev mem t.next t.prev
    let t ← mem.cell tmp
    let mem ← mem.delete tmp
    some ({ w with mem }, t.next)

/-- One round of the loop of `tick`: the wheel, the timer that comes next, and the callback that it
has run, with its timer. -/
def tickStep (call : κ → TimeWheel κ → Option (TimeWheel κ)) (w : TimeWheel κ) (tmp : ℕ) :
    Option (TimeWheel κ × Option ℕ × List (ℕ × κ)) := do
  let t ← w.mem.cell tmp
  if 0 < t.rotation then
    let mem ← w.mem.modify tmp fun t' => { t' with rotation := t'.rotation - 1 }
    some ({ w with mem }, t.next, [])
  else
    let w ← call t.callback w
    let (w, next) ← removeFired w tmp
    some (w, next, [(tmp, t.callback)])

/-- The loop of `tick`, for `fuel` rounds at most. -/
def tickLoop (call : κ → TimeWheel κ → Option (TimeWheel κ)) :
    (fuel : ℕ) → TimeWheel κ → Option ℕ → List (ℕ × κ) →
      Option (TimeWheel κ × List (ℕ × κ))
  | 0, _, _, _ => none
  | _ + 1, w, none, calls => some (w, calls)
  | fuel + 1, w, some tmp, calls => do
    let (w, tmp, called) ← tickStep call w tmp
    tickLoop call fuel w tmp (calls ++ called)

/-- `tick`.  The loop visits no timer twice, so it is over in as many rounds as there have ever
been timers. -/
def tick (call : κ → TimeWheel κ → Option (TimeWheel κ)) (w : TimeWheel κ) :
    Option (TimeWheel κ × List (ℕ × κ)) := do
  let (w, calls) ← tickLoop call (w.mem.next + 1) w (w.slots w.curSlot) []
  some ({ w with curSlot := w.curSlot + 1 }, calls)

/-- A callback that does not touch the wheel. -/
def inert (_ : κ) (w : TimeWheel κ) : Option (TimeWheel κ) := some w

end TimeWheel
end Timers
end CModel
