import CModel.Foundation.System
import Mathlib.Data.Int.Order.Basic

/-!
# The process pool

`processpool.h`: a parent that is told of connections on the listening socket, and children that it
tells of them through a pipe each; the connections are accepted by the children.  Both sides are
told by an `epoll` instance of their own, edge-triggered.

* `Child`, `World`: the parent, its children with their pipes, and the listening socket.
* `findChild`: the search of `run_parent` for the next child.
* `Event`, `Enabled`, `step`, `pool`: an arrival, a return from `epoll_wait`, or a step in the
  handler of an event.  Whatever arrives on a descriptor before its owner calls `epoll_wait` makes
  one event.
-/

namespace CModel
namespace ProcessPool

/-- Where a child is with the event of its pipe. -/
inductive Place where
  | idle
  /-- `epoll_wait` has returned the event -/
  | reported
  /-- behind `recv`, before `accept` -/
  | received
  deriving DecidableEq

/-- A child: `m_pid` in the parent, the notifications in its pipe, whether they are more than the
last `epoll_wait` has told, and where it is. -/
structure Child where
  pid : ℤ
  pipe : ℕ
  ready : Bool
  place : Place

/-- The parent with its children.  The last two are for the statements: how many connections have
arrived and have been accepted. -/
structure World where
  /-- the connections on `m_listenfd` that nobody has accepted -/
  backlog : ℕ
  /-- whether something has arrived since the last `epoll_wait` of the parent -/
  ready : Bool
  /-- whether the parent has an event of `m_listenfd` to handle -/
  reported : Bool
  subProcessCounter : ℕ
  stop : Bool
  children : List Child
  arrived : ℕ
  accepted : ℕ

/-- The parent and its children before their first `epoll_wait`. -/
def World.init (pids : List ℤ) : World where
  backlog := 0
  ready := false
  reported := false
  subProcessCounter := 0
  stop := false
  children := pids.map fun pid => ⟨pid, 0, false, .idle⟩
  arrived := 0
  accepted := 0

/-- The `do` loop of `run_parent`, from `i` on: the next child whose `m_pid` is not `-1`, or the
first one again. -/
def findChild (children : List Child) (counter : ℕ) : ℕ → ℕ → ℕ
  | 0, i => i
  | fuel + 1, i =>
    if (children[i]?.map Child.pid) ≠ some (-1) then i
    else
      let i := (i + 1) % children.length
      if i = counter then i else findChild children counter fuel i

/-- The child that gets the next notification. -/
def World.next (w : World) : ℕ :=
  findChild w.children w.subProcessCounter w.children.length w.subProcessCounter

/-- What can happen next. -/
inductive Event where
  /-- a connection arrives -/
  | arrive
  /-- `epoll_wait` of the parent returns -/
  | parentWait
  /-- the parent handles the event of `m_listenfd` -/
  | dispatch
  /-- `epoll_wait` of the child `i` returns, with the event of its pipe -/
  | childWait (i : ℕ)
  /-- the child `i` receives a notification -/
  | receive (i : ℕ)
  /-- the child `i` accepts a connection -/
  | accept (i : ℕ)

/-- What can happen in a world. -/
def Enabled (w : World) : Event → Prop
  | .arrive => True
  | .parentWait => w.stop = false ∧ w.reported = false ∧ w.ready = true
  | .dispatch => w.reported = true
  | .childWait i => ∃ c, w.children[i]? = some c ∧ c.place = .idle ∧ c.ready = true
  | .receive i => ∃ c, w.children[i]? = some c ∧ c.place = .reported
  | .accept i => ∃ c, w.children[i]? = some c ∧ c.place = .received

/-- What the parent does with the event of `m_listenfd`. -/
def World.dispatch (w : World) : Option World :=
  match w.children[w.next]? with
  | none => none
  | some c =>
    -- no child is left
    if c.pid = -1 then some { w with reported := false, stop := true }
    else
      some { w with
        reported := false
        subProcessCounter := (w.next + 1) % w.children.length
        children := w.children.set w.next { c with pipe := c.pipe + 1, ready := true } }

/-- The world with the child `i` changed. -/
def World.modify (w : World) (i : ℕ) (f : Child → Child) : World :=
  { w with children := w.children.modify i f }

/-- One event; undefined where the parent has no child to look at. -/
def step (w : World) : Event → Option World
  | .arrive =>
    some { w with backlog := w.backlog + 1, ready := true, arrived := w.arrived + 1 }
  | .parentWait => some { w with ready := false, reported := true }
  | .dispatch => w.dispatch
  | .childWait i => some (w.modify i fun c => { c with ready := false, place := .reported })
  | .receive i =>
    some (w.modify i fun c =>
      -- an empty pipe is `EAGAIN`, which does not keep the child from `accept`
      { c with pipe := c.pipe - 1, place := .received })
  | .accept i =>
    let w := w.modify i fun c => { c with place := .idle }
    -- without a connection `accept` fails
    if w.backlog = 0 then some w
    else some { w with backlog := w.backlog - 1, accepted := w.accepted + 1 }

/-- The parent and its children. -/
def pool : System World Event := ⟨Enabled, step⟩

end ProcessPool
end CModel
