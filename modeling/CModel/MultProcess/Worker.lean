import CModel.Foundation.System
import CModel.MultProcess.HandlerSteps

/-!
# A worker and its events

`process_clients` of `server.c`, with `process_accept` and `process_close` of `conn_process.c`.

* `Worker`: the pool, what `epoll` watches, and the events that are still to be handled.  With it
  goes a ledger: which contexts are in use, for which of them a descriptor is open, and what has
  gone wrong.
* `processAccept`, `processClose`, `Worker.free`.
* `processClientsInit`: the worker when it enters its loop.
* `worker`: the loop, with any batch that `epoll_wait` can return, and any results of the system
  calls.
* `Separate`: a handler that closes its connection leaves no other event for it in the batch.
* `AcceptSpec`, `CallSpec`: what `process_accept` and the call for an event can come to.
-/

namespace CModel
namespace MultProcess

/-- `MAX_CONNS_PER_WORKER` -/
def maxConnsPerWorker : ℕ := 8192

/-- `EVENTS_PER_BATCH` -/
def eventsPerBatch : ℕ := 64

/-- `EPOLLIN | EPOLLHUP | EPOLLERR` -/
def inHupErr : BitVec 32 := epollIn ||| hupErr

/-- A descriptor that `epoll` watches, with `evt.data.ptr` and `evt.events`. -/
structure Registration where
  fd : ℤ
  ctx : ℕ
  mask : BitVec 32

/-- An event of a batch; the worker does not get to see the descriptor. -/
structure Event where
  fd : ℤ
  ctx : ℕ
  events : BitVec 32

/-- What must not happen. -/
inductive Fault where
  /-- a handler is called with a context that does not belong to the descriptor of the event -/
  | stale
  /-- `free_context` is called with a context that is not in use -/
  | doubleFree
  /-- `close` is called with a descriptor that is not open for the context -/
  | badClose
  deriving DecidableEq

/-- A worker process. -/
structure Worker where
  pool : ContextPool
  /-- the static variable of `select_backend` -/
  last : ℕ
  interest : List Registration
  /-- the events of `evts` that have not been handled -/
  batch : List Event
  /-- which counters of `wdata` have been increased, and at which index -/
  counted : List (ℤ × Counter)
  /-- the contexts that have been taken from the pool and not given back -/
  inUse : List ℕ
  /-- the context for which a descriptor is open -/
  owner : ℤ → Option ℕ
  faults : List Fault

/-- The descriptors of a context; `end_fd` stands for none when it is 0. -/
def ConnContext.fds (c : ConnContext) : List ℤ := if c.endFd = 0 then [c.fd] else [c.fd, c.endFd]

/-! ## Descriptors and contexts -/

/-- A context with new contents. -/
def Worker.setContext (w : Worker) (i : ℕ) (c : ConnContext) : Worker :=
  { w with pool := { w.pool with arr := w.pool.arr.set i c } }

/-- What is counted. -/
def Worker.count (w : Worker) (cpuId : ℤ) (counter : Option Counter) : Worker :=
  { w with counted := w.counted ++ counter.toList.map fun k => (cpuId, k) }

/-- What an operation on behalf of a context does. -/
def Worker.op (i : ℕ) (w : Worker) : Op → Worker
  | .opened fd => { w with owner := Function.update w.owner fd (some i) }
  | .add fd mask => { w with interest := w.interest ++ [⟨fd, i, mask⟩] }
  | .mod fd mask =>
    { w with interest := w.interest.map fun g => if g.fd = fd then ⟨fd, i, mask⟩ else g }
  | _ => w

/-- `EPOLL_CTL_DEL` -/
def Worker.del (w : Worker) (fd : ℤ) : Worker :=
  { w with interest := w.interest.filter fun g => g.fd ≠ fd }

/-- `close`, with which a descriptor is not watched any longer. -/
def Worker.close (w : Worker) (i : ℕ) (fd : ℤ) : Worker :=
  { w.del fd with
    owner := Function.update w.owner fd none
    faults := if w.owner fd = some i then w.faults else .badClose :: w.faults }

/-- `process_close` of the context `i`, which holds `c`. -/
def processClose (w : Worker) (i : ℕ) (c : ConnContext) : Worker :=
  let w := if c.fdAdded then w.del c.fd else w
  let w := w.close i c.fd
  if c.endFd = 0 then w
  else
    let w := if c.endFdAdded then w.del c.endFd else w
    w.close i c.endFd

/-- `free_context` -/
def Worker.free (w : Worker) (i : ℕ) : Option Worker := do
  let pool ← freeContext w.pool i
  some
    { w with
      pool
      inUse := w.inUse.erase i
      faults := if i ∈ w.inUse then w.faults else .doubleFree :: w.faults }

/-- `alloc_context` and the descriptor that the context is for. -/
def Worker.take (w : Worker) (fd : ℤ) : Option (ℕ × ConnContext × Worker) := do
  let (i, pool) ← allocContext w.pool
  let c ← pool.arr[i]?
  some (i, c, { w with pool, inUse := i :: w.inUse }.op i (.opened fd))

/-! ## Accepting -/

/-- The fields that `process_accept` copies from the context of the listener. -/
def ConnContext.accepted (c listenCtx : ConnContext) (clientFd : ℤ) : ConnContext :=
  let c := { c with fd := clientFd, cpuId := listenCtx.cpuId, epFd := listenCtx.epFd }
  if listenCtx.enableProxy then
    { c with handler := .processReadFrontend, enableProxy := true, pa := listenCtx.pa }
  else { c with handler := .processRead }

/-- `process_accept`, which accepts `ACCEPT_PER_LISTEN_EVENT` = 1 connection. -/
def processAccept (w : Worker) (listenCtx : ConnContext) (r : Results) : Option Worker :=
  if isHupErr listenCtx.events then some w
  else if r.accept < 0 then some (w.count listenCtx.cpuId (some .acceptCnt))
  else do
    let (i, c, w) ← w.take r.accept
    let c := c.accepted listenCtx r.accept
    let w := w.setContext i c
    if !r.ctl₁ then (processClose w i c).free i
    else some ((w.op i (.add r.accept inHupErr)).setContext i { c with fdAdded := true })

/-! ## The loop -/

/-- The worker behind a call of the handler of a connection. -/
def Worker.after (w : Worker) (i : ℕ) (c : Call) : Worker :=
  let w := (c.ops.foldl (Worker.op i) w).setContext i c.ctx
  { w with last := c.last }.count c.ctx.cpuId c.counter

/-- The end of a handler. -/
def Worker.into (w : Worker) (i : ℕ) : Handled → Option Worker
  | .back c => some (w.after i c)
  | .freeBack c => (processClose (w.after i c) i c.ctx).free i

/-- The call of the handler for one event. -/
def Worker.dispatch (w : Worker) (ev : Event) (r : Results) : Option Worker := do
  let c ← w.pool.arr[ev.ctx]?
  let ctx := { c with events := ev.events }
  let w := { w.setContext ev.ctx ctx with
    faults := if ev.ctx ∈ w.inUse ∧ ev.fd ∈ c.fds then w.faults else .stale :: w.faults }
  if ctx.handler = .processAccept then processAccept w ctx r
  else (handle ⟨ctx, w.last, [], none⟩ r).bind (w.into ev.ctx)

/-- The globals that `process_clients` reads, and the descriptor of `epoll`. -/
structure Globals where
  /-- the `listen_fd` of the addresses in `la` -/
  la : List ℤ
  pa : List ProxyAddr
  enableProxy : Bool
  cpuId : ℤ
  epFd : ℤ

/-- The context of a listener; the addresses are only copied for a proxy. -/
def ConnContext.listens (c : ConnContext) (g : Globals) (fd : ℤ) : ConnContext :=
  { c with
    fd
    handler := .processAccept
    cpuId := g.cpuId
    epFd := g.epFd
    enableProxy := g.enableProxy
    pa := if g.enableProxy then g.pa else c.pa }

/-- A listener is added to `epoll`. -/
def Worker.listen (g : Globals) (w : Worker) (fd : ℤ) : Option Worker := do
  let (i, c, w) ← w.take fd
  some ((w.setContext i (c.listens g fd)).op i (.add fd inHupErr))

/-- `process_clients` up to its loop; `memory` is what `malloc` finds in the pool. -/
def processClientsInit (g : Globals) (memory : List ConnContext) : Option Worker := do
  let pool ← initPool memory
  g.la.foldlM (Worker.listen g) ⟨pool, 0, [], [], [], [], fun _ => none, []⟩

/-- What happens in the loop of `process_clients`. -/
inductive WorkerEvent where
  /-- `epoll_wait` returns events -/
  | wait (evts : List Event)
  /-- the handler of the next event is called -/
  | call (r : Results)

/-- A batch has at most one event for a descriptor that is watched, with some of the bits that it is
watched for, or `EPOLLHUP` or `EPOLLERR`; a descriptor that is opened has not been open. -/
def Worker.Enabled (w : Worker) : WorkerEvent → Prop
  | .wait evts => w.batch = [] ∧ evts.length ≤ eventsPerBatch ∧ (evts.map Event.fd).Nodup ∧
      ∀ ev ∈ evts, ∃ g ∈ w.interest, g.fd = ev.fd ∧ g.ctx = ev.ctx ∧
        ev.events &&& ~~~(g.mask ||| hupErr) = 0
  | .call r => (0 ≤ r.accept → w.owner r.accept = none) ∧ (0 ≤ r.socket → w.owner r.socket = none)

/-- One step of the loop. -/
def Worker.step (w : Worker) : WorkerEvent → Option Worker
  | .wait evts => some { w with batch := evts }
  | .call r =>
    match w.batch with
    | [] => none
    | ev :: rest => { w with batch := rest }.dispatch ev r

/-- The loop of `process_clients`. -/
def worker : System Worker WorkerEvent := ⟨Worker.Enabled, Worker.step⟩

/-- Where the handler of an event closes its connection, no event behind it is for the same
connection; and the descriptor of a back end is not 0. -/
def Separate (w : Worker) : WorkerEvent → Prop
  | .wait _ => True
  | .call r => ∀ ev rest c, w.batch = ev :: rest → w.pool.arr[ev.ctx]? = some c →
      (Closes { c with events := ev.events } r → ∀ ev' ∈ rest, ev'.ctx ≠ ev.ctx) ∧
      (Opens { c with events := ev.events } r → r.socket ≠ 0)

/-- Nothing has gone wrong, and a descriptor that is open belongs to a context that is in use. -/
def Worker.Sound (w : Worker) : Prop :=
  w.faults = [] ∧ ∀ fd i, w.owner fd = some i → i ∈ w.inUse

/-! ## What a step can come to -/

variable {w w' : Worker} {listenCtx : ConnContext} {r : Results}

/-- `process_accept` -/
inductive AcceptSpec (w : Worker) (listenCtx : ConnContext) (r : Results) : Worker → Prop where
  | hangsUp (hhup : isHupErr listenCtx.events = true) : AcceptSpec w listenCtx r w
  | fails (neg : r.accept < 0) :
      AcceptSpec w listenCtx r (w.count listenCtx.cpuId (some .acceptCnt))
  | closes {i : ℕ} {c : ConnContext} {w₁ w' : Worker} (pos : 0 ≤ r.accept)
      (take : w.take r.accept = some (i, c, w₁))
      (free : (processClose (w₁.setContext i (c.accepted listenCtx r.accept)) i
        (c.accepted listenCtx r.accept)).free i = some w') : AcceptSpec w listenCtx r w'
  | accepts {i : ℕ} {c : ConnContext} {w₁ : Worker} (pos : 0 ≤ r.accept)
      (take : w.take r.accept = some (i, c, w₁)) :
      AcceptSpec w listenCtx r (((w₁.setContext i (c.accepted listenCtx r.accept)).op i
        (.add r.accept inHupErr)).setContext i
          { c.accepted listenCtx r.accept with fdAdded := true })

theorem acceptSpec (h : processAccept w listenCtx r = some w') : AcceptSpec w listenCtx r w' := by
  unfold processAccept at h
  split at h
  · next hhup => exact Option.some.inj h ▸ .hangsUp hhup
  split at h
  · next hneg => exact Option.some.inj h ▸ .fails hneg
  next hneg =>
  have hpos : 0 ≤ r.accept := Int.not_lt.mp hneg
  simp only [Option.bind_eq_bind, Option.bind_eq_some_iff] at h
  obtain ⟨⟨i, c, w₁⟩, htake, h⟩ := h
  simp only at h
  split at h
  · exact .closes hpos htake h
  · exact Option.some.inj h ▸ .accepts hpos htake

/-- The worker when the event `ev` has been noted in its context, which holds `c`. -/
def Worker.noted (w : Worker) (ev : Event) (rest : List Event) (c : ConnContext) : Worker :=
  { w.setContext ev.ctx { c with events := ev.events } with
    batch := rest
    faults := if ev.ctx ∈ w.inUse ∧ ev.fd ∈ c.fds then w.faults else .stale :: w.faults }

/-- The next event is handled. -/
theorem Worker.step_call {ev : Event} {rest : List Event} {c : ConnContext}
    (hbatch : w.batch = ev :: rest) (hc : w.pool.arr[ev.ctx]? = some c) :
    w.step (.call r) =
      if c.handler = .processAccept then
        processAccept (w.noted ev rest c) { c with events := ev.events } r
      else (handle ⟨{ c with events := ev.events }, w.last, [], none⟩ r).bind
        ((w.noted ev rest c).into ev.ctx) := by
  simp only [Worker.step, hbatch, Worker.dispatch, hc, Option.bind_eq_bind, Option.bind_some]
  rfl

/-- The call for an event -/
inductive CallSpec (w : Worker) (r : Results) (w' : Worker) : Prop where
  | accepts {ev : Event} {rest : List Event} {c : ConnContext} (batch : w.batch = ev :: rest)
      (ctx : w.pool.arr[ev.ctx]? = some c) (handler : c.handler = .processAccept)
      (accept : processAccept (w.noted ev rest c) { c with events := ev.events } r = some w')
  | handles {ev : Event} {rest : List Event} {c : ConnContext} {h : Handled}
      (batch : w.batch = ev :: rest) (ctx : w.pool.arr[ev.ctx]? = some c)
      (handler : c.handler ≠ .processAccept)
      (handle : handle ⟨{ c with events := ev.events }, w.last, [], none⟩ r = some h)
      (into : (w.noted ev rest c).into ev.ctx h = some w')

theorem callSpec (hstep : w.step (.call r) = some w') : CallSpec w r w' := by
  cases hbatch : w.batch with
  | nil => simp [Worker.step, hbatch] at hstep
  | cons ev rest =>
    cases hc : w.pool.arr[ev.ctx]? with
    | none => simp [Worker.step, hbatch, Worker.dispatch, hc] at hstep
    | some c =>
      rw [Worker.step_call hbatch hc] at hstep
      split at hstep
      · next hhandler => exact .accepts hbatch hc hhandler hstep
      · next hhandler =>
        obtain ⟨h, hh, hinto⟩ := Option.bind_eq_some_iff.mp hstep
        exact .handles hbatch hc hhandler hh hinto

end MultProcess
end CModel
