import CModel.Foundation.System
import Mathlib.Data.Int.Order.Basic

/-!
# The thread pool with a semaphore

`threadpool.h` of the C++ implementation: a list of requests behind a mutex, and a semaphore that
tells the workers of them.

* `Pool`: the members of `threadpool`, without the mutex, and the threads that run in it.
* `Pool.append`, `Pool.take`: what `append` and `run` do while they have the mutex.
* `World`, `Event`, `pool`: any number of calls of `append` and the worker threads; one step is a
  critical section of the queue, a `post` or a `wait` of the semaphore.
-/

namespace CModel
namespace SemaphorePool

variable {ρ : Type}

/-- `threadpool`; a request is a pointer to a `ρ`, or the null pointer. -/
structure Pool (ρ : Type) where
  maxRequests : ℤ
  workqueue : List (Option ρ)
  queuestat : ℕ
  stop : Bool

/-- `append` from where it has the mutex; the request is not taken when the queue is too long. -/
def Pool.append (pool : Pool ρ) (request : Option ρ) : Option (Pool ρ) :=
  if (pool.workqueue.length : ℤ) > pool.maxRequests then none
  else some { pool with workqueue := pool.workqueue ++ [request] }

/-- `run` from where it has the mutex; nothing when the queue is empty. -/
def Pool.take (pool : Pool ρ) : Option (Option ρ × Pool ρ) :=
  match pool.workqueue with
  | [] => none
  | request :: rest => some (request, { pool with workqueue := rest })

/-- Where a call of `append` is. -/
inductive Appender (ρ : Type) where
  | start (request : Option ρ)
  /-- behind `push_back`, before `post` -/
  | pushed
  | returned (result : Bool)

/-- Where a thread in `run` is. -/
inductive Worker (ρ : Type) where
  /-- at the top of the loop -/
  | idle
  /-- at `wait` -/
  | waiting
  /-- behind `wait`, before it has the mutex -/
  | awake
  /-- in `process` of a request -/
  | running (request : ρ)
  | exited

/-- Where a worker goes with a request; a null pointer is skipped. -/
def Worker.process : Option ρ → Worker ρ
  | none => .idle
  | some request => .running request

/-- The pool and its threads.  The last three are for the statements: the requests in the order in
which they have been pushed and popped, and how often a worker has found the queue empty. -/
structure World (ρ : Type) where
  pool : Pool ρ
  appenders : List (Appender ρ)
  workers : List (Worker ρ)
  pushed : List (Option ρ)
  popped : List (Option ρ)
  foundEmpty : ℕ

/-- The constructor, which throws an exception where there are to be no threads or no requests. -/
def construct (threadNumber maxRequests : ℤ) : Option (World ρ) :=
  if threadNumber ≤ 0 ∨ maxRequests ≤ 0 then none
  else
    some
      { pool := { maxRequests, workqueue := [], queuestat := 0, stop := false }
        appenders := []
        workers := List.replicate threadNumber.toNat .idle
        pushed := []
        popped := []
        foundEmpty := 0 }

/-- What can happen next. -/
inductive Event (ρ : Type) where
  /-- somebody calls `append` -/
  | call (request : Option ρ)
  /-- the call `i` of `append` gets the mutex -/
  | push (i : ℕ)
  /-- the call `i` of `append` posts -/
  | post (i : ℕ)
  /-- the thread `k` looks at `m_stop` -/
  | check (k : ℕ)
  /-- the thread `k` comes back from `wait` -/
  | wait (k : ℕ)
  /-- the thread `k` gets the mutex -/
  | pop (k : ℕ)
  /-- the thread `k` comes back from `process` -/
  | finish (k : ℕ)

/-- What can happen in a world. -/
def Enabled (w : World ρ) : Event ρ → Prop
  | .call _ => True
  | .push i => ∃ request, w.appenders[i]? = some (.start request)
  | .post i => w.appenders[i]? = some .pushed
  | .check k => w.workers[k]? = some .idle
  | .wait k => w.workers[k]? = some .waiting ∧ 0 < w.pool.queuestat
  | .pop k => w.workers[k]? = some .awake
  | .finish k => ∃ request, w.workers[k]? = some (.running request)

/-- One event; it is always defined. -/
def step (w : World ρ) : Event ρ → Option (World ρ)
  | .call request => some { w with appenders := w.appenders ++ [.start request] }
  | .push i =>
    match w.appenders[i]? with
    | some (.start request) =>
      match w.pool.append request with
      | none => some { w with appenders := w.appenders.set i (.returned false) }
      | some pool =>
        some { w with
          pool
          appenders := w.appenders.set i .pushed
          pushed := w.pushed ++ [request] }
    | _ => some w
  | .post i =>
    some { w with
      pool := { w.pool with queuestat := w.pool.queuestat + 1 }
      appenders := w.appenders.set i (.returned true) }
  | .check k =>
    some { w with workers := w.workers.set k (if w.pool.stop then .exited else .waiting) }
  | .wait k =>
    some { w with
      pool := { w.pool with queuestat := w.pool.queuestat - 1 }
      workers := w.workers.set k .awake }
  | .pop k =>
    match w.pool.take with
    | none =>
      some { w with workers := w.workers.set k .idle, foundEmpty := w.foundEmpty + 1 }
    | some (request, pool) =>
      some { w with
        pool
        workers := w.workers.set k (.process request)
        popped := w.popped ++ [request] }
  | .finish k => some { w with workers := w.workers.set k .idle }

/-- The pool with its threads. -/
def pool (ρ : Type) : System (World ρ) (Event ρ) := ⟨Enabled, step⟩

end SemaphorePool
end CModel
