import CModel.Foundation.Store
import Mathlib.Data.Int.Order.Basic

/-!
# The thread pool

`threadpool.c` of the C implementation: a bounded queue of jobs as a singly linked list, worker
threads that take the jobs from it, and two flags by which the pool is closed.

* `Pool`, `Job`: the structures of `threadpool.h`, without the mutex and the condition variables.
* `threadpoolAddJob`, `threadpoolFunction`, `threadpoolDestroy`: what the three functions do from
  where they have the mutex to where they give it back, or wait.
* `World`, `Event`, `Enabled`, `step`: any number of threads in these functions, one critical
  section after the other in any order.  A thread that waits on a condition variable remembers
  whether it has been woken; it may also go on without.
-/

namespace CModel
namespace ThreadPool

variable {κ : Type}

/-- `struct job`; `call` is the callback with its argument. -/
structure Job (κ : Type) where
  call : κ
  next : Option ℕ

/-- `struct threadpool`, with the memory its jobs are in. -/
structure Pool (κ : Type) where
  mem : Store (Job κ)
  threadNum : ℤ
  queueMaxNum : ℤ
  head : Option ℕ
  tail : Option ℕ
  queueCurNum : ℤ
  queueClose : Bool
  poolClose : Bool

/-- `threadpool_init` -/
def threadpoolInit (threadNum queueMaxNum : ℤ) : Pool κ where
  mem := Store.empty
  threadNum := threadNum
  queueMaxNum := queueMaxNum
  head := none
  tail := none
  queueCurNum := 0
  queueClose := false
  poolClose := false

/-! ## Critical sections -/

/-- What a critical section of `threadpool_add_job` ends with. -/
inductive Adding (κ : Type) where
  /-- `pthread_cond_wait` on `queue_not_full` -/
  | wait
  /-- `return -1;` -/
  | refused
  /-- `return 0;` with the job at `pjob`, and whether `queue_not_empty` is broadcast -/
  | added (pjob : ℕ) (notEmpty : Bool) (pool : Pool κ)

/-- `threadpool_add_job` from where it has the mutex; `malloc` says whether there is memory. -/
def threadpoolAddJob (pool : Pool κ) (call : κ) (malloc : Bool) : Option (Adding κ) :=
  if pool.queueCurNum = pool.queueMaxNum ∧ ¬(pool.queueClose ∨ pool.poolClose) then some .wait
  else if pool.queueClose ∨ pool.poolClose then some .refused
  else if !malloc then some .refused
  else
    let (pjob, mem) := pool.mem.new ⟨call, none⟩
    match pool.head with
    | none =>
      some (.added pjob true
        { pool with
          mem, head := some pjob, tail := some pjob, queueCurNum := pool.queueCurNum + 1 })
    | some _ => do
      let tail ← pool.tail
      let mem ← mem.modify tail fun j => { j with next := some pjob }
      some (.added pjob false
        { pool with mem, tail := some pjob, queueCurNum := pool.queueCurNum + 1 })

/-- What a critical section of `threadpool_function` ends with. -/
inductive Taking (κ : Type) where
  /-- `pthread_cond_wait` on `queue_not_empty` -/
  | wait
  /-- `pthread_exit` -/
  | exit
  /-- the job at `pjob`, whether `queue_empty` is signalled and `queue_not_full` broadcast -/
  | taken (pjob : ℕ) (call : κ) (empty notFull : Bool) (pool : Pool κ)

/-- `threadpool_function` from where it has the mutex, to where it has a job or gives up. -/
def threadpoolFunction (pool : Pool κ) : Option (Taking κ) :=
  if pool.queueCurNum = 0 ∧ ¬pool.poolClose then some .wait
  else if pool.poolClose then some .exit
  else do
    let cur := pool.queueCurNum - 1
    let pjob ← pool.head
    let job ← pool.mem.cell pjob
    some (.taken pjob job.call (cur = 0) (cur = pool.queueMaxNum - 1)
      { pool with
        queueCurNum := cur
        head := if cur = 0 then none else job.next
        tail := if cur = 0 then none else pool.tail })

/-- What a critical section of `threadpool_destroy` ends with. -/
inductive Closing (κ : Type) where
  /-- `return -1;` -/
  | refused
  /-- `pthread_cond_wait` on `queue_empty` -/
  | wait (pool : Pool κ)
  | closed (pool : Pool κ)

/-- The loop of `threadpool_destroy` that waits for the queue to be empty. -/
def awaitEmpty (pool : Pool κ) : Closing κ :=
  if pool.queueCurNum ≠ 0 then .wait pool else .closed { pool with poolClose := true }

/-- `threadpool_destroy` from its first lock. -/
def threadpoolDestroy (pool : Pool κ) : Closing κ :=
  if pool.queueClose ∨ pool.poolClose then .refused
  else awaitEmpty { pool with queueClose := true }

/-- The loop of `threadpool_destroy` that frees the jobs that are left.  Each round deletes a node,
so there are at most as many rounds as addresses. -/
def freeJobs : ℕ → Pool κ → Option (Pool κ)
  | 0, _ => none
  | fuel + 1, pool =>
    match pool.head with
    | none => some pool
    | some p => do
      let job ← pool.mem.cell p
      let mem ← pool.mem.delete p
      freeJobs fuel { pool with head := job.next, mem }

/-! ## The threads -/

/-- Where a call of `threadpool_add_job` is. -/
inductive Adder where
  | start
  /-- on `queue_not_full`, woken or not -/
  | waiting (notified : Bool)
  | returned (code : ℤ)

/-- Where a thread in `threadpool_function` is. -/
inductive Worker where
  /-- at the top of the loop -/
  | idle
  /-- on `queue_not_empty`, woken or not -/
  | waiting (notified : Bool)
  /-- in the callback of a job -/
  | running (pjob : ℕ)
  | exited

/-- Where a call of `threadpool_destroy` is. -/
inductive Destroyer where
  | start
  /-- on `queue_empty`, woken or not -/
  | waiting (notified : Bool)
  /-- `pool_close` is set -/
  | closed
  /-- `queue_not_empty` has been broadcast -/
  | notEmptySent
  /-- `queue_not_full` has been broadcast as well, the threads before `i` have been joined -/
  | joining (i : ℕ)
  | returned (code : ℤ)

/-- The pool and its threads.  The last three are for the statements: the jobs in the order in
which they have been added, taken from the queue, and carried out. -/
structure World (κ : Type) where
  pool : Pool κ
  freed : Bool
  adders : ℕ → Adder
  workers : ℕ → Worker
  destroyers : ℕ → Destroyer
  accepted : List (ℕ × κ)
  dequeued : List (ℕ × κ)
  completed : List (ℕ × κ)

/-- `threadpool_init` has returned, nothing else has happened. -/
def World.init (threadNum queueMaxNum : ℤ) : World κ where
  pool := threadpoolInit threadNum queueMaxNum
  freed := false
  adders _ := .start
  workers _ := .idle
  destroyers _ := .start
  accepted := []
  dequeued := []
  completed := []

/-- A thread that is woken, if it waits. -/
def Adder.wake : Adder → Adder
  | .waiting _ => .waiting true
  | a => a

@[inherit_doc Adder.wake]
def Worker.wake : Worker → Worker
  | .waiting _ => .waiting true
  | k => k

@[inherit_doc Adder.wake]
def Destroyer.wake : Destroyer → Destroyer
  | .waiting _ => .waiting true
  | d => d

/-- What can happen next. -/
inductive Event where
  /-- the call `i` of `threadpool_add_job` gets the mutex -/
  | add (i : ℕ) (malloc : Bool)
  /-- the thread `k` gets the mutex; if it signals `queue_empty`, the call `d` is woken -/
  | work (k : ℕ) (d : Option ℕ)
  /-- the thread `k` comes back from the callback and frees the job -/
  | finish (k : ℕ)
  /-- the next step of the call `d` of `threadpool_destroy` -/
  | destroy (d : ℕ)

/-- What can happen in a world. -/
def Enabled (w : World κ) : Event → Prop
  | .add i _ => w.adders i = .start ∨ ∃ notified, w.adders i = .waiting notified
  | .work k d => (k : ℤ) < w.pool.threadNum ∧
      (w.workers k = .idle ∨ ∃ notified, w.workers k = .waiting notified) ∧
      match d with
      -- a signal wakes one of those that wait, if there is one
      | some d => w.destroyers d = .waiting false
      | none => ∀ d, w.destroyers d ≠ .waiting false
  | .finish k => (k : ℤ) < w.pool.threadNum ∧ ∃ pjob, w.workers k = .running pjob
  | .destroy d =>
    match w.destroyers d with
    | .joining i => (i : ℤ) < w.pool.threadNum → w.workers i = .exited
    | .returned _ => False
    | _ => True

/-- What the world is after a section of `threadpool_add_job`. -/
def World.afterAdding (w : World κ) (i : ℕ) (call : κ) : Adding κ → World κ
  | .wait => { w with adders := Function.update w.adders i (.waiting false) }
  | .refused => { w with adders := Function.update w.adders i (.returned (-1)) }
  | .added pjob notEmpty pool =>
    { w with
      pool
      adders := Function.update w.adders i (.returned 0)
      workers := if notEmpty then fun k => (w.workers k).wake else w.workers
      accepted := w.accepted ++ [(pjob, call)] }

/-- What the world is after a section of `threadpool_function`. -/
def World.afterTaking (w : World κ) (k : ℕ) (d : Option ℕ) : Taking κ → World κ
  | .wait => { w with workers := Function.update w.workers k (.waiting false) }
  | .exit => { w with workers := Function.update w.workers k .exited }
  | .taken pjob call empty notFull pool =>
    { w with
      pool
      workers := Function.update w.workers k (.running pjob)
      destroyers :=
        match empty, d with
        | true, some d => Function.update w.destroyers d (w.destroyers d).wake
        | _, _ => w.destroyers
      adders := if notFull then fun i => (w.adders i).wake else w.adders
      dequeued := w.dequeued ++ [(pjob, call)] }

/-- What the world is after a section of `threadpool_destroy`. -/
def World.afterClosing (w : World κ) (d : ℕ) : Closing κ → World κ
  | .refused => { w with destroyers := Function.update w.destroyers d (.returned (-1)) }
  | .wait pool =>
    { w with pool, destroyers := Function.update w.destroyers d (.waiting false) }
  | .closed pool => { w with pool, destroyers := Function.update w.destroyers d .closed }

/-- The next step of a call of `threadpool_destroy`. -/
def stepDestroy (w : World κ) (d : ℕ) : Option (World κ) :=
  match w.destroyers d with
  | .start => some (w.afterClosing d (threadpoolDestroy w.pool))
  | .waiting _ => some (w.afterClosing d (awaitEmpty w.pool))
  | .closed =>
    some { w with
      workers := fun k => (w.workers k).wake
      destroyers := Function.update w.destroyers d .notEmptySent }
  | .notEmptySent =>
    some { w with
      adders := fun i => (w.adders i).wake
      destroyers := Function.update w.destroyers d (.joining 0) }
  | .joining i =>
    if (i : ℤ) < w.pool.threadNum then
      some { w with destroyers := Function.update w.destroyers d (.joining (i + 1)) }
    else do
      let pool ← freeJobs (w.pool.mem.next + 1) w.pool
      some { w with
        pool, freed := true, destroyers := Function.update w.destroyers d (.returned 0) }
  | .returned _ => some w

/-- One event; undefined where a thread uses the pool after it has been freed, or an address with
no job.  The call `i` of `threadpool_add_job` is for the job `calls i`. -/
def step (calls : ℕ → κ) (w : World κ) : Event → Option (World κ)
  | .add i malloc => do
    if w.freed then none
    else
      let r ← threadpoolAddJob w.pool (calls i) malloc
      some (w.afterAdding i (calls i) r)
  | .work k d => do
    if w.freed then none
    else
      let r ← threadpoolFunction w.pool
      some (w.afterTaking k d r)
  | .finish k =>
    match w.workers k with
    | .running pjob => do
      let job ← w.pool.mem.cell pjob
      let mem ← w.pool.mem.delete pjob
      some { w with
        pool := { w.pool with mem }
        workers := Function.update w.workers k .idle
        completed := w.completed ++ [(pjob, job.call)] }
    | _ => some w
  | .destroy d => if w.freed then none else stepDestroy w d

/-- The worlds that a world can come to. -/
inductive Runs (calls : ℕ → κ) (w₀ : World κ) : World κ → Prop where
  | refl : Runs calls w₀ w₀
  | step {w w' : World κ} {e : Event} :
      Runs calls w₀ w → Enabled w e → step calls w e = some w' → Runs calls w₀ w'

end ThreadPool
end CModel
