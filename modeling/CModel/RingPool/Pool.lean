import CModel.Foundation.Outcome
import CModel.Foundation.Ring
import CModel.Foundation.System
import Mathlib.Algebra.Group.Int.Defs

/-!
# The thread pool with a ring

`threadpool.c` of the second C implementation: the tasks are in two arrays, the one for the
functions and the one for their arguments, and a full pool drops a task instead of waiting.

* `Pool`: the structure of `threadpool.h`, without the mutex and the condition variable.
* `threadpoolCreate`, `threadpoolAddTask`, `threadpoolExcuteTask`: what the functions do from where
  they have the mutex to where they give it back.
* `World`, `Event`, `pool`: any number of calls of `threadpool_add_task` and the worker threads, one
  critical section after the other in any order.
-/

namespace CModel
namespace RingPool

variable {φ κ : Type}

/-- `MAX_THREAD_NUM` -/
def maxThreadNum : ℤ := 256

/-- `MIN_THREAD_NUM` -/
def minThreadNum : ℤ := 1

/-- What an `int` does not exceed. -/
def intMax : ℤ := 2 ^ 31 - 1

/-- `struct ThreadPool_`; `φ` is for the task functions, `κ` for their arguments. -/
structure Pool (φ κ : Type) where
  threadNum : ℤ
  taskQueue : Slots κ
  taskFun : Slots φ
  start : ℤ
  end_ : ℤ
  currTaskNum : ℤ
  maxTaskNum : ℤ

/-- `threadpool_create` up to where it starts the threads; each of its two arrays may be the null
pointer, which it does not look at. -/
def threadpoolCreate (threadNum maxTaskNum : ℤ) (queueMemory funMemory : Bool) :
    Outcome (Option (Pool φ κ)) :=
  if threadNum > maxThreadNum ∨ threadNum < 0 then .ok none
  -- `max_task_num + 1`
  else if maxTaskNum + 1 > intMax then .undefined
  else
    .ok (some
      { threadNum := if threadNum < minThreadNum then minThreadNum else threadNum
        taskQueue := Slots.malloc (maxTaskNum + 1).toNat queueMemory
        currTaskNum := 0
        taskFun := Slots.malloc (maxTaskNum + 1).toNat funMemory
        start := 0
        end_ := 0
        maxTaskNum })

/-- The cursor behind `i`. -/
def advance (maxTaskNum i : ℤ) : ℤ := if i + 1 > maxTaskNum then 1 else i + 1

/-- `threadpool_add_task` from where it has the mutex, with what it returns. -/
def threadpoolAddTask (thiz : Pool φ κ) (taskFun : φ) (arg : κ) : Option (ℤ × Pool φ κ) :=
  let taskNum := thiz.currTaskNum
  if taskNum > thiz.maxTaskNum - 2 then some (-1, thiz)
  else do
    let queue ← thiz.taskQueue.write thiz.end_ arg
    let funs ← thiz.taskFun.write thiz.end_ taskFun
    some (0, { thiz with
      currTaskNum := taskNum + 1
      taskQueue := queue
      taskFun := funs
      end_ := advance thiz.maxTaskNum thiz.end_ })

/-- What a critical section of `threadpool_excute_task` ends with. -/
inductive Taking (φ κ : Type) where
  /-- `pthread_cond_wait` -/
  | wait
  | taken (taskFun : φ) (tmpArg : κ) (thiz : Pool φ κ)

/-- `threadpool_excute_task` from where it has the mutex. -/
def threadpoolExcuteTask (thiz : Pool φ κ) : Option (Taking φ κ) :=
  if thiz.currTaskNum > 0 then do
    let tmpArg ← thiz.taskQueue.read thiz.start
    let taskFun ← thiz.taskFun.read thiz.start
    some (.taken taskFun tmpArg
      { thiz with
        start := advance thiz.maxTaskNum thiz.start
        currTaskNum := thiz.currTaskNum - 1 })
  else some .wait

/-! ## The threads -/

/-- Where a thread in `threadpool_excute_task` is. -/
inductive Worker (φ κ : Type) where
  /-- at the top of the loop -/
  | idle
  /-- on `cond_`, woken or not -/
  | waiting (notified : Bool)
  /-- in the function of a task -/
  | running (taskFun : φ) (tmpArg : κ)

/-- A task, with the slot it is written to or read from. -/
structure Task (φ κ : Type) where
  slot : ℤ
  taskFun : φ
  arg : κ

/-- The pool and its threads.  The last two are for the statements: the tasks in the order in which
they have been added to and taken from the pool. -/
structure World (φ κ : Type) where
  thiz : Pool φ κ
  workers : ℕ → Worker φ κ
  accepted : List (Task φ κ)
  dequeued : List (Task φ κ)

/-- `threadpool_create` has returned, nothing else has happened. -/
def World.init (thiz : Pool φ κ) : World φ κ where
  thiz := thiz
  workers _ := .idle
  accepted := []
  dequeued := []

/-- The tasks that have been added and not been taken. -/
def World.pending (w : World φ κ) : List (Task φ κ) := w.accepted.drop w.dequeued.length

/-- What can happen next. -/
inductive Event (φ κ : Type) where
  /-- a call of `threadpool_add_task` gets the mutex; if it signals `cond_`, the thread `k` is
  woken -/
  | add (taskFun : φ) (arg : κ) (k : Option ℕ)
  /-- the thread `k` gets the mutex -/
  | work (k : ℕ)
  /-- the thread `k` comes back from the function of its task -/
  | finish (k : ℕ)

/-- What can happen in a world. -/
def Enabled (w : World φ κ) : Event φ κ → Prop
  | .add _ _ k =>
    match k with
    -- a signal wakes one of those that wait, if there is one
    | some k => w.workers k = .waiting false
    | none => ∀ k, w.workers k ≠ .waiting false
  | .work k => (k : ℤ) < w.thiz.threadNum ∧
      (w.workers k = .idle ∨ ∃ notified, w.workers k = .waiting notified)
  | .finish k => (k : ℤ) < w.thiz.threadNum ∧ ∃ taskFun arg, w.workers k = .running taskFun arg

/-- What the world is after a section of `threadpool_add_task`. -/
def World.afterAdding (w : World φ κ) (taskFun : φ) (arg : κ) (k : Option ℕ) :
    ℤ × Pool φ κ → World φ κ
  | (code, thiz) =>
    if code = 0 then
      { w with
        thiz
        workers :=
          match k with
          | some k => Function.update w.workers k (.waiting true)
          | none => w.workers
        accepted := w.accepted ++ [⟨w.thiz.end_, taskFun, arg⟩] }
    else { w with thiz }

/-- What the world is after a section of `threadpool_excute_task`. -/
def World.afterTaking (w : World φ κ) (k : ℕ) : Taking φ κ → World φ κ
  | .wait => { w with workers := Function.update w.workers k (.waiting false) }
  | .taken taskFun tmpArg thiz =>
    { w with
      thiz
      workers := Function.update w.workers k (.running taskFun tmpArg)
      dequeued := w.dequeued ++ [⟨w.thiz.start, taskFun, tmpArg⟩] }

/-- One event; undefined where a thread is outside of the arrays, or reads what has not been
written. -/
def step (w : World φ κ) : Event φ κ → Option (World φ κ)
  | .add taskFun arg k => (threadpoolAddTask w.thiz taskFun arg).map (w.afterAdding taskFun arg k)
  | .work k =>
    match w.workers k with
    -- back from `pthread_cond_wait`, the thread only gives the mutex back
    | .waiting _ => some { w with workers := Function.update w.workers k .idle }
    | _ => (threadpoolExcuteTask w.thiz).map (w.afterTaking k)
  | .finish k => some { w with workers := Function.update w.workers k .idle }

/-- The pool with its threads. -/
def pool (φ κ : Type) : System (World φ κ) (Event φ κ) := ⟨Enabled, step⟩

end RingPool
end CModel
