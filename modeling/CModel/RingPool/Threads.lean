import CModel.RingPool.Fifo

/-!
# The threads of the ring, one call after the other

`threadpool_excute_task` here takes its steps between the calls of `pthread`, together with
`threadpool_stop_all_task` and `threadpool_destroy`.  A thread that has been cancelled acts on it in
`pthread_cond_wait`, where it gets `mutex_` again before it terminates, and in the function of a task
that has a cancellation point; there is no handler that would give `mutex_` back.

* `Place`, `Caller`: where a worker is, and the thread that stops or destroys the pool.
* `Threads`, `threads`: the pool, its workers, and any order of their steps.
* `Sane`: `mutex_` is owned by the one worker that is inside, and a task that is being read is there.
* `Sane.step`: each step keeps it.
* `world_step`, `world_runs`: before the pool is stopped or destroyed the threads do what `pool` says.
-/

namespace CModel
namespace RingPool

variable {φ κ : Type}

/-! ## The threads -/

/-- Where a thread in `threadpool_excute_task` is. -/
inductive Place (φ κ : Type) where
  /-- at the top of the loop, or waiting for `mutex_` -/
  | idle
  /-- with `mutex_`, before `curr_task_num` is looked at -/
  | inside
  /-- with `mutex_`, and the argument of a task -/
  | reading (tmpArg : κ)
  /-- with `mutex_`, and a task -/
  | taken (taskFun : φ) (tmpArg : κ)
  /-- in `pthread_cond_wait`, without `mutex_` -/
  | waiting (notified : Bool)
  /-- back from `pthread_cond_wait`, with `mutex_` -/
  | awake
  /-- in the function of a task -/
  | running (taskFun : φ) (tmpArg : κ)
  | terminated

/-- Whether a worker is between `pthread_mutex_lock` and `pthread_mutex_unlock`, and not waiting. -/
def Place.holds : Place φ κ → Bool
  | .inside | .reading _ | .taken _ _ | .awake => true
  | .idle | .waiting _ | .running _ _ | .terminated => false

/-- The place in terms of the critical sections. -/
def Place.worker : Place φ κ → Worker φ κ
  | .idle | .inside | .reading _ | .awake | .terminated => .idle
  | .waiting notified => .waiting notified
  | .taken taskFun tmpArg | .running taskFun tmpArg => .running taskFun tmpArg

/-- The thread that stops or destroys the pool. -/
inductive Caller where
  /-- it has not come to that -/
  | away
  /-- `threadpool_destroy`, before `free(thiz->task_queue_)` -/
  | freeQueue
  /-- before `free(thiz->task_fun_)` -/
  | freeFun
  /-- `threadpool_stop_all_task`, before `pthread_cancel` of the worker `i` -/
  | cancel (i : ℕ)
  /-- before or in `pthread_join` of the worker `i` -/
  | join (i : ℕ)
  /-- behind the loop -/
  | returned
  deriving DecidableEq

/-- The pool and its threads; the workers are those whose identifiers are in `thread_`. -/
structure Threads (φ κ : Type) where
  thiz : Pool φ κ
  places : ℕ → Place φ κ
  /-- the worker that owns `mutex_` -/
  owner : Option ℕ
  /-- for which workers `pthread_cancel` has been called -/
  cancelled : ℕ → Bool
  caller : Caller
  queueFreed : Bool
  funFreed : Bool
  accepted : List (Task φ κ)
  dequeued : List (Task φ κ)

/-- `threadpool_create` has returned. -/
def Threads.init (thiz : Pool φ κ) : Threads φ κ where
  thiz := thiz
  places _ := .idle
  owner := none
  cancelled _ := false
  caller := .away
  queueFreed := false
  funFreed := false
  accepted := []
  dequeued := []

/-- The critical sections that have been gone through. -/
def Threads.world (s : Threads φ κ) : World φ κ where
  thiz := s.thiz
  workers k := (s.places k).worker
  accepted := s.accepted
  dequeued := s.dequeued

/-- A worker goes somewhere else. -/
def Threads.put (s : Threads φ κ) (k : ℕ) (p : Place φ κ) (owner : Option ℕ) : Threads φ κ :=
  { s with places := Function.update s.places k p, owner }

/-- What can happen next. -/
inductive ThreadEvent (φ κ : Type) where
  /-- a call of `threadpool_add_task`, from where it gets `mutex_` to where it gives it back; if it
  signals `cond_`, the worker `k` is woken -/
  | add (taskFun : φ) (arg : κ) (k : Option ℕ)
  /-- `pthread_mutex_lock` -/
  | lock (k : ℕ)
  /-- `curr_task_num` is looked at, and the argument of a task read, or `pthread_cond_wait` called -/
  | test (k : ℕ)
  /-- the function of the task is read, and the task taken -/
  | take (k : ℕ)
  /-- `pthread_mutex_unlock` -/
  | unlock (k : ℕ)
  /-- `pthread_cond_wait` returns -/
  | wake (k : ℕ)
  /-- the function of a task returns -/
  | finish (k : ℕ)
  /-- the worker acts on its cancellation -/
  | terminate (k : ℕ)
  /-- `threadpool_stop_all_task` is called -/
  | stop
  /-- `threadpool_destroy` is called -/
  | destroy
  /-- the next statement of the thread that has called one of these -/
  | call

/-- Whether the thread that stops the pool can go on. -/
def Threads.Callable (s : Threads φ κ) : Prop :=
  match s.caller with
  | .away | .returned => False
  | .join i => s.places i = .terminated
  | .freeQueue | .freeFun | .cancel _ => True

/-- What can happen; tasks are added until the pool is stopped or destroyed, and `pthread_cond_wait`
may return without a signal. -/
def Threads.Enabled (s : Threads φ κ) : ThreadEvent φ κ → Prop
  | .add taskFun arg k => s.caller = .away ∧ s.owner = none ∧
      RingPool.Enabled s.world (.add taskFun arg k)
  | .lock k => (k : ℤ) < s.thiz.threadNum ∧ s.owner = none ∧ s.places k = .idle
  | .test k => (k : ℤ) < s.thiz.threadNum ∧ s.places k = .inside
  | .take k => (k : ℤ) < s.thiz.threadNum ∧ ∃ tmpArg, s.places k = .reading tmpArg
  | .unlock k => (k : ℤ) < s.thiz.threadNum ∧
      (s.places k = .awake ∨ ∃ taskFun tmpArg, s.places k = .taken taskFun tmpArg)
  | .wake k => (k : ℤ) < s.thiz.threadNum ∧ s.owner = none ∧
      ∃ notified, s.places k = .waiting notified
  | .finish k => (k : ℤ) < s.thiz.threadNum ∧ ∃ taskFun tmpArg, s.places k = .running taskFun tmpArg
  | .terminate k => (k : ℤ) < s.thiz.threadNum ∧ s.cancelled k = true ∧
      ((s.owner = none ∧ ∃ notified, s.places k = .waiting notified) ∨
        ∃ taskFun tmpArg, s.places k = .running taskFun tmpArg)
  | .stop | .destroy => s.caller = .away
  | .call => s.Callable

/-- The function of the task whose argument has been read, and the pool without this task. -/
def Pool.takeFun (thiz : Pool φ κ) : Option (φ × Pool φ κ) := do
  let taskFun ← thiz.taskFun.read thiz.start
  some (taskFun,
    { thiz with
      start := advance thiz.maxTaskNum thiz.start
      currTaskNum := thiz.currTaskNum - 1 })

/-- The pool behind a section of `threadpool_add_task`. -/
def Threads.afterAdding (s : Threads φ κ) (taskFun : φ) (arg : κ) (k : Option ℕ)
    (r : ℤ × Pool φ κ) : Threads φ κ :=
  if r.1 = 0 then
    { s with
      thiz := r.2
      places :=
        match k with
        | some k => Function.update s.places k (.waiting true)
        | none => s.places
      accepted := s.accepted ++ [⟨s.thiz.end_, taskFun, arg⟩] }
  else { s with thiz := r.2 }

/-- The pool behind the taking of a task. -/
def Threads.afterTaking (s : Threads φ κ) (k : ℕ) (tmpArg : κ) (r : φ × Pool φ κ) : Threads φ κ :=
  { s.put k (.taken r.1 tmpArg) s.owner with
    thiz := r.2
    dequeued := s.dequeued ++ [⟨s.thiz.start, r.1, tmpArg⟩] }

/-- The next statement of `threadpool_destroy` or `threadpool_stop_all_task`. -/
def Threads.next (s : Threads φ κ) : Threads φ κ :=
  match s.caller with
  | .away | .returned => s
  | .freeQueue => { s with queueFreed := true, caller := .freeFun }
  | .freeFun => { s with funFreed := true, caller := .cancel 0 }
  | .cancel i =>
    if (i : ℤ) < s.thiz.threadNum then
      { s with cancelled := Function.update s.cancelled i true, caller := .join i }
    else { s with caller := .returned }
  | .join i => { s with caller := .cancel (i + 1) }

/-- One step; undefined where an array is read that has been freed. -/
def Threads.step (s : Threads φ κ) : ThreadEvent φ κ → Option (Threads φ κ)
  | .add taskFun arg k =>
    (threadpoolAddTask s.thiz taskFun arg).map (s.afterAdding taskFun arg k)
  | .lock k => some (s.put k .inside (some k))
  | .test k =>
    if s.thiz.currTaskNum > 0 then
      if s.queueFreed then none
      else
        (s.thiz.taskQueue.read s.thiz.start).map fun tmpArg => s.put k (.reading tmpArg) s.owner
    else some (s.put k (.waiting false) none)
  | .take k =>
    match s.places k with
    | .reading tmpArg =>
      if s.funFreed then none else s.thiz.takeFun.map (s.afterTaking k tmpArg)
    | _ => none
  | .unlock k =>
    match s.places k with
    | .taken taskFun tmpArg => some (s.put k (.running taskFun tmpArg) none)
    | _ => some (s.put k .idle none)
  | .wake k => some (s.put k .awake (some k))
  | .finish k => some (s.put k .idle s.owner)
  | .terminate k =>
    match s.places k with
    -- `pthread_cond_wait` gets `mutex_` before the thread terminates
    | .waiting _ => some (s.put k .terminated (some k))
    | _ => some (s.put k .terminated s.owner)
  | .stop => some { s with caller := .cancel 0 }
  | .destroy => some { s with caller := .freeQueue }
  | .call => some s.next

/-- The pool with its threads. -/
def threads (φ κ : Type) : System (Threads φ κ) (ThreadEvent φ κ) :=
  ⟨Threads.Enabled, Threads.step⟩

/-- A critical section of `threadpool_excute_task` in its two steps. -/
theorem excuteTask_eq (thiz : Pool φ κ) :
    threadpoolExcuteTask thiz =
      if thiz.currTaskNum > 0 then
        (thiz.taskQueue.read thiz.start).bind fun tmpArg =>
          thiz.takeFun.map fun r => .taken r.1 tmpArg r.2
      else some .wait := by
  unfold threadpoolExcuteTask Pool.takeFun
  split
  · cases thiz.taskQueue.read thiz.start with
    | none => rfl
    | some tmpArg => cases thiz.taskFun.read thiz.start <;> rfl
  · rfl

/-! ## The queue -/

variable {maxTaskNum threadNum : ℤ} {queueMemory funMemory : Bool} {thiz : Pool φ κ}
  {s s' : Threads φ κ} {e : ThreadEvent φ κ} {k : ℕ} {p : Place φ κ}

/-- The ring, or a pool that takes no tasks at all. -/
def Queued (w : World φ κ) : Prop :=
  InRing w ∨ (w.thiz.maxTaskNum ≤ 0 ∧ w.thiz.currTaskNum = 0)

theorem Queued.workers {w : World φ κ} (h : Queued w) (workers : ℕ → Worker φ κ) :
    Queued { w with workers } :=
  h.imp (fun hring => { hring with }) id

theorem queued_init
    (hcreate : threadpoolCreate threadNum maxTaskNum queueMemory funMemory = .ok (some thiz)) :
    Queued (World.init thiz) := by
  by_cases hpos : 0 < maxTaskNum
  · exact .inl (inRing_init hpos hcreate)
  · obtain rfl := create_eq hcreate
    exact .inr ⟨Int.not_lt.mp hpos, rfl⟩

/-- A task that is added. -/
theorem Queued.added {w : World φ κ} (h : Queued w) {taskFun : φ} {arg : κ} {i : Option ℕ}
    {r : ℤ × Pool φ κ} (hadd : threadpoolAddTask w.thiz taskFun arg = some r) :
    Queued (w.afterAdding taskFun arg i r) ∧ r.2.threadNum = w.thiz.threadNum := by
  have hspec := addSpec hadd
  have hnum : r.2.threadNum = w.thiz.threadNum := by
    cases hspec <;> rfl
  refine ⟨?_, hnum⟩
  obtain hring | ⟨hmax, hempty⟩ := h
  · exact .inl (hring.added hspec)
  · cases hspec with
    | refused => exact .inr ⟨hmax, hempty⟩
    | added room => omega

/-- The task at the front is there to be read. -/
theorem Queued.front {w : World φ κ} (h : Queued w) (hpos : 0 < w.thiz.currTaskNum) :
    InRing w ∧ ∃ t : Task φ κ, w.accepted[w.dequeued.length]? = some t ∧ t.slot = w.thiz.start ∧
      w.thiz.taskQueue.read w.thiz.start = some t.arg ∧
      w.thiz.taskFun.read w.thiz.start = some t.taskFun := by
  obtain hring | ⟨-, hempty⟩ := h
  · exact ⟨hring, hring.front hpos⟩
  · omega

/-! ## The mutex -/

/-- `mutex_` is owned by the one worker that is inside, or by one that has terminated with it, and
an argument that has been read is that of the task at the front. -/
structure Sane (s : Threads φ κ) : Prop where
  queued : Queued s.world
  owner : ∀ k, s.owner = some k →
    (k : ℤ) < s.thiz.threadNum ∧ ((s.places k).holds = true ∨ s.places k = .terminated)
  holds : ∀ k, (s.places k).holds = true → s.owner = some k
  reading : ∀ k tmpArg, s.places k = .reading tmpArg →
    0 < s.thiz.currTaskNum ∧ s.thiz.taskQueue.read s.thiz.start = some tmpArg

/-- Who owns `mutex_` where a worker goes to a place. -/
inductive Turn (s : Threads φ κ) (k : ℕ) (p : Place φ κ) (owner : Option ℕ) : Prop where
  | gets (owns : owner = some k) (free : s.owner = none ∨ s.owner = some k)
      (has : p.holds = true ∨ p = .terminated)
  | leaves (owns : owner = none) (had : s.owner = some k) (has : p.holds = false)
  | aside (owns : owner = s.owner) (had : (s.places k).holds = false)
      (alive : s.places k ≠ .terminated) (has : p.holds = false)

/-- A worker goes somewhere else. -/
theorem Sane.turn (h : Sane s) (hk : (k : ℤ) < s.thiz.threadNum)
    (hplaces : s'.places = Function.update s.places k p) (hturn : Turn s k p s'.owner)
    (hqueued : Queued s'.world) (hnum : s'.thiz.threadNum = s.thiz.threadNum)
    (hthiz : s'.thiz = s.thiz ∨ s.owner = some k)
    (hreading : ∀ tmpArg, p = .reading tmpArg →
      0 < s'.thiz.currTaskNum ∧ s'.thiz.taskQueue.read s'.thiz.start = some tmpArg) : Sane s' := by
  have hself : s'.places k = p := by rw [hplaces, Function.update_self]
  have hother : ∀ j ≠ k, s'.places j = s.places j := fun j hj => by
    rw [hplaces, Function.update_of_ne hj]
  -- a worker that goes on holding `mutex_` is the one that has owned it
  have hkeep : ∀ j ≠ k, (s.places j).holds = true → s'.owner = some j ∧ s.owner ≠ some k := by
    intro j hj hin
    have howner := h.holds j hin
    have hne : s.owner ≠ some k := fun heq => hj (Option.some.inj (howner.symm.trans heq))
    refine ⟨?_, hne⟩
    cases hturn with
    | gets _ free _ => exact absurd (free.resolve_right hne) (by simp [howner])
    | leaves _ had _ => exact absurd had hne
    | aside owns _ _ _ => exact owns.trans howner
  refine ⟨hqueued, ?_, ?_, ?_⟩
  · intro j hj
    rw [hnum]
    cases hturn with
    | gets owns _ has =>
      obtain rfl := Option.some.inj (owns.symm.trans hj)
      exact ⟨hk, hself.symm ▸ has⟩
    | leaves owns _ _ => exact absurd (owns.symm.trans hj) (by simp)
    | aside owns had alive _ =>
      obtain ⟨hlt, hin⟩ := h.owner j (owns.symm.trans hj)
      have hne : j ≠ k := by
        rintro rfl
        exact hin.elim (fun htrue => by simp [had] at htrue) alive
      exact ⟨hlt, (hother j hne).symm ▸ hin⟩
  · intro j hj
    by_cases hjk : j = k
    · subst hjk
      rw [hself] at hj
      cases hturn with
      | gets owns _ _ => exact owns
      | leaves _ _ has => exact absurd (has.symm.trans hj) (by simp)
      | aside _ _ _ has => exact absurd (has.symm.trans hj) (by simp)
    · rw [hother j hjk] at hj
      exact (hkeep j hjk hj).1
  · intro j tmpArg hj
    by_cases hjk : j = k
    · subst hjk
      exact hreading tmpArg (hself.symm.trans hj)
    · rw [hother j hjk] at hj
      have hin : (s.places j).holds = true := by rw [hj]; rfl
      rw [hthiz.resolve_right (hkeep j hjk hin).2]
      exact h.reading j tmpArg hj

/-- A worker goes somewhere else, and leaves the tasks alone. -/
theorem Sane.put (h : Sane s) (hk : (k : ℤ) < s.thiz.threadNum) {owner : Option ℕ}
    (hturn : Turn s k p owner)
    (hreading : ∀ tmpArg, p = .reading tmpArg →
      0 < s.thiz.currTaskNum ∧ s.thiz.taskQueue.read s.thiz.start = some tmpArg) :
    Sane (s.put k p owner) :=
  h.turn hk rfl hturn (h.queued.workers _) rfl (.inl rfl) hreading

/-- What the caller does is nothing to the workers. -/
theorem Sane.congr (h : Sane s) (hthiz : s'.thiz = s.thiz) (hplaces : s'.places = s.places)
    (howner : s'.owner = s.owner) (hworld : s'.world = s.world) : Sane s' := by
  refine ⟨hworld ▸ h.queued, ?_, ?_, ?_⟩
  · rw [hthiz, hplaces, howner]
    exact h.owner
  · rw [hplaces, howner]
    exact h.holds
  · rw [hthiz, hplaces]
    exact h.reading

theorem Threads.next_same (s : Threads φ κ) : s.next.thiz = s.thiz ∧ s.next.places = s.places ∧
    s.next.owner = s.owner ∧ s.next.world = s.world := by
  unfold Threads.next
  split
  · exact ⟨rfl, rfl, rfl, rfl⟩
  · exact ⟨rfl, rfl, rfl, rfl⟩
  · exact ⟨rfl, rfl, rfl, rfl⟩
  · exact ⟨rfl, rfl, rfl, rfl⟩
  · split <;> exact ⟨rfl, rfl, rfl, rfl⟩
  · exact ⟨rfl, rfl, rfl, rfl⟩

/-! ## One step -/

/-- What a step comes to. -/
inductive Moves (s : Threads φ κ) : ThreadEvent φ κ → Threads φ κ → Prop where
  | adds {taskFun : φ} {arg : κ} {i : Option ℕ} {r : ℤ × Pool φ κ} (caller : s.caller = .away)
      (free : s.owner = none) (wakes : Enabled s.world (.add taskFun arg i))
      (adds : threadpoolAddTask s.thiz taskFun arg = some r) :
      Moves s (.add taskFun arg i) (s.afterAdding taskFun arg i r)
  | locks {k : ℕ} (lt : (k : ℤ) < s.thiz.threadNum) (free : s.owner = none)
      (place : s.places k = .idle) : Moves s (.lock k) (s.put k .inside (some k))
  | reads {k : ℕ} {tmpArg : κ} (lt : (k : ℤ) < s.thiz.threadNum) (place : s.places k = .inside)
      (pos : 0 < s.thiz.currTaskNum) (there : s.queueFreed = false)
      (reads : s.thiz.taskQueue.read s.thiz.start = some tmpArg) :
      Moves s (.test k) (s.put k (.reading tmpArg) s.owner)
  | waits {k : ℕ} (lt : (k : ℤ) < s.thiz.threadNum) (place : s.places k = .inside)
      (empty : s.thiz.currTaskNum ≤ 0) : Moves s (.test k) (s.put k (.waiting false) none)
  | takes {k : ℕ} {tmpArg : κ} {r : φ × Pool φ κ} (lt : (k : ℤ) < s.thiz.threadNum)
      (place : s.places k = .reading tmpArg) (there : s.funFreed = false)
      (takes : s.thiz.takeFun = some r) : Moves s (.take k) (s.afterTaking k tmpArg r)
  | runs {k : ℕ} {taskFun : φ} {tmpArg : κ} (lt : (k : ℤ) < s.thiz.threadNum)
      (place : s.places k = .taken taskFun tmpArg) :
      Moves s (.unlock k) (s.put k (.running taskFun tmpArg) none)
  | unlocks {k : ℕ} (lt : (k : ℤ) < s.thiz.threadNum) (place : s.places k = .awake) :
      Moves s (.unlock k) (s.put k .idle none)
  | wakes {k : ℕ} {notified : Bool} (lt : (k : ℤ) < s.thiz.threadNum) (free : s.owner = none)
      (place : s.places k = .waiting notified) : Moves s (.wake k) (s.put k .awake (some k))
  | finishes {k : ℕ} {taskFun : φ} {tmpArg : κ} (lt : (k : ℤ) < s.thiz.threadNum)
      (place : s.places k = .running taskFun tmpArg) : Moves s (.finish k) (s.put k .idle s.owner)
  | endsWaiting {k : ℕ} {notified : Bool} (lt : (k : ℤ) < s.thiz.threadNum)
      (cancelled : s.cancelled k = true) (free : s.owner = none)
      (place : s.places k = .waiting notified) :
      Moves s (.terminate k) (s.put k .terminated (some k))
  | endsRunning {k : ℕ} {taskFun : φ} {tmpArg : κ} (lt : (k : ℤ) < s.thiz.threadNum)
      (cancelled : s.cancelled k = true) (place : s.places k = .running taskFun tmpArg) :
      Moves s (.terminate k) (s.put k .terminated s.owner)
  | stops (caller : s.caller = .away) : Moves s .stop { s with caller := .cancel 0 }
  | destroys (caller : s.caller = .away) : Moves s .destroy { s with caller := .freeQueue }
  | calls (callable : s.Callable) : Moves s .call s.next

theorem moves (he : s.Enabled e) (hstep : s.step e = some s') : Moves s e s' := by
  cases e with
  | add taskFun arg i =>
    obtain ⟨hcaller, hfree, henabled⟩ := he
    obtain ⟨r, hadd, rfl⟩ := Option.map_eq_some_iff.mp hstep
    exact .adds hcaller hfree henabled hadd
  | lock k =>
    obtain ⟨hk, hfree, hplace⟩ := he
    obtain rfl := Option.some.inj hstep
    exact .locks hk hfree hplace
  | test k =>
    obtain ⟨hk, hplace⟩ := he
    simp only [Threads.step] at hstep
    split at hstep
    · next hpos =>
      split at hstep
      · exact absurd hstep (by simp)
      · next hthere =>
        obtain ⟨tmpArg, hread, rfl⟩ := Option.map_eq_some_iff.mp hstep
        exact .reads hk hplace hpos (by simpa using hthere) hread
    · next hempty =>
      obtain rfl := Option.some.inj hstep
      exact .waits hk hplace (Int.not_lt.mp hempty)
  | take k =>
    obtain ⟨hk, tmpArg, hplace⟩ := he
    simp only [Threads.step, hplace] at hstep
    split at hstep
    · exact absurd hstep (by simp)
    · next hthere =>
      obtain ⟨r, htake, rfl⟩ := Option.map_eq_some_iff.mp hstep
      exact .takes hk hplace (by simpa using hthere) htake
  | unlock k =>
    obtain ⟨hk, hplace | ⟨taskFun, tmpArg, hplace⟩⟩ := he
    · simp only [Threads.step, hplace] at hstep
      obtain rfl := Option.some.inj hstep
      exact .unlocks hk hplace
    · simp only [Threads.step, hplace] at hstep
      obtain rfl := Option.some.inj hstep
      exact .runs hk hplace
  | wake k =>
    obtain ⟨hk, hfree, notified, hplace⟩ := he
    obtain rfl := Option.some.inj hstep
    exact .wakes hk hfree hplace
  | finish k =>
    obtain ⟨hk, taskFun, tmpArg, hplace⟩ := he
    obtain rfl := Option.some.inj hstep
    exact .finishes hk hplace
  | terminate k =>
    obtain ⟨hk, hcancelled, ⟨hfree, notified, hplace⟩ | ⟨taskFun, tmpArg, hplace⟩⟩ := he
    · simp only [Threads.step, hplace] at hstep
      obtain rfl := Option.some.inj hstep
      exact .endsWaiting hk hcancelled hfree hplace
    · simp only [Threads.step, hplace] at hstep
      obtain rfl := Option.some.inj hstep
      exact .endsRunning hk hcancelled hplace
  | stop =>
    obtain rfl := Option.some.inj hstep
    exact .stops he
  | destroy =>
    obtain rfl := Option.some.inj hstep
    exact .destroys he
  | call =>
    obtain rfl := Option.some.inj hstep
    exact .calls he

/-- A task that is taken is the one at the front. -/
theorem Sane.takeSpec (h : Sane s) {tmpArg : κ} {r : φ × Pool φ κ}
    (hplace : s.places k = .reading tmpArg) (htake : s.thiz.takeFun = some r) :
    InRing s.world ∧ threadpoolExcuteTask s.thiz = some (.taken r.1 tmpArg r.2) ∧
      r.2.threadNum = s.thiz.threadNum := by
  obtain ⟨hpos, hread⟩ := h.reading k tmpArg hplace
  obtain ⟨hring, -⟩ := h.queued.front hpos
  refine ⟨hring, ?_, ?_⟩
  · rw [excuteTask_eq, if_pos hpos, hread, htake]
    rfl
  · obtain ⟨taskFun, -, heq⟩ := Option.bind_eq_some_iff.mp htake
    rw [← Option.some.inj heq]

/-- What comes of taking a task, in terms of the critical sections. -/
theorem Sane.taken (h : Sane s) {tmpArg : κ} {r : φ × Pool φ κ}
    (hplace : s.places k = .reading tmpArg) (htake : s.thiz.takeFun = some r) :
    InRing (s.world.afterTaking k (.taken r.1 tmpArg r.2)) := by
  obtain ⟨hring, hexcute, -⟩ := h.takeSpec hplace htake
  obtain ⟨r', hr', hspec⟩ := hring.takeSpec
  obtain rfl := Option.some.inj (hr'.symm.trans hexcute)
  exact hring.taken hspec

theorem worker_update (places : ℕ → Place φ κ) (k : ℕ) (p : Place φ κ) :
    (fun j => (Function.update places k p j).worker) =
      Function.update (fun j => (places j).worker) k p.worker :=
  Function.comp_update Place.worker places k p

theorem world_put (s : Threads φ κ) (k : ℕ) (p : Place φ κ) (owner : Option ℕ) :
    (s.put k p owner).world =
      { s.world with workers := Function.update s.world.workers k p.worker } :=
  congrArg (fun workers => { s.world with workers }) (worker_update s.places k p)

theorem world_afterAdding (s : Threads φ κ) (taskFun : φ) (arg : κ) (i : Option ℕ)
    (r : ℤ × Pool φ κ) :
    (s.afterAdding taskFun arg i r).world = s.world.afterAdding taskFun arg i r := by
  obtain ⟨code, thiz⟩ := r
  unfold Threads.afterAdding World.afterAdding
  by_cases hcode : code = 0
  · simp only [if_pos hcode]
    cases i with
    | none => rfl
    | some k =>
      exact congrArg (fun workers => (⟨thiz, workers, s.accepted ++ [⟨s.thiz.end_, taskFun, arg⟩],
        s.dequeued⟩ : World φ κ)) (worker_update s.places k (.waiting true))
  · simp only [if_neg hcode]
    rfl

/-- A task is only added while no worker is inside. -/
theorem Sane.adds (h : Sane s) {taskFun : φ} {arg : κ} {i : Option ℕ} {r : ℤ × Pool φ κ}
    (hfree : s.owner = none) (hadd : threadpoolAddTask s.thiz taskFun arg = some r) :
    Sane (s.afterAdding taskFun arg i r) := by
  have hout : ∀ j, (s.places j).holds = false := fun j => by
    by_contra hin
    have howner := h.holds j (by simpa using hin)
    exact absurd (hfree.symm.trans howner) (by simp)
  have hout' : ∀ j, ((s.afterAdding taskFun arg i r).places j).holds = false := by
    intro j
    unfold Threads.afterAdding
    split
    · cases i with
      | none => exact hout j
      | some k =>
        change (Function.update s.places k (.waiting true) j).holds = false
        rw [Function.update_apply]
        split
        · rfl
        · exact hout j
    · exact hout j
  have howner : (s.afterAdding taskFun arg i r).owner = none := by
    unfold Threads.afterAdding
    split <;> exact hfree
  refine ⟨?_, ?_, ?_, ?_⟩
  · rw [world_afterAdding]
    exact (h.queued.added hadd).1
  · intro j hj
    exact absurd (howner.symm.trans hj) (by simp)
  · intro j hj
    exact absurd ((hout' j).symm.trans hj) (by simp)
  · intro j tmpArg hj
    exact absurd (hout' j) (by simp [hj, Place.holds])

/-- **One step.** -/
theorem Sane.step (h : Sane s) (hmoves : Moves s e s') : Sane s' := by
  cases hmoves with
  | adds caller free wakes adds => exact h.adds free adds
  | @locks k lt free place =>
    exact h.put lt (.gets rfl (.inl free) (.inl rfl)) (by simp)
  | @reads k tmpArg lt place pos there reads =>
    have hown := h.holds k (by rw [place]; rfl)
    refine h.put lt (.gets hown (.inr hown) (.inl rfl)) fun a ha => ⟨pos, ?_⟩
    rw [reads, Place.reading.inj ha]
  | @waits k lt place empty =>
    exact h.put lt (.leaves rfl (h.holds k (by rw [place]; rfl)) rfl) (by simp)
  | @takes k tmpArg r lt place there takes =>
    have hown := h.holds k (by rw [place]; rfl)
    exact h.turn (p := .taken r.1 tmpArg) lt rfl (.gets hown (.inr hown) (.inl rfl))
      (.inl ({ h.taken place takes with })) (h.takeSpec place takes).2.2 (.inr hown) (by simp)
  | @runs k taskFun tmpArg lt place =>
    exact h.put lt (.leaves rfl (h.holds k (by rw [place]; rfl)) rfl) (by simp)
  | @unlocks k lt place =>
    exact h.put lt (.leaves rfl (h.holds k (by rw [place]; rfl)) rfl) (by simp)
  | @wakes k notified lt free place =>
    exact h.put lt (.gets rfl (.inl free) (.inl rfl)) (by simp)
  | @finishes k taskFun tmpArg lt place =>
    exact h.put lt (.aside rfl (by rw [place]; rfl) (by simp [place]) rfl) (by simp)
  | @endsWaiting k notified lt cancelled free place =>
    exact h.put lt (.gets rfl (.inl free) (.inr rfl)) (by simp)
  | @endsRunning k taskFun tmpArg lt cancelled place =>
    exact h.put lt (.aside rfl (by rw [place]; rfl) (by simp [place]) rfl) (by simp)
  | stops => exact h.congr rfl rfl rfl rfl
  | destroys => exact h.congr rfl rfl rfl rfl
  | calls =>
    obtain ⟨hthiz, hplaces, howner, hworld⟩ := s.next_same
    exact h.congr hthiz hplaces howner hworld

/-! ## Before the pool is stopped -/

/-- Nothing has been stopped. -/
structure Early (s : Threads φ κ) : Prop where
  cancelled : ∀ k, s.cancelled k = false
  alive : ∀ k, s.places k ≠ .terminated
  queueFreed : s.queueFreed = false
  funFreed : s.funFreed = false

theorem Early.put (h : Early s) (k : ℕ) (hp : p ≠ .terminated) (owner : Option ℕ) :
    Early (s.put k p owner) := by
  refine ⟨h.cancelled, ?_, h.queueFreed, h.funFreed⟩
  intro j
  change Function.update s.places k p j ≠ .terminated
  rw [Function.update_apply]
  split
  · exact hp
  · exact h.alive j

/-- A step behind which nothing has been stopped. -/
theorem Early.step (h : Early s) (hmoves : Moves s e s') (hcaller : s.caller = .away)
    (hcaller' : s'.caller = .away) : Early s' := by
  cases hmoves with
  | @adds taskFun arg i r caller free wakes adds =>
    unfold Threads.afterAdding
    split
    · cases i with
      | none => exact ⟨h.cancelled, h.alive, h.queueFreed, h.funFreed⟩
      | some k =>
        obtain ⟨hcancelled, halive, hqueue, hfun⟩ := h.put (p := .waiting true) k (by simp) none
        exact ⟨hcancelled, halive, hqueue, hfun⟩
    · exact ⟨h.cancelled, h.alive, h.queueFreed, h.funFreed⟩
  | locks => exact h.put _ (by simp) _
  | reads => exact h.put _ (by simp) _
  | waits => exact h.put _ (by simp) _
  | @takes k tmpArg r =>
    obtain ⟨hcancelled, halive, hqueue, hfun⟩ :=
      h.put (p := .taken r.1 tmpArg) k (by simp) s.owner
    exact ⟨hcancelled, halive, hqueue, hfun⟩
  | runs => exact h.put _ (by simp) _
  | unlocks => exact h.put _ (by simp) _
  | wakes => exact h.put _ (by simp) _
  | finishes => exact h.put _ (by simp) _
  | @endsWaiting k _ _ cancelled => exact absurd ((h.cancelled k).symm.trans cancelled) (by simp)
  | @endsRunning k _ _ _ cancelled => exact absurd ((h.cancelled k).symm.trans cancelled) (by simp)
  | stops => exact absurd hcaller' (by simp)
  | destroys => exact absurd hcaller' (by simp)
  | calls callable => exact absurd callable (by simp [Threads.Callable, hcaller])

/-- A step behind which nothing has been stopped has started from where nothing had been. -/
theorem Moves.away (hmoves : Moves s e s') (hcaller' : s'.caller = .away) :
    s.caller = .away := by
  cases hmoves with
  | adds caller => exact caller
  | stops => exact absurd hcaller' (by simp)
  | destroys => exact absurd hcaller' (by simp)
  | calls callable =>
    unfold Threads.next at hcaller'
    unfold Threads.Callable at callable
    split at hcaller' <;> simp_all
    split at hcaller' <;> simp at hcaller'
  | _ => exact hcaller'

/-- The pool that a thread stops or destroys. -/
theorem sane_runs
    (hcreate : threadpoolCreate threadNum maxTaskNum queueMemory funMemory = .ok (some thiz))
    (hruns : (threads φ κ).Runs (.init thiz) s) :
    Sane s ∧ (s.caller = .away → Early s) := by
  refine hruns.keep (P := fun t => Sane t ∧ (t.caller = .away → Early t)) ⟨?_, ?_⟩ ?_
  · refine ⟨queued_init hcreate, ?_, ?_, ?_⟩
    · intro k hk
      exact absurd hk (by simp [Threads.init])
    · intro k hk
      exact absurd hk (by simp [Threads.init, Place.holds])
    · intro k tmpArg hk
      exact absurd hk (by simp [Threads.init])
  · exact fun _ => ⟨fun _ => rfl, fun _ => by simp [Threads.init], rfl, rfl⟩
  · rintro t t' e ⟨ht, hearly⟩ he hstep
    have hmoves := moves he hstep
    exact ⟨ht.step hmoves, fun hcaller' =>
      (hearly (hmoves.away hcaller')).step hmoves (hmoves.away hcaller') hcaller'⟩

/-- A pool has a worker at least. -/
theorem threadNum_pos
    (hcreate : threadpoolCreate threadNum maxTaskNum queueMemory funMemory = .ok (some thiz)) :
    0 < thiz.threadNum := by
  obtain rfl := create_eq hcreate
  change 0 < if threadNum < minThreadNum then minThreadNum else threadNum
  unfold minThreadNum
  split <;> omega

theorem Moves.threadNum_eq (h : Sane s) (hmoves : Moves s e s') :
    s'.thiz.threadNum = s.thiz.threadNum := by
  cases hmoves with
  | @adds taskFun arg i r caller free wakes adds =>
    have hnum := (h.queued.added (i := i) adds).2
    unfold Threads.afterAdding
    split <;> exact hnum
  | takes lt place there takes => exact (h.takeSpec place takes).2.2
  | calls => exact congrArg Pool.threadNum s.next_same.1
  | _ => rfl

/-- A worker goes to a place that is the same one in terms of the critical sections. -/
theorem runs_put_same {q : Place φ κ} (hplace : s.places k = q) (heq : q.worker = p.worker)
    (owner : Option ℕ) : (pool φ κ).Runs s.world (s.put k p owner).world := by
  have hsame : (s.put k p owner).world = s.world := by
    rw [world_put, ← heq, ← hplace]
    exact congrArg (fun workers => { s.world with workers }) (Function.update_eq_self k _)
  rw [hsame]
  exact .refl

theorem world_afterTaking (s : Threads φ κ) (k : ℕ) (tmpArg : κ) (r : φ × Pool φ κ) :
    (s.afterTaking k tmpArg r).world = s.world.afterTaking k (.taken r.1 tmpArg r.2) :=
  congrArg (fun workers => World.mk r.2 workers s.accepted
    (s.dequeued ++ [Task.mk s.thiz.start r.1 tmpArg]))
    (worker_update s.places k (.taken r.1 tmpArg))

/-- A step of the threads is a critical section or a part of one. -/
theorem world_step (hsane : Sane s) (hearly : Early s) (haway : s.caller = .away)
    (hmoves : Moves s e s') (hcaller : s'.caller = .away) :
    (pool φ κ).Runs s.world s'.world := by
  cases hmoves with
  | @adds taskFun arg i r caller free wakes adds =>
    refine .step (e := .add taskFun arg i) .refl wakes ?_
    rw [world_afterAdding]
    exact congrArg (Option.map _) adds
  | @locks k lt free place => exact runs_put_same place (by rfl) _
  | @reads k tmpArg lt place => exact runs_put_same place (by rfl) _
  | @waits k lt place empty =>
    have hworker : s.world.workers k = .idle := congrArg Place.worker place
    refine .step (e := .work k) .refl ⟨lt, .inl hworker⟩ ?_
    have hexcute : threadpoolExcuteTask s.thiz = some .wait := if_neg (Int.not_lt.mpr empty)
    rw [world_put]
    simp only [pool, RingPool.step, hworker]
    exact congrArg (Option.map _) hexcute
  | @takes k tmpArg r lt place there takes =>
    have hworker : s.world.workers k = .idle := congrArg Place.worker place
    obtain ⟨-, hexcute, -⟩ := hsane.takeSpec place takes
    refine .step (e := .work k) .refl ⟨lt, .inl hworker⟩ ?_
    rw [world_afterTaking]
    simp only [pool, RingPool.step, hworker]
    exact congrArg (Option.map _) hexcute
  | @runs k taskFun tmpArg lt place => exact runs_put_same place (by rfl) _
  | @unlocks k lt place => exact runs_put_same place (by rfl) _
  | @wakes k notified lt free place =>
    have hworker : s.world.workers k = .waiting notified := congrArg Place.worker place
    refine .step (e := .work k) .refl ⟨lt, .inr ⟨notified, hworker⟩⟩ ?_
    rw [world_put]
    simp only [pool, RingPool.step, hworker]
    rfl
  | @finishes k taskFun tmpArg lt place =>
    have hworker : s.world.workers k = .running taskFun tmpArg := congrArg Place.worker place
    refine .step (e := .finish k) .refl ⟨lt, taskFun, tmpArg, hworker⟩ ?_
    rw [world_put]
    rfl
  | @endsWaiting k _ _ cancelled =>
    exact absurd ((hearly.cancelled k).symm.trans cancelled) (by simp)
  | @endsRunning k _ _ _ cancelled =>
    exact absurd ((hearly.cancelled k).symm.trans cancelled) (by simp)
  | stops => exact absurd hcaller (by simp)
  | destroys => exact absurd hcaller (by simp)
  | calls callable => exact absurd callable (by simp [Threads.Callable, haway])

/-- Before the pool is stopped or destroyed its threads do nothing that is not a sequence of
critical sections. -/
theorem world_runs
    (hcreate : threadpoolCreate threadNum maxTaskNum queueMemory funMemory = .ok (some thiz))
    (hruns : (threads φ κ).Runs (.init thiz) s) (hcaller : s.caller = .away) :
    (pool φ κ).Runs (World.init thiz) s.world := by
  induction hruns with
  | refl => exact .refl
  | @step t t' e ht he hstep ih =>
    obtain ⟨hsane, hearly⟩ := sane_runs hcreate ht
    have hmoves := moves he hstep
    have haway := hmoves.away hcaller
    exact (ih haway).trans (world_step hsane (hearly haway) haway hmoves hcaller)

end RingPool
end CModel
