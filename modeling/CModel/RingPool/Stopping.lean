import CModel.RingPool.Threads

/-!
# How the ring is stopped and destroyed

`threadpool_stop_all_task` cancels and joins one worker after the other, and a worker that is
cancelled in `pthread_cond_wait` terminates with `mutex_`.  `threadpool_destroy` frees the arrays
before that.

* `Wedged`: `mutex_` is owned by a worker that has terminated, and another one is still to be
  joined.
* `ReadsFreed`: a worker is about to read an array that has been freed.
* `Drives`: steps of the workers with which none of them terminates.
* `exists_free`, `exists_waiting`, `exists_readsFreed`: where the workers can be driven to.
* `never_wedged_iff`: **stopping the pool never comes to that exactly where it has one worker.**
* `never_readsFreed_iff`: **destroying it never does exactly where no task is pending.**
-/

namespace CModel
namespace RingPool

variable {φ κ : Type} {maxTaskNum threadNum : ℤ} {queueMemory funMemory : Bool} {thiz : Pool φ κ}
  {s s' s₁ : Threads φ κ} {e : ThreadEvent φ κ} {k j : ℕ} {p : Place φ κ}

/-- `threadpool_stop_all_task` has not come back from `pthread_join` of the worker `j`. -/
def Threads.ToJoin (s : Threads φ κ) (j : ℕ) : Prop :=
  (j : ℤ) < s.thiz.threadNum ∧
    match s.caller with
    | .away | .returned => False
    | .freeQueue | .freeFun => True
    | .cancel i | .join i => i ≤ j

/-- A worker has terminated with `mutex_`, and another one is still to be joined. -/
def Wedged (s : Threads φ κ) : Prop :=
  ∃ k j : ℕ, k ≠ j ∧ (k : ℤ) < s.thiz.threadNum ∧ s.owner = some k ∧ s.places k = .terminated ∧
    s.ToJoin j

/-- A worker reads `task_queue_` or `task_fun_` behind its `free`. -/
def ReadsFreed (s : Threads φ κ) : ThreadEvent φ κ → Prop
  | .test _ => 0 < s.thiz.currTaskNum ∧ s.queueFreed = true
  | .take _ => s.funFreed = true
  | _ => False

/-! ## Driving the workers -/

/-- Steps of the workers with which none of them terminates. -/
structure Drives (s s' : Threads φ κ) : Prop where
  runs : (threads φ κ).Runs s s'
  sane : Sane s'
  caller : s'.caller = s.caller
  cancelled : s'.cancelled = s.cancelled
  threadNum : s'.thiz.threadNum = s.thiz.threadNum
  alive : ∀ j, s.places j ≠ .terminated → s'.places j ≠ .terminated
  queueFreed : s'.queueFreed = s.queueFreed
  funFreed : s'.funFreed = s.funFreed

theorem Drives.refl (h : Sane s) : Drives s s := ⟨.refl, h, rfl, rfl, rfl, fun _ => id, rfl, rfl⟩

theorem Drives.trans (h : Drives s s') (h' : Drives s' s₁) : Drives s s₁ where
  runs := h.runs.trans h'.runs
  sane := h'.sane
  caller := h'.caller.trans h.caller
  cancelled := h'.cancelled.trans h.cancelled
  threadNum := h'.threadNum.trans h.threadNum
  alive j hj := h'.alive j (h.alive j hj)
  queueFreed := h'.queueFreed.trans h.queueFreed
  funFreed := h'.funFreed.trans h.funFreed

theorem alive_put (hp : p ≠ .terminated) (owner : Option ℕ) (hj : s.places j ≠ .terminated) :
    (s.put k p owner).places j ≠ .terminated := by
  change Function.update s.places k p j ≠ .terminated
  rw [Function.update_apply]
  split
  · exact hp
  · exact hj

theorem put_places (s : Threads φ κ) (k : ℕ) (p : Place φ κ) (owner : Option ℕ) :
    (s.put k p owner).places k = p :=
  Function.update_self ..

theorem Drives.put (h : Sane s) {owner : Option ℕ} (he : s.Enabled e)
    (hstep : s.step e = some (s.put k p owner)) (hp : p ≠ .terminated) :
    Drives s (s.put k p owner) where
  runs := .step .refl he hstep
  sane := h.step (moves he hstep)
  caller := rfl
  cancelled := rfl
  threadNum := rfl
  alive _ := alive_put hp owner
  queueFreed := rfl
  funFreed := rfl

/-- A worker with a task gives `mutex_` back. -/
theorem drives_taken (h : Sane s) (hk : (k : ℤ) < s.thiz.threadNum) {taskFun : φ} {tmpArg : κ}
    (hplace : s.places k = .taken taskFun tmpArg) :
    Drives s (s.put k (.running taskFun tmpArg) none) :=
  .put h (e := .unlock k) ⟨hk, .inr ⟨taskFun, tmpArg, hplace⟩⟩ (by simp [Threads.step, hplace])
    (by simp)

theorem drives_awake (h : Sane s) (hk : (k : ℤ) < s.thiz.threadNum) (hplace : s.places k = .awake) :
    Drives s (s.put k .idle none) :=
  .put h (e := .unlock k) ⟨hk, .inl hplace⟩ (by simp [Threads.step, hplace]) (by simp)

theorem drives_running (h : Sane s) (hk : (k : ℤ) < s.thiz.threadNum) {taskFun : φ} {tmpArg : κ}
    (hplace : s.places k = .running taskFun tmpArg) : Drives s (s.put k .idle s.owner) :=
  .put h (e := .finish k) ⟨hk, taskFun, tmpArg, hplace⟩ rfl (by simp)

theorem drives_idle (h : Sane s) (hk : (k : ℤ) < s.thiz.threadNum) (hfree : s.owner = none)
    (hplace : s.places k = .idle) : Drives s (s.put k .inside (some k)) :=
  .put h (e := .lock k) ⟨hk, hfree, hplace⟩ rfl (by simp)

theorem drives_waiting (h : Sane s) (hk : (k : ℤ) < s.thiz.threadNum) (hfree : s.owner = none)
    {notified : Bool} (hplace : s.places k = .waiting notified) :
    Drives s (s.put k .awake (some k)) :=
  .put h (e := .wake k) ⟨hk, hfree, notified, hplace⟩ rfl (by simp)

/-- A worker that has read the argument of a task comes to the function of it. -/
theorem drives_reading (h : Sane s) (hk : (k : ℤ) < s.thiz.threadNum) (hfun : s.funFreed = false)
    {tmpArg : κ} (hplace : s.places k = .reading tmpArg) :
    ∃ s', Drives s s' ∧ s'.owner = none ∧ s'.thiz.currTaskNum = s.thiz.currTaskNum - 1 ∧
      ∃ taskFun, s'.places k = .running taskFun tmpArg := by
  obtain ⟨-, t, -, -, -, hfront⟩ := h.queued.front (h.reading k tmpArg hplace).1
  have hread : s.thiz.taskFun.read s.thiz.start = some t.taskFun := hfront
  have htake : s.step (.take k) = some (s.afterTaking k tmpArg (t.taskFun,
      { s.thiz with
        start := advance s.thiz.maxTaskNum s.thiz.start
        currTaskNum := s.thiz.currTaskNum - 1 })) := by
    simp [Threads.step, hplace, hfun, Pool.takeFun, hread]
  have he : s.Enabled (.take k) := ⟨hk, tmpArg, hplace⟩
  have hsane := h.step (moves he htake)
  have hfirst : Drives s _ := ⟨.step (e := .take k) .refl he htake, hsane, rfl, rfl, rfl,
    fun j hj => alive_put (p := .taken t.taskFun tmpArg) (by simp) s.owner hj, rfl, rfl⟩
  have hplace' := put_places s k (.taken t.taskFun tmpArg) s.owner
  exact ⟨_, hfirst.trans (drives_taken hsane hk hplace'), rfl, rfl, t.taskFun, put_places ..⟩

/-- A worker that is inside comes to the function of a task, or to wait for one. -/
theorem drives_inside (h : Sane s) (hk : (k : ℤ) < s.thiz.threadNum) (hqueue : s.queueFreed = false)
    (hfun : s.funFreed = false) (hplace : s.places k = .inside) :
    ∃ s', Drives s s' ∧ s'.owner = none ∧
      ((∃ notified, s'.places k = .waiting notified) ∨
        (0 < s.thiz.currTaskNum ∧ s'.thiz.currTaskNum = s.thiz.currTaskNum - 1 ∧
          ∃ taskFun tmpArg, s'.places k = .running taskFun tmpArg)) := by
  have he : s.Enabled (.test k) := ⟨hk, hplace⟩
  by_cases hpos : s.thiz.currTaskNum > 0
  · obtain ⟨-, t, -, -, hfront, -⟩ := h.queued.front hpos
    have hread : s.thiz.taskQueue.read s.thiz.start = some t.arg := hfront
    have hfirst : Drives s (s.put k (.reading t.arg) s.owner) :=
      .put h he (by simp [Threads.step, hpos, hqueue, hread]) (by simp)
    obtain ⟨s', hrest, hfree, hnum, taskFun, hrunning⟩ :=
      drives_reading hfirst.sane hk hfun (put_places s k (.reading t.arg) s.owner)
    exact ⟨s', hfirst.trans hrest, hfree, .inr ⟨hpos, hnum, taskFun, t.arg, hrunning⟩⟩
  · have hwaits : Drives s (s.put k (.waiting false) none) :=
      .put h he (by simp [Threads.step, hpos]) (by simp)
    exact ⟨_, hwaits, rfl, .inl ⟨false, put_places ..⟩⟩

/-- The worker that owns `mutex_` gives it back. -/
theorem exists_free (h : Sane s) (hqueue : s.queueFreed = false) (hfun : s.funFreed = false)
    (halive : ∀ j, s.places j ≠ .terminated) : ∃ s', Drives s s' ∧ s'.owner = none := by
  cases howner : s.owner with
  | none => exact ⟨s, .refl h, howner⟩
  | some k =>
    obtain ⟨hk, hin⟩ := h.owner k howner
    replace hin := hin.resolve_right (halive k)
    cases hplace : s.places k with
    | inside =>
      obtain ⟨s', hdrives, hfree, -⟩ := drives_inside h hk hqueue hfun hplace
      exact ⟨s', hdrives, hfree⟩
    | reading tmpArg =>
      obtain ⟨s', hdrives, hfree, -⟩ := drives_reading h hk hfun hplace
      exact ⟨s', hdrives, hfree⟩
    | taken taskFun tmpArg => exact ⟨_, drives_taken h hk hplace, rfl⟩
    | awake => exact ⟨_, drives_awake h hk hplace, rfl⟩
    | terminated => exact absurd hplace (halive k)
    | _ => exact absurd hin (by simp [hplace, Place.holds])

/-- A worker at the top of its loop takes the tasks that there are, and then waits. -/
theorem exists_waiting_of_idle (n : ℕ) (h : Sane s) (hk : (k : ℤ) < s.thiz.threadNum)
    (hqueue : s.queueFreed = false) (hfun : s.funFreed = false) (hfree : s.owner = none)
    (hnum : s.thiz.currTaskNum ≤ n) (hplace : s.places k = .idle) :
    ∃ s', Drives s s' ∧ s'.owner = none ∧ ∃ notified, s'.places k = .waiting notified := by
  induction n generalizing s with
  | zero =>
    have hlock := drives_idle h hk hfree hplace
    obtain ⟨s', htest, hfree', hwaiting | ⟨hpos, -⟩⟩ :=
      drives_inside hlock.sane hk hqueue hfun (put_places s k .inside (some k))
    · exact ⟨s', hlock.trans htest, hfree', hwaiting⟩
    · exact absurd hpos (Int.not_lt.mpr hnum)
  | succ n ih =>
    have hlock := drives_idle h hk hfree hplace
    obtain ⟨s', htest, hfree', hwaiting | ⟨-, hnum', taskFun, tmpArg, hrunning⟩⟩ :=
      drives_inside hlock.sane hk hqueue hfun (put_places s k .inside (some k))
    · exact ⟨s', hlock.trans htest, hfree', hwaiting⟩
    · -- it has run one of the tasks
      have hdrives := hlock.trans htest
      have hk' : (k : ℤ) < s'.thiz.threadNum := hdrives.threadNum.symm ▸ hk
      have hfinish := drives_running htest.sane hk' hrunning
      have hless : s'.thiz.currTaskNum ≤ n := by
        push_cast at hnum
        have hsame : (s.put k .inside (some k)).thiz.currTaskNum = s.thiz.currTaskNum := rfl
        omega
      obtain ⟨s₁, hrest, hdone⟩ := ih hfinish.sane hk' (hdrives.queueFreed.trans hqueue)
        (hdrives.funFreed.trans hfun) hfree' hless (put_places ..)
      exact ⟨s₁, hdrives.trans (hfinish.trans hrest), hdone⟩

/-- A worker that is alive comes to wait while nobody owns `mutex_`. -/
theorem exists_waiting (h : Sane s) (hk : (k : ℤ) < s.thiz.threadNum)
    (hqueue : s.queueFreed = false) (hfun : s.funFreed = false) (hfree : s.owner = none)
    (halive : s.places k ≠ .terminated) :
    ∃ s', Drives s s' ∧ s'.owner = none ∧ ∃ notified, s'.places k = .waiting notified := by
  have hnum : s.thiz.currTaskNum ≤ s.thiz.currTaskNum.toNat := Int.self_le_toNat _
  cases hplace : s.places k with
  | idle => exact exists_waiting_of_idle _ h hk hqueue hfun hfree hnum hplace
  | waiting notified => exact ⟨s, .refl h, hfree, notified, hplace⟩
  | running taskFun tmpArg =>
    have hfinish := drives_running h hk hplace
    obtain ⟨s', hrest, hdone⟩ := exists_waiting_of_idle _ hfinish.sane hk hqueue hfun hfree hnum
      (put_places s k .idle s.owner)
    exact ⟨s', hfinish.trans hrest, hdone⟩
  | terminated => exact absurd hplace halive
  | _ =>
    have howner := h.holds k (by rw [hplace]; rfl)
    exact absurd (hfree.symm.trans howner) (by simp)

/-! ## Stopping -/

/-- With a second worker the first one that is cancelled can terminate with `mutex_`. -/
theorem exists_wedged (h : Sane s) (hearly : Early s) (htwo : 1 < s.thiz.threadNum) :
    ∃ s', (threads φ κ).Runs { s with caller := .cancel 0 } s' ∧ Wedged s' := by
  let s₀ : Threads φ κ := { s with caller := .cancel 0 }
  have hzero : ((0 : ℕ) : ℤ) < s.thiz.threadNum := by omega
  have hcancel : s₀.next = { s with
      cancelled := Function.update s.cancelled 0 true, caller := .join 0 } := if_pos hzero
  have hsane : Sane s₀.next := hcancel ▸ h.congr rfl rfl rfl rfl
  have hfirst : (threads φ κ).Runs s₀ s₀.next := .step (e := .call) .refl trivial rfl
  rw [hcancel] at hsane hfirst
  obtain ⟨s₁, hdrives₁, hfree₁⟩ := exists_free hsane hearly.queueFreed hearly.funFreed hearly.alive
  have hk₁ : ((0 : ℕ) : ℤ) < s₁.thiz.threadNum := hdrives₁.threadNum.symm ▸ hzero
  obtain ⟨s₂, hdrives₂, hfree₂, notified, hwaiting⟩ := exists_waiting hdrives₁.sane hk₁
    (hdrives₁.queueFreed.trans hearly.queueFreed) (hdrives₁.funFreed.trans hearly.funFreed) hfree₁
    (hdrives₁.alive 0 (hearly.alive 0))
  have hdrives := hdrives₁.trans hdrives₂
  have hk₂ : ((0 : ℕ) : ℤ) < s₂.thiz.threadNum := hdrives.threadNum.symm ▸ hzero
  have hcancelled : s₂.cancelled 0 = true :=
    (congrFun hdrives.cancelled 0).trans (Function.update_self 0 true s.cancelled)
  have hlast : (threads φ κ).Runs s₂ (s₂.put 0 .terminated (some 0)) :=
    .step (e := .terminate 0) .refl ⟨hk₂, hcancelled, .inl ⟨hfree₂, notified, hwaiting⟩⟩
      (by simp [threads, Threads.step, hwaiting])
  refine ⟨_, (hfirst.trans hdrives.runs).trans hlast, 0, 1, by decide, hk₂, rfl, put_places .., ?_⟩
  have hcaller : (s₂.put 0 .terminated (some 0)).caller = .join 0 := hdrives.caller
  refine ⟨?_, ?_⟩
  · change ((1 : ℕ) : ℤ) < s₂.thiz.threadNum
    rw [hdrives.threadNum]
    exact htwo
  · rw [hcaller]
    exact Nat.zero_le 1

theorem runs_threadNum (h : Sane s) (hruns : (threads φ κ).Runs s s') :
    s'.thiz.threadNum = s.thiz.threadNum := by
  have hboth : Sane s' ∧ s'.thiz.threadNum = s.thiz.threadNum := by
    refine hruns.keep (P := fun t => Sane t ∧ t.thiz.threadNum = s.thiz.threadNum) ⟨h, rfl⟩ ?_
    intro t t' e ht he hstep
    have hmoves := moves he hstep
    exact ⟨ht.1.step hmoves, (hmoves.threadNum_eq ht.1).trans ht.2⟩
  exact hboth.2

theorem threadNum_init
    (hcreate : threadpoolCreate threadNum maxTaskNum queueMemory funMemory = .ok (some thiz))
    (hruns : (threads φ κ).Runs (.init thiz) s) : s.thiz.threadNum = thiz.threadNum :=
  runs_threadNum (sane_runs hcreate .refl).1 hruns

/-- From any state of a pool that has not been stopped, whatever its workers are doing: however
`threadpool_stop_all_task` and the workers take their steps, `mutex_` is never owned by a worker that
has terminated while another one is still to be joined, if and only if there is only one worker. -/
theorem never_wedged_iff
    (hcreate : threadpoolCreate threadNum maxTaskNum queueMemory funMemory = .ok (some thiz))
    (hruns : (threads φ κ).Runs (.init thiz) s) (hcaller : s.caller = .away) :
    (∀ s', (threads φ κ).Runs { s with caller := .cancel 0 } s' → ¬ Wedged s') ↔
      thiz.threadNum ≤ 1 := by
  obtain ⟨hsane, hearly⟩ := sane_runs hcreate hruns
  have hnum := threadNum_init hcreate hruns
  constructor
  · intro hnever
    by_contra htwo
    obtain ⟨s', hruns', hwedged⟩ := exists_wedged hsane (hearly hcaller) (by omega)
    exact hnever s' hruns' hwedged
  · rintro hone s' hruns' ⟨k, j, hne, hk, -, -, hj, -⟩
    have hsane' : Sane { s with caller := .cancel 0 } := hsane.congr rfl rfl rfl rfl
    have hnum' := runs_threadNum hsane' hruns'
    simp only at hnum'
    omega

/-- A pool with two workers and one with one. -/
theorem never_wedged_iff_two : ∃ thiz₁ thiz₂ : Pool ℕ ℕ,
    threadpoolCreate 1 2 true true = .ok (some thiz₁) ∧
    threadpoolCreate 2 2 true true = .ok (some thiz₂) ∧
    (∀ s', (threads ℕ ℕ).Runs { Threads.init thiz₁ with caller := .cancel 0 } s' → ¬ Wedged s') ∧
    ¬ ∀ s', (threads ℕ ℕ).Runs { Threads.init thiz₂ with caller := .cancel 0 } s' → ¬ Wedged s' := by
  have hone : threadpoolCreate (φ := ℕ) (κ := ℕ) 1 2 true true = .ok (some _) := rfl
  have htwo : threadpoolCreate (φ := ℕ) (κ := ℕ) 2 2 true true = .ok (some _) := rfl
  refine ⟨_, _, hone, htwo, (never_wedged_iff hone .refl rfl).mpr (by decide), ?_⟩
  intro hnever
  exact absurd ((never_wedged_iff htwo .refl rfl).mp hnever) (by decide)

/-- Two workers, nothing to do: the first one waits with its cancellation pending. -/
theorem two_wedged : ∃ (thiz : Pool ℕ ℕ) (s : Threads ℕ ℕ),
    threadpoolCreate 2 2 true true = .ok (some thiz) ∧
    (threads ℕ ℕ).Runs { Threads.init thiz with caller := .cancel 0 } s ∧ Wedged s := by
  have hruns : (threads ℕ ℕ).Runs
      { Threads.init ⟨2, [none, none, none], [none, none, none], 0, 0, 0, 2⟩ with
        caller := .cancel 0 } _ :=
    .head (e := .call) trivial rfl <|
    .head (e := .lock 0) ⟨show ((0 : ℕ) : ℤ) < 2 by decide, rfl, rfl⟩ rfl <|
    .head (e := .test 0) ⟨show ((0 : ℕ) : ℤ) < 2 by decide, rfl⟩ rfl <|
    .head (e := .terminate 0)
      ⟨show ((0 : ℕ) : ℤ) < 2 by decide, rfl, .inl ⟨rfl, false, rfl⟩⟩ rfl .refl
  exact ⟨_, _, rfl, hruns, 0, 1, by decide, show ((0 : ℕ) : ℤ) < 2 by decide, rfl, rfl,
    show ((1 : ℕ) : ℤ) < 2 by decide, Nat.zero_le 1⟩

/-! ## Destroying -/

/-- Nothing is pending, and nothing is being read. -/
structure Drained (s : Threads φ κ) : Prop where
  caller : s.caller ≠ .away
  empty : s.thiz.currTaskNum ≤ 0
  place : ∀ k tmpArg, s.places k ≠ .reading tmpArg

theorem Drained.put (h : Drained s) (hp : ∀ tmpArg, p ≠ .reading tmpArg) (owner : Option ℕ) :
    Drained (s.put k p owner) := by
  refine ⟨h.caller, h.empty, ?_⟩
  intro j tmpArg
  change Function.update s.places k p j ≠ .reading tmpArg
  rw [Function.update_apply]
  split
  · exact hp tmpArg
  · exact h.place j tmpArg

/-- Once nothing is pending nothing will be read. -/
theorem Drained.step (h : Drained s) (hmoves : Moves s e s') : Drained s' := by
  cases hmoves with
  | adds caller => exact absurd caller h.caller
  | reads _ _ pos => exact absurd pos (Int.not_lt.mpr h.empty)
  | @takes k tmpArg _ _ place => exact absurd place (h.place k tmpArg)
  | locks => exact h.put (by simp) _
  | waits => exact h.put (by simp) _
  | runs => exact h.put (by simp) _
  | unlocks => exact h.put (by simp) _
  | wakes => exact h.put (by simp) _
  | finishes => exact h.put (by simp) _
  | endsWaiting => exact h.put (by simp) _
  | endsRunning => exact h.put (by simp) _
  | stops caller => exact absurd caller h.caller
  | destroys caller => exact absurd caller h.caller
  | calls callable =>
    obtain ⟨hthiz, hplaces, -, -⟩ := s.next_same
    refine ⟨?_, hthiz ▸ h.empty, hplaces ▸ h.place⟩
    have hcaller := h.caller
    unfold Threads.next
    split
    · exact hcaller
    · exact hcaller
    · simp
    · simp
    · split <;> simp
    · simp

theorem Drained.not_readsFreed (h : Drained s) (he : s.Enabled e) : ¬ ReadsFreed s e := by
  cases e with
  | test k => exact fun hreads => absurd hreads.1 (Int.not_lt.mpr h.empty)
  | take k =>
    obtain ⟨-, tmpArg, hplace⟩ := he
    exact absurd hplace (h.place k tmpArg)
  | _ => exact id

/-- While a task is pending, a worker at the top of its loop comes to read. -/
theorem readsFreed_of_idle (h : Sane s) (hk : (k : ℤ) < s.thiz.threadNum)
    (hpos : 0 < s.thiz.currTaskNum) (hqueue : s.queueFreed = true) (hfree : s.owner = none)
    (hplace : s.places k = .idle) :
    ∃ s' e, (threads φ κ).Runs s s' ∧ s'.Enabled e ∧ ReadsFreed s' e :=
  ⟨_, .test k, (drives_idle h hk hfree hplace).runs, ⟨hk, put_places ..⟩, hpos, hqueue⟩

/-- While a task is pending and nobody owns `mutex_`, any worker that is alive comes to read. -/
theorem readsFreed_of_free (h : Sane s) (hk : (k : ℤ) < s.thiz.threadNum)
    (hpos : 0 < s.thiz.currTaskNum) (hqueue : s.queueFreed = true) (hfree : s.owner = none)
    (halive : s.places k ≠ .terminated) :
    ∃ s' e, (threads φ κ).Runs s s' ∧ s'.Enabled e ∧ ReadsFreed s' e := by
  cases hplace : s.places k with
  | idle => exact readsFreed_of_idle h hk hpos hqueue hfree hplace
  | waiting notified =>
    have hwake := drives_waiting h hk hfree hplace
    have hunlock := hwake.trans (drives_awake hwake.sane hk (put_places ..))
    obtain ⟨s', e, hruns, hreads⟩ :=
      readsFreed_of_idle hunlock.sane hk hpos hqueue rfl (put_places ..)
    exact ⟨s', e, hunlock.runs.trans hruns, hreads⟩
  | running taskFun tmpArg =>
    have hfinish := drives_running h hk hplace
    obtain ⟨s', e, hruns, hreads⟩ :=
      readsFreed_of_idle hfinish.sane hk hpos hqueue hfree (put_places ..)
    exact ⟨s', e, hfinish.runs.trans hruns, hreads⟩
  | terminated => exact absurd hplace halive
  | _ =>
    have howner := h.holds k (by rw [hplace]; rfl)
    exact absurd (hfree.symm.trans howner) (by simp)

/-- While a task is pending some worker comes to read. -/
theorem exists_readsFreed (h : Sane s) (hnum : 0 < s.thiz.threadNum)
    (hpos : 0 < s.thiz.currTaskNum) (hqueue : s.queueFreed = true) (hfun : s.funFreed = true)
    (halive : ∀ j, s.places j ≠ .terminated) :
    ∃ s' e, (threads φ κ).Runs s s' ∧ s'.Enabled e ∧ ReadsFreed s' e := by
  have hzero : ((0 : ℕ) : ℤ) < s.thiz.threadNum := hnum
  cases howner : s.owner with
  | none => exact readsFreed_of_free h hzero hpos hqueue howner (halive 0)
  | some k =>
    obtain ⟨hk, hin⟩ := h.owner k howner
    replace hin := hin.resolve_right (halive k)
    cases hplace : s.places k with
    | inside => exact ⟨s, .test k, .refl, ⟨hk, hplace⟩, hpos, hqueue⟩
    | reading tmpArg => exact ⟨s, .take k, .refl, ⟨hk, tmpArg, hplace⟩, hfun⟩
    | taken taskFun tmpArg =>
      have hunlock := drives_taken h hk hplace
      obtain ⟨s', e, hruns, hreads⟩ := readsFreed_of_free hunlock.sane hzero hpos hqueue rfl
        (hunlock.alive 0 (halive 0))
      exact ⟨s', e, hunlock.runs.trans hruns, hreads⟩
    | awake =>
      have hunlock := drives_awake h hk hplace
      obtain ⟨s', e, hruns, hreads⟩ := readsFreed_of_free hunlock.sane hzero hpos hqueue rfl
        (hunlock.alive 0 (halive 0))
      exact ⟨s', e, hunlock.runs.trans hruns, hreads⟩
    | terminated => exact absurd hplace (halive k)
    | _ => exact absurd hin (by simp [hplace, Place.holds])

theorem Queued.nonneg {w : World φ κ} (h : Queued w) : 0 ≤ w.thiz.currTaskNum := by
  obtain hring | ⟨-, hempty⟩ := h
  · have hcount := hring.count
    have hle := hring.length_le
    omega
  · omega

/-- From any state of a pool that has not been stopped: however `threadpool_destroy` and the workers
take their steps, no worker reads an array that has been freed, if and only if no task is pending
where `threadpool_destroy` is called. -/
theorem never_readsFreed_iff
    (hcreate : threadpoolCreate threadNum maxTaskNum queueMemory funMemory = .ok (some thiz))
    (hruns : (threads φ κ).Runs (.init thiz) s) (hcaller : s.caller = .away) :
    (∀ s', (threads φ κ).Runs { s with caller := .freeQueue } s' →
      ∀ e, s'.Enabled e → ¬ ReadsFreed s' e) ↔ s.thiz.currTaskNum = 0 := by
  obtain ⟨hsane, hearly⟩ := sane_runs hcreate hruns
  constructor
  · intro hnever
    have hnonneg : 0 ≤ s.thiz.currTaskNum := hsane.queued.nonneg
    by_contra hpending
    have hpos : 0 < s.thiz.currTaskNum := lt_of_le_of_ne hnonneg (Ne.symm hpending)
    have hnum : 0 < s.thiz.threadNum := threadNum_init hcreate hruns ▸ threadNum_pos hcreate
    -- both arrays are freed before anything else happens
    have hfreed : (threads φ κ).Runs { s with caller := .freeQueue }
        { s with queueFreed := true, funFreed := true, caller := .cancel 0 } :=
      .head (e := .call) trivial rfl (.head (e := .call) trivial rfl .refl)
    have hsane' : Sane { s with queueFreed := true, funFreed := true, caller := .cancel 0 } :=
      hsane.congr rfl rfl rfl rfl
    obtain ⟨s', e, hruns', he, hreads⟩ :=
      exists_readsFreed hsane' hnum hpos rfl rfl (hearly hcaller).alive
    exact hnever s' (hfreed.trans hruns') e he hreads
  · intro hempty s' hruns' e he
    have hdrained : Drained s' := by
      refine hruns'.keep ⟨by simp, Int.le_of_eq hempty, ?_⟩ ?_
      · intro k tmpArg hplace
        exact absurd (hsane.reading k tmpArg hplace).1 (Int.not_lt.mpr (Int.le_of_eq hempty))
      · exact fun ht he hstep => ht.step (moves he hstep)
    exact hdrained.not_readsFreed he

/-- A pool with nothing in it. -/
theorem never_readsFreed_iff_empty : ∃ thiz : Pool ℕ ℕ,
    threadpoolCreate 2 2 true true = .ok (some thiz) ∧
    ∀ s', (threads ℕ ℕ).Runs { Threads.init thiz with caller := .freeQueue } s' →
      ∀ e, s'.Enabled e → ¬ ReadsFreed s' e := by
  have hcreate : threadpoolCreate (φ := ℕ) (κ := ℕ) 2 2 true true = .ok (some _) := rfl
  exact ⟨_, hcreate, (never_readsFreed_iff hcreate .refl rfl).mpr rfl⟩

/-- A pool with one worker, and one task that it has not taken yet. -/
def onePending : Threads ℕ ℕ :=
  { Threads.init ⟨1, [some 6, none, none], [some 5, none, none], 0, 1, 1, 2⟩ with
    accepted := [⟨0, 5, 6⟩] }

/-- The pool is destroyed before its worker has taken the task. -/
theorem one_readsFreed : ∃ (thiz : Pool ℕ ℕ) (s : Threads ℕ ℕ) (e : ThreadEvent ℕ ℕ),
    threadpoolCreate 1 2 true true = .ok (some thiz) ∧
    (threads ℕ ℕ).Runs (.init thiz) onePending ∧ onePending.caller = .away ∧
    (threads ℕ ℕ).Runs { onePending with caller := .freeQueue } s ∧ s.Enabled e ∧
    ReadsFreed s e := by
  have hadd : (threads ℕ ℕ).Runs
      (.init ⟨1, [none, none, none], [none, none, none], 0, 0, 0, 2⟩) onePending :=
    .head (e := .add 5 6 none) ⟨rfl, rfl, fun _ => nofun⟩ rfl .refl
  have hdestroy : (threads ℕ ℕ).Runs { onePending with caller := .freeQueue } _ :=
    .head (e := .call) trivial rfl <|
    .head (e := .lock 0) ⟨show ((0 : ℕ) : ℤ) < 1 by decide, rfl, rfl⟩ rfl .refl
  exact ⟨_, _, .test 0, rfl, hadd, rfl, hdestroy, ⟨show ((0 : ℕ) : ℤ) < 1 by decide, rfl⟩,
    show (0 : ℤ) < 1 by decide, rfl⟩

end RingPool
end CModel
