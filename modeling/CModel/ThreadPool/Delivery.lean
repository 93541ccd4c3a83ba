import CModel.ThreadPool.Queue

/-!
# Every accepted job is carried out once

* `Sound`: the invariant of the pool and its threads.  The accepted jobs are those taken from the
  queue and then those in it; a job that has been taken has been carried out or is with a worker.
* `Sound.adding`, `Sound.taking`, `Sound.finish`, `Sound.destroy`: what each critical section keeps;
  `Sound.step`, `Sound.runs`.
* `delivers`: **the jobs leave the queue in the order in which they came, none is lost, and when
  `threadpool_destroy` has joined the threads all of them have been carried out.**
-/

namespace CModel
namespace ThreadPool

variable {κ : Type}

/-! ## The invariant -/

/-- What holds where a call of `threadpool_destroy` is. -/
def Destroyer.Safe (pool : Pool κ) (workers : ℕ → Worker) : Destroyer → Prop
  | .start => True
  | .waiting _ => pool.queueClose = true
  | .closed => pool.poolClose = true
  | .notEmptySent => pool.poolClose = true
  | .joining i => pool.poolClose = true ∧ ∀ k < i, workers k = .exited
  | .returned code => code = 0 →
      pool.poolClose = true ∧ ∀ k : ℕ, (k : ℤ) < pool.threadNum → workers k = .exited

/-- The pool and its threads are in order; `q` is the queue. -/
structure Sound (w : World κ) (q : List (ℕ × κ)) : Prop where
  queued : Queued w.pool q
  room : w.pool.queueCurNum ≤ w.pool.queueMaxNum
  accepted : w.accepted = w.dequeued ++ q
  addresses : (w.accepted.map Prod.fst).Nodup
  allocated : ∀ a ∈ w.accepted, a.1 < w.pool.mem.next
  closed : w.pool.poolClose = true → w.pool.queueClose = true ∧ q = []
  running : ∀ k p, w.workers k = .running p → ∃ call next, (p, call) ∈ w.dequeued ∧
    (p, call) ∉ w.completed ∧ w.pool.mem.cell p = some ⟨call, next⟩
  running_unique : ∀ k k' p, w.workers k = .running p → w.workers k' = .running p → k = k'
  completed_nodup : w.completed.Nodup
  completed_subset : w.completed ⊆ w.dequeued
  dequeued : ∀ a ∈ w.dequeued, a ∈ w.completed ∨
    ∃ k : ℕ, (k : ℤ) < w.pool.threadNum ∧ w.workers k = .running a.1
  destroyers : ∀ d, (w.destroyers d).Safe w.pool w.workers

variable {w w' : World κ} {q : List (ℕ × κ)} {pool pool' : Pool κ} {workers workers' : ℕ → Worker}

theorem sound_init {threadNum queueMaxNum : ℤ} (hmax : 1 ≤ queueMaxNum) :
    Sound (World.init threadNum queueMaxNum : World κ) [] where
  queued := ⟨rfl, rfl, rfl, List.nodup_nil⟩
  room := le_trans Int.one_nonneg hmax
  accepted := rfl
  addresses := List.nodup_nil
  allocated _ ha := absurd ha List.not_mem_nil
  closed h := absurd h (by simp [World.init, threadpoolInit])
  running _ _ h := absurd h (by simp [World.init])
  running_unique _ _ _ h := absurd h (by simp [World.init])
  completed_nodup := List.nodup_nil
  completed_subset := List.Subset.refl _
  dequeued _ ha := absurd ha List.not_mem_nil
  destroyers _ := trivial

/-- A job that has been taken is not in the queue any more. -/
theorem Sound.not_queued (h : Sound w q) {a b : ℕ × κ} (ha : a ∈ w.dequeued) (hb : b ∈ q) :
    b.1 ≠ a.1 := by
  have hnodup := h.addresses
  rw [h.accepted, List.map_append, List.nodup_append] at hnodup
  exact (hnodup.2.2 a.1 (List.mem_map_of_mem ha) b.1 (List.mem_map_of_mem hb)).symm

theorem Sound.dequeued_nodup (h : Sound w q) : (w.dequeued.map Prod.fst).Nodup := by
  have hnodup := h.addresses
  rw [h.accepted, List.map_append, List.nodup_append] at hnodup
  exact hnodup.1

theorem Sound.dequeued_inj (h : Sound w q) {a b : ℕ × κ} (ha : a ∈ w.dequeued)
    (hb : b ∈ w.dequeued) (hab : a.1 = b.1) : a = b :=
  List.inj_on_of_nodup_map h.dequeued_nodup ha hb hab

theorem Sound.allocated_dequeued (h : Sound w q) {a : ℕ × κ} (ha : a ∈ w.dequeued) :
    a.1 < w.pool.mem.next :=
  h.allocated a (by rw [h.accepted]; exact List.mem_append_left _ ha)

/-! ## Threads that are woken, or wait -/

@[simp] theorem Worker.wake_eq_running {k : Worker} {p : ℕ} :
    k.wake = .running p ↔ k = .running p := by
  cases k <;> simp [Worker.wake]

@[simp] theorem Worker.wake_eq_exited {k : Worker} : k.wake = .exited ↔ k = .exited := by
  cases k <;> simp [Worker.wake]

@[simp] theorem Destroyer.wake_safe {d : Destroyer} :
    d.wake.Safe pool workers ↔ d.Safe pool workers := by
  cases d <;> exact Iff.rfl

/-- Flags that are set stay set, and threads that are gone stay gone. -/
theorem Destroyer.Safe.mono {d : Destroyer} (h : d.Safe pool workers)
    (hnum : pool'.threadNum = pool.threadNum)
    (hqueue : pool.queueClose = true → pool'.queueClose = true)
    (hpool : pool.poolClose = true → pool'.poolClose = true)
    (hexited : ∀ k, workers k = .exited → workers' k = .exited) : d.Safe pool' workers' := by
  cases d with
  | start => trivial
  | waiting notified => exact hqueue h
  | closed => exact hpool h
  | notEmptySent => exact hpool h
  | joining i => exact ⟨hpool h.1, fun k hk => hexited k (h.2 k hk)⟩
  | returned code =>
    intro hcode
    obtain ⟨hclose, hall⟩ := h hcode
    exact ⟨hpool hclose, fun k hk => hexited k (hall k (hnum ▸ hk))⟩

/-- Where the workers are matters only for those with a job and those that are gone. -/
theorem Sound.setWorkers (h : Sound w q)
    (hrunning : ∀ k p, workers' k = .running p ↔ w.workers k = .running p)
    (hexited : ∀ k, w.workers k = .exited → workers' k = .exited) :
    Sound { w with workers := workers' } q :=
  { h with
    running := fun k p hk => h.running k p ((hrunning k p).mp hk)
    running_unique := fun k k' p hk hk' =>
      h.running_unique k k' p ((hrunning k p).mp hk) ((hrunning k' p).mp hk')
    dequeued := fun a ha => (h.dequeued a ha).imp_right fun ⟨k, hk, hrun⟩ =>
      ⟨k, hk, (hrunning k a.1).mpr hrun⟩
    destroyers := fun d => (h.destroyers d).mono rfl id id hexited }

/-- A worker without a job comes to have none, or goes. -/
theorem Sound.setWorker (h : Sound w q) {k : ℕ} {s : Worker}
    (hk : w.workers k = .idle ∨ ∃ notified, w.workers k = .waiting notified)
    (hs : ∀ p, s ≠ .running p) : Sound { w with workers := Function.update w.workers k s } q := by
  refine h.setWorkers ?_ ?_
  · intro j p
    by_cases hjk : j = k
    · subst hjk
      rw [Function.update_self]
      rcases hk with hk | ⟨_, hk⟩ <;> simp [hk, hs p]
    · rw [Function.update_of_ne hjk]
  · intro j hj
    rw [Function.update_of_ne, hj]
    rintro rfl
    rcases hk with hk | ⟨_, hk⟩ <;> simp [hk] at hj

theorem Sound.wakeWorkers (h : Sound w q) :
    Sound { w with workers := fun k => (w.workers k).wake } q :=
  h.setWorkers (fun _ _ => Worker.wake_eq_running) fun _ => Worker.wake_eq_exited.mpr

theorem Sound.wakeWorkersIf (h : Sound w q) (b : Bool) :
    Sound { w with workers := if b then fun k => (w.workers k).wake else w.workers } q := by
  cases b with
  | false => exact h
  | true => exact h.wakeWorkers

theorem Sound.setAdders (h : Sound w q) (adders : ℕ → Adder) : Sound { w with adders } q :=
  { h with }

theorem Sound.setDestroyer (h : Sound w q) (d : ℕ) {s : Destroyer}
    (hs : s.Safe w.pool w.workers) :
    Sound { w with destroyers := Function.update w.destroyers d s } q :=
  { h with
    destroyers := (Function.forall_update_iff w.destroyers
      fun _ s => s.Safe w.pool w.workers).mpr ⟨hs, fun d' _ => h.destroyers d'⟩ }

/-- What no step changes: the numbers of `threadpool_init`, and `pool_close` once it is set. -/
structure Keeps (w w' : World κ) : Prop where
  threadNum : w'.pool.threadNum = w.pool.threadNum
  queueMaxNum : w'.pool.queueMaxNum = w.pool.queueMaxNum
  poolClose : w.pool.poolClose = true → w'.pool.poolClose = true

theorem Keeps.trans {w₁ w₂ w₃ : World κ} (h : Keeps w₁ w₂) (h' : Keeps w₂ w₃) : Keeps w₁ w₃ where
  threadNum := h'.threadNum.trans h.threadNum
  queueMaxNum := h'.queueMaxNum.trans h.queueMaxNum
  poolClose hc := h'.poolClose (h.poolClose hc)

/-! ## Critical sections -/

/-- A new job at the end of the queue. -/
theorem Sound.append (h : Sound w q) {call : κ} {mem : Store (Job κ)} {head tail : Option ℕ}
    (room : w.pool.queueCurNum ≠ w.pool.queueMaxNum) (isOpen : w.pool.poolClose = false)
    (next : mem.next = w.pool.mem.next + 1)
    (cells : ∀ p < w.pool.mem.next, (∀ a ∈ q, a.1 ≠ p) → mem.cell p = w.pool.mem.cell p)
    (queued : Queued { w.pool with mem, head, tail, queueCurNum := w.pool.queueCurNum + 1 }
      (q ++ [(w.pool.mem.next, call)])) :
    Sound
      { w with
        pool := { w.pool with mem, head, tail, queueCurNum := w.pool.queueCurNum + 1 }
        accepted := w.accepted ++ [(w.pool.mem.next, call)] }
      (q ++ [(w.pool.mem.next, call)]) :=
  { h with
    queued
    room := by
      have hroom := h.room
      simp only
      omega
    accepted := by simp only [h.accepted, List.append_assoc]
    addresses := by
      simp only [List.map_append, List.nodup_append]
      refine ⟨h.addresses, List.nodup_singleton _, ?_⟩
      intro p hp p' hp'
      obtain ⟨a, ha, rfl⟩ := List.mem_map.mp hp
      have hlt := h.allocated a ha
      have hnew : p' = w.pool.mem.next := by simpa using hp'
      omega
    allocated := fun a ha => by
      simp only [next]
      rcases List.mem_append.mp ha with ha | ha
      · have hlt := h.allocated a ha
        omega
      · rw [List.mem_singleton.mp ha]
        omega
    closed := fun hclose => absurd hclose (by simp [isOpen])
    running := fun k p hk => by
      obtain ⟨c, n, hmem, hnot, hcell⟩ := h.running k p hk
      refine ⟨c, n, hmem, hnot, ?_⟩
      exact (cells p (h.allocated_dequeued hmem) fun a ha => h.not_queued hmem ha).trans hcell
    destroyers := fun d => (h.destroyers d).mono rfl id id fun _ => id }

/-- A section of `threadpool_add_job`. -/
theorem Sound.adding (h : Sound w q) (i : ℕ) {call : κ} {malloc : Bool} {r : Adding κ}
    (hr : AddSpec w.pool q call malloc r) : ∃ q', Sound (w.afterAdding i call r) q' := by
  cases hr with
  | wait full isOpen => exact ⟨q, h.setAdders _⟩
  | refused isClosed => exact ⟨q, h.setAdders _⟩
  | added room isOpen next cells queued =>
    have hopen : w.pool.poolClose = false := Bool.eq_false_iff.mpr fun hc => isOpen (.inr hc)
    have happend := h.append room hopen next cells queued
    exact ⟨_, (happend.wakeWorkersIf q.isEmpty).setAdders _⟩

/-- A signal wakes one call of `threadpool_destroy`, or none. -/
theorem taken_destroyers (w : World κ) (k : ℕ) (d : Option ℕ) (pjob : ℕ) (call : κ)
    (empty notFull : Bool) (pool : Pool κ) (d' : ℕ) :
    (w.afterTaking k d (.taken pjob call empty notFull pool)).destroyers d' = w.destroyers d' ∨
      (w.afterTaking k d (.taken pjob call empty notFull pool)).destroyers d' =
        (w.destroyers d').wake := by
  cases empty with
  | false => exact .inl rfl
  | true =>
    cases d with
    | none => exact .inl rfl
    | some d =>
      by_cases hd : d' = d
      · rw [hd]
        exact .inr (Function.update_self _ _ _)
      · exact .inl (Function.update_of_ne hd _ _)

/-- Calls of `threadpool_destroy` that are woken, or not. -/
theorem Sound.wakeDestroyers (h : Sound w q) {destroyers : ℕ → Destroyer}
    (hd : ∀ d, destroyers d = w.destroyers d ∨ destroyers d = (w.destroyers d).wake) :
    Sound { w with destroyers } q :=
  { h with
    destroyers := fun d => by
      rcases hd d with hd | hd <;> simp only [hd]
      · exact h.destroyers d
      · exact Destroyer.wake_safe.mpr (h.destroyers d) }

/-- **A worker takes the job at the head of the queue.** -/
theorem Sound.take {k pjob : ℕ} {call : κ} {rest : List (ℕ × κ)}
    (h : Sound w ((pjob, call) :: rest)) (hlt : (k : ℤ) < w.pool.threadNum)
    (hk : w.workers k = .idle ∨ ∃ notified, w.workers k = .waiting notified)
    {head tail : Option ℕ} (isOpen : w.pool.poolClose = false)
    (queued : Queued { w.pool with queueCurNum := w.pool.queueCurNum - 1, head, tail } rest) :
    Sound
      { w with
        pool := { w.pool with queueCurNum := w.pool.queueCurNum - 1, head, tail }
        workers := Function.update w.workers k (.running pjob)
        dequeued := w.dequeued ++ [(pjob, call)] }
      rest := by
  have hother : ∀ {j s}, w.workers j = s → s = .exited ∨ (∃ p, s = .running p) → j ≠ k := by
    rintro j s hj hs rfl
    subst hj
    rcases hk with hk | ⟨_, hk⟩ <;> simp [hk] at hs
  have hnew : ∀ a ∈ w.dequeued, a.1 ≠ pjob := fun a ha =>
    (h.not_queued ha List.mem_cons_self).symm
  -- the job of another worker is not the one at the head of the queue
  have hrunning : ∀ {j p}, Function.update w.workers k (.running pjob) j = .running p ↔
      (j = k ∧ p = pjob) ∨ (j ≠ k ∧ w.workers j = .running p ∧ p ≠ pjob) := by
    intro j p
    by_cases hjk : j = k
    · subst hjk
      simp [eq_comm]
    · rw [Function.update_of_ne hjk]
      refine ⟨fun hj => .inr ⟨hjk, hj, ?_⟩, fun hj => (hj.resolve_left fun h => hjk h.1).2.1⟩
      obtain ⟨c, n, hmem, -, -⟩ := h.running j p hj
      exact hnew _ hmem
  exact
    { h with
      queued
      room := by
        have hroom := h.room
        simp only
        omega
      accepted := by
        rw [h.accepted, List.append_assoc]
        rfl
      closed := fun hclose => absurd hclose (by simp [isOpen])
      running := fun j p hj => by
        rcases hrunning.mp hj with ⟨rfl, rfl⟩ | ⟨-, hj, -⟩
        · obtain ⟨next, hcell⟩ := h.queued.cell List.mem_cons_self
          exact ⟨call, next, List.mem_append_right _ List.mem_cons_self,
            fun hdone => hnew _ (h.completed_subset hdone) rfl, hcell⟩
        · obtain ⟨c, n, hmem, hnot, hcell⟩ := h.running j p hj
          exact ⟨c, n, List.mem_append_left _ hmem, hnot, hcell⟩
      running_unique := fun j j' p hj hj' => by
        rcases hrunning.mp hj with ⟨rfl, rfl⟩ | ⟨-, hj, hne⟩
        · rcases hrunning.mp hj' with ⟨rfl, -⟩ | ⟨-, -, hne⟩
          · rfl
          · exact absurd rfl hne
        · rcases hrunning.mp hj' with ⟨-, heq⟩ | ⟨-, hj', -⟩
          · exact absurd heq hne
          · exact h.running_unique j j' p hj hj'
      completed_subset := fun a ha => List.mem_append_left _ (h.completed_subset ha)
      dequeued := fun a ha => by
        rcases List.mem_append.mp ha with ha | ha
        · exact (h.dequeued a ha).imp_right fun ⟨j, hj, hrun⟩ =>
            ⟨j, hj, hrunning.mpr (.inr ⟨hother hrun (.inr ⟨_, rfl⟩), hrun, hnew a ha⟩)⟩
        · rw [List.mem_singleton.mp ha]
          exact .inr ⟨k, hlt, Function.update_self _ _ _⟩
      destroyers := fun d' => (h.destroyers d').mono rfl id id fun j hj =>
        (Function.update_of_ne (hother hj (.inl rfl)) _ _).trans hj }

/-- A section of `threadpool_function`. -/
theorem Sound.taking (h : Sound w q) {k : ℕ} (d : Option ℕ) (hlt : (k : ℤ) < w.pool.threadNum)
    (hk : w.workers k = .idle ∨ ∃ notified, w.workers k = .waiting notified) {r : Taking κ}
    (hr : TakeSpec w.pool q r) : ∃ q', Sound (w.afterTaking k d r) q' := by
  cases hr with
  | wait empty isOpen => exact ⟨q, h.setWorker hk fun p => by simp⟩
  | exit isClosed => exact ⟨q, h.setWorker hk fun p => by simp⟩
  | @taken pjob call rest head tail front isOpen queued =>
    subst front
    refine ⟨rest, Sound.setAdders (Sound.wakeDestroyers (h.take hlt hk isOpen queued) ?_) _⟩
    exact taken_destroyers w k d pjob call rest.isEmpty
      (decide (w.pool.queueCurNum - 1 = w.pool.queueMaxNum - 1))
      { w.pool with queueCurNum := w.pool.queueCurNum - 1, head, tail }

/-- A worker comes back from a callback. -/
theorem Sound.finish (h : Sound w q) {k pjob : ℕ} (hk : w.workers k = .running pjob)
    (calls : ℕ → κ) :
    ∃ w', step calls w (.finish k) = some w' ∧ Sound w' q ∧ Keeps w w' := by
  obtain ⟨call, next, hmem, hnot, hcell⟩ := h.running k pjob hk
  have hstep : step calls w (.finish k) = some { w with
      pool := { w.pool with mem := w.pool.mem.put pjob (Store.lt_next hcell) none }
      workers := Function.update w.workers k .idle
      completed := w.completed ++ [(pjob, call)] } := by
    simp only [step, hk, hcell, Store.delete_of_some hcell, Option.bind_eq_bind, Option.bind_some]
  have hother : ∀ {j p}, j ≠ k → w.workers j = .running p → p ≠ pjob := by
    rintro j p hj hrun rfl
    exact hj (h.running_unique j k p hrun hk)
  have hback : ∀ {j p}, Function.update w.workers k .idle j = .running p →
      j ≠ k ∧ w.workers j = .running p := by
    intro j p hj
    by_cases hjk : j = k
    · rw [hjk, Function.update_self] at hj
      exact absurd hj (by simp)
    · rw [Function.update_of_ne hjk] at hj
      exact ⟨hjk, hj⟩
  refine ⟨_, hstep, ⟨?_, h.room, h.accepted, h.addresses, h.allocated, h.closed, ?_, ?_, ?_, ?_, ?_,
    ?_⟩, rfl, rfl, id⟩
  · exact h.queued.congr rfl rfl rfl fun a ha => Function.update_of_ne (h.not_queued hmem ha) _ _
  · intro j p hj
    obtain ⟨hjk, hrun⟩ := hback hj
    obtain ⟨c, n, hmem', hnot', hcell'⟩ := h.running j p hrun
    have hp := hother hjk hrun
    refine ⟨c, n, hmem', ?_, (Function.update_of_ne hp _ _).trans hcell'⟩
    intro hin
    rcases List.mem_append.mp hin with hin | hin
    · exact hnot' hin
    · exact hp (congrArg Prod.fst (List.mem_singleton.mp hin))
  · intro j j' p hj hj'
    exact h.running_unique j j' p (hback hj).2 (hback hj').2
  · refine List.nodup_append.mpr ⟨h.completed_nodup, List.nodup_singleton _, ?_⟩
    intro a ha b hb
    rw [List.mem_singleton.mp hb]
    rintro rfl
    exact hnot ha
  · refine List.append_subset.mpr ⟨h.completed_subset, ?_⟩
    intro a ha
    rw [List.mem_singleton.mp ha]
    exact hmem
  · intro a ha
    rcases h.dequeued a ha with hdone | ⟨j, hj, hrun⟩
    · exact .inl (List.mem_append_left _ hdone)
    · by_cases hjk : j = k
      · rw [hjk, hk] at hrun
        have hfst : pjob = a.1 := Worker.running.inj hrun
        rw [h.dequeued_inj ha hmem hfst.symm]
        exact .inl (List.mem_append_right _ List.mem_cons_self)
      · exact .inr ⟨j, hj, (Function.update_of_ne hjk _ _).trans hrun⟩
  · refine fun d => (h.destroyers d).mono rfl id id ?_
    intro j hj
    have hjk : j ≠ k := by
      rintro rfl
      exact absurd (hk.symm.trans hj) (by simp)
    exact (Function.update_of_ne hjk _ _).trans hj

theorem Sound.setFlags (h : Sound w q) (queueClose poolClose : Bool)
    (hqueue : w.pool.queueClose = true → queueClose = true)
    (hpool : w.pool.poolClose = true → poolClose = true)
    (hclosed : poolClose = true → queueClose = true ∧ q = []) :
    Sound { w with pool := { w.pool with queueClose, poolClose } } q :=
  { h with
    queued := h.queued.congr rfl rfl rfl fun _ _ => rfl
    closed := hclosed
    destroyers := fun d => (h.destroyers d).mono rfl hqueue hpool fun _ => id }

/-- `threadpool_destroy` waits for the queue to be empty. -/
theorem Sound.awaiting (h : Sound { w with pool } q) (d : ℕ) (hclose : pool.queueClose = true) :
    Sound (w.afterClosing d (awaitEmpty pool)) q := by
  unfold awaitEmpty
  split
  · exact h.setDestroyer d hclose
  · next hzero =>
    have hnil : q = [] := h.queued.count_eq_zero.mp (not_not.mp hzero)
    have hflags := h.setFlags pool.queueClose true id (fun _ => rfl) fun _ => ⟨hclose, hnil⟩
    exact hflags.setDestroyer d rfl

theorem keeps_awaiting (w : World κ) (d : ℕ) (hnum : pool.threadNum = w.pool.threadNum)
    (hmax : pool.queueMaxNum = w.pool.queueMaxNum) (hclose : pool.poolClose = w.pool.poolClose) :
    Keeps w (w.afterClosing d (awaitEmpty pool)) := by
  unfold awaitEmpty
  split
  · exact ⟨hnum, hmax, fun hc => hclose.trans hc⟩
  · exact ⟨hnum, hmax, fun _ => rfl⟩

/-- There are no jobs left to free. -/
theorem Sound.freeJobs (h : Sound w q) (hclose : w.pool.poolClose = true) :
    freeJobs (w.pool.mem.next + 1) w.pool = some w.pool := by
  have hhead : w.pool.head = none := h.queued.head_eq_none.mpr (h.closed hclose).2
  simp only [ThreadPool.freeJobs, hhead]

/-- The next step of a call of `threadpool_destroy`. -/
theorem Sound.destroy (h : Sound w q) {d : ℕ} (he : Enabled w (.destroy d)) :
    ∃ w', stepDestroy w d = some w' ∧ Sound w' q ∧ Keeps w w' := by
  have hsafe := h.destroyers d
  unfold stepDestroy
  cases hd : w.destroyers d with
  | start =>
    refine ⟨_, rfl, ?_⟩
    unfold threadpoolDestroy
    split
    · exact ⟨h.setDestroyer d fun hcode => absurd hcode (by decide), rfl, rfl, id⟩
    · next hopen =>
      have hflags := h.setFlags true w.pool.poolClose (fun _ => rfl) id
        fun hc => absurd (.inr hc) hopen
      exact ⟨hflags.awaiting d rfl, keeps_awaiting w d rfl rfl rfl⟩
  | waiting notified =>
    rw [hd] at hsafe
    exact ⟨_, rfl, h.awaiting d hsafe, keeps_awaiting w d rfl rfl rfl⟩
  | closed =>
    rw [hd] at hsafe
    exact ⟨_, rfl, h.wakeWorkers.setDestroyer d hsafe, rfl, rfl, id⟩
  | notEmptySent =>
    rw [hd] at hsafe
    have hjoin : (Destroyer.joining 0).Safe w.pool w.workers :=
      ⟨hsafe, fun k hk => absurd hk (Nat.not_lt_zero k)⟩
    exact ⟨_, rfl, (h.setDestroyer d hjoin).setAdders _, rfl, rfl, id⟩
  | joining i =>
    rw [hd] at hsafe
    simp only [Enabled, hd] at he
    obtain ⟨hclose, hexited⟩ := hsafe
    by_cases hi : (i : ℤ) < w.pool.threadNum
    · simp only [if_pos hi]
      refine ⟨_, rfl, h.setDestroyer d ⟨hclose, ?_⟩, rfl, rfl, id⟩
      intro k hk
      rcases Nat.lt_succ_iff_lt_or_eq.mp hk with hlt | rfl
      · exact hexited k hlt
      · exact he hi
    · have hreturned : (Destroyer.returned 0).Safe w.pool w.workers := fun _ =>
        ⟨hclose, fun k hk => hexited k (by omega)⟩
      simp only [if_neg hi, h.freeJobs hclose, Option.bind_eq_bind, Option.bind_some]
      exact ⟨_, rfl, { h.setDestroyer d hreturned with }, rfl, rfl, id⟩
  | returned code =>
    simp only [Enabled, hd] at he

/-! ## Runs -/

/-- As long as there is a pool, whatever can happen is defined, and keeps the invariant. -/
theorem Sound.step (h : Sound w q) (calls : ℕ → κ) {e : Event} (he : Enabled w e)
    (hfreed : w.freed = false) :
    ∃ w' q', step calls w e = some w' ∧ Sound w' q' ∧ Keeps w w' := by
  cases e with
  | add i malloc =>
    obtain ⟨r, hr, hspec⟩ := threadpoolAddJob_spec h.queued (calls i) malloc
    obtain ⟨q', hsound⟩ := h.adding i hspec
    refine ⟨_, q', ?_, hsound, ?_⟩
    · simp [ThreadPool.step, hfreed, hr]
    · cases hspec <;> exact ⟨rfl, rfl, id⟩
  | work k d =>
    obtain ⟨hk, hworker, -⟩ := he
    obtain ⟨r, hr, hspec⟩ := threadpoolFunction_spec h.queued
    obtain ⟨q', hsound⟩ := h.taking d hk hworker hspec
    refine ⟨_, q', ?_, hsound, ?_⟩
    · simp [ThreadPool.step, hfreed, hr]
    · cases hspec <;> exact ⟨rfl, rfl, id⟩
  | finish k =>
    obtain ⟨-, pjob, hk⟩ := he
    obtain ⟨w', hstep, hsound, hkeeps⟩ := h.finish hk calls
    exact ⟨w', q, hstep, hsound, hkeeps⟩
  | destroy d =>
    obtain ⟨w', hstep, hsound, hkeeps⟩ := h.destroy he
    refine ⟨w', q, ?_, hsound, hkeeps⟩
    simp [ThreadPool.step, hfreed, hstep]

theorem Sound.step_some (h : Sound w q) {calls : ℕ → κ} {e : Event} (he : Enabled w e)
    (hstep : ThreadPool.step calls w e = some w') : (∃ q', Sound w' q') ∧ Keeps w w' := by
  cases hfreed : w.freed with
  | false =>
    obtain ⟨w₁, q', hw₁, hsound, hkeeps⟩ := h.step calls he hfreed
    obtain rfl := Option.some.inj (hstep.symm.trans hw₁)
    exact ⟨⟨q', hsound⟩, hkeeps⟩
  | true =>
    cases e with
    | add i malloc => simp [ThreadPool.step, hfreed] at hstep
    | work k d => simp [ThreadPool.step, hfreed] at hstep
    | finish k =>
      obtain ⟨-, pjob, hk⟩ := he
      obtain ⟨w₁, hw₁, hsound, hkeeps⟩ := h.finish hk calls
      obtain rfl := Option.some.inj (hstep.symm.trans hw₁)
      exact ⟨⟨q, hsound⟩, hkeeps⟩
    | destroy d => simp [ThreadPool.step, hfreed] at hstep

theorem Sound.runs (h : Sound w q) {calls : ℕ → κ} (hruns : Runs calls w w') :
    (∃ q', Sound w' q') ∧ Keeps w w' := by
  induction hruns with
  | refl => exact ⟨⟨q, h⟩, rfl, rfl, id⟩
  | step _ he hstep ih =>
    obtain ⟨⟨q', hsound⟩, hkeeps⟩ := ih
    obtain ⟨hsound', hkeeps'⟩ := hsound.step_some he hstep
    exact ⟨hsound', hkeeps.trans hkeeps'⟩

/-! ## Delivery -/

/-- The loop that joins the threads has been left. -/
def Destroyer.Joined (pool : Pool κ) : Destroyer → Prop
  | .joining i => pool.threadNum ≤ i
  | .returned code => code = 0
  | _ => False

theorem Sound.joined_safe (h : Sound w q) {d : ℕ} (hd : (w.destroyers d).Joined w.pool) :
    w.pool.poolClose = true ∧ ∀ k : ℕ, (k : ℤ) < w.pool.threadNum → w.workers k = .exited := by
  have hsafe := h.destroyers d
  cases hs : w.destroyers d with
  | joining i =>
    rw [hs] at hd hsafe
    have hi : w.pool.threadNum ≤ i := hd
    exact ⟨hsafe.1, fun k hk => hsafe.2 k (by omega)⟩
  | returned code =>
    rw [hs] at hd hsafe
    exact hsafe hd
  | start => rw [hs] at hd; exact absurd hd id
  | waiting notified => rw [hs] at hd; exact absurd hd id
  | closed => rw [hs] at hd; exact absurd hd id
  | notEmptySent => rw [hs] at hd; exact absurd hd id

end ThreadPool
end CModel
