import CModel.ThreadPool.WakeUps

/-!
# Who is there when the pool is freed

`threadpool_destroy` wakes the calls of `threadpool_add_job` that wait, and then waits for the
workers, but not for these calls to come back.

* `TornDownAlone`: no call waits, or has yet to come back, when the pool is freed.
* `Sealed`, `Unmanned`: why none does, when none has waited before, or when there is no worker.
* `Stuck`: a call that waits and does not get the mutex; `Stuck.drain`, `Stuck.join`: meanwhile
  the workers empty the queue and leave, and `threadpool_destroy` goes on to the end.
* `tornDownAlone_iff`: **exactly when no call of `threadpool_add_job` can be left behind.**
-/

namespace CModel
namespace ThreadPool

variable {κ : Type} {w w' w₁ : World κ} {q : List (ℕ × κ)} {calls : ℕ → κ} {d i : ℕ} {e : Event}

/-- No call of `threadpool_add_job` waits on `queue_not_full`, or has been woken there and has not
had the mutex since. -/
def NoneWaits (w : World κ) : Prop := ∀ i notified, w.adders i ≠ .waiting notified

/-- When `threadpool_destroy` frees the pool no call of `threadpool_add_job` is left. -/
def TornDownAlone (w : World κ) : Prop :=
  ∀ d, (w.destroyers d).Joined w.pool → NoneWaits w

theorem Runs.trans {w₂ : World κ} (h : Runs calls w w₁) (h' : Runs calls w₁ w₂) :
    Runs calls w w₂ := by
  induction h' with
  | refl => exact h
  | step _ he hstep ih => exact ih.step he hstep

theorem Runs.head {w₂ : World κ} (he : Enabled w e) (hstep : ThreadPool.step calls w e = some w₁)
    (h : Runs calls w₁ w₂) : Runs calls w w₂ :=
  (Runs.refl.step he hstep).trans h

theorem NoneWaits.wake (h : NoneWaits w) (i : ℕ) (notified : Bool) :
    (w.adders i).wake ≠ .waiting notified := by
  intro hw
  cases ha : w.adders i with
  | waiting n => exact h i n ha
  | _ => simp [ha, Adder.wake] at hw

/-- Only `threadpool_add_job` makes a call wait that has not waited. -/
theorem NoneWaits.step (h : NoneWaits w) (hstep : StepSpec calls w q e w')
    (hadd : ∀ i malloc, e ≠ .add i malloc) : NoneWaits w' := by
  cases hstep with
  | add => exact absurd rfl (hadd _ _)
  | @work k d r _ _ spec =>
    cases spec with
    | wait => exact h
    | exit => exact h
    | taken =>
      simp only [World.afterTaking, NoneWaits]
      split
      · exact h.wake
      · exact h
  | finish => exact h
  | destroy spec =>
    cases spec with
    | wakeAdders => exact h.wake
    | close => unfold awaitEmpty; split <;> exact h
    | await => unfold awaitEmpty; split <;> exact h
    | _ => exact h

/-! ## No call has waited -/

/-- From `queue_close` on, when no call waits. -/
structure Sealed (w : World κ) : Prop where
  queueClose : w.pool.queueClose = true
  noneWaits : NoneWaits w

/-- `queue_close` stays set. -/
theorem queueClose_step (h : w.pool.queueClose = true) (hstep : StepSpec calls w q e w') :
    w'.pool.queueClose = true := by
  cases hstep with
  | add spec => cases spec <;> exact h
  | work _ _ spec => cases spec <;> exact h
  | finish => exact h
  | destroy spec =>
    cases spec with
    | close => unfold awaitEmpty; split <;> rfl
    | await => unfold awaitEmpty; split <;> exact h
    | _ => exact h

theorem Sealed.step (h : Sealed w) (hstep : StepSpec calls w q e w') : Sealed w' := by
  refine ⟨queueClose_step h.queueClose hstep, ?_⟩
  by_cases hadd : ∃ i malloc, e = .add i malloc
  · obtain ⟨i, malloc, rfl⟩ := hadd
    cases hstep with
    | add spec =>
      cases spec with
      | wait _ isOpen => exact absurd (.inl h.queueClose) isOpen
      | refused =>
        exact fun j n => forall_ne_update (fun k => h.noneWaits k n) (by simp) i j
      | added _ isOpen => exact absurd (.inl h.queueClose) isOpen
  · exact h.noneWaits.step hstep fun i malloc he => hadd ⟨i, malloc, he⟩

/-- The first section of `threadpool_destroy` closes the queue. -/
theorem sealed_destroy (h : NoneWaits w) (hs : Sound w q) (hd : w.destroyers d = .start)
    (hstep : DestroySpec w d w') : Sealed w' := by
  cases hstep with
  | refused _ isClosed =>
    refine ⟨isClosed.elim id fun hc => (hs.closed hc).1, h⟩
  | close => unfold awaitEmpty; split <;> exact ⟨rfl, h⟩
  | await place => rw [hd] at place; exact absurd place (by simp)
  | wakeWorkers place => rw [hd] at place; exact absurd place (by simp)
  | wakeAdders place => rw [hd] at place; exact absurd place (by simp)
  | join place => rw [hd] at place; exact absurd place (by simp)
  | free place => rw [hd] at place; exact absurd place (by simp)

/-! ## No workers -/

/-- Without a worker the queue never gets shorter, and where a call waits it is not empty. -/
structure Unmanned (w : World κ) : Prop where
  threadNum : w.pool.threadNum ≤ 0
  queueMaxNum : 1 ≤ w.pool.queueMaxNum
  waits : NoneWaits w ∨ 0 < w.pool.queueCurNum

theorem Unmanned.step (h : Unmanned w) (hs : Sound w q) (he : Enabled w e)
    (hstep : ThreadPool.step calls w e = some w') : Unmanned w' := by
  obtain ⟨-, hkeeps⟩ := hs.step_some he hstep
  have hspec := hs.stepSpec he hstep
  refine ⟨hkeeps.threadNum ▸ h.threadNum, hkeeps.queueMaxNum ▸ h.queueMaxNum, ?_⟩
  have hnum := h.threadNum
  have hkept : NoneWaits w → (∀ i malloc, e ≠ .add i malloc) → NoneWaits w' := fun hnone hadd =>
    hnone.step hspec hadd
  cases hspec with
  | @add i malloc r spec =>
    have hcount := hs.queued.count
    have hmax := h.queueMaxNum
    cases spec with
    | wait full =>
      right
      simp only [World.afterAdding]
      omega
    | refused =>
      refine h.waits.imp_left ?_
      intro hnone j n
      exact forall_ne_update (fun k => hnone k n) (by simp) i j
    | added =>
      right
      simp only [World.afterAdding]
      omega
  | work thread => omega
  | finish thread => omega
  | @destroy d _ spec =>
    refine h.waits.imp (fun hnone => hkept hnone (by simp)) fun hpos => ?_
    cases spec with
    | close => unfold awaitEmpty; split <;> exact hpos
    | await => unfold awaitEmpty; split <;> exact hpos
    | _ => exact hpos

/-! ## A call that is left behind -/

/-- Workers only leave a closed pool, and somebody has to close it. -/
structure Opened (w : World κ) : Prop where
  exited : ∀ k, w.workers k = .exited → w.pool.poolClose = true
  closer : w.pool.queueClose = true → ∃ d, w.destroyers d ≠ .start

theorem opened_init {threadNum queueMaxNum : ℤ} :
    Opened (World.init threadNum queueMaxNum : World κ) where
  exited _ h := absurd h (by simp [World.init])
  closer h := absurd h (by simp [World.init, threadpoolInit])

/-- A call of `threadpool_destroy` that is under way does not start again. -/
theorem destroyers_step (hstep : StepSpec calls w q e w') (h : w.destroyers d ≠ .start) :
    w'.destroyers d ≠ .start := by
  have hset : ∀ {d' : ℕ} {s : Destroyer}, s ≠ .start →
      Function.update w.destroyers d' s d ≠ .start := by
    intro d' s hs
    by_cases hd : d = d'
    · rwa [hd, Function.update_self]
    · rwa [Function.update_of_ne hd]
  cases hstep with
  | add spec => cases spec <;> exact h
  | @work k dd r _ _ spec =>
    cases spec with
    | wait => exact h
    | exit => exact h
    | taken =>
      rcases taken_destroyers w k dd _ _ _ _ _ d with hd | hd
      · rwa [hd]
      · rw [hd]
        cases hw : w.destroyers d <;> simp_all [Destroyer.wake]
  | finish => exact h
  | destroy spec =>
    cases spec with
    | close => unfold awaitEmpty; split <;> exact hset (by simp)
    | await => unfold awaitEmpty; split <;> exact hset (by simp)
    | _ => exact hset (by simp)

theorem exited_step (hstep : StepSpec calls w q e w') {k : ℕ} (h : w'.workers k = .exited) :
    w.workers k = .exited ∨ w.pool.poolClose = true := by
  have hset : ∀ {j : ℕ} {s : Worker}, s ≠ .exited → Function.update w.workers j s k = .exited →
      w.workers k = .exited := by
    intro j s hs hk
    by_cases hj : k = j
    · rw [hj, Function.update_self] at hk
      exact absurd hk hs
    · rwa [Function.update_of_ne hj] at hk
  cases hstep with
  | add spec =>
    cases spec with
    | wait => exact .inl h
    | refused => exact .inl h
    | added =>
      simp only [World.afterAdding] at h
      split at h
      · exact .inl (Worker.wake_eq_exited.mp h)
      · exact .inl h
  | work _ _ spec =>
    cases spec with
    | wait => exact .inl (hset (by simp) h)
    | exit isClosed => exact .inr isClosed
    | taken => exact .inl (hset (by simp) h)
  | finish => exact .inl (hset (by simp) h)
  | destroy spec =>
    cases spec with
    | wakeWorkers => exact .inl (Worker.wake_eq_exited.mp h)
    | close => unfold awaitEmpty at h; split at h <;> exact .inl h
    | await => unfold awaitEmpty at h; split at h <;> exact .inl h
    | _ => exact .inl h

theorem queueClose_of_step (hstep : StepSpec calls w q e w') (h : w'.pool.queueClose = true) :
    w.pool.queueClose = true ∨ ∃ d, w'.destroyers d ≠ .start := by
  cases hstep with
  | add spec => cases spec <;> exact .inl h
  | work _ _ spec => cases spec <;> exact .inl h
  | finish => exact .inl h
  | @destroy d _ spec =>
    cases spec with
    | close =>
      refine .inr ⟨d, ?_⟩
      unfold awaitEmpty
      split <;> simp [World.afterClosing]
    | await => unfold awaitEmpty at h; split at h <;> exact .inl h
    | _ => exact .inl h

theorem Opened.step (h : Opened w) (hs : Sound w q) (he : Enabled w e)
    (hstep : ThreadPool.step calls w e = some w') : Opened w' := by
  obtain ⟨-, hkeeps⟩ := hs.step_some he hstep
  have hspec := hs.stepSpec he hstep
  constructor
  · intro k hk
    exact hkeeps.poolClose ((exited_step hspec hk).elim (h.exited k) id)
  · intro hclose
    rcases queueClose_of_step hspec hclose with hclose | hd
    · obtain ⟨d, hd⟩ := h.closer hclose
      exact ⟨d, destroyers_step hspec hd⟩
    · exact hd

/-- The call `i` of `threadpool_add_job` waits, and only the call `d` of `threadpool_destroy` is
under way. -/
structure Stuck (d i : ℕ) (w : World κ) : Prop where
  sound : ∃ q, Sound w q
  opened : Opened w
  others : ∀ d' ≠ d, w.destroyers d' = .start
  waits : ∃ notified, w.adders i = .waiting notified
  freed : w.freed = false

theorem wake_waiting {a : Adder} (h : ∃ notified, a = .waiting notified) :
    ∃ notified, a.wake = .waiting notified := by
  obtain ⟨notified, rfl⟩ := h
  exact ⟨true, rfl⟩

/-- Whoever waits goes on waiting until he gets the mutex. -/
theorem waits_step (hstep : StepSpec calls w q e w') (hadd : ∀ j malloc, e ≠ .add j malloc)
    (h : ∃ notified, w.adders i = .waiting notified) :
    ∃ notified, w'.adders i = .waiting notified := by
  cases hstep with
  | add => exact absurd rfl (hadd _ _)
  | work _ _ spec =>
    cases spec with
    | wait => exact h
    | exit => exact h
    | taken =>
      simp only [World.afterTaking]
      split
      · exact wake_waiting h
      · exact h
  | finish => exact h
  | destroy spec =>
    cases spec with
    | wakeAdders => exact wake_waiting h
    | close => unfold awaitEmpty; split <;> exact h
    | await => unfold awaitEmpty; split <;> exact h
    | _ => exact h

/-- The other calls of `threadpool_destroy` have not started. -/
theorem others_step (hstep : StepSpec calls w q e w') (hself : ∀ d', e = .destroy d' → d' = d)
    (h : ∀ d' ≠ d, w.destroyers d' = .start) : ∀ d' ≠ d, w'.destroyers d' = .start := by
  intro d' hd'
  cases hstep with
  | add spec => cases spec <;> exact h d' hd'
  | @work k dd r _ _ spec =>
    cases spec with
    | wait => exact h d' hd'
    | exit => exact h d' hd'
    | taken =>
      rcases taken_destroyers w k dd _ _ _ _ _ d' with heq | heq
      · rw [heq, h d' hd']
      · rw [heq, h d' hd']
        rfl
  | finish => exact h d' hd'
  | @destroy d₁ _ spec =>
    obtain rfl := hself d₁ rfl
    have hset : ∀ s, Function.update w.destroyers d₁ s d' = .start := fun s => by
      rw [Function.update_of_ne hd', h d' hd']
    cases spec with
    | close => unfold awaitEmpty; split <;> exact hset _
    | await => unfold awaitEmpty; split <;> exact hset _
    | _ => exact hset _

theorem freed_step (hstep : StepSpec calls w q e w') (hself : ∀ d', e = .destroy d' → d' = d)
    (hgo : ∀ j : ℕ, w.destroyers d = .joining j → (j : ℤ) < w.pool.threadNum)
    (h : w.freed = false) : w'.freed = false := by
  cases hstep with
  | add spec => cases spec <;> exact h
  | work _ _ spec => cases spec <;> exact h
  | finish => exact h
  | @destroy d₁ _ spec =>
    obtain rfl := hself d₁ rfl
    cases spec with
    | close => unfold awaitEmpty; split <;> exact h
    | await => unfold awaitEmpty; split <;> exact h
    | free place last => exact absurd (hgo _ place) (by omega)
    | _ => exact h

/-- A step of a worker, or of the call `d` before it frees the pool. -/
theorem Stuck.step (h : Stuck d i w) (he : Enabled w e) (hadd : ∀ j malloc, e ≠ .add j malloc)
    (hself : ∀ d', e = .destroy d' → d' = d)
    (hgo : ∀ j : ℕ, w.destroyers d = .joining j → (j : ℤ) < w.pool.threadNum) (calls : ℕ → κ) :
    ∃ w' q, ThreadPool.step calls w e = some w' ∧ Sound w q ∧ StepSpec calls w q e w' ∧
      Keeps w w' ∧ Stuck d i w' := by
  obtain ⟨q, hs⟩ := h.sound
  obtain ⟨w', q', hstep, hs', hkeeps⟩ := hs.step calls he h.freed
  have hspec := hs.stepSpec he hstep
  exact ⟨w', q, hstep, hs, hspec, hkeeps, ⟨q', hs'⟩, h.opened.step hs he hstep,
    others_step hspec hself h.others, waits_step hspec hadd h.waits,
    freed_step hspec hself hgo h.freed⟩

/-- The next step of the call `d`. -/
theorem Stuck.destroy (h : Stuck d i w) (he : Enabled w (.destroy d))
    (hgo : ∀ j : ℕ, w.destroyers d = .joining j → (j : ℤ) < w.pool.threadNum)
    (hstep : stepDestroy w d = some w') (calls : ℕ → κ) :
    Runs calls w w' ∧ Stuck d i w' ∧ Keeps w w' := by
  obtain ⟨w₁, -, hw₁, -, -, hkeeps, h₁⟩ := h.step he (by simp)
    (fun d' hd' => (Event.destroy.inj hd').symm) hgo calls
  have heq := hw₁
  simp only [ThreadPool.step, h.freed, Bool.false_eq_true, if_false, hstep] at heq
  obtain rfl := Option.some.inj heq
  exact ⟨Runs.refl.step he hw₁, h₁, hkeeps⟩

/-- Whom a signal on `queue_empty` wakes. -/
theorem Stuck.signal (h : Stuck d i w) : ∃ dd : Option ℕ, match dd with
    | some d' => w.destroyers d' = .waiting false
    | none => ∀ d', w.destroyers d' ≠ .waiting false := by
  by_cases hd : w.destroyers d = .waiting false
  · exact ⟨some d, hd⟩
  · refine ⟨none, ?_⟩
    intro d' hd'
    by_cases hne : d' = d
    · exact hd (hne ▸ hd')
    · rw [h.others d' hne] at hd'
      exact absurd hd' (by simp)

/-- A worker that has not left comes back for the mutex. -/
theorem Stuck.ready (h : Stuck d i w) {k : ℕ} (hk : (k : ℤ) < w.pool.threadNum)
    (hexited : w.workers k ≠ .exited)
    (hgo : ∀ j : ℕ, w.destroyers d = .joining j → (j : ℤ) < w.pool.threadNum) (calls : ℕ → κ) :
    ∃ w', Runs calls w w' ∧ Stuck d i w' ∧
      (w'.workers k = .idle ∨ ∃ notified, w'.workers k = .waiting notified) ∧
      ∃ mem, w'.pool = { w.pool with mem } ∧ w'.destroyers = w.destroyers := by
  cases hw : w.workers k with
  | idle => exact ⟨w, .refl, h, .inl hw, w.pool.mem, rfl, rfl⟩
  | waiting notified => exact ⟨w, .refl, h, .inr ⟨notified, hw⟩, w.pool.mem, rfl, rfl⟩
  | running pjob =>
    have he : Enabled w (.finish k) := ⟨hk, pjob, hw⟩
    obtain ⟨w', q, hstep, -, hspec, -, h'⟩ := h.step he (by simp) (by simp) hgo calls
    cases hspec with
    | finish => exact ⟨_, Runs.refl.step he hstep, h', .inl (Function.update_self ..), _, rfl, rfl⟩
  | exited => exact absurd hw hexited

/-- A worker gets the mutex. -/
theorem Stuck.work (h : Stuck d i w) {k : ℕ} (hk : (k : ℤ) < w.pool.threadNum)
    (hexited : w.workers k ≠ .exited)
    (hgo : ∀ j : ℕ, w.destroyers d = .joining j → (j : ℤ) < w.pool.threadNum) (calls : ℕ → κ) :
    ∃ w₁ mem dd q r, Runs calls w (w₁.afterTaking k dd r) ∧
      Stuck d i (w₁.afterTaking k dd r) ∧ Sound w₁ q ∧ TakeSpec w₁.pool q r ∧
      w₁.pool = { w.pool with mem } ∧ w₁.destroyers = w.destroyers := by
  obtain ⟨w₁, hruns, h₁, hplace, mem, hpool, hd⟩ := h.ready hk hexited hgo calls
  obtain ⟨dd, hdd⟩ := h₁.signal
  have he : Enabled w₁ (.work k dd) := ⟨by rwa [hpool], hplace, hdd⟩
  have hgo₁ : ∀ j : ℕ, w₁.destroyers d = .joining j → (j : ℤ) < w₁.pool.threadNum := by
    rwa [hpool, hd]
  obtain ⟨w', q, hstep, hs, hspec, -, h'⟩ := h₁.step he (by simp) (by simp) hgo₁ calls
  cases hspec with
  | @work _ _ r _ _ spec =>
    exact ⟨w₁, mem, dd, q, r, hruns.step he hstep, h', hs, spec, hpool, hd⟩

/-- The workers empty the queue while `threadpool_destroy` waits for it. -/
theorem Stuck.drain (h : Stuck d i w) (hd : (w.destroyers d).Waits) (hnum : 0 < w.pool.threadNum)
    (hopen : w.pool.poolClose = false) {n : ℕ} (hn : w.pool.queueCurNum = n) (calls : ℕ → κ) :
    ∃ w', Runs calls w w' ∧ Stuck d i w' ∧ (w'.destroyers d).Waits ∧ w'.pool.queueCurNum = 0 := by
  induction n generalizing w with
  | zero => exact ⟨w, .refl, h, hd, hn⟩
  | succ n ih =>
    have hexited : w.workers 0 ≠ .exited := fun hw => by
      rw [h.opened.exited 0 hw] at hopen
      exact absurd hopen (by simp)
    have hgo : ∀ j : ℕ, w.destroyers d = .joining j → (j : ℤ) < w.pool.threadNum := fun j hj => by
      rw [hj] at hd
      exact absurd hd id
    obtain ⟨w₁, mem, dd, q, r, hruns, h', hs, hspec, hpool, hd₁⟩ := h.work hnum hexited hgo calls
    have hcount := hs.queued.count
    have hcur : w₁.pool.queueCurNum = w.pool.queueCurNum := by rw [hpool]
    cases hspec with
    | wait empty =>
      rw [empty, List.length_nil] at hcount
      omega
    | exit isClosed =>
      rw [hpool, hopen] at isClosed
      exact absurd isClosed (by simp)
    | @taken pjob call rest head tail front isOpen queued =>
      have hwaits : ((w₁.afterTaking 0 dd (.taken pjob call rest.isEmpty
          (w₁.pool.queueCurNum - 1 = w₁.pool.queueMaxNum - 1)
          { w₁.pool with queueCurNum := w₁.pool.queueCurNum - 1, head, tail })).destroyers d).Waits
          := by
        rcases taken_destroyers w₁ 0 dd pjob call rest.isEmpty _ _ d with heq | heq
        · rwa [heq, hd₁]
        · rwa [heq, Destroyer.wake_waits, hd₁]
      have hnum' : 0 < w₁.pool.threadNum := by rwa [hpool]
      obtain ⟨w', hruns', hstuck, hres⟩ := ih h' hwaits hnum' isOpen (by
        simp only [World.afterTaking]
        omega)
      exact ⟨w', hruns.trans hruns', hstuck, hres⟩

/-- The workers leave the closed pool one after the other. -/
theorem Stuck.join {j m : ℕ} (h : Stuck d i w) (hd : w.destroyers d = .joining j)
    (hclose : w.pool.poolClose = true) (hm : w.pool.threadNum ≤ j + m) (calls : ℕ → κ) :
    ∃ w', Runs calls w w' ∧ Stuck d i w' ∧ (w'.destroyers d).Joined w'.pool := by
  induction m generalizing w j with
  | zero =>
    have hjoined : w.pool.threadNum ≤ (j : ℤ) := by simpa using hm
    exact ⟨w, .refl, h, by rw [hd]; exact hjoined⟩
  | succ m ih =>
    by_cases hj : w.pool.threadNum ≤ j
    · exact ⟨w, .refl, h, by rw [hd]; exact hj⟩
    · have hlt : (j : ℤ) < w.pool.threadNum := Int.not_le.mp hj
      have hgo : ∀ l : ℕ, w.destroyers d = .joining l → (l : ℤ) < w.pool.threadNum := fun l hl => by
        rw [hd] at hl
        rwa [← Destroyer.joining.inj hl]
      -- the worker `j` leaves, if it has not left before
      obtain ⟨w₁, mem, hruns, h₁, hexited, hpool, hd₁⟩ : ∃ w₁ mem, Runs calls w w₁ ∧ Stuck d i w₁ ∧
          w₁.workers j = .exited ∧ w₁.pool = { w.pool with mem } ∧
          w₁.destroyers = w.destroyers := by
        by_cases hexited : w.workers j = .exited
        · exact ⟨w, w.pool.mem, .refl, h, hexited, rfl, rfl⟩
        · obtain ⟨w₁, mem, dd, q, r, hruns, h', -, hspec, hpool, hd₁⟩ :=
            h.work hlt hexited hgo calls
          cases hspec with
          | wait _ isOpen =>
            rw [hpool, hclose] at isOpen
            exact absurd isOpen (by simp)
          | exit =>
            exact ⟨_, mem, hruns, h', Function.update_self .., hpool, hd₁⟩
          | taken _ isOpen =>
            rw [hpool, hclose] at isOpen
            exact absurd isOpen (by simp)
      have hplace : w₁.destroyers d = .joining j := by rw [hd₁, hd]
      have he : Enabled w₁ (.destroy d) := by
        simp only [Enabled, hplace]
        exact fun _ => hexited
      have hgo₁ : ∀ l : ℕ, w₁.destroyers d = .joining l → (l : ℤ) < w₁.pool.threadNum := by
        rwa [hpool, hd₁]
      have hstep : stepDestroy w₁ d = some { w₁ with
          destroyers := Function.update w₁.destroyers d (.joining (j + 1)) } := by
        simp only [stepDestroy, hplace, if_pos (hgo₁ j hplace)]
      obtain ⟨hruns₂, h₂, hkeeps⟩ := h₁.destroy he hgo₁ hstep calls
      have hm₂ : w₁.pool.threadNum ≤ ((j + 1 : ℕ) : ℤ) + m := by
        rw [hpool]
        push_cast at hm ⊢
        omega
      obtain ⟨w', hruns', hres⟩ := ih h₂ (Function.update_self ..)
        (hkeeps.poolClose (by rw [hpool]; exact hclose)) hm₂
      exact ⟨w', (hruns.trans hruns₂).trans hruns', hres⟩

/-- From the broadcast on `queue_not_full` to the end. -/
theorem Stuck.joinAll (h : Stuck d i w) (hd : w.destroyers d = .notEmptySent) (calls : ℕ → κ) :
    ∃ w', Runs calls w w' ∧ Stuck d i w' ∧ (w'.destroyers d).Joined w'.pool := by
  obtain ⟨q, hs⟩ := h.sound
  have hclose : w.pool.poolClose = true := by
    have hsafe := hs.destroyers d
    rwa [hd] at hsafe
  have he : Enabled w (.destroy d) := by simp only [Enabled, hd]
  have hstep : stepDestroy w d = some { w with
      adders := fun i => (w.adders i).wake
      destroyers := Function.update w.destroyers d (.joining 0) } := by
    simp only [stepDestroy, hd]
  obtain ⟨hruns, h₁, -⟩ := h.destroy he (by simp [hd]) hstep calls
  have hm : w.pool.threadNum ≤ ((0 : ℕ) : ℤ) + w.pool.threadNum.toNat := by omega
  obtain ⟨w', hruns', hres⟩ := h₁.join (Function.update_self ..) hclose hm calls
  exact ⟨w', hruns.trans hruns', hres⟩

/-- `threadpool_destroy` goes on to the end once the queue is empty. -/
theorem Stuck.finish (h : Stuck d i w) (hd : w.destroyers d = .closed) (calls : ℕ → κ) :
    ∃ w', Runs calls w w' ∧ Stuck d i w' ∧ (w'.destroyers d).Joined w'.pool := by
  have he : Enabled w (.destroy d) := by simp only [Enabled, hd]
  have hstep : stepDestroy w d = some { w with
      workers := fun k => (w.workers k).wake
      destroyers := Function.update w.destroyers d .notEmptySent } := by
    simp only [stepDestroy, hd]
  obtain ⟨hruns, h₁, -⟩ := h.destroy he (by simp [hd]) hstep calls
  obtain ⟨w', hruns', hres⟩ := h₁.joinAll (Function.update_self ..) calls
  exact ⟨w', hruns.trans hruns', hres⟩

/-- A call of `threadpool_destroy` that waits for the queue to be empty comes to the end as well, if
there is a worker. -/
theorem Stuck.awaited (h : Stuck d i w) (hd : (w.destroyers d).Waits) (hnum : 0 < w.pool.threadNum)
    (hopen : w.pool.poolClose = false) (calls : ℕ → κ) :
    ∃ w', Runs calls w w' ∧ Stuck d i w' ∧ (w'.destroyers d).Joined w'.pool := by
  obtain ⟨q, hs⟩ := h.sound
  obtain ⟨w₁, hruns, h₁, hd₁, hzero⟩ := h.drain hd hnum hopen hs.queued.count calls
  obtain ⟨notified, hplace⟩ : ∃ notified, w₁.destroyers d = .waiting notified := by
    cases hw : w₁.destroyers d with
    | waiting notified => exact ⟨notified, rfl⟩
    | _ => rw [hw] at hd₁; exact absurd hd₁ id
  have he : Enabled w₁ (.destroy d) := by simp only [Enabled, hplace]
  have hstep : stepDestroy w₁ d =
      some (w₁.afterClosing d (.closed { w₁.pool with poolClose := true })) := by
    simp only [stepDestroy, hplace, awaitEmpty, hzero, ne_eq, not_true_eq_false, if_false]
  obtain ⟨hruns₁, h₂, -⟩ := h₁.destroy he (by simp [hplace]) hstep calls
  obtain ⟨w', hruns', hres⟩ := h₂.finish (Function.update_self ..) calls
  exact ⟨w', (hruns.trans hruns₁).trans hruns', hres⟩

/-! ## When the pool is freed -/

/-- A call that waits when `threadpool_destroy` starts may be left behind. -/
theorem exists_left_behind (h : Stuck d i w) (hd : w.destroyers d = .start)
    (hnum : 0 < w.pool.threadNum) (hstep : step calls w (.destroy d) = some w₁) :
    ∃ w', Runs calls w₁ w' ∧ Stuck d i w' ∧ (w'.destroyers d).Joined w'.pool := by
  have hopen : ¬(w.pool.queueClose = true ∨ w.pool.poolClose = true) := by
    obtain ⟨q, hs⟩ := h.sound
    have hqueue : w.pool.queueClose ≠ true := fun hclose => by
      obtain ⟨d', hd'⟩ := h.opened.closer hclose
      by_cases hne : d' = d
      · exact hd' (hne ▸ hd)
      · exact hd' (h.others d' hne)
    exact fun hor => hqueue (hor.elim id fun hc => (hs.closed hc).1)
  have he : Enabled w (.destroy d) := by simp only [Enabled, hd]
  have hdestroy : stepDestroy w d = some w₁ := by
    simpa only [step, h.freed, Bool.false_eq_true, if_false] using hstep
  obtain ⟨-, h₁, -⟩ := h.destroy he (by simp [hd]) hdestroy calls
  simp only [stepDestroy, hd, threadpoolDestroy, if_neg hopen, awaitEmpty] at hdestroy
  split at hdestroy
  · obtain rfl := Option.some.inj hdestroy
    refine h₁.awaited ?_ hnum (Bool.eq_false_iff.mpr fun hc => hopen (.inr hc)) calls
    simp only [World.afterClosing, Function.update_self]
    trivial
  · obtain rfl := Option.some.inj hdestroy
    exact h₁.finish (Function.update_self ..) calls

/-- From where `threadpool_destroy` is called, with no other call of it: when it frees the pool, no
call of `threadpool_add_job` is ever left, if and only if none waits now, or there is no worker to
make the end of `threadpool_destroy` possible. -/
theorem tornDownAlone_iff {threadNum queueMaxNum : ℤ} (hmax : 1 ≤ queueMaxNum)
    (hruns : Runs calls (World.init threadNum queueMaxNum) w)
    (hd : ∀ d, w.destroyers d = .start) (hstep : step calls w (.destroy d) = some w₁) :
    (∀ w', Runs calls w₁ w' → (∀ d' ≠ d, w'.destroyers d' = .start) → TornDownAlone w') ↔
      (0 < threadNum → NoneWaits w) := by
  obtain ⟨⟨q, hs⟩, hkeeps⟩ := (sound_init hmax).runs hruns
  have he : Enabled w (.destroy d) := by simp only [Enabled, hd d]
  have hnum : w.pool.threadNum = threadNum := hkeeps.threadNum
  constructor
  · intro halone hpos i notified hwait
    have hopened : Opened w := (sound_init hmax).runs_keep opened_init
      (fun hs h he hstep => h.step hs he hstep) hruns
    have hfreed : w.freed = false := by
      cases hw : w.freed with
      | false => rfl
      | true => simp [step, hw] at hstep
    have hstuck : Stuck d i w := ⟨⟨q, hs⟩, hopened, fun d' _ => hd d', ⟨notified, hwait⟩, hfreed⟩
    obtain ⟨w', hruns', hstuck', hjoined⟩ :=
      exists_left_behind hstuck (hd d) (by rwa [hnum]) hstep
    obtain ⟨n, hn⟩ := hstuck'.waits
    exact halone w' hruns' hstuck'.others d hjoined i n hn
  · intro hnone w' hruns' _ d' hjoined
    obtain ⟨⟨q₁, hs₁⟩, -⟩ := hs.step_some he hstep
    by_cases hpos : 0 < threadNum
    · have hsealed : Sealed w₁ := by
        cases hs.stepSpec he hstep with
        | destroy spec => exact sealed_destroy (hnone hpos) hs (hd d) spec
      exact (hs₁.runs_keep hsealed (fun hs h he hstep => h.step (hs.stepSpec he hstep))
        hruns').noneWaits
    · have hinit : Unmanned (World.init threadNum queueMaxNum : World κ) :=
        ⟨Int.not_lt.mp hpos, hmax, .inl fun i n => by simp [World.init]⟩
      have hall := (hruns.step he hstep).trans hruns'
      obtain ⟨⟨q', hs'⟩, -⟩ := (sound_init hmax).runs hall
      have hunmanned : Unmanned w' := (sound_init hmax).runs_keep hinit
        (fun hs h he hstep => h.step hs he hstep) hall
      have hzero := hs'.queued.count_eq_zero.mpr (hs'.closed (hs'.joined_safe hjoined).1).2
      exact hunmanned.waits.resolve_right (by omega)

/-- When nobody waits, the pool is freed alone. -/
theorem tornDownAlone_iff_idle : ∃ w₁ : World ℕ,
    step (fun _ => 7) (World.init 1 1) (.destroy 0) = some w₁ ∧
    ∀ w', Runs (fun _ => 7) w₁ w' → (∀ d' ≠ 0, w'.destroyers d' = .start) → TornDownAlone w' :=
  ⟨_, rfl, (tornDownAlone_iff (le_refl 1) .refl (fun _ => rfl) rfl).mpr fun _ _ _ hi => nomatch hi⟩

/-- With one worker and room for one job, the second of two calls is left behind: it has been woken
but has not had the mutex when the pool is freed. -/
theorem tornDown_under_producer : ∃ w w₁ w' : World ℕ, Runs (fun _ => 7) (World.init 1 1) w ∧
    (∀ d, w.destroyers d = .start) ∧ step (fun _ => 7) w (.destroy 0) = some w₁ ∧
    Runs (fun _ => 7) w₁ w' ∧ (∀ d' ≠ 0, w'.destroyers d' = .start) ∧ ¬ TornDownAlone w' := by
  have hadd : Runs (fun _ => 7) (World.init 1 1) _ := Runs.step (e := .add 0 true)
    .refl (.inl rfl) rfl
  have hwait := hadd.step (e := .add 1 true) (.inl rfl) rfl
  have hleave : ∀ w : World ℕ, w.destroyers 0 = .start ∨ w.destroyers 0 = .joining 0 →
      (∀ d, d ≠ 0 → w.destroyers d = .start) → ∀ d, w.destroyers d ≠ .waiting false := by
    intro w hzero hothers d hd
    cases d with
    | zero => rcases hzero with h | h <;> exact nomatch h.symm.trans hd
    | succ d => exact nomatch (hothers _ (Nat.succ_ne_zero d)).symm.trans hd
  refine ⟨_, _, _, hwait, fun _ => rfl, rfl,
    .head (e := .work 0 (some 0)) ⟨Int.one_pos, .inl rfl, rfl⟩ rfl <|
    .head (e := .destroy 0) trivial rfl <|
    .head (e := .destroy 0) trivial rfl <|
    .head (e := .destroy 0) trivial rfl <|
    .head (e := .finish 0) ⟨Int.one_pos, 0, rfl⟩ rfl <|
    .head (e := .work 0 none) ⟨Int.one_pos, .inl rfl, hleave _ (.inr rfl) ?_⟩ rfl <|
    .head (e := .destroy 0) (fun _ => rfl) rfl .refl, ?_, ?_⟩
  · intro d hd
    cases d with
    | zero => exact absurd rfl hd
    | succ d => rfl
  · intro d hd
    cases d with
    | zero => exact absurd rfl hd
    | succ d => rfl
  · exact fun hall => hall 0 (le_refl 1) 1 true rfl

end ThreadPool
end CModel
