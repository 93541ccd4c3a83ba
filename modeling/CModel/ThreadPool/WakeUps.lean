import CModel.ThreadPool.Steps

/-!
# No wake-up is lost

`queue_not_empty` is broadcast where the queue gets its first job and `queue_not_full` where it gets
its first free place.  `queue_empty` is signalled where it loses its last job, to one thread only.

* `NoLostWakeUp`: nobody who waits for what is there has not been woken.
* `Awake`: that, and no two calls of `threadpool_destroy` wait, so that one signal is enough.
* `Awake.adding`, `Awake.taking`, `Awake.destroy`: what each critical section keeps.
* `noLostWakeUp`: **in every state where the mutex is free.**
-/

namespace CModel
namespace ThreadPool

variable {κ : Type} {w w' : World κ} {q : List (ℕ × κ)} {pool : Pool κ}

/-- Whoever waits for something that is there has been woken. -/
structure NoLostWakeUp (w : World κ) : Prop where
  /-- on `queue_not_empty` -/
  workers : 0 < w.pool.queueCurNum → ∀ k, w.workers k ≠ .waiting false
  /-- on `queue_not_full` -/
  adders : w.pool.queueCurNum < w.pool.queueMaxNum → ∀ i, w.adders i ≠ .waiting false
  /-- on `queue_empty` -/
  destroyers : w.pool.queueCurNum = 0 → ∀ d, w.destroyers d ≠ .waiting false

/-- On `queue_empty`, woken or not. -/
def Destroyer.Waits : Destroyer → Prop
  | .waiting _ => True
  | _ => False

/-- Only the call of `threadpool_destroy` that has set `queue_close` waits. -/
structure Awake (w : World κ) : Prop extends NoLostWakeUp w where
  alone : ∀ d d', (w.destroyers d).Waits → (w.destroyers d').Waits → d = d'

theorem awake_init {threadNum queueMaxNum : ℤ} :
    Awake (World.init threadNum queueMaxNum : World κ) where
  workers h := absurd h (lt_irrefl _)
  adders _ _ := by simp [World.init]
  destroyers _ _ := by simp [World.init]
  alone _ _ h := absurd h id

/-! ## Threads that are woken -/

theorem Adder.wake_ne (a : Adder) : a.wake ≠ .waiting false := by
  cases a <;> simp [Adder.wake]

theorem Worker.wake_ne (k : Worker) : k.wake ≠ .waiting false := by
  cases k <;> simp [Worker.wake]

theorem Destroyer.wake_ne (d : Destroyer) : d.wake ≠ .waiting false := by
  cases d <;> simp [Destroyer.wake]

@[simp] theorem Destroyer.wake_waits {d : Destroyer} : d.wake.Waits ↔ d.Waits := by
  cases d <;> exact Iff.rfl

/-- One thread comes to be in another place. -/
theorem forall_ne_update {β : Type} {f : ℕ → β} {b x : β} (h : ∀ j, f j ≠ x) (hb : b ≠ x) (i : ℕ) :
    ∀ j, Function.update f i b j ≠ x :=
  (Function.forall_update_iff f fun _ s => s ≠ x).mpr ⟨hb, fun j _ => h j⟩

/-- A call that does not wait is not the one that does. -/
theorem waits_update {f : ℕ → Destroyer} {d d' : ℕ} {s : Destroyer} (hs : ¬ s.Waits)
    (h : (Function.update f d s d').Waits) : (f d').Waits := by
  by_cases hd : d' = d
  · rw [hd, Function.update_self] at h
    exact absurd h hs
  · rwa [Function.update_of_ne hd] at h

/-! ## Critical sections -/

/-- A section of `threadpool_add_job`. -/
theorem Awake.adding (h : Awake w) (hq : Queued w.pool q) (i : ℕ) {call : κ} {malloc : Bool}
    {r : Adding κ} (hr : AddSpec w.pool q call malloc r) : Awake (w.afterAdding i call r) := by
  have hcount := hq.count
  cases hr with
  | wait full isOpen =>
    exact ⟨⟨h.workers, fun hlt => absurd full (ne_of_lt hlt), h.destroyers⟩, h.alone⟩
  | refused isClosed =>
    have hadders : w.pool.queueCurNum < w.pool.queueMaxNum →
        ∀ j, Function.update w.adders i (.returned (-1)) j ≠ .waiting false :=
      fun hlt => forall_ne_update (h.adders hlt) (by simp) i
    exact ⟨⟨h.workers, hadders, h.destroyers⟩, h.alone⟩
  | added room isOpen next cells queued =>
    refine ⟨⟨?_, ?_, ?_⟩, h.alone⟩
    · intro _
      cases q with
      | nil => exact fun k => Worker.wake_ne _
      | cons a q =>
        rw [List.length_cons] at hcount
        exact h.workers (by omega)
    · intro hlt
      simp only [World.afterAdding] at hlt
      exact forall_ne_update (h.adders (by omega)) (by simp) i
    · intro hzero
      simp only [World.afterAdding] at hzero
      omega

/-- A section of `threadpool_function`.  A signal on `queue_empty` finds the one who waits. -/
theorem Awake.taking (h : Awake w) (hq : Queued w.pool q)
    (room : w.pool.queueCurNum ≤ w.pool.queueMaxNum) (k : ℕ) {d : Option ℕ}
    (hd : match d with
      | some d => w.destroyers d = .waiting false
      | none => ∀ d, w.destroyers d ≠ .waiting false)
    {r : Taking κ} (hr : TakeSpec w.pool q r) : Awake (w.afterTaking k d r) := by
  cases hr with
  | wait empty isOpen =>
    have hzero := hq.count_eq_zero.mpr empty
    exact ⟨⟨fun hpos => absurd hzero (ne_of_gt hpos), h.adders, h.destroyers⟩, h.alone⟩
  | exit isClosed =>
    have hworkers : 0 < w.pool.queueCurNum →
        ∀ j, Function.update w.workers k .exited j ≠ .waiting false :=
      fun hpos => forall_ne_update (h.workers hpos) (by simp) k
    exact ⟨⟨hworkers, h.adders, h.destroyers⟩, h.alone⟩
  | @taken pjob call rest head tail front isOpen queued =>
    have hrest : w.pool.queueCurNum - 1 = rest.length := queued.count
    refine ⟨⟨?_, ?_, ?_⟩, ?_⟩
    · intro hpos
      simp only [World.afterTaking] at hpos
      exact forall_ne_update (h.workers (by omega)) (by simp) k
    · intro hlt
      simp only [World.afterTaking] at hlt ⊢
      by_cases hfull : w.pool.queueCurNum - 1 = w.pool.queueMaxNum - 1
      · simp only [hfull, decide_true, if_true]
        exact fun i => Adder.wake_ne _
      · simp only [hfull, decide_false, Bool.false_eq_true, if_false]
        exact h.adders (by omega)
    · intro hzero
      simp only [World.afterTaking] at hzero ⊢
      obtain rfl : rest = [] := List.length_eq_zero_iff.mp (by omega)
      cases d with
      | none => exact hd
      | some d =>
        intro d'
        by_cases hd' : d' = d
        · rw [hd', List.isEmpty_nil]
          simp only [Function.update_self]
          exact Destroyer.wake_ne _
        · simp only [List.isEmpty_nil, Function.update_of_ne hd']
          intro hwait
          exact hd' (h.alone d' d (by rw [hwait]; trivial) (by rw [hd]; trivial))
    · intro d₁ d₂ h₁ h₂
      have hwaits : ∀ d', ((w.afterTaking k d (.taken pjob call rest.isEmpty
          (w.pool.queueCurNum - 1 = w.pool.queueMaxNum - 1)
          { w.pool with queueCurNum := w.pool.queueCurNum - 1, head, tail })).destroyers d').Waits →
          (w.destroyers d').Waits := by
        intro d' hw
        rcases taken_destroyers w k d pjob call rest.isEmpty _ _ d' with heq | heq
        · rwa [heq] at hw
        · rwa [heq, Destroyer.wake_waits] at hw
      exact h.alone d₁ d₂ (hwaits d₁ h₁) (hwaits d₂ h₂)

/-- `threadpool_destroy` waits for the queue to be empty; no other call does. -/
theorem Awake.awaiting (h : Awake w) {d : ℕ} (hd : ∀ d', (w.destroyers d').Waits → d' = d)
    (hcur : pool.queueCurNum = w.pool.queueCurNum)
    (hmax : pool.queueMaxNum = w.pool.queueMaxNum) :
    Awake (w.afterClosing d (awaitEmpty pool)) := by
  unfold awaitEmpty
  split
  · next hne =>
    refine ⟨⟨hcur ▸ h.workers, hcur ▸ hmax ▸ h.adders, fun hzero => absurd hzero hne⟩, ?_⟩
    have honly : ∀ d', (Function.update w.destroyers d (.waiting false) d').Waits → d' = d := by
      intro d' hw
      by_contra hne'
      rw [Function.update_of_ne hne'] at hw
      exact hne' (hd d' hw)
    exact fun d₁ d₂ h₁ h₂ => (honly d₁ h₁).trans (honly d₂ h₂).symm
  · refine ⟨⟨hcur ▸ h.workers, hcur ▸ hmax ▸ h.adders, ?_⟩, ?_⟩
    · intro hzero
      exact forall_ne_update (h.destroyers (hcur ▸ hzero)) (by simp) d
    · intro d₁ d₂ h₁ h₂
      exact h.alone d₁ d₂ (waits_update (s := .closed) id h₁) (waits_update (s := .closed) id h₂)

/-- A call of `threadpool_destroy` that neither waits nor comes to wait. -/
theorem Awake.setDestroyer (h : Awake w) (d : ℕ) {s : Destroyer} (hs : ¬ s.Waits) :
    Awake { w with destroyers := Function.update w.destroyers d s } := by
  have hne : s ≠ .waiting false := by
    rintro rfl
    exact hs trivial
  exact ⟨⟨h.workers, h.adders, fun hzero => forall_ne_update (h.destroyers hzero) hne d⟩,
    fun d₁ d₂ h₁ h₂ => h.alone d₁ d₂ (waits_update hs h₁) (waits_update hs h₂)⟩

theorem Awake.wakeWorkers (h : Awake w) :
    Awake { w with workers := fun k => (w.workers k).wake } :=
  ⟨⟨fun _ _ => Worker.wake_ne _, h.adders, h.destroyers⟩, h.alone⟩

theorem Awake.wakeAdders (h : Awake w) :
    Awake { w with adders := fun i => (w.adders i).wake } :=
  ⟨⟨h.workers, fun _ _ => Adder.wake_ne _, h.destroyers⟩, h.alone⟩

/-- The next step of a call of `threadpool_destroy`. -/
theorem Awake.destroy (h : Awake w) (hs : Sound w q) {d : ℕ} (hstep : DestroySpec w d w') :
    Awake w' := by
  cases hstep with
  | refused => exact h.setDestroyer d id
  | close _ isOpen =>
    refine h.awaiting ?_ rfl rfl
    intro d' hw
    -- whoever waits has set `queue_close`
    have hsafe := hs.destroyers d'
    cases hd' : w.destroyers d' with
    | waiting notified =>
      rw [hd'] at hsafe
      exact absurd (.inl hsafe) isOpen
    | _ => rw [hd'] at hw; exact absurd hw id
  | await place => exact h.awaiting (fun d' hw => h.alone d' d hw (by rw [place]; trivial)) rfl rfl
  | wakeWorkers => exact h.wakeWorkers.setDestroyer d id
  | wakeAdders => exact h.wakeAdders.setDestroyer d id
  | join => exact h.setDestroyer d id
  | free =>
    have hset := h.setDestroyer d (s := .returned 0) id
    exact ⟨⟨hset.workers, hset.adders, hset.destroyers⟩, hset.alone⟩

/-! ## Runs -/

theorem Awake.step (h : Awake w) (hs : Sound w q) {calls : ℕ → κ} {e : Event}
    (hstep : StepSpec calls w q e w') : Awake w' := by
  cases hstep with
  | add spec => exact h.adding hs.queued _ spec
  | @work k d r _ signal spec => exact h.taking hs.queued hs.room k signal spec
  | @finish k =>
    exact ⟨⟨fun hpos => forall_ne_update (h.workers hpos) (by simp) k, h.adders, h.destroyers⟩,
      h.alone⟩
  | destroy spec => exact h.destroy hs spec

/-- Nobody sleeps through what he waits for, for any number of threads and every order of their
critical sections. -/
theorem noLostWakeUp {calls : ℕ → κ} {threadNum queueMaxNum : ℤ} (hmax : 1 ≤ queueMaxNum)
    (hruns : Runs calls (World.init threadNum queueMaxNum) w) : NoLostWakeUp w := by
  have hawake : Awake w := (sound_init hmax).runs_keep awake_init
    (fun hs h he hstep => h.step hs (hs.stepSpec he hstep)) hruns
  exact hawake.toNoLostWakeUp

/-- A worker that waits is woken by the first job. -/
theorem noLostWakeUp_first : ∃ w : World ℕ, w.pool.queueCurNum = 1 ∧ w.workers 0 = .waiting true ∧
    NoLostWakeUp w := by
  have hwait : Runs (fun _ => 7) (World.init 1 1) _ := Runs.step (e := .work 0 none) .refl
    ⟨Int.one_pos, .inl rfl, fun d hd => nomatch hd⟩ rfl
  have hadd := hwait.step (e := .add 0 true) (.inl rfl) rfl
  exact ⟨_, rfl, rfl, noLostWakeUp (le_refl 1) hadd⟩

end ThreadPool
end CModel
