import CModel.ThreadPool.Delivery

/-!
# What a step can do

* `DestroySpec`, `StepSpec`: everything that a step of `threadpool_destroy`, and an event, can come
  to in a pool that is in order.
* `Sound.destroySpec`, `Sound.stepSpec`: there is nothing else.
* `Sound.runs_keep`: what every step keeps holds after a run.
-/

namespace CModel
namespace ThreadPool

variable {κ : Type}

/-- What a step of a call of `threadpool_destroy` comes to. -/
inductive DestroySpec (w : World κ) (d : ℕ) : World κ → Prop where
  | refused (place : w.destroyers d = .start)
      (isClosed : w.pool.queueClose = true ∨ w.pool.poolClose = true) :
      DestroySpec w d (w.afterClosing d .refused)
  | close (place : w.destroyers d = .start)
      (isOpen : ¬(w.pool.queueClose = true ∨ w.pool.poolClose = true)) :
      DestroySpec w d (w.afterClosing d (awaitEmpty { w.pool with queueClose := true }))
  | await {notified : Bool} (place : w.destroyers d = .waiting notified) :
      DestroySpec w d (w.afterClosing d (awaitEmpty w.pool))
  | wakeWorkers (place : w.destroyers d = .closed) :
      DestroySpec w d { w with
        workers := fun k => (w.workers k).wake
        destroyers := Function.update w.destroyers d .notEmptySent }
  | wakeAdders (place : w.destroyers d = .notEmptySent) :
      DestroySpec w d { w with
        adders := fun i => (w.adders i).wake
        destroyers := Function.update w.destroyers d (.joining 0) }
  | join {i : ℕ} (place : w.destroyers d = .joining i) (more : (i : ℤ) < w.pool.threadNum) :
      DestroySpec w d { w with destroyers := Function.update w.destroyers d (.joining (i + 1)) }
  | free {i : ℕ} (place : w.destroyers d = .joining i) (last : w.pool.threadNum ≤ i) :
      DestroySpec w d { w with
        freed := true, destroyers := Function.update w.destroyers d (.returned 0) }

/-- What an event comes to; `q` is the queue. -/
inductive StepSpec (calls : ℕ → κ) (w : World κ) (q : List (ℕ × κ)) : Event → World κ → Prop where
  | add {i : ℕ} {malloc : Bool} {r : Adding κ} (spec : AddSpec w.pool q (calls i) malloc r) :
      StepSpec calls w q (.add i malloc) (w.afterAdding i (calls i) r)
  | work {k : ℕ} {d : Option ℕ} {r : Taking κ} (thread : (k : ℤ) < w.pool.threadNum)
      (signal : match d with
        | some d => w.destroyers d = .waiting false
        | none => ∀ d, w.destroyers d ≠ .waiting false)
      (spec : TakeSpec w.pool q r) :
      StepSpec calls w q (.work k d) (w.afterTaking k d r)
  | finish {k pjob : ℕ} {mem : Store (Job κ)} {completed : List (ℕ × κ)}
      (thread : (k : ℤ) < w.pool.threadNum) (place : w.workers k = .running pjob) :
      StepSpec calls w q (.finish k) { w with
        pool := { w.pool with mem }, workers := Function.update w.workers k .idle, completed }
  | destroy {d : ℕ} {w' : World κ} (step : DestroySpec w d w') :
      StepSpec calls w q (.destroy d) w'

variable {w w' : World κ} {q : List (ℕ × κ)} {calls : ℕ → κ} {d : ℕ} {e : Event}

theorem Sound.destroySpec (h : Sound w q) (he : Enabled w (.destroy d))
    (hstep : stepDestroy w d = some w') : DestroySpec w d w' := by
  unfold stepDestroy at hstep
  cases hd : w.destroyers d with
  | start =>
    rw [hd] at hstep
    obtain rfl := Option.some.inj hstep
    unfold threadpoolDestroy
    split
    · next hclosed => exact .refused hd hclosed
    · next hopen => exact .close hd hopen
  | waiting notified =>
    rw [hd] at hstep
    obtain rfl := Option.some.inj hstep
    exact .await hd
  | closed =>
    rw [hd] at hstep
    obtain rfl := Option.some.inj hstep
    exact .wakeWorkers hd
  | notEmptySent =>
    rw [hd] at hstep
    obtain rfl := Option.some.inj hstep
    exact .wakeAdders hd
  | joining i =>
    rw [hd] at hstep
    simp only at hstep
    split at hstep
    · next hi =>
      obtain rfl := Option.some.inj hstep
      exact .join hd hi
    · next hi =>
      have hsafe := h.destroyers d
      rw [hd] at hsafe
      rw [h.freeJobs hsafe.1, Option.bind_eq_bind, Option.bind_some] at hstep
      obtain rfl := Option.some.inj hstep
      exact .free hd (Int.not_lt.mp hi)
  | returned code =>
    simp only [Enabled, hd] at he

theorem Sound.stepSpec (h : Sound w q) (he : Enabled w e)
    (hstep : ThreadPool.step calls w e = some w') :
    StepSpec calls w q e w' := by
  cases e with
  | add i malloc =>
    obtain ⟨r, hr, hspec⟩ := threadpoolAddJob_spec h.queued (calls i) malloc
    simp only [ThreadPool.step] at hstep
    split at hstep
    · exact absurd hstep (by simp)
    · rw [hr, Option.bind_eq_bind, Option.bind_some] at hstep
      obtain rfl := Option.some.inj hstep
      exact .add hspec
  | work k d =>
    obtain ⟨hk, -, hd⟩ := he
    obtain ⟨r, hr, hspec⟩ := threadpoolFunction_spec h.queued
    simp only [ThreadPool.step] at hstep
    split at hstep
    · exact absurd hstep (by simp)
    · rw [hr, Option.bind_eq_bind, Option.bind_some] at hstep
      obtain rfl := Option.some.inj hstep
      exact .work hk hd hspec
  | finish k =>
    obtain ⟨hlt, pjob, hk⟩ := he
    simp only [ThreadPool.step, hk, Option.bind_eq_bind, Option.bind_eq_some_iff] at hstep
    obtain ⟨job, -, mem, -, hw'⟩ := hstep
    obtain rfl := Option.some.inj hw'
    exact .finish hlt hk
  | destroy d =>
    simp only [ThreadPool.step] at hstep
    split at hstep
    · exact absurd hstep (by simp)
    · exact .destroy (h.destroySpec he hstep)

/-- What every step keeps, in a pool that is in order, holds after a run. -/
theorem Sound.runs_keep {P : World κ → Prop} (h : Sound w q) (hP : P w)
    (hstep : ∀ {v v' : World κ} {q : List (ℕ × κ)} {e : Event}, Sound v q → P v → Enabled v e →
      ThreadPool.step calls v e = some v' → P v')
    (hruns : Runs calls w w') : P w' := by
  have hboth : (∃ q, Sound w' q) ∧ P w' := by
    induction hruns with
    | refl => exact ⟨⟨q, h⟩, hP⟩
    | step _ he hs ih =>
      obtain ⟨⟨q', h'⟩, hP'⟩ := ih
      exact ⟨(h'.step_some he hs).1, hstep h' hP' he hs⟩
  exact hboth.2

end ThreadPool
end CModel
