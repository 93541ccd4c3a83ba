import CModel.SemaphorePool.Pool

/-!
# How long the queue of requests gets

`append` refuses a request where `m_workqueue.size() > m_max_requests`, so that it still takes one
when the queue holds `m_max_requests`.

* `FindsFull`: a call of `append` gets the mutex while that many requests are queued.
* `Bounded`: what the bound is for, in one step.
* `push_cases`: what a call of `append` comes to.
* `length_le_succ`: the queue never holds more than one request too many.
* `bounded_iff_not_findsFull`: **up to the first call that finds the queue full the bound holds, and
  this call breaks it.**
-/

namespace CModel
namespace SemaphorePool

variable {ρ : Type} {w w' w₀ : World ρ} {e : Event ρ} {i : ℕ} {threadNumber maxRequests : ℤ}

/-! ## The bound -/

/-- A call of `append` gets the mutex while `m_max_requests` requests are queued. -/
def FindsFull (w : World ρ) : Event ρ → Prop
  | .push _ => (w.pool.workqueue.length : ℤ) = w.pool.maxRequests
  | _ => False

/-- The call `i` of `append` returns `false`. -/
def World.Refused (w : World ρ) (i : ℕ) : Prop := w.appenders[i]? = some (.returned false)

/-- No more than `m_max_requests` requests are queued behind the step, and a call of `append` is
refused exactly where it finds that many, and leaves the queue and the semaphore alone then. -/
structure Bounded (w : World ρ) (e : Event ρ) (w' : World ρ) : Prop where
  length_le : (w'.pool.workqueue.length : ℤ) ≤ w'.pool.maxRequests
  refused_iff : ∀ i, e = .push i →
    (w'.Refused i ↔ (w.pool.workqueue.length : ℤ) = w.pool.maxRequests)
  refused : ∀ i, e = .push i → w'.Refused i → w'.pool = w.pool

/-! ## Steps -/

/-- What a call of `append` comes to, from where it has the mutex. -/
inductive PushSpec (w : World ρ) (i : ℕ) (w' : World ρ) : Prop where
  | refused (long : w.pool.maxRequests < w.pool.workqueue.length) (returns : w'.Refused i)
      (pool : w'.pool = w.pool)
  | taken {request : Option ρ} (short : (w.pool.workqueue.length : ℤ) ≤ w.pool.maxRequests)
      (goes : ¬ w'.Refused i)
      (pool : w'.pool = { w.pool with workqueue := w.pool.workqueue ++ [request] })

theorem push_cases (he : Enabled w (.push i)) (hstep : step w (.push i) = some w') :
    PushSpec w i w' := by
  obtain ⟨request, hi⟩ := he
  have hlt : i < w.appenders.length := (List.getElem?_eq_some_iff.mp hi).1
  simp only [step, hi, Pool.append] at hstep
  by_cases hlong : (w.pool.workqueue.length : ℤ) > w.pool.maxRequests
  · rw [if_pos hlong] at hstep
    obtain rfl := Option.some.inj hstep
    exact .refused hlong (List.getElem?_set_self hlt) rfl
  · rw [if_neg hlong] at hstep
    obtain rfl := Option.some.inj hstep
    refine .taken (Int.not_lt.mp hlong) ?_ rfl
    intro hrefused
    rw [World.Refused, List.getElem?_set_self hlt] at hrefused
    exact absurd hrefused (by simp)

/-- Only `append` makes the queue longer, and nothing changes the bound. -/
theorem pool_step (hstep : step w e = some w') (hpush : ∀ i, e ≠ .push i) :
    w'.pool.workqueue.length ≤ w.pool.workqueue.length ∧
      w'.pool.maxRequests = w.pool.maxRequests := by
  cases e with
  | push i => exact absurd rfl (hpush i)
  | pop k =>
    simp only [step, Pool.take] at hstep
    cases hqueue : w.pool.workqueue with
    | nil =>
      rw [hqueue] at hstep
      obtain rfl := Option.some.inj hstep
      exact ⟨Nat.le_of_eq (congrArg List.length hqueue), rfl⟩
    | cons request rest =>
      rw [hqueue] at hstep
      obtain rfl := Option.some.inj hstep
      exact ⟨Nat.le_succ _, rfl⟩
  | call request | post i | check k | wait k | finish k =>
    obtain rfl := Option.some.inj hstep
    exact ⟨Nat.le_refl _, rfl⟩

theorem maxRequests_step (he : Enabled w e) (hstep : step w e = some w') :
    w'.pool.maxRequests = w.pool.maxRequests := by
  by_cases hpush : ∃ i, e = .push i
  · obtain ⟨i, rfl⟩ := hpush
    cases push_cases he hstep with
    | refused _ _ pool => rw [pool]
    | taken _ _ pool => rw [pool]
  · exact (pool_step hstep fun i hi => hpush ⟨i, hi⟩).2

/-- The queue never holds more than one request too many. -/
theorem length_le_succ_step (h : (w.pool.workqueue.length : ℤ) ≤ w.pool.maxRequests + 1)
    (he : Enabled w e) (hstep : step w e = some w') :
    (w'.pool.workqueue.length : ℤ) ≤ w'.pool.maxRequests + 1 := by
  have hmax := maxRequests_step he hstep
  by_cases hpush : ∃ i, e = .push i
  · obtain ⟨i, rfl⟩ := hpush
    cases push_cases he hstep with
    | refused _ _ pool => rwa [pool]
    | taken short _ pool =>
      rw [hmax, pool, List.length_append, List.length_singleton]
      push_cast
      omega
  · have hle := (pool_step hstep fun i hi => hpush ⟨i, hi⟩).1
    omega

/-- **One step keeps the bound exactly if it is not a call that finds the queue full.** -/
theorem bounded_step (h : (w.pool.workqueue.length : ℤ) ≤ w.pool.maxRequests) (he : Enabled w e)
    (hstep : step w e = some w') : Bounded w e w' ↔ ¬ FindsFull w e := by
  have hmax := maxRequests_step he hstep
  by_cases hpush : ∃ i, e = .push i
  · obtain ⟨i, rfl⟩ := hpush
    cases push_cases he hstep with
    | refused long => exact absurd h (Int.not_le.mpr long)
    | taken _ goes pool =>
      have hlen : w'.pool.workqueue.length = w.pool.workqueue.length + 1 := by
        rw [pool, List.length_append, List.length_singleton]
      constructor
      · intro hbounded hfull
        exact goes ((hbounded.refused_iff i rfl).mpr hfull)
      · intro hfull
        have hne : (w.pool.workqueue.length : ℤ) ≠ w.pool.maxRequests := hfull
        refine ⟨by omega, ?_, ?_⟩
        · intro j hj
          obtain rfl := Event.push.inj hj
          exact iff_of_false goes hne
        · intro j hj hrefused
          obtain rfl := Event.push.inj hj
          exact absurd hrefused goes
  · have hnot : ∀ i, e ≠ .push i := fun i hi => hpush ⟨i, hi⟩
    have hle := (pool_step hstep hnot).1
    refine iff_of_true ⟨by omega, fun i hi => absurd hi (hnot i), fun i hi => absurd hi (hnot i)⟩ ?_
    cases e with
    | push i => exact absurd rfl (hnot i)
    | call request | post i | check k | wait k | pop k | finish k => exact id

/-! ## Runs -/

theorem length_init (hinit : construct threadNumber maxRequests = some w₀) :
    0 < maxRequests ∧ w₀.pool.workqueue = [] ∧ w₀.pool.maxRequests = maxRequests := by
  unfold construct at hinit
  split at hinit
  · exact absurd hinit (by simp)
  · next hpos =>
    obtain rfl := Option.some.inj hinit
    exact ⟨by omega, rfl, rfl⟩

/-- In any run the queue holds at most one request too many. -/
theorem length_le_succ (hinit : construct threadNumber maxRequests = some w₀)
    (hruns : (pool ρ).Runs w₀ w) : (w.pool.workqueue.length : ℤ) ≤ w.pool.maxRequests + 1 := by
  obtain ⟨hpos, hqueue, hmax⟩ := length_init hinit
  refine hruns.keep (P := fun t => (t.pool.workqueue.length : ℤ) ≤ t.pool.maxRequests + 1) ?_
    fun h he hstep => length_le_succ_step h he hstep
  rw [hqueue, hmax, List.length_nil]
  omega

/-- In a pool that has been constructed, as long as no call of `append` gets the mutex while
`m_max_requests` requests are queued: no more than that many are ever queued, and the next step
keeps to the bound, and refuses a request exactly where the queue is full, if and only if it is not
such a call. -/
theorem bounded_iff_not_findsFull (hinit : construct threadNumber maxRequests = some w₀)
    (hruns : ((pool ρ).only fun w e => ¬ FindsFull w e).Runs w₀ w) :
    (w.pool.workqueue.length : ℤ) ≤ maxRequests ∧
      ∀ e w', Enabled w e → step w e = some w' → (Bounded w e w' ↔ ¬ FindsFull w e) := by
  obtain ⟨hpos, hqueue, hmax⟩ := length_init hinit
  obtain ⟨hle, hkept⟩ : (w.pool.workqueue.length : ℤ) ≤ w.pool.maxRequests ∧
      w.pool.maxRequests = maxRequests := by
    refine hruns.keep (P := fun t => (t.pool.workqueue.length : ℤ) ≤ t.pool.maxRequests ∧
      t.pool.maxRequests = maxRequests) ⟨?_, hmax⟩ ?_
    · rw [hqueue, hmax, List.length_nil]
      omega
    · rintro t t' e ⟨ht, htmax⟩ ⟨he, hfull⟩ hstep
      exact ⟨((bounded_step ht he hstep).mpr hfull).length_le,
        (maxRequests_step he hstep).trans htmax⟩
  exact ⟨hkept ▸ hle, fun e w' he hstep => bounded_step hle he hstep⟩

/-- A first request for a pool of one. -/
theorem bounded_iff_not_findsFull_one : ∃ w₀ w : World ℕ, construct 1 1 = some w₀ ∧
    ((pool ℕ).only fun w e => ¬ FindsFull w e).Runs w₀ w ∧ w.pool.workqueue = [some 7] ∧
    (w.pool.workqueue.length : ℤ) ≤ 1 := by
  have hruns : ((pool ℕ).only fun w e => ¬ FindsFull w e).Runs
      ⟨⟨1, [], 0, false⟩, [], [.idle], [], [], 0⟩ _ :=
    .head (e := .call (some 7)) ⟨trivial, id⟩ rfl <|
    .head (e := .push 0) ⟨⟨some 7, rfl⟩, show ¬ ((0 : ℤ) = 1) by decide⟩ rfl .refl
  exact ⟨_, _, rfl, hruns, rfl,
    (bounded_iff_not_findsFull (show construct 1 1 = _ from rfl) hruns).1⟩

/-- Two requests in the queue of a pool for one, without a step of its thread. -/
theorem two_of_one : ∃ w₀ w : World ℕ, construct 1 1 = some w₀ ∧ (pool ℕ).Runs w₀ w ∧
    w.pool.workqueue = [some 7, some 8] ∧ ¬ (w.pool.workqueue.length : ℤ) ≤ 1 := by
  have hruns : (pool ℕ).Runs ⟨⟨1, [], 0, false⟩, [], [.idle], [], [], 0⟩ _ :=
    .head (e := .call (some 7)) trivial rfl <|
    .head (e := .push 0) ⟨some 7, rfl⟩ rfl <|
    .head (e := .call (some 8)) trivial rfl <|
    .head (e := .push 1) ⟨some 8, rfl⟩ rfl .refl
  exact ⟨_, _, rfl, hruns, rfl, show ¬ ((2 : ℤ) ≤ 1) by decide⟩

end SemaphorePool
end CModel
