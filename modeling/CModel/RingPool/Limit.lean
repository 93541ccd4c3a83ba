import CModel.RingPool.Fifo

/-!
# How many tasks the ring takes

`threadpool_add_task` drops a task where `task_num > max_task_num - 2`, that is from
`max_task_num - 1` pending tasks on, while the header promises to keep `max_task_num`.

* `KeepsPromise`: what the header promises of a call.
* `Spare`: fewer than `max_task_num - 1` tasks are pending.
* `refused_iff`, `InRing.pending_lt`: when a task is dropped, and how many are ever pending.
* `keepsPromise_iff_spare`: **a call of `threadpool_add_task` does what the header promises if and
  only if there is one slot more than it needs.**
-/

namespace CModel
namespace RingPool

variable {φ κ : Type} {maxTaskNum threadNum : ℤ} {w w' : World φ κ} {thiz : Pool φ κ}
  {queueMemory funMemory : Bool} {e : Event φ κ}

/-- What the header promises of a call of `threadpool_add_task`: the task is dropped exactly where
`max_task_num` tasks are pending, and is not written over a pending one. -/
structure KeepsPromise (maxTaskNum : ℤ) (w : World φ κ) (taskFun : φ) (arg : κ) : Prop where
  refused_iff : (∃ thiz, threadpoolAddTask w.thiz taskFun arg = some (-1, thiz)) ↔
    (w.pending.length : ℤ) = maxTaskNum
  pending_ne : ∀ thiz, threadpoolAddTask w.thiz taskFun arg = some (0, thiz) →
    ∀ t ∈ w.pending, t.slot ≠ w.thiz.end_

/-- Fewer than `max_task_num - 1` tasks are pending. -/
def Spare (maxTaskNum : ℤ) (w : World φ κ) : Prop := (w.pending.length : ℤ) < maxTaskNum - 1

/-- A task is only added where its successor would still be taken. -/
def AddsSparing (maxTaskNum : ℤ) (w : World φ κ) : Event φ κ → Prop
  | .add .. => (w.pending.length : ℤ) < maxTaskNum - 2
  | _ => True

/-! ## The limit -/

/-- The count is that of the pending tasks. -/
theorem InRing.pending_length (h : InRing w) : (w.pending.length : ℤ) = w.thiz.currTaskNum := by
  have hle := h.length_le
  have hcount := h.count
  rw [World.pending, List.length_drop]
  omega

/-- There are never `max_task_num` pending tasks. -/
theorem InRing.pending_lt (h : InRing w) : (w.pending.length : ℤ) < w.thiz.maxTaskNum := by
  rw [h.pending_length]
  exact h.room

theorem refused_iff (thiz : Pool φ κ) (taskFun : φ) (arg : κ) :
    (∃ r, threadpoolAddTask thiz taskFun arg = some (-1, r)) ↔
      thiz.maxTaskNum - 2 < thiz.currTaskNum := by
  constructor
  · rintro ⟨r, hadd⟩
    cases addSpec hadd with
    | refused full => exact full
  · intro hfull
    exact ⟨thiz, if_pos hfull⟩

/-- **In the ring the promise is kept exactly with a slot to spare.** -/
theorem InRing.keepsPromise_iff (h : InRing w) (taskFun : φ) (arg : κ) :
    KeepsPromise w.thiz.maxTaskNum w taskFun arg ↔ Spare w.thiz.maxTaskNum w := by
  have hlen := h.pending_length
  have hlt := h.pending_lt
  have hrefused := refused_iff w.thiz taskFun arg
  unfold Spare
  constructor
  · intro hkeeps
    have hiff := hrefused.symm.trans hkeeps.refused_iff
    by_contra hfull
    have heq := hiff.mp (by omega)
    omega
  · intro hspare
    refine ⟨hrefused.trans (iff_of_false (by omega) (by omega)), fun thiz hadd t ht => ?_⟩
    cases addSpec hadd with
    | added room => exact h.pending_ne room ht

/-! ## Runs -/

/-- A step leaves a slot to spare, unless it adds the task that takes it. -/
theorem InRing.spare_step (h : InRing w) (hspare : Spare w.thiz.maxTaskNum w)
    (hadds : AddsSparing w.thiz.maxTaskNum w e) (hstep : StepSpec w e w') :
    Spare w'.thiz.maxTaskNum w' := by
  have hlen := h.pending_length
  have hlen' := (h.step hstep).pending_length
  rw [maxTaskNum_step hstep]
  unfold Spare at hspare ⊢
  cases hstep with
  | add spec =>
    have hroom : (w.pending.length : ℤ) < w.thiz.maxTaskNum - 2 := hadds
    cases spec with
    | refused => exact hspare
    | added =>
      have hnow : ((w.afterAdding _ _ _ _).pending.length : ℤ) = w.thiz.currTaskNum + 1 := hlen'
      omega
  | work spec =>
    cases spec with
    | wait => exact hspare
    | taken =>
      have hnow : ((w.afterTaking _ _).pending.length : ℤ) = w.thiz.currTaskNum - 1 := hlen'
      omega
  | idle => exact hspare

/-- After any calls and any steps of the threads, a call of `threadpool_add_task` drops its task
exactly where `max_task_num` tasks are pending, and writes over none of them, if and only if fewer
than `max_task_num - 1` are pending; so it does in every state of a run in which a task is only
added where fewer than `max_task_num - 2` are pending. -/
theorem keepsPromise_iff_spare (hmax : 1 ≤ maxTaskNum)
    (hcreate : threadpoolCreate threadNum maxTaskNum queueMemory funMemory = .ok (some thiz))
    (taskFun : φ) (arg : κ) :
    (∀ w, (pool φ κ).Runs (World.init thiz) w →
      (KeepsPromise maxTaskNum w taskFun arg ↔ Spare maxTaskNum w)) ∧
    (1 < maxTaskNum → ∀ w, ((pool φ κ).only (AddsSparing maxTaskNum)).Runs (World.init thiz) w →
      KeepsPromise maxTaskNum w taskFun arg) := by
  have hiff : ∀ w, (pool φ κ).Runs (World.init thiz) w →
      (KeepsPromise maxTaskNum w taskFun arg ↔ Spare maxTaskNum w) := by
    intro w hruns
    obtain ⟨h, rfl⟩ := runs_inRing hmax hcreate hruns
    exact h.keepsPromise_iff taskFun arg
  refine ⟨hiff, fun hone w hruns => (hiff w hruns.of_only).mpr ?_⟩
  obtain ⟨-, hspare⟩ : (InRing w ∧ w.thiz.maxTaskNum = maxTaskNum) ∧ Spare maxTaskNum w := by
    refine hruns.keep (P := fun v => (InRing v ∧ v.thiz.maxTaskNum = maxTaskNum) ∧
      Spare maxTaskNum v) ⟨runs_inRing hmax hcreate .refl, ?_⟩ ?_
    · show ((0 : ℕ) : ℤ) < maxTaskNum - 1
      omega
    · rintro t t' e ⟨⟨ht, rfl⟩, hspare⟩ ⟨he, hadds⟩ hstep
      have hspec := ht.stepSpec hstep
      have hkept := maxTaskNum_step hspec
      exact ⟨⟨ht.step hspec, hkept⟩, hkept ▸ ht.spare_step hspare hadds hspec⟩
  exact hspare

/-- A pool for two tasks, with nothing in it. -/
theorem keepsPromise_iff_spare_two : ∃ thiz : Pool ℕ ℕ,
    threadpoolCreate 1 2 true true = .ok (some thiz) ∧
    (KeepsPromise 2 (World.init thiz) 5 6 ↔ Spare 2 (World.init thiz)) ∧
    KeepsPromise 2 (World.init thiz) 5 6 := by
  have hcreate : threadpoolCreate (φ := ℕ) (κ := ℕ) 1 2 true true = .ok (some _) := rfl
  have hboth := keepsPromise_iff_spare (show (1 : ℤ) ≤ 2 by decide) hcreate 5 6
  exact ⟨_, hcreate, hboth.1 _ .refl, hboth.2 (by decide) _ .refl⟩

/-- A pool for one task drops the first one. -/
theorem one_drops_all : ∃ thiz : Pool ℕ ℕ, threadpoolCreate 1 1 true true = .ok (some thiz) ∧
    threadpoolAddTask thiz 5 6 = some (-1, thiz) ∧
    ¬ KeepsPromise 1 (World.init thiz) 5 6 := by
  refine ⟨_, rfl, rfl, ?_⟩
  intro hkeeps
  exact absurd (hkeeps.refused_iff.mp ⟨_, rfl⟩) (show ¬ ((0 : ℤ) = 1) by decide)

end RingPool
end CModel
