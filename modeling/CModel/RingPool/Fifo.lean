import CModel.RingPool.Pool

/-!
# The ring is a queue

Both cursors go from slot 0 to slot 1 and then round and round through the slots from 1 on, without
slot 0; a pool takes so few tasks that the one never comes round to the other.

* `noFold_advance`: among `max_task_num` slots in a row there are no two equal ones.
* `InRing`: where the two cursors are, and what is in the slots between them.
* `InRing.add`, `InRing.work`: each critical section keeps it.
* `ring_fifo`: **tasks are taken in the order they have been added in, each once and as it has been
  added, and a slot with a task in it is never written.**
-/

namespace CModel
namespace RingPool

variable {φ κ : Type} {maxTaskNum : ℤ} {w w' : World φ κ} {thiz : Pool φ κ} {e : Event φ κ}

/-! ## The slots that a cursor goes through -/

theorem advance_iterate {c : ℤ} (hle : c ≤ maxTaskNum) (d : ℕ) (hd : d ≤ maxTaskNum) :
    (advance maxTaskNum)^[d] c =
      if c + d ≤ maxTaskNum then c + d else c + d - maxTaskNum := by
  induction d with
  | zero => simp [hle]
  | succ d ih =>
    push_cast at hd
    rw [Function.iterate_succ_apply', ih (by omega), advance]
    push_cast
    split_ifs <;> omega

/-- After the first step a cursor never comes back to slot 0. -/
theorem advance_iterate_pos (hmax : 1 ≤ maxTaskNum) (k : ℕ) :
    1 ≤ (advance maxTaskNum)^[k + 1] 0 ∧ (advance maxTaskNum)^[k + 1] 0 ≤ maxTaskNum := by
  induction k with
  | zero =>
    simp only [Nat.zero_add, Function.iterate_one, advance]
    split_ifs <;> omega
  | succ k ih =>
    rw [Function.iterate_succ_apply', advance]
    split_ifs <;> omega

theorem advance_iterate_mem (hmax : 1 ≤ maxTaskNum) (k : ℕ) :
    0 ≤ (advance maxTaskNum)^[k] 0 ∧ (advance maxTaskNum)^[k] 0 ≤ maxTaskNum := by
  cases k with
  | zero => exact ⟨le_refl 0, by simpa using Int.le_of_lt hmax⟩
  | succ k =>
    have hk := advance_iterate_pos hmax k
    omega

/-- Among `max_task_num` slots in a row there are no two equal ones. -/
theorem noFold_advance (hmax : 1 ≤ maxTaskNum) :
    NoFold (advance maxTaskNum) 0 maxTaskNum.toNat := by
  intro i j hij hj heq
  cases i with
  | zero =>
    obtain ⟨j, rfl⟩ := Nat.exists_eq_add_of_lt hij
    have hpos := (advance_iterate_pos hmax j).1
    rw [Nat.zero_add] at heq
    rw [← heq, Function.iterate_zero, id] at hpos
    omega
  | succ i =>
    obtain ⟨d, rfl⟩ := Nat.exists_eq_add_of_lt hij
    have hi := advance_iterate_pos hmax i
    have hj' : (advance maxTaskNum)^[i + 1 + d + 1] 0 =
        (advance maxTaskNum)^[d + 1] ((advance maxTaskNum)^[i + 1] 0) := by
      rw [← Function.iterate_add_apply, Nat.add_comm (d + 1), ← Nat.add_assoc]
    rw [hj', advance_iterate hi.2 (d + 1) (by omega)] at heq
    push_cast at heq
    split_ifs at heq <;> omega

/-! ## The invariant -/

/-- Where the cursors are, and what is between them. -/
structure InRing (w : World φ κ) : Prop where
  positive : 1 ≤ w.thiz.maxTaskNum
  startAt : w.thiz.start = (advance w.thiz.maxTaskNum)^[w.dequeued.length] 0
  endAt : w.thiz.end_ = (advance w.thiz.maxTaskNum)^[w.accepted.length] 0
  order : w.dequeued <+: w.accepted
  count : w.thiz.currTaskNum = w.accepted.length - w.dequeued.length
  room : w.thiz.currTaskNum < w.thiz.maxTaskNum
  slots : ∀ k t, w.accepted[k]? = some t → t.slot = (advance w.thiz.maxTaskNum)^[k] 0
  args : RingHolds (advance w.thiz.maxTaskNum) 0 w.thiz.taskQueue.read
    (w.accepted.map Task.arg) w.dequeued.length
  funs : RingHolds (advance w.thiz.maxTaskNum) 0 w.thiz.taskFun.read
    (w.accepted.map Task.taskFun) w.dequeued.length

theorem create_eq {threadNum : ℤ} {queueMemory funMemory : Bool}
    (hcreate : threadpoolCreate threadNum maxTaskNum queueMemory funMemory = .ok (some thiz)) :
    thiz =
      { threadNum := if threadNum < minThreadNum then minThreadNum else threadNum
        taskQueue := Slots.malloc (maxTaskNum + 1).toNat queueMemory
        currTaskNum := 0
        taskFun := Slots.malloc (maxTaskNum + 1).toNat funMemory
        start := 0
        end_ := 0
        maxTaskNum } := by
  unfold threadpoolCreate at hcreate
  split at hcreate
  · exact absurd hcreate (by simp)
  · split at hcreate
    · exact absurd hcreate (by simp)
    · exact (Option.some.inj (Outcome.ok.inj hcreate)).symm

theorem inRing_init {threadNum : ℤ} {queueMemory funMemory : Bool} (hmax : 1 ≤ maxTaskNum)
    (hcreate : threadpoolCreate threadNum maxTaskNum queueMemory funMemory = .ok (some thiz)) :
    InRing (World.init thiz) := by
  obtain rfl := create_eq hcreate
  exact {
    positive := hmax
    startAt := rfl
    endAt := rfl
    order := List.prefix_rfl
    count := rfl
    room := Int.lt_of_lt_of_le Int.zero_lt_one hmax
    slots := fun k t ht => by simp [World.init] at ht
    args := .nil
    funs := .nil }

theorem InRing.length_le (h : InRing w) : w.dequeued.length ≤ w.accepted.length :=
  h.order.length_le

/-- The task at the front of the queue, if there is one. -/
theorem InRing.front (h : InRing w) (hpos : 0 < w.thiz.currTaskNum) :
    ∃ t, w.accepted[w.dequeued.length]? = some t ∧ t.slot = w.thiz.start ∧
      w.thiz.taskQueue.read w.thiz.start = some t.arg ∧
      w.thiz.taskFun.read w.thiz.start = some t.taskFun := by
  have hlt : w.dequeued.length < w.accepted.length := by
    have hcount := h.count
    omega
  obtain ⟨t, ht⟩ : ∃ t, w.accepted[w.dequeued.length]? = some t :=
    ⟨_, List.getElem?_eq_getElem hlt⟩
  refine ⟨t, ht, ?_, ?_, ?_⟩
  · rw [h.startAt, h.slots _ t ht]
  · rw [h.startAt]
    exact h.args _ (Nat.le_refl _) _ (by rw [List.getElem?_map, ht, Option.map_some])
  · rw [h.startAt]
    exact h.funs _ (Nat.le_refl _) _ (by rw [List.getElem?_map, ht, Option.map_some])

/-! ## The critical sections -/

/-- What a section of `threadpool_add_task` comes to. -/
inductive AddSpec (thiz : Pool φ κ) (taskFun : φ) (arg : κ) : ℤ × Pool φ κ → Prop where
  | refused (full : thiz.maxTaskNum - 2 < thiz.currTaskNum) : AddSpec thiz taskFun arg (-1, thiz)
  | added {queue : Slots κ} {funs : Slots φ} (room : thiz.currTaskNum ≤ thiz.maxTaskNum - 2)
      (args : thiz.taskQueue.write thiz.end_ arg = some queue)
      (written : thiz.taskFun.write thiz.end_ taskFun = some funs) :
      AddSpec thiz taskFun arg (0, { thiz with
        currTaskNum := thiz.currTaskNum + 1
        taskQueue := queue
        taskFun := funs
        end_ := advance thiz.maxTaskNum thiz.end_ })

theorem addSpec {taskFun : φ} {arg : κ} {r : ℤ × Pool φ κ}
    (h : threadpoolAddTask thiz taskFun arg = some r) : AddSpec thiz taskFun arg r := by
  unfold threadpoolAddTask at h
  simp only at h
  split at h
  · next hfull =>
    obtain rfl := Option.some.inj h
    exact .refused hfull
  · next hroom =>
    simp only [Option.bind_eq_bind, Option.bind_eq_some_iff] at h
    obtain ⟨queue, hqueue, funs, hfuns, hr⟩ := h
    obtain rfl := Option.some.inj hr
    exact .added (Int.not_lt.mp hroom) hqueue hfuns

/-- The slot that is written is behind all the slots with a task that has not been taken. -/
theorem InRing.pending_ne (h : InRing w) (hroom : w.thiz.currTaskNum ≤ w.thiz.maxTaskNum - 2)
    {t : Task φ κ} (ht : t ∈ w.pending) : t.slot ≠ w.thiz.end_ := by
  obtain ⟨k, hk⟩ := List.mem_iff_getElem?.mp ht
  rw [World.pending, List.getElem?_drop] at hk
  have hlt := (List.getElem?_eq_some_iff.mp hk).1
  have hcount := h.count
  rw [h.slots _ t hk, h.endAt]
  exact noFold_advance h.positive _ _ hlt (by omega)

theorem InRing.added (h : InRing w) {taskFun : φ} {arg : κ} {k : Option ℕ} {r : ℤ × Pool φ κ}
    (hspec : AddSpec w.thiz taskFun arg r) : InRing (w.afterAdding taskFun arg k r) := by
  cases hspec with
  | refused => exact h
  | @added queue funs room args written =>
    have hcount := h.count
    have hfold := noFold_advance h.positive
    have hfree : w.accepted.length < w.dequeued.length + w.thiz.maxTaskNum.toNat := by omega
    exact {
      positive := h.positive
      startAt := h.startAt
      endAt := by
        simp only [World.afterAdding, if_true, List.length_append, List.length_singleton]
        rw [Function.iterate_succ_apply', ← h.endAt]
      order := h.order.trans (List.prefix_append ..)
      count := by
        simp only [World.afterAdding, if_true, List.length_append, List.length_singleton]
        omega
      room := by
        simp only [World.afterAdding, if_true]
        omega
      slots := by
        intro k t ht
        simp only [World.afterAdding, if_true] at ht ⊢
        rcases Nat.lt_or_ge k w.accepted.length with hlt | hge
        · rw [List.getElem?_append_left hlt] at ht
          exact h.slots k t ht
        · obtain ⟨hlt, rfl⟩ := List.getElem?_eq_some_iff.mp ht
          obtain rfl : k = w.accepted.length := by
            rw [List.length_append, List.length_singleton] at hlt
            omega
          rw [List.getElem_concat_length rfl]
          exact h.endAt
      args := by
        simp only [World.afterAdding, if_true, List.map_append, List.map_singleton]
        refine h.args.write hfold (by rwa [List.length_map]) ?_ ?_
        · rw [Slots.read_write args, List.length_map, if_pos h.endAt.symm]
        · intro c hc
          rw [List.length_map, ← h.endAt] at hc
          rw [Slots.read_write args, if_neg hc]
      funs := by
        simp only [World.afterAdding, if_true, List.map_append, List.map_singleton]
        refine h.funs.write hfold (by rwa [List.length_map]) ?_ ?_
        · rw [Slots.read_write written, List.length_map, if_pos h.endAt.symm]
        · intro c hc
          rw [List.length_map, ← h.endAt] at hc
          rw [Slots.read_write written, if_neg hc] }

/-- What a section of `threadpool_excute_task` comes to. -/
inductive TakeSpec (w : World φ κ) : Taking φ κ → Prop where
  | wait (empty : w.thiz.currTaskNum ≤ 0) : TakeSpec w .wait
  | taken {t : Task φ κ} (pos : 0 < w.thiz.currTaskNum)
      (front : w.accepted[w.dequeued.length]? = some t) (slot : t.slot = w.thiz.start) :
      TakeSpec w (.taken t.taskFun t.arg { w.thiz with
        start := advance w.thiz.maxTaskNum w.thiz.start
        currTaskNum := w.thiz.currTaskNum - 1 })

/-- It never reads what has not been written. -/
theorem InRing.takeSpec (h : InRing w) :
    ∃ r, threadpoolExcuteTask w.thiz = some r ∧ TakeSpec w r := by
  unfold threadpoolExcuteTask
  by_cases hpos : w.thiz.currTaskNum > 0
  · obtain ⟨t, ht, hslot, hargs, hfuns⟩ := h.front hpos
    rw [if_pos hpos, hargs, hfuns]
    exact ⟨_, rfl, .taken hpos ht hslot⟩
  · rw [if_neg hpos]
    exact ⟨_, rfl, .wait (Int.not_lt.mp hpos)⟩

theorem InRing.taken (h : InRing w) {k : ℕ} {r : Taking φ κ} (hspec : TakeSpec w r) :
    InRing (w.afterTaking k r) := by
  cases hspec with
  | wait => exact { h with }
  | @taken t hpos front slot =>
    have hcount := h.count
    have hroom := h.room
    exact {
      positive := h.positive
      startAt := by
        simp only [World.afterTaking, List.length_append, List.length_singleton]
        rw [Function.iterate_succ_apply', ← h.startAt]
      endAt := h.endAt
      order := by
        obtain ⟨hlt, heq⟩ := List.getElem?_eq_some_iff.mp front
        simp only [World.afterTaking, ← slot]
        have htake := List.prefix_iff_eq_take.mp h.order
        refine List.prefix_iff_eq_take.mpr ?_
        rw [List.length_append, List.length_singleton, List.take_add_one, front, ← htake]
        rfl
      count := by
        simp only [World.afterTaking, List.length_append, List.length_singleton]
        omega
      room := by
        simp only [World.afterTaking]
        omega
      slots := h.slots
      args := by
        simp only [World.afterTaking, List.length_append, List.length_singleton]
        exact h.args.take
      funs := by
        simp only [World.afterTaking, List.length_append, List.length_singleton]
        exact h.funs.take }

/-- What an event comes to. -/
inductive StepSpec (w : World φ κ) : Event φ κ → World φ κ → Prop where
  | add {taskFun : φ} {arg : κ} {k : Option ℕ} {r : ℤ × Pool φ κ}
      (spec : AddSpec w.thiz taskFun arg r) :
      StepSpec w (.add taskFun arg k) (w.afterAdding taskFun arg k r)
  | work {k : ℕ} {r : Taking φ κ} (spec : TakeSpec w r) :
      StepSpec w (.work k) (w.afterTaking k r)
  | idle {e : Event φ κ} {k : ℕ} :
      StepSpec w e { w with workers := Function.update w.workers k .idle }

theorem InRing.stepSpec (h : InRing w) (hstep : step w e = some w') : StepSpec w e w' := by
  cases e with
  | add taskFun arg k =>
    obtain ⟨r, hr, rfl⟩ := Option.map_eq_some_iff.mp hstep
    exact .add (addSpec hr)
  | work k =>
    obtain ⟨r, hr, hspec⟩ := h.takeSpec
    simp only [step, hr] at hstep
    split at hstep
    · obtain rfl := Option.some.inj hstep
      exact .idle
    · obtain rfl := Option.some.inj hstep
      exact .work hspec
  | finish k =>
    obtain rfl := Option.some.inj hstep
    exact .idle

theorem InRing.step (h : InRing w) (hstep : StepSpec w e w') : InRing w' := by
  cases hstep with
  | add spec => exact h.added spec
  | work spec => exact h.taken spec
  | idle => exact { h with }

theorem maxTaskNum_step (hstep : StepSpec w e w') : w'.thiz.maxTaskNum = w.thiz.maxTaskNum := by
  cases hstep with
  | add spec => cases spec <;> rfl
  | work spec => cases spec <;> rfl
  | idle => rfl

/-! ## The arrays -/

/-- Both arrays are there, with a slot for each place of a cursor. -/
structure HasMemory (thiz : Pool φ κ) : Prop where
  args : (thiz.taskQueue.length : ℤ) = thiz.maxTaskNum + 1
  funs : (thiz.taskFun.length : ℤ) = thiz.maxTaskNum + 1

theorem hasMemory_create {threadNum : ℤ} (hmax : 1 ≤ maxTaskNum)
    (hcreate : threadpoolCreate threadNum maxTaskNum true true = .ok (some thiz)) :
    HasMemory thiz := by
  obtain rfl := create_eq hcreate
  constructor <;> simp only [Slots.length_malloc] <;> omega

theorem HasMemory.step (h : HasMemory w.thiz) (hstep : StepSpec w e w') : HasMemory w'.thiz := by
  cases hstep with
  | add spec =>
    cases spec with
    | refused => exact h
    | added _ args written =>
      exact ⟨(congrArg _ (Slots.length_write args)).trans h.args,
        (congrArg _ (Slots.length_write written)).trans h.funs⟩
  | work spec =>
    cases spec with
    | wait => exact h
    | taken => exact ⟨h.args, h.funs⟩
  | idle => exact h

/-- No thread is ever outside of the arrays. -/
theorem InRing.step_isSome (h : InRing w) (hmem : HasMemory w.thiz) (e : Event φ κ) :
    (RingPool.step w e).isSome := by
  cases e with
  | add taskFun arg k =>
    have hend := advance_iterate_mem h.positive w.accepted.length
    rw [← h.endAt] at hend
    obtain ⟨queue, hqueue⟩ := Slots.exists_write (a := w.thiz.taskQueue) hend.1
      (by have hargs := hmem.args; omega) arg
    obtain ⟨funs, hfuns⟩ := Slots.exists_write (a := w.thiz.taskFun) hend.1
      (by have hfuns := hmem.funs; omega) taskFun
    rw [RingPool.step, Option.isSome_map, threadpoolAddTask]
    simp only [hqueue, hfuns, Option.bind_eq_bind, Option.bind_some]
    split <;> rfl
  | work k =>
    obtain ⟨r, hwork, -⟩ := h.takeSpec
    simp only [RingPool.step, hwork]
    split <;> rfl
  | finish k => rfl

/-! ## The queue -/

/-- A pool that has been created stays in order, and keeps its size. -/
theorem runs_inRing {threadNum : ℤ} {queueMemory funMemory : Bool} (hmax : 1 ≤ maxTaskNum)
    (hcreate : threadpoolCreate threadNum maxTaskNum queueMemory funMemory = .ok (some thiz))
    (hruns : (pool φ κ).Runs (World.init thiz) w) : InRing w ∧ w.thiz.maxTaskNum = maxTaskNum := by
  refine hruns.keep (P := fun v => InRing v ∧ v.thiz.maxTaskNum = maxTaskNum)
    ⟨inRing_init hmax hcreate, congrArg Pool.maxTaskNum (create_eq hcreate)⟩ fun hv _ hstep => ?_
  have hspec := hv.1.stepSpec hstep
  exact ⟨hv.1.step hspec, (maxTaskNum_step hspec).trans hv.2⟩

/-- Where there was memory for the arrays, they stay. -/
theorem runs_hasMemory {threadNum : ℤ} (hmax : 1 ≤ maxTaskNum)
    (hcreate : threadpoolCreate threadNum maxTaskNum true true = .ok (some thiz))
    (hruns : (pool φ κ).Runs (World.init thiz) w) : HasMemory w.thiz := by
  have hboth : InRing w ∧ HasMemory w.thiz := by
    refine hruns.keep (P := fun v => InRing v ∧ HasMemory v.thiz)
      ⟨inRing_init hmax hcreate, hasMemory_create hmax hcreate⟩ fun hv _ hstep => ?_
    have hspec := hv.1.stepSpec hstep
    exact ⟨hv.1.step hspec, hv.2.step hspec⟩
  exact hboth.2

/-- A pool that has been created is a queue, after any calls and any steps of its threads: its
cursors stay within the arrays, its count is that of the tasks that have been added and not been
taken, tasks come out as they have been put in and in that order, and no slot is written that still
holds one.  Where there was memory for the arrays, no step is undefined. -/
theorem ring_fifo {threadNum : ℤ} {queueMemory funMemory : Bool} (hmax : 1 ≤ maxTaskNum)
    (hcreate : threadpoolCreate threadNum maxTaskNum queueMemory funMemory = .ok (some thiz))
    (hruns : (pool φ κ).Runs (World.init thiz) w) :
    (0 ≤ w.thiz.start ∧ w.thiz.start ≤ maxTaskNum) ∧
    (0 ≤ w.thiz.end_ ∧ w.thiz.end_ ≤ maxTaskNum) ∧
    (w.thiz.currTaskNum = w.accepted.length - w.dequeued.length ∧ 0 ≤ w.thiz.currTaskNum) ∧
    w.dequeued <+: w.accepted ∧
    (∀ taskFun arg thiz', threadpoolAddTask w.thiz taskFun arg = some (0, thiz') →
      ∀ t ∈ w.pending, t.slot ≠ w.thiz.end_) ∧
    (queueMemory = true → funMemory = true → ∀ e, (step w e).isSome) := by
  obtain ⟨h, hkept⟩ := runs_inRing hmax hcreate hruns
  refine ⟨?_, ?_, ⟨h.count, ?_⟩, h.order, ?_, ?_⟩
  · rw [h.startAt, ← hkept]
    exact advance_iterate_mem h.positive _
  · rw [h.endAt, ← hkept]
    exact advance_iterate_mem h.positive _
  · have hcount := h.count
    have hle := h.length_le
    omega
  · intro taskFun arg thiz' hadd t ht
    cases addSpec hadd with
    | added room => exact h.pending_ne room ht
  · rintro rfl rfl e
    exact h.step_isSome (runs_hasMemory hmax hcreate hruns) e

/-- A task that has been added to a pool of two and taken again. -/
theorem ring_fifo_two : ∃ (thiz : Pool ℕ ℕ) (w : World ℕ ℕ),
    threadpoolCreate 1 2 true true = .ok (some thiz) ∧ (pool ℕ ℕ).Runs (World.init thiz) w ∧
    w.dequeued = [⟨0, 5, 6⟩] ∧ w.dequeued <+: w.accepted ∧
    (0 ≤ w.thiz.end_ ∧ w.thiz.end_ ≤ 2) ∧ ∀ e, (step w e).isSome := by
  have hruns : (pool ℕ ℕ).Runs
      (World.init ⟨1, [none, none, none], [none, none, none], 0, 0, 0, 2⟩) _ :=
    .head (e := .add 5 6 none) (fun _ => nofun) rfl <|
    .head (e := .work 0) ⟨Int.one_pos, .inl rfl⟩ rfl .refl
  obtain ⟨-, hend, -, horder, -, hsome⟩ :=
    ring_fifo (show (1 : ℤ) ≤ 2 by decide) (show threadpoolCreate 1 2 true true = _ from rfl) hruns
  exact ⟨_, _, rfl, hruns, rfl, horder, hend, hsome rfl rfl⟩

end RingPool
end CModel
