import CModel.Timers.Handles
import CModel.Timers.HeapRuns

/-!
# `Timer` over the heap

`deleteTimer` gives a handle back, but `timers[]` keeps the timer under it, which stays in the heap
without its handler.  A second `deleteTimer` gives the handle back again.

* `Timer`, `addTimer`, `deleteTimer`: the class of `Timer.cpp`.
* `Distinct`: no handle is out twice, which is what the tables are for.  `World` remembers for this
  under which handle each timer has been added.
* `Sound`, `step_spec`: the tables and the heap stay in order as long as deletions are of handles
  whose timer waits for its time.
* `distinct_iff`: **no handle is out twice, in a run, if and only if each deletion is of such a
  handle**, and there is a handle for every new timer.
-/

namespace CModel
namespace Timers
namespace OverHeap

variable {κ : Type}

open TimeHeap

/-! ## The class -/

/-- `Timer`, without its thread. -/
structure Timer (κ : Type) where
  heap : TimeHeap κ
  handles : Handles

namespace Timer

/-- `Timer(count)`, whose heap for `count` timers is replaced by one for ten. -/
def new : Timer κ := ⟨TimeHeap.new 10, Handles.new⟩

/-- `addTimer` at the time `now`, where each of the two branches adds the timer to the heap and
stores it. -/
def addTimer (t : Timer κ) (now timeout : ℤ) (handler : κ) : Option (ℕ × Timer κ) := do
  let (htimer, heap) ← t.heap.addNew (now + timeout) handler
  let (r, handles) ← t.handles.assign (some htimer)
  some (r, ⟨heap, handles⟩)

/-- `deleteTimer`, which takes away the handler of the timer once more after `del_timer` has. -/
def deleteTimer (t : Timer κ) (n : ℕ) : Option (ℤ × Timer κ) := do
  let ht ← t.handles.timers n
  if ht ≠ none then
    let heap ← t.heap.delTimer ht
    let heap ← heap.delTimer ht
    let handles ← t.handles.recycle n
    some (0, ⟨heap, handles⟩)
  else some (-1, t)

end Timer

/-! ## Handles that are out -/

/-- A `Timer`, and for each timer the handle it has been added under. -/
structure World (κ : Type) where
  timer : Timer κ
  held : ℕ → Option ℕ

/-- The timer is in the heap and has not been deleted. -/
def Undeleted (w : World κ) (p : ℕ) : Prop :=
  ∃ t handler, w.timer.heap.mem.cell p = some t ∧ t.cbFunc = some handler

/-- No handle is out twice: not to two timers, not on the stack twice, and not both. -/
structure Distinct (w : World κ) : Prop where
  held : ∀ p q n, Undeleted w p → Undeleted w q → w.held p = some n → w.held q = some n → p = q
  stack : ∀ i j, i < w.timer.handles.stackIndex → j < w.timer.handles.stackIndex →
    w.timer.handles.stack i = w.timer.handles.stack j → i = j
  stack_held : ∀ i < w.timer.handles.stackIndex, ∀ p n, Undeleted w p → w.held p = some n →
    w.timer.handles.stack i ≠ some n

/-! ## Runs -/

/-- The operations of a run. -/
inductive Op (κ : Type) where
  | add (now timeout : ℤ) (handler : κ)
  | delete (n : ℕ)
  | tick (cur : ℤ)

/-- One operation.  The address of a timer that is added is that of the next `new`. -/
def step (w : World κ) : Op κ → Option (World κ)
  | .add now timeout handler => do
    let (r, timer) ← w.timer.addTimer now timeout handler
    some ⟨timer, Function.update w.held w.timer.heap.mem.next (some r)⟩
  | .delete n => do
    let (_, timer) ← w.timer.deleteTimer n
    some { w with timer }
  | .tick cur => do
    let (heap, _) ← w.timer.heap.tick inert cur
    some { w with timer := { w.timer with heap } }

/-- Deletions are of handles that have been handed out. -/
def Asked : World κ → List (Op κ) → Prop
  | _, [] => True
  | w, op :: ops =>
    (∀ n, op = .delete n → n < w.timer.handles.timerCount) ∧
      ∀ w', step w op = some w' → Asked w' ops

/-- All calls return, and no handle is ever out twice. -/
def Right : World κ → List (Op κ) → Prop
  | w, [] => Distinct w
  | w, op :: ops => Distinct w ∧ ∃ w', step w op = some w' ∧ Right w' ops

/-- The condition on a call: a deletion is of a handle whose last timer is in the heap and has not
been deleted, and there is a handle for a new timer. -/
def Meets (w : World κ) : Op κ → Prop
  | .add _ _ _ => 0 < w.timer.handles.stackIndex ∨ w.timer.handles.timerCount < 65536
  | .delete n => ∃ p, w.timer.handles.timers n = some (some p) ∧ Undeleted w p
  | .tick _ => True

/-- All calls meet the condition. -/
def Allowed : World κ → List (Op κ) → Prop
  | _, [] => True
  | w, op :: ops => Meets w op ∧ ∀ w', step w op = some w' → Allowed w' ops

/-! ## The tables and the heap -/

/-- The handles on the stack are those whose last timer has been deleted, or has fired; a timer that
waits for its time is the last one under its handle. -/
structure Sound (w : World κ) : Prop where
  heap : Heaped w.timer.heap
  timers : ∀ n < w.timer.handles.timerCount, ∃ p, w.timer.handles.timers n = some (some p) ∧
    p < w.timer.heap.mem.next
  inj : ∀ m n p, m < w.timer.handles.timerCount → n < w.timer.handles.timerCount →
    w.timer.handles.timers m = some (some p) → w.timer.handles.timers n = some (some p) → m = n
  free : ∃ free, w.timer.handles.Keeps free ∧
    (∀ n ∈ free, ∀ p, w.timer.handles.timers n = some (some p) → ¬ Undeleted w p) ∧
    ∀ n < w.timer.handles.timerCount, ∀ p t, w.timer.handles.timers n = some (some p) →
      w.timer.heap.mem.cell p = some t → t.cbFunc = none → n ∈ free
  held : ∀ p n, Undeleted w p → w.held p = some n →
    n < w.timer.handles.timerCount ∧ w.timer.handles.timers n = some (some p)

/-- The world at the start. -/
def World.new : World κ := ⟨Timer.new, fun _ => none⟩

variable {w w' : World κ}

/-- The timer under a handle is older than the next one. -/
theorem Sound.lt_next (hs : Sound w) {m q : ℕ} (hm : m < w.timer.handles.timerCount)
    (hq : w.timer.handles.timers m = some (some q)) : q < w.timer.heap.mem.next := by
  obtain ⟨q', hq', hlt⟩ := hs.timers m hm
  obtain rfl := Option.some.inj (Option.some.inj (hq.symm.trans hq'))
  exact hlt

/-- A timer that is added under a handle. -/
theorem Sound.added (hs : Sound w) {free free' : List ℕ} {n : ℕ} {heap : TimeHeap κ}
    {handles : Handles} {t₀ : HeapTimer κ} (hkeeps : w.timer.handles.Keeps free)
    (hfree : ∀ n ∈ free, ∀ p, w.timer.handles.timers n = some (some p) → ¬ Undeleted w p)
    (hback : ∀ n < w.timer.handles.timerCount, ∀ p t, w.timer.handles.timers n = some (some p) →
      w.timer.heap.mem.cell p = some t → t.cbFunc = none → n ∈ free)
    (hheap : Heaped heap) (hnext : heap.mem.next = w.timer.heap.mem.next + 1)
    (hcell : heap.mem.cell =
      Function.update w.timer.heap.mem.cell w.timer.heap.mem.next (some t₀))
    (hcall : t₀.cbFunc ≠ none)
    (hassigned : w.timer.handles.Assigned free (some w.timer.heap.mem.next) n handles free') :
    Sound (⟨⟨heap, handles⟩, Function.update w.held w.timer.heap.mem.next (some n)⟩ : World κ) := by
  generalize hpdef : w.timer.heap.mem.next = p at *
  have hother : ∀ q, q ≠ p → heap.mem.cell q = w.timer.heap.mem.cell q := fun q hq => by
    rw [hcell, Function.update_of_ne hq]
  have hund : ∀ held q, q ≠ p → Undeleted (⟨⟨heap, handles⟩, held⟩ : World κ) q → Undeleted w q :=
    fun _ q hqp ⟨t, f, ht, hf⟩ => ⟨t, f, (hother q hqp).symm.trans ht, hf⟩
  have holder : ∀ m q, m < w.timer.handles.timerCount →
      w.timer.handles.timers m = some (some q) → q < p := fun m q hm hq =>
    (hs.lt_next hm hq).trans_eq hpdef
  have hcases : ∀ m q, m < handles.timerCount → handles.timers m = some (some q) →
      (m = n ∧ q = p) ∨ (m ≠ n ∧ m < w.timer.handles.timerCount ∧
        w.timer.handles.timers m = some (some q) ∧ q ≠ p) := by
    intro m q hm hq
    rcases hassigned.cases hm with ⟨hmn, hself⟩ | ⟨hmn, hlt, hold⟩
    · exact .inl ⟨hmn, Option.some.inj (Option.some.inj (hq.symm.trans hself))⟩
    · have hq' := hold.symm.trans hq
      exact .inr ⟨hmn, hlt, hq', Nat.ne_of_lt (holder m q hlt hq')⟩
  refine ⟨hheap, ?_, ?_, ⟨free', hassigned.keeps, ?_, ?_⟩, ?_⟩
  · intro m hm
    show ∃ q, handles.timers m = some (some q) ∧ q < heap.mem.next
    rw [hnext]
    rcases hassigned.cases hm with ⟨-, hself⟩ | ⟨-, hlt, hold⟩
    · exact ⟨p, hself, Nat.lt_succ_self p⟩
    · obtain ⟨q, hq, hlt'⟩ := hs.timers m hlt
      exact ⟨q, hold.trans hq, by omega⟩
  · intro m m' q hm hm' hq hq'
    rcases hcases m q hm hq with ⟨rfl, rfl⟩ | ⟨-, hlt, hold, hqp⟩
    · rcases hcases m' _ hm' hq' with ⟨rfl, -⟩ | ⟨-, -, -, hqp⟩
      · rfl
      · exact absurd rfl hqp
    · rcases hcases m' q hm' hq' with ⟨-, heq⟩ | ⟨-, hlt', hold', -⟩
      · exact absurd heq hqp
      · exact hs.inj m m' q hlt hlt' hold hold'
  · intro m hm q hq
    obtain ⟨hmem, hold⟩ := hassigned.of_mem hm
    have hq' := hold.symm.trans hq
    have hqp : q ≠ p := Nat.ne_of_lt (holder m q (hkeeps.lt m hmem) hq')
    exact fun hq => hfree m hmem q hq' (hund _ q hqp hq)
  · intro m hm q t hq ht hcb
    rcases hcases m q hm hq with ⟨-, rfl⟩ | ⟨hmn, hlt, hold, hqp⟩
    · have htq : heap.mem.cell q = some t := ht
      rw [hcell, Function.update_self, Option.some.injEq] at htq
      exact absurd (htq ▸ hcb) hcall
    · have ht' := (hother q hqp).symm.trans ht
      exact (hassigned.mem_iff m).mpr ⟨hback m hlt q t hold ht' hcb, hmn⟩
  · intro q m hq hqm
    show m < handles.timerCount ∧ handles.timers m = some (some q)
    have hqm' : Function.update w.held p (some n) q = some m := hqm
    rw [hassigned.lt_iff, hassigned.timers]
    by_cases hqp : q = p
    · rw [hqp, Function.update_self, Option.some.injEq] at hqm'
      subst hqm' hqp
      exact ⟨.inl rfl, Function.update_self _ _ _⟩
    · rw [Function.update_of_ne hqp] at hqm'
      obtain ⟨hmc, hmt⟩ := hs.held q m (hund _ q hqp hq) hqm'
      have hmn : m ≠ n := by
        rintro rfl
        rcases hassigned.origin with hmem | hcount
        · exact hfree m hmem q hmt (hund _ q hqp hq)
        · omega
      exact ⟨.inr hmc, by rw [Function.update_of_ne hmn, hmt]⟩

/-- A timer that is added. -/
theorem add_step (hs : Sound w) (now timeout : ℤ) (handler : κ) :
    (Meets w (.add now timeout handler) →
      ∃ w', step w (.add now timeout handler) = some w' ∧ Sound w') ∧
    (¬ Meets w (.add now timeout handler) → step w (.add now timeout handler) = none) := by
  obtain ⟨free, hkeeps, hfree, hback⟩ := hs.free
  obtain ⟨heap, hadd, hheap, hnext, hcell⟩ := addNew_spec hs.heap (now + timeout) handler
  obtain ⟨hroom, hfull⟩ := hkeeps.assign_cases (some w.timer.heap.mem.next)
  simp only [step, Timer.addTimer, hadd, Option.bind_eq_bind, Option.bind_some, Meets]
  refine ⟨?_, fun hmeets => by rw [hfull hmeets]; rfl⟩
  intro hmeets
  obtain ⟨n, handles, free', hassigned⟩ := hroom hmeets
  exact ⟨_, by rw [hassigned.assign]; rfl,
    hs.added hkeeps hfree hback hheap hnext hcell (by simp) hassigned⟩

/-- A deletion of a handle whose timer is in the heap. -/
theorem deleteTimer_eq (hs : Sound w) {n p : ℕ} {t : HeapTimer κ}
    (htimer : w.timer.handles.timers n = some (some p))
    (ht : w.timer.heap.mem.cell p = some t) :
    ∃ heap, Heaped heap ∧ heap.mem.next = w.timer.heap.mem.next ∧
      heap.mem.cell = Function.update w.timer.heap.mem.cell p (some { t with cbFunc := none }) ∧
      w.timer.deleteTimer n = (w.timer.handles.recycle n).bind fun handles =>
        some (0, ⟨heap, handles⟩) := by
  obtain ⟨heap₁, hdel₁, hheap₁, hnext₁, hcell₁⟩ := delTimer_spec hs.heap ht
  have ht₁ : heap₁.mem.cell p = some { t with cbFunc := none } := by
    rw [hcell₁, Function.update_self]
  obtain ⟨heap₂, hdel₂, hheap₂, hnext₂, hcell₂⟩ := delTimer_spec hheap₁ ht₁
  refine ⟨heap₂, hheap₂, hnext₂.trans hnext₁, ?_, ?_⟩
  · rw [hcell₂, hcell₁, Function.update_idem]
  · simp only [Timer.deleteTimer, htimer, Option.bind_eq_bind, Option.bind_some, ne_eq,
      reduceCtorEq, not_false_eq_true, if_true, hdel₁, hdel₂]

/-- A deletion of a handle whose timer has not been deleted. -/
theorem delete_undeleted (hs : Sound w) {n p : ℕ} (hn : n < w.timer.handles.timerCount)
    (htimer : w.timer.handles.timers n = some (some p)) (hund : Undeleted w p) :
    ∃ w', step w (.delete n) = some w' ∧ Sound w' := by
  obtain ⟨free, hkeeps, hfree, hback⟩ := hs.free
  have hnot : n ∉ free := fun hmem => hfree n hmem p htimer hund
  obtain ⟨t, f, ht, hf⟩ := hund
  obtain ⟨heap, hheap, hnext, hcell, hdel⟩ := deleteTimer_eq hs htimer ht
  obtain ⟨handles, hrecycle, hkeeps', hcount, htimers⟩ := Handles.recycle_eq hkeeps hn hnot
  have hgone : ∀ held, ¬ Undeleted (⟨⟨heap, handles⟩, held⟩ : World κ) p := by
    rintro held ⟨t', f', ht', hf'⟩
    have ht₁ : heap.mem.cell p = some t' := ht'
    rw [hcell, Function.update_self, Option.some.injEq] at ht₁
    rw [← ht₁] at hf'
    exact absurd hf' (by simp)
  have hund : ∀ held q, Undeleted (⟨⟨heap, handles⟩, held⟩ : World κ) q → Undeleted w q := by
    intro held q hq
    have hqp : q ≠ p := fun heq => hgone held (heq ▸ hq)
    obtain ⟨t', f', ht', hf'⟩ := hq
    have ht₁ : heap.mem.cell q = some t' := ht'
    rw [hcell, Function.update_of_ne hqp] at ht₁
    exact ⟨t', f', ht₁, hf'⟩
  refine ⟨⟨⟨heap, handles⟩, w.held⟩, ?_, ⟨hheap, ?_, ?_, ⟨_, hkeeps', ?_, ?_⟩, ?_⟩⟩
  · simp only [step, hdel, hrecycle, Option.bind_eq_bind, Option.bind_some]
  · intro m hm
    obtain ⟨q, hq, hlt'⟩ := hs.timers m (hcount ▸ hm)
    exact ⟨q, by rw [htimers, hq], by show q < heap.mem.next; omega⟩
  · rw [htimers, hcount]
    exact hs.inj
  · intro m hm q hq hq'
    have hq₁ : w.timer.handles.timers m = some (some q) := htimers ▸ hq
    rcases List.mem_append.mp hm with hm | hm
    · exact hfree m hm q hq₁ (hund _ q hq')
    · rw [List.mem_singleton.mp hm, htimer, Option.some.injEq, Option.some.injEq] at hq₁
      exact hgone _ (hq₁ ▸ hq')
  · intro m hm q t' hq ht' hcb
    have hq₁ : w.timer.handles.timers m = some (some q) := htimers ▸ hq
    by_cases hqp : q = p
    · refine List.mem_append_right _ (List.mem_singleton.mpr ?_)
      exact hs.inj m n p (hcount ▸ hm) hn (hqp ▸ hq₁) htimer
    · have ht₁ : heap.mem.cell q = some t' := ht'
      rw [hcell, Function.update_of_ne hqp] at ht₁
      exact List.mem_append_left _ (hback m (hcount ▸ hm) q t' hq₁ ht₁ hcb)
  · intro q m hq hqm
    obtain ⟨hm, hmt⟩ := hs.held q m (hund _ q hq) hqm
    exact ⟨hcount ▸ hm, htimers ▸ hmt⟩

/-- A deletion of a handle whose timer has left the heap. -/
theorem delete_gone {n p : ℕ} (htimer : w.timer.handles.timers n = some (some p))
    (hp : w.timer.heap.mem.cell p = none) : step w (.delete n) = none := by
  have hmod : w.timer.heap.delTimer (some p) = none := by
    rw [delTimer, Store.modify_of_none hp]
    rfl
  simp only [step, Timer.deleteTimer, htimer, Option.bind_eq_bind, Option.bind_some, ne_eq,
    reduceCtorEq, not_false_eq_true, if_true, hmod, Option.bind_none]

/-- A deletion of a handle whose timer has been deleted before puts the handle on the stack once
more. -/
theorem delete_again (hs : Sound w) {n p : ℕ} {t : HeapTimer κ}
    (hn : n < w.timer.handles.timerCount) (htimer : w.timer.handles.timers n = some (some p))
    (ht : w.timer.heap.mem.cell p = some t) (hcb : t.cbFunc = none)
    (hstep : step w (.delete n) = some w') : ¬ Distinct w' := by
  intro hdistinct
  obtain ⟨free, hkeeps, -, hback⟩ := hs.free
  have hlen := hkeeps.length
  obtain ⟨i, hi, hin⟩ := List.mem_iff_getElem.mp (hback n hn p t htimer ht hcb)
  obtain ⟨heap, -, -, -, hdel⟩ := deleteTimer_eq hs htimer ht
  simp only [step, hdel, Option.bind_eq_bind] at hstep
  rw [Handles.recycle, Handles.writeAt] at hstep
  split at hstep
  · obtain rfl := Option.some.inj hstep
    have hstack := hdistinct.stack i w.timer.handles.stackIndex
      (show i < w.timer.handles.stackIndex + 1 by omega) (Nat.lt_succ_self _) ?_
    · omega
    · show Function.update w.timer.handles.stack w.timer.handles.stackIndex (some n) i =
        Function.update w.timer.handles.stack w.timer.handles.stackIndex (some n)
          w.timer.handles.stackIndex
      rw [Function.update_self, Function.update_of_ne (by omega), hkeeps.stack i hi,
        List.getElem?_eq_getElem hi, hin]
  · exact absurd hstep (by simp)

/-- A deletion. -/
theorem delete_step (hs : Sound w) {n : ℕ} (hn : n < w.timer.handles.timerCount) :
    (Meets w (.delete n) → ∃ w', step w (.delete n) = some w' ∧ Sound w') ∧
    (¬ Meets w (.delete n) → ∀ w', step w (.delete n) = some w' → ¬ Distinct w') := by
  constructor
  · rintro ⟨p, htimer, hund⟩
    exact delete_undeleted hs hn htimer hund
  · intro hmeets w' hstep
    obtain ⟨p, htimer, -⟩ := hs.timers n hn
    cases ht : w.timer.heap.mem.cell p with
    | none =>
      rw [delete_gone htimer ht] at hstep
      exact absurd hstep (by simp)
    | some t =>
      have hcb : t.cbFunc = none := by
        cases hf : t.cbFunc with
        | none => rfl
        | some f => exact absurd ⟨p, htimer, t, f, ht, hf⟩ hmeets
      exact delete_again hs hn htimer ht hcb hstep

/-- A tick of the heap. -/
theorem tick_step (hs : Sound w) (cur : ℤ) : ∃ w', step w (.tick cur) = some w' ∧ Sound w' := by
  obtain ⟨free, hkeeps, hfree, hback⟩ := hs.free
  obtain ⟨heap, calls, htick, hheap, hticked⟩ := tick_spec hs.heap cur
  have hcell : ∀ p t, heap.mem.cell p = some t → w.timer.heap.mem.cell p = some t := by
    intro p t ht
    rw [hticked.cell, Option.bind_eq_some_iff] at ht
    obtain ⟨t₀, ht₀, hif⟩ := ht
    split at hif
    · exact absurd hif (by simp)
    · rw [ht₀, hif]
  have hund : ∀ p, Undeleted { w with timer := { w.timer with heap } } p → Undeleted w p :=
    fun p ⟨t, f, ht, hf⟩ => ⟨t, f, hcell p t ht, hf⟩
  refine ⟨{ w with timer := { w.timer with heap } }, ?_, ⟨hheap, ?_, hs.inj, ⟨free,
    hkeeps, fun n hn p hp hp' => hfree n hn p hp (hund p hp'), ?_⟩,
    fun p n hp hpn => hs.held p n (hund p hp) hpn⟩⟩
  · simp only [step, htick, Option.bind_eq_bind, Option.bind_some]
  · intro n hn
    obtain ⟨p, hp, hlt⟩ := hs.timers n hn
    exact ⟨p, hp, by rw [hticked.next]; exact hlt⟩
  · intro n hn p t hp ht hcb
    exact hback n hn p t hp (hcell p t ht) hcb

/-- **A call keeps the tables and the heap in order if it meets the condition**; if not, it does not
return, or a handle is out twice. -/
theorem step_spec (hs : Sound w) {op : Op κ}
    (hask : ∀ n, op = .delete n → n < w.timer.handles.timerCount) :
    (Meets w op → ∃ w', step w op = some w' ∧ Sound w') ∧
    (¬ Meets w op → ∀ w', step w op = some w' → ¬ Distinct w') := by
  cases op with
  | add now timeout handler =>
    obtain ⟨hroom, hfull⟩ := add_step hs now timeout handler
    refine ⟨hroom, ?_⟩
    intro hmeets w' hstep
    rw [hfull hmeets] at hstep
    exact absurd hstep (by simp)
  | delete n => exact delete_step hs (hask n rfl)
  | tick cur => exact ⟨fun _ => tick_step hs cur, fun hmeets => absurd trivial hmeets⟩

theorem Right.next {op : Op κ} {ops : List (Op κ)} (h : Right w (op :: ops))
    (hstep : step w op = some w') : Right w' ops := by
  obtain ⟨-, w'', hstep', hright⟩ := h
  rw [hstep, Option.some.injEq] at hstep'
  exact hstep' ▸ hright

end OverHeap
end Timers
end CModel
