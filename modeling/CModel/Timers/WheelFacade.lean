import CModel.Timers.Handles
import CModel.Timers.WheelLists

/-!
# `Timer` over the wheel

`deleteTimer` deletes the timer, but only a local copy of the pointer to it becomes `NULL`, and the
wheel deletes a timer that it fires without a word to `Timer`.  In both cases `timers[]` keeps the
old pointer.

* `Timer`, `addTimer`, `deleteTimer`: the class of `Timer.cpp`.
* `DeletesRight`: what a deletion through a handle is for.
* `Sound`, `step_spec`: what the tables and the wheel have to do with each other, and that each
  operation keeps it.
* `deletesRight_iff`: **deletions do what they are for, in a run, if and only if each is of a handle
  whose timer is still pending**, and there is a handle for every new timer.
-/

namespace CModel
namespace Timers
namespace OverWheel

variable {κ : Type}

open TimeWheel

/-! ## The class -/

/-- `Timer`, without its thread. -/
structure Timer (κ : Type) where
  wheel : TimeWheel κ
  handles : Handles

namespace Timer

/-- `Timer()` -/
def new : Timer κ := ⟨TimeWheel.new, Handles.new⟩

/-- `addTimer`, where each of the two branches adds a timer to the wheel and stores it. -/
def addTimer (t : Timer κ) (timeout : ℤ) (handler : κ) : Option (ℕ × Timer κ) := do
  let (timer, wheel) ← t.wheel.addTimer timeout handler
  let (r, handles) ← t.handles.assign timer
  some (r, ⟨wheel, handles⟩)

/-- `deleteTimer` -/
def deleteTimer (t : Timer κ) (n : ℕ) : Option (ℤ × Timer κ) := do
  let tw ← t.handles.timers n
  if tw ≠ none then
    let wheel ← t.wheel.delTimer tw
    let handles ← t.handles.recycle n
    some (0, ⟨wheel, handles⟩)
  else some (-1, t)

end Timer

/-! ## What a deletion is for -/

/-- The timer last added under a handle has neither fired nor been deleted. -/
def PendingHandle (t : Timer κ) (n : ℕ) : Prop :=
  ∃ p, t.handles.timers n = some (some p) ∧ t.wheel.Pending p

/-- A deletion returns `0` and takes out the timer last added under the handle, and no other, if
this timer is pending; else it returns `-1` and changes nothing. -/
structure DeletesRight (t : Timer κ) (n : ℕ) : Prop where
  pending : ∀ p, t.handles.timers n = some (some p) → t.wheel.Pending p →
    ∃ t', t.deleteTimer n = some (0, t') ∧ ¬ t'.wheel.Pending p ∧
      (∀ q, q ≠ p → t'.wheel.data q = t.wheel.data q) ∧
      ∀ lists, WellLinked t.wheel lists → WellLinked t'.wheel fun s => (lists s).erase p
  other : ¬ PendingHandle t n → t.deleteTimer n = some (-1, t)

/-! ## Runs -/

/-- The operations of a run. -/
inductive Op (κ : Type) where
  | add (timeout : ℤ) (handler : κ)
  | delete (n : ℕ)
  | tick

/-- One operation. -/
def step (t : Timer κ) : Op κ → Option (Timer κ)
  | .add timeout handler => (t.addTimer timeout handler).map Prod.snd
  | .delete n => (t.deleteTimer n).map Prod.snd
  | .tick => (t.wheel.tick inert).map fun r => { t with wheel := r.1 }

/-- The calls are with timeouts that are not negative and with handles that have been handed
out. -/
def Asked : Timer κ → List (Op κ) → Prop
  | _, [] => True
  | t, op :: ops =>
    (match op with
      | .add timeout _ => 0 ≤ timeout
      | .delete n => n < t.handles.timerCount
      | .tick => True) ∧ ∀ t', step t op = some t' → Asked t' ops

/-- All calls return, and all deletions do what they are for. -/
def Right : Timer κ → List (Op κ) → Prop
  | _, [] => True
  | t, op :: ops =>
    (∀ n, op = .delete n → DeletesRight t n) ∧ ∃ t', step t op = some t' ∧ Right t' ops

/-- The condition on a call: a deletion is of a handle whose timer is pending, and there is a handle
for a new timer. -/
def Meets (t : Timer κ) : Op κ → Prop
  | .add _ _ => 0 < t.handles.stackIndex ∨ t.handles.timerCount < 65536
  | .delete n => PendingHandle t n
  | .tick => True

/-- All calls meet the condition. -/
def Allowed : Timer κ → List (Op κ) → Prop
  | _, [] => True
  | t, op :: ops => Meets t op ∧ ∀ t', step t op = some t' → Allowed t' ops

/-! ## The tables and the wheel -/

/-- Every handle has a timer that has been made, and the handles on the stack have none that is
pending. -/
structure Sound (t : Timer κ) : Prop where
  wheel : ∃ lists, WellLinked t.wheel lists
  timers : ∀ n < t.handles.timerCount, ∃ p, t.handles.timers n = some (some p) ∧
    p < t.wheel.mem.next
  handles : ∃ free, t.handles.Keeps free ∧ ∀ n ∈ free, ¬ PendingHandle t n

variable {t t' : Timer κ}

/-- What comes of deleting the pending timer `p` through the handle `n`. -/
structure Deleted (t : Timer κ) (free : List ℕ) (lists : Fin 60 → List ℕ) (n p : ℕ)
    (t' : Timer κ) : Prop where
  eq : t.deleteTimer n = some (0, t')
  wheel : ∃ s, WellLinked t'.wheel (Function.update lists s ((lists s).erase p)) ∧ p ∈ lists s
  next : t'.wheel.mem.next = t.wheel.mem.next
  gone : ¬ t'.wheel.Pending p
  data : ∀ q, q ≠ p → t'.wheel.data q = t.wheel.data q
  keeps : t'.handles.Keeps (free ++ [n])
  timerCount : t'.handles.timerCount = t.handles.timerCount
  timers : t'.handles.timers = t.handles.timers

theorem exists_deleted {free : List ℕ} {lists : Fin 60 → List ℕ} {n p : ℕ}
    (hw : WellLinked t.wheel lists) (hkeeps : t.handles.Keeps free)
    (hfree : ∀ n ∈ free, ¬ PendingHandle t n) (hn : n < t.handles.timerCount)
    (htimer : t.handles.timers n = some (some p)) (hp : t.wheel.Pending p) :
    ∃ t', Deleted t free lists n p t' := by
  obtain ⟨timer, hcell⟩ := hp
  obtain ⟨wheel, hdel, hw', hcur, hnext, hnone, hdata⟩ :=
    delTimer_spec hw (hw.pending p timer hcell)
  have hnot : n ∉ free := fun hmem => hfree n hmem ⟨p, htimer, timer, hcell⟩
  obtain ⟨handles, hrecycle, hkeeps', hcount, htimers⟩ := Handles.recycle_eq hkeeps hn hnot
  refine ⟨⟨wheel, handles⟩, ?_, ⟨_, hw', hw.pending p timer hcell⟩, hnext, ?_, hdata, hkeeps',
    hcount, htimers⟩
  · rw [Timer.deleteTimer, htimer]
    simp only [Option.bind_eq_bind, Option.bind_some, ne_eq, reduceCtorEq, not_false_eq_true,
      if_true, hdel, hrecycle]
  · rw [pending_iff_data, hnone]
    simp

/-- No timer becomes pending, and the handle has none that is. -/
theorem Deleted.pending_of {free : List ℕ} {lists : Fin 60 → List ℕ} {n p q : ℕ}
    (h : Deleted t free lists n p t') (hq : t'.wheel.Pending q) : t.wheel.Pending q := by
  have hqp : q ≠ p := fun heq => h.gone (heq ▸ hq)
  rwa [pending_iff_data, h.data q hqp, ← pending_iff_data] at hq

theorem Deleted.not_pendingHandle {free : List ℕ} {lists : Fin 60 → List ℕ} {n p : ℕ}
    (h : Deleted t free lists n p t') (htimer : t.handles.timers n = some (some p))
    (hfree : ∀ n ∈ free, ¬ PendingHandle t n) : ∀ m ∈ free ++ [n], ¬ PendingHandle t' m := by
  rintro m hm ⟨q, hq, hpq⟩
  rw [h.timers] at hq
  rcases List.mem_append.mp hm with hm | hm
  · exact hfree m hm ⟨q, hq, h.pending_of hpq⟩
  · rw [List.mem_singleton.mp hm, htimer, Option.some.injEq, Option.some.injEq] at hq
    exact h.gone (hq ▸ hpq)

/-- A deletion of a handle whose timer is pending. -/
theorem deleteTimer_pending (h : Sound t) {n p : ℕ} (hn : n < t.handles.timerCount)
    (htimer : t.handles.timers n = some (some p)) (hp : t.wheel.Pending p) :
    ∃ t', t.deleteTimer n = some (0, t') ∧ Sound t' ∧ ¬ t'.wheel.Pending p ∧
      (∀ q, q ≠ p → t'.wheel.data q = t.wheel.data q) ∧
      ∀ lists, WellLinked t.wheel lists → WellLinked t'.wheel fun s => (lists s).erase p := by
  obtain ⟨free, hkeeps, hfree⟩ := h.handles
  obtain ⟨lists, hw⟩ := h.wheel
  obtain ⟨t', hdeleted⟩ := exists_deleted hw hkeeps hfree hn htimer hp
  refine ⟨t', hdeleted.eq, ⟨?_, ?_, _, hdeleted.keeps,
    hdeleted.not_pendingHandle htimer hfree⟩, hdeleted.gone, hdeleted.data, ?_⟩
  · obtain ⟨s, hwell, -⟩ := hdeleted.wheel
    exact ⟨_, hwell⟩
  · intro m hm
    obtain ⟨q, hq, hlt⟩ := h.timers m (hdeleted.timerCount ▸ hm)
    exact ⟨q, by rw [hdeleted.timers, hq], hdeleted.next.symm ▸ hlt⟩
  · intro lists' hl
    obtain ⟨t'', hdeleted'⟩ := exists_deleted hl hkeeps hfree hn htimer hp
    obtain ⟨-, rfl⟩ := Prod.mk.inj (Option.some.inj (hdeleted.eq.symm.trans hdeleted'.eq))
    obtain ⟨s', hwell, hmem⟩ := hdeleted'.wheel
    convert hwell using 1
    funext s
    by_cases hs : s = s'
    · rw [hs, Function.update_self]
    · rw [Function.update_of_ne hs, List.erase_of_not_mem]
      exact fun hin => hs (hl.slot_unique hin hmem)

/-- A deletion of a handle whose timer has fired or been deleted hands a deleted timer to the
wheel. -/
theorem deleteTimer_gone (h : Sound t) {n : ℕ} (hn : n < t.handles.timerCount)
    (hgone : ¬ PendingHandle t n) : t.deleteTimer n = none := by
  obtain ⟨p, htimer, -⟩ := h.timers n hn
  have hcell : t.wheel.mem.cell p = none := by
    cases hp : t.wheel.mem.cell p with
    | none => rfl
    | some timer => exact absurd ⟨p, htimer, timer, hp⟩ hgone
  rw [Timer.deleteTimer, htimer]
  simp only [Option.bind_eq_bind, Option.bind_some, ne_eq, reduceCtorEq, not_false_eq_true, if_true,
    delTimer, hcell, Option.bind_none]

/-- A timer that is added under a handle. -/
theorem Sound.added (h : Sound t) {free free' : List ℕ} {lists : Fin 60 → List ℕ} {n : ℕ}
    {wheel : TimeWheel κ} {handles : Handles}
    (hfree : ∀ n ∈ free, ¬ PendingHandle t n) (hkeeps : t.handles.Keeps free)
    (hw : WellLinked wheel lists) (hnext : wheel.mem.next = t.wheel.mem.next + 1)
    (hdata : ∀ p, p ≠ t.wheel.mem.next → wheel.data p = t.wheel.data p)
    (hassigned : t.handles.Assigned free (some t.wheel.mem.next) n handles free') :
    Sound (⟨wheel, handles⟩ : Timer κ) := by
  refine ⟨⟨_, hw⟩, ?_, ⟨free', hassigned.keeps, ?_⟩⟩
  · intro m hm
    show ∃ p, handles.timers m = some (some p) ∧ p < wheel.mem.next
    rw [hnext]
    rcases hassigned.cases hm with ⟨-, hself⟩ | ⟨-, hlt, hold⟩
    · exact ⟨_, hself, Nat.lt_succ_self _⟩
    · obtain ⟨p, hp, hlt⟩ := h.timers m hlt
      exact ⟨p, hold.trans hp, by omega⟩
  · rintro m hm ⟨p, hp, hpend⟩
    obtain ⟨hmem, hold⟩ := hassigned.of_mem hm
    have hp' : t.handles.timers m = some (some p) := hold.symm.trans hp
    obtain ⟨q, hq, hlt⟩ := h.timers m (hkeeps.lt m hmem)
    rw [hp', Option.some.injEq, Option.some.injEq] at hq
    refine hfree m hmem ⟨p, hp', ?_⟩
    rwa [pending_iff_data, hdata p (by omega), ← pending_iff_data] at hpend

/-- A timer that is added. -/
theorem addTimer_step (h : Sound t) {timeout : ℤ} (ht : 0 ≤ timeout) (handler : κ) :
    (0 < t.handles.stackIndex ∨ t.handles.timerCount < 65536 →
      ∃ r t', t.addTimer timeout handler = some (r, t') ∧ Sound t') ∧
    (¬ (0 < t.handles.stackIndex ∨ t.handles.timerCount < 65536) →
      t.addTimer timeout handler = none) := by
  obtain ⟨lists, hw⟩ := h.wheel
  obtain ⟨free, hkeeps, hfree⟩ := h.handles
  obtain ⟨wheel, hadd, hw', -, hnext, -, hdata⟩ := addTimer_spec hw ht handler
  obtain ⟨hroom, hfull⟩ := hkeeps.assign_cases (some t.wheel.mem.next)
  simp only [Timer.addTimer, hadd, Option.bind_eq_bind, Option.bind_some]
  refine ⟨?_, fun hmeets => by rw [hfull hmeets]; rfl⟩
  intro hmeets
  obtain ⟨n, handles, free', hassigned⟩ := hroom hmeets
  exact ⟨n, _, by rw [hassigned.assign]; rfl, h.added hfree hkeeps hw' hnext hdata hassigned⟩

/-- A tick makes no timer pending. -/
theorem pending_of_tick {w wheel : TimeWheel κ} {lists : Fin 60 → List ℕ} {q : ℕ}
    (hdata : ∀ q, wheel.data q =
      if q ∈ lists w.curSlot then (w.data q).bind ticked else w.data q)
    (hq : wheel.Pending q) : w.Pending q := by
  obtain ⟨d, hd⟩ := pending_iff_data.mp hq
  rw [hdata] at hd
  rw [pending_iff_data]
  split at hd
  · obtain ⟨d₀, hd₀, -⟩ := Option.bind_eq_some_iff.mp hd
    exact ⟨d₀, hd₀⟩
  · exact ⟨d, hd⟩

/-- A tick of the wheel. -/
theorem tick_step (h : Sound t) : ∃ t', step t .tick = some t' ∧ Sound t' := by
  obtain ⟨lists, hw⟩ := h.wheel
  obtain ⟨free, hkeeps, hfree⟩ := h.handles
  obtain ⟨wheel, htick, -, hnext, hw', hdata⟩ := tick_spec hw
  refine ⟨{ t with wheel := wheel }, by rw [step, htick]; rfl, ⟨_, hw'⟩, ?_, ⟨free, hkeeps, ?_⟩⟩
  · intro n hn
    obtain ⟨p, hp, hlt⟩ := h.timers n hn
    exact ⟨p, hp, by show p < wheel.mem.next; omega⟩
  · rintro n hn ⟨p, hp, hpp⟩
    exact hfree n hn ⟨p, hp, pending_of_tick hdata hpp⟩

/-- **A call returns if and only if it meets the condition**, and then the tables and the wheel stay
in order. -/
theorem step_spec (h : Sound t) {op : Op κ} {ops : List (Op κ)} (hask : Asked t (op :: ops)) :
    (Meets t op → ∃ t', step t op = some t' ∧ Sound t') ∧ (¬ Meets t op → step t op = none) := by
  cases op with
  | add timeout handler =>
    obtain ⟨hroom, hfull⟩ := addTimer_step h hask.1 handler
    refine ⟨?_, fun hmeets => by rw [step, hfull hmeets]; rfl⟩
    intro hmeets
    obtain ⟨r, t', hadd, hs⟩ := hroom hmeets
    exact ⟨t', by rw [step, hadd]; rfl, hs⟩
  | delete n =>
    refine ⟨?_, fun hgone => by rw [step, deleteTimer_gone h hask.1 hgone]; rfl⟩
    intro hmeets
    obtain ⟨p, htimer, hp⟩ := hmeets
    obtain ⟨t', hdel, hs, -⟩ := deleteTimer_pending h hask.1 htimer hp
    exact ⟨t', by rw [step, hdel]; rfl, hs⟩
  | tick => exact ⟨fun _ => tick_step h, fun hmeets => absurd trivial hmeets⟩

end OverWheel
end Timers
end CModel
