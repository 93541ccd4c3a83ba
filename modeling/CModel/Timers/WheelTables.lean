import CModel.Timers.WheelFacade

/-!
# Whether the tables of `Timer` are large enough

`timers[]` and `stack[]` have 65536 entries each.  A handle is only used again after `deleteTimer`;
the handle of a timer that has fired never is.

* `indexWritten`, `InTables`: the entry that an operation writes, and that there is one.
* `ForPending`, `FewPending`: which deletions are asked for, and how many timers are pending.
* `added`, `deleted`: how many timers have been added and deleted.
* `Tables`: how many handles are out, pending or not.
* `inTables_iff`: **the tables are large enough if and only if at no time 65536 timers more have been
  added than deleted**, whether they are pending or not.
-/

namespace CModel
namespace Timers
namespace OverWheel

variable {κ : Type}

open TimeWheel

/-- The entry of `timers[]` or `stack[]` that an operation writes. -/
def indexWritten (t : Timer κ) : Op κ → Option ℕ
  | .add _ _ =>
    if t.handles.stackIndex ≤ 0 then some t.handles.timerCount
    else t.handles.stack (t.handles.stackIndex - 1)
  | .delete _ => some t.handles.stackIndex
  | .tick => none

/-- Every entry that is written is one of the 65536. -/
def InTables : Timer κ → List (Op κ) → Prop
  | _, [] => True
  | t, op :: ops => (∀ i, indexWritten t op = some i → i < 65536) ∧
      ∀ t', step t op = some t' → InTables t' ops

/-- Each deletion is of the handle of a pending timer. -/
def ForPending : Timer κ → List (Op κ) → Prop
  | _, [] => True
  | t, op :: ops => (∀ n, op = .delete n → PendingHandle t n) ∧
      ∀ t', step t op = some t' → ForPending t' ops

/-- At most `m` timers are pending at any time. -/
def FewPending (m : ℕ) : Timer κ → List (Op κ) → Prop
  | t, ops => (∀ l : List ℕ, l.Nodup → (∀ p ∈ l, t.wheel.Pending p) → l.length ≤ m) ∧
    match ops with
    | [] => True
    | op :: ops => ∀ t', step t op = some t' → FewPending m t' ops

def Op.adds : Op κ → Bool
  | .add _ _ => true
  | .delete _ | .tick => false

def Op.deletes : Op κ → Bool
  | .delete _ => true
  | .add _ _ | .tick => false

/-- How many timers are added. -/
def added (ops : List (Op κ)) : ℕ := ops.countP Op.adds

/-- How many are deleted. -/
def deleted (ops : List (Op κ)) : ℕ := ops.countP Op.deletes

/-- The tables with `out` handles that are out: every entry that has been written is of a timer that
has been made, or `NULL`, and the handles on the stack have no timer that is pending. -/
structure Tables (t : Timer κ) (out : ℕ) : Prop where
  wheel : ∃ lists, WellLinked t.wheel lists
  timers : ∀ n x, t.handles.timers n = some x →
    n < t.handles.timerCount ∧ ∀ p, x = some p → p < t.wheel.mem.next
  handles : ∃ free, t.handles.Keeps free ∧ t.handles.timerCount = free.length + out ∧
    ∀ n ∈ free, ¬ PendingHandle t n

variable {t t' : Timer κ} {out : ℕ}

theorem tables_new : Tables (Timer.new : Timer κ) 0 :=
  ⟨⟨_, wellLinked_new⟩, fun n x hx => absurd hx (by simp [Timer.new, Handles.new]),
    ⟨[], Handles.keeps_new, rfl, fun _ hn => absurd hn List.not_mem_nil⟩⟩

theorem Tables.out_le (h : Tables t out) : out ≤ 65536 := by
  obtain ⟨free, hkeeps, hcount, -⟩ := h.handles
  have hle := hkeeps.le
  omega

/-- A tick leaves the tables alone. -/
theorem Tables.tick (h : Tables t out) : ∃ t', step t .tick = some t' ∧ Tables t' out := by
  obtain ⟨lists, hw⟩ := h.wheel
  obtain ⟨free, hkeeps, hcount, hfree⟩ := h.handles
  obtain ⟨wheel, htick, -, hnext, hw', hdata⟩ := tick_spec hw
  refine ⟨{ t with wheel := wheel }, by rw [step, htick]; rfl, ⟨_, hw'⟩, ?_,
    ⟨free, hkeeps, hcount, ?_⟩⟩
  · intro n x hx
    obtain ⟨hn, hlt⟩ := h.timers n x hx
    exact ⟨hn, fun p hp => hnext.symm ▸ hlt p hp⟩
  · rintro n hn ⟨p, hp, hpp⟩
    exact hfree n hn ⟨p, hp, pending_of_tick hdata hpp⟩

/-- A handle comes back, and there is an entry for it. -/
theorem Tables.delete (h : Tables t out) {n : ℕ} (hn : PendingHandle t n) :
    0 < out ∧ t.handles.stackIndex < 65536 ∧
      ∃ t', step t (.delete n) = some t' ∧ Tables t' (out - 1) := by
  obtain ⟨lists, hw⟩ := h.wheel
  obtain ⟨free, hkeeps, hcount, hfree⟩ := h.handles
  obtain ⟨p, htimer, hp⟩ := id hn
  have hlt := (h.timers n _ htimer).1
  have hroom := hkeeps.stackIndex_lt hlt fun hmem => hfree n hmem hn
  have hlen := hkeeps.length
  have hle := hkeeps.le
  obtain ⟨t', hdeleted⟩ := exists_deleted hw hkeeps hfree hlt htimer hp
  refine ⟨by omega, by omega, t', by rw [step, hdeleted.eq]; rfl, ?_, ?_,
    ⟨free ++ [n], hdeleted.keeps, ?_, hdeleted.not_pendingHandle htimer hfree⟩⟩
  · obtain ⟨s, hwell, -⟩ := hdeleted.wheel
    exact ⟨_, hwell⟩
  · intro m x hx
    obtain ⟨hm, hpm⟩ := h.timers m x (hdeleted.timers ▸ hx)
    exact ⟨hdeleted.timerCount.symm ▸ hm, fun q hq => hdeleted.next.symm ▸ hpm q hq⟩
  · rw [hdeleted.timerCount, List.length_append, List.length_singleton]
    omega

/-- What `add_timer` of the wheel comes to, for any timeout. -/
theorem addTimer_any {lists : Fin 60 → List ℕ} (hw : WellLinked t.wheel lists) (timeout : ℤ)
    (handler : κ) : ∃ timer wheel, t.wheel.addTimer timeout handler = some (timer, wheel) ∧
      (∃ lists', WellLinked wheel lists') ∧ t.wheel.mem.next ≤ wheel.mem.next ∧
      (∀ p, timer = some p → t.wheel.mem.next ≤ p ∧ p < wheel.mem.next) ∧
      ∀ p, p < t.wheel.mem.next → (wheel.Pending p ↔ t.wheel.Pending p) := by
  by_cases ht : timeout < 0
  · exact ⟨none, t.wheel, if_pos ht, ⟨lists, hw⟩, Nat.le_refl _, by simp, fun _ _ => Iff.rfl⟩
  · obtain ⟨wheel, hadd, hw', -, hnext, -, hdata⟩ :=
      addTimer_spec hw (Int.not_lt.mp ht) handler
    refine ⟨_, wheel, hadd, ⟨_, hw'⟩, by omega, ?_, ?_⟩
    · intro p hp
      obtain rfl := Option.some.inj hp
      omega
    · intro p hp
      rw [pending_iff_data, pending_iff_data, hdata p (Nat.ne_of_lt hp)]

/-- The entry of `timers[]` that a new timer gets. -/
theorem indexWritten_assign {timer : Option ℕ} {n : ℕ} {handles : Handles} (timeout : ℤ)
    (handler : κ) (hassign : t.handles.assign timer = some (n, handles)) :
    indexWritten t (.add timeout handler) = some n := by
  unfold Handles.assign at hassign
  unfold indexWritten
  split at hassign
  · next hempty =>
    obtain ⟨timers, -, heq⟩ := Option.bind_eq_some_iff.mp hassign
    rw [if_pos hempty, (Prod.mk.inj (Option.some.inj heq)).1]
  · next hfull =>
    obtain ⟨index, hindex, hrest⟩ := Option.bind_eq_some_iff.mp hassign
    obtain ⟨timers, -, heq⟩ := Option.bind_eq_some_iff.mp hrest
    rw [if_neg hfull, hindex, (Prod.mk.inj (Option.some.inj heq)).1]

/-- A new timer gets a handle as long as not all of them are out. -/
theorem Tables.add (h : Tables t out) (timeout : ℤ) (handler : κ) :
    (out < 65536 → ∃ n t', indexWritten t (.add timeout handler) = some n ∧ n < 65536 ∧
      step t (.add timeout handler) = some t' ∧ Tables t' (out + 1)) ∧
    (¬ out < 65536 → indexWritten t (.add timeout handler) = some 65536) := by
  obtain ⟨lists, hw⟩ := h.wheel
  obtain ⟨free, hkeeps, hcount, hfree⟩ := h.handles
  have hlen := hkeeps.length
  have hle := hkeeps.le
  obtain ⟨timer, wheel, hadd, hw', hnext, htimer, hpend⟩ := addTimer_any hw timeout handler
  constructor
  · intro hroom
    obtain ⟨n, handles, free', hassigned⟩ := (hkeeps.assign_cases timer).1 (by omega)
    have hn : n < handles.timerCount := (hassigned.lt_iff n).mpr (.inl rfl)
    have hle' := hassigned.keeps.le
    refine ⟨n, ⟨wheel, handles⟩, indexWritten_assign timeout handler hassigned.assign, by omega,
      by simp [step, Timer.addTimer, hadd, hassigned.assign], hw', ?_,
      ⟨free', hassigned.keeps, ?_, ?_⟩⟩
    · intro m x hx
      by_cases hmn : m = n
      · subst hmn
        have hx' : handles.timers m = some x := hx
        rw [hassigned.timers, Function.update_self, Option.some.injEq] at hx'
        exact ⟨hn, fun p hp => (htimer p (hx'.trans hp)).2⟩
      · have hx' : handles.timers m = some x := hx
        rw [hassigned.timers, Function.update_of_ne hmn] at hx'
        obtain ⟨hm, hlt⟩ := h.timers m x hx'
        exact ⟨(hassigned.lt_iff m).mpr (.inr hm), fun p hp => Nat.lt_of_lt_of_le (hlt p hp) hnext⟩
    · have hout := hassigned.out_eq hkeeps
      show handles.timerCount = free'.length + (out + 1)
      omega
    · rintro m hm ⟨p, hp, hpp⟩
      obtain ⟨hmem, hsame⟩ := hassigned.of_mem hm
      have hp' : t.handles.timers m = some (some p) := hsame.symm.trans hp
      exact hfree m hmem ⟨p, hp', (hpend p ((h.timers m _ hp').2 p rfl)).mp hpp⟩
  · intro hfull
    have hempty : t.handles.stackIndex ≤ 0 := by omega
    rw [indexWritten, if_pos hempty]
    congr 1
    omega

/-! ## Runs -/

variable {ops : List (Op κ)}

/-- The bound for the beginnings of a run, one operation later. -/
theorem forall_prefix_cons {op : Op κ} :
    (∀ pre, pre <+: op :: ops → out + added pre ≤ 65536 + deleted pre) ↔
      out ≤ 65536 ∧ ∀ pre, pre <+: ops →
        out + added (op :: pre) ≤ 65536 + deleted (op :: pre) := by
  constructor
  · intro h
    refine ⟨h [] List.nil_prefix, fun pre hpre => h _ ?_⟩
    exact List.prefix_cons_inj op |>.mpr hpre
  · rintro ⟨hout, h⟩ pre hpre
    rcases List.prefix_cons_iff.mp hpre with rfl | ⟨pre', rfl, hpre'⟩
    · exact hout
    · exact h pre' hpre'

/-- **From any tables on** the entries suffice exactly as long as not more handles are out. -/
theorem Tables.enough_iff (h : Tables t out) (hasked : ForPending t ops) :
    InTables t ops ↔ ∀ pre, pre <+: ops → out + added pre ≤ 65536 + deleted pre := by
  induction ops generalizing t out with
  | nil =>
    refine iff_of_true trivial ?_
    intro pre hpre
    rw [List.prefix_nil.mp hpre]
    exact h.out_le
  | cons op ops ih =>
    obtain ⟨hdelete, hrest⟩ := hasked
    rw [forall_prefix_cons, and_iff_right h.out_le, InTables]
    cases op with
    | add timeout handler =>
      obtain ⟨hroom, hfull⟩ := h.add timeout handler
      have hcount : ∀ pre : List (Op κ), added (.add timeout handler :: pre) = added pre + 1 ∧
          deleted (.add timeout handler :: pre) = deleted pre :=
        fun pre => ⟨List.countP_cons_of_pos rfl, List.countP_cons_of_neg (by simp [Op.deletes])⟩
      simp only [fun pre => (hcount pre).1, fun pre => (hcount pre).2]
      by_cases hout : out < 65536
      · obtain ⟨n, t', hindex, hn, hstep, ht'⟩ := hroom hout
        simp only [hindex, hstep, Option.some.injEq, forall_eq', hn, true_and]
        rw [ih ht' (hrest t' hstep)]
        exact forall₂_congr fun pre _ => by omega
      · refine iff_of_false ?_ ?_
        · intro hin
          exact absurd (hin.1 65536 (hfull hout)) (Nat.lt_irrefl _)
        · intro hall
          have hnow := hall [] List.nil_prefix
          simp only [added, deleted, List.countP_nil] at hnow
          omega
    | delete n =>
      obtain ⟨hpos, hindex, t', hstep, ht'⟩ := h.delete (hdelete n rfl)
      have hcount : ∀ pre : List (Op κ), added (.delete n :: pre) = added pre ∧
          deleted (.delete n :: pre) = deleted pre + 1 :=
        fun pre => ⟨List.countP_cons_of_neg (by simp [Op.adds]), List.countP_cons_of_pos rfl⟩
      simp only [fun pre => (hcount pre).1, fun pre => (hcount pre).2]
      simp only [indexWritten, hstep, Option.some.injEq, forall_eq', hindex, true_and]
      rw [ih ht' (hrest t' hstep)]
      exact forall₂_congr fun pre _ => by omega
    | tick =>
      obtain ⟨t', hstep, ht'⟩ := h.tick
      have hcount : ∀ pre : List (Op κ), added (.tick :: pre) = added pre ∧
          deleted (.tick :: pre) = deleted pre :=
        fun pre => ⟨List.countP_cons_of_neg (by simp [Op.adds]),
          List.countP_cons_of_neg (by simp [Op.deletes])⟩
      simp only [fun pre => (hcount pre).1, fun pre => (hcount pre).2]
      simp only [indexWritten, hstep, Option.some.injEq, forall_eq', true_and, reduceCtorEq,
        false_implies, implies_true]
      rw [ih ht' (hrest t' hstep)]

/-- Any run of a new `Timer` in which each deletion is of the handle of a pending timer: every entry
that is written in `timers[]` and `stack[]` is one of the 65536 if and only if at no time more than
65536 timers more have been added than deleted. -/
theorem inTables_iff (hasked : ForPending Timer.new ops) :
    InTables Timer.new ops ↔ ∀ pre, pre <+: ops → added pre ≤ 65536 + deleted pre := by
  have hiff := tables_new.enough_iff hasked
  simpa only [Nat.zero_add] using hiff

/-- A timer is added, deleted through its handle, and another one added under the same handle. -/
theorem inTables_iff_run :
    InTables Timer.new [.add 3 (), .delete 0, .add 5 ()] ↔
      ∀ pre, pre <+: [.add 3 (), .delete 0, .add 5 ()] → added pre ≤ 65536 + deleted pre := by
  refine inTables_iff ⟨nofun, fun t ht => ⟨?_, fun t' _ => ⟨nofun, fun _ _ => trivial⟩⟩⟩
  intro n hn
  obtain rfl := Op.delete.inj hn
  obtain rfl := Option.some.inj ht
  exact ⟨0, rfl, _, rfl⟩

/-! ## Timers that fire -/

/-- `n` times a timer is added, and fires. -/
def fires : ℕ → List (Op Unit)
  | 0 => []
  | n + 1 => .add 0 () :: .tick :: .tick :: fires n

theorem added_fires (n : ℕ) : added (fires n) = n ∧ deleted (fires n) = 0 := by
  induction n with
  | zero => exact ⟨rfl, rfl⟩
  | succ n ih =>
    simp only [fires, added, deleted, List.countP_cons, Op.adds, Op.deletes] at ih ⊢
    simp [ih]

theorem forPending_fires (n : ℕ) (t : Timer Unit) : ForPending t (fires n) := by
  induction n generalizing t with
  | zero => trivial
  | succ n ih =>
    exact ⟨nofun, fun _ _ => ⟨nofun, fun _ _ => ⟨nofun, fun t' _ => ih t'⟩⟩⟩

theorem step_add_wheel {timeout : ℤ} {handler : κ} (hstep : step t (.add timeout handler) = some t') :
    ∃ timer, t.wheel.addTimer timeout handler = some (timer, t'.wheel) := by
  obtain ⟨⟨r, t₁⟩, hadd, rfl⟩ := Option.map_eq_some_iff.mp hstep
  obtain ⟨⟨timer, wheel⟩, hwheel, hrest⟩ := Option.bind_eq_some_iff.mp hadd
  obtain ⟨⟨r', handles⟩, -, heq⟩ := Option.bind_eq_some_iff.mp hrest
  obtain ⟨-, rfl⟩ := Prod.mk.inj (Option.some.inj heq)
  exact ⟨timer, hwheel⟩

theorem step_tick_wheel (hstep : step t .tick = some t') :
    ∃ calls, t.wheel.tick inert = some (t'.wheel, calls) := by
  obtain ⟨⟨wheel, calls⟩, htick, rfl⟩ := Option.map_eq_some_iff.mp hstep
  exact ⟨calls, htick⟩

/-- Where no timer is pending but `p`, at most one is. -/
theorem length_le_one {w : TimeWheel κ} {p : ℕ} (hp : ∀ q, w.Pending q → q = p) {l : List ℕ}
    (hnodup : l.Nodup) (hl : ∀ q ∈ l, w.Pending q) : l.length ≤ 1 := by
  have hsub : l ⊆ [p] := fun q hq => List.mem_singleton.mpr (hp q (hl q hq))
  exact (hnodup.subperm hsub).length_le

theorem succ_ne_self (s : Fin 60) : s + 1 ≠ s := by
  intro heq
  have hval := congrArg Fin.val heq
  rw [Fin.val_add] at hval
  have hlt := s.isLt
  simp only [Fin.val_one] at hval
  omega

/-- A timer without a timeout goes to the next slot. -/
theorem newData_zero (w : TimeWheel κ) (callback : κ) :
    (newData w 0 callback).timeSlot = w.curSlot + 1 ∧
      (newData w 0 callback).rotation = 0 := by
  refine ⟨Fin.ext ?_, rfl⟩
  simp [newData, Fin.val_add]

/-- A timer that is added to a wheel without timers is the only one, and has fired two ticks
later. -/
theorem pending_fires {w w₁ : TimeWheel Unit} {lists : Fin 60 → List ℕ} {timer : Option ℕ}
    (hw : WellLinked w lists) (hnone : ∀ q, ¬ w.Pending q)
    (hadd : w.addTimer 0 () = some (timer, w₁)) :
    (∀ q, w₁.Pending q → q = w.mem.next) ∧ ∀ w₂ calls₁, w₁.tick inert = some (w₂, calls₁) →
      (∀ q, w₂.Pending q → q = w.mem.next) ∧ ∀ w₃ calls₂, w₂.tick inert = some (w₃, calls₂) →
        (∀ q, ¬ w₃.Pending q) ∧ ∃ lists', WellLinked w₃ lists' := by
  obtain ⟨v₁, hadd', hw₁, hcur₁, -, hself, hother⟩ := addTimer_spec hw (Int.le_refl 0) ()
  obtain ⟨-, rfl⟩ := Prod.mk.inj (Option.some.inj (hadd'.symm.trans hadd))
  have hone₁ : ∀ q, v₁.Pending q → q = w.mem.next := by
    intro q hq
    by_contra hne
    rw [pending_iff_data, hother q hne, ← pending_iff_data] at hq
    exact hnone q hq
  refine ⟨hone₁, ?_⟩
  intro w₂ calls₁ htick₁
  obtain ⟨v₂, htick₁', hcur₂, -, hw₂, hdata₂⟩ := tick_spec hw₁
  obtain ⟨rfl, -⟩ := Prod.mk.inj (Option.some.inj (htick₁'.symm.trans htick₁))
  have hone₂ : ∀ q, v₂.Pending q → q = w.mem.next := fun q hq =>
    hone₁ q (pending_of_tick hdata₂ hq)
  refine ⟨hone₂, ?_⟩
  intro w₃ calls₂ htick₂
  obtain ⟨v₃, htick₂', -, -, hw₃, hdata₃⟩ := tick_spec hw₂
  obtain ⟨rfl, -⟩ := Prod.mk.inj (Option.some.inj (htick₂'.symm.trans htick₂))
  refine ⟨?_, _, hw₃⟩
  intro q hq
  obtain rfl := hone₂ q (pending_of_tick hdata₃ hq)
  obtain ⟨hslot, hrotation⟩ := newData_zero w ()
  have hnot : w.mem.next ∉ lists w.curSlot := fun hmem => by
    obtain ⟨timer, hcell, -⟩ := hw.cell hmem
    exact hnone _ ⟨timer, hcell⟩
  rw [hslot, hcur₁] at hdata₂ hdata₃
  -- the first tick is about another slot
  have hdata : v₂.data w.mem.next = some (newData w 0 ()) := by
    rw [hdata₂, Function.update_of_ne (succ_ne_self _).symm, if_neg hnot, hself]
  have hgone : v₃.data w.mem.next = none := by
    rw [hdata₃, hcur₂, hcur₁, Function.update_of_ne (succ_ne_self _), Function.update_self,
      if_pos List.mem_cons_self, hdata, Option.bind_some, ticked, hrotation, if_neg (lt_irrefl 0)]
  rw [pending_iff_data, hgone] at hq
  exact absurd hq (by simp)

/-- At most one of these timers is pending at any time. -/
theorem fewPending_fires (n : ℕ) {t : Timer Unit} (hw : ∃ lists, WellLinked t.wheel lists)
    (hnone : ∀ q, ¬ t.wheel.Pending q) : FewPending 1 t (fires n) := by
  have hnow : ∀ l : List ℕ, l.Nodup → (∀ p ∈ l, t.wheel.Pending p) → l.length ≤ 1 :=
    fun l => length_le_one (p := 0) fun q hq => absurd hq (hnone q)
  induction n generalizing t with
  | zero => exact ⟨hnow, trivial⟩
  | succ n ih =>
    obtain ⟨lists, hlists⟩ := hw
    refine ⟨hnow, ?_⟩
    intro t₁ hstep₁
    obtain ⟨timer, hadd⟩ := step_add_wheel hstep₁
    obtain ⟨hone₁, hticks⟩ := pending_fires hlists hnone hadd
    refine ⟨fun l => length_le_one hone₁, ?_⟩
    intro t₂ hstep₂
    obtain ⟨calls₁, htick₁⟩ := step_tick_wheel hstep₂
    obtain ⟨hone₂, hticks'⟩ := hticks _ _ htick₁
    refine ⟨fun l => length_le_one hone₂, ?_⟩
    intro t₃ hstep₃
    obtain ⟨calls₂, htick₂⟩ := step_tick_wheel hstep₃
    obtain ⟨hnone₃, hw₃⟩ := hticks' _ _ htick₂
    exact ih hw₃ hnone₃ fun l => length_le_one (p := 0) fun q hq => absurd hq (hnone₃ q)

/-- 65537 timers fire one after the other, and the last one is stored behind `timers[]`. -/
theorem fires_not_inTables :
    ForPending Timer.new (fires 65537) ∧ FewPending 1 Timer.new (fires 65537) ∧
      ¬ InTables Timer.new (fires 65537) := by
  have hnone : ∀ q, ¬ (Timer.new : Timer Unit).wheel.Pending q := by
    rintro q ⟨timer, hcell⟩
    exact absurd hcell (by simp [Timer.new, TimeWheel.new, Store.empty])
  have hasked := forPending_fires 65537 Timer.new
  refine ⟨hasked, fewPending_fires 65537 ⟨_, wellLinked_new⟩ hnone, ?_⟩
  intro hin
  have hall := (tables_new.enough_iff hasked).mp hin _ (List.prefix_refl _)
  obtain ⟨hadded, hdeleted⟩ := added_fires 65537
  rw [hadded, hdeleted] at hall
  omega

end OverWheel
end Timers
end CModel
