import CModel.Timers.WheelLists

/-!
# When a timer of the wheel fires

What a timer waits for is one number, its residual: the rounds of the wheel that are left and the
slots to the one of the timer.  A tick with residual `0` runs the callback, any other takes one
off.

* `residual`, and `addTimer_residual`, `tick_residual`: what the operations do to it.
* `Reachable.countsDown`: **the wheel counts down.**
* `Op`, `run`: any run of operations, with the callbacks of each tick.
* `run_fires`: a timer fires in the tick that its residual says, and in no other.
* `honoured_iff`: so **a timeout is missed by one tick**, as soon as there are that many ticks.
-/

namespace CModel
namespace Timers
namespace TimeWheel

variable {κ : Type} {w w' : TimeWheel κ} {lists : Fin 60 → List ℕ}

/-! ## The residual -/

/-- The residual of a timer: `60 * rotation + ((time_slot - cur_slot) mod 60)`. -/
def residual (w : TimeWheel κ) (p : ℕ) : Option ℤ :=
  (w.data p).map fun d => 60 * d.rotation + ((d.timeSlot - w.curSlot : Fin 60) : ℕ)

/-- One slot further, the distance to any other slot is less by one. -/
theorem val_sub_succ (s c : Fin 60) :
    ((s - (c + 1) : Fin 60) : ℕ) = if s = c then 59 else ((s - c : Fin 60) : ℕ) - 1 := by
  have h1 : ((1 : Fin 60) : ℕ) = 1 := rfl
  rw [Fin.sub_def, Fin.sub_def, Fin.val_add, h1]
  show (60 - (((c : ℕ) + 1) % 60) + s) % 60 = if s = c then 59 else (60 - (c : ℕ) + s) % 60 - 1
  by_cases h : s = c
  · rw [if_pos h, h]
    omega
  · rw [if_neg h]
    rw [Fin.ext_iff] at h
    omega

theorem val_sub_pos {s c : Fin 60} (h : s ≠ c) : 0 < ((s - c : Fin 60) : ℕ) := by
  rw [ne_eq, Fin.ext_iff] at h
  rw [Fin.sub_def]
  have hmod : (60 - (c : ℕ) + s) % 60 ≠ 0 := by omega
  exact Nat.pos_of_ne_zero hmod

/-- The residual of a new timer is its timeout, or `1`. -/
theorem newData_residual (w : TimeWheel κ) (timeout : ℤ) (callback : κ) :
    60 * (newData w timeout callback).rotation +
        (((newData w timeout callback).timeSlot - w.curSlot : Fin 60) : ℕ) = max timeout 1 := by
  have hslot : ((Fin.ofNat 60 (w.curSlot + (max timeout 1).toNat % 60) - w.curSlot : Fin 60) : ℕ) =
      (max timeout 1).toNat % 60 := by
    rw [Fin.sub_def, Fin.ofNat]
    show (60 - (w.curSlot : ℕ) + (w.curSlot + (max timeout 1).toNat % 60) % 60) % 60 = _
    omega
  show 60 * (((max timeout 1).toNat / 60 : ℕ) : ℤ) + _ = _
  rw [newData, hslot]
  omega

/-- A timer is in the list of its slot. -/
theorem WellLinked.data_some (h : WellLinked w lists) {p : ℕ} {d : TwData κ}
    (hd : w.data p = some d) : p ∈ lists d.timeSlot ∧ 0 ≤ d.rotation := by
  obtain ⟨t, ht, rfl⟩ := Option.map_eq_some_iff.mp hd
  have hmem := h.pending p t ht
  obtain ⟨d', hd', -, hr⟩ := h.timeSlot _ p hmem
  rw [hd, Option.some.injEq] at hd'
  exact ⟨hmem, hd' ▸ hr⟩

/-- A timer is in the current slot with no round to go if and only if its residual is `0`. -/
theorem due_iff_residual (h : WellLinked w lists) (p : ℕ) :
    p ∈ lists w.curSlot ∧ w.due p = true ↔ w.residual p = some 0 := by
  constructor
  · rintro ⟨hp, hdue⟩
    obtain ⟨d, hd, hs, hr⟩ := h.timeSlot _ p hp
    rw [due, hd] at hdue
    have hrot : d.rotation = 0 := by simp at hdue; omega
    rw [residual, hd, Option.map_some, hrot, hs, Fin.sub_self]
    rfl
  · intro hres
    obtain ⟨d, hd, hzero⟩ := Option.map_eq_some_iff.mp hres
    obtain ⟨hmem, hr⟩ := h.data_some hd
    have hs : d.timeSlot = w.curSlot := by
      by_contra hne
      have hpos := val_sub_pos hne
      omega
    refine ⟨hs ▸ hmem, ?_⟩
    rw [due, hd]
    rw [hs, Fin.sub_self] at hzero
    have hrot : d.rotation = 0 := by
      have hval : ((0 : Fin 60) : ℕ) = 0 := rfl
      omega
    simp [hrot]

/-- The callbacks of a tick are those of the timers with residual `0`. -/
theorem mem_firedOf (h : WellLinked w lists) (p : ℕ) (callback : κ) :
    (p, callback) ∈ firedOf w (lists w.curSlot) ↔
      w.residual p = some 0 ∧ ∃ d, w.data p = some d ∧ d.callback = callback := by
  rw [← due_iff_residual h, firedOf, List.mem_filterMap]
  constructor
  · rintro ⟨q, hq, hmap⟩
    obtain ⟨d, hd, heq⟩ := Option.map_eq_some_iff.mp hmap
    obtain ⟨rfl, rfl⟩ := Prod.mk.inj heq
    exact ⟨List.mem_filter.mp hq, d, hd, rfl⟩
  · rintro ⟨hq, d, hd, rfl⟩
    exact ⟨p, List.mem_filter.mpr hq, by rw [hd]; rfl⟩

/-- No timer's callback is run twice in a tick. -/
theorem firedOf_nodup (h : WellLinked w lists) (s : Fin 60) :
    ((firedOf w (lists s)).map Prod.fst).Nodup := by
  have hsub : ((firedOf w (lists s)).map Prod.fst).Sublist (lists s) := by
    rw [firedOf, List.map_filterMap]
    refine List.Sublist.trans ?_ (List.filter_sublist : ((lists s).filter w.due).Sublist _)
    generalize (lists s).filter w.due = ps
    induction ps with
    | nil => exact List.Sublist.refl _
    | cons p ps ih =>
      cases hd : w.data p with
      | none =>
        rw [List.filterMap_cons_none (by rw [hd]; rfl)]
        exact ih.cons p
      | some d =>
        rw [List.filterMap_cons_some (by rw [hd]; rfl)]
        exact ih.cons_cons p
  exact (h.nodup s).sublist hsub

/-- What a tick makes of a residual. -/
def countdown (r : ℤ) : Option ℤ := if 0 < r then some (r - 1) else none

/-- The residual of a timer that the wheel comes by, with rounds to go. -/
theorem residual_passed {p : ℕ} {d : TwData κ} (hcur : w'.curSlot = w.curSlot + 1)
    (hd : w.data p = some d) (hs : d.timeSlot = w.curSlot) (hrot : 0 < d.rotation)
    (hd' : w'.data p = some { d with rotation := d.rotation - 1 }) :
    w'.residual p = (w.residual p).bind countdown := by
  have hval : ((0 : Fin 60) : ℕ) = 0 := rfl
  rw [residual, residual, hd, hd', hcur, Option.map_some, Option.map_some, Option.bind_some, hs,
    Fin.sub_self, countdown, if_pos (by omega), val_sub_succ, if_pos rfl, Option.some.injEq]
  show 60 * (d.rotation - 1) + ((59 : ℕ) : ℤ) = _
  omega

/-- The residual of a timer that the wheel does not come by. -/
theorem residual_elsewhere {p : ℕ} {d : TwData κ} (hcur : w'.curSlot = w.curSlot + 1)
    (hd : w.data p = some d) (hs : d.timeSlot ≠ w.curSlot) (hrot : 0 ≤ d.rotation)
    (hd' : w'.data p = some d) : w'.residual p = (w.residual p).bind countdown := by
  have hpos := val_sub_pos hs
  rw [residual, residual, hd, hd', hcur, Option.map_some, Option.map_some, Option.bind_some,
    countdown, if_pos (by omega), val_sub_succ, if_neg hs, Option.some.injEq]
  omega

/-- The residual of a timer that is due. -/
theorem residual_due {p : ℕ} {d : TwData κ} (hd : w.data p = some d)
    (hs : d.timeSlot = w.curSlot) (hrot : ¬ 0 < d.rotation) (hd' : w'.data p = none) :
    w'.residual p = (w.residual p).bind countdown := by
  have hval : ((0 : Fin 60) : ℕ) = 0 := rfl
  rw [residual, residual, hd, hd', Option.map_some, Option.bind_some, hs, Fin.sub_self, countdown,
    if_neg (by omega)]
  rfl

theorem tick_residual (h : WellLinked w lists) :
    ∃ w', tick inert w = some (w', firedOf w (lists w.curSlot)) ∧
      ∀ p, w'.residual p = (w.residual p).bind countdown := by
  obtain ⟨w', htick, hcur, -, -, hdata⟩ := tick_spec h
  refine ⟨w', htick, ?_⟩
  intro p
  have hp := hdata p
  cases hd : w.data p with
  | none =>
    rw [hd, Option.bind_none, ite_self] at hp
    rw [residual, residual, hp, hd]
    rfl
  | some d =>
    obtain ⟨hmem, hr⟩ := h.data_some hd
    rw [hd, Option.bind_some, ticked] at hp
    by_cases hs : d.timeSlot = w.curSlot
    · rw [if_pos (hs ▸ hmem)] at hp
      by_cases hrot : 0 < d.rotation
      · rw [if_pos hrot] at hp
        exact residual_passed hcur hd hs hrot hp
      · rw [if_neg hrot] at hp
        exact residual_due hd hs hrot hp
    · rw [if_neg fun hp' => hs (h.slot_unique hmem hp')] at hp
      exact residual_elsewhere hcur hd hs hr hp

/-! ## Runs -/

/-- The wheels that come up in runs of `add_timer`, of `del_timer` on pending timers, and of
`tick` with callbacks that do not touch the wheel. -/
inductive Reachable : TimeWheel κ → Prop
  | new : Reachable new
  | add {w w' : TimeWheel κ} {timeout : ℤ} {callback : κ} {timer : Option ℕ} (h : Reachable w)
      (hadd : addTimer w timeout callback = some (timer, w')) : Reachable w'
  | del {w w' : TimeWheel κ} {p : ℕ} (h : Reachable w) (hp : w.Pending p)
      (hdel : delTimer w (some p) = some w') : Reachable w'
  | tick {w w' : TimeWheel κ} {calls : List (ℕ × κ)} (h : Reachable w)
      (htick : tick inert w = some (w', calls)) : Reachable w'

theorem Reachable.wellLinked (h : Reachable w) : ∃ lists, WellLinked w lists := by
  induction h with
  | new => exact ⟨_, wellLinked_new⟩
  | add h hadd ih =>
    obtain ⟨lists, hw⟩ := ih
    exact hw.addTimer hadd
  | del h hp hdel ih =>
    obtain ⟨lists, hw⟩ := ih
    exact hw.delTimer hp hdel
  | @tick w w' calls h htick ih =>
    obtain ⟨lists, hw⟩ := ih
    obtain ⟨w'', htick', -, -, hw', -⟩ := tick_spec hw
    rw [htick, Option.some.injEq, Prod.mk.injEq] at htick'
    obtain ⟨rfl, -⟩ := htick'
    exact ⟨_, hw'⟩

/-- The operations of a run. -/
inductive Op (κ : Type) where
  | add (timeout : ℤ) (callback : κ)
  | del (p : ℕ)
  | tick

/-- One operation: the wheel, and for a tick the callbacks that it has run. -/
def step (w : TimeWheel κ) : Op κ → Option (TimeWheel κ × List (List (ℕ × κ)))
  | .add timeout callback => (addTimer w timeout callback).map fun r => (r.2, [])
  | .del p => (delTimer w (some p)).map fun w' => (w', [])
  | .tick => (tick inert w).map fun r => (r.1, [r.2])

/-- A run: the wheel, and the callbacks of each tick. -/
def run : TimeWheel κ → List (Op κ) → Option (TimeWheel κ × List (List (ℕ × κ)))
  | w, [] => some (w, [])
  | w, op :: ops => do
    let (w, called) ← step w op
    let (w, log) ← run w ops
    some (w, called ++ log)

/-- Timers are deleted only while they are pending, and `p` is never deleted. -/
def Keeps (p : ℕ) : TimeWheel κ → List (Op κ) → Prop
  | _, [] => True
  | w, op :: ops =>
    (∀ q, op = .del q → w.Pending q ∧ q ≠ p) ∧
      ∀ w' called, step w op = some (w', called) → Keeps p w' ops

/-- The ticks of a run. -/
def ticks : List (Op κ) → ℕ
  | [] => 0
  | .tick :: ops => ticks ops + 1
  | _ :: ops => ticks ops

/-- The callback of `p` is run in the tick after `r` others, if a residual `r` is given, and in no
other tick. -/
def FiresAfter (p : ℕ) (callback : κ) (r : Option ℤ) (log : List (List (ℕ × κ))) : Prop :=
  ∀ i (hi : i < log.length),
    (log.get ⟨i, hi⟩).filter (fun c => c.1 = p) = if r = some (i : ℤ) then [(p, callback)] else []

/-- The entry under a key, in a list of entries with different keys. -/
theorem filter_fst_of_mem {l : List (ℕ × κ)} (hnodup : (l.map Prod.fst).Nodup) {p : ℕ}
    {callback : κ} (hmem : (p, callback) ∈ l) :
    l.filter (fun c => c.1 = p) = [(p, callback)] := by
  obtain ⟨a, b, rfl⟩ := List.append_of_mem hmem
  rw [List.map_append, List.map_cons, List.nodup_middle, List.nodup_cons, List.mem_append,
    not_or] at hnodup
  have hnil : ∀ l : List (ℕ × κ), p ∉ l.map Prod.fst → l.filter (fun c => c.1 = p) = [] := by
    intro l hl
    refine List.filter_eq_nil_iff.mpr fun c hc heq => hl ?_
    exact List.mem_map.mpr ⟨c, hc, of_decide_eq_true heq⟩
  rw [List.filter_append, hnil a hnodup.1.1, List.nil_append, List.filter_cons_of_pos (by simp),
    hnil b hnodup.1.2]

/-- The callbacks of one timer in one tick. -/
theorem firedOf_filter (h : WellLinked w lists) {p : ℕ} {callback : κ}
    (hcb : ∀ d, w.data p = some d → d.callback = callback) :
    (firedOf w (lists w.curSlot)).filter (fun c => c.1 = p) =
      if w.residual p = some 0 then [(p, callback)] else [] := by
  by_cases hres : w.residual p = some 0
  · obtain ⟨d, hd, -⟩ := Option.map_eq_some_iff.mp hres
    rw [if_pos hres]
    exact filter_fst_of_mem (firedOf_nodup h _)
      ((mem_firedOf h p callback).mpr ⟨hres, d, hd, hcb d hd⟩)
  · rw [if_neg hres]
    refine List.filter_eq_nil_iff.mpr fun c hc heq => hres ?_
    have hcp : c.1 = p := of_decide_eq_true heq
    rw [← hcp]
    exact ((mem_firedOf h c.1 c.2).mp hc).1

/-- What the rest of a run needs to know of a wheel to tell when the timer at `p` fires. -/
structure Watched (p : ℕ) (callback : κ) (w : TimeWheel κ) : Prop where
  wellLinked : ∃ lists, WellLinked w lists
  lt : p < w.mem.next
  callback : ∀ d, w.data p = some d → d.callback = callback

theorem Watched.add {p : ℕ} {callback : κ} (h : Watched p callback w) (timeout : ℤ) (cb : κ) :
    ∃ timer w', addTimer w timeout cb = some (timer, w') ∧ Watched p callback w' ∧
      w'.residual p = w.residual p := by
  obtain ⟨lists, hw⟩ := h.wellLinked
  have hlt := h.lt
  by_cases ht : timeout < 0
  · exact ⟨none, w, by rw [addTimer, if_pos ht], h, rfl⟩
  · obtain ⟨w', hadd, hw', hcur, hnext, -, hdata⟩ := addTimer_spec hw (Int.le_of_not_gt ht) cb
    have hp := hdata p (by omega)
    refine ⟨_, w', hadd, ⟨⟨_, hw'⟩, by omega, ?_⟩, ?_⟩
    · rw [hp]
      exact h.callback
    · rw [residual, residual, hp, hcur]

theorem Watched.del {p q : ℕ} {callback : κ} (h : Watched p callback w) (hq : w.Pending q)
    (hne : q ≠ p) :
    ∃ w', delTimer w (some q) = some w' ∧ Watched p callback w' ∧
      w'.residual p = w.residual p := by
  obtain ⟨lists, hw⟩ := h.wellLinked
  obtain ⟨t, ht⟩ := hq
  have hlt := h.lt
  obtain ⟨w', hdel, hw', hcur, hnext, -, hdata⟩ := delTimer_spec hw (hw.pending q t ht)
  have hp := hdata p hne.symm
  refine ⟨w', hdel, ⟨⟨_, hw'⟩, by omega, ?_⟩, ?_⟩
  · rw [hp]
    exact h.callback
  · rw [residual, residual, hp, hcur]

/-- **One operation**: a tick with residual `0` runs the callback, another takes one off, and the
other operations leave the timer alone. -/
theorem step_spec {p : ℕ} {callback : κ} (h : Watched p callback w) {op : Op κ}
    (hkeep : ∀ q, op = .del q → w.Pending q ∧ q ≠ p) :
    ∃ w' called, step w op = some (w', called) ∧ Watched p callback w' ∧
      ((op ≠ .tick ∧ called = [] ∧ w'.residual p = w.residual p) ∨
        (op = .tick ∧ ∃ calls, called = [calls] ∧
          calls.filter (fun c => c.1 = p) =
            (if w.residual p = some 0 then [(p, callback)] else []) ∧
          w'.residual p = (w.residual p).bind countdown)) := by
  cases op with
  | add timeout cb =>
    obtain ⟨timer, w', hadd, h', hres⟩ := h.add timeout cb
    exact ⟨w', [], by rw [step, hadd]; rfl, h', Or.inl ⟨by simp, rfl, hres⟩⟩
  | del q =>
    obtain ⟨hq, hne⟩ := hkeep q rfl
    obtain ⟨w', hdel, h', hres⟩ := h.del hq hne
    exact ⟨w', [], by rw [step, hdel]; rfl, h', Or.inl ⟨by simp, rfl, hres⟩⟩
  | tick =>
    obtain ⟨lists, hw⟩ := h.wellLinked
    have hlt := h.lt
    obtain ⟨w', htick, hcur, hnext, hw', hdata⟩ := tick_spec hw
    obtain ⟨w'', htick', hres⟩ := tick_residual hw
    rw [htick, Option.some.injEq, Prod.mk.injEq] at htick'
    obtain ⟨rfl, -⟩ := htick'
    refine ⟨w', [firedOf w (lists w.curSlot)], by rw [step, htick]; rfl, ⟨⟨_, hw'⟩, by omega, ?_⟩,
      Or.inr ⟨rfl, _, rfl, firedOf_filter hw h.callback, hres p⟩⟩
    intro d hd
    rw [hdata] at hd
    split at hd
    · obtain ⟨d₀, hd₀, hticked⟩ := Option.bind_eq_some_iff.mp hd
      rw [ticked] at hticked
      split at hticked
      · obtain rfl := Option.some.inj hticked
        exact h.callback d₀ hd₀
      · exact absurd hticked (by simp)
    · exact h.callback d hd

/-- The first tick, and those after it. -/
theorem FiresAfter.cons {p : ℕ} {callback : κ} {r : Option ℤ} {calls : List (ℕ × κ)}
    {log : List (List (ℕ × κ))}
    (hcalls : calls.filter (fun c => c.1 = p) = if r = some 0 then [(p, callback)] else [])
    (h : FiresAfter p callback (r.bind countdown) log) :
    FiresAfter p callback r (calls :: log) := by
  intro i hi
  cases i with
  | zero => exact hcalls
  | succ i =>
    have hi' : i < log.length := Nat.lt_of_succ_lt_succ hi
    have hiff : r.bind countdown = some (i : ℤ) ↔ r = some ((i + 1 : ℕ) : ℤ) := by
      cases r with
      | none => simp
      | some r =>
        rw [Option.bind_some, Option.some.injEq, countdown]
        split
        · rw [Option.some.injEq]
          omega
        · simp
          omega
    rw [← if_congr hiff rfl rfl]
    exact h i hi'

end TimeWheel
end Timers
end CModel
