import CModel.Timers.WheelCallbacks
import CModel.Timers.WheelCountdown

/-!
# When a timer fires that a callback has added

While `tick` runs, `cur_slot` is still the slot that is walked.  A timer that a callback adds then
is one slot nearer after the tick than one that is added between ticks, so it fires in time; but if
its timeout is a multiple of `60` its slot is the walked one, and it has to wait for one round more.

* `SafeTick.residual`: the countdown, with callbacks that use the wheel.
* `Move`, `moveRun`: any run of operations, each tick with its callbacks.
* `moveRun_fires`: a timer fires in the tick that its residual says, and in no other.
* `rearmed_iff`: **a timeout that a callback sets is honoured unless it is a multiple of `60`.**
-/

namespace CModel
namespace Timers
namespace TimeWheel

variable {κ : Type} {w w' : TimeWheel κ} {lists : Fin 60 → List ℕ} {es : List (Event κ)}

/-- A run without callbacks that use the wheel is one with such callbacks. -/
theorem Reachable.reached (h : Reachable w) : Reached w := by
  induction h with
  | new => exact .new
  | add _ hadd ih => exact .add ih hadd
  | del _ hp hdel ih => exact .del ih hp hdel
  | @tick w w' calls _ htick ih =>
    have hb : Behaves (fun _ _ => []) w := loopBehaves_of_adds (by simp) _ _ _
    exact .tick ih hb htick

/-! ## One tick -/

theorem mem_eventsOf_self {e : Event κ} (he : e ∈ es) : e ∈ eventsOf e.timer es := by
  simpa [eventsOf] using he

theorem mem_of_mem_eventsOf {e : Event κ} {p : ℕ} (he : e ∈ eventsOf p es) : e ∈ es :=
  List.mem_of_mem_filter he

/-- The callbacks of one timer are in its events. -/
theorem callsOf_eventsOf (p : ℕ) (es : List (Event κ)) :
    (callsOf es).filter (fun c => c.1 = p) = callsOf (eventsOf p es) := by
  induction es with
  | nil => rfl
  | cons e es ih =>
    have hcons : callsOf (e :: es) = e.call.toList ++ callsOf es := by
      cases e <;> rfl
    have hone : e.call.toList.filter (fun c => c.1 = p) = callsOf (eventsOf p [e]) := by
      cases e with
      | called q c =>
        by_cases hq : q = p <;> simp [Event.call, callsOf, eventsOf, Event.timer, hq]
      | _ q => by_cases hq : q = p <;> simp [Event.call, callsOf, eventsOf, Event.timer, hq]
    rw [hcons, List.filter_append, ih, hone, ← callsOf_append, ← eventsOf_append]
    rfl

/-- **The countdown** of a timer that is not deleted, with callbacks that use the wheel. -/
theorem SafeTick.residual (h : SafeTick w w' es) (hw : WellLinked w lists) {p : ℕ} {callback : κ}
    (hp : p < w.mem.next) (hcb : ∀ d, w.data p = some d → d.callback = callback)
    (hkeep : .deleted p ∉ es) :
    (callsOf es).filter (fun c => c.1 = p) =
        (if w.residual p = some 0 then [(p, callback)] else []) ∧
      w'.residual p = (w.residual p).bind countdown ∧
      ∀ d, w'.data p = some d → d.callback = callback := by
  have hkeep' : .deleted p ∉ eventsOf p es := hkeep ∘ mem_of_mem_eventsOf
  have hval : ((0 : Fin 60) : ℕ) = 0 := rfl
  rw [callsOf_eventsOf]
  cases hd : w.data p with
  | none =>
    have hres : w.residual p = none := by rw [TimeWheel.residual, hd]; rfl
    rcases h.created p hd with ⟨hnil, hd'⟩ | ⟨_, _, hle, -⟩
    · rw [hnil, hres, TimeWheel.residual, hd']
      exact ⟨by simp [callsOf], rfl, fun d hd => by cases hd⟩
    · omega
  | some d =>
    obtain ⟨hmem, hr⟩ := hw.data_some hd
    by_cases hs : d.timeSlot = w.curSlot
    · by_cases hrot : 0 < d.rotation
      · rcases h.waits p d hd hs hrot with ⟨hpass, hd'⟩ | ⟨hdel, -⟩ | ⟨hdel, -⟩
        · have hres : w.residual p ≠ some 0 := by
            rw [TimeWheel.residual, hd, Option.map_some, ne_eq, Option.some.injEq]
            omega
          rw [hpass, if_neg hres, hd']
          exact ⟨rfl, residual_passed h.curSlot hd hs hrot hd',
            fun d' hd'' => Option.some.inj hd'' ▸ hcb d hd⟩
        · exact absurd (hdel ▸ hkeep') (by simp)
        · exact absurd (hdel ▸ hkeep') (by simp)
      · obtain ⟨hcall | hdel, hd'⟩ := h.due p d hd hs hrot
        · have hres : w.residual p = some 0 := by
            rw [TimeWheel.residual, hd, Option.map_some, hs, Fin.sub_self, Option.some.injEq]
            omega
          rw [hcall, if_pos hres, ← hcb d hd, hd']
          exact ⟨rfl, residual_due hd hs hrot hd', fun d hd => by cases hd⟩
        · exact absurd (hdel ▸ hkeep') (by simp)
    · rcases h.elsewhere p d hd hs with ⟨hnil, hd'⟩ | ⟨hdel, -⟩
      · have hpos := val_sub_pos hs
        have hres : w.residual p ≠ some 0 := by
          rw [TimeWheel.residual, hd, Option.map_some, ne_eq, Option.some.injEq]
          omega
        rw [hnil, if_neg hres, hd']
        exact ⟨rfl, residual_elsewhere h.curSlot hd hs hr hd',
          fun d' hd'' => Option.some.inj hd'' ▸ hcb d hd⟩
      · exact absurd (hdel ▸ hkeep') (by simp)

/-- A timer that a callback has added and none has deleted. -/
theorem SafeTick.of_added (h : SafeTick w w' es) {p : ℕ} {timeout : ℤ} {callback : κ}
    (hadd : .added p timeout callback ∈ es) (hkeep : .deleted p ∉ es) :
    eventsOf p es = [.added p timeout callback] ∧
      w'.data p = some (newData w timeout callback) := by
  have hadd' : .added p timeout callback ∈ eventsOf p es := mem_eventsOf_self hadd
  have hkeep' : .deleted p ∉ eventsOf p es := hkeep ∘ mem_of_mem_eventsOf
  cases hd : w.data p with
  | none =>
    rcases h.created p hd with ⟨hnil, -⟩ | ⟨t, c, -, -, ⟨hes, hd'⟩ | ⟨hes, -⟩⟩
    · rw [hnil] at hadd'
      exact absurd hadd' List.not_mem_nil
    · rw [hes, List.mem_singleton] at hadd'
      obtain ⟨-, rfl, rfl⟩ := Event.added.inj hadd'
      exact ⟨hes, hd'⟩
    · exact absurd (hes ▸ hkeep') (by simp)
  | some d =>
    exfalso
    by_cases hs : d.timeSlot = w.curSlot
    · by_cases hrot : 0 < d.rotation
      · rcases h.waits p d hd hs hrot with ⟨hes, -⟩ | ⟨hes, -⟩ | ⟨hes, -⟩ <;> simp [hes] at hadd'
      · obtain ⟨hes | hes, -⟩ := h.due p d hd hs hrot <;> simp [hes] at hadd'
    · rcases h.elsewhere p d hd hs with ⟨hes, -⟩ | ⟨hes, -⟩ <;> simp [hes] at hadd'

/-! ## Runs -/

/-- The operations of a run, each tick with what its callbacks do. -/
inductive Move (κ : Type) where
  | add (timeout : ℤ) (callback : κ)
  | del (p : ℕ)
  | tick (script : Script κ)

/-- One operation: the wheel, and for a tick what has been done in it. -/
def moveStep (w : TimeWheel κ) : Move κ → Option (TimeWheel κ × List (List (Event κ)))
  | .add timeout callback => (addTimer w timeout callback).map fun r => (r.2, [])
  | .del p => (delTimer w (some p)).map fun w' => (w', [])
  | .tick script => (tickLog script w).map fun r => (r.1, [r.2])

/-- A run: the wheel, and what has been done in each tick. -/
def moveRun : TimeWheel κ → List (Move κ) → Option (TimeWheel κ × List (List (Event κ)))
  | w, [] => some (w, [])
  | w, m :: ms => do
    let (w, done) ← moveStep w m
    let (w, log) ← moveRun w ms
    some (w, done ++ log)

/-- Timers are deleted only while they are pending, the callbacks keep to that as well, and `p` is
never deleted, neither between ticks nor by a callback. -/
def Spares (p : ℕ) : TimeWheel κ → List (Move κ) → Prop
  | _, [] => True
  | w, m :: ms =>
    (∀ q, m = .del q → w.Pending q ∧ q ≠ p) ∧
      (∀ script, m = .tick script → Behaves script w ∧
        ∀ w' es, tickLog script w = some (w', es) → .deleted p ∉ es) ∧
      ∀ w' done, moveStep w m = some (w', done) → Spares p w' ms

/-- The ticks of a run. -/
def tickCount : List (Move κ) → ℕ
  | [] => 0
  | .tick _ :: ms => tickCount ms + 1
  | _ :: ms => tickCount ms

/-- A tick leaves a timer watched that it does not delete. -/
theorem Watched.tick {p : ℕ} {callback : κ} (h : Watched p callback w) {script : Script κ}
    (hb : Behaves script w) (hkeep : ∀ w' es, tickLog script w = some (w', es) → .deleted p ∉ es) :
    ∃ w' es, tickLog script w = some (w', es) ∧ Watched p callback w' ∧
      (callsOf es).filter (fun c => c.1 = p) =
        (if w.residual p = some 0 then [(p, callback)] else []) ∧
      w'.residual p = (w.residual p).bind countdown := by
  obtain ⟨lists, hw⟩ := h.wellLinked
  obtain ⟨w', es, hlog, hsafe⟩ := hw.tickLog_spec hb
  obtain ⟨hcalls, hres, hcb⟩ := hsafe.residual hw h.lt h.callback (hkeep w' es hlog)
  exact ⟨w', es, hlog, ⟨hsafe.lists, h.lt.trans_le hsafe.next, hcb⟩, hcalls, hres⟩

/-- **A timer fires in the tick that its residual says, and in no other**, also with callbacks that
use the wheel, by induction on the run. -/
theorem moveRun_fires {p : ℕ} {callback : κ} {ms : List (Move κ)} (h : Watched p callback w)
    (hspares : Spares p w ms) :
    ∃ w' log, moveRun w ms = some (w', log) ∧ log.length = tickCount ms ∧
      FiresAfter p callback (w.residual p) (log.map callsOf) := by
  induction ms generalizing w with
  | nil => exact ⟨w, [], rfl, rfl, fun i hi => absurd hi (Nat.not_lt_zero i)⟩
  | cons m ms ih =>
    obtain ⟨hdel, htick, hnext⟩ := hspares
    cases m with
    | add timeout cb =>
      obtain ⟨timer, w₁, hadd, h₁, hres⟩ := h.add timeout cb
      have hstep : moveStep w (.add timeout cb) = some (w₁, []) := by rw [moveStep, hadd]; rfl
      obtain ⟨w', log, hrun, hlen, hfires⟩ := ih h₁ (hnext _ _ hstep)
      exact ⟨w', log, by simp [moveRun, hstep, hrun], hlen, hres ▸ hfires⟩
    | del q =>
      obtain ⟨hq, hne⟩ := hdel q rfl
      obtain ⟨w₁, hdel', h₁, hres⟩ := h.del hq hne
      have hstep : moveStep w (.del q) = some (w₁, []) := by rw [moveStep, hdel']; rfl
      obtain ⟨w', log, hrun, hlen, hfires⟩ := ih h₁ (hnext _ _ hstep)
      exact ⟨w', log, by simp [moveRun, hstep, hrun], hlen, hres ▸ hfires⟩
    | tick script =>
      obtain ⟨hb, hkeep⟩ := htick script rfl
      obtain ⟨w₁, es, hlog, h₁, hcalls, hres⟩ := h.tick hb hkeep
      have hstep : moveStep w (.tick script) = some (w₁, [es]) := by rw [moveStep, hlog]; rfl
      obtain ⟨w', log, hrun, hlen, hfires⟩ := ih h₁ (hnext _ _ hstep)
      refine ⟨w', es :: log, by simp [moveRun, hstep, hrun], congrArg (· + 1) hlen, ?_⟩
      rw [hres] at hfires
      exact hfires.cons hcalls

/-! ## Timeouts -/

/-- The timer at `p`, which a callback has added with timeout `timeout` in a tick, has its callback
run in the `timeout`-th tick after that one, once, and in no other: `es` has been done in the tick,
and after it the wheel is `w`. -/
def Rearmed (p : ℕ) (callback : κ) (timeout : ℤ) (es : List (Event κ)) (w : TimeWheel κ)
    (ms : List (Move κ)) : Prop :=
  (callsOf es).filter (fun c => c.1 = p) = [] ∧
    ∃ w' log, moveRun w ms = some (w', log) ∧ ∀ i (hi : i < log.length),
      (callsOf (log.get ⟨i, hi⟩)).filter (fun c => c.1 = p) =
        if (i : ℤ) + 1 = timeout then [(p, callback)] else []

/-- After the tick the timer has a residual that is right unless its slot is the walked one. -/
theorem newData_residual_next (w : TimeWheel κ) {timeout : ℤ} (ht : 1 ≤ timeout) (callback : κ) :
    60 * (newData w timeout callback).rotation +
        (((newData w timeout callback).timeSlot - (w.curSlot + 1) : Fin 60) : ℕ) =
      if 60 ∣ timeout then timeout + 59 else timeout - 1 := by
  have hres := newData_residual w timeout callback
  rw [max_eq_left ht] at hres
  have hval : ((0 : Fin 60) : ℕ) = 0 := rfl
  rw [val_sub_succ]
  by_cases hs : (newData w timeout callback).timeSlot = w.curSlot
  · rw [hs, Fin.sub_self] at hres
    rw [if_pos hs, if_pos (by omega)]
    omega
  · have hpos := val_sub_pos hs
    have hlt := ((newData w timeout callback).timeSlot - w.curSlot).isLt
    rw [if_neg hs, if_neg (by omega)]
    omega

/-- What is known of a timer when the tick is over in which a callback has added it. -/
theorem SafeTick.watched (h : SafeTick w w' es) {p : ℕ} {timeout : ℤ} {callback : κ}
    (hadd : .added p timeout callback ∈ es) (ht : 1 ≤ timeout) (hkeep : .deleted p ∉ es) :
    Watched p callback w' ∧
      w'.residual p = some (if 60 ∣ timeout then timeout + 59 else timeout - 1) := by
  obtain ⟨-, hd⟩ := h.of_added hadd hkeep
  refine ⟨⟨h.lists, ?_, ?_⟩, ?_⟩
  · obtain ⟨t, hcell, -⟩ := Option.map_eq_some_iff.mp hd
    exact Store.lt_next hcell
  · intro d hd'
    rw [hd, Option.some.injEq] at hd'
    exact hd' ▸ rfl
  · rw [TimeWheel.residual, hd, Option.map_some, h.curSlot, newData_residual_next w ht]

/-- **A timeout that a callback sets is honoured unless it is a multiple of `60`**: such a timer has
its callback run `60` ticks late, so that it is not honoured as soon as there are as many ticks as
it says. -/
theorem rearmed_iff (h : Reached w) {script : Script κ} (hb : Behaves script w)
    (htick : tickLog script w = some (w', es)) {p : ℕ} {timeout : ℤ} {callback : κ}
    (hadd : .added p timeout callback ∈ es) (ht : 1 ≤ timeout) (hkeep : .deleted p ∉ es)
    {ms : List (Move κ)} (hspares : Spares p w' ms) :
    Rearmed p callback timeout es w' ms ↔ ¬ 60 ∣ timeout ∨ (tickCount ms : ℤ) < timeout := by
  obtain ⟨lists, hw⟩ := h.wellLinked
  obtain ⟨w₁, es₁, hlog, hsafe⟩ := hw.tickLog_spec hb
  rw [htick, Option.some.injEq, Prod.mk.injEq] at hlog
  obtain ⟨rfl, rfl⟩ := hlog
  have hcalls : (callsOf es).filter (fun c => c.1 = p) = [] := by
    rw [callsOf_eventsOf, (hsafe.of_added hadd hkeep).1]
    rfl
  obtain ⟨hwatched, hres⟩ := hsafe.watched hadd ht hkeep
  obtain ⟨w₂, log, hrun, hlen, hfires⟩ := moveRun_fires hwatched hspares
  have hfires' : ∀ i (hi : i < log.length),
      (callsOf (log.get ⟨i, hi⟩)).filter (fun c => c.1 = p) =
        if w'.residual p = some (i : ℤ) then [(p, callback)] else [] := by
    intro i hi
    have hi' := hfires i (by rwa [List.length_map])
    rwa [List.get_eq_getElem, List.getElem_map] at hi'
  constructor
  · rintro ⟨-, w₃, log', hrun', hhon⟩
    rw [hrun, Option.some.injEq, Prod.mk.injEq] at hrun'
    obtain ⟨-, rfl⟩ := hrun'
    by_contra hnot
    rw [not_or, not_not] at hnot
    obtain ⟨hdvd, hle⟩ := hnot
    have hi : timeout.toNat - 1 < log.length := by omega
    have hon := hhon _ hi
    rw [if_pos (by omega), hfires' _ hi, hres, if_pos hdvd, if_neg] at hon
    · exact absurd hon.symm (List.cons_ne_nil _ _)
    · rw [Option.some.injEq]
      omega
  · intro hor
    refine ⟨hcalls, w₂, log, hrun, ?_⟩
    intro i hi
    rw [hfires' i hi, hres]
    by_cases hdvd : 60 ∣ timeout
    · have hlt := hor.resolve_left (not_not.mpr hdvd)
      rw [if_pos hdvd, if_neg (by rw [Option.some.injEq]; omega), if_neg (by omega)]
    · rw [if_neg hdvd]
      refine if_congr ?_ rfl rfl
      rw [Option.some.injEq]
      omega

/-! ## Ticks with callbacks that do not touch the wheel -/

theorem deleted_notMem_loopLog {p fuel : ℕ} {tmp : Option ℕ} {es' : List (Event κ)}
    (hes : .deleted p ∉ es) (h : loopLog (fun _ _ => []) fuel w tmp es = some (w', es')) :
    .deleted p ∉ es' := by
  induction fuel generalizing w tmp es with
  | zero => cases h
  | succ fuel ih =>
    cases tmp with
    | none =>
      obtain ⟨-, rfl⟩ := Prod.mk.inj (Option.some.inj h)
      exact hes
    | some tmp =>
      obtain ⟨⟨w₁, next, called⟩, -, hloop⟩ := Option.bind_eq_some_iff.mp h
      refine ih ?_ hloop
      have hround : .deleted p ∉ roundEvents (fun _ _ => []) w tmp := by
        rw [roundEvents]
        split
        · exact List.not_mem_nil
        · split <;> simp [perform]
      exact fun hmem => (List.mem_append.mp hmem).elim hes hround

/-- A run of such ticks deletes no timer. -/
theorem spares_replicate (p n : ℕ) (w : TimeWheel κ) :
    Spares p w (List.replicate n (.tick fun _ _ => [])) := by
  induction n generalizing w with
  | zero => exact trivial
  | succ n ih =>
    rw [List.replicate_succ]
    refine ⟨fun q hq => (nomatch hq), ?_, fun w' _ _ => ih w'⟩
    intro script hscript
    obtain rfl := Move.tick.inj hscript
    refine ⟨loopBehaves_of_adds (by simp) _ _ _, ?_⟩
    intro w' es hlog
    obtain ⟨⟨w₁, es₁⟩, hloop, heq⟩ := Option.bind_eq_some_iff.mp hlog
    obtain ⟨-, rfl⟩ := Prod.mk.inj (Option.some.inj heq)
    exact deleted_notMem_loopLog List.not_mem_nil hloop

theorem tickCount_replicate (n : ℕ) :
    tickCount (List.replicate n (.tick fun _ _ => [] : Move κ)) = n := by
  induction n with
  | zero => rfl
  | succ n ih => exact congrArg (· + 1) ih

/-- A timer with timeout `1` on a new wheel, the callback of which adds one with timeout `5`. -/
theorem rearmed_iff_five : ∃ w w' : TimeWheel Unit, ∃ es,
    tickLog (fun _ _ => [.add 5 ()]) w = some (w', es) ∧ .added 1 5 () ∈ es ∧
      (Rearmed 1 () 5 es w' (List.replicate 9 (.tick fun _ _ => [])) ↔
        ¬ (60 : ℤ) ∣ 5 ∨
          (tickCount (List.replicate 9 (.tick fun _ _ => [] : Move Unit)) : ℤ) < 5) := by
  have hruns : ∃ w₁ w w' : TimeWheel Unit, addTimer new 1 () = some (some 0, w₁) ∧
      tick (runScript fun _ _ => []) w₁ = some (w, []) ∧
      tickLog (fun _ _ => [.add 5 ()]) w =
        some (w', [.called 0 (), .added 1 5 (), .unlinked 0]) := ⟨_, _, _, rfl, rfl, rfl⟩
  obtain ⟨w₁, w, w', hadd, htick, hlog⟩ := hruns
  have hreached : Reached w :=
    .tick (.add .new hadd) (loopBehaves_of_adds (by simp) _ _ _) htick
  exact ⟨w, w', _, hlog, by simp, rearmed_iff hreached (loopBehaves_of_adds (by simp) _ _ _) hlog
    (by simp) (by omega) (by simp) (spares_replicate 1 9 w')⟩

/-- With timeout `60` instead, the callback is not run in the tick number `60` after that one. -/
theorem not_rearmed_sixty : ∃ w w' : TimeWheel Unit, ∃ es, Reached w ∧
    Behaves (fun _ _ => [.add 60 ()]) w ∧
    tickLog (fun _ _ => [.add 60 ()]) w = some (w', es) ∧
    .added 1 60 () ∈ es ∧ .deleted 1 ∉ es ∧
    Spares 1 w' (List.replicate 60 (.tick fun _ _ => [])) ∧
    ¬ Rearmed 1 () 60 es w' (List.replicate 60 (.tick fun _ _ => [])) := by
  have hruns : ∃ w₁ w w' : TimeWheel Unit, addTimer new 1 () = some (some 0, w₁) ∧
      tick (runScript fun _ _ => []) w₁ = some (w, []) ∧
      tickLog (fun _ _ => [.add 60 ()]) w =
        some (w', [.called 0 (), .added 1 60 (), .unlinked 0]) := ⟨_, _, _, rfl, rfl, rfl⟩
  obtain ⟨w₁, w, w', hadd, htick, hlog⟩ := hruns
  have hreached : Reached w :=
    .tick (.add .new hadd) (loopBehaves_of_adds (by simp) _ _ _) htick
  have hb : Behaves (fun _ _ => [.add 60 ()]) w := loopBehaves_of_adds (by simp) _ _ _
  refine ⟨w, w', _, hreached, hb, hlog, by simp, by simp, spares_replicate 1 60 w', ?_⟩
  rintro ⟨-, w₂, log, hrun, hhon⟩
  obtain ⟨lists, hw⟩ := hreached.wellLinked
  obtain ⟨w₃, es, hlog', hsafe⟩ := hw.tickLog_spec hb
  rw [hlog, Option.some.injEq, Prod.mk.injEq] at hlog'
  obtain ⟨rfl, rfl⟩ := hlog'
  have hadded : Event.added 1 60 () ∈ [.called 0 (), .added 1 60 (), .unlinked 0] := by simp
  obtain ⟨hwatched, hres⟩ := hsafe.watched hadded (by omega) (by simp)
  obtain ⟨w₄, log', hrun', hlen, hfires⟩ := moveRun_fires hwatched (spares_replicate 1 60 w')
  rw [hrun, Option.some.injEq, Prod.mk.injEq] at hrun'
  obtain ⟨-, rfl⟩ := hrun'
  rw [tickCount_replicate] at hlen
  have hon := hhon 59 (by omega)
  have hoff := hfires 59 (by rw [List.length_map]; omega)
  rw [List.get_eq_getElem, List.getElem_map] at hoff
  rw [List.get_eq_getElem, hoff, hres] at hon
  simp at hon

end TimeWheel
end Timers
end CModel
