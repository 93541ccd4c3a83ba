import CModel.Timers.WheelLists

/-!
# Callbacks that use the wheel

A callback may call `add_timer` and `del_timer` while `tick` walks the list of the current slot: the
new timers go in front of the lists, also of the one that is walked, and a timer that is deleted may
be the one that comes next.

* `Act`, `Script`: what a callback does to the wheel.
* `Event`, `tickLog`: the tick together with a record of all that is done in it, in order.
* `Story`: what can become of one timer in a tick.
* `Walk`: the invariant of the walk, with one lemma for each thing that can be done in it.
* `Reached.safeTick`: **the wheel is safe for callbacks that use it.**
-/

namespace CModel
namespace Timers
namespace TimeWheel

variable {κ : Type} {w w' w₀ : TimeWheel κ}

/-! ## What callbacks do -/

/-- A call that a callback makes. -/
inductive Act (κ : Type) where
  | add (timeout : ℤ) (callback : κ)
  | del (p : ℕ)

/-- What is done in a tick: the walk takes one round off a timer or runs its callback and unlinks
it, and the callbacks add and delete timers. -/
inductive Event (κ : Type) where
  | passed (p : ℕ)
  | called (p : ℕ) (callback : κ)
  | unlinked (p : ℕ)
  | added (p : ℕ) (timeout : ℤ) (callback : κ)
  | deleted (p : ℕ)

/-- The timer that an event is about. -/
def Event.timer : Event κ → ℕ
  | passed p => p
  | called p _ => p
  | unlinked p => p
  | added p _ _ => p
  | deleted p => p

/-- The callback that is run in an event. -/
def Event.call : Event κ → Option (ℕ × κ)
  | called p callback => some (p, callback)
  | _ => none

/-- The events of one timer. -/
def eventsOf (p : ℕ) (es : List (Event κ)) : List (Event κ) := es.filter fun e => e.timer = p

/-- One call of a callback. -/
def actStep (w : TimeWheel κ) : Act κ → Option (TimeWheel κ × List (Event κ))
  | .add timeout callback => do
    let (timer, w) ← addTimer w timeout callback
    some (w, timer.toList.map fun p => .added p timeout callback)
  | .del p => do
    let w ← delTimer w (some p)
    some (w, [.deleted p])

/-- The calls of a callback, one after the other. -/
def perform : TimeWheel κ → List (Act κ) → Option (TimeWheel κ × List (Event κ))
  | w, [] => some (w, [])
  | w, act :: acts => do
    let (w, es) ← actStep w act
    let (w, es') ← perform w acts
    some (w, es ++ es')

/-- The calls that a callback makes, which may depend on the wheel that it finds.  No callback finds
a wheel that another one has found, as its timer is gone after it, so these are any calls. -/
abbrev Script (κ : Type) := κ → TimeWheel κ → List (Act κ)

/-- The callbacks as `tick` runs them. -/
def runScript (script : Script κ) (callback : κ) (w : TimeWheel κ) : Option (TimeWheel κ) :=
  (perform w (script callback w)).map Prod.fst

/-! ## The record of a tick -/

/-- What is done in one round of the loop of `tick`. -/
def roundEvents (script : Script κ) (w : TimeWheel κ) (tmp : ℕ) : List (Event κ) :=
  match w.mem.cell tmp with
  | none => []
  | some t =>
    if 0 < t.rotation then [.passed tmp]
    else
      let done := ((perform w (script t.callback w)).map Prod.snd).getD []
      .called tmp t.callback :: (done ++ [.unlinked tmp])

/-- The loop of `tick`, with all that is done in it. -/
def loopLog (script : Script κ) :
    (fuel : ℕ) → TimeWheel κ → Option ℕ → List (Event κ) → Option (TimeWheel κ × List (Event κ))
  | 0, _, _, _ => none
  | _ + 1, w, none, es => some (w, es)
  | fuel + 1, w, some tmp, es => do
    let (w', next, _) ← tickStep (runScript script) w tmp
    loopLog script fuel w' next (es ++ roundEvents script w tmp)

/-- `tick`, with all that is done in it. -/
def tickLog (script : Script κ) (w : TimeWheel κ) : Option (TimeWheel κ × List (Event κ)) := do
  let (w, es) ← loopLog script (w.mem.next + 1) w (w.slots w.curSlot) []
  some ({ w with curSlot := w.curSlot + 1 }, es)

/-- The callbacks that are run in a tick. -/
def callsOf (es : List (Event κ)) : List (ℕ × κ) := es.filterMap Event.call

theorem callsOf_append (es es' : List (Event κ)) :
    callsOf (es ++ es') = callsOf es ++ callsOf es' := List.filterMap_append

theorem callsOf_actStep {act : Act κ} {es : List (Event κ)} (h : actStep w act = some (w', es)) :
    callsOf es = [] := by
  cases act with
  | add timeout callback =>
    obtain ⟨⟨timer, w₁⟩, -, heq⟩ := Option.bind_eq_some_iff.mp h
    obtain ⟨-, rfl⟩ := Prod.mk.inj (Option.some.inj heq)
    cases timer <;> rfl
  | del p =>
    obtain ⟨w₁, -, heq⟩ := Option.bind_eq_some_iff.mp h
    obtain ⟨-, rfl⟩ := Prod.mk.inj (Option.some.inj heq)
    rfl

theorem callsOf_perform {acts : List (Act κ)} {es : List (Event κ)}
    (h : perform w acts = some (w', es)) : callsOf es = [] := by
  induction acts generalizing w es with
  | nil =>
    obtain ⟨-, rfl⟩ := Prod.mk.inj (Option.some.inj h)
    rfl
  | cons act acts ih =>
    obtain ⟨⟨w₁, es₁⟩, hact, hrest⟩ := Option.bind_eq_some_iff.mp h
    obtain ⟨⟨w₂, es₂⟩, hacts, heq⟩ := Option.bind_eq_some_iff.mp hrest
    obtain ⟨rfl, rfl⟩ := Prod.mk.inj (Option.some.inj heq)
    rw [callsOf_append, callsOf_actStep hact, ih hacts]
    rfl

theorem tickStep_calls {script : Script κ} {tmp : ℕ} {next : Option ℕ} {called : List (ℕ × κ)}
    (h : tickStep (runScript script) w tmp = some (w', next, called)) :
    called = callsOf (roundEvents script w tmp) := by
  obtain ⟨t, ht, hround⟩ := Option.bind_eq_some_iff.mp h
  rw [roundEvents, ht]
  by_cases hrot : 0 < t.rotation
  · rw [if_pos hrot] at hround
    obtain ⟨mem, -, heq⟩ := Option.bind_eq_some_iff.mp hround
    obtain ⟨-, hnext⟩ := Prod.mk.inj (Option.some.inj heq)
    obtain ⟨-, rfl⟩ := Prod.mk.inj hnext
    simp only [if_pos hrot]
    rfl
  · rw [if_neg hrot] at hround
    obtain ⟨w₁, hcall, hremove⟩ := Option.bind_eq_some_iff.mp hround
    obtain ⟨⟨w₂, next'⟩, -, heq⟩ := Option.bind_eq_some_iff.mp hremove
    obtain ⟨-, hnext⟩ := Prod.mk.inj (Option.some.inj heq)
    obtain ⟨-, rfl⟩ := Prod.mk.inj hnext
    obtain ⟨⟨w₃, es⟩, hperform, -⟩ := Option.map_eq_some_iff.mp hcall
    simp only [if_neg hrot, hperform, Option.map_some, Option.getD_some]
    show _ = (tmp, t.callback) :: callsOf (es ++ [.unlinked tmp])
    rw [callsOf_append, callsOf_perform hperform]
    rfl

theorem tickLoop_eq (script : Script κ) (fuel : ℕ) (w : TimeWheel κ) (tmp : Option ℕ)
    (es : List (Event κ)) :
    tickLoop (runScript script) fuel w tmp (callsOf es) =
      (loopLog script fuel w tmp es).map fun r => (r.1, callsOf r.2) := by
  induction fuel generalizing w tmp es with
  | zero => rfl
  | succ fuel ih =>
    cases tmp with
    | none => rfl
    | some tmp =>
      rw [tickLoop, loopLog]
      cases hstep : tickStep (runScript script) w tmp with
      | none => rfl
      | some r =>
        obtain ⟨w', next, called⟩ := r
        show tickLoop (runScript script) fuel w' next (callsOf es ++ called) = _
        rw [tickStep_calls hstep, ← callsOf_append, ih]
        rfl

/-- **The record is one of `tick`.** -/
theorem tick_eq (script : Script κ) (w : TimeWheel κ) :
    tick (runScript script) w = (tickLog script w).map fun r => (r.1, callsOf r.2) := by
  have hloop := tickLoop_eq script (w.mem.next + 1) w (w.slots w.curSlot) []
  rw [tick, tickLog]
  change tickLoop _ _ _ _ [] = _ at hloop
  rw [hloop]
  cases loopLog script (w.mem.next + 1) w (w.slots w.curSlot) [] <;> rfl

/-! ## What callbacks may do -/

/-- Timers are deleted only while they are pending, and `tmp`, the timer of the callback, is not. -/
def Allowed (tmp : ℕ) : TimeWheel κ → List (Act κ) → Prop
  | _, [] => True
  | w, act :: acts =>
    (∀ q, act = .del q → w.Pending q ∧ q ≠ tmp) ∧
      ∀ w' es, actStep w act = some (w', es) → Allowed tmp w' acts

/-- The callbacks that the loop of `tick` runs keep to that. -/
def LoopBehaves (script : Script κ) : (fuel : ℕ) → TimeWheel κ → Option ℕ → Prop
  | 0, _, _ => True
  | _ + 1, _, none => True
  | fuel + 1, w, some tmp =>
    (∀ t, w.mem.cell tmp = some t → ¬ 0 < t.rotation →
      Allowed tmp w (script t.callback w)) ∧
      ∀ w' next called, tickStep (runScript script) w tmp = some (w', next, called) →
        LoopBehaves script fuel w' next

/-- The callbacks that `tick` runs keep to that. -/
def Behaves (script : Script κ) (w : TimeWheel κ) : Prop :=
  LoopBehaves script (w.mem.next + 1) w (w.slots w.curSlot)

/-! ## What becomes of a timer -/

theorem eventsOf_append (p : ℕ) (es es' : List (Event κ)) :
    eventsOf p (es ++ es') = eventsOf p es ++ eventsOf p es' := List.filter_append ..

theorem eventsOf_self (e : Event κ) : eventsOf e.timer [e] = [e] := by simp [eventsOf]

theorem eventsOf_of_ne {p : ℕ} {e : Event κ} (hp : p ≠ e.timer) : eventsOf p [e] = [] := by
  simp [eventsOf, hp.symm]

/-- What can become of the timer at `p` in a tick of the wheel `w₀`: what has been done to it, and
its data after that. -/
inductive Story (w₀ : TimeWheel κ) (p : ℕ) : List (Event κ) → Option (TwData κ) → Prop
  | untouched : Story w₀ p [] (w₀.data p)
  | passed {d : TwData κ} (hd : w₀.data p = some d) (hs : d.timeSlot = w₀.curSlot)
      (hrot : 0 < d.rotation) :
      Story w₀ p [.passed p] (some { d with rotation := d.rotation - 1 })
  | called {d : TwData κ} (hd : w₀.data p = some d) (hs : d.timeSlot = w₀.curSlot)
      (hrot : ¬ 0 < d.rotation) : Story w₀ p [.called p d.callback] (some d)
  | unlinked {d : TwData κ} (hd : w₀.data p = some d) (hs : d.timeSlot = w₀.curSlot)
      (hrot : ¬ 0 < d.rotation) : Story w₀ p [.called p d.callback, .unlinked p] none
  | added {timeout : ℤ} {callback : κ} (hp : w₀.mem.next ≤ p) (ht : 0 ≤ timeout) :
      Story w₀ p [.added p timeout callback] (some (newData w₀ timeout callback))
  | deleted {es : List (Event κ)} {d : TwData κ} (h : Story w₀ p es (some d))
      (hcalled : ∀ c, es ≠ [.called p c]) : Story w₀ p (es ++ [.deleted p]) none

theorem Story.of_nil {p : ℕ} {es : List (Event κ)} {o : Option (TwData κ)}
    (h : Story w₀ p es o) (hes : es = []) : o = w₀.data p := by
  cases h with
  | untouched => rfl
  | deleted => simp at hes
  | _ => cases hes

theorem Story.of_called {p : ℕ} {es : List (Event κ)} {o : Option (TwData κ)} {c : κ}
    (h : Story w₀ p es o) (hes : es = [.called p c]) :
    ∃ d, w₀.data p = some d ∧ d.timeSlot = w₀.curSlot ∧ ¬ 0 < d.rotation ∧ d.callback = c ∧
      o = some d := by
  cases h with
  | called hd hs hrot =>
    obtain ⟨-, rfl⟩ := Event.called.inj (List.singleton_inj.mp hes)
    exact ⟨_, hd, hs, hrot, rfl, rfl⟩
  | @deleted es d h hcalled =>
    have hlast := (List.append_inj' (show es ++ [.deleted p] = [] ++ [.called p c] from hes) rfl).2
    cases hlast
  | _ => cases hes

/-! ## The walk -/

/-- The walk of a tick that began with the wheel `w₀`: the callback of the timer `tmp`, if any, is
running, the timers `rest` are ahead, and `es` has been done. -/
structure Walk (w₀ : TimeWheel κ) (tmp : Option ℕ) (rest : List ℕ) (w : TimeWheel κ)
    (es : List (Event κ)) : Prop where
  lists : ∃ lists done, WellLinked w lists ∧ lists w.curSlot = done ++ (tmp.toList ++ rest)
  curSlot : w.curSlot = w₀.curSlot
  next : w₀.mem.next ≤ w.mem.next
  story : ∀ p, Story w₀ p (eventsOf p es) (w.data p)
  /-- nothing is done to a timer before there is one -/
  fresh : ∀ p, w.mem.next ≤ p → eventsOf p es = []
  ahead : ∀ p ∈ rest, eventsOf p es = []
  behind : ∀ p d, w₀.data p = some d → d.timeSlot = w₀.curSlot → eventsOf p es = [] → p ∈ rest
  running : ∀ p, (∃ c, eventsOf p es = [.called p c]) ↔ tmp = some p

theorem Walk.start {lists : Fin 60 → List ℕ} (h : WellLinked w lists) :
    Walk w none (lists w.curSlot) w [] where
  lists := ⟨lists, [], h, rfl⟩
  curSlot := rfl
  next := le_rfl
  story _ := .untouched
  fresh _ _ := rfl
  ahead _ _ := rfl
  behind p d hd hs _ := by
    obtain ⟨t, ht, rfl⟩ := Option.map_eq_some_iff.mp hd
    exact hs ▸ h.pending p t ht
  running p := by simp [eventsOf]

variable {rest : List ℕ} {es : List (Event κ)}

/-- A timer that is ahead is as it was at the start, and in the current slot. -/
theorem Walk.data_ahead {p : ℕ} {tmp : Option ℕ} (h : Walk w₀ tmp rest w es) (hp : p ∈ rest) :
    ∃ t, w.mem.cell p = some t ∧ w₀.data p = some t.toTwData ∧ t.timeSlot = w₀.curSlot := by
  obtain ⟨lists, done, hw, hl⟩ := h.lists
  obtain ⟨t, ht, hs, -⟩ := hw.cell (show p ∈ lists w.curSlot by rw [hl]; simp [hp])
  refine ⟨t, ht, ?_, hs.trans h.curSlot⟩
  rw [← (h.story p).of_nil (h.ahead p hp), data, ht]
  rfl

/-- An event of the walk: it is about one timer, the story of which goes on, and the others are as
they were. -/
theorem Walk.event {tmp tmp' : Option ℕ} {rest' : List ℕ} (h : Walk w₀ tmp rest w es) (p : ℕ)
    (e : Event κ) (hp : e.timer = p)
    (hlists : ∃ lists done, WellLinked w' lists ∧
      lists w'.curSlot = done ++ (tmp'.toList ++ rest'))
    (hcur : w'.curSlot = w.curSlot) (hnext : w.mem.next ≤ w'.mem.next) (hlt : p < w'.mem.next)
    (hstory : Story w₀ p (eventsOf p es ++ [e]) (w'.data p))
    (hdata : ∀ q, q ≠ p → w'.data q = w.data q)
    (hrest : ∀ q, q ∈ rest' ↔ q ∈ rest ∧ q ≠ p)
    (hself : (∃ c, eventsOf p es ++ [e] = [.called p c]) ↔ tmp' = some p)
    (hothers : ∀ q, q ≠ p → (tmp = some q ↔ tmp' = some q)) :
    Walk w₀ tmp' rest' w' (es ++ [e]) := by
  subst hp
  have hmine : eventsOf e.timer (es ++ [e]) = eventsOf e.timer es ++ [e] := by
    rw [eventsOf_append, eventsOf_self]
  have hkeep : ∀ q, q ≠ e.timer → eventsOf q (es ++ [e]) = eventsOf q es := by
    intro q hq
    rw [eventsOf_append, eventsOf_of_ne hq, List.append_nil]
  refine ⟨hlists, hcur.trans h.curSlot, h.next.trans hnext, ?_, ?_, ?_, ?_, ?_⟩
  · intro q
    by_cases hq : q = e.timer
    · rw [hq, hmine]
      exact hstory
    · rw [hkeep q hq, hdata q hq]
      exact h.story q
  · intro q hq
    rw [hkeep q (by omega)]
    exact h.fresh q (by omega)
  · intro q hq
    obtain ⟨hq, hne⟩ := (hrest q).mp hq
    rw [hkeep q hne]
    exact h.ahead q hq
  · intro q d hd hs hnil
    by_cases hq : q = e.timer
    · rw [hq, hmine] at hnil
      simp at hnil
    · rw [hkeep q hq] at hnil
      exact (hrest q).mpr ⟨h.behind q d hd hs hnil, hq⟩
  · intro q
    by_cases hq : q = e.timer
    · rw [hq, hmine]
      exact hself
    · rw [hkeep q hq, h.running q]
      exact hothers q hq

theorem Walk.nodup {tmp : Option ℕ} (h : Walk w₀ tmp rest w es) : (tmp.toList ++ rest).Nodup := by
  obtain ⟨lists, done, hw, hl⟩ := h.lists
  exact (hw.nodup w.curSlot).sublist (hl ▸ List.sublist_append_right done _)

theorem Walk.mem_tail_iff {p : ℕ} (h : Walk w₀ none (p :: rest) w es) (q : ℕ) :
    q ∈ rest ↔ q ∈ p :: rest ∧ q ≠ p := by
  have hp : p ∉ rest := (List.nodup_cons.mp h.nodup).1
  constructor
  · intro hq
    exact ⟨List.mem_cons_of_mem p hq, fun heq => hp (heq ▸ hq)⟩
  · rintro ⟨hq, hne⟩
    exact (List.mem_cons.mp hq).resolve_left hne

/-- The walk passes a timer that is not due. -/
theorem Walk.pass {p : ℕ} {t : TwTimer κ} (h : Walk w₀ none (p :: rest) w es)
    (ht : w.mem.cell p = some t) (hrot : 0 < t.rotation) (script : Script κ) :
    ∃ w' called, tickStep (runScript script) w p = some (w', rest.head?, called) ∧
      Walk w₀ none rest w' (es ++ [.passed p]) := by
  obtain ⟨t', ht', hd, hs⟩ := h.data_ahead List.mem_cons_self
  rw [ht, Option.some.injEq] at ht'
  subst ht'
  have hnil := h.ahead p List.mem_cons_self
  obtain ⟨lists, done, hw, hl⟩ := h.lists
  have hnext : t.next = rest.head? := by
    obtain ⟨d, hp, -⟩ := hw.link hl
    rw [ht, Option.some.injEq] at hp
    rw [hp]
  obtain ⟨w', hstep, hcur, hnext', hslots, hcell⟩ : ∃ w', tickStep (runScript script) w p =
      some (w', t.next, []) ∧ w'.curSlot = w.curSlot ∧ w'.mem.next = w.mem.next ∧
      w'.slots = w.slots ∧ w'.mem.cell = Function.update w.mem.cell p
        (some { t with rotation := t.rotation - 1 }) := by
    simp only [tickStep, ht, Option.bind_eq_bind, Option.bind_some, if_pos hrot,
      Store.modify_of_some ht]
    exact ⟨_, rfl, rfl, rfl, rfl, rfl⟩
  obtain ⟨hw', hdata⟩ := hw.waits ht hrot hcell hslots
  have hp : w'.data p = some { t.toTwData with rotation := t.rotation - 1 } := by
    rw [hdata, if_pos rfl, data, ht, Option.map_some, Option.bind_some, ticked, if_pos hrot]
  refine ⟨w', [], by rw [hstep, hnext], h.event p (.passed p) rfl ?_ hcur hnext'.ge ?_ ?_ ?_
    h.mem_tail_iff ?_ fun q _ => Iff.rfl⟩
  · exact ⟨lists, done ++ [p], hw', by rw [hcur, hl]; simp⟩
  · rw [hnext']
    exact Store.lt_next ht
  · rw [hnil, hp]
    exact .passed hd hs hrot
  · intro q hq
    rw [hdata, if_neg hq]
  · rw [hnil]
    simp

/-- The walk runs the callback of a timer that is due. -/
theorem Walk.call {p : ℕ} {t : TwTimer κ} (h : Walk w₀ none (p :: rest) w es)
    (ht : w.mem.cell p = some t) (hrot : ¬ 0 < t.rotation) :
    Walk w₀ (some p) rest w (es ++ [.called p t.callback]) := by
  obtain ⟨t', ht', hd, hs⟩ := h.data_ahead List.mem_cons_self
  rw [ht, Option.some.injEq] at ht'
  subst ht'
  have hnil := h.ahead p List.mem_cons_self
  refine h.event p (.called p t.callback) rfl h.lists rfl le_rfl (Store.lt_next ht) ?_
    (fun _ _ => rfl) h.mem_tail_iff ?_ ?_
  · rw [hnil, data, ht]
    exact .called hd hs hrot
  · rw [hnil]
    simp
  · intro q hq
    simpa using hq.symm

/-- The walk unlinks the timer of the callback. -/
theorem Walk.unlink {p : ℕ} (h : Walk w₀ (some p) rest w es) :
    ∃ w', removeFired w p = some (w', rest.head?) ∧ Walk w₀ none rest w' (es ++ [.unlinked p]) := by
  obtain ⟨lists, done, hw, hl⟩ := h.lists
  obtain ⟨w', hremove, hu⟩ := removeFired_eq hw hl
  obtain ⟨hw', hnone, hdata⟩ := hu.wellLinked hw hl
  obtain ⟨c, hcalled⟩ := (h.running p).mpr rfl
  obtain ⟨d, hd, hs, hrot, rfl, -⟩ := (h.story p).of_called hcalled
  have hp : p ∉ rest := (List.nodup_cons.mp h.nodup).1
  have hlt : p < w'.mem.next := by
    obtain ⟨t, ht, -⟩ := hw.cell (show p ∈ lists w.curSlot by rw [hl]; simp)
    rw [hu.next]
    exact Store.lt_next ht
  refine ⟨w', hremove, h.event p (.unlinked p) rfl ?_ hu.curSlot hu.next.ge hlt ?_ hdata
    ?_ ?_ ?_⟩
  · exact ⟨_, done, hw', by rw [hu.curSlot, Function.update_self]; rfl⟩
  · rw [hcalled, hnone]
    exact .unlinked hd hs hrot
  · intro q
    exact ⟨fun hq => ⟨hq, fun heq => hp (heq ▸ hq)⟩, And.left⟩
  · rw [hcalled]
    simp
  · intro q hq
    simpa using hq.symm

/-- A callback adds a timer: it is in front of a list, and not ahead. -/
theorem Walk.add {p : ℕ} (h : Walk w₀ (some p) rest w es) (timeout : ℤ) (callback : κ) :
    ∃ w' es', actStep w (.add timeout callback) = some (w', es') ∧
      Walk w₀ (some p) rest w' (es ++ es') := by
  by_cases ht : timeout < 0
  · exact ⟨w, [], by rw [actStep, addTimer, if_pos ht]; rfl, by rwa [List.append_nil]⟩
  obtain ⟨lists, done, hw, hl⟩ := h.lists
  obtain ⟨w', hadd, hw', hcur, hnext, hself, hdata⟩ :=
    addTimer_spec hw (Int.le_of_not_gt ht) callback
  have hp : p < w.mem.next := by
    obtain ⟨t, hcell, -⟩ := hw.cell (show p ∈ lists w.curSlot by rw [hl]; simp)
    exact Store.lt_next hcell
  have hfresh := h.fresh w.mem.next le_rfl
  have hnew : newData w timeout callback = newData w₀ timeout callback := by
    rw [newData, newData, h.curSlot]
  refine ⟨w', [.added w.mem.next timeout callback], by rw [actStep, hadd]; rfl,
    h.event w.mem.next (.added w.mem.next timeout callback) rfl ?_ hcur (by omega) (by omega) ?_
      hdata ?_ ?_ fun q _ => Iff.rfl⟩
  · by_cases hs : w.curSlot = (newData w timeout callback).timeSlot
    · exact ⟨_, w.mem.next :: done, hw', by rw [hcur, ← hs, Function.update_self, hl]; rfl⟩
    · exact ⟨_, done, hw', by rw [hcur, Function.update_of_ne hs, hl]⟩
  · rw [hfresh, hself, hnew]
    exact .added h.next (Int.le_of_not_gt ht)
  · intro q
    refine ⟨fun hq => ⟨hq, ?_⟩, And.left⟩
    rintro rfl
    obtain ⟨t, hcell, -⟩ := h.data_ahead hq
    exact absurd (Store.lt_next hcell) (Nat.lt_irrefl _)
  · rw [hfresh]
    simp only [List.nil_append, List.cons.injEq, reduceCtorEq, false_and, exists_false,
      Option.some.injEq, false_iff]
    omega

theorem erase_middle {done rest : List ℕ} {p q : ℕ} (hnodup : (done ++ p :: rest).Nodup)
    (hq : q ≠ p) : ∃ done', (done ++ p :: rest).erase q = done' ++ p :: rest.erase q := by
  by_cases hmem : q ∈ done
  · have hrest : q ∉ rest := fun hr =>
      (List.nodup_append.mp hnodup).2.2 q hmem q (List.mem_cons_of_mem p hr) rfl
    exact ⟨done.erase q, by
      rw [List.erase_append_left _ hmem, List.erase_of_not_mem hrest]⟩
  · exact ⟨done, by
      rw [List.erase_append_right _ hmem, List.erase_cons_tail (by simpa using hq.symm)]⟩

/-- A callback deletes a timer: if it was ahead, it is not any more. -/
theorem Walk.del {p q : ℕ} (h : Walk w₀ (some p) rest w es) (hq : w.Pending q) (hne : q ≠ p) :
    ∃ w' es', actStep w (.del q) = some (w', es') ∧
      Walk w₀ (some p) (rest.erase q) w' (es ++ es') := by
  obtain ⟨t, ht⟩ := hq
  obtain ⟨lists, done, hw, hl⟩ := h.lists
  have hmem := hw.pending q t ht
  obtain ⟨w', hdel, hw', hcur, hnext, hnone, hdata⟩ := delTimer_spec hw hmem
  have hnot : ∀ c, eventsOf q es ≠ [.called q c] := fun c hc =>
    hne (Option.some.inj ((h.running q).mp ⟨c, hc⟩)).symm
  have hrest : rest.Nodup := (List.nodup_cons.mp h.nodup).2
  refine ⟨w', [.deleted q], by rw [actStep, hdel]; rfl,
    h.event q (.deleted q) rfl ?_ hcur hnext.ge ?_ ?_ hdata ?_ ?_ fun r _ => Iff.rfl⟩
  · by_cases hs : w.curSlot = t.timeSlot
    · have hnodup := hw.nodup w.curSlot
      rw [hl] at hnodup
      obtain ⟨done', herase⟩ := erase_middle hnodup hne
      exact ⟨_, done', hw', by rw [hcur, ← hs, Function.update_self, hl]; exact herase⟩
    · have hq : q ∉ rest := by
        intro hr
        refine hs (hw.slot_unique ?_ hmem)
        rw [hl]
        simp [hr]
      exact ⟨_, done, hw', by rw [hcur, Function.update_of_ne hs, hl, List.erase_of_not_mem hq]⟩
  · rw [hnext]
    exact Store.lt_next ht
  · have hstory := h.story q
    rw [data, ht] at hstory
    rw [hnone]
    exact hstory.deleted hnot
  · intro r
    rw [hrest.mem_erase_iff, and_comm]
  · refine ⟨?_, fun heq => absurd (Option.some.inj heq).symm hne⟩
    intro hcall
    obtain ⟨c, hc⟩ := hcall
    have hlast := (List.append_inj' (hc.trans (List.nil_append _).symm) rfl).2
    cases hlast

/-- The calls of a callback. -/
theorem Walk.perform {p : ℕ} {acts : List (Act κ)} (h : Walk w₀ (some p) rest w es)
    (hallowed : Allowed p w acts) :
    ∃ w' es' rest', TimeWheel.perform w acts = some (w', es') ∧ rest'.length ≤ rest.length ∧
      Walk w₀ (some p) rest' w' (es ++ es') := by
  induction acts generalizing w es rest with
  | nil => exact ⟨w, [], rest, rfl, le_rfl, by rwa [List.append_nil]⟩
  | cons act acts ih =>
    obtain ⟨w₁, es₁, rest₁, hact, hlen₁, h₁⟩ : ∃ w' es' rest', actStep w act = some (w', es') ∧
        rest'.length ≤ rest.length ∧ Walk w₀ (some p) rest' w' (es ++ es') := by
      cases act with
      | add timeout callback =>
        obtain ⟨w₁, es₁, hact, h₁⟩ := h.add timeout callback
        exact ⟨w₁, es₁, rest, hact, le_rfl, h₁⟩
      | del q =>
        obtain ⟨hq, hne⟩ := hallowed.1 q rfl
        obtain ⟨w₁, es₁, hact, h₁⟩ := h.del hq hne
        exact ⟨w₁, es₁, rest.erase q, hact, List.length_erase_le, h₁⟩
    obtain ⟨w₂, es₂, rest₂, hacts, hlen₂, h₂⟩ := ih h₁ (hallowed.2 w₁ es₁ hact)
    refine ⟨w₂, es₁ ++ es₂, rest₂, ?_, hlen₂.trans hlen₁, by rwa [← List.append_assoc]⟩
    simp only [TimeWheel.perform, hact, Option.bind_eq_bind, Option.bind_some, hacts]

/-- **One round of the walk.** -/
theorem Walk.round {p : ℕ} {script : Script κ} (h : Walk w₀ none (p :: rest) w es)
    (hallowed : ∀ t, w.mem.cell p = some t → ¬ 0 < t.rotation →
      Allowed p w (script t.callback w)) :
    ∃ w' called rest', tickStep (runScript script) w p = some (w', rest'.head?, called) ∧
      rest'.length ≤ rest.length ∧
      Walk w₀ none rest' w' (es ++ roundEvents script w p) := by
  obtain ⟨t, ht, -⟩ := h.data_ahead List.mem_cons_self
  by_cases hrot : 0 < t.rotation
  · obtain ⟨w', called, hstep, h'⟩ := h.pass ht hrot script
    refine ⟨w', called, rest, hstep, le_rfl, ?_⟩
    rw [roundEvents, ht]
    simp only [if_pos hrot]
    exact h'
  · obtain ⟨w₁, es₁, rest₁, hperform, hlen, h₁⟩ := (h.call ht hrot).perform (hallowed t ht hrot)
    obtain ⟨w₂, hremove, h₂⟩ := h₁.unlink
    refine ⟨w₂, [(p, t.callback)], rest₁, ?_, hlen, ?_⟩
    · simp only [tickStep, ht, Option.bind_eq_bind, Option.bind_some, if_neg hrot, runScript,
        hperform, Option.map_some, hremove]
    · rw [roundEvents, ht]
      simp only [if_neg hrot, hperform, Option.map_some, Option.getD_some]
      rw [List.append_assoc, List.append_assoc] at h₂
      exact h₂

/-- **The walk comes to its end**, by induction on the rounds that are left. -/
theorem Walk.loop {script : Script κ} {fuel : ℕ} (h : Walk w₀ none rest w es)
    (hfuel : rest.length < fuel) (hb : LoopBehaves script fuel w rest.head?) :
    ∃ w' es', loopLog script fuel w rest.head? es = some (w', es') ∧ Walk w₀ none [] w' es' := by
  induction fuel generalizing w es rest with
  | zero => exact absurd hfuel (Nat.not_lt_zero _)
  | succ fuel ih =>
    cases rest with
    | nil => exact ⟨w, es, rfl, h⟩
    | cons p rest =>
      obtain ⟨hallowed, hnext⟩ := hb
      obtain ⟨w₁, called, rest₁, hstep, hlen, h₁⟩ := h.round hallowed
      rw [List.length_cons] at hfuel
      obtain ⟨w', es', hloop, h'⟩ := ih h₁ (by omega) (hnext w₁ _ called hstep)
      refine ⟨w', es', ?_, h'⟩
      rw [List.head?_cons, loopLog, hstep, Option.bind_eq_bind, Option.bind_some]
      exact hloop

/-! ## The whole tick -/

/-- What a tick has made of the wheel `w`, where `es` has been done in it. -/
structure SafeTick (w w' : TimeWheel κ) (es : List (Event κ)) : Prop where
  lists : ∃ lists, WellLinked w' lists
  curSlot : w'.curSlot = w.curSlot + 1
  next : w.mem.next ≤ w'.mem.next
  /-- a timer of the current slot with rounds to go is passed once, unless it is deleted before -/
  waits : ∀ p d, w.data p = some d → d.timeSlot = w.curSlot → 0 < d.rotation →
    (eventsOf p es = [.passed p] ∧ w'.data p = some { d with rotation := d.rotation - 1 }) ∨
      (eventsOf p es = [.passed p, .deleted p] ∧ w'.data p = none) ∨
      (eventsOf p es = [.deleted p] ∧ w'.data p = none)
  /-- the callback of one without is run once and the timer unlinked, unless it is deleted before -/
  due : ∀ p d, w.data p = some d → d.timeSlot = w.curSlot → ¬ 0 < d.rotation →
    (eventsOf p es = [.called p d.callback, .unlinked p] ∨ eventsOf p es = [.deleted p]) ∧
      w'.data p = none
  /-- a timer of another slot is as it was, unless it is deleted -/
  elsewhere : ∀ p d, w.data p = some d → d.timeSlot ≠ w.curSlot →
    (eventsOf p es = [] ∧ w'.data p = some d) ∨
      (eventsOf p es = [.deleted p] ∧ w'.data p = none)
  /-- a timer that was not there is one that a callback has added, and perhaps deleted again -/
  created : ∀ p, w.data p = none →
    (eventsOf p es = [] ∧ w'.data p = none) ∨
      ∃ timeout callback, w.mem.next ≤ p ∧ 0 ≤ timeout ∧
        ((eventsOf p es = [.added p timeout callback] ∧
            w'.data p = some (newData w timeout callback)) ∨
          (eventsOf p es = [.added p timeout callback, .deleted p] ∧ w'.data p = none))

/-- The stories of timers whose callbacks are not running. -/
theorem Story.settled {p : ℕ} {o : Option (TwData κ)} (h : Story w₀ p es o)
    (hcalled : ∀ c, es ≠ [.called p c]) :
    (es = [] ∧ o = w₀.data p) ∨
      (∃ d, w₀.data p = some d ∧ es = [.deleted p] ∧ o = none) ∨
      (∃ d, w₀.data p = some d ∧ d.timeSlot = w₀.curSlot ∧ 0 < d.rotation ∧
        ((es = [.passed p] ∧ o = some { d with rotation := d.rotation - 1 }) ∨
          (es = [.passed p, .deleted p] ∧ o = none))) ∨
      (∃ d, w₀.data p = some d ∧ d.timeSlot = w₀.curSlot ∧ ¬ 0 < d.rotation ∧
        es = [.called p d.callback, .unlinked p] ∧ o = none) ∨
      ∃ timeout callback, w₀.mem.next ≤ p ∧ 0 ≤ timeout ∧
        ((es = [.added p timeout callback] ∧ o = some (newData w₀ timeout callback)) ∨
          (es = [.added p timeout callback, .deleted p] ∧ o = none)) := by
  cases h with
  | untouched => exact .inl ⟨rfl, rfl⟩
  | passed hd hs hrot => exact .inr (.inr (.inl ⟨_, hd, hs, hrot, .inl ⟨rfl, rfl⟩⟩))
  | called => exact absurd rfl (hcalled _)
  | unlinked hd hs hrot => exact .inr (.inr (.inr (.inl ⟨_, hd, hs, hrot, rfl, rfl⟩)))
  | added hp ht => exact .inr (.inr (.inr (.inr ⟨_, _, hp, ht, .inl ⟨rfl, rfl⟩⟩)))
  | @deleted es d h hnot =>
    generalize ho : some d = o at h
    cases h with
    | untouched => exact .inr (.inl ⟨d, ho.symm, rfl, rfl⟩)
    | passed hd hs hrot => exact .inr (.inr (.inl ⟨_, hd, hs, hrot, .inr ⟨rfl, rfl⟩⟩))
    | called => exact absurd rfl (hnot _)
    | unlinked => cases ho
    | added hp ht => exact .inr (.inr (.inr (.inr ⟨_, _, hp, ht, .inr ⟨rfl, rfl⟩⟩)))
    | deleted => cases ho

/-- There is no timer yet at an address to come. -/
theorem data_of_next_le {p : ℕ} (hp : w.mem.next ≤ p) : w.data p = none := by
  rw [data, w.mem.fresh p hp]
  rfl

/-- What the end of a walk says of the tick. -/
theorem Walk.finish (h : Walk w₀ none [] w es) :
    SafeTick w₀ { w with curSlot := w.curSlot + 1 } es := by
  have hsettled : ∀ p, ∀ c, eventsOf p es ≠ [.called p c] := fun p c hc =>
    absurd ((h.running p).mp ⟨c, hc⟩) (by simp)
  have hsome : ∀ {p d d'}, w₀.data p = some d → w₀.data p = some d' → d = d' := fun hd hd' =>
    Option.some.inj (hd.symm.trans hd')
  have hnone : ∀ {p d}, w₀.mem.next ≤ p → w₀.data p = some d → False := fun hp hd => by
    rw [data_of_next_le hp] at hd
    cases hd
  refine ⟨?_, congrArg (· + 1) h.curSlot, h.next, ?_, ?_, ?_, ?_⟩
  · obtain ⟨lists, done, hw, -⟩ := h.lists
    exact ⟨lists, hw.head, hw.links, hw.nodup, hw.timeSlot, hw.pending⟩
  · intro p d hd hs hrot
    rcases (h.story p).settled (hsettled p) with ⟨hnil, -⟩ | ⟨_, -, hdel⟩ | ⟨d', hd', -, -, hp⟩ |
      ⟨d', hd', -, hrot', -⟩ | ⟨_, _, hp, -⟩
    · exact absurd (h.behind p d hd hs hnil) List.not_mem_nil
    · exact .inr (.inr hdel)
    · obtain rfl := hsome hd hd'
      exact hp.imp_right .inl
    · exact absurd (hsome hd hd' ▸ hrot) hrot'
    · exact (hnone hp hd).elim
  · intro p d hd hs hrot
    rcases (h.story p).settled (hsettled p) with ⟨hnil, -⟩ | ⟨_, -, hdel, ho⟩ |
      ⟨d', hd', -, hrot', -⟩ | ⟨d', hd', -, -, hcall, ho⟩ | ⟨_, _, hp, -⟩
    · exact absurd (h.behind p d hd hs hnil) List.not_mem_nil
    · exact ⟨.inr hdel, ho⟩
    · exact absurd (hsome hd hd' ▸ hrot') hrot
    · obtain rfl := hsome hd hd'
      exact ⟨.inl hcall, ho⟩
    · exact (hnone hp hd).elim
  · intro p d hd hs
    rcases (h.story p).settled (hsettled p) with ⟨hnil, ho⟩ | ⟨_, -, hdel⟩ |
      ⟨d', hd', hs', -⟩ | ⟨d', hd', hs', -⟩ | ⟨_, _, hp, -⟩
    · exact .inl ⟨hnil, ho.trans hd⟩
    · exact .inr hdel
    · exact absurd (hsome hd hd' ▸ hs') hs
    · exact absurd (hsome hd hd' ▸ hs') hs
    · exact (hnone hp hd).elim
  · intro p hd
    rcases (h.story p).settled (hsettled p) with ⟨hnil, ho⟩ | ⟨d', hd', -⟩ |
      ⟨d', hd', -⟩ | ⟨d', hd', -⟩ | hadded
    · exact .inl ⟨hnil, ho.trans hd⟩
    · rw [hd] at hd'; cases hd'
    · rw [hd] at hd'; cases hd'
    · rw [hd] at hd'; cases hd'
    · exact .inr hadded

theorem WellLinked.tickLog_spec {lists : Fin 60 → List ℕ} (h : WellLinked w lists)
    {script : Script κ} (hb : Behaves script w) :
    ∃ w' es, tickLog script w = some (w', es) ∧ SafeTick w w' es := by
  rw [Behaves, h.head] at hb
  obtain ⟨w', es, hloop, hwalk⟩ := (Walk.start h).loop (h.length_lt _) hb
  rw [← h.head] at hloop
  exact ⟨_, es, by rw [tickLog, hloop]; rfl, hwalk.finish⟩

/-- The wheels that come up in runs of `add_timer`, of `del_timer` on pending timers, and of
`tick` with callbacks that call these two. -/
inductive Reached : TimeWheel κ → Prop
  | new : Reached new
  | add {w w' : TimeWheel κ} {timeout : ℤ} {callback : κ} {timer : Option ℕ} (h : Reached w)
      (hadd : addTimer w timeout callback = some (timer, w')) : Reached w'
  | del {w w' : TimeWheel κ} {p : ℕ} (h : Reached w) (hp : w.Pending p)
      (hdel : delTimer w (some p) = some w') : Reached w'
  | tick {w w' : TimeWheel κ} {script : Script κ} {calls : List (ℕ × κ)} (h : Reached w)
      (hb : Behaves script w) (htick : TimeWheel.tick (runScript script) w = some (w', calls)) :
      Reached w'

theorem Reached.wellLinked (h : Reached w) : ∃ lists, WellLinked w lists := by
  induction h with
  | new => exact ⟨_, wellLinked_new⟩
  | add h hadd ih =>
    obtain ⟨lists, hw⟩ := ih
    exact hw.addTimer hadd
  | del h hp hdel ih =>
    obtain ⟨lists, hw⟩ := ih
    exact hw.delTimer hp hdel
  | @tick w w' script calls h hb htick ih =>
    obtain ⟨lists, hw⟩ := ih
    obtain ⟨w'', es, hlog, hsafe⟩ := hw.tickLog_spec hb
    rw [tick_eq, hlog, Option.map_some, Option.some.injEq, Prod.mk.injEq] at htick
    exact htick.1 ▸ hsafe.lists

/-- **The wheel is safe for callbacks that use it**: as long as they delete other timers that are
pending, a tick comes to its end with the lists in order, every timer of the current slot is passed
or has its callback run just once, unless it is deleted before, and all other timers are changed by
the callbacks only. -/
theorem Reached.safeTick (h : Reached w) {script : Script κ} (hb : Behaves script w) :
    ∃ w' es, TimeWheel.tick (runScript script) w = some (w', callsOf es) ∧
      tickLog script w = some (w', es) ∧ SafeTick w w' es := by
  obtain ⟨lists, hw⟩ := h.wellLinked
  obtain ⟨w', es, hlog, hsafe⟩ := hw.tickLog_spec hb
  exact ⟨w', es, by rw [tick_eq, hlog]; rfl, hlog, hsafe⟩

/-- Callbacks that only add timers may do so. -/
theorem loopBehaves_of_adds {script : Script κ}
    (h : ∀ c w, ∀ act ∈ script c w, ∀ q, act ≠ .del q) (fuel : ℕ) (w : TimeWheel κ)
    (tmp : Option ℕ) : LoopBehaves script fuel w tmp := by
  have hallowed : ∀ (p : ℕ) (acts : List (Act κ)) (w : TimeWheel κ),
      (∀ act ∈ acts, ∀ q, act ≠ .del q) → Allowed p w acts := by
    intro p acts
    induction acts with
    | nil => exact fun _ _ => trivial
    | cons act acts ih =>
      intro w hacts
      exact ⟨fun q hq => absurd hq (hacts act List.mem_cons_self q),
        fun w' _ _ => ih w' fun a ha => hacts a (List.mem_cons_of_mem act ha)⟩
  induction fuel generalizing w tmp with
  | zero => exact trivial
  | succ fuel ih =>
    cases tmp with
    | none => exact trivial
    | some tmp =>
      exact ⟨fun t _ _ => hallowed tmp _ w (h t.callback w), fun w' next _ _ => ih w' next⟩

/-- A timer with timeout `1`, the callback of which adds one for the slot that is being walked. -/
theorem Reached.safeTick_again : ∃ w : TimeWheel Unit, w.Pending 0 ∧ Reached w ∧
    ∃ w' es, TimeWheel.tick (runScript fun _ _ => [.add 60 ()]) w = some (w', callsOf es) ∧
      tickLog (fun _ _ => [.add 60 ()]) w = some (w', es) ∧ SafeTick w w' es := by
  have hruns : ∃ w₁ w₂ : TimeWheel Unit, addTimer TimeWheel.new 1 () = some (some 0, w₁) ∧
      TimeWheel.tick (runScript fun _ _ => []) w₁ = some (w₂, []) ∧ w₂.Pending 0 :=
    ⟨_, _, rfl, rfl, _, rfl⟩
  obtain ⟨w₁, w₂, hadd, htick, hp⟩ := hruns
  have hreached : Reached w₂ :=
    .tick (.add .new hadd) (loopBehaves_of_adds (by simp) _ _ _) htick
  exact ⟨w₂, hp, hreached, hreached.safeTick (loopBehaves_of_adds (by simp) _ _ _)⟩

end TimeWheel
end Timers
end CModel
