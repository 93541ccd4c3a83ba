import CModel.ProcessPool.Pool
import Mathlib.Algebra.BigOperators.Group.List.Basic

/-!
# Connections that are handed over

Each hop has one event for whatever has arrived since the last `epoll_wait`, and its handler does
one `send`, or one `recv` and one `accept`.  An arrival that finds the last one not yet told makes
no event of its own.

* `World.inFlight`: the connections that some event will still come to.
* `Separate`: an arrival, or a notification, that makes an event of its own.
* `Tally`: what has arrived has been accepted, is in flight, or has been lost; `Tally.step`: a step
  loses a connection exactly where it is not separate.
* `accepted_iff_separate`: **all connections are accepted exactly in the runs of separate steps.**
-/

namespace CModel
namespace ProcessPool

variable {w w' : World} {e : Event} {lost i : ℕ} {c : Child}

/-- The notifications that a child has an event for. -/
def Child.inFlight (c : Child) : ℕ := c.ready.toNat + if c.place = .idle then 0 else 1

/-- The connections that somebody has an event for. -/
def World.inFlight (w : World) : ℕ :=
  w.ready.toNat + w.reported.toNat + (w.children.map Child.inFlight).sum

/-- What arrives with `e` makes an event of its own. -/
def Separate (w : World) : Event → Prop
  | .arrive => w.ready = false
  | .dispatch => ∀ c, w.children[w.next]? = some c → c.ready = false
  | _ => True

/-- No readiness is left to tell, and no event to handle. -/
structure Quiescent (w : World) : Prop where
  ready : w.ready = false
  reported : w.reported = false
  children : ∀ c ∈ w.children, c.ready = false ∧ c.place = .idle

theorem Quiescent.inFlight_eq (h : Quiescent w) : w.inFlight = 0 := by
  have hsum : (w.children.map Child.inFlight).sum = 0 := by
    refine List.sum_eq_zero ?_
    intro n hn
    obtain ⟨c, hc, rfl⟩ := List.mem_map.mp hn
    obtain ⟨hready, hplace⟩ := h.children c hc
    simp [Child.inFlight, hready, hplace]
  rw [World.inFlight, h.ready, h.reported, hsum]
  rfl

/-- What has arrived has been accepted, is in flight, or is lost. -/
structure Tally (w : World) (lost : ℕ) : Prop where
  alive : ∀ c ∈ w.children, c.pid ≠ -1
  counter : w.subProcessCounter < w.children.length
  waits : w.backlog + w.accepted = w.arrived
  count : w.accepted + w.inFlight + lost = w.arrived

theorem tally_init {pids : List ℤ} (hpids : ∀ pid ∈ pids, 0 < pid) (hne : pids ≠ []) :
    Tally (World.init pids) 0 where
  alive c hc := by
    obtain ⟨pid, hpid, rfl⟩ := List.mem_map.mp hc
    have hpos := hpids pid hpid
    simp only [ne_eq]
    omega
  counter := by
    simpa [World.init] using List.length_pos_iff.mpr hne
  waits := rfl
  count := by
    have hquiescent : Quiescent (World.init pids) := by
      refine ⟨rfl, rfl, ?_⟩
      intro c hc
      obtain ⟨pid, -, rfl⟩ := List.mem_map.mp hc
      exact ⟨rfl, rfl⟩
    rw [hquiescent.inFlight_eq]
    rfl

/-! ## One lemma for each kind of step -/

theorem modify_eq (hi : w.children[i]? = some c) (f : Child → Child) :
    w.modify i f = { w with children := w.children.set i (f c) } := by
  rw [World.modify, List.modify_eq_set_getElem?, hi]
  rfl

theorem mem_set_alive (h : ∀ c ∈ w.children, c.pid ≠ -1) {c' : Child} (hc : c ∈ w.children)
    (hpid : c'.pid = c.pid) (i : ℕ) : ∀ d ∈ w.children.set i c', d.pid ≠ -1 := by
  intro d hd
  rcases List.mem_or_eq_of_mem_set hd with hd | rfl
  · exact h d hd
  · rw [hpid]
    exact h c hc

/-- A child that only goes on with its event. -/
theorem Tally.move (h : Tally w lost) (hi : w.children[i]? = some c) {f : Child → Child}
    (hpid : (f c).pid = c.pid) (hflight : (f c).inFlight = c.inFlight) :
    Tally (w.modify i f) lost := by
  have hmove := sum_map_move hi (f c) Child.inFlight
  have hcount := h.count
  rw [modify_eq hi]
  refine ⟨mem_set_alive h.alive (List.mem_of_getElem? hi) hpid i, ?_, h.waits, ?_⟩
  · simpa using h.counter
  · simp only [World.inFlight] at hcount ⊢
    omega

theorem Tally.arrive (h : Tally w lost) :
    Tally { w with backlog := w.backlog + 1, ready := true, arrived := w.arrived + 1 }
      (lost + w.ready.toNat) := by
  have hcount := h.count
  have hwaits := h.waits
  refine ⟨h.alive, h.counter, ?_, ?_⟩
  · simp only
    omega
  · simp only [World.inFlight, Bool.toNat_true] at hcount ⊢
    omega

theorem Tally.parentWait (h : Tally w lost) (hreported : w.reported = false)
    (hready : w.ready = true) : Tally { w with ready := false, reported := true } lost := by
  refine ⟨h.alive, h.counter, h.waits, ?_⟩
  have hcount := h.count
  simp only [World.inFlight, hreported, hready] at hcount ⊢
  omega

/-- All children are there, so the first one that is looked at gets the notification. -/
theorem Tally.next_eq (h : Tally w lost) : w.next = w.subProcessCounter := by
  obtain ⟨n, hn⟩ : ∃ n, w.children.length = n + 1 :=
    Nat.exists_eq_add_one.mpr (Nat.zero_lt_of_lt h.counter)
  have hi := List.getElem?_eq_getElem h.counter
  rw [World.next, hn, findChild, if_pos]
  rw [hi, Option.map_some, ne_eq, Option.some.injEq]
  exact h.alive _ (List.getElem_mem h.counter)

theorem Tally.dispatch (h : Tally w lost) (hreported : w.reported = true) :
    ∃ c, w.children[w.next]? = some c ∧ ∃ w', w.dispatch = some w' ∧
      Tally w' (lost + c.ready.toNat) := by
  have hlt : w.next < w.children.length := h.next_eq.symm ▸ h.counter
  obtain ⟨c, hc⟩ : ∃ c, w.children[w.next]? = some c := ⟨_, List.getElem?_eq_getElem hlt⟩
  have hmem := List.mem_of_getElem? hc
  refine ⟨c, hc, _, by rw [World.dispatch, hc]; exact if_neg (h.alive c hmem), ?_⟩
  have hmove := sum_map_move hc { c with pipe := c.pipe + 1, ready := true } Child.inFlight
  have hcount := h.count
  have halive : ∀ i, ∀ d ∈ w.children.set i { c with pipe := c.pipe + 1, ready := true },
      d.pid ≠ -1 := mem_set_alive h.alive hmem rfl
  refine ⟨halive w.next, ?_, h.waits, ?_⟩
  · simpa using Nat.mod_lt _ (Nat.zero_lt_of_lt h.counter)
  · simp only [World.inFlight, Child.inFlight, hreported, Bool.toNat_true, Bool.toNat_false]
      at hcount hmove ⊢
    omega

/-- Whoever comes to `accept` finds a connection. -/
theorem Tally.accept (h : Tally w lost) (hi : w.children[i]? = some c)
    (hplace : c.place = .received) (hstep : step w (.accept i) = some w') : Tally w' lost := by
  have hmove := sum_map_move hi { c with place := .idle } Child.inFlight
  have hcount := h.count
  have hwaits := h.waits
  simp only [World.inFlight, Child.inFlight, hplace, reduceCtorEq, if_true, if_false]
    at hcount hmove
  have hbacklog : w.backlog ≠ 0 := by omega
  simp only [step, modify_eq hi, if_neg hbacklog] at hstep
  obtain rfl := Option.some.inj hstep
  have halive : ∀ i, ∀ d ∈ w.children.set i { c with place := .idle }, d.pid ≠ -1 :=
    mem_set_alive h.alive (List.mem_of_getElem? hi) rfl
  refine ⟨halive i, ?_, ?_, ?_⟩
  · simpa using h.counter
  · simp only
    omega
  · simp only [World.inFlight]
    omega

/-- A step loses a connection exactly where what arrives with it makes no event. -/
theorem Tally.step (h : Tally w lost) (he : Enabled w e)
    (hstep : ProcessPool.step w e = some w') :
    ∃ n, Tally w' (lost + n) ∧ (n = 0 ↔ Separate w e) := by
  cases e with
  | arrive =>
    obtain rfl := Option.some.inj hstep
    exact ⟨_, h.arrive, by cases hw : w.ready <;> simp [Separate, hw]⟩
  | parentWait =>
    obtain rfl := Option.some.inj hstep
    exact ⟨0, h.parentWait he.2.1 he.2.2, by simp [Separate]⟩
  | dispatch =>
    obtain ⟨c, hc, w₁, hw₁, h₁⟩ := h.dispatch he
    obtain rfl := Option.some.inj (hw₁.symm.trans hstep)
    exact ⟨_, h₁, by cases hready : c.ready <;> simp [Separate, hc, hready]⟩
  | childWait i =>
    obtain ⟨c, hi, hplace, hready⟩ := he
    obtain rfl := Option.some.inj hstep
    exact ⟨0, h.move hi rfl (by simp [Child.inFlight, hplace, hready]), by simp [Separate]⟩
  | receive i =>
    obtain ⟨c, hi, hplace⟩ := he
    obtain rfl := Option.some.inj hstep
    exact ⟨0, h.move hi rfl (by simp [Child.inFlight, hplace]), by simp [Separate]⟩
  | accept i =>
    obtain ⟨c, hi, hplace⟩ := he
    exact ⟨0, h.accept hi hplace hstep, by simp [Separate]⟩

/-! ## Runs -/

/-- What a run of separate steps comes to. -/
theorem tally_of_separate (h : Tally w 0) (hruns : (pool.only Separate).Runs w w') :
    Tally w' 0 := by
  refine hruns.keep (P := fun v => Tally v 0) h fun hv he hstep => ?_
  obtain ⟨n, hn, hzero⟩ := hv.step he.1 hstep
  rwa [hzero.mpr he.2] at hn

/-- A run that has lost nothing is one of separate steps. -/
theorem exists_tally (h : Tally w 0) (hruns : pool.Runs w w') :
    ∃ lost, Tally w' lost ∧ (lost = 0 → (pool.only Separate).Runs w w') := by
  induction hruns with
  | refl => exact ⟨0, h, fun _ => .refl⟩
  | step _ he hstep ih =>
    obtain ⟨lost, hv, hruns⟩ := ih
    obtain ⟨n, hn, hzero⟩ := hv.step he hstep
    refine ⟨lost + n, hn, ?_⟩
    intro hall
    have hsum := Nat.add_eq_zero_iff.mp hall
    exact (hruns hsum.1).step ⟨he, hzero.mp hsum.2⟩ hstep

/-- With any number of children that do not die, in any order of arrivals, returns of `epoll_wait`
and steps of the handlers: where no readiness is left to tell and no event to handle, all
connections have been accepted if and only if each of them, and each notification, has come when the
one before it had been told. -/
theorem accepted_iff_separate {pids : List ℤ} (hpids : ∀ pid ∈ pids, 0 < pid) (hne : pids ≠ [])
    (hruns : pool.Runs (World.init pids) w) (hquiescent : Quiescent w) :
    w.accepted = w.arrived ↔ (pool.only Separate).Runs (World.init pids) w := by
  have hinit := tally_init hpids hne
  constructor
  · intro heq
    obtain ⟨lost, h, hseparate⟩ := exists_tally hinit hruns
    have hcount := h.count
    rw [hquiescent.inFlight_eq] at hcount
    exact hseparate (by omega)
  · intro hseparate
    have hcount := (tally_of_separate hinit hseparate).count
    rwa [hquiescent.inFlight_eq] at hcount

/-- A single connection is accepted. -/
theorem accepted_iff_separate_one : ∃ w, pool.Runs (World.init [7]) w ∧ Quiescent w ∧
    w.arrived = 1 ∧ w.accepted = w.arrived := by
  have hruns : (pool.only Separate).Runs (World.init [7]) _ :=
    .head (e := .arrive) ⟨trivial, rfl⟩ rfl <|
    .head (e := .parentWait) ⟨⟨rfl, rfl, rfl⟩, trivial⟩ rfl <|
    .head (e := .dispatch) ⟨rfl, by rintro c ⟨⟩; rfl⟩ rfl <|
    .head (e := .childWait 0) ⟨⟨_, rfl, rfl, rfl⟩, trivial⟩ rfl <|
    .head (e := .receive 0) ⟨⟨_, rfl, rfl⟩, trivial⟩ rfl <|
    .head (e := .accept 0) ⟨⟨_, rfl, rfl⟩, trivial⟩ rfl .refl
  refine ⟨_, hruns.of_only, ?quiescent, rfl,
    (accepted_iff_separate (by simp) (by simp) hruns.of_only ?quiescent).mpr hruns⟩
  refine ⟨rfl, rfl, ?_⟩
  intro c hc
  obtain rfl := List.mem_singleton.mp hc
  exact ⟨rfl, rfl⟩

/-- Of two connections that arrive together only one is accepted. -/
theorem burst_loses : ∃ w, pool.Runs (World.init [7]) w ∧ Quiescent w ∧
    w.arrived = 2 ∧ w.accepted = 1 := by
  have hruns : pool.Runs (World.init [7]) _ :=
    .head (e := .arrive) trivial rfl <|
    .head (e := .arrive) trivial rfl <|
    .head (e := .parentWait) ⟨rfl, rfl, rfl⟩ rfl <|
    .head (e := .dispatch) rfl rfl <|
    .head (e := .childWait 0) ⟨_, rfl, rfl, rfl⟩ rfl <|
    .head (e := .receive 0) ⟨_, rfl, rfl⟩ rfl <|
    .head (e := .accept 0) ⟨_, rfl, rfl⟩ rfl .refl
  refine ⟨_, hruns, ⟨rfl, rfl, ?_⟩, rfl, rfl⟩
  intro c hc
  obtain rfl := List.mem_singleton.mp hc
  exact ⟨rfl, rfl⟩

end ProcessPool
end CModel
