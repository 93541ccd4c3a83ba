import CModel.Foundation.Rotation
import CModel.ProcessPool.Pool

/-!
# Which child gets a connection

The parent goes around its children and leaves out those that have died, which `SIGCHLD` tells it.

* `reap`, `World.sigchld`: what `run_parent` does with the children that `waitpid` hands back.
* `ParentEvent`, `reaping`: the pool with children that die.
* `findChild_spec`: the search comes to the first living child from the counter on.
* `parentStep_cases`: what an event does to `m_pid`, the counter and `m_stop`.
* `Sends`, `Sends.rotation`: the children that get notifications take turns.
* `roundRobin`: **a connection goes to a living child if there is one, `m_stop` says that there is
  none, and between two notifications of a child each other one that lives on gets exactly one**.
-/

namespace CModel
namespace ProcessPool

/-! ## Children that die -/

/-- The parent marks the child that `waitpid` has returned. -/
def reap (children : List Child) (pid : ℤ) : List Child :=
  children.map fun c => if c.pid = pid then { c with pid := -1 } else c

/-- What `run_parent` does on `SIGCHLD`, when `waitpid` returns `reaped` one after the other. -/
def World.sigchld (w : World) (reaped : List ℤ) : World :=
  let children := reaped.foldl reap w.children
  { w with children, stop := children.all fun c => c.pid = -1 }

/-- An event of the pool, or a `SIGCHLD`. -/
inductive ParentEvent where
  | pool (e : Event)
  | sigchld (reaped : List ℤ)

/-- What can happen in a world; children die whenever they like. -/
def ParentEnabled (w : World) : ParentEvent → Prop
  | .pool e => Enabled w e
  | .sigchld _ => True

/-- One event. -/
def parentStep (w : World) : ParentEvent → Option World
  | .pool e => step w e
  | .sigchld reaped => some (w.sigchld reaped)

/-- The pool with children that die. -/
def reaping : System World ParentEvent := ⟨ParentEnabled, parentStep⟩

/-- The child that an event sends a notification to. -/
def sentTo (w : World) : ParentEvent → Option ℕ
  | .pool .dispatch => if (w.children[w.next]?.map Child.pid) ≠ some (-1) then some w.next else none
  | _ => none

/-- The `m_pid` of the child is not `-1`. -/
def AliveAt (children : List Child) (i : ℕ) : Prop := ∃ c, children[i]? = some c ∧ c.pid ≠ -1

/-- The children that the parent takes for living. -/
def World.Alive (w : World) : ℕ → Prop := AliveAt w.children

/-- Events one after the other, with the children that get notifications. -/
inductive Sends : World → List ℕ → World → Prop where
  | nil (w : World) : Sends w [] w
  | cons {w w₁ w₂ : World} {e : ParentEvent} {l : List ℕ} (he : ParentEnabled w e)
      (hstep : parentStep w e = some w₁) (h : Sends w₁ l w₂) :
      Sends w ((sentTo w e).toList ++ l) w₂

variable {w w' : World} {e : ParentEvent} {children : List Child} {i : ℕ}

/-! ## The search -/

theorem AliveAt.lt (h : AliveAt children i) : i < children.length := by
  obtain ⟨c, hc, -⟩ := h
  exact (List.getElem?_eq_some_iff.mp hc).1

theorem aliveAt_iff (hi : i < children.length) :
    (children[i]?.map Child.pid) ≠ some (-1) ↔ AliveAt children i := by
  rw [AliveAt, List.getElem?_eq_getElem hi, Option.map_some, ne_eq, Option.some.injEq]
  constructor
  · intro h
    exact ⟨_, rfl, h⟩
  · rintro ⟨c, hc, h⟩
    rwa [Option.some.inj hc]

/-- The search from `d` children behind the counter on, when there is none alive in front of it. -/
theorem findChild_from {counter d fuel : ℕ} (hcounter : counter < children.length)
    (hd : d < children.length) (hfuel : d + fuel = children.length)
    (hskipped : ∀ a < d, ¬ AliveAt children ((counter + a) % children.length)) :
    (∃ o, FirstFrom children.length (AliveAt children) counter o ∧
        findChild children counter fuel ((counter + d) % children.length) =
          (counter + o) % children.length) ∨
      ((∀ i, ¬ AliveAt children i) ∧
        findChild children counter fuel ((counter + d) % children.length) = counter) := by
  induction fuel generalizing d with
  | zero => omega
  | succ fuel ih =>
    have hlt : (counter + d) % children.length < children.length := Nat.mod_lt _ (by omega)
    rw [findChild]
    by_cases halive : AliveAt children ((counter + d) % children.length)
    · left
      exact ⟨d, ⟨hd, halive, hskipped⟩, if_pos ((aliveAt_iff hlt).mpr halive)⟩
    · have hskipped' : ∀ a < d + 1, ¬ AliveAt children ((counter + a) % children.length) := by
        intro a ha
        rcases Nat.lt_succ_iff_lt_or_eq.mp ha with ha | rfl
        · exact hskipped a ha
        · exact halive
      rw [if_neg (mt (aliveAt_iff hlt).mp halive)]
      simp only [Nat.mod_add_mod, Nat.add_assoc]
      by_cases hlast : d + 1 = children.length
      · right
        have hback : (counter + (d + 1)) % children.length = counter := by
          rw [hlast, Nat.add_mod_right, Nat.mod_eq_of_lt hcounter]
        refine ⟨?_, by rw [if_pos hback, hback]⟩
        intro i hi
        obtain ⟨o, ho, rfl⟩ := exists_add_mod hcounter hi.lt
        exact hskipped' o (by omega) hi
      · have hon : (counter + (d + 1)) % children.length ≠ counter := by
          intro hback
          have hzero : d + 1 = 0 := add_mod_inj (c := counter) (n := children.length) (by omega)
            (by omega) (by rw [hback, Nat.add_zero, Nat.mod_eq_of_lt hcounter])
          omega
        rw [if_neg hon]
        exact ih (by omega) (by omega) hskipped'

/-- **The search** comes to the first living child from the counter on; without one it comes back to
the counter. -/
theorem next_spec (hcounter : w.subProcessCounter < w.children.length) :
    (∃ o, FirstFrom w.children.length w.Alive w.subProcessCounter o ∧
        w.next = (w.subProcessCounter + o) % w.children.length) ∨
      ((∀ i, ¬ w.Alive i) ∧ w.next = w.subProcessCounter) := by
  have h := findChild_from hcounter (show 0 < w.children.length by omega)
    (show 0 + w.children.length = w.children.length by omega)
    fun a ha => absurd ha (Nat.not_lt_zero a)
  rwa [Nat.add_zero, Nat.mod_eq_of_lt hcounter] at h

/-! ## What an event does -/

theorem aliveAt_modify {f : Child → Child} (hf : ∀ c, (f c).pid = c.pid) (i j : ℕ) :
    AliveAt (children.modify i f) j ↔ AliveAt children j := by
  rw [AliveAt, AliveAt, List.getElem?_modify]
  cases children[j]? with
  | none => simp
  | some c => by_cases hij : i = j <;> simp [hij, hf]

theorem aliveAt_set {c c' : Child} (hc : children[i]? = some c) (hpid : c'.pid = c.pid) (j : ℕ) :
    AliveAt (children.set i c') j ↔ AliveAt children j := by
  by_cases hij : i = j
  · subst hij
    have hlt := (List.getElem?_eq_some_iff.mp hc).1
    rw [AliveAt, AliveAt, List.getElem?_set_self hlt, hc]
    simp [hpid]
  · rw [AliveAt, AliveAt, List.getElem?_set_ne hij]

/-- No child comes back to life. -/
theorem AliveAt.of_reap {pid : ℤ} (h : AliveAt (reap children pid) i) : AliveAt children i := by
  obtain ⟨c, hc, hpid⟩ := h
  rw [reap, List.getElem?_map, Option.map_eq_some_iff] at hc
  obtain ⟨c₀, hc₀, rfl⟩ := hc
  refine ⟨c₀, hc₀, fun h0 => hpid ?_⟩
  split
  · rfl
  · exact h0

theorem AliveAt.of_reaped {reaped : List ℤ} (h : AliveAt (reaped.foldl reap children) i) :
    AliveAt children i := by
  induction reaped generalizing children with
  | nil => exact h
  | cons pid reaped ih => exact (ih h).of_reap

theorem length_reaped (reaped : List ℤ) (children : List Child) :
    (reaped.foldl reap children).length = children.length := by
  induction reaped generalizing children with
  | nil => rfl
  | cons pid reaped ih => rw [List.foldl_cons, ih, reap, List.length_map]

/-- The loop over all children behind `SIGCHLD`. -/
theorem all_eq_true_iff (children : List Child) :
    (children.all fun c => c.pid = -1) = true ↔ ∀ i, ¬ AliveAt children i := by
  rw [List.all_eq_true]
  constructor
  · rintro h i ⟨c, hc, hpid⟩
    exact hpid (by simpa using h c (List.mem_of_getElem? hc))
  · intro h c hc
    obtain ⟨i, hi⟩ := List.mem_iff_getElem?.mp hc
    rw [decide_eq_true_iff]
    by_contra hpid
    exact h i ⟨c, hi, hpid⟩

/-- An event that changes nothing that the round robin looks at. -/
structure Quiet (w w' : World) : Prop where
  length : w'.children.length = w.children.length
  counter : w'.subProcessCounter = w.subProcessCounter
  stop : w'.stop = w.stop
  alive : ∀ i, w'.Alive i ↔ w.Alive i

/-- The child `o` places behind the counter gets a notification. -/
structure Turn (w w' : World) (o : ℕ) : Prop where
  first : FirstFrom w.children.length w.Alive w.subProcessCounter o
  length : w'.children.length = w.children.length
  counter : w'.subProcessCounter = (w.subProcessCounter + o + 1) % w.children.length
  stop : w'.stop = w.stop
  alive : ∀ i, w'.Alive i ↔ w.Alive i

/-- The parent has looked at all children, and set `m_stop` by what it saw. -/
structure Surveyed (w w' : World) : Prop where
  length : w'.children.length = w.children.length
  counter : w'.subProcessCounter = w.subProcessCounter
  stop : w'.stop = true ↔ ∀ i, ¬ w'.Alive i
  alive : ∀ i, w'.Alive i → w.Alive i

theorem quiet_modify (w : World) (i : ℕ) {f : Child → Child} (hf : ∀ c, (f c).pid = c.pid) :
    Quiet w (w.modify i f) :=
  ⟨List.length_modify .., rfl, rfl, aliveAt_modify hf i⟩

theorem surveyed_sigchld (w : World) (reaped : List ℤ) : Surveyed w (w.sigchld reaped) :=
  ⟨length_reaped reaped w.children, rfl, all_eq_true_iff _, fun _ h => AliveAt.of_reaped h⟩

theorem dispatch_of_alive {c : Child} (hc : w.children[w.next]? = some c) (hpid : c.pid ≠ -1) :
    w.dispatch = some { w with
      reported := false
      subProcessCounter := (w.next + 1) % w.children.length
      children := w.children.set w.next { c with pipe := c.pipe + 1, ready := true } } := by
  simp only [World.dispatch, hc, if_neg hpid]

theorem dispatch_of_dead {c : Child} (hc : w.children[w.next]? = some c) (hpid : c.pid = -1) :
    w.dispatch = some { w with reported := false, stop := true } := by
  simp only [World.dispatch, hc, if_pos hpid]

/-- A connection event, in a world with a living child and in one without. -/
theorem dispatch_cases (hcounter : w.subProcessCounter < w.children.length) :
    (∃ o c w', w.dispatch = some w' ∧ Turn w w' o ∧ sentTo w (.pool .dispatch) = some w.next ∧
        w.next = (w.subProcessCounter + o) % w.children.length ∧
        w.children[w.next]? = some c ∧ c.pid ≠ -1 ∧
        w'.children[w.next]? = some { c with pipe := c.pipe + 1, ready := true }) ∨
      ∃ w', w.dispatch = some w' ∧ (∀ i, ¬ w.Alive i) ∧ Surveyed w w' ∧
        sentTo w (.pool .dispatch) = none := by
  rcases next_spec hcounter with ⟨o, hfirst, hnext⟩ | ⟨hdead, hnext⟩
  · left
    obtain ⟨c, hc, hpid⟩ := hfirst.mem
    have hlt := (List.getElem?_eq_some_iff.mp hc).1
    rw [← hnext] at hc hlt
    refine ⟨o, c, _, dispatch_of_alive hc hpid, ⟨hfirst, List.length_set .., ?_, rfl,
      aliveAt_set hc rfl⟩, if_pos ((aliveAt_iff hlt).mpr ⟨c, hc, hpid⟩), hnext, hc, hpid,
      List.getElem?_set_self hlt⟩
    rw [hnext, Nat.mod_add_mod]
  · right
    obtain ⟨c, hc⟩ : ∃ c, w.children[w.subProcessCounter]? = some c :=
      ⟨_, List.getElem?_eq_getElem hcounter⟩
    have hpid : c.pid = -1 := by
      by_contra hpid
      exact hdead _ ⟨c, hc, hpid⟩
    rw [← hnext] at hc
    refine ⟨_, dispatch_of_dead hc hpid, hdead, ⟨rfl, rfl, iff_of_true rfl hdead, fun _ h => h⟩, ?_⟩
    rw [sentTo, hc, Option.map_some, hpid, if_neg (by simp)]

/-- **What an event does** to `m_pid`, the counter and `m_stop`. -/
theorem parentStep_cases (hcounter : w.subProcessCounter < w.children.length)
    (hstep : parentStep w e = some w') :
    (sentTo w e = none ∧ Quiet w w') ∨
      (∃ o, sentTo w e = some ((w.subProcessCounter + o) % w.children.length) ∧ Turn w w' o) ∨
      (sentTo w e = none ∧ Surveyed w w') := by
  cases e with
  | sigchld reaped =>
    obtain rfl := Option.some.inj hstep
    exact Or.inr (Or.inr ⟨rfl, surveyed_sigchld w reaped⟩)
  | pool e =>
    cases e with
    | arrive =>
      obtain rfl := Option.some.inj hstep
      exact Or.inl ⟨rfl, rfl, rfl, rfl, fun _ => Iff.rfl⟩
    | parentWait =>
      obtain rfl := Option.some.inj hstep
      exact Or.inl ⟨rfl, rfl, rfl, rfl, fun _ => Iff.rfl⟩
    | dispatch =>
      rcases dispatch_cases hcounter with ⟨o, c, w₁, hw₁, hturn, hsent, hnext, -⟩ |
        ⟨w₁, hw₁, -, hsurveyed, hsent⟩
      · obtain rfl := Option.some.inj (hw₁.symm.trans hstep)
        exact Or.inr (Or.inl ⟨o, by rw [hsent, hnext], hturn⟩)
      · obtain rfl := Option.some.inj (hw₁.symm.trans hstep)
        exact Or.inr (Or.inr ⟨hsent, hsurveyed⟩)
    | childWait i =>
      obtain rfl := Option.some.inj hstep
      exact Or.inl ⟨rfl, quiet_modify w i fun _ => rfl⟩
    | receive i =>
      obtain rfl := Option.some.inj hstep
      exact Or.inl ⟨rfl, quiet_modify w i fun _ => rfl⟩
    | accept i =>
      have hquiet := quiet_modify w i (f := fun c => { c with place := .idle }) fun _ => rfl
      simp only [parentStep, step] at hstep
      split at hstep <;> obtain rfl := Option.some.inj hstep
      · exact Or.inl ⟨rfl, hquiet⟩
      · exact Or.inl ⟨rfl, hquiet.1, hquiet.2, hquiet.3, hquiet.4⟩

/-! ## Runs -/

/-- What holds of the parent between two events. -/
structure Going (w : World) : Prop where
  counter : w.subProcessCounter < w.children.length
  stop : w.stop = true ↔ ∀ i, ¬ w.Alive i

theorem going_init {pids : List ℤ} (hpids : ∀ pid ∈ pids, 0 < pid) (hne : pids ≠ []) :
    Going (World.init pids) := by
  obtain ⟨pid, pids, rfl⟩ := List.exists_cons_of_ne_nil hne
  refine ⟨Nat.succ_pos _, iff_of_false Bool.false_ne_true ?_⟩
  intro hdead
  have hpos := hpids pid List.mem_cons_self
  exact hdead 0 ⟨_, rfl, by show pid ≠ -1; omega⟩

/-- **Every event keeps the counter and `m_stop` right.** -/
theorem Going.step (h : Going w) (hstep : parentStep w e = some w') : Going w' := by
  have hcounter := h.counter
  rcases parentStep_cases hcounter hstep with ⟨-, hq⟩ | ⟨o, -, ht⟩ | ⟨-, hs⟩
  · refine ⟨by rw [hq.counter, hq.length]; exact hcounter, ?_⟩
    rw [hq.stop, h.stop]
    exact forall_congr' fun i => not_congr (hq.alive i).symm
  · refine ⟨by rw [ht.counter, ht.length]; exact Nat.mod_lt _ (by omega), ?_⟩
    rw [ht.stop, h.stop]
    exact forall_congr' fun i => not_congr (ht.alive i).symm
  · exact ⟨by rw [hs.counter, hs.length]; exact hcounter, hs.stop⟩

theorem going_of_runs {pids : List ℤ} (hpids : ∀ pid ∈ pids, 0 < pid) (hne : pids ≠ [])
    (hruns : reaping.Runs (World.init pids) w) : Going w :=
  hruns.keep (going_init hpids hne) fun h _ hstep => h.step hstep

/-- **The children that get notifications take turns.** -/
theorem Sends.rotation {l : List ℕ} (h : Sends w l w') (hg : Going w) :
    Rotation w.children.length w.Alive w.subProcessCounter l w'.Alive w'.subProcessCounter := by
  induction h with
  | nil w => exact .nil _ _
  | @cons w w₁ w₂ e l he hstep h ih =>
    have hrest := ih (hg.step hstep)
    rcases parentStep_cases hg.counter hstep with ⟨hsent, hq⟩ | ⟨o, hsent, ht⟩ | ⟨hsent, hs⟩
    · rw [hsent]
      rw [hq.length, hq.counter] at hrest
      exact .leave (fun i => (hq.alive i).mp) hrest
    · rw [hsent]
      rw [ht.length, ht.counter] at hrest
      exact .turn ht.first (.leave (fun i => (ht.alive i).mp) hrest)
    · rw [hsent]
      rw [hs.length, hs.counter] at hrest
      exact .leave hs.alive hrest

/-- **The round robin of the pool**, in every state that connections and deaths of children lead to:
a connection event is sent to a living child if there is one; `m_stop` is set exactly if there is
none; and from one notification of a child to its next one each other child that lives on gets
exactly one. -/
theorem roundRobin {pids : List ℤ} (hpids : ∀ pid ∈ pids, 0 < pid) (hne : pids ≠ [])
    (hruns : reaping.Runs (World.init pids) w) :
    (∀ i, w.Alive i → ∃ k c w', w.dispatch = some w' ∧ sentTo w (.pool .dispatch) = some k ∧
      w.children[k]? = some c ∧ c.pid ≠ -1 ∧
      w'.children[k]? = some { c with pipe := c.pipe + 1, ready := true }) ∧
    (w.stop = true ↔ ∀ i, ¬ w.Alive i) ∧
    ∀ j mid w', Sends w (j :: (mid ++ [j])) w' → j ∉ mid →
      ∀ k, k ≠ j → w'.Alive k → mid.count k = 1 := by
  have hg := going_of_runs hpids hne hruns
  refine ⟨?_, hg.stop, ?_⟩
  · intro i hi
    rcases dispatch_cases hg.counter with ⟨o, c, w', hw', -, hsent, -, hc, hpid, hset⟩ |
      ⟨w', -, hdead, -⟩
    · exact ⟨w.next, c, w', hw', hsent, hc, hpid, hset⟩
    · exact absurd hi (hdead i)
  · intro j mid w' hsends hmid k hk halive
    have hrot := hsends.rotation hg
    exact hrot.count_between hmid (hrot.of_left halive).lt hk halive

/-- Three children. -/
theorem roundRobin_three :
    (∀ i, (World.init [7, 8, 9]).Alive i → ∃ k c w', (World.init [7, 8, 9]).dispatch = some w' ∧
      sentTo (World.init [7, 8, 9]) (.pool .dispatch) = some k ∧
      (World.init [7, 8, 9]).children[k]? = some c ∧ c.pid ≠ -1 ∧
      w'.children[k]? = some { c with pipe := c.pipe + 1, ready := true }) ∧
    ((World.init [7, 8, 9]).stop = true ↔ ∀ i, ¬ (World.init [7, 8, 9]).Alive i) ∧
    ∀ j mid w', Sends (World.init [7, 8, 9]) (j :: (mid ++ [j])) w' → j ∉ mid →
      ∀ k, k ≠ j → w'.Alive k → mid.count k = 1 :=
  roundRobin (by decide) (by decide) .refl

end ProcessPool
end CModel
