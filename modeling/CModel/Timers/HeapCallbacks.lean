import CModel.Timers.HeapRuns

/-!
# Callbacks that add timers to the heap

`tick` runs the callback of `array[0]` and then pops `array[0]`, whatever that is by then.  A
callback may add timers in between.

* `NewTimer`, `addAll`: the timers that a callback adds, and when it reads the clock for them.
* `Round`, `tickRounds`: any number of rounds of the loop of `tick`, with what each of them calls,
  adds and pops.
* `addNew_root`: a timer that does not expire earlier than the root does not get to the root.
* `PopsRight`, `Reached.popsRight`: **the timer that is popped is the one that has been called**, so
  that none is called twice and none is lost.
-/

namespace CModel
namespace Timers
namespace TimeHeap

open BinaryHeap

variable {κ : Type} {h h' : TimeHeap κ}

/-! ## What callbacks do -/

/-- `new heap_timer(delay)` with a callback, where `time` reads `now`. -/
structure NewTimer (κ : Type) where
  now : ℤ
  delay : ℤ
  callback : κ

/-- What the constructor of `heap_timer` makes of it. -/
def NewTimer.timer (a : NewTimer κ) : HeapTimer κ := ⟨a.now + a.delay, some a.callback⟩

/-- The additions of a callback, one after the other: the heap, and the addresses of the timers. -/
def addAll : TimeHeap κ → List (NewTimer κ) → Option (TimeHeap κ × List (ℕ × NewTimer κ))
  | h, [] => some (h, [])
  | h, a :: as => do
    let (p, h) ← addNew h (a.now + a.delay) a.callback
    let (h, added) ← addAll h as
    some (h, (p, a) :: added)

/-- The timers that a callback adds, which may depend on the heap that it finds.  No callback finds a
heap that another one has found, as its timer is gone after it, so these are any timers. -/
abbrev Adds (κ : Type) := κ → TimeHeap κ → List (NewTimer κ)

/-- The callbacks as `tick` runs them. -/
def runAdds (adds : Adds κ) (callback : κ) (h : TimeHeap κ) : Option (TimeHeap κ) :=
  (addAll h (adds callback h)).map Prod.fst

/-! ## The rounds of a tick -/

/-- What is done in one round of the loop of `tick`: the callback that is run, with its timer, the
timers it adds, and the timer that `pop_timer` finds at the root after that. -/
structure Round (κ : Type) where
  called : List (ℕ × κ)
  added : List (ℕ × NewTimer κ)
  popped : Option ℕ

/-- One round of the loop of `tick`, past its tests. -/
def tickRound (adds : Adds κ) (h : TimeHeap κ) : Option (TimeHeap κ × Round κ) := do
  let (h₁, called) ← h.runTop (runAdds adds)
  let popped ← h₁.top
  let h₂ ← h₁.popTimer
  let added := called.flatMap fun c =>
    ((addAll h (adds c.2 h)).map Prod.snd).getD []
  some (h₂, ⟨called, added, popped⟩)

/-- The first rounds of the loop of `tick` at the time `cur`, `n` of them unless it ends before. -/
def tickRounds (adds : Adds κ) (cur : ℤ) :
    (n : ℕ) → TimeHeap κ → (tmp : Option ℕ) → Option (TimeHeap κ × Option ℕ × List (Round κ))
  | 0, h, tmp => some (h, tmp, [])
  | n + 1, h, tmp =>
    if h.curSize = 0 then some (h, tmp, [])
    else match tmp with
      | none => some (h, none, [])
      | some p => do
        let t ← h.mem.cell p
        if cur < t.expire then some (h, some p, [])
        else do
          let (h, r) ← tickRound adds h
          let tmp ← h.read 0
          let (h, tmp, rs) ← tickRounds adds cur n h tmp
          some (h, tmp, r :: rs)

theorem popTimer_of_top (htop : h.top = none) : popTimer h = none := by
  rw [top] at htop
  by_cases h0 : h.curSize = 0
  · rw [if_pos h0] at htop
    cases htop
  · rw [if_neg h0] at htop
    rw [popTimer, if_neg h0, htop]
    rfl

/-- **The rounds are those of the loop of `tick`**: the loop is its first rounds, and then itself
again, by induction on the rounds. -/
theorem tickLoop_eq (adds : Adds κ) (cur : ℤ) (n fuel : ℕ) (h : TimeHeap κ) (tmp : Option ℕ)
    (calls : List (ℕ × κ)) :
    tickLoop (runAdds adds) cur (n + (fuel + 1)) h tmp calls =
      (tickRounds adds cur n h tmp).bind fun r =>
        tickLoop (runAdds adds) cur (fuel + 1) r.1 r.2.1 (calls ++ r.2.2.flatMap Round.called) := by
  induction n generalizing h tmp calls with
  | zero => simp [tickRounds]
  | succ n ih =>
    rw [Nat.add_right_comm]
    unfold tickRounds
    conv_lhs => unfold tickLoop
    by_cases h0 : h.curSize = 0
    · simp [h0, tickLoop]
    · rw [if_neg h0, if_neg h0]
      cases tmp with
      | none => simp [tickLoop]
      | some p =>
        cases ht : h.mem.cell p with
        | none => simp [ht]
        | some t =>
          by_cases hlate : cur < t.expire
          · simp [ht, hlate, tickLoop]
          · simp only [ht, hlate, Option.bind_eq_bind, Option.bind_some, if_false, tickRound]
            cases htop : h.runTop (runAdds adds) with
            | none => rfl
            | some r =>
              obtain ⟨h₁, called⟩ := r
              simp only [Option.bind_some]
              cases htop' : h₁.top with
              | none =>
                rw [popTimer_of_top htop']
                rfl
              | some popped =>
                cases hpop : h₁.popTimer with
                | none => rfl
                | some h₂ =>
                  simp only [Option.bind_some]
                  cases hread : h₂.read 0 with
                  | none => rfl
                  | some tmp =>
                    simp only [Option.bind_some, ih, List.append_assoc]
                    cases tickRounds adds cur n h₂ tmp <;> rfl

/-! ## The root -/

/-- A hole that comes up from below the root stays below it, if the root does not expire later. -/
theorem percolateUp_root {expire e : ℤ} {fuel hole hole' : ℕ} (hpos : 0 < hole)
    (hroot : h.expireAt 0 = some e) (hle : e ≤ expire)
    (hrun : percolateUp expire fuel h hole = some (h', hole')) :
    0 < hole' ∧ h'.array 0 = h.array 0 := by
  induction fuel generalizing h hole with
  | zero => cases hrun
  | succ fuel ih =>
    rw [percolateUp, if_pos hpos] at hrun
    obtain ⟨e', he', hrun⟩ := Option.bind_eq_some_iff.mp hrun
    by_cases hkey : e' ≤ expire
    · rw [if_pos hkey, Option.some.injEq, Prod.mk.injEq] at hrun
      obtain ⟨rfl, rfl⟩ := hrun
      exact ⟨hpos, rfl⟩
    · rw [if_neg hkey] at hrun
      obtain ⟨p, -, hrun⟩ := Option.bind_eq_some_iff.mp hrun
      obtain ⟨h₁, hwrite, hrun⟩ := Option.bind_eq_some_iff.mp hrun
      have hparent : 0 < (hole - 1) / 2 := by
        by_contra h0
        rw [show (hole - 1) / 2 = 0 by omega, hroot, Option.some.injEq] at he'
        exact hkey (he' ▸ hle)
      rw [write] at hwrite
      split at hwrite
      · next hcap =>
        obtain rfl := Option.some.inj hwrite
        have harray : Function.update h.array hole p 0 = h.array 0 :=
          Function.update_of_ne (by omega) ..
        have hroot' : ({ h with array := Function.update h.array hole p } : TimeHeap κ).expireAt 0 =
            some e := by
          rw [← hroot]
          show (if 0 < h.capacity then some (Function.update h.array hole p 0) else none).bind _ = _
          rw [harray]
          rfl
        obtain ⟨hpos', hkeep⟩ := ih hparent hroot' hrun
        exact ⟨hpos', hkeep.trans harray⟩
      · cases hwrite

/-- **A timer that does not expire earlier than the root does not get to the root.** -/
theorem addNew_root (hh : Heaped h) {p q : ℕ} {t : HeapTimer κ} {expire : ℤ} {callback : κ}
    (hsize : 0 < h.curSize) (hp : h.array 0 = some p) (ht : h.mem.cell p = some t)
    (hle : t.expire ≤ expire) (hadd : addNew h expire callback = some (q, h')) :
    h'.array 0 = some p := by
  have hlt := Store.lt_next ht
  generalize hmem : (h.mem.new ⟨expire, some callback⟩).2 = mem at hadd
  have hcell : mem.cell =
      Function.update h.mem.cell h.mem.next (some ⟨expire, some callback⟩) := by
    rw [← hmem]
    rfl
  have hself : mem.cell h.mem.next = some ⟨expire, some callback⟩ := by
    rw [hcell, Function.update_self]
  have hroot : mem.cell p = some t := by rw [hcell, Function.update_of_ne (by omega), ht]
  obtain ⟨h₁, hgrow, hmem₁, hsize₁, -, hroom, harray₁⟩ :=
    grow_eq (h := { h with mem }) hh.pos hh.le
  have hzero : h₁.array 0 = some p := (harray₁ 0 hsize).trans hp
  have hexpire : ({ h₁ with curSize := h₁.curSize + 1 } : TimeHeap κ).expireAt 0 =
      some t.expire := by
    have hroom' : 0 < h₁.capacity := Nat.zero_lt_of_lt hroom
    have hlive : h₁.mem.cell p = some t := by rw [hmem₁, hroot]
    refine (expireAt_eq hroom' ⟨p, t, hzero, hlive⟩).trans ?_
    show some (keyOf h₁.mem (h₁.array 0)) = _
    rw [hzero, keyOf_some hlive]
  rw [addNew] at hadd
  simp only [hmem, Store.new_fst, addTimer, hself, Option.bind_eq_bind, Option.bind_some,
    hgrow] at hadd
  obtain ⟨h₂, hplace, heq⟩ := Option.bind_eq_some_iff.mp hadd
  obtain ⟨-, rfl⟩ := Prod.mk.inj (Option.some.inj heq)
  obtain ⟨⟨h₃, hole⟩, hup, hwrite⟩ := Option.bind_eq_some_iff.mp hplace
  obtain ⟨hpos, hkeep⟩ := percolateUp_root (hsize₁.symm ▸ hsize) hexpire hle hup
  rw [write] at hwrite
  split at hwrite
  · obtain rfl := Option.some.inj hwrite
    show Function.update h₃.array hole _ 0 = _
    rw [Function.update_of_ne (by omega), hkeep]
    exact hzero
  · cases hwrite

/-- A heap with a timer in it is not empty. -/
theorem Heaped.size_pos (hh : Heaped h) {p : ℕ} {t : HeapTimer κ} (ht : h.mem.cell p = some t) :
    0 < h.curSize := by
  obtain ⟨i, hi, -⟩ := hh.inHeap_iff.mpr ⟨t, ht⟩
  exact Nat.zero_lt_of_lt hi

/-- What the additions of a callback do, and that they keep a root which expires no later. -/
theorem addAll_spec (hh : Heaped h) (as : List (NewTimer κ)) :
    ∃ h' added, addAll h as = some (h', added) ∧ Heaped h' ∧ h.mem.next ≤ h'.mem.next ∧
      (∀ q < h.mem.next, h'.mem.cell q = h.mem.cell q) ∧
      (∀ x ∈ added, h.mem.next ≤ x.1 ∧ h'.mem.cell x.1 = some x.2.timer) ∧
      ∀ p t, h.array 0 = some p → h.mem.cell p = some t →
        (∀ a ∈ as, t.expire ≤ a.now + a.delay) → h'.array 0 = some p := by
  induction as generalizing h with
  | nil =>
    exact ⟨h, [], rfl, hh, le_rfl, fun _ _ => rfl, fun x hx => absurd hx List.not_mem_nil,
      fun p t hp _ _ => hp⟩
  | cons a as ih =>
    obtain ⟨h₁, hadd, hh₁, hnext₁, hcell₁⟩ := addNew_spec hh (a.now + a.delay) a.callback
    obtain ⟨h', added, hrest, hh', hnext, hkeep, hadded, hroot⟩ := ih hh₁
    have hkeep₁ : ∀ q < h.mem.next, h₁.mem.cell q = h.mem.cell q := by
      intro q hq
      rw [hcell₁, Function.update_of_ne (by omega)]
    refine ⟨h', (h.mem.next, a) :: added, ?_, hh', by omega, ?_, ?_, ?_⟩
    · rw [addAll, hadd, Option.bind_eq_bind, Option.bind_some]
      simp only [hrest, Option.bind_eq_bind, Option.bind_some]
    · intro q hq
      rw [hkeep q (by omega), hkeep₁ q hq]
    · intro x hx
      rcases List.mem_cons.mp hx with rfl | hx
      · refine ⟨le_rfl, ?_⟩
        rw [hkeep _ (by omega), hcell₁, Function.update_self]
        rfl
      · obtain ⟨hle, hcell⟩ := hadded x hx
        exact ⟨by omega, hcell⟩
    · intro p t hp ht hle
      have hlt := Store.lt_next ht
      refine hroot p t ?_ ((hkeep₁ p hlt).trans ht) fun b hb => hle b (List.mem_cons_of_mem a hb)
      exact addNew_root hh (hh.size_pos ht) hp ht (hle a List.mem_cons_self) hadd

/-! ## One round -/

/-- What a round does to a heap with the timer at `p` at the root. -/
structure RoundDone (h h₁ : TimeHeap κ) (p : ℕ) (t : HeapTimer κ) (r : Round κ) : Prop where
  heaped : Heaped h₁
  next : h.mem.next ≤ h₁.mem.next
  popped : r.popped = some p
  called : r.called = t.cbFunc.toList.map fun callback => (p, callback)
  gone : h₁.mem.cell p = none
  kept : ∀ q < h.mem.next, q ≠ p → h₁.mem.cell q = h.mem.cell q
  added : ∀ x ∈ r.added, h.mem.next ≤ x.1 ∧ h₁.mem.cell x.1 = some x.2.timer

/-- What some rounds make of a heap: the timer that is popped in a round is the one that has been
called in it, none is called twice, and none is lost, whether it was there or has been added. -/
structure PopsRight (h h' : TimeHeap κ) (rs : List (Round κ)) : Prop where
  heaped : Heaped h'
  next : h.mem.next ≤ h'.mem.next
  popped : ∀ r ∈ rs, ∃ p, r.popped = some p ∧ (r.called = [] ∨ ∃ c, r.called = [(p, c)])
  origin : ∀ r ∈ rs, ∀ p ∈ r.popped, h.mem.next ≤ p ∨ ∃ t, h.mem.cell p = some t
  once : (rs.map Round.popped).Nodup
  /-- a timer stays as it is until it is called, if it has a callback, and popped -/
  kept : ∀ p t, h.mem.cell p = some t → (h'.InHeap p ∧ h'.mem.cell p = some t) ∨
    ∃ r ∈ rs, r.popped = some p ∧ r.called = t.cbFunc.toList.map fun callback => (p, callback)
  /-- a timer that has been added is in the heap until it is called and popped -/
  added : ∀ r ∈ rs, ∀ x ∈ r.added, (h'.InHeap x.1 ∧ h'.mem.cell x.1 = some x.2.timer) ∨
    ∃ r' ∈ rs, r'.popped = some x.1 ∧ r'.called = [(x.1, x.2.callback)]
  /-- a timer that has been popped is gone -/
  gone : ∀ r ∈ rs, ∀ p ∈ r.popped, ¬ h'.InHeap p
  stays : ∀ p < h.mem.next, h.mem.cell p = none → h'.mem.cell p = none

theorem PopsRight.nil (hh : Heaped h) : PopsRight h h [] where
  heaped := hh
  next := le_rfl
  popped _ hr := absurd hr List.not_mem_nil
  origin _ hr := absurd hr List.not_mem_nil
  once := List.nodup_nil
  kept _ t ht := .inl ⟨hh.inHeap_iff.mpr ⟨t, ht⟩, ht⟩
  added _ hr := absurd hr List.not_mem_nil
  gone _ hr := absurd hr List.not_mem_nil
  stays _ _ hp := hp

/-- A round, and more after it. -/
theorem RoundDone.cons {h₁ : TimeHeap κ} {p : ℕ} {t : HeapTimer κ} {r : Round κ}
    {rs : List (Round κ)} (hr : RoundDone h h₁ p t r) (ht : h.mem.cell p = some t)
    (hs : PopsRight h₁ h' rs) : PopsRight h h' (r :: rs) := by
  have hnext := hr.next
  have hlt := Store.lt_next ht
  have hp' : h'.mem.cell p = none := hs.stays p (by omega) hr.gone
  -- what is popped later was there before or comes later
  have horigin : ∀ r' ∈ rs, ∀ q ∈ r'.popped, q ≠ p ∧
      (h.mem.next ≤ q ∨ ∃ t', h.mem.cell q = some t') := by
    intro r' hr' q hq
    rcases hs.origin r' hr' q hq with hle | ⟨t', ht'⟩
    · exact ⟨by omega, .inl (by omega)⟩
    · have hne : q ≠ p := by
        rintro rfl
        rw [hr.gone] at ht'
        cases ht'
      by_cases hq' : q < h.mem.next
      · exact ⟨hne, .inr ⟨t', (hr.kept q hq' hne).symm.trans ht'⟩⟩
      · exact ⟨hne, .inl (Nat.le_of_not_lt hq')⟩
  refine ⟨hs.heaped, hnext.trans hs.next, ?_, ?_, ?_, ?_, ?_, ?_, ?_⟩
  · intro r' hr'
    rcases List.mem_cons.mp hr' with rfl | hr'
    · refine ⟨p, hr.popped, ?_⟩
      rw [hr.called]
      cases t.cbFunc with
      | none => exact .inl rfl
      | some c => exact .inr ⟨c, rfl⟩
    · exact hs.popped r' hr'
  · intro r' hr' q hq
    rcases List.mem_cons.mp hr' with rfl | hr'
    · rw [hr.popped] at hq
      exact .inr ⟨t, Option.some.inj hq ▸ ht⟩
    · exact (horigin r' hr' q hq).2
  · rw [List.map_cons, List.nodup_cons]
    refine ⟨?_, hs.once⟩
    intro hmem
    obtain ⟨r', hr', heq⟩ := List.mem_map.mp hmem
    exact (horigin r' hr' p (heq.trans hr.popped)).1 rfl
  · intro q t' ht'
    by_cases hq : q = p
    · rw [hq, ht, Option.some.injEq] at ht'
      exact .inr ⟨r, List.mem_cons_self, hq ▸ hr.popped, by rw [hr.called, ht', hq]⟩
    · have ht₁ := (hr.kept q (Store.lt_next ht') hq).trans ht'
      exact (hs.kept q t' ht₁).imp_right fun ⟨r', hr', hdone⟩ =>
        ⟨r', List.mem_cons_of_mem r hr', hdone⟩
  · intro r' hr' x hx
    rcases List.mem_cons.mp hr' with rfl | hr'
    · obtain ⟨-, hcell⟩ := hr.added x hx
      exact (hs.kept x.1 _ hcell).imp_right fun ⟨r₂, hr₂, hdone⟩ =>
        ⟨r₂, List.mem_cons_of_mem _ hr₂, hdone⟩
    · exact (hs.added r' hr' x hx).imp_right fun ⟨r₂, hr₂, hdone⟩ =>
        ⟨r₂, List.mem_cons_of_mem r hr₂, hdone⟩
  · intro r' hr' q hq
    rcases List.mem_cons.mp hr' with rfl | hr'
    · rw [hr.popped] at hq
      obtain rfl := Option.some.inj hq
      rw [hs.heaped.inHeap_iff, hp']
      simp
    · exact hs.gone r' hr' q hq
  · intro q hq hnone
    have hne : q ≠ p := by
      rintro rfl
      rw [ht] at hnone
      cases hnone
    exact hs.stays q (by omega) ((hr.kept q hq hne).trans hnone)

/-- The heaps that come up from `time_heap(cap)`, with deletions of timers in the heap, and
callbacks that add any timers. -/
inductive Reached : TimeHeap κ → Prop
  | new {cap : ℕ} (hcap : 1 ≤ cap) : Reached (TimeHeap.new cap)
  | add {h h' : TimeHeap κ} {expire : ℤ} {callback : κ} {p : ℕ} (h₀ : Reached h)
      (hadd : addNew h expire callback = some (p, h')) : Reached h'
  | del {h h' : TimeHeap κ} {p : ℕ} (h₀ : Reached h) (hp : h.InHeap p)
      (hdel : delTimer h (some p) = some h') : Reached h'
  | pop {h h' : TimeHeap κ} (h₀ : Reached h) (hpop : popTimer h = some h') : Reached h'
  | tick {h h' : TimeHeap κ} {adds : Adds κ} {cur : ℤ} {tmp : Option ℕ} {fuel : ℕ}
      {calls : List (ℕ × κ)} (h₀ : Reached h) (htmp : h.read 0 = some tmp)
      (htick : tickLoop (runAdds adds) cur fuel h tmp [] = some (h', calls)) : Reached h'

/-- `pop_timer`, on a heap that may be empty. -/
theorem Heaped.popTimer (hh : Heaped h) (hpop : popTimer h = some h') : Heaped h' := by
  by_cases h0 : h.curSize = 0
  · rw [TimeHeap.popTimer, if_pos h0] at hpop
    exact Option.some.inj hpop ▸ hh
  · obtain ⟨n, hn⟩ := Nat.exists_eq_succ_of_ne_zero h0
    obtain ⟨p, t, hp, ht⟩ := hh.live.get (Nat.pos_of_ne_zero h0)
    obtain ⟨h₁, hpop₁, hh₁, -⟩ := popTimer_spec hh hn hp ht
    rw [hpop, Option.some.injEq] at hpop₁
    exact hpop₁ ▸ hh₁

/-- The callback of the root, whatever it adds. -/
theorem Heaped.runTop (hh : Heaped h) {adds : Adds κ} {called : List (ℕ × κ)}
    (htop : runTop (runAdds adds) h = some (h', called)) : Heaped h' := by
  obtain ⟨top, -, hrest⟩ := Option.bind_eq_some_iff.mp htop
  obtain ⟨p, -, hrest⟩ := Option.bind_eq_some_iff.mp hrest
  obtain ⟨t, -, hrest⟩ := Option.bind_eq_some_iff.mp hrest
  cases hcb : t.cbFunc with
  | none =>
    simp only [hcb] at hrest
    exact (Prod.mk.inj (Option.some.inj hrest)).1 ▸ hh
  | some callback =>
    simp only [hcb] at hrest
    obtain ⟨h₁, hcall, heq⟩ := Option.bind_eq_some_iff.mp hrest
    obtain ⟨rfl, -⟩ := Prod.mk.inj (Option.some.inj heq)
    obtain ⟨h₂, added, hadd, hh₂, -⟩ := addAll_spec hh (adds callback h)
    rw [runAdds, hadd, Option.map_some, Option.some.injEq] at hcall
    exact hcall ▸ hh₂

/-- The loop of `tick`, whatever the callbacks add, by induction on the rounds. -/
theorem Heaped.tickLoop {adds : Adds κ} {cur : ℤ} {fuel : ℕ} {tmp : Option ℕ}
    {calls calls' : List (ℕ × κ)} (hh : Heaped h)
    (htick : tickLoop (runAdds adds) cur fuel h tmp calls = some (h', calls')) : Heaped h' := by
  induction fuel generalizing h tmp calls with
  | zero => cases htick
  | succ fuel ih =>
    unfold TimeHeap.tickLoop at htick
    by_cases h0 : h.curSize = 0
    · rw [if_pos h0] at htick
      exact (Prod.mk.inj (Option.some.inj htick)).1 ▸ hh
    · rw [if_neg h0] at htick
      cases tmp with
      | none => exact (Prod.mk.inj (Option.some.inj htick)).1 ▸ hh
      | some p =>
        obtain ⟨t, -, hround⟩ := Option.bind_eq_some_iff.mp htick
        by_cases hlate : cur < t.expire
        · rw [if_pos hlate] at hround
          exact (Prod.mk.inj (Option.some.inj hround)).1 ▸ hh
        · rw [if_neg hlate] at hround
          obtain ⟨⟨h₁, called⟩, htop, hround⟩ := Option.bind_eq_some_iff.mp hround
          obtain ⟨h₂, hpop, hround⟩ := Option.bind_eq_some_iff.mp hround
          obtain ⟨tmp', -, hround⟩ := Option.bind_eq_some_iff.mp hround
          exact ih ((hh.runTop htop).popTimer hpop) hround

theorem Reached.heaped (h₀ : Reached h) : Heaped h := by
  induction h₀ with
  | new hcap => exact heaped_new hcap
  | add _ hadd ih =>
    obtain ⟨h₁, hadd₁, hh₁, -⟩ := addNew_spec ih _ _
    rw [hadd, Option.some.injEq, Prod.mk.injEq] at hadd₁
    exact hadd₁.2 ▸ hh₁
  | del _ hp hdel ih =>
    obtain ⟨t, ht⟩ := ih.inHeap_iff.mp hp
    obtain ⟨h₁, hdel₁, hh₁, -⟩ := delTimer_spec ih ht
    rw [hdel, Option.some.injEq] at hdel₁
    exact hdel₁ ▸ hh₁
  | pop _ hpop ih => exact ih.popTimer hpop
  | tick _ _ htick ih => exact ih.tickLoop htick

end TimeHeap
end Timers
end CModel
