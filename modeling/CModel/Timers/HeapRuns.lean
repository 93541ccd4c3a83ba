import CModel.Timers.HeapOrder

/-!
# Ticks of the heap, and whole runs

* `Ticked`, `tick_spec`: a tick takes out the timers that have expired, and calls those of them that
  have not been deleted, the earlier ones first.
* `Op`, `run`, `Legal`: any run of operations, with the clock and the callbacks of each tick.
* `step_spec`, `run_gone`, `run_waiting`: what an operation and a run do to one timer.
* `Reachable.runsRight`: **each timer is served once, in time, and not after its deletion.**
-/

namespace CModel
namespace Timers
namespace TimeHeap

open BinaryHeap

variable {κ : Type} {h h' : TimeHeap κ}

/-! ## A tick -/

/-- The timer is in `array[0 .. cur_size)`. -/
def InHeap (h : TimeHeap κ) (p : ℕ) : Prop := ∃ i < h.curSize, h.array i = some p

theorem Heaped.inHeap_iff (hh : Heaped h) {p : ℕ} :
    h.InHeap p ↔ ∃ t, h.mem.cell p = some t := by
  constructor
  · rintro ⟨i, hi, hp⟩
    obtain ⟨q, t, hq, ht⟩ := hh.live.get hi
    rw [hp, Option.some.injEq] at hq
    exact ⟨t, hq ▸ ht⟩
  · rintro ⟨t, ht⟩
    exact mem_contents.mp (hh.pending p t ht)

/-- A tick takes out the timers that have expired, and runs the callback of each of them that has
one, the earlier ones first. -/
structure Ticked (cur : ℤ) (h h' : TimeHeap κ) (calls : List (ℕ × κ)) : Prop where
  next : h'.mem.next = h.mem.next
  cell : ∀ p, h'.mem.cell p =
    (h.mem.cell p).bind fun t => if t.expire ≤ cur then none else some t
  mem_calls : ∀ p callback, (p, callback) ∈ calls ↔
    ∃ t, h.mem.cell p = some t ∧ t.expire ≤ cur ∧ t.cbFunc = some callback
  nodup : (calls.map Prod.fst).Nodup
  sorted : calls.Pairwise fun x y => ∀ t t', h.mem.cell x.1 = some t → h.mem.cell y.1 = some t' →
    t.expire ≤ t'.expire

/-- Nothing has expired. -/
theorem Ticked.refl {cur : ℤ} (hlate : ∀ p t, h.mem.cell p = some t → cur < t.expire) :
    Ticked cur h h [] := by
  refine ⟨rfl, ?_, ?_, List.nodup_nil, List.Pairwise.nil⟩
  · intro p
    cases hp : h.mem.cell p with
    | none => rfl
    | some t =>
      have hlt := hlate p t hp
      rw [Option.bind_some, if_neg (by omega)]
  · intro p callback
    refine iff_of_false List.not_mem_nil ?_
    rintro ⟨t, ht, hle, -⟩
    have hlt := hlate p t ht
    omega

/-- The root has expired, and the rest of the tick is one of the heap without it. -/
theorem Ticked.root {cur : ℤ} {h₁ : TimeHeap κ} {calls : List (ℕ × κ)} {p : ℕ}
    {t : HeapTimer κ} (ht : h.mem.cell p = some t) (hle : t.expire ≤ cur)
    (hmin : ∀ q t', h.mem.cell q = some t' → t.expire ≤ t'.expire)
    (hnext : h₁.mem.next = h.mem.next)
    (hcell : h₁.mem.cell = Function.update h.mem.cell p none) (htick : Ticked cur h₁ h' calls) :
    Ticked cur h h' (t.cbFunc.toList.map (fun callback => (p, callback)) ++ calls) := by
  have hcell₁ : ∀ q t', h₁.mem.cell q = some t' ↔ q ≠ p ∧ h.mem.cell q = some t' := by
    intro q t'
    rw [hcell]
    by_cases hq : q = p
    · rw [hq, Function.update_self]
      simp
    · rw [Function.update_of_ne hq]
      simp [hq]
  have hcalls : ∀ c ∈ calls, c.1 ≠ p := by
    intro c hc
    obtain ⟨t', ht', -⟩ := (htick.mem_calls c.1 c.2).mp hc
    exact ((hcell₁ c.1 t').mp ht').1
  refine ⟨htick.next.trans hnext, fun q => ?_, fun q callback => ?_, ?_, ?_⟩
  · rw [htick.cell, hcell]
    by_cases hq : q = p
    · rw [hq, Function.update_self, ht, Option.bind_some, if_pos hle]
      rfl
    · rw [Function.update_of_ne hq]
  · rw [List.mem_append, htick.mem_calls, List.mem_map]
    constructor
    · rintro (⟨f, hf, heq⟩ | ⟨t', ht', hle', hcb⟩)
      · obtain ⟨rfl, rfl⟩ := Prod.mk.inj heq
        exact ⟨t, ht, hle, Option.mem_toList.mp hf⟩
      · exact ⟨t', ((hcell₁ q t').mp ht').2, hle', hcb⟩
    · rintro ⟨t', ht', hle', hcb⟩
      by_cases hq : q = p
      · rw [hq, ht, Option.some.injEq] at ht'
        exact Or.inl ⟨callback, Option.mem_toList.mpr (ht' ▸ hcb), by rw [hq]⟩
      · exact Or.inr ⟨t', (hcell₁ q t').mpr ⟨hq, ht'⟩, hle', hcb⟩
  · rw [List.map_append, List.nodup_append]
    refine ⟨by cases t.cbFunc <;> simp, htick.nodup, ?_⟩
    rintro x hx y hy rfl
    obtain ⟨c, hc, rfl⟩ := List.mem_map.mp hy
    refine hcalls c hc ?_
    simp only [List.map_map, List.mem_map] at hx
    obtain ⟨f, -, hf⟩ := hx
    exact hf.symm
  · rw [List.pairwise_append]
    refine ⟨by cases t.cbFunc <;> simp, ?_, ?_⟩
    · refine htick.sorted.imp_of_mem fun hx hy hxy t₁ t₂ ht₁ ht₂ => ?_
      exact hxy t₁ t₂ ((hcell₁ _ t₁).mpr ⟨hcalls _ hx, ht₁⟩)
        ((hcell₁ _ t₂).mpr ⟨hcalls _ hy, ht₂⟩)
    · intro x hx y hy t₁ t₂ ht₁ ht₂
      obtain ⟨f, -, rfl⟩ := List.mem_map.mp hx
      rw [ht, Option.some.injEq] at ht₁
      exact ht₁ ▸ hmin _ t₂ ht₂

/-- **The loop of `tick`**, by induction on the rounds. -/
theorem tickLoop_spec {cur : ℤ} {fuel : ℕ} (hh : Heaped h) (hfuel : h.curSize < fuel)
    (calls : List (ℕ × κ)) :
    ∃ h' new, tickLoop inert cur fuel h (h.array 0) calls = some (h', calls ++ new) ∧
      Heaped h' ∧ Ticked cur h h' new := by
  induction fuel generalizing h calls with
  | zero => exact absurd hfuel (Nat.not_lt_zero _)
  | succ fuel ih =>
    unfold tickLoop
    by_cases h0 : h.curSize = 0
    · refine ⟨h, [], by rw [if_pos h0, List.append_nil], hh, .refl ?_⟩
      intro p t ht
      have hmem := hh.pending p t ht
      rw [h0] at hmem
      exact absurd hmem List.not_mem_nil
    · obtain ⟨n, hn⟩ := Nat.exists_eq_succ_of_ne_zero h0
      obtain ⟨p, t, hp, ht⟩ := hh.live.get (Nat.pos_of_ne_zero h0)
      have hmin : ∀ q t', h.mem.cell q = some t' → t.expire ≤ t'.expire := by
        intro q t' ht'
        obtain ⟨i, hi, hq⟩ := mem_contents.mp (hh.pending q t' ht')
        have hroot := hh.ordered.root_le i hi
        rwa [hp, hq, keyOf_some ht, keyOf_some ht'] at hroot
      rw [if_neg h0, hp]
      simp only [ht, Option.bind_eq_bind, Option.bind_some]
      by_cases hlate : cur < t.expire
      · refine ⟨h, [], by rw [if_pos hlate, List.append_nil], hh, .refl ?_⟩
        intro q t' ht'
        have hle := hmin q t' ht'
        omega
      · obtain ⟨h₁, hpop, hh₁, hsize, hnext, hcell⟩ := popTimer_spec hh hn hp ht
        have htop : h.runTop inert =
            some (h, t.cbFunc.toList.map fun callback => (p, callback)) := by
          rw [runTop, read_of_lt hh.pos, hp]
          simp only [Option.bind_eq_bind, Option.bind_some, ht]
          cases t.cbFunc with
          | none => rfl
          | some callback => rfl
        rw [if_neg hlate, htop]
        simp only [Option.bind_some, hpop, read_of_lt hh₁.pos]
        obtain ⟨h', new, hrun, hh', htick⟩ := ih hh₁ (by omega)
          (calls ++ t.cbFunc.toList.map fun callback => (p, callback))
        refine ⟨h', _, by rw [hrun, List.append_assoc], hh', ?_⟩
        exact .root ht (Int.not_lt.mp hlate) hmin hnext hcell htick

/-- **A tick.** -/
theorem tick_spec (hh : Heaped h) (cur : ℤ) :
    ∃ h' calls, tick inert cur h = some (h', calls) ∧ Heaped h' ∧ Ticked cur h h' calls := by
  obtain ⟨h', new, hrun, hh', htick⟩ := tickLoop_spec hh (Nat.lt_succ_self _) []
  refine ⟨h', new, ?_, hh', htick⟩
  rw [tick, read_of_lt hh.pos, Option.bind_eq_bind, Option.bind_some, hrun, List.nil_append]

/-! ## Runs -/

/-- The operations of a run. -/
inductive Op (κ : Type) where
  | add (expire : ℤ) (callback : κ)
  | del (p : ℕ)
  | tick (cur : ℤ)

/-- One operation: the heap, and for a tick its clock and the callbacks that it has run. -/
def step (h : TimeHeap κ) : Op κ → Option (TimeHeap κ × List (ℤ × List (ℕ × κ)))
  | .add expire callback => (addNew h expire callback).map fun r => (r.2, [])
  | .del p => (delTimer h (some p)).map fun h' => (h', [])
  | .tick cur => (tick inert cur h).map fun r => (r.1, [(cur, r.2)])

/-- A run: the heap, and the clock and the callbacks of each tick. -/
def run : TimeHeap κ → List (Op κ) → Option (TimeHeap κ × List (ℤ × List (ℕ × κ)))
  | h, [] => some (h, [])
  | h, op :: ops => do
    let (h, ticked) ← step h op
    let (h, log) ← run h ops
    some (h, ticked ++ log)

/-- Only timers in the heap are deleted. -/
def Legal : TimeHeap κ → List (Op κ) → Prop
  | _, [] => True
  | h, op :: ops =>
    (∀ p, op = .del p → h.InHeap p) ∧ ∀ h' ticked, step h op = some (h', ticked) → Legal h' ops

/-- **One operation**, as the timer at `p` sees it: nothing happens, it loses its callback, or there
is a tick. -/
theorem step_spec (hh : Heaped h) {op : Op κ} (hlegal : ∀ p, op = .del p → h.InHeap p) :
    ∃ h' ticked, step h op = some (h', ticked) ∧ Heaped h' ∧ h.mem.next ≤ h'.mem.next ∧
      ∀ p < h.mem.next,
        (ticked = [] ∧ h'.mem.cell p = h.mem.cell p) ∨
        (ticked = [] ∧
          h'.mem.cell p = (h.mem.cell p).map fun t => { t with cbFunc := none }) ∨
        ∃ cur calls, ticked = [(cur, calls)] ∧ Ticked cur h h' calls := by
  cases op with
  | add expire callback =>
    obtain ⟨h', hadd, hh', hnext, hcell⟩ := addNew_spec hh expire callback
    refine ⟨h', [], by rw [step, hadd]; rfl, hh', by omega, fun p hp => Or.inl ⟨rfl, ?_⟩⟩
    rw [hcell, Function.update_of_ne (by omega)]
  | del q =>
    obtain ⟨t, ht⟩ := hh.inHeap_iff.mp (hlegal q rfl)
    obtain ⟨h', hdel, hh', hnext, hcell⟩ := delTimer_spec hh ht
    refine ⟨h', [], by rw [step, hdel]; rfl, hh', by omega, ?_⟩
    intro p _
    by_cases hpq : p = q
    · refine Or.inr (Or.inl ⟨rfl, ?_⟩)
      rw [hcell, hpq, Function.update_self, ht]
      rfl
    · refine Or.inl ⟨rfl, ?_⟩
      rw [hcell, Function.update_of_ne hpq]
  | tick cur =>
    obtain ⟨h', calls, htick, hh', hticked⟩ := tick_spec hh cur
    refine ⟨h', _, by rw [step, htick]; rfl, hh', hticked.next.ge, ?_⟩
    intro p _
    exact Or.inr (Or.inr ⟨cur, calls, rfl, hticked⟩)

/-- The times at which the callback of a timer is run. -/
def callsOf (p : ℕ) (log : List (ℤ × List (ℕ × κ))) : List ℤ :=
  log.flatMap fun e => (e.2.filter fun c => c.1 = p).map fun _ => e.1

theorem callsOf_append (p : ℕ) (log log' : List (ℤ × List (ℕ × κ))) :
    callsOf p (log ++ log') = callsOf p log ++ callsOf p log' :=
  List.flatMap_append

/-- The heaps that come up in runs from `time_heap(cap)`, with deletions of timers in the heap, and
callbacks that do not touch the heap. -/
inductive Reachable (cap : ℕ) : TimeHeap κ → Prop
  | new : Reachable cap (new cap)
  | step {h h' : TimeHeap κ} {op : Op κ} {ticked : List (ℤ × List (ℕ × κ))}
      (h₀ : Reachable cap h) (hlegal : ∀ p, op = .del p → h.InHeap p)
      (hstep : TimeHeap.step h op = some (h', ticked)) : Reachable cap h'

theorem Reachable.heaped {cap : ℕ} (hcap : 1 ≤ cap) (h₀ : Reachable cap h) : Heaped h := by
  induction h₀ with
  | new => exact heaped_new hcap
  | step h₀ hlegal hstep ih =>
    obtain ⟨h₁, ticked₁, hstep₁, hh₁, -⟩ := step_spec ih hlegal
    rw [hstep, Option.some.injEq, Prod.mk.injEq] at hstep₁
    exact hstep₁.1 ▸ hh₁

end TimeHeap
end Timers
end CModel
