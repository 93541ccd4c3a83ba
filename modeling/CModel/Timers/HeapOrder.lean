import CModel.Foundation.BinaryHeap
import CModel.Timers.TimeHeap

/-!
# The timers in the heap

* `Heaped`: the array of a heap is in heap order, and has each timer that there is once.
* `percolateUp_spec`, `percolateLoop_spec`: the two loops move a hole through the array, each round
  being a swap.
* `addNew_spec`, `delTimer_spec`, `popTimer_spec`: the operations on the timers that there are.
-/

namespace CModel
namespace Timers
namespace TimeHeap

open BinaryHeap

variable {κ : Type}

/-! ## The heap -/

/-- The time of expiry of a timer in the array. -/
def keyOf (mem : Store (HeapTimer κ)) (p : Option ℕ) : ℤ :=
  match p.bind mem.cell with
  | some t => t.expire
  | none => 0

/-- All entries are timers. -/
def Live (mem : Store (HeapTimer κ)) (l : List (Option ℕ)) : Prop :=
  ∀ x ∈ l, ∃ p t, x = some p ∧ mem.cell p = some t

/-- The array is in heap order, there is room for it, and the timers that there are stand in it once
each. -/
structure Heaped (h : TimeHeap κ) : Prop where
  pos : 0 < h.capacity
  le : h.curSize ≤ h.capacity
  live : Live h.mem (contents h.array h.curSize)
  ordered : Ordered (keyOf h.mem) h.array h.curSize
  nodup : (contents h.array h.curSize).Nodup
  pending : ∀ p t, h.mem.cell p = some t → some p ∈ contents h.array h.curSize

variable {h h' : TimeHeap κ} {mem : Store (HeapTimer κ)}

theorem keyOf_some {p : ℕ} {t : HeapTimer κ} (ht : mem.cell p = some t) :
    keyOf mem (some p) = t.expire := by
  rw [keyOf, Option.bind_some, ht]

theorem Live.get {a : ℕ → Option ℕ} {n i : ℕ} (hl : Live mem (contents a n)) (hi : i < n) :
    ∃ p t, a i = some p ∧ mem.cell p = some t :=
  hl (a i) (mem_contents.mpr ⟨i, hi, rfl⟩)

theorem Live.perm {l l' : List (Option ℕ)} (hl : Live mem l) (hp : l'.Perm l) : Live mem l' :=
  fun x hx => hl x (hp.subset hx)

theorem heaped_new {cap : ℕ} (hcap : 0 < cap) : Heaped (new cap : TimeHeap κ) where
  pos := hcap
  le := Nat.zero_le _
  live _ hx := absurd hx List.not_mem_nil
  ordered _ _ hi := absurd hi (Nat.not_lt_zero _)
  nodup := List.nodup_nil
  pending _ _ ht := absurd ht (by simp [new, Store.empty])

theorem read_of_lt {i : ℕ} (hi : i < h.capacity) : h.read i = some (h.array i) := if_pos hi

theorem write_of_lt {i : ℕ} (hi : i < h.capacity) (p : Option ℕ) :
    h.write i p = some { h with array := Function.update h.array i p } := if_pos hi

theorem expireOf_eq {p : Option ℕ} (hl : ∃ q t, p = some q ∧ h.mem.cell q = some t) :
    h.expireOf p = some (keyOf h.mem p) := by
  obtain ⟨q, t, rfl, ht⟩ := hl
  rw [expireOf, keyOf_some ht, Option.bind_eq_bind, Option.bind_some, ht]
  rfl

theorem expireAt_eq {i : ℕ} (hi : i < h.capacity)
    (hl : ∃ q t, h.array i = some q ∧ h.mem.cell q = some t) :
    h.expireAt i = some (keyOf h.mem (h.array i)) := by
  rw [expireAt, read_of_lt hi, Option.bind_eq_bind, Option.bind_some, expireOf_eq hl]

/-! ## The loops -/

/-- What a loop that moves the hole does not change. -/
structure SameBut (h h' : TimeHeap κ) : Prop where
  mem : h'.mem = h.mem
  capacity : h'.capacity = h.capacity
  curSize : h'.curSize = h.curSize

/-- What the loops come to: with `x` in the hole, the array is in order, and has the entries it had
before. -/
structure Placed (h h' : TimeHeap κ) (x : Option ℕ) (hole hole' : ℕ) : Prop where
  same : SameBut h h'
  lt : hole' < h.curSize
  ordered : Ordered (keyOf h.mem) (Function.update h'.array hole' x) h.curSize
  perm : (contents (Function.update h'.array hole' x) h.curSize).Perm
    (contents (Function.update h.array hole x) h.curSize)

/-- **The loop of `add_timer`**, by induction on the rounds: the hole goes up as long as the parent
expires later. -/
theorem percolateUp_spec {x : Option ℕ} {fuel hole : ℕ} (hle : h.curSize ≤ h.capacity)
    (hlt : hole < h.curSize) (hfuel : hole < fuel)
    (hlive : Live h.mem (contents (Function.update h.array hole x) h.curSize))
    (hup : UpTo (keyOf h.mem) (Function.update h.array hole x) h.curSize hole) :
    ∃ h' hole', percolateUp (keyOf h.mem x) fuel h hole = some (h', hole') ∧
      Placed h h' x hole hole' := by
  induction fuel generalizing h hole with
  | zero => exact absurd hfuel (Nat.not_lt_zero hole)
  | succ fuel ih =>
    have hdone : (0 < hole → keyOf h.mem (h.array (parent hole)) ≤ keyOf h.mem x) →
        Placed h h x hole hole := by
      intro hkey
      refine ⟨⟨rfl, rfl, rfl⟩, hlt, hup.ordered_of_le ?_, List.Perm.refl _⟩
      intro hpos
      have hp := parent_lt hpos
      rw [Function.update_self, Function.update_of_ne (by omega)]
      exact hkey hpos
    rw [percolateUp]
    by_cases hpos : 0 < hole
    · have hp := parent_lt hpos
      have harray : Function.update h.array hole x (parent hole) = h.array (parent hole) :=
        Function.update_of_ne (by omega) ..
      have hparent := hlive.get (show parent hole < h.curSize by omega)
      rw [harray] at hparent
      have hexpire : h.expireAt ((hole - 1) / 2) = some (keyOf h.mem (h.array (parent hole))) :=
        expireAt_eq (show parent hole < h.capacity by omega) hparent
      have hread : h.read ((hole - 1) / 2) = some (h.array (parent hole)) :=
        read_of_lt (show parent hole < h.capacity by omega)
      rw [if_pos hpos]
      simp only [hexpire, Option.bind_eq_bind, Option.bind_some]
      by_cases hkey : keyOf h.mem (h.array (parent hole)) ≤ keyOf h.mem x
      · rw [if_pos hkey]
        exact ⟨h, hole, rfl, hdone fun _ => hkey⟩
      · rw [if_neg hkey]
        simp only [hread, Option.bind_some,
          write_of_lt (show hole < h.capacity by omega) (h.array (parent hole))]
        have hswap := update_update_eq_swapAt h.array (show parent hole ≠ hole by omega) x
        have hperm : (contents (swapAt (Function.update h.array hole x) hole (parent hole))
            h.curSize).Perm (contents (Function.update h.array hole x) h.curSize) :=
          contents_swapAt hlt (by omega)
        have hup' := hup.swap hpos hlt (by
          rw [Function.update_self, harray]
          exact lt_of_not_ge hkey)
        rw [← hswap] at hup' hperm
        obtain ⟨h', hole', hrun, hplaced⟩ := ih
          (h := { h with array := Function.update h.array hole (h.array (parent hole)) })
          hle (show parent hole < h.curSize by omega) (by omega) (hlive.perm hperm) hup'
        exact ⟨h', hole', hrun, ⟨hplaced.same.mem, hplaced.same.capacity, hplaced.same.curSize⟩,
          hplaced.lt, hplaced.ordered, hplaced.perm.trans hperm⟩
    · rw [if_neg hpos]
      exact ⟨h, hole, rfl, hdone fun h0 => absurd h0 hpos⟩

/-- The child that `percolate_down` looks at. -/
theorem smallerChild_spec {x : Option ℕ} {hole : ℕ} (hle : h.curSize ≤ h.capacity)
    (hchild : hole * 2 + 1 < h.curSize)
    (hlive : Live h.mem (contents (Function.update h.array hole x) h.curSize)) :
    ∃ child, h.smallerChild hole = some child ∧ 0 < child ∧ child < h.curSize ∧
      parent child = hole ∧
      h.expireAt child = some (keyOf h.mem (h.array child)) ∧
      ∀ i, 0 < i → i < h.curSize → parent i = hole →
        keyOf h.mem (h.array child) ≤ keyOf h.mem (h.array i) := by
  have hexpire : ∀ i, i < h.curSize → i ≠ hole →
      h.expireAt i = some (keyOf h.mem (h.array i)) := by
    intro i hi hne
    have hget := hlive.get hi
    rw [Function.update_of_ne hne] at hget
    exact expireAt_eq (by omega) hget
  have hchildren : ∀ i, 0 < i → parent i = hole → i = hole * 2 + 1 ∨ i = hole * 2 + 1 + 1 := by
    intro i hi hpi
    rw [parent] at hpi
    omega
  have hpl : parent (hole * 2 + 1) = hole := by rw [parent]; omega
  have hpr : parent (hole * 2 + 1 + 1) = hole := by rw [parent]; omega
  have hleft := hexpire (hole * 2 + 1) hchild (by omega)
  rw [smallerChild]
  by_cases hright : hole * 2 + 1 + 1 < h.curSize
  · have hr := hexpire _ hright (by omega)
    rw [if_pos hright]
    simp only [hr, hleft, Option.bind_eq_bind, Option.bind_some]
    by_cases hlt : keyOf h.mem (h.array (hole * 2 + 1 + 1)) < keyOf h.mem (h.array (hole * 2 + 1))
    · rw [if_pos hlt]
      refine ⟨_, rfl, by omega, hright, hpr, hr, ?_⟩
      intro i hi hin hpi
      rcases hchildren i hi hpi with rfl | rfl
      · exact hlt.le
      · exact le_rfl
    · rw [if_neg hlt]
      refine ⟨_, rfl, by omega, hchild, hpl, hleft, ?_⟩
      intro i hi hin hpi
      rcases hchildren i hi hpi with rfl | rfl
      · exact le_rfl
      · exact not_lt.mp hlt
  · rw [if_neg hright]
    refine ⟨_, rfl, by omega, hchild, hpl, hleft, ?_⟩
    intro i hi hin hpi
    rcases hchildren i hi hpi with rfl | rfl
    · exact le_rfl
    · exact absurd hin hright

/-- What the loop of `percolate_down` comes to, where the array is in order from `low` on. -/
structure PlacedFrom (low : ℕ) (h h' : TimeHeap κ) (x : Option ℕ) (hole hole' : ℕ) : Prop where
  same : SameBut h h'
  lt : hole' < h.curSize
  ordered : OrderedFrom (keyOf h.mem) (Function.update h'.array hole' x) h.curSize low
  perm : (contents (Function.update h'.array hole' x) h.curSize).Perm
    (contents (Function.update h.array hole x) h.curSize)

/-- **The loop of `percolate_down`**, by induction on the rounds: the hole goes down as long as a
child expires earlier. -/
theorem percolateLoop_spec {x : Option ℕ} {fuel low hole : ℕ} (hle : h.curSize ≤ h.capacity)
    (hlow : low ≤ hole) (hlt : hole < h.curSize) (hfuel : h.curSize < fuel + hole)
    (hlive : Live h.mem (contents (Function.update h.array hole x) h.curSize))
    (hdown : DownFrom (keyOf h.mem) (Function.update h.array hole x) h.curSize low hole) :
    ∃ h' hole', percolateLoop x fuel h hole = some (h', hole') ∧
      PlacedFrom low h h' x hole hole' := by
  induction fuel generalizing h hole with
  | zero => omega
  | succ fuel ih =>
    have hdone : (∀ i, 0 < i → i < h.curSize → parent i = hole →
        keyOf h.mem x ≤ keyOf h.mem (h.array i)) → PlacedFrom low h h x hole hole := by
      intro hkey
      refine ⟨⟨rfl, rfl, rfl⟩, hlt, hdown.ordered_of_le ?_, List.Perm.refl _⟩
      intro i hi hin hpi
      have hp := parent_lt hi
      rw [Function.update_self, Function.update_of_ne (by omega)]
      exact hkey i hi hin hpi
    rw [percolateLoop]
    by_cases hchild : hole * 2 + 1 < h.curSize
    · obtain ⟨child, heq, hpos, hcn, hpc, hexpire, hmin⟩ := smallerChild_spec hle hchild hlive
      have hch := parent_lt hpos
      have hx : h.expireOf x = some (keyOf h.mem x) := by
        have hget := hlive.get hlt
        rw [Function.update_self] at hget
        exact expireOf_eq hget
      rw [if_pos hchild]
      simp only [heq, Option.bind_eq_bind, Option.bind_some, hexpire, hx]
      by_cases hkey : keyOf h.mem (h.array child) < keyOf h.mem x
      · rw [if_pos hkey]
        simp only [read_of_lt (show child < h.capacity by omega), Option.bind_some,
          write_of_lt (show hole < h.capacity by omega) (h.array child)]
        have hswap := update_update_eq_swapAt h.array (show child ≠ hole by omega) x
        have hperm : (contents (swapAt (Function.update h.array hole x) hole child)
            h.curSize).Perm (contents (Function.update h.array hole x) h.curSize) :=
          contents_swapAt hlt hcn
        have harray : ∀ i, i ≠ hole → Function.update h.array hole x i = h.array i :=
          fun i hi => Function.update_of_ne hi ..
        have hdown' := hdown.swap hlow hpos hcn hpc (fun i hi hin hpi => by
            have hp := parent_lt hi
            rw [harray child (by omega), harray i (by omega)]
            exact hmin i hi hin hpi) (by
          rw [Function.update_self, harray child (by omega)]
          exact hkey)
        rw [← hswap] at hdown' hperm
        obtain ⟨h', hole', hrun, hplaced⟩ := ih
          (h := { h with array := Function.update h.array hole (h.array child) })
          hle (show low ≤ child by omega) hcn (show h.curSize < fuel + child by omega)
          (hlive.perm hperm) hdown'
        exact ⟨h', hole', hrun, ⟨hplaced.same.mem, hplaced.same.capacity, hplaced.same.curSize⟩,
          hplaced.lt, hplaced.ordered, hplaced.perm.trans hperm⟩
      · rw [if_neg hkey]
        refine ⟨h, hole, rfl, hdone ?_⟩
        intro i hi hin hpi
        exact (not_lt.mp hkey).trans (hmin i hi hin hpi)
    · rw [if_neg hchild]
      refine ⟨h, hole, rfl, hdone ?_⟩
      intro i hi hin hpi
      rw [parent] at hpi
      omega

/-- **`percolate_down`**, where the entry at `hole` may be too large for its children. -/
theorem percolateDown_spec {low hole : ℕ} (hle : h.curSize ≤ h.capacity) (hlow : low ≤ hole)
    (hlt : hole < h.curSize) (hlive : Live h.mem (contents h.array h.curSize))
    (hdown : DownFrom (keyOf h.mem) h.array h.curSize low hole) :
    ∃ h', percolateDown h hole = some h' ∧ SameBut h h' ∧
      OrderedFrom (keyOf h.mem) h'.array h.curSize low ∧
      (contents h'.array h.curSize).Perm (contents h.array h.curSize) := by
  have hself : Function.update h.array hole (h.array hole) = h.array := Function.update_eq_self ..
  rw [← hself] at hlive hdown
  obtain ⟨h', hole', hrun, hplaced⟩ := percolateLoop_spec hle hlow hlt
    (show h.curSize < h.curSize + 1 + hole by omega) hlive hdown
  have hcap := hplaced.same.capacity
  have hlt' := hplaced.lt
  have hperm := hplaced.perm
  rw [hself] at hperm
  refine ⟨{ h' with array := Function.update h'.array hole' (h.array hole) }, ?_,
    ⟨hplaced.same.mem, hcap, hplaced.same.curSize⟩, hplaced.ordered, hperm⟩
  rw [percolateDown, read_of_lt (show hole < h.capacity by omega), Option.bind_eq_bind,
    Option.bind_some, hrun]
  exact write_of_lt (show hole' < h'.capacity by omega) (h.array hole)

/-! ## A new timer -/

/-- `add_timer` starts with room for one more entry. -/
theorem grow_eq (hpos : 0 < h.capacity) (hle : h.curSize ≤ h.capacity) :
    ∃ h', (if h.curSize ≥ h.capacity then h.resize else some h) = some h' ∧ h'.mem = h.mem ∧
      h'.curSize = h.curSize ∧ h.capacity ≤ h'.capacity ∧ h.curSize < h'.capacity ∧
      ∀ i < h.curSize, h'.array i = h.array i := by
  by_cases hfull : h.curSize ≥ h.capacity
  · rw [if_pos hfull, resize, if_pos hle]
    refine ⟨_, rfl, rfl, rfl, ?_, ?_, fun i hi => if_pos hi⟩
    · show h.capacity ≤ 2 * h.capacity
      omega
    · show h.curSize < 2 * h.capacity
      omega
  · rw [if_neg hfull]
    exact ⟨h, rfl, rfl, rfl, le_rfl, by omega, fun _ _ => rfl⟩

/-- **`add_timer` with a timer that is not in the heap yet.** -/
theorem addTimer_spec {p : ℕ} {t : HeapTimer κ} (hpos : 0 < h.capacity)
    (hle : h.curSize ≤ h.capacity) (hlive : Live h.mem (contents h.array h.curSize))
    (hord : Ordered (keyOf h.mem) h.array h.curSize) (ht : h.mem.cell p = some t) :
    ∃ h', addTimer h (some p) = some h' ∧ h'.mem = h.mem ∧ h'.curSize = h.curSize + 1 ∧
      0 < h'.capacity ∧ h'.curSize ≤ h'.capacity ∧ Ordered (keyOf h.mem) h'.array h'.curSize ∧
      (contents h'.array h'.curSize).Perm (contents h.array h.curSize ++ [some p]) := by
  obtain ⟨h₁, hgrow, hmem₁, hsize₁, hcap₁, hroom, harray₁⟩ := grow_eq hpos hle
  generalize h₂def : ({ h₁ with curSize := h₁.curSize + 1 } : TimeHeap κ) = h₂
  have hsize₂ : h₂.curSize = h.curSize + 1 := by rw [← h₂def, ← hsize₁]
  have hmem₂ : h₂.mem = h.mem := by rw [← h₂def, ← hmem₁]
  have hcap₂ : h₂.capacity = h₁.capacity := by rw [← h₂def]
  have harray₂ : ∀ i < h.curSize, h₂.array i = h.array i := by
    rw [← h₂def]
    exact harray₁
  have hcontents : contents (Function.update h₂.array h.curSize (some p)) h₂.curSize =
      contents h.array h.curSize ++ [some p] := by
    rw [hsize₂, contents_update_last, contents_of_eq harray₂]
  have hlive₂ : Live h₂.mem
      (contents (Function.update h₂.array h.curSize (some p)) h₂.curSize) := by
    intro x hx
    rw [hcontents, List.mem_append] at hx
    rw [hmem₂]
    rcases hx with hx | hx
    · exact hlive x hx
    · exact ⟨p, t, List.mem_singleton.mp hx, ht⟩
  have hup : UpTo (keyOf h₂.mem) (Function.update h₂.array h.curSize (some p)) h₂.curSize
      h.curSize := by
    rw [hsize₂, hmem₂]
    exact .of_ordered (hord.of_eq harray₂) _
  obtain ⟨h₃, hole, hrun, hplaced⟩ := percolateUp_spec (show h₂.curSize ≤ h₂.capacity by omega)
    (by omega) (Nat.lt_succ_self _) hlive₂ hup
  rw [hmem₂, keyOf_some ht] at hrun
  have hlt := hplaced.lt
  have hcap₃ := hplaced.same.capacity
  have hsize₃ := hplaced.same.curSize
  refine ⟨{ h₃ with array := Function.update h₃.array hole (some p) }, ?_,
    hplaced.same.mem.trans hmem₂, hsize₃.trans hsize₂, by show 0 < h₃.capacity; omega,
    by show h₃.curSize ≤ h₃.capacity; omega, ?_, ?_⟩
  · rw [addTimer, ht, Option.bind_eq_bind, Option.bind_some, hgrow]
    simp only [Option.bind_eq_bind, Option.bind_some]
    rw [h₂def, hsize₁, hrun]
    exact write_of_lt (show hole < h₃.capacity by omega) (some p)
  · show Ordered _ _ h₃.curSize
    rw [hsize₃, ← hmem₂]
    exact hplaced.ordered
  · show (contents _ h₃.curSize).Perm _
    rw [hsize₃, ← hcontents]
    exact hplaced.perm

/-- **A new timer**: it is in the heap, and all else is as it was. -/
theorem addNew_spec (hh : Heaped h) (expire : ℤ) (callback : κ) :
    ∃ h', addNew h expire callback = some (h.mem.next, h') ∧ Heaped h' ∧
      h'.mem.next = h.mem.next + 1 ∧
      h'.mem.cell = Function.update h.mem.cell h.mem.next (some ⟨expire, some callback⟩) := by
  generalize hmem : (h.mem.new ⟨expire, some callback⟩).2 = mem
  have hnext : mem.next = h.mem.next + 1 := by rw [← hmem]; rfl
  have hcell : mem.cell =
      Function.update h.mem.cell h.mem.next (some ⟨expire, some callback⟩) := by
    rw [← hmem]
    rfl
  have hne : ∀ i < h.curSize, ∃ p t, h.array i = some p ∧ mem.cell p = some t ∧
      h.mem.cell p = some t ∧ p ≠ h.mem.next := by
    intro i hi
    obtain ⟨p, t, hp, ht⟩ := hh.live.get hi
    have hlt := Store.lt_next ht
    exact ⟨p, t, hp, by rw [hcell, Function.update_of_ne (by omega), ht], ht, by omega⟩
  have hlive : Live mem (contents h.array h.curSize) := by
    intro x hx
    obtain ⟨i, hi, rfl⟩ := mem_contents.mp hx
    obtain ⟨p, t, hp, ht, -⟩ := hne i hi
    exact ⟨p, t, hp, ht⟩
  have hord : Ordered (keyOf mem) h.array h.curSize := by
    refine hh.ordered.congr ?_
    intro i hi
    obtain ⟨p, t, hp, ht, ht', -⟩ := hne i hi
    rw [hp, keyOf_some ht, keyOf_some ht']
  have hself : mem.cell h.mem.next = some ⟨expire, some callback⟩ := by
    rw [hcell, Function.update_self]
  obtain ⟨h', hadd, hmem', hsize, hpos, hle, hord', hperm⟩ :=
    addTimer_spec (h := { h with mem }) hh.pos hh.le hlive hord hself
  have hmemEq : h'.mem = mem := hmem'
  have hlive' : Live mem (contents h.array h.curSize ++ [some h.mem.next]) := by
    intro x hx
    rcases List.mem_append.mp hx with hx | hx
    · exact hlive x hx
    · exact ⟨_, _, List.mem_singleton.mp hx, hself⟩
  refine ⟨h', ?_, ⟨hpos, hle, ?_, ?_, ?_, ?_⟩, ?_, ?_⟩
  · rw [addNew]
    simp only [hmem, Store.new_fst, hadd, Option.bind_eq_bind, Option.bind_some]
  · rw [hmemEq]
    exact hlive'.perm hperm
  · rw [hmemEq]
    exact hord'
  · refine hperm.nodup_iff.mpr (List.nodup_append.mpr ⟨hh.nodup, List.nodup_singleton _, ?_⟩)
    rintro x hx y hy rfl
    obtain ⟨i, hi, hxi⟩ := mem_contents.mp hx
    obtain ⟨p, t, hp, -, -, hpn⟩ := hne i hi
    rw [List.mem_singleton.mp hy, hp, Option.some.injEq] at hxi
    exact hpn hxi
  · intro p t ht
    rw [hmemEq, hcell] at ht
    refine hperm.symm.subset (List.mem_append.mpr ?_)
    by_cases hp : p = h.mem.next
    · exact Or.inr (List.mem_singleton.mpr (by rw [hp]))
    · rw [Function.update_of_ne hp] at ht
      exact Or.inl (hh.pending p t ht)
  · rw [hmemEq, hnext]
  · rw [hmemEq, hcell]

/-! ## A deletion -/

/-- The order and the entries have nothing to do with the callbacks. -/
theorem keyOf_of_expire {mem' : Store (HeapTimer κ)}
    (h : ∀ p, (mem'.cell p).map HeapTimer.expire = (mem.cell p).map HeapTimer.expire)
    (x : Option ℕ) : keyOf mem' x = keyOf mem x := by
  have hkey : ∀ (mem : Store (HeapTimer κ)) (p : ℕ),
      keyOf mem (some p) = ((mem.cell p).map HeapTimer.expire).getD 0 := by
    intro mem p
    rw [keyOf, Option.bind_some]
    cases mem.cell p <;> rfl
  cases x with
  | none => rfl
  | some p => rw [hkey, hkey, h]

theorem Live.of_expire {mem' : Store (HeapTimer κ)} {l : List (Option ℕ)} (hl : Live mem l)
    (h : ∀ p, (mem'.cell p).map HeapTimer.expire = (mem.cell p).map HeapTimer.expire) :
    Live mem' l := by
  intro x hx
  obtain ⟨p, t, rfl, ht⟩ := hl x hx
  have hp := h p
  rw [ht, Option.map_some] at hp
  obtain ⟨t', ht', -⟩ := Option.map_eq_some_iff.mp hp
  exact ⟨p, t', rfl, ht'⟩

/-- `del_timer` changes a callback only. -/
theorem delTimer_eq {p : ℕ} {t : HeapTimer κ} (ht : h.mem.cell p = some t) :
    ∃ mem, delTimer h (some p) = some { h with mem } ∧ mem.next = h.mem.next ∧
      mem.cell = Function.update h.mem.cell p (some { t with cbFunc := none }) ∧
      ∀ q, (mem.cell q).map HeapTimer.expire = (h.mem.cell q).map HeapTimer.expire := by
  refine ⟨h.mem.put p (Store.lt_next ht) (some { t with cbFunc := none }), ?_, rfl, rfl, ?_⟩
  · rw [delTimer, Store.modify_of_some ht]
    rfl
  · intro q
    rw [Store.put_cell]
    by_cases hq : q = p
    · rw [hq, Function.update_self, ht]
      rfl
    · rw [Function.update_of_ne hq]

/-- **`del_timer`**: the timer stays in the heap without its callback. -/
theorem delTimer_spec (hh : Heaped h) {p : ℕ} {t : HeapTimer κ} (ht : h.mem.cell p = some t) :
    ∃ h', delTimer h (some p) = some h' ∧ Heaped h' ∧ h'.mem.next = h.mem.next ∧
      h'.mem.cell = Function.update h.mem.cell p (some { t with cbFunc := none }) := by
  obtain ⟨mem, hdel, hnext, hcell, hexpire⟩ := delTimer_eq ht
  refine ⟨_, hdel, ⟨hh.pos, hh.le, hh.live.of_expire hexpire,
    hh.ordered.congr fun i _ => keyOf_of_expire hexpire _, hh.nodup, ?_⟩, hnext, hcell⟩
  intro q t' hq
  have hold := hexpire q
  rw [show mem.cell q = some t' from hq, Option.map_some] at hold
  obtain ⟨t₀, ht₀, -⟩ := Option.map_eq_some_iff.mp hold.symm
  exact hh.pending q t₀ ht₀

/-! ## The root -/

/-- The heap without its root, the last entry in the place of it: `percolate_down` is still to
come. -/
structure Rootless (h : TimeHeap κ) (n p : ℕ) (h₁ : TimeHeap κ) : Prop where
  capacity : h₁.capacity = h.capacity
  curSize : h₁.curSize = n
  next : h₁.mem.next = h.mem.next
  cell : h₁.mem.cell = Function.update h.mem.cell p none
  perm : (contents h.array h.curSize).Perm (some p :: contents h₁.array n)
  live : Live h₁.mem (contents h₁.array n)
  down : DownTo (keyOf h₁.mem) h₁.array n 0

/-- **The first half of `pop_timer`**, where the timer at the root is in the array once. -/
theorem exists_rootless (hle : h.curSize ≤ h.capacity)
    (hlive : Live h.mem (contents h.array h.curSize))
    (hord : Ordered (keyOf h.mem) h.array h.curSize) {n : ℕ} (hsize : h.curSize = n + 1) {p : ℕ}
    {t : HeapTimer κ} (hp : h.array 0 = some p) (ht : h.mem.cell p = some t)
    (honce : some p ∉ contents (Function.update h.array 0 (h.array n)) n) :
    ∃ h₁, popTimer h = h₁.percolateDown 0 ∧ Rootless h n p h₁ := by
  have hcap : n < h.capacity := by omega
  have hpos : 0 < h.capacity := Nat.zero_lt_of_lt hcap
  generalize harray : Function.update h.array 0 (h.array n) = array at *
  have hcell : (h.mem.put p (Store.lt_next ht) none).cell = Function.update h.mem.cell p none := rfl
  have hpop : popTimer h = ({ h with
      mem := h.mem.put p (Store.lt_next ht) none, curSize := n, array } : TimeHeap κ).percolateDown
      0 := by
    rw [popTimer, if_neg (by omega), read_of_lt hpos, hp, ← harray]
    simp only [Option.bind_eq_bind, Option.bind_some, Store.delete_of_some ht, hsize,
      Nat.add_sub_cancel]
    rw [read, if_pos hcap, Option.bind_some, write, if_pos hpos, Option.bind_some]
  have hperm : (contents h.array h.curSize).Perm (some p :: contents array n) := by
    rw [hsize, ← harray, ← hp]
    exact contents_update_root h.array n
  -- what is left has not changed
  have hkeep : ∀ x ∈ contents array n, ∃ q t', x = some q ∧
      (h.mem.put p (Store.lt_next ht) none).cell q = some t' ∧ h.mem.cell q = some t' := by
    intro x hx
    obtain ⟨q, t', rfl, ht'⟩ := hlive x (hperm.symm.subset (List.mem_cons_of_mem _ hx))
    have hqp : q ≠ p := fun heq => honce (heq ▸ hx)
    exact ⟨q, t', rfl, by rw [hcell, Function.update_of_ne hqp, ht'], ht'⟩
  refine ⟨_, hpop, rfl, rfl, rfl, hcell, hperm, ?_, ?_⟩
  · intro x hx
    obtain ⟨q, t', hq, ht', -⟩ := hkeep x hx
    exact ⟨q, t', hq, ht'⟩
  · rw [hsize] at hord
    have hdown := DownTo.of_ordered hord
    rw [harray] at hdown
    refine hdown.congr ?_
    intro i hi
    obtain ⟨q, t', hq, ht', hold⟩ := hkeep _ (mem_contents.mpr ⟨i, hi, rfl⟩)
    rw [hq, keyOf_some ht', keyOf_some hold]

/-- **The second half of `pop_timer`.** -/
theorem Rootless.percolateDown {n p : ℕ} {h₁ : TimeHeap κ} (hr : Rootless h n p h₁)
    (hcap : n < h.capacity) :
    ∃ h', h₁.percolateDown 0 = some h' ∧ SameBut h₁ h' ∧ Ordered (keyOf h₁.mem) h'.array n ∧
      (contents h'.array n).Perm (contents h₁.array n) := by
  have hcap₁ := hr.capacity
  have hsize₁ := hr.curSize
  have hlive := hr.live
  have hdown := downFrom_zero.mpr hr.down
  by_cases h0 : n = 0
  · -- nothing is left, and `array[0]` points to the timer that has been deleted
    have hpos : 0 < h₁.capacity := by omega
    have hloop : percolateLoop (h₁.array 0) (h₁.curSize + 1) h₁ 0 = some (h₁, 0) := by
      rw [percolateLoop, if_neg (by omega)]
    refine ⟨h₁, ?_, ⟨rfl, rfl, rfl⟩, fun i _ hi => by omega, List.Perm.refl _⟩
    rw [TimeHeap.percolateDown, read_of_lt hpos, Option.bind_eq_bind, Option.bind_some, hloop]
    show h₁.write 0 (h₁.array 0) = _
    rw [write_of_lt hpos, Function.update_eq_self]
  · rw [← hsize₁] at hlive hdown
    obtain ⟨h', hrun, hsame, hord, hperm⟩ :=
      percolateDown_spec (by omega) (Nat.le_refl 0) (by omega) hlive hdown
    rw [hsize₁] at hord hperm
    exact ⟨h', hrun, hsame, orderedFrom_zero.mp hord, hperm⟩

/-- The heap without its root, with what a heap has besides its order. -/
structure Popped (h : TimeHeap κ) (n p : ℕ) (h₁ : TimeHeap κ) : Prop where
  capacity : h₁.capacity = h.capacity
  curSize : h₁.curSize = n
  next : h₁.mem.next = h.mem.next
  cell : h₁.mem.cell = Function.update h.mem.cell p none
  nodup : (contents h₁.array n).Nodup
  live : Live h₁.mem (contents h₁.array n)
  pending : ∀ q t, h₁.mem.cell q = some t → some q ∈ contents h₁.array n
  down : n ≠ 0 → DownTo (keyOf h₁.mem) h₁.array n 0

theorem Rootless.popped {n p : ℕ} {h₁ : TimeHeap κ} (hh : Heaped h) (hr : Rootless h n p h₁) :
    Popped h n p h₁ := by
  refine ⟨hr.capacity, hr.curSize, hr.next, hr.cell,
    (List.nodup_cons.mp (hr.perm.nodup_iff.mp hh.nodup)).2, hr.live, ?_, fun _ => hr.down⟩
  intro q t' ht'
  have hqp : q ≠ p := by
    rintro rfl
    rw [hr.cell, Function.update_self] at ht'
    exact absurd ht' (by simp)
  rw [hr.cell, Function.update_of_ne hqp] at ht'
  exact (List.mem_cons.mp (hr.perm.subset (hh.pending q t' ht'))).resolve_left (by simpa using hqp)

/-- Whatever `percolate_down` makes of it: in order, it is a heap. -/
theorem Popped.heaped {n p : ℕ} {h₁ h₂ : TimeHeap κ} (hpos : 0 < h.capacity) (hle : n ≤ h.capacity)
    (hp : Popped h n p h₁) (hsame : SameBut h₁ h₂) (hord : Ordered (keyOf h₁.mem) h₂.array n)
    (hperm : (contents h₂.array n).Perm (contents h₁.array n)) : Heaped h₂ := by
  have hsize : h₂.curSize = n := hsame.curSize.trans hp.curSize
  have hcap : h₂.capacity = h.capacity := hsame.capacity.trans hp.capacity
  refine ⟨by omega, by omega, ?_, ?_, ?_, ?_⟩
  · rw [hsame.mem, hsize]
    exact hp.live.perm hperm
  · rwa [hsame.mem, hsize]
  · rw [hsize]
    exact hperm.nodup_iff.mpr hp.nodup
  · intro q t ht
    rw [hsame.mem] at ht
    rw [hsize]
    exact hperm.symm.subset (hp.pending q t ht)

/-- **`pop_timer`** takes out the root. -/
theorem popTimer_spec (hh : Heaped h) {n : ℕ} (hsize : h.curSize = n + 1) {p : ℕ}
    {t : HeapTimer κ} (hp : h.array 0 = some p) (ht : h.mem.cell p = some t) :
    ∃ h', popTimer h = some h' ∧ Heaped h' ∧ h'.curSize = n ∧ h'.mem.next = h.mem.next ∧
      h'.mem.cell = Function.update h.mem.cell p none := by
  have hle := hh.le
  have honce : some p ∉ contents (Function.update h.array 0 (h.array n)) n := by
    have hnodup := hh.nodup
    rw [hsize] at hnodup
    have hcons := (contents_update_root h.array n).nodup_iff.mp hnodup
    rw [hp] at hcons
    exact (List.nodup_cons.mp hcons).1
  obtain ⟨h₁, hpop, hr⟩ := exists_rootless hle hh.live hh.ordered hsize hp ht honce
  obtain ⟨h', hrun, hsame, hord, hperm⟩ := hr.percolateDown (by omega)
  refine ⟨h', hpop.trans hrun, (hr.popped hh).heaped hh.pos (by omega) hsame hord hperm,
    hsame.curSize.trans hr.curSize, ?_, ?_⟩
  · rw [hsame.mem, hr.next]
  · rw [hsame.mem, hr.cell]

end TimeHeap
end Timers
end CModel
