import CModel.Foundation.Checked
import CModel.Timers.HeapOrder

/-!
# Room in the heap array

`resize` makes room by doubling, which makes none in an array of no entries, and `tick` looks at the
root before it asks whether there is one.

* `Fault`, and `time_heap.h` once more with its faults told apart: `toOption_tick` and its like say
  that it is the heap of `TimeHeap` where no fault comes up.
* `Call`, `perform`: any calls of `add_timer`, `pop_timer` and `tick`, where the callbacks that
  `tick` runs make calls of their own, `tick` among them.
* `Room`, `perform_room`: an array with room for an entry has room for all that come.
* `keepsRoom_iff`: **all accesses are inside of the array, and it has room for its entries, if and
  only if the array has an entry from the start**, or nothing is ever done with it.

The capacity is doubled as a number without bounds; below `2 ^ 29` the `int` of the code is that
number.
-/

namespace CModel
namespace Timers

variable {κ : Type} {h h' : TimeHeap κ}

/-! ## The faults -/

/-- What ends a run of the heap. -/
inductive Fault where
  /-- an index of the array that is not in `0 .. capacity - 1` -/
  | outside
  /-- more entries behind a call than the array has room for -/
  | overfull
  /-- the use of a `NULL` pointer, or of one to no timer -/
  | pointer
  /-- more rounds or calls than there is fuel for -/
  | fuel
  deriving DecidableEq, Repr

/-- The faults that are none of the array. -/
def Fault.InRoom (e : Fault) : Prop := e ≠ .outside ∧ e ≠ .overfull

theorem Fault.inRoom_fuel : Fault.InRoom .fuel := ⟨by simp, by simp⟩

/-- The wrong use of a pointer is no fault of the array. -/
theorem inRoom {α : Type} {P : α → Prop} {x : Except Fault α} (hx : Yields (· = .pointer) P x) :
    Yields Fault.InRoom P x :=
  hx.imp fun e he => by
    rw [he]
    exact ⟨by simp, by simp⟩

namespace Checked

/-- `array[i]` -/
def read (h : TimeHeap κ) (i : ℕ) : Except Fault (Option ℕ) :=
  if i < h.capacity then .ok (h.array i) else .error .outside

/-- `array[i] = p` -/
def write (h : TimeHeap κ) (i : ℕ) (p : Option ℕ) : Except Fault (TimeHeap κ) :=
  if i < h.capacity then .ok { h with array := Function.update h.array i p } else .error .outside

/-- `*p` -/
def deref (h : TimeHeap κ) (p : Option ℕ) : Except Fault (HeapTimer κ) :=
  match p.bind h.mem.cell with
  | some t => .ok t
  | none => .error .pointer

/-- `array[i]->expire` -/
def expireAt (h : TimeHeap κ) (i : ℕ) : Except Fault ℤ := do
  let p ← read h i
  let t ← deref h p
  .ok t.expire

/-- `resize` -/
def resize (h : TimeHeap κ) : Except Fault (TimeHeap κ) :=
  if h.curSize ≤ h.capacity then
    .ok { h with
      array := fun i => if i < h.curSize then h.array i else none
      capacity := 2 * h.capacity }
  else .error .outside

/-- The loop of `add_timer`, for `fuel` rounds at most: the heap and the place of the hole.  The
timer is looked at in each round, and not at all where the hole is the root. -/
def percolateUp (timer : ℕ) : (fuel : ℕ) → TimeHeap κ → (hole : ℕ) → Except Fault (TimeHeap κ × ℕ)
  | 0, _, _ => .error .fuel
  | fuel + 1, h, hole =>
    if 0 < hole then do
      let parent := (hole - 1) / 2
      let e ← expireAt h parent
      let t ← deref h (some timer)
      if e ≤ t.expire then .ok (h, hole)
      else do
        let p ← read h parent
        let h ← write h hole p
        percolateUp timer fuel h parent
    else .ok (h, hole)

/-- `add_timer` -/
def addTimer (h : TimeHeap κ) : Option ℕ → Except Fault (TimeHeap κ)
  | none => .ok h
  | some timer => do
    let h ← (if h.curSize ≥ h.capacity then resize h else .ok h)
    let hole := h.curSize
    let (h, hole) ← percolateUp timer (hole + 1) { h with curSize := h.curSize + 1 } hole
    write h hole (some timer)

/-- The child of `hole` that `percolate_down` looks at, the right one if it expires earlier. -/
def smallerChild (h : TimeHeap κ) (hole : ℕ) : Except Fault ℕ :=
  let child := hole * 2 + 1
  if child + 1 < h.curSize then do
    let right ← expireAt h (child + 1)
    let left ← expireAt h child
    .ok (if right < left then child + 1 else child)
  else .ok child

/-- The loop of `percolate_down`, for `fuel` rounds at most: the heap and the place of the hole. -/
def percolateLoop (temp : Option ℕ) :
    (fuel : ℕ) → TimeHeap κ → (hole : ℕ) → Except Fault (TimeHeap κ × ℕ)
  | 0, _, _ => .error .fuel
  | fuel + 1, h, hole =>
    if hole * 2 + 1 < h.curSize then do
      let child ← smallerChild h hole
      let e ← expireAt h child
      let t ← deref h temp
      if e < t.expire then do
        let p ← read h child
        let h ← write h hole p
        percolateLoop temp fuel h child
      else .ok (h, hole)
    else .ok (h, hole)

/-- `percolate_down` -/
def percolateDown (h : TimeHeap κ) (hole : ℕ) : Except Fault (TimeHeap κ) := do
  let temp ← read h hole
  let (h, hole) ← percolateLoop temp (h.curSize + 1) h hole
  write h hole temp

/-- The last loop of the constructor from an array, from `percolate_down(i)` down to
`percolate_down(0)`. -/
def buildLoop : (i : ℕ) → TimeHeap κ → Except Fault (TimeHeap κ)
  | 0, h => percolateDown h 0
  | i + 1, h => do
    let h ← percolateDown h (i + 1)
    buildLoop i h

/-- `time_heap(init_array, size, capacity)`; `none` is its exception. -/
def fromArray (mem : Store (HeapTimer κ)) (initArray : ℕ → Option ℕ) (size capacity : ℕ) :
    Except Fault (Option (TimeHeap κ)) :=
  if capacity < size then .ok none
  else
    let h : TimeHeap κ := ⟨mem, fun i => if i < size then initArray i else none, capacity, size⟩
    if size ≠ 0 then (buildLoop ((h.curSize - 1) / 2) h).map some else .ok (some h)

/-- `pop_timer` -/
def popTimer (h : TimeHeap κ) : Except Fault (TimeHeap κ) :=
  if h.curSize = 0 then .ok h
  else do
    let top ← read h 0
    match top with
    | none => .ok h
    | some top =>
      match h.mem.delete top with
      | none => .error .pointer
      | some mem => do
        let h := { h with mem, curSize := h.curSize - 1 }
        let last ← read h h.curSize
        let h ← write h 0 last
        percolateDown h 0

/-- The callback of `array[0]`, if it has one: the heap, and the callback that has been run, with
its timer. -/
def runTop (call : κ → TimeHeap κ → Except Fault (TimeHeap κ)) (h : TimeHeap κ) :
    Except Fault (TimeHeap κ × List (ℕ × κ)) := do
  let top ← read h 0
  let t ← deref h top
  match top, t.cbFunc with
  | some top, some callback => do
    let h ← call callback h
    .ok (h, [(top, callback)])
  | _, _ => .ok (h, [])

/-- The loop of `tick` at the time `cur`, for `fuel` rounds at most. -/
def tickLoop (call : κ → TimeHeap κ → Except Fault (TimeHeap κ)) (cur : ℤ) :
    (fuel : ℕ) → TimeHeap κ → Option ℕ → List (ℕ × κ) →
      Except Fault (TimeHeap κ × List (ℕ × κ))
  | 0, _, _, _ => .error .fuel
  | fuel + 1, h, tmp, calls =>
    if h.curSize = 0 then .ok (h, calls)
    else match tmp with
      | none => .ok (h, calls)
      | some tmp => do
        let t ← deref h (some tmp)
        if cur < t.expire then .ok (h, calls)
        else do
          let (h, called) ← runTop call h
          let h ← popTimer h
          let tmp ← read h 0
          tickLoop call cur fuel h tmp (calls ++ called)

/-- `tick` at the time `cur`, for `fuel` rounds at most. -/
def tick (call : κ → TimeHeap κ → Except Fault (TimeHeap κ)) (cur : ℤ) (fuel : ℕ)
    (h : TimeHeap κ) : Except Fault (TimeHeap κ × List (ℕ × κ)) := do
  let tmp ← read h 0
  tickLoop call cur fuel h tmp []

/-! ## The heap where no fault comes up -/

@[simp] theorem toOption_read (i : ℕ) : (read h i).toOption = h.read i := by
  unfold read TimeHeap.read
  split <;> rfl

@[simp] theorem toOption_write (i : ℕ) (p : Option ℕ) :
    (write h i p).toOption = h.write i p := by
  unfold write TimeHeap.write
  split <;> rfl

@[simp] theorem toOption_deref (p : Option ℕ) :
    (deref h p).toOption = p.bind h.mem.cell := by
  unfold deref
  cases p.bind h.mem.cell with
  | none => rfl
  | some t => rfl

@[simp] theorem toOption_expireAt (i : ℕ) : (expireAt h i).toOption = h.expireAt i := by
  simp [expireAt, TimeHeap.expireAt, TimeHeap.expireOf, Option.bind_assoc]

@[simp] theorem toOption_resize : (resize h).toOption = h.resize := by
  unfold resize TimeHeap.resize
  split <;> rfl

theorem write_mem {i : ℕ} {p : Option ℕ} (hw : h.write i p = some h') : h'.mem = h.mem := by
  unfold TimeHeap.write at hw
  split at hw
  · rw [← Option.some.inj hw]
  · cases hw

theorem toOption_percolateUp {timer : ℕ} {t : HeapTimer κ} (fuel hole : ℕ)
    (ht : h.mem.cell timer = some t) :
    (percolateUp timer fuel h hole).toOption = TimeHeap.percolateUp t.expire fuel h hole := by
  induction fuel generalizing h hole with
  | zero => rfl
  | succ fuel ih =>
    unfold percolateUp TimeHeap.percolateUp
    by_cases hpos : 0 < hole
    · rw [if_pos hpos, if_pos hpos]
      simp only [toOption_bind, toOption_expireAt, toOption_deref, Option.bind_some, ht,
        Option.bind_eq_bind, apply_ite Except.toOption, toOption_ok, toOption_read, toOption_write]
      refine Option.bind_congr fun e _ => ite_congr rfl (fun _ => rfl) ?_
      intro _
      refine Option.bind_congr fun p _ => Option.bind_congr fun h₁ hw => ih _ ?_
      rw [write_mem hw, ht]
    · rw [if_neg hpos, if_neg hpos]
      rfl

/-- A timer that is there is added as in `TimeHeap`. -/
theorem toOption_addTimer {timer : ℕ} {t : HeapTimer κ} (ht : h.mem.cell timer = some t) :
    (addTimer h (some timer)).toOption = TimeHeap.addTimer h (some timer) := by
  unfold addTimer TimeHeap.addTimer
  simp only [toOption_bind, ht, Option.bind_eq_bind, Option.bind_some, apply_ite Except.toOption,
    toOption_ok, toOption_resize, toOption_write]
  refine Option.bind_congr ?_
  intro h₁ hroom
  have hmem : h₁.mem = h.mem := by
    split at hroom
    · unfold TimeHeap.resize at hroom
      split at hroom
      · rw [← Option.some.inj hroom]
      · cases hroom
    · rw [← Option.some.inj hroom]
  have ht₁ : h₁.mem.cell timer = some t := by rw [hmem, ht]
  rw [toOption_percolateUp (h := { h₁ with curSize := h₁.curSize + 1 }) _ _ ht₁]

@[simp] theorem toOption_smallerChild (hole : ℕ) :
    (smallerChild h hole).toOption = h.smallerChild hole := by
  simp only [smallerChild, TimeHeap.smallerChild, apply_ite Except.toOption, toOption_bind,
    toOption_expireAt, toOption_ok, Option.bind_eq_bind]

@[simp] theorem toOption_percolateLoop (temp : Option ℕ) (fuel hole : ℕ) :
    (percolateLoop temp fuel h hole).toOption = TimeHeap.percolateLoop temp fuel h hole := by
  induction fuel generalizing h hole with
  | zero => rfl
  | succ fuel ih =>
    simp only [percolateLoop, TimeHeap.percolateLoop, TimeHeap.expireOf, Option.bind_eq_bind,
      apply_ite Except.toOption, toOption_bind, toOption_smallerChild, toOption_expireAt,
      toOption_deref, toOption_read, toOption_write, toOption_ok, ih, Option.bind_assoc,
      Option.bind_some]

@[simp] theorem toOption_percolateDown (hole : ℕ) :
    (percolateDown h hole).toOption = h.percolateDown hole := by
  simp only [percolateDown, TimeHeap.percolateDown, toOption_bind, toOption_read,
    toOption_percolateLoop, toOption_write, Option.bind_eq_bind]

@[simp] theorem toOption_buildLoop (i : ℕ) :
    (buildLoop i h).toOption = TimeHeap.buildLoop i h := by
  induction i generalizing h with
  | zero => exact toOption_percolateDown 0
  | succ i ih =>
    simp only [buildLoop, TimeHeap.buildLoop, toOption_bind, toOption_percolateDown, ih,
      Option.bind_eq_bind]

theorem toOption_fromArray (mem : Store (HeapTimer κ)) (initArray : ℕ → Option ℕ)
    (size capacity : ℕ) :
    (fromArray mem initArray size capacity).toOption =
      TimeHeap.fromArray mem initArray size capacity := by
  simp only [fromArray, TimeHeap.fromArray, apply_ite Except.toOption, toOption_map,
    toOption_buildLoop, toOption_ok]

@[simp] theorem toOption_popTimer : (popTimer h).toOption = h.popTimer := by
  unfold popTimer TimeHeap.popTimer
  split
  · rfl
  · simp only [toOption_bind, toOption_read, Option.bind_eq_bind]
    refine Option.bind_congr fun top _ => ?_
    cases top with
    | none => rfl
    | some top =>
      cases hdel : h.mem.delete top with
      | none => simp [hdel]
      | some mem => simp [hdel]

/-- The callbacks are those of `TimeHeap` where they do not run into a fault either. -/
theorem toOption_runTop (call : κ → TimeHeap κ → Except Fault (TimeHeap κ)) :
    (runTop call h).toOption = h.runTop fun callback h => (call callback h).toOption := by
  unfold runTop TimeHeap.runTop
  simp only [toOption_bind, toOption_read, toOption_deref, Option.bind_eq_bind]
  refine Option.bind_congr fun top _ => ?_
  cases top with
  | none => rfl
  | some top =>
    refine Option.bind_congr fun t _ => ?_
    cases hcall : t.cbFunc with
    | none => rfl
    | some callback => simp

theorem toOption_tickLoop (call : κ → TimeHeap κ → Except Fault (TimeHeap κ)) (cur : ℤ)
    (fuel : ℕ) (tmp : Option ℕ) (calls : List (ℕ × κ)) :
    (tickLoop call cur fuel h tmp calls).toOption =
      TimeHeap.tickLoop (fun callback h => (call callback h).toOption) cur fuel h tmp calls := by
  induction fuel generalizing h tmp calls with
  | zero => rfl
  | succ fuel ih =>
    unfold tickLoop TimeHeap.tickLoop
    by_cases h0 : h.curSize = 0
    · rw [if_pos h0, if_pos h0]
      rfl
    · rw [if_neg h0, if_neg h0]
      cases tmp with
      | none => rfl
      | some tmp =>
        simp only [toOption_bind, toOption_deref, apply_ite Except.toOption, toOption_ok,
          toOption_runTop, toOption_popTimer, toOption_read, Option.bind_eq_bind, Option.bind_some,
          ih]

/-- **`tick` where no fault comes up** is the `tick` of `TimeHeap`. -/
theorem toOption_tick (call : κ → TimeHeap κ → Except Fault (TimeHeap κ)) (cur : ℤ) :
    (tick call cur (h.curSize + 1) h).toOption =
      TimeHeap.tick (fun callback h => (call callback h).toOption) cur h := by
  simp only [tick, TimeHeap.tick, toOption_bind, toOption_read, toOption_tickLoop,
    Option.bind_eq_bind]

/-! ## An array with room -/

/-- There is an entry in the array, and the entries that are used are all in it. -/
structure Room (h : TimeHeap κ) : Prop where
  le : h.curSize ≤ h.capacity
  pos : 0 < h.capacity

/-- The array is the same size, with as many entries used. -/
structure SameRoom (h h' : TimeHeap κ) : Prop where
  capacity : h'.capacity = h.capacity
  curSize : h'.curSize = h.curSize

theorem SameRoom.refl (h : TimeHeap κ) : SameRoom h h := ⟨rfl, rfl⟩

theorem SameRoom.trans {h₁ h₂ : TimeHeap κ} (h₀₁ : SameRoom h h₁) (h₁₂ : SameRoom h₁ h₂) :
    SameRoom h h₂ :=
  ⟨h₁₂.capacity.trans h₀₁.capacity, h₁₂.curSize.trans h₀₁.curSize⟩

theorem Room.same (hr : Room h) (hs : SameRoom h h') : Room h' :=
  ⟨by rw [hs.curSize, hs.capacity]; exact hr.le, by rw [hs.capacity]; exact hr.pos⟩

theorem read_room {i : ℕ} (hi : i < h.capacity) :
    Yields (· = .pointer) (fun _ => True) (read h i) := by
  rw [read, if_pos hi]
  trivial

theorem write_room {i : ℕ} (hi : i < h.capacity) (p : Option ℕ) :
    Yields (· = .pointer) (SameRoom h) (write h i p) := by
  rw [write, if_pos hi]
  exact ⟨rfl, rfl⟩

theorem deref_room (h : TimeHeap κ) (p : Option ℕ) :
    Yields (· = .pointer) (fun _ => True) (deref h p) := by
  unfold deref
  cases p.bind h.mem.cell with
  | none => exact rfl
  | some t => trivial

theorem expireAt_room {i : ℕ} (hi : i < h.capacity) :
    Yields (· = .pointer) (fun _ => True) (expireAt h i) :=
  (read_room hi).bind fun p _ => (deref_room h p).bind fun _ _ => trivial

/-- **The loop of `add_timer`** stays between the root and the hole that it starts with, and has
fuel for all of its rounds. -/
theorem percolateUp_room (timer : ℕ) {fuel hole : ℕ} (hfuel : hole < fuel)
    (hhole : hole < h.capacity) :
    Yields (· = .pointer) (fun r => SameRoom h r.1 ∧ r.2 < h.capacity)
      (percolateUp timer fuel h hole) := by
  induction fuel generalizing h hole with
  | zero => exact absurd hfuel (Nat.not_lt_zero hole)
  | succ fuel ih =>
    unfold percolateUp
    by_cases hpos : 0 < hole
    · have hparent : (hole - 1) / 2 < h.capacity := by omega
      rw [if_pos hpos]
      refine (expireAt_room hparent).bind fun e _ => (deref_room h _).bind ?_
      intro t _
      by_cases hle : e ≤ t.expire
      · rw [if_pos hle]
        exact ⟨.refl h, hhole⟩
      · rw [if_neg hle]
        refine (read_room hparent).bind fun p _ => (write_room hhole p).bind ?_
        intro h₁ hsame
        rw [← hsame.capacity] at hparent ⊢
        exact (ih (by omega) hparent).mono fun r hr => ⟨hsame.trans hr.1, hr.2⟩
    · rw [if_neg hpos]
      exact ⟨.refl h, hhole⟩

/-- **Twice an array of at least one entry has room for one entry more.** -/
theorem addTimer_room (hr : Room h) (p : Option ℕ) :
    Yields (· = .pointer) Room (addTimer h p) := by
  cases p with
  | none => exact hr
  | some timer =>
    have hle := hr.le
    have hpos := hr.pos
    have hroom : Yields (· = .pointer) (fun h₁ => h₁.curSize < h₁.capacity)
        (if h.curSize ≥ h.capacity then resize h else .ok h) := by
      by_cases hfull : h.curSize ≥ h.capacity
      · rw [if_pos hfull, resize, if_pos hle]
        show h.curSize < 2 * h.capacity
        omega
      · rw [if_neg hfull]
        show h.curSize < h.capacity
        omega
    refine hroom.bind ?_
    intro h₁ hlt
    refine (percolateUp_room (h := { h₁ with curSize := h₁.curSize + 1 }) timer
      (Nat.lt_succ_self _) hlt).bind ?_
    intro r hr'
    obtain ⟨hsame, hhole⟩ := hr'
    rw [← hsame.capacity] at hhole
    refine (write_room hhole _).mono ?_
    intro h' hwrite
    refine Room.same ⟨?_, ?_⟩ (hsame.trans hwrite)
    · show h₁.curSize + 1 ≤ h₁.capacity
      omega
    · show 0 < h₁.capacity
      omega

theorem smallerChild_room (hle : h.curSize ≤ h.capacity) {hole : ℕ}
    (hchild : hole * 2 + 1 < h.curSize) :
    Yields (· = .pointer) (fun child => hole < child ∧ child < h.curSize) (smallerChild h hole) := by
  unfold smallerChild
  by_cases hright : hole * 2 + 1 + 1 < h.curSize
  · dsimp only
    rw [if_pos hright]
    refine (expireAt_room (by omega)).bind ?_
    intro right _
    refine (expireAt_room (by omega)).bind ?_
    intro left _
    show hole < (if right < left then hole * 2 + 1 + 1 else hole * 2 + 1) ∧ _ < h.curSize
    split <;> omega
  · dsimp only
    rw [if_neg hright]
    exact ⟨by omega, hchild⟩

/-- **The loop of `percolate_down`** goes on to a child only where there is one, and has fuel for
all of its rounds. -/
theorem percolateLoop_room (temp : Option ℕ) {fuel hole : ℕ} (hpos : 0 < fuel)
    (hfuel : h.curSize ≤ fuel + hole) (hle : h.curSize ≤ h.capacity) (hhole : hole < h.capacity) :
    Yields (· = .pointer) (fun r => SameRoom h r.1 ∧ r.2 < h.capacity)
      (percolateLoop temp fuel h hole) := by
  induction fuel generalizing h hole with
  | zero => exact absurd hpos (Nat.lt_irrefl 0)
  | succ fuel ih =>
    unfold percolateLoop
    by_cases hchild : hole * 2 + 1 < h.curSize
    · rw [if_pos hchild]
      refine (smallerChild_room hle hchild).bind ?_
      intro child hlt
      obtain ⟨hdown, hlt⟩ := hlt
      have hin : child < h.capacity := hlt.trans_le hle
      refine (expireAt_room hin).bind fun e _ => (deref_room h temp).bind ?_
      intro t _
      by_cases hless : e < t.expire
      · rw [if_pos hless]
        refine (read_room hin).bind fun p _ => (write_room hhole p).bind ?_
        intro h₁ hsame
        have hle₁ : h₁.curSize ≤ h₁.capacity := by rwa [hsame.curSize, hsame.capacity]
        rw [← hsame.capacity] at hin ⊢
        have hfuel₁ : h₁.curSize ≤ fuel + child := by
          rw [hsame.curSize]
          omega
        exact (ih (by omega) hfuel₁ hle₁ hin).mono fun r hr => ⟨hsame.trans hr.1, hr.2⟩
      · rw [if_neg hless]
        exact ⟨.refl h, hhole⟩
    · rw [if_neg hchild]
      exact ⟨.refl h, hhole⟩

theorem percolateDown_room (hle : h.curSize ≤ h.capacity) {hole : ℕ} (hhole : hole < h.capacity) :
    Yields (· = .pointer) (SameRoom h) (percolateDown h hole) := by
  refine (read_room hhole).bind ?_
  intro temp _
  refine (percolateLoop_room temp (Nat.succ_pos _) (by omega) hle hhole).bind ?_
  intro r hr
  obtain ⟨hsame, hlt⟩ := hr
  rw [← hsame.capacity] at hlt
  exact (write_room hlt temp).mono fun h' hwrite => hsame.trans hwrite

theorem buildLoop_room {i : ℕ} (hle : h.curSize ≤ h.capacity) (hi : i < h.capacity) :
    Yields (· = .pointer) (SameRoom h) (buildLoop i h) := by
  induction i generalizing h with
  | zero => exact percolateDown_room hle hi
  | succ i ih =>
    refine (percolateDown_room hle hi).bind ?_
    intro h₁ hsame
    have hle₁ : h₁.curSize ≤ h₁.capacity := by rwa [hsame.curSize, hsame.capacity]
    have hi₁ : i < h₁.capacity := by
      rw [hsame.capacity]
      omega
    exact (ih hle₁ hi₁).mono fun h' hsame' => hsame.trans hsame'

theorem popTimer_room (hr : Room h) : Yields (· = .pointer) Room (popTimer h) := by
  unfold popTimer
  by_cases h0 : h.curSize = 0
  · rw [if_pos h0]
    exact hr
  · rw [if_neg h0]
    have hle := hr.le
    refine (read_room hr.pos).bind fun top _ => ?_
    cases top with
    | none => exact hr
    | some top =>
      cases hdel : h.mem.delete top with
      | none =>
        dsimp only
        rw [hdel]
        exact rfl
      | some mem =>
        dsimp only
        rw [hdel]
        have hless : Room { h with mem, curSize := h.curSize - 1 } :=
          ⟨show h.curSize - 1 ≤ h.capacity by omega, hr.pos⟩
        refine (read_room (show h.curSize - 1 < h.capacity by omega)).bind ?_
        intro last _
        refine (write_room hless.pos last).bind ?_
        intro h₁ hsame
        have hr₁ := hless.same hsame
        exact (percolateDown_room hr₁.le hr₁.pos).mono fun h' => hr₁.same

/-- A callback that keeps the room for the heap lets `array[0]` be called. -/
theorem runTop_room {call : κ → TimeHeap κ → Except Fault (TimeHeap κ)}
    (hcall : ∀ callback (h : TimeHeap κ), Room h → Yields Fault.InRoom Room (call callback h))
    (hr : Room h) : Yields Fault.InRoom (fun r => Room r.1) (runTop call h) := by
  refine (inRoom (read_room hr.pos)).bind ?_
  intro top _
  refine (inRoom (deref_room h top)).bind fun t _ => ?_
  cases top with
  | none => exact hr
  | some top =>
    cases t.cbFunc with
    | none => exact hr
    | some callback => exact (hcall callback h hr).bind fun h₁ hr₁ => hr₁

theorem tickLoop_room {call : κ → TimeHeap κ → Except Fault (TimeHeap κ)}
    (hcall : ∀ callback (h : TimeHeap κ), Room h → Yields Fault.InRoom Room (call callback h))
    (cur : ℤ) {fuel : ℕ} (hr : Room h) (tmp : Option ℕ) (calls : List (ℕ × κ)) :
    Yields Fault.InRoom (fun r => Room r.1) (tickLoop call cur fuel h tmp calls) := by
  induction fuel generalizing h tmp calls with
  | zero => exact Fault.inRoom_fuel
  | succ fuel ih =>
    unfold tickLoop
    by_cases h0 : h.curSize = 0
    · rw [if_pos h0]
      exact hr
    · rw [if_neg h0]
      cases tmp with
      | none => exact hr
      | some tmp =>
        refine (inRoom (deref_room h (some tmp))).bind ?_
        intro t _
        by_cases hlate : cur < t.expire
        · rw [if_pos hlate]
          exact hr
        · rw [if_neg hlate]
          refine (runTop_room hcall hr).bind ?_
          intro r hr₁
          refine (inRoom (popTimer_room hr₁)).bind ?_
          intro h₂ hr₂
          exact (inRoom (read_room hr₂.pos)).bind fun tmp _ => ih hr₂ tmp _

theorem tick_room {call : κ → TimeHeap κ → Except Fault (TimeHeap κ)}
    (hcall : ∀ callback (h : TimeHeap κ), Room h → Yields Fault.InRoom Room (call callback h))
    (cur : ℤ) (fuel : ℕ) (hr : Room h) :
    Yields Fault.InRoom (fun r => Room r.1) (tick call cur fuel h) :=
  (inRoom (read_room hr.pos)).bind fun tmp _ => tickLoop_room hcall cur hr tmp []

/-! ## Any calls -/

/-- What a caller, or a callback, can do next. -/
inductive Call (κ : Type) where
  | addTimer (timer : Option ℕ)
  | popTimer
  /-- `tick`, where `time` reads `cur` -/
  | tick (cur : ℤ)
  /-- the timers become others, by `new`, by `del_timer` or by an assignment to a field -/
  | timers (mem : Store (HeapTimer κ))

/-- The callbacks, with the calls that they make, which may depend on the heap that they find. -/
abbrev Script (κ : Type) := κ → TimeHeap κ → List (Call κ)

/-- Behind a call, the array has room for its entries. -/
def assertRoom (h : TimeHeap κ) : Except Fault (TimeHeap κ) :=
  if h.curSize ≤ h.capacity then .ok h else .error .overfull

/-- One call, where `perform` are the calls of a callback. -/
def step (perform : TimeHeap κ → List (Call κ) → Except Fault (TimeHeap κ)) (script : Script κ)
    (fuel : ℕ) (h : TimeHeap κ) : Call κ → Except Fault (TimeHeap κ)
  | .addTimer timer => addTimer h timer
  | .popTimer => popTimer h
  | .tick cur => (tick (fun callback h => perform h (script callback h)) cur fuel h).map Prod.fst
  | .timers mem => .ok { h with mem }

/-- The calls one after the other, where `fuel` bounds how many there are, how deep the callbacks
are in one another and how many rounds a `tick` has. -/
def perform (script : Script κ) : (fuel : ℕ) → TimeHeap κ → List (Call κ) →
    Except Fault (TimeHeap κ)
  | _, h, [] => .ok h
  | 0, _, _ :: _ => .error .fuel
  | fuel + 1, h, call :: calls => do
    let h ← step (perform script fuel) script fuel h call
    let h ← assertRoom h
    perform script fuel h calls

/-- What is passed to a constructor. -/
inductive Args (κ : Type) where
  | empty (cap : ℕ)
  | ofArray (mem : Store (HeapTimer κ)) (initArray : ℕ → Option ℕ) (size capacity : ℕ)

/-- The constructors; `none` is their exception. -/
def construct : Args κ → Except Fault (Option (TimeHeap κ))
  | .empty cap => .ok (some (TimeHeap.new cap))
  | .ofArray mem initArray size capacity => fromArray mem initArray size capacity

/-- The capacity that is asked for. -/
def Args.capacity : Args κ → ℕ
  | .empty cap => cap
  | .ofArray _ _ _ capacity => capacity

/-- A heap from its constructor on. -/
def run (script : Script κ) (fuel : ℕ) (args : Args κ) (calls : List (Call κ)) :
    Except Fault (Option (TimeHeap κ)) := do
  match ← construct args with
  | none => .ok none
  | some h => do
    let h ← assertRoom h
    let h ← perform script fuel h calls
    .ok (some h)

/-- No access is outside of the array, and the array has room for its entries behind each call,
however far the calls get. -/
def KeepsRoom (script : Script κ) (args : Args κ) (calls : List (Call κ)) : Prop :=
  ∀ fuel, run script fuel args calls ≠ .error .outside ∧
    run script fuel args calls ≠ .error .overfull

/-- The call looks at the array even where there is no entry: all but `pop_timer` and
`add_timer(NULL)` do. -/
def Call.Touches : Call κ → Prop
  | .addTimer timer => timer ≠ none
  | .popTimer => False
  | .tick _ => True
  | .timers _ => False

theorem assertRoom_room (hr : Room h) : Yields Fault.InRoom Room (assertRoom h) := by
  rw [assertRoom, if_pos hr.le]
  exact hr

/-- **One call keeps the room**, with callbacks that do. -/
theorem step_room {perform : TimeHeap κ → List (Call κ) → Except Fault (TimeHeap κ)}
    (hperform : ∀ (h : TimeHeap κ) calls, Room h → Yields Fault.InRoom Room (perform h calls))
    (script : Script κ) (fuel : ℕ) (hr : Room h) (call : Call κ) :
    Yields Fault.InRoom Room (step perform script fuel h call) := by
  cases call with
  | addTimer timer => exact inRoom (addTimer_room hr timer)
  | popTimer => exact inRoom (popTimer_room hr)
  | tick cur =>
    exact (tick_room (fun callback h hr => hperform h _ hr) cur fuel hr).map fun r hr' => hr'
  | timers mem => exact ⟨hr.le, hr.pos⟩

/-- **All calls keep the room**, by induction on the fuel, which the calls of the callbacks have
less of. -/
theorem perform_room (script : Script κ) (fuel : ℕ) (hr : Room h) (calls : List (Call κ)) :
    Yields Fault.InRoom Room (perform script fuel h calls) := by
  induction fuel generalizing h calls with
  | zero =>
    cases calls with
    | nil => exact hr
    | cons call calls => exact Fault.inRoom_fuel
  | succ fuel ih =>
    cases calls with
    | nil => exact hr
    | cons call calls =>
      refine (step_room (fun h calls hr => ih hr calls) script fuel hr call).bind ?_
      intro h₁ hr₁
      exact (assertRoom_room hr₁).bind fun h₂ hr₂ => ih hr₂ calls

/-! ## An array without entries -/

/-- The heap has no array to speak of. -/
structure Nothing (h : TimeHeap κ) : Prop where
  capacity : h.capacity = 0
  curSize : h.curSize = 0

theorem Nothing.read (hn : Nothing h) (i : ℕ) : read h i = .error .outside :=
  if_neg (by rw [hn.capacity]; omega)

theorem Nothing.write (hn : Nothing h) (i : ℕ) (p : Option ℕ) : write h i p = .error .outside :=
  if_neg (by rw [hn.capacity]; omega)

/-- **The first call that touches the array is outside of it**: twice no entry is no entry. -/
theorem Nothing.step_touches (hn : Nothing h) {call : Call κ} (ht : call.Touches)
    (perform : TimeHeap κ → List (Call κ) → Except Fault (TimeHeap κ)) (script : Script κ)
    (fuel : ℕ) : step perform script fuel h call = .error .outside := by
  cases call with
  | addTimer timer =>
    cases timer with
    | none => exact absurd rfl ht
    | some timer =>
      have hsize := hn.curSize
      have hcap := hn.capacity
      have hresize : resize h = .ok { h with
          array := fun i => if i < h.curSize then h.array i else none
          capacity := 2 * h.capacity } := if_pos (by omega)
      have hfull : h.curSize ≥ h.capacity := by omega
      show addTimer h (some timer) = _
      simp only [addTimer, if_pos hfull, hresize]
      simp [hsize, hcap, percolateUp, Checked.write, bind, Except.bind]
  | popTimer => exact ht.elim
  | tick cur =>
    show Except.map _ (tick _ _ _ _) = _
    simp only [tick, hn.read]
    rfl
  | timers mem => exact ht.elim

/-- The other calls leave the array alone. -/
theorem Nothing.step_of_not_touches (hn : Nothing h) {call : Call κ} (ht : ¬ call.Touches)
    (perform : TimeHeap κ → List (Call κ) → Except Fault (TimeHeap κ)) (script : Script κ)
    (fuel : ℕ) : ∃ h', step perform script fuel h call = .ok h' ∧ Nothing h' := by
  cases call with
  | addTimer timer =>
    obtain rfl : timer = none := not_not.mp ht
    exact ⟨h, rfl, hn⟩
  | popTimer => exact ⟨h, if_pos hn.curSize, hn⟩
  | tick cur => exact absurd trivial ht
  | timers mem => exact ⟨_, rfl, hn.capacity, hn.curSize⟩

theorem Nothing.assertRoom (hn : Nothing h) : assertRoom h = .ok h :=
  if_pos (by rw [hn.curSize]; omega)

/-- With a call that touches the array, there is an access outside of it. -/
theorem Nothing.perform_outside (hn : Nothing h) (script : Script κ) {calls : List (Call κ)}
    (ht : ∃ call ∈ calls, call.Touches) :
    perform script calls.length h calls = .error .outside := by
  induction calls generalizing h with
  | nil => simp at ht
  | cons call calls ih =>
    by_cases hcall : call.Touches
    · show (step _ _ _ _ _ >>= _) = _
      rw [hn.step_touches hcall]
      rfl
    · obtain ⟨h', hstep, hn'⟩ := hn.step_of_not_touches hcall (perform script calls.length) script
        calls.length
      have hlater : ∃ call ∈ calls, call.Touches := by
        obtain ⟨c, hc, htc⟩ := ht
        rcases List.mem_cons.mp hc with rfl | hc
        · exact absurd htc hcall
        · exact ⟨c, hc, htc⟩
      show (step _ _ _ _ _ >>= _) = _
      rw [hstep]
      show (Checked.assertRoom h' >>= _) = _
      rw [hn'.assertRoom]
      exact ih hn' hlater

/-- With no call that does, there is none. -/
theorem Nothing.perform_room (hn : Nothing h) (script : Script κ) (fuel : ℕ)
    {calls : List (Call κ)} (ht : ∀ call ∈ calls, ¬ call.Touches) :
    Yields Fault.InRoom Nothing (perform script fuel h calls) := by
  induction calls generalizing h fuel with
  | nil =>
    cases fuel with
    | zero => exact hn
    | succ fuel => exact hn
  | cons call calls ih =>
    cases fuel with
    | zero => exact Fault.inRoom_fuel
    | succ fuel =>
      obtain ⟨h', hstep, hn'⟩ := hn.step_of_not_touches (ht call List.mem_cons_self)
        (perform script fuel) script fuel
      show Yields _ _ (step _ _ _ _ _ >>= _)
      rw [hstep]
      show Yields _ _ (Checked.assertRoom h' >>= _)
      rw [hn'.assertRoom]
      exact ih hn' fuel fun c hc => ht c (List.mem_cons_of_mem _ hc)

/-! ## The constructors -/

/-- What the constructors leave. -/
structure Constructed (capacity : ℕ) (h : TimeHeap κ) : Prop where
  le : h.curSize ≤ h.capacity
  capacity : h.capacity = capacity

theorem construct_room (args : Args κ) :
    Yields Fault.InRoom (fun o => ∀ h ∈ o, Constructed args.capacity h) (construct args) := by
  cases args with
  | empty cap =>
    rintro h ⟨⟩
    exact ⟨Nat.zero_le _, rfl⟩
  | ofArray mem initArray size capacity =>
    show Yields _ _ (fromArray mem initArray size capacity)
    unfold fromArray
    by_cases hthrow : capacity < size
    · rw [if_pos hthrow]
      rintro h ⟨⟩
    · rw [if_neg hthrow]
      by_cases h0 : size = 0
      · dsimp only
        rw [if_neg (not_not.mpr h0)]
        rintro h ⟨⟩
        exact ⟨show size ≤ capacity by omega, rfl⟩
      · dsimp only
        rw [if_pos h0]
        refine (inRoom (buildLoop_room ?_ ?_)).map ?_
        · show size ≤ capacity
          omega
        · show (size - 1) / 2 < capacity
          omega
        · intro h hsame
          rintro h' ⟨⟩
          refine ⟨?_, hsame.capacity⟩
          rw [hsame.curSize, hsame.capacity]
          show size ≤ capacity
          omega

/-- An array of no entries, where a constructor accepts it. -/
theorem construct_nothing {args : Args κ} (haccept : construct args ≠ .ok none)
    (h0 : args.capacity = 0) : ∃ h, construct args = .ok (some h) ∧ Nothing h := by
  cases args with
  | empty cap => exact ⟨_, rfl, h0, rfl⟩
  | ofArray mem initArray size capacity =>
    have hcap : capacity = 0 := h0
    by_cases hthrow : capacity < size
    · exact absurd (if_pos hthrow) haccept
    · have hsize : size = 0 := by omega
      refine ⟨⟨mem, fun i => if i < size then initArray i else none, capacity, size⟩, ?_, hcap,
        hsize⟩
      show fromArray mem initArray size capacity = _
      rw [fromArray, if_neg hthrow]
      exact if_neg (not_not.mpr hsize)

/-! ## The heap array always has room -/

/-- From a constructor that makes an array of at least one entry. -/
theorem run_room {args : Args κ} (hpos : 0 < args.capacity) (script : Script κ) (fuel : ℕ)
    (calls : List (Call κ)) :
    Yields Fault.InRoom (fun o => ∀ h ∈ o, Room h) (run script fuel args calls) := by
  refine (construct_room args).bind fun o ho => ?_
  cases o with
  | none =>
    rintro h ⟨⟩
  | some h =>
    have hr : Room h := ⟨(ho h rfl).le, by rwa [(ho h rfl).capacity]⟩
    refine (assertRoom_room hr).bind ?_
    intro h₁ hr₁
    refine (perform_room script fuel hr₁ calls).bind ?_
    intro h₂ hr₂
    rintro h ⟨⟩
    exact hr₂

/-- From one that makes an array of none. -/
theorem run_nothing {args : Args κ} {h : TimeHeap κ} (hargs : construct args = .ok (some h))
    (hn : Nothing h) (script : Script κ) (fuel : ℕ) (calls : List (Call κ)) :
    run script fuel args calls = (perform script fuel h calls).map some := by
  have hrun : run script fuel args calls =
      (assertRoom h >>= fun h => perform script fuel h calls >>= fun h => .ok (some h)) := by
    rw [run, hargs]
    rfl
  rw [hrun, hn.assertRoom]
  rfl

/-- **The heap array has room**, and is accessed inside only, if and only if the constructor makes at
least one entry, or none of the calls touches the array. -/
theorem keepsRoom_iff {args : Args κ} (haccept : construct args ≠ .ok none) (script : Script κ)
    (calls : List (Call κ)) :
    KeepsRoom script args calls ↔ 0 < args.capacity ∨ ∀ call ∈ calls, ¬ call.Touches := by
  constructor
  · intro hkeeps
    by_contra hcon
    obtain ⟨hcap, htouch⟩ := not_or.mp hcon
    obtain ⟨h, hargs, hn⟩ := construct_nothing haccept (Nat.eq_zero_of_not_pos hcap)
    have htouch : ∃ call ∈ calls, call.Touches := by
      simpa only [not_forall, not_not, exists_prop] using htouch
    refine (hkeeps calls.length).1 ?_
    rw [run_nothing hargs hn, hn.perform_outside script htouch]
    rfl
  · intro hcases fuel
    have hroom : Yields Fault.InRoom (fun _ => True) (run script fuel args calls) := by
      by_cases hpos : 0 < args.capacity
      · exact (run_room hpos script fuel calls).mono fun _ _ => trivial
      · obtain ⟨h, hargs, hn⟩ := construct_nothing haccept (Nat.eq_zero_of_not_pos hpos)
        rw [run_nothing hargs hn]
        exact (hn.perform_room script fuel (hcases.resolve_left hpos)).map fun _ _ => trivial
    exact ⟨hroom.ne_error fun hin => hin.1 rfl, hroom.ne_error fun hin => hin.2 rfl⟩

/-- An array of one entry, to which a callback adds a timer in the middle of a tick. -/
theorem keepsRoom_iff_one :
    KeepsRoom (fun (_ : ℕ) _ => [.addTimer (some 1), .tick 2]) (.empty 1)
      [.timers ((Store.empty.new ⟨3, some 0⟩).2.new ⟨5, none⟩).2, .addTimer (some 0), .tick 4] :=
  (keepsRoom_iff (by simp [construct]) _ _).mpr (.inl Nat.one_pos)

/-- `time_heap(0)`: the first `tick` looks at `array[0]`, and so does the first `add_timer`. -/
theorem empty_zero_not_keepsRoom :
    ¬ KeepsRoom (fun (_ : ℕ) _ => []) (.empty 0) [.tick 0] ∧
      ¬ KeepsRoom (fun (_ : ℕ) _ => []) (.empty 0) [.addTimer (some 0)] :=
  ⟨fun hkeeps => (hkeeps 1).1 rfl, fun hkeeps => (hkeeps 1).1 rfl⟩

end Checked
end Timers
end CModel
