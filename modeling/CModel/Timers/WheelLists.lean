import CModel.Timers.TimeWheel
import Mathlib.Data.List.Perm.Subperm

/-!
# The slot lists of a wheel

* `WellLinked`: the slots of a wheel are doubly linked lists, given as lists of addresses, with the
  timers of their slot.
* `unlinkCells`: what taking a timer out of its list does to the timers; `delTimer` and
  `removeFired` both do this.
* `addTimer_spec`, `delTimer_spec`, `tick_spec`: the operations on the lists.
-/

namespace CModel
namespace Timers
namespace TimeWheel

variable {κ : Type}

/-! ## Lists -/

/-- What a timer has besides its place in a list. -/
def data (w : TimeWheel κ) (p : ℕ) : Option (TwData κ) := (w.mem.cell p).map TwTimer.toTwData

/-- The neighbours of the timers. -/
def linkOf (cell : ℕ → Option (TwTimer κ)) (p : ℕ) : Option (Link ℕ) :=
  (cell p).map TwTimer.toLink

/-- A timer that has been made and neither deleted nor fired. -/
def Pending (w : TimeWheel κ) (p : ℕ) : Prop := ∃ t, w.mem.cell p = some t

/-- The slots of the wheel are the doubly linked lists `lists`, each timer is in the list of its
slot, and there are no others. -/
structure WellLinked (w : TimeWheel κ) (lists : Fin 60 → List ℕ) : Prop where
  head : ∀ s, w.slots s = (lists s).head?
  links : ∀ s, Links (linkOf w.mem.cell) none (lists s) none
  nodup : ∀ s, (lists s).Nodup
  timeSlot : ∀ s, ∀ p ∈ lists s, ∃ d, w.data p = some d ∧ d.timeSlot = s ∧ 0 ≤ d.rotation
  pending : ∀ p t, w.mem.cell p = some t → p ∈ lists t.timeSlot

variable {w w' : TimeWheel κ} {lists : Fin 60 → List ℕ}

theorem pending_iff_data {p : ℕ} : w.Pending p ↔ ∃ d, w.data p = some d := by
  simp only [Pending, data, Option.map_eq_some_iff]
  exact ⟨fun ⟨t, ht⟩ => ⟨_, t, ht, rfl⟩, fun ⟨_, t, ht, _⟩ => ⟨t, ht⟩⟩

theorem WellLinked.cell (h : WellLinked w lists) {s : Fin 60} {p : ℕ} (hp : p ∈ lists s) :
    ∃ t, w.mem.cell p = some t ∧ t.timeSlot = s ∧ 0 ≤ t.rotation := by
  obtain ⟨d, hd, hs, hr⟩ := h.timeSlot s p hp
  obtain ⟨t, ht, rfl⟩ := Option.map_eq_some_iff.mp hd
  exact ⟨t, ht, hs, hr⟩

/-- A timer is in one list only. -/
theorem WellLinked.slot_unique (h : WellLinked w lists) {s s' : Fin 60} {p : ℕ}
    (hp : p ∈ lists s) (hp' : p ∈ lists s') : s = s' := by
  obtain ⟨t, ht, hs, -⟩ := h.cell hp
  obtain ⟨t', ht', hs', -⟩ := h.cell hp'
  rw [ht] at ht'
  obtain rfl := Option.some.inj ht'
  exact hs.symm.trans hs'

/-- The lists of a wheel whose timers in one slot have changed. -/
theorem WellLinked.update (h : WellLinked w lists) (s : Fin 60) {l : List ℕ}
    (hslots : w'.slots = Function.update w.slots s l.head?)
    (hlinks : Links (linkOf w'.mem.cell) none l none) (hnodup : l.Nodup)
    (hlist : ∀ p ∈ l, ∃ d, w'.data p = some d ∧ d.timeSlot = s ∧ 0 ≤ d.rotation)
    (hother : ∀ s', s' ≠ s → ∀ p ∈ lists s', w'.mem.cell p = w.mem.cell p)
    (hpending : ∀ p t, w'.mem.cell p = some t →
      (t.timeSlot = s ∧ p ∈ l) ∨ (t.timeSlot ≠ s ∧ w.mem.cell p = some t)) :
    WellLinked w' (Function.update lists s l) where
  head s' := by
    by_cases hs : s' = s
    · rw [hslots, hs, Function.update_self, Function.update_self]
    · rw [hslots, Function.update_of_ne hs, Function.update_of_ne hs, h.head]
  links s' := by
    by_cases hs : s' = s
    · rwa [hs, Function.update_self]
    · rw [Function.update_of_ne hs]
      exact (h.links s').congr fun q hq => by rw [linkOf, linkOf, hother s' hs q hq]
  nodup s' := by
    by_cases hs : s' = s
    · rwa [hs, Function.update_self]
    · rw [Function.update_of_ne hs]
      exact h.nodup s'
  timeSlot s' p hp := by
    by_cases hs : s' = s
    · rw [hs, Function.update_self] at hp
      rw [hs]
      exact hlist p hp
    · rw [Function.update_of_ne hs] at hp
      rw [data, hother s' hs p hp]
      exact h.timeSlot s' p hp
  pending p t ht := by
    rcases hpending p t ht with ⟨hs, hp⟩ | ⟨hs, hold⟩
    · rwa [hs, Function.update_self]
    · rw [Function.update_of_ne hs]
      exact h.pending p t hold

theorem wellLinked_new : WellLinked (new : TimeWheel κ) fun _ => [] where
  head _ := rfl
  links _ := trivial
  nodup _ := List.nodup_nil
  timeSlot _ _ hp := absurd hp List.not_mem_nil
  pending _ _ ht := absurd ht (by simp [new, Store.empty])

/-! ## A new timer -/

/-- The timers after `add_timer` has put a new one in front of a list. -/
def frontCells (cell : ℕ → Option (TwTimer κ)) (p : ℕ) (d : TwData κ) (head : Option ℕ) :
    ℕ → Option (TwTimer κ) :=
  fun q =>
    if q = p then some ⟨d, ⟨none, head⟩⟩
    else if some q = head then (cell q).map fun t => { t with prev := some p }
    else cell q

theorem linkOf_frontCells (cell : ℕ → Option (TwTimer κ)) (p : ℕ) (d : TwData κ)
    (head : Option ℕ) :
    linkOf (frontCells cell p d head) = linkFront (linkOf cell) p head := by
  funext q
  rw [linkOf, frontCells, linkFront]
  split
  · rfl
  · split
    · rw [linkOf, Option.map_map, Option.map_map]
      rfl
    · rfl

theorem pushTimer_eq (h : WellLinked w lists) (d : TwData κ) :
    ∃ w', pushTimer w d = some (some w.mem.next, w') ∧
      w'.mem.next = w.mem.next + 1 ∧ w'.curSlot = w.curSlot ∧
      w'.slots = Function.update w.slots d.timeSlot (some w.mem.next) ∧
      w'.mem.cell = frontCells w.mem.cell w.mem.next d (lists d.timeSlot).head? := by
  have hfresh : w.mem.cell w.mem.next = none := w.mem.fresh _ le_rfl
  rw [pushTimer, ← h.head]
  cases hslot : w.slots d.timeSlot with
  | none =>
    refine ⟨_, rfl, rfl, rfl, rfl, funext ?_⟩
    intro q
    show Function.update w.mem.cell w.mem.next _ q = _
    rw [frontCells]
    by_cases hq : q = w.mem.next
    · rw [hq, Function.update_self, if_pos rfl]
    · rw [Function.update_of_ne hq, if_neg hq, if_neg (by simp)]
  | some head =>
    rw [h.head] at hslot
    obtain ⟨t, ht, -⟩ := h.cell (List.mem_of_mem_head? hslot)
    have hne : head ≠ w.mem.next := by
      rintro rfl
      rw [hfresh] at ht
      exact absurd ht (by simp)
    have hnew : (w.mem.new ⟨d, ⟨none, none⟩⟩).2.cell w.mem.next = some ⟨d, ⟨none, none⟩⟩ := by
      rw [Store.new_snd_cell, Function.update_self]
    have hhead : (Store.put (w.mem.new ⟨d, ⟨none, none⟩⟩).2 w.mem.next (Store.lt_next hnew)
        (some ⟨d, ⟨none, some head⟩⟩)).cell head = some t := by
      rw [Store.put_cell, Function.update_of_ne hne, Store.new_snd_cell,
        Function.update_of_ne hne, ht]
    simp only [Store.new_fst, Store.modify_of_some hnew, Option.bind_eq_bind, Option.bind_some,
      setPrev, Store.modify_of_some hhead]
    refine ⟨_, rfl, rfl, rfl, rfl, funext ?_⟩
    intro q
    rw [frontCells]
    simp only [Store.put_cell, Store.new_snd_cell]
    by_cases hq : q = w.mem.next
    · rw [if_pos hq, hq, Function.update_of_ne hne.symm, Function.update_self]
    · rw [if_neg hq]
      by_cases hqh : q = head
      · rw [hqh, Function.update_self, if_pos rfl, ht]
        rfl
      · rw [Function.update_of_ne hqh, Function.update_of_ne hq, Function.update_of_ne hq,
          if_neg (by simpa using hqh)]

/-- What `add_timer` makes of a timeout. -/
def newData (w : TimeWheel κ) (timeout : ℤ) (callback : κ) : TwData κ :=
  ⟨((max timeout 1).toNat / 60 : ℕ), Fin.ofNat 60 (w.curSlot + (max timeout 1).toNat % 60),
    callback⟩

theorem addTimer_eq_pushTimer (w : TimeWheel κ) {timeout : ℤ} (ht : 0 ≤ timeout) (callback : κ) :
    addTimer w timeout callback = pushTimer w (newData w timeout callback) := by
  have hticks : (if timeout < 1 then 1 else timeout.toNat) = (max timeout 1).toNat := by
    split <;> omega
  rw [addTimer, if_neg (by omega), hticks]
  rfl

/-- **`add_timer` on the lists**: the new timer is in front of the list of its slot, and all else is
as it was. -/
theorem addTimer_spec (h : WellLinked w lists) {timeout : ℤ} (ht : 0 ≤ timeout) (callback : κ) :
    ∃ w', addTimer w timeout callback = some (some w.mem.next, w') ∧
      WellLinked w' (Function.update lists (newData w timeout callback).timeSlot
        (w.mem.next :: lists (newData w timeout callback).timeSlot)) ∧
      w'.curSlot = w.curSlot ∧ w'.mem.next = w.mem.next + 1 ∧
      w'.data w.mem.next = some (newData w timeout callback) ∧
      ∀ p, p ≠ w.mem.next → w'.data p = w.data p := by
  have hrot : 0 ≤ (newData w timeout callback).rotation := Int.natCast_nonneg _
  rw [addTimer_eq_pushTimer w ht]
  generalize newData w timeout callback = d at *
  obtain ⟨w', hpush, hnext, hcur, hslots, hcell⟩ := pushTimer_eq h d
  have hfresh : w.mem.cell w.mem.next = none := w.mem.fresh _ le_rfl
  have hne : ∀ s, ∀ p ∈ lists s, p ≠ w.mem.next := by
    rintro s p hp rfl
    obtain ⟨t, ht, -⟩ := h.cell hp
    rw [hfresh] at ht
    exact absurd ht (by simp)
  have hnotMem : ∀ s, w.mem.next ∉ lists s := fun s hp => hne s _ hp rfl
  have hself : w'.data w.mem.next = some d := by
    rw [data, hcell, frontCells, if_pos rfl]
    rfl
  have hdata : ∀ p, p ≠ w.mem.next → w'.data p = w.data p := by
    intro p hp
    rw [data, data, hcell, frontCells, if_neg hp]
    split
    · rw [Option.map_map]
      rfl
    · rfl
  refine ⟨w', hpush, h.update d.timeSlot hslots ?_ ?_ ?_ ?_ ?_, hcur, hnext, hself, hdata⟩
  · rw [hcell, linkOf_frontCells]
    exact (h.links _).pushFront (h.nodup _) (hnotMem _)
  · exact List.nodup_cons.mpr ⟨hnotMem _, h.nodup _⟩
  · intro p hp
    rcases List.mem_cons.mp hp with rfl | hp
    · exact ⟨d, hself, rfl, hrot⟩
    · rw [hdata p (hne _ p hp)]
      exact h.timeSlot _ p hp
  · intro s hs p hp
    rw [hcell, frontCells, if_neg (hne s p hp), if_neg]
    exact fun hhead => hs (h.slot_unique hp (List.mem_of_mem_head? hhead.symm))
  · intro p t ht
    rw [hcell, frontCells] at ht
    split at ht
    · next hp =>
      obtain rfl := Option.some.inj ht
      exact Or.inl ⟨rfl, hp ▸ List.mem_cons_self⟩
    · split at ht
      · next hhead =>
        obtain ⟨t', ht', rfl⟩ := Option.map_eq_some_iff.mp ht
        have hmem := List.mem_of_mem_head? hhead.symm
        exact Or.inl ⟨h.slot_unique (h.pending p t' ht') hmem, List.mem_cons_of_mem _ hmem⟩
      · by_cases hs : t.timeSlot = d.timeSlot
        · exact Or.inl ⟨hs, List.mem_cons_of_mem _ (hs ▸ h.pending p t ht)⟩
        · exact Or.inr ⟨hs, ht⟩

/-! ## Taking a timer out -/

/-- The timers after one has been taken out of its list and deleted. -/
def unlinkCells (cell : ℕ → Option (TwTimer κ)) (p : ℕ) (link : Link ℕ) :
    ℕ → Option (TwTimer κ) :=
  fun q =>
    if q = p then none
    else if some q = link.prev then (cell q).map fun t => { t with next := link.next }
    else if some q = link.next then (cell q).map fun t => { t with prev := link.prev }
    else cell q

theorem linkOf_unlinkCells (cell : ℕ → Option (TwTimer κ)) (p : ℕ) (link : Link ℕ) :
    linkOf (unlinkCells cell p link) = unlink (linkOf cell) p link := by
  funext q
  rw [linkOf, unlinkCells, unlink]
  split
  · rfl
  · split
    · rw [linkOf, Option.map_map, Option.map_map]
      rfl
    · split
      · rw [linkOf, Option.map_map, Option.map_map]
        rfl
      · rfl

/-- What `delTimer` and `removeFired` do to a wheel. -/
structure Unlinked (w w' : TimeWheel κ) (s : Fin 60) (ps : List ℕ) (p : ℕ) (qs : List ℕ) :
    Prop where
  next : w'.mem.next = w.mem.next
  curSlot : w'.curSlot = w.curSlot
  slots : w'.slots = Function.update w.slots s (ps ++ qs).head?
  cell : w'.mem.cell = unlinkCells w.mem.cell p ⟨ps.getLast?, qs.head?⟩

theorem setPrev_eq (mem : Store (TwTimer κ)) (q prev : Option ℕ)
    (hq : ∀ r ∈ q, ∃ t, mem.cell r = some t) :
    ∃ mem', setPrev mem q prev = some mem' ∧ mem'.next = mem.next ∧
      ∀ r, mem'.cell r =
        if some r = q then (mem.cell r).map fun t => { t with prev := prev } else mem.cell r := by
  cases q with
  | none => exact ⟨mem, rfl, rfl, fun r => by rw [if_neg (by simp)]⟩
  | some q =>
    obtain ⟨t, ht⟩ := hq q rfl
    refine ⟨_, Store.modify_of_some ht _, rfl, ?_⟩
    intro r
    rw [Store.put_cell]
    by_cases hr : r = q
    · rw [hr, Function.update_self, if_pos rfl, ht]
      rfl
    · rw [Function.update_of_ne hr, if_neg (by simpa using hr)]

/-- The neighbours of a timer in its list. -/
structure Neighbours (cell : ℕ → Option (TwTimer κ)) (p : ℕ) (link : Link ℕ) : Prop where
  prev : ∀ r ∈ link.prev, r ≠ p ∧ ∃ t, cell r = some t
  next : ∀ r ∈ link.next, r ≠ p ∧ ∃ t, cell r = some t
  apart : ∀ r ∈ link.prev, r ∉ link.next

theorem WellLinked.neighbours (h : WellLinked w lists) {s : Fin 60} {ps qs : List ℕ} {p : ℕ}
    (hl : lists s = ps ++ p :: qs) :
    Neighbours w.mem.cell p ⟨ps.getLast?, qs.head?⟩ := by
  have hnodup := h.nodup s
  rw [hl] at hnodup
  obtain ⟨-, hncons, hdisj⟩ := List.nodup_append.mp hnodup
  have hcell : ∀ r ∈ ps ++ p :: qs, ∃ t, w.mem.cell r = some t := by
    intro r hr
    obtain ⟨t, ht, -⟩ := h.cell (hl ▸ hr)
    exact ⟨t, ht⟩
  refine ⟨?_, ?_, ?_⟩
  · intro r hr
    have hmem : r ∈ ps := List.mem_of_getLast? hr
    exact ⟨hdisj r hmem p List.mem_cons_self, hcell r (List.mem_append_left _ hmem)⟩
  · intro r hr
    have hmem : r ∈ qs := List.mem_of_mem_head? hr
    refine ⟨fun heq => (List.nodup_cons.mp hncons).1 (heq ▸ hmem),
      hcell r (List.mem_append_right _ (List.mem_cons_of_mem p hmem))⟩
  · intro r hr hr'
    exact hdisj r (List.mem_of_getLast? hr) r (List.mem_cons_of_mem p (List.mem_of_mem_head? hr'))
      rfl

/-- The timer itself, with its neighbours. -/
theorem WellLinked.link (h : WellLinked w lists) {s : Fin 60} {ps qs : List ℕ} {p : ℕ}
    (hl : lists s = ps ++ p :: qs) :
    ∃ d : TwData κ, w.mem.cell p = some ⟨d, ⟨ps.getLast?, qs.head?⟩⟩ ∧ d.timeSlot = s ∧
      0 ≤ d.rotation := by
  have hlinks := h.links s
  rw [hl] at hlinks
  obtain ⟨t, ht, hs, hr⟩ := h.cell (show p ∈ lists s by rw [hl]; simp)
  have hlink := hlinks.at
  rw [linkOf, ht, Option.map_some, Option.some.injEq] at hlink
  refine ⟨t.toTwData, ?_, hs, hr⟩
  rw [ht, ← hlink]

/-- The timer is the head of its slot if and only if nothing is before it. -/
theorem WellLinked.head_iff (h : WellLinked w lists) {s : Fin 60} {ps qs : List ℕ} {p : ℕ}
    (hl : lists s = ps ++ p :: qs) : w.slots s = some p ↔ ps = [] := by
  have hnodup := h.nodup s
  rw [hl] at hnodup
  rw [h.head, hl]
  cases ps with
  | nil => simp
  | cons r ps =>
    have hne : r ≠ p := (List.nodup_append.mp hnodup).2.2 r List.mem_cons_self p List.mem_cons_self
    simp [hne]

/-- The second half of `del_timer` and of the removal in `tick`: past the head of the list. -/
theorem unlink_inner {mem : Store (TwTimer κ)} {p prev : ℕ} {d : TwData κ} {next : Option ℕ}
    (hp : mem.cell p = some ⟨d, ⟨some prev, next⟩⟩)
    (hn : Neighbours mem.cell p ⟨some prev, next⟩) :
    ∃ mem₁ mem₂ mem₃, (mem.modify prev fun t => { t with next := next }) = some mem₁ ∧
      mem₁.cell p = some ⟨d, ⟨some prev, next⟩⟩ ∧
      setPrev mem₁ next (some prev) = some mem₂ ∧
      mem₂.cell p = some ⟨d, ⟨some prev, next⟩⟩ ∧
      mem₂.delete p = some mem₃ ∧ mem₃.next = mem.next ∧
      mem₃.cell = unlinkCells mem.cell p ⟨some prev, next⟩ := by
  obtain ⟨hne, t, ht⟩ := hn.prev prev rfl
  have hapart : prev ∉ next := hn.apart prev rfl
  have hcell₁ : (mem.put prev (Store.lt_next ht) (some { t with next := next })).cell p =
      some ⟨d, ⟨some prev, next⟩⟩ := by
    rw [Store.put_cell, Function.update_of_ne hne.symm, hp]
  have hlive : ∀ r ∈ next, ∃ t',
      (mem.put prev (Store.lt_next ht) (some { t with next := next })).cell r = some t' := by
    intro r hr
    by_cases hrp : r = prev
    · exact ⟨_, by rw [Store.put_cell, hrp, Function.update_self]⟩
    · rw [Store.put_cell, Function.update_of_ne hrp]
      exact (hn.next r hr).2
  obtain ⟨mem₂, hset, hnext, hcell₂⟩ := setPrev_eq
    (mem.put prev (Store.lt_next ht) (some { t with next := next })) next (some prev) hlive
  have hp₂ : mem₂.cell p = some ⟨d, ⟨some prev, next⟩⟩ := by
    rw [hcell₂, if_neg fun hr => (hn.next p hr.symm).1 rfl, hcell₁]
  refine ⟨_, mem₂, _, Store.modify_of_some ht _, hcell₁, hset, hp₂, Store.delete_of_some hp₂,
    hnext, funext ?_⟩
  intro q
  rw [Store.put_cell, unlinkCells]
  by_cases hq : q = p
  · rw [hq, Function.update_self, if_pos rfl]
  · rw [Function.update_of_ne hq, if_neg hq, hcell₂, Store.put_cell]
    by_cases hqp : q = prev
    · rw [hqp, if_neg fun hr => hapart hr.symm, Function.update_self, if_pos rfl, ht]
      rfl
    · rw [if_neg (show some q ≠ some prev by simpa using hqp), Function.update_of_ne hqp]

/-- Past the head, the slot keeps its head. -/
theorem WellLinked.slots_inner (h : WellLinked w lists) {s : Fin 60} {ps qs : List ℕ} {p : ℕ}
    (hl : lists s = ps ++ p :: qs) (hps : ps ≠ []) :
    w.slots = Function.update w.slots s (ps ++ qs).head? := by
  have hhead : (ps ++ qs).head? = w.slots s := by
    rw [h.head, hl, List.head?_append_of_ne_nil _ hps, List.head?_append_of_ne_nil _ hps]
  rw [hhead, Function.update_eq_self]

theorem delTimer_eq (h : WellLinked w lists) {s : Fin 60} {ps qs : List ℕ} {p : ℕ}
    (hl : lists s = ps ++ p :: qs) :
    ∃ w', delTimer w (some p) = some w' ∧ Unlinked w w' s ps p qs := by
  obtain ⟨d, hp, rfl, -⟩ := h.link hl
  have hn := h.neighbours hl
  have hhead := h.head_iff hl
  rw [delTimer, hp]
  simp only [Option.bind_eq_bind, Option.bind_some, hhead]
  rcases List.eq_nil_or_concat ps with rfl | ⟨ps', prev, hconcat⟩
  · obtain ⟨mem₁, hset, hnext, hcell⟩ := setPrev_eq w.mem qs.head? none fun r hr =>
      (hn.next r hr).2
    have hp₁ : mem₁.cell p = some ⟨d, ⟨none, qs.head?⟩⟩ := by
      rw [hcell, if_neg fun hr => (hn.next p hr.symm).1 rfl, hp]
      rfl
    rw [if_pos rfl, hset, Option.bind_some, Store.delete_of_some hp₁, Option.bind_some]
    refine ⟨_, rfl, hnext, rfl, rfl, funext ?_⟩
    intro q
    show Function.update mem₁.cell p none q = _
    rw [unlinkCells]
    by_cases hq : q = p
    · rw [hq, Function.update_self, if_pos rfl]
    · rw [Function.update_of_ne hq, if_neg hq, hcell]
      exact (if_neg (by simp)).symm
  · rw [List.concat_eq_append] at hconcat
    have hlast : ps.getLast? = some prev := by rw [hconcat]; simp
    have hps : ps ≠ [] := by rw [hconcat]; simp
    rw [hlast] at hp hn
    obtain ⟨mem₁, mem₂, mem₃, hmod, hp₁, hset, -, hdel, hnext, hcell⟩ := unlink_inner hp hn
    rw [if_neg hps, hlast, Option.bind_some, hmod, Option.bind_some, hp₁, Option.bind_some, hset,
      Option.bind_some, hdel, Option.bind_some]
    exact ⟨_, rfl, hnext, rfl, h.slots_inner hl hps, by rw [hcell, hlast]⟩

theorem removeFired_eq (h : WellLinked w lists) {ps qs : List ℕ} {p : ℕ}
    (hl : lists w.curSlot = ps ++ p :: qs) :
    ∃ w', removeFired w p = some (w', qs.head?) ∧ Unlinked w w' w.curSlot ps p qs := by
  obtain ⟨d, hp, -⟩ := h.link hl
  have hn := h.neighbours hl
  have hhead := h.head_iff hl
  rw [removeFired, hp]
  simp only [Option.bind_eq_bind, Option.bind_some, hhead]
  rcases List.eq_nil_or_concat ps with rfl | ⟨ps', prev, hconcat⟩
  · obtain ⟨mem₁, hset, hnext, hcell⟩ := setPrev_eq (w.mem.put p (Store.lt_next hp) none)
      qs.head? none fun r hr => by
        rw [Store.put_cell, Function.update_of_ne (hn.next r hr).1]
        exact (hn.next r hr).2
    rw [if_pos rfl, Store.delete_of_some hp, Option.bind_some, hset, Option.bind_some]
    refine ⟨_, rfl, hnext, rfl, rfl, funext ?_⟩
    intro q
    show mem₁.cell q = _
    rw [unlinkCells, hcell, Store.put_cell]
    by_cases hq : q = p
    · have hne : ¬ some p = qs.head? := fun hr => (hn.next p hr.symm).1 rfl
      rw [hq, if_neg hne, Function.update_self, if_pos rfl]
    · rw [Function.update_of_ne hq, if_neg hq]
      exact (if_neg (by simp)).symm
  · rw [List.concat_eq_append] at hconcat
    have hlast : ps.getLast? = some prev := by rw [hconcat]; simp
    have hps : ps ≠ [] := by rw [hconcat]; simp
    rw [hlast] at hp hn
    obtain ⟨mem₁, mem₂, mem₃, hmod, hp₁, hset, hp₂, hdel, hnext, hcell⟩ := unlink_inner hp hn
    rw [if_neg hps, hlast, Option.bind_some, hmod, Option.bind_some, hp₁, Option.bind_some, hset,
      Option.bind_some, hp₂, Option.bind_some, hdel, Option.bind_some]
    exact ⟨_, rfl, hnext, rfl, h.slots_inner hl hps, by rw [hcell, hlast]⟩

/-- **Taking a timer out keeps the lists.** -/
theorem Unlinked.wellLinked {s : Fin 60} {ps qs : List ℕ} {p : ℕ} (hu : Unlinked w w' s ps p qs)
    (h : WellLinked w lists) (hl : lists s = ps ++ p :: qs) :
    WellLinked w' (Function.update lists s (ps ++ qs)) ∧ w'.data p = none ∧
      ∀ q, q ≠ p → w'.data q = w.data q := by
  have hlinks := h.links s
  have hnodup := h.nodup s
  rw [hl] at hlinks hnodup
  have hsub : (ps ++ qs).Sublist (ps ++ p :: qs) :=
    List.Sublist.append_left (List.sublist_cons_self p qs) ps
  have hnotMem : p ∉ ps ++ qs := (List.nodup_cons.mp (List.nodup_middle.mp hnodup)).1
  have hmem : ∀ q, q ∈ ps ++ qs → q ∈ lists s := fun q hq => hl ▸ hsub.subset hq
  have hdata : ∀ q, q ≠ p → w'.data q = w.data q := by
    intro q hq
    rw [data, data, hu.cell, unlinkCells, if_neg hq]
    split
    · rw [Option.map_map]
      rfl
    · split
      · rw [Option.map_map]
        rfl
      · rfl
  have hneighbour : ∀ q, some q = ps.getLast? ∨ some q = qs.head? → q ∈ ps ++ qs := by
    rintro q (hq | hq)
    · exact List.mem_append_left _ (List.mem_of_getLast? hq.symm)
    · exact List.mem_append_right _ (List.mem_of_mem_head? hq.symm)
  have hkeep : ∀ q, q ∉ lists s → w'.mem.cell q = w.mem.cell q := by
    intro q hq
    rw [hu.cell, unlinkCells, if_neg, if_neg fun hr => hq (hmem q (hneighbour q (Or.inl hr))),
      if_neg fun hr => hq (hmem q (hneighbour q (Or.inr hr)))]
    rintro rfl
    exact hq (hl ▸ List.mem_append_right _ List.mem_cons_self)
  refine ⟨h.update s hu.slots ?_ (hnodup.sublist hsub) ?_ ?_ ?_, ?_, hdata⟩
  · rw [hu.cell, linkOf_unlinkCells]
    exact hlinks.unlink hnodup
  · intro q hq
    rw [hdata q fun heq => hnotMem (heq ▸ hq)]
    exact h.timeSlot s q (hmem q hq)
  · intro s' hs q hq
    exact hkeep q fun hq' => hs (h.slot_unique hq hq')
  · intro q t ht
    have hqp : q ≠ p := by
      rintro rfl
      rw [hu.cell, unlinkCells, if_pos rfl] at ht
      exact absurd ht (by simp)
    have hd : w.data q = some t.toTwData := by
      rw [← hdata q hqp, data, ht]
      rfl
    obtain ⟨t', ht', htd⟩ := Option.map_eq_some_iff.mp hd
    have hqs := h.pending q t' ht'
    rw [htd] at hqs
    by_cases hs : t.timeSlot = s
    · rw [hs, hl] at hqs
      refine Or.inl ⟨hs, ?_⟩
      rw [List.mem_append, List.mem_cons] at hqs
      exact List.mem_append.mpr (hqs.imp_right fun hor => hor.resolve_left hqp)
    · refine Or.inr ⟨hs, ?_⟩
      rw [← hkeep q fun hq' => hs (h.slot_unique hqs hq'), ht]
  · rw [data, hu.cell, unlinkCells, if_pos rfl]
    rfl

/-- **`del_timer` on the lists**, for a timer that is in one of them. -/
theorem delTimer_spec (h : WellLinked w lists) {s : Fin 60} {p : ℕ} (hp : p ∈ lists s) :
    ∃ w', delTimer w (some p) = some w' ∧
      WellLinked w' (Function.update lists s ((lists s).erase p)) ∧ w'.curSlot = w.curSlot ∧
      w'.mem.next = w.mem.next ∧ w'.data p = none ∧ ∀ q, q ≠ p → w'.data q = w.data q := by
  obtain ⟨ps, qs, hl⟩ := List.append_of_mem hp
  obtain ⟨w', hdel, hu⟩ := delTimer_eq h hl
  obtain ⟨hw, hnone, hdata⟩ := hu.wellLinked h hl
  have hnodup := h.nodup s
  rw [hl] at hnodup
  have hps : p ∉ ps := fun hp' =>
    (List.nodup_append.mp hnodup).2.2 p hp' p List.mem_cons_self rfl
  have herase : (lists s).erase p = ps ++ qs := by
    rw [hl, List.erase_append_right _ hps, List.erase_cons_head]
  rw [herase]
  exact ⟨w', hdel, hw, hu.curSlot, hu.next, hnone, hdata⟩

/-- Whatever `add_timer` returns, the lists are in order after it. -/
theorem WellLinked.addTimer (h : WellLinked w lists) {timeout : ℤ}
    {callback : κ} {timer : Option ℕ} (hadd : addTimer w timeout callback = some (timer, w')) :
    ∃ lists', WellLinked w' lists' := by
  by_cases ht : timeout < 0
  · rw [TimeWheel.addTimer, if_pos ht] at hadd
    obtain ⟨-, rfl⟩ := Option.some.inj hadd
    exact ⟨lists, h⟩
  · obtain ⟨w'', hadd', hw', -⟩ := addTimer_spec h (Int.le_of_not_gt ht) callback
    rw [hadd, Option.some.injEq, Prod.mk.injEq] at hadd'
    obtain ⟨-, rfl⟩ := hadd'
    exact ⟨_, hw'⟩

theorem WellLinked.delTimer (h : WellLinked w lists) {p : ℕ}
    (hp : w.Pending p) (hdel : delTimer w (some p) = some w') :
    ∃ lists', WellLinked w' lists' := by
  obtain ⟨t, ht⟩ := hp
  obtain ⟨w'', hdel', hw', -⟩ := delTimer_spec h (h.pending p t ht)
  rw [hdel, Option.some.injEq] at hdel'
  exact ⟨_, hdel' ▸ hw'⟩

/-! ## A tick -/

/-- Whether a timer in the current slot is due. -/
def due (w : TimeWheel κ) (p : ℕ) : Bool :=
  match w.data p with
  | some d => !decide (0 < d.rotation)
  | none => false

/-- The callbacks of those timers in a list that are due. -/
def firedOf (w : TimeWheel κ) (ps : List ℕ) : List (ℕ × κ) :=
  (ps.filter w.due).filterMap fun p => (w.data p).map fun d => (p, d.callback)

/-- What a tick makes of the data of a timer in the current slot. -/
def ticked (d : TwData κ) : Option (TwData κ) :=
  if 0 < d.rotation then some { d with rotation := d.rotation - 1 } else none

theorem firedOf_append (w : TimeWheel κ) (ps qs : List ℕ) :
    firedOf w (ps ++ qs) = firedOf w ps ++ firedOf w qs := by
  rw [firedOf, List.filter_append, List.filterMap_append]
  rfl

theorem due_congr {p : ℕ} (hp : w'.data p = w.data p) : w'.due p = w.due p := by
  rw [due, due, hp]

theorem firedOf_congr {ps : List ℕ} (hps : ∀ p ∈ ps, w'.data p = w.data p) :
    firedOf w' ps = firedOf w ps := by
  rw [firedOf, firedOf, List.filter_congr fun p hp => due_congr (hps p hp)]
  refine List.filterMap_congr ?_
  intro p hp
  rw [hps p (List.mem_of_mem_filter hp)]

/-- One less round to go. -/
theorem WellLinked.waits (h : WellLinked w lists) {p : ℕ} {t : TwTimer κ}
    (ht : w.mem.cell p = some t) (hrot : 0 < t.rotation)
    (hcell : w'.mem.cell = Function.update w.mem.cell p
      (some { t with rotation := t.rotation - 1 })) (hslots : w'.slots = w.slots) :
    WellLinked w' lists ∧
      ∀ q, w'.data q = if q = p then (w.data q).bind ticked else w.data q := by
  have hp := h.pending p t ht
  have hdata : ∀ q, w'.data q = if q = p then (w.data q).bind ticked else w.data q := by
    intro q
    rw [data, data, hcell]
    by_cases hq : q = p
    · rw [hq, Function.update_self, if_pos rfl, ht, Option.map_some, Option.map_some,
        Option.bind_some, ticked, if_pos hrot]
    · rw [Function.update_of_ne hq, if_neg hq]
  have hlink : linkOf w'.mem.cell = linkOf w.mem.cell := by
    funext q
    rw [linkOf, linkOf, hcell]
    by_cases hq : q = p
    · rw [hq, Function.update_self, ht]
      rfl
    · rw [Function.update_of_ne hq]
  refine ⟨?_, hdata⟩
  rw [← Function.update_eq_self t.timeSlot lists]
  refine h.update t.timeSlot ?_ ?_ (h.nodup _) ?_ ?_ ?_
  · rw [hslots, ← h.head, Function.update_eq_self]
  · rw [hlink]
    exact h.links _
  · intro q hq
    obtain ⟨d, hd, hs, hr⟩ := h.timeSlot _ q hq
    rw [hdata]
    by_cases hqp : q = p
    · have htd : d = t.toTwData := by
        rw [hqp, data, ht] at hd
        exact (Option.some.inj hd).symm
      rw [if_pos hqp, hd, Option.bind_some, ticked, htd, if_pos hrot]
      exact ⟨_, rfl, rfl, by show 0 ≤ t.rotation - 1; omega⟩
    · rw [if_neg hqp]
      exact ⟨d, hd, hs, hr⟩
  · intro s hs q hq
    rw [hcell, Function.update_of_ne]
    rintro rfl
    exact hs (h.slot_unique hq hp)
  · intro q t' ht'
    rw [hcell] at ht'
    by_cases hq : q = p
    · rw [hq, Function.update_self] at ht'
      obtain rfl := Option.some.inj ht'
      exact Or.inl ⟨rfl, hq ▸ hp⟩
    · rw [Function.update_of_ne hq] at ht'
      by_cases hs : t'.timeSlot = t.timeSlot
      · exact Or.inl ⟨hs, hs ▸ h.pending q t' ht'⟩
      · exact Or.inr ⟨hs, ht'⟩

/-- **One round of the loop of `tick`**: the timer has one round less to go, or its callback is run
and it is taken out. -/
theorem tickStep_spec {done rest : List ℕ} {p : ℕ} (h : WellLinked w lists)
    (hl : lists w.curSlot = done ++ p :: rest) :
    ∃ w', tickStep inert w p = some (w', rest.head?, firedOf w [p]) ∧
      w'.curSlot = w.curSlot ∧ w'.mem.next = w.mem.next ∧
      WellLinked w' (Function.update lists w.curSlot
        ((done ++ [p].filter fun q => !w.due q) ++ rest)) ∧
      ∀ q, w'.data q = if q = p then (w.data q).bind ticked else w.data q := by
  obtain ⟨d, hp, -, -⟩ := h.link hl
  have hdata : w.data p = some d := by
    rw [data, hp]
    rfl
  by_cases hrot : 0 < d.rotation
  · have hdue : w.due p = false := by rw [due, hdata]; simp [hrot]
    have hfired : firedOf w [p] = [] := by simp [firedOf, hdue]
    obtain ⟨w', hstep, hcur, hnext, hslots, hcell⟩ : ∃ w', tickStep inert w p =
        some (w', rest.head?, []) ∧ w'.curSlot = w.curSlot ∧ w'.mem.next = w.mem.next ∧
        w'.slots = w.slots ∧ w'.mem.cell = Function.update w.mem.cell p
          (some ⟨{ d with rotation := d.rotation - 1 }, ⟨done.getLast?, rest.head?⟩⟩) := by
      simp only [tickStep, hp, Option.bind_eq_bind, Option.bind_some, if_pos hrot,
        Store.modify_of_some hp]
      exact ⟨_, rfl, rfl, rfl, rfl, rfl⟩
    obtain ⟨hw, hd⟩ := h.waits hp hrot hcell hslots
    refine ⟨w', by rw [hfired, hstep], hcur, hnext, ?_, hd⟩
    have hkeep : (done ++ [p].filter fun q => !w.due q) ++ rest = lists w.curSlot := by
      simp [hl, hdue]
    rw [hkeep, Function.update_eq_self]
    exact hw
  · have hdue : w.due p = true := by rw [due, hdata]; simp [hrot]
    have hfired : firedOf w [p] = [(p, d.callback)] := by simp [firedOf, hdue, hdata]
    obtain ⟨w', hremove, hu⟩ := removeFired_eq h hl
    obtain ⟨hw, hnone, hother⟩ := hu.wellLinked h hl
    refine ⟨w', ?_, hu.curSlot, hu.next, ?_, ?_⟩
    · simp only [tickStep, hp, Option.bind_eq_bind, Option.bind_some, if_neg hrot, inert, hremove,
        hfired]
    · have hkeep : (done ++ [p].filter fun q => !w.due q) ++ rest = done ++ rest := by
        simp [hdue]
      rwa [hkeep]
    · intro q
      by_cases hq : q = p
      · rw [if_pos hq, hq, hnone, hdata, Option.bind_some, ticked, if_neg hrot]
      · rw [if_neg hq, hother q hq]

/-- The walk over the timers `rest` of the current slot, with `done` before them. -/
theorem tickLoop_spec {done rest : List ℕ} {fuel : ℕ} (calls : List (ℕ × κ))
    (h : WellLinked w lists) (hl : lists w.curSlot = done ++ rest) (hfuel : rest.length < fuel) :
    ∃ w', tickLoop inert fuel w rest.head? calls = some (w', calls ++ firedOf w rest) ∧
      w'.curSlot = w.curSlot ∧ w'.mem.next = w.mem.next ∧
      WellLinked w' (Function.update lists w.curSlot
        (done ++ rest.filter fun p => !w.due p)) ∧
      ∀ q, w'.data q = if q ∈ rest then (w.data q).bind ticked else w.data q := by
  induction rest generalizing w lists done fuel calls with
  | nil =>
    obtain ⟨fuel, rfl⟩ := Nat.exists_eq_succ_of_ne_zero (Nat.ne_of_gt hfuel)
    refine ⟨w, by simp [tickLoop, firedOf], rfl, rfl, ?_, fun q => by simp⟩
    rw [List.filter_nil, ← hl, Function.update_eq_self]
    exact h
  | cons p rest ih =>
    obtain ⟨fuel, rfl⟩ := Nat.exists_eq_succ_of_ne_zero (Nat.ne_of_gt (Nat.zero_lt_of_lt hfuel))
    obtain ⟨w₁, hstep, hcur₁, hnext₁, hw₁, hdata₁⟩ := tickStep_spec h hl
    have hp : p ∉ rest := by
      have hnodup := h.nodup w.curSlot
      rw [hl] at hnodup
      exact (List.nodup_cons.mp (List.nodup_append.mp hnodup).2.1).1
    have hsame : ∀ q ∈ rest, w₁.data q = w.data q := by
      intro q hq
      rw [hdata₁, if_neg (show q ≠ p from fun heq => hp (heq ▸ hq))]
    have hl₁ : Function.update lists w.curSlot ((done ++ [p].filter fun q => !w.due q) ++ rest)
        w₁.curSlot = (done ++ [p].filter fun q => !w.due q) ++ rest := by
      rw [hcur₁, Function.update_self]
    obtain ⟨w', hloop, hcur, hnext, hw, hdata⟩ := ih (calls ++ firedOf w [p]) hw₁ hl₁
      (by rw [List.length_cons] at hfuel; omega : rest.length < fuel)
    refine ⟨w', ?_, hcur.trans hcur₁, hnext.trans hnext₁, ?_, ?_⟩
    · rw [List.head?_cons, tickLoop, hstep, Option.bind_eq_bind, Option.bind_some]
      show tickLoop inert fuel w₁ rest.head? _ = _
      rw [hloop, firedOf_congr hsame, List.append_assoc, ← firedOf_append, List.singleton_append]
    · have hfilter : (rest.filter fun q => !w₁.due q) = rest.filter fun q => !w.due q :=
        List.filter_congr fun q hq => by rw [due_congr (hsame q hq)]
      rwa [hcur₁, Function.update_idem, hfilter, List.append_assoc, ← List.filter_append,
        List.singleton_append] at hw
    · intro q
      rw [hdata, hdata₁]
      by_cases hq : q = p
      · rw [hq, if_neg hp, if_pos rfl, if_pos List.mem_cons_self]
      · simp [hq]

/-- A list has no more timers than there have ever been. -/
theorem WellLinked.length_lt (h : WellLinked w lists) (s : Fin 60) :
    (lists s).length < w.mem.next + 1 := by
  have hsub : lists s ⊆ List.range w.mem.next := by
    intro p hp
    obtain ⟨t, ht, -⟩ := h.cell hp
    exact List.mem_range.mpr (Store.lt_next ht)
  have hle := ((h.nodup s).subperm hsub).length_le
  rw [List.length_range] at hle
  exact Nat.lt_succ_of_le hle

/-- **`tick` on the lists**, with callbacks that do not touch the wheel: the callbacks of the due
timers of the current slot are run, in the order of the list, these timers are taken out, the
others in the slot have one round less to go, and the wheel goes on by one slot. -/
theorem tick_spec (h : WellLinked w lists) :
    ∃ w', tick inert w = some (w', firedOf w (lists w.curSlot)) ∧
      w'.curSlot = w.curSlot + 1 ∧ w'.mem.next = w.mem.next ∧
      WellLinked w' (Function.update lists w.curSlot
        ((lists w.curSlot).filter fun p => !w.due p)) ∧
      ∀ q, w'.data q = if q ∈ lists w.curSlot then (w.data q).bind ticked else w.data q := by
  have hl : lists w.curSlot = [] ++ lists w.curSlot := rfl
  obtain ⟨w', hloop, hcur, hnext, hw, hdata⟩ := tickLoop_spec [] h hl (h.length_lt w.curSlot)
  rw [List.nil_append, ← h.head] at hloop
  rw [List.nil_append] at hw
  refine ⟨{ w' with curSlot := w'.curSlot + 1 }, ?_, ?_, hnext, ⟨hw.head, hw.links, hw.nodup,
    hw.timeSlot, hw.pending⟩, hdata⟩
  · rw [tick, hloop]
    rfl
  · rw [← hcur]

end TimeWheel
end Timers
end CModel
