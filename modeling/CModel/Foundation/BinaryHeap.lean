import Mathlib.Data.List.Nodup
import Mathlib.Data.List.Perm.Basic
import Mathlib.Logic.Equiv.Basic
import Mathlib.Order.Lattice

/-!
# Binary heaps in arrays

An array, as a function of the index of which the first `n` entries count, where the parent of the
entry at `i` is at `(i - 1) / 2`.  Entries have keys, and a heap has the smaller key at the parent.

* `Ordered`, `contents`: the heap order, and the entries as a list.
* `UpTo`, `DownTo`: in order but for one entry, which may be too small for its parent or too large
  for its children.  `DownFrom` is the same for the entries from a place on.  `UpTo.swap` and
  `DownFrom.swap` move this entry one step, `UpTo.ordered_of_le` and `DownFrom.ordered_of_le` say
  when it has arrived.
* `contents_swapAt`: a step keeps the entries.
* `UpTo.of_ordered`, `DownTo.of_ordered`, `OrderedFrom.downFrom`: a new last entry, the last entry
  at the root, and a new first one.
-/

namespace CModel
namespace BinaryHeap

universe u v

variable {α : Type u} {β : Type v} [LinearOrder β] {key : α → β} {a : ℕ → α} {n hole : ℕ}

/-- The index of the parent. -/
def parent (i : ℕ) : ℕ := (i - 1) / 2

theorem parent_lt {i : ℕ} (hi : 0 < i) : parent i < i := by
  rw [parent]
  omega

/-- No entry has a smaller key than its parent. -/
def Ordered (key : α → β) (a : ℕ → α) (n : ℕ) : Prop :=
  ∀ i, 0 < i → i < n → key (a (parent i)) ≤ key (a i)

/-- The entries of the array. -/
def contents (a : ℕ → α) (n : ℕ) : List α := (List.range n).map a

theorem mem_contents {x : α} : x ∈ contents a n ↔ ∃ i < n, a i = x := by
  simp [contents]

/-- **The root has the smallest key.** -/
theorem Ordered.root_le (h : Ordered key a n) (i : ℕ) (hi : i < n) : key (a 0) ≤ key (a i) := by
  induction i using Nat.strongRecOn with
  | ind i ih =>
    by_cases h0 : i = 0
    · rw [h0]
    · have hlt := parent_lt (Nat.pos_of_ne_zero h0)
      exact (ih (parent i) hlt (by omega)).trans (h i (Nat.pos_of_ne_zero h0) hi)

/-- Only the keys of the entries matter. -/
theorem Ordered.congr {key' : α → β} (h : Ordered key a n)
    (heq : ∀ i < n, key' (a i) = key (a i)) : Ordered key' a n := by
  intro i hi hin
  have hp := parent_lt hi
  rw [heq _ (by omega), heq i hin]
  exact h i hi hin

/-- Only the entries below `n` matter. -/
theorem Ordered.of_eq {a' : ℕ → α} (h : Ordered key a n) (heq : ∀ i < n, a' i = a i) :
    Ordered key a' n := by
  intro i hi hin
  have hp := parent_lt hi
  rw [heq _ (by omega), heq i hin]
  exact h i hi hin

theorem contents_of_eq {a' : ℕ → α} (heq : ∀ i < n, a' i = a i) :
    contents a' n = contents a n :=
  List.map_congr_left fun i hi => heq i (List.mem_range.mp hi)

/-! ## Swaps -/

/-- Two entries change places. -/
def swapAt (a : ℕ → α) (i j : ℕ) : ℕ → α := a ∘ Equiv.swap i j

@[simp] theorem swapAt_left (a : ℕ → α) (i j : ℕ) : swapAt a i j i = a j := by
  rw [swapAt, Function.comp_apply, Equiv.swap_apply_left]

@[simp] theorem swapAt_right (a : ℕ → α) (i j : ℕ) : swapAt a i j j = a i := by
  rw [swapAt, Function.comp_apply, Equiv.swap_apply_right]

theorem swapAt_of_ne (a : ℕ → α) {i j k : ℕ} (hi : k ≠ i) (hj : k ≠ j) :
    swapAt a i j k = a k := by
  rw [swapAt, Function.comp_apply, Equiv.swap_apply_of_ne_of_ne hi hj]

/-- Moving an entry into a hole, and the new entry into the place it leaves, is a swap. -/
theorem update_update_eq_swapAt (a : ℕ → α) {i j : ℕ} (hij : j ≠ i) (x : α) :
    Function.update (Function.update a i (a j)) j x = swapAt (Function.update a i x) i j := by
  funext k
  by_cases hkj : k = j
  · rw [hkj, Function.update_self, swapAt_right, Function.update_self]
  · rw [Function.update_of_ne hkj]
    by_cases hki : k = i
    · rw [hki, Function.update_self, swapAt_left, Function.update_of_ne hij]
    · rw [Function.update_of_ne hki, swapAt_of_ne _ hki hkj, Function.update_of_ne hki]

/-- **A swap keeps the entries.** -/
theorem contents_swapAt {i j : ℕ} (hi : i < n) (hj : j < n) :
    (contents (swapAt a i j) n).Perm (contents a n) := by
  have hperm : ((List.range n).map (Equiv.swap i j)).Perm (List.range n) := by
    refine (List.perm_ext_iff_of_nodup (List.nodup_range.map (Equiv.swap i j).injective)
      List.nodup_range).mpr ?_
    intro k
    rw [List.mem_map, List.mem_range]
    constructor
    · rintro ⟨m, hm, rfl⟩
      rw [List.mem_range] at hm
      rw [Equiv.swap_apply_def]
      split
      · exact hj
      · split
        · exact hi
        · exact hm
    · intro hk
      refine ⟨Equiv.swap i j k, ?_, Equiv.swap_apply_self i j k⟩
      rw [List.mem_range, Equiv.swap_apply_def]
      split
      · exact hj
      · split
        · exact hi
        · exact hk
  have hmap := hperm.map a
  rwa [List.map_map] at hmap

/-! ## Up -/

/-- In order, but that the entry at `hole` may be too small for its parent. -/
structure UpTo (key : α → β) (a : ℕ → α) (n hole : ℕ) : Prop where
  ordered : ∀ i, 0 < i → i < n → i ≠ hole → key (a (parent i)) ≤ key (a i)
  grand : 0 < hole → ∀ i, 0 < i → i < n → parent i = hole → key (a (parent hole)) ≤ key (a i)

theorem UpTo.swap (h : UpTo key a n hole) (hpos : 0 < hole) (hlt : hole < n)
    (hkey : key (a hole) < key (a (parent hole))) :
    UpTo key (swapAt a hole (parent hole)) n (parent hole) := by
  have hp := parent_lt hpos
  constructor
  · intro i hi hin hne
    by_cases hih : i = hole
    · rw [hih, swapAt_left, swapAt_right]
      exact hkey.le
    · rw [swapAt_of_ne a hih hne]
      by_cases hpih : parent i = hole
      · rw [hpih, swapAt_left]
        exact h.grand hpos i hi hin hpih
      · by_cases hpiq : parent i = parent hole
        · have hik := h.ordered i hi hin hih
          rw [hpiq] at hik ⊢
          rw [swapAt_right]
          exact (hkey.trans_le hik).le
        · rw [swapAt_of_ne a hpih hpiq]
          exact h.ordered i hi hin hih
  · intro hq i hi hin hpi
    have hpq := parent_lt hq
    have hqkey := h.ordered (parent hole) hq (by omega) (by omega)
    rw [swapAt_of_ne a (by omega) (by omega)]
    by_cases hih : i = hole
    · rw [hih, swapAt_left]
      exact hqkey
    · have hlti := parent_lt hi
      rw [swapAt_of_ne a hih (by omega)]
      have hik := h.ordered i hi hin hih
      rw [hpi] at hik
      exact hqkey.trans hik

theorem UpTo.ordered_of_le (h : UpTo key a n hole)
    (hkey : 0 < hole → key (a (parent hole)) ≤ key (a hole)) : Ordered key a n := by
  intro i hi hin
  by_cases hih : i = hole
  · rw [hih]
    exact hkey (hih ▸ hi)
  · exact h.ordered i hi hin hih

/-- A new last entry. -/
theorem UpTo.of_ordered (h : Ordered key a n) (x : α) :
    UpTo key (Function.update a n x) (n + 1) n := by
  constructor
  · intro i hi hin hne
    have hp := parent_lt hi
    rw [Function.update_of_ne (by omega), Function.update_of_ne hne]
    exact h i hi (by omega)
  · intro _ i hi hin hpi
    have hp := parent_lt hi
    omega

theorem contents_update_last (a : ℕ → α) (n : ℕ) (x : α) :
    contents (Function.update a n x) (n + 1) = contents a n ++ [x] := by
  rw [contents, List.range_succ, List.map_append, List.map_singleton, Function.update_self]
  congr 1
  refine List.map_congr_left ?_
  intro i hi
  rw [List.mem_range] at hi
  rw [Function.update_of_ne (by omega)]

/-! ## Down -/

/-- No entry has a smaller key than its parent, if this stands at `low` or behind it. -/
def OrderedFrom (key : α → β) (a : ℕ → α) (n low : ℕ) : Prop :=
  ∀ i, 0 < i → i < n → low ≤ parent i → key (a (parent i)) ≤ key (a i)

theorem orderedFrom_zero : OrderedFrom key a n 0 ↔ Ordered key a n := by
  simp only [OrderedFrom, Ordered, Nat.zero_le, forall_const]

/-- In order from `low` on, but that the entry at `hole` may be too large for its children. -/
structure DownFrom (key : α → β) (a : ℕ → α) (n low hole : ℕ) : Prop where
  ordered : ∀ i, 0 < i → i < n → low ≤ parent i → parent i ≠ hole → key (a (parent i)) ≤ key (a i)
  grand : 0 < hole → low ≤ parent hole →
    ∀ i, 0 < i → i < n → parent i = hole → key (a (parent hole)) ≤ key (a i)

/-- The entry goes down to its smallest child. -/
theorem DownFrom.swap {low child : ℕ} (h : DownFrom key a n low hole) (hlow : low ≤ hole)
    (hchild : 0 < child) (hlt : child < n) (hparent : parent child = hole)
    (hmin : ∀ i, 0 < i → i < n → parent i = hole → key (a child) ≤ key (a i))
    (hkey : key (a child) < key (a hole)) :
    DownFrom key (swapAt a hole child) n low child := by
  have hp := parent_lt hchild
  constructor
  · intro i hi hin hi' hne
    by_cases hic : i = child
    · rw [hic, swapAt_right, hparent, swapAt_left]
      exact hkey.le
    · by_cases hpih : parent i = hole
      · have hpi := parent_lt hi
        rw [hpih, swapAt_left, swapAt_of_ne a (by omega) hic]
        exact hmin i hi hin hpih
      · rw [swapAt_of_ne a hpih hne]
        by_cases hih : i = hole
        · rw [hih, swapAt_left]
          exact h.grand (hih ▸ hi) (hih ▸ hi') child hchild hlt hparent
        · rw [swapAt_of_ne a hih hic]
          exact h.ordered i hi hin hi' hpih
  · intro _ _ i hi hin hpi
    have hpi' := parent_lt hi
    rw [hparent, swapAt_left, swapAt_of_ne a (by omega) (by omega)]
    have hik := h.ordered i hi hin (by omega) (by omega)
    rwa [hpi] at hik

theorem DownFrom.ordered_of_le {low : ℕ} (h : DownFrom key a n low hole)
    (hkey : ∀ i, 0 < i → i < n → parent i = hole → key (a hole) ≤ key (a i)) :
    OrderedFrom key a n low := by
  intro i hi hin hlow
  by_cases hih : parent i = hole
  · rw [hih]
    exact hkey i hi hin hih
  · exact h.ordered i hi hin hlow hih

/-- In order, but that the entry at `hole` may be too large for its children. -/
structure DownTo (key : α → β) (a : ℕ → α) (n hole : ℕ) : Prop where
  ordered : ∀ i, 0 < i → i < n → parent i ≠ hole → key (a (parent i)) ≤ key (a i)
  grand : 0 < hole → ∀ i, 0 < i → i < n → parent i = hole → key (a (parent hole)) ≤ key (a i)

theorem downFrom_zero : DownFrom key a n 0 hole ↔ DownTo key a n hole :=
  ⟨fun h => ⟨fun i hi hin => h.ordered i hi hin (Nat.zero_le _),
      fun hpos => h.grand hpos (Nat.zero_le _)⟩,
    fun h => ⟨fun i hi hin _ => h.ordered i hi hin, fun hpos _ => h.grand hpos⟩⟩

theorem DownTo.congr {key' : α → β} (h : DownTo key a n hole)
    (heq : ∀ i < n, key' (a i) = key (a i)) : DownTo key' a n hole := by
  constructor
  · intro i hi hin hne
    have hp := parent_lt hi
    rw [heq _ (by omega), heq i hin]
    exact h.ordered i hi hin hne
  · intro hpos i hi hin hpi
    have hp := parent_lt hi
    have hpp := parent_lt hpos
    rw [heq _ (by omega), heq i hin]
    exact h.grand hpos i hi hin hpi

/-- The last entry at the root. -/
theorem DownTo.of_ordered (h : Ordered key a (n + 1)) :
    DownTo key (Function.update a 0 (a n)) n 0 := by
  refine ⟨?_, fun h0 => absurd h0 (Nat.lt_irrefl 0)⟩
  intro i hi hin hne
  rw [Function.update_of_ne hne, Function.update_of_ne (Nat.ne_of_gt hi)]
  exact h i hi (by omega)

theorem contents_update_root (a : ℕ → α) (n : ℕ) :
    (contents a (n + 1)).Perm (a 0 :: contents (Function.update a 0 (a n)) n) := by
  cases n with
  | zero => exact List.Perm.refl _
  | succ n =>
    have htail : ((List.range n).map Nat.succ).map (Function.update a 0 (a (n + 1))) =
        ((List.range n).map Nat.succ).map a := by
      refine List.map_congr_left ?_
      intro i hi
      obtain ⟨j, -, rfl⟩ := List.mem_map.mp hi
      rw [Function.update_of_ne (Nat.succ_ne_zero j)]
    rw [contents, contents, List.range_succ, List.map_append, List.map_singleton,
      List.range_succ_eq_map, List.map_cons, List.map_cons, Function.update_self, htail,
      List.cons_append]
    exact (List.perm_append_singleton _ _).cons (a 0)

end BinaryHeap
end CModel
