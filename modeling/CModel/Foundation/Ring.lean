import Mathlib.Data.Int.Order.Basic
import Mathlib.Data.List.Basic
import Mathlib.Logic.Function.Iterate

/-!
# Arrays that are written in a circle

* `Slots`: an array whose elements are undefined until they are written.
* `NoFold`: a cursor that is moved on and on does not come back within `n` places.
* `RingHolds`: the cells from one cursor to the other hold what has been written and not yet been
  taken, in order.
* `RingHolds.write`, `RingHolds.take`: both cursors may move on, as long as they stay within `n`
  places.
-/

namespace CModel

universe u v

/-- An array from `malloc`, with `none` in what has not been written.  The null pointer is an array
without elements. -/
abbrev Slots (α : Type u) := List (Option α)

namespace Slots

variable {α : Type u}

/-- `malloc` for `n` elements -/
def malloc (n : ℕ) (memory : Bool) : Slots α :=
  if memory then List.replicate n none else []

/-- An element; undefined outside of the array, and where nothing has been written. -/
def read (a : Slots α) (i : ℤ) : Option α :=
  if 0 ≤ i then a[i.toNat]?.join else none

/-- The array with another element; undefined outside of the array. -/
def write (a : Slots α) (i : ℤ) (x : α) : Option (Slots α) :=
  if 0 ≤ i ∧ i < a.length then some (a.set i.toNat (some x)) else none

theorem length_write {a a' : Slots α} {i : ℤ} {x : α} (h : a.write i x = some a') :
    a'.length = a.length := by
  unfold write at h
  split at h
  · obtain rfl := Option.some.inj h
    exact List.length_set ..
  · exact absurd h (by simp)

theorem read_write {a a' : Slots α} {i j : ℤ} {x : α} (h : a.write i x = some a') :
    a'.read j = if j = i then some x else a.read j := by
  unfold write at h
  split at h
  · next hi =>
    obtain rfl := Option.some.inj h
    unfold read
    by_cases hj : 0 ≤ j
    · rw [if_pos hj, List.getElem?_set]
      by_cases hij : j = i
      · rw [hij, if_pos rfl, if_pos rfl, if_pos (by omega)]
        rfl
      · rw [if_neg hij, if_neg (by omega), if_pos hj]
    · rw [if_neg hj, if_neg (by omega), if_neg hj]
  · exact absurd h (by simp)

theorem exists_write {a : Slots α} {i : ℤ} (hi : 0 ≤ i) (hlt : i < a.length) (x : α) :
    ∃ a', a.write i x = some a' :=
  ⟨_, if_pos ⟨hi, hlt⟩⟩

@[simp] theorem length_malloc (n : ℕ) : (malloc n true : Slots α).length = n :=
  List.length_replicate

end Slots

variable {ι : Type u} {α : Type v} {next : ι → ι} {s : ι} {n taken : ℕ} {written : List α}
  {cells cells' : ι → Option α} {x : α}

/-- Among `n` cursors in a row, from `s` on, there are no two equal ones. -/
def NoFold (next : ι → ι) (s : ι) (n : ℕ) : Prop :=
  ∀ i j, i < j → j < i + n → next^[i] s ≠ next^[j] s

/-- The cells from the cursor `s` on hold what has been written, but for the first `taken`. -/
def RingHolds (next : ι → ι) (s : ι) (cells : ι → Option α) (written : List α) (taken : ℕ) : Prop :=
  ∀ k, taken ≤ k → ∀ x, written[k]? = some x → cells (next^[k] s) = some x

theorem RingHolds.nil : RingHolds next s cells [] taken := fun k _ x hx => by simp at hx

/-- What is behind the last cell that is still needed may be written. -/
theorem RingHolds.write (h : RingHolds next s cells written taken) (hfold : NoFold next s n)
    (hroom : written.length < taken + n) (hat : cells' (next^[written.length] s) = some x)
    (hne : ∀ c, c ≠ next^[written.length] s → cells' c = cells c) :
    RingHolds next s cells' (written ++ [x]) taken := by
  intro k hk y hy
  rcases Nat.lt_or_ge k written.length with hlt | hge
  · rw [List.getElem?_append_left hlt] at hy
    rw [hne _ (hfold k written.length hlt (by omega))]
    exact h k hk y hy
  · obtain ⟨hlt, rfl⟩ := List.getElem?_eq_some_iff.mp hy
    obtain rfl : k = written.length := by
      rw [List.length_append, List.length_singleton] at hlt
      omega
    rw [List.getElem_concat_length rfl]
    exact hat

theorem RingHolds.take (h : RingHolds next s cells written taken) :
    RingHolds next s cells written (taken + 1) := fun k hk x hx => h k (by omega) x hx

end CModel
