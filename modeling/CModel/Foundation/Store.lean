import Mathlib.Data.Nat.Basic
import Mathlib.Logic.Function.Basic

/-!
# Objects by address

`new` and `delete` of single objects, to tell a pointer to an object that is there from one to an
object that is gone.  No address is given out twice, so a pointer that is kept after `delete` stays
one to nothing.

* `Store`: the objects by address, none from `next` on, which is a field.
* `Store.new`, `Store.delete`, `Store.modify`, each with what it does to the cells.
-/

namespace CModel

universe u

/-- The objects that there are, by address. -/
structure Store (α : Type u) where
  /-- the address of the next `new` -/
  next : ℕ
  cell : ℕ → Option α
  /-- addresses not given out yet have no object -/
  fresh : ∀ p, next ≤ p → cell p = none

namespace Store

variable {α : Type u}

/-- No object at all. -/
def empty : Store α := ⟨0, fun _ => none, fun _ _ => rfl⟩

/-- `new` -/
def new (s : Store α) (a : α) : ℕ × Store α :=
  (s.next,
    { next := s.next + 1
      cell := Function.update s.cell s.next (some a)
      fresh := fun p hp => by
        rw [Function.update_of_ne (by omega)]
        exact s.fresh p (by omega) })

theorem lt_next {s : Store α} {p : ℕ} {a : α} (hp : s.cell p = some a) : p < s.next := by
  by_contra hlt
  rw [s.fresh p (by omega)] at hp
  exact absurd hp (by simp)

/-- The object at an address that is in use becomes another one, or none. -/
def put (s : Store α) (p : ℕ) (hp : p < s.next) (a : Option α) : Store α where
  next := s.next
  cell := Function.update s.cell p a
  fresh := fun q hq => by
    rw [Function.update_of_ne (by omega)]
    exact s.fresh q hq

/-- `delete`; deleting an object that is not there is undefined. -/
def delete (s : Store α) (p : ℕ) : Option (Store α) :=
  match hp : s.cell p with
  | none => none
  | some _ => some (s.put p (lt_next hp) none)

/-- An assignment to a field of `*p`; undefined where there is no object. -/
def modify (s : Store α) (p : ℕ) (f : α → α) : Option (Store α) :=
  match hp : s.cell p with
  | none => none
  | some a => some (s.put p (lt_next hp) (some (f a)))

@[simp] theorem new_fst (s : Store α) (a : α) : (s.new a).1 = s.next := rfl

@[simp] theorem new_snd_next (s : Store α) (a : α) : (s.new a).2.next = s.next + 1 := rfl

@[simp] theorem new_snd_cell (s : Store α) (a : α) :
    (s.new a).2.cell = Function.update s.cell s.next (some a) := rfl

@[simp] theorem put_next (s : Store α) (p : ℕ) (hp : p < s.next) (a : Option α) :
    (s.put p hp a).next = s.next := rfl

@[simp] theorem put_cell (s : Store α) (p : ℕ) (hp : p < s.next) (a : Option α) :
    (s.put p hp a).cell = Function.update s.cell p a := rfl

theorem delete_of_some {s : Store α} {p : ℕ} {a : α} (hp : s.cell p = some a) :
    s.delete p = some (s.put p (lt_next hp) none) := by
  unfold delete
  split
  · next h => rw [hp] at h; exact absurd h (by simp)
  · rfl

theorem modify_of_some {s : Store α} {p : ℕ} {a : α} (hp : s.cell p = some a) (f : α → α) :
    s.modify p f = some (s.put p (lt_next hp) (some (f a))) := by
  unfold modify
  split
  · next h => rw [hp] at h; exact absurd h (by simp)
  · next b h =>
    rw [hp] at h
    obtain rfl := Option.some.inj h
    rfl

theorem modify_of_none {s : Store α} {p : ℕ} (hp : s.cell p = none) (f : α → α) :
    s.modify p f = none := by
  unfold modify
  split
  · rfl
  · next h => rw [hp] at h; exact absurd h (by simp)

end Store

end CModel
