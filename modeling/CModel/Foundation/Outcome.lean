import Mathlib.Data.Int.Order.Basic

/-!
# What a call of a C function can come to

A function that hands back its results through reference arguments and an `int` return code does
one of three things: it runs into undefined behaviour, it returns early with a code and leaves the
results alone, or it goes on with a value.  `Outcome` is the monad of these three.

A read outside of the buffer is undefined behaviour: `readByte`, `readRange`.
-/

namespace CModel

universe u v

/-- The outcome of a piece of C code. -/
inductive Outcome (α : Type u) where
  /-- the standard says nothing about what happens -/
  | undefined
  /-- `return code;` before the results are set -/
  | ret (code : ℤ)
  /-- the results -/
  | ok (a : α)
  deriving DecidableEq, Repr

namespace Outcome

/-- Go on with the value, if there is one. -/
def bind {α : Type u} {β : Type v} (x : Outcome α) (f : α → Outcome β) : Outcome β :=
  match x with
  | .undefined => .undefined
  | .ret code => .ret code
  | .ok a => f a

instance : Monad Outcome where
  pure := .ok
  bind := Outcome.bind

variable {α β : Type u}

@[simp] theorem ok_bind (a : α) (f : α → Outcome β) : (Outcome.ok a >>= f) = f a := rfl

@[simp] theorem ret_bind (code : ℤ) (f : α → Outcome β) :
    (Outcome.ret code >>= f) = .ret code := rfl

@[simp] theorem undefined_bind (f : α → Outcome β) :
    ((Outcome.undefined : Outcome α) >>= f) = .undefined := rfl

@[simp] theorem pure_eq_ok (a : α) : (pure a : Outcome α) = .ok a := rfl

/-- A chain that reaches its end went through a value. -/
theorem bind_eq_ok {x : Outcome α} {f : α → Outcome β} {b : β} :
    (x >>= f) = .ok b ↔ ∃ a, x = .ok a ∧ f a = .ok b := by
  cases x with
  | undefined => simp
  | ret code => simp
  | ok a => simp

/-- A chain that returns early does so in one of its steps. -/
theorem bind_eq_ret {x : Outcome α} {f : α → Outcome β} {code : ℤ} :
    (x >>= f) = .ret code ↔ x = .ret code ∨ ∃ a, x = .ok a ∧ f a = .ret code := by
  cases x with
  | undefined => simp
  | ret c => simp
  | ok a => simp

end Outcome

/-- `data[i]`. -/
def readByte {α : Type u} (data : List α) (i : ℕ) : Outcome α :=
  match data[i]? with
  | some c => .ok c
  | none => .undefined

/-- `string(data + off, len)`. -/
def readRange {α : Type u} (data : List α) (off len : ℕ) : Outcome (List α) :=
  if off + len ≤ data.length then .ok ((data.drop off).take len) else .undefined

@[simp] theorem readByte_zero_cons {α : Type u} (c : α) (data : List α) :
    readByte (c :: data) 0 = .ok c := rfl

/-- The byte behind `a`. -/
theorem readByte_append_cons {α : Type u} (a : List α) (c : α) (b : List α) :
    readByte (a ++ c :: b) a.length = .ok c := by
  rw [readByte, List.getElem?_append_right (Nat.le_refl _), Nat.sub_self, List.getElem?_cons_zero]

theorem readByte_of_le {α : Type u} {data : List α} {i : ℕ} (h : data.length ≤ i) :
    readByte data i = .undefined := by
  rw [readByte, List.getElem?_eq_none h]

/-- A read has no return code of its own. -/
theorem readByte_ne_ret {α : Type u} (data : List α) (i : ℕ) (code : ℤ) :
    readByte data i ≠ .ret code := by
  unfold readByte
  split <;> simp

theorem readRange_ne_ret {α : Type u} (data : List α) (off len : ℕ) (code : ℤ) :
    readRange data off len ≠ .ret code := by
  unfold readRange
  split <;> simp

theorem readRange_of_le {α : Type u} {data : List α} {off len : ℕ}
    (h : off + len ≤ data.length) :
    readRange data off len = .ok ((data.drop off).take len) :=
  if_pos h

theorem readRange_of_lt {α : Type u} {data : List α} {off len : ℕ}
    (h : data.length < off + len) : readRange data off len = .undefined :=
  if_neg (by omega)

end CModel
