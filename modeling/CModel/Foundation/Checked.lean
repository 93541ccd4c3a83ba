import Mathlib.Logic.Basic

/-!
# Computations that tell their faults apart

A computation in `Except ε` ends with a value or with a fault.  `Yields allowed P` says which faults it
may end with and what its values have, so that a fault that never comes up can be ruled out step by
step.

* `Yields`, with a rule for each way to put computations together.
* `toOption_bind`: to forget the faults of a chain is to forget those of its steps.
-/

namespace CModel

universe u v

variable {ε : Type u} {α β : Type v}

/-- The faults are of the allowed kind, and the value has `P`. -/
def Yields (allowed : ε → Prop) (P : α → Prop) : Except ε α → Prop
  | .error e => allowed e
  | .ok a => P a

namespace Yields

variable {allowed : ε → Prop} {P : α → Prop} {Q : β → Prop}

theorem mono {P' : α → Prop} {x : Except ε α} (hx : Yields allowed P x) (hP : ∀ a, P a → P' a) :
    Yields allowed P' x := by
  cases x with
  | error e => exact hx
  | ok a => exact hP a hx

theorem imp {allowed' : ε → Prop} {x : Except ε α} (hx : Yields allowed P x)
    (he : ∀ e, allowed e → allowed' e) : Yields allowed' P x := by
  cases x with
  | error e => exact he e hx
  | ok a => exact hx

/-- A chain yields what its last step yields from the values of the steps in front of it. -/
theorem bind {x : Except ε α} {f : α → Except ε β} (hx : Yields allowed P x)
    (hf : ∀ a, P a → Yields allowed Q (f a)) : Yields allowed Q (x >>= f) := by
  cases x with
  | error e => exact hx
  | ok a => exact hf a hx

theorem map {x : Except ε α} {f : α → β} (hx : Yields allowed P x) (hf : ∀ a, P a → Q (f a)) :
    Yields allowed Q (x.map f) := by
  cases x with
  | error e => exact hx
  | ok a => exact hf a hx

/-- A fault that is not allowed does not come up. -/
theorem ne_error {x : Except ε α} (hx : Yields allowed P x) {e : ε} (he : ¬ allowed e) :
    x ≠ .error e := by
  rintro rfl
  exact he hx

end Yields

@[simp] theorem toOption_ok (a : α) : (Except.ok a : Except ε α).toOption = some a := rfl

@[simp] theorem toOption_error (e : ε) : (Except.error e : Except ε α).toOption = none := rfl

theorem toOption_map (x : Except ε α) (f : α → β) : (x.map f).toOption = x.toOption.map f := by
  cases x with
  | error e => rfl
  | ok a => rfl

/-- Where the steps of a chain end with a value is where the chain does. -/
@[simp] theorem toOption_bind (x : Except ε α) (f : α → Except ε β) :
    (x >>= f).toOption = x.toOption.bind fun a => (f a).toOption := by
  cases x with
  | error e => rfl
  | ok a => rfl

end CModel
