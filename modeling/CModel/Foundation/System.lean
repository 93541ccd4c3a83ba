import Mathlib.Algebra.GroupWithZero.Nat
import Mathlib.Data.List.Basic
import Mathlib.Logic.Function.Basic

/-!
# Systems that run

A system is told by what can happen in a state and by what comes of it; where the program that it
stands for is undefined, nothing comes of it.

* `System.Runs`: the states that a state can come to.
* `System.Runs.keep`: what every step keeps holds after a run.
* `System.RunsWith`: the same with what the steps on the way give out.
* `System.only`: a system in which less can happen.
* `foldlM_keep`: the same for steps that are done one behind the other.
* `countP_move`, `sum_map_move`: how many threads are at a place, or how much they hold, when one of
  them goes somewhere else.
-/

namespace CModel

universe u v w

/-- What can happen in a state, and what comes of it. -/
structure System (σ : Type u) (ε : Type v) where
  Enabled : σ → ε → Prop
  step : σ → ε → Option σ

namespace System

variable {σ : Type u} {ε : Type v} {β : Type w} {S : System σ ε} {s s₁ s₂ : σ} {e : ε}
  {P : σ → Prop}

/-- The states that a state can come to. -/
inductive Runs (S : System σ ε) (s₀ : σ) : σ → Prop where
  | refl : Runs S s₀ s₀
  | step {s s' : σ} {e : ε} : Runs S s₀ s → S.Enabled s e → S.step s e = some s' → Runs S s₀ s'

theorem Runs.trans (h : S.Runs s s₁) (h' : S.Runs s₁ s₂) : S.Runs s s₂ := by
  induction h' with
  | refl => exact h
  | step _ he hstep ih => exact ih.step he hstep

theorem Runs.head (he : S.Enabled s e) (hstep : S.step s e = some s₁) (h : S.Runs s₁ s₂) :
    S.Runs s s₂ :=
  (Runs.refl.step he hstep).trans h

/-- What every step keeps holds after a run. -/
theorem Runs.keep (h : S.Runs s s₁) (hs : P s)
    (hstep : ∀ {t t' : σ} {e : ε}, P t → S.Enabled t e → S.step t e = some t' → P t') : P s₁ := by
  induction h with
  | refl => exact hs
  | step _ he hs' ih => exact hstep ih he hs'

/-- The states that a state can come to, with what the steps on the way there give out. -/
inductive RunsWith (S : System σ ε) (out : σ → ε → List β) (s₀ : σ) :
    List β → σ → Prop where
  | refl : RunsWith S out s₀ [] s₀
  | step {l : List β} {s s' : σ} {e : ε} : RunsWith S out s₀ l s → S.Enabled s e →
      S.step s e = some s' → RunsWith S out s₀ (l ++ out s e) s'

theorem Runs.runsWith (h : S.Runs s s₁) (out : σ → ε → List β) : ∃ l, S.RunsWith out s l s₁ := by
  induction h with
  | refl => exact ⟨[], .refl⟩
  | step _ he hstep ih =>
    obtain ⟨l, hl⟩ := ih
    exact ⟨_, hl.step he hstep⟩

/-- The system in which an event happens only where `allowed` says so. -/
def only (S : System σ ε) (allowed : σ → ε → Prop) : System σ ε where
  Enabled s e := S.Enabled s e ∧ allowed s e
  step := S.step

theorem Runs.of_only {allowed : σ → ε → Prop} (h : (S.only allowed).Runs s s₁) : S.Runs s s₁ := by
  induction h with
  | refl => exact .refl
  | step _ he hstep ih => exact ih.step he.1 hstep

end System

/-- What every step keeps holds behind steps that are done for the elements of a list. -/
theorem foldlM_keep {σ : Type u} {α : Type v} {f : σ → α → Option σ} {P : σ → Prop} {as : List α}
    {s s' : σ} (h : as.foldlM f s = some s') (hs : P s)
    (hstep : ∀ {t t' : σ} {a : α}, P t → f t a = some t' → P t') : P s' := by
  induction as generalizing s with
  | nil => exact Option.some.inj h ▸ hs
  | cons a as ih =>
    rw [List.foldlM_cons] at h
    obtain ⟨t, ht, hrest⟩ := Option.bind_eq_some_iff.mp h
    exact ih hrest (hstep hs ht)

/-- One thread goes from `a` to `b`; the numbers of those at a place tell. -/
theorem countP_move {α : Type u} {l : List α} {i : ℕ} {a : α} (h : l[i]? = some a) (b : α)
    (p : α → Bool) :
    (l.set i b).countP p + (p a).toNat = l.countP p + (p b).toNat := by
  obtain ⟨hlt, rfl⟩ := List.getElem?_eq_some_iff.mp h
  rw [List.countP_set hlt]
  have hpos : p l[i] = true → 0 < l.countP p := fun hp =>
    List.countP_pos_iff.mpr ⟨l[i], List.getElem_mem hlt, hp⟩
  cases ha : p l[i] <;> cases hb : p b <;>
    simp only [ha, if_true, Bool.false_eq_true, if_false, Bool.toNat_true, Bool.toNat_false,
      true_implies] at hpos ⊢ <;> omega

/-- One thread goes from `a` to `b`; what all of them hold tells. -/
theorem sum_map_move {α : Type u} {l : List α} {i : ℕ} {a : α} (h : l[i]? = some a) (b : α)
    (f : α → ℕ) : ((l.set i b).map f).sum + f a = (l.map f).sum + f b := by
  induction l generalizing i with
  | nil => simp at h
  | cons c l ih =>
    cases i with
    | zero =>
      obtain rfl : c = a := by simpa using h
      simp only [List.set_cons_zero, List.map_cons, List.sum_cons]
      omega
    | succ i =>
      have hl := ih (by simpa using h)
      simp only [List.set_cons_succ, List.map_cons, List.sum_cons]
      omega

end CModel
