import Mathlib.Data.List.Basic
import Mathlib.Data.Int.Order.Basic

/-!
# Feeding a stream in chunks

A receiver has a state and a call that takes a chunk and returns a code; a call may also have no
defined outcome, which is `none`.

* `feed`: the chunks in order, up to the first code other than `0`.
* `run`: the chunks in order, whatever the calls return.
* `Fed`: the states that some cutting leads to, `Fed.snoc` and `Fed.exists_feed` one chunk later.
* `feed_of_invariant`, `run_invariant`: what holds of the fresh state and the empty prefix, and is
  passed on by one call, holds of every state and the bytes fed up to it.
-/

namespace CModel

universe u v

variable {α : Type u} {σ : Type v}

/-- Feed chunks in order, stopping at the first return code other than `0`. -/
def feed (input : σ → List α → Option (ℤ × σ)) : σ → List (List α) → Option (ℤ × σ)
  | s, [] => some (0, s)
  | s, c :: cs =>
    match input s c with
    | none => none
    | some (code, s') => if code = 0 then feed input s' cs else some (code, s')

/-- Feed chunks in order, whatever is returned. -/
def run (input : σ → List α → Option (ℤ × σ)) : σ → List (List α) → Option σ
  | s, [] => some s
  | s, c :: cs => (input s c).bind fun r => run input r.2 cs

variable {input : σ → List α → Option (ℤ × σ)}

@[simp] theorem feed_nil (s : σ) : feed input s [] = some (0, s) := rfl

@[simp] theorem run_nil (s : σ) : run input s [] = some s := rfl

theorem feed_cons_of_zero {s s' : σ} {c : List α} (cs : List (List α))
    (h : input s c = some (0, s')) : feed input s (c :: cs) = feed input s' cs := by
  simp only [feed, h, if_true]

theorem feed_cons_of_ne {s s' : σ} {c : List α} {code : ℤ} (cs : List (List α))
    (h : input s c = some (code, s')) (hcode : code ≠ 0) :
    feed input s (c :: cs) = some (code, s') := by
  simp only [feed, h, if_neg hcode]

theorem feed_cons_of_none {s : σ} {c : List α} (cs : List (List α)) (h : input s c = none) :
    feed input s (c :: cs) = none := by
  simp only [feed, h]

theorem run_cons_of_some {s s' : σ} {c : List α} {code : ℤ} (cs : List (List α))
    (h : input s c = some (code, s')) : run input s (c :: cs) = run input s' cs := by
  simp only [run, h, Option.bind_some]

/-- Feeding two lists of chunks. -/
theorem feed_append {s s' : σ} {cs : List (List α)} (ds : List (List α))
    (h : feed input s cs = some (0, s')) : feed input s (cs ++ ds) = feed input s' ds := by
  induction cs generalizing s with
  | nil =>
    rw [feed_nil, Option.some.injEq, Prod.mk.injEq] at h
    rw [List.nil_append, h.2]
  | cons c cs ih =>
    rcases hc : input s c with _ | ⟨code, s₁⟩
    · rw [feed_cons_of_none cs hc] at h
      exact absurd h (by simp)
    · by_cases hcode : code = 0
      · subst hcode
        rw [feed_cons_of_zero cs hc] at h
        rw [List.cons_append, feed_cons_of_zero _ hc, ih h]
      · rw [feed_cons_of_ne cs hc hcode, Option.some.injEq, Prod.mk.injEq] at h
        exact absurd h.1 hcode

theorem feed_singleton (s : σ) (c : List α) : feed input s [c] = input s c := by
  rcases h : input s c with _ | ⟨code, s'⟩
  · exact feed_cons_of_none [] h
  · by_cases hcode : code = 0
    · subst hcode
      exact feed_cons_of_zero [] h
    · exact feed_cons_of_ne [] h hcode

/-- Some cutting of `P` into non-empty chunks takes the fresh state `s₀` to `s`, every call
returning `0`. -/
def Fed (input : σ → List α → Option (ℤ × σ)) (s₀ : σ) (P : List α) (s : σ) : Prop :=
  ∃ cs, [] ∉ cs ∧ cs.flatten = P ∧ feed input s₀ cs = some (0, s)

theorem fed_nil (s₀ : σ) : Fed input s₀ [] s₀ := ⟨[], List.not_mem_nil, rfl, rfl⟩

/-- One more chunk ends as the call on it does. -/
theorem Fed.exists_feed {s₀ s : σ} {P c : List α} (h : Fed input s₀ P s) (hc : c ≠ []) :
    ∃ cs, [] ∉ cs ∧ cs.flatten = P ++ c ∧ feed input s₀ cs = input s c := by
  obtain ⟨cs, hcs, rfl, hfeed⟩ := h
  refine ⟨cs ++ [c], ?_, by simp, by rw [feed_append _ hfeed, feed_singleton]⟩
  rw [List.mem_append, List.mem_singleton]
  rintro (h | h)
  · exact hcs h
  · exact hc h.symm

theorem Fed.snoc {s₀ s s' : σ} {P c : List α} (h : Fed input s₀ P s) (hc : c ≠ [])
    (hs : input s c = some (0, s')) : Fed input s₀ (P ++ c) s' := by
  obtain ⟨cs, hcs, hflat, hfeed⟩ := h.exists_feed hc
  exact ⟨cs, hcs, hflat, by rw [hfeed, hs]⟩

/-- A run of two lists of chunks. -/
theorem run_append (s : σ) (cs ds : List (List α)) :
    run input s (cs ++ ds) = (run input s cs).bind fun s' => run input s' ds := by
  induction cs generalizing s with
  | nil => rfl
  | cons c cs ih =>
    rcases hc : input s c with _ | ⟨code, s₁⟩
    · simp only [List.cons_append, run, hc, Option.bind_none]
    · rw [List.cons_append, run_cons_of_some _ hc, run_cons_of_some _ hc, ih]

/-- **Feeding by an invariant.**  `I P s` relates a state to the bytes fed so far; a call that
keeps it and returns `0`, as long as the bytes stay a prefix of `M`, is made for every chunk. -/
theorem feed_of_invariant {I : List α → σ → Prop} {M : List α}
    (hstep : ∀ P c s, I P s → c ≠ [] → P ++ c <+: M →
      ∃ s', input s c = some (0, s') ∧ I (P ++ c) s') :
    ∀ (cs : List (List α)) (P : List α) (s : σ), I P s → [] ∉ cs → P ++ cs.flatten <+: M →
      ∃ s', feed input s cs = some (0, s') ∧ I (P ++ cs.flatten) s'
  | [], P, s, hs, _, _ => ⟨s, rfl, by simpa using hs⟩
  | c :: cs, P, s, hs, hcs, hM => by
    rw [List.mem_cons, not_or] at hcs
    rw [List.flatten_cons, ← List.append_assoc] at hM ⊢
    have hPc : P ++ c <+: M := (List.prefix_append _ _).trans hM
    obtain ⟨s₁, h₁, hs₁⟩ := hstep P c s hs (Ne.symm hcs.1) hPc
    obtain ⟨s₂, h₂, hs₂⟩ := feed_of_invariant hstep cs (P ++ c) s₁ hs₁ hcs.2 hM
    exact ⟨s₂, by rw [feed_cons_of_zero cs h₁, h₂], hs₂⟩

/-- **Running by an invariant.** -/
theorem run_invariant {I : List α → σ → Prop}
    (hstep : ∀ P c s code s', I P s → input s c = some (code, s') → I (P ++ c) s') :
    ∀ (cs : List (List α)) (P : List α) (s s' : σ), I P s → run input s cs = some s' →
      I (P ++ cs.flatten) s'
  | [], P, s, s', hs, h => by
    rw [run_nil, Option.some.injEq] at h
    rw [← h, List.flatten_nil, List.append_nil]
    exact hs
  | c :: cs, P, s, s', hs, h => by
    rcases hc : input s c with _ | ⟨code, s₁⟩
    · rw [run, hc, Option.bind_none] at h
      exact absurd h (by simp)
    · rw [run_cons_of_some cs hc] at h
      rw [List.flatten_cons, ← List.append_assoc]
      exact run_invariant hstep cs (P ++ c) s₁ s' (hstep P c s code s₁ hs hc) h

/-- Before the last of the non-empty chunks some of the bytes are missing. -/
theorem length_flatten_take_lt {cs : List (List α)} (hcs : [] ∉ cs) {k : ℕ}
    (hk : k < cs.length) : (cs.take k).flatten.length < cs.flatten.length := by
  conv_rhs => rw [← List.take_append_drop k cs, List.flatten_append, List.length_append,
    List.drop_eq_getElem_cons hk, List.flatten_cons, List.length_append]
  have hne : cs[k] ≠ [] := fun h0 => hcs (h0 ▸ List.getElem_mem hk)
  have hpos := List.length_pos_of_ne_nil hne
  omega

end CModel
