import CModel.Foundation.Outcome

/-!
# Writing into a buffer

A write puts a run of elements into a buffer, over what was there.  A buffer does not grow; a write
that does not fit is undefined.

* `overwrite`: one write, and `isPrefix_overwrite`: what is in front of it stays.
* `overwrites`: a list of writes, each with its place, one after the other.
* `overwrites_ne_undefined_iff`: these stay inside exactly if each of them does.
-/

namespace CModel

universe u

variable {α : Type u}

/-- The elements `s` are written over those from `off` on. -/
def overwrite (buf : List α) (off : ℕ) (s : List α) : Outcome (List α) :=
  if off + s.length ≤ buf.length then
    .ok (buf.take off ++ (s ++ buf.drop (off + s.length)))
  else .undefined

theorem overwrite_of_lt {buf : List α} {off : ℕ} {s : List α}
    (h : buf.length < off + s.length) : overwrite buf off s = .undefined :=
  if_neg (by omega)

/-- A write behind the first part. -/
theorem overwrite_append {pre s rest : List α} (h : s.length ≤ rest.length) :
    overwrite (pre ++ rest) pre.length s = .ok (pre ++ (s ++ rest.drop s.length)) := by
  rw [overwrite, if_pos (by rw [List.length_append]; omega), List.take_left, ← List.drop_drop,
    List.drop_left]

/-- **What is in front of a write stays**, and the buffer keeps its length. -/
theorem isPrefix_overwrite {buf pre s : List α} (hpre : pre <+: buf)
    (h : pre.length + s.length ≤ buf.length) :
    ∃ buf', overwrite buf pre.length s = .ok buf' ∧ pre ++ s <+: buf' ∧
      buf'.length = buf.length := by
  obtain ⟨rest, rfl⟩ := hpre
  rw [List.length_append] at h
  refine ⟨_, overwrite_append (by omega), ⟨_, List.append_assoc _ _ _⟩, ?_⟩
  simp only [List.length_append, List.length_drop]
  omega

theorem length_overwrite {buf buf' s : List α} {off : ℕ} (h : overwrite buf off s = .ok buf') :
    buf'.length = buf.length := by
  unfold overwrite at h
  split at h
  · rw [← Outcome.ok.inj h]
    simp only [List.length_append, List.length_take, List.length_drop]
    omega
  · exact absurd h (by simp)

/-! ## Several writes -/

/-- The writes `ws`, each a place and what is written there, one after the other. -/
def overwrites (buf : List α) : List (ℕ × List α) → Outcome (List α)
  | [] => .ok buf
  | (off, s) :: ws => do
    let buf ← overwrite buf off s
    overwrites buf ws

theorem overwrites_append (buf : List α) (ws ws' : List (ℕ × List α)) :
    overwrites buf (ws ++ ws') = overwrites buf ws >>= fun buf => overwrites buf ws' := by
  induction ws generalizing buf with
  | nil => rfl
  | cons w ws ih =>
    rw [List.cons_append, overwrites, overwrites]
    cases overwrite buf w.1 w.2 with
    | undefined => rfl
    | ret code => rfl
    | ok buf' => exact ih buf'

/-- A write has no return code of its own. -/
theorem overwrites_ne_ret (buf : List α) (ws : List (ℕ × List α)) (code : ℤ) :
    overwrites buf ws ≠ .ret code := by
  induction ws generalizing buf with
  | nil => simp [overwrites]
  | cons w ws ih =>
    rw [overwrites, overwrite]
    split
    · exact ih _
    · simp

/-- **Writes stay inside exactly if each of them does.** -/
theorem overwrites_ne_undefined_iff {buf : List α} {ws : List (ℕ × List α)} :
    overwrites buf ws ≠ .undefined ↔ ∀ w ∈ ws, w.1 + w.2.length ≤ buf.length := by
  induction ws generalizing buf with
  | nil => simp [overwrites]
  | cons w ws ih =>
    rw [List.forall_mem_cons, overwrites]
    by_cases hw : w.1 + w.2.length ≤ buf.length
    · cases h : overwrite buf w.1 w.2 with
      | undefined => exact absurd h (by rw [overwrite, if_pos hw]; simp)
      | ret code => exact absurd h (by rw [overwrite, if_pos hw]; simp)
      | ok buf' => rw [Outcome.ok_bind, ih, length_overwrite h, and_iff_right hw]
    · rw [overwrite_of_lt (by omega), Outcome.undefined_bind]
      exact iff_of_false (fun h => h rfl) fun h => hw h.1

end CModel
