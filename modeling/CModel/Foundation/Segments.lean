import Mathlib.Data.List.Basic

/-!
# Segments and pairs

A text is cut into segments at a separator, and a segment into the two sides of a sign.

* `segments_cases`: the induction over the segments.
* `notMem_of_mem_splitOn`: no segment has a separator in it.
* `filterMap_splitOn_append`, `pairwise_splitOn_append`: the first segment and the others.
* `cutAt`: the two sides of the first sign, with `cutAt_append` and `cutAt_of_notMem`.
* `pairsOf`: the two sides of all segments that have the sign.
* `notMem_of_lookup_pairsOf`: no first side has a separator in it.
-/

namespace CModel

universe u

variable {α : Type u} [BEq α] [LawfulBEq α] {sep sign : α}

/-! ## Segments -/

/-- A text is one segment, or a segment and more behind a separator. -/
theorem segments_cases {motive : List α → Prop} (sep : α) (s : List α)
    (last : ∀ s, sep ∉ s → motive s)
    (behind : ∀ a b, sep ∉ a → motive b → motive (a ++ sep :: b)) : motive s := by
  induction hlen : s.length using Nat.strongRecOn generalizing s with
  | ind len ih =>
    by_cases hsep : sep ∈ s
    · obtain ⟨a, b, rfl, ha⟩ := List.eq_append_cons_of_mem hsep
      refine behind a b ha (ih b.length ?_ b rfl)
      rw [← hlen, List.length_append, List.length_cons]
      omega
    · exact last s hsep

/-- No segment has a separator in it. -/
theorem notMem_of_mem_splitOn {s t : List α} (h : t ∈ s.splitOn sep) :
    sep ∉ t := by
  induction s using segments_cases sep with
  | last s hs =>
    rw [List.splitOn_eq_singleton hs, List.mem_singleton] at h
    rwa [h]
  | behind a b ha ih =>
    rw [List.splitOn_append_cons_self_of_not_mem ha, List.mem_cons] at h
    rcases h with rfl | h
    · exact ha
    · exact ih h

/-- What is in a segment is in the text. -/
theorem mem_of_mem_splitOn {s t : List α} {c : α} (h : t ∈ s.splitOn sep)
    (hc : c ∈ t) : c ∈ s := by
  induction s using segments_cases sep with
  | last s hs =>
    rw [List.splitOn_eq_singleton hs, List.mem_singleton] at h
    rwa [← h]
  | behind a b ha ih =>
    rw [List.splitOn_append_cons_self_of_not_mem ha, List.mem_cons] at h
    rcases h with rfl | h
    · exact List.mem_append_left _ hc
    · exact List.mem_append_right _ (List.mem_cons_of_mem sep (ih h))

/-- What is in the text and is no separator is in a segment. -/
theorem exists_mem_splitOn (sep : α) {s : List α} {c : α} (hne : c ≠ sep) (hc : c ∈ s) :
    ∃ t ∈ s.splitOn sep, c ∈ t := by
  induction s using segments_cases sep with
  | last s hs =>
    rw [List.splitOn_eq_singleton hs]
    exact ⟨s, List.mem_singleton_self s, hc⟩
  | behind a b ha ih =>
    rw [List.splitOn_append_cons_self_of_not_mem ha]
    rcases List.mem_append.mp hc with hc | hc
    · exact ⟨a, List.mem_cons_self, hc⟩
    · obtain ⟨t, ht, hct⟩ := ih ((List.mem_cons.mp hc).resolve_left hne)
      exact ⟨t, List.mem_cons_of_mem a ht, hct⟩

/-- A separator at the end makes one more segment, which is empty. -/
theorem splitOn_concat (s : List α) :
    (s ++ [sep]).splitOn sep = s.splitOn sep ++ [[]] := by
  rw [List.splitOn_append_cons_self, List.splitOn_nil]

/-- What is picked from the segments comes from the first one and from the others. -/
theorem filterMap_splitOn_append {β : Type u} (f : List α → Option β) {a : List α} (h : sep ∉ a)
    (b : List α) : ((a ++ sep :: b).splitOn sep).filterMap f =
      (f a).toList ++ (b.splitOn sep).filterMap f := by
  rw [List.splitOn_append_cons_self_of_not_mem h, List.filterMap_cons]
  cases f a <;> rfl

/-- **A letter in a segment asks for a fact of all segments in front** exactly if it asks for that
of the first one where it is behind it, and so on in what is behind. -/
theorem pairwise_splitOn_append {c : α} (hne : c ≠ sep) (P : List α → Prop) {a : List α}
    (h : sep ∉ a) (b : List α) :
    ((a ++ sep :: b).splitOn sep).Pairwise (fun s t => c ∈ t → P s) ↔
      (c ∈ b → P a) ∧ (b.splitOn sep).Pairwise fun s t => c ∈ t → P s := by
  rw [List.splitOn_append_cons_self_of_not_mem h, List.pairwise_cons]
  refine and_congr_left fun _ => ⟨?_, ?_⟩
  · intro hall hb
    obtain ⟨t, ht, hmem⟩ := exists_mem_splitOn sep hne hb
    exact hall t ht hmem
  · intro hall t ht hmem
    exact hall (mem_of_mem_splitOn ht hmem)

/-! ## Pairs -/

/-- The two sides of the first sign. -/
def cutAt (sign : α) : List α → Option (List α × List α)
  | [] => none
  | a :: s => if a == sign then some ([], s) else (cutAt sign s).map fun p => (a :: p.1, p.2)

theorem cutAt_of_notMem {s : List α} (h : sign ∉ s) : cutAt sign s = none := by
  induction s with
  | nil => rfl
  | cons a s ih =>
    rw [List.mem_cons, not_or] at h
    obtain ⟨ha, hs⟩ := h
    rw [cutAt, beq_eq_false_iff_ne.mpr (Ne.symm ha), if_neg Bool.false_ne_true, ih hs,
      Option.map_none]

theorem cutAt_append {s : List α} (h : sign ∉ s) (t : List α) :
    cutAt sign (s ++ sign :: t) = some (s, t) := by
  induction s with
  | nil => rw [List.nil_append, cutAt, beq_self_eq_true, if_pos rfl]
  | cons a s ih =>
    rw [List.mem_cons, not_or] at h
    obtain ⟨ha, hs⟩ := h
    rw [List.cons_append, cutAt, beq_eq_false_iff_ne.mpr (Ne.symm ha), if_neg Bool.false_ne_true,
      ih hs, Option.map_some]

theorem eq_append_of_cutAt {s : List α} {p : List α × List α} (h : cutAt sign s = some p) :
    s = p.1 ++ sign :: p.2 := by
  induction s generalizing p with
  | nil => exact absurd h (by simp [cutAt])
  | cons a s ih =>
    rw [cutAt] at h
    split at h
    · next ha =>
      rw [Option.some.injEq] at h
      rw [← h, beq_iff_eq.mp ha, List.nil_append]
    · obtain ⟨q, hq, rfl⟩ := Option.map_eq_some_iff.mp h
      rw [List.cons_append, ← ih hq]

/-- The two sides of all segments that have the sign. -/
def pairsOf (sep sign : α) (s : List α) : List (List α × List α) :=
  (s.splitOn sep).filterMap (cutAt sign)

/-- **No first side has a separator in it.** -/
theorem notMem_of_lookup_pairsOf {s key value : List α}
    (h : (pairsOf sep sign s).lookup key = some value) : sep ∉ key := by
  obtain ⟨l, r, hl, -⟩ := List.lookup_eq_some_iff.mp h
  have hmem : (key, value) ∈ pairsOf sep sign s := by
    rw [hl]
    exact List.mem_append_right l List.mem_cons_self
  obtain ⟨t, ht, hcut⟩ := List.mem_filterMap.mp hmem
  have hsegment := notMem_of_mem_splitOn ht
  rw [eq_append_of_cutAt hcut, List.mem_append, not_or] at hsegment
  exact hsegment.1

end CModel
