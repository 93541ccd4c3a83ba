import CModel.Foundation.Bytes

/-!
# Complete lines and an open tail

Received bytes fall into complete lines, each ended by a line feed, and the bytes of a line that
has not ended yet.

* `unlines`: the text of complete lines.
* `splitLines`: the lines and the tail of a text; `unlines_splitLines` and `splitLines_unlines`
  say that the two are inverse.
* `splitLines_append`: more bytes extend the tail and leave the complete lines alone.
* `line_unique`, `isPrefix_line_cases`: the first line of a text, and of its prefixes.
* `exists_of_prefix_unlines`: a prefix of a text of lines ends inside one of them.
-/

namespace CModel

/-- The text of lines, each ended by a line feed. -/
def unlines (ls : List Bytes) : Bytes := ls.flatMap (· ++ [LF])

@[simp] theorem unlines_nil : unlines [] = [] := rfl

@[simp] theorem unlines_cons (l : Bytes) (ls : List Bytes) :
    unlines (l :: ls) = l ++ LF :: unlines ls := by
  rw [unlines, List.flatMap_cons, List.append_assoc]
  rfl

theorem unlines_cons_append_ne_nil (b : Bytes) (ls : List Bytes) (s : Bytes) :
    unlines (b :: ls) ++ s ≠ [] := by
  rw [unlines_cons]
  simp

theorem unlines_append (ls ms : List Bytes) : unlines (ls ++ ms) = unlines ls ++ unlines ms :=
  List.flatMap_append

/-- The complete lines of a text, and what follows the last line feed. -/
def splitLines : Bytes → List Bytes × Bytes
  | [] => ([], [])
  | c :: s =>
    if c = LF then ([] :: (splitLines s).1, (splitLines s).2)
    else match splitLines s with
      | ([], t) => ([], c :: t)
      | (l :: ls, t) => ((c :: l) :: ls, t)

theorem splitLines_cons_LF (s : Bytes) :
    splitLines (LF :: s) = ([] :: (splitLines s).1, (splitLines s).2) := by
  rw [splitLines, if_pos rfl]

theorem splitLines_cons_of_ne {c : Byte} (h : c ≠ LF) (s : Bytes) :
    splitLines (c :: s) = match splitLines s with
      | ([], t) => ([], c :: t)
      | (l :: ls, t) => ((c :: l) :: ls, t) := by
  rw [splitLines, if_neg h]

/-- **The lines and the tail make up the text.** -/
theorem unlines_splitLines (s : Bytes) : unlines (splitLines s).1 ++ (splitLines s).2 = s := by
  induction s with
  | nil => rfl
  | cons c s ih =>
    by_cases hc : c = LF
    · subst hc
      rw [splitLines_cons_LF, unlines_cons, List.nil_append, List.cons_append, ih]
    · rw [splitLines_cons_of_ne hc]
      rcases hs : splitLines s with ⟨_ | ⟨l, ls⟩, t⟩ <;> rw [hs] at ih
      · rw [← ih]
        rfl
      · rw [← ih, unlines_cons, unlines_cons]
        rfl

theorem LF_notMem_splitLines (s : Bytes) :
    (∀ l ∈ (splitLines s).1, LF ∉ l) ∧ LF ∉ (splitLines s).2 := by
  induction s with
  | nil => simp [splitLines]
  | cons c s ih =>
    by_cases hc : c = LF
    · subst hc
      rw [splitLines_cons_LF]
      exact ⟨List.forall_mem_cons.mpr ⟨List.not_mem_nil, ih.1⟩, ih.2⟩
    · rw [splitLines_cons_of_ne hc]
      rcases hs : splitLines s with ⟨_ | ⟨l, ls⟩, t⟩ <;> rw [hs] at ih
      · refine ⟨ih.1, ?_⟩
        intro h
        rcases List.mem_cons.mp h with h | h
        · exact hc h.symm
        · exact ih.2 h
      · obtain ⟨hl, hls⟩ := List.forall_mem_cons.mp ih.1
        refine ⟨List.forall_mem_cons.mpr ⟨?_, hls⟩, ih.2⟩
        intro h
        rcases List.mem_cons.mp h with h | h
        · exact hc h.symm
        · exact hl h

/-- Bytes without a line feed are all tail. -/
theorem splitLines_of_notMem {t : Bytes} (h : LF ∉ t) : splitLines t = ([], t) := by
  induction t with
  | nil => rfl
  | cons c t ih =>
    have hc : c ≠ LF := fun h0 => h (h0 ▸ List.mem_cons_self)
    rw [splitLines_cons_of_ne hc, ih fun h0 => h (List.mem_cons_of_mem c h0)]

theorem splitLines_line_append {l : Bytes} (hl : LF ∉ l) (s : Bytes) :
    splitLines (l ++ LF :: s) = (l :: (splitLines s).1, (splitLines s).2) := by
  induction l with
  | nil => exact splitLines_cons_LF s
  | cons c l ih =>
    have hc : c ≠ LF := fun h0 => hl (h0 ▸ List.mem_cons_self)
    rw [List.cons_append, splitLines_cons_of_ne hc, ih fun h0 => hl (List.mem_cons_of_mem c h0)]

theorem splitLines_unlines_append {ls : List Bytes} (hls : ∀ l ∈ ls, LF ∉ l) (s : Bytes) :
    splitLines (unlines ls ++ s) = (ls ++ (splitLines s).1, (splitLines s).2) := by
  induction ls with
  | nil => rfl
  | cons l ls ih =>
    obtain ⟨hl, hls⟩ := List.forall_mem_cons.mp hls
    rw [unlines_cons, List.append_assoc, List.cons_append, splitLines_line_append hl, ih hls]
    rfl

/-- **A text is split in one way only.** -/
theorem splitLines_unlines {ls : List Bytes} {t : Bytes} (hls : ∀ l ∈ ls, LF ∉ l)
    (ht : LF ∉ t) : splitLines (unlines ls ++ t) = (ls, t) := by
  rw [splitLines_unlines_append hls, splitLines_of_notMem ht, List.append_nil]

/-- More bytes extend the tail and leave the complete lines alone. -/
theorem splitLines_append (s c : Bytes) :
    splitLines (s ++ c) =
      ((splitLines s).1 ++ (splitLines ((splitLines s).2 ++ c)).1,
        (splitLines ((splitLines s).2 ++ c)).2) := by
  conv_lhs => rw [← unlines_splitLines s, List.append_assoc]
  exact splitLines_unlines_append (LF_notMem_splitLines s).1 _

/-- A text of lines has a line feed unless it is empty. -/
theorem LF_mem_iff {s : Bytes} : LF ∈ s ↔ ∃ l t, LF ∉ l ∧ s = l ++ LF :: t := by
  constructor
  · intro h
    have hs := unlines_splitLines s
    obtain ⟨hls, ht⟩ := LF_notMem_splitLines s
    rcases hsplit : splitLines s with ⟨_ | ⟨l, ls⟩, t⟩ <;> rw [hsplit] at hs hls ht
    · rw [← hs] at h
      exact absurd h ht
    · refine ⟨l, unlines ls ++ t, hls l List.mem_cons_self, ?_⟩
      rw [← hs, unlines_cons, List.append_assoc]
      rfl
  · rintro ⟨l, t, -, rfl⟩
    exact List.mem_append_right l List.mem_cons_self

/-- The first line feed of a text is in one place only. -/
theorem line_unique {a b r t : Bytes} (ha : LF ∉ a) (hb : LF ∉ b)
    (h : a ++ LF :: r = b ++ LF :: t) : a = b ∧ r = t := by
  have hsplit := congrArg splitLines h
  rw [splitLines_line_append ha, splitLines_line_append hb, Prod.mk.injEq, List.cons.injEq]
    at hsplit
  obtain ⟨⟨rfl, -⟩, -⟩ := hsplit
  exact ⟨rfl, (List.cons.inj (List.append_cancel_left h)).2⟩

/-- A prefix of a text ends in its first line, or has that line in front. -/
theorem isPrefix_line_cases {l P R : Bytes} (hl : LF ∉ l) (h : P <+: l ++ LF :: R) :
    LF ∉ P ∨ ∃ R', R' <+: R ∧ P = l ++ LF :: R' := by
  by_cases hP : LF ∈ P
  · right
    obtain ⟨l', R', hl', rfl⟩ := LF_mem_iff.mp hP
    obtain ⟨Q, hQ⟩ := h
    rw [List.append_assoc, List.cons_append] at hQ
    obtain ⟨rfl, rfl⟩ := line_unique hl' hl hQ
    exact ⟨R', List.prefix_append _ _, rfl⟩
  · exact Or.inl hP

/-- The lines of a prefix are lines of the text. -/
theorem splitLines_of_isPrefix {P M : Bytes} (h : P <+: M) :
    (splitLines P).1 <+: (splitLines M).1 := by
  obtain ⟨Q, rfl⟩ := h
  rw [splitLines_append]
  exact List.prefix_append _ _

/-- **A prefix of a text of lines is a number of lines and an open tail.** -/
theorem exists_of_prefix_unlines {ls : List Bytes} (hls : ∀ l ∈ ls, LF ∉ l) {P : Bytes}
    (h : P <+: unlines ls) :
    ∃ k ≤ ls.length, ∃ t, LF ∉ t ∧ P = unlines (ls.take k) ++ t := by
  obtain ⟨Q, hQ⟩ := h
  have hsplit := splitLines_append P Q
  have hfull : splitLines (unlines ls) = (ls, []) := by
    have h0 := splitLines_unlines hls List.not_mem_nil
    rwa [List.append_nil] at h0
  rw [hQ, hfull, Prod.mk.injEq] at hsplit
  refine ⟨(splitLines P).1.length, ?_, (splitLines P).2, (LF_notMem_splitLines P).2, ?_⟩
  · rw [hsplit.1, List.length_append]
    exact Nat.le_add_right _ _
  · rw [hsplit.1, List.take_left]
    exact (unlines_splitLines P).symm

end CModel
