import CModel.Foundation.Checked
import CModel.Foundation.Search
import CModel.HttpCodec.ServerCodec

/-!
# The reads of `match_str_begin`

`ServerCodec` takes the two loops of `match_str_begin` for a search.  Here they are as the code has
them, with an end of their own for a read at or beyond a length that the call names.

* `Checked.matchStrBegin`: the loops over `i`, `j` and `k`.
* `Checked.matchStrBegin_eq`: no read is outside, and what comes back is what the search finds.
* `OccursAt`, `matchStrBegin_leftmost`: **the leftmost position at which the pattern occurs up to
  letter case, and `NULL` exactly if there is none**.
-/

namespace CModel
namespace HttpCodec

/-- What ends a run of the loops other than its result. -/
inductive ReadFault where
  /-- a read of `src` at or beyond `srclen` -/
  | src
  /-- a read of `matchstr` at or beyond `matchstrlen` -/
  | matchstr
  /-- more rounds than there is fuel for -/
  | fuel
  deriving DecidableEq, Repr

/-- A read of a text at a position, and the fault that it is when the position is outside. -/
def textByte (e : ReadFault) (s : Bytes) (i : ℕ) : Except ReadFault Byte :=
  if h : i < s.length then .ok s[i] else .error e

theorem textByte_of_lt {s : Bytes} {i : ℕ} (e : ReadFault) (h : i < s.length) :
    textByte e s i = .ok s[i] :=
  dif_pos h

namespace Checked

/-- The `while` loop, for `fuel` rounds at most: the offset that is returned out of it, `none` if it
is left.  The lengths are those of the texts. -/
def whileLoop (src matchstr : Bytes) :
    (fuel j k : ℕ) → Except ReadFault (Option ℕ)
  | 0, _, _ => .error .fuel
  | fuel + 1, j, k =>
    if j < src.length then do
      let c ← textByte .src src j
      let p ← textByte .matchstr matchstr k
      if tolower c = tolower p then
        if k + 1 = matchstr.length then .ok (some (j + 1 - matchstr.length))
        else whileLoop src matchstr fuel (j + 1) (k + 1)
      else .ok none
    else .ok none

/-- The `for` loop, for `fuel` rounds at most. -/
def forLoop (src matchstr : Bytes) : (fuel i : ℕ) → Except ReadFault (Option ℕ)
  | 0, _ => .error .fuel
  | fuel + 1, i =>
    if i < src.length then do
      match ← whileLoop src matchstr (src.length + 1) i 0 with
      | some p => .ok (some p)
      | none => forLoop src matchstr fuel (i + 1)
    else .ok none

/-- `match_str_begin`, for pointers that are not `NULL`: the offset into `src`.  No counter comes
past `srclen`, so none of them wraps around. -/
def matchStrBegin (src matchstr : Bytes) : Except ReadFault (Option ℕ) :=
  if src.length = 0 ∨ matchstr.length = 0 then .ok none
  else forLoop src matchstr (src.length + 1) 0

variable {src matchstr : Bytes}

/-- The rounds that are left compare what is left of the two texts.  `k` letters have been compared,
so `j` stands `k` behind the start. -/
theorem whileLoop_eq {fuel j k : ℕ} (hk : k < matchstr.length) (hkj : k ≤ j)
    (hfuel : src.length - j < fuel) :
    whileLoop src matchstr fuel j k = .ok
      (if prefixBy sameLetter (matchstr.drop k) (src.drop j) then some (j - k) else none) := by
  induction fuel generalizing j k with
  | zero => omega
  | succ fuel ih =>
    rw [whileLoop]
    by_cases hj : j < src.length
    · rw [if_pos hj, textByte_of_lt _ hj, textByte_of_lt _ hk, List.drop_eq_getElem_cons hk,
        List.drop_eq_getElem_cons hj, prefixBy_cons_cons]
      simp only [bind, Except.bind]
      by_cases hc : tolower src[j] = tolower matchstr[k]
      · have hsame : sameLetter src[j] matchstr[k] = true := by rw [sameLetter, hc, beq_self_eq_true]
        rw [if_pos hc, hsame, Bool.true_and]
        by_cases hlast : k + 1 = matchstr.length
        · -- the last letter of the pattern
          rw [if_pos hlast, List.drop_of_length_le (by omega), prefixBy_nil, if_pos rfl]
          congr 2
          omega
        · rw [if_neg hlast, ih (by omega) (by omega) (by omega), Nat.add_sub_add_right]
      · have hsame : sameLetter src[j] matchstr[k] = false := beq_eq_false_iff_ne.mpr hc
        rw [if_neg hc, hsame, Bool.false_and, if_neg Bool.false_ne_true]
    · have hend : src.drop j = [] := List.drop_of_length_le (by omega)
      rw [if_neg hj, hend, List.drop_eq_getElem_cons hk, prefixBy_cons_nil,
        if_neg Bool.false_ne_true]

/-- The rounds that are left search what is left of `src`. -/
theorem forLoop_eq {fuel i : ℕ} (hm : 0 < matchstr.length) (hi : i ≤ src.length)
    (hfuel : src.length - i < fuel) :
    forLoop src matchstr fuel i = .ok ((findBy sameLetter matchstr (src.drop i)).map (· + i)) := by
  induction fuel generalizing i with
  | zero => omega
  | succ fuel ih =>
    rw [forLoop]
    rcases Nat.lt_or_ge i src.length with hlt | hge
    · rw [if_pos hlt, whileLoop_eq hm (Nat.zero_le _) (by omega), List.drop_zero]
      by_cases hp : prefixBy sameLetter matchstr (src.drop i) = true
      · rw [if_pos hp, findBy_of_prefixBy hp]
        simp [bind, Except.bind]
      · have hcons : src.drop i = src[i] :: src.drop (i + 1) := List.drop_eq_getElem_cons hlt
        have hnext : findBy sameLetter matchstr (src.drop i) =
            (findBy sameLetter matchstr (src.drop (i + 1))).map (· + 1) := by
          rw [findBy, findBy, hcons, firstSuffix_cons_of_neg (by rw [← hcons]; simpa using hp)]
        rw [if_neg hp]
        simp only [bind, Except.bind]
        rw [ih (by omega) (by omega), hnext, Option.map_map]
        congr 2
        funext x
        simp only [Function.comp_apply]
        omega
    · have hempty : findBy sameLetter matchstr [] = none := by
        rw [findBy_eq_none_iff]
        intro j _
        rw [List.drop_nil]
        cases matchstr with
        | nil => exact absurd hm (by simp)
        | cons p ps => exact prefixBy_cons_nil p ps
      rw [if_neg (by omega), List.drop_of_length_le hge, hempty, Option.map_none]

/-- **No read is outside, and the loops find what the search finds.** -/
theorem matchStrBegin_eq (src matchstr : Bytes) :
    matchStrBegin src matchstr = .ok (HttpCodec.matchStrBegin src matchstr) := by
  rw [matchStrBegin, HttpCodec.matchStrBegin]
  by_cases hm : matchstr = []
  · rw [if_pos (Or.inr (by rw [hm, List.length_nil])), if_pos hm]
  · have hpos := List.length_pos_of_ne_nil hm
    rw [if_neg hm]
    by_cases hs : src.length = 0
    · rw [if_pos (Or.inl hs), List.length_eq_zero_iff.mp hs]
      obtain ⟨p, ps, rfl⟩ := List.exists_cons_of_ne_nil hm
      rfl
    · rw [if_neg (by omega), forLoop_eq hpos (Nat.zero_le _) (by omega), List.drop_zero]
      simp

end Checked

/-! ## What the search finds -/

/-- The pattern occurs at the position, up to letter case. -/
def OccursAt (src matchstr : Bytes) (i : ℕ) : Prop :=
  matchstr.map tolower <+: (src.drop i).map tolower

instance (src matchstr : Bytes) (i : ℕ) : Decidable (OccursAt src matchstr i) :=
  inferInstanceAs (Decidable (_ <+: _))

theorem prefixBy_sameLetter_iff {pat s : Bytes} :
    prefixBy sameLetter pat s = true ↔ pat.map tolower <+: s.map tolower := by
  induction pat generalizing s with
  | nil => simp
  | cons p ps ih =>
    cases s with
    | nil => simp
    | cons c cs =>
      rw [prefixBy_cons_cons, Bool.and_eq_true, ih, sameLetter, beq_iff_eq, List.map_cons,
        List.map_cons, List.cons_prefix_cons]
      exact and_congr_left' eq_comm

/-- A pattern that is not empty occurs at no position behind the text. -/
theorem OccursAt.lt {src matchstr : Bytes} {i : ℕ} (h : OccursAt src matchstr i)
    (hm : matchstr ≠ []) : i < src.length := by
  have hle := h.length_le
  rw [List.length_map, List.length_map, List.length_drop] at hle
  have hpos := List.length_pos_of_ne_nil hm
  omega

/-- **`match_str_begin` finds the leftmost match**: for a pattern that is not empty, no read is at or
beyond the length of its text, the offset returned is the first at which the pattern occurs, and
`NULL` is returned exactly if it occurs nowhere. -/
theorem matchStrBegin_leftmost {src matchstr : Bytes} (hm : 0 < matchstr.length) :
    ∃ r, Checked.matchStrBegin src matchstr = .ok r ∧
      (∀ i, r = some i ↔ OccursAt src matchstr i ∧ ∀ j < i, ¬ OccursAt src matchstr j) ∧
      (r = none ↔ ∀ i, ¬ OccursAt src matchstr i) := by
  have hne : matchstr ≠ [] := List.ne_nil_of_length_pos hm
  have hoccurs : ∀ i, prefixBy sameLetter matchstr (src.drop i) = true ↔ OccursAt src matchstr i :=
    fun i => prefixBy_sameLetter_iff
  have hnot : ∀ i, prefixBy sameLetter matchstr (src.drop i) = false ↔ ¬ OccursAt src matchstr i :=
    fun i => by rw [← hoccurs, Bool.not_eq_true]
  refine ⟨_, Checked.matchStrBegin_eq src matchstr, ?_, ?_⟩
  · intro i
    rw [matchStrBegin, if_neg hne, findBy_eq_some_iff, hoccurs]
    constructor
    · rintro ⟨-, hat, hbefore⟩
      exact ⟨hat, fun j hj => (hnot j).mp (hbefore j hj)⟩
    · rintro ⟨hat, hbefore⟩
      exact ⟨Nat.le_of_lt (hat.lt hne), hat, fun j hj => (hnot j).mpr (hbefore j hj)⟩
  · rw [matchStrBegin, if_neg hne, findBy_eq_none_iff]
    constructor
    · intro h i hat
      exact (hnot i).mp (h i (Nat.le_of_lt (hat.lt hne))) hat
    · intro h i _
      exact (hnot i).mpr (h i)

/-- `CR LF CR LF` in a head whose first line ends in two carriage returns, and `ab` in `xaAB`. -/
theorem matchStrBegin_leftmost_crlf :
    (∃ r, Checked.matchStrBegin (ascii "A\r\r\n\r\n") (ascii "\r\n\r\n") = .ok r ∧
      (∀ i, r = some i ↔ OccursAt (ascii "A\r\r\n\r\n") (ascii "\r\n\r\n") i ∧
        ∀ j < i, ¬ OccursAt (ascii "A\r\r\n\r\n") (ascii "\r\n\r\n") j) ∧
      (r = none ↔ ∀ i, ¬ OccursAt (ascii "A\r\r\n\r\n") (ascii "\r\n\r\n") i)) ∧
    Checked.matchStrBegin (ascii "A\r\r\n\r\n") (ascii "\r\n\r\n") = .ok (some 2) ∧
    Checked.matchStrBegin (ascii "xaAB") (ascii "ab") = .ok (some 2) :=
  ⟨matchStrBegin_leftmost (by decide), by decide, by decide⟩

end HttpCodec
end CModel
