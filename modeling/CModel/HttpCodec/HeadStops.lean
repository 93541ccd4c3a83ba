import CModel.HttpCodec.HeadLines

/-!
# Where the walk over header lines ends

A walk over complete lines ends at the empty line, or in front of it: behind a line without a name,
behind `C_MAX_HEAD_LINE` attributes, or behind the last line.

* `walk_cases`: **the ends of a walk**, with the header there.
* `ShortStop`: the ends in front of the empty line at which lines may be left.
* `walk_append_cases`: the ends of a walk that goes on behind lines taken before.
* `walk_noName`, `walk_limit`, `walk_blank`: some walk ends at each of them.
* `frontLines`: the lines in front of the first empty one.
-/

namespace CModel
namespace HttpCodec

theorem headLine_cases (l : Bytes) : headLine l = .blank ∨ headLine l = .noName ∨ IsAttr l := by
  rcases h : headLine l with _ | _ | ⟨name, value⟩
  · exact Or.inl rfl
  · exact Or.inr (Or.inl rfl)
  · exact Or.inr (Or.inr ⟨name, value, h⟩)

theorem setLine_of_noName {l : Bytes} (hl : headLine l = .noName) (h : CHttpHeader) :
    h.setLine l = h := by
  rw [CHttpHeader.setLine, hl]

theorem walk_cons_of_attr {l : Bytes} (hl : IsAttr l) (n : ℕ) (h : CHttpHeader)
    (ls : List Bytes) :
    walk (n + 1) h (l :: ls) = ((walk n (h.setLine l) ls).1, (walk n (h.setLine l) ls).2 + 1) := by
  obtain ⟨name, value, hl⟩ := hl
  have hset : h.setLine l = h.set name value := by rw [CHttpHeader.setLine, hl]
  rw [walk, hl, hset]

/-- **The ends of a walk**: the empty line, with attributes in front of it; or a line in front of
all empty ones, which is the last one, has no name, or is the `n`-th attribute. -/
theorem walk_cases (n : ℕ) (h : CHttpHeader) (ls : List Bytes) :
    (∃ as b rest, ls = as ++ b :: rest ∧ (∀ l ∈ as, IsAttr l) ∧ headLine b = .blank ∧
      walk n h ls = ({ h.setLines as with full := true }, as.length + 1)) ∨
    ∃ as rest, ls = as ++ rest ∧ (∀ l ∈ as, headLine l ≠ .blank) ∧
      walk n h ls = (h.setLines as, as.length) ∧
      (rest = [] ∨ (∃ as' l, as = as' ++ [l] ∧ headLine l = .noName) ∨
        (as.length = n ∧ ∀ l ∈ as, IsAttr l)) := by
  induction n generalizing h ls with
  | zero => exact Or.inr ⟨[], ls, rfl, by simp, rfl, Or.inr (Or.inr ⟨rfl, by simp⟩)⟩
  | succ n ih =>
    cases ls with
    | nil => exact Or.inr ⟨[], [], rfl, by simp, rfl, Or.inl rfl⟩
    | cons l ls =>
      rcases headLine_cases l with hl | hl | hl
      · left
        exact ⟨[], l, ls, rfl, by simp, hl, by rw [walk, hl]; rfl⟩
      · right
        refine ⟨[l], ls, rfl, by simp [hl], ?_, Or.inr (Or.inl ⟨[], l, rfl, hl⟩)⟩
        rw [walk, hl]
        exact congrArg (·, 1) (setLine_of_noName hl h).symm
      · have hne : headLine l ≠ .blank := by
          obtain ⟨name, value, hl⟩ := hl
          rw [hl]
          simp
        rw [walk_cons_of_attr hl]
        rcases ih (h.setLine l) ls with ⟨as, b, rest, rfl, has, hb, hw⟩ |
          ⟨as, rest, rfl, has, hw, hend⟩
        · left
          refine ⟨l :: as, b, rest, rfl, List.forall_mem_cons.mpr ⟨hl, has⟩, hb, ?_⟩
          rw [hw]
          rfl
        · right
          refine ⟨l :: as, rest, rfl, List.forall_mem_cons.mpr ⟨hne, has⟩, ?_, ?_⟩
          · rw [hw]
            rfl
          · rcases hend with hend | ⟨as', m, rfl, hm⟩ | ⟨hlen, hattr⟩
            · exact Or.inl hend
            · exact Or.inr (Or.inl ⟨l :: as', m, rfl, hm⟩)
            · exact Or.inr (Or.inr ⟨by rw [List.length_cons, hlen],
                List.forall_mem_cons.mpr ⟨hl, hattr⟩⟩)

/-! ## Short stops -/

/-- A walk that has taken the lines `as` may have ended there although lines follow: the last one
has no name, or as many as one call looks at are attributes. -/
def ShortStop (as : List Bytes) : Prop :=
  (∃ as' l, as = as' ++ [l] ∧ headLine l = .noName) ∨
    ∃ as' ms, as = as' ++ ms ∧ ms.length = cMaxHeadLine ∧ ∀ l ∈ ms, IsAttr l

theorem ShortStop.append_left {as : List Bytes} (h : ShortStop as) (bs : List Bytes) :
    ShortStop (bs ++ as) := by
  rcases h with ⟨as', l, rfl, hl⟩ | ⟨as', ms, rfl, hlen, hms⟩
  · exact Or.inl ⟨bs ++ as', l, (List.append_assoc _ _ _).symm, hl⟩
  · exact Or.inr ⟨bs ++ as', ms, (List.append_assoc _ _ _).symm, hlen, hms⟩

/-- **A walk that goes on** behind the lines `as`: it completes the header at the empty line, or it
ends at the last line or at a short stop. -/
theorem walk_append_cases (as ls : List Bytes) :
    (∃ bs b rest, ls = bs ++ b :: rest ∧ (∀ l ∈ bs, headLine l ≠ .blank) ∧ headLine b = .blank ∧
      walk cMaxHeadLine (({} : CHttpHeader).setLines as) ls =
        ({ ({} : CHttpHeader).setLines (as ++ bs) with full := true }, bs.length + 1)) ∨
    ∃ bs rest, ls = bs ++ rest ∧ (∀ l ∈ bs, headLine l ≠ .blank) ∧
      walk cMaxHeadLine (({} : CHttpHeader).setLines as) ls =
        (({} : CHttpHeader).setLines (as ++ bs), bs.length) ∧
      (rest = [] ∨ ShortStop (as ++ bs)) := by
  rcases walk_cases cMaxHeadLine (({} : CHttpHeader).setLines as) ls with
    ⟨bs, b, rest, hls, hbs, hb, hw⟩ | ⟨bs, rest, hls, hbs, hw, hend⟩
  · left
    refine ⟨bs, b, rest, hls, ?_, hb, by rw [hw, setLines_append]⟩
    intro l hl
    obtain ⟨name, value, hattr⟩ := hbs l hl
    rw [hattr]
    simp
  · right
    refine ⟨bs, rest, hls, hbs, by rw [hw, setLines_append], ?_⟩
    rcases hend with hend | hend | ⟨hlen, hattr⟩
    · exact Or.inl hend
    · exact Or.inr (ShortStop.append_left (Or.inl hend) as)
    · exact Or.inr (Or.inr ⟨as, bs, rfl, hlen, hattr⟩)

/-- The lines in front of the first empty one. -/
def frontLines (ls : List Bytes) : List Bytes := ls.takeWhile (headLine · != .blank)

theorem ne_blank_of_mem_frontLines {ls : List Bytes} :
    ∀ l ∈ frontLines ls, headLine l ≠ .blank := by
  intro l hl
  have h := List.mem_takeWhile_imp (p := (headLine · != .blank)) hl
  exact bne_iff_ne.mp h

theorem walk_noName {l : Bytes} (hl : headLine l = .noName) (h : CHttpHeader)
    (rest : List Bytes) : walk cMaxHeadLine h (l :: rest) = (h, 1) := by
  rw [show cMaxHeadLine = 8191 + 1 from rfl, walk, hl]

theorem walk_limit {ms : List Bytes} (hlen : ms.length = cMaxHeadLine) (hms : ∀ l ∈ ms, IsAttr l)
    (h : CHttpHeader) (rest : List Bytes) :
    walk cMaxHeadLine h (ms ++ rest) = (h.setLines ms, cMaxHeadLine) := by
  rw [walk_append hms rest hlen.le, hlen, Nat.sub_self]
  rfl

theorem walk_blank {b : Bytes} (hb : headLine b = .blank) (h : CHttpHeader)
    (rest : List Bytes) : walk cMaxHeadLine h (b :: rest) = ({ h with full := true }, 1) := by
  rw [show cMaxHeadLine = 8191 + 1 from rfl, walk, hb]

theorem walk_singleton {l : Bytes} (hl : headLine l ≠ .blank) (h : CHttpHeader) :
    walk cMaxHeadLine h [l] = (h.setLine l, 1) := by
  rcases headLine_cases l with hl' | hl' | hl'
  · exact absurd hl' hl
  · rw [walk_noName hl', setLine_of_noName hl']
  · rw [show cMaxHeadLine = 8191 + 1 from rfl, walk_cons_of_attr hl', walk_nil]

/-! ## The lines in front of the empty one -/

theorem frontLines_of_blank {as : List Bytes} (has : ∀ l ∈ as, headLine l ≠ .blank) {b : Bytes}
    (hb : headLine b = .blank) (rest : List Bytes) : frontLines (as ++ b :: rest) = as := by
  rw [frontLines, List.takeWhile_append_of_pos fun l hl => bne_iff_ne.mpr (has l hl),
    List.takeWhile_cons_of_neg (by simp [hb]), List.append_nil]

theorem isPrefix_frontLines {as ls : List Bytes} (h : as <+: ls)
    (has : ∀ l ∈ as, headLine l ≠ .blank) : as <+: frontLines ls := by
  obtain ⟨rest, rfl⟩ := h
  rw [frontLines, List.takeWhile_append_of_pos fun l hl => bne_iff_ne.mpr (has l hl)]
  exact List.prefix_append _ _

/-- Lines have an empty one, or are all in front of it. -/
theorem frontLines_cases (ls : List Bytes) :
    frontLines ls = ls ∨ ∃ b rest, headLine b = .blank ∧ ls = frontLines ls ++ b :: rest := by
  have hcut : frontLines ls ++ ls.dropWhile (headLine · != .blank) = ls :=
    List.takeWhile_append_dropWhile
  cases hd : ls.dropWhile (headLine · != .blank) with
  | nil =>
    rw [hd, List.append_nil] at hcut
    exact Or.inl hcut
  | cons b rest =>
    have hb := List.head_dropWhile_not (headLine · != .blank) (l := ls) (by rw [hd]; simp)
    simp only [hd, List.head_cons, bne_eq_false_iff_eq] at hb
    rw [hd] at hcut
    exact Or.inr ⟨b, rest, hb, hcut.symm⟩

end HttpCodec
end CModel
