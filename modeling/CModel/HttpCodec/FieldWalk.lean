import CModel.HttpCodec.LengthRange
import CModel.HttpCodec.MakerParser

/-!
# Where `parseField` finds the body

`get_length_ex` finds the body by a search for `CR LF CR LF`, and `parseField` by going from header
line to header line, which it stops doing at a line without `": "`.

* `crlfLines`, `headerLines`: a text cut at each `CR LF`; the lines of a head without the first.
* `fieldLoop_line`: one round of the loop.
* `fieldLoop_walk`: **the loop stops in front of the body** exactly if all lines have a `": "`.
* `parseField_text`: the place that `parseField` finds.
* `bodyFound_iff`: **the two places agree** exactly if all header lines have a `": "`.
-/

namespace CModel
namespace HttpCodec

variable {dm : DataModel} {text rest : Bytes}

/-! ## Lines -/

/-- The first `CR LF` behind a text without one. -/
theorem findBy_crlf {l : Bytes} (hl : ¬ [CR, LF] <:+: l) (t : Bytes) :
    findBy (· == ·) [CR, LF] (l ++ CR :: LF :: t) = some l.length :=
  findBy_of_not_isInfix (by decide) hl t

/-- A text, cut at each `CR LF`. -/
def crlfLines (s : Bytes) : List Bytes :=
  match _hEnd : findBy (· == ·) [CR, LF] s with
  | none => [s]
  | some e => s.take e :: crlfLines (s.drop (e + 2))
termination_by s.length
decreasing_by
  have hle : e + 2 ≤ s.length := findBy_add_length_le _hEnd
  rw [List.length_drop]
  omega

theorem crlfLines_single {s : Bytes} (h : ¬ [CR, LF] <:+: s) : crlfLines s = [s] := by
  have hnone : findBy (· == ·) [CR, LF] s = none := by
    rwa [← Option.not_isSome_iff_eq_none, isSome_findBy_iff]
  rw [crlfLines.eq_def]
  split
  · rfl
  · next e he =>
    rw [hnone] at he
    exact absurd he (by simp)

theorem crlfLines_append {l : Bytes} (hl : ¬ [CR, LF] <:+: l) (r : Bytes) :
    crlfLines (l ++ CR :: LF :: r) = l :: crlfLines r := by
  have hsome := findBy_crlf hl r
  rw [crlfLines.eq_def]
  split
  · next he =>
    rw [hsome] at he
    exact absurd he (by simp)
  · next e he =>
    rw [hsome, Option.some.injEq] at he
    subst he
    rw [List.take_left, ← List.drop_drop, List.drop_left]
    rfl

/-- A text has one line, or a first line and more. -/
theorem crlf_cases (s : Bytes) : ¬ [CR, LF] <:+: s ∨
    ∃ l r, s = l ++ CR :: LF :: r ∧ ¬ [CR, LF] <:+: l := by
  cases he : findBy (· == ·) [CR, LF] s with
  | none =>
    left
    rw [← isSome_findBy_iff, he]
    exact Bool.false_ne_true
  | some e =>
    right
    obtain ⟨r, hcut, hno⟩ := exists_of_findBy (by decide) he
    exact ⟨s.take e, r, hcut, hno⟩

/-! ## One round -/

section Round

variable {l : Bytes}

/-- The end of the line that `ptr` points to. -/
theorem strstr_line (hl : ¬ [CR, LF] <:+: l) (hzero : (0 : Byte) ∉ l) (t : Bytes) :
    strstr (l ++ CR :: LF :: t) (ascii "\r\n") = some l.length :=
  strstr_of_not_isInfix (by decide) (by decide) hl hzero t

/-- A line that is not empty does not start with its line end. -/
theorem memcmpEq_line (hl : ¬ [CR, LF] <:+: l) (hne : l ≠ []) (t : Bytes) :
    memcmpEq (l ++ CR :: LF :: t) (ascii "\r\n") = .ok false := by
  have hle : (ascii "\r\n").length ≤ (l ++ CR :: LF :: t).length := by
    rw [List.length_append, List.length_cons, List.length_cons]
    exact Nat.le_add_left_of_le (Nat.le_add_left 2 _)
  have hnot : (l ++ CR :: LF :: t).take (ascii "\r\n").length ≠ ascii "\r\n" := by
    intro heq
    have hpre : [CR, LF] <+: l ++ CR :: LF :: t := List.prefix_iff_eq_take.mpr heq.symm
    have hfirst := findBy_of_prefixBy (prefixBy_beq_iff.mpr hpre)
    rw [findBy_crlf hl, Option.some.injEq, List.length_eq_zero_iff] at hfirst
    exact hne hfirst
  rw [memcmpEq, if_pos hle, beq_false_of_ne hnot]

/-- **One round of the loop**: the line is taken, if there is a `": "` in it. -/
theorem fieldLoop_line (hl : ¬ [CR, LF] <:+: l) (hne : l ≠ []) (hzero : (0 : Byte) ∉ l) {left : ℤ}
    (hleft : 4 ≤ left) (t : Bytes) (m : StdMap) :
    fieldLoop left (l ++ CR :: LF :: t) m = match findBy (· == ·) (ascii ": ") l with
      | none => .ok (m, left, l ++ CR :: LF :: t)
      | some p =>
        fieldLoop (left - (l.length + 2)) t (m.insertIfNew (l.take p) (l.drop (p + 2))) := by
  have hend := strstr_line hl hzero t
  have htake : (l ++ CR :: LF :: t).take l.length = l := List.take_left
  have hdrop : (l ++ CR :: LF :: t).drop (l.length + 2) = t := by
    rw [← List.drop_drop, List.drop_left]
    rfl
  have hcolon : strstr l (ascii ": ") = findBy (· == ·) (ascii ": ") l := strstr_eq_findBy hzero
  rw [fieldLoop.eq_def, if_neg (not_lt.mpr hleft), memcmpEq_line hl hne, Outcome.ok_bind,
    if_neg Bool.false_ne_true]
  split
  · next h0 =>
    rw [hend] at h0
    exact absurd h0 (by simp)
  · next lineEnd h0 =>
    rw [hend, Option.some.injEq] at h0
    subst h0
    cases hp : findBy (· == ·) (ascii ": ") l <;> simp only [htake, hdrop, hcolon, hp]

end Round

/-! ## The loop -/

/-- No line is empty in front of the first `CR LF CR LF`. -/
theorem ne_nil_of_findCrlf {l t : Bytes} {i : ℕ}
    (h : findCrlf (CR :: LF :: (l ++ CR :: LF :: t)) = some i) (hi : 0 < i) : l ≠ [] := by
  rintro rfl
  have hfirst : findCrlf (CR :: LF :: CR :: LF :: t) = some 0 :=
    findBy_of_prefixBy (prefixBy_beq_iff.mpr ⟨t, rfl⟩)
  rw [List.nil_append, hfirst, Option.some.injEq] at h
  omega

/-- What has more than two bytes in front of the body is not the body behind two bytes. -/
theorem drop_two_ne {p t : Bytes} (hp : t.length + 2 < p.length) : p.drop 2 ≠ t := by
  intro h0
  have hlength := congrArg List.length h0
  rw [List.length_drop] at hlength
  omega

/-- Behind the first line, the end of the head is found where it was. -/
theorem findCrlf_behind_line {l r t : Bytes}
    (hhead : findCrlf (CR :: LF :: (l ++ CR :: LF :: (r ++ CR :: LF :: CR :: LF :: t))) =
      some ((l ++ CR :: LF :: r).length + 2)) :
    findCrlf (CR :: LF :: (r ++ CR :: LF :: CR :: LF :: t)) = some (r.length + 2) := by
  have hdrop : findCrlf (CR :: LF :: l ++ CR :: LF :: (r ++ CR :: LF :: CR :: LF :: t)) =
      some ((l ++ CR :: LF :: r).length + 2) := hhead
  have hrest := findBy_of_append_of_le hdrop (by simp)
  rw [show findCrlf _ = _ from hrest]
  simp only [List.length_append, List.length_cons, Option.some.injEq]
  omega

/-- **The loop stops in front of the body** exactly if all lines have a `": "` in them. -/
theorem fieldLoop_walk {s : Bytes} (hzero : (0 : Byte) ∉ s) {t : Bytes}
    (hhead : findCrlf (CR :: LF :: (s ++ CR :: LF :: CR :: LF :: t)) = some (s.length + 2))
    {n : ℤ} (hn : 0 < n) (m : StdMap) :
    ∃ m' left' ptr', fieldLoop (s.length + 4 + n) (s ++ CR :: LF :: CR :: LF :: t) m =
        .ok (m', left', ptr') ∧ 2 < left' ∧
      (ptr'.drop 2 = t ↔ ∀ l ∈ crlfLines s, ascii ": " <:+: l) := by
  induction hlen : s.length using Nat.strong_induction_on generalizing s m with
  | h k ih =>
  have hnocolon : ∀ l : Bytes, findBy (· == ·) (ascii ": ") l = none → ¬ ascii ": " <:+: l :=
    fun l hnone hin => by
      rw [← isSome_findBy_iff, hnone] at hin
      exact absurd hin (by simp)
  rcases crlf_cases s with hone | ⟨l, r, rfl, hl⟩
  · have hne := ne_nil_of_findCrlf hhead (Nat.succ_pos _)
    rw [crlfLines_single hone, List.forall_mem_singleton,
      fieldLoop_line hone hne hzero (by omega)]
    cases hp : findBy (· == ·) (ascii ": ") s with
    | none =>
      -- at a line without `": "` the loop stops, in front of more than the body
      refine ⟨_, _, _, rfl, by omega, iff_of_false (drop_two_ne ?_) (hnocolon s hp)⟩
      simp only [List.length_append, List.length_cons]
      omega
    | some p =>
      simp only [fieldLoop_blank]
      exact ⟨_, _, _, rfl, by omega,
        iff_of_true rfl (isSome_findBy_iff.mp (Option.isSome_of_eq_some hp))⟩
  · have hdata : l ++ CR :: LF :: r ++ CR :: LF :: CR :: LF :: t =
        l ++ CR :: LF :: (r ++ CR :: LF :: CR :: LF :: t) := by
      rw [List.append_assoc]
      rfl
    rw [hdata] at hhead ⊢
    have hne := ne_nil_of_findCrlf hhead (Nat.succ_pos _)
    have hzero' : (0 : Byte) ∉ l ∧ (0 : Byte) ∉ r := by
      simp only [List.mem_append, List.mem_cons, not_or] at hzero
      exact ⟨hzero.1, hzero.2.2.2⟩
    rw [crlfLines_append hl, List.forall_mem_cons, fieldLoop_line hl hne hzero'.1 (by omega)]
    cases hp : findBy (· == ·) (ascii ": ") l with
    | none =>
      refine ⟨_, _, _, rfl, by omega, iff_of_false (drop_two_ne ?_) fun h => hnocolon l hp h.1⟩
      simp only [List.length_append, List.length_cons]
      omega
    | some p =>
      obtain ⟨m', left', ptr', hloop, hleft, hptr⟩ := ih r.length
        (by rw [← hlen, List.length_append, List.length_cons, List.length_cons]; omega)
        hzero'.2 (findCrlf_behind_line hhead) (m.insertIfNew (l.take p) (l.drop (p + 2))) rfl
      have hcount : ((l ++ CR :: LF :: r).length + 4 + n : ℤ) - (l.length + 2) =
          r.length + 4 + n := by
        simp only [List.length_append, List.length_cons]
        omega
      rw [hlen] at hcount
      refine ⟨m', left', ptr', ?_, hleft, ?_⟩
      · simp only [hcount, hloop]
      · rw [hptr]
        exact (and_iff_right (isSome_findBy_iff.mp (Option.isSome_of_eq_some hp))).symm

/-! ## The place of the body -/

/-- The lines of the head without the first. -/
def headerLines (text : Bytes) : List Bytes :=
  match findCrlf text with
  | none => []
  | some headEnd => (crlfLines (text.take headEnd)).tail

/-- A text that is cut at the end of its head. -/
theorem exists_of_findCrlf {headEnd : ℕ} (h : findCrlf text = some headEnd) :
    ∃ s t, text = s ++ CR :: LF :: CR :: LF :: t ∧ s.length = headEnd := by
  have hle := findBy_add_length_le h
  obtain ⟨t, hcut, -⟩ := exists_of_findBy (by decide) h
  exact ⟨text.take headEnd, t, hcut, by rw [List.length_take, min_eq_left (by omega)]⟩

/-- **The place that `parseField` finds** is behind the head exactly if all header lines have a
`": "`. -/
theorem parseField_text (rest : Bytes) (o : CHttpParser) (hzero : (0 : Byte) ∉ text) {headEnd : ℕ}
    (hhead : findCrlf text = some headEnd) {n : ℤ} (hn : 0 < n) :
    ∃ o₁, o.parseField (text ++ 0 :: rest) (headEnd + 4 + n) = .ok (true, o₁) ∧
      (o₁.pszContent = some ((text ++ 0 :: rest).drop (headEnd + 4)) ↔
        ∀ l ∈ headerLines text, ascii ": " <:+: l) := by
  have hfull : findCrlf (text ++ 0 :: rest) = some headEnd := findBy_append (0 :: rest) hhead
  have hlines : headerLines text = (crlfLines (text.take headEnd)).tail := by
    rw [headerLines, hhead]
  obtain ⟨s, t, rfl, rfl⟩ := exists_of_findCrlf hhead
  have hmem : s ++ CR :: LF :: CR :: LF :: t ++ 0 :: rest =
      s ++ CR :: LF :: CR :: LF :: (t ++ 0 :: rest) := by
    rw [List.append_assoc]
    rfl
  have hbody : (s ++ CR :: LF :: CR :: LF :: (t ++ 0 :: rest)).drop (s.length + 4) =
      t ++ 0 :: rest := by
    rw [← List.drop_drop, List.drop_left]
    rfl
  have hzero' : (0 : Byte) ∉ s := fun h0 => hzero (List.mem_append_left _ h0)
  rw [hlines, List.take_left, hmem, hbody]
  rw [hmem] at hfull
  generalize t ++ 0 :: rest = body at hfull
  rcases crlf_cases s with hone | ⟨l, r, rfl, hl⟩
  · have hdrop : (s ++ CR :: LF :: CR :: LF :: body).drop (s.length + 2) = CR :: LF :: body := by
      rw [← List.drop_drop, List.drop_left]
      rfl
    have hleft : (s.length + 4 + n : ℤ) - (s.length + 2) = 2 + n := by omega
    rw [CHttpParser.parseField, strstr_line hone hzero']
    simp only [hdrop, hleft, fieldLoop_blank, Outcome.ok_bind, if_pos (show 2 < 2 + n by omega)]
    refine ⟨_, rfl, iff_of_true rfl ?_⟩
    rw [crlfLines_single hone]
    exact fun l hl => absurd hl List.not_mem_nil
  · have hdata : l ++ CR :: LF :: r ++ CR :: LF :: CR :: LF :: body =
        l ++ CR :: LF :: (r ++ CR :: LF :: CR :: LF :: body) := by
      rw [List.append_assoc]
      rfl
    rw [hdata] at hfull ⊢
    have hzero'' : (0 : Byte) ∉ l ∧ (0 : Byte) ∉ r := by
      simp only [List.mem_append, List.mem_cons, not_or] at hzero'
      exact ⟨hzero'.1, hzero'.2.2.2⟩
    have hrest := findBy_of_append_of_le hfull (by simp)
    have hr : findCrlf (CR :: LF :: (r ++ CR :: LF :: CR :: LF :: body)) =
        some (r.length + 2) := by
      rw [show findCrlf _ = _ from hrest]
      simp only [List.length_append, List.length_cons, Option.some.injEq]
      omega
    have hdrop : (l ++ CR :: LF :: (r ++ CR :: LF :: CR :: LF :: body)).drop (l.length + 2) =
        r ++ CR :: LF :: CR :: LF :: body := by
      rw [← List.drop_drop, List.drop_left]
      rfl
    have hleft : ((l ++ CR :: LF :: r).length + 4 + n : ℤ) - (l.length + 2) =
        r.length + 4 + n := by
      simp only [List.length_append, List.length_cons]
      omega
    obtain ⟨m', left', ptr', hloop, hpos, hptr⟩ := fieldLoop_walk hzero''.2 hr hn o.mapFields
    rw [CHttpParser.parseField, strstr_line hl hzero''.1]
    simp only [hdrop, hleft, hloop, Outcome.ok_bind, if_pos hpos]
    refine ⟨_, rfl, ?_⟩
    rw [Option.some.injEq, hptr, crlfLines_append hl, List.tail_cons]

/-! ## What keeps the body -/

namespace CHttpParser

/-- The body is the same as before. -/
structure SameBody (o o' : CHttpParser) : Prop where
  pszContent : o'.pszContent = o.pszContent
  nContentLen : o'.nContentLen = o.nContentLen

variable {o o' o₁ : CHttpParser}

theorem SameBody.trans (h : SameBody o o₁) (h' : SameBody o₁ o') : SameBody o o' :=
  ⟨h'.pszContent.trans h.pszContent, h'.nContentLen.trans h.nContentLen⟩

theorem sameBody_parseMethod {szMethod : Bytes} {type : HttpMethodType} {found : Bool}
    (h : o.parseMethod szMethod type = .ok (found, o')) : SameBody o o' := by
  obtain ⟨equal, -, h⟩ := Outcome.bind_eq_ok.mp h
  split at h
  · rw [← (Prod.mk.inj (Outcome.ok.inj h)).2]
    exact ⟨rfl, rfl⟩
  · split at h
    · rw [← (Prod.mk.inj (Outcome.ok.inj h)).2]
      exact ⟨rfl, rfl⟩
    · rw [← (Prod.mk.inj (Outcome.ok.inj h)).2]
      exact ⟨rfl, rfl⟩

theorem sameBody_splitTarget (o : CHttpParser) (pBegin : ℕ) :
    SameBody o (o.splitTarget pBegin).2 := by
  unfold splitTarget
  split
  · exact ⟨rfl, rfl⟩
  · split <;> exact ⟨rfl, rfl⟩

theorem sameBody_parseFirstLine {found : Bool} (h : o.parseFirstLine = .ok (found, o')) :
    SameBody o o' := by
  have hsplit : ∀ {o₁ : CHttpParser} {p : ℕ}, Outcome.ok (o₁.splitTarget p) = .ok (found, o') →
      SameBody o₁ o' := fun {o₁ p} h => by
    have hkeep := sameBody_splitTarget o₁ p
    rwa [Outcome.ok.inj h] at hkeep
  unfold parseFirstLine at h
  split at h
  · exact absurd h (by simp)
  · split at h
    · rw [← (Prod.mk.inj (Outcome.ok.inj h)).2]
      exact ⟨rfl, rfl⟩
    · obtain ⟨⟨found₁, o₁⟩, hget, h⟩ := Outcome.bind_eq_ok.mp h
      cases found₁ with
      | true => exact (sameBody_parseMethod hget).trans (hsplit h)
      | false =>
        obtain ⟨⟨found₂, o₂⟩, hpost, h⟩ := Outcome.bind_eq_ok.mp h
        have hkeep := (sameBody_parseMethod hget).trans (sameBody_parseMethod hpost)
        cases found₂ with
        | true => exact hkeep.trans (hsplit h)
        | false =>
          obtain ⟨⟨found₃, o₃⟩, hresp, h⟩ := Outcome.bind_eq_ok.mp h
          cases found₃ with
          | true => exact (hkeep.trans (sameBody_parseMethod hresp)).trans (hsplit h)
          | false => exact absurd h (by simp)

theorem sameBody_parseActParam (h : o.parseActParam = .ok o') : SameBody o o' := by
  unfold parseActParam at h
  split at h
  · rw [← Outcome.ok.inj h]
    exact ⟨rfl, rfl⟩
  · split at h
    · obtain ⟨paramParser, -, h⟩ := Outcome.bind_eq_ok.mp h
      rw [← Outcome.ok.inj h]
      exact ⟨rfl, rfl⟩
    · rw [← Outcome.ok.inj h]
      exact ⟨rfl, rfl⟩

theorem parseActParam_of_none (h : o.pszActParam = none) : o.parseActParam = .ok o := by
  rw [parseActParam, h]

/-- What `parseField` leaves alone. -/
theorem keeps_parseField {szHttpReq : Bytes} {total : ℤ} {found : Bool}
    (h : o.parseField szHttpReq total = .ok (found, o')) :
    o'.nContentLen = o.nContentLen ∧ o'.pszActParam = o.pszActParam := by
  unfold parseField at h
  split at h
  · rw [← (Prod.mk.inj (Outcome.ok.inj h)).2]
    exact ⟨rfl, rfl⟩
  · obtain ⟨r, -, h⟩ := Outcome.bind_eq_ok.mp h
    rw [← (Prod.mk.inj (Outcome.ok.inj h)).2]
    exact ⟨rfl, rfl⟩

/-- **What `parse_head` has found in the end, `parseField` has found.** -/
theorem exists_parseField_of_parseHead {mem : Bytes} {n total pos len ret : ℤ}
    {type : HttpParamType} (hlen : getLengthEx dm mem n = .ok (total, some (pos, len)))
    (h : o.parseHead dm mem n type = .ok (ret, o')) (hret : 0 < ret) :
    0 < total ∧ ∃ o₁, CHttpParser.parseField { o with nExtraParamType := type, nContentLen := len }
      mem total = .ok (true, o₁) ∧ SameBody o₁ o' := by
  rw [parseHead, hlen, Outcome.ok_bind] at h
  simp only [Option.map_some, Option.getD_some] at h
  split at h
  · next hle =>
    have hret' := (Prod.mk.inj (Outcome.ok.inj h)).1
    omega
  · next hpos =>
    refine ⟨not_le.mp hpos, ?_⟩
    obtain ⟨⟨ok, o₁⟩, hfield, h⟩ := Outcome.bind_eq_ok.mp h
    cases ok with
    | false =>
      have hret' := (Prod.mk.inj (Outcome.ok.inj h)).1
      omega
    | true =>
      obtain ⟨⟨ok, o₂⟩, hline, h⟩ := Outcome.bind_eq_ok.mp h
      cases ok with
      | false =>
        have hret' := (Prod.mk.inj (Outcome.ok.inj h)).1
        omega
      | true =>
        obtain ⟨o₃, hact, h⟩ := Outcome.bind_eq_ok.mp h
        rw [← (Prod.mk.inj (Outcome.ok.inj h)).2]
        exact ⟨o₁, hfield, (sameBody_parseFirstLine hline).trans (sameBody_parseActParam hact)⟩

end CHttpParser

/-! ## The two places -/

/-- A sum that was returned. -/
theorem withHead_eq_ok {headEnd : ℕ} {n total : ℤ} {c content : ℤ × ℤ}
    (h : withHead headEnd n c = .ok (total, some content)) (htotal : 0 < total) :
    content = c ∧ total = int32 (headEnd + 4) + c.2 ∧ total ≤ n := by
  unfold withHead at h
  split at h
  · exact absurd h (by simp)
  · split at h
    · rw [Outcome.ok.injEq, Prod.mk.injEq] at h
      omega
    · next hle =>
      rw [Outcome.ok.injEq, Prod.mk.injEq, Option.some.injEq] at h
      exact ⟨h.2.symm, h.1.symm, by omega⟩

/-- **Where a body is reported**, it stands behind the head, and the text reaches to its end. -/
theorem exists_of_getLengthEx (hzero : (0 : Byte) ∉ text) (hlt : text.length < 2 ^ 31)
    {n total pos len : ℤ}
    (h : getLengthEx dm (text ++ 0 :: rest) n = .ok (total, some (pos, len)))
    (htotal : 0 < total) (hpos : 0 < pos) :
    ∃ headEnd, findCrlf text = some headEnd ∧ pos = headEnd + 4 ∧ total = headEnd + 4 + len ∧
      total ≤ n := by
  have hmethod : CHttpParser.HasMethod text := by
    rcases CHttpParser.hasMethod_of_getLengthEx h htotal with h | h | h
    · exact Or.inl ((isPrefix_append_cons (by decide)).mp h)
    · exact Or.inr (Or.inl ((isPrefix_append_cons (by decide)).mp h))
    · exact Or.inr (Or.inr ((isPrefix_append_cons (by decide)).mp h))
  by_cases hget : ascii "GET " <+: text
  · rw [getLengthEx_of_get hzero hget] at h
    cases hhead : findCrlf text with
    | none =>
      rw [hhead] at h
      exact absurd (Outcome.ok.inj h) (by simp)
    | some headEnd =>
      rw [hhead] at h
      obtain ⟨hcontent, -, -⟩ := withHead_eq_ok h htotal
      have hpos' := (Prod.mk.inj hcontent).1
      omega
  · rw [getLengthEx_of_not_get hzero hmethod hget] at h
    cases hhead : findCrlf text with
    | none =>
      rw [hhead] at h
      exact absurd (Outcome.ok.inj h) (by simp)
    | some headEnd =>
      have hle : headEnd + 4 ≤ text.length := findBy_add_length_le hhead
      have hint : int32 ((headEnd : ℤ) + 4) = headEnd + 4 := int32_of_mem (by omega) (by omega)
      rw [hhead] at h
      obtain ⟨c, hc, h⟩ := Outcome.bind_eq_ok.mp h
      obtain ⟨rfl, htotal', hle'⟩ := withHead_eq_ok h htotal
      rw [contentLengthOf_text hzero, hint] at hc
      rw [hint] at htotal'
      refine ⟨headEnd, rfl, ?_, htotal', hle'⟩
      split at hc
      · have hpos' := (Prod.mk.inj (Outcome.ok.inj hc)).1
        omega
      · split at hc
        · exact absurd hc (by simp)
        · exact (Prod.mk.inj (Outcome.ok.inj hc)).1.symm

/-- Only the bytes of the length given are parsed. -/
theorem parse_append (p : CHttpParamParser) (a b : Bytes) :
    p.parse (a ++ b) a.length = p.parse a a.length := by
  have hread : readRange (a ++ b) 0 (a.length : ℤ).toNat =
      readRange a 0 (a.length : ℤ).toNat := by
    rw [Int.toNat_natCast, readRange_of_le (by rw [List.length_append]; omega),
      readRange_of_le (by omega), List.drop_zero, List.drop_zero, List.take_left, List.take_length]
  rw [CHttpParamParser.parse, CHttpParamParser.parse, hread]

/-- `m_pszContent` points to the place that was reported, and `parse_form_body` parses the `len`
bytes there, which are in the text, and no others. -/
def BodyFound (text rest : Bytes) (pos len : ℤ) (o : CHttpParser) : Prop :=
  o.pszContent = some ((text ++ 0 :: rest).drop pos.toNat) ∧
    ((text.drop pos.toNat).take len.toNat).length = len ∧
    o.parseFormBody = do
      let paramParser ← o.paramParser.parse ((text.drop pos.toNat).take len.toNat) len
      .ok { o with paramParser }

/-- **The two places agree** exactly if every header line has a `": "` in it. -/
theorem bodyFound_iff (hzero : (0 : Byte) ∉ text) (hlt : text.length < 2 ^ 31)
    {n total pos len ret : ℤ} (hn : n ≤ text.length) {o o' : CHttpParser} {type : HttpParamType}
    (hlen : getLengthEx dm (text ++ 0 :: rest) n = .ok (total, some (pos, len)))
    (hpos : 0 < pos) (hbody : 0 < len)
    (hhead : o.parseHead dm (text ++ 0 :: rest) n type = .ok (ret, o')) (hret : 0 < ret) :
    BodyFound text rest pos len o' ↔ ∀ l ∈ headerLines text, ascii ": " <:+: l := by
  obtain ⟨htotal, o₁, hfield, hsame⟩ :=
    CHttpParser.exists_parseField_of_parseHead hlen hhead hret
  obtain ⟨headEnd, hfind, rfl, rfl, hle⟩ := exists_of_getLengthEx hzero hlt hlen htotal hpos
  obtain ⟨o₂, hfield₂, hiff⟩ := parseField_text rest
    { o with nExtraParamType := type, nContentLen := len } hzero hfind hbody
  obtain rfl : o₁ = o₂ := (Prod.mk.inj (Outcome.ok.inj (hfield.symm.trans hfield₂))).2
  have hplace : ((headEnd : ℤ) + 4).toNat = headEnd + 4 := by omega
  rw [← hiff, BodyFound, hplace, hsame.pszContent, and_iff_left_of_imp]
  intro hcontent
  have hlenc : o'.nContentLen = len :=
    hsame.nContentLen.trans (CHttpParser.keeps_parseField hfield).1
  have hlength : ((text.drop (headEnd + 4)).take len.toNat).length = len := by
    rw [List.length_take, List.length_drop]
    omega
  refine ⟨hlength, ?_⟩
  have hmem : (text ++ 0 :: rest).drop (headEnd + 4) = (text.drop (headEnd + 4)).take len.toNat ++
      ((text.drop (headEnd + 4)).drop len.toNat ++ 0 :: rest) := by
    rw [← List.append_assoc, List.take_append_drop]
    exact List.drop_append_of_le_length (by omega)
  have hparse := parse_append o'.paramParser ((text.drop (headEnd + 4)).take len.toNat)
    ((text.drop (headEnd + 4)).drop len.toNat ++ 0 :: rest)
  rw [hlength, ← hmem] at hparse
  rw [CHttpParser.parseFormBody, hsame.pszContent, hcontent]
  simp only [hlenc, hparse]

/-! ## Two requests -/

/-- `parse_head` on a complete request for `/` by `POST`. -/
theorem exists_parseHead_root {n total pos len : ℤ} (hzero : (0 : Byte) ∉ text)
    (hlt : text.length < 2 ^ 31)
    (hline : CHttpParser.lineOf (text ++ 0 :: rest) = firstLineOf (ascii "POST") (ascii "/"))
    (hlen : getLengthEx dm (text ++ 0 :: rest) n = .ok (total, some (pos, len)))
    (htotal : 0 < total) (hpos : 0 < pos) (hbody : 0 < len) :
    ∃ o', CHttpParser.parseHead dm {} (text ++ 0 :: rest) n .all = .ok (total, o') := by
  obtain ⟨headEnd, hfind, -, rfl, -⟩ := exists_of_getLengthEx hzero hlt hlen htotal hpos
  obtain ⟨o₁, hfield, -⟩ := parseField_text rest
    { nExtraParamType := .all, nContentLen := len } hzero hfind hbody
  obtain ⟨z, hz⟩ := ClientRequest.strncpy_firstLineOf
    (w := ascii "POST") (t := ascii "/") (by decide) (by decide)
  have hfirst := CHttpParser.szFirstLine_parseField hfield
  rw [hline, hz] at hfirst
  have hcut : cutLine (ascii "POST") (ascii "/") z =
      ascii "POST " ++ (ascii "/" ++ 0 :: (ascii "HTTP/1.1" ++ 0 :: z)) := by
    rw [cutLine, if_neg (by decide)]
    rfl
  have hparse := parseFirstLine_post hfirst (by decide)
  have hsplit := splitTarget_of_notMem (o := { o₁ with
      szFirstLine := cutLine (ascii "POST") (ascii "/") z, nHttpMethod := .post }) hcut
    (by decide) (by decide) (by simp)
  rw [show (ascii "POST ").length = 5 from rfl] at hsplit
  rw [hsplit] at hparse
  exact ⟨_, parseHead_of hlen htotal hfield hparse
    (CHttpParser.parseActParam_of_none (CHttpParser.keeps_parseField hfield).2)⟩

/-- A request with two header lines. -/
def twoFields : Bytes := ascii "POST / HTTP/1.1\r\nA: b\r\nContent-Length: 1\r\n\r\nx"

/-- Its body is found. -/
theorem bodyFound_twoFields_iff :
    ∃ o', CHttpParser.parseHead .lp64 {} (twoFields ++ [0]) 45 .all = .ok (45, o') ∧
      (BodyFound twoFields [] 44 1 o' ↔ ∀ l ∈ headerLines twoFields, ascii ": " <:+: l) := by
  have hlen : getLengthEx .lp64 (twoFields ++ [0]) 45 = .ok (45, some (44, 1)) := by
    decide +kernel
  obtain ⟨o', hhead⟩ := exists_parseHead_root (by decide) (by decide)
    (by decide) hlen (by decide) (by decide) (by decide)
  exact ⟨o', hhead, bodyFound_iff (by decide) (by decide) (by decide) hlen
    (by decide) (by decide) hhead (by decide)⟩

/-- A request whose second header line has no blank behind the colon. -/
def tightField : Bytes := ascii "POST / HTTP/1.1\r\nContent-Length: 1\r\nA:b\r\n\r\nx"

/-- **The loop stops at the line without a blank**, and takes what is behind its first two bytes
for the body. -/
theorem tightField_not_bodyFound :
    ∃ o', CHttpParser.parseHead .lp64 {} (tightField ++ [0]) 44 .all = .ok (44, o') ∧
      getLengthEx .lp64 (tightField ++ [0]) 44 = .ok (44, some (43, 1)) ∧
      ¬ BodyFound tightField [] 43 1 o' := by
  have hlen : getLengthEx .lp64 (tightField ++ [0]) 44 = .ok (44, some (43, 1)) := by
    decide +kernel
  have hzero : (0 : Byte) ∉ tightField := by decide
  obtain ⟨o', hhead⟩ := exists_parseHead_root hzero (by decide) (by decide) hlen
    (by decide) (by decide) (by decide)
  refine ⟨o', hhead, hlen, ?_⟩
  intro hfound
  obtain ⟨-, o₁, hfield, hsame⟩ :=
    CHttpParser.exists_parseField_of_parseHead hlen hhead (by decide)
  have hfind : findCrlf tightField = some 39 := by decide
  obtain ⟨o₂, hfield₂, hiff⟩ := parseField_text []
    { nExtraParamType := .all, nContentLen := 1 } hzero hfind Int.one_pos
  obtain rfl : o₁ = o₂ := (Prod.mk.inj (Outcome.ok.inj (hfield.symm.trans hfield₂))).2
  have hlines := hiff.mp (hsame.pszContent.symm.trans hfound.1)
  have hhave : headerLines tightField = [ascii "Content-Length: 1", ascii "A:b"] := by
    rw [headerLines, hfind]
    show (crlfLines (ascii "POST / HTTP/1.1" ++ CR :: LF ::
      (ascii "Content-Length: 1" ++ CR :: LF :: ascii "A:b"))).tail = _
    rw [crlfLines_append (by decide), crlfLines_append (by decide),
      crlfLines_single (by decide), List.tail_cons]
  rw [hhave] at hlines
  exact absurd (hlines (ascii "A:b") (by simp)) (by decide)

end HttpCodec
end CModel
