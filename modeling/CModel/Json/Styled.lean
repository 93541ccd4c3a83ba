import CModel.Json.Written

/-!
# What the styled writers write is JSON

`StyledWriter` and `StyledStreamWriter`, on values without comments.

* `Appends`: a piece is appended to the document, at the same indentation.
* `appends_children`: elements or members on lines of their own.
* `isMultineArray_of`: the two ways in which the elements of an array are looked at first.
* `StyledWriter.parse_styled`: what is written is read as the normal form.
-/

namespace CModel
namespace Json

variable {R : Type} {scan : Bytes → Option R} {print : R → Bytes}

/-- Values without comments; the number of members is an `unsigned`. -/
inductive Value.Plain : Value R → Prop where
  | scalar (s : Scalar R) : Plain (.scalar {} s)
  | map (k : MapType) (m : List (CZString × Value R)) : m.length < 2 ^ 32 →
      (∀ e ∈ m, Plain e.2) → Plain (.map {} k m)

theorem Value.Plain.comments_eq {v : Value R} (h : v.Plain) : v.comments = {} := by
  cases h <;> rfl

namespace StyledWriter

/-! ## Pieces of the document -/

/-- The writer outside a line: what it indents with is blank. -/
structure Ready (w : StyledWriter) : Prop where
  indentString : Blank w.indentString
  indentation : Blank w.indentation
  addChildValues : w.addChildValues = false

/-- A piece for which `Q` holds is appended; nothing else changes, the child values apart. -/
def Appends (write : StyledWriter → Option StyledWriter) (Q : Bytes → Prop) : Prop :=
  ∀ w : StyledWriter, w.Ready → ∃ doc childValues,
    write w = some { w with document := w.document ++ doc, childValues := childValues } ∧ Q doc

/-- A value of a line is put with the child values. -/
def Pushes (write : StyledWriter → Option StyledWriter) (Q : Bytes → Prop) : Prop :=
  ∃ text, Q text ∧ ∀ w : StyledWriter, write w = some (w.pushValue text)

theorem Ready.child {w : StyledWriter} (h : w.Ready) (document : Bytes) (childValues : List Bytes) :
    Ready { w with document := document, childValues := childValues } :=
  ⟨h.indentString, h.indentation, h.addChildValues⟩

theorem Pushes.appends {write : StyledWriter → Option StyledWriter} {Q : Bytes → Prop}
    (h : Pushes write Q) : Appends write Q := by
  obtain ⟨text, hQ, hwrite⟩ := h
  intro w hw
  refine ⟨text, w.childValues, ?_, hQ⟩
  rw [hwrite, pushValue, if_neg (by rw [hw.addChildValues]; decide)]
  rfl

/-- Only blanks are written for an indentation. -/
theorem writeIndent_eq (w : StyledWriter) (h : w.Ready) :
    ∃ ws, Blank ws ∧ w.writeIndent = { w with document := w.document ++ ws } := by
  have hline : Blank (LF :: w.indentString) := by
    intro c hc
    rcases List.mem_cons.mp hc with rfl | hc
    · rfl
    · exact h.indentString c hc
  rw [writeIndent]
  split
  · exact ⟨_, hline, rfl⟩
  · split
    · exact ⟨_, h.indentString, rfl⟩
    · split
      · exact ⟨[], blank_nil, by rw [List.append_nil]⟩
      · split
        · exact ⟨_, h.indentString, rfl⟩
        · exact ⟨_, hline, rfl⟩

theorem writeCommentBeforeValue_plain {v : Value R} (h : v.comments = {}) (w : StyledWriter) :
    w.writeCommentBeforeValue v = w := by
  rw [writeCommentBeforeValue, Value.hasComment, h]
  rfl

theorem writeCommentAfterValueOnSameLine_plain {v : Value R} (h : v.comments = {})
    (w : StyledWriter) : w.writeCommentAfterValueOnSameLine v = w := by
  rw [writeCommentAfterValueOnSameLine, Value.hasComment, Value.hasComment, h]
  rfl

/-- The elements or members, with commas between them. -/
theorem appends_children {α : Type} {valueOf : α → Value R}
    {write : α → StyledWriter → Option StyledWriter} {Q : α → Bytes → Prop} {l : List α}
    (hne : l ≠ []) (h : ∀ a ∈ l, (valueOf a).comments = {} ∧ Appends (write a) (Q a)) :
    Appends (writeChildren valueOf write l)
      fun doc => ∃ docs, doc = FastWriter.join docs ∧ List.Forall₂ Q l docs := by
  induction l with
  | nil => exact absurd rfl hne
  | cons a l ih =>
    obtain ⟨⟨hcomments, ha⟩, hl⟩ := List.forall_mem_cons.mp h
    intro w hw
    obtain ⟨doc, childValues, hwrite, hQ⟩ := ha w hw
    cases l with
    | nil =>
      refine ⟨doc, childValues, ?_, [doc], (join_singleton doc).symm, .cons hQ .nil⟩
      rw [writeChildren, writeCommentBeforeValue_plain hcomments, hwrite]
      exact congrArg some (writeCommentAfterValueOnSameLine_plain hcomments _)
    | cons b l =>
      obtain ⟨doc', childValues', hwrite', docs, rfl, hall⟩ := ih (List.cons_ne_nil _ _) hl
        { w with document := w.document ++ doc ++ [comma], childValues := childValues }
        (hw.child _ _)
      have hdocs : docs ≠ [] := by
        rintro rfl
        cases hall
      refine ⟨doc ++ comma :: FastWriter.join docs, childValues', ?_, doc :: docs,
        (join_cons hdocs).symm, .cons hQ hall⟩
      rw [writeChildren, writeCommentBeforeValue_plain hcomments, hwrite]
      · simp only [Option.bind_eq_bind, Option.bind_some,
          writeCommentAfterValueOnSameLine_plain hcomments]
        refine hwrite'.trans ?_
        simp only [List.append_assoc, List.singleton_append]
      · exact List.cons_ne_nil _ _

/-- What stands between brackets, indented. -/
theorem appends_block {write : StyledWriter → Option StyledWriter} {Q : Bytes → Prop}
    (h : Appends write Q) (openText closeText : Bytes) :
    Appends (fun w => do
        let w ← write ((w.writeWithIndent openText).indent)
        let w ← w.unindent
        some (w.writeWithIndent closeText))
      fun doc => ∃ ws text ws', Blank ws ∧ Q text ∧ Blank ws' ∧
        doc = ws ++ (openText ++ (text ++ (ws' ++ closeText))) := by
  intro w hw
  obtain ⟨ws, hws, hopen⟩ := writeIndent_eq w hw
  obtain ⟨text, childValues, hwrite, hQ⟩ := h
    { w with document := w.document ++ ws ++ openText,
             indentString := w.indentString ++ w.indentation }
    ⟨blank_append hw.indentString hw.indentation, hw.indentation, hw.addChildValues⟩
  obtain ⟨ws', hws', hclose⟩ := writeIndent_eq
    { w with document := w.document ++ ws ++ openText ++ text, childValues := childValues }
    (hw.child _ _)
  refine ⟨_, childValues, ?_, ws, text, ws', hws, hQ, hws', rfl⟩
  have hunindent : unindent { w with document := w.document ++ ws ++ openText ++ text,
                                     indentString := w.indentString ++ w.indentation,
                                     childValues := childValues } =
      some { w with document := w.document ++ ws ++ openText ++ text,
                    childValues := childValues } := by
    have hle : w.indentation.length ≤ (w.indentString ++ w.indentation).length := by
      rw [List.length_append]
      omega
    have htake : (w.indentString ++ w.indentation).take
        ((w.indentString ++ w.indentation).length - w.indentation.length) = w.indentString := by
      rw [List.length_append, Nat.add_sub_cancel, List.take_left]
    rw [unindent, if_pos hle]
    simp only [htake]
  have hindent : (w.writeWithIndent openText).indent =
      { w with document := w.document ++ ws ++ openText,
               indentString := w.indentString ++ w.indentation } := by
    rw [writeWithIndent, hopen]
    rfl
  simp only [hindent, hwrite, Option.bind_eq_bind, Option.bind_some, hunindent]
  rw [writeWithIndent, hclose]
  simp only [append, List.append_assoc]

/-! ## Arrays -/

/-- A value as an element or a member. -/
def childOf (print : R → Bytes) (v : Value R) : Child R := ⟨v, writeValue print v⟩

theorem childOf_null : childOf print .null = Child.null := rfl

theorem writeEntries_eq (m : List (CZString × Value R)) :
    writeEntries print m = m.map fun e => (e.1, childOf print e.2) := by
  induction m with
  | nil => rfl
  | cons e m ih =>
    rw [writeEntries, ih, List.map_cons]
    rfl

theorem writeValue_array (c : Comments) (m : List (CZString × Value R)) :
    writeValue print (.map c .array m) =
      writeArrayValue ((elementsOf m (Value.arraySize m) .null).map (childOf print)) := by
  rw [writeValue, writeEntries_eq, ← @childOf_null R print, elementsOf_map]

theorem writeValue_object (c : Comments) (m : List (CZString × Value R)) :
    writeValue print (.map c .object m) =
      writeObjectValue ((membersOf m .null).map fun member =>
        (member.1, childOf print member.2)) := by
  rw [writeValue, writeEntries_eq, ← @childOf_null R print, membersOf_map]

/-- The elements that make an array one of several lines. -/
def isNested (v : Value R) : Bool := (v.isArray || v.isObject) && 0 < v.size

/-- What is written for a value is JSON for its normal form. -/
def Spelled (scan : Bytes → Option R) (print : R → Bytes) (v : Value R) (doc : Bytes) : Prop :=
  ∀ n, v.normal scan print = some n → Document scan n doc

/-- The loop over the elements puts the text of each with the child values. -/
theorem lineLoop_of {l : List (Value R)}
    (h : ∀ v ∈ l, Pushes (writeValue print v) (Spelled scan print v)) (lineLength : ℕ)
    (w : StyledWriter) (hw : w.addChildValues = true) :
    ∃ lineLength' texts, lineLoop (l.map (childOf print)) w.childValues.length lineLength w =
      some (lineLength', { w with childValues := w.childValues ++ texts }) ∧
        List.Forall₂ (Spelled scan print) l texts := by
  induction l generalizing lineLength w with
  | nil => exact ⟨lineLength, [], by rw [List.append_nil]; rfl, .nil⟩
  | cons v l ih =>
    obtain ⟨⟨text, hQ, hwrite⟩, hl⟩ := List.forall_mem_cons.mp h
    have hpush : (childOf print v).write w =
        some { w with childValues := w.childValues ++ [text] } := by
      refine (hwrite w).trans ?_
      rw [pushValue, if_pos hw]
    obtain ⟨lineLength', texts, hloop, hall⟩ := ih hl (lineLength + text.length)
      { w with childValues := w.childValues ++ [text] } hw
    refine ⟨lineLength', text :: texts, ?_, .cons hQ hall⟩
    rw [List.map_cons, lineLoop, hpush]
    simp only [Option.bind_eq_bind, Option.bind_some, List.getElem?_concat_length]
    simp only [List.length_append, List.length_singleton, List.append_assoc,
      List.singleton_append] at hloop
    exact hloop

/-- **Either nothing is written for the elements yet, or each of them has its text.** -/
theorem isMultineArray_of {l : List (Value R)}
    (h : ∀ v ∈ l, isNested v = false → Pushes (writeValue print v) (Spelled scan print v))
    {w : StyledWriter} (hw : w.Ready) :
    isMultineArray (l.map (childOf print)) w = some (true, { w with childValues := [] }) ∨
      ∃ multi texts, isMultineArray (l.map (childOf print)) w =
        some (multi, { w with childValues := texts }) ∧
          List.Forall₂ (Spelled scan print) l texts := by
  rw [isMultineArray]
  split
  · exact Or.inl rfl
  · next hline =>
    refine Or.inr ?_
    rw [Bool.or_eq_true, not_or] at hline
    have hnested : ∀ v ∈ l, isNested v = false := by
      intro v hv
      have hany := hline.2
      rw [Bool.not_eq_true, List.any_eq_false] at hany
      exact Bool.eq_false_iff.mpr (hany (childOf print v) (List.mem_map_of_mem hv))
    obtain ⟨lineLength, texts, hloop, hall⟩ := lineLoop_of (fun v hv => h v hv (hnested v hv))
      (4 + ((l.map (childOf print)).length - 1) * 2)
      { w with childValues := [], addChildValues := true } rfl
    refine ⟨decide (rightMargin ≤ lineLength), texts, ?_, hall⟩
    simp only [List.length_nil, List.nil_append] at hloop
    simp only [hloop, Option.bind_eq_bind, Option.bind_some, hw.addChildValues]

theorem Spelled.pad {v : Value R} {doc ws ws' : Bytes} (h : Spelled scan print v doc)
    (hws : Blank ws) (hws' : Blank ws') : Spelled scan print v (ws ++ (doc ++ ws')) :=
  fun n hn => (h n hn).pad hws hws'

/-- A piece on a line of its own. -/
theorem Appends.indented {write : StyledWriter → Option StyledWriter} {Q : Bytes → Prop}
    (h : Appends write Q) :
    Appends (fun w => write w.writeIndent) fun doc => ∃ ws text, Blank ws ∧ Q text ∧
      doc = ws ++ text := by
  intro w hw
  obtain ⟨ws, hws, hindent⟩ := writeIndent_eq w hw
  obtain ⟨text, childValues, hwrite, hQ⟩ := h { w with document := w.document ++ ws }
    (hw.child _ w.childValues)
  refine ⟨ws ++ text, childValues, ?_, ws, text, hws, hQ, rfl⟩
  change write w.writeIndent = _
  rw [hindent, hwrite]
  simp only [List.append_assoc]

theorem Appends.imp {write : StyledWriter → Option StyledWriter} {Q Q' : Bytes → Prop}
    (h : Appends write Q) (hQ : ∀ doc, Q doc → Q' doc) : Appends write Q' := by
  intro w hw
  obtain ⟨doc, childValues, hwrite, hdoc⟩ := h w hw
  exact ⟨doc, childValues, hwrite, hQ doc hdoc⟩

/-- The elements of a line, each with the blank behind its comma. -/
theorem join_line {texts : List Bytes} (hne : texts ≠ []) :
    32 :: (texts.intersperse (ascii ", ")).flatten = FastWriter.join (texts.map (32 :: ·)) := by
  induction texts with
  | nil => exact absurd rfl hne
  | cons text texts ih =>
    have hcomma : ascii ", " = [comma, 32] := by decide
    cases texts with
    | nil => simp [FastWriter.join]
    | cons text' texts =>
      have ih := ih (List.cons_ne_nil _ _)
      rw [List.map_cons, join_cons (List.map_eq_nil_iff.not.mpr (List.cons_ne_nil _ _)), ← ih,
        List.intersperse_cons_cons, List.flatten_cons, List.flatten_cons, hcomma]
      rfl

/-- What is known of an element or a member. -/
structure Element (scan : Bytes → Option R) (print : R → Bytes) (v : Value R) : Prop where
  comments : v.comments = {}
  appends : Appends (writeValue print v) (Spelled scan print v)
  pushes : isNested v = false → Pushes (writeValue print v) (Spelled scan print v)

/-- What stands for the elements between the brackets. -/
def Elements (scan : Bytes → Option R) (print : R → Bytes) (l : List (Value R)) (doc : Bytes) :
    Prop :=
  ∃ docs, doc = FastWriter.join docs ∧ List.Forall₂ (Spelled scan print) l docs

/-- The elements on lines of their own, written one by one. -/
theorem appends_elements {l : List (Value R)} (hne : l ≠ []) (h : ∀ v ∈ l, Element scan print v) :
    Appends (writeChildren Child.value (fun child w => child.write w.writeIndent)
      (l.map (childOf print))) (Elements scan print l) := by
  refine (appends_children (Q := fun child doc => Spelled scan print child.value doc)
    (List.map_eq_nil_iff.not.mpr hne) ?_).imp ?_
  · intro child hchild
    obtain ⟨v, hv, rfl⟩ := List.mem_map.mp hchild
    refine ⟨(h v hv).comments, ((h v hv).appends.indented).imp ?_⟩
    rintro doc ⟨ws, text, hws, htext, rfl⟩
    have hpad := htext.pad hws blank_nil
    rwa [List.append_nil] at hpad
  · rintro doc ⟨docs, rfl, hall⟩
    rw [List.forall₂_map_left_iff] at hall
    exact ⟨docs, rfl, hall⟩

/-- The elements on lines of their own, with the texts that are there. -/
theorem appends_texts {l : List (Value R)} {texts : List Bytes} (hne : l ≠ [])
    (hcomments : ∀ v ∈ l, v.comments = {}) (h : List.Forall₂ (Spelled scan print) l texts) :
    Appends (writeChildren (fun e : Child R × Bytes => e.1.value)
      (fun e w => some (w.writeWithIndent e.2)) ((l.map (childOf print)).zip texts))
      (Elements scan print l) := by
  have hlen : (l.map (childOf print)).length = texts.length := by
    rw [List.length_map, h.length_eq]
  have hzip : (l.map (childOf print)).zip texts ≠ [] := by
    intro hnil
    have hlength := congrArg List.length hnil
    rw [List.length_zip, ← hlen, Nat.min_self, List.length_map] at hlength
    exact hne (List.eq_nil_of_length_eq_zero hlength)
  have hmap : List.Forall₂ (fun child doc => Spelled scan print child.value doc)
      (l.map (childOf print)) texts := List.forall₂_map_left_iff.mpr h
  refine (appends_children (Q := fun e doc => Spelled scan print e.1.value doc) hzip ?_).imp ?_
  · rintro ⟨child, text⟩ he
    obtain ⟨v, hv, rfl⟩ := List.mem_map.mp (List.of_mem_zip he).1
    refine ⟨hcomments v hv, ?_⟩
    intro w hw
    obtain ⟨ws, hws, hindent⟩ := writeIndent_eq w hw
    refine ⟨ws ++ text, w.childValues, ?_, ?_⟩
    · change some (w.writeIndent.append text) = _
      rw [hindent]
      simp only [append, List.append_assoc]
    · have hpad := (List.forall₂_zip hmap he : Spelled scan print v text).pad hws blank_nil
      rwa [List.append_nil] at hpad
  · rintro doc ⟨docs, rfl, hall⟩
    refine ⟨docs, rfl, ?_⟩
    have hfst : List.Forall₂ (fun child doc => Spelled scan print child.value doc)
        (((l.map (childOf print)).zip texts).map Prod.fst) docs :=
      List.forall₂_map_left_iff.mpr hall
    rw [List.map_fst_zip (Nat.le_of_eq hlen), List.forall₂_map_left_iff] at hfst
    exact hfst

theorem document_forall₂ {l vs : List (Value R)} {docs : List Bytes}
    (h : List.Forall₂ (Spelled scan print) l docs)
    (hvs : List.Forall₂ (fun v n => v.normal scan print = some n) l vs) :
    List.Forall₂ (Document scan) vs docs := by
  induction h generalizing vs with
  | nil =>
    cases hvs
    exact .nil
  | cons hdoc _ ih =>
    cases hvs with
    | cons hn hns => exact .cons (hdoc _ hn) (ih hns)

/-- The text of an array that is not empty. -/
theorem document_array {l vs : List (Value R)} {doc ws ws' : Bytes} (hne : l ≠ [])
    (h : Elements scan print l doc)
    (hvs : List.Forall₂ (fun v n => v.normal scan print = some n) l vs) (hws : Blank ws)
    (hws' : Blank ws') :
    Document scan (.map {} .array (putElements 0 vs []))
      (ws ++ ([bracketOpen] ++ (doc ++ (ws' ++ [bracketClose])))) := by
  obtain ⟨docs, rfl, hall⟩ := h
  have hvs' : vs ≠ [] := by
    rintro rfl
    cases hvs
    exact hne rfl
  have hspells := Spells.array (spells_elements hvs' (document_forall₂ hall hvs) hws' 0 [])
  have hpad := (document_of_spells hspells).pad hws blank_nil
  rwa [List.append_nil] at hpad

/-- The opening bracket leaves the child values. -/
theorem childValues_open (value : Bytes) (w : StyledWriter) :
    (w.writeWithIndent value).indent.childValues = w.childValues := by
  have hindent : w.writeIndent.childValues = w.childValues := by
    rw [writeIndent]
    split
    · rfl
    · split
      · rfl
      · split
        · rfl
        · split <;> rfl
  exact hindent

/-- `writeArrayValue` on elements each of which can be written. -/
theorem appends_writeArrayValue {l vs : List (Value R)} (h : ∀ v ∈ l, Element scan print v)
    (hvs : List.Forall₂ (fun v n => v.normal scan print = some n) l vs) :
    Appends (writeArrayValue (l.map (childOf print)))
      (Document scan (.map {} .array (putElements 0 vs []))) := by
  by_cases hne : l = []
  · subst hne
    cases hvs
    refine Pushes.appends ⟨ascii "[]", document_of_spells (.emptyArray blank_nil), fun w => ?_⟩
    rw [writeArrayValue]
    rfl
  have hlen : (l.map (childOf print)).length ≠ 0 := by
    rw [List.length_map]
    exact fun h0 => hne (List.eq_nil_of_length_eq_zero h0)
  have hopen : ascii "[" = [bracketOpen] := by decide
  have hclose : ascii "]" = [bracketClose] := by decide
  intro w hw
  rcases isMultineArray_of (fun v hv => (h v hv).pushes) hw with
    hmulti | ⟨multi, texts, hmulti, hall⟩
  · obtain ⟨doc, childValues, hwrite, ws, text, ws', hws, htext, hws', rfl⟩ :=
      appends_block (appends_elements hne h) (ascii "[") (ascii "]") _ (hw.child w.document [])
    rw [hopen, hclose] at hwrite
    refine ⟨_, childValues, ?_, document_array hne htext hvs hws hws'⟩
    rw [writeArrayValue, if_neg hlen, hmulti]
    simp only [Option.bind_eq_bind, Option.bind_some, if_true, hopen, hclose, childValues_open,
      List.isEmpty_nil, Bool.not_true, Bool.false_eq_true, if_false]
    exact hwrite
  · have hlength : texts.length = (l.map (childOf print)).length := by
      rw [List.length_map, hall.length_eq]
    have htexts : texts ≠ [] := by
      rintro rfl
      exact hlen hlength.symm
    cases multi with
    | true =>
      obtain ⟨doc, childValues, hwrite, ws, text, ws', hws, htext, hws', rfl⟩ :=
        appends_block (appends_texts hne (fun v hv => (h v hv).comments) hall) (ascii "[")
          (ascii "]") _ (hw.child w.document texts)
      rw [hopen, hclose] at hwrite
      refine ⟨_, childValues, ?_, document_array hne htext hvs hws hws'⟩
      rw [writeArrayValue, if_neg hlen, hmulti]
      have hempty : texts.isEmpty = false := by
        rw [List.isEmpty_eq_false_iff]
        exact htexts
      simp only [Option.bind_eq_bind, Option.bind_some, if_true, childValues_open, hempty,
        Bool.not_false, hlength, Nat.lt_irrefl, if_false, hopen, hclose]
      exact hwrite
    | false =>
      refine ⟨_, texts, ?_, document_array hne ⟨texts.map (32 :: ·), rfl, ?_⟩ hvs blank_nil
        blank_space⟩
      · rw [writeArrayValue, if_neg hlen, hmulti]
        have hline : ascii "[ " = [bracketOpen] ++ [32] := by decide
        have hline' : ascii " ]" = [32] ++ [bracketClose] := by decide
        simp only [Option.bind_eq_bind, Option.bind_some, Bool.false_eq_true, if_false, hlength,
          if_true, append, hline, hline', ← join_line htexts, List.nil_append, List.cons_append]
      · refine List.forall₂_map_right_iff.mpr (hall.imp fun v text htext => ?_)
        have hpad := htext.pad blank_space blank_nil
        rwa [List.append_nil] at hpad

/-! ## Objects -/

/-- What is written for a member is JSON for it. -/
def SpelledMember (scan : Bytes → Option R) (print : R → Bytes) (member : Bytes × Value R)
    (doc : Bytes) : Prop :=
  ∀ n, member.2.normal scan print = some n → MemberText scan (member.1, n) doc

/-- A member on a line of its own. -/
theorem appends_member {member : Bytes × Value R}
    (h : Appends (writeValue print member.2) (Spelled scan print member.2)) :
    Appends (fun w => (childOf print member.2).write
      ((w.writeWithIndent (valueToQuotedString member.1)).append (ascii " : ")))
      (SpelledMember scan print member) := by
  intro w hw
  obtain ⟨ws, hws, hindent⟩ := writeIndent_eq w hw
  obtain ⟨text, childValues, hwrite, htext⟩ := h
    { w with document := w.document ++ ws ++ valueToQuotedString member.1 ++ ascii " : " }
    (hw.child _ w.childValues)
  refine ⟨ws ++ (valueToQuotedString member.1 ++ (ascii " : " ++ text)), childValues, ?_, ?_⟩
  · change writeValue print member.2
      ((append (valueToQuotedString member.1) w.writeIndent).append (ascii " : ")) = _
    rw [hindent]
    refine hwrite.trans ?_
    simp only [List.append_assoc]
  · intro n hn
    have hcolon : ascii " : " = [32] ++ [colon, 32] := by decide
    refine ⟨ws, member.1.flatMap quoteChar, [32], [32] ++ (text ++ []), hws,
      stringBody_flatMap member.1, blank_space, (htext n hn).pad blank_space blank_nil, ?_⟩
    rw [valueToQuotedString_eq, nameText, hcolon]
    simp only [List.append_assoc, List.cons_append, List.nil_append, List.append_nil]

theorem memberText_forall₂ {l members : List (Bytes × Value R)} {docs : List Bytes}
    (h : List.Forall₂ (SpelledMember scan print) l docs)
    (hmembers : List.Forall₂ (fun member n => (Value.normal scan print member.2).map
      (member.1, ·) = some n) l members) :
    List.Forall₂ (MemberText scan) members docs := by
  induction h generalizing members with
  | nil =>
    cases hmembers
    exact .nil
  | cons hdoc _ ih =>
    cases hmembers with
    | cons hb hns =>
      obtain ⟨n, hn, rfl⟩ := Option.map_eq_some_iff.mp hb
      exact .cons (hdoc n hn) (ih hns)

/-- `writeValue` of an object each of whose members can be written. -/
theorem appends_writeObjectValue {l members : List (Bytes × Value R)}
    (h : ∀ member ∈ l, Element scan print member.2)
    (hmembers : List.Forall₂ (fun member n => (Value.normal scan print member.2).map
      (member.1, ·) = some n) l members) :
    Appends (writeObjectValue (l.map fun member => (member.1, childOf print member.2)))
      (Document scan (.map {} .object (putMembers members []))) := by
  by_cases hne : l = []
  · subst hne
    cases hmembers
    refine Pushes.appends
      ⟨ascii "\x7b\x7d", document_of_spells (.emptyObject blank_nil), fun w => ?_⟩
    rw [writeObjectValue]
    rfl
  have hempty : (l.map fun member => (member.1, childOf print member.2)).isEmpty = false := by
    rw [List.isEmpty_eq_false_iff]
    exact List.map_eq_nil_iff.not.mpr hne
  have hopen : ascii "\x7b" = [braceOpen] := by decide
  have hclose : ascii "\x7d" = [braceClose] := by decide
  have hbody : Appends (writeChildren (fun member : Bytes × Child R => member.2.value)
      (fun member w => member.2.write
        ((w.writeWithIndent (valueToQuotedString member.1)).append (ascii " : ")))
      (l.map fun member => (member.1, childOf print member.2)))
      fun doc => ∃ docs, doc = FastWriter.join docs ∧
        List.Forall₂ (SpelledMember scan print) l docs := by
    refine (appends_children
      (Q := fun member doc => SpelledMember scan print (member.1, member.2.value) doc)
      (List.map_eq_nil_iff.not.mpr hne) ?_).imp ?_
    · intro member hmember
      obtain ⟨member, hl, rfl⟩ := List.mem_map.mp hmember
      exact ⟨(h member hl).comments, appends_member (h member hl).appends⟩
    · rintro doc ⟨docs, rfl, hall⟩
      rw [List.forall₂_map_left_iff] at hall
      exact ⟨docs, rfl, hall⟩
  intro w hw
  obtain ⟨doc, childValues, hwrite, ws, text, ws', hws, ⟨docs, rfl, hall⟩, hws', rfl⟩ :=
    appends_block hbody (ascii "\x7b") (ascii "\x7d") w hw
  refine ⟨ws ++ (ascii "\x7b" ++ (FastWriter.join docs ++ (ws' ++ ascii "\x7d"))), childValues, ?_,
    ?_⟩
  · rw [writeObjectValue, if_neg (by rw [hempty]; decide)]
    exact hwrite
  · have hdocs := memberText_forall₂ hall hmembers
    have hne' : members ≠ [] := by
      rintro rfl
      cases hmembers
      exact hne rfl
    have hpad := (document_of_spells (Spells.object (spells_members hne' hdocs hws' []))).pad hws
      blank_nil
    rw [hopen, hclose]
    rwa [List.append_nil] at hpad

/-! ## Values -/

theorem spelled_of_document {v n : Value R} {doc : Bytes} (hn : v.normal scan print = some n)
    (h : Document scan n doc) : Spelled scan print v doc := by
  intro n' hn'
  obtain rfl := Option.some.inj (hn.symm.trans hn')
  exact h

theorem element_scalar {s : Scalar R} {n : Value R}
    (hn : (Value.scalar {} s).normal scan print = some n) :
    Element scan print (.scalar {} s) := by
  obtain ⟨n', hn', rfl⟩ := Option.map_eq_some_iff.mp hn
  obtain ⟨text, htext, hspells⟩ := spells_text hn'
  have hpushes : Pushes (writeValue print (.scalar {} s)) (Spelled scan print (.scalar {} s)) := by
    refine ⟨text, spelled_of_document hn (document_of_spells hspells), fun w => ?_⟩
    rw [writeValue, htext]
    rfl
  exact ⟨rfl, hpushes.appends, fun _ => hpushes⟩

/-- An array or an object in which there is nothing to write. -/
theorem pushes_empty {k : MapType} {m : List (CZString × Value R)} (hlen : m.length < 2 ^ 32)
    (h : isNested (.map {} k m) = false) :
    Pushes (writeValue print (.map {} k m)) (Spelled scan print (.map {} k m)) := by
  cases k with
  | array =>
    have hsize : Value.arraySize m = 0 := by
      change decide (0 < Value.arraySize m) = false at h
      exact Nat.eq_zero_of_not_pos (of_decide_eq_false h)
    refine ⟨ascii "[]", fun n hn => ?_, fun w => ?_⟩
    · rw [normal_array, hsize] at hn
      obtain rfl := Option.some.inj hn
      exact document_of_spells (.emptyArray blank_nil)
    · rw [writeValue_array, hsize]
      rfl
  | object =>
    have hsize : u32 m.length = 0 := by
      change decide (0 < u32 m.length) = false at h
      exact Nat.eq_zero_of_not_pos (of_decide_eq_false h)
    have hnil : m = [] := by
      have hmod : m.length % 2 ^ 32 = 0 := by
        have hcast : ((m.length : ℤ) % 2 ^ 32).toNat = 0 := hsize
        omega
      rw [Nat.mod_eq_of_lt hlen] at hmod
      exact List.eq_nil_of_length_eq_zero hmod
    subst hnil
    refine ⟨ascii "\x7b\x7d", fun n hn => ?_, fun w => ?_⟩
    · obtain rfl := Option.some.inj hn
      exact document_of_spells (.emptyObject blank_nil)
    · rw [writeValue_object]
      rfl

/-- **A value without comments can be written as an element or a member.** -/
theorem element_of (v : Value R) : v.Plain → ∀ {n : Value R}, v.normal scan print = some n →
    Element scan print v := by
  induction v with
  | scalar c s =>
    intro hplain n hn
    cases hplain
    exact element_scalar hn
  | map c k m ih =>
    intro hplain n hn
    cases hplain with
    | map _ _ hlen hm =>
    have hnull : Element scan print (.null : Value R) := element_scalar rfl
    cases k with
    | array =>
      rw [normal_array] at hn
      obtain ⟨vs, hvs, rfl⟩ := Option.map_eq_some_iff.mp hn
      have hforall := forall₂_of_mapM hvs
      have helements : ∀ v ∈ elementsOf m (Value.arraySize m) .null, Element scan print v := by
        intro v hv
        rcases mem_elementsOf hv with rfl | ⟨e, he, rfl⟩
        · exact hnull
        · obtain ⟨n, hn⟩ := exists_of_forall₂ hforall hv
          exact ih e he (hm e he) hn
      refine ⟨rfl, ?_, pushes_empty hlen⟩
      rw [writeValue_array]
      refine (appends_writeArrayValue helements hforall).imp fun doc hdoc => ?_
      refine spelled_of_document ?_ hdoc
      rw [normal_array, hvs]
      rfl
    | object =>
      rw [normal_object] at hn
      obtain ⟨members, hmembers, rfl⟩ := Option.map_eq_some_iff.mp hn
      have hforall := forall₂_of_mapM hmembers
      have helements : ∀ member ∈ membersOf m .null, Element scan print member.2 := by
        intro member hmember
        rcases mem_membersOf hmember with heq | ⟨e, he, heq⟩
        · rw [heq]
          exact hnull
        · obtain ⟨b, hb⟩ := exists_of_forall₂ hforall hmember
          obtain ⟨n, hn, -⟩ := Option.map_eq_some_iff.mp hb
          rw [← heq] at hn ⊢
          exact ih e he (hm e he) hn
      refine ⟨rfl, ?_, pushes_empty hlen⟩
      rw [writeValue_object]
      refine (appends_writeObjectValue helements hforall).imp fun doc hdoc => ?_
      refine spelled_of_document ?_ hdoc
      rw [normal_object, hmembers]
      rfl

/-- What is written is a document for the normal form. -/
theorem exists_document {v n : Value R} (h : v.normal scan print = some n) (hplain : v.Plain)
    {w : StyledWriter} (hw : Blank w.indentation) :
    ∃ doc, write print v w = some doc ∧ Document scan n doc := by
  have helement := element_of v hplain h
  obtain ⟨doc, childValues, hwrite, hdoc⟩ := helement.appends
    { w with document := [], addChildValues := false, indentString := [] } ⟨blank_nil, hw, rfl⟩
  refine ⟨doc ++ [LF], ?_, (hdoc n h).pad blank_nil blank_LF⟩
  rw [write]
  simp only [Option.bind_eq_bind, writeCommentBeforeValue_plain helement.comments, hwrite,
    Option.bind_some, writeCommentAfterValueOnSameLine_plain helement.comments, append,
    List.nil_append]

end StyledWriter

end Json
end CModel
