import CModel.Foundation.Feed
import CModel.HttpCodec.ReqSteps

/-!
# A request fed in chunks

`Framed` is the head of a message that `CHttpReq` accepts: a request line, attribute lines, an
empty line, and a length.  `Framed.Phase` says where the object stands when some of the bytes have
been fed, and depends on these bytes alone.

* `Framed.parse_phase`: **one call passes the phase on**, from any prefix to any longer one.
* `Framed.input_phase`: the same for `input`, with the buffer.
* `Framed.feed_phase`: **any cutting into chunks ends in the phase of the bytes fed**, every call
  returning `0`.
-/

namespace CModel
namespace HttpCodec

open CHttpReq

/-! ## The head of a message -/

/-- The head of a message that is accepted: its lines without line feeds, what the request line is
read as, and the length the header announces. -/
structure Framed (dm : DataModel) where
  line : Bytes
  fields : List Bytes
  blank : Bytes
  reqLine : CHttpRequestLine
  length : ℕ
  line_noLF : LF ∉ line
  fields_noLF : ∀ l ∈ fields, LF ∉ l
  fields_attr : ∀ l ∈ fields, IsAttr l
  fields_length : fields.length < cMaxHeadLine
  blank_noLF : LF ∉ blank
  blank_text : lineText blank = []
  /-- the request line is read in one way, whatever follows it -/
  parseLine_eq : ∀ rest, (line ++ LF :: rest).length < 2 ^ 32 →
    CHttpRequestLine.parseLine dm {} (line ++ LF :: rest) = .ok (reqLine, line.length + 1)
  contLen_eq : contLen ((({} : CHttpHeader).setLines fields)) = .ok length

theorem LF_notMem_CR : LF ∉ [CR] := by decide

theorem lineText_CR : lineText [CR] = [] := rfl

namespace Framed

variable {dm : DataModel} (F : Framed dm)

/-- The bytes of the head. -/
def head : Bytes := F.line ++ LF :: unlines (F.fields ++ [F.blank])

/-- The header when it is full. -/
def header : CHttpHeader := { ({} : CHttpHeader).setLines F.fields with full := true }

/-- Where the object stands when the bytes `P` have been fed. -/
inductive Phase : Bytes → CHttpReq → Prop
  /-- the request line has not ended -/
  | idle {P : Bytes} {o : CHttpReq} (hP : LF ∉ P) (ho : Idle o) : Phase P o
  /-- some attribute lines have ended -/
  | header {R : Bytes} {o : CHttpReq} (hR : (splitLines R).1 <+: F.fields)
      (ho : InHeader F.reqLine (({} : CHttpHeader).setLines (splitLines R).1)
        (F.line.length + 1 + (unlines (splitLines R).1).length) o) : Phase (F.line ++ LF :: R) o
  /-- the head is complete, and `rest` follows it -/
  | body {rest : Bytes} {o : CHttpReq}
      (ho : InBody F.reqLine F.header F.head.length F.length rest.length o) :
      Phase (F.head ++ rest) o

/-- The bytes are a part of the head, or go on behind it. -/
def Fits (P : Bytes) : Prop := P <+: F.head ∨ F.head <+: P

/-- Every prefix of a message with this head fits. -/
theorem fits_of_isPrefix {P M : Bytes} (hM : F.Fits M) (hP : P <+: M) : F.Fits P := by
  rcases hM with hM | hM
  · exact Or.inl (hP.trans hM)
  · exact List.prefix_or_prefix_of_prefix hP hM

/-- No line of the head has a line feed inside. -/
theorem lines_noLF : ∀ l ∈ F.fields ++ [F.blank], LF ∉ l := by
  simp only [List.mem_append, List.mem_singleton]
  rintro l (h | rfl)
  · exact F.fields_noLF l h
  · exact F.blank_noLF

theorem head_eq : F.head = unlines (F.line :: (F.fields ++ [F.blank])) :=
  (unlines_cons _ _).symm

theorem length_head : F.head.length =
    F.line.length + 1 + (unlines (F.fields ++ [F.blank])).length := by
  rw [head, List.length_append, List.length_cons]
  omega

/-- The three kinds of bytes that fit. -/
theorem fits_cases {P : Bytes} (h : F.Fits P) :
    LF ∉ P ∨ (∃ R, P = F.line ++ LF :: R ∧ (splitLines R).1 <+: F.fields) ∨
      ∃ rest, P = F.head ++ rest := by
  have hlines : ∀ l ∈ F.line :: (F.fields ++ [F.blank]), LF ∉ l :=
    List.forall_mem_cons.mpr ⟨F.line_noLF, F.lines_noLF⟩
  rcases h with h | ⟨rest, h⟩
  · rw [head_eq] at h
    obtain ⟨k, hk, t, ht, rfl⟩ := exists_of_prefix_unlines hlines h
    cases k with
    | zero => exact Or.inl (by simpa using ht)
    | succ k =>
      rw [List.take_succ_cons, unlines_cons, List.append_assoc] at h ⊢
      by_cases hlast : k ≤ F.fields.length
      · refine Or.inr (Or.inl ⟨_, rfl, ?_⟩)
        have hsplit : splitLines (unlines (F.fields.take k) ++ t) = (F.fields.take k, t) :=
          splitLines_unlines (fun l hl => F.fields_noLF l (List.mem_of_mem_take hl)) ht
        rw [List.take_append_of_le_length hlast]
        show (splitLines (unlines (F.fields.take k) ++ t)).1 <+: F.fields
        rw [hsplit]
        exact List.take_prefix _ _
      · rw [List.take_of_length_le (by simp; omega)]
        exact Or.inr (Or.inr ⟨t, by rw [head, List.append_assoc]⟩)
  · exact Or.inr (Or.inr ⟨rest, h.symm⟩)

/-! ## One call -/

section Call

variable {F} {o : CHttpReq} {R c : Bytes}

/-- What a call in the header has before it: the rest of a line, and the new bytes. -/
theorem drop_header (line R c : Bytes) :
    (line ++ LF :: (R ++ c)).drop (line.length + 1 + (unlines (splitLines R).1).length) =
      (splitLines R).2 ++ c := by
  rw [← List.drop_drop, ← List.drop_drop, List.drop_left]
  show (R ++ c).drop _ = _
  conv_lhs => rw [← unlines_splitLines R, List.append_assoc]
  rw [unlines_splitLines R]
  exact List.drop_left

theorem header_le_length (line R c : Bytes) :
    line.length + 1 + (unlines (splitLines R).1).length ≤ (line ++ LF :: (R ++ c)).length := by
  have hlen := congrArg List.length (unlines_splitLines R)
  rw [List.length_append] at hlen
  rw [List.length_append, List.length_cons, List.length_append]
  omega

/-- A call in the header that brings more attribute lines. -/
theorem parse_header_fields (ho : InHeader F.reqLine (({} : CHttpHeader).setLines (splitLines R).1)
      (F.line.length + 1 + (unlines (splitLines R).1).length) o)
    (hls : (splitLines (R ++ c)).1 <+: F.fields)
    (hlt : (F.line ++ LF :: (R ++ c)).length < 2 ^ 32) :
    ∃ o', o.parse dm (F.line ++ LF :: (R ++ c)) = some (0, o') ∧
      F.Phase (F.line ++ LF :: (R ++ c)) o' := by
  obtain ⟨hlsnew, htnew⟩ := LF_notMem_splitLines ((splitLines R).2 ++ c)
  have hdrop := drop_header F.line R c
  rw [← unlines_splitLines ((splitLines R).2 ++ c)] at hdrop
  have hsplit := splitLines_append R c
  generalize splitLines ((splitLines R).2 ++ c) = new at *
  have hlines := hls
  rw [hsplit] at hlines
  have hattr : ∀ l ∈ new.1, IsAttr l := fun l hl =>
    F.fields_attr l (hlines.subset (List.mem_append_right _ hl))
  have hlen : new.1.length ≤ cMaxHeadLine := by
    have h := hlines.length_le
    have h' := F.fields_length
    rw [List.length_append] at h
    omega
  have hwalk := walk_attrs hattr hlen (({} : CHttpHeader).setLines (splitLines R).1)
  have hwalked : walked (({} : CHttpHeader).setLines (splitLines R).1) new.1 =
      (unlines new.1).length := by
    rw [walked, hwalk, List.take_length]
  obtain ⟨o', ho', hin⟩ := parse_inHeader_open dm ho hlt (header_le_length F.line R c) hlsnew htnew
    hdrop (by rw [hwalk, full_setLines, full_setLines])
  refine ⟨o', ho', .header hls ?_⟩
  rw [hsplit, setLines_append, unlines_append, List.length_append, ← Nat.add_assoc]
  rw [hwalk, hwalked] at hin
  exact hin

/-- A call in the header that brings the remaining attribute lines, the empty line and what follows
it. -/
theorem parse_header_blank (ho : InHeader F.reqLine (({} : CHttpHeader).setLines (splitLines R).1)
      (F.line.length + 1 + (unlines (splitLines R).1).length) o)
    (hR : (splitLines R).1 <+: F.fields) {rest : Bytes}
    (hrest : F.line ++ LF :: (R ++ c) = F.head ++ rest)
    (hlt : (F.line ++ LF :: (R ++ c)).length < 2 ^ 32) :
    ∃ o', o.parse dm (F.line ++ LF :: (R ++ c)) = some (0, o') ∧
      F.Phase (F.line ++ LF :: (R ++ c)) o' := by
  obtain ⟨hlsnew, htnew⟩ := LF_notMem_splitLines ((splitLines R).2 ++ c)
  have hdrop := drop_header F.line R c
  rw [← unlines_splitLines ((splitLines R).2 ++ c)] at hdrop
  have hsplit := splitLines_append R c
  generalize splitLines ((splitLines R).2 ++ c) = new at *
  have hRc : R ++ c = unlines (F.fields ++ [F.blank]) ++ rest := by
    rw [head, List.append_assoc] at hrest
    exact List.cons_injective (List.append_cancel_left hrest)
  obtain ⟨k, hk⟩ := hR
  have hkattr : ∀ l ∈ k, IsAttr l := fun l hl =>
    F.fields_attr l (hk ▸ List.mem_append_right _ hl)
  have hklen : k.length < cMaxHeadLine := by
    have h := F.fields_length
    rw [← hk, List.length_append] at h
    omega
  have hnewls : new.1 = k ++ F.blank :: (splitLines rest).1 := by
    have h := congrArg Prod.fst hsplit
    rw [hRc, splitLines_unlines_append F.lines_noLF, ← hk, List.append_assoc,
      List.append_assoc] at h
    exact (List.append_cancel_left h).symm
  have hwalk := walk_attrs_blank hkattr F.blank_text (splitLines rest).1 hklen
    (({} : CHttpHeader).setLines (splitLines R).1)
  rw [← setLines_append, hk, ← hnewls] at hwalk
  have hwalked : F.line.length + 1 + (unlines (splitLines R).1).length +
      walked (({} : CHttpHeader).setLines (splitLines R).1) new.1 = F.head.length := by
    have htake : new.1.take (k.length + 1) = k ++ [F.blank] := by
      rw [hnewls, List.take_append, List.take_of_length_le (by omega), Nat.add_sub_cancel_left,
        List.take_succ_cons, List.take_zero]
    rw [walked, hwalk, htake, F.length_head, ← hk, List.append_assoc, unlines_append _ (k ++ _),
      List.length_append]
    omega
  obtain ⟨o', ho', hin, -⟩ := parse_inHeader_full dm ho hlt (header_le_length F.line R c) hlsnew
    htnew hdrop (by rw [hwalk]) (N := F.length) (by rw [hwalk]; exact F.contLen_eq)
  refine ⟨o', ho', ?_⟩
  rw [hrest]
  rw [hwalked, hwalk, hrest, List.length_append, Nat.add_sub_cancel_left] at hin
  exact .body hin

/-- A call in the header. -/
theorem parse_header (ho : InHeader F.reqLine (({} : CHttpHeader).setLines (splitLines R).1)
      (F.line.length + 1 + (unlines (splitLines R).1).length) o)
    (hR : (splitLines R).1 <+: F.fields) (hfits : F.Fits (F.line ++ LF :: (R ++ c)))
    (hlt : (F.line ++ LF :: (R ++ c)).length < 2 ^ 32) :
    ∃ o', o.parse dm (F.line ++ LF :: (R ++ c)) = some (0, o') ∧
      F.Phase (F.line ++ LF :: (R ++ c)) o' := by
  rcases F.fits_cases hfits with hno | ⟨R', hR', hls⟩ | ⟨rest, hrest⟩
  · exact absurd (List.mem_append_right _ List.mem_cons_self) hno
  · obtain rfl : R ++ c = R' := List.cons_injective (List.append_cancel_left hR')
    exact parse_header_fields ho hls hlt
  · exact parse_header_blank ho hR hrest hlt

/-- **One call passes the phase on.** -/
theorem parse_phase {P : Bytes} (hphase : F.Phase P o) (hfits : F.Fits (P ++ c))
    (hlt : (P ++ c).length < 2 ^ 32) :
    ∃ o', o.parse dm (P ++ c) = some (0, o') ∧ F.Phase (P ++ c) o' := by
  cases hphase with
  | header hR ho =>
    rw [List.append_assoc] at hfits hlt ⊢
    exact parse_header ho hR hfits hlt
  | body ho =>
    rename_i rest
    obtain ⟨o', ho', hin, -⟩ := parse_inBody dm (D := F.head ++ rest ++ c) ho
      (by simp only [List.length_append]; omega) hlt
    refine ⟨o', ho', ?_⟩
    rw [List.append_assoc, List.length_append, Nat.add_sub_cancel_left] at hin
    rw [List.append_assoc]
    exact .body hin
  | idle hP ho =>
    have hcall : ∀ R, P ++ c = F.line ++ LF :: R →
        ∃ o', o.parse dm (P ++ c) = some (0, o') ∧ F.Phase (P ++ c) o' := by
      intro R hR
      rw [hR] at hfits hlt ⊢
      obtain ⟨o₁, hparse, hin, -⟩ := parse_idle_of_ok ho (n := F.line.length + 1)
        (by rw [List.length_append, List.length_cons] at hlt; omega) (F.parseLine_eq R hlt)
      rw [hparse]
      exact parse_header (R := []) (c := R) hin (List.nil_prefix) hfits hlt
    rcases F.fits_cases hfits with hno | ⟨R, hR, -⟩ | ⟨rest, hrest⟩
    · have hret : CHttpRequestLine.parseLine dm {} (P ++ c) = .ret 0 := by
        rw [CHttpRequestLine.parseLine, getLine_of_notMem hno]
        rfl
      exact ⟨o, parse_idle_of_ret ho hret, .idle hno ho⟩
    · exact hcall R hR
    · exact hcall _ (by rw [hrest, head, List.append_assoc]; rfl)

end Call

/-! ## Any number of calls -/

theorem Phase.withBuffer {F : Framed dm} {P : Bytes} {o : CHttpReq} (h : F.Phase P o) (b n : ℕ) :
    F.Phase P (o.withBuffer b n) := by
  cases h with
  | idle hP ho => exact .idle hP (ho.withBuffer b n)
  | header hR ho => exact .header hR (ho.withBuffer b n)
  | body ho => exact .body (ho.withBuffer b n)

/-- The state after the bytes `P`: the buffer holds them, and the object is in their phase. -/
def After (P : Bytes) (s : Heap Byte × CHttpReq) : Prop := Owns s.1 s.2 P ∧ F.Phase P s.2

theorem after_fresh : F.After [] CHttpReq.fresh :=
  ⟨owns_fresh, .idle List.not_mem_nil idle_fresh⟩

variable {F}

/-- **One call of `input`.** -/
theorem input_phase {s : Heap Byte × CHttpReq} {P c : Bytes} (hs : F.After P s)
    (hfits : F.Fits (P ++ c)) (hlt : (P ++ c).length < 2 ^ 32) :
    ∃ s', CHttpReq.input dm s c = some (0, s') ∧ F.After (P ++ c) s' := by
  obtain ⟨h', b, hinput, -⟩ := input_of_lt dm hs.1 hlt
  obtain ⟨o', ho', hphase⟩ := parse_phase (hs.2.withBuffer b (P ++ c).length) hfits hlt
  obtain ⟨hin, hown⟩ := hinput 0 o' ho'
  exact ⟨(h', o'), hin, hown, hphase⟩

/-- **Any cutting of a message into chunks ends in the phase of the bytes fed.** -/
theorem feed_phase {M : Bytes} (hM : F.Fits M) (hlt : M.length < 2 ^ 32) {cs : List Bytes}
    (hcs : [] ∉ cs) (hpre : cs.flatten <+: M) :
    ∃ s, feed (CHttpReq.input dm) CHttpReq.fresh cs = some (0, s) ∧ F.After cs.flatten s :=
  feed_of_invariant (I := F.After) (M := M)
    (fun _ _ _ hs _ hPc => input_phase hs (F.fits_of_isPrefix hM hPc) (hPc.length_le.trans_lt hlt))
    cs [] CHttpReq.fresh F.after_fresh hcs hpre

/-- Attribute lines alone are not the whole head. -/
theorem ne_head_append {R : Bytes} (hR : (splitLines R).1 <+: F.fields) (rest : Bytes) :
    F.line ++ LF :: R ≠ F.head ++ rest := by
  intro h0
  rw [head, List.append_assoc] at h0
  have hR' : R = unlines (F.fields ++ [F.blank]) ++ rest :=
    List.cons_injective (List.append_cancel_left h0)
  rw [hR', splitLines_unlines_append F.lines_noLF] at hR
  have hlen := hR.length_le
  simp only [List.length_append, List.length_singleton] at hlen
  omega

theorem LF_mem_head (rest : Bytes) : LF ∈ F.head ++ rest := by
  rw [head, List.append_assoc]
  exact List.mem_append_right _ List.mem_cons_self

/-- **Behind the head the object is in the body.** -/
theorem inBody_of_phase {rest : Bytes} {o : CHttpReq} (h : F.Phase (F.head ++ rest) o) :
    InBody F.reqLine F.header F.head.length F.length rest.length o := by
  generalize hP : F.head ++ rest = P at h
  cases h with
  | idle hno ho => exact absurd (hP ▸ LF_mem_head rest) hno
  | header hR ho => exact absurd hP.symm (ne_head_append hR rest)
  | body ho => rwa [List.append_cancel_left hP]

/-- Before the head is complete the bytes are fewer than it has. -/
theorem length_lt_head {P : Bytes} (hfits : F.Fits P) (hne : ∀ rest, P ≠ F.head ++ rest) :
    P.length < F.head.length := by
  rcases hfits with ⟨rest, h⟩ | ⟨rest, h⟩
  · have hrest : rest ≠ [] := by
      rintro rfl
      exact hne [] (by rw [List.append_nil, ← h, List.append_nil])
    have hpos := List.length_pos_of_ne_nil hrest
    rw [← h, List.length_append]
    omega
  · exact absurd h.symm (hne rest)

/-- **The object is complete exactly when the head and as many bytes as it announces are there.** -/
theorem inited_eq {P : Bytes} {o : CHttpReq} (hphase : F.Phase P o) (hfits : F.Fits P) :
    o.inited = decide (F.head.length + F.length ≤ P.length) := by
  cases hphase with
  | idle hno ho =>
    have hlt := length_lt_head hfits fun rest h0 => hno (h0 ▸ LF_mem_head rest)
    rw [ho.inited, decide_eq_false (by omega)]
  | header hR ho =>
    have hlt := length_lt_head hfits fun rest => ne_head_append hR rest
    rw [ho.inited, decide_eq_false (by omega)]
  | body ho =>
    rw [ho.inited, List.length_append]
    exact decide_eq_decide.mpr (by omega)

end Framed

end HttpCodec
end CModel
