import CModel.Foundation.Overwrite
import CModel.HttpCodec.LengthRange
import CModel.HttpCodec.MakerParser

/-!
# `CHttpResponseMaker::make`

`make` prints the length of the content into the head, copies the content behind it, and returns
`strlen` of the whole.

* `CHttpResponseMaker.make`: the code, on the memory of the buffer.
* `make_eq`: what is in the buffer, and what is returned.
* `getLengthEx_response`: what the analyser finds in it.
* `framesContent_iff`: **the content is framed** exactly if it has no zero byte.
-/

namespace CModel
namespace HttpCodec

namespace CHttpResponseMaker

/-- The text of the first `sprintf`. -/
def headText (nRealContentLen : ℤ) (contentType : Bytes) : Bytes :=
  ascii "HTTP/1.1 200 OK\r\nContent-Length: " ++ (decimalInt nRealContentLen ++
    (ascii "\r\nContent-Type: " ++ (cstr contentType ++
      ascii ";charset=utf-8\r\nConnection: Keep-Alive\r\n\r\n")))

/-- `CHttpResponseMaker::make`: the buffer, and the length that is returned.  The size of the buffer
that is passed along is not looked at. -/
def make (szContent : Bytes) (nContentLen : ℤ) (szBuffer : Bytes) (contentType : Bytes) :
    Outcome (Bytes × ℤ) := do
  let nRealContentLen := if 0 < nContentLen then nContentLen else 0
  let szBuffer ← overwrite szBuffer 0 (headText nRealContentLen contentType ++ [0])
  let nHeadLen := int32 (cstr szBuffer).length
  let szBuffer ←
    if 0 < nContentLen then
      if nHeadLen < 0 ∨ 2 ^ 31 ≤ nHeadLen + nContentLen then .undefined
      else do
        let content ← readRange szContent 0 nContentLen.toNat
        let szBuffer ← overwrite szBuffer nHeadLen.toNat content
        overwrite szBuffer (nHeadLen + nContentLen).toNat [0]
    else .ok szBuffer
  .ok (szBuffer, int32 (cstr szBuffer).length)

end CHttpResponseMaker

open CHttpResponseMaker
open CHttpParser (HasMethod)

/-- The head in front of `n` bytes of content. -/
def responseHead (n : ℕ) (contentType : Bytes) : Bytes := headText n contentType

theorem responseHead_eq (n : ℕ) (contentType : Bytes) : responseHead n contentType =
    ascii "HTTP/1.1 200 OK\r\nContent-Length: " ++ (decimal n ++
      (ascii "\r\nContent-Type: " ++ (cstr contentType ++
        ascii ";charset=utf-8\r\nConnection: Keep-Alive\r\n\r\n"))) := by
  rw [responseHead, headText, decimalInt, if_neg (by omega), Int.natAbs_natCast]

theorem zero_notMem_responseHead (n : ℕ) (contentType : Bytes) :
    (0 : Byte) ∉ responseHead n contentType := by
  rw [responseHead_eq]
  simp only [List.mem_append, not_or]
  exact ⟨by decide, (ClientRequest.decimal_noBreak n).2.2, by decide, zero_notMem_cstr contentType,
    by decide⟩

/-! ## The buffer -/

section Buffer

variable {content contentType szBuffer : Bytes}

/-- A buffer for the head, the content and a zero, whose size is an `int`. -/
structure LargeEnough (content contentType szBuffer : Bytes) : Prop where
  room : (responseHead content.length contentType).length + content.length + 1 ≤ szBuffer.length
  size : szBuffer.length < 2 ^ 31

/-- **What is in the buffer, and what is returned**: the length up to the first zero. -/
theorem make_eq (h : LargeEnough content contentType szBuffer) : ∃ rest,
    make content content.length szBuffer contentType =
      .ok (responseHead content.length contentType ++ (content ++ 0 :: rest),
        ((responseHead content.length contentType).length + (cstr content).length : ℕ)) := by
  have hroom := h.room
  have hsize := h.size
  have hle : (cstr content).length ≤ content.length := (List.takeWhile_prefix _).length_le
  have hzero := zero_notMem_responseHead content.length contentType
  have hreal : (if (0 : ℤ) < content.length then (content.length : ℤ) else 0) = content.length := by
    split <;> omega
  have hhead : headText content.length contentType = responseHead content.length contentType := rfl
  generalize responseHead content.length contentType = head at *
  obtain ⟨rest₁, hfirst⟩ : ∃ rest, overwrite szBuffer 0 (head ++ [0]) =
      .ok (head ++ 0 :: rest) := by
    refine ⟨szBuffer.drop (head.length + 1), ?_⟩
    have hfit : (head ++ [0]).length ≤ szBuffer.length := by
      rw [List.length_append, List.length_singleton]
      omega
    have hw : overwrite ([] ++ szBuffer) 0 (head ++ [0]) = _ := overwrite_append hfit
    rw [List.nil_append, List.nil_append] at hw
    rw [hw, List.append_assoc, List.length_append, List.length_singleton]
    rfl
  have hlen₁ : (head ++ 0 :: rest₁).length = szBuffer.length := length_overwrite hfirst
  rw [List.length_append, List.length_cons] at hlen₁
  have hstrlen : int32 (cstr (head ++ 0 :: rest₁)).length = head.length := by
    rw [cstr_append_zero hzero, int32_of_mem (by omega) (by omega)]
  rw [make]
  simp only [hreal, hhead, hfirst, Outcome.ok_bind, hstrlen]
  by_cases h0 : content.length = 0
  · rw [List.length_eq_zero_iff.mp h0, if_neg (by simp)]
    exact ⟨rest₁, rfl⟩
  · have hread : readRange content 0 (content.length : ℤ).toNat = .ok content := by
      rw [Int.toNat_natCast, readRange_of_le (by omega), List.drop_zero, List.take_length]
    have hsum : ((head.length : ℤ) + content.length).toNat = (head ++ content).length := by
      rw [List.length_append]
      omega
    have hsecond : overwrite (head ++ 0 :: rest₁) head.length content =
        .ok (head ++ (content ++ (0 :: rest₁).drop content.length)) :=
      overwrite_append (by rw [List.length_cons]; omega)
    obtain ⟨c, rest, hrest⟩ : ∃ c rest, (0 :: rest₁).drop content.length = c :: rest := by
      refine List.exists_cons_of_length_pos ?_
      rw [List.length_drop, List.length_cons]
      omega
    have hthird : overwrite (head ++ (content ++ c :: rest)) (head ++ content).length [0] =
        .ok (head ++ (content ++ 0 :: rest)) := by
      rw [← List.append_assoc, ← List.append_assoc]
      exact overwrite_append (Nat.succ_le_succ (Nat.zero_le _))
    refine ⟨rest, ?_⟩
    rw [if_pos (by omega), if_neg (by omega), hread, Outcome.ok_bind, Int.toNat_natCast, hsecond,
      Outcome.ok_bind, hrest, hsum, hthird, Outcome.ok_bind, cstr_append hzero]
    have hcstr : cstr (content ++ 0 :: rest) = cstr content := by
      by_cases hmem : (0 : Byte) ∈ content
      · obtain ⟨a, b, rfl, ha⟩ := List.eq_append_cons_of_mem hmem
        rw [List.append_assoc, List.cons_append, cstr_append_zero ha, cstr_append_zero ha]
      · rw [cstr_append_zero hmem, cstr_eq_self hmem]
    rw [hcstr, List.length_append, int32_of_mem (by omega) (by omega)]

end Buffer

/-! ## What the analyser finds -/

section Analyser

variable {dm : DataModel} {content contentType : Bytes}

/-- The header lines of the head. -/
def responseFields (n : ℕ) (contentType : Bytes) : List (Bytes × Bytes) :=
  [(ascii "Content-Length", decimal n),
    (ascii "Content-Type", cstr contentType ++ ascii ";charset=utf-8"),
    (ascii "Connection", ascii "Keep-Alive")]

theorem responseHead_append (n : ℕ) (contentType body : Bytes) :
    responseHead n contentType ++ body =
      requestText (ascii "HTTP/1.1 200 OK") (responseFields n contentType) body := by
  rw [responseHead_eq, requestText, responseFields, headLines_cons, headLines_cons, headLines_cons]
  simp only [headLineText, headLines, List.map_nil, unlines_nil, List.append_assoc,
    List.cons_append, List.nil_append]
  rfl

theorem responseFields_ok {n : ℕ} (hbreak : CR ∉ contentType ∧ LF ∉ contentType) :
    ∀ f ∈ responseFields n contentType, IsHeadField f := by
  have hnot : ∀ {c : Byte}, c ∉ contentType → c ∉ ascii ";charset=utf-8" →
      c ∉ cstr contentType ++ ascii ";charset=utf-8" := by
    intro c hc hc'
    rw [List.mem_append, not_or]
    exact ⟨fun h0 => hc ((List.takeWhile_prefix _).subset h0), hc'⟩
  have hzero : (0 : Byte) ∉ cstr contentType ++ ascii ";charset=utf-8" := by
    rw [List.mem_append, not_or]
    exact ⟨zero_notMem_cstr contentType, by decide⟩
  intro f hf
  simp only [responseFields, List.mem_cons, List.not_mem_nil, or_false] at hf
  rcases hf with rfl | rfl | rfl
  · exact isHeadField_of (by decide) (ClientRequest.decimal_noBreak n)
  · exact isHeadField_of (by decide)
      ⟨hnot hbreak.1 (by decide), hnot hbreak.2 (by decide), hzero⟩
  · exact isHeadField_of (by decide) (by decide)

/-- The head ends behind its empty line. -/
theorem findCrlf_response {n : ℕ} (hbreak : CR ∉ contentType ∧ LF ∉ contentType) (body : Bytes) :
    ∃ e, findCrlf (responseHead n contentType ++ body) = some e ∧
      (responseHead n contentType).length = e + 4 := by
  refine ⟨(ascii "HTTP/1.1 200 OK").length + (headLines (responseFields n contentType)).length,
    ?_, ?_⟩
  · rw [responseHead_append]
    exact findCrlf_headLines (by decide) (by decide) (responseFields_ok hbreak)
      (List.cons_ne_nil _ _) body
  · have hhead := responseHead_append n contentType []
    rw [List.append_nil] at hhead
    rw [hhead, requestText]
    simp only [List.length_append, List.length_cons, List.length_nil]
    omega

/-- The length stands behind the first `Content-Length: `. -/
theorem lengthText_response (n : ℕ) (contentType body : Bytes) :
    lengthText (responseHead n contentType ++ body) = some (decimal n) := by
  have hpat : ascii "Content-Length: " = ascii "Content-Length:" ++ [32] := rfl
  have hq : (32 : Byte) ∉ ascii "Content-Length:" := by decide
  obtain ⟨r, hwords⟩ : ∃ r, responseHead n contentType ++ body =
      ascii "HTTP/1.1" ++ 32 :: (ascii "200" ++ 32 :: (ascii "OK\r\nContent-Length:" ++ 32 ::
        (decimal n ++ CR :: LF :: r))) := by
    rw [responseHead_eq]
    simp only [List.append_assoc]
    exact ⟨_, rfl⟩
  have hbehind : behind (ascii "Content-Length: ") (responseHead n contentType ++ body) =
      some (decimal n ++ CR :: LF :: r) := by
    rw [hwords, hpat, behind_word_skip hq (by decide) (by decide),
      behind_word_skip hq (by decide) (by decide), behind_word_hit hq (by decide) (by decide)]
  have hend : findBy (· == ·) [CR, LF] (decimal n ++ CR :: LF :: r) = some (decimal n).length :=
    findBy_first (ClientRequest.decimal_noBreak n).1 r
  rw [lengthText, hbehind, Option.bind_some, hend, Option.map_some, List.take_left]

/-- **What the analyser finds** in a response whose content has no zero byte. -/
theorem getLengthEx_response (hbreak : CR ∉ contentType ∧ LF ∉ contentType)
    (hzero : (0 : Byte) ∉ content)
    (hlt : (responseHead content.length contentType).length + content.length < 2 ^ 31)
    (rest : Bytes) : ∃ pos,
      getLengthEx dm (responseHead content.length contentType ++ (content ++ 0 :: rest))
          ((responseHead content.length contentType).length + content.length : ℕ) =
        .ok (((responseHead content.length contentType).length + content.length : ℕ),
          some (pos, content.length)) := by
  obtain ⟨e, hend, hlen⟩ := findCrlf_response (n := content.length) hbreak content
  have htext := lengthText_response content.length contentType content
  have hnozero : (0 : Byte) ∉ responseHead content.length contentType ++ content := by
    rw [List.mem_append, not_or]
    exact ⟨zero_notMem_responseHead _ _, hzero⟩
  have hstart : ascii "HTTP/" <+: responseHead content.length contentType ++ content := by
    rw [responseHead_append, requestText]
    exact List.IsPrefix.trans (by decide) (List.prefix_append _ _)
  have hget : ¬ ascii "GET " <+: responseHead content.length contentType ++ content :=
    HasBodyType.not_get (Or.inr hstart)
  have hmethod : HasMethod (responseHead content.length contentType ++ content) :=
    Or.inr (Or.inr hstart)
  have hshort : (decimal content.length).length ≤ 10 :=
    length_decimal_le (by decide) (by omega)
  have hatoi : atoi dm (decimal content.length) = content.length :=
    atoi_decimal_self (by omega)
  rw [← List.append_assoc]
  generalize responseHead content.length contentType ++ content = text at *
  generalize (responseHead content.length contentType).length = headLen at *
  have hcontent := @contentLengthOf_text dm _ rest hnozero e
  rw [htext] at hcontent
  simp only [if_neg (show ¬ 30 ≤ (decimal content.length).length by omega), hatoi] at hcontent
  have hhead : int32 ((e : ℤ) + 4) = e + 4 := int32_of_mem (by omega) (by omega)
  have hsum : ((headLen + content.length : ℕ) : ℤ) = int32 (e + 4) + content.length := by
    rw [hhead, hlen]
    push_cast
    rfl
  refine ⟨int32 (e + 4), ?_⟩
  rw [getLengthEx_of_not_get hnozero hmethod hget, hend]
  show contentLengthOf dm (text ++ 0 :: rest) e >>= withHead e _ = _
  rw [hcontent, Outcome.ok_bind, withHead, ← hsum, if_neg (by omega), if_neg (lt_irrefl _)]

end Analyser

/-! ## When the content is framed -/

/-- `make` returns the length of head and content, puts both into the buffer, and the analyser finds
this length and that of the content. -/
def FramesContent (dm : DataModel) (content contentType szBuffer : Bytes) : Prop :=
  ∃ szBuffer', make content content.length szBuffer contentType =
      .ok (szBuffer', ((responseHead content.length contentType).length + content.length : ℕ)) ∧
    responseHead content.length contentType ++ content <+: szBuffer' ∧
    ∃ pos, getLengthEx dm szBuffer'
        ((responseHead content.length contentType).length + content.length : ℕ) =
      .ok (((responseHead content.length contentType).length + content.length : ℕ),
        some (pos, content.length))

/-- **`make` frames its content** if and only if this has no zero byte. -/
theorem framesContent_iff {content contentType szBuffer : Bytes} (dm : DataModel)
    (hbreak : CR ∉ contentType ∧ LF ∉ contentType)
    (h : LargeEnough content contentType szBuffer) :
    FramesContent dm content contentType szBuffer ↔ (0 : Byte) ∉ content := by
  have hroom := h.room
  have hsize := h.size
  obtain ⟨rest, hmake⟩ := make_eq h
  constructor
  · rintro ⟨szBuffer', hmake', -, -⟩ hmem
    have hret := hmake.symm.trans hmake'
    rw [Outcome.ok.injEq, Prod.mk.injEq, Nat.cast_inj] at hret
    obtain ⟨a, b, rfl, ha⟩ := List.eq_append_cons_of_mem hmem
    have hlen := hret.2
    rw [cstr_append_zero ha, List.length_append, List.length_cons] at hlen
    omega
  · intro hzero
    rw [cstr_eq_self hzero] at hmake
    exact ⟨_, hmake, ⟨0 :: rest, List.append_assoc _ _ _⟩,
      getLengthEx_response hbreak hzero (by omega) rest⟩

/-- One byte of content. -/
theorem framesContent_one : FramesContent .lp64 (ascii "x") (ascii "text/html")
    (List.replicate 200 1) ↔ (0 : Byte) ∉ ascii "x" :=
  framesContent_iff .lp64 (by decide) ⟨by decide +kernel, by decide +kernel⟩

/-- Content of one zero byte: the length that is returned is that of the head. -/
theorem not_framesContent_zero :
    LargeEnough [0] (ascii "text/html") (List.replicate 200 1) ∧
      ¬ FramesContent .lp64 [0] (ascii "text/html") (List.replicate 200 1) := by
  have hlarge : LargeEnough [0] (ascii "text/html") (List.replicate 200 1) :=
    ⟨by decide +kernel, by decide +kernel⟩
  refine ⟨hlarge, ?_⟩
  rintro ⟨szBuffer', hmake', -, -⟩
  obtain ⟨rest, hmake⟩ := make_eq hlarge
  have hret := hmake.symm.trans hmake'
  rw [Outcome.ok.injEq, Prod.mk.injEq, Nat.cast_inj] at hret
  exact absurd hret.2 (by decide)

end HttpCodec
end CModel
