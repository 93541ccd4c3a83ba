import CModel.HttpCodec.Complete

/-!
# The messages of the codec and their completeness check

* `CodecMessage`: the messages that the encoders build.
* `HeadStart`: the text in front of the `Content-Length` line of such a message.
* `complete_append_of_lt`, `complete_append_of_le`: a message is found whatever follows it, up to
  `2 ^ 31` bytes in the buffer; from there on its size is negative as an `int`, and nothing is
  found.
* `complete_prefix`: a part of a message is never complete.
* `selfDelimiting_iff`: the three together, for every message.
-/

namespace CModel
namespace HttpCodec

/-- The two content types that are sent. -/
inductive ContentType where
  | html
  | binary
  deriving DecidableEq, Repr

/-- The text of a content type. -/
def ContentType.text : ContentType → Bytes
  | .html => httpContentTypeHtml
  | .binary => httpContentTypeBinary

/-- A call of an encoder. -/
inductive CodecMessage where
  | normalResponse (httpBody : Bytes) (bodyType : ContentType) (mode : ℕ)
  | forbidden (httpBody : Bytes) (bodyType : ContentType)
  | backProto (ret : ℤ) (flow : ℕ) (strRsp : Bytes)

/-- What the encoder builds. -/
def CodecMessage.bytes : CodecMessage → Bytes
  | .normalResponse httpBody bodyType mode => HttpCodec.normalResponse httpBody bodyType.text mode
  | .forbidden httpBody bodyType => HttpCodec.forbidden httpBody bodyType.text
  | .backProto ret flow strRsp => encodeBackProto ret flow strRsp

/-! ## The text in front of the length -/

/-- A text in front of the `Content-Length` line: whole lines, none of them empty, in which
`Content-Length:` does not start. -/
structure HeadStart (head : Bytes) : Prop where
  lines : ∃ ls, unlines ls = head ++ [CR, LF] ∧ ∀ l ∈ ls, LF ∉ l ∧ l ≠ [CR] ∧ l ≠ []
  first : matchStrBegin (head ++ ascii "\r\nContent-Length:") (ascii "Content-Length:") =
    some (head.length + 2)

/-- The lines that a text of lines falls into are checked by evaluation. -/
theorem headStart_of_splitLines {head : Bytes}
    (h₁ : unlines (splitLines (head ++ [CR, LF])).1 = head ++ [CR, LF])
    (h₂ : ∀ l ∈ (splitLines (head ++ [CR, LF])).1, LF ∉ l ∧ l ≠ [CR] ∧ l ≠ [])
    (h₃ : matchStrBegin (head ++ ascii "\r\nContent-Length:") (ascii "Content-Length:") =
      some (head.length + 2)) : HeadStart head :=
  ⟨⟨_, h₁, h₂⟩, h₃⟩

theorem headStart_normalResponse (bodyType : ContentType) (httpBody : Bytes) (mode : ℕ) :
    ∃ head, HeadStart head ∧
      normalResponse httpBody bodyType.text mode = withLength head httpBody := by
  unfold normalResponse
  split
  · refine ⟨_, ?_, rfl⟩
    cases bodyType <;>
      exact headStart_of_splitLines (by decide) (by decide) (by decide)
  · split
    · refine ⟨_, ?_, rfl⟩
      cases bodyType <;>
        exact headStart_of_splitLines (by decide +kernel) (by decide +kernel) (by decide +kernel)
    · refine ⟨_, ?_, rfl⟩
      cases bodyType <;>
        exact headStart_of_splitLines (by decide +kernel) (by decide +kernel) (by decide +kernel)

theorem headStart_forbidden (bodyType : ContentType) (httpBody : Bytes) :
    ∃ head, HeadStart head ∧ forbidden httpBody bodyType.text = withLength head httpBody := by
  refine ⟨_, ?_, rfl⟩
  cases bodyType <;>
    exact headStart_of_splitLines (by decide) (by decide) (by decide)

/-- The number in a header of the back-end protocol holds no letter and no line end. -/
theorem decimalInt_plain {z : ℤ} {c : Byte} (h : c ∈ decimalInt z) :
    isalpha c = false ∧ c ≠ LF ∧ c ≠ CR ∧ c ≠ 0 := by
  have hdigit : ∀ n, c ∈ decimal n → isalpha c = false ∧ c ≠ LF ∧ c ≠ CR ∧ c ≠ 0 := by
    intro n hc
    have hd := isdigit_of_mem_decimal hc
    grind [isdigit, isalpha]
  unfold decimalInt at h
  split at h
  · rcases List.mem_cons.mp h with rfl | h
    · decide
    · exact hdigit _ h
  · exact hdigit _ h

theorem decimal_plain {n : ℕ} {c : Byte} (h : c ∈ decimal n) :
    isalpha c = false ∧ c ≠ LF ∧ c ≠ CR ∧ c ≠ 0 := by
  have hd := isdigit_of_mem_decimal h
  grind [isdigit, isalpha]

theorem sameLetter_of_not_alpha {c p : Byte} (hc : isalpha c = false) (hp : isalpha p = true) :
    sameLetter c p = false := by
  grind [sameLetter, tolower, isalpha]

/-- The text in front of the length in the back-end protocol. -/
def backProtoHead (ret : ℤ) (flow : ℕ) : Bytes :=
  ascii "GET / HTTP/1.0\r\nRetCode: " ++ (decimalInt ret ++ (ascii "\r\nFlowNo: " ++ decimal flow))

/-- The numbers in the head hide no `Content-Length:`. -/
theorem matchStrBegin_backProtoHead (ret : ℤ) (flow : ℕ) :
    matchStrBegin (backProtoHead ret flow ++ ascii "\r\nContent-Length:")
      (ascii "Content-Length:") = some ((backProtoHead ret flow).length + 2) := by
  have hpat : ascii "Content-Length:" = 67 :: ascii "ontent-Length:" := rfl
  have hskip : ∀ s t : Bytes, (∀ c ∈ s, sameLetter c 67 = false) →
      findBy sameLetter (ascii "Content-Length:") (s ++ t) =
        (findBy sameLetter (ascii "Content-Length:") t).map (· + s.length) := fun s t hs =>
    findBy_append_of_notMem hs
  have hlast : findBy sameLetter (ascii "Content-Length:") (ascii "\r\nContent-Length:") =
      some 2 := by
    decide
  have hflow : ∀ c ∈ decimal flow, sameLetter c 67 = false := fun c hc =>
    sameLetter_of_not_alpha (decimal_plain hc).1 rfl
  have hret : ∀ c ∈ decimalInt ret, sameLetter c 67 = false := fun c hc =>
    sameLetter_of_not_alpha (decimalInt_plain hc).1 rfl
  -- the `C` of `RetCode` starts no occurrence
  have hcode : ∀ t, findBy sameLetter (ascii "Content-Length:") (67 :: (ascii "ode: " ++ t)) =
      (findBy sameLetter (ascii "Content-Length:") (ascii "ode: " ++ t)).map (· + 1) := fun t =>
    firstSuffix_cons_of_neg rfl
  rw [matchStrBegin, if_neg (by decide), backProtoHead]
  rw [show ascii "GET / HTTP/1.0\r\nRetCode: " =
    ascii "GET / HTTP/1.0\r\nRet" ++ 67 :: ascii "ode: " from rfl]
  simp only [List.append_assoc, List.cons_append]
  rw [hskip _ _ (by decide), hcode, hskip _ _ (by decide), hskip _ _ hret, hskip _ _ (by decide),
    hskip _ _ hflow, hlast]
  simp only [Option.map_some, List.length_append, List.length_cons, Option.some.injEq]
  omega

theorem headStart_backProto (ret : ℤ) (flow : ℕ) : HeadStart (backProtoHead ret flow) where
  lines := by
    refine ⟨[ascii "GET / HTTP/1.0\r", ascii "RetCode: " ++ decimalInt ret ++ [CR],
      ascii "FlowNo: " ++ decimal flow ++ [CR]], ?_, ?_⟩
    · simp only [unlines_cons, unlines_nil, backProtoHead, List.append_assoc, List.cons_append,
        List.nil_append]
      rfl
    · simp only [List.mem_cons, List.not_mem_nil, or_false]
      rintro l (rfl | rfl | rfl)
      · decide
      · refine ⟨?_, ?_, by simp⟩
        · simp only [List.mem_append, List.mem_singleton, not_or]
          exact ⟨⟨by decide, fun h => (decimalInt_plain h).2.1 rfl⟩, by decide⟩
        · intro h
          have hhead : some (82 : Byte) = some CR := congrArg List.head? h
          exact absurd hhead (by decide)
      · refine ⟨?_, ?_, by simp⟩
        · simp only [List.mem_append, List.mem_singleton, not_or]
          exact ⟨⟨by decide, fun h => (decimal_plain h).2.1 rfl⟩, by decide⟩
        · intro h
          have hhead : some (70 : Byte) = some CR := congrArg List.head? h
          exact absurd hhead (by decide)
  first := matchStrBegin_backProtoHead ret flow

/-- **Every message is a text without `Content-Length:`, its length, and its body.** -/
theorem CodecMessage.exists_head (m : CodecMessage) :
    ∃ head body, HeadStart head ∧ m.bytes = withLength head body := by
  cases m with
  | normalResponse httpBody bodyType mode =>
    obtain ⟨head, hhead, h⟩ := headStart_normalResponse bodyType httpBody mode
    exact ⟨head, httpBody, hhead, h⟩
  | forbidden httpBody bodyType =>
    obtain ⟨head, hhead, h⟩ := headStart_forbidden bodyType httpBody
    exact ⟨head, httpBody, hhead, h⟩
  | backProto ret flow strRsp => exact ⟨_, strRsp, headStart_backProto ret flow, rfl⟩

/-! ## Finding the end of a message -/

/-- The head of a message, with the length it announces. -/
def lengthHead (head : Bytes) (n : ℕ) : Bytes :=
  head ++ (ascii "\r\nContent-Length: " ++ (decimal n ++ ascii "\r\n\r\n"))

theorem withLength_eq (head body : Bytes) :
    withLength head body = lengthHead head body.length ++ body := by
  simp only [withLength, lengthHead, List.append_assoc]

section Message

variable {dm : DataModel} {head : Bytes} {n : ℕ}

/-- The head of a message is a head of lines. -/
theorem exists_headText (h : HeadStart head) (n : ℕ) :
    ∃ ls, HeadText ls (ascii "Content-Length: " ++ decimal n) ∧
      lengthHead head n = headBytes ls (ascii "Content-Length: " ++ decimal n) := by
  obtain ⟨ls, hls, hlines⟩ := h.lines
  have hne : ascii "Content-Length: " ++ decimal n ≠ [] := fun h0 => by
    have hhead : some (67 : Byte) = none := congrArg List.head? h0
    exact absurd hhead (by simp)
  refine ⟨ls, ⟨hlines, ?_, hne⟩, ?_⟩
  · simp only [List.mem_append, List.mem_singleton, not_or]
    exact ⟨⟨by decide, fun h0 => (decimal_plain h0).2.1 rfl⟩, by decide⟩
  · rw [headBytes, unlines_append, hls, unlines_cons, unlines_nil, lengthHead]
    simp only [List.append_assoc]
    rfl

theorem headEnd_message (h : HeadStart head) (rest : Bytes) :
    headEnd (lengthHead head n ++ rest) = some (lengthHead head n).length := by
  obtain ⟨ls, htext, heq⟩ := exists_headText h n
  rw [heq, headEnd_lines htext]

variable (dm) in
/-- The length is found behind the text in front of it, and reads back. -/
theorem matchStrBegin_message (h : HeadStart head) (hn : n < 2 ^ 31) (rest : Bytes) :
    matchStrBegin (lengthHead head n ++ rest) (ascii "Content-Length:") = some (head.length + 2) ∧
      atoi dm ((lengthHead head n ++ rest).drop (head.length + 2 + 15)) = n := by
  have hdata : lengthHead head n ++ rest =
      head ++ ascii "\r\nContent-Length:" ++
        ([32] ++ (decimal n ++ (ascii "\r\n\r\n" ++ rest))) := by
    rw [lengthHead, show ascii "\r\nContent-Length: " =
      ascii "\r\nContent-Length:" ++ [32] from rfl]
    simp only [List.append_assoc]
  have hfirst := h.first
  rw [matchStrBegin, if_neg (by decide)] at hfirst
  have hdrop : (lengthHead head n ++ rest).drop (head.length + 2 + 15) =
      [32] ++ (decimal n ++ (ascii "\r\n\r\n" ++ rest)) := by
    rw [hdata]
    exact List.drop_left' (by simp only [List.length_append]; rfl)
  refine ⟨?_, ?_⟩
  · rw [matchStrBegin, if_neg (by decide), hdata]
    exact findBy_append _ hfirst
  · rw [hdrop]
    refine atoi_decimal (by decide) ?_ hn
    intro c hc
    obtain rfl : CR = c := Option.some.inj hc
    rfl

/-- The number that is announced is the one that was printed. -/
theorem announced_message (h : HeadStart head) (hn : n < 2 ^ 31) (rest : Bytes) :
    announced dm (lengthHead head n ++ rest) = n := by
  obtain ⟨hfind, hatoi⟩ := matchStrBegin_message dm h hn rest
  rw [announced, hfind]
  exact hatoi

theorem length_message_ge (head : Bytes) (n : ℕ) : 4 ≤ (lengthHead head n).length := by
  simp only [lengthHead, List.length_append, show (ascii "\r\n\r\n").length = 4 from rfl]
  omega

variable {body : Bytes}

/-- **A message is found in a buffer of fewer than `2 ^ 31` bytes**, whatever follows it. -/
theorem complete_append_of_lt (h : HeadStart head) {s : Bytes}
    (hlt : (withLength head body ++ s).length < 2 ^ 31) :
    httpCompleteFunc dm (withLength head body ++ s) = some ((withLength head body).length : ℤ) := by
  have hge := length_message_ge head body.length
  rw [withLength_eq] at hlt ⊢
  rw [List.append_assoc] at hlt ⊢
  have hlen := hlt
  rw [List.length_append, List.length_append] at hlen
  rw [httpCompleteFunc_eq hlt (by rw [List.length_append]; omega) (headEnd_message h _),
    announced_message h (by omega), if_neg (by omega), if_neg (by
      simp only [List.length_append]
      omega), List.length_append]
  congr 1
  push_cast
  omega

/-- **In a buffer of `2 ^ 31` bytes or more no message is found**: its size is compared as an
`int`, and is negative. -/
theorem complete_append_of_le (h : HeadStart head) (hm : (withLength head body).length < 2 ^ 31)
    {s : Bytes} (hle : 2 ^ 31 ≤ (withLength head body ++ s).length)
    (hlt : (withLength head body ++ s).length < 2 ^ 32) :
    httpCompleteFunc dm (withLength head body ++ s) = some 0 := by
  have hge := length_message_ge head body.length
  rw [withLength_eq, List.length_append] at hm
  rw [withLength_eq, List.append_assoc] at hle hlt ⊢
  obtain ⟨hfind, hatoi⟩ := matchStrBegin_message dm h (n := body.length) (by omega)
    (body ++ s)
  have hhead : int32 (lengthHead head body.length).length = (lengthHead head body.length).length :=
    int32_of_mem (by omega) (by omega)
  have hneg : int32 (lengthHead head body.length ++ (body ++ s)).length < 0 := by
    unfold int32
    omega
  rw [httpCompleteFunc, if_neg (by omega), if_neg (by omega), headEnd_message h, hfind]
  simp only [hatoi, hhead]
  rw [if_neg (by omega), if_pos (by omega)]

/-- **A part of a message is never complete.** -/
theorem complete_prefix (h : HeadStart head) (hm : (withLength head body).length < 2 ^ 31)
    {P : Bytes} (hP : P <+: withLength head body) (hne : P ≠ withLength head body) :
    httpCompleteFunc dm P = some 0 := by
  have hge := length_message_ge head body.length
  have hlt : P.length < (withLength head body).length :=
    lt_of_le_of_ne hP.length_le fun h0 => hne (hP.eq_of_length h0)
  by_cases hshort : P.length < (lengthHead head body.length).length
  · obtain ⟨ls, htext, heq⟩ := exists_headText h body.length
    have hPhead : P <+: lengthHead head body.length :=
      List.prefix_of_prefix_length_le hP ⟨body, (withLength_eq head body).symm⟩ hshort.le
    rw [heq] at hPhead hshort
    exact httpCompleteFunc_of_none (by omega) (headEnd_lines_of_lt htext hPhead hshort)
  · obtain ⟨b, rfl⟩ : lengthHead head body.length <+: P :=
      List.prefix_of_prefix_length_le ⟨body, (withLength_eq head body).symm⟩ hP (by omega)
    rw [withLength_eq, List.length_append] at hm hlt
    rw [List.length_append] at hlt
    rw [httpCompleteFunc_eq (by rw [List.length_append]; omega)
      (by rw [List.length_append]; omega) (headEnd_message h b),
      announced_message h (by omega), if_neg (by omega), if_pos (by
        rw [List.length_append]
        omega)]

end Message

/-! ## Every message -/

/-- Of `2 ^ 32` bytes or more there is no call. -/
theorem httpCompleteFunc_of_le {dm : DataModel} {data : Bytes} (h : 2 ^ 32 ≤ data.length) :
    httpCompleteFunc dm data = none := by
  rw [httpCompleteFunc, if_pos h]

/-- **A message is found in front of whatever follows it if and only if the buffer holds fewer than
`2 ^ 31` bytes, and no part of a message is complete.** -/
theorem selfDelimiting_iff (dm : DataModel) (m : CodecMessage) (hm : m.bytes.length < 2 ^ 31) :
    (∀ s : Bytes, httpCompleteFunc dm (m.bytes ++ s) = some (m.bytes.length : ℤ) ↔
      (m.bytes ++ s).length < 2 ^ 31) ∧
    ∀ P, P <+: m.bytes → P ≠ m.bytes → httpCompleteFunc dm P = some 0 := by
  obtain ⟨head, body, hhead, hbytes⟩ := m.exists_head
  rw [hbytes] at hm ⊢
  refine ⟨fun s => ⟨?_, complete_append_of_lt hhead⟩, fun P => complete_prefix hhead hm⟩
  intro hs
  have hge := length_message_ge head body.length
  by_contra hle
  by_cases hlt : (withLength head body ++ s).length < 2 ^ 32
  · rw [complete_append_of_le hhead hm (not_lt.mp hle) hlt, Option.some.injEq, withLength_eq,
      List.length_append] at hs
    omega
  · rw [httpCompleteFunc_of_le (not_lt.mp hlt)] at hs
    exact absurd hs (by simp)

/-- An empty page. -/
def emptyPage : CodecMessage := .normalResponse [] .html 0

/-- The completeness of an empty page, whatever follows it. -/
theorem selfDelimiting_emptyPage :
    (∀ s : Bytes,
      httpCompleteFunc .lp64 (emptyPage.bytes ++ s) = some (emptyPage.bytes.length : ℤ) ↔
        (emptyPage.bytes ++ s).length < 2 ^ 31) ∧
    ∀ P, P <+: emptyPage.bytes → P ≠ emptyPage.bytes → httpCompleteFunc .lp64 P = some 0 :=
  selfDelimiting_iff .lp64 emptyPage (by decide)

/-- In front of `2 ^ 31` zeros an empty page is not found. -/
theorem emptyPage_not_found : emptyPage.bytes.length < 2 ^ 31 ∧
    httpCompleteFunc .lp64 (emptyPage.bytes ++ List.replicate (2 ^ 31) 0) ≠
      some (emptyPage.bytes.length : ℤ) := by
  have hlen : emptyPage.bytes.length = 63 := by decide
  obtain ⟨head, body, hhead, hbytes⟩ := emptyPage.exists_head
  have hlong : (emptyPage.bytes ++ List.replicate (2 ^ 31) (0 : Byte)).length = 63 + 2 ^ 31 := by
    rw [List.length_append, hlen, List.length_replicate]
  refine ⟨by omega, ?_⟩
  rw [hbytes] at hlen hlong ⊢
  rw [complete_append_of_le hhead (by omega) (by omega) (by omega), hlen]
  decide

end HttpCodec
end CModel
