import CModel.HttpCodec.Messages
import CModel.HttpCodec.Request

/-!
# The back-end protocol

`encode_back_proto` writes a request, and `CHttpReq` reads it.

* `backProto`: the request that is written, as a `Request`; `bytes_backProto` says that it is.
* `input_backProto`: **one call of `input` gives back the code, the flow number and the bytes.**
-/

namespace CModel
namespace HttpCodec

open CHttpReq

/-- A header line with a number for a value. -/
def numberField (name value : Bytes) (hne : name ≠ [])
    (hname : ∀ c ∈ name, c ≠ 58 ∧ c ≠ CR ∧ c ≠ LF ∧ c ≠ 0)
    (hvalue : ∀ c ∈ value, isalpha c = false ∧ c ≠ LF ∧ c ≠ CR ∧ c ≠ 0) : HeaderField where
  name := name
  value := value
  name_ne := hne
  name_plain := hname
  value_plain := fun c hc => ⟨(hvalue c hc).2.2.1, (hvalue c hc).2.1, (hvalue c hc).2.2.2⟩

/-- The three header lines of the protocol. -/
def backProtoFields (ret : ℤ) (flow len : ℕ) : List HeaderField :=
  [numberField (ascii "RetCode") (decimalInt ret) (by decide) (by decide) fun _ => decimalInt_plain,
    numberField (ascii "FlowNo") (decimal flow) (by decide) (by decide) fun _ => decimal_plain,
    numberField (ascii "Content-Length") (decimal len) (by decide) (by decide)
      fun _ => decimal_plain]

theorem lookup_backProtoFields (ret : ℤ) (flow len : ℕ) :
    lookup (backProtoFields ret flow len) (ascii "RETCODE") = some (32 :: decimalInt ret) ∧
    lookup (backProtoFields ret flow len) (ascii "FLOWNO") = some (32 :: decimal flow) ∧
    lookup (backProtoFields ret flow len) (ascii "CONTENT-LENGTH") = some (32 :: decimal len) := by
  have h₁ : (ascii "RetCode").map toupper = ascii "RETCODE" := by decide
  have h₂ : (ascii "FlowNo").map toupper = ascii "FLOWNO" := by decide
  have h₃ : (ascii "Content-Length").map toupper = ascii "CONTENT-LENGTH" := by decide
  have h₁₂ : ascii "FLOWNO" ≠ ascii "RETCODE" := by decide
  have h₁₃ : ascii "CONTENT-LENGTH" ≠ ascii "RETCODE" := by decide
  have h₂₃ : ascii "CONTENT-LENGTH" ≠ ascii "FLOWNO" := by decide
  simp [lookup, backProtoFields, numberField, HeaderField.entry, h₁, h₂, h₃, h₁₂, h₁₃, h₂₃]

/-- What `encode_back_proto` writes, as a request. -/
def backProto (ret : ℤ) (flow : ℕ) (strRsp : Bytes) (h : strRsp.length < 2 ^ 31) : Request where
  method := ascii "GET"
  uri := ⟨[], [], none, query_notMem_nil, query_notMem_nil, slash_notMem_nil⟩
  minor := 48
  fields := backProtoFields ret flow strRsp.length
  body := strRsp
  method_eq := method_get
  uri_slash := rfl
  uri_plain := by decide
  arg_length := by decide
  minor_eq := minor_zero
  fields_length := by simp [backProtoFields]
  body_length := by
    unfold IsContentLength
    rw [(lookup_backProtoFields ret flow strRsp.length).2.2]
    exact ⟨_, rfl, decimal_ne_nil _, fun c hc => isdigit_of_mem_decimal hc,
      digitsValue_decimal _, h⟩

theorem bytes_backProto (ret : ℤ) (flow : ℕ) (strRsp : Bytes) (h : strRsp.length < 2 ^ 31) :
    (backProto ret flow strRsp h).bytes = encodeBackProto ret flow strRsp := by
  rw [Request.bytes, encodeBackProto, withLength]
  simp only [backProto, backProtoFields, List.map_cons, List.map_nil, unlines_cons, unlines_nil,
    HeaderField.line, numberField, List.append_assoc, List.cons_append, List.nil_append]
  rfl

/-- **The back-end protocol round trip**: one call of `input` on what `encode_back_proto` writes
completes the object, whose header gives back the code and the flow number through `from_str`, and
whose buffer has the bytes at the content offset. -/
theorem input_backProto (dm : DataModel) {ret : ℤ} (h₁ : -2 ^ 31 ≤ ret) (h₂ : ret < 2 ^ 31)
    {flow : ℕ} (hflow : flow < 2 ^ 32) {strRsp : Bytes}
    (hlen : (encodeBackProto ret flow strRsp).length < 2 ^ 31) :
    ∃ s, CHttpReq.input dm CHttpReq.fresh (encodeBackProto ret flow strRsp) = some (0, s) ∧
      s.2.inited = true ∧
      fromStrInt (s.2.header.get (ascii "RETCODE")) = .ok ret ∧
      fromStrUnsigned (s.2.header.get (ascii "FLOWNO")) = .ok flow ∧
      s.2.body.contentLength = strRsp.length ∧
      ∃ b, s.2.buf = some b ∧
        s.1.read ⟨b, s.2.contentOffset⟩ s.2.body.contentLength = some strRsp := by
  have hbody : strRsp.length < 2 ^ 31 := by
    refine lt_of_le_of_lt ?_ hlen
    rw [encodeBackProto, withLength_eq, List.length_append]
    exact Nat.le_add_left _ _
  generalize hM : backProto ret flow strRsp hbody = M
  have hbytes : M.bytes = encodeBackProto ret flow strRsp := by
    rw [← hM, bytes_backProto]
  have hfields : M.fields = backProtoFields ret flow strRsp.length := by rw [← hM]; rfl
  have hMbody : M.body = strRsp := by rw [← hM]; rfl
  have hinside : M.UriInside dm := Or.inr (Or.inl (by rw [← hM]; rfl))
  have hsplit := M.head_append_body hinside
  have hfits : (M.framed hinside).Fits ([] ++ M.bytes) := Or.inr ⟨M.body, hsplit⟩
  rw [← hbytes] at hlen ⊢
  obtain ⟨s, hs, hafter⟩ := Framed.input_phase (M.framed hinside).after_fresh hfits
    (by rw [List.nil_append]; omega)
  rw [List.nil_append] at hfits hafter
  have htaken := M.taken_of_after hinside hafter
  have hinited := Framed.inited_eq hafter.2 hfits
  obtain ⟨hret, hno, -⟩ := lookup_backProtoFields ret flow strRsp.length
  have hget : ∀ name value, lookup M.fields name = some value → s.2.header.get name = value :=
    fun name value h => StdMap.get_of_getElem? ((htaken.header name).trans h)
  have hlength : s.2.body.contentLength = strRsp.length := by rw [htaken.contentLength, hMbody]
  refine ⟨s, hs, ?_, ?_, ?_, hlength, ?_⟩
  · rw [hinited, decide_eq_true_iff]
    exact (M.length_head_add hinside).le
  · rw [hget _ _ (hfields ▸ hret), fromStrInt, ← List.singleton_append,
      istreamInt_decimalInt (by decide) h₁ h₂]
  · have hread : istreamUnsigned ([32] ++ (decimal flow ++ [])) = some flow :=
      istreamUnsigned_decimal (by decide) (by simp) hflow
    rw [List.append_nil] at hread
    rw [hget _ _ (hfields ▸ hno), fromStrUnsigned, ← List.singleton_append, hread]
  · obtain ⟨b, hb, hblock⟩ := hafter.1.block M.bytes_ne_nil
    have hphase := hafter.2
    rw [← hsplit] at hphase
    have hoff := (Framed.inBody_of_phase hphase).contentOffset
    refine ⟨b, hb, ?_⟩
    rw [hlength, hoff, Heap.read_of_some (l := M.bytes) hblock (by
      rw [← M.length_head_add hinside, hMbody]), ← hsplit, List.drop_left, hMbody,
      List.take_length]

/-- The round trip of a negative code, the largest flow number and two bytes. -/
theorem input_backProto_negative :
    ∃ s, CHttpReq.input .lp64 CHttpReq.fresh (encodeBackProto (-1) 4294967295 [13, 10]) =
        some (0, s) ∧
      s.2.inited = true ∧
      fromStrInt (s.2.header.get (ascii "RETCODE")) = .ok (-1) ∧
      fromStrUnsigned (s.2.header.get (ascii "FLOWNO")) = .ok 4294967295 ∧
      s.2.body.contentLength = ([13, 10] : Bytes).length ∧
      ∃ b, s.2.buf = some b ∧
        s.1.read ⟨b, s.2.contentOffset⟩ s.2.body.contentLength = some [13, 10] :=
  input_backProto .lp64 (by decide) (by decide) (by decide) (by decide)

end HttpCodec
end CModel
