import CModel.HttpCodec.Messages
import CModel.Json.RoundTrip

/-!
# Answers of the file server

The encoders of `ServerHttpCodec` that answer a client put a file into a response, or a return code,
which is the one member of a JSON object.

* `retcodeBody`, `encodeDownloadFileRsp`, `encodeUploadFileRsp`, `encodeSendfileDownloadFileRsp`.
* `Delimited`: `http_complete_func` finds the end of a message and of no part of it, and the body is
  what is behind the head.
* `fileAnswers_spec`: **every answer is delimited, and its body is the file, or is read by the JSON
  parser as an object with the return code.**
-/

namespace CModel
namespace HttpCodec

open Json

variable {R : Type}

/-! ## The encoders -/

/-- `ARG_RETCODE` -/
def argRetcode : CZString := .name (CStr.of (ascii "retcode"))

/-- The lines `root[ARG_RETCODE] = to_str(retcode)` and `root.toStyledString()`. -/
def retcodeBody (print : R → Bytes) (retcode : ℤ) : Option Bytes := do
  let root ← (Value.null : Value R).reach argRetcode
  let root ← root.modifyChild argRetcode fun v => some ((Value.string (decimalInt retcode)).assign v)
  root.toStyledString print

/-- `ServerHttpCodec::encode_download_file_rsp` -/
def encodeDownloadFileRsp (print : R → Bytes) (retcode : ℤ) (fdata : Bytes) : Option Bytes :=
  if retcode ≠ 0 then do
    let httpBody ← retcodeBody print retcode
    some (forbidden httpBody httpContentTypeHtml)
  else some (normalResponse fdata httpContentTypeHtml 0)

/-- `ServerHttpCodec::encode_upload_file_rsp` -/
def encodeUploadFileRsp (print : R → Bytes) (retcode : ℤ) : Option Bytes := do
  let httpBody ← retcodeBody print retcode
  some (normalResponse httpBody httpContentTypeHtml 0)

/-- `ServerHttpCodec::encode_sendfile_download_file_rsp`: the head of a response whose body is sent
from the file. -/
def encodeSendfileDownloadFileRsp (print : R → Bytes) (retcode : ℤ) (filelen : ℕ) : Option Bytes :=
  if retcode ≠ 0 ∨ filelen ≤ 0 then do
    let httpBody ← retcodeBody print retcode
    some (forbidden httpBody httpContentTypeHtml)
  else
    some (ascii "HTTP/1.1 200 OK\r\nContent-Type: text/html\r\nContent-Length: " ++
      (decimal filelen ++ ascii "\r\n\r\n"))

/-! ## In a stream -/

/-- A message that is found at its end, whatever follows it, and not before. -/
structure Delimited (dm : DataModel) (message body : Bytes) : Prop where
  found : ∀ s : Bytes, (message ++ s).length < 2 ^ 31 →
    httpCompleteFunc dm (message ++ s) = some (message.length : ℤ)
  not_before : message.length < 2 ^ 31 →
    ∀ P, P <+: message → P ≠ message → httpCompleteFunc dm P = some 0
  behind_head : ∃ n, headEnd message = some n ∧ message.drop n = body

theorem delimited_withLength (dm : DataModel) {head : Bytes} (h : HeadStart head) (body : Bytes) :
    Delimited dm (withLength head body) body where
  found _ := complete_append_of_lt h
  not_before hm _ := complete_prefix h hm
  behind_head := by
    rw [withLength_eq]
    exact ⟨_, headEnd_message h body, List.drop_left⟩

theorem delimited_normalResponse (dm : DataModel) (httpBody : Bytes) :
    Delimited dm (normalResponse httpBody httpContentTypeHtml 0) httpBody := by
  obtain ⟨head, hhead, heq⟩ := headStart_normalResponse .html httpBody 0
  have hmessage : normalResponse httpBody httpContentTypeHtml 0 = withLength head httpBody := heq
  rw [hmessage]
  exact delimited_withLength dm hhead httpBody

theorem delimited_forbidden (dm : DataModel) (httpBody : Bytes) :
    Delimited dm (forbidden httpBody httpContentTypeHtml) httpBody := by
  obtain ⟨head, hhead, heq⟩ := headStart_forbidden .html httpBody
  have hmessage : forbidden httpBody httpContentTypeHtml = withLength head httpBody := heq
  rw [hmessage]
  exact delimited_withLength dm hhead httpBody

/-! ## The return code -/

/-- The object with a return code. -/
def retcodeValue (retcode : ℤ) : Value R :=
  .map {} .object [(argRetcode, .string (decimalInt retcode))]

theorem canonical_retcodeValue (scan : Bytes → Option R) (print : R → Bytes) (retcode : ℤ) :
    (retcodeValue retcode).Canonical scan print := by
  refine .object (by simp) (List.pairwise_singleton _ _) ?_ ?_
  · exact fun e he => ⟨CStr.of (ascii "retcode"), by rw [List.mem_singleton.mp he]; rfl⟩
  · exact fun e he => List.mem_singleton.mp he ▸ .scalar rfl

/-- A body from which the parser reads the return code. -/
def HasRetcode (scan : Bytes → Option R) (retcode : ℤ) (body : Bytes) : Prop :=
  ∀ collectComments, ∃ s, Reader.parse scan {} body .null collectComments = some (true, s) ∧
    s.errors = [] ∧ s.root.get argRetcode = some (.string (decimalInt retcode))

theorem retcodeBody_spec (scan : Bytes → Option R) (print : R → Bytes) (retcode : ℤ) :
    ∃ body, retcodeBody print retcode = some body ∧ HasRetcode scan retcode body := by
  have hcanonical := canonical_retcodeValue scan print retcode
  have hbody : retcodeBody print retcode = (retcodeValue retcode).toStyledString print := rfl
  obtain ⟨body, htext, hdocument⟩ := StyledWriter.exists_document (normal_of_canonical hcanonical)
    (plain_of_canonical hcanonical) (w := {}) (by unfold Blank; decide)
  refine ⟨body, hbody.trans htext, fun collectComments => ?_⟩
  obtain ⟨s, hparse, herrors, hroot⟩ := parse_canonical hcanonical hdocument collectComments
  refine ⟨s, hparse, herrors, ?_⟩
  rw [hroot]
  rfl

/-! ## Every answer -/

/-- **Every answer is found in a stream, and its body is the file or holds the return code.**  What
`encode_sendfile_download_file_rsp` writes for a file is the head of the answer only. -/
theorem fileAnswers_spec (dm : DataModel) (scan : Bytes → Option R) (print : R → Bytes)
    (retcode : ℤ) (fdata : Bytes) (filelen : ℕ) :
    (∃ message body, encodeUploadFileRsp print retcode = some message ∧
      Delimited dm message body ∧ HasRetcode scan retcode body) ∧
    (∃ message body, encodeDownloadFileRsp print retcode fdata = some message ∧
      Delimited dm message body ∧
        if retcode = 0 then body = fdata else HasRetcode scan retcode body) ∧
    (∃ message, encodeSendfileDownloadFileRsp print retcode filelen = some message ∧
      if retcode = 0 ∧ 0 < filelen then
        ∀ file : Bytes, file.length = filelen → Delimited dm (message ++ file) file
      else ∃ body, Delimited dm message body ∧ HasRetcode scan retcode body) := by
  obtain ⟨body, hbody, hcode⟩ := retcodeBody_spec scan print retcode
  refine ⟨?_, ?_, ?_⟩
  · refine ⟨_, body, ?_, delimited_normalResponse dm body, hcode⟩
    rw [encodeUploadFileRsp, hbody]
    rfl
  · by_cases hzero : retcode = 0
    · refine ⟨_, fdata, ?_, delimited_normalResponse dm fdata, by rw [if_pos hzero]⟩
      rw [encodeDownloadFileRsp, if_neg (not_not.mpr hzero)]
    · refine ⟨_, body, ?_, delimited_forbidden dm body, by rwa [if_neg hzero]⟩
      rw [encodeDownloadFileRsp, if_pos hzero, hbody]
      rfl
  · by_cases hfile : retcode = 0 ∧ 0 < filelen
    · have hsent : ¬(retcode ≠ 0 ∨ filelen ≤ 0) := by omega
      refine ⟨_, by rw [encodeSendfileDownloadFileRsp, if_neg hsent], ?_⟩
      rw [if_pos hfile]
      rintro file rfl
      have hmessage : ascii "HTTP/1.1 200 OK\r\nContent-Type: text/html\r\nContent-Length: " ++
          (decimal file.length ++ ascii "\r\n\r\n") ++ file =
            normalResponse file httpContentTypeHtml 0 := by
        simp only [normalResponse, if_true, withLength, List.append_assoc]
        rfl
      rw [hmessage]
      exact delimited_normalResponse dm file
    · have hfails : retcode ≠ 0 ∨ filelen ≤ 0 := by omega
      refine ⟨_, by rw [encodeSendfileDownloadFileRsp, if_pos hfails, hbody]; rfl, ?_⟩
      rw [if_neg hfile]
      exact ⟨body, delimited_forbidden dm body, hcode⟩

end HttpCodec
end CModel
