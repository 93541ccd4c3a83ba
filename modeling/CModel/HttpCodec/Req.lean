import CModel.Foundation.Heap
import CModel.HttpCodec.Head

/-!
# `http_req.h` and `http_req.cpp`

`CHttpReq` is fed with the bytes of one request in any number of calls of `input`.  It owns a
buffer with all bytes so far and three sub-parsers that share it: the request line, the header and
the body.  The buffer lives on the heap; every call that brings bytes replaces it.
-/

namespace CModel
namespace HttpCodec

/-! ## Constants -/

/-- `C_HTTP_REQ_TYPE_GET` -/
def cHttpReqTypeGet : ℤ := 10001

/-- `C_HTTP_REQ_TYPE_POST` -/
def cHttpReqTypePost : ℤ := 10002

/-- `C_HTTP_ERR_INVALID_REQUEST_LINE` -/
def cHttpErrInvalidRequestLine : ℤ := 1000002

/-- `C_HTTP_PROTOCOL_VER_0_9` -/
def cHttpProtocolVer09 : ℤ := 40009

/-- `C_HTTP_PROTOCOL_VER_1_0` -/
def cHttpProtocolVer10 : ℤ := 40010

/-- `C_HTTP_PROTOCOL_VER_1_1` -/
def cHttpProtocolVer11 : ℤ := 40011

/-! ## The request line -/

/-- `CHttpRequestLine` -/
structure CHttpRequestLine where
  full : Bool := false
  line : Bytes := []
  reqType : ℤ := 0
  path : Bytes := []
  file : Bytes := []
  arg : Bytes := []
  ver : ℤ := 0
  urlArgs : StdMap := ∅

/-- The loop that splits an argument string at `&` and `=`, on the text from `start_pos` on; it
stands at the end of `CHttpRequestLine::infuse` and in `CHttpReq::get_url_args`.  Where the next
`&` comes before the next `=`, the length given to `substr` wraps around and the value is the rest
of the text. -/
def splitArgs (text : Bytes) (args : StdMap) : StdMap :=
  match findChar 61 text with
  | none => args
  | some equalSymbol =>
    let colonPos := (findChar 38 text).getD text.length
    let value :=
      if equalSymbol < colonPos then
        (text.drop (equalSymbol + 1)).take (colonPos - (equalSymbol + 1))
      else text.drop (equalSymbol + 1)
    let args := args.insertIfNew (text.take equalSymbol) value
    if colonPos + 1 < text.length then splitArgs (text.drop (colonPos + 1)) args else args
termination_by text.length
decreasing_by rw [List.length_drop]; omega

/-- The type of a request by its method. -/
def reqTypeOf (method : Bytes) : Option ℤ :=
  if method = ascii "GET" then some cHttpReqTypeGet
  else if method = ascii "POST" ∨ method = ascii "QQPOST" then some cHttpReqTypePost
  else none

/-- The version constant of the two numbers in `HTTP/x.y`. -/
def versionOf (primary secondary : ℕ) : Option ℤ :=
  if primary = 0 ∧ secondary = 9 then some cHttpProtocolVer09
  else if primary = 1 ∧ secondary = 0 then some cHttpProtocolVer10
  else if primary = 1 ∧ secondary = 1 then some cHttpProtocolVer11
  else none

namespace CHttpRequestLine

/-- The fourth and fifth step of `infuse`: the version token at `p`, of which `leftSize` bytes
belong to the line. -/
def parseVersion (p : Bytes) (leftSize : ℕ) : Outcome ℤ := do
  let wordLen := getFirstWord (p.take leftSize)
  if wordLen = 0 then .ret cHttpErrInvalidRequestLine
  else if wordLen < 8 then .ret cHttpErrInvalidRequestLine
  else if p.take 5 ≠ ascii "HTTP/" then .ret cHttpErrInvalidRequestLine
  else do
    let c ← readByte p 6
    if c ≠ 46 then .ret cHttpErrInvalidRequestLine
    else do
      let primary ← fromStrUnsigned ((p.drop 5).take 1)
      let secondary ← fromStrUnsigned ((p.drop 7).take (wordLen - 7))
      match versionOf primary secondary with
      | none => .ret cHttpErrInvalidRequestLine
      | some version => .ok version

/-- The third to fifth step of `infuse`: URI and version in the bytes `p` behind the method.  The
search for `" HTTP/"` runs over all of `p`, and is accepted up to `leftSize`. -/
def parseTarget (dm : DataModel) (p : Bytes) (leftSize : ℕ) :
    Outcome ((Bytes × Bytes × Bytes) × ℤ) :=
  let invalid : Outcome ((Bytes × Bytes × Bytes) × ℤ) :=
    if (strstr p (ascii "\n")).isSome then .ret cHttpErrInvalidRequestLine else .ret 0
  match strstr p (ascii " HTTP/") with
  | none => invalid
  | some k =>
    if k > leftSize then invalid
    else do
      let uri ← parseUri dm p k
      let version ← parseVersion (p.drop (k + 1)) (leftSize - k)
      .ok (uri, version)

/-- `CHttpRequestLine::infuse` behind the test of `_full`: the object with all fields set and
`skip_len`, or the code it returns without setting anything. -/
def parseLine (dm : DataModel) (rl : CHttpRequestLine) (data : Bytes) :
    Outcome (CHttpRequestLine × ℕ) :=
  let (lineLen, tailLen) := getLine data
  if lineLen = 0 then .ret 0
  else
    let wordLen := getFirstWord (data.take lineLen)
    if wordLen = 0 then .ret cHttpErrInvalidRequestLine
    else match reqTypeOf (data.take wordLen) with
      | none => .ret cHttpErrInvalidRequestLine
      | some reqType => do
        let ((path, file, arg), version) ←
          parseTarget dm (data.drop (wordLen + 1)) (lineLen - wordLen)
        .ok ({ full := true, line := data.take (lineLen - tailLen), reqType, path, file, arg,
               ver := version, urlArgs := splitArgs arg rl.urlArgs }, lineLen)

/-- `CHttpRequestLine::infuse`: return code, object afterwards, `skip_len`. -/
def infuse (dm : DataModel) (rl : CHttpRequestLine) (data : Bytes) :
    Option (ℤ × CHttpRequestLine × ℕ) :=
  if rl.full then some (0, rl, 0)
  else match rl.parseLine dm data with
    | .undefined => none
    | .ret code => some (code, rl, 0)
    | .ok (rl', skipLen) => some (0, rl', skipLen)

/-- `CHttpRequestLine::get` -/
def get (rl : CHttpRequestLine) (name : Bytes) : Bytes := StdMap.get rl.urlArgs name

end CHttpRequestLine

/-! ## The body -/

/-- `CReqBody`: a length, the bytes of it that have come in, and a pointer into the buffer of the
request. -/
structure CReqBody where
  contentLength : ℕ := 0xffffffff
  infusedLength : ℕ := 0
  buf : Option Ptr := none

namespace CReqBody

/-- `CReqBody::full` -/
def full (b : CReqBody) : Bool := b.contentLength ≤ b.infusedLength

/-- `CReqBody::infuse`: the body afterwards and `skip_len`. -/
def infuse (b : CReqBody) (dataLen : ℕ) : CReqBody × ℕ :=
  if u32 (dataLen + b.infusedLength) ≤ b.contentLength then
    ({ b with infusedLength := u32 (b.infusedLength + dataLen) }, dataLen)
  else ({ b with infusedLength := b.contentLength }, b.contentLength - b.infusedLength)

end CReqBody

/-! ## The request -/

/-- `CHttpReq`; `buf` is the number of the block `_buf` points to. -/
structure CHttpReq where
  bufSize : ℕ := 0
  buf : Option ℕ := none
  dataLen : ℕ := 0
  inited : Bool := false
  parsedLen : ℕ := 0
  reqLine : CHttpRequestLine := {}
  header : CHttpHeader := {}
  contentOffset : ℕ := 0
  body : CReqBody := {}

/-- How a stage of `input` ends: with a return code, or by going ahead. -/
inductive Stage (σ : Type) where
  | done (code : ℤ) (s : σ)
  | goAhead (s : σ)

namespace CHttpReq

/-- `CHttpReq::append_data`.  The length of the chunk is an `unsigned`, so there is no call with
`2 ^ 32` bytes or more. -/
def appendData (h : Heap Byte) (o : CHttpReq) (data : Bytes) : Option (Heap Byte × CHttpReq) :=
  if 2 ^ 32 ≤ data.length then none
  else if o.bufSize = 0 then
    let (b, h) := h.alloc data
    some (h, { o with buf := some b, bufSize := data.length, dataLen := data.length })
  else do
    let old ← o.buf
    if o.bufSize < u32 (o.dataLen + data.length) then do
      let kept ← h.read ⟨old, 0⟩ o.dataLen
      let (b, h) := h.alloc (kept ++ data)
      let h ← h.free old
      some (h, { o with buf := some b, bufSize := u32 (o.dataLen + data.length),
                        dataLen := u32 (o.dataLen + data.length) })
    else do
      let h ← h.write old o.dataLen data
      some (h, { o with dataLen := u32 (o.dataLen + data.length) })

/-- The bytes from `_buf + _parsed_len` to `_buf + _data_len`. -/
def pending (o : CHttpReq) (bytes : Bytes) : Bytes := bytes.drop o.parsedLen

/-- "first, if req-line full? infuse req-line" -/
def inputReqLine (dm : DataModel) (o : CHttpReq) (bytes : Bytes) : Option (Stage CHttpReq) :=
  if o.reqLine.full then some (.goAhead o)
  else match o.reqLine.infuse dm (o.pending bytes) with
    | none => none
    | some (ret, rl, skipLen) =>
      if ret ≠ 0 then some (.done ret o)
      else
        let o := { o with reqLine := rl, parsedLen := u32 (o.parsedLen + skipLen) }
        if o.reqLine.full then some (.goAhead o) else some (.done 0 o)

/-- "set content-length": the number in the header, `0` where the header has none. -/
def contLen (header : CHttpHeader) : Outcome ℕ :=
  let scl := header.get (ascii "CONTENT-LENGTH")
  if scl = [] then .ok 0 else fromStrUnsigned scl

/-- "second, if header full? infuse header" -/
def inputHeader (o : CHttpReq) (bytes : Bytes) : Option (Stage CHttpReq) :=
  if o.header.full then some (.goAhead o)
  else match o.header.infuse (o.pending bytes) with
    | .undefined => none
    | .ret code => some (.done code o)
    | .ok (header, skipLen) =>
      let o := { o with header := header, parsedLen := u32 (o.parsedLen + skipLen) }
      if o.header.full = false then some (.done 0 o)
      else
        match contLen o.header with
        | .undefined => none
        | .ret code => some (.done code o)
        | .ok n =>
          some (.goAhead { o with
            contentOffset := o.parsedLen
            body := { o.body with contentLength := n
                                  buf := o.buf.map fun b => ⟨b, o.parsedLen⟩ } })

/-- "third, if body full? infuse body" -/
def inputBody (o : CHttpReq) (bytes : Bytes) : Stage CHttpReq :=
  if o.body.full then .goAhead o
  else
    let (body, skipLen) := o.body.infuse (o.pending bytes).length
    let o := { o with body := body, parsedLen := u32 (o.parsedLen + skipLen) }
    if o.body.full then .goAhead o else .done 0 o

/-- `CHttpReq::input` behind `append_data`, on the bytes of the buffer. -/
def parse (dm : DataModel) (o : CHttpReq) (bytes : Bytes) : Option (ℤ × CHttpReq) := do
  match ← o.inputReqLine dm bytes with
  | .done code o => some (code, o)
  | .goAhead o =>
    match ← o.inputHeader bytes with
    | .done code o => some (code, o)
    | .goAhead o =>
      match o.inputBody bytes with
      | .done code o => some (code, o)
      | .goAhead o => some (0, { o with inited := true })

/-- `CHttpReq::input`: return code, heap and object afterwards; `none` is undefined behaviour. -/
def input (dm : DataModel) (s : Heap Byte × CHttpReq) (data : Bytes) :
    Option (ℤ × Heap Byte × CHttpReq) := do
  let (h, o) ← s.2.appendData s.1 data
  let b ← o.buf
  let bytes ← h.read ⟨b, 0⟩ o.dataLen
  let (code, o) ← o.parse dm bytes
  some (code, h, o)

/-- A fresh `CHttpReq`. -/
def fresh : Heap Byte × CHttpReq := (Heap.empty, {})

end CHttpReq

end HttpCodec
end CModel
