import CModel.Foundation.CString
import CModel.Foundation.Numerals
import CModel.Foundation.Outcome

/-!
# `http_util.h` and `http_util.cpp`

The maker of requests and the parser that reads them.  Both work on `char` buffers of a fixed size;
a write behind the end of one is undefined, and so is a read where nothing has been written.

The parser is handed a pointer into memory, `mem` below, in which a zero ends the text.
-/

namespace CModel
namespace HttpCodec

/-! ## Memory -/

/-- `memcmp(data, s, strlen(s)) == 0` -/
def memcmpEq (data s : Bytes) : Outcome Bool :=
  if s.length ≤ data.length then .ok (data.take s.length == s) else .undefined

/-- `strncpy(dst, src, n)`: what is in `dst` afterwards. -/
def strncpy (src : Bytes) (n : ℕ) : Bytes :=
  (cstr src).take n ++ List.replicate (n - (cstr src).length) 0

/-! ## The maker -/

/-- `CHttpParamStringMaker` -/
structure CHttpParamStringMaker where
  params : List (Bytes × Bytes) := []
  paramLines : Bytes := []

namespace CHttpParamStringMaker

/-- `CHttpParamStringMaker::add_param` -/
def addParam (m : CHttpParamStringMaker) (strKey strValue : Bytes) : CHttpParamStringMaker :=
  { m with params := m.params ++ [(strKey, strValue)] }

/-- The loop of `get_params`: each parameter goes through `szTmp[1024]` into `szParams[4096]`. -/
def catParams (szParams : Bytes) : List (Bytes × Bytes) → Outcome Bytes
  | [] => .ok szParams
  | param :: params =>
    let szTmp := cstr param.1 ++ 61 :: cstr param.2 ++ [38]
    if 1024 ≤ szTmp.length ∨ 4096 ≤ szParams.length + szTmp.length then .undefined
    else catParams (szParams ++ szTmp) params

/-- `CHttpParamStringMaker::get_params`.  Without any parameter it looks at `szParams[-1]`. -/
def getParams (m : CHttpParamStringMaker) : Outcome Bytes :=
  if m.paramLines ≠ [] then .ok m.paramLines
  else do
    let szParams ← catParams [] m.params
    match szParams.getLast? with
    | none => .undefined
    | some c => .ok (if c = 38 then szParams.dropLast else szParams)

/-- `szPort` -/
def portText (nPort : ℕ) : Bytes := if nPort ≠ 80 then 58 :: decimal nPort else []

/-- `CHttpMaker::GET_make` -/
def getMake (m : CHttpParamStringMaker) (strHost : Bytes) (nPort : ℕ) (strUri : Bytes) :
    Outcome Bytes := do
  let strParams ← m.getParams
  .ok (ascii "GET " ++ (cstr strUri ++ (63 :: cstr strParams ++ (ascii " HTTP/1.1\r\nHost: " ++
    (cstr strHost ++ (portText nPort ++ ascii
      "\r\nConnection: Keep-Alive\r\nAccept: */*\r\nUser-Agent: http_util\r\n\r\n"))))))

/-- `CHttpMaker::POST_make` -/
def postMake (m : CHttpParamStringMaker) (strHost : Bytes) (nPort : ℕ) (strUri : Bytes) :
    Outcome Bytes := do
  let strParams ← m.getParams
  let strContentType := ascii "application/x-www-form-urlencoded; charset=UTF-8"
  .ok (ascii "POST " ++ (cstr strUri ++ (ascii " HTTP/1.1\r\nHost: " ++
    (cstr strHost ++ (portText nPort ++ (ascii "\r\nContent-type: " ++ (strContentType ++
      (ascii "\r\nContent-Length: " ++ (decimalInt (int32 strParams.length) ++
        (ascii "\r\nConnection: Keep-Alive\r\n\r\n" ++ cstr strParams))))))))))

/-- The text goes through `szBuffer[4096]`. -/
def throughBuffer (text : Bytes) : Outcome Bytes :=
  if 4096 ≤ text.length then .undefined else .ok text

/-- `CHttpMaker::GET_make_string` -/
def getMakeString (m : CHttpParamStringMaker) (strHost : Bytes) (nPort : ℕ) (strUri : Bytes) :
    Outcome Bytes :=
  m.getMake strHost nPort strUri >>= throughBuffer

/-- `CHttpMaker::POST_make_string` -/
def postMakeString (m : CHttpParamStringMaker) (strHost : Bytes) (nPort : ℕ) (strUri : Bytes) :
    Outcome Bytes :=
  m.postMake strHost nPort strUri >>= throughBuffer

end CHttpParamStringMaker

/-! ## The length of a message -/

/-- The part of `get_length_ex` for a message with a body: `nContentPos` and `nContentLen`.  The
number goes through `szTmp[30]`, where a zero has to end it. -/
def contentLengthOf (dm : DataModel) (mem : Bytes) (headEnd : ℕ) : Outcome (ℤ × ℤ) :=
  match strstr mem (ascii "Content-Length: ") with
  | none => .ok (0, 0)
  | some k =>
    let contentLen := mem.drop (k + 16)
    match strstr contentLen (ascii "\r\n") with
    | none => .ok (0, 0)
    | some e =>
      if 30 ≤ e then .undefined
      else .ok (int32 (headEnd + 4), atoi dm (contentLen.take e))

/-- `CHttpLengthAnaly::get_length_ex`: the length, `-1` for something else than a message, `0` for a
part of one; and `nContentPos` and `nContentLen` where it sets them. -/
def getLengthEx (dm : DataModel) (mem : Bytes) (nDataLen : ℤ) :
    Outcome (ℤ × Option (ℤ × ℤ)) := do
  let bGetType ← memcmpEq mem (ascii "GET ")
  let bPostType ← if bGetType then .ok false else memcmpEq mem (ascii "POST ")
  let bRespType ← if bGetType || bPostType then .ok false else memcmpEq mem (ascii "HTTP/")
  if !(bGetType || bPostType || bRespType) then .ok (-1, none)
  else match strstr mem (ascii "\r\n\r\n") with
    | none => .ok (0, none)
    | some headEnd => do
      let nHeadLen := int32 (headEnd + 4)
      let (nContentPos, nContentLen) ←
        if bPostType || bRespType then contentLengthOf dm mem headEnd else .ok (0, 0)
      let total := nHeadLen + nContentLen
      if total < -2 ^ 31 ∨ 2 ^ 31 ≤ total then .undefined
      else if nDataLen < total then .ok (0, some (nContentPos, nContentLen))
      else .ok (total, some (nContentPos, nContentLen))

/-! ## The parser of parameters -/

/-- `CHttpParamParser` -/
structure CHttpParamParser where
  mapValues : StdMap := ∅

/-- The loop of `CHttpParamParser::parse` on the text from `szParam` on.  A `=` behind the next `&`
makes the length of the value negative, and the value empty. -/
def paramLoop (szParam : Bytes) (mapValues : StdMap) : StdMap :=
  match szParam with
  | [] => mapValues
  | c :: rest =>
    if isalpha c = false then paramLoop rest mapValues
    else match strchr (c :: rest) 61 with
      | none => mapValues
      | some szValue => match strchr (c :: rest) 38 with
        | none => mapValues
        | some szSplit =>
          let strKey := (c :: rest).take szValue
          let strValue := ((c :: rest).drop (szValue + 1)).take (szSplit - szValue - 1)
          paramLoop ((c :: rest).drop (szSplit + 1))
            (if strKey = [] then mapValues else mapValues.insertIfNew strKey strValue)
termination_by szParam.length
decreasing_by all_goals simp only [List.length_drop, List.length_cons]; omega

namespace CHttpParamParser

/-- `CHttpParamParser::parse`.  The text goes through a buffer of `4096 + nLen` bytes, and gets a
`&` at its end; where it is empty, the byte in front of the buffer is looked at. -/
def parse (p : CHttpParamParser) (szHttpParam : Bytes) (nLen : ℤ) : Outcome CHttpParamParser :=
  if nLen < 0 ∨ 2 ^ 31 ≤ 4096 + nLen then .undefined
  else do
    let bytes ← readRange szHttpParam 0 nLen.toNat
    let szBuffer := cstr bytes
    match szBuffer.getLast? with
    | none => .undefined
    | some c =>
      .ok { mapValues := paramLoop (if c ≠ 38 then szBuffer ++ [38] else szBuffer) p.mapValues }

/-- `CHttpParamParser::get_param` -/
def getParam (p : CHttpParamParser) (szKey : Bytes) : Bytes := StdMap.get p.mapValues szKey

end CHttpParamParser

/-! ## The parser of messages -/

/-- `HttpMethodType` -/
inductive HttpMethodType where
  | none
  | get
  | post
  | resp
  deriving DecidableEq, Repr

/-- `HttpParamType` -/
inductive HttpParamType where
  | all
  | headParam
  | content
  deriving DecidableEq, Repr

/-- `CHttpParser`.  `m_pszContent` is given by the bytes it points to, `m_pszUri` and
`m_pszActParam` by their places in `m_szFirstLine`. -/
structure CHttpParser where
  mapFields : StdMap := ∅
  szFirstLine : Bytes := [0]
  pszContent : Option Bytes := none
  nContentLen : ℤ := 0
  nHttpMethod : HttpMethodType := .none
  pszUri : Option ℕ := none
  pszActParam : Option ℕ := none
  paramParser : CHttpParamParser := {}
  nExtraParamType : HttpParamType := .all

/-- The loop of `parseField`, from `ptr` on: `left` is the distance to the end of the message.  The
temporary zeros cut the line at its end and the name in front of the `": "`. -/
def fieldLoop (left : ℤ) (ptr : Bytes) (mapFields : StdMap) : Outcome (StdMap × ℤ × Bytes) :=
  if left < 4 then .ok (mapFields, left, ptr)
  else do
    let blank ← memcmpEq ptr (ascii "\r\n")
    if blank then .ok (mapFields, left, ptr)
    else match _hEnd : strstr ptr (ascii "\r\n") with
      | none => .ok (mapFields, left, ptr)
      | some lineEnd =>
        let line := ptr.take lineEnd
        match strstr line (ascii ": ") with
        | none => .ok (mapFields, left, ptr)
        | some p =>
          fieldLoop (left - (lineEnd + 2)) (ptr.drop (lineEnd + 2))
            (mapFields.insertIfNew (line.take p) (line.drop (p + 2)))
termination_by ptr.length
decreasing_by
  have hle : lineEnd + 2 ≤ (cstr ptr).length := findBy_add_length_le _hEnd
  have hcstr : (cstr ptr).length ≤ ptr.length := (List.takeWhile_prefix _).length_le
  rw [List.length_drop]
  omega

namespace CHttpParser

/-- `CHttpParser::parseField` -/
def parseField (o : CHttpParser) (szHttpReq : Bytes) (nTotalLen : ℤ) :
    Outcome (Bool × CHttpParser) :=
  match strstr szHttpReq (ascii "\r\n") with
  | none => .ok (false, o)
  | some k => do
    let szFirstLine := strncpy (szHttpReq.take k) 4095
    let (mapFields, left, ptr) ←
      fieldLoop (nTotalLen - (k + 2)) (szHttpReq.drop (k + 2)) o.mapFields
    .ok (true, { o with szFirstLine, mapFields,
                        pszContent := if 2 < left then some (ptr.drop 2) else o.pszContent })

/-- `CHttpParser::parseMethod` -/
def parseMethod (o : CHttpParser) (szMethod : Bytes) (nMethodType : HttpMethodType) :
    Outcome (Bool × CHttpParser) := do
  let equal ← memcmpEq o.szFirstLine szMethod
  if !equal then .ok (false, o)
  else match strstr o.szFirstLine (ascii " HTTP") with
    | none => .ok (false, o)
    | some pEnd =>
      .ok (true, { o with szFirstLine := o.szFirstLine.set pEnd 0, nHttpMethod := nMethodType })

/-- The part of `parseFirstLine` behind its loop. -/
def splitTarget (o : CHttpParser) (pBegin : ℕ) : Bool × CHttpParser :=
  if o.nHttpMethod = .none then (false, o)
  else match strchr (o.szFirstLine.drop pBegin) 63 with
    | none => (true, { o with pszUri := some pBegin })
    | some k =>
      (true, { o with szFirstLine := o.szFirstLine.set (pBegin + k) 0,
                      pszActParam := some (pBegin + k + 1), pszUri := some pBegin })

/-- `CHttpParser::parseFirstLine`.  A first line of `4095` bytes or more has no zero behind it, and
where no method is found, the `while` loop goes round forever. -/
def parseFirstLine (o : CHttpParser) : Outcome (Bool × CHttpParser) :=
  if 0 ∉ o.szFirstLine then .undefined
  else if (cstr o.szFirstLine).length < 10 then .ok (false, o)
  else do
    let (found, o) ← o.parseMethod (ascii "GET ") .get
    if found then .ok (o.splitTarget 4)
    else do
      let (found, o) ← o.parseMethod (ascii "POST ") .post
      if found then .ok (o.splitTarget 5)
      else do
        let (found, o) ← o.parseMethod (ascii "HTTP/") .resp
        if found then .ok (o.splitTarget 5) else .undefined

/-- The parameters in the first line, where `parse_head` is to read them. -/
def parseActParam (o : CHttpParser) : Outcome CHttpParser :=
  match o.pszActParam with
  | none => .ok o
  | some off =>
    if o.nExtraParamType = .all ∨ o.nExtraParamType = .headParam then do
      let text := cstr (o.szFirstLine.drop off)
      let paramParser ← o.paramParser.parse text text.length
      .ok { o with paramParser }
    else .ok o

/-- `CHttpParser::parse_head`: return code and object afterwards. -/
def parseHead (dm : DataModel) (o : CHttpParser) (szHttpReq : Bytes) (nDataLen : ℤ)
    (nExtraParamType : HttpParamType) : Outcome (ℤ × CHttpParser) := do
  let (nTotalLen, content) ← getLengthEx dm szHttpReq nDataLen
  let o := { o with nExtraParamType,
                    nContentLen := (content.map Prod.snd).getD o.nContentLen }
  if nTotalLen ≤ 0 then .ok (nTotalLen, o)
  else do
    let (ok, o) ← o.parseField szHttpReq nTotalLen
    if !ok then .ok (-1, o)
    else do
      let (ok, o) ← o.parseFirstLine
      if !ok then .ok (-1, o)
      else do
        let o ← o.parseActParam
        .ok (nTotalLen, o)

/-- `CHttpParser::parse_form_body` -/
def parseFormBody (o : CHttpParser) : Outcome CHttpParser :=
  match o.pszContent with
  | none => .ok o
  | some content => do
    let paramParser ← o.paramParser.parse content o.nContentLen
    .ok { o with paramParser }

/-- `CHttpParser::get_uri` -/
def getUri (o : CHttpParser) : Bytes :=
  match o.pszUri with
  | none => []
  | some off => cstr (o.szFirstLine.drop off)

/-- `CHttpParser::get_param` -/
def getParam (o : CHttpParser) (szKey : Bytes) : Bytes := o.paramParser.getParam szKey

end CHttpParser

end HttpCodec
end CModel
