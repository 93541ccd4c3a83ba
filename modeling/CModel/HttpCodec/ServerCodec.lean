import CModel.Foundation.CString
import CModel.Foundation.Numerals

/-!
# `http_server_codec.cpp` and `http_respond.cpp`

The completeness check that the server runs on its receive buffer, and the encoders of the codec.

* `matchStrBegin`, `httpCompleteFunc`: where a message ends.
* `normalResponse`, `forbidden`, `encodeBackProto`: the messages that are sent.
-/

namespace CModel
namespace HttpCodec

/-! ## Completeness -/

/-- `tolower(a) == tolower(b)` -/
def sameLetter (a b : Byte) : Bool := tolower a == tolower b

/-- `match_str_begin`.  The `for` loop over `i` is the search of `findBy`, the `while` loop over `j`
and `k` its test `prefixBy`; an empty pattern is not looked for. -/
def matchStrBegin (src matchstr : Bytes) : Option ℕ :=
  if matchstr = [] then none else findBy sameLetter matchstr src

/-- The end of the head: behind the first `CR LF CR LF`, and if there is none, behind the first
`LF LF`. -/
def headEnd (data : Bytes) : Option ℕ :=
  match matchStrBegin data (ascii "\r\n\r\n") with
  | some k => some (k + 4)
  | none => (matchStrBegin data (ascii "\n\n")).map (· + 2)

/-- `http_complete_func`.  `data_len` is an `unsigned`, so there is no call with `2 ^ 32` bytes or
more; a sum that does not fit an `int` is undefined.  Both are `none`. -/
def httpCompleteFunc (dm : DataModel) (data : Bytes) : Option ℤ :=
  if 2 ^ 32 ≤ data.length then none
  else if data.length < 4 then some 0
  else match headEnd data with
    | none => some 0
    | some n =>
      let headLen := int32 n
      match matchStrBegin data (ascii "Content-Length:") with
      | none => some headLen
      | some k =>
        let contentLength := atoi dm (data.drop (k + 15))
        if contentLength + headLen < -2 ^ 31 ∨ 2 ^ 31 ≤ contentLength + headLen then none
        else if int32 data.length < contentLength + headLen then some 0
        else some (contentLength + headLen)

/-! ## Encoders -/

/-- `HTTP_CONTENT_TYPE_HTML` -/
def httpContentTypeHtml : Bytes := ascii "text/html"

/-- `HTTP_CONTENT_TYPE_BINARY` -/
def httpContentTypeBinary : Bytes := ascii "application/octet-stream"

/-- The end of a head that announces a body, and the body. -/
def withLength (head body : Bytes) : Bytes :=
  head ++ (ascii "\r\nContent-Length: " ++ (decimal body.length ++ (ascii "\r\n\r\n" ++ body)))

/-- `Chttp_simple_rsp::NormalResponse` -/
def normalResponse (httpBody bodyType : Bytes) (mode : ℕ) : Bytes :=
  if mode = 0 then
    withLength (ascii "HTTP/1.1 200 OK\r\nContent-Type: " ++ bodyType) httpBody
  else if mode = 1 then
    withLength (ascii "HTTP/1.1 200 OK\r\nServer: httpserver\r\n" ++
      (ascii "Last-Modified: Thu, 14 Dec 2006 07:25:14 GMT\r\n" ++
        (ascii "Cache-Control: max-age=7200\r\nContent-Type: " ++ bodyType))) httpBody
  else
    withLength (ascii "HTTP/1.1 200 OK\r\nServer: httpserver\r\n" ++
      (ascii "Last-Modified: Thu, 14 Dec 2006 07:25:14 GMT\r\n" ++
        (ascii "Cache-Control: no-cache\r\nContent-Type: " ++ bodyType))) httpBody

/-- `Chttp_simple_rsp::Forbidden` -/
def forbidden (httpBody bodyType : Bytes) : Bytes :=
  withLength (ascii "HTTP/1.1 403 Forbidden\r\nContent-Type: " ++ bodyType) httpBody

/-- `ServerHttpCodec::encode_back_proto` -/
def encodeBackProto (ret : ℤ) (flow : ℕ) (strRsp : Bytes) : Bytes :=
  withLength (ascii "GET / HTTP/1.0\r\nRetCode: " ++ (decimalInt ret ++
    (ascii "\r\nFlowNo: " ++ decimal flow))) strRsp

end HttpCodec
end CModel
