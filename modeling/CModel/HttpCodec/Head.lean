import CModel.HttpCodec.Func

/-!
# `http_head.h` and `http_head.cpp`

`CHttpHeader` collects the header lines of a message.  `infuse` may be called again and again with
the bytes behind what it has consumed; `output` writes the attributes back as header lines.
-/

namespace CModel
namespace HttpCodec

/-- `C_HTTP_HEADER_ERROR_ASSENBLY_INCOMPLETE` -/
def cHttpHeaderErrorAssenblyIncomplete : ℤ := 120002

/-- `C_HTTP_HEADER_ERROR_BUFF_NOT_ENOUGH` -/
def cHttpHeaderErrorBuffNotEnough : ℤ := 120003

/-- `CHttpHeader` -/
structure CHttpHeader where
  full : Bool := false
  headAttribute : StdMap := ∅

/-- `C_MAX_HEAD_LINE`: the lines one call of `infuse` looks at. -/
def cMaxHeadLine : ℕ := 2 ^ 13

namespace CHttpHeader

/-- `CHttpHeader::get` -/
def get (h : CHttpHeader) (name : Bytes) : Bytes := StdMap.get h.headAttribute name

/-- `_head_attribute[sName] = string(p + value_offset, value_len)`: the name goes through a
`char*`, so it ends at its first zero. -/
def set (h : CHttpHeader) (name value : Bytes) : CHttpHeader :=
  { h with headAttribute := h.headAttribute.insert (cstr (name.map toupper)) value }

/-- The loop of `CHttpHeader::infuse` with `n` rounds left, on the bytes from `p` on, with
`skip_len` so far.  A line that `get_name_value` rejects is counted in `skip_len` and ends the
call. -/
def infuseFrom : ℕ → CHttpHeader → Bytes → ℕ → Outcome (CHttpHeader × ℕ)
  | 0, h, _, skipLen => .ok (h, skipLen)
  | n + 1, h, p, skipLen =>
    let (lineLen, tailLen) := getLine p
    if lineLen = 0 then .ok (h, skipLen)
    else if lineLen = tailLen then .ok ({ h with full := true }, skipLen + lineLen)
    else match getNameValue p (lineLen - tailLen) with
      | .undefined => .undefined
      | .ret _ => .ok (h, skipLen + lineLen)
      | .ok (nameLen, valueOffset, valueLen) =>
        infuseFrom n (h.set (p.take nameLen) ((p.drop valueOffset).take valueLen))
          (p.drop lineLen) (skipLen + lineLen)

/-- `CHttpHeader::infuse`: the header afterwards and `skip_len`.  It returns `0` whenever it
returns. -/
def infuse (h : CHttpHeader) (data : Bytes) : Outcome (CHttpHeader × ℕ) :=
  infuseFrom cMaxHeadLine h data 0

/-- One `sprintf(buf + offset, "%s: %s\r\n", ..)` of `output`. -/
def attributeLine (name value : Bytes) : Bytes :=
  cstr name ++ ascii ": " ++ cstr value ++ ascii "\r\n"

/-- The loop of `CHttpHeader::output` on the attributes left, with `out` written so far.  The bound
checked leaves out the zero that `sprintf` writes behind its text; writing it past the end of the
buffer is undefined, which is `none`. -/
def outputFrom (buffSize : ℕ) : List (Bytes × Bytes) → Bytes → Option (ℤ × Bytes)
  | [], out => some (0, out)
  | (name, value) :: rest, out =>
    if out.length + name.length + value.length + 4 > buffSize then
      some (-cHttpHeaderErrorBuffNotEnough, out)
    else if out.length + (attributeLine name value).length < buffSize then
      outputFrom buffSize rest (out ++ attributeLine name value)
    else none

/-- `CHttpHeader::output`: the return code and the text written to `buf`. -/
def output (h : CHttpHeader) (buffSize : ℕ) : Option (ℤ × Bytes) :=
  if h.full = false then some (-cHttpHeaderErrorAssenblyIncomplete, [])
  else outputFrom buffSize h.headAttribute.toList []

end CHttpHeader

end HttpCodec
end CModel
