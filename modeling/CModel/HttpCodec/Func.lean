import CModel.Foundation.CString
import CModel.Foundation.Numerals
import CModel.Foundation.Outcome

/-!
# `http_func.cpp` and `http_base_str.h`

The scanning functions of the HTTP codec.  A pointer into the receive buffer is the list of the
bytes from there to the end of what has been received; a length argument is the length of a prefix
of that list, and where a function gets nothing but its `data_len` bytes the list is just these.

A loop `for (i = 0; i < data_len; i++)` is a recursion on the bytes left.
-/

namespace CModel
namespace HttpCodec

/-! ## `http_base_str.h` -/

/-- `from_str<unsigned>`.  It returns a local that `>>` leaves unset when the text is blank;
returning it is undefined. -/
def fromStrUnsigned (s : Bytes) : Outcome ℕ :=
  match istreamUnsigned s with
  | some n => .ok n
  | none => .undefined

/-- `from_str<int>`. -/
def fromStrInt (s : Bytes) : Outcome ℤ :=
  match istreamInt s with
  | some z => .ok z
  | none => .undefined

/-! ## Return codes -/

/-- `C_HTTP_HEADER_ERROR_INVALID_FORMAT` -/
def cHttpHeaderErrorInvalidFormat : ℤ := 120001

/-! ## Lines and words -/

/-- The loop of `get_line` from index `i` on; `prev` is `data[i-1]`, absent at `i = 0`. -/
def getLineFrom (i : ℕ) (prev : Option Byte) : Bytes → ℕ × ℕ
  | [] => (0, 0)
  | c :: rest =>
    if c = LF then
      match prev with
      | none => (1, 1)
      | some p => if p = CR then (i + 1, 2) else (i + 1, 1)
    else getLineFrom (i + 1) (some c) rest

/-- `get_line`: `line_len` and `tail_len` of the first line, both `0` if it has not ended.  It
returns `0` in every case. -/
def getLine (data : Bytes) : ℕ × ℕ := getLineFrom 0 none data

/-- `get_first_word`: `word_len`, the position of the first white space, `0` if there is none. -/
def getFirstWord (data : Bytes) : ℕ := (data.findIdx? isspace).getD 0

/-- The second loop of `get_name_value`, from `value_offset` on.  It reads
`*(data + value_offset)` before it compares `value_offset` with `data_len`. -/
def skipToSpace (dataLen : ℕ) : ℕ → Bytes → Outcome ℕ
  | _, [] => .undefined
  | valueOffset, c :: rest =>
    if isspace c = false ∧ valueOffset < dataLen then skipToSpace dataLen (valueOffset + 1) rest
    else .ok valueOffset

/-- `get_name_value`: `name_len`, `value_offset` and `value_len` of a header line of `dataLen`
bytes.  `pos == 0` stands for "no colon" and for a colon in front alike. -/
def getNameValue (data : Bytes) (dataLen : ℕ) : Outcome (ℕ × ℕ × ℕ) := do
  let pos := (findChar 58 (data.take dataLen)).getD 0
  if pos = 0 then .ret cHttpHeaderErrorInvalidFormat
  else do
    let valueOffset ← skipToSpace dataLen (pos + 1) (data.drop (pos + 1))
    .ok (pos, valueOffset, dataLen - valueOffset)

/-! ## URIs -/

/-- `decode_string` on all of `data`, with `room` bytes left in `buf`: what it writes. -/
def decodeString : Bytes → ℕ → Outcome Bytes
  | [], _ => .ok []
  | c :: rest, room =>
    if room = 0 then .ok []
    else if c = 37 then
      match rest with
      | a :: b :: rest' => do
        let out ← decodeString rest' (room - 1)
        .ok (toChar (strtol16 (cstr [a, b])) :: out)
      | _ => .ret (-1)
    else do
      let out ← decodeString rest (room - 1)
      .ok (c :: out)

/-- `uri_end` of `parse_uri`: an `unsigned` that holds `ULONG_MAX` cut to 32 bits when there is no
`?`, and is then compared with `ULONG_MAX` itself. -/
def uriEnd (dm : DataModel) (data : Bytes) (dataLen : ℕ) : ℕ :=
  let e := (findChar 63 (data.take dataLen)).getD (u32 dm.ulongMax)
  if e = dm.ulongMax then dataLen else e

/-- The backward loop of `parse_uri` for the last `/` in front of `i`. -/
def fileStart (dm : DataModel) (data : Bytes) : ℕ → Outcome ℕ
  | 0 => .ok (u32 dm.ulongMax)
  | i + 1 => do
    let c ← readByte data i
    if c = 47 then .ok i else fileStart dm data i

/-- `C_MAX_ARG_SIZE` -/
def cMaxArgSize : ℕ := 2 ^ 10

/-- The part of `parse_uri` behind the shortcut.  `sArg[arg_len] = 0` is out of bounds when the
decoded argument fills `sArg`. -/
def splitUri (dm : DataModel) (data : Bytes) (dataLen : ℕ) : Outcome (Bytes × Bytes × Bytes) := do
  let e := uriEnd dm data dataLen
  let f ← fileStart dm data e
  if f = dm.ulongMax then .ret (-1)
  else do
    let path ← readRange data 0 f
    let file ← readRange data (f + 1) (e - f - 1)
    if e = dataLen then .ok (path, file, [])
    else do
      let sArg ← decodeString ((data.drop (e + 1)).take (dataLen - e - 1)) cMaxArgSize
      if sArg.length < cMaxArgSize then .ok (path, file, cstr sArg) else .undefined

/-- `parse_uri`: `path`, `file` and `arg` of the `dataLen` bytes at `data`.  For a `/` followed by
a blank it returns at once and leaves the three strings empty, as its caller hands them over. -/
def parseUri (dm : DataModel) (data : Bytes) (dataLen : ℕ) : Outcome (Bytes × Bytes × Bytes) := do
  let c ← readByte data 0
  if c = 47 then do
    let d ← readByte data 1
    if d = 32 then .ok ([], [], []) else splitUri dm data dataLen
  else splitUri dm data dataLen

end HttpCodec
end CModel
