import CModel.Foundation.Numerals
import CModel.Json.Reader

/-!
# The writers of `Json::Value`

`writer.h` and `json_writer.cpp`.

* `uintToString`, `valueToStringInt`, `trimZeros`, `valueToQuotedString`: the texts of the values
  that have no map.
* `FastWriter.write`: the text on one line.
* `StyledWriter`: the state of `StyledWriter` and of `StyledStreamWriter`, which differ in their
  indentation and in `writeIndent` only; `toStyledString`, `StyledWriter.write`.

`sprintf(buffer, "%#.16g", value)` is the argument `print`.  The negation of the smallest `int` is
undefined.
-/

namespace CModel
namespace Json

/-! ## Values without a map -/

/-- The loop of `uintToString`, which puts the digits into `char buffer[32]` from behind. -/
def uintLoop : ℕ → ℕ → Bytes → Bytes
  | 0, _, current => current
  | fuel + 1, value, current =>
    let current := digitByte (value % 10) :: current
    if value / 10 ≠ 0 then uintLoop fuel (value / 10) current else current

/-- `uintToString`, and `valueToString(UInt)`. -/
def uintToString (value : UInt32) : Bytes := uintLoop 31 value.toNat []

/-- `valueToString(Int)` -/
def valueToStringInt (value : Int32) : Option Bytes :=
  if value = Int32.minValue then none
  else if value < 0 then some (minus :: uintToString (-value).toUInt32)
  else some (uintToString value.toUInt32)

/-- What `valueToString(double)` does with the text of `sprintf`: of the zeros at the end of a
fraction it keeps one. -/
def trimZeros (buffer : Bytes) : Bytes :=
  if buffer.getLast? ≠ some 48 then buffer
  else
    let zeros := (buffer.reverse.takeWhile (· == 48)).length
    let lastNonzero := buffer.length - 1 - min zeros (buffer.length - 1)
    if ((buffer.take (lastNonzero + 1)).reverse.dropWhile isdigit).head? = some dot then
      buffer.take (lastNonzero + 2)
    else buffer

/-- `isControlCharacter`, for which a byte above 127 is negative. -/
def isControlCharacter (c : Byte) : Bool := 0 < c && c ≤ 0x1f

/-- The characters of `"\"\\\b\f\n\r\t"`, with what is written for each. -/
def escapeOf (c : Byte) : Option Bytes :=
  if c = quote then some [backslash, quote]
  else if c = backslash then some [backslash, backslash]
  else if c = 8 then some [backslash, 98]
  else if c = 12 then some [backslash, 102]
  else if c = 10 then some [backslash, 110]
  else if c = 13 then some [backslash, 114]
  else if c = 9 then some [backslash, 116]
  else none

/-- A round of the loop of `valueToQuotedString`. -/
def quoteChar (c : Byte) : Bytes :=
  match escapeOf c with
  | some text => text
  | none => if isControlCharacter c then ascii "\\u00" ++ hexPair c else [c]

/-- `valueToQuotedString` -/
def valueToQuotedString (value : Bytes) : Bytes :=
  if !value.any (fun c => (escapeOf c).isSome) && !value.any isControlCharacter then
    quote :: value ++ [quote]
  else quote :: value.flatMap quoteChar ++ [quote]

variable {R : Type}

/-- The text of a value without a map. -/
def Scalar.text (print : R → Bytes) : Scalar R → Option Bytes
  | null => some (ascii "null")
  | int n => valueToStringInt n
  | uint n => some (uintToString n)
  | real r => some (trimZeros (print r))
  | string s => some (valueToQuotedString s.bytes)
  | boolean b => some (if b then ascii "true" else ascii "false")

/-- What there is of an element `value[index]` for each of its indices. -/
def elementsOf {β : Type} (m : List (CZString × β)) (size : ℕ) (null : β) : List β :=
  (List.range size).map fun index => (Assoc.find (CZString.ofIndex index) m).getD null

/-- What there is of a member `value[name]` for each of its names. -/
def membersOf {β : Type} (m : List (CZString × β)) (null : β) : List (Bytes × β) :=
  m.filterMap fun e =>
    match e.1 with
    | .index _ => none
    | .name s => some (s.bytes, (Assoc.find (.name s) m).getD null)

/-! ## `FastWriter` -/

namespace FastWriter

/-- What stands between two elements or members. -/
def join (texts : List Bytes) : Bytes := (texts.intersperse [comma]).flatten

/-- The text of a member. -/
def memberText (yamlCompatiblityEnabled : Bool) (member : Bytes × Option Bytes) : Option Bytes :=
  member.2.map fun text => valueToQuotedString member.1 ++
    ((if yamlCompatiblityEnabled then ascii ": " else [colon]) ++ text)

mutual

/-- `FastWriter::writeValue` -/
def writeValue (print : R → Bytes) (yamlCompatiblityEnabled : Bool) : Value R → Option Bytes
  | .scalar _ s => s.text print
  | .map _ .array m =>
    ((elementsOf (writeEntries print yamlCompatiblityEnabled m) (Value.arraySize m)
      (some (ascii "null"))).mapM id).map fun texts =>
        bracketOpen :: join texts ++ [bracketClose]
  | .map _ .object m =>
    ((membersOf (writeEntries print yamlCompatiblityEnabled m) (some (ascii "null"))).mapM
      (memberText yamlCompatiblityEnabled)).map fun texts =>
        braceOpen :: join texts ++ [braceClose]

/-- The texts of the values of a map. -/
def writeEntries (print : R → Bytes) (yamlCompatiblityEnabled : Bool) :
    List (CZString × Value R) → List (CZString × Option Bytes)
  | [] => []
  | e :: m => (e.1, writeValue print yamlCompatiblityEnabled e.2) ::
      writeEntries print yamlCompatiblityEnabled m

end

/-- `FastWriter::write` -/
def write (print : R → Bytes) (yamlCompatiblityEnabled : Bool) (root : Value R) : Option Bytes :=
  (writeValue print yamlCompatiblityEnabled root).map (· ++ [LF])

end FastWriter

/-! ## `StyledWriter` and `StyledStreamWriter` -/

/-- The text with `\n` for every end of a line. -/
def normalizeEOL : Bytes → Bytes
  | [] => []
  | c :: rest =>
    if c = CR then
      match rest with
      | [] => [LF]
      | d :: rest => if d = LF then LF :: normalizeEOL rest else LF :: normalizeEOL (d :: rest)
    else c :: normalizeEOL rest

/-- `StyledWriter`, or `StyledStreamWriter` where `isStream` holds. -/
structure StyledWriter where
  isStream : Bool := false
  indentation : Bytes := ascii "   "
  document : Bytes := []
  indentString : Bytes := []
  childValues : List Bytes := []
  addChildValues : Bool := false

namespace StyledWriter

/-- `rightMargin_` -/
def rightMargin : ℕ := 74

/-- `document_ += text` -/
def append (text : Bytes) (w : StyledWriter) : StyledWriter :=
  { w with document := w.document ++ text }

/-- `pushValue` -/
def pushValue (value : Bytes) (w : StyledWriter) : StyledWriter :=
  if w.addChildValues then { w with childValues := w.childValues ++ [value] }
  else w.append value

/-- `writeIndent` -/
def writeIndent (w : StyledWriter) : StyledWriter :=
  if w.isStream then w.append (LF :: w.indentString)
  else
    match w.document.getLast? with
    | none => w.append w.indentString
    | some last =>
      if last = 32 then w
      else if last = LF then w.append w.indentString
      else w.append (LF :: w.indentString)

/-- `writeWithIndent` -/
def writeWithIndent (value : Bytes) (w : StyledWriter) : StyledWriter := w.writeIndent.append value

/-- `indent` -/
def indent (w : StyledWriter) : StyledWriter :=
  { w with indentString := w.indentString ++ w.indentation }

/-- `unindent` -/
def unindent (w : StyledWriter) : Option StyledWriter :=
  if w.indentation.length ≤ w.indentString.length then
    some { w with
      indentString := w.indentString.take (w.indentString.length - w.indentation.length) }
  else none

/-- `writeCommentBeforeValue` -/
def writeCommentBeforeValue (root : Value R) (w : StyledWriter) : StyledWriter :=
  if root.hasComment .commentBefore then
    w.append (normalizeEOL (root.getComment .commentBefore) ++ [LF])
  else w

/-- `writeCommentAfterValueOnSameLine` -/
def writeCommentAfterValueOnSameLine (root : Value R) (w : StyledWriter) : StyledWriter :=
  let w := if root.hasComment .commentAfterOnSameLine then
      w.append (32 :: normalizeEOL (root.getComment .commentAfterOnSameLine))
    else w
  if root.hasComment .commentAfter then
    w.append (LF :: normalizeEOL (root.getComment .commentAfter) ++ [LF])
  else w

/-- An element or a member, with `writeValue` of it. -/
structure Child (R : Type) where
  value : Value R
  write : StyledWriter → Option StyledWriter

/-- The child where there is none. -/
def Child.null : Child R := ⟨Value.null, fun w => some (w.pushValue (ascii "null"))⟩

/-- The second loop of `isMultineArray`: the length of the line so far. -/
def lineLoop : List (Child R) → ℕ → ℕ → StyledWriter → Option (ℕ × StyledWriter)
  | [], _, lineLength, w => some (lineLength, w)
  | child :: children, index, lineLength, w => do
    let w ← child.write w
    let childValue ← w.childValues[index]?
    lineLoop children (index + 1) (lineLength + childValue.length) w

/-- `isMultineArray` -/
def isMultineArray (children : List (Child R)) (w : StyledWriter) :
    Option (Bool × StyledWriter) :=
  let size := children.length
  let w := { w with childValues := [] }
  if rightMargin ≤ size * 3 || children.any fun child =>
      (child.value.isArray || child.value.isObject) && 0 < child.value.size then
    some (true, w)
  else do
    let (lineLength, w) ← lineLoop children 0 (4 + (size - 1) * 2) { w with addChildValues := true }
    some (decide (rightMargin ≤ lineLength), { w with addChildValues := false })

/-- What is written for each child, with a comma and the comment behind it. -/
def writeChildren {α : Type} (valueOf : α → Value R)
    (write : α → StyledWriter → Option StyledWriter) :
    List α → StyledWriter → Option StyledWriter
  | [], w => some w
  | [child], w => do
    let w ← write child (w.writeCommentBeforeValue (valueOf child))
    some (w.writeCommentAfterValueOnSameLine (valueOf child))
  | child :: children, w => do
    let w ← write child (w.writeCommentBeforeValue (valueOf child))
    writeChildren valueOf write children
      ((w.append [comma]).writeCommentAfterValueOnSameLine (valueOf child))

/-- `writeArrayValue` -/
def writeArrayValue (children : List (Child R)) (w : StyledWriter) : Option StyledWriter :=
  if children.length = 0 then some (w.pushValue (ascii "[]"))
  else do
    let (isArrayMultiLine, w) ← isMultineArray children w
    if isArrayMultiLine then
      let w := (w.writeWithIndent (ascii "[")).indent
      let w ← (if !w.childValues.isEmpty then
          if w.childValues.length < children.length then none
          else
            writeChildren (fun e : Child R × Bytes => e.1.value)
              (fun e w => some (w.writeWithIndent e.2)) (children.zip w.childValues) w
        else writeChildren Child.value (fun child w => child.write w.writeIndent) children w)
      let w ← w.unindent
      some (w.writeWithIndent (ascii "]"))
    else if w.childValues.length = children.length then
      some (w.append (ascii "[ " ++
        ((w.childValues.intersperse (ascii ", ")).flatten ++ ascii " ]")))
    else none

/-- `writeValue` of an object. -/
def writeObjectValue (members : List (Bytes × Child R)) (w : StyledWriter) :
    Option StyledWriter :=
  if members.isEmpty then some (w.pushValue (ascii "\x7b\x7d"))
  else do
    let w := (w.writeWithIndent (ascii "\x7b")).indent
    let w ← writeChildren (fun member : Bytes × Child R => member.2.value)
      (fun member w => member.2.write
        ((w.writeWithIndent (valueToQuotedString member.1)).append (ascii " : "))) members w
    let w ← w.unindent
    some (w.writeWithIndent (ascii "\x7d"))

mutual

/-- `writeValue` -/
def writeValue (print : R → Bytes) : Value R → StyledWriter → Option StyledWriter
  | .scalar _ s => fun w => (s.text print).map w.pushValue
  | .map _ .array m =>
    writeArrayValue (elementsOf (writeEntries print m) (Value.arraySize m) Child.null)
  | .map _ .object m => writeObjectValue (membersOf (writeEntries print m) Child.null)

/-- The values of a map, each with `writeValue` of it. -/
def writeEntries (print : R → Bytes) : List (CZString × Value R) → List (CZString × Child R)
  | [] => []
  | e :: m => (e.1, ⟨e.2, writeValue print e.2⟩) :: writeEntries print m

end

/-- `write` -/
def write (print : R → Bytes) (root : Value R) (w : StyledWriter) : Option Bytes := do
  let w := { w with document := [], addChildValues := false, indentString := [] }
  let w ← writeValue print root (w.writeCommentBeforeValue root)
  some ((w.writeCommentAfterValueOnSameLine root).append [LF]).document

end StyledWriter

/-- `toStyledString` -/
def Value.toStyledString (print : R → Bytes) (v : Value R) : Option Bytes :=
  StyledWriter.write print v {}

end Json
end CModel
