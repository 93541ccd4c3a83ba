import CModel.Foundation.Numerals
import CModel.Json.Value

/-!
# `Json::Reader`

`reader.h`, `features.h` and the reader of `json_reader.cpp`.  A `Location` is the number of
characters in front of it; at the end of the document a zero is read.  Where an assertion fails, an
exception is thrown or the code is undefined, there is no result.

* `Reader`: the state, with the value that is filled and the way to the node at the top of `nodes_`.
* `readToken`: one token, with the comments that go to a value.
* `decodeNumber`, `decodeString`: the value of a token.
* `readValue`, `readObject`, `readArray`: the parser, with as many calls as it is given.
* `parse`.

`sscanf(text, "%lf", &value)` is the argument `scan`.
-/

namespace CModel
namespace Json

/-! ## Characters -/

abbrev quote : Byte := 34

abbrev star : Byte := 42

abbrev plus : Byte := 43

abbrev comma : Byte := 44

abbrev minus : Byte := 45

abbrev dot : Byte := 46

abbrev slash : Byte := 47

abbrev colon : Byte := 58

abbrev bracketOpen : Byte := 91

abbrev backslash : Byte := 92

abbrev bracketClose : Byte := 93

abbrev braceOpen : Byte := 123

abbrev braceClose : Byte := 125

/-- What `skipSpaces` skips. -/
def isBlank (c : Byte) : Bool := c == 32 || c == 9 || c == CR || c == LF

/-- What `readNumber` takes: digits, and the characters of `.eE+-`. -/
def isNumberChar (c : Byte) : Bool :=
  isdigit c || (c == dot || c == 101 || c == 69 || c == plus || c == minus)

/-- The characters from `start` to `stop`. -/
def slice (doc : Bytes) (start stop : ℕ) : Bytes := (doc.take stop).drop start

/-- `containsNewLine` -/
def containsNewLine (text : Bytes) : Bool := text.any fun c => c == LF || c == CR

/-! ## Texts of the scanner -/

/-- The loop of `readString`: whether it stops at a quote, and how many characters it takes. -/
def scanString : Bytes → Bool × ℕ
  | [] => (false, 0)
  | c :: rest =>
    if c = backslash then
      match rest with
      | [] => (false, 1)
      | _ :: rest => let (ok, n) := scanString rest; (ok, n + 2)
    else if c = quote then (true, 1)
    else let (ok, n) := scanString rest; (ok, n + 1)

/-- The loop of `readCStyleComment`, which stops behind a star with a slash behind it. -/
def scanCStyleComment : Bytes → ℕ
  | [] => 0
  | c :: rest => if c = star ∧ rest.headD 0 = slash then 1 else scanCStyleComment rest + 1

/-- The loop of `readCppStyleComment`, which stops behind the end of the line. -/
def scanCppStyleComment : Bytes → ℕ
  | [] => 0
  | c :: rest => if c = CR ∨ c = LF then 1 else scanCppStyleComment rest + 1

/-! ## Strings -/

/-- `codePointToUTF8` -/
def codePointToUTF8 (cp : UInt32) : Bytes :=
  if cp ≤ 0x7f then [cp.toUInt8]
  else if cp ≤ 0x7ff then
    [((cp >>> 6 &&& 0x1f) ||| 0xC0).toUInt8, ((cp &&& 0x3f) ||| 0x80).toUInt8]
  else if cp ≤ 0xffff then
    [(cp >>> 12 &&& 0xf).toUInt8 ||| 0xE0, (cp >>> 6 &&& 0x3f).toUInt8 ||| 0x80,
      ((cp &&& 0x3f) ||| 0x80).toUInt8]
  else if cp ≤ 0x10ffff then
    [((cp >>> 18 &&& 0x7) ||| 0xF0).toUInt8, ((cp >>> 12 &&& 0x3f) ||| 0x80).toUInt8,
      ((cp >>> 6 &&& 0x3f) ||| 0x80).toUInt8, ((cp &&& 0x3f) ||| 0x80).toUInt8]
  else []

/-- A message, and how many characters of the string are behind the place that it is about. -/
abbrev DecodeError := Bytes × ℕ

/-- The loop of `decodeUnicodeEscapeSequence`. -/
def hexDigits : ℕ → Bytes → UInt32 → Except DecodeError (UInt32 × Bytes)
  | 0, rest, unicode => .ok (unicode, rest)
  | _ + 1, [], unicode => .ok (unicode, [])
  | n + 1, c :: rest, unicode =>
    if isxdigit c then hexDigits n rest (unicode * 16 + UInt32.ofNat (xdigitValue c))
    else .error (ascii
      "Bad unicode escape sequence in string: hexadecimal digit expected.", rest.length)

/-- `decodeUnicodeEscapeSequence` -/
def decodeUnicodeEscapeSequence (rest : Bytes) : Except DecodeError (UInt32 × Bytes) :=
  if rest.length < 4 then
    .error (ascii "Bad unicode escape sequence in string: four digits expected.", rest.length)
  else hexDigits 4 rest 0

/-- The second half of a surrogate pair, with its `\u`. -/
def secondHalf (unicode : UInt32) (rest : Bytes) : Except DecodeError (UInt32 × Bytes) :=
  let expecting := ascii
    "expecting another \\u token to begin the second half of a unicode surrogate pair"
  if rest.length < 6 then
    .error (ascii "additional six characters expected to parse unicode surrogate pair.",
      rest.length)
  else if rest.headD 0 ≠ backslash then .error (expecting, rest.length - 1)
  else if rest.tail.headD 0 ≠ 117 then .error (expecting, rest.length - 2)
  else do
    let (surrogatePair, rest) ← decodeUnicodeEscapeSequence (rest.drop 2)
    .ok ((0x10000 : UInt32) + ((unicode &&& 0x3FF) <<< 10) + (surrogatePair &&& 0x3FF), rest)

/-- `decodeUnicodeCodePoint` -/
def decodeUnicodeCodePoint (rest : Bytes) : Except DecodeError (UInt32 × Bytes) := do
  let (unicode, rest) ← decodeUnicodeEscapeSequence rest
  if 0xD800 ≤ unicode ∧ unicode ≤ 0xDBFF then secondHalf unicode rest else .ok (unicode, rest)

/-- The characters that stand for themselves behind a backslash, and those of `bfnrt`. -/
def simpleEscape (escape : Byte) : Option Byte :=
  if escape = quote ∨ escape = slash ∨ escape = backslash then some escape
  else if escape = 98 then some 8
  else if escape = 102 then some 12
  else if escape = 110 then some 10
  else if escape = 114 then some 13
  else if escape = 116 then some 9
  else none

/-- The loop of `decodeString` on the text between the quotes. -/
def decodeLoop : ℕ → Bytes → Bytes → Except DecodeError Bytes
  | 0, _, decoded => .ok decoded
  | _ + 1, [], decoded => .ok decoded
  | fuel + 1, c :: rest, decoded =>
    if c = quote then .ok decoded
    else if c = backslash then
      match rest with
      | [] => .error (ascii "Empty escape sequence in string", 0)
      | escape :: rest =>
        match simpleEscape escape with
        | some d => decodeLoop fuel rest (decoded ++ [d])
        | none =>
          if escape = 117 then
            match decodeUnicodeCodePoint rest with
            | .error e => .error e
            | .ok (unicode, rest) => decodeLoop fuel rest (decoded ++ codePointToUTF8 unicode)
          else .error (ascii "Bad escape sequence in string", rest.length)
    else decodeLoop fuel rest (decoded ++ [c])

/-! ## Numbers -/

/-- What the loop of `decodeNumber` comes to. -/
inductive Digits where
  | notANumber
  | tooLarge
  | number (value : UInt32)
  deriving DecidableEq, Repr

/-- The loop of `decodeNumber`. -/
def digitsLoop (threshold : UInt32) : Bytes → UInt32 → Digits
  | [], value => .number value
  | c :: rest, value =>
    if !isdigit c then .notANumber
    else if threshold ≤ value then .tooLarge
    else digitsLoop threshold rest (value * 10 + UInt32.ofNat (c.toNat - 48))

/-- `isDouble` of `decodeNumber`. -/
def isDoubleText (text : Bytes) : Bool :=
  text.any (fun c => c == dot || c == 101 || c == 69 || c == plus) || text.tail.any (· == minus)

/-- The value of a text that is no `double`. -/
def integerOf {R : Type} (isNegative : Bool) (value : UInt32) : Scalar R :=
  if isNegative then .int (-value.toInt32)
  else if value ≤ 0x7fffffff then .int value.toInt32
  else .uint value

/-! ## The reader -/

/-- `Features` -/
structure Features where
  allowComments : Bool := true
  strictRoot : Bool := false
  deriving DecidableEq, Repr

/-- `Reader::TokenType` -/
inductive TokenType where
  | tokenEndOfStream
  | tokenObjectBegin
  | tokenObjectEnd
  | tokenArrayBegin
  | tokenArrayEnd
  | tokenString
  | tokenNumber
  | tokenTrue
  | tokenFalse
  | tokenNull
  | tokenArraySeparator
  | tokenMemberSeparator
  | tokenComment
  | tokenError
  deriving DecidableEq, Repr

/-- `Reader::Token` -/
structure Token where
  type : TokenType
  start : ℕ
  stop : ℕ
  deriving DecidableEq, Repr

/-- `Reader::ErrorInfo` -/
structure ErrorInfo where
  token : Token
  message : Bytes
  extra : Option ℕ
  deriving DecidableEq, Repr

/-- `Reader`.  Every pointer on `nodes_` is to an element of what the one below it is to. -/
structure Reader (R : Type) where
  doc : Bytes
  features : Features
  collectComments : Bool
  current : ℕ := 0
  lastValueEnd : Option ℕ := none
  lastValue : Option (List CZString) := none
  commentsBefore : Bytes := []
  errors : List ErrorInfo := []
  nodes : List CZString := []
  root : Value R

namespace Reader

variable {R : Type}

/-- The characters from `current_` to `end_`. -/
def rest (s : Reader R) : Bytes := s.doc.drop s.current

/-- `current_ += n` -/
def advance (n : ℕ) (s : Reader R) : Reader R := { s with current := s.current + n }

/-- The rounds for a loop that takes a character in each of them, up to the end of the document. -/
def fuel (s : Reader R) : ℕ := s.doc.length - s.current + 2

/-- `getNextChar` -/
def getNextChar (s : Reader R) : Byte × Reader R :=
  match s.rest with
  | [] => (0, s)
  | c :: _ => (c, s.advance 1)

/-- `skipSpaces` -/
def skipSpaces (s : Reader R) : Reader R := s.advance (s.rest.takeWhile isBlank).length

/-- `match` -/
def matchRest (pattern : Bytes) (s : Reader R) : Bool × Reader R :=
  if pattern <+: s.rest then (true, s.advance pattern.length) else (false, s)

/-- `readString` -/
def readString (s : Reader R) : Bool × Reader R :=
  let (ok, n) := scanString s.rest
  (ok, s.advance n)

/-- `readNumber` -/
def readNumber (s : Reader R) : Reader R := s.advance (s.rest.takeWhile isNumberChar).length

/-- `readCStyleComment` -/
def readCStyleComment (s : Reader R) : Bool × Reader R :=
  let (c, s) := (s.advance (scanCStyleComment s.rest)).getNextChar
  (c == slash, s)

/-- `readCppStyleComment` -/
def readCppStyleComment (s : Reader R) : Bool × Reader R :=
  (true, s.advance (scanCppStyleComment s.rest))

/-- `currentValue()`, and what is done to it. -/
def modifyCurrent (f : Value R → Option (Value R)) (s : Reader R) : Option (Reader R) :=
  (s.root.modifyAt s.nodes f).map fun root => { s with root }

/-- `currentValue() = value` -/
def assignCurrent (value : Value R) (s : Reader R) : Option (Reader R) :=
  s.modifyCurrent fun v => some (value.assign v)

/-- `addError` -/
def addError (message : Bytes) (token : Token) (extra : Option ℕ) (s : Reader R) : Reader R :=
  { s with errors := s.errors ++ [⟨token, message, extra⟩] }

/-! ### Comments -/

/-- `addComment` -/
def addComment (start stop : ℕ) (placement : CommentPlacement) (s : Reader R) :
    Option (Reader R) :=
  let text := slice s.doc start stop
  if placement = .commentAfterOnSameLine then do
    let lastValue ← s.lastValue
    let root ← s.root.modifyAt lastValue (Value.setComment text placement)
    some { s with root }
  else
    some { s with
      commentsBefore := if s.commentsBefore = [] then text else s.commentsBefore ++ LF :: text }

/-- The placement of a comment from `start` on, in which `c` is the second character. -/
def placementOf (c : Byte) (start : ℕ) (s : Reader R) : CommentPlacement :=
  match s.lastValueEnd with
  | none => .commentBefore
  | some lastValueEnd =>
    if !containsNewLine (slice s.doc lastValueEnd start) &&
        (c != star || !containsNewLine (slice s.doc start s.current)) then
      .commentAfterOnSameLine
    else .commentBefore

/-- `readComment` -/
def readComment (s : Reader R) : Option (Bool × Reader R) :=
  let commentBegin := s.current - 1
  let (c, s) := s.getNextChar
  let (successful, s) :=
    if c = star then s.readCStyleComment
    else if c = slash then s.readCppStyleComment
    else (false, s)
  if !successful then some (false, s)
  else if s.collectComments then
    (s.addComment commentBegin s.current (s.placementOf c commentBegin)).map (true, ·)
  else some (true, s)

/-! ### Tokens -/

/-- The `switch` of `readToken`: the type, `ok`, and what is left. -/
def readTokenFrom (c : Byte) (s : Reader R) : Option (TokenType × Bool × Reader R) :=
  if c = braceOpen then some (.tokenObjectBegin, true, s)
  else if c = braceClose then some (.tokenObjectEnd, true, s)
  else if c = bracketOpen then some (.tokenArrayBegin, true, s)
  else if c = bracketClose then some (.tokenArrayEnd, true, s)
  else if c = quote then some (.tokenString, s.readString)
  else if c = slash then s.readComment.map (.tokenComment, ·)
  else if isdigit c || c == minus then some (.tokenNumber, true, s.readNumber)
  else if c = 116 then some (.tokenTrue, s.matchRest (ascii "rue"))
  else if c = 102 then some (.tokenFalse, s.matchRest (ascii "alse"))
  else if c = 110 then some (.tokenNull, s.matchRest (ascii "ull"))
  else if c = comma then some (.tokenArraySeparator, true, s)
  else if c = colon then some (.tokenMemberSeparator, true, s)
  else if c = 0 then some (.tokenEndOfStream, true, s)
  else some (.tokenError, false, s)

/-- `readToken` -/
def readToken (s : Reader R) : Option (Token × Reader R) := do
  let s := s.skipSpaces
  let start := s.current
  let (c, s) := s.getNextChar
  let (type, ok, s) ← s.readTokenFrom c
  some (⟨if ok then type else .tokenError, start, s.current⟩, s)

/-- `while (token.type_ == tokenComment) readToken(token);` -/
def skipComments : ℕ → Token → Reader R → Option (Token × Reader R)
  | 0, _, _ => none
  | fuel + 1, token, s =>
    if token.type = .tokenComment then do
      let (token, s) ← s.readToken
      skipComments fuel token s
    else some (token, s)

/-- The first token that is no comment. -/
def nextToken (s : Reader R) : Option (Token × Reader R) := do
  let (token, s) ← s.readToken
  skipComments s.fuel token s

/-- `skipCommentTokens` -/
def skipCommentTokens (s : Reader R) : Option (Token × Reader R) :=
  if s.features.allowComments then s.nextToken else s.readToken

/-- The loop of `recoverFromError`. -/
def skipUntil (skipUntilToken : TokenType) : ℕ → Reader R → Option (Reader R)
  | 0, _ => none
  | fuel + 1, s => do
    let (skip, s) ← s.readToken
    if skip.type = skipUntilToken ∨ skip.type = .tokenEndOfStream then some s
    else skipUntil skipUntilToken fuel s

/-- `recoverFromError`, which is `false`. -/
def recoverFromError (skipUntilToken : TokenType) (s : Reader R) : Option (Bool × Reader R) :=
  (s.skipUntil skipUntilToken s.fuel).map fun s' => (false, { s' with errors := s.errors })

/-- `addErrorAndRecover` -/
def addErrorAndRecover (message : Bytes) (token : Token) (skipUntilToken : TokenType)
    (s : Reader R) : Option (Bool × Reader R) :=
  (s.addError message token none).recoverFromError skipUntilToken

/-! ### The values of tokens -/

/-- The text of a token. -/
def textOf (token : Token) (s : Reader R) : Bytes := slice s.doc token.start token.stop

/-- The error of a token that is not a number. -/
def notANumber (token : Token) (s : Reader R) : Reader R :=
  s.addError (39 :: s.textOf token ++ 39 :: ascii " is not a number.") token none

/-- `decodeDouble`, in which the zero behind 32 characters is behind the end of `buffer`. -/
def decodeDouble (scan : Bytes → Option R) (token : Token) (s : Reader R) :
    Option (Bool × Reader R) :=
  if (s.textOf token).length = 32 then none
  else
    match scan (s.textOf token) with
    | none => some (false, s.notANumber token)
    | some r => (s.assignCurrent (.scalar {} (.real r))).map (true, ·)

/-- `decodeNumber` -/
def decodeNumber (scan : Bytes → Option R) (token : Token) (s : Reader R) :
    Option (Bool × Reader R) :=
  let text := s.textOf token
  if isDoubleText text then s.decodeDouble scan token
  else
    let isNegative := text.head? == some minus
    let threshold : UInt32 := (if isNegative then 0x80000000 else 0xffffffff) / 10
    match digitsLoop threshold (if isNegative then text.tail else text) 0 with
    | .notANumber => some (false, s.notANumber token)
    | .tooLarge => s.decodeDouble scan token
    | .number value => (s.assignCurrent (.scalar {} (integerOf isNegative value))).map (true, ·)

/-- `decodeString`: the text, or the reader with the error. -/
def decodeString (token : Token) (s : Reader R) : Except (Reader R) Bytes :=
  let text := slice s.doc (token.start + 1) (token.stop - 1)
  match decodeLoop text.length text [] with
  | .ok decoded => .ok decoded
  | .error (message, left) => .error (s.addError message token (some (token.stop - 1 - left)))

/-- `decodeString` of a value. -/
def decodeStringValue (token : Token) (s : Reader R) : Option (Bool × Reader R) :=
  match s.decodeString token with
  | .error s => some (false, s)
  | .ok decoded => (s.assignCurrent (Value.string decoded)).map (true, ·)

/-- The cases of `readValue` in which the value is a single token; there is none where the token is
not a value. -/
def readSimpleValue (scan : Bytes → Option R) (token : Token) (s : Reader R) :
    Option (Option (Bool × Reader R)) :=
  match token.type with
  | .tokenNumber => (s.decodeNumber scan token).map some
  | .tokenString => (s.decodeStringValue token).map some
  | .tokenTrue => (s.assignCurrent (.scalar {} (.boolean true))).map fun s => some (true, s)
  | .tokenFalse => (s.assignCurrent (.scalar {} (.boolean false))).map fun s => some (true, s)
  | .tokenNull => (s.assignCurrent .null).map fun s => some (true, s)
  | _ => some none

/-! ### The parser -/

/-- The comments in front of a value go to it. -/
def takeComments (s : Reader R) : Option (Reader R) :=
  if s.collectComments && !s.commentsBefore.isEmpty then
    (s.modifyCurrent (Value.setComment s.commentsBefore .commentBefore)).map fun s =>
      { s with commentsBefore := [] }
  else some s

/-- What `readValue` does behind a value. -/
def leaveValue (s : Reader R) : Reader R :=
  if s.collectComments then { s with lastValueEnd := some s.current, lastValue := some s.nodes }
  else s

/-- `nodes_.push(&currentValue()[key])` -/
def push (key : CZString) (s : Reader R) : Option (Reader R) :=
  (s.modifyCurrent (Value.reach key)).map fun s => { s with nodes := key :: s.nodes }

/-- `nodes_.pop()` -/
def pop (s : Reader R) : Reader R := { s with nodes := s.nodes.tail }

mutual

/-- `readValue` -/
def readValue (scan : Bytes → Option R) : ℕ → Reader R → Option (Bool × Reader R)
  | 0, _ => none
  | fuel + 1, s => do
    let (token, s) ← s.skipCommentTokens
    let s ← s.takeComments
    let result ← (match token.type with
      | .tokenObjectBegin => (readObject scan fuel s).map some
      | .tokenArrayBegin => (readArray scan fuel s).map some
      | _ => s.readSimpleValue scan token)
    match result with
    | some (successful, s) => some (successful, s.leaveValue)
    | none => some (false, s.addError (ascii
        "Syntax error: value, object or array expected.") token none)

/-- `readObject` -/
def readObject (scan : Bytes → Option R) : ℕ → Reader R → Option (Bool × Reader R)
  | 0, _ => none
  | fuel + 1, s => do
    let s ← s.assignCurrent .object
    objectLoop scan fuel [] s

/-- The loop of `readObject`, with the name of the last member. -/
def objectLoop (scan : Bytes → Option R) : ℕ → Bytes → Reader R → Option (Bool × Reader R)
  | 0, _, _ => none
  | fuel + 1, name, s => do
    let (tokenName, s) ← s.nextToken
    if tokenName.type = .tokenObjectEnd ∧ name = [] then some (true, s)
    else if tokenName.type ≠ .tokenString then
      s.addErrorAndRecover (ascii "Missing '\x7d' or object member name") tokenName .tokenObjectEnd
    else
      match s.decodeString tokenName with
      | .error s => s.recoverFromError .tokenObjectEnd
      | .ok name => do
        let (colon, s) ← s.readToken
        if colon.type ≠ .tokenMemberSeparator then
          s.addErrorAndRecover (ascii "Missing ':' after object member name") colon .tokenObjectEnd
        else
          let s ← s.push (.name (CStr.of name))
          let (ok, s) ← readValue scan fuel s
          let s := s.pop
          if !ok then s.recoverFromError .tokenObjectEnd
          else
            let (comma, s) ← s.readToken
            if comma.type ≠ .tokenObjectEnd ∧ comma.type ≠ .tokenArraySeparator ∧
                comma.type ≠ .tokenComment then
              s.addErrorAndRecover (ascii "Missing ',' or '\x7d' in object declaration") comma
                .tokenObjectEnd
            else
              let (comma, s) ← skipComments s.fuel comma s
              if comma.type = .tokenObjectEnd then some (true, s)
              else objectLoop scan fuel name s

/-- `readArray` -/
def readArray (scan : Bytes → Option R) : ℕ → Reader R → Option (Bool × Reader R)
  | 0, _ => none
  | fuel + 1, s => do
    let s ← s.assignCurrent .array
    let s := s.skipSpaces
    if s.rest.headD 0 = bracketClose then
      let (_, s) ← s.readToken
      some (true, s)
    else arrayLoop scan fuel 0 s

/-- The loop of `readArray`.  `badTokenType` asks for two types at once and is never true, so that
whatever is between two elements counts as the comma. -/
def arrayLoop (scan : Bytes → Option R) : ℕ → ℕ → Reader R → Option (Bool × Reader R)
  | 0, _, _ => none
  | fuel + 1, index, s => do
    let s ← s.push (CZString.ofIndex index)
    let (ok, s) ← readValue scan fuel s
    let s := s.pop
    if !ok then s.recoverFromError .tokenArrayEnd
    else
      let (token, s) ← s.nextToken
      let badTokenType := token.type = .tokenArraySeparator ∧ token.type = .tokenArrayEnd
      if badTokenType then
        s.addErrorAndRecover (ascii "Missing ',' or ']' in array declaration") token
          .tokenArrayEnd
      else if token.type = .tokenArrayEnd then some (true, s)
      else arrayLoop scan fuel (index + 1) s

end

/-- The calls for the parser: a character takes at most three of them. -/
def calls (doc : Bytes) : ℕ := 3 * doc.length + 3

/-- The reader at the start of a document. -/
def start (features : Features) (doc : Bytes) (root : Value R) (collectComments : Bool) :
    Reader R :=
  { doc, features, collectComments := features.allowComments && collectComments, root }

/-- What `parse` does behind the value. -/
def finish (successful : Bool) (s : Reader R) : Option (Bool × Reader R) := do
  let (token, s) ← s.skipCommentTokens
  let s ← (if s.collectComments && !s.commentsBefore.isEmpty then
      (s.root.setComment s.commentsBefore .commentAfter).map fun root => { s with root }
    else some s)
  if s.features.strictRoot && !s.root.isArray && !s.root.isObject then
    let token := { token with type := .tokenError, start := 0, stop := s.doc.length }
    some (false, s.addError (ascii
      "A valid JSON document must be either an array or an object value.") token none)
  else some (successful, s)

/-- `parse`: what it returns, and the reader with the errors and the value. -/
def parse (scan : Bytes → Option R) (features : Features) (doc : Bytes) (root : Value R)
    (collectComments : Bool) : Option (Bool × Reader R) := do
  let (successful, s) ← (start features doc root collectComments).readValue scan (calls doc)
  s.finish successful

end Reader

end Json
end CModel
