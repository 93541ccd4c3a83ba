import CModel.Json.Grammar
import CModel.Json.Placed

/-!
# The reader reads JSON

* `Passed`: what a call of the parser leaves of the reader.
* `readToken_of`: a token behind blanks.
* `readsItem`: the parser on what is spelled, by induction on how it is spelled.
* `parse_of_spells`: every text that is JSON is read, as the value that it is of.
-/

namespace CModel
namespace Json

variable {R : Type} {scan : Bytes → Option R}

theorem takeWhile_stop {p : Byte → Bool} {l tail : Bytes} (hl : ∀ c ∈ l, p c = true)
    (htail : ∀ c ∈ tail.head?, p c = false) : (l ++ tail).takeWhile p = l := by
  rw [List.takeWhile_append_of_pos hl]
  cases tail with
  | nil => exact List.append_nil l
  | cons c tail =>
    rw [List.takeWhile_cons_of_neg (by rw [htail c rfl]; decide), List.append_nil]

/-! ## Numbers -/

namespace NumberText

theorem isNumberChar_of_isdigit {c : Byte} (h : isdigit c = true) : isNumberChar c = true := by
  rw [isNumberChar, h]
  rfl

/-- A number starts with a digit or a minus, and goes on with characters of numbers. -/
theorem exists_cons {text : Bytes} {n : Scalar R} (h : NumberText scan text n) :
    ∃ c rest, text = c :: rest ∧ (isdigit c || c == minus) = true ∧
      ∀ d ∈ rest, isNumberChar d = true := by
  have hsigned : ∀ (isNegative : Bool) {ds : Bytes}, ds ≠ [] → (∀ c ∈ ds, isdigit c = true) →
      ∃ c rest, signText isNegative ++ ds = c :: rest ∧ (isdigit c || c == minus) = true ∧
        ∀ d ∈ rest, isNumberChar d = true := by
    intro isNegative ds hne hds
    cases isNegative with
    | true => exact ⟨minus, ds, rfl, rfl, fun d hd => isNumberChar_of_isdigit (hds d hd)⟩
    | false =>
      obtain ⟨c, rest, rfl⟩ := List.exists_cons_of_ne_nil hne
      obtain ⟨hc, hrest⟩ := List.forall_mem_cons.mp hds
      exact ⟨c, rest, rfl, by rw [hc]; rfl, fun d hd => isNumberChar_of_isdigit (hrest d hd)⟩
  cases h with
  | integer isNegative hne hds _ => exact hsigned isNegative hne hds
  | large isNegative hne hds _ _ _ => exact hsigned isNegative hne hds
  | double hc hrest _ _ _ => exact ⟨_, _, rfl, hc, hrest⟩

theorem ne_of_isdigit {c d : Byte} (hc : isdigit c = true) (hd : isdigit d = false) :
    (c == d) = false := by
  refine beq_eq_false_iff_ne.mpr ?_
  rintro rfl
  rw [hc] at hd
  exact absurd hd (by decide)

/-- An integer is not taken for a `double`. -/
theorem isDoubleText_digits (isNegative : Bool) {ds : Bytes} (hds : ∀ c ∈ ds, isdigit c = true) :
    isDoubleText (signText isNegative ++ ds) = false := by
  have hno : ∀ c ∈ ds, (c == dot || c == 101 || c == 69 || c == plus) = false := by
    intro c hc
    rw [ne_of_isdigit (hds c hc) rfl, ne_of_isdigit (hds c hc) rfl, ne_of_isdigit (hds c hc) rfl,
      ne_of_isdigit (hds c hc) rfl]
    rfl
  have hminus : ∀ c ∈ ds, (c == minus) = false := fun c hc => ne_of_isdigit (hds c hc) rfl
  rw [isDoubleText, Bool.or_eq_false_iff, List.any_eq_false, List.any_eq_false]
  cases isNegative with
  | true =>
    refine ⟨?_, fun c hc => by rw [hminus c hc]; decide⟩
    intro c hc
    rcases List.mem_cons.mp hc with rfl | hc
    · decide
    · rw [hno c hc]
      decide
  | false =>
    refine ⟨fun c hc => by rw [hno c hc]; decide, ?_⟩
    intro c hc
    rw [hminus c (List.mem_of_mem_tail hc)]
    decide

theorem head?_signText (isNegative : Bool) {ds : Bytes} (hne : ds ≠ [])
    (hds : ∀ c ∈ ds, isdigit c = true) :
    ((signText isNegative ++ ds).head? == some minus) = isNegative := by
  cases isNegative with
  | true => rfl
  | false =>
    obtain ⟨c, rest, rfl⟩ := List.exists_cons_of_ne_nil hne
    exact ne_of_isdigit (hds c List.mem_cons_self) rfl

/-- The value of the token is the one of the number. -/
theorem decodeNumber {text : Bytes} {n : Scalar R} (h : NumberText scan text n) {token : Token}
    {s : Reader R} (htext : s.textOf token = text) :
    s.decodeNumber scan token = (s.assignCurrent (.scalar {} n)).map (true, ·) := by
  have hdouble : ∀ {r : R}, text.length ≠ 32 → scan text = some r →
      s.decodeDouble scan token = (s.assignCurrent (.scalar {} (.real r))).map (true, ·) := by
    intro r hlen hscan
    rw [Reader.decodeDouble, htext, if_neg hlen, hscan]
  have hthreshold : ∀ isNegative : Bool,
      (if isNegative then 0x80000000 else 0xffffffff : UInt32) / 10 =
        UInt32.ofNat (integerLimit isNegative / 10) := by
    decide
  have hlimit : ∀ isNegative : Bool, 10 * (integerLimit isNegative / 10) = integerLimit isNegative ∧
      integerLimit isNegative < UInt32.size := by
    decide
  have htail : ∀ (isNegative : Bool) (ds : Bytes),
      (if isNegative then (signText isNegative ++ ds).tail
        else signText isNegative ++ ds) = ds := by
    intro isNegative ds
    cases isNegative <;> rfl
  cases h with
  | @integer ds isNegative hne hds hlt =>
    rw [Reader.decodeNumber]
    simp only [htext, isDoubleText_digits isNegative hds, Bool.false_eq_true, if_false,
      head?_signText isNegative hne hds, hthreshold, htail]
    have hloop : digitsLoop (UInt32.ofNat (integerLimit isNegative / 10)) ds (UInt32.ofNat 0) =
        .number (UInt32.ofNat (digitsFrom 0 ds)) :=
      digitsLoop_number hds (by rw [(hlimit _).1]; exact (hlimit _).2)
        (by rw [(hlimit _).1]; exact hlt)
    rw [show (0 : UInt32) = UInt32.ofNat 0 from rfl, hloop]
    rfl
  | @large ds r isNegative hne hds hle hlen hscan =>
    rw [Reader.decodeNumber]
    simp only [htext, isDoubleText_digits isNegative hds, Bool.false_eq_true, if_false,
      head?_signText isNegative hne hds, hthreshold, htail]
    have hpos : 0 < integerLimit isNegative := by cases isNegative <;> decide
    have hloop : digitsLoop (UInt32.ofNat (integerLimit isNegative / 10)) ds (UInt32.ofNat 0) =
        .tooLarge :=
      digitsLoop_tooLarge hds (by rw [(hlimit _).1]; exact (hlimit _).2)
        (by rw [(hlimit _).1]; exact hpos) (by rw [(hlimit _).1]; exact hle)
    rw [show (0 : UInt32) = UInt32.ofNat 0 from rfl, hloop]
    exact hdouble hlen hscan
  | double _ _ hisDouble hlen hscan =>
    rw [Reader.decodeNumber]
    simp only [htext, hisDouble, if_true]
    exact hdouble hlen hscan

/-- A number does not start with a blank. -/
theorem isBlank_eq_false {c : Byte} (h : (isdigit c || c == minus) = true) : isBlank c = false := by
  rcases Bool.or_eq_true_iff.mp h with hd | hm
  · rw [isBlank, ne_of_isdigit hd rfl, ne_of_isdigit hd rfl, ne_of_isdigit hd rfl,
      ne_of_isdigit hd rfl]
    rfl
  · rw [beq_iff_eq.mp hm]
    decide

end NumberText

/-! ## Tokens -/

/-- `n` characters further, and perhaps with another tree and another last value. -/
def Passed (s : Reader R) (n : ℕ) (s' : Reader R) : Prop :=
  ∃ root lastValueEnd lastValue, s' =
    { s with current := s.current + n, root := root, lastValueEnd := lastValueEnd,
             lastValue := lastValue }

namespace Reader

variable {s s' : Reader R} {ws text tail : Bytes} {c : Byte}

theorem rest_advance (n : ℕ) (s : Reader R) : (s.advance n).rest = s.rest.drop n := by
  rw [rest, rest, List.drop_drop]
  rfl

theorem advance_advance (m n : ℕ) (s : Reader R) : (s.advance m).advance n = s.advance (m + n) := by
  rw [advance, advance, advance, Nat.add_assoc]

/-- The text of a token that is in front of the reader. -/
theorem slice_rest (h : s.rest = ws ++ (text ++ tail)) :
    slice s.doc (s.current + ws.length) (s.current + ws.length + text.length) = text := by
  have hdrop : s.doc.drop (s.current + ws.length) = text ++ tail := by
    rw [← List.drop_drop, ← rest, h, List.drop_left]
  rw [slice, List.drop_take, hdrop, Nat.add_sub_cancel_left, List.take_left]

theorem skipSpaces_of (tail : Bytes) (hws : Blank ws) (htail : ∀ c ∈ tail.head?, isBlank c = false)
    (h : s.rest = ws ++ tail) : s.skipSpaces = s.advance ws.length := by
  rw [skipSpaces, h, takeWhile_stop hws htail]

/-- A token behind blanks. -/
theorem readToken_of (hws : Blank ws) (hc : isBlank c = false) (h : s.rest = ws ++ c :: tail) :
    s.readToken = ((s.advance (ws.length + 1)).readTokenFrom c).map fun (type, ok, s') =>
      (⟨if ok then type else .tokenError, s.current + ws.length, s'.current⟩, s') := by
  have hskip : s.skipSpaces = s.advance ws.length :=
    skipSpaces_of _ hws (fun d hd => by obtain rfl := Option.mem_some.mp hd; exact hc) h
  have hnext : (s.advance ws.length).getNextChar = (c, s.advance (ws.length + 1)) := by
    rw [getNextChar, rest_advance, h, List.drop_left, advance_advance]
  rw [readToken]
  simp only [hskip, hnext]
  cases (s.advance (ws.length + 1)).readTokenFrom c with
  | none => rfl
  | some r => rfl

/-- A token of one character. -/
theorem readToken_punct (type : TokenType)
    (hfrom : ∀ s : Reader R, s.readTokenFrom c = some (type, true, s)) (hws : Blank ws)
    (hc : isBlank c = false) (h : s.rest = ws ++ c :: tail) :
    s.readToken = some (⟨type, s.current + ws.length, s.current + (ws.length + 1)⟩,
      s.advance (ws.length + 1)) := by
  rw [readToken_of hws hc h, hfrom]
  rfl

/-- A string. -/
theorem readToken_string {body decoded : Bytes} (hbody : StringBody body decoded) (hws : Blank ws)
    (h : s.rest = ws ++ quote :: (body ++ quote :: tail)) :
    s.readToken = some (⟨.tokenString, s.current + ws.length,
      s.current + (ws.length + (body.length + 2))⟩, s.advance (ws.length + (body.length + 2))) := by
  have hrest : (s.advance (ws.length + 1)).rest = body ++ quote :: tail := by
    rw [rest_advance, h, ← List.drop_drop, List.drop_left]
    rfl
  have hfrom : (s.advance (ws.length + 1)).readTokenFrom quote =
      some (.tokenString, (s.advance (ws.length + 1)).readString) := rfl
  rw [readToken_of hws (by decide) h, hfrom, readString, hrest, scanString_body hbody]
  simp only [Option.map_some, if_true, advance_advance]
  have hlen : ws.length + 1 + (body.length + 1) = ws.length + (body.length + 2) := by omega
  rw [hlen]
  rfl

/-- The text of a string is decoded. -/
theorem decodeString_of (s' : Reader R) {body decoded : Bytes} (hbody : StringBody body decoded)
    (h : s.rest = ws ++ quote :: (body ++ quote :: tail)) (hdoc : s'.doc = s.doc)
    (type : TokenType) :
    s'.decodeString ⟨type, s.current + ws.length, s.current + (ws.length + (body.length + 2))⟩ =
      .ok decoded := by
  have hrest : s.rest = (ws ++ [quote]) ++ (body ++ quote :: tail) := by
    rw [h, List.append_assoc]
    rfl
  have hlen : (ws ++ [quote]).length = ws.length + 1 := by
    rw [List.length_append, List.length_singleton]
  have hstart : s.current + ws.length + 1 = s.current + (ws ++ [quote]).length := by
    rw [hlen, Nat.add_assoc]
  have hstop : s.current + (ws.length + (body.length + 2)) - 1 =
      s.current + (ws ++ [quote]).length + body.length := by
    rw [hlen]
    omega
  have hslice : slice s'.doc (s.current + ws.length + 1)
      (s.current + (ws.length + (body.length + 2)) - 1) = body := by
    rw [hdoc, hstart, hstop, slice_rest hrest]
  rw [decodeString]
  simp only [hslice, decodeLoop_body hbody (Nat.le_refl _), List.nil_append]

/-- A number. -/
theorem readToken_number {n : Scalar R} (hnum : NumberText scan text n) (hws : Blank ws)
    (htail : ∀ c ∈ tail.head?, isNumberChar c = false) (h : s.rest = ws ++ (text ++ tail)) :
    s.readToken = some (⟨.tokenNumber, s.current + ws.length,
      s.current + (ws.length + text.length)⟩, s.advance (ws.length + text.length)) := by
  obtain ⟨c, rest, rfl, hc, hrest⟩ := hnum.exists_cons
  have hfrom : ∀ s : Reader R, s.readTokenFrom c = some (.tokenNumber, true, s.readNumber) := by
    have hne : ∀ d : Byte, isdigit d = false → d ≠ minus → c ≠ d := by
      rintro d hd hm rfl
      rw [hd, beq_eq_false_iff_ne.mpr hm] at hc
      exact absurd hc (by decide)
    intro s
    rw [readTokenFrom, if_neg (hne _ rfl (by decide)), if_neg (hne _ rfl (by decide)),
      if_neg (hne _ rfl (by decide)), if_neg (hne _ rfl (by decide)),
      if_neg (hne _ rfl (by decide)), if_neg (hne _ rfl (by decide)), if_pos hc]
  have hnext : (s.advance (ws.length + 1)).rest = rest ++ tail := by
    rw [rest_advance, h, ← List.drop_drop, List.drop_left]
    rfl
  rw [readToken_of hws (NumberText.isBlank_eq_false hc) h, hfrom, readNumber, hnext,
    takeWhile_stop hrest htail, advance_advance]
  have hlen : ws.length + 1 + rest.length = ws.length + (c :: rest).length := by
    rw [List.length_cons]
    omega
  rw [hlen]
  rfl

/-- A word. -/
theorem readToken_word {type : TokenType} {pattern : Bytes}
    (hfrom : ∀ s : Reader R, s.readTokenFrom c = some (type, s.matchRest pattern)) (hws : Blank ws)
    (hc : isBlank c = false) (h : s.rest = ws ++ (c :: pattern ++ tail)) :
    s.readToken = some (⟨type, s.current + ws.length,
      s.current + (ws.length + (c :: pattern).length)⟩,
      s.advance (ws.length + (c :: pattern).length)) := by
  have hrest : (s.advance (ws.length + 1)).rest = pattern ++ tail := by
    rw [rest_advance, h, ← List.drop_drop, List.drop_left]
    rfl
  rw [readToken_of hws hc h, hfrom, matchRest, hrest, if_pos (List.prefix_append _ _)]
  simp only [Option.map_some, if_true, advance_advance]
  have hlen : ws.length + 1 + pattern.length = ws.length + (c :: pattern).length := by
    rw [List.length_cons]
    omega
  rw [hlen]
  rfl

/-- The end of the document. -/
theorem readToken_end (hws : Blank ws) (h : s.rest = ws) :
    s.readToken = some (⟨.tokenEndOfStream, s.current + ws.length, s.current + ws.length⟩,
      s.advance ws.length) := by
  have hskip : s.skipSpaces = s.advance ws.length :=
    skipSpaces_of [] hws (fun d hd => absurd hd (by simp))
      (by rw [h, List.append_nil])
  have hnext : (s.advance ws.length).getNextChar = (0, s.advance ws.length) := by
    rw [getNextChar, rest_advance, h, List.drop_length]
  rw [readToken]
  simp only [hskip, hnext]
  rfl

/-- A token that is no comment is not skipped. -/
theorem nextToken_of {token : Token} (h : s.readToken = some (token, s'))
    (htype : token.type ≠ .tokenComment) : s.nextToken = some (token, s') := by
  rw [nextToken, h]
  exact if_neg htype

theorem skipCommentTokens_of {token : Token} (h : s.readToken = some (token, s'))
    (htype : token.type ≠ .tokenComment) : s.skipCommentTokens = some (token, s') := by
  rw [skipCommentTokens]
  split
  · exact nextToken_of h htype
  · exact h

theorem takeComments_of (h : s.commentsBefore = []) : s.takeComments = some s := by
  rw [takeComments, h, List.isEmpty_nil, Bool.not_true, Bool.and_false]
  rfl

theorem assignCurrent_of {v root : Value R} (h : Placed s.nodes v s.root root) :
    s.assignCurrent v = some { s with root := root } := by
  rw [assignCurrent, modifyCurrent, h]
  rfl

theorem push_of {key : CZString} {root : Value R}
    (h : s.root.modifyAt s.nodes (Value.reach key) = some root) :
    s.push key = some { s with root := root, nodes := key :: s.nodes } := by
  rw [push, modifyCurrent, h]
  rfl

theorem skipComments_of {token : Token} (htype : token.type ≠ .tokenComment) :
    skipComments s.fuel token s = some (token, s) := if_neg htype

/-! ### Blanks in front -/

theorem skipSpaces_skipSpaces (s : Reader R) : s.skipSpaces.skipSpaces = s.skipSpaces := by
  have hrest : s.skipSpaces.rest = s.rest.dropWhile isBlank := by
    have hdrop := @List.drop_left _ (s.rest.takeWhile isBlank) (s.rest.dropWhile isBlank)
    rw [List.takeWhile_append_dropWhile] at hdrop
    rw [skipSpaces, rest_advance, hdrop]
  have hnil : (s.rest.dropWhile isBlank).takeWhile isBlank = [] := by
    cases hd : s.rest.dropWhile isBlank with
    | nil => rfl
    | cons c l =>
      have hc := List.head?_dropWhile_not isBlank s.rest
      rw [hd] at hc
      exact List.takeWhile_cons_of_neg (by simpa using hc)
  rw [skipSpaces, hrest, hnil]
  rfl

theorem readToken_skipSpaces (s : Reader R) : s.skipSpaces.readToken = s.readToken := by
  rw [readToken, readToken, skipSpaces_skipSpaces]

theorem readValue_skipSpaces (fuel : ℕ) (s : Reader R) :
    readValue scan fuel s.skipSpaces = readValue scan fuel s := by
  cases fuel with
  | zero => rfl
  | succ fuel =>
    have htoken : s.skipSpaces.skipCommentTokens = s.skipCommentTokens := by
      rw [skipCommentTokens, skipCommentTokens, nextToken, nextToken, readToken_skipSpaces]
      rfl
    rw [readValue, readValue, htoken]

theorem arrayLoop_skipSpaces (fuel index : ℕ) (s : Reader R) :
    arrayLoop scan fuel index s.skipSpaces = arrayLoop scan fuel index s := by
  cases fuel with
  | zero => rfl
  | succ fuel =>
    have hpush : s.skipSpaces.push (.ofIndex index) = (s.push (.ofIndex index)).map skipSpaces := by
      rw [push, push, modifyCurrent, modifyCurrent, Option.map_map, Option.map_map, Option.map_map]
      rfl
    rw [arrayLoop, arrayLoop, hpush]
    simp only [Option.bind_eq_bind, Option.bind_map, Function.comp_def, readValue_skipSpaces]

/-! ### The parts of the parser -/

/-- A value that is a single token. -/
theorem readValue_simple {token : Token} {fuel : ℕ} {ok : Bool} {s'' : Reader R}
    (htoken : s.readToken = some (token, s')) (hcomments : s'.commentsBefore = [])
    (h : s'.readSimpleValue scan token = some (some (ok, s''))) :
    readValue scan (fuel + 1) s = some (ok, s''.leaveValue) := by
  have htype : token.type ≠ .tokenObjectBegin ∧ token.type ≠ .tokenArrayBegin ∧
      token.type ≠ .tokenComment := by
    refine ⟨?_, ?_, ?_⟩ <;>
    · intro htype
      rw [readSimpleValue, htype] at h
      exact absurd h (by simp)
  rw [readValue, skipCommentTokens_of htoken htype.2.2]
  simp only [Option.bind_eq_bind, Option.bind_some, takeComments_of hcomments]
  split
  · next hobject => exact absurd hobject htype.1
  · next harray => exact absurd harray htype.2.1
  · rw [h]
    rfl

theorem readValue_array {token : Token} {fuel : ℕ} {ok : Bool} {s'' : Reader R}
    (htoken : s.readToken = some (token, s')) (htype : token.type = .tokenArrayBegin)
    (hcomments : s'.commentsBefore = []) (h : readArray scan fuel s' = some (ok, s'')) :
    readValue scan (fuel + 1) s = some (ok, s''.leaveValue) := by
  rw [readValue, skipCommentTokens_of htoken (by rw [htype]; decide)]
  simp only [Option.bind_eq_bind, Option.bind_some, takeComments_of hcomments, htype, h,
    Option.map_some]

theorem readValue_object {token : Token} {fuel : ℕ} {ok : Bool} {s'' : Reader R}
    (htoken : s.readToken = some (token, s')) (htype : token.type = .tokenObjectBegin)
    (hcomments : s'.commentsBefore = []) (h : readObject scan fuel s' = some (ok, s'')) :
    readValue scan (fuel + 1) s = some (ok, s''.leaveValue) := by
  rw [readValue, skipCommentTokens_of htoken (by rw [htype]; decide)]
  simp only [Option.bind_eq_bind, Option.bind_some, takeComments_of hcomments, htype, h,
    Option.map_some]

/-- A round of the loop of `readArray` whose value is read. -/
theorem arrayLoop_of {token : Token} {fuel index : ℕ} {s₁ s₂ s₃ : Reader R}
    (hpush : s.push (.ofIndex index) = some s₁) (hread : readValue scan fuel s₁ = some (true, s₂))
    (htoken : s₂.pop.nextToken = some (token, s₃)) :
    arrayLoop scan (fuel + 1) index s =
      if token.type = .tokenArrayEnd then some (true, s₃)
      else arrayLoop scan fuel (index + 1) s₃ := by
  have hgood : ¬ (token.type = .tokenArraySeparator ∧ token.type = .tokenArrayEnd) := by
    rintro ⟨h₁, h₂⟩
    rw [h₁] at h₂
    exact absurd h₂ (by decide)
  rw [arrayLoop, hpush]
  simp only [Option.bind_eq_bind, Option.bind_some, hread, Bool.not_true, Bool.false_eq_true,
    if_false, htoken, if_neg hgood]

/-- A round of the loop of `readObject` whose member is read. -/
theorem objectLoop_of {tokenName colon comma : Token} {fuel : ℕ} {name name' : Bytes}
    {s₁ s₂ s₃ s₄ s₅ : Reader R} (htokenName : s.nextToken = some (tokenName, s₁))
    (htype : tokenName.type = .tokenString) (hname : s₁.decodeString tokenName = .ok name')
    (hcolon : s₁.readToken = some (colon, s₂)) (htype' : colon.type = .tokenMemberSeparator)
    (hpush : s₂.push (.name (CStr.of name')) = some s₃)
    (hread : readValue scan fuel s₃ = some (true, s₄))
    (hcomma : s₄.pop.readToken = some (comma, s₅))
    (htype'' : comma.type = .tokenObjectEnd ∨ comma.type = .tokenArraySeparator) :
    objectLoop scan (fuel + 1) name s =
      if comma.type = .tokenObjectEnd then some (true, s₅) else objectLoop scan fuel name' s₅ := by
  have hcomma' : ¬ (comma.type ≠ .tokenObjectEnd ∧ comma.type ≠ .tokenArraySeparator ∧
      comma.type ≠ .tokenComment) := by
    rintro ⟨h₁, h₂, -⟩
    exact htype''.elim h₁ h₂
  have hcomment : comma.type ≠ .tokenComment := by
    rcases htype'' with h | h <;> rw [h] <;> decide
  rw [objectLoop, htokenName]
  simp only [Option.bind_eq_bind, Option.bind_some, htype, ne_eq, not_true_eq_false,
    if_false, hname, hcolon, htype', hpush, hread, Bool.not_true, Bool.false_eq_true, hcomma,
    if_neg hcomma', skipComments_of hcomment]
  rw [if_neg (by rintro ⟨h, -⟩; exact absurd h (by decide))]

end Reader

/-! ## What is passed -/

namespace Passed

variable {s s₁ s₂ : Reader R} {m n : ℕ} {root₁ : Value R} {ws text tail : Bytes}

theorem start (s : Reader R) : Passed s 0 s := ⟨s.root, s.lastValueEnd, s.lastValue, rfl⟩

theorem advance (h : Passed s m s₁) (n : ℕ) : Passed s (m + n) (s₁.advance n) := by
  obtain ⟨r, e, l, rfl⟩ := h
  exact ⟨r, e, l, by simp only [Reader.advance, Nat.add_assoc]⟩

theorem trans (h₁ : Passed s m s₁) (h₂ : Passed s₁ n s₂) : Passed s (m + n) s₂ := by
  obtain ⟨r₁, e₁, l₁, rfl⟩ := h₁
  obtain ⟨r₂, e₂, l₂, rfl⟩ := h₂
  exact ⟨r₂, e₂, l₂, by simp only [Nat.add_assoc]⟩

theorem leaveValue (h : Passed s n s₁) : Passed s n s₁.leaveValue := by
  obtain ⟨r, e, l, rfl⟩ := h
  rw [Reader.leaveValue]
  split
  · exact ⟨r, _, _, rfl⟩
  · exact ⟨r, e, l, rfl⟩

theorem withRoot (h : Passed s n s₁) (root : Value R) : Passed s n { s₁ with root := root } := by
  obtain ⟨r, e, l, rfl⟩ := h
  exact ⟨root, e, l, rfl⟩

/-- An element that was read. -/
theorem pop {key : CZString} (h : Passed { s with root := root₁, nodes := key :: s.nodes } n s₁) :
    Passed s n s₁.pop := by
  obtain ⟨r, e, l, rfl⟩ := h
  exact ⟨r, e, l, rfl⟩

theorem cast (h : Passed s m s₁) (hm : m = n) : Passed s n s₁ := hm ▸ h

theorem nodes_eq (h : Passed s n s₁) : s₁.nodes = s.nodes := by
  obtain ⟨r, e, l, rfl⟩ := h
  rfl

theorem commentsBefore_eq (h : Passed s n s₁) : s₁.commentsBefore = s.commentsBefore := by
  obtain ⟨r, e, l, rfl⟩ := h
  rfl

theorem features_eq (h : Passed s n s₁) : s₁.features = s.features := by
  obtain ⟨r, e, l, rfl⟩ := h
  rfl

theorem errors_eq (h : Passed s n s₁) : s₁.errors = s.errors := by
  obtain ⟨r, e, l, rfl⟩ := h
  rfl

/-- What is behind a text that was passed. -/
theorem rest_eq (h : Passed s (ws.length + text.length) s₁)
    (hrest : s.rest = ws ++ (text ++ tail)) : s₁.rest = tail := by
  obtain ⟨r, e, l, rfl⟩ := h
  have hadvance : (s.advance (ws.length + text.length)).rest = tail := by
    rw [Reader.rest_advance, hrest, ← List.drop_drop, List.drop_left, List.drop_left]
  exact hadvance

end Passed

@[simp] theorem Reader.root_leaveValue (s : Reader R) : s.leaveValue.root = s.root := by
  rw [Reader.leaveValue]
  split <;> rfl

/-- The reader in front of `text`, in a map with the entries of `m`. -/
structure Inside (s : Reader R) (k : MapType) (m : List (CZString × Value R)) (root : Value R)
    (text : Bytes) : Prop where
  comments : ∀ e ∈ m, e.2.comments = {}
  rest : s.rest = text
  commentsBefore : s.commentsBefore = []
  placed : Placed s.nodes (.map {} k m) root s.root

/-- A token in the map. -/
theorem Inside.advance {s : Reader R} {k : MapType} {m : List (CZString × Value R)}
    {root : Value R} {text tail : Bytes} (h : Inside s k m root (text ++ tail)) :
    Inside (s.advance text.length) k m root tail where
  comments := h.comments
  rest := by rw [Reader.rest_advance, h.rest, List.drop_left]
  commentsBefore := h.commentsBefore
  placed := h.placed

/-! ## What is spelled -/

/-- The value of a text is without comments. -/
theorem Spells.comments_eq {v : Value R} {text : Bytes} (h : Spells scan (.value v) text) :
    v.comments = {} := by
  cases h <;> rfl

/-- A value starts with a character that is neither a blank nor the end of an array. -/
theorem Spells.exists_cons {v : Value R} {text : Bytes} (h : Spells scan (.value v) text) :
    ∃ c rest, text = c :: rest ∧ isBlank c = false ∧ c ≠ bracketClose := by
  cases h with
  | wordNull => exact ⟨_, _, rfl, by decide, by decide⟩
  | wordTrue => exact ⟨_, _, rfl, by decide, by decide⟩
  | wordFalse => exact ⟨_, _, rfl, by decide, by decide⟩
  | number hn =>
    obtain ⟨c, rest, rfl, hc, -⟩ := hn.exists_cons
    refine ⟨c, rest, rfl, NumberText.isBlank_eq_false hc, ?_⟩
    rintro rfl
    exact absurd hc (by decide)
  | string _ => exact ⟨_, _, rfl, by decide, by decide⟩
  | emptyArray _ => exact ⟨_, _, rfl, by decide, by decide⟩
  | array _ => exact ⟨_, _, rfl, by decide, by decide⟩
  | emptyObject _ => exact ⟨_, _, rfl, by decide, by decide⟩
  | object _ => exact ⟨_, _, rfl, by decide, by decide⟩

/-- The elements of an array start with a value. -/
theorem Spells.elements_cons {index : ℕ} {m m' : List (CZString × Value R)} {text : Bytes}
    (h : Spells scan (.elements index m m') text) :
    ∃ ws c rest, text = ws ++ c :: rest ∧ Blank ws ∧ isBlank c = false ∧ c ≠ bracketClose := by
  have hvalue : ∀ {ws text tail : Bytes} {v : Value R}, Blank ws → Spells scan (.value v) text →
      ∃ ws' c rest, ws ++ text ++ tail = ws' ++ c :: rest ∧ Blank ws' ∧ isBlank c = false ∧
        c ≠ bracketClose := by
    intro ws text tail v hws hv
    obtain ⟨c, rest, rfl, hc, hne⟩ := hv.exists_cons
    exact ⟨ws, c, rest ++ tail, by rw [List.append_assoc]; rfl, hws, hc, hne⟩
  cases h with
  | lastElement hws hv _ => exact hvalue hws hv
  | element hws hv _ _ => exact hvalue hws hv

theorem isNumberChar_of_isBlank {c : Byte} (h : isBlank c = true) : isNumberChar c = false := by
  rw [isBlank] at h
  simp only [Bool.or_eq_true, beq_iff_eq] at h
  rcases h with ((rfl | rfl) | rfl) | rfl <;> decide

/-- What does not go on with a number. -/
def Ends (tail : Bytes) : Prop := ∀ c ∈ tail.head?, isNumberChar c = false

theorem ends_blank {ws tail : Bytes} {c : Byte} (hws : Blank ws) (hc : isNumberChar c = false) :
    Ends (ws ++ c :: tail) := by
  intro d hd
  cases ws with
  | nil => exact Option.mem_some.mp hd ▸ hc
  | cons w ws =>
    obtain rfl := Option.mem_some.mp hd
    exact isNumberChar_of_isBlank (hws w List.mem_cons_self)

/-! ## The parser on what is spelled -/

/-- What the parser does with a text of an item. -/
def Reads (scan : Bytes → Option R) : Item R → Bytes → Prop
  | .value v, text => ∀ (fuel : ℕ) (s : Reader R) (ws tail : Bytes) (w root : Value R),
      Blank ws → Ends tail → s.rest = ws ++ (text ++ tail) → s.commentsBefore = [] →
      Placed s.nodes w s.root root → 3 * text.length ≤ fuel →
      ∃ s', Reader.readValue scan fuel s = some (true, s') ∧
        Passed s (ws.length + text.length) s' ∧ Placed s.nodes v s.root s'.root
  | .elements index m m', text => ∀ (fuel : ℕ) (s : Reader R) (tail : Bytes) (root : Value R),
      Inside s .array m root (text ++ tail) → 3 * text.length + 1 ≤ fuel →
      ∃ s', Reader.arrayLoop scan fuel index s = some (true, s') ∧ Passed s text.length s' ∧
        Placed s.nodes (.map {} .array m') root s'.root
  | .members m m', text => ∀ (fuel : ℕ) (name : Bytes) (s : Reader R) (tail : Bytes)
      (root : Value R), Inside s .object m root (text ++ tail) → 3 * text.length + 1 ≤ fuel →
      ∃ s', Reader.objectLoop scan fuel name s = some (true, s') ∧ Passed s text.length s' ∧
        Placed s.nodes (.map {} .object m') root s'.root

/-- A value that is a single token. -/
theorem reads_simple {v : Value R} {text : Bytes} (hne : text ≠ [])
    (htoken : ∀ (s : Reader R) (ws tail : Bytes), Blank ws → Ends tail →
      s.rest = ws ++ (text ++ tail) →
      ∃ token, s.readToken = some (token, s.advance (ws.length + text.length)) ∧
        (s.advance (ws.length + text.length)).readSimpleValue scan token =
          ((s.advance (ws.length + text.length)).assignCurrent v).map fun s => some (true, s)) :
    Reads scan (.value v) text := by
  intro fuel s ws tail w root hws htail hrest hcomments hroot hfuel
  obtain ⟨fuel, rfl⟩ := Nat.exists_eq_add_one.mpr (Nat.lt_of_lt_of_le
    (Nat.mul_pos (by decide) (List.length_pos_iff.mpr hne)) hfuel)
  obtain ⟨token, hread, hvalue⟩ := htoken s ws tail hws htail hrest
  obtain ⟨root', hroot'⟩ := hroot.exists_of v
  rw [Reader.assignCurrent_of (s := s.advance (ws.length + text.length)) hroot'] at hvalue
  refine ⟨_, Reader.readValue_simple hread hcomments hvalue, ?_, ?_⟩
  · exact ((((Passed.start s).advance _).withRoot root').leaveValue).cast (Nat.zero_add _)
  · rw [Reader.root_leaveValue]
    exact hroot'

theorem reads_string {body decoded : Bytes} (h : StringBody body decoded) :
    Reads scan (.value (.string decoded)) (quote :: (body ++ [quote])) := by
  refine reads_simple (by simp) fun s ws tail hws htail hrest => ?_
  have hrest' : s.rest = ws ++ quote :: (body ++ quote :: tail) := by
    rw [hrest, List.cons_append, List.append_assoc]
    rfl
  have hlen : (quote :: (body ++ [quote])).length = body.length + 2 := by
    rw [List.length_cons, List.length_append, List.length_singleton]
  rw [hlen]
  refine ⟨_, Reader.readToken_string h hws hrest', ?_⟩
  rw [Reader.readSimpleValue]
  simp only [Reader.decodeStringValue, Reader.decodeString_of (s.advance _) h hrest' rfl,
    Option.map_map]
  rfl

theorem reads_number {text : Bytes} {n : Scalar R} (h : NumberText scan text n) :
    Reads scan (.value (.scalar {} n)) text := by
  obtain ⟨c, rest, heq, -, -⟩ := h.exists_cons
  refine reads_simple (by rw [heq]; simp) fun s ws tail hws htail hrest => ?_
  refine ⟨_, Reader.readToken_number h hws htail hrest, ?_⟩
  have htext : (s.advance (ws.length + text.length)).textOf
      ⟨.tokenNumber, s.current + ws.length, s.current + (ws.length + text.length)⟩ = text := by
    rw [Reader.textOf, ← Nat.add_assoc]
    exact Reader.slice_rest hrest
  rw [Reader.readSimpleValue]
  simp only [h.decodeNumber htext, Option.map_map]
  rfl

/-- The map that `readArray` and `readObject` start with. -/
theorem assign_empty {s : Reader R} (k : MapType) {w root : Value R} (text : Bytes)
    (hroot : Placed s.nodes w s.root root) (hrest : s.rest = text)
    (hcomments : s.commentsBefore = []) :
    ∃ s₁, s.assignCurrent (.map {} k []) = some s₁ ∧ Passed s 0 s₁ ∧
      Inside s₁ k [] s.root text := by
  obtain ⟨root₁, hroot₁⟩ := hroot.exists_of (.map {} k [])
  exact ⟨_, Reader.assignCurrent_of hroot₁, (Passed.start s).withRoot root₁,
    ⟨fun e he => absurd he List.not_mem_nil, hrest, hcomments, hroot₁⟩⟩

/-- The value of an element or of a member is read into its place. -/
theorem Reads.child {v : Value R} {text : Bytes} (h : Reads scan (.value v) text)
    (hv : v.comments = {}) {s : Reader R} {k : MapType} (key : CZString)
    {m : List (CZString × Value R)} {root : Value R} (hk : Value.mapTypeOf key = k)
    {ws tail : Bytes} (hs : Inside s k m root (ws ++ (text ++ tail))) (hws : Blank ws)
    (htail : Ends tail) (fuel : ℕ) (hfuel : 3 * text.length ≤ fuel) :
    ∃ s₁ s₂, s.push key = some s₁ ∧ Reader.readValue scan fuel s₁ = some (true, s₂) ∧
      Passed s (ws.length + text.length) s₂.pop ∧
      Inside s₂.pop k (Assoc.put key v m) root tail := by
  obtain ⟨root₁, hreach, hfill⟩ := hs.placed.reach_child hk hs.comments
  obtain ⟨root₂, hchild, hput⟩ := hfill v hv
  obtain ⟨s₂, hread, hpassed, hplaced⟩ := h fuel { s with root := root₁, nodes := key :: s.nodes }
    ws tail v root₂ hws htail hs.rest hs.commentsBefore hchild hfuel
  have hroot : s₂.root = root₂ := Option.some.inj (hplaced.symm.trans hchild)
  refine ⟨_, s₂, Reader.push_of hreach, hread, hpassed.pop, ?_, ?_, ?_, ?_⟩
  · intro e he
    rcases Assoc.mem_of_mem_put he with he | he
    · rw [he, hv]
    · exact hs.comments e he
  · exact hpassed.pop.rest_eq hs.rest
  · rw [hpassed.pop.commentsBefore_eq, hs.commentsBefore]
  · rw [hpassed.pop.nodes_eq]
    exact hroot ▸ hput

/-- What is in front of the first token. -/
theorem Inside.token {s : Reader R} {k : MapType} {m : List (CZString × Value R)} {root : Value R}
    {ws tail : Bytes} {c : Byte} (h : Inside s k m root (ws ++ c :: tail)) :
    Inside (s.advance (ws.length + 1)) k m root tail := by
  have hs : Inside s k m root ((ws ++ [c]) ++ tail) := by
    rw [List.append_assoc]
    exact h
  have hlen : (ws ++ [c]).length = ws.length + 1 := by
    rw [List.length_append, List.length_singleton]
  exact hlen ▸ hs.advance

theorem reads_emptyArray {ws' : Bytes} (hws' : Blank ws') :
    Reads scan (.value (R := R) .array) (bracketOpen :: (ws' ++ [bracketClose])) := by
  intro fuel s ws tail w root hws htail hrest hcomments hroot hfuel
  simp only [List.length_append, List.length_cons, List.length_nil] at hfuel
  obtain ⟨fuel, rfl⟩ : ∃ f, fuel = f + 1 + 1 := ⟨fuel - 2, by omega⟩
  have htoken := Reader.readToken_punct .tokenArrayBegin (fun _ => rfl) hws (by decide)
    hrest
  obtain ⟨s₁, hassign, hpassed, hinside⟩ := assign_empty (s := s.advance (ws.length + 1))
    .array (ws' ++ bracketClose :: tail) hroot (by
      rw [Reader.rest_advance, hrest, ← List.drop_drop, List.drop_left]
      simp) hcomments
  have hskip : s₁.skipSpaces = s₁.advance ws'.length :=
    Reader.skipSpaces_of (bracketClose :: tail) hws'
      (fun d hd => by obtain rfl := Option.mem_some.mp hd; decide) hinside.rest
  have hrest' : (s₁.advance ws'.length).rest = [] ++ bracketClose :: tail := by
    rw [Reader.rest_advance, hinside.rest, List.drop_left, List.nil_append]
  have harray : Reader.readArray scan (fuel + 1) (s.advance (ws.length + 1)) =
      some (true, (s₁.advance ws'.length).advance 1) := by
    rw [Reader.readArray]
    simp only [Option.bind_eq_bind, show Value.array (R := R) = .map {} .array [] from rfl, hassign,
      Option.bind_some, hskip, hrest', List.nil_append, List.headD_cons, if_true]
    rw [Reader.readToken_punct .tokenArrayEnd (fun _ => rfl) blank_nil (by decide) hrest']
    rfl
  refine ⟨_, Reader.readValue_array htoken rfl hcomments harray, ?_, ?_⟩
  · refine ((((((Passed.start s).advance _).trans hpassed).advance _).advance _).leaveValue).cast ?_
    simp only [List.length_append, List.length_cons, List.length_nil]
    omega
  · rw [Reader.root_leaveValue]
    have hplaced := hinside.placed
    rw [hpassed.nodes_eq] at hplaced
    exact hplaced

theorem reads_array {m : List (CZString × Value R)} {text : Bytes}
    (hspells : Spells scan (.elements 0 [] m) text) (h : Reads scan (.elements 0 [] m) text) :
    Reads scan (.value (.map {} .array m)) (bracketOpen :: text) := by
  intro fuel s ws tail w root hws htail hrest hcomments hroot hfuel
  simp only [List.length_cons] at hfuel
  obtain ⟨fuel, rfl⟩ : ∃ f, fuel = f + 1 + 1 := ⟨fuel - 2, by omega⟩
  have htoken := Reader.readToken_punct .tokenArrayBegin (fun _ => rfl) hws (by decide)
    hrest
  obtain ⟨s₁, hassign, hpassed, hinside⟩ := assign_empty (s := s.advance (ws.length + 1))
    .array (text ++ tail) hroot (by
      rw [Reader.rest_advance, hrest, ← List.drop_drop, List.drop_left]
      rfl) hcomments
  obtain ⟨s₂, hloop, hpassed', hplaced⟩ := h fuel s₁ tail _ hinside (by omega)
  obtain ⟨ws', c, rest, rfl, hws', hc, hne⟩ := hspells.elements_cons
  have hskip : s₁.skipSpaces = s₁.advance ws'.length :=
    Reader.skipSpaces_of (c :: (rest ++ tail)) hws'
      (fun d hd => by obtain rfl := Option.mem_some.mp hd; exact hc)
      (by rw [hinside.rest, List.append_assoc]; rfl)
  have hhead : s₁.skipSpaces.rest.headD 0 ≠ bracketClose := by
    rw [hskip, Reader.rest_advance, hinside.rest, List.append_assoc, List.drop_left]
    exact hne
  have harray : Reader.readArray scan (fuel + 1) (s.advance (ws.length + 1)) = some (true, s₂) := by
    rw [Reader.readArray]
    simp only [Option.bind_eq_bind, show Value.array (R := R) = .map {} .array [] from rfl, hassign,
      Option.bind_some, if_neg hhead, Reader.arrayLoop_skipSpaces, hloop]
  refine ⟨_, Reader.readValue_array htoken rfl hcomments harray, ?_, ?_⟩
  · refine (((((Passed.start s).advance _).trans hpassed).trans hpassed').leaveValue).cast ?_
    simp only [List.length_cons]
    omega
  · rw [Reader.root_leaveValue]
    rw [hpassed.nodes_eq] at hplaced
    exact hplaced

theorem reads_emptyObject {ws' : Bytes} (hws' : Blank ws') :
    Reads scan (.value (R := R) .object) (braceOpen :: (ws' ++ [braceClose])) := by
  intro fuel s ws tail w root hws htail hrest hcomments hroot hfuel
  simp only [List.length_append, List.length_cons, List.length_nil] at hfuel
  obtain ⟨fuel, rfl⟩ : ∃ f, fuel = f + 1 + 1 + 1 := ⟨fuel - 3, by omega⟩
  have htoken := Reader.readToken_punct .tokenObjectBegin (fun _ => rfl) hws (by decide)
    hrest
  obtain ⟨s₁, hassign, hpassed, hinside⟩ := assign_empty (s := s.advance (ws.length + 1))
    .object (ws' ++ braceClose :: tail) hroot (by
      rw [Reader.rest_advance, hrest, ← List.drop_drop, List.drop_left]
      simp) hcomments
  have hend := Reader.nextToken_of (Reader.readToken_punct .tokenObjectEnd (fun _ => rfl)
    hws' (by decide) hinside.rest) nofun
  have hobject : Reader.readObject scan (fuel + 1 + 1) (s.advance (ws.length + 1)) =
      some (true, s₁.advance (ws'.length + 1)) := by
    rw [Reader.readObject]
    simp only [Option.bind_eq_bind, show Value.object (R := R) = .map {} .object [] from rfl,
      hassign, Option.bind_some]
    rw [Reader.objectLoop, hend]
    rfl
  refine ⟨_, Reader.readValue_object htoken rfl hcomments hobject, ?_, ?_⟩
  · refine (((((Passed.start s).advance _).trans hpassed).advance _).leaveValue).cast ?_
    simp only [List.length_append, List.length_cons, List.length_nil]
    omega
  · rw [Reader.root_leaveValue]
    have hplaced := hinside.placed
    rw [hpassed.nodes_eq] at hplaced
    exact hplaced

theorem reads_object {m : List (CZString × Value R)} {text : Bytes}
    (h : Reads scan (.members [] m) text) :
    Reads scan (.value (.map {} .object m)) (braceOpen :: text) := by
  intro fuel s ws tail w root hws htail hrest hcomments hroot hfuel
  simp only [List.length_cons] at hfuel
  obtain ⟨fuel, rfl⟩ : ∃ f, fuel = f + 1 + 1 := ⟨fuel - 2, by omega⟩
  have htoken := Reader.readToken_punct .tokenObjectBegin (fun _ => rfl) hws (by decide)
    hrest
  obtain ⟨s₁, hassign, hpassed, hinside⟩ := assign_empty (s := s.advance (ws.length + 1))
    .object (text ++ tail) hroot (by
      rw [Reader.rest_advance, hrest, ← List.drop_drop, List.drop_left]
      rfl) hcomments
  obtain ⟨s₂, hloop, hpassed', hplaced⟩ := h fuel [] s₁ tail _ hinside (by omega)
  have hobject : Reader.readObject scan (fuel + 1) (s.advance (ws.length + 1)) =
      some (true, s₂) := by
    rw [Reader.readObject]
    simp only [Option.bind_eq_bind, show Value.object (R := R) = .map {} .object [] from rfl,
      hassign, Option.bind_some, hloop]
  refine ⟨_, Reader.readValue_object htoken rfl hcomments hobject, ?_, ?_⟩
  · refine (((((Passed.start s).advance _).trans hpassed).trans hpassed').leaveValue).cast ?_
    simp only [List.length_cons]
    omega
  · rw [Reader.root_leaveValue]
    rw [hpassed.nodes_eq] at hplaced
    exact hplaced

/-- A member up to its value. -/
theorem Inside.name {s : Reader R} {m : List (CZString × Value R)} {root : Value R}
    {ws₁ ws₂ body decoded tail : Bytes}
    (h : Inside s .object m root (nameText ws₁ body ws₂ ++ tail)) (hws₁ : Blank ws₁)
    (hbody : StringBody body decoded) (hws₂ : Blank ws₂) :
    ∃ tokenName colon s₁ s₂, s.nextToken = some (tokenName, s₁) ∧
      tokenName.type = .tokenString ∧ s₁.decodeString tokenName = .ok decoded ∧
      s₁.readToken = some (colon, s₂) ∧ colon.type = .tokenMemberSeparator ∧
      Passed s (nameText ws₁ body ws₂).length s₂ ∧ Inside s₂ .object m root tail := by
  have hrest : s.rest = ws₁ ++ quote :: (body ++ quote :: (ws₂ ++ colon :: tail)) := by
    rw [h.rest, nameText]
    simp only [List.append_assoc, List.cons_append, List.nil_append]
  have hrest' : (s.advance (ws₁.length + (body.length + 2))).rest = ws₂ ++ colon :: tail := by
    have htext : s.rest = (ws₁ ++ (quote :: body ++ [quote])) ++ (ws₂ ++ colon :: tail) := by
      rw [hrest]
      simp only [List.append_assoc, List.cons_append, List.nil_append]
    have hlen : ws₁.length + (body.length + 2) = (ws₁ ++ (quote :: body ++ [quote])).length := by
      simp only [List.length_append, List.length_cons, List.length_nil]
    rw [Reader.rest_advance, htext, hlen, List.drop_left]
  have hlen : (nameText ws₁ body ws₂).length =
      ws₁.length + (body.length + 2) + (ws₂.length + 1) := by
    simp only [nameText, List.length_append, List.length_cons, List.length_nil]
    omega
  refine ⟨_, _, _, _, Reader.nextToken_of (Reader.readToken_string hbody hws₁ hrest) nofun, rfl,
    Reader.decodeString_of (s.advance _) hbody hrest rfl _,
    Reader.readToken_punct .tokenMemberSeparator (fun _ => rfl) hws₂ (by decide) hrest',
    rfl, ?_, ?_⟩
  · exact (((Passed.start s).advance _).advance _).cast (by rw [hlen, Nat.zero_add])
  · rw [Reader.advance_advance, ← hlen]
    exact h.advance

/-- **The parser reads what is spelled.** -/
theorem reads_of_spells {item : Item R} {text : Bytes} (h : Spells scan item text) :
    Reads scan item text := by
  induction h with
  | wordNull =>
    refine reads_simple (by decide) fun s ws tail hws htail hrest => ?_
    exact ⟨_, Reader.readToken_word (fun _ => rfl) hws (by decide) hrest, rfl⟩
  | wordTrue =>
    refine reads_simple (by decide) fun s ws tail hws htail hrest => ?_
    exact ⟨_, Reader.readToken_word (fun _ => rfl) hws (by decide) hrest, rfl⟩
  | wordFalse =>
    refine reads_simple (by decide) fun s ws tail hws htail hrest => ?_
    exact ⟨_, Reader.readToken_word (fun _ => rfl) hws (by decide) hrest, rfl⟩
  | number h => exact reads_number h
  | string h => exact reads_string h
  | emptyArray hws => exact reads_emptyArray hws
  | array h ih => exact reads_array h ih
  | emptyObject hws => exact reads_emptyObject hws
  | object _ ih => exact reads_object ih
  | @lastElement index m v ws text ws' hws h hws' ih =>
    intro fuel s tail root hs hfuel
    simp only [List.length_append, List.length_cons, List.length_nil] at hfuel
    obtain ⟨fuel, rfl⟩ : ∃ f, fuel = f + 1 := ⟨fuel - 1, by omega⟩
    simp only [List.append_assoc, List.singleton_append] at hs
    obtain ⟨s₁, s₂, hpush, hread, hpassed, hinside⟩ := ih.child h.comments_eq (.ofIndex index)
      rfl hs hws (ends_blank hws' (by decide)) fuel (by omega)
    have htoken := Reader.nextToken_of (Reader.readToken_punct .tokenArrayEnd
      (fun _ => rfl) hws' (by decide) hinside.rest) nofun
    refine ⟨_, Reader.arrayLoop_of hpush hread htoken, (hpassed.advance _).cast ?_, ?_⟩
    · simp only [List.length_append, List.length_cons, List.length_nil, Nat.add_assoc]
    · have hplaced := hinside.placed
      rw [hpassed.nodes_eq] at hplaced
      exact hplaced
  | @element index m m' v ws text ws' rest hws h hws' _ ih ih' =>
    intro fuel s tail root hs hfuel
    simp only [List.length_append, List.length_cons] at hfuel
    obtain ⟨fuel, rfl⟩ : ∃ f, fuel = f + 1 := ⟨fuel - 1, by omega⟩
    simp only [List.append_assoc, List.cons_append] at hs
    obtain ⟨s₁, s₂, hpush, hread, hpassed, hinside⟩ := ih.child h.comments_eq (.ofIndex index)
      rfl hs hws (ends_blank hws' (by decide)) fuel (by omega)
    have htoken := Reader.nextToken_of (Reader.readToken_punct .tokenArraySeparator
      (fun _ => rfl) hws' (by decide) hinside.rest) nofun
    obtain ⟨s₃, hloop, hpassed', hplaced⟩ := ih' fuel _ tail root hinside.token (by omega)
    refine ⟨s₃, ?_, ((hpassed.advance _).trans hpassed').cast ?_, ?_⟩
    · rw [Reader.arrayLoop_of hpush hread htoken]
      exact hloop
    · simp only [List.length_append, List.length_cons]
      omega
    · rw [(hpassed.advance _).nodes_eq] at hplaced
      exact hplaced
  | @lastMember m name body v ws₁ ws₂ ws₃ ws₄ text hws₁ hbody hws₂ hws₃ h hws₄ ih =>
    intro fuel name' s tail root hs hfuel
    simp only [List.length_append, List.length_cons, List.length_nil] at hfuel
    obtain ⟨fuel, rfl⟩ : ∃ f, fuel = f + 1 := ⟨fuel - 1, by omega⟩
    simp only [List.append_assoc, List.singleton_append] at hs
    obtain ⟨tokenName, colon, s₁, s₂, htokenName, htype, hname, hcolon, htype', hpassed₂,
      hinside₂⟩ := hs.name hws₁ hbody hws₂
    obtain ⟨s₃, s₄, hpush, hread, hpassed, hinside⟩ := ih.child h.comments_eq (memberKey name) rfl
      hinside₂ hws₃ (ends_blank hws₄ (by decide)) fuel (by omega)
    have htoken := Reader.readToken_punct .tokenObjectEnd
      (fun _ => rfl) hws₄ (by decide) hinside.rest
    refine ⟨_, Reader.objectLoop_of htokenName htype hname hcolon htype' hpush hread htoken
      (Or.inl rfl), ((hpassed₂.trans hpassed).advance _).cast ?_, ?_⟩
    · simp only [List.length_append, List.length_cons, List.length_nil]
      omega
    · have hplaced := hinside.placed
      rw [hpassed.nodes_eq, hpassed₂.nodes_eq] at hplaced
      exact hplaced
  | @member m m' name body v ws₁ ws₂ ws₃ ws₄ text rest hws₁ hbody hws₂ hws₃ h hws₄ _ ih ih' =>
    intro fuel name' s tail root hs hfuel
    simp only [List.length_append, List.length_cons] at hfuel
    obtain ⟨fuel, rfl⟩ : ∃ f, fuel = f + 1 := ⟨fuel - 1, by omega⟩
    simp only [List.append_assoc, List.cons_append] at hs
    obtain ⟨tokenName, colon, s₁, s₂, htokenName, htype, hname, hcolon, htype', hpassed₂,
      hinside₂⟩ := hs.name hws₁ hbody hws₂
    obtain ⟨s₃, s₄, hpush, hread, hpassed, hinside⟩ := ih.child h.comments_eq (memberKey name) rfl
      hinside₂ hws₃ (ends_blank hws₄ (by decide)) fuel (by omega)
    have htoken := Reader.readToken_punct .tokenArraySeparator
      (fun _ => rfl) hws₄ (by decide) hinside.rest
    obtain ⟨s₅, hloop, hpassed', hplaced⟩ := ih' fuel name _ tail root hinside.token (by omega)
    refine ⟨s₅, ?_, (((hpassed₂.trans hpassed).advance _).trans hpassed').cast ?_, ?_⟩
    · rw [Reader.objectLoop_of htokenName htype hname hcolon htype' hpush hread htoken (Or.inr rfl)]
      exact hloop
    · simp only [List.length_append, List.length_cons]
      omega
    · rw [((hpassed₂.trans hpassed).advance _).nodes_eq] at hplaced
      exact hplaced

/-! ## Documents -/

/-- The text of a document, in which there may be blanks around the value. -/
def Document (scan : Bytes → Option R) (v : Value R) (doc : Bytes) : Prop :=
  ∃ ws text ws', Blank ws ∧ Spells scan (.value v) text ∧ Blank ws' ∧ doc = ws ++ (text ++ ws')

theorem document_of_spells {v : Value R} {text : Bytes} (h : Spells scan (.value v) text) :
    Document scan v text :=
  ⟨[], text, [], blank_nil, h, blank_nil, (List.append_nil text).symm⟩

/-- Blanks around a document. -/
theorem Document.pad {v : Value R} {doc ws ws' : Bytes} (h : Document scan v doc) (hws : Blank ws)
    (hws' : Blank ws') : Document scan v (ws ++ (doc ++ ws')) := by
  obtain ⟨ws₁, text, ws₂, hws₁, hspells, hws₂, rfl⟩ := h
  refine ⟨ws ++ ws₁, text, ws₂ ++ ws', blank_append hws hws₁, hspells, blank_append hws₂ hws', ?_⟩
  simp only [List.append_assoc]

theorem ends_of_blank {ws : Bytes} (h : Blank ws) : Ends ws := fun c hc =>
  isNumberChar_of_isBlank (h c (List.mem_of_mem_head? hc))

/-- JSON for a value between blanks is read; where the root has to be an array or an object, it has
to be one. -/
theorem parse_of_spells {features : Features} {v : Value R} {ws text ws' : Bytes} (hws : Blank ws)
    (hspells : Spells scan (.value v) text) (hws' : Blank ws')
    (hroot : features.strictRoot = true → v.isArray || v.isObject) (root : Value R)
    (collectComments : Bool) :
    ∃ s, Reader.parse scan features (ws ++ (text ++ ws')) root collectComments = some (true, s) ∧
      s.errors = [] ∧ s.root = v.assign root := by
  obtain ⟨s, hread, hpassed, hplaced⟩ := reads_of_spells hspells
    (Reader.calls (ws ++ (text ++ ws'))) (Reader.start features (ws ++ (text ++ ws')) root
      collectComments) ws ws' v (v.assign root) hws (ends_of_blank hws') rfl rfl rfl (by
        simp only [Reader.calls, List.length_append]
        omega)
  have hs : s.root = v.assign root := (Option.some.inj hplaced).symm
  have hrest : s.rest = ws' := hpassed.rest_eq rfl
  have htoken := Reader.skipCommentTokens_of (Reader.readToken_end hws' hrest) nofun
  have hcomments : s.commentsBefore = [] := hpassed.commentsBefore_eq
  have hstrict : (s.features.strictRoot && !s.root.isArray && !s.root.isObject) = false := by
    rw [hpassed.features_eq, hs, Value.isArray_assign, Value.isObject_assign]
    change (features.strictRoot && !v.isArray && !v.isObject) = false
    revert hroot
    cases features.strictRoot <;> cases v.isArray <;> cases v.isObject <;> simp
  refine ⟨s.advance ws'.length, ?_, hpassed.errors_eq, hs⟩
  rw [Reader.parse, hread]
  simp only [Option.bind_eq_bind, Option.bind_some, Reader.finish, htoken, Reader.advance,
    hcomments, List.isEmpty_nil, Bool.not_true, Bool.and_false, Bool.false_eq_true, if_false, hstrict]

end Json
end CModel
