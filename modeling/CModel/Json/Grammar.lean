import CModel.Json.Reader

/-!
# The texts of JSON values

Which texts are JSON, and of which values; the reader is not looked at.

* `StringBody`: what stands between the quotes of a string, with its escapes.
* `NumberText`: numbers, with the integers that go into an `int` or an `unsigned`.
* `Spells`: values, the elements that are left of an array, and the members that are left of an
  object.  Names that come again replace the value of the member.
-/

namespace CModel
namespace Json

/-- Blanks between tokens. -/
def Blank (ws : Bytes) : Prop := ∀ c ∈ ws, isBlank c = true

theorem blank_nil : Blank [] := fun _ h => absurd h List.not_mem_nil

theorem blank_space : Blank [32] := fun _ h => List.mem_singleton.mp h ▸ rfl

theorem blank_LF : Blank [LF] := fun _ h => List.mem_singleton.mp h ▸ rfl

theorem blank_append {ws ws' : Bytes} (h : Blank ws) (h' : Blank ws') : Blank (ws ++ ws') :=
  fun c hc => (List.mem_append.mp hc).elim (h c) (h' c)

/-! ## Strings -/

/-- The number that hexadecimal digits stand for, behind those of `a`. -/
def hexFrom (a : ℕ) (ds : Bytes) : ℕ := ds.foldl (fun v c => v * 16 + xdigitValue c) a

/-- Four hexadecimal digits. -/
structure Hex4 (ds : Bytes) (v : ℕ) : Prop where
  length : ds.length = 4
  isxdigit : ∀ c ∈ ds, isxdigit c = true
  value : hexFrom 0 ds = v

/-- The text between the quotes, and the string that it is. -/
inductive StringBody : Bytes → Bytes → Prop where
  | nil : StringBody [] []
  | char {c : Byte} {body decoded : Bytes} : c ≠ quote → c ≠ backslash →
      StringBody body decoded → StringBody (c :: body) (c :: decoded)
  | escape {e d : Byte} {body decoded : Bytes} : simpleEscape e = some d →
      StringBody body decoded → StringBody (backslash :: e :: body) (d :: decoded)
  | unicode {c : Char} {ds body decoded : Bytes} : Hex4 ds c.toNat → StringBody body decoded →
      StringBody (backslash :: 117 :: (ds ++ body)) (String.utf8EncodeChar c ++ decoded)
  | surrogates {c : Char} {ds ds' body decoded : Bytes} : 0x10000 ≤ c.toNat →
      Hex4 ds (0xD800 + (c.toNat - 0x10000) / 0x400) →
      Hex4 ds' (0xDC00 + (c.toNat - 0x10000) % 0x400) →
      StringBody body decoded →
      StringBody (backslash :: 117 :: (ds ++ backslash :: 117 :: (ds' ++ body)))
        (String.utf8EncodeChar c ++ decoded)

/-! ## Numbers -/

/-- The sign of a number. -/
def signText (isNegative : Bool) : Bytes := if isNegative then [minus] else []

/-- The numbers from here on are not read as integers. -/
def integerLimit (isNegative : Bool) : ℕ := if isNegative then 2147483640 else 4294967290

/-- A number, and its value. -/
inductive NumberText {R : Type} (scan : Bytes → Option R) : Bytes → Scalar R → Prop where
  | integer {ds : Bytes} (isNegative : Bool) : ds ≠ [] → (∀ c ∈ ds, isdigit c = true) →
      digitsValue ds < integerLimit isNegative →
      NumberText scan (signText isNegative ++ ds)
        (integerOf isNegative (UInt32.ofNat (digitsValue ds)))
  | large {ds : Bytes} {r : R} (isNegative : Bool) : ds ≠ [] → (∀ c ∈ ds, isdigit c = true) →
      integerLimit isNegative ≤ digitsValue ds →
      (signText isNegative ++ ds).length ≠ 32 → scan (signText isNegative ++ ds) = some r →
      NumberText scan (signText isNegative ++ ds) (.real r)
  | double {c : Byte} {text : Bytes} {r : R} : (isdigit c || c == minus) = true →
      (∀ c ∈ text, isNumberChar c = true) → isDoubleText (c :: text) = true →
      (c :: text).length ≠ 32 → scan (c :: text) = some r → NumberText scan (c :: text) (.real r)

/-! ## Values -/

/-- What a text can be of. -/
inductive Item (R : Type) where
  | value (v : Value R)
  /-- The elements from `index` on, which make `m'` of `m`. -/
  | elements (index : ℕ) (m m' : List (CZString × Value R))
  /-- The members that make `m'` of `m`. -/
  | members (m m' : List (CZString × Value R))

/-- A name, with the blanks around it and the colon. -/
def nameText (ws₁ body ws₂ : Bytes) : Bytes :=
  ws₁ ++ quote :: (body ++ quote :: (ws₂ ++ [colon]))

/-- The key of a member. -/
def memberKey (name : Bytes) : CZString := .name (CStr.of name)

/-- `text` is JSON for the item. -/
inductive Spells {R : Type} (scan : Bytes → Option R) : Item R → Bytes → Prop where
  | wordNull : Spells scan (.value .null) (ascii "null")
  | wordTrue : Spells scan (.value (.scalar {} (.boolean true))) (ascii "true")
  | wordFalse : Spells scan (.value (.scalar {} (.boolean false))) (ascii "false")
  | number {text : Bytes} {n : Scalar R} : NumberText scan text n →
      Spells scan (.value (.scalar {} n)) text
  | string {body decoded : Bytes} : StringBody body decoded →
      Spells scan (.value (.string decoded)) (quote :: (body ++ [quote]))
  | emptyArray {ws : Bytes} : Blank ws →
      Spells scan (.value .array) (bracketOpen :: (ws ++ [bracketClose]))
  | array {m : List (CZString × Value R)} {text : Bytes} : Spells scan (.elements 0 [] m) text →
      Spells scan (.value (.map {} .array m)) (bracketOpen :: text)
  | emptyObject {ws : Bytes} : Blank ws →
      Spells scan (.value .object) (braceOpen :: (ws ++ [braceClose]))
  | object {m : List (CZString × Value R)} {text : Bytes} : Spells scan (.members [] m) text →
      Spells scan (.value (.map {} .object m)) (braceOpen :: text)
  | lastElement {index : ℕ} {m : List (CZString × Value R)} {v : Value R} {ws text ws' : Bytes} :
      Blank ws → Spells scan (.value v) text → Blank ws' →
      Spells scan (.elements index m (Assoc.put (.ofIndex index) v m))
        (ws ++ text ++ (ws' ++ [bracketClose]))
  | element {index : ℕ} {m m' : List (CZString × Value R)} {v : Value R}
      {ws text ws' rest : Bytes} :
      Blank ws → Spells scan (.value v) text → Blank ws' →
      Spells scan (.elements (index + 1) (Assoc.put (.ofIndex index) v m) m') rest →
      Spells scan (.elements index m m') (ws ++ text ++ (ws' ++ comma :: rest))
  | lastMember {m : List (CZString × Value R)} {name body : Bytes} {v : Value R}
      {ws₁ ws₂ ws₃ ws₄ text : Bytes} :
      Blank ws₁ → StringBody body name → Blank ws₂ → Blank ws₃ → Spells scan (.value v) text →
      Blank ws₄ →
      Spells scan (.members m (Assoc.put (memberKey name) v m))
        (nameText ws₁ body ws₂ ++ (ws₃ ++ text ++ (ws₄ ++ [braceClose])))
  | member {m m' : List (CZString × Value R)} {name body : Bytes} {v : Value R}
      {ws₁ ws₂ ws₃ ws₄ text rest : Bytes} :
      Blank ws₁ → StringBody body name → Blank ws₂ → Blank ws₃ → Spells scan (.value v) text →
      Blank ws₄ → Spells scan (.members (Assoc.put (memberKey name) v m) m') rest →
      Spells scan (.members m m')
        (nameText ws₁ body ws₂ ++ (ws₃ ++ text ++ (ws₄ ++ comma :: rest)))

/-! ## Strings are read -/

theorem scanString_quote (tail : Bytes) : scanString (quote :: tail) = (true, 1) := by
  rw [scanString.eq_def]
  rfl

theorem scanString_char {c : Byte} (hq : c ≠ quote) (hb : c ≠ backslash) (tail : Bytes) :
    scanString (c :: tail) = ((scanString tail).1, (scanString tail).2 + 1) := by
  rw [scanString.eq_def]
  simp only [if_neg hq, if_neg hb]

theorem scanString_pair (e : Byte) (tail : Bytes) :
    scanString (backslash :: e :: tail) = ((scanString tail).1, (scanString tail).2 + 2) := by
  rw [scanString.eq_def]
  simp only [if_true]

theorem scanString_xdigits {ds : Bytes} (h : ∀ c ∈ ds, isxdigit c = true) (tail : Bytes) :
    scanString (ds ++ tail) = ((scanString tail).1, (scanString tail).2 + ds.length) := by
  induction ds with
  | nil => rfl
  | cons c ds ih =>
    obtain ⟨hc, hds⟩ := List.forall_mem_cons.mp h
    have hq : c ≠ quote := by
      rintro rfl
      exact absurd hc (by decide)
    have hb : c ≠ backslash := by
      rintro rfl
      exact absurd hc (by decide)
    rw [List.cons_append, scanString_char hq hb, ih hds, List.length_cons, Nat.add_assoc]

/-- The reader finds the end of a string. -/
theorem scanString_body {body decoded : Bytes} (h : StringBody body decoded) (tail : Bytes) :
    scanString (body ++ quote :: tail) = (true, body.length + 1) := by
  induction h with
  | nil => exact scanString_quote tail
  | char hq hb _ ih => rw [List.cons_append, scanString_char hq hb, ih, List.length_cons]
  | escape _ _ ih => rw [List.cons_append, List.cons_append, scanString_pair, ih]; rfl
  | unicode hds _ ih =>
    rw [List.cons_append, List.cons_append, scanString_pair, List.append_assoc,
      scanString_xdigits hds.isxdigit, ih]
    refine Prod.ext rfl ?_
    simp only [List.length_cons, List.length_append]
    omega
  | surrogates _ hds hds' _ ih =>
    rw [List.cons_append, List.cons_append, scanString_pair, List.append_assoc,
      scanString_xdigits hds.isxdigit, List.cons_append, List.cons_append, scanString_pair,
      List.append_assoc, scanString_xdigits hds'.isxdigit, ih]
    refine Prod.ext rfl ?_
    simp only [List.length_cons, List.length_append]
    omega

/-! ## Escapes are decoded -/

theorem hexDigits_append {ds : Bytes} (h : ∀ c ∈ ds, isxdigit c = true) (a : ℕ) (rest : Bytes) :
    hexDigits ds.length (ds ++ rest) (UInt32.ofNat a) =
      .ok (UInt32.ofNat (hexFrom a ds), rest) := by
  induction ds generalizing a with
  | nil => rfl
  | cons c ds ih =>
    obtain ⟨hc, hds⟩ := List.forall_mem_cons.mp h
    have hstep : UInt32.ofNat a * 16 + UInt32.ofNat (xdigitValue c) =
        UInt32.ofNat (a * 16 + xdigitValue c) := by
      rw [UInt32.ofNat_add, UInt32.ofNat_mul]
      rfl
    rw [List.length_cons, List.cons_append, hexDigits, if_pos hc, hstep, ih hds]
    rfl

/-- Four digits are read as their number. -/
theorem decodeUnicodeEscapeSequence_hex4 {ds : Bytes} {v : ℕ} (h : Hex4 ds v) (rest : Bytes) :
    decodeUnicodeEscapeSequence (ds ++ rest) = .ok (UInt32.ofNat v, rest) := by
  rw [decodeUnicodeEscapeSequence, if_neg (by rw [List.length_append, h.length]; omega), ← h.length,
    ← h.value]
  exact hexDigits_append h.isxdigit 0 rest

/-- `codePointToUTF8` is UTF-8. -/
theorem codePointToUTF8_val (c : Char) : codePointToUTF8 c.val = String.utf8EncodeChar c := by
  have hvalid : c.val ≤ 0x10ffff := by
    rcases c.valid with h | ⟨-, h⟩
    · exact UInt32.le_iff_toNat_le.mpr (Nat.le_of_lt (Nat.lt_trans h (by decide)))
    · exact UInt32.le_iff_toNat_le.mpr (Nat.lt_succ_iff.mp h)
  rw [String.utf8EncodeChar_eq_utf8EncodeCharFast, codePointToUTF8, String.utf8EncodeCharFast]
  simp only [UInt32.toUInt8_or, UInt32.toUInt8_and]
  split
  · rfl
  · split
    · rfl
    · split
      · rfl
      · rfl

/-- The halves of a surrogate pair are put together. -/
theorem surrogates_eq {n : ℕ} (hle : 0x10000 ≤ n) (hlt : n < 0x110000) :
    (0x10000 : UInt32) + ((UInt32.ofNat (0xD800 + (n - 0x10000) / 0x400) &&& 0x3FF) <<< 10) +
      (UInt32.ofNat (0xDC00 + (n - 0x10000) % 0x400) &&& 0x3FF) = UInt32.ofNat n := by
  have hlow : ∀ m < 2 ^ 32, (UInt32.ofNat m &&& 0x3FF).toNat = m % 1024 := by
    intro m hm
    rw [UInt32.toNat_and, UInt32.toNat_ofNat_of_lt' hm]
    exact Nat.and_two_pow_sub_one_eq_mod m 10
  refine UInt32.toNat_inj.mp ?_
  rw [UInt32.toNat_add, UInt32.toNat_add, UInt32.toNat_shiftLeft, hlow _ (by omega),
    hlow _ (by omega),
    UInt32.toNat_ofNat_of_lt' (Nat.lt_trans hlt (by decide)), Nat.shiftLeft_eq]
  have h10 : UInt32.toNat 10 % 32 = 10 := rfl
  have h16 : UInt32.toNat 0x10000 = 0x10000 := rfl
  rw [h10, h16]
  omega

theorem ofNat_toNat_char (c : Char) : UInt32.ofNat c.toNat = c.val := UInt32.ofNat_toNat

theorem toNat_lt_char (c : Char) : c.toNat < 0x110000 := by
  rcases c.valid with h | ⟨-, h⟩
  · exact Nat.lt_trans h (by decide)
  · exact h

/-- A code point is read from its escape. -/
theorem decodeUnicodeCodePoint_hex4 {c : Char} {ds : Bytes} (h : Hex4 ds c.toNat) (rest : Bytes) :
    decodeUnicodeCodePoint (ds ++ rest) = .ok (c.val, rest) := by
  have hno : ¬ ((0xD800 : UInt32) ≤ c.val ∧ c.val ≤ 0xDBFF) := by
    rintro ⟨h₁, h₂⟩
    have h₁' : 0xD800 ≤ c.val.toNat := UInt32.le_iff_toNat_le.mp h₁
    have h₂' : c.val.toNat ≤ 0xDBFF := UInt32.le_iff_toNat_le.mp h₂
    rcases c.valid with hc | ⟨hc, -⟩
    · exact absurd hc (by omega)
    · exact absurd hc (by omega)
  simp only [decodeUnicodeCodePoint, decodeUnicodeEscapeSequence_hex4 h, ofNat_toNat_char, bind,
    Except.bind, if_neg hno]

/-- A code point is read from the escapes of its two halves. -/
theorem decodeUnicodeCodePoint_surrogates {c : Char} {ds ds' : Bytes} (hle : 0x10000 ≤ c.toNat)
    (h : Hex4 ds (0xD800 + (c.toNat - 0x10000) / 0x400))
    (h' : Hex4 ds' (0xDC00 + (c.toNat - 0x10000) % 0x400)) (rest : Bytes) :
    decodeUnicodeCodePoint (ds ++ backslash :: 117 :: (ds' ++ rest)) = .ok (c.val, rest) := by
  have hlt := toNat_lt_char c
  have hhalf : (0xD800 : UInt32) ≤ UInt32.ofNat (0xD800 + (c.toNat - 0x10000) / 0x400) ∧
      UInt32.ofNat (0xD800 + (c.toNat - 0x10000) / 0x400) ≤ 0xDBFF := by
    have hsize : 0xD800 + (c.toNat - 0x10000) / 0x400 < UInt32.size := by
      have : 0xD800 + (c.toNat - 0x10000) / 0x400 < 0xDC00 := by omega
      exact Nat.lt_trans this (by decide)
    rw [UInt32.le_iff_toNat_le, UInt32.le_iff_toNat_le, UInt32.toNat_ofNat_of_lt' hsize]
    have h₁ : UInt32.toNat 0xD800 = 0xD800 := rfl
    have h₂ : UInt32.toNat 0xDBFF = 0xDBFF := rfl
    rw [h₁, h₂]
    omega
  have hsix : ¬ (backslash :: 117 :: (ds' ++ rest)).length < 6 := by
    rw [List.length_cons, List.length_cons, List.length_append, h'.length]
    omega
  have hsecond : ∀ unicode : UInt32, secondHalf unicode (backslash :: 117 :: (ds' ++ rest)) =
      .ok ((0x10000 : UInt32) + ((unicode &&& 0x3FF) <<< 10) +
        (UInt32.ofNat (0xDC00 + (c.toNat - 0x10000) % 0x400) &&& 0x3FF), rest) := by
    intro unicode
    rw [secondHalf, if_neg hsix, if_neg (by simp), if_neg (by simp), List.drop_succ_cons,
      List.drop_succ_cons, List.drop_zero, decodeUnicodeEscapeSequence_hex4 h']
    rfl
  simp only [decodeUnicodeCodePoint, decodeUnicodeEscapeSequence_hex4 h, bind, Except.bind,
    if_pos hhalf, hsecond, surrogates_eq hle hlt, ofNat_toNat_char]

theorem decodeLoop_nil (fuel : ℕ) (acc : Bytes) : decodeLoop fuel [] acc = .ok acc := by
  cases fuel <;> rfl

theorem decodeLoop_char {c : Byte} (hq : c ≠ quote) (hb : c ≠ backslash) (fuel : ℕ)
    (rest acc : Bytes) :
    decodeLoop (fuel + 1) (c :: rest) acc = decodeLoop fuel rest (acc ++ [c]) := by
  rw [decodeLoop.eq_def]
  simp only [if_neg hq, if_neg hb]

theorem decodeLoop_escape {e d : Byte} (hd : simpleEscape e = some d) (fuel : ℕ)
    (rest acc : Bytes) :
    decodeLoop (fuel + 1) (backslash :: e :: rest) acc = decodeLoop fuel rest (acc ++ [d]) := by
  rw [decodeLoop.eq_def]
  simp only [if_neg (show backslash ≠ quote by decide), if_true, hd]

theorem decodeLoop_unicode {unicode : UInt32} {text rest : Bytes}
    (h : decodeUnicodeCodePoint text = .ok (unicode, rest)) (fuel : ℕ) (acc : Bytes) :
    decodeLoop (fuel + 1) (backslash :: 117 :: text) acc =
      decodeLoop fuel rest (acc ++ codePointToUTF8 unicode) := by
  have hu : simpleEscape 117 = none := by decide
  rw [decodeLoop.eq_def]
  simp only [if_neg (show backslash ≠ quote by decide), if_true, hu, h]

/-- **A string is read as what it stands for.** -/
theorem decodeLoop_body {body decoded : Bytes} (h : StringBody body decoded) {fuel : ℕ}
    (hfuel : body.length ≤ fuel) (acc : Bytes) :
    decodeLoop fuel body acc = .ok (acc ++ decoded) := by
  induction h generalizing fuel acc with
  | nil => rw [decodeLoop_nil, List.append_nil]
  | char hq hb _ ih =>
    obtain ⟨fuel, rfl⟩ := Nat.exists_eq_add_one.mpr (Nat.lt_of_lt_of_le (Nat.zero_lt_succ _) hfuel)
    rw [decodeLoop_char hq hb, ih (Nat.succ_le_succ_iff.mp hfuel), List.append_assoc]
    rfl
  | escape hd _ ih =>
    obtain ⟨fuel, rfl⟩ := Nat.exists_eq_add_one.mpr (Nat.lt_of_lt_of_le (Nat.zero_lt_succ _) hfuel)
    rw [decodeLoop_escape hd, ih (by simp only [List.length_cons] at hfuel; omega),
      List.append_assoc]
    rfl
  | unicode hds _ ih =>
    obtain ⟨fuel, rfl⟩ := Nat.exists_eq_add_one.mpr (Nat.lt_of_lt_of_le (Nat.zero_lt_succ _) hfuel)
    rw [decodeLoop_unicode (decodeUnicodeCodePoint_hex4 hds _), codePointToUTF8_val,
      ih (by simp only [List.length_cons, List.length_append] at hfuel; omega), List.append_assoc]
  | surrogates hle hds hds' _ ih =>
    obtain ⟨fuel, rfl⟩ := Nat.exists_eq_add_one.mpr (Nat.lt_of_lt_of_le (Nat.zero_lt_succ _) hfuel)
    rw [decodeLoop_unicode (decodeUnicodeCodePoint_surrogates hle hds hds' _), codePointToUTF8_val,
      ih (by simp only [List.length_cons, List.length_append] at hfuel; omega), List.append_assoc]

/-! ## Numbers are read -/

/-- The number that digits stand for, behind those of `a`. -/
def digitsFrom (a : ℕ) (ds : Bytes) : ℕ := ds.foldl (fun v c => 10 * v + (c.toNat - 48)) a

theorem le_digitsFrom (a : ℕ) (ds : Bytes) : a ≤ digitsFrom a ds := by
  induction ds generalizing a with
  | nil => exact Nat.le_refl a
  | cons c ds ih => exact Nat.le_trans (by omega) (ih (10 * a + (c.toNat - 48)))

theorem digitsLoop_cons {threshold a : ℕ} {c : Byte} (hc : isdigit c = true)
    (ht : threshold < UInt32.size) (ha : a < UInt32.size) (ds : Bytes) :
    digitsLoop (UInt32.ofNat threshold) (c :: ds) (UInt32.ofNat a) =
      if threshold ≤ a then .tooLarge
      else digitsLoop (UInt32.ofNat threshold) ds (UInt32.ofNat (10 * a + (c.toNat - 48))) := by
  have hle : UInt32.ofNat threshold ≤ UInt32.ofNat a ↔ threshold ≤ a := by
    rw [UInt32.le_iff_toNat_le, UInt32.toNat_ofNat_of_lt' ht, UInt32.toNat_ofNat_of_lt' ha]
  have hstep : UInt32.ofNat a * 10 + UInt32.ofNat (c.toNat - 48) =
      UInt32.ofNat (10 * a + (c.toNat - 48)) := by
    rw [UInt32.ofNat_add, UInt32.ofNat_mul, UInt32.mul_comm]
    rfl
  rw [digitsLoop, hc, hstep]
  simp only [hle, Bool.not_true, Bool.false_eq_true, if_false]

/-- Digits below the limit are read as their number. -/
theorem digitsLoop_number {threshold a : ℕ} {ds : Bytes} (hds : ∀ c ∈ ds, isdigit c = true)
    (ht : 10 * threshold < UInt32.size) (h : digitsFrom a ds < 10 * threshold) :
    digitsLoop (UInt32.ofNat threshold) ds (UInt32.ofNat a) =
      .number (UInt32.ofNat (digitsFrom a ds)) := by
  induction ds generalizing a with
  | nil => rfl
  | cons c ds ih =>
    obtain ⟨hc, hds⟩ := List.forall_mem_cons.mp hds
    have hle := le_digitsFrom (10 * a + (c.toNat - 48)) ds
    have h' : digitsFrom (10 * a + (c.toNat - 48)) ds < 10 * threshold := h
    rw [digitsLoop_cons hc (by omega) (by omega), if_neg (by omega), ih hds h']
    rfl

/-- Digits from the limit on are too many. -/
theorem digitsLoop_tooLarge {threshold a : ℕ} {ds : Bytes} (hds : ∀ c ∈ ds, isdigit c = true)
    (ht : 10 * threshold < UInt32.size) (ha : a < 10 * threshold)
    (h : 10 * threshold ≤ digitsFrom a ds) :
    digitsLoop (UInt32.ofNat threshold) ds (UInt32.ofNat a) = .tooLarge := by
  induction ds generalizing a with
  | nil => exact absurd h (Nat.not_le.mpr ha)
  | cons c ds ih =>
    obtain ⟨hc, hds⟩ := List.forall_mem_cons.mp hds
    rw [digitsLoop_cons hc (by omega) (by omega)]
    split
    · rfl
    · next hlt =>
      have hdigit := isdigit_iff.mp hc
      exact ih hds (by omega) h

end Json
end CModel
