import CModel.Foundation.Numerals

/-!
# `CHttpParser::UrlDecode` and form encoding

`UrlDecode` turns `+` into a blank and escapes into bytes, but leaves the escapes of some bytes as
they are.

* `keepsEscaped`, `urlDecode`: the code.
* `FormPiece`: a byte with its form encoding; a form encoding is a list of these.
* `urlDecode_flatMap`: what becomes of a form encoding.
* `urlDecode_formEncoded`: **form encoding is undone up to the escapes that are left**, and undone
  exactly if there are none.
-/

namespace CModel
namespace HttpCodec

/-! ## The code -/

/-- The values that `UrlDecode` does not decode. -/
def keepsEscaped (hex : ℤ) : Bool :=
  (48 ≤ hex && hex ≤ 57) || (97 ≤ hex && hex ≤ 122) || (65 ≤ hex && hex ≤ 90) ||
    hex == 0x21 || hex == 0x24 || hex == 0x26 || hex == 0x27 || hex == 0x28 || hex == 0x29 ||
    hex == 0x2a || hex == 0x2b || hex == 0x2c || hex == 0x2d || hex == 0x2e || hex == 0x2f ||
    hex == 0x3A || hex == 0x3B || hex == 0x3D || hex == 0x3f || hex == 0x40 || hex == 0x5f

/-- `CHttpParser::UrlDecode`.  Behind the last byte a `std::string` has a zero, which is no
digit. -/
def urlDecode : Bytes → Bytes
  | [] => []
  | c :: rest =>
    if c = 43 then 32 :: urlDecode rest
    else if c = 37 then
      match rest with
      | a :: b :: rest' =>
        if isxdigit a && isxdigit b then
          let hex := strtol16 (cstr [a, b])
          if !keepsEscaped hex then toChar hex :: urlDecode rest'
          else 37 :: urlDecode (a :: b :: rest')
        else 37 :: urlDecode (a :: b :: rest')
      | rest => 37 :: urlDecode rest
    else c :: urlDecode rest

theorem urlDecode_plus (s : Bytes) : urlDecode (43 :: s) = 32 :: urlDecode s := by
  rw [urlDecode.eq_def]
  exact if_pos rfl

theorem urlDecode_cons_of_ne {c : Byte} (h₁ : c ≠ 43) (h₂ : c ≠ 37) (s : Bytes) :
    urlDecode (c :: s) = c :: urlDecode s := by
  rw [urlDecode.eq_def]
  simp only [if_neg h₁, if_neg h₂]

/-- An escape is decoded, or its `%` stands for itself. -/
theorem urlDecode_escape {a b : Byte} (ha : isxdigit a = true) (hb : isxdigit b = true)
    (s : Bytes) : urlDecode (37 :: a :: b :: s) =
      if keepsEscaped (strtol16 (cstr [a, b])) then 37 :: a :: b :: urlDecode s
      else escapeByte a b :: urlDecode s := by
  have hplain : ∀ {c : Byte}, isxdigit c = true → c ≠ 43 ∧ c ≠ 37 := by
    intro c hc
    constructor <;> rintro rfl <;> exact absurd hc (by decide)
  have hkeep : urlDecode (a :: b :: s) = a :: b :: urlDecode s := by
    rw [urlDecode_cons_of_ne (hplain ha).1 (hplain ha).2,
      urlDecode_cons_of_ne (hplain hb).1 (hplain hb).2]
  rw [urlDecode.eq_def]
  simp only [show ¬ (37 : Byte) = 43 by decide, if_false, if_true, ha, hb, Bool.and_self,
    toChar_strtol16_pair ha hb, hkeep]
  cases keepsEscaped (strtol16 (cstr [a, b])) <;> rfl

/-! ## Form encoding -/

/-- A letter or a digit. -/
def isalnum (c : Byte) : Bool := isalpha c || isdigit c

/-- A byte and its form encoding: a blank is a `+`, letters and digits stay, and any other byte is a
`%` and two hexadecimal digits, in upper or lower case. -/
structure FormPiece where
  byte : Byte
  text : Bytes
  encodes : (byte = 32 ∧ text = [43]) ∨ (isalnum byte = true ∧ text = [byte]) ∨
    (byte ≠ 32 ∧ isalnum byte = false ∧
      ∃ a b, isxdigit a = true ∧ isxdigit b = true ∧ escapeByte a b = byte ∧ text = [37, a, b])

namespace FormPiece

/-- The byte is punctuation whose escape `UrlDecode` does not decode. -/
def Listed (p : FormPiece) : Prop := isalnum p.byte = false ∧ keepsEscaped p.byte.toNat = true

instance (p : FormPiece) : Decidable p.Listed :=
  inferInstanceAs (Decidable (_ ∧ _))

/-- What `UrlDecode` makes of the piece. -/
def decoded (p : FormPiece) : Bytes := if p.Listed then p.text else [p.byte]

theorem strtol16_escape {a b : Byte} (ha : isxdigit a = true) (hb : isxdigit b = true) :
    strtol16 (cstr [a, b]) = (escapeByte a b).toNat := by
  have hlt₁ := xdigitValue_lt ha
  have hlt₂ := xdigitValue_lt hb
  rw [strtol16_pair ha hb, escapeByte, UInt8.toNat_ofNat']
  omega

theorem urlDecode_text_append (p : FormPiece) (s : Bytes) :
    urlDecode (p.text ++ s) = p.decoded ++ urlDecode s := by
  rcases p.encodes with ⟨hb, ht⟩ | ⟨hb, ht⟩ | ⟨-, hb, x, y, hx, hy, hxy, ht⟩
  · have hnot : ¬ p.Listed := by
      rintro ⟨-, hkeep⟩
      rw [hb] at hkeep
      exact absurd hkeep (by decide)
    rw [decoded, if_neg hnot, hb, ht]
    exact urlDecode_plus s
  · have hne : ∀ {c : Byte}, isalnum c = false → p.byte ≠ c := by
      rintro c hc rfl
      exact absurd (hb.symm.trans hc) (by simp)
    have hnot : ¬ p.Listed := fun h => absurd (hb.symm.trans h.1) (by simp)
    rw [decoded, if_neg hnot, ht]
    exact urlDecode_cons_of_ne (hne rfl) (hne rfl) s
  · have hkeep : keepsEscaped (strtol16 (cstr [x, y])) = true ↔ p.Listed := by
      rw [strtol16_escape hx hy, hxy, Listed, and_iff_right hb]
    rw [decoded, ht]
    refine (urlDecode_escape hx hy s).trans ?_
    by_cases hlisted : p.Listed
    · rw [if_pos (hkeep.mpr hlisted), if_pos hlisted]
      rfl
    · rw [if_neg (mt hkeep.mp hlisted), if_neg hlisted, hxy]
      rfl

/-- A listed byte is left as the three bytes of its escape. -/
theorem length_decoded (p : FormPiece) : p.decoded.length = if p.Listed then 3 else 1 := by
  rw [decoded]
  split
  · next h =>
    rcases p.encodes with ⟨hb, -⟩ | ⟨hb, -⟩ | ⟨-, -, x, y, -, -, -, ht⟩
    · have hkeep := h.2
      rw [hb] at hkeep
      exact absurd hkeep (by decide)
    · exact absurd (hb.symm.trans h.1) (by simp)
    · rw [ht]
      rfl
  · rfl

end FormPiece

/-- **What becomes of a form encoding.** -/
theorem urlDecode_flatMap (ps : List FormPiece) :
    urlDecode (ps.flatMap FormPiece.text) = ps.flatMap FormPiece.decoded := by
  induction ps with
  | nil => rfl
  | cons p ps ih =>
    rw [List.flatMap_cons, p.urlDecode_text_append, ih, List.flatMap_cons]

/-- Each piece decodes to one byte at least. -/
theorem length_le_length_flatMap (ps : List FormPiece) :
    ps.length ≤ (ps.flatMap FormPiece.decoded).length := by
  induction ps with
  | nil => exact Nat.zero_le _
  | cons p ps ih =>
    have hone : 1 ≤ p.decoded.length := by
      rw [p.length_decoded]
      split <;> decide
    rw [List.flatMap_cons, List.length_append, List.length_cons]
    omega

theorem flatMap_decoded_eq_iff (ps : List FormPiece) :
    ps.flatMap FormPiece.decoded = ps.map FormPiece.byte ↔ ∀ p ∈ ps, ¬ p.Listed := by
  induction ps with
  | nil => simp
  | cons p ps ih =>
    rw [List.forall_mem_cons, ← ih, List.flatMap_cons, List.map_cons]
    by_cases hlisted : p.Listed
    · -- too long from here on
      refine iff_of_false ?_ fun h => h.1 hlisted
      intro h
      have hlen := congrArg List.length h
      have hle := length_le_length_flatMap ps
      rw [List.length_append, List.length_cons, List.length_map, p.length_decoded,
        if_pos hlisted] at hlen
      omega
    · rw [FormPiece.decoded, if_neg hlisted, List.singleton_append, List.cons.injEq,
        and_iff_right rfl, and_iff_right hlisted]

/-- **`UrlDecode` undoes form encoding but for the listed punctuation**, whose escapes stay as they
are; so it gives back the bytes that were encoded exactly if none of them is listed. -/
theorem urlDecode_formEncoded (ps : List FormPiece) :
    urlDecode (ps.flatMap FormPiece.text) = ps.flatMap FormPiece.decoded ∧
      (urlDecode (ps.flatMap FormPiece.text) = ps.map FormPiece.byte ↔
        ∀ p ∈ ps, ¬ p.Listed) := by
  refine ⟨urlDecode_flatMap ps, ?_⟩
  rw [urlDecode_flatMap]
  exact flatMap_decoded_eq_iff ps

/-- The escape of an exclamation mark. -/
def exclamation : FormPiece where
  byte := 33
  text := [37, 50, 49]
  encodes := .inr (.inr ⟨by decide, by decide, 50, 49, by decide, by decide, by decide, rfl⟩)

/-- `%21` stays `%21`. -/
theorem urlDecode_exclamation : ¬ ∀ ps : List FormPiece,
    urlDecode (ps.flatMap FormPiece.text) = ps.map FormPiece.byte := by
  intro h
  have hone : [exclamation].flatMap FormPiece.decoded = [exclamation].map FormPiece.byte := by
    rw [← urlDecode_flatMap]
    exact h [exclamation]
  exact absurd hone (by decide)

end HttpCodec
end CModel
