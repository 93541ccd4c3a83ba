import CModel.HttpCodec.HeadLines

/-!
# The values of a header block

`get_name_value` looks for the value behind the colon with a loop that goes on while there is no
white space.

* `FieldLine`: a header line with any text behind its colon.
* `get_setLines_fields`: the header gives a name the text of its last line from the first white
  space on.
* `trimBlanks_dropWhile_iff`: what is left out in front of the white space is lost.
* `ValuesFound`: `infuse` gives every name the complete value of its last line.
* `valuesFound_iff`: **it does** exactly if the text of each of these lines is empty or starts with
  white space.
-/

namespace CModel
namespace HttpCodec

/-! ## Header lines -/

/-- A header line: a name, a colon and any text. -/
structure FieldLine where
  name : Bytes
  text : Bytes
  name_ne : name ≠ []
  name_plain : ∀ c ∈ name, c ≠ 58 ∧ c ≠ CR ∧ c ≠ LF ∧ c ≠ 0
  text_plain : ∀ c ∈ text, c ≠ CR ∧ c ≠ LF ∧ c ≠ 0

namespace FieldLine

/-- The line with its carriage return and without its line feed. -/
def line (f : FieldLine) : Bytes := f.name ++ 58 :: f.text ++ [CR]

/-- The name in upper case. -/
def key (f : FieldLine) : Bytes := f.name.map toupper

/-- What the header keeps of the text. -/
def kept (f : FieldLine) : Bytes := f.text.dropWhile fun c => !isspace c

theorem LF_notMem_line (f : FieldLine) : LF ∉ f.line := by
  simp only [line, List.mem_append, List.mem_cons, List.not_mem_nil, or_false, not_or]
  exact ⟨⟨fun h => (f.name_plain _ h).2.2.1 rfl, by decide, fun h => (f.text_plain _ h).2.1 rfl⟩,
    by decide⟩

theorem headLine_line (f : FieldLine) : headLine f.line = .attr f.name f.kept :=
  headLine_field f.name_ne fun h => (f.name_plain _ h).1 rfl

/-- A name without a zero is its own C string in upper case. -/
theorem cstr_key (f : FieldLine) : cstr f.key = f.key :=
  cstr_map_toupper fun h => (f.name_plain _ h).2.2.2 rfl

theorem lineEntry_line (f : FieldLine) (key : Bytes) :
    lineEntry key f.line = if f.key = key then some f.kept else none := by
  rw [lineEntry, f.headLine_line]
  simp only [show cstr (f.name.map toupper) = f.key from f.cstr_key]

end FieldLine

/-- `f` is the last of the lines with its name. -/
def LastWithName (fs : List FieldLine) (f : FieldLine) : Prop :=
  ∃ front behind, fs = front ++ f :: behind ∧ ∀ g ∈ behind, g.key ≠ f.key

/-- **The last line with a name decides**, and what is kept is its text from the first white space
on. -/
theorem get_setLines_fields (h : CHttpHeader) {fs : List FieldLine} {f : FieldLine}
    (hf : LastWithName fs f) : (h.setLines (fs.map FieldLine.line)).get f.key = f.kept := by
  obtain ⟨front, behind, rfl, hbehind⟩ := hf
  have hnone : (behind.map FieldLine.line).reverse.findSome? (lineEntry f.key) = none := by
    rw [List.findSome?_eq_none_iff]
    intro l hl
    obtain ⟨g, hg, rfl⟩ := List.mem_map.mp (List.mem_reverse.mp hl)
    rw [g.lineEntry_line, if_neg (hbehind g hg)]
  refine StdMap.get_of_getElem? ?_
  rw [getElem?_setLines, List.map_append, List.map_cons, List.reverse_append, List.reverse_cons,
    List.append_assoc, List.findSome?_append, hnone, Option.none_or, List.singleton_append,
    List.findSome?_cons, f.lineEntry_line, if_pos rfl, Option.some_or]

/-! ## Blanks in front of a value -/

/-- A text without the blanks and tabs in front. -/
def trimBlanks (s : Bytes) : Bytes := s.dropWhile fun c => c == 32 || c == 9

theorem trimBlanks_cons_of_not_space {c : Byte} (hc : isspace c = false) (s : Bytes) :
    trimBlanks (c :: s) = c :: s := by
  have hblank : (c == 32 || c == 9) = false := by
    rw [Bool.eq_false_iff]
    intro h0
    rw [Bool.or_eq_true, beq_iff_eq, beq_iff_eq] at h0
    rcases h0 with rfl | rfl <;> exact absurd hc (by decide)
  exact List.dropWhile_cons_of_neg (by rw [hblank]; exact Bool.false_ne_true)

/-- **Nothing is lost** exactly if the text is empty or starts with white space. -/
theorem trimBlanks_dropWhile_iff (s : Bytes) :
    trimBlanks (s.dropWhile fun c => !isspace c) = trimBlanks s ↔
      ∀ c ∈ s.head?, isspace c = true := by
  cases s with
  | nil => exact iff_of_true rfl fun c hc => absurd hc (by simp)
  | cons c s =>
    have hhead : (∀ d ∈ (c :: s).head?, isspace d = true) ↔ isspace c = true := by simp
    rw [hhead]
    cases hc : isspace c with
    | true =>
      rw [List.dropWhile_cons_of_neg (by rw [hc]; exact Bool.false_ne_true)]
      exact iff_of_true rfl rfl
    | false =>
      refine iff_of_false ?_ Bool.false_ne_true
      intro h
      rw [trimBlanks_cons_of_not_space hc, List.dropWhile_cons_of_pos (by rw [hc]; rfl)] at h
      have hle : (trimBlanks (s.dropWhile fun c => !isspace c)).length ≤ s.length :=
        (List.dropWhile_suffix _).length_le.trans (List.dropWhile_suffix _).length_le
      rw [h, List.length_cons] at hle
      omega

/-! ## The block -/

/-- Header lines, the empty line and what follows it. -/
def headBlock (fs : List FieldLine) (rest : Bytes) : Bytes :=
  unlines (fs.map FieldLine.line ++ [[CR]]) ++ rest

/-- **`infuse` on a header block** takes all of its lines. -/
theorem infuse_headBlock (h : CHttpHeader) {fs : List FieldLine} (hlen : fs.length ≤ 8191)
    (rest : Bytes) : h.infuse (headBlock fs rest) =
      .ok ({ h.setLines (fs.map FieldLine.line) with full := true },
        (unlines (fs.map FieldLine.line ++ [[CR]])).length) := by
  obtain ⟨hrest, ht⟩ := LF_notMem_splitLines rest
  have hlines : ∀ l ∈ fs.map FieldLine.line ++ [CR] :: (splitLines rest).1, LF ∉ l := by
    intro l hl
    rcases List.mem_append.mp hl with hl | hl
    · obtain ⟨f, -, rfl⟩ := List.mem_map.mp hl
      exact f.LF_notMem_line
    · rcases List.mem_cons.mp hl with rfl | hl
      · decide
      · exact hrest l hl
  have hdata : headBlock fs rest =
      unlines (fs.map FieldLine.line ++ [CR] :: (splitLines rest).1) ++ (splitLines rest).2 := by
    rw [headBlock, unlines_append, unlines_append, List.append_assoc, List.append_assoc,
      unlines_cons, unlines_cons, unlines_nil, List.append_assoc, List.append_assoc]
    congr 2
    rw [List.cons_append, List.cons_append, List.nil_append, unlines_splitLines]
  have hattr : ∀ l ∈ fs.map FieldLine.line, IsAttr l := by
    intro l hl
    obtain ⟨f, -, rfl⟩ := List.mem_map.mp hl
    exact ⟨_, _, f.headLine_line⟩
  have hwalk := walk_attrs_blank hattr (b := [CR]) rfl (splitLines rest).1 (n := cMaxHeadLine)
    (by rw [List.length_map]; exact Nat.lt_succ_of_le hlen) h
  rw [CHttpHeader.infuse, hdata, infuseFrom_eq_walk hlines ht, hwalk, Nat.zero_add]
  congr 2
  have htake : (fs.map FieldLine.line ++ [CR] :: (splitLines rest).1).take
      ((fs.map FieldLine.line).length + 1) = fs.map FieldLine.line ++ [[CR]] := by
    rw [List.take_length_add_append]
    rfl
  rw [htake]

/-- `infuse` gives the last line with a name its complete value, up to blanks and tabs in front. -/
def ValuesFound (h : CHttpHeader) (fs : List FieldLine) (rest : Bytes) : Prop :=
  ∃ h' skipLen, h.infuse (headBlock fs rest) = .ok (h', skipLen) ∧
    ∀ f, LastWithName fs f → trimBlanks (h'.get f.key) = trimBlanks f.text

/-- **The values come out complete** exactly if the text of each last line is empty or starts with
white space. -/
theorem valuesFound_iff (h : CHttpHeader) {fs : List FieldLine} (hlen : fs.length ≤ 8191)
    (rest : Bytes) : ValuesFound h fs rest ↔
      ∀ f, LastWithName fs f → ∀ c ∈ f.text.head?, isspace c = true := by
  have hinfuse := infuse_headBlock h hlen rest
  have hvalue : ∀ f, LastWithName fs f →
      (trimBlanks ((h.setLines (fs.map FieldLine.line)).get f.key) = trimBlanks f.text ↔
        ∀ c ∈ f.text.head?, isspace c = true) := fun f hf => by
    rw [get_setLines_fields h hf]
    exact trimBlanks_dropWhile_iff f.text
  constructor
  · rintro ⟨h', skipLen, hok, hall⟩ f hf
    rw [hinfuse, Outcome.ok.injEq, Prod.mk.injEq] at hok
    have hget := hall f hf
    rw [← hok.1] at hget
    exact (hvalue f hf).mp hget
  · exact fun hall => ⟨_, _, hinfuse, fun f hf => (hvalue f hf).mpr (hall f hf)⟩

/-! ## A value right behind the colon -/

/-- The line `A:b`. -/
def tightLine : FieldLine :=
  ⟨ascii "A", ascii "b", by decide, by decide, by decide⟩

theorem valuesFound_tightLine_iff : ValuesFound {} [tightLine] [] ↔
    ∀ f, LastWithName [tightLine] f → ∀ c ∈ f.text.head?, isspace c = true :=
  valuesFound_iff {} (by decide) []

/-- **The value `b` is lost.** -/
theorem tightLine_not_valuesFound : ¬ ValuesFound {} [tightLine] [] := by
  rintro ⟨h', skipLen, hok, hall⟩
  have hlast : LastWithName [tightLine] tightLine :=
    ⟨[], [], rfl, fun g hg => absurd hg List.not_mem_nil⟩
  have hinfuse : CHttpHeader.infuse {} (headBlock [tightLine] []) = _ :=
    infuse_headBlock {} (by decide) []
  rw [hinfuse, Outcome.ok.injEq, Prod.mk.injEq] at hok
  have hvalue : trimBlanks ((({} : CHttpHeader).setLines ([tightLine].map FieldLine.line)).get
      tightLine.key) = trimBlanks tightLine.text := by
    have hget := hall tightLine hlast
    rwa [← hok.1] at hget
  rw [get_setLines_fields {} hlast] at hvalue
  exact absurd hvalue (by decide)

end HttpCodec
end CModel
