import CModel.HttpCodec.HeadLines

/-!
# Writing a header and reading it back

* `Filled`: the headers that calls of `infuse` make; `Clean` is what holds of all their attributes.
* `output_eq`: a large enough buffer gets one line for each attribute.
* `getElem?_setLines_output`: **reading the lines back puts a blank in front of every value**,
  the one that `output` writes behind the colon and that `get_name_value` takes for a part of the
  value.
* `roundTrips_iff`: a header that is written and read back stays the same if and only if it has no
  attribute.
-/

namespace CModel
namespace HttpCodec

namespace CHttpHeader

/-! ## The headers that `infuse` makes -/

/-- A fresh header to which `infuse` has been applied until it was full, or not yet full. -/
inductive Filled : CHttpHeader → Prop
  | fresh : Filled {}
  | infuse {h h' : CHttpHeader} {data : Bytes} {n : ℕ} (hf : Filled h) (hopen : h.full = false)
      (hr : h.infuse data = .ok (h', n)) : Filled h'

/-- An attribute as a line can have it. -/
structure CleanAttr (name value : Bytes) : Prop where
  noLF : LF ∉ name ∧ LF ∉ value
  noColon : (58 : Byte) ∉ name
  upper : cstr (name.map toupper) = name

/-- All attributes are as lines can have them. -/
def Clean (h : CHttpHeader) : Prop :=
  ∀ name value, h.headAttribute[name]? = some value → CleanAttr name value

theorem toupper_eq_iff {c d : Byte} (hd : d = LF ∨ d = 58) : toupper c = d ↔ c = d := by
  rcases hd with rfl | rfl <;> grind [toupper]

/-- Upper case makes no line feed and no colon. -/
theorem notMem_upper {d : Byte} (hd : d = LF ∨ d = 58) {name : Bytes} (h : d ∉ name) :
    d ∉ cstr (name.map toupper) := by
  intro h0
  obtain ⟨c, hc, h1⟩ := List.mem_map.mp ((List.takeWhile_prefix _).subset h0)
  exact h ((toupper_eq_iff hd).mp h1 ▸ hc)

/-- A key is in upper case and a C string. -/
theorem upper_upper (name : Bytes) :
    cstr ((cstr (name.map toupper)).map toupper) = cstr (name.map toupper) := by
  have hmap : (cstr (name.map toupper)).map toupper = cstr (name.map toupper) := by
    conv_rhs => rw [← List.map_id (cstr (name.map toupper))]
    refine List.map_congr_left ?_
    intro c hc
    obtain ⟨d, -, rfl⟩ := List.mem_map.mp ((List.takeWhile_prefix _).subset hc)
    exact toupper_toupper d
  rw [hmap]
  exact cstr_eq_self (zero_notMem_cstr _)

/-- Name and value of an attribute line are pieces of it, and the name ends at the first colon. -/
theorem attr_of_headLine {l name value : Bytes} (h : headLine l = .attr name value) :
    (∀ c ∈ name, c ∈ l) ∧ (∀ c ∈ value, c ∈ l) ∧ (58 : Byte) ∉ name := by
  unfold headLine at h
  split at h
  · exact absurd h (by simp)
  · split at h
    · exact absurd h (by simp)
    · exact absurd h (by simp)
    · next pos hpos =>
      obtain ⟨a, b, hab, hcolon, ha⟩ := findChar_eq_some_iff.mp hpos
      rw [HeadLine.attr.injEq, hab, List.take_left' ha] at h
      obtain ⟨rfl, rfl⟩ := h
      have hl : ∀ c ∈ lineText l, c ∈ l := fun c hc => (lineText_isPrefix l).subset hc
      refine ⟨fun c hc => hl c (hab ▸ List.mem_append_left _ hc), fun c hc => hl c ?_, hcolon⟩
      rw [hab]
      exact List.mem_of_mem_drop ((List.dropWhile_sublist _).subset hc)

theorem clean_setLine {h : CHttpHeader} (hc : h.Clean) {l : Bytes} (hl : LF ∉ l) :
    (h.setLine l).Clean := by
  intro name value hget
  rw [getElem?_setLine, Option.or_eq_some_iff] at hget
  rcases hget with hget | ⟨-, hget⟩
  · unfold lineEntry at hget
    split at hget
    · next name₀ value₀ hline =>
      obtain ⟨hname, hvalue, hcolon⟩ := attr_of_headLine hline
      split at hget
      · next hkey =>
        rw [Option.some.injEq] at hget
        subst hkey hget
        exact ⟨⟨notMem_upper (Or.inl rfl) fun h0 => hl (hname _ h0), fun h0 => hl (hvalue _ h0)⟩,
          notMem_upper (Or.inr rfl) hcolon, upper_upper name₀⟩
      · exact absurd hget (by simp)
    · exact absurd hget (by simp)
  · exact hc name value hget

/-- The walk over lines keeps the attributes clean. -/
theorem clean_walk {h : CHttpHeader} (hc : h.Clean) {ls : List Bytes} (hls : ∀ l ∈ ls, LF ∉ l)
    (n : ℕ) : (walk n h ls).1.Clean := by
  induction n generalizing h ls with
  | zero => exact hc
  | succ n ih =>
    cases ls with
    | nil => exact hc
    | cons l ls =>
      obtain ⟨hl, hls⟩ := List.forall_mem_cons.mp hls
      have hset := clean_setLine hc hl
      rw [walk]
      cases hline : headLine l with
      | blank => exact hc
      | noName => exact hc
      | attr name value =>
        rw [setLine, hline] at hset
        exact ih hset hls

/-- **`infuse` makes clean attributes.** -/
theorem clean_of_filled {h : CHttpHeader} (hf : Filled h) : h.Clean := by
  induction hf with
  | fresh =>
    intro name value hget
    have hempty : ({} : CHttpHeader).headAttribute[name]? = none := Std.ExtTreeMap.getElem?_empty
    rw [hempty] at hget
    exact absurd hget (by simp)
  | @infuse h h' data n hf hopen hr ih =>
    obtain ⟨hls, ht⟩ := LF_notMem_splitLines data
    have hwalk := infuseFrom_eq_walk hls ht cMaxHeadLine h 0
    rw [unlines_splitLines] at hwalk
    rw [CHttpHeader.infuse, hwalk, Outcome.ok.injEq, Prod.mk.injEq] at hr
    rw [← hr.1]
    exact clean_walk ih hls cMaxHeadLine

/-! ## What `output` writes -/

/-- The line of an attribute, without its line feed. -/
def outLine (a : Bytes × Bytes) : Bytes := cstr a.1 ++ 58 :: 32 :: cstr a.2 ++ [CR]

theorem attributeLine_eq (a : Bytes × Bytes) : attributeLine a.1 a.2 = outLine a ++ [LF] := by
  rw [attributeLine, outLine]
  simp only [List.append_assoc]
  rfl

/-- The room that the bound check of `output` asks for. -/
def outputSize (l : List (Bytes × Bytes)) : ℕ :=
  (l.map fun a => a.1.length + a.2.length + 4).sum

theorem length_attributeLine_le (a : Bytes × Bytes) :
    (attributeLine a.1 a.2).length ≤ a.1.length + a.2.length + 4 := by
  have h₁ : (cstr a.1).length ≤ a.1.length := (List.takeWhile_prefix _).length_le
  have h₂ : (cstr a.2).length ≤ a.2.length := (List.takeWhile_prefix _).length_le
  simp only [attributeLine, List.length_append, show (ascii ": ").length = 2 from rfl,
    show (ascii "\r\n").length = 2 from rfl]
  omega

theorem outputFrom_of_lt {buffSize : ℕ} {l : List (Bytes × Bytes)} {out : Bytes}
    (h : out.length + outputSize l < buffSize) :
    outputFrom buffSize l out = some (0, out ++ unlines (l.map outLine)) := by
  induction l generalizing out with
  | nil => rw [outputFrom, List.map_nil, unlines_nil, List.append_nil]
  | cons a l ih =>
    have hle := length_attributeLine_le a
    rw [outputSize, List.map_cons, List.sum_cons] at h
    have hrest : (out ++ attributeLine a.1 a.2).length + outputSize l < buffSize := by
      rw [List.length_append, outputSize]
      omega
    rw [outputFrom, if_neg (by omega), if_pos (by omega), ih hrest, attributeLine_eq,
      List.map_cons, unlines_cons]
    simp only [List.append_assoc, List.singleton_append]

/-- **A large enough buffer gets one line for each attribute.** -/
theorem output_eq {h : CHttpHeader} (hfull : h.full = true) {buffSize : ℕ}
    (hsize : outputSize h.headAttribute.toList < buffSize) :
    h.output buffSize = some (0, unlines (h.headAttribute.toList.map outLine)) := by
  rw [output, hfull, if_neg (by simp), outputFrom_of_lt (by simpa using hsize), List.nil_append]

/-! ## Reading it back -/

section ReadBack

variable {h : CHttpHeader}

/-- An attribute with a name is written as an attribute line. -/
theorem headLine_outLine {name value : Bytes} (hc : CleanAttr name value) (hne : name ≠ []) :
    headLine (outLine (name, value)) = .attr name (32 :: cstr value) := by
  have hname : cstr name = name := by
    rw [← hc.upper]
    exact cstr_eq_self (zero_notMem_cstr _)
  rw [outLine, hname]
  exact headLine_field hne hc.noColon

/-- An attribute with an empty name is written as a line without a name. -/
theorem headLine_outLine_nil (value : Bytes) : headLine (outLine ([], value)) = .noName := by
  have htext : lineText (outLine ([], value)) = 58 :: 32 :: cstr value := lineText_concat_CR _
  have hpos : findChar 58 (58 :: 32 :: cstr value) = some 0 := by
    simp [findChar, List.findIdx?_cons]
  rw [headLine, htext, if_neg (List.cons_ne_nil _ _), hpos]

theorem LF_notMem_outLine {name value : Bytes} (hc : CleanAttr name value) :
    LF ∉ outLine (name, value) := by
  simp only [outLine, List.mem_append, List.mem_cons, List.not_mem_nil, or_false, not_or]
  exact ⟨⟨fun h0 => hc.noLF.1 ((List.takeWhile_prefix _).subset h0), by decide, by decide,
    fun h0 => hc.noLF.2 ((List.takeWhile_prefix _).subset h0)⟩, by decide⟩

theorem lineEntry_outLine {name value : Bytes} (hc : CleanAttr name value) (hne : name ≠ [])
    (key : Bytes) : lineEntry key (outLine (name, value)) =
      if name = key then some (32 :: cstr value) else none := by
  rw [lineEntry, headLine_outLine hc hne]
  simp only [hc.upper]

/-- **Reading the lines back puts a blank in front of every value.** -/
theorem getElem?_setLines_output (hc : h.Clean)
    (hne : ∀ a ∈ h.headAttribute.toList, a.1 ≠ []) (key : Bytes) :
    (({} : CHttpHeader).setLines (h.headAttribute.toList.map outLine)).headAttribute[key]? =
      h.headAttribute[key]?.map fun value => 32 :: cstr value := by
  have hempty : ({} : CHttpHeader).headAttribute[key]? = none := Std.ExtTreeMap.getElem?_empty
  have hentry : ∀ a ∈ h.headAttribute.toList, lineEntry key (outLine a) =
      if a.1 = key then some (32 :: cstr a.2) else none := fun a ha =>
    lineEntry_outLine (hc a.1 a.2 (Std.ExtTreeMap.mem_toList_iff_getElem?_eq_some.mp ha))
      (hne a ha) key
  rw [getElem?_setLines, hempty, Option.or_none]
  cases hkey : h.headAttribute[key]? with
  | none =>
    rw [Option.map_none, List.findSome?_eq_none_iff]
    intro l hl
    obtain ⟨a, ha, rfl⟩ := List.mem_map.mp (List.mem_reverse.mp hl)
    rw [hentry a ha, if_neg]
    rintro rfl
    rw [Std.ExtTreeMap.mem_toList_iff_getElem?_eq_some.mp (show (a.1, a.2) ∈ _ from ha)] at hkey
    exact absurd hkey (by simp)
  | some value =>
    -- all lines with this key come from the one attribute that has it
    have hval : ∀ a ∈ h.headAttribute.toList, a.1 = key → a.2 = value := by
      rintro a ha rfl
      rw [Std.ExtTreeMap.mem_toList_iff_getElem?_eq_some.mp (show (a.1, a.2) ∈ _ from ha)] at hkey
      exact Option.some.inj hkey
    have hmem : (key, value) ∈ h.headAttribute.toList :=
      Std.ExtTreeMap.mem_toList_iff_getElem?_eq_some.mpr hkey
    cases hfind : (h.headAttribute.toList.map outLine).reverse.findSome? (lineEntry key) with
    | none =>
      have h0 := List.findSome?_eq_none_iff.mp hfind _
        (List.mem_reverse.mpr (List.mem_map.mpr ⟨_, hmem, rfl⟩))
      rw [hentry _ hmem, if_pos rfl] at h0
      exact absurd h0 (by simp)
    | some w =>
      obtain ⟨l, hl, hw⟩ := List.exists_of_findSome?_eq_some hfind
      obtain ⟨a, ha, rfl⟩ := List.mem_map.mp (List.mem_reverse.mp hl)
      rw [hentry a ha] at hw
      split at hw
      · next hak => rw [← hw, hval a ha hak, Option.map_some]
      · exact absurd hw (by simp)

end ReadBack

/-- A walk that completes the header went over attribute lines up to an empty line. -/
theorem exists_of_walk_full {h : CHttpHeader} (hopen : h.full = false) {n : ℕ} {ls : List Bytes}
    (hw : (walk n h ls).1.full = true) :
    ∃ as b rest, ls = as ++ b :: rest ∧ (∀ l ∈ as, IsAttr l) ∧ lineText b = [] ∧
      (walk n h ls).1 = { h.setLines as with full := true } := by
  induction n generalizing h ls with
  | zero => exact absurd (hopen.symm.trans hw) (by simp)
  | succ n ih =>
    cases ls with
    | nil => exact absurd (hopen.symm.trans hw) (by simp)
    | cons l ls =>
      rw [walk] at hw ⊢
      cases hline : headLine l with
      | blank =>
        exact ⟨[], l, ls, rfl, by simp, headLine_eq_blank_iff.mp hline, rfl⟩
      | noName =>
        rw [hline] at hw
        exact absurd (hopen.symm.trans hw) (by simp)
      | attr name value =>
        rw [hline] at hw
        obtain ⟨as, b, rest, rfl, has, hb, hwalk⟩ := ih (by rwa [full_set]) hw
        refine ⟨l :: as, b, rest, rfl, List.forall_mem_cons.mpr ⟨⟨name, value, hline⟩, has⟩, hb, ?_⟩
        have hset : h.setLines (l :: as) = (h.set name value).setLines as := by
          show (h.setLine l).setLines as = _
          rw [setLine, hline]
        rw [hset]
        exact hwalk

/-- Written into a large enough buffer and read back behind an empty line, the header is full and
has the same attributes. -/
def RoundTrips (h : CHttpHeader) : Prop :=
  ∀ buffSize, outputSize h.headAttribute.toList < buffSize →
    ∃ text h' n, h.output buffSize = some (0, text) ∧
      ({} : CHttpHeader).infuse (text ++ ascii "\r\n") = .ok (h', n) ∧
      h'.full = true ∧ h'.headAttribute = h.headAttribute

/-- Reading back what was written is the walk over the lines written. -/
theorem infuse_output {h : CHttpHeader} (hc : h.Clean) :
    ({} : CHttpHeader).infuse (unlines (h.headAttribute.toList.map outLine) ++ ascii "\r\n") =
      .ok ((walk cMaxHeadLine {} (h.headAttribute.toList.map outLine ++ [[CR]])).1,
        (unlines ((h.headAttribute.toList.map outLine ++ [[CR]]).take
          (walk cMaxHeadLine {} (h.headAttribute.toList.map outLine ++ [[CR]])).2)).length) := by
  have hls : ∀ l ∈ h.headAttribute.toList.map outLine ++ [[CR]], LF ∉ l := by
    intro l hl
    rcases List.mem_append.mp hl with hl | hl
    · obtain ⟨a, ha, rfl⟩ := List.mem_map.mp hl
      exact LF_notMem_outLine (hc a.1 a.2 (Std.ExtTreeMap.mem_toList_iff_getElem?_eq_some.mp ha))
    · rw [List.mem_singleton.mp hl]
      decide
  have hwalk := infuseFrom_eq_walk hls (t := []) List.not_mem_nil cMaxHeadLine {} 0
  rw [Nat.zero_add, List.append_nil, unlines_append] at hwalk
  exact hwalk

/-- A line that is written is not empty. -/
theorem headLine_outLine_ne_blank (a : Bytes × Bytes) : headLine (outLine a) ≠ .blank := by
  rw [Ne, headLine_eq_blank_iff, outLine, lineText_concat_CR]
  simp

/-- The first empty line behind the lines written is the one that was appended. -/
theorem attrs_eq_of_append_blank {l : List (Bytes × Bytes)} {as rest : List Bytes} {b : Bytes}
    (h : l.map outLine ++ [[CR]] = as ++ b :: rest) (hb : headLine b = .blank) :
    as = l.map outLine := by
  rcases List.append_eq_append_iff.mp h with ⟨c, rfl, hc⟩ | ⟨c, hc, hbc⟩
  · cases c with
    | nil => exact List.append_nil _
    | cons d c => simp at hc
  · cases c with
    | nil => exact (hc.trans (List.append_nil _)).symm
    | cons d c =>
      rw [List.cons_append, List.cons.injEq] at hbc
      have hd : d ∈ l.map outLine := hc ▸ List.mem_append_right _ List.mem_cons_self
      obtain ⟨a, -, ha⟩ := List.mem_map.mp hd
      exact absurd (ha ▸ hbc.1 ▸ hb) (headLine_outLine_ne_blank a)

/-- No value is its own C string behind a blank. -/
theorem ne_blank_cons (value : Bytes) : value ≠ 32 :: cstr value := by
  intro h
  have hzero : (0 : Byte) ∉ value := by
    rw [h, List.mem_cons, not_or]
    exact ⟨by decide, zero_notMem_cstr value⟩
  rw [cstr_eq_self hzero] at h
  exact absurd (congrArg List.length h) (by simp)

/-- **A header that is written and read back stays the same if and only if it has no attribute.**
Each value comes back with one more blank in front. -/
theorem roundTrips_iff {h : CHttpHeader} (hf : Filled h) (hfull : h.full = true) :
    h.RoundTrips ↔ h.headAttribute = ∅ := by
  have hc := clean_of_filled hf
  constructor
  · intro hround
    obtain ⟨text, h', n, hout, hin, hfull', hsame⟩ := hround _ (Nat.lt_succ_self _)
    rw [output_eq hfull (Nat.lt_succ_self _), Option.some.injEq, Prod.mk.injEq] at hout
    obtain ⟨-, rfl⟩ := hout
    rw [infuse_output hc, Outcome.ok.injEq, Prod.mk.injEq] at hin
    obtain ⟨rfl, -⟩ := hin
    obtain ⟨as, b, rest, hlines, has, hb, hwalk⟩ := exists_of_walk_full rfl hfull'
    obtain rfl := attrs_eq_of_append_blank hlines (headLine_eq_blank_iff.mpr hb)
    have hne : ∀ a ∈ h.headAttribute.toList, a.1 ≠ [] := by
      rintro ⟨name, value⟩ ha rfl
      obtain ⟨name, value', hattr⟩ := has _ (List.mem_map.mpr ⟨_, ha, rfl⟩)
      rw [headLine_outLine_nil] at hattr
      exact absurd hattr (by simp)
    by_contra hnonempty
    obtain ⟨⟨name, value⟩, ha⟩ := List.exists_mem_of_ne_nil _
      (mt Std.ExtTreeMap.toList_eq_nil_iff.mp hnonempty)
    have hvalue := Std.ExtTreeMap.mem_toList_iff_getElem?_eq_some.mp ha
    have hblank := getElem?_setLines_output hc hne name
    rw [hwalk] at hsame
    rw [show (({} : CHttpHeader).setLines (h.headAttribute.toList.map outLine)).headAttribute =
      h.headAttribute from hsame, hvalue, Option.map_some, Option.some.injEq] at hblank
    exact ne_blank_cons value hblank
  · intro hempty buffSize hsize
    refine ⟨[], { full := true }, 2, ?_, rfl, rfl, hempty.symm⟩
    rw [output_eq hfull hsize, Std.ExtTreeMap.toList_eq_nil_iff.mpr hempty]
    rfl

/-! ## A header that does not stay the same -/

/-- The header of the lines `A: b` and the empty line. -/
def headerA : CHttpHeader :=
  { ({} : CHttpHeader).set (ascii "A") (ascii " b") with full := true }

theorem filled_headerA : Filled headerA :=
  @Filled.infuse {} headerA (ascii "A: b\r\n\r\n") 8 .fresh rfl rfl

/-- The round trip of `A: b`, applied to the header that `infuse` makes of it. -/
theorem roundTrips_headerA_iff : headerA.RoundTrips ↔ headerA.headAttribute = ∅ :=
  roundTrips_iff filled_headerA rfl

/-- `A: b` comes back with two blanks in front of `b`. -/
theorem not_roundTrips_headerA : Filled headerA ∧ headerA.full = true ∧ ¬ headerA.RoundTrips := by
  refine ⟨filled_headerA, rfl, ?_⟩
  intro hround
  obtain ⟨text, h', n, hout, hin, -, hsame⟩ := hround 8 (by decide)
  have htext : headerA.output 8 = some (0, ascii "A:  b\r\n") := by decide
  obtain rfl : ascii "A:  b\r\n" = text := by
    rw [htext, Option.some.injEq, Prod.mk.injEq] at hout
    exact hout.2
  have hread : (match ({} : CHttpHeader).infuse (ascii "A:  b\r\n" ++ ascii "\r\n") with
      | .ok (h, _) => h.headAttribute[ascii "A"]?
      | _ => none) = some (ascii "  b") := by
    decide
  rw [hin] at hread
  have hvalue : h'.headAttribute[ascii "A"]? = some (ascii "  b") := hread
  rw [hsame] at hvalue
  exact absurd hvalue (by decide)

end CHttpHeader

end HttpCodec
end CModel
