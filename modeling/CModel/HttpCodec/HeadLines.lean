import CModel.Foundation.Lines
import CModel.HttpCodec.Head

/-!
# The header, line by line

`CHttpHeader::infuse` works on offsets into a buffer.  Its meaning is a walk over the complete
lines of the buffer, each of which is empty, an attribute, or a line without a name.

* `getLine_line`, `getLine_of_notMem`: `get_line` finds the first line.
* `headLine`: what one line is; `getNameValue_line` ties it to `get_name_value`.
* `walk`: the header after the lines and how many of them were taken.
* `infuseFrom_eq_walk`: **`infuse` is the walk**, on every buffer.
* `walk_attrs`, `walk_attrs_blank`: the walk over attribute lines, and up to the empty line.
-/

namespace CModel
namespace HttpCodec

/-! ## `get_line` -/

/-- The text of a line: without the carriage return in front of the line feed. -/
def lineText (l : Bytes) : Bytes := if l.getLast? = some CR then l.dropLast else l

/-- `tail_len` of a line. -/
def tailLen (l : Bytes) : ℕ := if l.getLast? = some CR then 2 else 1

theorem length_lineText (l : Bytes) : (lineText l).length = l.length + 1 - tailLen l := by
  unfold lineText tailLen
  split
  · rw [List.length_dropLast]
    omega
  · omega

theorem tailLen_le (l : Bytes) : tailLen l ≤ l.length + 1 := by
  unfold tailLen
  split
  · next h =>
    cases l with
    | nil => exact absurd h (by simp)
    | cons c l => simp
  · omega

theorem tailLen_eq_iff {l : Bytes} : l.length + 1 = tailLen l ↔ lineText l = [] := by
  have h₁ := length_lineText l
  have h₂ := tailLen_le l
  rw [← List.length_eq_zero_iff]
  omega

/-- The text of a line starts the line. -/
theorem lineText_isPrefix (l : Bytes) : lineText l <+: l := by
  unfold lineText
  split
  · exact List.dropLast_prefix l
  · exact List.prefix_refl l

theorem lineText_concat_CR (l : Bytes) : lineText (l ++ [CR]) = l := by
  rw [lineText, List.getLast?_concat, if_pos rfl, List.dropLast_concat]

/-- The byte behind the text of a line is white space. -/
theorem exists_space_behind (l rest : Bytes) :
    ∃ c r, l ++ LF :: rest = lineText l ++ c :: r ∧ isspace c = true := by
  unfold lineText
  split
  · next h =>
    obtain ⟨m, rfl⟩ := List.getLast?_eq_some_iff.mp h
    exact ⟨CR, LF :: rest, by simp, rfl⟩
  · exact ⟨LF, rest, rfl, rfl⟩

theorem getLineFrom_cons_of_ne {c : Byte} (hc : c ≠ LF) (i : ℕ) (prev : Option Byte)
    (rest : Bytes) : getLineFrom i prev (c :: rest) = getLineFrom (i + 1) (some c) rest := by
  rw [getLineFrom.eq_def]
  exact if_neg hc

theorem getLineFrom_of_notMem {data : Bytes} (h : LF ∉ data) (i : ℕ) (prev : Option Byte) :
    getLineFrom i prev data = (0, 0) := by
  induction data generalizing i prev with
  | nil => rfl
  | cons c data ih =>
    have hc : c ≠ LF := fun h0 => h (h0 ▸ List.mem_cons_self)
    rw [getLineFrom_cons_of_ne hc, ih fun h0 => h (List.mem_cons_of_mem c h0)]

/-- Without a line feed there is no line. -/
theorem getLine_of_notMem {data : Bytes} (h : LF ∉ data) : getLine data = (0, 0) :=
  getLineFrom_of_notMem h 0 none

theorem getLineFrom_some {l : Bytes} (hl : LF ∉ l) (rest : Bytes) (i : ℕ) (p : Byte) :
    getLineFrom i (some p) (l ++ LF :: rest) =
      (i + l.length + 1, if (p :: l).getLast? = some CR then 2 else 1) := by
  induction l generalizing i p with
  | nil =>
    by_cases hp : p = CR <;> simp [getLineFrom, hp]
  | cons c l ih =>
    have hc : c ≠ LF := fun h0 => hl (h0 ▸ List.mem_cons_self)
    rw [List.cons_append, getLineFrom_cons_of_ne hc, ih fun h0 => hl (List.mem_cons_of_mem c h0),
      List.getLast?_cons_cons, List.length_cons]
    congr 1
    omega

/-- **`get_line` finds the first line.** -/
theorem getLine_line {l : Bytes} (hl : LF ∉ l) (rest : Bytes) :
    getLine (l ++ LF :: rest) = (l.length + 1, tailLen l) := by
  cases l with
  | nil => rfl
  | cons c l =>
    have hc : c ≠ LF := fun h0 => hl (h0 ▸ List.mem_cons_self)
    rw [getLine, List.cons_append, getLineFrom_cons_of_ne hc,
      getLineFrom_some fun h0 => hl (List.mem_cons_of_mem c h0), tailLen, List.length_cons]
    congr 1
    omega

/-! ## `get_name_value` -/

/-- What a complete line is to the header. -/
inductive HeadLine where
  /-- the empty line at the end of the header -/
  | blank
  /-- no colon, or no name in front of it -/
  | noName
  /-- a name, and the text from the first white space behind the colon on -/
  | attr (name value : Bytes)
  deriving DecidableEq, Repr

/-- What a line is, by its text. -/
def headLine (l : Bytes) : HeadLine :=
  if lineText l = [] then .blank
  else match findChar 58 (lineText l) with
    | none => .noName
    | some 0 => .noName
    | some (pos + 1) =>
      .attr ((lineText l).take (pos + 1))
        (((lineText l).drop (pos + 2)).dropWhile fun c => !isspace c)

/-- The scan for white space stops at the byte behind `s` at the latest. -/
theorem skipToSpace_append {c : Byte} (hc : isspace c = true) (r : Bytes) (s : Bytes) (v : ℕ) :
    skipToSpace (v + s.length) v (s ++ c :: r) =
      .ok (v + (s.takeWhile fun c => !isspace c).length) := by
  induction s generalizing v with
  | nil =>
    rw [List.nil_append, skipToSpace, if_neg (by simp [hc])]
    rfl
  | cons a s ih =>
    by_cases ha : isspace a = true
    · rw [List.cons_append, skipToSpace, if_neg (by simp [ha]),
        List.takeWhile_cons_of_neg (by simp [ha])]
      rfl
    · have ha' : isspace a = false := by simpa using ha
      have hlen : v + (a :: s).length = v + 1 + s.length := by
        rw [List.length_cons]
        omega
      rw [List.cons_append, skipToSpace, if_pos ⟨ha', by simp⟩, hlen, ih,
        List.takeWhile_cons_of_pos (by simp [ha']), List.length_cons]
      congr 1
      omega

theorem drop_length_takeWhile (p : Byte → Bool) (s : Bytes) :
    s.drop (s.takeWhile p).length = s.dropWhile p := by
  have h : (s.takeWhile p ++ s.dropWhile p).drop (s.takeWhile p).length = s.dropWhile p :=
    List.drop_left
  rwa [List.takeWhile_append_dropWhile] at h

/-- **`get_name_value` reads a line as `headLine` says.** -/
theorem getNameValue_line (l rest : Bytes) (hne : lineText l ≠ []) :
    match headLine l with
    | .blank => False
    | .noName => getNameValue (l ++ LF :: rest) (lineText l).length =
        .ret cHttpHeaderErrorInvalidFormat
    | .attr name value => ∃ nameLen valueOffset valueLen,
        getNameValue (l ++ LF :: rest) (lineText l).length =
          .ok (nameLen, valueOffset, valueLen) ∧
        (l ++ LF :: rest).take nameLen = name ∧
        ((l ++ LF :: rest).drop valueOffset).take valueLen = value := by
  obtain ⟨c, r, hdata, hc⟩ := exists_space_behind l rest
  generalize hs : lineText l = s at hne hdata
  have htake : (s ++ c :: r).take s.length = s := List.take_left
  rw [headLine, hs, if_neg hne, hdata]
  rcases hpos : findChar 58 s with _ | _ | pos
  · simp only [getNameValue, htake, hpos]
    rfl
  · simp only [getNameValue, htake, hpos]
    rfl
  · obtain ⟨a, b, hab, -, ha⟩ := findChar_eq_some_iff.mp hpos
    have hlen : s.length = pos + 2 + b.length := by
      rw [hab, List.length_append, List.length_cons, ha]
      omega
    have hdrop : s.drop (pos + 2) = b := by
      rw [hab, show pos + 2 = a.length + 1 by omega, ← List.drop_drop, List.drop_left]
      rfl
    have hbehind : (s ++ c :: r).drop (pos + 1 + 1) = b ++ c :: r := by
      rw [List.drop_append_of_le_length (by omega), hdrop]
    have hskip := skipToSpace_append hc r b (pos + 2)
    rw [← hlen] at hskip
    refine ⟨pos + 1, pos + 2 + (b.takeWhile fun c => !isspace c).length,
      s.length - (pos + 2 + (b.takeWhile fun c => !isspace c).length), ?_, ?_, ?_⟩
    · simp only [getNameValue, htake, hpos, Option.getD_some, Nat.add_eq_zero_iff, Nat.one_ne_zero,
        and_false, if_false, hbehind]
      rw [hskip]
      rfl
    · rw [List.take_append_of_le_length (by omega)]
    · have hle : (b.takeWhile fun c => !isspace c).length ≤ b.length :=
        (List.takeWhile_prefix _).length_le
      rw [← List.drop_drop, hbehind, List.drop_append_of_le_length hle, hdrop,
        drop_length_takeWhile]
      have hdw : (b.dropWhile fun c => !isspace c).length =
          s.length - (pos + 2 + (b.takeWhile fun c => !isspace c).length) := by
        rw [← drop_length_takeWhile, List.length_drop]
        omega
      rw [← hdw, List.take_left]

/-! ## The walk -/

/-- The header after at most `n` lines and the number of lines taken: an empty line completes it,
a line without a name ends the walk. -/
def walk : ℕ → CHttpHeader → List Bytes → CHttpHeader × ℕ
  | 0, h, _ => (h, 0)
  | _ + 1, h, [] => (h, 0)
  | n + 1, h, l :: ls =>
    match headLine l with
    | .blank => ({ h with full := true }, 1)
    | .noName => (h, 1)
    | .attr name value => ((walk n (h.set name value) ls).1, (walk n (h.set name value) ls).2 + 1)

@[simp] theorem walk_nil (n : ℕ) (h : CHttpHeader) : walk n h [] = (h, 0) := by
  cases n <;> rfl

theorem headLine_eq_blank_iff {l : Bytes} : headLine l = .blank ↔ lineText l = [] := by
  unfold headLine
  split
  · next h => simp [h]
  · next h => split <;> simp [h]

theorem length_unlines_take_cons (l : Bytes) (ls : List Bytes) (k : ℕ) :
    (unlines ((l :: ls).take (k + 1))).length =
      l.length + 1 + (unlines (ls.take k)).length := by
  rw [List.take_succ_cons, unlines_cons, List.length_append, List.length_cons]
  omega

/-- **`infuse` is the walk over the complete lines of its buffer.** -/
theorem infuseFrom_eq_walk {ls : List Bytes} {t : Bytes} (hls : ∀ l ∈ ls, LF ∉ l)
    (ht : LF ∉ t) (n : ℕ) (h : CHttpHeader) (skip : ℕ) :
    CHttpHeader.infuseFrom n h (unlines ls ++ t) skip =
      .ok ((walk n h ls).1, skip + (unlines (ls.take (walk n h ls).2)).length) := by
  induction n generalizing h ls skip with
  | zero => simp [CHttpHeader.infuseFrom, walk]
  | succ n ih =>
    cases ls with
    | nil =>
      simp [CHttpHeader.infuseFrom, walk, getLine_of_notMem ht]
    | cons l ls =>
      obtain ⟨hl, hls⟩ := List.forall_mem_cons.mp hls
      have hdata : unlines (l :: ls) ++ t = l ++ LF :: (unlines ls ++ t) := by
        rw [unlines_cons, List.append_assoc]
        rfl
      have hget := getLine_line hl (unlines ls ++ t)
      have hrest : (l ++ LF :: (unlines ls ++ t)).drop (l.length + 1) = unlines ls ++ t := by
        rw [← List.drop_drop, List.drop_left]
        rfl
      rw [hdata, CHttpHeader.infuseFrom]
      simp only [hget, if_neg (Nat.succ_ne_zero l.length), tailLen_eq_iff]
      by_cases hblank : lineText l = []
      · rw [if_pos hblank, walk, headLine_eq_blank_iff.mpr hblank]
        simp
      · have hnv := getNameValue_line l (unlines ls ++ t) hblank
        rw [if_neg hblank, ← length_lineText, walk]
        cases hline : headLine l with
        | blank => exact absurd (headLine_eq_blank_iff.mp hline) hblank
        | noName =>
          simp only [hline] at hnv
          simp [hnv]
        | attr name value =>
          simp only [hline] at hnv
          obtain ⟨nameLen, valueOffset, valueLen, hok, hname, hvalue⟩ := hnv
          simp only [hok, hname, hvalue, hrest, ih hls]
          rw [length_unlines_take_cons, Nat.add_assoc skip]

/-! ## The walk over attribute lines -/

/-- The line is an attribute. -/
def IsAttr (l : Bytes) : Prop := ∃ name value, headLine l = .attr name value

/-- One line's worth of `_head_attribute[sName] = ..`. -/
def CHttpHeader.setLine (h : CHttpHeader) (l : Bytes) : CHttpHeader :=
  match headLine l with
  | .attr name value => h.set name value
  | _ => h

/-- All attribute lines in order. -/
def CHttpHeader.setLines (h : CHttpHeader) (ls : List Bytes) : CHttpHeader :=
  ls.foldl CHttpHeader.setLine h

@[simp] theorem full_set (h : CHttpHeader) (name value : Bytes) :
    (h.set name value).full = h.full := rfl

@[simp] theorem full_setLine (h : CHttpHeader) (l : Bytes) : (h.setLine l).full = h.full := by
  unfold CHttpHeader.setLine
  split <;> rfl

theorem setLines_append (h : CHttpHeader) (ls ms : List Bytes) :
    h.setLines (ls ++ ms) = (h.setLines ls).setLines ms :=
  List.foldl_append

theorem full_setLines (h : CHttpHeader) (ls : List Bytes) : (h.setLines ls).full = h.full := by
  induction ls generalizing h with
  | nil => rfl
  | cons l ls ih =>
    show ((h.setLine l).setLines ls).full = h.full
    rw [ih, full_setLine]

/-- Attribute lines are taken one by one. -/
theorem walk_append {ls : List Bytes} (hls : ∀ l ∈ ls, IsAttr l) (ms : List Bytes) {n : ℕ}
    (hn : ls.length ≤ n) (h : CHttpHeader) :
    walk n h (ls ++ ms) =
      ((walk (n - ls.length) (h.setLines ls) ms).1,
        ls.length + (walk (n - ls.length) (h.setLines ls) ms).2) := by
  induction ls generalizing n h with
  | nil => simp [CHttpHeader.setLines]
  | cons l ls ih =>
    obtain ⟨⟨name, value, hl⟩, hls⟩ := List.forall_mem_cons.mp hls
    obtain ⟨n, rfl⟩ : ∃ m, n = m + 1 := ⟨n - 1, by rw [List.length_cons] at hn; omega⟩
    have hset : h.setLines (l :: ls) = (h.set name value).setLines ls := by
      show (h.setLine l).setLines ls = _
      rw [CHttpHeader.setLine, hl]
    rw [List.cons_append, walk, hl]
    simp only
    rw [ih hls (by simpa using hn), hset, List.length_cons, Nat.add_sub_add_right]
    congr 1
    omega

/-- **Attribute lines alone are all taken.** -/
theorem walk_attrs {ls : List Bytes} (hls : ∀ l ∈ ls, IsAttr l) {n : ℕ} (hn : ls.length ≤ n)
    (h : CHttpHeader) : walk n h ls = (h.setLines ls, ls.length) := by
  have hw := walk_append hls [] hn h
  rwa [List.append_nil, walk_nil] at hw

/-- **Attribute lines and the empty line complete the header**, whatever follows. -/
theorem walk_attrs_blank {ls : List Bytes} (hls : ∀ l ∈ ls, IsAttr l) {b : Bytes}
    (hb : lineText b = []) (ms : List Bytes) {n : ℕ} (hn : ls.length < n) (h : CHttpHeader) :
    walk n h (ls ++ b :: ms) = ({ h.setLines ls with full := true }, ls.length + 1) := by
  obtain ⟨k, hk⟩ : ∃ k, n - ls.length = k + 1 := ⟨n - ls.length - 1, by omega⟩
  rw [walk_append hls _ hn.le, hk, walk, headLine_eq_blank_iff.mpr hb]

/-! ## The attributes -/

/-- **A line of a name, a colon and a text** is an attribute; its value starts at the first white
space of the text. -/
theorem headLine_field {name text : Bytes} (hne : name ≠ []) (hcolon : (58 : Byte) ∉ name) :
    headLine (name ++ 58 :: text ++ [CR]) =
      .attr name (text.dropWhile fun c => !isspace c) := by
  obtain ⟨c, s, rfl⟩ := List.exists_cons_of_ne_nil hne
  have hpos : findChar 58 (c :: s ++ 58 :: text) = some (s.length + 1) :=
    findChar_append hcolon text
  have hname : (c :: s ++ 58 :: text).take (s.length + 1) = c :: s :=
    List.take_left' (List.length_cons)
  have htext : (c :: s ++ 58 :: text).drop (s.length + 2) = text := by
    show (s ++ 58 :: text).drop (s.length + 1) = text
    rw [← List.drop_drop, List.drop_left]
    rfl
  rw [headLine, lineText_concat_CR, if_neg (by simp), hpos]
  simp only [hname, htext]

/-- What a line puts under a key. -/
def lineEntry (key l : Bytes) : Option Bytes :=
  match headLine l with
  | .attr name value => if cstr (name.map toupper) = key then some value else none
  | _ => none

theorem getElem?_setLine (h : CHttpHeader) (l key : Bytes) :
    (h.setLine l).headAttribute[key]? = (lineEntry key l).or h.headAttribute[key]? := by
  unfold CHttpHeader.setLine lineEntry
  cases headLine l with
  | blank => rfl
  | noName => rfl
  | attr name value =>
    simp only [CHttpHeader.set, Std.ExtTreeMap.getElem?_insert, Std.LawfulEqCmp.compare_eq_iff_eq]
    split <;> rfl

/-- **The last line with a name gives its value.** -/
theorem getElem?_setLines (h : CHttpHeader) (ls : List Bytes) (key : Bytes) :
    (h.setLines ls).headAttribute[key]? =
      (ls.reverse.findSome? (lineEntry key)).or h.headAttribute[key]? := by
  induction ls using List.reverseRecOn with
  | nil => rfl
  | append_singleton ls l ih =>
    rw [setLines_append, List.reverse_append, List.reverse_singleton, List.singleton_append,
      List.findSome?_cons]
    show ((h.setLines ls).setLine l).headAttribute[key]? = _
    rw [getElem?_setLine, ih]
    cases lineEntry key l <;> rfl

end HttpCodec
end CModel
