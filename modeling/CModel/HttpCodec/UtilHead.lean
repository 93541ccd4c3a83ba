import CModel.HttpCodec.Complete
import CModel.HttpCodec.Util

/-!
# The head of a message in `http_util.cpp`

The text that `CHttpParser` is handed is a first line, header lines and a body, with a zero behind
it.

* `findBy_word_skip`, `findBy_word_hit`: a pattern that ends with a blank is found at the end of a
  word.
* `headLines`, `fieldLoop_headLines`: **the header lines** come into the map, and the loop stops
  behind them.
* `strstr_headEnd`: the end of the head.
* `parseMethod_eq`: where the first line is cut.  The first `" HTTP"` is in front of the URI if the
  URI starts with `HTTP`.
-/

namespace CModel
namespace HttpCodec

/-! ## Searching -/

/-- A search in a text that a zero ends. -/
theorem strstr_append_zero {s : Bytes} (h : (0 : Byte) ∉ s) (t pat : Bytes) :
    strstr (s ++ 0 :: t) pat = findBy (· == ·) pat s := by
  rw [strstr, cstr_append_zero h]

/-- The first `CR LF` ends a text without `CR`. -/
theorem strstr_crlf {s : Bytes} (hcr : CR ∉ s) (hzero : (0 : Byte) ∉ s) (t : Bytes) :
    strstr (s ++ CR :: LF :: t) (ascii "\r\n") = some s.length := by
  rw [strstr, cstr_append hzero, cstr_cons (by decide), cstr_cons (by decide)]
  exact findBy_first hcr (cstr t)

section Word

variable {q w t : Bytes}

/-- A pattern that ends with a blank can only stand at the end of a word. -/
theorem eq_drop_of_word (hq : (32 : Byte) ∉ q) (hw : (32 : Byte) ∉ w) {j : ℕ} (hj : j ≤ w.length)
    (h : prefixBy (· == ·) (q ++ [32]) ((w ++ 32 :: t).drop j) = true) : q = w.drop j := by
  obtain ⟨r, hr⟩ := prefixBy_beq_iff.mp h
  rw [List.drop_append_of_le_length hj, List.append_assoc, List.singleton_append] at hr
  have hcut := congrArg (List.takeWhile (· != 32)) hr
  rwa [takeWhile_bne hq, takeWhile_bne fun h0 => hw (List.mem_of_mem_drop h0)] at hcut

/-- A word that does not end with the pattern is skipped. -/
theorem findBy_word_skip (hq : (32 : Byte) ∉ q) (hw : (32 : Byte) ∉ w) (h : ¬ q <:+ w) :
    findBy (· == ·) (q ++ [32]) (w ++ 32 :: t) =
      (findBy (· == ·) (q ++ [32]) t).map (· + (w.length + 1)) := by
  have hskip : findBy (· == ·) (q ++ [32]) (w ++ [32] ++ t) =
      (findBy (· == ·) (q ++ [32]) t).map (· + (w ++ [32]).length) := by
    refine findBy_append_of_forall ?_
    intro j hj
    rw [List.length_append, List.length_singleton] at hj
    by_contra hmatch
    rw [List.append_assoc, Bool.not_eq_false] at hmatch
    exact h (eq_drop_of_word hq hw (Nat.le_of_lt_succ hj) hmatch ▸ List.drop_suffix j w)
  rw [List.append_assoc, List.length_append] at hskip
  exact hskip

/-- At the end of a word that ends with it, the pattern is found. -/
theorem findBy_word_hit (hq : (32 : Byte) ∉ q) (hw : (32 : Byte) ∉ w) (h : q <:+ w) :
    findBy (· == ·) (q ++ [32]) (w ++ 32 :: t) = some (w.length - q.length) := by
  obtain ⟨v, rfl⟩ := h
  have hdrop : (v ++ q ++ 32 :: t).drop v.length = q ++ 32 :: t := by
    rw [List.append_assoc, List.drop_left]
  rw [List.length_append, Nat.add_sub_cancel]
  refine findBy_eq_some_iff.mpr ⟨by simp only [List.length_append]; omega, ?_, ?_⟩
  · rw [hdrop]
    exact prefixBy_beq_iff.mpr ⟨t, by rw [List.append_assoc]; rfl⟩
  · intro j hj
    by_contra hmatch
    rw [Bool.not_eq_false] at hmatch
    have heq := congrArg List.length
      (eq_drop_of_word hq hw (by rw [List.length_append]; omega) hmatch)
    rw [List.length_drop, List.length_append] at heq
    omega

/-- What follows the first occurrence of a pattern. -/
def behind (pat s : Bytes) : Option Bytes :=
  (findBy (· == ·) pat s).map fun k => s.drop (k + pat.length)

theorem behind_word_skip (hq : (32 : Byte) ∉ q) (hw : (32 : Byte) ∉ w) (h : ¬ q <:+ w) :
    behind (q ++ [32]) (w ++ 32 :: t) = behind (q ++ [32]) t := by
  rw [behind, findBy_word_skip hq hw h, behind, Option.map_map]
  congr 1
  funext k
  have hlen : k + (w.length + 1) + (q ++ [32]).length =
      w.length + (k + (q ++ [32]).length + 1) := by
    omega
  show (w ++ 32 :: t).drop (k + (w.length + 1) + (q ++ [32]).length) = t.drop _
  rw [hlen, ← List.drop_drop, List.drop_left, List.drop_succ_cons]

theorem behind_word_hit (hq : (32 : Byte) ∉ q) (hw : (32 : Byte) ∉ w) (h : q <:+ w) :
    behind (q ++ [32]) (w ++ 32 :: t) = some t := by
  have hle := h.length_le
  rw [behind, findBy_word_hit hq hw h, Option.map_some, List.length_append, List.length_singleton,
    show w.length - q.length + (q.length + 1) = w.length + 1 by omega, ← List.drop_drop,
    List.drop_left]
  rfl

end Word

/-! ## Header lines -/

/-- A header line without its line end. -/
def headLineText (f : Bytes × Bytes) : Bytes := f.1 ++ 58 :: 32 :: f.2

/-- Header lines with their line ends. -/
def headLines (fs : List (Bytes × Bytes)) : Bytes :=
  unlines (fs.map fun f => headLineText f ++ [CR])

/-- A name and a value that make up one line. -/
structure IsHeadField (f : Bytes × Bytes) : Prop where
  noCR : CR ∉ headLineText f
  noLF : LF ∉ headLineText f
  noZero : (0 : Byte) ∉ headLineText f
  noColon : (58 : Byte) ∉ f.1

theorem isHeadField_of {name value : Bytes}
    (hname : CR ∉ name ∧ LF ∉ name ∧ (0 : Byte) ∉ name ∧ (58 : Byte) ∉ name)
    (hvalue : CR ∉ value ∧ LF ∉ value ∧ (0 : Byte) ∉ value) : IsHeadField (name, value) := by
  refine ⟨?_, ?_, ?_, hname.2.2.2⟩ <;>
    simp only [headLineText, List.mem_append, List.mem_cons, not_or]
  · exact ⟨hname.1, by decide, by decide, hvalue.1⟩
  · exact ⟨hname.2.1, by decide, by decide, hvalue.2.1⟩
  · exact ⟨hname.2.2.1, by decide, by decide, hvalue.2.2⟩

theorem headLines_cons (f : Bytes × Bytes) (fs : List (Bytes × Bytes)) :
    headLines (f :: fs) = headLineText f ++ CR :: LF :: headLines fs := by
  rw [headLines, List.map_cons, unlines_cons, List.append_assoc]
  rfl

theorem zero_notMem_headLines {fs : List (Bytes × Bytes)} (hfs : ∀ f ∈ fs, IsHeadField f) :
    (0 : Byte) ∉ headLines fs := by
  induction fs with
  | nil => exact List.not_mem_nil
  | cons f fs ih =>
    obtain ⟨hf, hfs⟩ := List.forall_mem_cons.mp hfs
    rw [headLines_cons]
    simp only [List.mem_append, List.mem_cons, not_or]
    exact ⟨hf.noZero, by decide, by decide, ih hfs⟩

theorem memcmpEq_append {a s : Bytes} (h : s.length ≤ a.length) (t : Bytes) :
    memcmpEq (a ++ t) s = .ok (a.take s.length == s) := by
  rw [memcmpEq, if_pos (by rw [List.length_append]; omega), List.take_append_of_le_length h]

theorem length_headLineText (f : Bytes × Bytes) :
    (headLineText f).length = f.1.length + f.2.length + 2 := by
  rw [headLineText, List.length_append, List.length_cons, List.length_cons]
  omega

/-- A header line is not the empty line. -/
theorem memcmpEq_headLine {f : Bytes × Bytes} (hf : IsHeadField f) (t : Bytes) :
    memcmpEq (headLineText f ++ t) (ascii "\r\n") = .ok false := by
  have hlen : (ascii "\r\n").length ≤ (headLineText f).length := by
    rw [length_headLineText]
    exact Nat.le_add_left 2 _
  rw [memcmpEq_append hlen]
  congr 1
  rw [beq_eq_false_iff_ne]
  intro h0
  have hmem : CR ∈ (headLineText f).take (ascii "\r\n").length := by
    rw [h0]
    exact List.mem_cons_self
  exact hf.noCR (List.mem_of_mem_take hmem)

/-- The loop takes one header line. -/
theorem fieldLoop_cons {f : Bytes × Bytes} (hf : IsHeadField f) {left : ℤ} (hleft : 4 ≤ left)
    (t : Bytes) (m : StdMap) :
    fieldLoop left (headLineText f ++ CR :: LF :: t) m =
      fieldLoop (left - ((headLineText f).length + 2)) t (m.insertIfNew f.1 f.2) := by
  have hend := strstr_crlf hf.noCR hf.noZero t
  have htake : (headLineText f ++ CR :: LF :: t).take (headLineText f).length = headLineText f :=
    List.take_left
  have hdrop : (headLineText f ++ CR :: LF :: t).drop ((headLineText f).length + 2) = t := by
    rw [← List.drop_drop, List.drop_left]
    rfl
  have hcolon : strstr (headLineText f) (ascii ": ") = some f.1.length := by
    rw [strstr_eq_findBy hf.noZero]
    exact findBy_first hf.noColon f.2
  have hname : (headLineText f).take f.1.length = f.1 := List.take_left
  have hvalue : (headLineText f).drop (f.1.length + 2) = f.2 := by
    rw [headLineText, ← List.drop_drop, List.drop_left]
    rfl
  rw [fieldLoop.eq_def, if_neg (by omega), memcmpEq_headLine hf, Outcome.ok_bind,
    if_neg Bool.false_ne_true]
  split
  · next h0 =>
    rw [hend] at h0
    exact absurd h0 (by simp)
  · next lineEnd h0 =>
    rw [hend, Option.some.injEq] at h0
    subst h0
    simp only [htake, hdrop, hcolon, hname, hvalue]

/-- **The loop takes all header lines.** -/
theorem fieldLoop_headLines {fs : List (Bytes × Bytes)} (hfs : ∀ f ∈ fs, IsHeadField f) {left : ℤ}
    (hleft : 0 ≤ left) (t : Bytes) (m : StdMap) :
    fieldLoop (left + (headLines fs).length) (headLines fs ++ t) m =
      fieldLoop left t (fs.foldl (fun m f => m.insertIfNew f.1 f.2) m) := by
  induction fs generalizing m with
  | nil =>
    show fieldLoop (left + 0) t m = fieldLoop left t m
    rw [add_zero]
  | cons f fs ih =>
    obtain ⟨hf, hfs⟩ := List.forall_mem_cons.mp hfs
    have hlen := length_headLineText f
    have hsum : (headLines (f :: fs)).length =
        (headLineText f).length + 2 + (headLines fs).length := by
      rw [headLines_cons, List.length_append, List.length_cons, List.length_cons]
      omega
    rw [hsum, headLines_cons, List.append_assoc, List.cons_append, List.cons_append,
      fieldLoop_cons hf (by omega), List.foldl_cons, ← ih hfs]
    congr 1
    omega

/-- The loop stops at the empty line. -/
theorem fieldLoop_blank (left : ℤ) (t : Bytes) (m : StdMap) :
    fieldLoop left (CR :: LF :: t) m = .ok (m, left, CR :: LF :: t) := by
  have hmem : memcmpEq (CR :: LF :: t) (ascii "\r\n") = .ok true := by
    rw [memcmpEq, if_pos (by rw [List.length_cons, List.length_cons]; exact Nat.le_add_left _ _)]
    rfl
  rw [fieldLoop.eq_def]
  split
  · rfl
  · rw [hmem, Outcome.ok_bind, if_pos rfl]

/-- The head ends behind the last header line. -/
theorem findCrlf_headLines {first : Bytes} (hfirst : LF ∉ first) (hne : first ≠ [])
    {fs : List (Bytes × Bytes)} (hfs : ∀ f ∈ fs, IsHeadField f) (hfs' : fs ≠ []) (rest : Bytes) :
    findCrlf (first ++ CR :: LF :: (headLines fs ++ CR :: LF :: rest)) =
      some (first.length + (headLines fs).length) := by
  obtain ⟨fs, f, rfl⟩ := (List.eq_nil_or_concat fs).resolve_left hfs'
  rw [List.concat_eq_append] at hfs ⊢
  have hf : IsHeadField f := hfs f (by simp)
  have hnotCR : ∀ {a : Bytes}, LF ∉ a → LF ∉ a ++ [CR] := fun ha => by
    rw [List.mem_append, List.mem_singleton, not_or]
    exact ⟨ha, by decide⟩
  have hlines : ∀ l ∈ (first ++ [CR]) :: fs.map (fun f => headLineText f ++ [CR]),
      LF ∉ l ∧ l ≠ [CR] := by
    refine List.forall_mem_cons.mpr ⟨⟨hnotCR hfirst, by simpa using hne⟩, ?_⟩
    intro l hl
    obtain ⟨g, hg, rfl⟩ := List.mem_map.mp hl
    refine ⟨hnotCR (hfs g (by simp [hg])).noLF, ?_⟩
    intro h0
    have hlen := congrArg List.length h0
    rw [List.length_append, length_headLineText, List.length_singleton] at hlen
    omega
  have hfind := findCrlf_lines hlines (hnotCR hf.noLF) (by rw [headLineText]; simp) rest
  have hdata : unlines ((first ++ [CR]) :: fs.map (fun f => headLineText f ++ [CR]) ++
      [headLineText f ++ [CR]]) = first ++ CR :: LF :: headLines (fs ++ [f]) := by
    rw [List.cons_append, unlines_cons, headLines, List.map_append, List.append_assoc]
    rfl
  rw [hdata, List.append_assoc] at hfind
  rw [← List.cons_append, ← List.cons_append, hfind, headLines, List.map_append, unlines_append,
    unlines_cons]
  simp only [List.map_cons, List.map_nil, unlines_cons, unlines_nil, List.length_append,
    List.length_cons, List.length_nil, Option.some.injEq]
  omega

/-! ## The first line -/

theorem strncpy_of_lt {s : Bytes} (hzero : (0 : Byte) ∉ s) {n : ℕ} (h : s.length < n) :
    strncpy s n = s ++ 0 :: List.replicate (n - s.length - 1) 0 := by
  have hrep : List.replicate (n - s.length) (0 : Byte) =
      0 :: List.replicate (n - s.length - 1) 0 := by
    rw [← List.replicate_succ]
    congr 1
    omega
  rw [strncpy, cstr_eq_self hzero, List.take_of_length_le h.le, hrep]

/-- A text without the separator stands in front of it or not at all. -/
theorem isPrefix_append_cons {p s t : Bytes} {c : Byte} (hc : c ∉ p) :
    p <+: s ++ c :: t ↔ p <+: s := by
  constructor
  · intro h
    rcases le_or_gt p.length s.length with hle | hlt
    · exact List.prefix_of_prefix_length_le h (List.prefix_append s _) hle
    · have hsep : s ++ [c] <+: p := by
        refine List.prefix_of_prefix_length_le ⟨t, by simp⟩ h ?_
        rw [List.length_append, List.length_singleton]
        omega
      exact absurd (hsep.subset (by simp)) hc
  · exact fun h => h.trans (List.prefix_append s _)

theorem set_append_cons (a b : Bytes) (c d : Byte) :
    (a ++ c :: b).set a.length d = a ++ d :: b := by
  rw [List.set_append_right _ _ le_rfl, Nat.sub_self]
  rfl

/-- A first line with its method `w` and the zeros behind it. -/
def lineMem (w target z : Bytes) : Bytes := w ++ 32 :: (target ++ (ascii " HTTP/1.1" ++ 0 :: z))

section FirstLine

variable {w target z : Bytes}

/-- **The first `" HTTP"`** is in front of the version, but in front of the target if the target
starts with `HTTP`. -/
theorem strstr_http (hw : (32 : Byte) ∉ w ∧ (0 : Byte) ∉ w)
    (ht : (32 : Byte) ∉ target ∧ (0 : Byte) ∉ target) :
    strstr (lineMem w target z) (ascii " HTTP") =
      some (if ascii "HTTP" <+: target then w.length else w.length + (target.length + 1)) := by
  have hmem : lineMem w target z = (w ++ 32 :: (target ++ ascii " HTTP/1.1")) ++ 0 :: z := by
    rw [lineMem]
    simp only [List.append_assoc, List.cons_append]
  have hzero : (0 : Byte) ∉ w ++ 32 :: (target ++ ascii " HTTP/1.1") := by
    simp only [List.mem_append, List.mem_cons, not_or]
    exact ⟨hw.2, by decide, ht.2, by decide⟩
  have hskip : findBy (· == ·) (ascii " HTTP") (w ++ 32 :: (target ++ ascii " HTTP/1.1")) =
      (findBy (· == ·) (ascii " HTTP") (32 :: (target ++ ascii " HTTP/1.1"))).map (· + w.length) :=
    findBy_append_of_notMem (p := 32) fun c hc =>
      beq_eq_false_iff_ne.mpr fun h0 => hw.1 (by rwa [← h0])
  have hstarts : prefixBy (· == ·) (ascii " HTTP") (32 :: (target ++ ascii " HTTP/1.1")) = true ↔
      ascii "HTTP" <+: target := by
    have hsep : ascii "HTTP" <+: target ++ 32 :: ascii "HTTP/1.1" ↔ ascii "HTTP" <+: target :=
      isPrefix_append_cons (by decide)
    rw [prefixBy_beq_iff, ← hsep]
    exact List.cons_prefix_cons.trans (and_iff_right rfl)
  rw [hmem, strstr_append_zero hzero, hskip]
  split
  · next hpre =>
    rw [findBy_of_prefixBy (hstarts.mpr hpre), Option.map_some, Nat.zero_add]
  · next hpre =>
    have hnot := Bool.eq_false_iff.mpr fun h0 => hpre (hstarts.mp h0)
    have hcons : findBy (· == ·) (ascii " HTTP") ([32] ++ (target ++ ascii " HTTP/1.1")) =
        (findBy (· == ·) (ascii " HTTP") (target ++ ascii " HTTP/1.1")).map
          (· + ([32] : Bytes).length) := by
      refine findBy_append_of_forall ?_
      intro j hj
      rw [List.length_singleton, Nat.lt_one_iff] at hj
      subst hj
      exact hnot
    have hfirst : findBy (· == ·) (ascii " HTTP") (target ++ ascii " HTTP/1.1") =
        some target.length := findBy_first ht.1 (ascii "/1.1")
    rw [List.singleton_append, hfirst] at hcons
    rw [hcons, Option.map_some, Option.map_some, List.length_singleton]
    congr 1
    omega

/-- The first line after `parseMethod`. -/
def cutLine (w target z : Bytes) : Bytes :=
  if ascii "HTTP" <+: target then w ++ 0 :: (target ++ (ascii " HTTP/1.1" ++ 0 :: z))
  else w ++ 32 :: (target ++ 0 :: (ascii "HTTP/1.1" ++ 0 :: z))

/-- **`parseMethod` on a line with the method asked for.** -/
theorem parseMethod_eq {o : CHttpParser} (hline : o.szFirstLine = lineMem w target z)
    (hw : (32 : Byte) ∉ w ∧ (0 : Byte) ∉ w) (ht : (32 : Byte) ∉ target ∧ (0 : Byte) ∉ target)
    (nMethodType : HttpMethodType) : o.parseMethod (w ++ [32]) nMethodType =
      .ok (true, { o with szFirstLine := cutLine w target z, nHttpMethod := nMethodType }) := by
  have hmem : memcmpEq (lineMem w target z) (w ++ [32]) = .ok true := by
    have happ : lineMem w target z = (w ++ [32]) ++ (target ++ (ascii " HTTP/1.1" ++ 0 :: z)) := by
      rw [lineMem, List.append_assoc]
      rfl
    rw [happ, memcmpEq_append le_rfl, List.take_length, beq_self_eq_true]
  have hcut : (lineMem w target z).set
      (if ascii "HTTP" <+: target then w.length else w.length + (target.length + 1)) 0 =
      cutLine w target z := by
    rw [lineMem, cutLine]
    split
    · exact set_append_cons w _ 32 0
    · have h := set_append_cons (w ++ 32 :: target) (ascii "HTTP/1.1" ++ 0 :: z) 32 0
      rw [List.length_append, List.length_cons, List.append_assoc, List.append_assoc] at h
      exact h
  rw [CHttpParser.parseMethod, hline, hmem, Outcome.ok_bind, strstr_http hw ht]
  simp only [Bool.not_true, Bool.false_eq_true, if_false, hcut]

end FirstLine

end HttpCodec
end CModel
