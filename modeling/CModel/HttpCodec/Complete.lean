import CModel.Foundation.Lines
import CModel.HttpCodec.ServerCodec

/-!
# Where a message ends

`http_complete_func` searches its whole buffer for the end of the head and for `Content-Length:`.

* `matchStrBegin_crlf`, `matchStrBegin_append`: the two searches.
* `findCrlf_skip`, `findCrlf_hit`, `findLf_skip`: the search for the empty line, line by line.
* `headEnd_lines`, `headEnd_lines_of_lt`: a head of lines ends behind its empty line, and not
  before.
* `announced`: the number behind the first `Content-Length:`, `0` without one.
* `httpCompleteFunc_eq`: **the completeness check on fewer than `2 ^ 31` bytes** is the end of the
  head plus the number announced.
-/

namespace CModel
namespace HttpCodec

/-! ## Letters -/

/-- A byte that is no letter is the same letter as itself only. -/
theorem sameLetter_iff {c p : Byte} (hp : isalpha p = false) : sameLetter c p = (c == p) := by
  grind [sameLetter, tolower, isalpha]

/-- Patterns without a letter are searched for as they are. -/
theorem findBy_sameLetter {pat : Bytes} (h : ∀ p ∈ pat, isalpha p = false) (s : Bytes) :
    findBy sameLetter pat s = findBy (· == ·) pat s := by
  have hstarts : ∀ t : Bytes, prefixBy sameLetter pat t = prefixBy (· == ·) pat t := by
    induction pat with
    | nil => intro t; rw [prefixBy_nil, prefixBy_nil]
    | cons p ps ih =>
      obtain ⟨hp, hps⟩ := List.forall_mem_cons.mp h
      intro t
      cases t with
      | nil => rfl
      | cons c t => rw [prefixBy_cons_cons, prefixBy_cons_cons, sameLetter_iff hp, ih hps]
  rw [findBy, findBy, show prefixBy sameLetter pat = prefixBy (· == ·) pat from funext hstarts]

/-! ## The empty line -/

/-- The search for `CR LF CR LF`. -/
def findCrlf (s : Bytes) : Option ℕ := findBy (· == ·) [CR, LF, CR, LF] s

/-- The search for `LF LF`. -/
def findLf (s : Bytes) : Option ℕ := findBy (· == ·) [LF, LF] s

theorem headEnd_eq (data : Bytes) :
    headEnd data = match findCrlf data with
      | some k => some (k + 4)
      | none => (findLf data).map (· + 2) := by
  have h₁ : matchStrBegin data (ascii "\r\n\r\n") = findCrlf data := by
    rw [matchStrBegin, if_neg (by decide), findBy_sameLetter (by decide)]
    rfl
  have h₂ : matchStrBegin data (ascii "\n\n") = findLf data := by
    rw [matchStrBegin, if_neg (by decide), findBy_sameLetter (by decide)]
    rfl
  cases hc : findCrlf data <;> simp only [headEnd, h₁, h₂, hc]

/-- An occurrence of `CR LF CR LF` that starts in a line ends it. -/
theorem crlf_of_drop {l r : Bytes} (hl : LF ∉ l) {j : ℕ} (hj : j < l.length + 1)
    (h : [CR, LF, CR, LF] <+: (l ++ LF :: r).drop j) :
    ∃ l' r', l = l' ++ [CR] ∧ r = CR :: LF :: r' ∧ l'.length = j := by
  obtain ⟨t, ht⟩ := h
  have hcut := List.take_append_drop j (l ++ LF :: r)
  have htake : (l ++ LF :: r).take j = l.take j := List.take_append_of_le_length (by omega)
  rw [← ht, htake] at hcut
  have hno : LF ∉ l.take j ++ [CR] := by
    rw [List.mem_append, List.mem_singleton, not_or]
    exact ⟨fun h0 => hl (List.mem_of_mem_take h0), by decide⟩
  have hcut' : l.take j ++ [CR] ++ LF :: (CR :: LF :: t) = l ++ LF :: r := by
    rw [← hcut]
    simp
  obtain ⟨h₁, h₂⟩ := line_unique hno hl hcut'
  exact ⟨l.take j, t, h₁.symm, h₂.symm, by rw [List.length_take]; omega⟩

/-- A line that is not followed by an empty line is skipped. -/
theorem findCrlf_skip {l r : Bytes} (hl : LF ∉ l)
    (h : ¬ (l.getLast? = some CR ∧ [CR, LF] <+: r)) :
    findCrlf (l ++ LF :: r) = (findCrlf r).map (· + (l.length + 1)) := by
  have hshift : findCrlf (l ++ [LF] ++ r) = (findCrlf r).map (· + (l ++ [LF]).length) :=
    findBy_append_of_forall fun j hj => by
      rw [List.append_assoc, List.singleton_append, Bool.eq_false_iff]
      intro hp
      rw [List.length_append, List.length_singleton] at hj
      obtain ⟨l', r', rfl, rfl, -⟩ := crlf_of_drop hl hj (prefixBy_beq_iff.mp hp)
      exact h ⟨List.getLast?_concat, ⟨r', rfl⟩⟩
  rwa [List.append_assoc, List.length_append] at hshift

/-- An empty line behind a line that ends with `CR` is found. -/
theorem findCrlf_hit {l : Bytes} (hl : LF ∉ l) (r : Bytes) :
    findCrlf (l ++ CR :: LF :: CR :: LF :: r) = some l.length := by
  refine findBy_eq_some_iff.mpr ⟨by rw [List.length_append]; omega, ?_, ?_⟩
  · rw [List.drop_left]
    show prefixBy (· == ·) [CR, LF, CR, LF] ([CR, LF, CR, LF] ++ r) = true
    exact prefixBy_append_self r (by decide)
  · intro j hj
    rw [Bool.eq_false_iff]
    intro hp
    have hl' : LF ∉ l ++ [CR] := by
      rw [List.mem_append, List.mem_singleton, not_or]
      exact ⟨hl, by decide⟩
    have hdata : l ++ CR :: LF :: CR :: LF :: r = l ++ [CR] ++ LF :: CR :: LF :: r := by simp
    rw [hdata] at hp
    obtain ⟨l', r', hl'', -, hj'⟩ := crlf_of_drop hl' (by simp; omega) (prefixBy_beq_iff.mp hp)
    have hlen := congrArg List.length hl''
    simp only [List.length_append, List.length_singleton] at hlen
    omega

/-- A line that is not followed by a line feed is skipped in the search for `LF LF`. -/
theorem findLf_skip {l r : Bytes} (hl : LF ∉ l) (h : r.head? ≠ some LF) :
    findLf (l ++ LF :: r) = (findLf r).map (· + (l.length + 1)) := by
  have hshift : findLf (l ++ [LF] ++ r) = (findLf r).map (· + (l ++ [LF]).length) :=
    findBy_append_of_forall fun j hj => by
      rw [List.append_assoc, List.singleton_append, Bool.eq_false_iff]
      intro hp
      rw [List.length_append, List.length_singleton] at hj
      obtain ⟨t, ht⟩ := prefixBy_beq_iff.mp hp
      have hcut := List.take_append_drop j (l ++ LF :: r)
      rw [← ht, List.take_append_of_le_length (by omega)] at hcut
      obtain ⟨-, h₂⟩ := line_unique (r := LF :: t) (fun h0 => hl (List.mem_of_mem_take h0)) hl hcut
      exact h (by rw [← h₂]; rfl)
  rwa [List.append_assoc, List.length_append] at hshift

/-! ## A head of lines -/

/-- A line that is not empty does not start with the empty line. -/
theorem not_blank_prefix {l r : Bytes} (hl : LF ∉ l) (hne : l ≠ [CR]) :
    ¬ [CR, LF] <+: l ++ LF :: r := by
  rintro ⟨t, ht⟩
  have hCR : LF ∉ [CR] := by decide
  obtain ⟨h, -⟩ := line_unique (r := t) hCR hl ht
  exact hne h.symm

/-- **The first `CR LF CR LF` of a head is at its end**, where no line is empty and the last one
ends with `CR`. -/
theorem findCrlf_lines {ls : List Bytes} {last : Bytes} (h : ∀ l ∈ ls, LF ∉ l ∧ l ≠ [CR])
    (hlast : LF ∉ last ++ [CR]) (hne : last ≠ []) (rest : Bytes) :
    findCrlf (unlines (ls ++ [last ++ [CR]]) ++ CR :: LF :: rest) =
      some ((unlines ls).length + last.length) := by
  induction ls with
  | nil =>
    have hl : LF ∉ last := fun h0 => hlast (List.mem_append_left _ h0)
    have hhit := findCrlf_hit hl rest
    simpa using hhit
  | cons l ls ih =>
    obtain ⟨⟨hl, -⟩, hls⟩ := List.forall_mem_cons.mp h
    rw [List.cons_append, unlines_cons, List.append_assoc, List.cons_append, findCrlf_skip hl,
      ih hls, Option.map_some, unlines_cons, List.length_append, List.length_cons]
    · congr 1
      omega
    · rintro ⟨-, hpre⟩
      cases ls with
      | nil =>
        rw [List.nil_append, unlines_cons, List.append_assoc] at hpre
        exact not_blank_prefix hlast (by simpa using hne) hpre
      | cons m ls =>
        obtain ⟨⟨hm, hmne⟩, -⟩ := List.forall_mem_cons.mp hls
        rw [List.cons_append, unlines_cons, List.append_assoc] at hpre
        exact not_blank_prefix hm hmne hpre

/-- A head without an empty line inside has no `LF LF`. -/
theorem findLf_lines {ls : List Bytes} (h : ∀ l ∈ ls, LF ∉ l ∧ l ≠ []) :
    findLf (unlines ls ++ [CR, LF]) = none := by
  induction ls with
  | nil => decide
  | cons l ls ih =>
    obtain ⟨⟨hl, -⟩, hls⟩ := List.forall_mem_cons.mp h
    rw [unlines_cons, List.append_assoc, List.cons_append, findLf_skip hl, ih hls, Option.map_none]
    cases ls with
    | nil => decide
    | cons m ls =>
      obtain ⟨⟨hm, hmne⟩, -⟩ := List.forall_mem_cons.mp hls
      obtain ⟨c, m, rfl⟩ := List.exists_cons_of_ne_nil hmne
      rw [unlines_cons]
      rintro h0
      exact hm (Option.some.inj h0 ▸ List.mem_cons_self)

/-- The lines of a head that is sent: each ends with `CR` and none is empty. -/
structure HeadText (ls : List Bytes) (last : Bytes) : Prop where
  lines : ∀ l ∈ ls, LF ∉ l ∧ l ≠ [CR] ∧ l ≠ []
  last_noLF : LF ∉ last ++ [CR]
  last_ne : last ≠ []

section HeadText

variable {ls : List Bytes} {last : Bytes}

/-- The head without what follows it. -/
def headBytes (ls : List Bytes) (last : Bytes) : Bytes :=
  unlines (ls ++ [last ++ [CR]]) ++ [CR, LF]

theorem length_headBytes : (headBytes ls last).length = (unlines ls).length + last.length + 4 := by
  rw [headBytes, unlines_append, unlines_cons, unlines_nil]
  simp only [List.length_append, List.length_cons, List.length_nil]
  omega

/-- **A head ends behind its empty line**, whatever follows. -/
theorem headEnd_lines (h : HeadText ls last) (rest : Bytes) :
    headEnd (headBytes ls last ++ rest) = some (headBytes ls last).length := by
  have hfind := findCrlf_lines (fun l hl => ⟨(h.lines l hl).1, (h.lines l hl).2.1⟩) h.last_noLF
    h.last_ne rest
  have hdata : headBytes ls last ++ rest = unlines (ls ++ [last ++ [CR]]) ++ CR :: LF :: rest := by
    rw [headBytes, List.append_assoc]
    rfl
  rw [headEnd_eq, hdata, hfind, length_headBytes]

/-- **A part of a head has no end.** -/
theorem headEnd_lines_of_lt (h : HeadText ls last) {P : Bytes} (hP : P <+: headBytes ls last)
    (hlt : P.length < (headBytes ls last).length) : headEnd P = none := by
  obtain ⟨Q, hQ⟩ := hP
  have hcrlf : findCrlf P = none := by
    by_contra hsome
    obtain ⟨i, hi⟩ := Option.ne_none_iff_exists'.mp hsome
    have hle : i + 4 ≤ P.length := findBy_add_length_le hi
    have hfull := findBy_append Q hi
    have hfind := findCrlf_lines (fun l hl => ⟨(h.lines l hl).1, (h.lines l hl).2.1⟩) h.last_noLF
      h.last_ne []
    rw [hQ] at hfull
    have hi' : some i = some ((unlines ls).length + last.length) := hfull.symm.trans hfind
    rw [Option.some.injEq] at hi'
    rw [length_headBytes] at hlt
    omega
  have hlf : findLf P = none := by
    by_contra hsome
    obtain ⟨i, hi⟩ := Option.ne_none_iff_exists'.mp hsome
    have hfull := findBy_append Q hi
    have hnone : findLf (headBytes ls last) = none := findLf_lines fun l hl => by
      rcases List.mem_append.mp hl with hl | hl
      · exact ⟨(h.lines l hl).1, (h.lines l hl).2.2⟩
      · rw [List.mem_singleton.mp hl]
        exact ⟨h.last_noLF, by simp⟩
    rw [hQ] at hfull
    exact absurd (hfull.symm.trans hnone) (by simp)
  rw [headEnd_eq, hcrlf, hlf]
  rfl

end HeadText

/-! ## The check -/

/-- The number behind the first `Content-Length:`, `0` without one. -/
def announced (dm : DataModel) (data : Bytes) : ℤ :=
  match matchStrBegin data (ascii "Content-Length:") with
  | none => 0
  | some k => atoi dm (data.drop (k + 15))

theorem headEnd_le {data : Bytes} {n : ℕ} (h : headEnd data = some n) : n ≤ data.length := by
  rw [headEnd_eq] at h
  cases hc : findCrlf data with
  | some k =>
    rw [hc, Option.some.injEq] at h
    have hle := findBy_add_length_le hc
    rw [← h]
    exact hle
  | none =>
    rw [hc, Option.map_eq_some_iff] at h
    obtain ⟨k, hk, rfl⟩ := h
    exact findBy_add_length_le hk

/-- **The completeness check on fewer than `2 ^ 31` bytes.** -/
theorem httpCompleteFunc_eq {dm : DataModel} {data : Bytes} {n : ℕ} (hlt : data.length < 2 ^ 31)
    (h4 : 4 ≤ data.length) (hn : headEnd data = some n) :
    httpCompleteFunc dm data =
      if announced dm data + n < -2 ^ 31 ∨ 2 ^ 31 ≤ announced dm data + n then none
      else if (data.length : ℤ) < announced dm data + n then some 0
      else some (announced dm data + n) := by
  have hle := headEnd_le hn
  have hlen : int32 data.length = data.length := int32_of_mem (by omega) (by omega)
  have hhead : int32 n = n := int32_of_mem (by omega) (by omega)
  rw [httpCompleteFunc, if_neg (by omega), if_neg (by omega), hn, announced]
  cases hk : matchStrBegin data (ascii "Content-Length:") with
  | none =>
    simp only [hhead, Int.zero_add]
    rw [if_neg (by omega), if_neg (by omega)]
  | some k => simp only [hhead, hlen]

theorem httpCompleteFunc_of_none {dm : DataModel} {data : Bytes} (hlt : data.length < 2 ^ 32)
    (hn : headEnd data = none) : httpCompleteFunc dm data = some 0 := by
  rw [httpCompleteFunc, if_neg (by omega), hn]
  split <;> rfl

end HttpCodec
end CModel
