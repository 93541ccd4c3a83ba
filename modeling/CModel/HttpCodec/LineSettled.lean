import CModel.HttpCodec.LineRest

/-!
# A request line that is refused alike in front of every cut

A request line that is not accepted may be looked at again when more bytes have come in.
`CHttpRequestLine::infuse` then searches more bytes, and may refuse the line with another code.

* `parseTarget_of_found`, `parseTarget_of_notFound`: the two ways of `infuse` behind the method.
* `parseVersion_line`: the version is read from the line alone.
* `LineSettled`: no blank in front of a version is found behind a line feed, or the bytes in front
  of it are a URI.
* `parseTarget_prefixes_iff`, `parseLine_prefixes_iff`: **a refused line is refused with one code
  in front of every cut exactly if it is settled.**
-/

namespace CModel
namespace HttpCodec

variable {dm : DataModel}

/-! ## Codes -/

theorem decodeString_ret {s : Bytes} {room : ℕ} {code : ℤ} (h : decodeString s room = .ret code) :
    code = -1 := by
  fun_induction decodeString s room with
  | case1 => exact absurd h (by simp)
  | case2 => exact absurd h (by simp)
  | case3 room hroom a b rest ih =>
    rcases Outcome.bind_eq_ret.mp h with h | ⟨out, -, h⟩
    · exact ih h
    · exact absurd h (by simp)
  | case4 => exact (Outcome.ret.inj h).symm
  | case5 c rest room hroom hc ih =>
    rcases Outcome.bind_eq_ret.mp h with h | ⟨out, -, h⟩
    · exact ih h
    · exact absurd h (by simp)

theorem fileStart_ne_ret (data : Bytes) (i : ℕ) (code : ℤ) :
    fileStart dm data i ≠ .ret code := by
  induction i with
  | zero => simp [fileStart]
  | succ i ih =>
    intro h
    rcases Outcome.bind_eq_ret.mp h with h | ⟨c, -, h⟩
    · exact readByte_ne_ret _ _ _ h
    · split at h
      · exact absurd h (by simp)
      · exact ih h

theorem splitUri_ret {data : Bytes} {k : ℕ} {code : ℤ} (h : splitUri dm data k = .ret code) :
    code = -1 := by
  rcases Outcome.bind_eq_ret.mp h with h | ⟨f, -, h⟩
  · exact absurd h (fileStart_ne_ret _ _ _)
  · split at h
    · exact (Outcome.ret.inj h).symm
    · rcases Outcome.bind_eq_ret.mp h with h | ⟨path, -, h⟩
      · exact absurd h (readRange_ne_ret _ _ _ _)
      · rcases Outcome.bind_eq_ret.mp h with h | ⟨file, -, h⟩
        · exact absurd h (readRange_ne_ret _ _ _ _)
        · split at h
          · exact absurd h (by simp)
          · rcases Outcome.bind_eq_ret.mp h with h | ⟨sArg, -, h⟩
            · exact decodeString_ret h
            · split at h <;> exact absurd h (by simp)

/-- **The only code of `parse_uri` is `-1`.** -/
theorem parseUri_ret {data : Bytes} {k : ℕ} {code : ℤ} (h : parseUri dm data k = .ret code) :
    code = -1 := by
  rcases Outcome.bind_eq_ret.mp h with h | ⟨c, -, h⟩
  · exact absurd h (readByte_ne_ret _ _ _)
  · split at h
    · rcases Outcome.bind_eq_ret.mp h with h | ⟨d, -, h⟩
      · exact absurd h (readByte_ne_ret _ _ _)
      · split at h
        · exact absurd h (by simp)
        · exact splitUri_ret h
    · exact splitUri_ret h

/-- Fewer than two bytes are no version. -/
theorem parseVersion_of_le_one (p : Bytes) {n : ℕ} (hn : n ≤ 1) :
    CHttpRequestLine.parseVersion p n = .ret cHttpErrInvalidRequestLine := by
  have hword : getFirstWord (p.take n) = 0 := by
    rcases getFirstWord_lt (p.take n) with h | h
    · rw [List.length_take] at h
      omega
    · exact h
  simp only [CHttpRequestLine.parseVersion, hword, if_true]

/-! ## The search for the version -/

/-- The text searched for. -/
def versionMark : Bytes := ascii " HTTP/"

theorem strstr_of_isPrefix {a b pat : Bytes} (h0 : (0 : Byte) ∉ b) (hab : a <+: b) {k : ℕ}
    (h : strstr a pat = some k) : strstr b pat = some k := by
  obtain ⟨r, rfl⟩ := hab
  rw [strstr_eq_findBy fun h' => h0 (List.mem_append_left r h')] at h
  rw [strstr_eq_findBy h0]
  exact findBy_append r h

theorem strstr_LF_iff (p : Bytes) : (strstr p (ascii "\n")).isSome = true ↔ LF ∈ cstr p := by
  rw [strstr, isSome_findBy_iff, show ascii "\n" = [LF] from rfl, List.singleton_infix_iff]

/-- `infuse` behind the method where a version is found. -/
theorem parseTarget_of_found {p : Bytes} {k n : ℕ} (h : strstr p versionMark = some k)
    (hk : k ≤ n) :
    CHttpRequestLine.parseTarget dm p n =
      parseUri dm p k >>= fun uri =>
        CHttpRequestLine.parseVersion (p.drop (k + 1)) (n - k) >>= fun version =>
          .ok (uri, version) := by
  rw [versionMark] at h
  simp only [CHttpRequestLine.parseTarget, h]
  exact if_neg (by omega)

/-- `infuse` behind the method where no version is found, or one too far behind. -/
theorem parseTarget_of_notFound {p : Bytes} {n : ℕ}
    (h : ∀ k, strstr p versionMark = some k → n < k) :
    CHttpRequestLine.parseTarget dm p n =
      .ret (if LF ∈ cstr p then cHttpErrInvalidRequestLine else 0) := by
  have hinvalid : (if (strstr p (ascii "\n")).isSome then
      (.ret cHttpErrInvalidRequestLine : Outcome ((Bytes × Bytes × Bytes) × ℤ)) else .ret 0) =
      .ret (if LF ∈ cstr p then cHttpErrInvalidRequestLine else 0) := by
    simp only [strstr_LF_iff]
    split <;> rfl
  rw [← hinvalid, CHttpRequestLine.parseTarget]
  cases hk : strstr p (ascii " HTTP/") with
  | none => rfl
  | some k => exact if_pos (h k hk)

/-! ## The rest of the line -/

/-- A text with one line feed, at its end, or the empty text. -/
def EndsLine (q : Bytes) : Prop := q = [] ∨ ∃ m, LF ∉ m ∧ q = m ++ [LF]

/-- A line feed in front of `k` is the one of the line, or a later one. -/
theorem EndsLine.length_le {q X : Bytes} (hq : EndsLine q) {k : ℕ} (h : LF ∈ (q ++ X).take k) :
    q.length ≤ k := by
  rcases hq with rfl | ⟨m, hm, rfl⟩
  · exact Nat.zero_le k
  · by_contra hk
    rw [List.length_append, List.length_singleton, not_le] at hk
    rw [List.append_assoc, List.take_append_of_le_length (by omega)] at h
    exact hm (List.mem_of_mem_take h)

/-- A version that begins in the line has the line feed behind its mark: the mark has no line
feed. -/
theorem EndsLine.add_lt_of_mark {q X : Bytes} (hq : EndsLine q) {k : ℕ} (hk : k < q.length)
    (hmark : versionMark <+: (q ++ X).drop k) : k + 6 < q.length := by
  rcases hq with rfl | ⟨m, -, rfl⟩
  · exact absurd hk (Nat.not_lt_zero k)
  · rw [List.length_append, List.length_singleton] at hk ⊢
    by_contra hshort
    have hdrop : (m ++ [LF] ++ X).drop k = m.drop k ++ [LF] ++ X := by
      rw [List.append_assoc, List.append_assoc, List.drop_append_of_le_length (by omega)]
    rw [hdrop] at hmark
    have hpre : m.drop k ++ [LF] <+: versionMark :=
      List.prefix_of_prefix_length_le (List.prefix_append _ _) hmark
        (by
          rw [List.length_append, List.length_singleton, List.length_drop,
            show versionMark.length = 6 from rfl]
          omega)
    exact absurd (hpre.subset (List.mem_append_right _ (List.mem_singleton_self LF))) (by decide)

/-- **The version is read from the line alone**, wherever it is found. -/
theorem parseVersion_line {q X : Bytes} (hq : EndsLine q) {k : ℕ}
    (hmark : versionMark <+: (q ++ X).drop k) (X' : Bytes) :
    CHttpRequestLine.parseVersion ((q ++ X').drop (k + 1)) (q.length + 1 - k) =
      CHttpRequestLine.parseVersion (q.drop (k + 1)) (q.length + 1 - k) := by
  by_cases hone : q.length + 1 - k ≤ 1
  · rw [parseVersion_of_le_one _ hone, parseVersion_of_le_one _ hone]
  · have hlt := hq.add_lt_of_mark (by omega) hmark
    rcases hq with rfl | ⟨m, -, rfl⟩
    · rw [List.length_nil] at hone
      omega
    · rw [List.length_append, List.length_singleton] at hlt
      have hmem : LF ∈ (m ++ [LF]).drop (k + 1) := by
        rw [List.drop_append_of_le_length (by omega)]
        exact List.mem_append_right _ (List.mem_singleton_self LF)
      rw [List.drop_append_of_le_length (by rw [List.length_append]; omega)]
      exact parseVersion_append ⟨LF, hmem, rfl⟩ X'
        (by rw [List.length_drop, List.length_append, List.length_singleton]; omega)

section Target

variable {q X : Bytes}

/-- Where the version is found in front of a cut, the line is read as it is without the cut. -/
theorem parseTarget_of_found_isPrefix (hq : EndsLine q) (h0 : (0 : Byte) ∉ q ++ X)
    (hlt : (q ++ X).length < 2 ^ 32 - 1) {X' : Bytes} (hX : X' <+: X) {k : ℕ}
    (h : strstr (q ++ X') versionMark = some k) (hk : k ≤ q.length + 1) :
    CHttpRequestLine.parseTarget dm (q ++ X') (q.length + 1) =
      CHttpRequestLine.parseTarget dm (q ++ X) (q.length + 1) := by
  have hpre : q ++ X' <+: q ++ X := (List.prefix_append_right_inj q).mpr hX
  have h0' : (0 : Byte) ∉ q ++ X' := fun h' => h0 (hpre.subset h')
  have hfound := strstr_of_isPrefix h0 hpre h
  have hlen : k + 6 ≤ (q ++ X').length := length_le_of_strstr h
  obtain ⟨r, hr⟩ := id hpre
  have huri : parseUri dm (q ++ X) k = parseUri dm (q ++ X') k := by
    rw [← hr]
    exact parseUri_append (by omega) (by omega) (by rw [hr]; exact hlt)
  have hmark := isPrefix_drop_of_strstr hfound
  rw [parseTarget_of_found h hk, parseTarget_of_found hfound hk, huri,
    parseVersion_line hq hmark X', parseVersion_line hq hmark X]

/-- Bytes in front of a cut before which the version is not found yet, and that have a line feed,
have it in front of the version. -/
theorem LF_mem_take_of_notFound (h0 : (0 : Byte) ∉ q ++ X) {X' : Bytes} (hX : X' <+: X) {k : ℕ}
    (h : strstr (q ++ X) versionMark = some k) (hno : strstr (q ++ X') versionMark ≠ some k)
    (hLF : LF ∈ q ++ X') : LF ∈ (q ++ X).take k := by
  have hpre : q ++ X' <+: q ++ X := (List.prefix_append_right_inj q).mpr hX
  have h0' : (0 : Byte) ∉ q ++ X' := fun h' => h0 (hpre.subset h')
  have hlen : k + 6 ≤ (q ++ X).length := length_le_of_strstr h
  obtain ⟨s, hs⟩ := isPrefix_drop_of_strstr h
  -- the cut is in front of the end of the version mark
  have hcut : (q ++ X').length ≤ k + 6 := by
    by_contra hlong
    obtain ⟨r, hr⟩ := hpre
    rw [strstr_eq_findBy h0, ← hr] at h
    have hin : k + versionMark.length ≤ (q ++ X').length := by
      rw [show versionMark.length = 6 from rfl]
      omega
    exact hno ((strstr_eq_findBy h0').trans (findBy_of_append h hin))
  have htake : (q ++ X).take (k + 6) = (q ++ X).take k ++ versionMark := by
    rw [List.take_add, ← hs]
    rfl
  have hmem : LF ∈ (q ++ X).take (k + 6) := by
    have hpre' : q ++ X' <+: (q ++ X).take (k + 6) :=
      List.prefix_take_iff.mpr ⟨hpre, hcut⟩
    exact hpre'.subset hLF
  rw [htake, List.mem_append] at hmem
  exact hmem.resolve_right (by decide)

/-- **The rest of a refused line is refused with one code in front of every cut** exactly if no
version is found behind a line feed, or the bytes in front of it are a URI. -/
theorem parseTarget_prefixes_iff (hq : EndsLine q) (h0 : (0 : Byte) ∉ q ++ X)
    (hlt : (q ++ X).length < 2 ^ 32 - 1) {code : ℤ}
    (hcode : CHttpRequestLine.parseTarget dm (q ++ X) (q.length + 1) = .ret code) :
    (∀ X', X' <+: X →
      CHttpRequestLine.parseTarget dm (q ++ X') (q.length + 1) = .ret 0 ∨
        CHttpRequestLine.parseTarget dm (q ++ X') (q.length + 1) = .ret code) ↔
      ∀ k, strstr (q ++ X) versionMark = some k → k ≤ q.length + 1 → LF ∈ (q ++ X).take k →
        ∃ uri, parseUri dm (q ++ X) k = .ok uri := by
  constructor
  · intro h k hk hle hLF
    rw [parseTarget_of_found hk hle] at hcode
    rcases Outcome.bind_eq_ret.mp hcode with hret | ⟨uri, huri, -⟩
    · -- the bytes in front of the version, cut off there, are refused with another code
      obtain rfl := parseUri_ret hret
      have hqk := hq.length_le hLF
      have hlen : k + 6 ≤ (q ++ X).length := length_le_of_strstr hk
      have hcut : q ++ X.take (k - q.length) = (q ++ X).take k := by
        rw [List.take_append, List.take_of_length_le hqk]
      have hno : ∀ j, strstr ((q ++ X).take k) versionMark = some j → q.length + 1 < j := by
        intro j hj
        have hj' := strstr_of_isPrefix h0 (List.take_prefix k _) hj
        obtain rfl : k = j := Option.some.inj (hk.symm.trans hj')
        have hin : k + 6 ≤ ((q ++ X).take k).length := length_le_of_strstr hj
        rw [List.length_take] at hin
        omega
      have hX := h (X.take (k - q.length)) (List.take_prefix _ _)
      rw [hcut, parseTarget_of_notFound hno,
        cstr_eq_self fun h' => h0 (List.mem_of_mem_take h'), if_pos hLF] at hX
      exact absurd hX (by decide)
    · exact ⟨uri, huri⟩
  · intro h X' hX
    by_cases hfound : ∃ k ≤ q.length + 1, strstr (q ++ X') versionMark = some k
    · obtain ⟨k, hle, hk⟩ := hfound
      right
      rw [parseTarget_of_found_isPrefix hq h0 hlt hX hk hle, hcode]
    · have hpre : q ++ X' <+: q ++ X := (List.prefix_append_right_inj q).mpr hX
      have h0' : (0 : Byte) ∉ q ++ X' := fun h' => h0 (hpre.subset h')
      have hno : ∀ k, strstr (q ++ X') versionMark = some k → q.length + 1 < k :=
        fun k hk => lt_of_not_ge fun hle => hfound ⟨k, hle, hk⟩
      rw [parseTarget_of_notFound hno, cstr_eq_self h0']
      by_cases hLF : LF ∈ q ++ X'
      · right
        rw [if_pos hLF, ← hcode]
        by_cases hwhole : ∃ k ≤ q.length + 1, strstr (q ++ X) versionMark = some k
        · obtain ⟨k, hle, hk⟩ := hwhole
          have hmem := LF_mem_take_of_notFound h0 hX hk (fun h' => hfound ⟨k, hle, h'⟩) hLF
          obtain ⟨uri, huri⟩ := h k hk hle hmem
          have hqk := hq.length_le hmem
          rw [parseTarget_of_found hk hle, huri, Outcome.ok_bind,
            parseVersion_of_le_one _ (by omega), Outcome.ret_bind]
        · rw [parseTarget_of_notFound fun k hk => lt_of_not_ge fun hle => hwhole ⟨k, hle, hk⟩,
            cstr_eq_self h0, if_pos (hpre.subset hLF)]
      · left
        rw [if_neg hLF]

end Target

/-! ## The whole line -/

/-- What `infuse` has behind the method when it accepts the method: the bytes from the URI on, and
`left_size`. -/
def behindMethod (data : Bytes) : Option (Bytes × ℕ) :=
  let lineLen := (getLine data).1
  let wordLen := getFirstWord (data.take lineLen)
  if (reqTypeOf (data.take wordLen)).isSome then
    some (data.drop (wordLen + 1), lineLen - wordLen)
  else none

/-- The request line reads no byte outside of the buffer.  Where `" HTTP/"` is accepted behind the
first line feed, the bytes in front of it are a URI. -/
def LineSettled (dm : DataModel) (data : Bytes) : Prop :=
  CHttpRequestLine.parseLine dm {} data ≠ .undefined ∧
    ∀ p leftSize k, behindMethod data = some (p, leftSize) → strstr p versionMark = some k →
      k ≤ leftSize → LF ∈ p.take k → ∃ uri, parseUri dm p k = .ok uri

theorem behindMethod_of_notMem {data : Bytes} (h : LF ∉ data) : behindMethod data = none := by
  rw [behindMethod, getLine_of_notMem h]
  rfl

section Line

variable {l R : Bytes}

/-- The line from the URI on. -/
def lineRest (l : Bytes) : Bytes := (l ++ [LF]).drop (getFirstWord (l ++ [LF]) + 1)

theorem endsLine_lineRest (hl : LF ∉ l) : EndsLine (lineRest l) := by
  rw [lineRest]
  by_cases h : getFirstWord (l ++ [LF]) + 1 ≤ l.length
  · right
    exact ⟨l.drop (getFirstWord (l ++ [LF]) + 1), fun h' => hl (List.mem_of_mem_drop h'),
      List.drop_append_of_le_length h⟩
  · left
    rw [List.drop_eq_nil_iff, List.length_append, List.length_singleton]
    omega

theorem behindMethod_line (hl : LF ∉ l) (R : Bytes) :
    behindMethod (l ++ LF :: R) =
      if (reqTypeOf ((l ++ [LF]).take (getFirstWord (l ++ [LF])))).isSome then
        some (lineRest l ++ R, (lineRest l).length + 1)
      else none := by
  have hdata : l ++ LF :: R = l ++ [LF] ++ R := by rw [List.append_assoc, List.singleton_append]
  have halen : (l ++ [LF]).length = l.length + 1 := by
    rw [List.length_append, List.length_singleton]
  have hw : getFirstWord (l ++ [LF]) < l.length + 1 := by
    rcases getFirstWord_lt (l ++ [LF]) with h | h <;> omega
  have hline : (l ++ [LF] ++ R).take (l.length + 1) = l ++ [LF] := List.take_left' halen
  have hget : getLine (l ++ [LF] ++ R) = (l.length + 1, tailLen l) := by
    rw [← hdata]
    exact getLine_line hl R
  have hmethod : (l ++ [LF] ++ R).take (getFirstWord (l ++ [LF])) =
      (l ++ [LF]).take (getFirstWord (l ++ [LF])) := List.take_append_of_le_length (by omega)
  have hdrop : (l ++ [LF] ++ R).drop (getFirstWord (l ++ [LF]) + 1) = lineRest l ++ R :=
    List.drop_append_of_le_length (by omega)
  have hleft : l.length + 1 - getFirstWord (l ++ [LF]) = (lineRest l).length + 1 := by
    rw [lineRest, List.length_drop]
    omega
  rw [hdata]
  simp only [behindMethod, hget, hline, hmethod, hdrop, hleft]

/-- An accepted method is not empty. -/
theorem getFirstWord_ne_zero {reqType : ℤ}
    (ht : reqTypeOf ((l ++ [LF]).take (getFirstWord (l ++ [LF]))) = some reqType) :
    getFirstWord (l ++ [LF]) ≠ 0 := by
  intro h0
  have hmethod := (method_plain ht).1
  rw [h0, List.take_zero, List.length_nil] at hmethod
  omega

/-- A line with an accepted method is refused as the bytes behind the method are. -/
theorem parseLine_line_ret_iff (hl : LF ∉ l) {reqType : ℤ}
    (ht : reqTypeOf ((l ++ [LF]).take (getFirstWord (l ++ [LF]))) = some reqType) (R : Bytes)
    (code : ℤ) :
    CHttpRequestLine.parseLine dm {} (l ++ LF :: R) = .ret code ↔
      CHttpRequestLine.parseTarget dm (lineRest l ++ R) ((lineRest l).length + 1) =
        .ret code := by
  rw [parseLine_line hl, if_neg (getFirstWord_ne_zero ht), ht]
  show (CHttpRequestLine.parseTarget dm (lineRest l ++ R) ((lineRest l).length + 1) >>= _) = _ ↔ _
  rw [Outcome.bind_eq_ret]
  exact or_iff_left (by rintro ⟨x, -, hx⟩; exact absurd hx (by simp))

/-- A line without an accepted method is refused whatever follows it. -/
theorem parseLine_line_of_none (hl : LF ∉ l)
    (ht : reqTypeOf ((l ++ [LF]).take (getFirstWord (l ++ [LF]))) = none) (R : Bytes) :
    CHttpRequestLine.parseLine dm {} (l ++ LF :: R) = .ret cHttpErrInvalidRequestLine := by
  rw [parseLine_line hl, ht]
  split <;> rfl

theorem length_lineRest_lt {reqType : ℤ}
    (ht : reqTypeOf ((l ++ [LF]).take (getFirstWord (l ++ [LF]))) = some reqType)
    (hlt : (l ++ LF :: R).length < 2 ^ 32) : (lineRest l ++ R).length < 2 ^ 32 - 1 := by
  have hmethod := (method_plain ht).1
  rw [List.length_take, List.length_append, List.length_singleton] at hmethod
  rw [List.length_append, List.length_cons] at hlt
  rw [lineRest, List.length_append, List.length_drop, List.length_append, List.length_singleton]
  omega

end Line

/-- **A refused request line is refused with one code in front of every cut** exactly if it is
settled. -/
theorem parseLine_prefixes_iff {data : Bytes} (h0 : (0 : Byte) ∉ data)
    (hlt : data.length < 2 ^ 32) {code : ℤ}
    (hcode : CHttpRequestLine.parseLine dm {} data = .ret code) :
    (∀ P, P <+: data →
      CHttpRequestLine.parseLine dm {} P = .ret 0 ∨
        CHttpRequestLine.parseLine dm {} P = .ret code) ↔ LineSettled dm data := by
  have hdef : CHttpRequestLine.parseLine dm {} data ≠ .undefined := by
    rw [hcode]
    simp
  by_cases hLF : LF ∈ data
  · obtain ⟨l, R, hl, rfl⟩ := LF_mem_iff.mp hLF
    -- the prefixes are those without a line feed, and those of the line and a part of the rest
    have hprefixes : (∀ P, P <+: l ++ LF :: R →
        CHttpRequestLine.parseLine dm {} P = .ret 0 ∨
          CHttpRequestLine.parseLine dm {} P = .ret code) ↔
        ∀ R', R' <+: R →
          CHttpRequestLine.parseLine dm {} (l ++ LF :: R') = .ret 0 ∨
            CHttpRequestLine.parseLine dm {} (l ++ LF :: R') = .ret code := by
      constructor
      · intro h R' hR'
        exact h _ ((List.prefix_append_right_inj l).mpr (List.cons_prefix_cons.mpr ⟨rfl, hR'⟩))
      · intro h P hP
        rcases isPrefix_line_cases hl hP with hno | ⟨R', hR', rfl⟩
        · exact Or.inl (parseLine_of_notMem hno)
        · exact h R' hR'
    rw [hprefixes, LineSettled, and_iff_right hdef, behindMethod_line hl]
    cases ht : reqTypeOf ((l ++ [LF]).take (getFirstWord (l ++ [LF]))) with
    | none =>
      rw [parseLine_line_of_none hl ht, Outcome.ret.injEq] at hcode
      subst hcode
      refine iff_of_true (fun R' _ => Or.inr (parseLine_line_of_none hl ht R')) ?_
      intro p leftSize k h
      exact absurd h (by simp)
    | some reqType =>
      have hq0 : (0 : Byte) ∉ lineRest l ++ R := by
        intro h
        refine h0 ?_
        rw [List.mem_append] at h
        rcases h with h | h
        · have hmem := List.mem_of_mem_drop h
          rw [List.mem_append, List.mem_singleton] at hmem
          rcases hmem with hmem | hmem
          · exact List.mem_append_left _ hmem
          · exact absurd hmem (by decide)
        · exact List.mem_append_right _ (List.mem_cons_of_mem _ h)
      have htarget := parseTarget_prefixes_iff (endsLine_lineRest hl) hq0
        (length_lineRest_lt ht hlt) ((parseLine_line_ret_iff hl ht R code).mp hcode)
      simp only [parseLine_line_ret_iff hl ht, htarget, Option.isSome_some, if_true,
        Option.some.injEq, Prod.mk.injEq]
      constructor
      · rintro h p leftSize k ⟨rfl, rfl⟩
        exact h k
      · intro h k
        exact h _ _ k ⟨rfl, rfl⟩
  · refine iff_of_true (fun P hP => Or.inl (parseLine_of_notMem fun h => hLF (hP.subset h)))
      ⟨hdef, ?_⟩
    intro p leftSize k h
    rw [behindMethod_of_notMem hLF] at h
    exact absurd h (by simp)

/-- An accepted request line is settled. -/
theorem lineSettled_of_ok {data : Bytes} {x : CHttpRequestLine × ℕ}
    (h : CHttpRequestLine.parseLine dm {} data = .ok x) : LineSettled dm data := by
  refine ⟨by rw [h]; simp, ?_⟩
  have hLF : LF ∈ data := by
    by_contra hno
    rw [parseLine_of_notMem hno] at h
    exact absurd h (by simp)
  obtain ⟨l, R, hl, rfl⟩ := LF_mem_iff.mp hLF
  intro p leftSize k hp hk hle _
  rw [behindMethod_line hl] at hp
  cases ht : reqTypeOf ((l ++ [LF]).take (getFirstWord (l ++ [LF]))) with
  | none =>
    rw [parseLine_line_of_none hl ht] at h
    exact absurd h (by simp)
  | some reqType =>
    rw [ht, Option.isSome_some, if_pos rfl, Option.some.injEq, Prod.mk.injEq] at hp
    obtain ⟨rfl, rfl⟩ := hp
    rw [parseLine_line hl, if_neg (getFirstWord_ne_zero ht), ht] at h
    obtain ⟨y, hy, -⟩ := Outcome.bind_eq_ok.mp h
    change CHttpRequestLine.parseTarget dm (lineRest l ++ R) ((lineRest l).length + 1) = .ok y at hy
    rw [parseTarget_of_found hk hle] at hy
    obtain ⟨uri, huri, -⟩ := Outcome.bind_eq_ok.mp hy
    exact ⟨uri, huri⟩

end HttpCodec
end CModel
