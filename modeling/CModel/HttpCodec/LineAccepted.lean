import CModel.HttpCodec.LineSettled
import CModel.HttpCodec.UriParts

/-!
# The request lines that are accepted

A request line is a method, white space, a URI without a version mark, a blank, one of three
versions, and white space with or without more behind it.

* `IsRequestLine`, `IsTarget`: a request line, and what is behind its method.
* `ReadsVersion`: the words that `CHttpRequestLine::infuse` reads as a version; there are more than
  three.
* `parseVersion_word`: a version is read from the word in front of white space, or refused.
* `targetAccepted_inside_iff`, `targetAccepted_behind_iff`, `targetAccepted_notFound_iff`: the rest
  of the line, by the place of the version.
* `StrictTarget`: the URI is read inside of the buffer, the version is one of the three, and an
  empty rest of the line is not taken for a line that is not complete.
* `lineAccepted_iff`: **a line is accepted if it is a request line, and refused with a code if it is
  not**, exactly if its rest is strict.
-/

namespace CModel
namespace HttpCodec

variable {dm : DataModel}

/-! ## Request lines -/

/-- The versions of the protocol. -/
def httpVersions : List Bytes := [ascii "HTTP/0.9", ascii "HTTP/1.0", ascii "HTTP/1.1"]

/-- What is behind the method and one white space: a URI without a version mark, on which
`parse_uri` succeeds, a blank, a version, and white space with or without more behind it. -/
def IsTarget (dm : DataModel) (q : Bytes) : Prop :=
  ∃ uri version tail, q = uri ++ 32 :: (version ++ tail) ∧ ¬ versionMark <:+: uri ∧
    (∃ parts, parseUri dm q uri.length = .ok parts) ∧ version ∈ httpVersions ∧
    ∃ c s, tail = c :: s ∧ isspace c = true

/-- What `get_first_word` finds. -/
def firstWord (s : Bytes) : Bytes := s.take (getFirstWord s)

/-- A request line with its line feed. -/
def IsRequestLine (dm : DataModel) (line : Bytes) : Prop :=
  ∃ method c q, line = method ++ c :: q ∧
    (method = ascii "GET" ∨ method = ascii "POST" ∨ method = ascii "QQPOST") ∧
    isspace c = true ∧ IsTarget dm q

theorem isSome_reqTypeOf_iff {method : Bytes} : (reqTypeOf method).isSome = true ↔
    method = ascii "GET" ∨ method = ascii "POST" ∨ method = ascii "QQPOST" := by
  rw [reqTypeOf]
  split
  · next h => exact iff_of_true rfl (Or.inl h)
  · next hget =>
    rw [or_iff_right hget]
    split
    · next h => exact iff_of_true rfl h
    · next h => exact iff_of_false Bool.false_ne_true h

/-- A text with white space is cut behind its first word. -/
theorem exists_firstWord {s : Bytes} (h : ∃ c ∈ s, isspace c = true) :
    ∃ c, s = firstWord s ++ c :: s.drop (getFirstWord s + 1) ∧
      (∀ d ∈ firstWord s, isspace d = false) ∧ isspace c = true := by
  obtain ⟨i, hi⟩ : ∃ i, s.findIdx? isspace = some i := by
    rw [← Option.isSome_iff_exists, List.findIdx?_isSome, List.any_eq_true]
    exact h
  have hword : getFirstWord s = i := by rw [getFirstWord, hi, Option.getD_some]
  obtain ⟨hlt, hspace, hbefore⟩ := List.findIdx?_eq_some_iff_getElem.mp hi
  refine ⟨s[i], ?_, ?_, hspace⟩
  · rw [firstWord, hword, ← List.drop_eq_getElem_cons hlt, List.take_append_drop]
  · intro d hd
    rw [firstWord, hword] at hd
    obtain ⟨j, hj, rfl⟩ := List.mem_take_iff_getElem.mp hd
    exact Bool.eq_false_iff.mpr (hbefore j (by omega))

/-- **The method of a request line is its first word.** -/
theorem isRequestLine_iff (l : Bytes) : IsRequestLine dm (l ++ [LF]) ↔
    (reqTypeOf (firstWord (l ++ [LF]))).isSome = true ∧ IsTarget dm (lineRest l) := by
  constructor
  · rintro ⟨method, c, q, hline, hmethod, hc, hq⟩
    obtain ⟨reqType, ht⟩ := Option.isSome_iff_exists.mp (isSome_reqTypeOf_iff.mpr hmethod)
    have hword : getFirstWord (method ++ c :: q) = method.length :=
      getFirstWord_eq (method_plain ht).2 hc q
    have hrest : (method ++ c :: q).drop (method.length + 1) = q := by
      rw [← List.drop_drop, List.drop_left]
      rfl
    rw [lineRest, firstWord, hline, hword, List.take_left, hrest]
    exact ⟨isSome_reqTypeOf_iff.mpr hmethod, hq⟩
  · rintro ⟨hmethod, hq⟩
    obtain ⟨c, hcut, -, hc⟩ := exists_firstWord (s := l ++ [LF])
      ⟨LF, List.mem_append_right _ (List.mem_singleton_self LF), rfl⟩
    exact ⟨firstWord (l ++ [LF]), c, lineRest l, hcut, isSome_reqTypeOf_iff.mp hmethod, hc, hq⟩

/-! ## Versions -/

/-- A word that `infuse` reads as a version: `HTTP/`, one byte, a point and more, where `>>` reads
the two numbers of a version. -/
def ReadsVersion (word : Bytes) (version : ℤ) : Prop :=
  ∃ x s a b, word = ascii "HTTP/" ++ x :: 46 :: s ∧ s ≠ [] ∧ istreamUnsigned [x] = some a ∧
    istreamUnsigned s = some b ∧ versionOf a b = some version

/-- The three versions are read. -/
theorem readsVersion_of_mem {word : Bytes} (h : word ∈ httpVersions) :
    ∃ version, ReadsVersion word version := by
  have hread : ∀ x y a b version, istreamUnsigned [x] = some a → istreamUnsigned [y] = some b →
      versionOf a b = some version → word = ascii "HTTP/" ++ [x, 46, y] →
      ∃ version, ReadsVersion word version := fun x y a b version ha hb hab hword =>
    ⟨version, x, [y], a, b, hword, List.cons_ne_nil _ _, ha, hb, hab⟩
  rw [httpVersions, List.mem_cons, List.mem_cons, List.mem_singleton] at h
  rcases h with h | h | h
  · exact hread 48 57 0 9 cHttpProtocolVer09 rfl rfl rfl h
  · exact hread 49 48 1 0 cHttpProtocolVer10 rfl rfl rfl h
  · exact hread 49 49 1 1 cHttpProtocolVer11 rfl rfl rfl h

/-- `>>` reads a number where there is no white space. -/
theorem isSome_istreamUnsigned {s : Bytes} (hne : s ≠ []) (hs : ∀ c ∈ s, isspace c = false) :
    ∃ n, istreamUnsigned s = some n := by
  obtain ⟨c, s, rfl⟩ := List.exists_cons_of_ne_nil hne
  rw [istreamUnsigned, List.dropWhile_cons_of_neg (by rw [hs c List.mem_cons_self]; decide)]
  simp only
  split
  · exact ⟨_, rfl⟩
  · split <;> exact ⟨_, rfl⟩

section Version

variable {word : Bytes} {c : Byte} {r : Bytes} {n : ℕ}

/-- The numbers of a word in the shape of a version are read. -/
theorem parseVersion_shape {x : Byte} {s : Bytes} {a b : ℕ} (hne : s ≠ [])
    (hword : ∀ d ∈ ascii "HTTP/" ++ x :: 46 :: s, isspace d = false) (hc : isspace c = true)
    (hn : (ascii "HTTP/" ++ x :: 46 :: s ++ c :: r).length ≤ n)
    (ha : istreamUnsigned [x] = some a) (hb : istreamUnsigned s = some b) :
    CHttpRequestLine.parseVersion (ascii "HTTP/" ++ x :: 46 :: s ++ c :: r) n =
      match versionOf a b with
      | none => .ret cHttpErrInvalidRequestLine
      | some version => .ok version := by
  have hfirst := getFirstWord_eq hword hc r
  have hlen : (ascii "HTTP/" ++ x :: 46 :: s).length = s.length + 7 := rfl
  have hpos := List.length_pos_of_ne_nil hne
  rw [hlen] at hfirst
  have htake : (ascii "HTTP/" ++ x :: 46 :: s ++ c :: r).take 5 = ascii "HTTP/" := rfl
  have hpoint : readByte (ascii "HTTP/" ++ x :: 46 :: s ++ c :: r) 6 = .ok 46 := rfl
  have hprimary : ((ascii "HTTP/" ++ x :: 46 :: s ++ c :: r).drop 5).take 1 = [x] := rfl
  have hsecondary : ((ascii "HTTP/" ++ x :: 46 :: s ++ c :: r).drop 7).take (s.length + 7 - 7) =
      s := by
    rw [Nat.add_sub_cancel]
    exact List.take_left
  rw [CHttpRequestLine.parseVersion, List.take_of_length_le hn]
  simp only [hfirst, if_neg (show ¬ s.length + 7 = 0 by omega),
    if_neg (show ¬ s.length + 7 < 8 by omega), htake, hpoint, hprimary, hsecondary,
    Outcome.ok_bind, fromStrUnsigned, ha, hb]
  rfl

/-- Every other word is refused. -/
theorem parseVersion_other (hword : ∀ d ∈ word, isspace d = false) (hc : isspace c = true)
    (hn : (word ++ c :: r).length ≤ n)
    (hno : ∀ x s, word = ascii "HTTP/" ++ x :: 46 :: s → s = []) :
    CHttpRequestLine.parseVersion (word ++ c :: r) n = .ret cHttpErrInvalidRequestLine := by
  rw [CHttpRequestLine.parseVersion, List.take_of_length_le hn]
  simp only [getFirstWord_eq hword hc]
  by_cases h8 : word.length < 8
  · rw [if_pos h8, ite_self]
  · rw [if_neg (by omega), if_neg h8]
    by_cases htake : (word ++ c :: r).take 5 = ascii "HTTP/"
    · rw [if_neg (not_not.mpr htake)]
      rw [List.take_append_of_le_length (by omega)] at htake
      obtain ⟨x, y, s, hs⟩ : ∃ x y s, word.drop 5 = x :: y :: s := by
        have hlen : 2 ≤ (word.drop 5).length := by
          rw [List.length_drop]
          omega
        rcases hd : word.drop 5 with _ | ⟨x, _ | ⟨y, s⟩⟩
        · rw [hd] at hlen
          exact absurd hlen (by simp)
        · rw [hd] at hlen
          exact absurd hlen (by simp)
        · exact ⟨x, y, s, rfl⟩
      have hsplit : word = ascii "HTTP/" ++ x :: y :: s := by
        rw [← htake, ← hs, List.take_append_drop]
      have hread : readByte (word ++ c :: r) 6 = .ok y := by
        rw [hsplit]
        rfl
      have hpoint : y ≠ 46 := by
        rintro rfl
        have hnil := hno x s hsplit
        rw [hsplit, hnil] at h8
        exact h8 (show 7 < 8 by decide)
      rw [hread, Outcome.ok_bind, if_pos hpoint]
    · rw [if_pos htake]

/-- **A version is read from the word in front of white space**, or refused. -/
theorem parseVersion_word (hword : ∀ d ∈ word, isspace d = false) (hc : isspace c = true)
    (hn : (word ++ c :: r).length ≤ n) :
    (∃ version, ReadsVersion word version ∧
      CHttpRequestLine.parseVersion (word ++ c :: r) n = .ok version) ∨
    (∀ version, ¬ ReadsVersion word version) ∧
      CHttpRequestLine.parseVersion (word ++ c :: r) n = .ret cHttpErrInvalidRequestLine := by
  by_cases hshape : ∃ x s, word = ascii "HTTP/" ++ x :: 46 :: s ∧ s ≠ []
  · obtain ⟨x, s, rfl, hne⟩ := hshape
    obtain ⟨a, ha⟩ := isSome_istreamUnsigned (s := [x]) (List.cons_ne_nil _ _) fun d hd =>
      hword d (List.mem_append_right _ (List.mem_singleton.mp hd ▸ List.mem_cons_self))
    obtain ⟨b, hb⟩ := isSome_istreamUnsigned hne fun d hd =>
      hword d (List.mem_append_right _ (List.mem_cons_of_mem _ (List.mem_cons_of_mem _ hd)))
    rw [parseVersion_shape hne hword hc hn ha hb]
    cases hv : versionOf a b with
    | none =>
      refine Or.inr ⟨?_, rfl⟩
      intro version
      rintro ⟨x', s', a', b', hword', -, ha', hb', hv'⟩
      have htail := List.append_cancel_left hword'
      rw [List.cons.injEq, List.cons.injEq] at htail
      obtain ⟨rfl, -, rfl⟩ := htail
      rw [ha, Option.some.injEq] at ha'
      rw [hb, Option.some.injEq] at hb'
      rw [← ha', ← hb', hv] at hv'
      exact absurd hv' (by simp)
    | some version => exact Or.inl ⟨version, ⟨x, s, a, b, rfl, hne, ha, hb, hv⟩, rfl⟩
  · have hno : ∀ x s, word = ascii "HTTP/" ++ x :: 46 :: s → s = [] := fun x s hs =>
      by_contra fun hne => hshape ⟨x, s, hs, hne⟩
    refine Or.inr ⟨?_, parseVersion_other hword hc hn hno⟩
    intro version
    rintro ⟨x, s, a, b, hs, hne, -⟩
    exact hne (hno x s hs)

end Version

/-! ## The rest of the line -/

/-- Two words in front of white space are the same. -/
theorem eq_of_word_append {a b s t : Bytes} {c d : Byte} (ha : ∀ x ∈ a, isspace x = false)
    (hb : ∀ x ∈ b, isspace x = false) (hc : isspace c = true) (hd : isspace d = true)
    (h : a ++ c :: s = b ++ d :: t) : a = b := by
  have hlen : a.length = b.length := by
    rw [← getFirstWord_eq ha hc s, h, getFirstWord_eq hb hd]
  exact List.append_inj_left h hlen

theorem httpVersions_plain : ∀ v ∈ httpVersions, ∀ c ∈ v, isspace c = false := by decide

/-- The request line is accepted where it has a target, and refused with a code where it has
none. -/
def TargetAccepted (dm : DataModel) (q R : Bytes) : Prop :=
  (IsTarget dm q ∧ ∃ x, CHttpRequestLine.parseTarget dm (q ++ R) (q.length + 1) = .ok x) ∨
    (¬ IsTarget dm q ∧
      ∃ code, code ≠ 0 ∧ CHttpRequestLine.parseTarget dm (q ++ R) (q.length + 1) = .ret code)

section Rest

variable {q R : Bytes} {k : ℕ}

/-- **The version of a target** is the first one that is found. -/
theorem exists_of_isTarget (h0 : (0 : Byte) ∉ q) (h : IsTarget dm q) (R : Bytes) :
    ∃ uri version c s, q = uri ++ 32 :: (version ++ c :: s) ∧
      strstr (q ++ R) versionMark = some uri.length ∧
      (∃ parts, parseUri dm q uri.length = .ok parts) ∧ version ∈ httpVersions ∧
      isspace c = true := by
  obtain ⟨uri, version, tail, hq, hmark, hparse, hversion, c, s, rfl, hc⟩ := h
  refine ⟨uri, version, c, s, hq, ?_, hparse, hversion, hc⟩
  have hpre : ∀ v ∈ httpVersions, ascii "HTTP/" <+: v := by decide
  obtain ⟨v, rfl⟩ := hpre version hversion
  have hzero : (0 : Byte) ∉ uri := fun h => h0 (hq ▸ List.mem_append_left _ h)
  have hcut : q ++ R = uri ++ (versionMark ++ (v ++ c :: s ++ R)) := by
    rw [hq]
    simp only [List.append_assoc, List.cons_append]
    rfl
  rw [hcut]
  exact strstr_of_not_isInfix (by decide) (by decide) hmark hzero _

/-- The line where a version begins in it. -/
theorem exists_word_of_mark (hq : EndsLine q) (h : strstr (q ++ R) versionMark = some k)
    (hk : k < q.length) : k + 6 < q.length ∧ versionMark <+: (q ++ R).drop k ∧
      ∃ c r, q.drop (k + 1) = firstWord (q.drop (k + 1)) ++ c :: r ∧
        q = q.take k ++ 32 :: (firstWord (q.drop (k + 1)) ++ c :: r) ∧
        (∀ d ∈ firstWord (q.drop (k + 1)), isspace d = false) ∧ isspace c = true := by
  have hmark := isPrefix_drop_of_strstr h
  have hlt := hq.add_lt_of_mark hk hmark
  obtain ⟨t, ht⟩ := hmark
  have hblank : q[k] = 32 := by
    have hcut := ht.symm
    rw [List.drop_append_of_le_length hk.le, List.drop_eq_getElem_cons hk] at hcut
    exact (List.cons.inj hcut).1
  have hspace : ∃ d ∈ q.drop (k + 1), isspace d = true := by
    refine ⟨LF, ?_, rfl⟩
    rcases hq with rfl | ⟨m, -, rfl⟩
    · exact absurd hk (Nat.not_lt_zero k)
    · rw [List.length_append, List.length_singleton] at hlt
      rw [List.drop_append_of_le_length (by omega)]
      exact List.mem_append_right _ (List.mem_singleton_self LF)
  obtain ⟨c, hword, hplain, hc⟩ := exists_firstWord hspace
  refine ⟨hlt, ⟨t, ht⟩, c, _, hword, ?_, hplain, hc⟩
  rw [← hword, ← hblank, ← List.drop_eq_getElem_cons hk, List.take_append_drop]

/-- **A line with a version in it** is accepted or refused as it should, if the URI is read inside
of the buffer and the version is one of the three. -/
theorem targetAccepted_inside_iff (hq : EndsLine q) (h0 : (0 : Byte) ∉ q)
    (hlt : (q ++ R).length < 2 ^ 32 - 1) (h : strstr (q ++ R) versionMark = some k)
    (hk : k < q.length) : TargetAccepted dm q R ↔ parseUri dm (q ++ R) k ≠ .undefined ∧
      ((∃ parts, parseUri dm (q ++ R) k = .ok parts) →
        ∀ version, ReadsVersion (firstWord (q.drop (k + 1))) version →
          firstWord (q.drop (k + 1)) ∈ httpVersions) := by
  obtain ⟨hlen, hmark, c, r, hword, hcut, hplain, hc⟩ := exists_word_of_mark hq h hk
  have huri : parseUri dm (q ++ R) k = parseUri dm q k := parseUri_append hk.le (by omega) hlt
  have htake : (q.take k).length = k := by rw [List.length_take, min_eq_left hk.le]
  have htarget : IsTarget dm q ↔ (∃ parts, parseUri dm q k = .ok parts) ∧
      firstWord (q.drop (k + 1)) ∈ httpVersions := by
    constructor
    · intro ht
      obtain ⟨uri, version, c', s, hq', hfind, hparse, hversion, hc'⟩ :=
        exists_of_isTarget h0 ht R
      rw [h, Option.some.injEq] at hfind
      subst hfind
      have htail : q.drop (uri.length + 1) = version ++ c' :: s := by
        rw [hq', ← List.drop_drop, List.drop_left]
        rfl
      rw [hword] at htail
      rw [eq_of_word_append hplain (httpVersions_plain version hversion) hc hc' htail]
      exact ⟨hparse, hversion⟩
    · rintro ⟨hparse, hversion⟩
      obtain ⟨-, -, hno⟩ := exists_of_strstr (by decide) h
      rw [List.take_append_of_le_length hk.le] at hno
      exact ⟨q.take k, firstWord (q.drop (k + 1)), c :: r, hcut, hno, by rwa [htake], hversion,
        c, r, rfl, hc⟩
  have hread : CHttpRequestLine.parseTarget dm (q ++ R) (q.length + 1) =
      parseUri dm q k >>= fun uri =>
        CHttpRequestLine.parseVersion (firstWord (q.drop (k + 1)) ++ c :: r)
          (q.length + 1 - k) >>= fun version => .ok (uri, version) := by
    rw [parseTarget_of_found h (by omega), huri, parseVersion_line hq hmark, ← hword]
  have hfits : (firstWord (q.drop (k + 1)) ++ c :: r).length ≤ q.length + 1 - k := by
    rw [← hword, List.length_drop]
    omega
  rw [TargetAccepted, hread, htarget, huri]
  cases hparse : parseUri dm q k with
  | undefined => simp
  | ret code =>
    obtain rfl := parseUri_ret hparse
    exact iff_of_true (Or.inr ⟨by simp, -1, by decide, rfl⟩) (by simp)
  | ok parts =>
    have hparts : ∃ p, Outcome.ok parts = Outcome.ok p := ⟨parts, rfl⟩
    have hinside : Outcome.ok parts ≠ Outcome.undefined := by simp
    rw [and_iff_right hparts, forall_prop_of_true hparts, and_iff_right hinside, Outcome.ok_bind]
    rcases parseVersion_word hplain hc hfits with ⟨version, hversion, hok⟩ | ⟨hno, hret⟩
    · rw [hok, Outcome.ok_bind]
      constructor
      · rintro (⟨hmem, -⟩ | ⟨-, code, -, hcode⟩) - -
        · exact hmem
        · exact absurd hcode (by simp)
      · intro hall
        exact Or.inl ⟨hall version hversion, _, rfl⟩
    · rw [hret]
      refine iff_of_true (Or.inr ⟨?_, _, by decide, rfl⟩)
        fun version hversion => absurd hversion (hno version)
      intro hmem
      obtain ⟨version, hversion⟩ := readsVersion_of_mem hmem
      exact hno version hversion

/-- A target has its version in the line. -/
theorem not_isTarget (h0 : (0 : Byte) ∉ q)
    (h : ∀ k, strstr (q ++ R) versionMark = some k → q.length ≤ k) : ¬ IsTarget dm q := by
  intro ht
  obtain ⟨uri, version, c, s, hq, hfind, -⟩ := exists_of_isTarget h0 ht R
  have hle := h uri.length hfind
  rw [hq, List.length_append, List.length_cons] at hle
  omega

/-- **A line with a version right behind it** is refused, if the bytes in front of it are read
inside of the buffer. -/
theorem targetAccepted_behind_iff (h0 : (0 : Byte) ∉ q)
    (h : strstr (q ++ R) versionMark = some k) (hge : q.length ≤ k) (hle : k ≤ q.length + 1) :
    TargetAccepted dm q R ↔ parseUri dm (q ++ R) k ≠ .undefined := by
  have hnot : ¬ IsTarget dm q := not_isTarget (R := R) h0 fun j hj => by
    rw [h, Option.some.injEq] at hj
    omega
  rw [TargetAccepted, parseTarget_of_found h hle, parseVersion_of_le_one _ (by omega),
    or_iff_right fun h => hnot h.1, and_iff_right hnot]
  cases hparse : parseUri dm (q ++ R) k with
  | undefined => simp
  | ret code =>
    obtain rfl := parseUri_ret hparse
    exact iff_of_true ⟨-1, by decide, rfl⟩ (by simp)
  | ok parts => exact iff_of_true ⟨cHttpErrInvalidRequestLine, by decide, rfl⟩ (by simp)

/-- **A line without a version** is refused with a code, if a line feed is left in the bytes behind
the method. -/
theorem targetAccepted_notFound_iff (h0 : (0 : Byte) ∉ q)
    (h : ∀ k, strstr (q ++ R) versionMark = some k → q.length + 1 < k) :
    TargetAccepted dm q R ↔ LF ∈ cstr (q ++ R) := by
  have hnot : ¬ IsTarget dm q := not_isTarget h0 fun k hk => by
    have hlt := h k hk
    omega
  rw [TargetAccepted, parseTarget_of_notFound h, or_iff_right fun h => hnot h.1,
    and_iff_right hnot]
  by_cases hLF : LF ∈ cstr (q ++ R)
  · rw [if_pos hLF]
    exact iff_of_true ⟨cHttpErrInvalidRequestLine, by decide, rfl⟩ hLF
  · rw [if_neg hLF]
    refine iff_of_false ?_ hLF
    rintro ⟨code, hne, hcode⟩
    exact hne (Outcome.ret.inj hcode).symm

/-- The version that is found first, if it begins in the line or right behind it, has a URI in front
of it that is read inside of the buffer, and is one of the three if it is read as a version.  Where
none is found, the rest of the line is not empty, or a line feed follows. -/
def StrictTarget (dm : DataModel) (q R : Bytes) : Prop :=
  (∀ k, strstr (q ++ R) versionMark = some k → k ≤ q.length + 1 →
    StaysInside dm (q ++ R) k ∧
      ((∃ parts, parseUri dm (q ++ R) k = .ok parts) →
        ∀ version, ReadsVersion (firstWord (q.drop (k + 1))) version →
          firstWord (q.drop (k + 1)) ∈ httpVersions)) ∧
  ((∀ k, strstr (q ++ R) versionMark = some k → q.length + 1 < k) → q = [] → LF ∈ cstr R)

theorem targetAccepted_iff (hq : EndsLine q) (h0 : (0 : Byte) ∉ q)
    (hlt : (q ++ R).length < 2 ^ 32 - 1) : TargetAccepted dm q R ↔ StrictTarget dm q R := by
  by_cases hfound : ∃ k, strstr (q ++ R) versionMark = some k ∧ k ≤ q.length + 1
  · obtain ⟨k, hk, hle⟩ := hfound
    have hlen : k + 6 ≤ (q ++ R).length := length_le_of_strstr hk
    have hstrict : StrictTarget dm q R ↔ parseUri dm (q ++ R) k ≠ .undefined ∧
        ((∃ parts, parseUri dm (q ++ R) k = .ok parts) →
          ∀ version, ReadsVersion (firstWord (q.drop (k + 1))) version →
            firstWord (q.drop (k + 1)) ∈ httpVersions) := by
      rw [StrictTarget, parseUri_ne_undefined_iff (by omega) (by omega) hlt, and_iff_left]
      · constructor
        · intro h
          exact h k hk hle
        · intro h j hj _
          rw [hk, Option.some.injEq] at hj
          exact hj ▸ h
      · intro hno
        exact absurd (hno k hk) (by omega)
    rw [hstrict]
    rcases Nat.lt_or_ge k q.length with hin | hge
    · exact targetAccepted_inside_iff hq h0 hlt hk hin
    · rw [targetAccepted_behind_iff h0 hk hge hle, iff_self_and]
      rintro - - version ⟨x, s, a, b, hword, -⟩
      rw [List.drop_of_length_le (by omega)] at hword
      exact absurd hword (by simp [firstWord])
  · have hno : ∀ k, strstr (q ++ R) versionMark = some k → q.length + 1 < k := fun k hk =>
      lt_of_not_ge fun hle => hfound ⟨k, hk, hle⟩
    rw [targetAccepted_notFound_iff h0 hno, StrictTarget, forall_prop_of_true hno,
      and_iff_right fun k hk hle => absurd (hno k hk) (by omega)]
    rcases hq with rfl | ⟨m, -, rfl⟩
    · rw [List.nil_append, forall_prop_of_true rfl]
    · refine iff_of_true ?_ fun h => absurd h (by simp)
      rw [cstr_append h0]
      exact List.mem_append_left _ (List.mem_append_right _ (List.mem_singleton_self LF))

end Rest

/-! ## The whole line -/

section Line

variable {l R : Bytes} {rl : CHttpRequestLine}

/-- `CHttpRequestLine::infuse` sets `full` exactly if the line is a request line, and returns a code
and leaves the object as it was if it is not. -/
def LineAccepted (dm : DataModel) (rl : CHttpRequestLine) (l R : Bytes) : Prop :=
  ((∃ code rl' skipLen, rl.infuse dm (l ++ LF :: R) = some (code, rl', skipLen) ∧
      rl'.full = true) ↔ IsRequestLine dm (l ++ [LF])) ∧
    (¬ IsRequestLine dm (l ++ [LF]) →
      ∃ code, code ≠ 0 ∧ rl.infuse dm (l ++ LF :: R) = some (code, rl, 0))

/-- A line with an accepted method is accepted as its rest is. -/
theorem lineAccepted_of_method (hl : LF ∉ l) (hfull : rl.full = false)
    (hmethod : (reqTypeOf (firstWord (l ++ [LF]))).isSome = true) :
    LineAccepted dm rl l R ↔ TargetAccepted dm (lineRest l) R := by
  obtain ⟨reqType, ht⟩ := Option.isSome_iff_exists.mp hmethod
  have hparse : rl.parseLine dm (l ++ LF :: R) = _ := parseLine_line hl rl R
  rw [if_neg (getFirstWord_ne_zero ht), show reqTypeOf ((l ++ [LF]).take
    (getFirstWord (l ++ [LF]))) = some reqType from ht] at hparse
  change _ = CHttpRequestLine.parseTarget dm (lineRest l ++ R) ((lineRest l).length + 1) >>= _
    at hparse
  rw [LineAccepted, isRequestLine_iff, and_iff_right hmethod, TargetAccepted,
    CHttpRequestLine.infuse, if_neg (by rw [hfull]; exact Bool.false_ne_true), hparse]
  generalize CHttpRequestLine.parseTarget dm (lineRest l ++ R) ((lineRest l).length + 1) = target
  by_cases htarget : IsTarget dm (lineRest l)
  · cases target with
    | undefined => simp [htarget]
    | ret code => simp [htarget, hfull]
    | ok x => simp [htarget]
  · cases target with
    | undefined => simp [htarget]
    | ret code => simp [htarget, hfull]
    | ok x => simp [htarget]

/-- **A line is accepted if it is a request line, and refused with a code if it is not**, exactly
if it has no accepted method, or its rest is strict. -/
theorem lineAccepted_iff (hl : LF ∉ l) (h0 : (0 : Byte) ∉ l) (hfull : rl.full = false)
    (hlt : (l ++ LF :: R).length < 2 ^ 32) : LineAccepted dm rl l R ↔
      ((reqTypeOf (firstWord (l ++ [LF]))).isSome = true → StrictTarget dm (lineRest l) R) := by
  cases hmethod : reqTypeOf (firstWord (l ++ [LF])) with
  | none =>
    have hret : rl.parseLine dm (l ++ LF :: R) = .ret cHttpErrInvalidRequestLine := by
      rw [parseLine_line hl, show reqTypeOf ((l ++ [LF]).take (getFirstWord (l ++ [LF]))) = none
        from hmethod]
      split <;> rfl
    have hnot : ¬ IsRequestLine dm (l ++ [LF]) := by
      rw [isRequestLine_iff, hmethod]
      simp
    rw [LineAccepted, CHttpRequestLine.infuse, if_neg (by rw [hfull]; exact Bool.false_ne_true),
      hret]
    refine iff_of_true ⟨iff_of_false ?_ hnot, fun _ => ⟨_, by decide, rfl⟩⟩ (by simp)
    rintro ⟨code, rl', skipLen, h, hfull'⟩
    rw [Option.some.injEq, Prod.mk.injEq, Prod.mk.injEq] at h
    rw [← h.2.1, hfull] at hfull'
    exact absurd hfull' (by decide)
  | some reqType =>
    have hzero : (0 : Byte) ∉ lineRest l := by
      intro h
      have hmem := List.mem_of_mem_drop h
      rw [List.mem_append, List.mem_singleton] at hmem
      exact hmem.elim h0 (by decide)
    rw [lineAccepted_of_method hl hfull (by rw [hmethod]; rfl),
      targetAccepted_iff (endsLine_lineRest hl) hzero (length_lineRest_lt hmethod hlt),
      forall_prop_of_true Option.isSome_some]

/-- A request line for `/`. -/
theorem lineAccepted_slash_iff : LineAccepted .lp64 {} (ascii "GET / HTTP/1.0") [] ↔
    ((reqTypeOf (firstWord (ascii "GET / HTTP/1.0" ++ [LF]))).isSome = true →
      StrictTarget .lp64 (lineRest (ascii "GET / HTTP/1.0")) []) :=
  lineAccepted_iff (by decide) (by decide) rfl (by decide)

/-- **A line with nothing behind its method** is taken for one that is not complete, and more than
the three versions are accepted: `HTTP/1.1x` is read as `HTTP/1.1`. -/
theorem bareMethod_longVersion_not_lineAccepted :
    ¬ LineAccepted .lp64 {} (ascii "GET") [] ∧
      ¬ LineAccepted .lp64 {} (ascii "GET /?x HTTP/1.1x") [] := by
  constructor
  · intro h
    have hzero : (CHttpRequestLine.infuse .lp64 {} (ascii "GET" ++ [LF])).map Prod.fst =
        some 0 := by decide
    have hnot : ¬ IsRequestLine .lp64 (ascii "GET" ++ [LF]) := by
      rw [isRequestLine_iff, show lineRest (ascii "GET") = [] from by decide]
      rintro ⟨-, uri, version, tail, hq, -⟩
      exact absurd hq (by simp)
    obtain ⟨code, hne, hcode⟩ := h.2 hnot
    rw [hcode, Option.map_some, Option.some.injEq] at hzero
    exact hne hzero
  · intro h
    have hfull : ((CHttpRequestLine.infuse .lp64 {} (ascii "GET /?x HTTP/1.1x" ++ [LF])).map
        fun r => r.2.1.full) = some true := by decide
    obtain ⟨⟨code, rl', skipLen⟩, hinfuse, hrl⟩ := Option.map_eq_some_iff.mp hfull
    have hline := h.1.mp ⟨code, rl', skipLen, hinfuse, hrl⟩
    have htarget : IsTarget .lp64 (ascii "/?x HTTP/1.1x" ++ [LF]) :=
      ((isRequestLine_iff (ascii "GET /?x HTTP/1.1x")).mp hline).2
    obtain ⟨uri, version, c, s, hq, hfind, -, hversion, hc⟩ :=
      exists_of_isTarget (by decide) htarget []
    have hlen : uri.length = 3 := by
      rw [show strstr (ascii "/?x HTTP/1.1x" ++ [LF] ++ []) versionMark = some 3 from by
        decide, Option.some.injEq] at hfind
      exact hfind.symm
    have htail : version ++ c :: s = ascii "HTTP/1.1x" ++ LF :: [] := by
      have hdrop := congrArg (List.drop (uri.length + 1)) hq
      rw [← List.drop_drop (l := uri ++ _), List.drop_left, hlen] at hdrop
      exact hdrop.symm
    have hword := eq_of_word_append (httpVersions_plain version hversion) (by decide) hc rfl htail
    rw [hword] at hversion
    exact absurd hversion (by decide)

end Line

end HttpCodec
end CModel
