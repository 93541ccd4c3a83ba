import CModel.HttpCodec.HeadLines
import CModel.HttpCodec.Req

/-!
# A request line that is read as it was written

A request line is a method, a blank, a URI, a blank and a version.  `Uri` cuts a URI where
`parse_uri` cuts it, so that the parts come with the proof that they are the parts.

* `Uri`: a text with a `/` in front of its first `?`, cut in this way.
* `fileStart_eq`: the backward loop finds the last `/`.
* `decodeString_plain`: a byte other than `%` stands for itself.
* `parseUri_uri`: **`parse_uri` on a URI**, by data model.  Where a pointer is wider than an
  `unsigned`, a URI without a `?` is read far outside of the buffer.
* `parseLine_requestLine`: **`CHttpRequestLine::infuse` on a request line.**
-/

namespace CModel
namespace HttpCodec

/-! ## The parts of a URI -/

/-- A URI cut at the last `/` in front of the first `?`, and at that `?`. -/
structure Uri where
  path : Bytes
  file : Bytes
  query : Option Bytes
  path_noQuery : (63 : Byte) ∉ path
  file_noQuery : (63 : Byte) ∉ file
  file_noSlash : (47 : Byte) ∉ file

theorem query_notMem_nil : (63 : Byte) ∉ ([] : Bytes) := List.not_mem_nil

theorem slash_notMem_nil : (47 : Byte) ∉ ([] : Bytes) := List.not_mem_nil

/-- The version `HTTP/1.0` is one of the two. -/
theorem minor_zero : (48 : Byte) = 48 ∨ (48 : Byte) = 49 := Or.inl rfl

namespace Uri

/-- The part of a URI in front of the first `?`. -/
def front (u : Uri) : Bytes := u.path ++ 47 :: u.file

/-- The text of a URI. -/
def bytes (u : Uri) : Bytes := u.front ++ u.query.elim [] (63 :: ·)

/-- What follows the first `?`, nothing where there is none. -/
def arg (u : Uri) : Bytes := u.query.getD []

theorem noQuery_front (u : Uri) : (63 : Byte) ∉ u.front := by
  rw [front, List.mem_append, List.mem_cons]
  rintro (h | h | h)
  · exact u.path_noQuery h
  · exact absurd h (by decide)
  · exact u.file_noQuery h

theorem length_front (u : Uri) : u.front.length = u.path.length + 1 + u.file.length := by
  rw [front, List.length_append, List.length_cons]
  omega

theorem bytes_of_none {u : Uri} (h : u.query = none) : u.bytes = u.front := by
  rw [bytes, h, Option.elim_none, List.append_nil]

theorem bytes_of_some {u : Uri} {q : Bytes} (h : u.query = some q) :
    u.bytes = u.front ++ 63 :: q := by
  rw [bytes, h, Option.elim_some]

end Uri

/-- A text that has a `/` is cut at its last one. -/
theorem exists_last_slash {s : Bytes} (h : (47 : Byte) ∈ s) :
    ∃ a b, s = a ++ 47 :: b ∧ (47 : Byte) ∉ b := by
  obtain ⟨b, a, hs, hb⟩ := List.eq_append_cons_of_mem (List.mem_reverse.mpr h)
  refine ⟨a.reverse, b.reverse, ?_, fun h0 => hb (List.mem_reverse.mp h0)⟩
  rw [← List.reverse_reverse s, hs, List.reverse_append, List.reverse_cons, List.append_assoc]
  rfl

/-! ## `parse_uri` -/

variable {dm : DataModel}

/-- **The backward loop of `parse_uri` finds the last `/`.** -/
theorem fileStart_eq {a b : Bytes} (hb : (47 : Byte) ∉ b) (rest : Bytes) :
    fileStart dm (a ++ 47 :: b ++ rest) (a.length + 1 + b.length) = .ok a.length := by
  induction b using List.reverseRecOn generalizing rest with
  | nil =>
    have hread : readByte (a ++ [47] ++ rest) a.length = .ok (47 : Byte) := by
      rw [List.append_assoc]
      exact readByte_append_cons a 47 rest
    rw [List.length_nil, Nat.add_zero, fileStart, hread, Outcome.ok_bind, if_pos rfl]
  | append_singleton b c ih =>
    rw [List.mem_append, List.mem_singleton, not_or] at hb
    have hrest : a ++ 47 :: (b ++ [c]) ++ rest = a ++ 47 :: b ++ c :: rest := by simp
    have hlen : a.length + 1 + b.length = (a ++ 47 :: b).length := by
      rw [List.length_append, List.length_cons]
      omega
    have hread := readByte_append_cons (a ++ 47 :: b) c rest
    rw [← hlen] at hread
    rw [hrest, List.length_append, List.length_singleton, ← Nat.add_assoc, fileStart, hread,
      Outcome.ok_bind, if_neg (Ne.symm hb.2), ih hb.1]

theorem decodeString_cons_of_ne {c : Byte} (hc : c ≠ 37) (s : Bytes) (room : ℕ) :
    decodeString (c :: s) (room + 1) = decodeString s room >>= fun out => .ok (c :: out) := by
  rw [decodeString.eq_def]
  simp only [Nat.add_one_ne_zero, if_false, if_neg hc, Nat.add_sub_cancel]

/-- A `%` stands for the number of the two bytes behind it. -/
theorem decodeString_escape (a b : Byte) (s : Bytes) (room : ℕ) :
    decodeString (37 :: a :: b :: s) (room + 1) =
      decodeString s room >>= fun out => .ok (toChar (strtol16 (cstr [a, b])) :: out) := by
  rw [decodeString.eq_def]
  simp only [Nat.add_one_ne_zero, if_false, if_true, Nat.add_sub_cancel]

/-- A byte other than `%` stands for itself. -/
theorem decodeString_plain {s : Bytes} (h : (37 : Byte) ∉ s) {room : ℕ} (hroom : s.length ≤ room) :
    decodeString s room = .ok s := by
  induction s generalizing room with
  | nil => rfl
  | cons c s ih =>
    rw [List.mem_cons, not_or] at h
    rw [List.length_cons] at hroom
    obtain ⟨room, rfl⟩ : ∃ k, room = k + 1 := ⟨room - 1, by omega⟩
    rw [decodeString_cons_of_ne (Ne.symm h.1), ih h.2 (by omega), Outcome.ok_bind]

/-- The number of bytes below `ULONG_MAX` in either data model. -/
theorem lt_ulongMax {n : ℕ} (h : n < 2 ^ 32 - 1) : n < dm.ulongMax := by
  cases dm <;> simp only [DataModel.ulongMax] <;> omega

/-- The end of the part in front of the `?`. -/
theorem uriEnd_of_query {a q rest : Bytes} (ha : (63 : Byte) ∉ a) {n : ℕ}
    (hn : n = a.length + 1 + q.length) (hlt : a.length < 2 ^ 32 - 1) :
    uriEnd dm (a ++ 63 :: q ++ rest) n = a.length := by
  have htake : (a ++ 63 :: q ++ rest).take n = a ++ 63 :: q := by
    rw [List.take_left' (by rw [List.length_append, List.length_cons]; omega)]
  rw [uriEnd, htake, findChar_append ha]
  exact if_neg (lt_ulongMax hlt).ne

/-- Without a `?` the end is the length if a `long` has 32 bits, and `2 ^ 32 - 1` else. -/
theorem uriEnd_of_noQuery (dm : DataModel) {a : Bytes} (ha : (63 : Byte) ∉ a) (rest : Bytes) :
    uriEnd dm (a ++ rest) a.length =
      match dm with
      | .ilp32 => a.length
      | .lp64 => 2 ^ 32 - 1 := by
  rw [uriEnd, List.take_left, findChar_eq_none_iff.mpr ha]
  cases dm <;> rfl

/-- A read that far outside is undefined before the loop begins. -/
theorem fileStart_of_lt {data : Bytes} {n : ℕ} (h : data.length ≤ n) :
    fileStart dm data (n + 1) = .undefined := by
  rw [fileStart, readByte_of_le h, Outcome.undefined_bind]

section UriParse

variable {u : Uri} {rest : Bytes}

theorem readRange_path (u : Uri) (s : Bytes) :
    readRange (u.front ++ s) 0 u.path.length = .ok u.path := by
  rw [readRange_of_le (by rw [List.length_append, u.length_front]; omega), List.drop_zero,
    Uri.front, List.append_assoc, List.take_left]

theorem readRange_file (u : Uri) (s : Bytes) :
    readRange (u.front ++ s) (u.path.length + 1) (u.front.length - u.path.length - 1) =
      .ok u.file := by
  have hlen : u.front.length - u.path.length - 1 = u.file.length := by
    rw [u.length_front]
    omega
  rw [hlen, readRange_of_le (by rw [List.length_append, u.length_front]; omega), Uri.front,
    ← List.drop_drop, List.append_assoc, List.drop_left]
  show .ok ((u.file ++ s).take u.file.length) = Outcome.ok u.file
  rw [List.take_left]

theorem fileStart_front (u : Uri) (s : Bytes) :
    fileStart dm (u.front ++ s) u.front.length = .ok u.path.length := by
  rw [u.length_front]
  exact fileStart_eq u.file_noSlash s

/-- **What `parse_uri` reads of a URI with a query.** -/
structure ReadsUri (dm : DataModel) (u : Uri) (q data : Bytes) (dataLen : ℕ) : Prop where
  uriEnd : uriEnd dm data dataLen = u.front.length
  fileStart : fileStart dm data u.front.length = .ok u.path.length
  slash : u.path.length ≠ dm.ulongMax
  path : readRange data 0 u.path.length = .ok u.path
  file : readRange data (u.path.length + 1) (u.front.length - u.path.length - 1) = .ok u.file
  hasQuery : u.front.length ≠ dataLen
  query : (data.drop (u.front.length + 1)).take (dataLen - u.front.length - 1) = q

theorem readsUri_of_some {q : Bytes} (hq : u.query = some q)
    (hlt : u.bytes.length < 2 ^ 32 - 1) :
    ReadsUri dm u q (u.bytes ++ rest) u.bytes.length := by
  have hlen : u.bytes.length = u.front.length + 1 + q.length := by
    rw [Uri.bytes_of_some hq, List.length_append, List.length_cons]
    omega
  have hfront : u.front.length < 2 ^ 32 - 1 := by omega
  have hpath : u.path.length < 2 ^ 32 - 1 := by
    have h := u.length_front
    omega
  have hend : uriEnd dm (u.bytes ++ rest) u.bytes.length = u.front.length := by
    rw [Uri.bytes_of_some hq] at hlen ⊢
    exact uriEnd_of_query u.noQuery_front hlen hfront
  have hdata : u.bytes ++ rest = u.front ++ (63 :: (q ++ rest)) := by
    rw [Uri.bytes_of_some hq, List.append_assoc]
    rfl
  refine ⟨hend, ?_, (lt_ulongMax hpath).ne, ?_, ?_, by omega, ?_⟩
  · rw [hdata, fileStart_front]
  · rw [hdata, readRange_path]
  · rw [hdata, readRange_file]
  · rw [hdata, ← List.drop_drop, List.drop_left, hlen]
    show (q ++ rest).take _ = q
    rw [show u.front.length + 1 + q.length - u.front.length - 1 = q.length by omega,
      List.take_left]

theorem splitUri_of_some {q : Bytes} (hq : u.query = some q) (hlt : u.bytes.length < 2 ^ 32 - 1) :
    splitUri dm (u.bytes ++ rest) u.bytes.length =
      (decodeString q cMaxArgSize >>= fun sArg =>
        if sArg.length < cMaxArgSize then .ok (u.path, u.file, cstr sArg) else .undefined) := by
  have hreads : ReadsUri dm u q (u.bytes ++ rest) u.bytes.length := readsUri_of_some hq hlt
  simp only [splitUri, hreads.uriEnd, hreads.fileStart, hreads.path, hreads.file, hreads.query,
    Outcome.ok_bind, if_neg hreads.slash]
  rw [if_neg hreads.hasQuery]

theorem splitUri_of_none (hq : u.query = none) (hlt : (u.bytes ++ rest).length < 2 ^ 32 - 1) :
    splitUri dm (u.bytes ++ rest) u.bytes.length =
      if dm = .ilp32 then .ok (u.path, u.file, []) else .undefined := by
  have hlen : u.front.length < 2 ^ 32 - 1 := by
    rw [List.length_append, Uri.bytes_of_none hq] at hlt
    omega
  have hpath : u.path.length < 2 ^ 32 - 1 := by
    have h := u.length_front
    omega
  rw [Uri.bytes_of_none hq] at hlt ⊢
  have hend := uriEnd_of_noQuery dm u.noQuery_front rest
  cases dm with
  | ilp32 =>
    simp only at hend
    rw [if_pos rfl]
    simp only [splitUri, hend, fileStart_front, readRange_path, readRange_file, Outcome.ok_bind,
      if_neg (lt_ulongMax hpath).ne, if_true]
  | lp64 =>
    simp only at hend
    have hstart : fileStart .lp64 (u.front ++ rest) (2 ^ 32 - 1) = .undefined :=
      fileStart_of_lt (n := 2 ^ 32 - 2) (by omega)
    rw [if_neg (by decide)]
    simp only [splitUri, hend, hstart, Outcome.undefined_bind]

/-- The URI `/` is its own path, file and query. -/
theorem uri_root (h : u.bytes = [47]) : u.path = [] ∧ u.file = [] ∧ u.query = none := by
  have hlen := congrArg List.length h
  rw [Uri.bytes, List.length_append, u.length_front] at hlen
  cases hq : u.query with
  | none =>
    rw [hq] at hlen
    simp only [Option.elim_none, List.length_nil, List.length_singleton] at hlen
    exact ⟨List.length_eq_zero_iff.mp (by omega), List.length_eq_zero_iff.mp (by omega), rfl⟩
  | some q =>
    rw [hq] at hlen
    simp only [Option.elim_some, List.length_cons, List.length_nil] at hlen
    omega

/-- What `parse_uri` makes of a URI. -/
def Uri.parsed (dm : DataModel) (u : Uri) : Outcome (Bytes × Bytes × Bytes) :=
  match u.query with
  | some q =>
    decodeString q cMaxArgSize >>= fun sArg =>
      if sArg.length < cMaxArgSize then .ok (u.path, u.file, cstr sArg) else .undefined
  | none =>
    if dm = .ilp32 ∨ u.bytes = [47] then .ok (u.path, u.file, []) else .undefined

/-- **`parse_uri` on a URI** that a blank ends and that has none inside. -/
theorem parseUri_uri (hblank : (32 : Byte) ∉ u.bytes)
    (hlt : (u.bytes ++ 32 :: rest).length < 2 ^ 32 - 1) :
    parseUri dm (u.bytes ++ 32 :: rest) u.bytes.length = u.parsed dm := by
  have hlt' : u.bytes.length < 2 ^ 32 - 1 := by
    rw [List.length_append] at hlt
    omega
  by_cases hroot : u.bytes = [47]
  · obtain ⟨hp, hf, hq⟩ := uri_root hroot
    rw [hroot, Uri.parsed, hq, hp, hf]
    simp only [hroot, or_true, if_true]
    rfl
  · have hsplit : splitUri dm (u.bytes ++ 32 :: rest) u.bytes.length = u.parsed dm := by
      rw [Uri.parsed]
      cases hq : u.query with
      | some q => rw [splitUri_of_some hq hlt']
      | none =>
        rw [splitUri_of_none hq hlt]
        simp only [hroot, or_false]
    -- the shortcut asks for a blank behind a `/` in front, and only the URI `/` has it
    have hne : u.bytes ≠ [] := by
      rw [Uri.bytes, Uri.front]
      simp
    obtain ⟨c, s, hs⟩ := List.exists_cons_of_ne_nil hne
    rw [← hsplit, hs]
    rw [hs] at hroot hblank
    rw [parseUri, List.cons_append, readByte_zero_cons, Outcome.ok_bind]
    split
    · next hc =>
      cases s with
      | nil => exact absurd (by rw [hc]) hroot
      | cons d s =>
        have hd : d ≠ 32 := fun h0 => hblank (by rw [h0]; simp)
        show (if d = 32 then _ else _) = _
        rw [if_neg hd]
    · rfl

end UriParse

/-! ## The whole line -/

/-- A request line without its line end. -/
def requestLine (method uri : Bytes) (minor : Byte) : Bytes :=
  method ++ 32 :: (uri ++ (ascii " HTTP/1." ++ [minor]))

/-- The version constant of `HTTP/1.0` and `HTTP/1.1`. -/
def versionOfMinor (minor : Byte) : ℤ :=
  if minor = 48 then cHttpProtocolVer10 else cHttpProtocolVer11

/-- A zero behind the blank in front of the version does not hide it. -/
theorem strstr_version {uri : Bytes} (hblank : (32 : Byte) ∉ uri) (hzero : (0 : Byte) ∉ uri)
    (rest : Bytes) : strstr (uri ++ (ascii " HTTP/" ++ rest)) (ascii " HTTP/") =
      some uri.length :=
  strstr_of_not_isInfix (by decide) (by decide) (fun h => hblank (h.subset List.mem_cons_self))
    hzero rest

theorem parseVersion_eq {minor : Byte} (hminor : minor = 48 ∨ minor = 49) (rest : Bytes)
    {n : ℕ} (hn : 10 ≤ n) :
    CHttpRequestLine.parseVersion (ascii "HTTP/1." ++ minor :: CR :: LF :: rest) n =
      .ok (versionOfMinor minor) := by
  obtain ⟨k, rfl⟩ : ∃ k, n = k + 10 := ⟨n - 10, by omega⟩
  rcases hminor with rfl | rfl <;> rfl

section Line

variable {method : Bytes} {reqType : ℤ} {u : Uri} {minor : Byte}

/-- The methods have no white space, and are not empty. -/
theorem method_plain (h : reqTypeOf method = some reqType) :
    3 ≤ method.length ∧ ∀ c ∈ method, isspace c = false := by
  unfold reqTypeOf at h
  split at h
  · next hm => subst hm; decide
  · split at h
    · next hm => rcases hm with hm | hm <;> subst hm <;> decide
    · exact absurd h (by simp)

/-- The first word of a line ends at its first white space. -/
theorem getFirstWord_eq {w : Bytes} (hw : ∀ c ∈ w, isspace c = false) {c : Byte}
    (hc : isspace c = true) (s : Bytes) : getFirstWord (w ++ c :: s) = w.length := by
  have hidx : (w ++ c :: s).findIdx? isspace = some w.length := by
    rw [List.findIdx?_append, List.findIdx?_eq_none_iff.mpr hw]
    simp [List.findIdx?_cons, hc]
  rw [getFirstWord, hidx, Option.getD_some]

theorem ne_of_isspace_eq_false {c d : Byte} (hc : isspace c = false) (hd : isspace d = true) :
    c ≠ d := by
  rintro rfl
  exact absurd (hd.symm.trans hc) (by decide)

theorem LF_notMem_requestLine {uri : Bytes} (hm : ∀ c ∈ method, isspace c = false)
    (hu : ∀ c ∈ uri, isspace c = false) (hminor : minor = 48 ∨ minor = 49) :
    LF ∉ requestLine method uri minor := by
  have hne : minor ≠ LF := by rcases hminor with rfl | rfl <;> decide
  simp only [requestLine, List.mem_append, List.mem_cons, not_or]
  exact ⟨fun h => ne_of_isspace_eq_false (hm _ h) rfl rfl, by decide,
    fun h => ne_of_isspace_eq_false (hu _ h) rfl rfl, by decide, hne.symm, List.not_mem_nil⟩

variable (dm) in
/-- URI and version, read from behind the method. -/
theorem parseTarget_eq (hu : ∀ c ∈ u.bytes, isspace c = false ∧ c ≠ 0)
    (hminor : minor = 48 ∨ minor = 49) {rest : Bytes} (leftSize : ℕ)
    (hleft : u.bytes.length + 11 ≤ leftSize)
    (hlt : (u.bytes ++ (ascii " HTTP/1." ++ minor :: CR :: LF :: rest)).length < 2 ^ 32 - 1) :
    CHttpRequestLine.parseTarget dm
        (u.bytes ++ (ascii " HTTP/1." ++ minor :: CR :: LF :: rest)) leftSize =
      (u.parsed dm >>= fun uri => .ok (uri, versionOfMinor minor)) := by
  have hblank : (32 : Byte) ∉ u.bytes := fun h => absurd (hu _ h).1 (by decide)
  have hzero : (0 : Byte) ∉ u.bytes := fun h => (hu _ h).2 rfl
  have hfind := strstr_version hblank hzero (ascii "1." ++ minor :: CR :: LF :: rest)
  have hparse : parseUri dm (u.bytes ++ (ascii " HTTP/1." ++ minor :: CR :: LF :: rest))
      u.bytes.length = u.parsed dm := parseUri_uri hblank hlt
  have hdrop : (u.bytes ++ (ascii " HTTP/1." ++ minor :: CR :: LF :: rest)).drop
      (u.bytes.length + 1) = ascii "HTTP/1." ++ minor :: CR :: LF :: rest := by
    rw [← List.drop_drop, List.drop_left]
    rfl
  have hversion := parseVersion_eq hminor rest (n := leftSize - u.bytes.length) (by omega)
  rw [show ascii " HTTP/" ++ (ascii "1." ++ minor :: CR :: LF :: rest) =
    ascii " HTTP/1." ++ minor :: CR :: LF :: rest from rfl] at hfind
  simp only [CHttpRequestLine.parseTarget, hfind,
    if_neg (show ¬ u.bytes.length > leftSize by omega), hparse, hdrop, hversion, Outcome.ok_bind]

/-- **`CHttpRequestLine::infuse` on a request line**, whatever follows it. -/
theorem parseLine_requestLine (hmethod : reqTypeOf method = some reqType)
    (hu : ∀ c ∈ u.bytes, isspace c = false ∧ c ≠ 0) (hminor : minor = 48 ∨ minor = 49)
    {rest : Bytes} (rl : CHttpRequestLine)
    (hlt : (requestLine method u.bytes minor ++ CR :: LF :: rest).length < 2 ^ 32) :
    rl.parseLine dm (requestLine method u.bytes minor ++ CR :: LF :: rest) =
      (u.parsed dm >>= fun uri => .ok
        ({ full := true, line := requestLine method u.bytes minor, reqType, path := uri.1,
           file := uri.2.1, arg := uri.2.2, ver := versionOfMinor minor,
           urlArgs := splitArgs uri.2.2 rl.urlArgs },
          (requestLine method u.bytes minor).length + 2)) := by
  obtain ⟨hmlen, hm⟩ := method_plain hmethod
  generalize hl : requestLine method u.bytes minor = l at *
  have hlen : l.length = method.length + u.bytes.length + 10 := by
    rw [← hl, requestLine, List.length_append, List.length_cons, List.length_append,
      List.length_append, List.length_singleton, show (ascii " HTTP/1.").length = 8 from rfl]
    omega
  have hLF : LF ∉ l ++ [CR] := by
    rw [List.mem_append, List.mem_singleton, not_or]
    exact ⟨hl ▸ LF_notMem_requestLine hm (fun c hc => (hu c hc).1) hminor, by decide⟩
  have hget : getLine (l ++ CR :: LF :: rest) = (l.length + 2, 2) := by
    have h := getLine_line hLF rest
    rw [List.length_append, List.length_singleton, tailLen, List.getLast?_concat, if_pos rfl,
      List.append_assoc] at h
    exact h
  have hdata : l ++ CR :: LF :: rest =
      method ++ 32 :: (u.bytes ++ (ascii " HTTP/1." ++ minor :: CR :: LF :: rest)) := by
    rw [← hl, requestLine]
    simp only [List.append_assoc, List.cons_append, List.nil_append]
  have hword : getFirstWord ((l ++ CR :: LF :: rest).take (l.length + 2)) = method.length := by
    obtain ⟨s, hs⟩ : ∃ s, (l ++ CR :: LF :: rest).take (l.length + 2) = method ++ 32 :: s := by
      refine ⟨(u.bytes ++ (ascii " HTTP/1." ++ minor :: CR :: LF :: rest)).take
        (u.bytes.length + 11), ?_⟩
      rw [hdata, List.take_append, List.take_of_length_le (by omega),
        show l.length + 2 - method.length = u.bytes.length + 11 + 1 by omega, List.take_succ_cons]
    rw [hs, getFirstWord_eq hm rfl]
  have hmethod' : (l ++ CR :: LF :: rest).take method.length = method := by
    rw [hdata, List.take_left]
  have hline : (l ++ CR :: LF :: rest).take (l.length + 2 - 2) = l := by
    rw [Nat.add_sub_cancel, List.take_left]
  have hdrop : (l ++ CR :: LF :: rest).drop (method.length + 1) =
      u.bytes ++ (ascii " HTTP/1." ++ minor :: CR :: LF :: rest) := by
    rw [hdata, ← List.drop_drop, List.drop_left]
    rfl
  have hshort : (u.bytes ++ (ascii " HTTP/1." ++ minor :: CR :: LF :: rest)).length <
      2 ^ 32 - 1 := by
    rw [hdata, List.length_append, List.length_cons] at hlt
    omega
  have htarget := parseTarget_eq dm hu hminor (l.length + 2 - method.length) (by omega) hshort
  simp only [CHttpRequestLine.parseLine, hget, hword, hmethod', hmethod, hline, hdrop, htarget]
  rw [if_neg (by omega), if_neg (by omega)]
  cases u.parsed dm <;> rfl

end Line

end HttpCodec
end CModel
