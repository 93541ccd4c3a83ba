import CModel.HttpCodec.ReqRun
import CModel.HttpCodec.RequestLine

/-!
# Well-formed requests

`Request` is a request as the protocol writes it, with all that makes it well formed as fields.

* `Request.bytes`: its text.
* `Request.Taken`: what the parser should hold when it has taken the request.
* `Request.framed`: **a request is the head of a message that is accepted**, where `parse_uri` gets
  by without the `?`.
* `Request.taken_iff`: **every cutting of a request is taken**, if and only if it is shorter than
  `2 ^ 32` bytes and, where a `long` has 64 bits, its URI has a `?` or is `/`.
-/

namespace CModel
namespace HttpCodec

open CHttpReq

/-- A header line `Name: value`. -/
structure HeaderField where
  name : Bytes
  value : Bytes
  name_ne : name ≠ []
  name_plain : ∀ c ∈ name, c ≠ 58 ∧ c ≠ CR ∧ c ≠ LF ∧ c ≠ 0
  value_plain : ∀ c ∈ value, c ≠ CR ∧ c ≠ LF ∧ c ≠ 0

namespace HeaderField

/-- The line with its carriage return and without its line feed. -/
def line (f : HeaderField) : Bytes := f.name ++ 58 :: 32 :: f.value ++ [CR]

/-- What the line puts under a name in upper case. -/
def entry (name : Bytes) (f : HeaderField) : Option Bytes :=
  if f.name.map toupper = name then some (32 :: f.value) else none

theorem LF_notMem_line (f : HeaderField) : LF ∉ f.line := by
  simp only [line, List.mem_append, List.mem_cons, List.not_mem_nil, or_false, not_or]
  exact ⟨⟨fun h => (f.name_plain _ h).2.2.1 rfl, by decide, by decide,
    fun h => (f.value_plain _ h).2.1 rfl⟩, by decide⟩

theorem headLine_line (f : HeaderField) : headLine f.line = .attr f.name (32 :: f.value) :=
  headLine_field f.name_ne fun h => (f.name_plain _ h).1 rfl

/-- A name without a zero is its own C string in upper case. -/
theorem cstr_name (f : HeaderField) : cstr (f.name.map toupper) = f.name.map toupper :=
  cstr_map_toupper fun h => (f.name_plain _ h).2.2.2 rfl

theorem lineEntry_line (name : Bytes) (f : HeaderField) :
    lineEntry name f.line = f.entry name := by
  rw [lineEntry, f.headLine_line, entry]
  simp only [f.cstr_name]

end HeaderField

/-- The text behind the colon of the last line with a name, given in upper case. -/
def lookup (fields : List HeaderField) (name : Bytes) : Option Bytes :=
  fields.reverse.findSome? (HeaderField.entry name)

/-- The map of the header after the lines sends each name to the text of its last line. -/
theorem getElem?_setLines_fields (fields : List HeaderField) (name : Bytes) :
    (({} : CHttpHeader).setLines (fields.map HeaderField.line)).headAttribute[name]? =
      lookup fields name := by
  have hempty : ({} : CHttpHeader).headAttribute[name]? = none :=
    Std.ExtTreeMap.getElem?_empty
  rw [getElem?_setLines, hempty, Option.or_none, ← List.map_reverse, List.findSome?_map, lookup]
  congr 1
  funext f
  exact f.lineEntry_line name

/-- `n` is the number of the last `Content-Length` line, `0` where there is none. -/
def IsContentLength (fields : List HeaderField) (n : ℕ) : Prop :=
  match lookup fields (ascii "CONTENT-LENGTH") with
  | none => n = 0
  | some text => ∃ ds, text = 32 :: ds ∧ ds ≠ [] ∧ (∀ c ∈ ds, isdigit c = true) ∧
      digitsValue ds = n ∧ n < 2 ^ 31

/-- The length that `input` reads from the header. -/
theorem contLen_fields {fields : List HeaderField} {n : ℕ} (h : IsContentLength fields n) :
    contLen (({} : CHttpHeader).setLines (fields.map HeaderField.line)) = .ok n := by
  have hget := getElem?_setLines_fields fields (ascii "CONTENT-LENGTH")
  unfold IsContentLength at h
  rw [contLen, CHttpHeader.get, StdMap.get, hget]
  cases htext : lookup fields (ascii "CONTENT-LENGTH") with
  | none =>
    rw [htext] at h
    simp only [Option.getD_none, if_true, h]
  | some text =>
    rw [htext] at h
    obtain ⟨ds, rfl, hne, hds, hvalue, hn⟩ := h
    have hread : istreamUnsigned ([32] ++ (ds ++ [])) = some (digitsValue ds) :=
      istreamUnsigned_of_digits (by decide) hds hne (by simp) (by omega)
    rw [List.append_nil, List.singleton_append] at hread
    rw [Option.getD_some]
    show (if 32 :: ds = [] then _ else fromStrUnsigned (32 :: ds)) = _
    rw [if_neg (List.cons_ne_nil _ _), fromStrUnsigned, hread, hvalue]

/-- A well-formed request. -/
structure Request where
  method : Bytes
  uri : Uri
  minor : Byte
  fields : List HeaderField
  body : Bytes
  method_eq : method = ascii "GET" ∨ method = ascii "POST" ∨ method = ascii "QQPOST"
  uri_slash : uri.bytes.head? = some 47
  uri_plain : ∀ c ∈ uri.bytes, isspace c = false ∧ c ≠ 0 ∧ c ≠ 37
  arg_length : uri.arg.length ≤ 1023
  minor_eq : minor = 48 ∨ minor = 49
  fields_length : fields.length ≤ 8191
  body_length : IsContentLength fields body.length

theorem method_get : ascii "GET" = ascii "GET" ∨ ascii "GET" = ascii "POST" ∨
    ascii "GET" = ascii "QQPOST" := Or.inl rfl

namespace Request

variable (M : Request)

/-- The text of a request. -/
def bytes : Bytes :=
  requestLine M.method M.uri.bytes M.minor ++ CR :: LF ::
    (unlines (M.fields.map HeaderField.line) ++ CR :: LF :: M.body)

/-- The parser has taken the request. -/
structure Taken (s : Heap Byte × CHttpReq) : Prop where
  parsedLen : s.2.parsedLen = M.bytes.length
  buffer : ∃ b, s.2.buf = some b ∧ s.1.read ⟨b, 0⟩ s.2.dataLen = some M.bytes
  path : s.2.reqLine.path = M.uri.path
  file : s.2.reqLine.file = M.uri.file
  arg : s.2.reqLine.arg = M.uri.arg
  header : ∀ name, s.2.header.headAttribute[name]? = lookup M.fields name
  infusedLength : s.2.body.infusedLength = M.body.length
  contentLength : s.2.body.contentLength = M.body.length

/-- Every cutting into chunks is taken: each call returns `0`, the last one and no other completes
the object, and the object then holds the request. -/
def TakenInChunks (dm : DataModel) : Prop :=
  ∀ cs : List Bytes, [] ∉ cs → cs.flatten = M.bytes →
    ∀ k ≤ cs.length, ∃ s, feed (CHttpReq.input dm) CHttpReq.fresh (cs.take k) = some (0, s) ∧
      (s.2.inited = true ↔ k = cs.length) ∧ (k = cs.length → M.Taken s)

/-! ## Where the URI is read -/

/-- `parse_uri` stays inside of the buffer. -/
def UriInside (dm : DataModel) : Prop :=
  dm = .ilp32 ∨ M.uri.bytes = [47] ∨ (63 : Byte) ∈ M.uri.bytes

theorem query_isSome_iff (u : Uri) : (63 : Byte) ∈ u.bytes ↔ ∃ q, u.query = some q := by
  cases hq : u.query with
  | none => simp [Uri.bytes_of_none hq, u.noQuery_front]
  | some q => simp [Uri.bytes_of_some hq]

theorem parsed_of_inside {dm : DataModel} (h : M.UriInside dm) :
    M.uri.parsed dm = .ok (M.uri.path, M.uri.file, M.uri.arg) := by
  rw [Uri.parsed]
  cases hq : M.uri.query with
  | none =>
    have hno : ¬ (63 : Byte) ∈ M.uri.bytes := by
      rw [query_isSome_iff, hq]
      simp
    rw [Uri.arg, hq]
    simp only [Option.getD_none]
    exact if_pos (h.imp id fun h => h.resolve_right hno)
  | some q =>
    have harg := M.arg_length
    rw [Uri.arg, hq] at harg
    simp only [Option.getD_some] at harg
    have hmem : ∀ c ∈ q, c ∈ M.uri.bytes := fun c hc => by
      rw [Uri.bytes_of_some hq]
      exact List.mem_append_right _ (List.mem_cons_of_mem _ hc)
    have hdecode : decodeString q cMaxArgSize = .ok q :=
      decodeString_plain (fun h0 => (M.uri_plain _ (hmem _ h0)).2.2 rfl)
        (harg.trans (by decide))
    have hcstr : cstr q = q := cstr_eq_self fun h0 => (M.uri_plain _ (hmem _ h0)).2.1 rfl
    have hlt : q.length < cMaxArgSize := Nat.lt_of_le_of_lt harg (by decide)
    simp only [hdecode, Outcome.ok_bind, if_pos hlt, hcstr, Uri.arg, hq, Option.getD_some]

theorem parsed_of_not_inside {dm : DataModel} (h : ¬ M.UriInside dm) :
    M.uri.parsed dm = .undefined := by
  rw [UriInside, query_isSome_iff, not_or, not_or] at h
  rw [Uri.parsed]
  cases hq : M.uri.query with
  | none => exact if_neg (not_or.mpr ⟨h.1, h.2.1⟩)
  | some q => exact absurd ⟨q, hq⟩ h.2.2

/-! ## The head of a request -/

/-- The request type of the method. -/
def reqType : ℤ := if M.method = ascii "GET" then cHttpReqTypeGet else cHttpReqTypePost

theorem reqTypeOf_method : reqTypeOf M.method = some M.reqType := by
  rw [reqType]
  rcases M.method_eq with h | h | h <;> rw [h] <;> rfl

theorem bytes_eq (rest : Bytes) :
    requestLine M.method M.uri.bytes M.minor ++ CR :: rest =
      requestLine M.method M.uri.bytes M.minor ++ [CR] ++ rest := by
  rw [List.append_assoc, List.singleton_append]

/-- **A request is the head of a message that is accepted, and a body.** -/
def framed {dm : DataModel} (h : M.UriInside dm) : Framed dm where
  line := requestLine M.method M.uri.bytes M.minor ++ [CR]
  fields := M.fields.map HeaderField.line
  blank := [CR]
  reqLine :=
    { full := true, line := requestLine M.method M.uri.bytes M.minor, reqType := M.reqType,
      path := M.uri.path, file := M.uri.file, arg := M.uri.arg, ver := versionOfMinor M.minor,
      urlArgs := splitArgs M.uri.arg ∅ }
  length := M.body.length
  line_noLF := by
    rw [List.mem_append, List.mem_singleton, not_or]
    exact ⟨LF_notMem_requestLine (method_plain M.reqTypeOf_method).2
      (fun c hc => (M.uri_plain c hc).1) M.minor_eq, by decide⟩
  fields_noLF := by
    intro l hl
    obtain ⟨f, -, rfl⟩ := List.mem_map.mp hl
    exact f.LF_notMem_line
  fields_attr := by
    intro l hl
    obtain ⟨f, -, rfl⟩ := List.mem_map.mp hl
    exact ⟨_, _, f.headLine_line⟩
  fields_length := by
    rw [List.length_map]
    exact Nat.lt_of_le_of_lt M.fields_length (by decide)
  blank_noLF := LF_notMem_CR
  blank_text := lineText_CR
  parseLine_eq := by
    intro rest hlt
    rw [← bytes_eq] at hlt ⊢
    rw [parseLine_requestLine M.reqTypeOf_method
      (fun c hc => ⟨(M.uri_plain c hc).1, (M.uri_plain c hc).2.1⟩) M.minor_eq {} hlt,
      M.parsed_of_inside h, Outcome.ok_bind, List.length_append, List.length_singleton]
  contLen_eq := contLen_fields M.body_length

theorem head_append_body {dm : DataModel} (h : M.UriInside dm) :
    (M.framed h).head ++ M.body = M.bytes := by
  rw [Framed.head, bytes]
  simp only [framed, unlines_append, unlines_cons, unlines_nil, List.append_assoc,
    List.cons_append, List.nil_append]

theorem length_head_add {dm : DataModel} (h : M.UriInside dm) :
    (M.framed h).head.length + M.body.length = M.bytes.length := by
  rw [← M.head_append_body h, List.length_append]

/-- What the object holds when all bytes have been fed. -/
theorem taken_of_after {dm : DataModel} (h : M.UriInside dm) {s : Heap Byte × CHttpReq}
    (hs : (M.framed h).After M.bytes s) : M.Taken s := by
  obtain ⟨hown, hphase⟩ := hs
  have hlen := M.length_head_add h
  rw [← M.head_append_body h] at hphase
  have hin := Framed.inBody_of_phase hphase
  have hmin : min (M.framed h).length M.body.length = M.body.length := Nat.min_self _
  obtain ⟨b, hb, hblock⟩ := hown.block (fun h0 => by
    rw [h0, List.length_nil, Framed.length_head] at hlen
    omega)
  refine ⟨?_, ⟨b, hb, ?_⟩, ?_, ?_, ?_, ?_, ?_, hin.contentLength⟩
  · rw [hin.parsedLen, hmin, hlen]
  · rw [Heap.read_of_some (l := M.bytes) hblock (by rw [hown.dataLen, Nat.zero_add]),
      hown.dataLen, List.drop_zero, List.take_length]
  · rw [hin.reqLine]
    rfl
  · rw [hin.reqLine]
    rfl
  · rw [hin.reqLine]
    rfl
  · intro name
    rw [hin.header]
    exact getElem?_setLines_fields M.fields name
  · rw [hin.infusedLength, hmin]

/-! ## Every cutting of a request -/

theorem bytes_ne_nil : M.bytes ≠ [] := by
  rw [bytes]
  simp

/-- A request that is fed in one piece and gives no state is not taken. -/
theorem not_takenInChunks {dm : DataModel}
    (h : CHttpReq.input dm CHttpReq.fresh M.bytes = none) : ¬ M.TakenInChunks dm := by
  intro htaken
  obtain ⟨s, hs, -⟩ := htaken [M.bytes] (by simp [M.bytes_ne_nil.symm]) (by simp) 1 (by simp)
  rw [List.take_succ_cons, feed_cons_of_none _ h] at hs
  exact absurd hs (by simp)

/-- A URI that is read outside of the buffer ends the first call that has the whole line. -/
theorem input_eq_none {dm : DataModel} (h : ¬ M.UriInside dm) (hlt : M.bytes.length < 2 ^ 32) :
    CHttpReq.input dm CHttpReq.fresh M.bytes = none := by
  have hline : CHttpRequestLine.parseLine dm {} M.bytes = .undefined := by
    rw [bytes] at hlt ⊢
    rw [parseLine_requestLine M.reqTypeOf_method
      (fun c hc => ⟨(M.uri_plain c hc).1, (M.uri_plain c hc).2.1⟩) M.minor_eq {} hlt,
      M.parsed_of_not_inside h, Outcome.undefined_bind]
  obtain ⟨h', b, -, hnone, -⟩ := input_of_lt (c := M.bytes) dm owns_fresh hlt
  exact hnone (parse_idle_of_undefined (idle_fresh.withBuffer b _) hline)

/-- **Every cutting of a well-formed request into non-empty chunks is taken** if and only if the
request is shorter than `2 ^ 32` bytes and `parse_uri` finds a `?` in its URI or does not need
one: it needs none for the URI `/`, or where `ULONG_MAX` fits an `unsigned`. -/
theorem takenInChunks_iff (dm : DataModel) :
    M.TakenInChunks dm ↔ M.bytes.length < 2 ^ 32 ∧ M.UriInside dm := by
  constructor
  · intro htaken
    have hlt : M.bytes.length < 2 ^ 32 := by
      by_contra hle
      exact M.not_takenInChunks (input_of_le dm owns_fresh (not_lt.mp hle)) htaken
    refine ⟨hlt, ?_⟩
    by_contra h
    exact M.not_takenInChunks (M.input_eq_none h hlt) htaken
  · rintro ⟨hlt, h⟩ cs hcs hflat k hk
    have hM : (M.framed h).Fits M.bytes := Or.inr ⟨M.body, M.head_append_body h⟩
    have hpre : (cs.take k).flatten <+: M.bytes := by
      rw [← hflat]
      exact (List.take_prefix k cs).flatten
    obtain ⟨s, hfeed, hafter⟩ := Framed.feed_phase hM hlt
      (fun h0 => hcs (List.mem_of_mem_take h0)) hpre
    have hinited := Framed.inited_eq hafter.2 ((M.framed h).fits_of_isPrefix hM hpre)
    refine ⟨s, hfeed, ?_, ?_⟩
    · rw [hinited, decide_eq_true_iff]
      show (M.framed h).head.length + M.body.length ≤ _ ↔ _
      rw [M.length_head_add h]
      constructor
      · intro hle
        by_contra hne
        have hshort := length_flatten_take_lt hcs (show k < cs.length by omega)
        rw [hflat] at hshort
        omega
      · rintro rfl
        rw [List.take_length, hflat]
    · intro hkn
      subst hkn
      rw [List.take_length, hflat] at hafter
      exact M.taken_of_after h hafter

/-! ## A request that is not taken -/

/-- `GET /a HTTP/1.0` without a header. -/
def getA : Request where
  method := ascii "GET"
  uri := ⟨[], ascii "a", none, query_notMem_nil, by decide, by decide⟩
  minor := 48
  fields := []
  body := []
  method_eq := method_get
  uri_slash := rfl
  uri_plain := by decide
  arg_length := by decide
  minor_eq := minor_zero
  fields_length := by decide
  body_length := rfl

/-- Fed in one piece, `GET /a HTTP/1.0` makes `parse_uri` read outside of the buffer. -/
theorem getA_not_takenInChunks : ¬ getA.TakenInChunks .lp64 :=
  getA.not_takenInChunks (by decide)

end Request

end HttpCodec
end CModel
