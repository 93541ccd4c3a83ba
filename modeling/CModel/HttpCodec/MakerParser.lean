import CModel.HttpCodec.UtilHead
import CModel.HttpCodec.UtilParams

/-!
# The maker of requests and the parser

`CHttpMaker` writes a request with parameters in two ways, and `CHttpParser` reads both.

* `ClientRequest`: what a client hands to the maker.
* `getRequest`, `postRequest`: the two requests, `getMakeString_eq`, `postMakeString_eq`.
* `parseField_eq`, `parseFirstLine_get`, `parseFirstLine_post`: the parser on a request.
* `parseHead_get`, `parseHead_post`: **the parser reads what the maker wrote.**
* `makerAgrees_iff`: **when it does**: if the URI does not start with `HTTP`, which hides the blank
  in front of the version, and does not end with `Content-Length:`, which hides the header line.
-/

namespace CModel
namespace HttpCodec

/-! ## The two requests -/

/-- The first line of a request, its method and its target. -/
def firstLineOf (method target : Bytes) : Bytes := method ++ 32 :: (target ++ ascii " HTTP/1.1")

/-- A request with a first line, header lines and a body. -/
def requestText (first : Bytes) (fs : List (Bytes × Bytes)) (body : Bytes) : Bytes :=
  first ++ CR :: LF :: (headLines fs ++ CR :: LF :: body)

/-- The header of a `GET` request. -/
def getFields (host : Bytes) (port : ℕ) : List (Bytes × Bytes) :=
  [(ascii "Host", host ++ CHttpParamStringMaker.portText port),
    (ascii "Connection", ascii "Keep-Alive"), (ascii "Accept", ascii "*/*"),
    (ascii "User-Agent", ascii "http_util")]

/-- The header of a `POST` request with `n` bytes of parameters. -/
def postFields (host : Bytes) (port n : ℕ) : List (Bytes × Bytes) :=
  [(ascii "Host", host ++ CHttpParamStringMaker.portText port),
    (ascii "Content-type", ascii "application/x-www-form-urlencoded; charset=UTF-8"),
    (ascii "Content-Length", decimal n), (ascii "Connection", ascii "Keep-Alive")]

/-- The `GET` request carries its parameters behind the `?` of the URI. -/
def getRequest (host : Bytes) (port : ℕ) (uri : Bytes) (params : List (Bytes × Bytes)) : Bytes :=
  requestText (firstLineOf (ascii "GET") (uri ++ 63 :: joinArgs params)) (getFields host port) []

/-- The `POST` request carries its parameters in the body. -/
def postRequest (host : Bytes) (port : ℕ) (uri : Bytes) (params : List (Bytes × Bytes)) : Bytes :=
  requestText (firstLineOf (ascii "POST") uri) (postFields host port (joinArgs params).length)
    (joinArgs params)

/-- What a client hands to the maker. -/
structure ClientRequest where
  host : Bytes
  port : ℕ
  uri : Bytes
  params : List (Bytes × Bytes)
  port_lt : port < 2 ^ 16
  host_plain : IsPlain [63] host
  uri_plain : IsPlain [63] uri
  uri_ne : uri ≠ []
  params_ne : params ≠ []
  params_ok : ∀ p ∈ params, IsParam p

/-! ## The parser on a text of this form -/

/-- **`parseField`** takes the first line and the header lines, and finds the body. -/
theorem parseField_eq (o : CHttpParser) {first : Bytes} (hcr : CR ∉ first)
    (hzero : (0 : Byte) ∉ first) {fs : List (Bytes × Bytes)} (hfs : ∀ f ∈ fs, IsHeadField f)
    (body : Bytes) : o.parseField (requestText first fs body ++ [0])
        (requestText first fs body).length =
      .ok (true, { o with
        szFirstLine := strncpy first 4095
        mapFields := fs.foldl (fun m f => m.insertIfNew f.1 f.2) o.mapFields
        pszContent := if body = [] then o.pszContent else some (body ++ [0]) }) := by
  have hmem : requestText first fs body ++ [0] =
      first ++ CR :: LF :: (headLines fs ++ CR :: LF :: (body ++ [0])) := by
    rw [requestText]
    simp only [List.append_assoc, List.cons_append]
  have hlen : ((requestText first fs body).length : ℤ) =
      first.length + 2 + ((2 + body.length : ℕ) + (headLines fs).length) := by
    rw [requestText]
    simp only [List.length_append, List.length_cons]
    omega
  have htake : (first ++ CR :: LF :: (headLines fs ++ CR :: LF :: (body ++ [0]))).take
      first.length = first := List.take_left
  have hdrop : (first ++ CR :: LF :: (headLines fs ++ CR :: LF :: (body ++ [0]))).drop
      (first.length + 2) = headLines fs ++ CR :: LF :: (body ++ [0]) := by
    rw [← List.drop_drop, List.drop_left]
    rfl
  have hleft : ((requestText first fs body).length : ℤ) - (first.length + 2) =
      (2 + body.length : ℕ) + (headLines fs).length := by omega
  rw [hmem, CHttpParser.parseField, strstr_crlf hcr hzero]
  simp only [htake, hdrop, hleft, fieldLoop_headLines hfs (Int.natCast_nonneg _), fieldLoop_blank,
    Outcome.ok_bind]
  cases body with
  | nil => rfl
  | cons c body =>
    rw [if_pos (by simp only [List.length_cons]; omega), if_neg (List.cons_ne_nil c body)]
    rfl

/-- What `parseField` sets and what it leaves alone. -/
theorem exists_parseField (o : CHttpParser) {first : Bytes} (hcr : CR ∉ first)
    (hzero : (0 : Byte) ∉ first) {fs : List (Bytes × Bytes)} (hfs : ∀ f ∈ fs, IsHeadField f)
    (body : Bytes) : ∃ o₁, o.parseField (requestText first fs body ++ [0])
        (requestText first fs body).length = .ok (true, o₁) ∧
      o₁.szFirstLine = strncpy first 4095 ∧
      o₁.pszContent = (if body = [] then o.pszContent else some (body ++ [0])) ∧
      o₁.pszActParam = o.pszActParam ∧ o₁.paramParser = o.paramParser ∧
      o₁.nExtraParamType = o.nExtraParamType ∧ o₁.nContentLen = o.nContentLen :=
  ⟨_, parseField_eq o hcr hzero hfs body, rfl, rfl, rfl, rfl, rfl, rfl⟩

/-! ## The length of a text of this form -/

/-- The end of the head. -/
theorem strstr_requestText {first : Bytes} (hfirst : LF ∉ first) (hne : first ≠ [])
    {fs : List (Bytes × Bytes)} (hfs : ∀ f ∈ fs, IsHeadField f) (hfs' : fs ≠ []) {body : Bytes}
    (hzero : (0 : Byte) ∉ requestText first fs body) :
    strstr (requestText first fs body ++ [0]) (ascii "\r\n\r\n") =
      some (first.length + (headLines fs).length) := by
  rw [strstr_append_zero hzero]
  exact findCrlf_headLines hfirst hne hfs hfs' body

/-- The number behind the first `Content-Length: `. -/
theorem contentLengthOf_eq (dm : DataModel) {R x r : Bytes} (hzero : (0 : Byte) ∉ R)
    (h : behind (ascii "Content-Length: ") R = some (x ++ CR :: LF :: r)) (hcr : CR ∉ x)
    (hlt : x.length < 30) (headEnd : ℕ) :
    contentLengthOf dm (R ++ [0]) headEnd = .ok (int32 (headEnd + 4), atoi dm x) := by
  obtain ⟨k, hk, hdrop⟩ := Option.map_eq_some_iff.mp h
  have hle : k + 16 ≤ R.length := findBy_add_length_le hk
  have hfind : strstr (R ++ [0]) (ascii "Content-Length: ") = some k := by
    rw [strstr_append_zero hzero, hk]
  have hbehind : (R ++ [0]).drop (k + 16) = x ++ CR :: LF :: (r ++ [0]) := by
    rw [List.drop_append_of_le_length hle]
    show R.drop (k + 16) ++ [0] = _
    rw [show R.drop (k + 16) = x ++ CR :: LF :: r from hdrop, List.append_assoc]
    rfl
  have hx : (0 : Byte) ∉ x := fun h0 =>
    hzero (List.mem_of_mem_drop (hdrop ▸ List.mem_append_left _ h0))
  have htake : (x ++ CR :: LF :: (r ++ [0])).take x.length = x := List.take_left
  rw [contentLengthOf, hfind]
  simp only [hbehind, strstr_crlf hcr hx, if_neg (not_le.mpr hlt), htake]

/-- The length of a `GET` request. -/
theorem getLengthEx_get (dm : DataModel) {t : Bytes} {R : Bytes} (hR : R = ascii "GET " ++ t)
    {e : ℕ} (he : strstr (R ++ [0]) (ascii "\r\n\r\n") = some e) (hlen : R.length = e + 4)
    (hlt : R.length < 4096) :
    getLengthEx dm (R ++ [0]) R.length = .ok ((R.length : ℤ), some (0, 0)) := by
  have hmem : memcmpEq (R ++ [0]) (ascii "GET ") = .ok true := by
    rw [hR, List.append_assoc, memcmpEq_append le_rfl]
    rfl
  have hhead : int32 ((e : ℤ) + 4) = R.length := by
    rw [int32_of_mem (by omega) (by omega)]
    omega
  simp only [getLengthEx, hmem, Outcome.ok_bind, if_true, Bool.true_or, Bool.or_self, Bool.not_true,
    Bool.false_eq_true, if_false, he, hhead, add_zero]
  rw [if_neg (by omega), if_neg (by omega)]

/-- The length of a `POST` request. -/
theorem getLengthEx_post (dm : DataModel) {t : Bytes} {R : Bytes} (hR : R = ascii "POST " ++ t)
    {e : ℕ} (he : strstr (R ++ [0]) (ascii "\r\n\r\n") = some e) {n : ℕ}
    (hcontent : contentLengthOf dm (R ++ [0]) e = .ok (int32 (e + 4), (n : ℤ)))
    (hle : e + 4 + n ≤ R.length) (hlt : R.length < 4096) :
    getLengthEx dm (R ++ [0]) R.length =
      .ok (((e + 4 + n : ℕ) : ℤ), some (int32 (e + 4), (n : ℤ))) := by
  have hget : memcmpEq (R ++ [0]) (ascii "GET ") = .ok false := by
    rw [hR, List.append_assoc, memcmpEq_append (by decide)]
    rfl
  have hpost : memcmpEq (R ++ [0]) (ascii "POST ") = .ok true := by
    rw [hR, List.append_assoc, memcmpEq_append le_rfl]
    rfl
  have hhead : int32 ((e : ℤ) + 4) = e + 4 := int32_of_mem (by omega) (by omega)
  simp only [getLengthEx, hget, hpost, Outcome.ok_bind, if_true, Bool.or_true, Bool.true_or,
    Bool.not_true, Bool.false_eq_true, if_false, he, hcontent, hhead]
  rw [if_neg (by omega), if_neg (by omega)]
  push_cast
  rfl

/-- `parse_head` returns the length or `-1`. -/
theorem ret_of_parseHead {dm : DataModel} {o o' : CHttpParser} {mem : Bytes} {n total ret : ℤ}
    {c : Option (ℤ × ℤ)} {type : HttpParamType} (hlen : getLengthEx dm mem n = .ok (total, c))
    (h : o.parseHead dm mem n type = .ok (ret, o')) : ret = total ∨ ret = -1 := by
  rw [CHttpParser.parseHead, hlen, Outcome.ok_bind] at h
  simp only at h
  split at h
  · rw [Outcome.ok.injEq, Prod.mk.injEq] at h
    exact Or.inl h.1.symm
  · obtain ⟨⟨ok, o₁⟩, -, h⟩ := Outcome.bind_eq_ok.mp h
    simp only at h
    split at h
    · rw [Outcome.ok.injEq, Prod.mk.injEq] at h
      exact Or.inr h.1.symm
    · obtain ⟨⟨ok, o₂⟩, -, h⟩ := Outcome.bind_eq_ok.mp h
      simp only at h
      split at h
      · rw [Outcome.ok.injEq, Prod.mk.injEq] at h
        exact Or.inr h.1.symm
      · obtain ⟨o₃, -, h⟩ := Outcome.bind_eq_ok.mp h
        rw [Outcome.ok.injEq, Prod.mk.injEq] at h
        exact Or.inl h.1.symm

/-- `parse_head` in the case that all its steps succeed. -/
theorem parseHead_of {dm : DataModel} {o o₁ o₂ o₃ : CHttpParser} {mem : Bytes} {n total pos len : ℤ}
    (hlen : getLengthEx dm mem n = .ok (total, some (pos, len))) (hpos : 0 < total)
    (hfield : CHttpParser.parseField { o with nExtraParamType := .all, nContentLen := len } mem
      total = .ok (true, o₁))
    (hline : o₁.parseFirstLine = .ok (true, o₂)) (hact : o₂.parseActParam = .ok o₃) :
    o.parseHead dm mem n .all = .ok (total, o₃) := by
  rw [CHttpParser.parseHead, hlen, Outcome.ok_bind]
  simp only [Option.map_some, Option.getD_some, if_neg (not_le.mpr hpos), hfield, hline, hact,
    Outcome.ok_bind, Bool.not_true, Bool.false_eq_true, if_false]

/-! ## The first line of a text of this form -/

section FirstLine

variable {o : CHttpParser} {target z : Bytes}

theorem firstLine_facts {w : Bytes} (hw : (0 : Byte) ∉ w ∧ 3 ≤ w.length)
    (ht : (0 : Byte) ∉ target) (hline : o.szFirstLine = lineMem w target z) :
    0 ∈ o.szFirstLine ∧ ¬ (cstr o.szFirstLine).length < 10 := by
  have hmem : o.szFirstLine = firstLineOf w target ++ 0 :: z := by
    rw [hline, lineMem, firstLineOf]
    simp only [List.append_assoc, List.cons_append]
  have hzero : (0 : Byte) ∉ firstLineOf w target := by
    simp only [firstLineOf, List.mem_append, List.mem_cons, not_or]
    exact ⟨hw.1, by decide, ht, by decide⟩
  have hlen : (firstLineOf w target).length = w.length + target.length + 10 := by
    rw [firstLineOf, List.length_append, List.length_cons, List.length_append,
      show (ascii " HTTP/1.1").length = 9 from rfl]
    omega
  rw [hmem, cstr_append_zero hzero, hlen]
  exact ⟨by simp, by omega⟩

/-- **The first line of a `GET` request.** -/
theorem parseFirstLine_get (hline : o.szFirstLine = lineMem (ascii "GET") target z)
    (ht : (32 : Byte) ∉ target ∧ (0 : Byte) ∉ target) :
    o.parseFirstLine = .ok (CHttpParser.splitTarget
      { o with szFirstLine := cutLine (ascii "GET") target z, nHttpMethod := .get } 4) := by
  obtain ⟨hzero, hlong⟩ := firstLine_facts (by decide) ht.2 hline
  have hmethod : o.parseMethod (ascii "GET ") .get = .ok (true, { o with
      szFirstLine := cutLine (ascii "GET") target z, nHttpMethod := .get }) :=
    parseMethod_eq hline (by decide) ht .get
  rw [CHttpParser.parseFirstLine, if_neg (not_not.mpr hzero), if_neg hlong, hmethod,
    Outcome.ok_bind]
  rfl

/-- **The first line of a `POST` request.** -/
theorem parseFirstLine_post (hline : o.szFirstLine = lineMem (ascii "POST") target z)
    (ht : (32 : Byte) ∉ target ∧ (0 : Byte) ∉ target) :
    o.parseFirstLine = .ok (CHttpParser.splitTarget
      { o with szFirstLine := cutLine (ascii "POST") target z, nHttpMethod := .post } 5) := by
  obtain ⟨hzero, hlong⟩ := firstLine_facts (by decide) ht.2 hline
  have hget : o.parseMethod (ascii "GET ") .get = .ok (false, o) := by
    have hmem : memcmpEq (lineMem (ascii "POST") target z) (ascii "GET ") = .ok false := by
      rw [lineMem, memcmpEq_append (by decide)]
      rfl
    rw [CHttpParser.parseMethod, hline, hmem, Outcome.ok_bind]
    rfl
  have hmethod : o.parseMethod (ascii "POST ") .post = .ok (true, { o with
      szFirstLine := cutLine (ascii "POST") target z, nHttpMethod := .post }) :=
    parseMethod_eq hline (by decide) ht .post
  rw [CHttpParser.parseFirstLine, if_neg (not_not.mpr hzero), if_neg hlong, hget,
    Outcome.ok_bind]
  simp only [Bool.false_eq_true, if_false, hmethod, Outcome.ok_bind, if_true]

end FirstLine

/-- A target without a `?` is the URI. -/
theorem splitTarget_of_notMem {o : CHttpParser} {a s z : Bytes}
    (hline : o.szFirstLine = a ++ (s ++ 0 :: z)) (hzero : (0 : Byte) ∉ s) (hq : (63 : Byte) ∉ s)
    (hm : o.nHttpMethod ≠ .none) :
    o.splitTarget a.length = (true, { o with pszUri := some a.length }) := by
  have hfind : strchr (o.szFirstLine.drop a.length) 63 = none := by
    rw [hline, List.drop_left, strchr, cstr_append_zero hzero, findChar_eq_none_iff.mpr hq]
  rw [CHttpParser.splitTarget, if_neg hm, hfind]

/-- A target with a `?` is cut there. -/
theorem splitTarget_append {o : CHttpParser} {a s q z : Bytes}
    (hline : o.szFirstLine = a ++ (s ++ 63 :: (q ++ 0 :: z))) (hzero : (0 : Byte) ∉ s)
    (hq : (63 : Byte) ∉ s) (hm : o.nHttpMethod ≠ .none) :
    o.splitTarget a.length = (true, { o with
      szFirstLine := a ++ (s ++ 0 :: (q ++ 0 :: z))
      pszActParam := some (a.length + s.length + 1)
      pszUri := some a.length }) := by
  have hfind : strchr (o.szFirstLine.drop a.length) 63 = some s.length := by
    rw [hline, List.drop_left, strchr, cstr_append hzero, cstr_cons (by decide),
      findChar_append hq]
  have hset : o.szFirstLine.set (a.length + s.length) 0 = a ++ (s ++ 0 :: (q ++ 0 :: z)) := by
    have h := set_append_cons (a ++ s) (q ++ 0 :: z) 63 0
    rw [List.length_append, List.append_assoc, List.append_assoc] at h
    rw [hline, h]
  rw [CHttpParser.splitTarget, if_neg hm, hfind]
  simp only [hset]

/-- The URI in memory. -/
theorem getUri_eq {o : CHttpParser} {a s z : Bytes} (hline : o.szFirstLine = a ++ (s ++ 0 :: z))
    (hzero : (0 : Byte) ∉ s) (huri : o.pszUri = some a.length) : o.getUri = s := by
  rw [CHttpParser.getUri, huri]
  show cstr (o.szFirstLine.drop a.length) = s
  rw [hline, List.drop_left, cstr_append_zero hzero]

/-- The parameters in the first line. -/
theorem parseActParam_eq {o : CHttpParser} {a s z : Bytes}
    (hline : o.szFirstLine = a ++ (s ++ 0 :: z)) (hzero : (0 : Byte) ∉ s)
    (hact : o.pszActParam = some a.length) (htype : o.nExtraParamType = .all)
    {paramParser : CHttpParamParser} (hparse : o.paramParser.parse s s.length = .ok paramParser) :
    o.parseActParam = .ok { o with paramParser } := by
  have htext : cstr (o.szFirstLine.drop a.length) = s := by
    rw [hline, List.drop_left, cstr_append_zero hzero]
  rw [CHttpParser.parseActParam, hact]
  simp only [if_pos (Or.inl htype), htext, hparse, Outcome.ok_bind]

namespace ClientRequest

variable (M : ClientRequest)

/-- The maker after the parameters have been added. -/
def maker : CHttpParamStringMaker := M.params.foldl (fun m p => m.addParam p.1 p.2) {}

/-- The parameters as they are sent. -/
def args : Bytes := joinArgs M.params

theorem maker_eq : M.maker = { params := M.params } := by
  have hfold : ∀ (ps : List (Bytes × Bytes)) (m : CHttpParamStringMaker),
      ps.foldl (fun m p => m.addParam p.1 p.2) m = { m with params := m.params ++ ps } := by
    intro ps
    induction ps with
    | nil =>
      intro m
      rw [List.foldl_nil, List.append_nil]
    | cons p ps ih =>
      intro m
      rw [List.foldl_cons, ih, CHttpParamStringMaker.addParam, List.append_assoc]
      rfl
  exact hfold M.params {}

/-- The `GET` request fits the buffer of the maker. -/
def GetFits : Prop := (getRequest M.host M.port M.uri M.params).length < 4096

/-- The `POST` request fits the buffer of the maker. -/
def PostFits : Prop := (postRequest M.host M.port M.uri M.params).length < 4096

theorem params_arg : ∀ p ∈ M.params, IsArg p := fun p hp => (M.params_ok p hp).isArg

theorem args_plain : IsPlain [63] M.args := isPlain_joinArgs M.params_ok

theorem args_ne : M.args ≠ [] := by
  obtain ⟨c, hc, -⟩ := exists_last_joinArgs M.params_arg M.params_ne
  intro h0
  rw [args] at h0
  rw [h0] at hc
  exact absurd hc (by simp)

theorem length_getRequest : (getRequest M.host M.port M.uri M.params).length =
    (firstLineOf (ascii "GET") (M.uri ++ 63 :: M.args)).length +
      (headLines (getFields M.host M.port)).length + 4 := by
  rw [getRequest, requestText]
  simp only [List.length_append, List.length_cons, List.length_nil]
  rw [args]
  omega

theorem length_postRequest : (postRequest M.host M.port M.uri M.params).length =
    (firstLineOf (ascii "POST") M.uri).length +
      (headLines (postFields M.host M.port M.args.length)).length + 4 + M.args.length := by
  rw [postRequest, requestText]
  simp only [List.length_append, List.length_cons]
  rw [args]
  omega

variable {M} in
/-- The parameters are shorter than a request that carries them. -/
theorem GetFits.args_lt (h : M.GetFits) : M.args.length + 1 < 4080 := by
  rw [GetFits, M.length_getRequest, firstLineOf, List.length_append, List.length_cons,
    List.length_append, List.length_append, List.length_cons,
    show (ascii "GET").length = 3 from rfl, show (ascii " HTTP/1.1").length = 9 from rfl] at h
  omega

variable {M} in
theorem PostFits.args_lt (h : M.PostFits) : M.args.length + 1 < 4096 := by
  rw [PostFits, M.length_postRequest] at h
  omega

theorem getParams_maker (h : M.args.length + 1 < 4096) : M.maker.getParams = .ok M.args := by
  rw [M.maker_eq]
  exact getParams_eq M.params_ok M.params_ne h

/-- **The `GET` request that the maker writes.** -/
theorem getMakeString_eq (h : M.GetFits) : M.maker.getMakeString M.host M.port M.uri =
    .ok (getRequest M.host M.port M.uri M.params) := by
  have huri := cstr_eq_self (M.uri_plain.notMem (c := 0) (by decide))
  have hhost := cstr_eq_self (M.host_plain.notMem (c := 0) (by decide))
  have hargs := cstr_eq_self (M.args_plain.notMem (c := 0) (by decide))
  have hmake : M.maker.getMake M.host M.port M.uri =
      .ok (getRequest M.host M.port M.uri M.params) := by
    have hlt := h.args_lt
    rw [CHttpParamStringMaker.getMake, M.getParams_maker (by omega), Outcome.ok_bind, huri, hhost,
      hargs, getRequest, requestText, firstLineOf, getFields, args]
    simp only [headLines, unlines_cons, unlines_nil, List.map_cons, List.map_nil, headLineText,
      List.append_assoc, List.cons_append, List.nil_append]
    rfl
  rw [CHttpParamStringMaker.getMakeString, hmake, Outcome.ok_bind,
    CHttpParamStringMaker.throughBuffer, if_neg (not_le.mpr h)]

/-- **The `POST` request that the maker writes.** -/
theorem postMakeString_eq (h : M.PostFits) : M.maker.postMakeString M.host M.port M.uri =
    .ok (postRequest M.host M.port M.uri M.params) := by
  have huri := cstr_eq_self (M.uri_plain.notMem (c := 0) (by decide))
  have hhost := cstr_eq_self (M.host_plain.notMem (c := 0) (by decide))
  have hargs := cstr_eq_self (M.args_plain.notMem (c := 0) (by decide))
  have hlt := h.args_lt
  have hlen : decimalInt (int32 M.args.length) = decimal M.args.length := by
    rw [int32_of_mem (by omega) (by omega), decimalInt, if_neg (by omega), Int.natAbs_natCast]
  have hmake : M.maker.postMake M.host M.port M.uri =
      .ok (postRequest M.host M.port M.uri M.params) := by
    rw [CHttpParamStringMaker.postMake, M.getParams_maker hlt, Outcome.ok_bind, huri, hhost, hargs,
      hlen, postRequest, requestText, firstLineOf, postFields, args]
    simp only [headLines, unlines_cons, unlines_nil, List.map_cons, List.map_nil, headLineText,
      List.append_assoc, List.cons_append, List.nil_append]
    rfl
  rw [CHttpParamStringMaker.postMakeString, hmake, Outcome.ok_bind,
    CHttpParamStringMaker.throughBuffer, if_neg (not_le.mpr h)]

/-! ## What the parser makes of them -/

theorem notMem_firstLineOf {w t : Bytes} {c : Byte} (hw : c ∉ w) (ht : c ∉ t)
    (hc : c ∉ ascii " HTTP/1.1") : c ∉ firstLineOf w t := by
  simp only [firstLineOf, List.mem_append, List.mem_cons, not_or]
  exact ⟨hw, fun h0 => hc (h0 ▸ List.mem_cons_self), ht, hc⟩

theorem portText_plain (port : ℕ) : IsPlain [] (CHttpParamStringMaker.portText port) := by
  intro c hc
  rw [CHttpParamStringMaker.portText] at hc
  split at hc
  · rcases List.mem_cons.mp hc with rfl | hc
    · decide
    · have hdigit := (isdigit_iff.mp (isdigit_of_mem_decimal hc)).1
      exact ⟨UInt8.lt_iff_toNat_lt.mpr (Nat.lt_of_lt_of_le (by decide) hdigit), List.not_mem_nil⟩
  · exact absurd hc List.not_mem_nil

theorem isHeadField_host : IsHeadField
    (ascii "Host", M.host ++ CHttpParamStringMaker.portText M.port) := by
  have hnot : ∀ {c : Byte}, c ≤ 32 → c ∉ M.host ++ CHttpParamStringMaker.portText M.port := by
    intro c hc
    rw [List.mem_append, not_or]
    exact ⟨M.host_plain.notMem hc, (portText_plain M.port).notMem hc⟩
  exact isHeadField_of (by decide) ⟨hnot (by decide), hnot (by decide), hnot (by decide)⟩

theorem getFields_ok : ∀ f ∈ getFields M.host M.port, IsHeadField f := by
  intro f hf
  simp only [getFields, List.mem_cons, List.not_mem_nil, or_false] at hf
  rcases hf with rfl | rfl | rfl | rfl
  · exact M.isHeadField_host
  · exact isHeadField_of (by decide) (by decide)
  · exact isHeadField_of (by decide) (by decide)
  · exact isHeadField_of (by decide) (by decide)

theorem decimal_noBreak (n : ℕ) : CR ∉ decimal n ∧ LF ∉ decimal n ∧ (0 : Byte) ∉ decimal n :=
  ⟨fun h => absurd (isdigit_of_mem_decimal h) (by decide),
    fun h => absurd (isdigit_of_mem_decimal h) (by decide),
    fun h => absurd (isdigit_of_mem_decimal h) (by decide)⟩

theorem postFields_ok (n : ℕ) : ∀ f ∈ postFields M.host M.port n, IsHeadField f := by
  intro f hf
  simp only [postFields, List.mem_cons, List.not_mem_nil, or_false] at hf
  rcases hf with rfl | rfl | rfl | rfl
  · exact M.isHeadField_host
  · exact isHeadField_of (by decide) (by decide)
  · exact isHeadField_of (by decide) (decimal_noBreak n)
  · exact isHeadField_of (by decide) (by decide)

/-- The target of the `GET` request. -/
theorem target_notMem {c : Byte} (hc : c ≤ 32) : c ∉ M.uri ++ 63 :: M.args := by
  rw [List.mem_append, List.mem_cons, not_or, not_or]
  refine ⟨M.uri_plain.notMem hc, ?_, M.args_plain.notMem hc⟩
  rintro rfl
  exact absurd hc (by decide)

theorem getRequest_noZero : (0 : Byte) ∉ getRequest M.host M.port M.uri M.params := by
  have hfirst := notMem_firstLineOf (w := ascii "GET") (by decide)
    (M.target_notMem (c := 0) (by decide)) (by decide)
  simp only [getRequest, requestText, List.mem_append, List.mem_cons, List.not_mem_nil, not_or]
  exact ⟨hfirst, by decide, by decide, zero_notMem_headLines M.getFields_ok, by decide, by decide,
    not_false⟩

theorem postRequest_noZero : (0 : Byte) ∉ postRequest M.host M.port M.uri M.params := by
  have hfirst := notMem_firstLineOf (w := ascii "POST") (by decide)
    (M.uri_plain.notMem (c := 0) (by decide)) (by decide)
  simp only [postRequest, requestText, List.mem_append, List.mem_cons, not_or]
  exact ⟨hfirst, by decide, by decide, zero_notMem_headLines (M.postFields_ok _), by decide,
    by decide, M.args_plain.notMem (by decide)⟩

/-- The first line in the buffer of the parser. -/
theorem strncpy_firstLineOf {w t : Bytes} (hzero : (0 : Byte) ∉ firstLineOf w t)
    (hlt : (firstLineOf w t).length < 4095) :
    ∃ z, strncpy (firstLineOf w t) 4095 = lineMem w t z := by
  refine ⟨List.replicate (4095 - (firstLineOf w t).length - 1) 0, ?_⟩
  rw [strncpy_of_lt hzero hlt, lineMem]
  generalize List.replicate (4095 - (firstLineOf w t).length - 1) (0 : Byte) = z
  rw [firstLineOf]
  simp only [List.append_assoc, List.cons_append]

/-- What the parser takes along behind the parameters of a `GET` request. -/
def tail : Bytes := if ascii "HTTP" <+: M.uri then ascii " HTTP/1.1" else []

theorem tail_notMem {c : Byte} (hc : c ∉ ascii " HTTP/1.1") : c ∉ M.tail := by
  rw [tail]
  split
  · exact hc
  · exact List.not_mem_nil

theorem length_tail_le : M.tail.length ≤ 9 := by
  rw [tail]
  split <;> decide

/-- **Where the target ends**: in front of the version, or at the end of the line if the version
looks like a part of it. -/
theorem exists_cutLine {target : Bytes} (h : ascii "HTTP" <+: target ↔ ascii "HTTP" <+: M.uri)
    (w z : Bytes) : ∃ a z', a.length = w.length + 1 ∧
      cutLine w target z = a ++ ((target ++ M.tail) ++ 0 :: z') := by
  rw [cutLine, tail]
  by_cases hhttp : ascii "HTTP" <+: M.uri
  · rw [if_pos hhttp, if_pos (h.mpr hhttp)]
    exact ⟨w ++ [0], z, List.length_append, by
      simp only [List.append_assoc, List.singleton_append]⟩
  · rw [if_neg hhttp, if_neg (mt h.mp hhttp)]
    exact ⟨w ++ [32], ascii "HTTP/1.1" ++ 0 :: z, List.length_append, by
      simp only [List.append_assoc, List.singleton_append, List.append_nil]⟩

/-- The parameters of a `GET` request as the parser of the first line reads them. -/
theorem parse_args_tail (hfits : M.GetFits) : (0 : Byte) ∉ M.args ++ M.tail ∧
    ∃ parser, CHttpParamParser.parse {} (M.args ++ M.tail) (M.args ++ M.tail).length = .ok parser ∧
      ∀ key, parser.getParam key = ((appendLast M.tail M.params).lookup key).getD [] := by
  have hjoin : joinArgs (appendLast M.tail M.params) = M.args ++ M.tail :=
    joinArgs_appendLast M.tail M.params_ne
  have hok := isArg_appendLast ⟨M.tail_notMem (by decide), M.tail_notMem (by decide)⟩ M.params_arg
  have hne : appendLast M.tail M.params ≠ [] := by
    intro h0
    rw [h0] at hjoin
    exact M.args_ne (List.append_eq_nil_iff.mp hjoin.symm).1
  have hargs := hfits.args_lt
  have htail := M.length_tail_le
  obtain ⟨parser, hparse, hget⟩ := parse_joinArgs hok hne
    (by rw [hjoin, List.length_append]; omega) []
  rw [hjoin, List.append_nil] at hparse
  exact ⟨hjoin ▸ zero_notMem_joinArgs hok, parser, hparse, hget⟩

/-- **The parser on a `GET` request**: it reads all of it and the URI, and the parameters with the
version behind the last one if the URI starts with `HTTP`. -/
theorem parseHead_get (dm : DataModel) (hfits : M.GetFits) :
    ∃ o, CHttpParser.parseHead dm {} (getRequest M.host M.port M.uri M.params ++ [0])
        (getRequest M.host M.port M.uri M.params).length .all =
          .ok (((getRequest M.host M.port M.uri M.params).length : ℤ), o) ∧
      o.getUri = M.uri ∧
      ∀ key, o.getParam key = ((appendLast M.tail M.params).lookup key).getD [] := by
  have htarget := fun {c : Byte} (hc : c ≤ 32) => M.target_notMem hc
  have hnot : ∀ {c : Byte}, c ≤ 32 → c ∉ ascii "GET" → c ∉ ascii " HTTP/1.1" →
      c ∉ firstLineOf (ascii "GET") (M.uri ++ 63 :: M.args) := fun hc hw hv =>
    notMem_firstLineOf hw (htarget hc) hv
  have hlt : (getRequest M.host M.port M.uri M.params).length < 4096 := hfits
  have hlen := M.length_getRequest
  have hend := strstr_requestText (hnot (c := LF) (by decide) (by decide) (by decide))
    (by simp [firstLineOf]) M.getFields_ok (List.cons_ne_nil _ _) M.getRequest_noZero
  have hlength := getLengthEx_get dm (R := getRequest M.host M.port M.uri M.params) rfl hend hlen
    hlt
  obtain ⟨z, hz⟩ := strncpy_firstLineOf (hnot (c := 0) (by decide) (by decide) (by decide))
    (show (firstLineOf (ascii "GET") (M.uri ++ 63 :: M.args)).length < 4095 by omega)
  obtain ⟨o₁, hfield, hfirst, -, -, hparser, htype, -⟩ := exists_parseField
    { nExtraParamType := .all, nContentLen := 0 }
    (hnot (c := CR) (by decide) (by decide) (by decide))
    (hnot (c := 0) (by decide) (by decide) (by decide)) M.getFields_ok []
  have hline := parseFirstLine_get (hfirst.trans hz) ⟨htarget (by decide), htarget (by decide)⟩
  have hhttp : ascii "HTTP" <+: M.uri ++ 63 :: M.args ↔ ascii "HTTP" <+: M.uri :=
    isPrefix_append_cons (by decide)
  obtain ⟨a, z', ha, hcut⟩ := M.exists_cutLine hhttp (ascii "GET") z
  replace ha : a.length = 4 := ha
  rw [List.append_assoc M.uri, List.cons_append, List.append_assoc M.uri, List.cons_append] at hcut
  have hsplit := splitTarget_append (o := { o₁ with
      szFirstLine := cutLine (ascii "GET") (M.uri ++ 63 :: M.args) z, nHttpMethod := .get }) hcut
    (M.uri_plain.notMem (by decide)) (M.uri_plain.notMem_of_mem (by decide)) (by simp)
  rw [ha] at hsplit
  rw [hsplit] at hline
  obtain ⟨hzero, parser, hparse, hget⟩ := M.parse_args_tail hfits
  have hargs := parseActParam_eq (o := { o₁ with
      szFirstLine := a ++ (M.uri ++ 0 :: ((M.args ++ M.tail) ++ 0 :: z'))
      nHttpMethod := .get
      pszActParam := some (4 + M.uri.length + 1)
      pszUri := some 4 }) (a := a ++ (M.uri ++ [0])) (s := M.args ++ M.tail)
    (z := z') (by simp only [List.append_assoc, List.singleton_append]) hzero
    (by rw [List.length_append, List.length_append, List.length_singleton, ha]; rfl) htype
    (by rw [hparser]; exact hparse)
  refine ⟨_, parseHead_of hlength (by omega) hfield hline hargs, ?_, hget⟩
  exact getUri_eq (a := a) rfl (M.uri_plain.notMem (by decide)) (by rw [ha])

/-- The request in words. -/
theorem postRequest_words : postRequest M.host M.port M.uri M.params =
    ascii "POST" ++ 32 :: (M.uri ++ 32 :: (ascii "HTTP/1.1\r\nHost:" ++ 32 ::
      (M.host ++ CHttpParamStringMaker.portText M.port ++ ascii "\r\nContent-type:" ++ 32 ::
        (ascii "application/x-www-form-urlencoded;" ++ 32 ::
          (ascii "charset=UTF-8\r\nContent-Length:" ++ 32 :: (decimal M.args.length ++
            CR :: LF ::
              (ascii "Connection: Keep-Alive" ++ CR :: LF :: CR :: LF :: M.args))))))) := by
  rw [postRequest, requestText, firstLineOf, postFields, args]
  simp only [headLines, unlines_cons, unlines_nil, List.map_cons, List.map_nil, headLineText,
    List.append_assoc, List.cons_append, List.nil_append]
  rfl

/-- **Where the length is read from**: from the header line, but from the first line if the URI ends
with `Content-Length:`. -/
theorem behind_postRequest : ∃ r, behind (ascii "Content-Length: ")
    (postRequest M.host M.port M.uri M.params) = some
      ((if ascii "Content-Length:" <:+ M.uri then ascii "HTTP/1.1" else decimal M.args.length) ++
        CR :: LF :: r) := by
  have hpat : ascii "Content-Length: " = ascii "Content-Length:" ++ [32] := rfl
  have hq : (32 : Byte) ∉ ascii "Content-Length:" := by decide
  rw [M.postRequest_words, hpat, behind_word_skip hq (by decide) (by decide)]
  split
  · next h =>
    rw [behind_word_hit hq (M.uri_plain.notMem (by decide)) h]
    exact ⟨_, rfl⟩
  · next h =>
    have hword : (32 : Byte) ∉ M.host ++ CHttpParamStringMaker.portText M.port ++
        ascii "\r\nContent-type:" := by
      simp only [List.mem_append, not_or]
      exact ⟨⟨M.host_plain.notMem (by decide), (portText_plain M.port).notMem (by decide)⟩,
        by decide⟩
    have hsuffix : ¬ ascii "Content-Length:" <:+ M.host ++
        CHttpParamStringMaker.portText M.port ++ ascii "\r\nContent-type:" := by
      intro h0
      have htype : ascii "type:" <:+ M.host ++ CHttpParamStringMaker.portText M.port ++
          ascii "\r\nContent-type:" :=
        List.IsSuffix.trans (by decide) (List.suffix_append _ _)
      exact absurd (List.suffix_of_suffix_length_le htype h0 (by decide)) (by decide)
    rw [behind_word_skip hq (M.uri_plain.notMem (by decide)) h,
      behind_word_skip hq (by decide) (by decide), behind_word_skip hq hword hsuffix,
      behind_word_skip hq (by decide) (by decide),
      behind_word_hit hq (by decide) (by decide)]
    exact ⟨_, rfl⟩

/-- The length that `parse_head` finds for a `POST` request. -/
theorem getLengthEx_postRequest (dm : DataModel) (hfits : M.PostFits) : ∃ pos,
    getLengthEx dm (postRequest M.host M.port M.uri M.params ++ [0])
        (postRequest M.host M.port M.uri M.params).length =
      .ok (((postRequest M.host M.port M.uri M.params).length : ℤ) -
          (if ascii "Content-Length:" <:+ M.uri then (M.args.length : ℤ) else 0),
        some (pos, if ascii "Content-Length:" <:+ M.uri then 0 else (M.args.length : ℤ))) := by
  have hnot : ∀ {c : Byte}, c ≤ 32 → c ∉ ascii "POST" → c ∉ ascii " HTTP/1.1" →
      c ∉ firstLineOf (ascii "POST") M.uri := fun hc hw hv =>
    notMem_firstLineOf hw (M.uri_plain.notMem hc) hv
  have hzero := M.postRequest_noZero
  have hlt : (postRequest M.host M.port M.uri M.params).length < 4096 := hfits
  have hlen := M.length_postRequest
  have hend := strstr_requestText (hnot (c := LF) (by decide) (by decide) (by decide))
    (by simp [firstLineOf]) (M.postFields_ok M.args.length) (List.cons_ne_nil _ _) hzero
  generalize (firstLineOf (ascii "POST") M.uri).length +
    (headLines (postFields M.host M.port M.args.length)).length = e at hend hlen
  obtain ⟨r, hbehind⟩ := M.behind_postRequest
  by_cases hcl : ascii "Content-Length:" <:+ M.uri
  · rw [if_pos hcl] at hbehind
    simp only [if_pos hcl]
    have hnum := contentLengthOf_eq dm hzero hbehind (by decide) (by decide) e
    have hatoi : atoi dm (ascii "HTTP/1.1") = (0 : ℕ) := by cases dm <;> decide
    rw [hatoi] at hnum
    refine ⟨int32 (e + 4), ?_⟩
    rw [getLengthEx_post dm (R := postRequest _ _ _ _) rfl hend hnum (by omega) hlt, hlen]
    congr 2
    push_cast
    ring
  · rw [if_neg hcl] at hbehind
    simp only [if_neg hcl]
    have hargs := hfits.args_lt
    have hshort := length_decimal_le (n := M.args.length) (k := 4) (by omega) (by omega)
    have hnum := contentLengthOf_eq dm hzero hbehind (decimal_noBreak _).1 (by omega) e
    rw [atoi_decimal_self (by omega)] at hnum
    refine ⟨int32 (e + 4), ?_⟩
    rw [getLengthEx_post dm (R := postRequest _ _ _ _) rfl hend hnum (by omega) hlt, hlen, sub_zero]

/-- **The parser reads what the maker wrote as a `POST` request**, but for the URI. -/
theorem parseHead_post (dm : DataModel) (hfits : M.PostFits)
    (hcl : ¬ ascii "Content-Length:" <:+ M.uri) :
    ∃ o o', CHttpParser.parseHead dm {} (postRequest M.host M.port M.uri M.params ++ [0])
        (postRequest M.host M.port M.uri M.params).length .all =
          .ok (((postRequest M.host M.port M.uri M.params).length : ℤ), o) ∧
      o.parseFormBody = .ok o' ∧
      o'.getUri = M.uri ++ M.tail ∧
      ∀ key, o'.getParam key = (M.params.lookup key).getD [] := by
  have hnot : ∀ {c : Byte}, c ≤ 32 → c ∉ ascii "POST" → c ∉ ascii " HTTP/1.1" →
      c ∉ firstLineOf (ascii "POST") M.uri := fun hc hw hv =>
    notMem_firstLineOf hw (M.uri_plain.notMem hc) hv
  have hlt : (postRequest M.host M.port M.uri M.params).length < 4096 := hfits
  have hlen := M.length_postRequest
  obtain ⟨pos, hlength⟩ := M.getLengthEx_postRequest dm hfits
  rw [if_neg hcl, if_neg hcl, sub_zero] at hlength
  obtain ⟨z, hz⟩ := strncpy_firstLineOf (hnot (c := 0) (by decide) (by decide) (by decide))
    (show (firstLineOf (ascii "POST") M.uri).length < 4095 by omega)
  obtain ⟨o₁, hfield, hfirst, hcontent, hact, hparser, -, hlenc⟩ := exists_parseField
    { nExtraParamType := .all, nContentLen := (M.args.length : ℤ) }
    (hnot (c := CR) (by decide) (by decide) (by decide))
    (hnot (c := 0) (by decide) (by decide) (by decide)) (M.postFields_ok M.args.length) M.args
  rw [if_neg M.args_ne] at hcontent
  have hline := parseFirstLine_post (hfirst.trans hz)
    ⟨M.uri_plain.notMem (by decide), M.uri_plain.notMem (by decide)⟩
  obtain ⟨a, z', ha, hcut⟩ := M.exists_cutLine Iff.rfl (ascii "POST") z
  replace ha : a.length = 5 := ha
  have htarget : ∀ {c : Byte}, c ∉ M.uri → c ∉ ascii " HTTP/1.1" → c ∉ M.uri ++ M.tail :=
    fun huri hv => by
      rw [List.mem_append, not_or]
      exact ⟨huri, M.tail_notMem hv⟩
  have hzero := htarget (c := 0) (M.uri_plain.notMem (by decide)) (by decide)
  have hsplit := splitTarget_of_notMem (o := { o₁ with
      szFirstLine := cutLine (ascii "POST") M.uri z, nHttpMethod := .post }) hcut hzero
    (htarget (M.uri_plain.notMem_of_mem (by decide)) (by decide)) (by simp)
  rw [ha] at hsplit
  rw [hsplit] at hline
  have hargs_lt := hfits.args_lt
  obtain ⟨parser, hparse, hget⟩ := parse_joinArgs M.params_arg M.params_ne
    (show M.args.length < 2 ^ 31 - 4096 by omega) [0]
  have hnone : CHttpParser.parseActParam { o₁ with
      szFirstLine := cutLine (ascii "POST") M.uri z, nHttpMethod := .post, pszUri := some 5 } =
      .ok { o₁ with szFirstLine := cutLine (ascii "POST") M.uri z, nHttpMethod := .post,
                    pszUri := some 5 } := by
    rw [CHttpParser.parseActParam, show CHttpParser.pszActParam _ = none from hact]
  have hbody : CHttpParser.parseFormBody { o₁ with
      szFirstLine := cutLine (ascii "POST") M.uri z, nHttpMethod := .post, pszUri := some 5 } =
      .ok { o₁ with szFirstLine := cutLine (ascii "POST") M.uri z, nHttpMethod := .post,
                    pszUri := some 5, paramParser := parser } := by
    rw [CHttpParser.parseFormBody, show CHttpParser.pszContent _ = _ from hcontent]
    simp only [hlenc, hparser]
    rw [show CHttpParamParser.parse _ (M.args ++ [0]) (M.args.length : ℤ) = _ from hparse]
    rfl
  refine ⟨_, _, parseHead_of hlength (by omega) hfield hline hnone, hbody, ?_, hget⟩
  exact getUri_eq hcut hzero (by rw [ha])

/-! ## Agreement -/

/-- **The parser reads the `GET` request**: all of it, its URI and its parameters. -/
def GetAgrees (dm : DataModel) : Prop :=
  ∃ req o, M.maker.getMakeString M.host M.port M.uri = .ok req ∧
    CHttpParser.parseHead dm {} (req ++ [0]) req.length .all = .ok ((req.length : ℤ), o) ∧
    o.getUri = M.uri ∧
    ∀ key value, M.params.lookup key = some value → o.getParam key = value

/-- **The parser reads the `POST` request**: all of it, its URI and its parameters. -/
def PostAgrees (dm : DataModel) : Prop :=
  ∃ req o o', M.maker.postMakeString M.host M.port M.uri = .ok req ∧
    CHttpParser.parseHead dm {} (req ++ [0]) req.length .all = .ok ((req.length : ℤ), o) ∧
    o.parseFormBody = .ok o' ∧ o'.getUri = M.uri ∧
    ∀ key value, M.params.lookup key = some value → o'.getParam key = value

/-- The parameters of a `GET` request are read if the URI does not start with `HTTP`, or the last
one is not the first with its key. -/
theorem getAgrees_iff (dm : DataModel) (hfits : M.GetFits) :
    M.GetAgrees dm ↔ ¬ ascii "HTTP" <+: M.uri ∨ RepeatsLastKey M.params := by
  obtain ⟨o, hhead, huri, hget⟩ := M.parseHead_get dm hfits
  have hread : M.GetAgrees dm ↔ ∀ key value, M.params.lookup key = some value →
      ((appendLast M.tail M.params).lookup key).getD [] = value := by
    constructor
    · rintro ⟨req, o', hreq, hhead', -, hall⟩ key value hvalue
      rw [M.getMakeString_eq hfits, Outcome.ok.injEq] at hreq
      subst hreq
      rw [hhead, Outcome.ok.injEq, Prod.mk.injEq] at hhead'
      obtain ⟨-, rfl⟩ := hhead'
      rw [← hget, hall key value hvalue]
    · exact fun hall => ⟨_, o, M.getMakeString_eq hfits, hhead, huri, fun key value hvalue =>
        (hget key).trans (hall key value hvalue)⟩
  rw [hread]
  by_cases hhttp : ascii "HTTP" <+: M.uri
  · have htail : M.tail = ascii " HTTP/1.1" := if_pos hhttp
    rw [htail, lookup_appendLast_iff (by decide) M.params_ne]
    exact ⟨Or.inr, fun h => h.resolve_left (not_not.mpr hhttp)⟩
  · have htail : M.tail = [] := if_neg hhttp
    refine iff_of_true ?_ (Or.inl hhttp)
    intro key value hvalue
    obtain ⟨ps, p, hps⟩ := (List.eq_nil_or_concat M.params).resolve_left M.params_ne
    rw [List.concat_eq_append] at hps
    rw [hps] at hvalue
    rw [htail, hps, appendLast_concat, List.append_nil, hvalue, Option.getD_some]

/-- A `POST` request is read if the URI neither starts with `HTTP` nor ends with
`Content-Length:`. -/
theorem postAgrees_iff (dm : DataModel) (hfits : M.PostFits) :
    M.PostAgrees dm ↔ ¬ ascii "HTTP" <+: M.uri ∧ ¬ ascii "Content-Length:" <:+ M.uri := by
  constructor
  · rintro ⟨req, o, o', hreq, hhead, hbody, huri, -⟩
    rw [M.postMakeString_eq hfits, Outcome.ok.injEq] at hreq
    subst hreq
    have hcl : ¬ ascii "Content-Length:" <:+ M.uri := by
      intro hcl
      have hpos := List.length_pos_of_ne_nil M.args_ne
      obtain ⟨pos, hlength⟩ := M.getLengthEx_postRequest dm hfits
      rw [if_pos hcl] at hlength
      rcases ret_of_parseHead hlength hhead with h | h <;> omega
    refine ⟨?_, hcl⟩
    intro hhttp
    obtain ⟨p, p', hhead', hbody', huri', -⟩ := M.parseHead_post dm hfits hcl
    rw [hhead, Outcome.ok.injEq, Prod.mk.injEq] at hhead'
    obtain ⟨-, rfl⟩ := hhead'
    rw [hbody, Outcome.ok.injEq] at hbody'
    subst hbody'
    rw [huri, tail, if_pos hhttp] at huri'
    exact absurd (List.append_right_eq_self.mp huri'.symm) (by decide)
  · rintro ⟨hhttp, hcl⟩
    obtain ⟨o, o', hhead, hbody, huri, hget⟩ := M.parseHead_post dm hfits hcl
    rw [tail, if_neg hhttp, List.append_nil] at huri
    refine ⟨_, o, o', M.postMakeString_eq hfits, hhead, hbody, huri, ?_⟩
    intro key value hvalue
    rw [hget, hvalue, Option.getD_some]

/-- **The parser reads what the maker writes**, each request that fits its buffer, if and only if
the URI does not start with `HTTP`, or else only the `GET` request fits and repeats its last key;
and the URI does not end with `Content-Length:` where the `POST` request fits. -/
theorem makerAgrees_iff (dm : DataModel) :
    ((M.GetFits → M.GetAgrees dm) ∧ (M.PostFits → M.PostAgrees dm)) ↔
      (M.GetFits → ¬ ascii "HTTP" <+: M.uri ∨ RepeatsLastKey M.params) ∧
      (M.PostFits → ¬ ascii "HTTP" <+: M.uri ∧ ¬ ascii "Content-Length:" <:+ M.uri) :=
  and_congr (forall_congr' fun h => M.getAgrees_iff dm h)
    (forall_congr' fun h => M.postAgrees_iff dm h)

/-! ## A URI that is misread -/

/-- A request for the URI `HTTP`. -/
def httpUri : ClientRequest where
  host := ascii "h"
  port := 80
  uri := ascii "HTTP"
  params := [(ascii "a", ascii "1")]
  port_lt := by decide
  host_plain := by decide
  uri_plain := by decide
  uri_ne := by decide
  params_ne := by decide
  params_ok := List.forall_mem_singleton.mpr
    ⟨⟨97, [], rfl, rfl⟩, by decide, by decide, by decide⟩

/-- The parser takes the version for a part of the URI. -/
theorem httpUri_not_agrees : httpUri.PostFits ∧ ¬ httpUri.PostAgrees .lp64 := by
  have hfits : httpUri.PostFits := by
    unfold PostFits
    decide +kernel
  refine ⟨hfits, ?_⟩
  intro h
  exact ((httpUri.postAgrees_iff .lp64 hfits).mp h).1 (by decide)

end ClientRequest

end HttpCodec
end CModel
