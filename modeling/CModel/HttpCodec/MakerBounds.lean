import CModel.HttpCodec.UtilParams

/-!
# The arrays of the maker

`get_params` puts each parameter into `szTmp[1024]` and all of them into `szParams[4096]`, and the
two makers of strings put the request into `szBuffer[4096]`, none of them with a look at a length.

* `Access`, `getParamsAccesses`, `getMakeStringAccesses`, `postMakeStringAccesses`: which bytes of
  the arrays are read and written, as if the arrays went on beyond their ends.
* `getParams_eq_ok_iff`: the model of `get_params` on texts is defined where these are inside.
* `AddParam`, `madeBy`: calls of `add_param`.
* `staysInArrays_iff`: **the maker stays inside its arrays** exactly if there is a parameter and all
  lengths are small enough.
-/

namespace CModel
namespace HttpCodec

namespace CHttpParamStringMaker

/-! ## The accesses -/

/-- The arrays. -/
inductive MakerArray where
  | szTmp
  | szParams
  | szBuffer
  deriving DecidableEq, Repr

/-- Their sizes. -/
def MakerArray.size : MakerArray → ℕ
  | .szTmp => 1024
  | .szParams => 4096
  | .szBuffer => 4096

/-- The bytes of an array that are read or written, `count` of them. -/
structure Access where
  array : MakerArray
  first : ℤ
  count : ℕ
  deriving DecidableEq, Repr

/-- The bytes are in the array. -/
def Access.Inside (a : Access) : Prop := 0 ≤ a.first ∧ a.first + a.count ≤ a.array.size

instance (a : Access) : Decidable a.Inside := inferInstanceAs (Decidable (_ ∧ _))

/-- What `sprintf` puts into `szTmp`, without its zero. -/
def paramText (param : Bytes × Bytes) : Bytes := cstr param.1 ++ 61 :: cstr param.2 ++ [38]

/-- The loop of `get_params`: `sprintf` into `szTmp`, and `strcat`, which looks for the zero of
`szParams` and writes behind the text. -/
def catAccesses (szParams : Bytes) : List (Bytes × Bytes) → List Access
  | [] => []
  | param :: params =>
    let szTmp := paramText param
    ⟨.szTmp, 0, szTmp.length + 1⟩ :: ⟨.szParams, 0, szParams.length + 1⟩ ::
      ⟨.szParams, szParams.length, szTmp.length + 1⟩ :: catAccesses (szParams ++ szTmp) params

/-- `get_params`: `szParams` is set to zero and filled, `strlen` reads it, and the byte in front of
its end is read and, being a `&`, written. -/
def getParamsAccesses (m : CHttpParamStringMaker) : List Access :=
  if m.paramLines ≠ [] then []
  else
    let szParams := m.params.flatMap paramText
    ⟨.szParams, 0, 4096⟩ :: catAccesses [] m.params ++
      [⟨.szParams, 0, szParams.length + 1⟩, ⟨.szParams, (szParams.length : ℤ) - 1, 1⟩]

/-- What `get_params` returns. -/
def paramsText (m : CHttpParamStringMaker) : Bytes :=
  if m.paramLines ≠ [] then m.paramLines else (m.params.flatMap paramText).dropLast

/-- The text of `GET_make`. -/
def getText (strParams strHost : Bytes) (nPort : ℕ) (strUri : Bytes) : Bytes :=
  ascii "GET " ++ (cstr strUri ++ (63 :: cstr strParams ++ (ascii " HTTP/1.1\r\nHost: " ++
    (cstr strHost ++ (portText nPort ++ ascii
      "\r\nConnection: Keep-Alive\r\nAccept: */*\r\nUser-Agent: http_util\r\n\r\n")))))

/-- The text of `POST_make`. -/
def postText (strParams strHost : Bytes) (nPort : ℕ) (strUri : Bytes) : Bytes :=
  ascii "POST " ++ (cstr strUri ++ (ascii " HTTP/1.1\r\nHost: " ++
    (cstr strHost ++ (portText nPort ++ (ascii "\r\nContent-type: " ++
      (ascii "application/x-www-form-urlencoded; charset=UTF-8" ++
        (ascii "\r\nContent-Length: " ++ (decimalInt (int32 strParams.length) ++
          (ascii "\r\nConnection: Keep-Alive\r\n\r\n" ++ cstr strParams)))))))))

/-- `GET_make_string`: the text goes into `szBuffer`, with a zero behind it. -/
def getMakeStringAccesses (m : CHttpParamStringMaker) (strHost : Bytes) (nPort : ℕ)
    (strUri : Bytes) : List Access :=
  m.getParamsAccesses ++ [⟨.szBuffer, 0, (getText m.paramsText strHost nPort strUri).length + 1⟩]

/-- `POST_make_string` -/
def postMakeStringAccesses (m : CHttpParamStringMaker) (strHost : Bytes) (nPort : ℕ)
    (strUri : Bytes) : List Access :=
  m.getParamsAccesses ++ [⟨.szBuffer, 0, (postText m.paramsText strHost nPort strUri).length + 1⟩]

theorem getMake_eq (m : CHttpParamStringMaker) (strHost : Bytes) (nPort : ℕ) (strUri : Bytes) :
    m.getMake strHost nPort strUri =
      m.getParams >>= fun strParams => .ok (getText strParams strHost nPort strUri) := rfl

theorem postMake_eq (m : CHttpParamStringMaker) (strHost : Bytes) (nPort : ℕ) (strUri : Bytes) :
    m.postMake strHost nPort strUri =
      m.getParams >>= fun strParams => .ok (postText strParams strHost nPort strUri) := rfl

/-! ## When they are inside -/

theorem inside_iff {array : MakerArray} {n : ℤ} {count : ℕ} :
    (⟨array, n, count⟩ : Access).Inside ↔ 0 ≤ n ∧ n + count ≤ array.size := Iff.rfl

/-- The bytes that a parameter takes. -/
def paramSize (param : Bytes × Bytes) : ℕ := (cstr param.1).length + (cstr param.2).length + 2

theorem length_paramText (param : Bytes × Bytes) : (paramText param).length = paramSize param := by
  rw [paramText, paramSize]
  simp only [List.length_append, List.length_cons, List.length_nil]
  omega

theorem length_flatMap_paramText (params : List (Bytes × Bytes)) :
    (params.flatMap paramText).length = (params.map paramSize).sum := by
  rw [List.length_flatMap]
  congr 1
  exact List.map_congr_left fun param _ => length_paramText param

/-- **The loop**, by induction on the parameters. -/
theorem catAccesses_inside_iff {szParams : Bytes} {params : List (Bytes × Bytes)}
    (h : szParams.length < 4096) :
    (∀ a ∈ catAccesses szParams params, a.Inside) ↔
      (∀ p ∈ params, paramSize p < 1024) ∧
        szParams.length + (params.map paramSize).sum < 4096 := by
  induction params generalizing szParams with
  | nil => simpa [catAccesses] using h
  | cons p params ih =>
    have hlen := length_paramText p
    have hsum : (szParams ++ paramText p).length = szParams.length + paramSize p := by
      rw [List.length_append, hlen]
    rw [catAccesses, List.forall_mem_cons, List.forall_mem_cons, List.forall_mem_cons,
      List.forall_mem_cons, List.map_cons, List.sum_cons]
    have htmp : (⟨.szTmp, 0, (paramText p).length + 1⟩ : Access).Inside ↔ paramSize p < 1024 := by
      rw [inside_iff, hlen, MakerArray.size]
      omega
    have hread : (⟨.szParams, 0, szParams.length + 1⟩ : Access).Inside := by
      rw [inside_iff, MakerArray.size]
      omega
    have hcat : (⟨.szParams, szParams.length, (paramText p).length + 1⟩ : Access).Inside ↔
        szParams.length + paramSize p < 4096 := by
      rw [inside_iff, hlen, MakerArray.size]
      omega
    rw [htmp, hcat]
    by_cases hroom : szParams.length + paramSize p < 4096
    · rw [ih (by rw [hsum]; exact hroom), hsum]
      constructor
      · rintro ⟨hp, -, -, hps, hall⟩
        exact ⟨⟨hp, hps⟩, by omega⟩
      · rintro ⟨⟨hp, hps⟩, hall⟩
        exact ⟨hp, hread, hroom, hps, by omega⟩
    · constructor
      · rintro ⟨-, -, hin, -⟩
        exact absurd hin hroom
      · rintro ⟨-, hall⟩
        omega

/-- There is a parameter, each of them is below the size of `szTmp`, and all of them together are
below that of `szParams`. -/
structure ParamsFit (params : List (Bytes × Bytes)) : Prop where
  ne_nil : params ≠ []
  each : ∀ p ∈ params, paramSize p < 1024
  total : (params.map paramSize).sum < 4096

theorem sum_paramSize_pos {params : List (Bytes × Bytes)} (h : params ≠ []) :
    0 < (params.map paramSize).sum := by
  obtain ⟨p, params, rfl⟩ := List.exists_cons_of_ne_nil h
  rw [List.map_cons, List.sum_cons, paramSize]
  omega

/-- **Where `get_params` stays inside.** -/
theorem getParamsAccesses_inside_iff {m : CHttpParamStringMaker} :
    (∀ a ∈ m.getParamsAccesses, a.Inside) ↔ m.paramLines ≠ [] ∨ ParamsFit m.params := by
  rw [getParamsAccesses]
  by_cases hlines : m.paramLines ≠ []
  · rw [if_pos hlines]
    exact iff_of_true (fun a ha => absurd ha List.not_mem_nil) (Or.inl hlines)
  · have hzero : (⟨.szParams, 0, 4096⟩ : Access).Inside := by decide
    rw [if_neg hlines, or_iff_right hlines]
    simp only [List.cons_append, List.forall_mem_cons, List.forall_mem_append,
      List.not_mem_nil, IsEmpty.forall_iff, implies_true, and_true, length_flatMap_paramText]
    rw [catAccesses_inside_iff (by decide), List.length_nil, Nat.zero_add]
    constructor
    · rintro ⟨-, ⟨heach, htotal⟩, -, hlast⟩
      refine ⟨?_, heach, htotal⟩
      intro hnil
      rw [hnil] at hlast
      exact absurd hlast (by decide)
    · intro hfit
      have hpos := sum_paramSize_pos hfit.ne_nil
      have htotal := hfit.total
      refine ⟨hzero, ⟨hfit.each, htotal⟩, ?_, ?_⟩
      · rw [← Nat.cast_zero, inside_iff, MakerArray.size]
        omega
      · rw [inside_iff, MakerArray.size]
        omega

/-! ## The model on texts -/

theorem catParams_eq_ok_iff {szParams out : Bytes} {params : List (Bytes × Bytes)}
    (h : szParams.length < 4096) : catParams szParams params = .ok out ↔
      (∀ a ∈ catAccesses szParams params, a.Inside) ∧
        out = szParams ++ params.flatMap paramText := by
  rw [catAccesses_inside_iff h]
  induction params generalizing szParams with
  | nil =>
    rw [catParams, Outcome.ok.injEq, List.flatMap_nil, List.append_nil]
    simp only [List.not_mem_nil, IsEmpty.forall_iff, implies_true, true_and, List.map_nil,
      List.sum_nil, Nat.add_zero, h, eq_comm]
  | cons p params ih =>
    have hlen := length_paramText p
    have htmp : cstr p.1 ++ 61 :: cstr p.2 ++ [38] = paramText p := rfl
    rw [catParams, htmp, List.forall_mem_cons, List.map_cons, List.sum_cons]
    by_cases hroom : 1024 ≤ (paramText p).length ∨ 4096 ≤ szParams.length + (paramText p).length
    · rw [if_pos hroom]
      refine iff_of_false (by simp) ?_
      rintro ⟨⟨⟨hp, -⟩, htotal⟩, -⟩
      omega
    · have hsum : (szParams ++ paramText p).length = szParams.length + paramSize p := by
        rw [List.length_append, hlen]
      rw [if_neg hroom, ih (by omega), hsum, List.flatMap_cons, List.append_assoc, Nat.add_assoc,
        and_iff_right (a := paramSize p < 1024) (by omega)]

/-- **`get_params` on texts** is defined exactly where its accesses are inside. -/
theorem getParams_eq_ok_iff {m : CHttpParamStringMaker} {out : Bytes} :
    m.getParams = .ok out ↔ (∀ a ∈ m.getParamsAccesses, a.Inside) ∧ out = m.paramsText := by
  rw [getParamsAccesses_inside_iff, getParams, paramsText]
  by_cases hlines : m.paramLines ≠ []
  · rw [if_pos hlines, if_pos hlines, Outcome.ok.injEq, and_iff_right (Or.inl hlines), eq_comm]
  · rw [if_neg hlines, if_neg hlines, or_iff_right hlines, Outcome.bind_eq_ok]
    have hcat : ∀ szParams, catParams [] m.params = .ok szParams ↔
        ((∀ p ∈ m.params, paramSize p < 1024) ∧ (m.params.map paramSize).sum < 4096) ∧
          szParams = m.params.flatMap paramText := by
      intro szParams
      rw [catParams_eq_ok_iff (by decide), catAccesses_inside_iff (by decide), List.length_nil,
        Nat.zero_add, List.nil_append]
    have hlast : m.params ≠ [] → (m.params.flatMap paramText).getLast? = some 38 := by
      intro hne
      obtain ⟨ps, p, hps⟩ := (List.eq_nil_or_concat m.params).resolve_left hne
      rw [hps, List.concat_eq_append, List.flatMap_append, List.flatMap_singleton, paramText,
        ← List.append_assoc, List.getLast?_concat]
    constructor
    · rintro ⟨szParams, hok, hout⟩
      obtain ⟨⟨heach, htotal⟩, rfl⟩ := (hcat szParams).mp hok
      have hne : m.params ≠ [] := by
        intro hnil
        rw [hnil] at hout
        exact absurd hout (by simp)
      rw [hlast hne] at hout
      exact ⟨⟨hne, heach, htotal⟩, (Outcome.ok.inj hout).symm⟩
    · rintro ⟨hfit, rfl⟩
      refine ⟨_, (hcat _).mpr ⟨⟨hfit.each, hfit.total⟩, rfl⟩, ?_⟩
      rw [hlast hfit.ne_nil]
      rfl

/-! ## Calls of `add_param` -/

/-- `CHttpParamStringMaker::add_param` with a number, which goes through `szValue[100]`. -/
def addParamInt (m : CHttpParamStringMaker) (strKey : Bytes) (nValue : ℤ) :
    CHttpParamStringMaker :=
  m.addParam strKey (decimal (nValue % 2 ^ 32).toNat)

/-- A call of `add_param`. -/
inductive AddParam where
  | text (strKey strValue : Bytes)
  | number (strKey : Bytes) (nValue : ℤ)

/-- What the call does. -/
def AddParam.apply (m : CHttpParamStringMaker) : AddParam → CHttpParamStringMaker
  | text strKey strValue => m.addParam strKey strValue
  | number strKey nValue => m.addParamInt strKey nValue

/-- The parameter that the call adds. -/
def AddParam.param : AddParam → Bytes × Bytes
  | text strKey strValue => (strKey, strValue)
  | number strKey nValue => (strKey, decimal (nValue % 2 ^ 32).toNat)

/-- The maker after a sequence of calls. -/
def madeBy (calls : List AddParam) : CHttpParamStringMaker := calls.foldl AddParam.apply {}

theorem foldl_apply (calls : List AddParam) (m : CHttpParamStringMaker) :
    calls.foldl AddParam.apply m = { m with params := m.params ++ calls.map AddParam.param } := by
  induction calls generalizing m with
  | nil => rw [List.map_nil, List.append_nil, List.foldl_nil]
  | cons call calls ih =>
    rw [List.foldl_cons, ih, List.map_cons]
    cases call <;>
      simp only [AddParam.apply, AddParam.param, addParamInt, addParam, List.append_assoc,
        List.singleton_append]

theorem madeBy_eq (calls : List AddParam) :
    madeBy calls = { params := calls.map AddParam.param } := by
  rw [madeBy, foldl_apply, List.nil_append]

/-! ## The requests -/

theorem length_getText (strParams strHost : Bytes) (nPort : ℕ) (strUri : Bytes) :
    (getText strParams strHost nPort strUri).length =
      86 + (cstr strParams).length + (cstr strUri).length + (cstr strHost).length +
        (portText nPort).length := by
  have h₁ : (ascii "GET ").length = 4 := rfl
  have h₂ : (ascii " HTTP/1.1\r\nHost: ").length = 17 := rfl
  have h₃ : (ascii
      "\r\nConnection: Keep-Alive\r\nAccept: */*\r\nUser-Agent: http_util\r\n\r\n").length =
      64 := by decide
  rw [getText]
  simp only [List.length_append, List.length_cons, h₁, h₂, h₃]
  omega

theorem length_postText (strParams strHost : Bytes) (nPort : ℕ) (strUri : Bytes) :
    (postText strParams strHost nPort strUri).length =
      132 + (cstr strParams).length + (decimalInt (int32 strParams.length)).length +
        (cstr strUri).length + (cstr strHost).length + (portText nPort).length := by
  have h₁ : (ascii "POST ").length = 5 := rfl
  have h₂ : (ascii " HTTP/1.1\r\nHost: ").length = 17 := rfl
  have h₃ : (ascii "\r\nContent-type: ").length = 16 := rfl
  have h₄ : (ascii "application/x-www-form-urlencoded; charset=UTF-8").length = 48 := by
    decide
  have h₅ : (ascii "\r\nContent-Length: ").length = 18 := rfl
  have h₆ : (ascii "\r\nConnection: Keep-Alive\r\n\r\n").length = 28 := rfl
  rw [postText]
  simp only [List.length_append, h₁, h₂, h₃, h₄, h₅, h₆]
  omega

/-- There is a parameter, and all lengths are small enough: each parameter for `szTmp`, their sum
for `szParams`, and each request, without the last `&`, for `szBuffer`. -/
structure RequestsFit (params : List (Bytes × Bytes)) (strHost : Bytes) (nPort : ℕ)
    (strUri : Bytes) : Prop where
  fit : ParamsFit params
  get : 86 + ((params.map paramSize).sum - 1) + (cstr strUri).length + (cstr strHost).length +
    (portText nPort).length < 4096
  post : 132 + ((params.map paramSize).sum - 1) +
    (decimal ((params.map paramSize).sum - 1)).length + (cstr strUri).length +
      (cstr strHost).length + (portText nPort).length < 4096

/-- All accesses of `get_params`, and of the two makers of strings, are inside. -/
def StaysInArrays (m : CHttpParamStringMaker) (strHost : Bytes) (nPort : ℕ) (strUri : Bytes) :
    Prop :=
  (∀ a ∈ m.getParamsAccesses, a.Inside) ∧
    (∀ a ∈ m.getMakeStringAccesses strHost nPort strUri, a.Inside) ∧
      ∀ a ∈ m.postMakeStringAccesses strHost nPort strUri, a.Inside

theorem zero_notMem_flatMap_paramText (params : List (Bytes × Bytes)) :
    (0 : Byte) ∉ params.flatMap paramText := by
  intro h
  obtain ⟨p, -, hp⟩ := List.mem_flatMap.mp h
  simp only [paramText, List.mem_append, List.mem_cons, List.not_mem_nil, or_false] at hp
  rcases hp with (hp | hp | hp) | hp
  · exact zero_notMem_cstr _ hp
  · exact absurd hp (by decide)
  · exact zero_notMem_cstr _ hp
  · exact absurd hp (by decide)

/-- **The maker stays inside its arrays** if and only if there is a parameter and all lengths are
small enough. -/
theorem staysInArrays_iff (calls : List AddParam) (strHost : Bytes) (nPort : ℕ) (strUri : Bytes) :
    StaysInArrays (madeBy calls) strHost nPort strUri ↔
      RequestsFit (calls.map AddParam.param) strHost nPort strUri := by
  rw [madeBy_eq]
  generalize calls.map AddParam.param = params
  have htext : paramsText { params } = (params.flatMap paramText).dropLast :=
    if_neg (not_not.mpr rfl)
  have hzero : (0 : Byte) ∉ (params.flatMap paramText).dropLast := fun h =>
    zero_notMem_flatMap_paramText params (List.dropLast_subset _ h)
  have hlen : (params.flatMap paramText).dropLast.length = (params.map paramSize).sum - 1 := by
    rw [List.length_dropLast, length_flatMap_paramText]
  have hget := length_getText (params.flatMap paramText).dropLast strHost nPort strUri
  have hpost := length_postText (params.flatMap paramText).dropLast strHost nPort strUri
  rw [cstr_eq_self hzero, hlen] at hget hpost
  have hbuffer : ∀ n : ℕ, (⟨.szBuffer, 0, n + 1⟩ : Access).Inside ↔ n < 4096 := by
    intro n
    rw [inside_iff, MakerArray.size]
    omega
  have hdigits : (params.map paramSize).sum < 4096 →
      decimalInt (int32 ((params.map paramSize).sum - 1 : ℕ)) =
        decimal ((params.map paramSize).sum - 1) := by
    intro htotal
    rw [int32_of_mem (by omega) (by omega), decimalInt, if_neg (by omega), Int.natAbs_natCast]
  have hparams := getParamsAccesses_inside_iff (m := { params })
  rw [or_iff_right (not_not.mpr rfl)] at hparams
  rw [StaysInArrays, getMakeStringAccesses, postMakeStringAccesses, List.forall_mem_append,
    List.forall_mem_append, List.forall_mem_singleton, List.forall_mem_singleton, hparams, htext,
    hbuffer, hbuffer, hget, hpost]
  constructor
  · rintro ⟨hfit, ⟨-, hget'⟩, -, hpost'⟩
    rw [hdigits hfit.total] at hpost'
    exact ⟨hfit, hget', hpost'⟩
  · rintro ⟨hfit, hget', hpost'⟩
    rw [← hdigits hfit.total] at hpost'
    exact ⟨hfit, ⟨hfit, hget'⟩, hfit, hpost'⟩

/-- Without a parameter, the byte in front of `szParams` is read. -/
theorem not_staysInArrays_nil :
    (⟨.szParams, -1, 1⟩ : Access) ∈ (madeBy []).getParamsAccesses ∧
      ¬ StaysInArrays (madeBy []) (ascii "h") 80 (ascii "/") := by
  have hmem : (⟨.szParams, -1, 1⟩ : Access) ∈ (madeBy []).getParamsAccesses := by decide
  exact ⟨hmem, fun h => absurd (h.1 _ hmem) (by decide)⟩

end CHttpParamStringMaker

end HttpCodec
end CModel
