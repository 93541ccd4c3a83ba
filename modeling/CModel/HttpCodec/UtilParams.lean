import CModel.HttpCodec.QueryRoundTrip
import CModel.HttpCodec.Util

/-!
# The parameters of the maker and the parser

`CHttpParamStringMaker::get_params` joins the parameters that have been added, and
`CHttpParamParser::parse` takes such a text apart.

* `IsParam`: the parameters that a client may add.
* `getParams_eq`: **the maker** joins them like `joinArgs`.
* `parse_joinArgs`: **the parser** gives each key the value of the first parameter with it.
-/

namespace CModel
namespace HttpCodec

/-- No white space, no zero and no other control byte, and nothing of the given bytes. -/
def IsPlain (not : Bytes) (s : Bytes) : Prop := ∀ c ∈ s, 32 < c ∧ c ∉ not

instance (not s : Bytes) : Decidable (IsPlain not s) :=
  inferInstanceAs (Decidable (∀ c ∈ s, 32 < c ∧ c ∉ not))

/-- A byte up to the blank is not in a plain text. -/
theorem IsPlain.notMem {not s : Bytes} (h : IsPlain not s) {c : Byte} (hc : c ≤ 32) : c ∉ s :=
  fun hmem => absurd (h c hmem).1 (UInt8.not_lt.mpr hc)

theorem IsPlain.notMem_of_mem {not s : Bytes} (h : IsPlain not s) {c : Byte} (hc : c ∈ not) :
    c ∉ s :=
  fun hmem => (h c hmem).2 hc

/-- A key that starts with a letter, and a value, both without `&`, `=` and `?`, short enough for
the buffer of `get_params`. -/
structure IsParam (p : Bytes × Bytes) : Prop where
  letter : ∃ c k, p.1 = c :: k ∧ isalpha c = true
  key_plain : IsPlain [38, 61, 63] p.1
  value_plain : IsPlain [38, 61, 63] p.2
  length_lt : (p.1 ++ 61 :: p.2 ++ [38]).length < 1024

/-- What the parser asks of a parameter. -/
structure IsArg (p : Bytes × Bytes) : Prop where
  letter : ∃ c k, p.1 = c :: k ∧ isalpha c = true
  key_noZero : (0 : Byte) ∉ p.1
  key_noSep : (38 : Byte) ∉ p.1 ∧ (61 : Byte) ∉ p.1
  value_noZero : (0 : Byte) ∉ p.2
  value_noSep : (38 : Byte) ∉ p.2

theorem IsParam.isArg {p : Bytes × Bytes} (h : IsParam p) : IsArg p :=
  ⟨h.letter, h.key_plain.notMem (by decide),
    ⟨h.key_plain.notMem_of_mem (by decide), h.key_plain.notMem_of_mem (by decide)⟩,
    h.value_plain.notMem (by decide), h.value_plain.notMem_of_mem (by decide)⟩

/-! ## The maker -/

/-- The parameters with a `&` behind each. -/
def catArgs (params : List (Bytes × Bytes)) : Bytes :=
  params.flatMap fun p => p.1 ++ 61 :: p.2 ++ [38]

theorem catArgs_cons (p : Bytes × Bytes) (params : List (Bytes × Bytes)) :
    catArgs (p :: params) = p.1 ++ 61 :: p.2 ++ 38 :: catArgs params := by
  rw [catArgs, List.flatMap_cons, List.append_assoc _ [38]]
  rfl

theorem joinArgs_append {params : List (Bytes × Bytes)} (h : params ≠ []) :
    joinArgs params ++ [38] = catArgs params := by
  induction params using joinArgs.induct with
  | case1 => exact absurd rfl h
  | case2 p => rw [catArgs_cons, joinArgs]; rfl
  | case3 p q ps ih =>
    rw [catArgs_cons, joinArgs, ← ih (by simp), List.append_assoc, List.cons_append]

/-- The joined text of parameters is plain but for its separators. -/
theorem isPlain_joinArgs {params : List (Bytes × Bytes)} (h : ∀ p ∈ params, IsParam p) :
    IsPlain [63] (joinArgs params) := by
  intro c hc
  rcases mem_joinArgs hc with rfl | rfl | ⟨p, hp, hc⟩
  · decide
  · decide
  · have hplain := hc.elim ((h p hp).key_plain c) ((h p hp).value_plain c)
    exact ⟨hplain.1, fun h0 => hplain.2 (by simp [List.mem_singleton.mp h0])⟩

theorem catParams_eq {params : List (Bytes × Bytes)} (h : ∀ p ∈ params, IsParam p)
    {szParams : Bytes} (hlt : szParams.length + (catArgs params).length < 4096) :
    CHttpParamStringMaker.catParams szParams params = .ok (szParams ++ catArgs params) := by
  induction params generalizing szParams with
  | nil =>
    rw [catArgs, List.flatMap_nil, List.append_nil]
    rfl
  | cons p params ih =>
    obtain ⟨hp, hparams⟩ := List.forall_mem_cons.mp h
    have htmp : cstr p.1 ++ 61 :: cstr p.2 ++ [38] = p.1 ++ 61 :: p.2 ++ [38] := by
      rw [cstr_eq_self (hp.key_plain.notMem (by decide)),
        cstr_eq_self (hp.value_plain.notMem (by decide))]
    have hcat : catArgs (p :: params) = p.1 ++ 61 :: p.2 ++ [38] ++ catArgs params := rfl
    have hone := hp.length_lt
    rw [hcat, List.length_append] at hlt
    rw [CHttpParamStringMaker.catParams, htmp, if_neg (by omega),
      ih hparams (by rw [List.length_append]; omega), hcat, List.append_assoc]

/-- **The maker joins the parameters.** -/
theorem getParams_eq {params : List (Bytes × Bytes)} (h : ∀ p ∈ params, IsParam p)
    (hne : params ≠ []) (hlt : (joinArgs params).length + 1 < 4096) :
    CHttpParamStringMaker.getParams { params } = .ok (joinArgs params) := by
  have hcat := joinArgs_append hne
  have hlen := congrArg List.length hcat
  rw [List.length_append, List.length_singleton] at hlen
  rw [CHttpParamStringMaker.getParams, if_neg (not_not.mpr rfl),
    catParams_eq h (by rw [List.length_nil]; omega), Outcome.ok_bind, List.nil_append, ← hcat,
    List.getLast?_concat]
  simp only [if_true, List.dropLast_concat]

/-! ## The parser -/

theorem strchr_append {c : Byte} {s : Bytes} (hc : c ∉ s) (hzero : (0 : Byte) ∉ s) (hne : c ≠ 0)
    (t : Bytes) : strchr (s ++ c :: t) c = some s.length := by
  rw [strchr, cstr_append hzero, cstr_cons hne, findChar_append hc]

/-- One round of the loop, from a letter on. -/
theorem paramLoop_of_letter {T : Bytes} {i j : ℕ} (hc : ∃ c s, T = c :: s ∧ isalpha c = true)
    (hi : strchr T 61 = some i) (hj : strchr T 38 = some j) (m : StdMap) :
    paramLoop T m = paramLoop (T.drop (j + 1))
      (if T.take i = [] then m
        else m.insertIfNew (T.take i) ((T.drop (i + 1)).take (j - i - 1))) := by
  obtain ⟨c, s, rfl, hc⟩ := hc
  rw [paramLoop.eq_def]
  simp only [if_neg (show ¬ isalpha c = false by rw [hc]; decide), hi, hj]

/-- The loop takes the first parameter. -/
theorem paramLoop_cons {p : Bytes × Bytes} (hp : IsArg p) (t : Bytes) (m : StdMap) :
    paramLoop (p.1 ++ 61 :: p.2 ++ 38 :: t) m = paramLoop t (m.insertIfNew p.1 p.2) := by
  obtain ⟨key, value⟩ := p
  obtain ⟨⟨c, k, hck, hc⟩, hkeyzero, ⟨hkeyamp, hkeyeq⟩, hvaluezero, hvalueamp⟩ := hp
  simp only at hck hkeyzero hkeyamp hkeyeq hvaluezero hvalueamp ⊢
  have hne : key ≠ [] := by
    rw [hck]
    exact List.cons_ne_nil c k
  have hstart : ∃ a s, key ++ 61 :: value ++ 38 :: t = a :: s ∧ isalpha a = true :=
    ⟨c, _, by rw [hck]; rfl, hc⟩
  have hi : strchr (key ++ 61 :: value ++ 38 :: t) 61 = some key.length := by
    rw [List.append_assoc]
    exact strchr_append hkeyeq hkeyzero (by decide) _
  have hamp : (38 : Byte) ∉ key ++ 61 :: value := by
    rw [List.mem_append, List.mem_cons, not_or, not_or]
    exact ⟨hkeyamp, by decide, hvalueamp⟩
  have hzero : (0 : Byte) ∉ key ++ 61 :: value := by
    rw [List.mem_append, List.mem_cons, not_or, not_or]
    exact ⟨hkeyzero, by decide, hvaluezero⟩
  have hj := strchr_append hamp hzero (by decide) t
  have hname : (key ++ 61 :: value ++ 38 :: t).take key.length = key := by
    rw [List.append_assoc, List.take_left]
  have hval : ((key ++ 61 :: value ++ 38 :: t).drop (key.length + 1)).take
      ((key ++ 61 :: value).length - key.length - 1) = value := by
    rw [← List.drop_drop, List.append_assoc, List.drop_left]
    refine List.take_left' ?_
    rw [List.length_append, List.length_cons]
    omega
  have hrest : (key ++ 61 :: value ++ 38 :: t).drop ((key ++ 61 :: value).length + 1) = t := by
    rw [← List.drop_drop, List.drop_left]
    rfl
  rw [paramLoop_of_letter hstart hi hj, hname, hval, hrest, if_neg hne]

/-- A key is given the value of its first parameter, unless it has one. -/
theorem getElem?_paramLoop {params : List (Bytes × Bytes)} (h : ∀ p ∈ params, IsArg p)
    (m : StdMap) (key : Bytes) :
    (paramLoop (catArgs params) m)[key]? = m[key]?.or (params.lookup key) := by
  induction params generalizing m with
  | nil =>
    rw [catArgs, List.flatMap_nil, paramLoop, List.lookup_nil, Option.or_none]
  | cons p params ih =>
    obtain ⟨hp, hparams⟩ := List.forall_mem_cons.mp h
    rw [catArgs_cons, paramLoop_cons hp, ih hparams, StdMap.getElem?_insertIfNew_or]

/-- The joined text does not end with a `&`. -/
theorem exists_last_joinArgs {params : List (Bytes × Bytes)} (h : ∀ p ∈ params, IsArg p)
    (hne : params ≠ []) : ∃ c, (joinArgs params).getLast? = some c ∧ c ≠ 38 := by
  induction params using joinArgs.induct with
  | case1 => exact absurd rfl hne
  | case2 p =>
    refine ⟨(61 :: p.2).getLast (List.cons_ne_nil 61 p.2), ?_, ?_⟩
    · rw [joinArgs, List.getLast?_append_cons, List.getLast?_eq_some_getLast]
    · intro h0
      rcases List.mem_cons.mp (List.getLast_mem (List.cons_ne_nil 61 p.2)) with h61 | hmem
      · exact absurd (h61.symm.trans h0) (by decide)
      · rw [h0] at hmem
        exact (h p (by simp)).value_noSep hmem
  | case3 p q ps ih =>
    obtain ⟨c, hc, hne⟩ := ih (fun p' hp' => h p' (List.mem_cons_of_mem p hp')) (by simp)
    refine ⟨c, ?_, hne⟩
    rw [joinArgs, List.getLast?_append_cons, List.getLast?_cons, hc]
    rfl

theorem zero_notMem_joinArgs {params : List (Bytes × Bytes)} (h : ∀ p ∈ params, IsArg p) :
    (0 : Byte) ∉ joinArgs params := by
  intro h0
  rcases mem_joinArgs h0 with h0 | h0 | ⟨p, hp, hc⟩
  · exact absurd h0 (by decide)
  · exact absurd h0 (by decide)
  · exact hc.elim (h p hp).key_noZero (h p hp).value_noZero

/-- **The parser gives each key the value of the first parameter with it.** -/
theorem parse_joinArgs {params : List (Bytes × Bytes)} (h : ∀ p ∈ params, IsArg p)
    (hne : params ≠ []) (hlt : (joinArgs params).length < 2 ^ 31 - 4096) (t : Bytes) :
    ∃ o, CHttpParamParser.parse {} (joinArgs params ++ t) (joinArgs params).length = .ok o ∧
      ∀ key, o.getParam key = (params.lookup key).getD [] := by
  have hread : readRange (joinArgs params ++ t) 0 (joinArgs params).length =
      .ok (joinArgs params) := by
    rw [readRange_of_le (by rw [List.length_append]; omega), List.drop_zero, List.take_left]
  obtain ⟨c, hc, hlast⟩ := exists_last_joinArgs h hne
  refine ⟨{ mapValues := paramLoop (catArgs params) ∅ }, ?_, ?_⟩
  · rw [CHttpParamParser.parse, if_neg (by omega), Int.toNat_natCast, hread, Outcome.ok_bind,
      cstr_eq_self (zero_notMem_joinArgs h)]
    simp only [hc, if_pos hlast, joinArgs_append hne]
  · intro key
    rw [CHttpParamParser.getParam, StdMap.get, getElem?_paramLoop h,
      Std.ExtTreeMap.getElem?_empty, Option.none_or]

/-! ## A text behind the last value -/

/-- The parameters with a text behind the last value. -/
def appendLast (t : Bytes) : List (Bytes × Bytes) → List (Bytes × Bytes)
  | [] => []
  | [p] => [(p.1, p.2 ++ t)]
  | p :: q :: ps => p :: appendLast t (q :: ps)

/-- The key of the last parameter is the key of an earlier one. -/
def RepeatsLastKey (params : List (Bytes × Bytes)) : Prop :=
  ∃ ps p, params = ps ++ [p] ∧ p.1 ∈ ps.map Prod.fst

theorem appendLast_concat (t : Bytes) (ps : List (Bytes × Bytes)) (p : Bytes × Bytes) :
    appendLast t (ps ++ [p]) = ps ++ [(p.1, p.2 ++ t)] := by
  induction ps with
  | nil => rfl
  | cons q ps ih =>
    cases ps with
    | nil => rfl
    | cons r ps =>
      rw [List.cons_append, List.cons_append, appendLast, ← List.cons_append, ih]
      rfl

theorem joinArgs_appendLast (t : Bytes) {params : List (Bytes × Bytes)} (h : params ≠ []) :
    joinArgs (appendLast t params) = joinArgs params ++ t := by
  induction params using joinArgs.induct with
  | case1 => exact absurd rfl h
  | case2 p =>
    rw [appendLast, joinArgs, joinArgs, List.append_assoc]
    rfl
  | case3 p q ps ih =>
    have hstep : joinArgs (appendLast t (p :: q :: ps)) =
        p.1 ++ 61 :: p.2 ++ 38 :: joinArgs (appendLast t (q :: ps)) := by
      cases ps <;> rfl
    rw [hstep, ih (by simp), joinArgs, List.append_assoc (p.1 ++ 61 :: p.2)]
    rfl

theorem isArg_appendLast {t : Bytes} (ht : (0 : Byte) ∉ t ∧ (38 : Byte) ∉ t)
    {params : List (Bytes × Bytes)} (h : ∀ p ∈ params, IsArg p) :
    ∀ p ∈ appendLast t params, IsArg p := by
  rcases List.eq_nil_or_concat params with rfl | ⟨ps, p, rfl⟩
  · exact h
  · rw [List.concat_eq_append] at h ⊢
    rw [appendLast_concat]
    intro q hq
    rcases List.mem_append.mp hq with hq | hq
    · exact h q (List.mem_append_left _ hq)
    · rw [List.mem_singleton.mp hq]
      obtain ⟨hletter, hzero, hsep, hvaluezero, hvaluesep⟩ := h p (by simp)
      refine ⟨hletter, hzero, hsep, ?_, ?_⟩
      · rw [List.mem_append, not_or]
        exact ⟨hvaluezero, ht.1⟩
      · rw [List.mem_append, not_or]
        exact ⟨hvaluesep, ht.2⟩

/-- **A text behind the last value** is not seen if and only if the last key is an earlier one. -/
theorem lookup_appendLast_iff {t : Bytes} (ht : t ≠ []) {params : List (Bytes × Bytes)}
    (hne : params ≠ []) :
    (∀ key value, params.lookup key = some value →
      ((appendLast t params).lookup key).getD [] = value) ↔ RepeatsLastKey params := by
  obtain ⟨ps, p, rfl⟩ := (List.eq_nil_or_concat params).resolve_left hne
  rw [List.concat_eq_append, appendLast_concat]
  -- the last parameter is looked up where its key is not an earlier one
  have hlookup : ∀ (v key : Bytes), (ps ++ [(p.1, v)]).lookup key =
      (ps.lookup key).or (if key = p.1 then some v else none) := by
    intro v key
    rw [List.lookup_append, List.lookup_cons, List.lookup_nil]
    by_cases hkey : key = p.1
    · rw [if_pos hkey, beq_iff_eq.mpr hkey]
    · rw [if_neg hkey, beq_eq_false_iff_ne.mpr hkey]
  have hmem : ∀ key, ps.lookup key = none ↔ key ∉ ps.map Prod.fst := by
    intro key
    rw [List.lookup_eq_none_iff, List.mem_map]
    constructor
    · rintro h ⟨q, hq, rfl⟩
      exact absurd (h q hq) (by simp)
    · intro h q hq
      exact bne_iff_ne.mpr fun h0 => h ⟨q, hq, h0.symm⟩
  have hlast : RepeatsLastKey (ps ++ [p]) ↔ p.1 ∈ ps.map Prod.fst := by
    constructor
    · rintro ⟨ps', p', heq, hp'⟩
      obtain ⟨rfl, hpp⟩ := List.append_inj' heq rfl
      rw [List.singleton_inj] at hpp
      rwa [hpp]
    · exact fun h => ⟨ps, p, rfl, h⟩
  rw [hlast]
  constructor
  · intro hall
    by_contra hnot
    have hnone := (hmem p.1).mpr hnot
    have h := hall p.1 p.2 (by rw [hlookup p.2 p.1, hnone, if_pos rfl, Option.none_or])
    rw [hlookup, hnone, if_pos rfl, Option.none_or, Option.getD_some] at h
    exact ht (List.append_right_eq_self.mp h)
  · intro hmem' key value hvalue
    rw [hlookup p.2 key] at hvalue
    rw [hlookup]
    cases hps : ps.lookup key with
    | some w =>
      rw [hps, Option.some_or, Option.some.injEq] at hvalue
      rw [Option.some_or, Option.getD_some, hvalue]
    | none =>
      rw [hps, Option.none_or] at hvalue
      split at hvalue
      · next hkey =>
        rw [hkey] at hps
        exact absurd hmem' ((hmem p.1).mp hps)
      · exact absurd hvalue (by simp)

end HttpCodec
end CModel
