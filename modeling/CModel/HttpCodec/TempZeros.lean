import CModel.HttpCodec.Util

/-!
# The zeros that `parseField` writes

`Util` takes `parseField` for a function of the text.  The code cuts its lines and names by zeros
that it writes into the buffer of its caller, each of them as long as a `CInsertTempZero` lives.

* `tempZero`: the life of a `CInsertTempZero`, from its constructor to its destructor.
* `InPlace.parseField`: the function with the buffer as it is at each place; a string without a zero
  behind it and a byte outside are undefined.
* `tempZero_eq`: a body that puts the buffer back leaves one that is put back.
* `InPlace.fieldRound_spec`, `InPlace.fieldLoop_spec`: a round of the loop, and the loop.
* `parseField_restores`: **the buffer is behind the call what it was before**, and the call does
  what `CHttpParser.parseField` says.
-/

namespace CModel
namespace HttpCodec

variable {β : Type}

/-! ## Memory -/

/-- The string that starts at a place of a buffer. -/
def cstrAt (mem : Bytes) (i : ℕ) : Outcome Bytes :=
  if 0 ∈ mem.drop i then .ok (cstr (mem.drop i)) else .undefined

/-- `strstr(mem + i, pat)` -/
def strstrAt (mem : Bytes) (i : ℕ) (pat : Bytes) : Outcome (Option ℕ) := do
  let s ← cstrAt mem i
  .ok (findBy (· == ·) pat s)

/-- The life of a `CInsertTempZero`: the constructor puts a zero in the place of the byte at `pSrc`,
`body` runs, and the destructor writes the byte back. -/
def tempZero (mem : Bytes) (pSrc : ℕ) (body : Bytes → Outcome (β × Bytes)) :
    Outcome (β × Bytes) := do
  let szOld ← readByte mem pSrc
  let (b, mem) ← body (mem.set pSrc 0)
  .ok (b, mem.set pSrc szOld)

namespace InPlace

/-- A round of the loop of `parseField`: `false` if the loop is left, the map, and `ptr`. -/
def fieldRound (nTotalLen : ℤ) (mem : Bytes) (ptr : ℕ) (mapFields : StdMap) :
    Outcome ((Bool × StdMap × ℕ) × Bytes) :=
  if nTotalLen - 4 < ptr then .ok ((false, mapFields, ptr), mem)
  else do
    let blank ← memcmpEq (mem.drop ptr) (ascii "\r\n")
    if blank then .ok ((false, mapFields, ptr), mem)
    else
      match ← strstrAt mem ptr (ascii "\r\n") with
      | none => .ok ((false, mapFields, ptr), mem)
      | some pLineEnd =>
        tempZero mem (ptr + pLineEnd) fun mem => do
          match ← strstrAt mem ptr (ascii ": ") with
          | none => .ok ((false, mapFields, ptr), mem)
          | some p =>
            tempZero mem (ptr + p) fun mem => do
              let strFieldName ← cstrAt mem ptr
              let strValue ← cstrAt mem (ptr + (p + 2))
              .ok ((true, mapFields.insertIfNew strFieldName strValue, ptr + (pLineEnd + 2)), mem)

/-- The loop of `parseField`, for `fuel` rounds at most. -/
def fieldLoop (nTotalLen : ℤ) : (fuel : ℕ) → (mem : Bytes) → (ptr : ℕ) → StdMap →
    Outcome ((StdMap × ℕ) × Bytes)
  | 0, _, _, _ => .undefined
  | fuel + 1, mem, ptr, mapFields => do
    let ((again, mapFields, ptr), mem) ← fieldRound nTotalLen mem ptr mapFields
    if again then fieldLoop nTotalLen fuel mem ptr mapFields else .ok ((mapFields, ptr), mem)

/-- `CHttpParser::parseField`, with the buffer behind the call. -/
def parseField (o : CHttpParser) (szHttpReq : Bytes) (nTotalLen : ℤ) :
    Outcome ((Bool × CHttpParser) × Bytes) := do
  match ← strstrAt szHttpReq 0 (ascii "\r\n") with
  | none => .ok ((false, o), szHttpReq)
  | some k =>
    tempZero szHttpReq k fun mem => do
      let szFirstLine := strncpy mem 4095
      let ((mapFields, ptr), mem) ← fieldLoop nTotalLen (mem.length + 1) mem (k + 2) o.mapFields
      let pszContent := if ((ptr + 2 : ℕ) : ℤ) < nTotalLen then some (mem.drop (ptr + 2))
        else o.pszContent
      .ok ((true, { o with szFirstLine, mapFields, pszContent }), mem)

end InPlace

/-! ## Zeros in a buffer -/

variable {mem s pat : Bytes} {i k n : ℕ}

/-- A zero at or behind the place ends the string. -/
theorem cstrAt_eq (hnul : mem[n]? = some 0) (hi : i ≤ n) :
    cstrAt mem i = .ok (cstr (mem.drop i)) := by
  refine if_pos (List.mem_iff_getElem?.mpr ⟨n - i, ?_⟩)
  rw [List.getElem?_drop, Nat.add_sub_cancel' hi, hnul]

theorem strstrAt_eq (hnul : mem[n]? = some 0) (hi : i ≤ n) (pat : Bytes) :
    strstrAt mem i pat = .ok (strstr (mem.drop i) pat) := by
  rw [strstrAt, cstrAt_eq hnul hi]
  rfl

/-- **A body that puts the buffer back leaves one that is put back.** -/
theorem tempZero_eq {c : Byte} {b : β} {body : Bytes → Outcome (β × Bytes)}
    (hc : mem[i]? = some c) (hbody : body (mem.set i 0) = .ok (b, mem.set i 0)) :
    tempZero mem i body = .ok (b, mem) := by
  obtain ⟨hi, rfl⟩ := List.getElem?_eq_some_iff.mp hc
  rw [tempZero, readByte, hc]
  simp only [Outcome.ok_bind, hbody, List.set_set, List.set_getElem_self]

/-- The part of a string in front of a place in it has no zero, and is what stands there. -/
theorem take_of_le_cstr (hk : k ≤ (cstr s).length) :
    (cstr s).take k = s.take k ∧ (0 : Byte) ∉ s.take k := by
  obtain ⟨r, hr⟩ : cstr s <+: s := List.takeWhile_prefix _
  have htake : (cstr s).take k = s.take k := by
    have happend : (cstr s ++ r).take k = (cstr s).take k := List.take_append_of_le_length hk
    rw [← happend, hr]
  refine ⟨htake, ?_⟩
  intro h0
  rw [← htake] at h0
  exact zero_notMem_cstr s (List.mem_of_mem_take h0)

/-- A zero in a string cuts it. -/
theorem cstr_set (hk : k < (cstr s).length) : cstr (s.set k 0) = s.take k := by
  have hlt : k < s.length := hk.trans_le (List.takeWhile_prefix _).length_le
  rw [List.set_eq_take_append_cons_drop, if_pos hlt]
  exact cstr_append_zero (take_of_le_cstr (Nat.le_of_lt hk)).2 _

theorem cstr_drop_set (hk : k < (cstr (mem.drop i)).length) :
    cstr ((mem.set (i + k) 0).drop i) = (mem.drop i).take k := by
  rw [List.drop_set, if_neg (by omega), Nat.add_sub_cancel_left, cstr_set hk]

/-- Behind a part of a string stands the rest of it. -/
theorem cstr_drop (hk : k ≤ (cstr s).length) : cstr (s.drop k) = (cstr s).drop k := by
  induction k generalizing s with
  | zero => rfl
  | succ k ih =>
    cases s with
    | nil => rfl
    | cons c s =>
      have hc : c ≠ 0 := by
        rintro rfl
        exact absurd hk (by simp [cstr])
      rw [cstr_cons hc] at hk ⊢
      exact ih (Nat.le_of_succ_le_succ hk)

/-- A string ends at the latest at a zero behind its start. -/
theorem add_length_cstr_le (hnul : mem[n]? = some 0) (hi : i ≤ n) :
    i + (cstr (mem.drop i)).length ≤ n := by
  by_contra hlt
  refine (take_of_le_cstr (s := mem.drop i) (k := n - i + 1) (by omega)).2
    (List.mem_iff_getElem?.mpr ⟨n - i, ?_⟩)
  rw [List.getElem?_take_of_lt (Nat.lt_succ_self _), List.getElem?_drop, Nat.add_sub_cancel' hi,
    hnul]

/-- The byte under an occurrence. -/
theorem getElem?_of_strstr {c : Byte} {pat : Bytes} (h : strstr s (c :: pat) = some k) :
    s[k]? = some c := by
  obtain ⟨t, ht⟩ := isPrefix_drop_of_strstr h
  have hhead : (s.drop k)[0]? = some c := by
    rw [← ht]
    rfl
  rwa [List.getElem?_drop, Nat.add_zero] at hhead

/-! ## The loop -/

namespace InPlace

variable {nTotalLen : ℤ} {ptr pLineEnd : ℕ} {mapFields : StdMap}

/-- The part of a round behind the end of the line: what is taken of the line, and no zero stays. -/
theorem line_spec (hend : strstr (mem.drop ptr) (ascii "\r\n") = some pLineEnd) :
    tempZero mem (ptr + pLineEnd) (fun mem => do
      match ← strstrAt mem ptr (ascii ": ") with
      | none => .ok ((false, mapFields, ptr), mem)
      | some p =>
        tempZero mem (ptr + p) fun mem => do
          let strFieldName ← cstrAt mem ptr
          let strValue ← cstrAt mem (ptr + (p + 2))
          .ok ((true, mapFields.insertIfNew strFieldName strValue, ptr + (pLineEnd + 2)), mem)) =
      .ok (match strstr ((mem.drop ptr).take pLineEnd) (ascii ": ") with
        | none => (false, mapFields, ptr)
        | some p => (true, mapFields.insertIfNew (((mem.drop ptr).take pLineEnd).take p)
            (((mem.drop ptr).take pLineEnd).drop (p + 2)), ptr + (pLineEnd + 2)), mem) := by
  have hlen : pLineEnd + 2 ≤ (cstr (mem.drop ptr)).length := findBy_add_length_le hend
  have hcr : mem[ptr + pLineEnd]? = some CR := by
    rw [← List.getElem?_drop]
    exact getElem?_of_strstr hend
  have hlt : ptr + pLineEnd < mem.length := (List.getElem?_eq_some_iff.mp hcr).1
  have hline : cstr ((mem.set (ptr + pLineEnd) 0).drop ptr) = (mem.drop ptr).take pLineEnd :=
    cstr_drop_set (by omega)
  have hnul : (mem.set (ptr + pLineEnd) 0)[ptr + pLineEnd]? = some 0 :=
    List.getElem?_set_self hlt
  have hsame : strstr ((mem.set (ptr + pLineEnd) 0).drop ptr) (ascii ": ") =
      strstr ((mem.drop ptr).take pLineEnd) (ascii ": ") := by
    rw [strstr, hline, strstr_eq_findBy (take_of_le_cstr (by omega)).2]
  refine tempZero_eq hcr ?_
  rw [strstrAt_eq hnul (Nat.le_add_right _ _), hsame, Outcome.ok_bind]
  cases hp : strstr ((mem.drop ptr).take pLineEnd) (ascii ": ") with
  | none => rfl
  | some p =>
    have hplen : p + 2 ≤ pLineEnd := (length_le_of_strstr hp).trans (List.length_take_le _ _)
    have hlinelen : (cstr ((mem.set (ptr + pLineEnd) 0).drop ptr)).length = pLineEnd := by
      have hle : (cstr (mem.drop ptr)).length ≤ (mem.drop ptr).length :=
        (List.takeWhile_prefix _).length_le
      rw [hline, List.length_take, Nat.min_eq_left (by omega)]
    have hcolon : (mem.set (ptr + pLineEnd) 0)[ptr + p]? = some 58 := by
      rw [← List.getElem?_drop]
      exact getElem?_of_strstr (hsame.trans hp)
    have hnul' : ((mem.set (ptr + pLineEnd) 0).set (ptr + p) 0)[ptr + pLineEnd]? = some 0 := by
      rw [List.getElem?_set_ne (by omega), hnul]
    have hname : cstr (((mem.set (ptr + pLineEnd) 0).set (ptr + p) 0).drop ptr) =
        ((mem.drop ptr).take pLineEnd).take p := by
      rw [cstr_drop_set (by omega), ← (take_of_le_cstr (by omega)).1, hline]
    have hvalue : cstr (((mem.set (ptr + pLineEnd) 0).set (ptr + p) 0).drop (ptr + (p + 2))) =
        ((mem.drop ptr).take pLineEnd).drop (p + 2) := by
      rw [List.drop_set, if_pos (by omega), ← List.drop_drop, cstr_drop (by omega), hline]
    refine tempZero_eq hcolon ?_
    rw [cstrAt_eq hnul' (by omega), cstrAt_eq hnul' (by omega), hname, hvalue]
    rfl

/-- **A round of the loop** leaves the buffer as it was, and does what a round on the text does. -/
theorem fieldRound_spec (hnul : mem[n]? = some 0) (htotal : nTotalLen ≤ n) (ptr : ℕ)
    (mapFields : StdMap) : ∃ again m ptr',
      fieldRound nTotalLen mem ptr mapFields = .ok ((again, m, ptr'), mem) ∧ ptr ≤ ptr' ∧
      (again = true → ptr < ptr' ∧ ptr' ≤ n) ∧
      HttpCodec.fieldLoop (nTotalLen - ptr) (mem.drop ptr) mapFields =
        if again then HttpCodec.fieldLoop (nTotalLen - ptr') (mem.drop ptr') m
        else .ok (m, nTotalLen - ptr', mem.drop ptr') := by
  have hn : n < mem.length := (List.getElem?_eq_some_iff.mp hnul).1
  rw [fieldRound, HttpCodec.fieldLoop.eq_def]
  by_cases hleft : nTotalLen - 4 < ptr
  · rw [if_pos hleft, if_pos (by omega)]
    exact ⟨false, mapFields, ptr, rfl, le_rfl, by simp, rfl⟩
  · have hmem : memcmpEq (mem.drop ptr) (ascii "\r\n") =
        .ok ((mem.drop ptr).take 2 == ascii "\r\n") :=
      if_pos (by rw [List.length_drop]; show 2 ≤ _; omega)
    rw [if_neg hleft, if_neg (by omega), hmem, Outcome.ok_bind, Outcome.ok_bind]
    by_cases hblank : ((mem.drop ptr).take 2 == ascii "\r\n") = true
    · rw [if_pos hblank, if_pos hblank]
      exact ⟨false, mapFields, ptr, rfl, le_rfl, by simp, rfl⟩
    · rw [if_neg hblank, if_neg hblank, strstrAt_eq hnul (by omega), Outcome.ok_bind]
      cases hend : strstr (mem.drop ptr) (ascii "\r\n") with
      | none => exact ⟨false, mapFields, ptr, rfl, le_rfl, by simp, rfl⟩
      | some pLineEnd =>
        have hlen : pLineEnd + 2 ≤ (cstr (mem.drop ptr)).length := findBy_add_length_le hend
        have hle := add_length_cstr_le hnul (show ptr ≤ n by omega)
        simp only [line_spec hend]
        cases hp : strstr ((mem.drop ptr).take pLineEnd) (ascii ": ") with
        | none => exact ⟨false, mapFields, ptr, rfl, le_rfl, by simp, rfl⟩
        | some p =>
          refine ⟨true, _, ptr + (pLineEnd + 2), rfl, by omega, fun _ => by omega, ?_⟩
          have hleft : nTotalLen - ((ptr + (pLineEnd + 2) : ℕ) : ℤ) =
            nTotalLen - ptr - (pLineEnd + 2) := by omega
          have hdrop : (mem.drop ptr).drop (pLineEnd + 2) = mem.drop (ptr + (pLineEnd + 2)) :=
            List.drop_drop
          rw [if_pos rfl, hleft, ← hdrop]

/-- **The loop** leaves the buffer as it was, and does what the loop on the text does. -/
theorem fieldLoop_spec (hnul : mem[n]? = some 0) (htotal : nTotalLen ≤ n) {fuel : ℕ}
    (hptr : ptr ≤ n) (hfuel : n - ptr < fuel) (mapFields : StdMap) : ∃ m ptr',
      fieldLoop nTotalLen fuel mem ptr mapFields = .ok ((m, ptr'), mem) ∧ ptr ≤ ptr' ∧
      HttpCodec.fieldLoop (nTotalLen - ptr) (mem.drop ptr) mapFields =
        .ok (m, nTotalLen - ptr', mem.drop ptr') := by
  induction fuel generalizing ptr mapFields with
  | zero => omega
  | succ fuel ih =>
    obtain ⟨again, m, ptr', hround, hge, hnext, htext⟩ := fieldRound_spec hnul htotal ptr mapFields
    rw [fieldLoop, hround, htext, Outcome.ok_bind]
    cases again with
    | false => exact ⟨m, ptr', rfl, hge, rfl⟩
    | true =>
      obtain ⟨hlt, hle⟩ := hnext rfl
      obtain ⟨m', ptr'', hloop, hge', htext'⟩ := ih hle (by omega) m
      exact ⟨m', ptr'', hloop, hge.trans hge', htext'⟩

end InPlace

/-- **`parseField` leaves the caller's buffer as it found it**: for every buffer with a zero at `n`
and every length up to that, the call comes to an end without a read or a write outside, each byte
is what it was, and what it returns and keeps is what `CHttpParser.parseField` says. -/
theorem parseField_restores (o : CHttpParser) {szHttpReq : Bytes} {nTotalLen : ℤ}
    (hnul : szHttpReq[n]? = some 0) (htotal : nTotalLen ≤ n) :
    ∃ r, InPlace.parseField o szHttpReq nTotalLen = .ok (r, szHttpReq) ∧
      o.parseField szHttpReq nTotalLen = .ok r := by
  rw [InPlace.parseField, CHttpParser.parseField, strstrAt_eq hnul (Nat.zero_le n), List.drop_zero,
    Outcome.ok_bind]
  cases hk : strstr szHttpReq (ascii "\r\n") with
  | none => exact ⟨(false, o), rfl, rfl⟩
  | some k =>
    have hlen : k + 2 ≤ (cstr szHttpReq).length := findBy_add_length_le hk
    have hle := add_length_cstr_le hnul (Nat.zero_le n)
    rw [List.drop_zero] at hle
    have hnul' : (szHttpReq.set k 0)[n]? = some 0 := by
      rw [List.getElem?_set_ne (by omega), hnul]
    have hdrop : ∀ i, k < i → (szHttpReq.set k 0).drop i = szHttpReq.drop i := fun i hi => by
      rw [List.drop_set, if_pos hi]
    have hn : n < szHttpReq.length := (List.getElem?_eq_some_iff.mp hnul).1
    have hfuel : n - (k + 2) < (szHttpReq.set k 0).length + 1 := by
      rw [List.length_set]
      omega
    obtain ⟨m, ptr, hloop, hge, htext⟩ := InPlace.fieldLoop_spec hnul' htotal
      (show k + 2 ≤ n by omega) hfuel o.mapFields
    rw [hdrop _ (by omega), hdrop _ (by omega), Nat.cast_add] at htext
    have hfirst : strncpy (szHttpReq.set k 0) 4095 = strncpy (szHttpReq.take k) 4095 := by
      rw [strncpy, strncpy, cstr_set (by omega), cstr_eq_self (take_of_le_cstr (by omega)).2]
    have hcontent : (if ((ptr + 2 : ℕ) : ℤ) < nTotalLen then
        some ((szHttpReq.set k 0).drop (ptr + 2)) else o.pszContent) =
        if 2 < nTotalLen - ptr then some ((szHttpReq.drop ptr).drop 2) else o.pszContent := by
      rw [hdrop _ (by omega), List.drop_drop]
      exact if_congr (by omega) rfl rfl
    refine ⟨(true, { o with
      szFirstLine := strncpy (szHttpReq.take k) 4095
      mapFields := m
      pszContent := if 2 < nTotalLen - ptr then some ((szHttpReq.drop ptr).drop 2)
        else o.pszContent }), tempZero_eq (getElem?_of_strstr hk) ?_, ?_⟩
    · simp only [hloop, Outcome.ok_bind, hfirst, hcontent]
    · exact Outcome.bind_eq_ok.mpr ⟨_, htext, rfl⟩

/-- A request whose second header line has no `": "`, so that the loop is left out of a scope. -/
theorem parseField_restores_break :
    ∃ r, InPlace.parseField {} (ascii "GET / HTTP/1.1\r\nA: b\r\nCd\r\n\r\n" ++ [0]) 28 =
        .ok (r, ascii "GET / HTTP/1.1\r\nA: b\r\nCd\r\n\r\n" ++ [0]) ∧
      CHttpParser.parseField {} (ascii "GET / HTTP/1.1\r\nA: b\r\nCd\r\n\r\n" ++ [0]) 28 = .ok r :=
  parseField_restores (n := 28) {} (by decide) (by decide)

end HttpCodec
end CModel
