import CModel.HttpCodec.UtilHead

/-!
# The loop over the methods

`parseFirstLine` looks for a method in a `while(1)`, whose rounds change nothing as long as they
find none.

* `methodRound`, `methodRounds`, `firstLineRounds`: one round, the first rounds, and the function
  with at most so many of them.
* `parseFirstLine_eq_ok_iff`: the function as it stands in `Util` is this one.
* `Leaves`: after some number of rounds the loop is left.
* `leaves_iff`: **exactly when it is, for a message that is complete.**
-/

namespace CModel
namespace HttpCodec

namespace CHttpParser

/-- A round of the `while(1)` of `parseFirstLine`: where the target starts, if a method is found. -/
def methodRound (o : CHttpParser) : Outcome (Option ℕ × CHttpParser) := do
  let (found, o) ← o.parseMethod (ascii "GET ") .get
  if found then .ok (some 4, o)
  else do
    let (found, o) ← o.parseMethod (ascii "POST ") .post
    if found then .ok (some 5, o)
    else do
      let (found, o) ← o.parseMethod (ascii "HTTP/") .resp
      if found then .ok (some 5, o) else .ok (none, o)

/-- The first `n` rounds, as far as they are needed. -/
def methodRounds : ℕ → CHttpParser → Outcome (Option ℕ × CHttpParser)
  | 0, o => .ok (none, o)
  | n + 1, o => do
    let (pBegin, o) ← o.methodRound
    if pBegin.isSome then .ok (pBegin, o) else methodRounds n o

/-- `parseFirstLine` with at most `n` rounds; without a result where it is still in the loop. -/
def firstLineRounds (n : ℕ) (o : CHttpParser) : Outcome (Option (Bool × CHttpParser)) :=
  if 0 ∉ o.szFirstLine then .undefined
  else if (cstr o.szFirstLine).length < 10 then .ok (some (false, o))
  else do
    let (pBegin, o) ← methodRounds n o
    .ok (pBegin.map o.splitTarget)

/-- `parseFirstLine` comes to an end. -/
def Leaves (o : CHttpParser) : Prop := ∃ n r, o.firstLineRounds n = .ok (some r)

/-! ## Rounds -/

variable {o : CHttpParser} {szMethod : Bytes} {nMethodType : HttpMethodType}

theorem parseMethod_of_not_prefix (hlen : szMethod.length ≤ o.szFirstLine.length)
    (h : ¬szMethod <+: o.szFirstLine) : o.parseMethod szMethod nMethodType = .ok (false, o) := by
  have hne : o.szFirstLine.take szMethod.length ≠ szMethod := fun heq =>
    h (List.prefix_iff_eq_take.mpr heq.symm)
  rw [parseMethod, memcmpEq, if_pos hlen, Outcome.ok_bind, beq_false_of_ne hne]
  rfl

theorem parseMethod_of_strstr (hlen : szMethod.length ≤ o.szFirstLine.length)
    (h : strstr o.szFirstLine (ascii " HTTP") = none) :
    o.parseMethod szMethod nMethodType = .ok (false, o) := by
  rw [parseMethod, memcmpEq, if_pos hlen, Outcome.ok_bind, h]
  split <;> rfl

theorem exists_parseMethod (h : szMethod <+: o.szFirstLine) {k : ℕ}
    (hk : strstr o.szFirstLine (ascii " HTTP") = some k) (nMethodType : HttpMethodType) :
    ∃ o', o.parseMethod szMethod nMethodType = .ok (true, o') := by
  rw [parseMethod, memcmpEq, if_pos h.length_le, Outcome.ok_bind, ← List.prefix_iff_eq_take.mp h,
    beq_self_eq_true, hk]
  exact ⟨_, rfl⟩

/-- One of the three methods starts the text. -/
def HasMethod (text : Bytes) : Prop :=
  ascii "GET " <+: text ∨ ascii "POST " <+: text ∨ ascii "HTTP/" <+: text

/-- Without a second blank no round finds anything, nor changes anything. -/
theorem methodRound_none (hlen : 5 ≤ o.szFirstLine.length)
    (h : strstr o.szFirstLine (ascii " HTTP") = none) : o.methodRound = .ok (none, o) := by
  have hget : o.parseMethod (ascii "GET ") .get = .ok (false, o) :=
    parseMethod_of_strstr (Nat.le_of_succ_le hlen) h
  have hpost : o.parseMethod (ascii "POST ") .post = .ok (false, o) := parseMethod_of_strstr hlen h
  have hresp : o.parseMethod (ascii "HTTP/") .resp = .ok (false, o) := parseMethod_of_strstr hlen h
  simp only [methodRound, hget, hpost, hresp, Outcome.ok_bind, Bool.false_eq_true, if_false]

theorem methodRounds_none (hlen : 5 ≤ o.szFirstLine.length)
    (h : strstr o.szFirstLine (ascii " HTTP") = none) (n : ℕ) :
    methodRounds n o = .ok (none, o) := by
  induction n with
  | zero => rfl
  | succ n ih =>
    rw [methodRounds, methodRound_none hlen h, Outcome.ok_bind]
    exact ih

/-- With one, the first round finds the method. -/
theorem exists_methodRound (hlen : 5 ≤ o.szFirstLine.length) (hmethod : HasMethod o.szFirstLine)
    {k : ℕ} (hk : strstr o.szFirstLine (ascii " HTTP") = some k) :
    ∃ p o', o.methodRound = .ok (some p, o') := by
  by_cases h₁ : ascii "GET " <+: o.szFirstLine
  · obtain ⟨o', hget⟩ := exists_parseMethod h₁ hk .get
    exact ⟨4, o', by simp only [methodRound, hget, Outcome.ok_bind, if_true]⟩
  have hget : o.parseMethod (ascii "GET ") .get = .ok (false, o) :=
    parseMethod_of_not_prefix (Nat.le_of_succ_le hlen) h₁
  by_cases h₂ : ascii "POST " <+: o.szFirstLine
  · obtain ⟨o', hpost⟩ := exists_parseMethod h₂ hk .post
    refine ⟨5, o', ?_⟩
    simp only [methodRound, hget, hpost, Outcome.ok_bind, Bool.false_eq_true, if_false, if_true]
  have hpost : o.parseMethod (ascii "POST ") .post = .ok (false, o) :=
    parseMethod_of_not_prefix hlen h₂
  obtain ⟨o', hresp⟩ := exists_parseMethod ((hmethod.resolve_left h₁).resolve_left h₂) hk .resp
  refine ⟨5, o', ?_⟩
  simp only [methodRound, hget, hpost, hresp, Outcome.ok_bind, Bool.false_eq_true, if_false,
    if_true]

/-- When a line with a method lets the loop end. -/
theorem leaves_iff_line (hmethod : 10 ≤ (cstr o.szFirstLine).length → HasMethod o.szFirstLine) :
    o.Leaves ↔ 0 ∈ o.szFirstLine ∧
      ((cstr o.szFirstLine).length < 10 ∨ (strstr o.szFirstLine (ascii " HTTP")).isSome) := by
  by_cases hzero : 0 ∈ o.szFirstLine
  case neg =>
    refine iff_of_false ?_ fun h => hzero h.1
    rintro ⟨n, r, h⟩
    rw [firstLineRounds, if_pos hzero] at h
    exact absurd h (by simp)
  by_cases hshort : (cstr o.szFirstLine).length < 10
  case pos =>
    refine iff_of_true ⟨0, (false, o), ?_⟩ ⟨hzero, .inl hshort⟩
    rw [firstLineRounds, if_neg (not_not.mpr hzero), if_pos hshort]
  have hlen : 5 ≤ o.szFirstLine.length := by
    have hle : (cstr o.szFirstLine).length ≤ o.szFirstLine.length :=
      (List.takeWhile_prefix _).length_le
    omega
  cases hfind : strstr o.szFirstLine (ascii " HTTP") with
  | none =>
    refine iff_of_false ?_ fun h => h.2.elim hshort Bool.false_ne_true
    rintro ⟨n, r, h⟩
    rw [firstLineRounds, if_neg (not_not.mpr hzero), if_neg hshort, methodRounds_none hlen hfind,
      Outcome.ok_bind] at h
    exact absurd h (by simp)
  | some k =>
    obtain ⟨p, o', hround⟩ := exists_methodRound hlen (hmethod (Nat.not_lt.mp hshort)) hfind
    refine iff_of_true ⟨1, o'.splitTarget p, ?_⟩ ⟨hzero, .inr rfl⟩
    rw [firstLineRounds, if_neg (not_not.mpr hzero), if_neg hshort, methodRounds, hround,
      Outcome.ok_bind]
    rfl

/-- Where no method is found, the object stays as it is. -/
theorem eq_of_parseMethod {o' : CHttpParser}
    (h : o.parseMethod szMethod nMethodType = .ok (false, o')) : o' = o := by
  obtain ⟨equal, -, hrest⟩ := Outcome.bind_eq_ok.mp h
  split at hrest
  · exact (Prod.mk.inj (Outcome.ok.inj hrest)).2.symm
  · split at hrest
    · exact (Prod.mk.inj (Outcome.ok.inj hrest)).2.symm
    · exact absurd (Prod.mk.inj (Outcome.ok.inj hrest)).1 (by simp)

theorem eq_of_methodRound {o' : CHttpParser} (h : o.methodRound = .ok (none, o')) : o' = o := by
  obtain ⟨⟨found, o₁⟩, hget, h₁⟩ := Outcome.bind_eq_ok.mp h
  cases found with
  | true => exact absurd (Prod.mk.inj (Outcome.ok.inj h₁)).1 (by simp)
  | false =>
    obtain ⟨⟨found, o₂⟩, hpost, h₂⟩ := Outcome.bind_eq_ok.mp h₁
    cases found with
    | true => exact absurd (Prod.mk.inj (Outcome.ok.inj h₂)).1 (by simp)
    | false =>
      obtain ⟨⟨found, o₃⟩, hresp, h₃⟩ := Outcome.bind_eq_ok.mp h₂
      cases found with
      | true => exact absurd (Prod.mk.inj (Outcome.ok.inj h₃)).1 (by simp)
      | false =>
        rw [← (Prod.mk.inj (Outcome.ok.inj h₃)).2, eq_of_parseMethod hresp,
          eq_of_parseMethod hpost, eq_of_parseMethod hget]

/-- What the first round does not find, no round finds. -/
theorem exists_methodRounds_iff {p : ℕ} {o' : CHttpParser} :
    (∃ n, methodRounds n o = .ok (some p, o')) ↔ o.methodRound = .ok (some p, o') := by
  constructor
  · rintro ⟨n, h⟩
    induction n with
    | zero => exact absurd (Prod.mk.inj (Outcome.ok.inj h)).1 (by simp)
    | succ n ih =>
      obtain ⟨⟨q, o₁⟩, hround, hrest⟩ := Outcome.bind_eq_ok.mp h
      cases q with
      | some q => rwa [hround]
      | none =>
        obtain rfl := eq_of_methodRound hround
        exact ih hrest
  · intro h
    exact ⟨1, by rw [methodRounds, h]; rfl⟩

/-- A line that is looked through comes to a result by the method that the first round finds. -/
theorem parseFirstLine_eq (hzero : 0 ∈ o.szFirstLine) (hlong : ¬(cstr o.szFirstLine).length < 10) :
    o.parseFirstLine = o.methodRound >>= fun r =>
      match r.1 with
      | some p => .ok (r.2.splitTarget p)
      | none => .undefined := by
  rw [parseFirstLine, if_neg (not_not.mpr hzero), if_neg hlong, methodRound]
  cases o.parseMethod (ascii "GET ") .get with
  | undefined => rfl
  | ret code => rfl
  | ok r =>
    simp only [Outcome.ok_bind]
    split
    · rfl
    · cases r.2.parseMethod (ascii "POST ") .post with
      | undefined => rfl
      | ret code => rfl
      | ok r =>
        simp only [Outcome.ok_bind]
        split
        · rfl
        · cases r.2.parseMethod (ascii "HTTP/") .resp with
          | undefined => rfl
          | ret code => rfl
          | ok r =>
            simp only [Outcome.ok_bind]
            split <;> rfl

/-- The function as it stands in `Util` comes to a result exactly when the loop is left. -/
theorem parseFirstLine_eq_ok_iff {r : Bool × CHttpParser} :
    o.parseFirstLine = .ok r ↔ ∃ n, o.firstLineRounds n = .ok (some r) := by
  by_cases hzero : 0 ∈ o.szFirstLine
  case neg => simp [parseFirstLine, firstLineRounds, hzero]
  by_cases hshort : (cstr o.szFirstLine).length < 10
  case pos => simp [parseFirstLine, firstLineRounds, hzero, hshort]
  rw [parseFirstLine_eq hzero hshort]
  constructor
  · intro h
    obtain ⟨⟨p, o'⟩, hround, hrest⟩ := Outcome.bind_eq_ok.mp h
    cases p with
    | none => exact absurd hrest (by simp)
    | some p =>
      obtain ⟨n, hn⟩ := exists_methodRounds_iff.mpr hround
      refine ⟨n, ?_⟩
      rw [firstLineRounds, if_neg (not_not.mpr hzero), if_neg hshort, hn, Outcome.ok_bind]
      exact congrArg (fun r => Outcome.ok (some r)) (Outcome.ok.inj hrest)
  · rintro ⟨n, h⟩
    rw [firstLineRounds, if_neg (not_not.mpr hzero), if_neg hshort] at h
    obtain ⟨⟨p, o'⟩, hrounds, hrest⟩ := Outcome.bind_eq_ok.mp h
    cases p with
    | none => exact absurd (Outcome.ok.inj hrest) (by simp)
    | some p =>
      rw [exists_methodRounds_iff.mp ⟨n, hrounds⟩, Outcome.ok_bind]
      exact congrArg Outcome.ok (Option.some.inj (Outcome.ok.inj hrest))

/-! ## The line of a message -/

/-- The first line of a message, without its line end. -/
def lineOf (szHttpReq : Bytes) : Bytes :=
  szHttpReq.take ((strstr szHttpReq (ascii "\r\n")).getD 0)

/-- `m_szFirstLine`, with the byte at its end that `parse_head` does not write. -/
def withLast (o : CHttpParser) (last : Byte) : CHttpParser :=
  { o with szFirstLine := o.szFirstLine ++ [last] }

theorem zero_notMem_lineOf (szHttpReq : Bytes) : (0 : Byte) ∉ lineOf szHttpReq := by
  unfold lineOf
  cases hk : strstr szHttpReq (ascii "\r\n") with
  | none => exact List.not_mem_nil
  | some k =>
    intro hmem
    have hle : k ≤ (cstr szHttpReq).length := (findBy_eq_some_iff.mp hk).1
    have hcstr : cstr szHttpReq <+: szHttpReq := List.takeWhile_prefix _
    rw [Option.getD_some, ← List.take_append_drop (cstr szHttpReq).length szHttpReq,
      ← List.prefix_iff_eq_take.mp hcstr, List.take_append_of_le_length hle] at hmem
    exact zero_notMem_cstr szHttpReq (List.mem_of_mem_take hmem)

/-- What `parseField` leaves in `m_szFirstLine`. -/
theorem szFirstLine_parseField {o' : CHttpParser} {szHttpReq : Bytes} {total : ℤ}
    (h : o.parseField szHttpReq total = .ok (true, o')) :
    o'.szFirstLine = strncpy (lineOf szHttpReq) 4095 := by
  unfold parseField at h
  unfold lineOf
  split at h
  · exact absurd h (by simp)
  · next k hk =>
    obtain ⟨r, -, hr⟩ := Outcome.bind_eq_ok.mp h
    rw [Outcome.ok.injEq, Prod.mk.injEq] at hr
    rw [← hr.2, hk]
    rfl

/-- Whatever starts with no method is not a message. -/
theorem getLengthEx_of_not_hasMethod {dm : DataModel} {szHttpReq : Bytes} {nDataLen : ℤ}
    (h : ¬HasMethod szHttpReq) : getLengthEx dm szHttpReq nDataLen = .ok (-1, none) ∨
      getLengthEx dm szHttpReq nDataLen = .undefined := by
  have hno : ∀ {s : Bytes}, ¬s <+: szHttpReq →
      memcmpEq szHttpReq s = .ok false ∨ memcmpEq szHttpReq s = .undefined := by
    intro s hs
    unfold memcmpEq
    split
    · have hne : szHttpReq.take s.length ≠ s := fun heq =>
        hs (List.prefix_iff_eq_take.mpr heq.symm)
      exact .inl (by rw [beq_false_of_ne hne])
    · exact .inr rfl
  obtain ⟨hget, hrest⟩ := not_or.mp h
  obtain ⟨hpost, hresp⟩ := not_or.mp hrest
  rcases hno hget with hget | hget
  · rw [getLengthEx, hget, Outcome.ok_bind, if_neg Bool.false_ne_true]
    rcases hno hpost with hpost | hpost
    · rw [hpost, Outcome.ok_bind]
      beta_reduce
      extract_lets rest
      rw [Bool.or_false, if_neg Bool.false_ne_true]
      rcases hno hresp with hresp | hresp
      · left
        rw [hresp, Outcome.ok_bind]
        show (if (!(false || false || false)) = true then Outcome.ok (-1, none) else _) = _
        rw [Bool.or_self, Bool.or_self, if_pos Bool.not_false]
      · exact .inr (by rw [hresp, Outcome.undefined_bind])
    · exact .inr (by rw [hpost, Outcome.undefined_bind])
  · exact .inr (by rw [getLengthEx, hget, Outcome.undefined_bind])

/-- A complete message starts with a method. -/
theorem hasMethod_of_getLengthEx {dm : DataModel} {szHttpReq : Bytes} {nDataLen total : ℤ}
    {content : Option (ℤ × ℤ)} (h : getLengthEx dm szHttpReq nDataLen = .ok (total, content))
    (hpos : 0 < total) : HasMethod szHttpReq := by
  by_contra hnot
  rcases getLengthEx_of_not_hasMethod hnot with h' | h'
  · obtain ⟨rfl, -⟩ := Prod.mk.inj (Outcome.ok.inj (h'.symm.trans h))
    exact absurd hpos (by decide)
  · exact absurd (h'.symm.trans h) (by simp)

/-- The methods have no line end in them. -/
theorem HasMethod.lineOf {szHttpReq : Bytes} (h : HasMethod szHttpReq)
    (hlen : 10 ≤ (lineOf szHttpReq).length) (t : Bytes) :
    HasMethod ((lineOf szHttpReq).take 4095 ++ t) := by
  have hshort : ∀ s : Bytes, s.length ≤ 10 → s <+: szHttpReq →
      s <+: (CHttpParser.lineOf szHttpReq).take 4095 ++ t := by
    intro s hs hstart
    refine List.IsPrefix.trans (List.prefix_of_prefix_length_le hstart ?_ ?_)
      (List.prefix_append ..)
    · exact (List.take_prefix ..).trans (List.take_prefix ..)
    · rw [List.length_take]
      omega
  exact h.imp (hshort _ (by decide)) (Or.imp (hshort _ (by decide)) (hshort _ (by decide)))

/-- When the line of a message lets the loop end; `last` is the byte that is left in the array
behind a line that fills it. -/
def EndsLoop (line : Bytes) (last : Byte) : Prop :=
  line.length < 10 ∨ (ascii " HTTP" <:+: line.take 4095 ∧ (line.length < 4095 ∨ last = 0))

/-- The string in the array. -/
theorem cstr_strncpy_last {line : Bytes} (hzero : (0 : Byte) ∉ line) {last : Byte}
    (hend : line.length < 4095 ∨ last = 0) :
    0 ∈ strncpy line 4095 ++ [last] ∧ cstr (strncpy line 4095 ++ [last]) = line.take 4095 := by
  have hzero' : (0 : Byte) ∉ line.take 4095 := fun hmem => hzero (List.mem_of_mem_take hmem)
  rw [strncpy, cstr_eq_self hzero, List.append_assoc]
  rcases Nat.lt_or_ge line.length 4095 with hlt | hge
  · obtain ⟨n, hn⟩ : ∃ n, 4095 - line.length = n + 1 := ⟨4095 - line.length - 1, by omega⟩
    rw [hn, List.replicate_succ, List.cons_append]
    exact ⟨List.mem_append_right _ List.mem_cons_self, cstr_append_zero hzero' _⟩
  · rw [hend.resolve_left (Nat.not_lt.mpr hge), Nat.sub_eq_zero_of_le hge, List.replicate_zero,
      List.nil_append]
    exact ⟨List.mem_append_right _ List.mem_cons_self, cstr_append_zero hzero' []⟩

/-- Without a zero at its end, the array is not a string. -/
theorem zero_notMem_strncpy_last {line : Bytes} (hzero : (0 : Byte) ∉ line) {last : Byte}
    (hfull : 4095 ≤ line.length) (hlast : last ≠ 0) : 0 ∉ strncpy line 4095 ++ [last] := by
  rw [strncpy, cstr_eq_self hzero, Nat.sub_eq_zero_of_le hfull, List.replicate_zero,
    List.append_nil, List.mem_append, List.mem_singleton, not_or]
  exact ⟨fun hmem => hzero (List.mem_of_mem_take hmem), hlast.symm⟩

/-- The line of a message that is complete, in the array. -/
theorem leaves_line_iff {szHttpReq : Bytes} (hmethod : HasMethod szHttpReq) {last : Byte}
    (hline : o.szFirstLine = strncpy (lineOf szHttpReq) 4095) :
    (o.withLast last).Leaves ↔ EndsLoop (lineOf szHttpReq) last := by
  have hzero := zero_notMem_lineOf szHttpReq
  have harray : (o.withLast last).szFirstLine = strncpy (lineOf szHttpReq) 4095 ++ [last] := by
    rw [withLast, hline]
  have hfront : ∃ t, (o.withLast last).szFirstLine = (lineOf szHttpReq).take 4095 ++ t := by
    rw [harray, strncpy, cstr_eq_self hzero, List.append_assoc]
    exact ⟨_, rfl⟩
  by_cases hend : (lineOf szHttpReq).length < 4095 ∨ last = 0
  case pos =>
    obtain ⟨hmem, hcstr⟩ := cstr_strncpy_last hzero hend
    rw [← harray] at hmem hcstr
    have hlen : (cstr (o.withLast last).szFirstLine).length < 10 ↔
        (lineOf szHttpReq).length < 10 := by
      rw [hcstr, List.length_take]
      omega
    have hfind : (strstr (o.withLast last).szFirstLine (ascii " HTTP")).isSome ↔
        ascii " HTTP" <:+: (lineOf szHttpReq).take 4095 := by
      rw [strstr, hcstr, isSome_findBy_iff]
    rw [leaves_iff_line, hlen, hfind, EndsLoop]
    · exact ⟨fun h => h.2.imp_right fun hin => ⟨hin, hend⟩,
        fun h => ⟨hmem, h.imp_right And.left⟩⟩
    · intro h10
      obtain ⟨t, ht⟩ := hfront
      rw [ht]
      exact hmethod.lineOf (by rw [hcstr, List.length_take] at h10; omega) t
  case neg =>
    obtain ⟨hfull, hlast⟩ := not_or.mp hend
    refine iff_of_false ?_ ?_
    · rintro ⟨n, r, h⟩
      rw [firstLineRounds, harray,
        if_pos (zero_notMem_strncpy_last hzero (Nat.not_lt.mp hfull) hlast)] at h
      exact absurd h (by simp)
    · rintro (hshort | ⟨-, h⟩)
      · exact hfull (by omega)
      · exact hend h

/-- A message without header lines. -/
theorem exists_parseField (o : CHttpParser) {line : Bytes} (hcr : CR ∉ line)
    (hzero : (0 : Byte) ∉ line) : ∃ o', o.parseField (line ++ ascii "\r\n\r\n" ++ [0])
      (line.length + 4 : ℕ) = .ok (true, o') := by
  have hend : strstr (line ++ ascii "\r\n\r\n" ++ [0]) (ascii "\r\n") = some line.length := by
    rw [List.append_assoc]
    exact strstr_crlf hcr hzero (CR :: LF :: [0])
  have hshort : ((line.length + 4 : ℕ) : ℤ) - (line.length + 2) < 4 := by
    push_cast
    omega
  rw [parseField, hend]
  simp only
  rw [fieldLoop.eq_def, if_pos hshort, Outcome.ok_bind]
  exact ⟨_, rfl⟩

end CHttpParser

/-- On a message that is complete, `parse_head` comes out of the loop exactly when its first line
has fewer than ten bytes, or `" HTTP"` in it and a zero behind it in the array. -/
theorem leaves_iff {dm : DataModel} {szHttpReq : Bytes} {nDataLen total : ℤ}
    {content : Option (ℤ × ℤ)} {o o' : CHttpParser}
    (hlen : getLengthEx dm szHttpReq nDataLen = .ok (total, content)) (hpos : 0 < total)
    (hfield : o.parseField szHttpReq total = .ok (true, o')) (last : Byte) :
    (o'.withLast last).Leaves ↔ CHttpParser.EndsLoop (CHttpParser.lineOf szHttpReq) last :=
  CHttpParser.leaves_line_iff (CHttpParser.hasMethod_of_getLengthEx hlen hpos)
    (CHttpParser.szFirstLine_parseField hfield)

/-- A request comes out of the loop. -/
theorem leaves_iff_get : ∃ o',
    CHttpParser.parseField {} (ascii "GET / HTTP/1.1\r\n\r\n" ++ [0]) 18 = .ok (true, o') ∧
      (o'.withLast 0).Leaves := by
  obtain ⟨o', hfield⟩ := CHttpParser.exists_parseField {}
    (show CR ∉ ascii "GET / HTTP/1.1" by decide) (by decide)
  have hlen : getLengthEx .lp64 (ascii "GET / HTTP/1.1\r\n\r\n" ++ [0]) 18 =
      .ok (18, some (0, 0)) := by decide
  have hends : CHttpParser.EndsLoop
      (CHttpParser.lineOf (ascii "GET / HTTP/1.1\r\n\r\n" ++ [0])) 0 :=
    .inr ⟨by decide, .inl (by decide)⟩
  exact ⟨o', hfield, (leaves_iff hlen (by decide) hfield 0).mpr hends⟩

/-- A response, which never comes out of it. -/
theorem response_never_leaves : ∃ o',
    getLengthEx .lp64 (ascii "HTTP/1.1 200 OK\r\n\r\n" ++ [0]) 19 = .ok (19, some (0, 0)) ∧
    CHttpParser.parseField {} (ascii "HTTP/1.1 200 OK\r\n\r\n" ++ [0]) 19 = .ok (true, o') ∧
    ∀ last, ¬(o'.withLast last).Leaves := by
  obtain ⟨o', hfield⟩ := CHttpParser.exists_parseField {}
    (show CR ∉ ascii "HTTP/1.1 200 OK" by decide) (by decide)
  refine ⟨o', by decide, hfield, ?_⟩
  intro last hleaves
  have hmethod : CHttpParser.HasMethod (ascii "HTTP/1.1 200 OK\r\n\r\n" ++ [0]) :=
    .inr (.inr (by decide))
  rw [CHttpParser.leaves_line_iff hmethod (CHttpParser.szFirstLine_parseField hfield)] at hleaves
  rcases hleaves with hshort | ⟨hin, -⟩
  · exact absurd hshort (by decide)
  · exact absurd hin (by decide)

end HttpCodec
end CModel
