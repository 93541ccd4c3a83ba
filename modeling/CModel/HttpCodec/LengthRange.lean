import CModel.HttpCodec.FirstLine

/-!
# The range of `get_length_ex`

`get_length_ex` copies the text behind the first `Content-Length: ` into `szTmp[30]` and adds the
number in it to the length of the head.

* `lengthText`: the text that is copied.
* `contentLengthOf_text`, `getLengthEx_of_get`, `getLengthEx_of_not_get`: the function on a text
  that a zero ends.
* `tmpCopy`: how many bytes are copied, where the copy is reached; `getLengthEx_of_tmpCopy`: thirty
  of them or more fill `szTmp`.
* `copyFits_iff`: **a zero remains in `szTmp`** exactly if the next `CR LF` is near.
* `lengthInRange_iff`: **the result is in range** exactly if, besides, the number is not negative
  and leaves room for the head, or takes the head back, or one byte more.
-/

namespace CModel
namespace HttpCodec

open CHttpParser (HasMethod)

variable {dm : DataModel} {text rest : Bytes}

/-! ## The function on a text -/

/-- What stands between the first `Content-Length: ` and the next `CR LF`. -/
def lengthText (text : Bytes) : Option Bytes :=
  (behind (ascii "Content-Length: ") text).bind fun t =>
    (findBy (· == ·) [CR, LF] t).map t.take

/-- How long it is. -/
theorem map_length_lengthText (text : Bytes) : (lengthText text).map List.length =
    (behind (ascii "Content-Length: ") text).bind (findBy (· == ·) [CR, LF]) := by
  rw [lengthText]
  cases behind (ascii "Content-Length: ") text with
  | none => rfl
  | some t =>
    rw [Option.bind_some, Option.bind_some]
    cases he : findBy (· == ·) [CR, LF] t with
    | none => rfl
    | some e =>
      have hle := findBy_add_length_le he
      rw [Option.map_some, Option.map_some, List.length_take, min_eq_left (by omega)]

/-- The first `CR LF` behind the first `Content-Length: `, if there is one, lies in the next `31`
bytes. -/
def LengthNear (text : Bytes) : Prop :=
  ∀ t, behind (ascii "Content-Length: ") text = some t → [CR, LF] <:+: t →
    [CR, LF] <:+: t.take 31

/-- **The text is shorter than `szTmp`** exactly if a `CR LF` is near. -/
theorem lengthNear_iff : LengthNear text ↔ ∀ x, lengthText text = some x → x.length < 30 := by
  constructor
  · intro h x hx
    have hlen := map_length_lengthText text
    rw [hx, Option.map_some] at hlen
    obtain ⟨t, ht, he⟩ := Option.bind_eq_some_iff.mp hlen.symm
    have hnear := h t ht (isSome_findBy_iff.mp (Option.isSome_of_eq_some he))
    exact Nat.lt_of_add_lt_add_right ((findBy_add_length_le_iff he 31).mpr hnear)
  · intro h t ht hin
    obtain ⟨e, he⟩ := Option.isSome_iff_exists.mp (isSome_findBy_iff.mpr hin)
    have hle := findBy_add_length_le he
    have hx := h (t.take e) (by rw [lengthText, ht, Option.bind_some, he, Option.map_some])
    rw [List.length_take, min_eq_left (by omega)] at hx
    exact (findBy_add_length_le_iff he 31).mp (Nat.add_le_add_right (Nat.le_of_lt_succ hx) 2)

theorem memcmpEq_of_isPrefix {s : Bytes} (h : s <+: text) (t : Bytes) :
    memcmpEq (text ++ t) s = .ok true := by
  rw [memcmpEq_append h.length_le, ← List.prefix_iff_eq_take.mp h, beq_self_eq_true]

/-- A text of the same length at least, or one byte less, is compared up to its zero. -/
theorem memcmpEq_of_not_isPrefix {s : Bytes} (hs : (0 : Byte) ∉ s)
    (hlen : s.length ≤ text.length + 1) (h : ¬ s <+: text) :
    memcmpEq (text ++ 0 :: rest) s = .ok false := by
  have hne : (text ++ 0 :: rest).take s.length ≠ s := fun heq =>
    h ((isPrefix_append_cons hs).mp (List.prefix_iff_eq_take.mpr heq.symm))
  have hle : s.length ≤ (text ++ 0 :: rest).length := by
    rw [List.length_append, List.length_cons]
    omega
  rw [memcmpEq, if_pos hle, beq_false_of_ne hne]

/-- **The number and its place**, where the text that is copied leaves a zero in `szTmp`. -/
theorem contentLengthOf_text (hzero : (0 : Byte) ∉ text) (headEnd : ℕ) :
    contentLengthOf dm (text ++ 0 :: rest) headEnd = match lengthText text with
      | none => .ok (0, 0)
      | some x => if 30 ≤ x.length then .undefined else .ok (int32 (headEnd + 4), atoi dm x) := by
  have hfind : strstr (text ++ 0 :: rest) (ascii "Content-Length: ") =
      findBy (· == ·) (ascii "Content-Length: ") text := strstr_append_zero hzero rest _
  rw [contentLengthOf, hfind, lengthText, behind]
  cases hk : findBy (· == ·) (ascii "Content-Length: ") text with
  | none => rfl
  | some k =>
    have hle : k + 16 ≤ text.length := findBy_add_length_le hk
    have hdrop : (text ++ 0 :: rest).drop (k + 16) = text.drop (k + 16) ++ 0 :: rest :=
      List.drop_append_of_le_length hle
    have hzero' : (0 : Byte) ∉ text.drop (k + 16) := fun h0 => hzero (List.mem_of_mem_drop h0)
    have hend : strstr (text.drop (k + 16) ++ 0 :: rest) (ascii "\r\n") =
        findBy (· == ·) [CR, LF] (text.drop (k + 16)) := strstr_append_zero hzero' rest _
    simp only [Option.map_some, Option.bind_some, hdrop, hend,
      show (ascii "Content-Length: ").length = 16 from rfl]
    cases he : findBy (· == ·) [CR, LF] (text.drop (k + 16)) with
    | none => rfl
    | some e =>
      have hle' := findBy_add_length_le he
      have htake : (text.drop (k + 16) ++ 0 :: rest).take e = (text.drop (k + 16)).take e :=
        List.take_append_of_le_length (by omega)
      have hlen : ((text.drop (k + 16)).take e).length = e := by
        rw [List.length_take]
        omega
      simp only [Option.map_some, htake, hlen]

/-- The sum, and whether the message is complete. -/
def withHead (headEnd : ℕ) (nDataLen : ℤ) (content : ℤ × ℤ) : Outcome (ℤ × Option (ℤ × ℤ)) :=
  if int32 (headEnd + 4) + content.2 < -2 ^ 31 ∨ 2 ^ 31 ≤ int32 (headEnd + 4) + content.2 then
    .undefined
  else if nDataLen < int32 (headEnd + 4) + content.2 then .ok (0, some content)
  else .ok (int32 (headEnd + 4) + content.2, some content)

/-- **The length of a `GET` request.** -/
theorem getLengthEx_of_get (hzero : (0 : Byte) ∉ text) (hget : ascii "GET " <+: text)
    (nDataLen : ℤ) : getLengthEx dm (text ++ 0 :: rest) nDataLen = match findCrlf text with
      | none => .ok (0, none)
      | some headEnd => withHead headEnd nDataLen (0, 0) := by
  have hfind : strstr (text ++ 0 :: rest) (ascii "\r\n\r\n") = findCrlf text :=
    strstr_append_zero hzero rest _
  have hget' := memcmpEq_of_isPrefix hget (0 :: rest)
  simp -implicitDefEqProofs only [getLengthEx, hget', Outcome.ok_bind, if_true, Bool.true_or,
    Bool.or_self, Bool.not_true, Bool.false_eq_true, if_false, hfind]
  cases findCrlf text <;> rfl

/-- The text is a `POST` request or a response. -/
def HasBodyType (text : Bytes) : Prop := ascii "POST " <+: text ∨ ascii "HTTP/" <+: text

theorem HasBodyType.not_get (h : HasBodyType text) : ¬ ascii "GET " <+: text := by
  intro hget
  rcases h with h | h
  · exact absurd (List.prefix_of_prefix_length_le hget h (by decide)) (by decide)
  · exact absurd (List.prefix_of_prefix_length_le hget h (by decide)) (by decide)

theorem HasBodyType.length (h : HasBodyType text) : 5 ≤ text.length := by
  rcases h with h | h <;> exact h.length_le

/-- **The tests of a `POST` request or a response.** -/
theorem HasBodyType.memcmpEq (h : HasBodyType text) (rest : Bytes) :
    memcmpEq (text ++ 0 :: rest) (ascii "GET ") = .ok false ∧
      (memcmpEq (text ++ 0 :: rest) (ascii "POST ") = .ok true ∨
        memcmpEq (text ++ 0 :: rest) (ascii "POST ") = .ok false ∧
          memcmpEq (text ++ 0 :: rest) (ascii "HTTP/") = .ok true) := by
  have hlen := h.length
  refine ⟨memcmpEq_of_not_isPrefix (by decide) (Nat.le_succ_of_le (Nat.le_of_succ_le hlen))
    h.not_get, ?_⟩
  by_cases hpost : ascii "POST " <+: text
  · exact Or.inl (memcmpEq_of_isPrefix hpost (0 :: rest))
  · exact Or.inr ⟨memcmpEq_of_not_isPrefix (by decide) (Nat.le_succ_of_le hlen) hpost,
      memcmpEq_of_isPrefix (h.resolve_left hpost) (0 :: rest)⟩

/-- **The length of any other message.** -/
theorem getLengthEx_of_not_get (hzero : (0 : Byte) ∉ text) (hmethod : HasMethod text)
    (hget : ¬ ascii "GET " <+: text) (nDataLen : ℤ) :
    getLengthEx dm (text ++ 0 :: rest) nDataLen = match findCrlf text with
      | none => .ok (0, none)
      | some headEnd =>
        contentLengthOf dm (text ++ 0 :: rest) headEnd >>= withHead headEnd nDataLen := by
  have hfind : strstr (text ++ 0 :: rest) (ascii "\r\n\r\n") = findCrlf text :=
    strstr_append_zero hzero rest _
  obtain ⟨hget', hpost' | ⟨hpost', hresp'⟩⟩ :=
    HasBodyType.memcmpEq (hmethod.resolve_left hget) rest
  · simp -implicitDefEqProofs only [getLengthEx, hget', hpost', Outcome.ok_bind, if_true,
      Bool.true_or, Bool.or_true, Bool.not_true, Bool.false_eq_true, if_false, hfind]
    cases findCrlf text <;> rfl
  · simp -implicitDefEqProofs only [getLengthEx, hget', hpost', hresp', Outcome.ok_bind, if_true,
      Bool.or_true, Bool.or_self, Bool.not_true, Bool.false_eq_true, if_false, hfind]
    cases findCrlf text <;> rfl

/-! ## The copy -/

/-- How many bytes `memcpy` puts into `szTmp`, where `get_length_ex` comes to it. -/
def tmpCopy (mem : Bytes) : Outcome (Option ℕ) := do
  let bGetType ← memcmpEq mem (ascii "GET ")
  let bPostType ← if bGetType then .ok false else memcmpEq mem (ascii "POST ")
  let bRespType ← if bGetType || bPostType then .ok false else memcmpEq mem (ascii "HTTP/")
  if !(bPostType || bRespType) then .ok none
  else match strstr mem (ascii "\r\n\r\n") with
    | none => .ok none
    | some _ => match strstr mem (ascii "Content-Length: ") with
      | none => .ok none
      | some k => .ok (strstr (mem.drop (k + 16)) (ascii "\r\n"))

/-- **What the copy takes**: a `POST` request or a response, the end of its head, and the two ends
of what is copied. -/
theorem exists_of_tmpCopy {mem : Bytes} {e : ℕ} (h : tmpCopy mem = .ok (some e)) :
    memcmpEq mem (ascii "GET ") = .ok false ∧
      (memcmpEq mem (ascii "POST ") = .ok true ∨
        memcmpEq mem (ascii "POST ") = .ok false ∧ memcmpEq mem (ascii "HTTP/") = .ok true) ∧
      ∃ headEnd k, strstr mem (ascii "\r\n\r\n") = some headEnd ∧
        strstr mem (ascii "Content-Length: ") = some k ∧
        strstr (mem.drop (k + 16)) (ascii "\r\n") = some e := by
  have htail : (match strstr mem (ascii "\r\n\r\n") with
      | none => Outcome.ok none
      | some _ => match strstr mem (ascii "Content-Length: ") with
        | none => Outcome.ok none
        | some k => Outcome.ok (strstr (mem.drop (k + 16)) (ascii "\r\n"))) = .ok (some e) →
      ∃ headEnd k, strstr mem (ascii "\r\n\r\n") = some headEnd ∧
        strstr mem (ascii "Content-Length: ") = some k ∧
        strstr (mem.drop (k + 16)) (ascii "\r\n") = some e := by
    intro h
    split at h
    · exact absurd (Outcome.ok.inj h) (by simp)
    · next headEnd hhead =>
      split at h
      · exact absurd (Outcome.ok.inj h) (by simp)
      · next k hk => exact ⟨headEnd, k, hhead, hk, Outcome.ok.inj h⟩
  obtain ⟨bGetType, hget, h⟩ := Outcome.bind_eq_ok.mp h
  cases bGetType with
  | true => exact absurd (Outcome.ok.inj h) (by simp)
  | false =>
    obtain ⟨bPostType, hpost, h⟩ := Outcome.bind_eq_ok.mp h
    cases bPostType with
    | true => exact ⟨hget, Or.inl hpost, htail h⟩
    | false =>
      obtain ⟨bRespType, hresp, h⟩ := Outcome.bind_eq_ok.mp h
      cases bRespType with
      | true => exact ⟨hget, Or.inr ⟨hpost, hresp⟩, htail h⟩
      | false => exact absurd (Outcome.ok.inj h) (by simp)

/-- **Thirty bytes or more leave no zero in `szTmp`.** -/
theorem getLengthEx_of_tmpCopy {mem : Bytes} {e : ℕ} (h : tmpCopy mem = .ok (some e))
    (he : 30 ≤ e) (nDataLen : ℤ) : getLengthEx dm mem nDataLen = .undefined := by
  obtain ⟨hget, hbody, headEnd, k, hhead, hk, hend⟩ := exists_of_tmpCopy h
  have hcontent : contentLengthOf dm mem headEnd = .undefined := by
    rw [contentLengthOf, hk]
    simp only [hend, if_pos he]
  rcases hbody with hpost | ⟨hpost, hresp⟩
  · simp -implicitDefEqProofs only [getLengthEx, hget, hpost, Outcome.ok_bind, hhead, hcontent,
      Outcome.undefined_bind, Bool.or_true, Bool.true_or, Bool.not_true, Bool.false_eq_true,
      if_false, if_true]
  · simp -implicitDefEqProofs only [getLengthEx, hget, hpost, hresp, Outcome.ok_bind, hhead,
      hcontent, Outcome.undefined_bind, Bool.or_true, Bool.or_self, Bool.not_true,
      Bool.false_eq_true, if_false, if_true]

theorem prefix_of_memcmpEq {s : Bytes} (hs : (0 : Byte) ∉ s)
    (h : memcmpEq (text ++ 0 :: rest) s = .ok true) : s <+: text := by
  unfold memcmpEq at h
  split at h
  · rw [Outcome.ok.injEq, beq_iff_eq] at h
    exact (isPrefix_append_cons hs).mp (List.prefix_iff_eq_take.mpr h.symm)
  · exact absurd h (by simp)

/-- Only a `POST` request or a response comes to the copy. -/
theorem hasBodyType_of_tmpCopy {e : ℕ} (h : tmpCopy (text ++ 0 :: rest) = .ok (some e)) :
    HasBodyType text := by
  obtain ⟨-, hpost | ⟨-, hresp⟩, -⟩ := exists_of_tmpCopy h
  · exact Or.inl (prefix_of_memcmpEq (by decide) hpost)
  · exact Or.inr (prefix_of_memcmpEq (by decide) hresp)

/-- **The copy of a `POST` request or a response** ends at the `CR LF` behind the first
`Content-Length: `. -/
theorem tmpCopy_text (hzero : (0 : Byte) ∉ text) (hbody : HasBodyType text) :
    tmpCopy (text ++ 0 :: rest) = match findCrlf text with
      | none => .ok none
      | some _ => .ok ((lengthText text).map List.length) := by
  have hfind : strstr (text ++ 0 :: rest) (ascii "\r\n\r\n") = findCrlf text :=
    strstr_append_zero hzero rest _
  have hcopy : (match strstr (text ++ 0 :: rest) (ascii "Content-Length: ") with
      | none => Outcome.ok none
      | some k => Outcome.ok (strstr ((text ++ 0 :: rest).drop (k + 16)) (ascii "\r\n"))) =
      Outcome.ok ((lengthText text).map List.length) := by
    have hfind : strstr (text ++ 0 :: rest) (ascii "Content-Length: ") =
        findBy (· == ·) (ascii "Content-Length: ") text := strstr_append_zero hzero rest _
    rw [hfind, map_length_lengthText, behind]
    cases hk : findBy (· == ·) (ascii "Content-Length: ") text with
    | none => rfl
    | some k =>
      have hle : k + 16 ≤ text.length := findBy_add_length_le hk
      have hdrop : (text ++ 0 :: rest).drop (k + 16) = text.drop (k + 16) ++ 0 :: rest :=
        List.drop_append_of_le_length hle
      have hzero' : (0 : Byte) ∉ text.drop (k + 16) := fun h0 => hzero (List.mem_of_mem_drop h0)
      have hend : strstr (text.drop (k + 16) ++ 0 :: rest) (ascii "\r\n") =
          findBy (· == ·) [CR, LF] (text.drop (k + 16)) := strstr_append_zero hzero' rest _
      simp only [Option.map_some, Option.bind_some, hdrop, hend,
        show (ascii "Content-Length: ").length = 16 from rfl]
  obtain ⟨hget, hpost | ⟨hpost, hresp⟩⟩ := hbody.memcmpEq rest
  · simp -implicitDefEqProofs only [tmpCopy, hget, hpost, Outcome.ok_bind, if_true, Bool.true_or,
      Bool.or_true, Bool.not_true, Bool.false_eq_true, if_false, hfind, hcopy]
  · simp -implicitDefEqProofs only [tmpCopy, hget, hpost, hresp, Outcome.ok_bind, Bool.or_true,
      Bool.or_self, Bool.not_true, Bool.false_eq_true, if_false, hfind, hcopy]

/-- At most `29` bytes are copied, so that a zero remains in `szTmp`. -/
def CopyFits (text rest : Bytes) : Prop :=
  ∀ e, tmpCopy (text ++ 0 :: rest) = .ok (some e) → e ≤ 29

/-- **A zero remains in `szTmp`** exactly if a `CR LF` is near, where a body is looked for. -/
theorem copyFits_iff (hzero : (0 : Byte) ∉ text) :
    CopyFits text rest ↔
      (HasBodyType text → [CR, LF, CR, LF] <:+: text → LengthNear text) := by
  constructor
  · intro h hbody hcrlf
    obtain ⟨headEnd, hhead⟩ := Option.isSome_iff_exists.mp (isSome_findBy_iff.mpr hcrlf)
    have hcopy : tmpCopy (text ++ 0 :: rest) = _ := tmpCopy_text hzero hbody
    rw [show findCrlf text = some headEnd from hhead] at hcopy
    exact lengthNear_iff.mpr fun x hx => Nat.lt_succ_of_le (h x.length (by rw [hcopy, hx]; rfl))
  · intro h e he
    have hbody := hasBodyType_of_tmpCopy he
    rw [tmpCopy_text hzero hbody] at he
    cases hhead : findCrlf text with
    | none =>
      rw [hhead] at he
      exact absurd (Outcome.ok.inj he) (by simp)
    | some headEnd =>
      rw [hhead, Outcome.ok.injEq, Option.map_eq_some_iff] at he
      obtain ⟨x, hx, rfl⟩ := he
      have hnear := h hbody (isSome_findBy_iff.mp (Option.isSome_of_eq_some hhead))
      exact Nat.le_of_lt_succ (lengthNear_iff.mp hnear x hx)

/-- A request whose length has few digits. -/
theorem copyFits_iff_short : CopyFits (ascii "POST / HTTP/1.0\r\nContent-Length: 1\r\n\r\nx") [] ↔
    (HasBodyType (ascii "POST / HTTP/1.0\r\nContent-Length: 1\r\n\r\nx") →
      [CR, LF, CR, LF] <:+: ascii "POST / HTTP/1.0\r\nContent-Length: 1\r\n\r\nx" →
      LengthNear (ascii "POST / HTTP/1.0\r\nContent-Length: 1\r\n\r\nx")) :=
  copyFits_iff (by decide)

/-- A request whose length has thirty digits. -/
def thirtyDigits : Bytes :=
  ascii "POST / HTTP/1.0\r\nContent-Length: 000000000000000000000000000001\r\n\r\nx"

/-- **Thirty digits fill `szTmp`.** -/
theorem thirtyDigits_not_copyFits : ¬ CopyFits thirtyDigits [] := by
  intro h
  have hcopy : tmpCopy (thirtyDigits ++ [0]) = .ok (some 30) := by decide
  exact absurd (h 30 hcopy) (by decide)

/-! ## The range -/

/-- The result is `-1`, `0` or a length that takes in the head and is taken from the text; where it
is a length, that of the body is not negative and reaches from its place to the end. -/
def ResultInRange (text : Bytes) (result : Outcome (ℤ × Option (ℤ × ℤ))) : Prop :=
  ∃ ret content, result = .ok (ret, content) ∧
    (ret = -1 ∨ ret = 0 ∨
      ∃ headEnd, findCrlf text = some headEnd ∧ (headEnd + 4 : ℤ) ≤ ret ∧ ret ≤ text.length) ∧
    (0 < ret → ∃ pos len, content = some (pos, len) ∧ 0 ≤ len ∧ (0 < pos → pos + len = ret))

/-- The length of a text is in range. -/
def LengthInRange (dm : DataModel) (text rest : Bytes) : Prop :=
  ResultInRange text (getLengthEx dm (text ++ 0 :: rest) text.length)

/-- A number behind a head that ends at `headEnd` is not negative and leaves room for the head in
an `int`, or it is the length of the head taken back, or one less. -/
def NumberFits (headEnd : ℕ) (len : ℤ) : Prop :=
  (0 ≤ len ∧ headEnd + 4 + len < 2 ^ 31) ∨ headEnd + 4 + len = 0 ∨ headEnd + 4 + len = -1

/-- **The sum is in range exactly if the number fits.** -/
theorem withHead_inRange_iff {headEnd : ℕ} (hhead : findCrlf text = some headEnd)
    (hlt : text.length < 2 ^ 31) {pos len : ℤ} (hpos : pos = 0 ∨ pos = headEnd + 4)
    (hlen : -2 ^ 31 ≤ len) :
    ResultInRange text (withHead headEnd text.length (pos, len)) ↔ NumberFits headEnd len := by
  have hle : headEnd + 4 ≤ text.length := findBy_add_length_le hhead
  have hint : int32 ((headEnd : ℤ) + 4) = headEnd + 4 := int32_of_mem (by omega) (by omega)
  rw [withHead, hint]
  constructor
  · rintro ⟨ret, content, hret, hrange, hbody⟩
    split at hret
    · exact absurd hret (by simp)
    · next hfits =>
      split at hret
      · -- more is announced than there is
        exact Or.inl ⟨by omega, by omega⟩
      · rw [Outcome.ok.injEq, Prod.mk.injEq] at hret
        obtain ⟨rfl, rfl⟩ := hret
        rcases hrange with h0 | h0 | ⟨headEnd', h0, hge, -⟩
        · exact Or.inr (Or.inr h0)
        · exact Or.inr (Or.inl h0)
        · rw [hhead, Option.some.injEq] at h0
          exact Or.inl ⟨by omega, by omega⟩
  · intro hnum
    unfold NumberFits at hnum
    rw [if_neg (by omega)]
    split
    · exact ⟨0, _, rfl, Or.inr (Or.inl rfl), fun h0 => absurd h0 (by omega)⟩
    · next hroom =>
      refine ⟨_, _, rfl, ?_, fun hret => ⟨pos, len, rfl, by omega, by omega⟩⟩
      rcases hnum with ⟨hge, -⟩ | h0 | h0
      · exact Or.inr (Or.inr ⟨headEnd, hhead, by omega, by omega⟩)
      · exact Or.inr (Or.inl h0)
      · exact Or.inl h0

/-- Without a number there is nothing to overflow. -/
theorem withHead_zero_inRange {headEnd : ℕ} (hhead : findCrlf text = some headEnd)
    (hlt : text.length < 2 ^ 31) :
    ResultInRange text (withHead headEnd text.length (0, 0)) := by
  have hle : headEnd + 4 ≤ text.length := findBy_add_length_le hhead
  refine (withHead_inRange_iff hhead hlt (Or.inl rfl) (by decide)).mpr (Or.inl ⟨le_rfl, ?_⟩)
  omega

/-- **The result is in range** exactly if, in a `POST` request or a response that has a head, the
text of the number is short and the number fits. -/
theorem lengthInRange_iff (hzero : (0 : Byte) ∉ text) (hlt : text.length < 2 ^ 31)
    (hmethod : HasMethod text) : LengthInRange dm text rest ↔
      ∀ headEnd, HasBodyType text → findCrlf text = some headEnd →
        LengthNear text ∧ ∀ x, lengthText text = some x → NumberFits headEnd (atoi dm x) := by
  by_cases hget : ascii "GET " <+: text
  · refine iff_of_true ?_ fun headEnd hbody => absurd hget hbody.not_get
    rw [LengthInRange, getLengthEx_of_get hzero hget]
    cases hhead : findCrlf text with
    | none => exact ⟨0, none, rfl, Or.inr (Or.inl rfl), fun h0 => absurd h0 (lt_irrefl 0)⟩
    | some headEnd => exact withHead_zero_inRange hhead hlt
  · have hbody : HasBodyType text := hmethod.resolve_left hget
    have hlength : getLengthEx dm (text ++ 0 :: rest) text.length = _ :=
      getLengthEx_of_not_get hzero hmethod hget text.length
    rw [LengthInRange]
    cases hhead : findCrlf text with
    | none =>
      rw [hlength, hhead]
      refine iff_of_true ?_ fun headEnd _ h0 => absurd h0 (by simp)
      exact ⟨0, none, rfl, Or.inr (Or.inl rfl), fun h0 => absurd h0 (lt_irrefl 0)⟩
    | some headEnd =>
      have hle : headEnd + 4 ≤ text.length := findBy_add_length_le hhead
      have hcontent : contentLengthOf dm (text ++ 0 :: rest) headEnd = _ :=
        contentLengthOf_text hzero headEnd
      rw [hhead] at hlength
      simp only at hlength
      cases hx : lengthText text with
      | none =>
        rw [hx] at hcontent
        rw [hlength, hcontent, Outcome.ok_bind]
        refine iff_of_true (withHead_zero_inRange hhead hlt) ?_
        intro headEnd' _ _
        refine ⟨lengthNear_iff.mpr ?_, fun x h0 => absurd h0 (by simp)⟩
        intro x h0
        rw [hx] at h0
        exact absurd h0 (by simp)
      | some x =>
        rw [hx] at hcontent
        simp only at hcontent
        rw [hlength, hcontent]
        by_cases hlong : 30 ≤ x.length
        · rw [if_pos hlong, Outcome.undefined_bind]
          refine iff_of_false ?_ ?_
          · rintro ⟨ret, content, h0, -⟩
            exact absurd h0 (by simp)
          · intro h
            have hshort := lengthNear_iff.mp (h headEnd hbody rfl).1 x hx
            omega
        · have hint : int32 ((headEnd : ℤ) + 4) = headEnd + 4 := int32_of_mem (by omega) (by omega)
          rw [if_neg hlong, Outcome.ok_bind, hint,
            withHead_inRange_iff hhead hlt (Or.inr rfl) (atoi_mem dm x).1]
          constructor
          · intro hnum headEnd' _ h0
            rw [Option.some.injEq] at h0
            subst h0
            refine ⟨lengthNear_iff.mpr ?_, ?_⟩
            · intro y hy
              rw [hx, Option.some.injEq] at hy
              rw [← hy]
              omega
            · intro y hy
              rw [Option.some.injEq] at hy
              rwa [← hy]
          · exact fun h => (h headEnd hbody rfl).2 x rfl

/-- A request that announces `-5` bytes. -/
def postMinusFive : Bytes := ascii "POST / HTTP/1.0\r\nContent-Length: -5\r\n\r\n"

theorem lengthInRange_postMinusFive_iff : LengthInRange .lp64 postMinusFive [] ↔
    ∀ headEnd, HasBodyType postMinusFive → findCrlf postMinusFive = some headEnd →
      LengthNear postMinusFive ∧
        ∀ x, lengthText postMinusFive = some x → NumberFits headEnd (atoi .lp64 x) :=
  lengthInRange_iff (by decide) (by decide) (Or.inr (Or.inl (by decide)))

/-- **Five bytes less than the head** are returned where `-5` is announced. -/
theorem postMinusFive_not_lengthInRange : ¬ LengthInRange .lp64 postMinusFive [] := by
  have hret : getLengthEx .lp64 (postMinusFive ++ [0]) postMinusFive.length =
      .ok (34, some (39, -5)) := by decide
  rintro ⟨ret, content, h, -, hbody⟩
  rw [hret, Outcome.ok.injEq, Prod.mk.injEq] at h
  obtain ⟨rfl, rfl⟩ := h
  obtain ⟨pos, len, hcontent, hlen, -⟩ := hbody (by decide)
  rw [Option.some.injEq, Prod.mk.injEq] at hcontent
  omega

end HttpCodec
end CModel
