import CModel.HttpCodec.QueryArgs

/-!
# Arguments that go through a query

A client percent-encodes the names and values of its arguments, and joins them with `=` and `&`
behind the `?` of the URI.  `parse_uri` decodes the whole query, and only then is it taken apart, so
that an encoded `&` or `=` cuts like one that was never encoded.

* `percentEncode`, `joinArgs`, `encodeArgs`: what the client does.
* `decodeString_encodeArgs`: **decoding gives back the joined text**, with nothing encoded.
* `QueryLine`: a `GET` request line with arguments.
* `queryRoundTrips_iff`: **when each name is read back.**
* `readsBack_of_plain`: without `&`, and without `=` in the names, it is.
-/

namespace CModel
namespace HttpCodec

/-! ## Encoding -/

/-- Letters and digits stand for themselves, other bytes are percent-encoded. -/
def percentEncode (s : Bytes) : Bytes :=
  s.flatMap fun c => if isalpha c || isdigit c then [c] else 37 :: hexPair c

/-- Names and values joined with `=` and `&`. -/
def joinArgs : List (Bytes × Bytes) → Bytes
  | [] => []
  | [p] => p.1 ++ 61 :: p.2
  | p :: q :: ps => p.1 ++ 61 :: p.2 ++ 38 :: joinArgs (q :: ps)

/-- The text that a client sends. -/
def encodeArgs (pairs : List (Bytes × Bytes)) : Bytes :=
  joinArgs (pairs.map fun p => (percentEncode p.1, percentEncode p.2))

theorem percentEncode_cons (c : Byte) (s : Bytes) :
    percentEncode (c :: s) =
      (if isalpha c || isdigit c then [c] else 37 :: hexPair c) ++ percentEncode s :=
  List.flatMap_cons

/-- An encoding is at least as long as what it encodes. -/
theorem length_le_percentEncode (s : Bytes) : s.length ≤ (percentEncode s).length := by
  induction s with
  | nil => exact le_rfl
  | cons c s ih =>
    rw [percentEncode_cons, List.length_append, List.length_cons]
    split
    · rw [List.length_singleton]
      omega
    · rw [List.length_cons]
      omega

/-- An encoding holds neither white space nor a zero. -/
theorem percentEncode_plain (s : Bytes) : ∀ c ∈ percentEncode s, isspace c = false ∧ c ≠ 0 := by
  intro x hx
  obtain ⟨c, -, hc⟩ := List.mem_flatMap.mp hx
  split at hc
  · next halnum =>
    rw [List.mem_singleton.mp hc]
    constructor
    · grind [isspace, isalpha, isdigit]
    · rintro rfl
      exact absurd halnum (by decide)
  · have hlt : c.toNat < 256 := c.toNat_lt
    have h₁ : c.toNat / 16 < 16 := by omega
    have h₂ : c.toNat % 16 < 16 := by omega
    rcases List.mem_cons.mp hc with rfl | hc
    · exact ⟨rfl, by decide⟩
    · rcases List.mem_cons.mp hc with rfl | hc
      · exact ⟨isspace_hexDigit h₁, hexDigit_ne_zero h₁⟩
      · rw [List.mem_singleton.mp hc]
        exact ⟨isspace_hexDigit h₂, hexDigit_ne_zero h₂⟩

theorem mem_joinArgs {pairs : List (Bytes × Bytes)} {c : Byte} (h : c ∈ joinArgs pairs) :
    c = 61 ∨ c = 38 ∨ ∃ p ∈ pairs, c ∈ p.1 ∨ c ∈ p.2 := by
  induction pairs using joinArgs.induct with
  | case1 => exact absurd h List.not_mem_nil
  | case2 p =>
    rcases List.mem_append.mp h with h | h
    · exact Or.inr (Or.inr ⟨p, by simp, Or.inl h⟩)
    · rcases List.mem_cons.mp h with h | h
      · exact Or.inl h
      · exact Or.inr (Or.inr ⟨p, by simp, Or.inr h⟩)
  | case3 p q ps ih =>
    rw [joinArgs, List.mem_append, List.mem_append, List.mem_cons, List.mem_cons] at h
    rcases h with (h | h | h) | h | h
    · exact Or.inr (Or.inr ⟨p, by simp, Or.inl h⟩)
    · exact Or.inl h
    · exact Or.inr (Or.inr ⟨p, by simp, Or.inr h⟩)
    · exact Or.inr (Or.inl h)
    · rcases ih h with h | h | ⟨p', hp', hc⟩
      · exact Or.inl h
      · exact Or.inr (Or.inl h)
      · exact Or.inr (Or.inr ⟨p', List.mem_cons_of_mem p hp', hc⟩)

theorem encodeArgs_plain (pairs : List (Bytes × Bytes)) :
    ∀ c ∈ encodeArgs pairs, isspace c = false ∧ c ≠ 0 := by
  intro c hc
  rcases mem_joinArgs hc with rfl | rfl | ⟨p, hp, hc⟩
  · decide
  · decide
  · obtain ⟨p', -, rfl⟩ := List.mem_map.mp hp
    rcases hc with hc | hc
    · exact percentEncode_plain _ c hc
    · exact percentEncode_plain _ c hc

theorem length_le_encodeArgs (pairs : List (Bytes × Bytes)) :
    (joinArgs pairs).length ≤ (encodeArgs pairs).length := by
  have hle := length_le_percentEncode
  unfold encodeArgs
  induction pairs using joinArgs.induct with
  | case1 => exact le_rfl
  | case2 p =>
    have h₁ := hle p.1
    have h₂ := hle p.2
    simp only [List.map_cons, List.map_nil, joinArgs, List.length_append, List.length_cons]
    omega
  | case3 p q ps ih =>
    have h₁ := hle p.1
    have h₂ := hle p.2
    simp only [List.map_cons, joinArgs, List.length_append, List.length_cons] at ih ⊢
    omega

/-! ## Decoding -/

/-- A percent escape stands for the byte it names. -/
theorem decodeString_hexPair (c : Byte) (s : Bytes) (room : ℕ) :
    decodeString (37 :: hexPair c ++ s) (room + 1) =
      (decodeString s room >>= fun out => .ok (c :: out)) := by
  have hlt : c.toNat < 256 := c.toNat_lt
  have hzero : (0 : Byte) ∉ hexPair c := by
    rw [hexPair, List.mem_cons, List.mem_singleton, not_or]
    exact ⟨(hexDigit_ne_zero (by omega)).symm, (hexDigit_ne_zero (by omega)).symm⟩
  have hread : toChar (strtol16 (cstr (hexPair c))) = c := by
    rw [cstr_eq_self hzero, toChar_strtol16_hexPair]
  rw [hexPair] at hread ⊢
  exact (decodeString_escape _ _ s room).trans (by rw [hread])

/-- What is encoded is decoded, whatever follows. -/
theorem decodeString_percentEncode (s t : Bytes) (room : ℕ) :
    decodeString (percentEncode s ++ t) (s.length + room) =
      (decodeString t room >>= fun out => .ok (s ++ out)) := by
  induction s with
  | nil =>
    rw [List.length_nil, Nat.zero_add]
    show decodeString t room = _
    cases decodeString t room <;> rfl
  | cons c s ih =>
    rw [percentEncode_cons, List.length_cons,
      show s.length + 1 + room = s.length + room + 1 by omega, List.append_assoc]
    split
    · next halnum =>
      have hne : c ≠ 37 := by
        rintro rfl
        exact absurd halnum (by decide)
      rw [List.singleton_append, decodeString_cons_of_ne hne, ih]
      cases decodeString t room <;> rfl
    · rw [decodeString_hexPair, ih]
      cases decodeString t room <;> rfl

/-- A name and its value, decoded. -/
theorem decodeString_pair (n v t : Bytes) (room : ℕ) :
    decodeString (percentEncode n ++ 61 :: (percentEncode v ++ t))
        (n.length + (v.length + room + 1)) =
      (decodeString t room >>= fun out => .ok (n ++ 61 :: (v ++ out))) := by
  rw [decodeString_percentEncode, decodeString_cons_of_ne (by decide), decodeString_percentEncode]
  cases decodeString t room <;> rfl

/-- **Decoding gives back the joined text.** -/
theorem decodeString_encodeArgs (pairs : List (Bytes × Bytes)) {room : ℕ}
    (hroom : (joinArgs pairs).length ≤ room) :
    decodeString (encodeArgs pairs) room = .ok (joinArgs pairs) := by
  unfold encodeArgs
  induction pairs using joinArgs.induct generalizing room with
  | case1 => rfl
  | case2 p =>
    rw [joinArgs, List.length_append, List.length_cons] at hroom
    obtain ⟨k, rfl⟩ : ∃ k, room = p.1.length + (p.2.length + k + 1) :=
      ⟨room - (p.1.length + p.2.length + 1), by omega⟩
    have h := decodeString_pair p.1 p.2 [] k
    rw [List.append_nil, decodeString, Outcome.ok_bind, List.append_nil] at h
    exact h
  | case3 p q ps ih =>
    rw [joinArgs, List.length_append, List.length_append, List.length_cons, List.length_cons]
      at hroom
    obtain ⟨k, rfl⟩ : ∃ k, room = p.1.length + (p.2.length + (k + 1) + 1) :=
      ⟨room - (p.1.length + p.2.length + 2), by omega⟩
    have h := decodeString_pair p.1 p.2
      (38 :: joinArgs ((q :: ps).map fun p => (percentEncode p.1, percentEncode p.2))) (k + 1)
    rw [decodeString_cons_of_ne (by decide), ih (by omega), Outcome.ok_bind, Outcome.ok_bind] at h
    simp only [List.map_cons, joinArgs, List.append_assoc, List.cons_append] at h ⊢
    exact h

/-! ## The names in the joined text -/

/-- A name stands in the joined text. -/
theorem exists_startsAt {pairs : List (Bytes × Bytes)} {n v : Bytes}
    (h : pairs.lookup n = some v) : ∃ i, StartsAt n (joinArgs pairs) i := by
  induction pairs using joinArgs.induct with
  | case1 => exact absurd h (by simp)
  | case2 p =>
    rw [List.lookup_cons] at h
    split at h
    · next hn =>
      rw [beq_iff_eq] at hn
      exact ⟨0, by rw [joinArgs, ← hn]; exact startsAt_zero n p.2⟩
    · exact absurd h (by simp)
  | case3 p q ps ih =>
    rw [List.lookup_cons] at h
    rw [joinArgs]
    split at h
    · next hn =>
      rw [beq_iff_eq] at hn
      refine ⟨0, ?_⟩
      rw [← hn, List.append_assoc]
      exact startsAt_zero n _
    · obtain ⟨i, hi⟩ := ih h
      exact ⟨_, (startsAt_behind n _ _ i).mpr hi⟩

/-- No value has a `&`, and no name has a `&` or a `=`. -/
def Plain (pairs : List (Bytes × Bytes)) : Prop :=
  ∀ p ∈ pairs, (38 : Byte) ∉ p.1 ∧ (61 : Byte) ∉ p.1 ∧ (38 : Byte) ∉ p.2

/-- In a plain text a name reads its first value. -/
theorem reads_of_plain {pairs : List (Bytes × Bytes)} (hplain : Plain pairs) {n v : Bytes}
    (h : pairs.lookup n = some v) : Reads (joinArgs pairs) n v := by
  induction pairs using joinArgs.induct with
  | case1 => exact absurd h (by simp)
  | case2 p =>
    obtain ⟨hamp, -, hvalue⟩ := hplain p (by simp)
    rw [List.lookup_cons] at h
    split at h
    · next hn =>
      rw [beq_iff_eq] at hn
      rw [Option.some.injEq] at h
      subst hn h
      have hread := reads_front p.1 p.2
      rw [if_neg hamp, takeWhile_bne_of_notMem hvalue] at hread
      exact hread
    · exact absurd h (by simp)
  | case3 p q ps ih =>
    obtain ⟨hamp, heq, hvalue⟩ := hplain p (by simp)
    rw [List.lookup_cons] at h
    split at h
    · next hn =>
      rw [beq_iff_eq] at hn
      rw [Option.some.injEq] at h
      subst hn h
      have hread := reads_front p.1 (p.2 ++ 38 :: joinArgs (q :: ps))
      rw [if_neg hamp, takeWhile_bne hvalue] at hread
      rw [joinArgs, List.append_assoc]
      exact hread
    · next hn =>
      have hs : (38 : Byte) ∉ p.1 ++ 61 :: p.2 := by
        rw [List.mem_append, List.mem_cons, not_or, not_or]
        exact ⟨hamp, by decide, hvalue⟩
      have hread := ih (fun p' hp' => hplain p' (List.mem_cons_of_mem p hp')) h
      -- the name is a later one, and all names are free of `=`
      have hname : (61 : Byte) ∉ n := by
        obtain ⟨l, r, hl, -⟩ := List.lookup_eq_some_iff.mp h
        exact (hplain (n, v) (List.mem_cons_of_mem p (by rw [hl]; simp))).2.1
      rw [joinArgs, reads_behind hs]
      · exact hread
      · intro h0
        rw [List.append_assoc] at h0
        rw [eq_of_startsAt_zero heq hname h0] at hn
        exact absurd hn (by simp)

/-! ## A request line with arguments -/

/-- A `GET` request line with arguments in its URI, and what follows it. -/
structure QueryLine where
  uri : Uri
  pairs : List (Bytes × Bytes)
  minor : Byte
  rest : Bytes
  query_eq : uri.query = some (encodeArgs pairs)
  front_plain : ∀ c ∈ uri.front, isspace c = false ∧ c ≠ 0
  pairs_noZero : ∀ p ∈ pairs, (0 : Byte) ∉ p.1 ∧ (0 : Byte) ∉ p.2
  query_length : (encodeArgs pairs).length ≤ 1023
  minor_eq : minor = 48 ∨ minor = 49
  length_lt : (requestLine (ascii "GET") uri.bytes minor ++ CR :: LF :: rest).length < 2 ^ 32

/-- A fresh object takes an accepted line. -/
theorem infuse_of_ok {dm : DataModel} {data : Bytes} {rl : CHttpRequestLine} {n : ℕ}
    (h : CHttpRequestLine.parseLine dm {} data = .ok (rl, n)) :
    CHttpRequestLine.infuse dm {} data = some (0, rl, n) := by
  rw [CHttpRequestLine.infuse, if_neg Bool.false_ne_true, h]

namespace QueryLine

variable (L : QueryLine)

/-- The bytes of the line and what follows it. -/
def bytes : Bytes := requestLine (ascii "GET") L.uri.bytes L.minor ++ CR :: LF :: L.rest

/-- **Each name is read back**: `infuse` takes the line, and `get` gives the first value of each
name. -/
def RoundTrips (dm : DataModel) : Prop :=
  ∃ rl skipLen, CHttpRequestLine.infuse dm {} L.bytes = some (0, rl, skipLen) ∧
    ∀ n v, L.pairs.lookup n = some v → rl.get n = v

/-- In the text that is joined without encoding anything, each name reads its first value.  A name
with a `=` reads nothing. -/
def ReadsBack : Prop :=
  ∀ n v, L.pairs.lookup n = some v →
    if (61 : Byte) ∈ n then v = [] else Reads (joinArgs L.pairs) n v

/-- The object after the line. -/
theorem infuse_eq (dm : DataModel) : ∃ rl skipLen,
    CHttpRequestLine.infuse dm {} L.bytes = some (0, rl, skipLen) ∧
      rl.urlArgs = splitArgs (joinArgs L.pairs) ∅ := by
  have hlength := length_le_encodeArgs L.pairs
  have hquery := L.query_length
  have hzero : (0 : Byte) ∉ joinArgs L.pairs := by
    intro h0
    rcases mem_joinArgs h0 with h | h | ⟨p, hp, hc⟩
    · exact absurd h (by decide)
    · exact absurd h (by decide)
    · exact hc.elim (L.pairs_noZero p hp).1 (L.pairs_noZero p hp).2
  have hparsed : L.uri.parsed dm = .ok (L.uri.path, L.uri.file, joinArgs L.pairs) := by
    have hroom : (joinArgs L.pairs).length < cMaxArgSize := by
      rw [cMaxArgSize]
      omega
    rw [Uri.parsed, L.query_eq]
    simp only [decodeString_encodeArgs L.pairs hroom.le, Outcome.ok_bind, if_pos hroom,
      cstr_eq_self hzero]
  have huri : ∀ c ∈ L.uri.bytes, isspace c = false ∧ c ≠ 0 := by
    intro c hc
    rw [Uri.bytes_of_some L.query_eq] at hc
    rcases List.mem_append.mp hc with hc | hc
    · exact L.front_plain c hc
    · rcases List.mem_cons.mp hc with rfl | hc
      · decide
      · exact encodeArgs_plain L.pairs c hc
  have hmethod : reqTypeOf (ascii "GET") = some cHttpReqTypeGet := rfl
  have hline : CHttpRequestLine.parseLine dm {}
      (requestLine (ascii "GET") L.uri.bytes L.minor ++ CR :: LF :: L.rest) = _ :=
    parseLine_requestLine hmethod huri L.minor_eq {} L.length_lt
  rw [hparsed, Outcome.ok_bind] at hline
  exact ⟨_, _, infuse_of_ok hline, rfl⟩

/-- **Each name is read back** if and only if it reads its first value in the text that is joined
without encoding anything. -/
theorem queryRoundTrips_iff (dm : DataModel) : L.RoundTrips dm ↔ L.ReadsBack := by
  obtain ⟨rl, skipLen, hinfuse, hargs⟩ := L.infuse_eq dm
  -- what `get` gives, by name
  have hget : ∀ n v, L.pairs.lookup n = some v →
      (rl.get n = v ↔ if (61 : Byte) ∈ n then v = [] else Reads (joinArgs L.pairs) n v) := by
    intro n v hv
    rw [CHttpRequestLine.get, hargs, StdMap.get]
    split
    · next hn =>
      rw [getElem?_splitArgs_of_mem hn, Std.ExtTreeMap.getElem?_empty, Option.getD_none]
      exact eq_comm
    · next hn =>
      obtain ⟨w, hw⟩ := exists_reads (exists_startsAt hv)
      rw [getElem?_splitArgs hn hw Std.ExtTreeMap.getElem?_empty, Option.getD_some]
      constructor
      · rintro rfl
        exact hw
      · exact fun h => hw.unique h
  constructor
  · rintro ⟨rl', skipLen', hinfuse', hall⟩ n v hv
    rw [hinfuse, Option.some.injEq, Prod.mk.injEq, Prod.mk.injEq] at hinfuse'
    obtain ⟨-, rfl, -⟩ := hinfuse'
    exact (hget n v hv).mp (hall n v hv)
  · intro hall
    exact ⟨rl, skipLen, hinfuse, fun n v hv => (hget n v hv).mpr (hall n v hv)⟩

/-- Plain arguments are read back. -/
theorem readsBack_of_plain (h : Plain L.pairs) : L.ReadsBack := by
  intro n v hv
  obtain ⟨l, r, hl, -⟩ := List.lookup_eq_some_iff.mp hv
  have hn := (h (n, v) (by rw [hl]; simp)).2.1
  rw [if_neg hn]
  exact reads_of_plain h hv

/-! ## A value with an ampersand -/

/-- The value `1&2` of the name `a`. -/
def ampersand : QueryLine where
  uri := ⟨[], [], some (encodeArgs [(ascii "a", ascii "1&2")]), query_notMem_nil,
    query_notMem_nil, slash_notMem_nil⟩
  pairs := [(ascii "a", ascii "1&2")]
  minor := 48
  rest := []
  query_eq := rfl
  front_plain := by decide
  pairs_noZero := by decide
  query_length := by decide
  minor_eq := minor_zero
  length_lt := by decide

/-- The encoded `&` ends the value. -/
theorem ampersand_not_roundTrips : ¬ ampersand.RoundTrips .lp64 := by
  rintro ⟨rl, skipLen, hinfuse, hget⟩
  obtain ⟨rl', skipLen', hinfuse', hargs⟩ := ampersand.infuse_eq .lp64
  rw [hinfuse, Option.some.injEq, Prod.mk.injEq, Prod.mk.injEq] at hinfuse'
  obtain ⟨-, rfl, -⟩ := hinfuse'
  have ha : rl.get (ascii "a") = ascii "1" := by
    have hread := reads_front (ascii "a") (ascii "1&2")
    rw [CHttpRequestLine.get, hargs]
    exact StdMap.get_of_getElem? (getElem?_splitArgs (by decide) hread
      Std.ExtTreeMap.getElem?_empty)
  rw [hget (ascii "a") (ascii "1&2") rfl] at ha
  exact absurd ha (by decide)

end QueryLine

end HttpCodec
end CModel
