import CModel.HttpCodec.RequestLine

/-!
# The parts that `parse_uri` finds

`parse_uri` cuts a URI at its first `?` and at the last `/` in front of it, and decodes what is
behind the `?` into `sArg`.

* `decodeAll`: the decoding of a text, without a bound.
* `decodeString_append`, `decode_cases`: what `decode_string` makes of a text that does not fit.
* `frontOf`, `queryOf`: what is in front of the first `?`, and what is behind it.
* `argEnd`: where the final zero of `sArg` is written; `parseUri_of_argEnd`: behind the end of
  `sArg`, nothing is returned.
* `argInBounds_uri`, `splitsUri_uri`: what `parse_uri` makes of a URI; `splitUri_noSlash`: and of a
  text without a `/` in front of the `?`.
* `parseUri_ne_undefined_iff`: **where `parse_uri` stays inside** of its buffers.
* `argInBounds_iff`: **`sArg` holds the whole query** exactly if no part of it from its start
  decodes to `1024` bytes.
* `splitsUri_iff`: **the URI is split without loss** exactly if, besides, a blank does not follow
  the `/` in front, and a URI without a `?` or a `/` meets a `long` of 32 bits.
-/

namespace CModel
namespace HttpCodec

variable {dm : DataModel}

/-! ## Decoding -/

/-- The decoding of a text: each `%` with the two bytes behind it is one byte, and every other byte
stands for itself. -/
def decodeAll : Bytes → Option Bytes
  | [] => some []
  | c :: rest =>
    if c = 37 then
      match rest with
      | a :: b :: rest' => (decodeAll rest').map (toChar (strtol16 (cstr [a, b])) :: ·)
      | _ => none
    else (decodeAll rest).map (c :: ·)

theorem decodeAll_nil : decodeAll [] = some [] := rfl

theorem decodeAll_cons (c : Byte) (s : Bytes) : decodeAll (c :: s) =
    if c = 37 then
      match s with
      | a :: b :: s' => (decodeAll s').map (toChar (strtol16 (cstr [a, b])) :: ·)
      | _ => none
    else (decodeAll s).map (c :: ·) := by
  rcases s with _ | ⟨a, _ | ⟨b, s⟩⟩ <;> rfl

@[simp] theorem decodeString_zero (s : Bytes) : decodeString s 0 = .ok [] := by
  cases s with
  | nil => rfl
  | cons c s =>
    rw [decodeString.eq_def]
    exact if_pos rfl

/-- A broken escape. -/
theorem decodeString_broken {s : Bytes} (h : s.length < 2) (room : ℕ) :
    decodeString (37 :: s) (room + 1) = .ret (-1) := by
  rw [decodeString.eq_def]
  rcases s with _ | ⟨a, _ | ⟨b, s⟩⟩
  · rfl
  · rfl
  · exact absurd h (by simp)

theorem decodeAll_escape (a b : Byte) (s : Bytes) : decodeAll (37 :: a :: b :: s) =
    (decodeAll s).map (toChar (strtol16 (cstr [a, b])) :: ·) := by
  rw [decodeAll_cons]
  exact if_pos rfl

theorem decodeAll_broken {s : Bytes} (h : s.length < 2) : decodeAll (37 :: s) = none := by
  rw [decodeAll_cons]
  rcases s with _ | ⟨a, _ | ⟨b, s⟩⟩
  · rfl
  · rfl
  · exact absurd h (by simp)

theorem decodeAll_cons_of_ne {c : Byte} (hc : c ≠ 37) (s : Bytes) :
    decodeAll (c :: s) = (decodeAll s).map (c :: ·) := by
  rw [decodeAll_cons]
  exact if_neg hc

/-- The induction along the decoding. -/
theorem escape_cases {motive : Bytes → Prop} (s : Bytes) (nil : motive [])
    (escape : ∀ a b s, motive s → motive (37 :: a :: b :: s))
    (broken : ∀ s : Bytes, s.length < 2 → motive (37 :: s))
    (plain : ∀ c s, c ≠ 37 → motive s → motive (c :: s)) : motive s := by
  induction hlen : s.length using Nat.strong_induction_on generalizing s with
  | h len ih =>
    cases s with
    | nil => exact nil
    | cons c s =>
      by_cases hc : c = 37
      · subst hc
        match s with
        | [] => exact broken [] (by decide)
        | [a] => exact broken [a] (by simp)
        | a :: b :: s =>
          refine escape a b s (ih s.length ?_ s rfl)
          rw [← hlen]
          simp only [List.length_cons]
          omega
      · refine plain c s hc (ih s.length ?_ s rfl)
        rw [← hlen, List.length_cons]
        omega

/-- **What is decoded in front** leaves the rest of the room to what follows. -/
theorem decodeString_append {r d : Bytes} (h : decodeAll r = some d) (t : Bytes) (n : ℕ) :
    decodeString (r ++ t) (d.length + n) =
      decodeString t n >>= fun out => .ok (d ++ out) := by
  have hcons : ∀ (c : Byte) (d : Bytes), (decodeString t n >>= fun out => .ok (d ++ out)) >>=
      (fun out => Outcome.ok (c :: out)) =
      decodeString t n >>= fun out => .ok (c :: d ++ out) := fun c d => by
    cases decodeString t n <;> rfl
  have hroom : ∀ d : Bytes, d.length + 1 + n = d.length + n + 1 := fun d => by omega
  induction r using escape_cases generalizing d with
  | nil =>
    rw [decodeAll_nil, Option.some.injEq] at h
    rw [← h, List.nil_append, List.length_nil, Nat.zero_add]
    cases decodeString t n <;> rfl
  | escape a b s ih =>
    rw [decodeAll_escape] at h
    obtain ⟨d, hd, rfl⟩ := Option.map_eq_some_iff.mp h
    rw [List.length_cons, hroom, List.cons_append, List.cons_append, List.cons_append,
      decodeString_escape, ih hd, hcons]
  | broken s hs =>
    rw [decodeAll_broken hs] at h
    exact absurd h (by simp)
  | plain c s hc ih =>
    rw [decodeAll_cons_of_ne hc] at h
    obtain ⟨d, hd, rfl⟩ := Option.map_eq_some_iff.mp h
    rw [List.length_cons, hroom, List.cons_append, decodeString_cons_of_ne hc, ih hd, hcons]

/-- A text that fits is decoded. -/
theorem decodeString_of_le {q d : Bytes} (h : decodeAll q = some d) {room : ℕ}
    (hle : d.length ≤ room) : decodeString q room = .ok d := by
  obtain ⟨n, rfl⟩ := Nat.exists_eq_add_of_le hle
  have happ := decodeString_append h [] n
  rw [List.append_nil] at happ
  rw [happ]
  show Outcome.ok (d ++ []) = _
  rw [List.append_nil]

/-- A part that fills the room is all that is decoded. -/
theorem decodeString_of_isPrefix {q r d : Bytes} (hr : r <+: q) (h : decodeAll r = some d)
    {room : ℕ} (hfull : d.length = room) : decodeString q room = .ok d := by
  obtain ⟨t, rfl⟩ := hr
  have happ := decodeString_append h t 0
  rw [Nat.add_zero, hfull] at happ
  rw [happ, decodeString_zero, Outcome.ok_bind, List.append_nil]

/-- A text fits, or a part of it fills the room, or a broken escape comes first. -/
def Decoding (q : Bytes) (room : ℕ) : Prop :=
  (∃ d, decodeAll q = some d ∧ d.length < room) ∨
    (∃ r d, r <+: q ∧ decodeAll r = some d ∧ d.length = room) ∨
      (decodeAll q = none ∧ decodeString q room = .ret (-1))

/-- One byte more is decoded from the bytes `e`. -/
theorem Decoding.cons {e s : Bytes} {x : Byte} {room : ℕ} (h : Decoding s room)
    (hall : ∀ s, decodeAll (e ++ s) = (decodeAll s).map (x :: ·))
    (hstring : decodeString (e ++ s) (room + 1) =
      decodeString s room >>= fun out => .ok (x :: out)) : Decoding (e ++ s) (room + 1) := by
  rcases h with ⟨d, hd, hlt⟩ | ⟨r, d, hr, hd, hlen⟩ | ⟨hnone, hret⟩
  · exact Or.inl ⟨x :: d, by rw [hall, hd, Option.map_some], Nat.succ_lt_succ hlt⟩
  · exact Or.inr (Or.inl ⟨e ++ r, x :: d, (List.prefix_append_right_inj e).mpr hr,
      by rw [hall, hd, Option.map_some], congrArg Nat.succ hlen⟩)
  · exact Or.inr (Or.inr ⟨by rw [hall, hnone, Option.map_none], by rw [hstring, hret]; rfl⟩)

/-- **Every text is of one of these kinds.** -/
theorem decode_cases (q : Bytes) (room : ℕ) : Decoding q room := by
  induction q using escape_cases generalizing room with
  | nil =>
    cases room with
    | zero => exact Or.inr (Or.inl ⟨[], [], List.nil_prefix, rfl, rfl⟩)
    | succ room => exact Or.inl ⟨[], rfl, Nat.succ_pos room⟩
  | escape a b s ih =>
    cases room with
    | zero => exact Or.inr (Or.inl ⟨[], [], List.nil_prefix, rfl, rfl⟩)
    | succ room =>
      exact (ih room).cons (e := [37, a, b]) (decodeAll_escape a b) (decodeString_escape a b s room)
  | broken s hs =>
    cases room with
    | zero => exact Or.inr (Or.inl ⟨[], [], List.nil_prefix, rfl, rfl⟩)
    | succ room => exact Or.inr (Or.inr ⟨decodeAll_broken hs, decodeString_broken hs room⟩)
  | plain c s hc ih =>
    cases room with
    | zero => exact Or.inr (Or.inl ⟨[], [], List.nil_prefix, rfl, rfl⟩)
    | succ room =>
      exact (ih room).cons (e := [c]) (decodeAll_cons_of_ne hc) (decodeString_cons_of_ne hc s room)

/-! ## The two sides of the first `?` -/

/-- What is in front of the first `?`. -/
def frontOf (uri : Bytes) : Bytes := uri.takeWhile (· != 63)

/-- What is behind the first `?`, nothing where there is none. -/
def queryOf (uri : Bytes) : Bytes := (uri.dropWhile (· != 63)).drop 1

theorem frontOf_bytes (u : Uri) : frontOf u.bytes = u.front := by
  rw [frontOf]
  cases hq : u.query with
  | none => rw [Uri.bytes_of_none hq, takeWhile_bne_of_notMem u.noQuery_front]
  | some q => rw [Uri.bytes_of_some hq, takeWhile_bne u.noQuery_front]

theorem queryOf_of_notMem {uri : Bytes} (h : (63 : Byte) ∉ uri) : queryOf uri = [] := by
  have hall : ∀ c ∈ uri, (c != 63) = true := fun c hc => bne_iff_ne.mpr fun h0 => h (h0 ▸ hc)
  rw [queryOf, List.dropWhile_eq_nil_iff.mpr hall, List.drop_nil]

theorem queryOf_append {a : Bytes} (h : (63 : Byte) ∉ a) (q : Bytes) :
    queryOf (a ++ 63 :: q) = q := by
  rw [queryOf, dropWhile_bne h]
  rfl

theorem queryOf_bytes (u : Uri) : queryOf u.bytes = u.arg := by
  rw [Uri.arg]
  cases hq : u.query with
  | none => rw [Uri.bytes_of_none hq, queryOf_of_notMem u.noQuery_front, Option.getD_none]
  | some q => rw [Uri.bytes_of_some hq, queryOf_append u.noQuery_front, Option.getD_some]

/-- **Every text with a `/` in front of its first `?` is the text of a `Uri`.** -/
theorem exists_uri_of_slash {s : Bytes} (h : (47 : Byte) ∈ frontOf s) : ∃ u : Uri, u.bytes = s := by
  obtain ⟨a, b, hab, hb⟩ := exists_last_slash h
  have hne : (63 : Byte) ∉ frontOf s := fun h0 => by
    have hall := List.mem_takeWhile_imp h0
    exact absurd hall (by decide)
  have hne' := hne
  rw [hab, List.mem_append, List.mem_cons, not_or, not_or] at hne'
  by_cases hq : (63 : Byte) ∈ s
  · obtain ⟨f, q, rfl, hf⟩ := List.eq_append_cons_of_mem hq
    rw [frontOf, takeWhile_bne hf] at hab
    exact ⟨⟨a, b, some q, hne'.1, hne'.2.2, hb⟩, by rw [hab]; rfl⟩
  · rw [frontOf, takeWhile_bne_of_notMem hq] at hab
    exact ⟨⟨a, b, none, hne'.1, hne'.2.2, hb⟩, by rw [hab]; exact List.append_nil _⟩

/-! ## `parse_uri` on every URI -/

/-- Where `splitUri` writes the final zero of `sArg`, if it comes to that. -/
def splitArgEnd (dm : DataModel) (data : Bytes) (dataLen : ℕ) : Outcome (Option ℕ) := do
  let e := uriEnd dm data dataLen
  let f ← fileStart dm data e
  if f = dm.ulongMax then .ok none
  else do
    let _ ← readRange data 0 f
    let _ ← readRange data (f + 1) (e - f - 1)
    if e = dataLen then .ok none
    else do
      let sArg ← decodeString ((data.drop (e + 1)).take (dataLen - e - 1)) cMaxArgSize
      .ok (some sArg.length)

/-- Where `parse_uri` writes the final zero of `sArg`, if it comes to that.  The bytes in front of
it are written by `decode_string`. -/
def argEnd (dm : DataModel) (data : Bytes) (dataLen : ℕ) : Outcome (Option ℕ) := do
  let c ← readByte data 0
  if c = 47 then do
    let d ← readByte data 1
    if d = 32 then .ok none else splitArgEnd dm data dataLen
  else splitArgEnd dm data dataLen

theorem splitUri_of_splitArgEnd {data : Bytes} {dataLen n : ℕ}
    (h : splitArgEnd dm data dataLen = .ok (some n)) (hn : cMaxArgSize ≤ n) :
    splitUri dm data dataLen = .undefined := by
  obtain ⟨f, hf, h⟩ := Outcome.bind_eq_ok.mp h
  split at h
  · exact absurd (Outcome.ok.inj h) (by simp)
  · next hne =>
    obtain ⟨path, hpath, h⟩ := Outcome.bind_eq_ok.mp h
    obtain ⟨file, hfile, h⟩ := Outcome.bind_eq_ok.mp h
    split at h
    · exact absurd (Outcome.ok.inj h) (by simp)
    · next hend =>
      obtain ⟨sArg, hdecode, h⟩ := Outcome.bind_eq_ok.mp h
      have hlen : sArg.length = n := Option.some.inj (Outcome.ok.inj h)
      rw [splitUri, hf, Outcome.ok_bind, if_neg hne, hpath, Outcome.ok_bind, hfile,
        Outcome.ok_bind, if_neg hend, hdecode, Outcome.ok_bind, if_neg (by omega)]

/-- **A final zero behind the end of `sArg`** is undefined. -/
theorem parseUri_of_argEnd {data : Bytes} {dataLen n : ℕ}
    (h : argEnd dm data dataLen = .ok (some n)) (hn : cMaxArgSize ≤ n) :
    parseUri dm data dataLen = .undefined := by
  obtain ⟨c, hc, h⟩ := Outcome.bind_eq_ok.mp h
  rw [parseUri, hc, Outcome.ok_bind]
  split at h
  · next hslash =>
    obtain ⟨d, hd, h⟩ := Outcome.bind_eq_ok.mp h
    rw [if_pos hslash, hd, Outcome.ok_bind]
    split at h
    · exact absurd (Outcome.ok.inj h) (by simp)
    · next hne => rw [if_neg hne, splitUri_of_splitArgEnd h hn]
  · next hslash => rw [if_neg hslash, splitUri_of_splitArgEnd h hn]

/-- A `/` with a blank behind it is taken for the whole URI. -/
theorem parseUri_blank (dm : DataModel) {p : Bytes} (h : [47, 32] <+: p) (k : ℕ) :
    parseUri dm p k = .ok ([], [], []) ∧ argEnd dm p k = .ok none := by
  obtain ⟨t, rfl⟩ := h
  exact ⟨rfl, rfl⟩

/-- Everything else is split. -/
theorem parseUri_of_not_blank (dm : DataModel) {p : Bytes} (hlen : 2 ≤ p.length)
    (h : ¬ [47, 32] <+: p) (k : ℕ) :
    parseUri dm p k = splitUri dm p k ∧ argEnd dm p k = splitArgEnd dm p k := by
  match p, hlen with
  | c :: d :: p, _ =>
    have hone : readByte (c :: d :: p) 1 = .ok d := rfl
    rw [parseUri, argEnd, readByte_zero_cons, Outcome.ok_bind, Outcome.ok_bind]
    by_cases hc : c = 47
    · have hd : d ≠ 32 := fun h0 => h ⟨p, by rw [hc, h0]; rfl⟩
      rw [if_pos hc, if_pos hc, hone, Outcome.ok_bind, Outcome.ok_bind, if_neg hd, if_neg hd]
      exact ⟨rfl, rfl⟩
    · rw [if_neg hc, if_neg hc]
      exact ⟨rfl, rfl⟩

section Parts

variable {u : Uri} {rest : Bytes}

theorem splitArgEnd_of_some {q : Bytes} (hq : u.query = some q)
    (hlt : u.bytes.length < 2 ^ 32 - 1) :
    splitArgEnd dm (u.bytes ++ rest) u.bytes.length =
      decodeString q cMaxArgSize >>= fun sArg => .ok (some sArg.length) := by
  have hreads : ReadsUri dm u q (u.bytes ++ rest) u.bytes.length := readsUri_of_some hq hlt
  simp only [splitArgEnd, hreads.uriEnd, hreads.fileStart, hreads.path, hreads.file, hreads.query,
    Outcome.ok_bind, if_neg hreads.slash]
  rw [if_neg hreads.hasQuery]

theorem splitArgEnd_of_none (hq : u.query = none) (hlt : (u.bytes ++ rest).length < 2 ^ 32 - 1) :
    ∀ n, splitArgEnd dm (u.bytes ++ rest) u.bytes.length ≠ .ok (some n) := by
  intro n h
  rw [Uri.bytes_of_none hq] at hlt h
  have hend := uriEnd_of_noQuery dm u.noQuery_front rest
  obtain ⟨f, hf, h⟩ := Outcome.bind_eq_ok.mp h
  cases dm with
  | ilp32 =>
    simp only at hend
    split at h
    · exact absurd (Outcome.ok.inj h) (by simp)
    · obtain ⟨path, -, h⟩ := Outcome.bind_eq_ok.mp h
      obtain ⟨file, -, h⟩ := Outcome.bind_eq_ok.mp h
      exact absurd (Outcome.ok.inj h) (by simp)
  | lp64 =>
    simp only at hend
    have hstart : fileStart .lp64 (u.front ++ rest) (2 ^ 32 - 1) = .undefined :=
      fileStart_of_lt (n := 2 ^ 32 - 2) (by omega)
    rw [hend, hstart] at hf
    exact absurd hf (by simp)

end Parts

/-! ### Without a `/` -/

section NoSlash

variable {p : Bytes} {k : ℕ}

/-- The backward loop does not find a `/` where there is none. -/
theorem fileStart_of_notMem {data : Bytes} {i : ℕ} (hi : i ≤ data.length)
    (h : (47 : Byte) ∉ data.take i) : fileStart dm data i = .ok (u32 dm.ulongMax) := by
  induction i with
  | zero => rfl
  | succ i ih =>
    obtain ⟨c, hc⟩ : ∃ c, data[i]? = some c := ⟨_, List.getElem?_eq_getElem hi⟩
    rw [List.take_add_one, hc, Option.toList_some, List.mem_append, List.mem_singleton,
      not_or] at h
    have hread : readByte data i = .ok c := by rw [readByte, hc]
    rw [fileStart, hread, Outcome.ok_bind, if_neg (Ne.symm h.2), ih (by omega) h.1]

/-- Where the part in front of the `?` ends. -/
theorem uriEnd_cases (dm : DataModel) (hk : k ≤ p.length) (hlt : p.length < 2 ^ 32 - 1) :
    uriEnd dm p k = (frontOf (p.take k)).length ∨
      (dm = .lp64 ∧ (63 : Byte) ∉ p.take k ∧ uriEnd dm p k = 2 ^ 32 - 1) := by
  have hcut := List.take_append_drop k p
  have hlen : (p.take k).length = k := by
    rw [List.length_take]
    omega
  by_cases hq : (63 : Byte) ∈ p.take k
  · obtain ⟨a, q, haq, ha⟩ := List.eq_append_cons_of_mem hq
    left
    rw [haq] at hlen hcut
    have hlen' : k = a.length + 1 + q.length := by
      rw [← hlen, List.length_append, List.length_cons]
      omega
    rw [frontOf, haq, takeWhile_bne ha]
    rw [← hcut]
    exact uriEnd_of_query ha hlen' (by omega)
  · have hend := uriEnd_of_noQuery dm hq (p.drop k)
    rw [hcut, hlen] at hend
    cases dm with
    | ilp32 =>
      left
      rw [hend, frontOf, takeWhile_bne_of_notMem hq, hlen]
    | lp64 => exact Or.inr ⟨rfl, hq, hend⟩

/-- **Without a `/` in front of the `?`** a `long` of 32 bits gives a failure, and one of 64 bits a
read far outside of the buffer. -/
theorem splitUri_noSlash (dm : DataModel) (h : (47 : Byte) ∉ frontOf (p.take k)) (hk : k ≤ p.length)
    (hlt : p.length < 2 ^ 32 - 1) :
    splitUri dm p k = (if dm = .ilp32 then .ret (-1) else .undefined) ∧
      splitArgEnd dm p k = (if dm = .ilp32 then .ok none else .undefined) := by
  have hfront : frontOf (p.take k) <+: p := (List.takeWhile_prefix _).trans (List.take_prefix k p)
  have hnone : fileStart dm p (frontOf (p.take k)).length = .ok (u32 dm.ulongMax) :=
    fileStart_of_notMem hfront.length_le (by rwa [← List.prefix_iff_eq_take.mp hfront])
  cases dm with
  | ilp32 =>
    have hend := (uriEnd_cases .ilp32 hk hlt).resolve_right fun h0 => by simp at h0
    rw [splitUri, splitArgEnd, hend, hnone]
    exact ⟨rfl, rfl⟩
  | lp64 =>
    have hmax : ¬ u32 DataModel.lp64.ulongMax = DataModel.lp64.ulongMax := by decide
    have hread : readRange p 0 (u32 DataModel.lp64.ulongMax) = .undefined :=
      readRange_of_lt (by
        rw [show u32 DataModel.lp64.ulongMax = 2 ^ 32 - 1 from rfl]
        omega)
    rcases uriEnd_cases .lp64 hk hlt with hend | ⟨-, -, hend⟩
    · rw [splitUri, splitArgEnd, hend, hnone, Outcome.ok_bind, Outcome.ok_bind, if_neg hmax,
        if_neg hmax, hread]
      exact ⟨rfl, rfl⟩
    · have hstart : fileStart .lp64 p (2 ^ 32 - 1) = .undefined :=
        fileStart_of_lt (n := 2 ^ 32 - 2) (by omega)
      rw [splitUri, splitArgEnd, hend, hstart]
      exact ⟨rfl, rfl⟩

end NoSlash

/-! ## The query in `sArg` -/

section Query

variable {p : Bytes} {k : ℕ}

/-- The final zero is written inside of `sArg`, and where `parse_uri` succeeds, the argument is the
decoding of all that is behind the first `?`, up to a zero in it. -/
def ArgInBounds (dm : DataModel) (p : Bytes) (k : ℕ) : Prop :=
  (∀ n, argEnd dm p k = .ok (some n) → n < cMaxArgSize) ∧
    ∀ path file arg, parseUri dm p k = .ok (path, file, arg) →
      ∃ d, decodeAll (queryOf (p.take k)) = some d ∧ arg = cstr d

/-- No part of the query from its start decodes to as many bytes as `sArg` has. -/
def QueryFits (q : Bytes) : Prop := ∀ r d, r <+: q → decodeAll r = some d → d.length ≠ cMaxArgSize

theorem queryFits_nil : QueryFits [] := by
  intro r d hr hd
  rw [List.prefix_nil.mp hr, decodeAll, Option.some.injEq] at hd
  rw [← hd]
  decide

theorem queryFits_of_decodeAll {q d : Bytes} (hd : decodeAll q = some d) :
    QueryFits q ↔ d.length < cMaxArgSize := by
  constructor
  · intro h
    rcases decode_cases q cMaxArgSize with ⟨d', hd', hlt⟩ | ⟨r, d', hr, hd', hlen⟩ | ⟨hnone, -⟩
    · rw [hd, Option.some.injEq] at hd'
      rwa [hd']
    · exact absurd hlen (h r d' hr hd')
    · rw [hd] at hnone
      exact absurd hnone (by simp)
  · intro hlt r d' hr hd' hlen
    have hfull := decodeString_of_isPrefix hr hd' hlen
    rw [decodeString_of_le hd hlt.le, Outcome.ok.injEq] at hfull
    rw [hfull] at hlt
    omega

/-- A broken escape comes before the room is full. -/
theorem queryFits_of_ret {q : Bytes} {code : ℤ}
    (hret : decodeString q cMaxArgSize = .ret code) : QueryFits q := by
  intro r d hr hd hfull
  rw [decodeString_of_isPrefix hr hd hfull] at hret
  exact absurd hret (by simp)

/-- **The query of a URI**, as `parse_uri` takes it. -/
theorem argInBounds_uri (dm : DataModel) {u : Uri} {rest : Bytes}
    (hlt : (u.bytes ++ rest).length < 2 ^ 32 - 1)
    (hblank : ¬ [47, 32] <+: u.bytes ++ rest) (hlen : 2 ≤ (u.bytes ++ rest).length) :
    ArgInBounds dm (u.bytes ++ rest) u.bytes.length ↔ QueryFits u.arg := by
  obtain ⟨hparse, hargEnd⟩ := parseUri_of_not_blank dm hlen hblank u.bytes.length
  have hlt' : u.bytes.length < 2 ^ 32 - 1 := by
    rw [List.length_append] at hlt
    omega
  rw [ArgInBounds, hparse, hargEnd, List.take_left, queryOf_bytes]
  cases hq : u.query with
  | none =>
    rw [Uri.arg, hq, Option.getD_none]
    refine iff_of_true ⟨fun n hn => absurd hn (splitArgEnd_of_none hq hlt n), ?_⟩ queryFits_nil
    intro path file arg harg
    rw [splitUri_of_none hq hlt] at harg
    split at harg
    · rw [Outcome.ok.injEq, Prod.mk.injEq, Prod.mk.injEq] at harg
      exact ⟨[], rfl, harg.2.2.symm⟩
    · exact absurd harg (by simp)
  | some q =>
    rw [Uri.arg, hq, Option.getD_some, splitUri_of_some hq hlt', splitArgEnd_of_some hq hlt']
    rcases decode_cases q cMaxArgSize with ⟨d, hd, hshort⟩ | ⟨r, d, hr, hd, hfull⟩ | ⟨hnone, hret⟩
    · rw [decodeString_of_le hd hshort.le, Outcome.ok_bind, Outcome.ok_bind, if_pos hshort]
      refine iff_of_true ⟨?_, ?_⟩ ((queryFits_of_decodeAll hd).mpr hshort)
      · intro n hn
        rw [Outcome.ok.injEq, Option.some.injEq] at hn
        rwa [← hn]
      · intro path file arg harg
        rw [Outcome.ok.injEq, Prod.mk.injEq, Prod.mk.injEq] at harg
        exact ⟨d, hd, harg.2.2.symm⟩
    · rw [decodeString_of_isPrefix hr hd hfull, Outcome.ok_bind]
      refine iff_of_false ?_ fun h => h r d hr hd hfull
      intro h
      have hlt := h.1 d.length rfl
      omega
    · rw [hret, Outcome.ret_bind, Outcome.ret_bind]
      exact iff_of_true ⟨fun n hn => absurd hn (by simp), fun _ _ _ h => absurd h (by simp)⟩
        (queryFits_of_ret hret)

/-- `parse_uri` reads the buffer it is given, and writes in `sArg`. -/
def StaysInside (dm : DataModel) (p : Bytes) (k : ℕ) : Prop :=
  [47, 32] <+: p ∨
    (dm = .ilp32 ∨ (63 : Byte) ∈ p.take k ∧ (47 : Byte) ∈ frontOf (p.take k)) ∧
      ((47 : Byte) ∈ frontOf (p.take k) → QueryFits (queryOf (p.take k)))

/-- The last step of `splitUri` writes in `sArg` exactly if the query fits. -/
theorem copyArg_ne_undefined_iff (q path file : Bytes) :
    (decodeString q cMaxArgSize >>= fun sArg =>
      if sArg.length < cMaxArgSize then .ok (path, file, cstr sArg) else .undefined) ≠ .undefined ↔
      QueryFits q := by
  rcases decode_cases q cMaxArgSize with ⟨d, hd, hshort⟩ | ⟨r, d, hr, hd, hfull⟩ | ⟨-, hret⟩
  · rw [decodeString_of_le hd hshort.le, Outcome.ok_bind, if_pos hshort]
    exact iff_of_true (by simp) ((queryFits_of_decodeAll hd).mpr hshort)
  · rw [decodeString_of_isPrefix hr hd hfull, Outcome.ok_bind, hfull, if_neg (lt_irrefl _)]
    exact iff_of_false (fun h => h rfl) fun h => h r d hr hd hfull
  · rw [hret, Outcome.ret_bind]
    exact iff_of_true (by simp) (queryFits_of_ret hret)

/-- **Where `parse_uri` stays inside.** -/
theorem parseUri_ne_undefined_iff (hk : k ≤ p.length) (hlen : 2 ≤ p.length)
    (hlt : p.length < 2 ^ 32 - 1) : parseUri dm p k ≠ .undefined ↔ StaysInside dm p k := by
  rw [StaysInside]
  by_cases hblank : [47, 32] <+: p
  · rw [(parseUri_blank dm hblank k).1]
    exact iff_of_true (by simp) (Or.inl hblank)
  · rw [or_iff_right hblank, (parseUri_of_not_blank dm hlen hblank k).1]
    by_cases hslash : (47 : Byte) ∈ frontOf (p.take k)
    · rw [forall_prop_of_true hslash, and_iff_left hslash]
      obtain ⟨u, hu⟩ := exists_uri_of_slash hslash
      have hulen : u.bytes.length = k := by rw [hu, List.length_take, min_eq_left hk]
      have hp : u.bytes ++ p.drop k = p := by rw [hu, List.take_append_drop]
      rw [← hu, queryOf_bytes, Uri.arg]
      cases hq : u.query with
      | none =>
        have hnot : (63 : Byte) ∉ u.bytes := by
          rw [Uri.bytes_of_none hq]
          exact u.noQuery_front
        have hsplit : splitUri dm (u.bytes ++ p.drop k) u.bytes.length = _ :=
          splitUri_of_none hq (by rwa [hp])
        rw [hp, hulen] at hsplit
        rw [hsplit, or_iff_left hnot, Option.getD_none, and_iff_left queryFits_nil]
        by_cases hdm : dm = .ilp32
        · rw [if_pos hdm]
          exact iff_of_true (by simp) hdm
        · rw [if_neg hdm]
          exact iff_of_false (fun h => h rfl) hdm
      | some q =>
        have hmem : (63 : Byte) ∈ u.bytes := by
          rw [Uri.bytes_of_some hq]
          simp
        have hsplit : splitUri dm (u.bytes ++ p.drop k) u.bytes.length = _ :=
          splitUri_of_some hq (by omega)
        rw [hp, hulen] at hsplit
        rw [hsplit, Option.getD_some, and_iff_right (Or.inr hmem), copyArg_ne_undefined_iff]
    · rw [(splitUri_noSlash dm hslash hk hlt).1, and_iff_left fun h => absurd h hslash,
        or_iff_left fun h => hslash h.2]
      by_cases hdm : dm = .ilp32
      · rw [if_pos hdm]
        exact iff_of_true (by simp) hdm
      · rw [if_neg hdm]
        exact iff_of_false (fun h => h rfl) hdm

/-- **`sArg` holds the whole query** exactly if, behind a `/` in front with a blank behind it, the
query decodes to nothing, and if otherwise, behind a `/` in front of the `?`, no part of it from its
start decodes to `1024` bytes. -/
theorem argInBounds_iff (hk : strstr p (ascii " HTTP/") = some k)
    (hlt : p.length < 2 ^ 32 - 1) : ArgInBounds dm p k ↔
      ([47, 32] <+: p → ∃ d, decodeAll (queryOf (p.take k)) = some d ∧ cstr d = []) ∧
      (¬ [47, 32] <+: p → (47 : Byte) ∈ frontOf (p.take k) → QueryFits (queryOf (p.take k))) := by
  have hle : k + 6 ≤ p.length := length_le_of_strstr hk
  by_cases hblank : [47, 32] <+: p
  · obtain ⟨hparse, hargEnd⟩ := parseUri_blank dm hblank k
    rw [ArgInBounds, hparse, hargEnd]
    constructor
    · intro h
      obtain ⟨d, hd, harg⟩ := h.2 [] [] [] rfl
      exact ⟨fun _ => ⟨d, hd, harg.symm⟩, fun hnot => absurd hblank hnot⟩
    · intro h
      obtain ⟨d, hd, harg⟩ := h.1 hblank
      refine ⟨fun n hn => absurd (Outcome.ok.inj hn) (by simp), ?_⟩
      intro path file arg hok
      rw [Outcome.ok.injEq, Prod.mk.injEq, Prod.mk.injEq] at hok
      exact ⟨d, hd, by rw [harg, hok.2.2]⟩
  · rw [and_iff_right (a := [47, 32] <+: p → _) fun h => absurd h hblank,
      forall_prop_of_true hblank]
    by_cases hslash : (47 : Byte) ∈ frontOf (p.take k)
    · obtain ⟨u, hu⟩ := exists_uri_of_slash hslash
      have hlen : u.bytes.length = k := by
        rw [hu, List.length_take]
        omega
      have hp : u.bytes ++ p.drop k = p := by rw [hu, List.take_append_drop]
      rw [forall_prop_of_true hslash, ← hu, queryOf_bytes]
      rw [← hp] at hlt hblank hle
      have hiff := argInBounds_uri dm hlt hblank (by omega)
      rwa [hp, hlen] at hiff
    · obtain ⟨hparse, hargEnd⟩ := parseUri_of_not_blank dm (by omega) hblank k
      obtain ⟨hsplit, hend⟩ := splitUri_noSlash dm hslash (by omega) hlt
      refine iff_of_true ?_ fun h => absurd h hslash
      rw [ArgInBounds, hparse, hargEnd, hsplit, hend]
      constructor
      · intro n hn
        split at hn <;> exact absurd hn (by simp)
      · intro path file arg hok
        split at hok <;> exact absurd hok (by simp)

end Query

/-- A request for `/` with a query of one byte. -/
theorem argInBounds_short_iff : ArgInBounds .lp64 (ascii "/?a HTTP/1.0") 3 ↔
    ([47, 32] <+: ascii "/?a HTTP/1.0" →
      ∃ d, decodeAll (queryOf ((ascii "/?a HTTP/1.0").take 3)) = some d ∧ cstr d = []) ∧
    (¬ [47, 32] <+: ascii "/?a HTTP/1.0" →
      (47 : Byte) ∈ frontOf ((ascii "/?a HTTP/1.0").take 3) →
        QueryFits (queryOf ((ascii "/?a HTTP/1.0").take 3))) :=
  argInBounds_iff (by decide) (by decide)

/-- The URI `/` with a query of `1024` bytes. -/
def longQuery : Uri where
  path := []
  file := []
  query := some (List.replicate 1024 97)
  path_noQuery := List.not_mem_nil
  file_noQuery := List.not_mem_nil
  file_noSlash := List.not_mem_nil

/-- **The final zero is written behind `sArg`** where the query has `1024` bytes. -/
theorem longQuery_not_argInBounds :
    strstr (longQuery.bytes ++ ascii " HTTP/1.0") (ascii " HTTP/") = some longQuery.bytes.length ∧
      ¬ ArgInBounds .lp64 (longQuery.bytes ++ ascii " HTTP/1.0") longQuery.bytes.length := by
  have hbytes : longQuery.bytes = 47 :: 63 :: List.replicate 1024 97 := rfl
  have hlen : longQuery.bytes.length = 1026 := by
    rw [hbytes, List.length_cons, List.length_cons, List.length_replicate]
  have hnot : ∀ c : Byte, c ≠ 47 → c ≠ 63 → c ≠ 97 → c ∉ longQuery.bytes := by
    intro c h₁ h₂ h₃
    rw [hbytes, List.mem_cons, List.mem_cons, List.mem_replicate]
    simp [h₁, h₂, h₃]
  refine ⟨strstr_version (hnot 32 (by decide) (by decide) (by decide))
    (hnot 0 (by decide) (by decide) (by decide)) (ascii "1.0"), ?_⟩
  intro h
  have hblank : ¬ [47, 32] <+: longQuery.bytes ++ ascii " HTTP/1.0" := by
    rw [hbytes, List.cons_append, List.cons_append, List.cons_prefix_cons, List.cons_prefix_cons]
    exact fun h0 => absurd h0.2.1 (by decide)
  obtain ⟨-, hend⟩ := parseUri_of_not_blank .lp64
    (by rw [List.length_append, hlen]; omega) hblank longQuery.bytes.length
  have hplain : decodeString (List.replicate 1024 97) cMaxArgSize =
      .ok (List.replicate 1024 97) :=
    decodeString_plain (fun h37 => absurd (List.mem_replicate.mp h37).2 (by decide))
      (by rw [List.length_replicate]; exact le_rfl)
  rw [splitArgEnd_of_some rfl (by omega), hplain, Outcome.ok_bind, List.length_replicate] at hend
  exact absurd (h.1 1024 hend) (by decide)

/-! ## The split -/

section Split

variable {p : Bytes} {k : ℕ}

/-- `parse_uri` fails without a `/` in front of the `?`, and otherwise cuts what is in front of the
`?` at its last `/`. -/
def SplitsUri (dm : DataModel) (p : Bytes) (k : ℕ) : Prop :=
  ((47 : Byte) ∉ frontOf (p.take k) → ∃ code, code ≠ 0 ∧ parseUri dm p k = .ret code) ∧
    ((47 : Byte) ∈ frontOf (p.take k) → ∃ path file arg,
      parseUri dm p k = .ok (path, file, arg) ∧ path ++ 47 :: file = frontOf (p.take k) ∧
        (47 : Byte) ∉ file)

theorem splitsUri_uri (dm : DataModel) {u : Uri} {rest d : Bytes}
    (hlt : (u.bytes ++ rest).length < 2 ^ 32 - 1)
    (hblank : ¬ [47, 32] <+: u.bytes ++ rest) (hlen : 2 ≤ (u.bytes ++ rest).length)
    (hd : decodeAll u.arg = some d) : SplitsUri dm (u.bytes ++ rest) u.bytes.length ↔
      (dm = .ilp32 ∨ (63 : Byte) ∈ u.bytes) ∧ d.length < cMaxArgSize := by
  obtain ⟨hparse, -⟩ := parseUri_of_not_blank dm hlen hblank u.bytes.length
  have hlt' : u.bytes.length < 2 ^ 32 - 1 := by
    rw [List.length_append] at hlt
    omega
  have hslash : (47 : Byte) ∈ u.front := List.mem_append_right _ List.mem_cons_self
  rw [SplitsUri, hparse, List.take_left, frontOf_bytes,
    and_iff_right fun h => absurd hslash h, forall_prop_of_true hslash]
  rw [Uri.arg] at hd
  cases hq : u.query with
  | none =>
    have hnot : (63 : Byte) ∉ u.bytes := by
      rw [Uri.bytes_of_none hq]
      exact u.noQuery_front
    have hlen : d.length < cMaxArgSize := by
      rw [hq, Option.getD_none, decodeAll, Option.some.injEq] at hd
      rw [← hd]
      decide
    rw [splitUri_of_none hq hlt, and_iff_left hlen, or_iff_left hnot]
    constructor
    · rintro ⟨path, file, arg, hok, -, -⟩
      by_contra hdm
      rw [if_neg hdm] at hok
      exact absurd hok (by simp)
    · rintro hdm
      rw [if_pos hdm]
      exact ⟨u.path, u.file, [], rfl, rfl, u.file_noSlash⟩
  | some q =>
    have hmem : (63 : Byte) ∈ u.bytes := by
      rw [Uri.bytes_of_some hq]
      simp
    rw [hq, Option.getD_some] at hd
    rw [splitUri_of_some hq hlt', and_iff_right (Or.inr hmem)]
    rcases Nat.lt_or_ge d.length cMaxArgSize with hshort | hlong
    · rw [decodeString_of_le hd hshort.le, Outcome.ok_bind, if_pos hshort]
      exact iff_of_true ⟨u.path, u.file, cstr d, rfl, rfl, u.file_noSlash⟩ hshort
    · refine iff_of_false ?_ (not_lt.mpr hlong)
      rintro ⟨path, file, arg, hok, -, -⟩
      refine not_lt.mpr hlong ((queryFits_of_decodeAll hd).mp ?_)
      rw [← copyArg_ne_undefined_iff q u.path u.file, hok]
      simp

/-- **The URI is split without loss** exactly if it is `/`, where a blank follows a `/` in front,
and if otherwise a `long` has 32 bits, or there are a `?` and a `/` in front of it, and the query
does not fill `sArg`, where it is looked at. -/
theorem splitsUri_iff (hk : strstr p (ascii " HTTP/") = some k) (hlt : p.length < 2 ^ 32 - 1)
    (hpos : 0 < k) {d : Bytes} (hd : decodeAll (queryOf (p.take k)) = some d) :
    SplitsUri dm p k ↔ ([47, 32] <+: p → p.take k = [47]) ∧
      (¬ [47, 32] <+: p →
        (dm = .ilp32 ∨ (63 : Byte) ∈ p.take k ∧ (47 : Byte) ∈ frontOf (p.take k)) ∧
        ((47 : Byte) ∈ frontOf (p.take k) → d.length < cMaxArgSize)) := by
  have hle : k + 6 ≤ p.length := length_le_of_strstr hk
  by_cases hblank : [47, 32] <+: p
  · have hparse := (parseUri_blank dm hblank k).1
    obtain ⟨t, rfl⟩ := hblank
    rw [and_iff_left fun h => absurd (List.prefix_append _ _) h,
      forall_prop_of_true (List.prefix_append _ _)]
    obtain ⟨k, rfl⟩ : ∃ j, k = j + 1 := ⟨k - 1, by omega⟩
    have hfront : frontOf (([47, 32] ++ t).take (k + 1)) = 47 :: frontOf ((32 :: t).take k) := rfl
    rw [SplitsUri, hparse, hfront]
    constructor
    · intro h
      obtain ⟨path, file, arg, hok, hcut, -⟩ := h.2 List.mem_cons_self
      rw [Outcome.ok.injEq, Prod.mk.injEq, Prod.mk.injEq] at hok
      obtain ⟨rfl, rfl, rfl⟩ := hok
      have hnil := (List.cons.inj hcut).2
      cases k with
      | zero => rfl
      | succ k => exact absurd hnil (List.cons_ne_nil _ _).symm
    · intro h
      have hnil : (32 :: t).take k = [] := (List.cons.inj h).2
      refine ⟨fun h0 => absurd List.mem_cons_self h0, fun _ => ⟨[], [], [], rfl, ?_, ?_⟩⟩
      · rw [hnil]
        rfl
      · exact List.not_mem_nil
  · rw [and_iff_right (a := [47, 32] <+: p → _) fun h => absurd h hblank,
      forall_prop_of_true hblank]
    by_cases hslash : (47 : Byte) ∈ frontOf (p.take k)
    · obtain ⟨u, hu⟩ := exists_uri_of_slash hslash
      have hlen : u.bytes.length = k := by
        rw [hu, List.length_take]
        omega
      have hp : u.bytes ++ p.drop k = p := by rw [hu, List.take_append_drop]
      rw [forall_prop_of_true hslash, and_iff_left hslash, ← hu]
      rw [← hu, queryOf_bytes] at hd
      rw [← hp] at hlt hblank hle
      have hiff := splitsUri_uri dm hlt hblank (by omega) hd
      rwa [hp, hlen] at hiff
    · have hparse := (parseUri_of_not_blank dm (by omega) hblank k).1
      have hsplit := (splitUri_noSlash dm hslash (by omega) hlt).1
      rw [SplitsUri, hparse, hsplit, forall_prop_of_true hslash,
        and_iff_left fun h => absurd h hslash, and_iff_left fun h => absurd h hslash,
        or_iff_left fun h => hslash h.2]
      constructor
      · rintro ⟨code, -, hcode⟩
        by_contra hdm
        rw [if_neg hdm] at hcode
        exact absurd hcode (by simp)
      · intro hdm
        rw [if_pos hdm]
        exact ⟨-1, by decide, rfl⟩

end Split

/-- A URI with a path, a file and a query. -/
theorem splitsUri_pathFile_iff : SplitsUri .lp64 (ascii "/p/f?a HTTP/1.0") 6 ↔
    ([47, 32] <+: ascii "/p/f?a HTTP/1.0" → (ascii "/p/f?a HTTP/1.0").take 6 = [47]) ∧
      (¬ [47, 32] <+: ascii "/p/f?a HTTP/1.0" →
        (DataModel.lp64 = .ilp32 ∨ (63 : Byte) ∈ (ascii "/p/f?a HTTP/1.0").take 6 ∧
          (47 : Byte) ∈ frontOf ((ascii "/p/f?a HTTP/1.0").take 6)) ∧
        ((47 : Byte) ∈ frontOf ((ascii "/p/f?a HTTP/1.0").take 6) →
          (ascii "a").length < cMaxArgSize)) :=
  splitsUri_iff (by decide) (by decide) (by decide) (by decide)

/-- **Where a blank follows the `/` in front**, the rest of the URI is lost. -/
theorem slashBlank_not_splitsUri :
    strstr (ascii "/ x HTTP/1.0") (ascii " HTTP/") = some 3 ∧
      ¬ SplitsUri .ilp32 (ascii "/ x HTTP/1.0") 3 := by
  refine ⟨by decide, ?_⟩
  intro h
  obtain ⟨path, file, arg, hok, hcut, -⟩ := h.2 (by decide)
  have hparse : parseUri .ilp32 (ascii "/ x HTTP/1.0") 3 = .ok ([], [], []) := by decide
  rw [hparse, Outcome.ok.injEq, Prod.mk.injEq, Prod.mk.injEq] at hok
  obtain ⟨rfl, rfl, -⟩ := hok
  exact absurd hcut (by decide)

end HttpCodec
end CModel
