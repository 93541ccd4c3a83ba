import CModel.HttpCodec.UriParts

/-!
# Which escapes `decode_string` rejects

`decode_string` looks for the end of the data behind a `%`, and leaves the two bytes there to
`strtol`, which reads a number from any two bytes.

* `decodeStringAt`: `decode_string` with its `unsigned` indices, and `decodeStringAt_eq`: what the
  indices come to.
* `ScanUnit`, `scan`: the pieces that the data is scanned in, `text_scan`.
* `percentDecode`: the decoding of well-formed data.
* `decodesExactly_iff`: **malformed escapes are what is rejected** exactly if the data has no escape
  of two bytes that are not digits, or a broken one behind it.
-/

namespace CModel
namespace HttpCodec

/-! ## The indices -/

/-- The loop of `decode_string` at index `i`, with `room` bytes left in `buf`: what it writes.  The
index and the sums with it are `unsigned`. -/
def decodeStringFrom (data : Bytes) (i : ℕ) : (room : ℕ) → Outcome Bytes
  | 0 => .ok []
  | room + 1 =>
    if i < data.length then do
      let c ← readByte data i
      if c = 37 then
        if data.length ≤ u32 (i + 2) then .ret (-1)
        else do
          let a ← readByte data (u32 (i + 1))
          let b ← readByte data (u32 (i + 2))
          let out ← decodeStringFrom data (u32 (u32 (i + 2) + 1)) room
          .ok (toChar (strtol16 (cstr [a, b])) :: out)
      else do
        let out ← decodeStringFrom data (u32 (i + 1)) room
        .ok (c :: out)
    else .ok []

/-- `decode_string` on the bytes of `data`, with `buf_size` bytes for `buf`: what it writes, the
length of which is `result_len`. -/
def decodeStringAt (data : Bytes) (bufSize : ℕ) : Outcome Bytes := decodeStringFrom data 0 bufSize

/-! ## The scan -/

/-- What one round of `decode_string` takes from the data. -/
inductive ScanUnit where
  | plain (c : Byte)
  /-- a `%` and the two bytes behind it -/
  | escape (a b : Byte)
  /-- a `%` and less than two bytes up to the end -/
  | broken (rest : Bytes)
  deriving DecidableEq, Repr

namespace ScanUnit

/-- The bytes of the data. -/
def text : ScanUnit → Bytes
  | plain c => [c]
  | escape a b => [37, a, b]
  | broken rest => 37 :: rest

/-- A `%` that is not followed by two hexadecimal digits. -/
def Malformed : ScanUnit → Prop
  | plain _ => False
  | escape a b => ¬ (isxdigit a = true ∧ isxdigit b = true)
  | broken _ => True

/-- The byte that a piece stands for. -/
def byte : ScanUnit → Byte
  | plain c => c
  | escape a b => escapeByte a b
  | broken _ => 37

/-- The byte that the code writes for it. -/
def written : ScanUnit → Byte
  | plain c => c
  | escape a b => toChar (strtol16 (cstr [a, b]))
  | broken _ => 37

instance (u : ScanUnit) : Decidable u.Malformed := by
  cases u <;> unfold Malformed <;> infer_instance

theorem written_eq_byte {u : ScanUnit} (h : ¬ u.Malformed) : u.written = u.byte := by
  cases u with
  | plain c => rfl
  | escape a b =>
    obtain ⟨ha, hb⟩ := not_not.mp h
    exact toChar_strtol16_pair ha hb
  | broken rest => rfl

end ScanUnit

/-- The pieces that the data is scanned in. -/
def scan : Bytes → List ScanUnit
  | [] => []
  | c :: rest =>
    if c = 37 then
      match rest with
      | a :: b :: rest' => .escape a b :: scan rest'
      | _ => [.broken rest]
    else .plain c :: scan rest

theorem scan_escape (a b : Byte) (s : Bytes) :
    scan (37 :: a :: b :: s) = .escape a b :: scan s := by
  rw [scan.eq_def]
  exact if_pos rfl

theorem scan_broken {s : Bytes} (h : s.length < 2) : scan (37 :: s) = [.broken s] := by
  rw [scan.eq_def]
  match s, h with
  | [], _ => rfl
  | [a], _ => rfl

theorem scan_cons_of_ne {c : Byte} (hc : c ≠ 37) (s : Bytes) :
    scan (c :: s) = .plain c :: scan s := by
  rw [scan.eq_def]
  exact if_neg hc

/-- **The pieces make up the data.** -/
theorem text_scan (s : Bytes) : (scan s).flatMap ScanUnit.text = s := by
  induction s using escape_cases with
  | nil => rfl
  | escape a b s ih =>
    rw [scan_escape, List.flatMap_cons, ih]
    rfl
  | broken s hs =>
    rw [scan_broken hs]
    exact List.append_nil _
  | plain c s hc ih =>
    rw [scan_cons_of_ne hc, List.flatMap_cons, ih]
    rfl

/-- The percent-decoding of data without malformed escapes. -/
def percentDecode (data : Bytes) : Bytes := (scan data).map ScanUnit.byte

/-- The data ends in a broken escape. -/
def EndsBroken (data : Bytes) : Prop := ∃ rest, .broken rest ∈ scan data

/-- The first `%` of a broken escape is the last byte of the data. -/
def EndsInPercent (data : Bytes) : Prop := .broken [] ∈ scan data

/-- **`decode_string` by the pieces**, where there is room for all of them. -/
theorem decodeString_eq_scan {s : Bytes} {room : ℕ} (hroom : (scan s).length ≤ room) :
    (EndsBroken s → decodeString s room = .ret (-1)) ∧
      (¬ EndsBroken s → decodeString s room = .ok ((scan s).map ScanUnit.written)) := by
  induction s using escape_cases generalizing room with
  | nil =>
    refine ⟨?_, fun _ => by cases room <;> rfl⟩
    rintro ⟨rest, hrest⟩
    exact absurd hrest List.not_mem_nil
  | escape a b s ih =>
    rw [scan_escape, List.length_cons] at hroom
    obtain ⟨room, rfl⟩ : ∃ k, room = k + 1 := ⟨room - 1, by omega⟩
    obtain ⟨hbroken, hwhole⟩ := ih (Nat.le_of_succ_le_succ hroom)
    have hends : EndsBroken (37 :: a :: b :: s) ↔ EndsBroken s := by
      simp [EndsBroken, scan_escape]
    rw [hends, decodeString_escape]
    refine ⟨fun h => by rw [hbroken h]; rfl, ?_⟩
    intro h
    rw [hwhole h, scan_escape]
    rfl
  | broken s hs =>
    rw [scan_broken hs, List.length_singleton] at hroom
    obtain ⟨room, rfl⟩ : ∃ k, room = k + 1 := ⟨room - 1, by omega⟩
    refine ⟨fun _ => decodeString_broken hs room, fun h => absurd ⟨s, ?_⟩ h⟩
    rw [scan_broken hs]
    exact List.mem_singleton_self _
  | plain c s hc ih =>
    rw [scan_cons_of_ne hc, List.length_cons] at hroom
    obtain ⟨room, rfl⟩ : ∃ k, room = k + 1 := ⟨room - 1, by omega⟩
    obtain ⟨hbroken, hwhole⟩ := ih (Nat.le_of_succ_le_succ hroom)
    have hends : EndsBroken (c :: s) ↔ EndsBroken s := by
      simp [EndsBroken, scan_cons_of_ne hc]
    rw [hends, decodeString_cons_of_ne hc]
    refine ⟨fun h => by rw [hbroken h]; rfl, ?_⟩
    intro h
    rw [hwhole h, scan_cons_of_ne hc]
    rfl

/-! ## What the indices come to -/

section Indices

variable {pre : Bytes} {room : ℕ}

/-- What the loop reads at the index behind `pre`. -/
theorem decodeStringFrom_plain {c : Byte} (hc : c ≠ 37) {s : Bytes}
    (hlen : (pre ++ c :: s).length < 2 ^ 32) :
    decodeStringFrom (pre ++ c :: s) pre.length (room + 1) =
      decodeStringFrom (pre ++ c :: s) (pre ++ [c]).length room >>= fun out => .ok (c :: out) := by
  rw [List.length_append, List.length_cons] at hlen
  have hin : pre.length < (pre ++ c :: s).length := by
    rw [List.length_append, List.length_cons]
    omega
  have hnext : u32 (pre.length + 1) = (pre ++ [c]).length := by
    rw [List.length_append, List.length_singleton, u32_of_lt (by omega)]
  rw [decodeStringFrom, if_pos hin, readByte_append_cons, Outcome.ok_bind, if_neg hc, hnext]

theorem decodeStringFrom_escape {a b : Byte} {s : Bytes}
    (hlen : (pre ++ 37 :: a :: b :: s).length < 2 ^ 32) :
    decodeStringFrom (pre ++ 37 :: a :: b :: s) pre.length (room + 1) =
      decodeStringFrom (pre ++ 37 :: a :: b :: s) (pre ++ [37, a, b]).length room >>= fun out =>
        .ok (toChar (strtol16 (cstr [a, b])) :: out) := by
  have hall : (pre ++ 37 :: a :: b :: s).length = pre.length + (s.length + 3) := by
    rw [List.length_append]
    rfl
  have hone : readByte (pre ++ 37 :: a :: b :: s) (u32 (pre.length + 1)) = .ok a := by
    have hread := readByte_append_cons (pre ++ [37]) a (b :: s)
    rwa [List.append_assoc, List.length_append, List.length_singleton,
      ← u32_of_lt (show pre.length + 1 < 2 ^ 32 by omega)] at hread
  have htwo : readByte (pre ++ 37 :: a :: b :: s) (u32 (pre.length + 2)) = .ok b := by
    have hread := readByte_append_cons (pre ++ [37, a]) b s
    rw [List.append_assoc, List.length_append] at hread
    rwa [u32_of_lt (show pre.length + 2 < 2 ^ 32 by omega)]
  have hnext : u32 (u32 (pre.length + 2) + 1) = (pre ++ [37, a, b]).length := by
    rw [u32_of_lt (show pre.length + 2 < 2 ^ 32 by omega), u32_of_lt (by omega),
      List.length_append]
    rfl
  rw [decodeStringFrom, if_pos (by omega), readByte_append_cons, Outcome.ok_bind, if_pos rfl,
    if_neg (by rw [u32_of_lt (by omega)]; omega), hone, Outcome.ok_bind, htwo, Outcome.ok_bind,
    hnext]

/-- Behind the last but one of `2 ^ 32 - 1` bytes, the sum with `2` comes round to `0`, and the loop
goes on past the end. -/
theorem decodeStringFrom_broken {s : Bytes} (hs : s.length < 2)
    (hlen : (pre ++ 37 :: s).length < 2 ^ 32) :
    decodeStringFrom (pre ++ 37 :: s) pre.length (room + 1) =
      if (pre ++ 37 :: s).length = 2 ^ 32 - 1 ∧ s = [] then .undefined else .ret (-1) := by
  have hall : (pre ++ 37 :: s).length = pre.length + (s.length + 1) := by
    rw [List.length_append, List.length_cons]
  rw [decodeStringFrom, if_pos (by omega), readByte_append_cons, Outcome.ok_bind, if_pos rfl]
  by_cases hend : (pre ++ 37 :: s).length = 2 ^ 32 - 1 ∧ s = []
  · have hlast : s.length = 0 := by rw [hend.2, List.length_nil]
    have hwrap : u32 (pre.length + 2) = 0 := by
      rw [show pre.length + 2 = 2 ^ 32 by omega]
      rfl
    rw [if_pos hend, hwrap, if_neg (by omega),
      readByte_of_le (by rw [u32_of_lt (by omega)]; omega)]
    rfl
  · rw [if_neg hend, if_pos]
    rcases Nat.eq_zero_or_pos s.length with h0 | hpos
    · have hne : (pre ++ 37 :: s).length ≠ 2 ^ 32 - 1 := fun h =>
        hend ⟨h, List.length_eq_zero_iff.mp h0⟩
      rw [u32_of_lt (by omega)]
      omega
    · rw [u32_of_lt (by omega)]
      omega

end Indices

/-- **The indices leave nothing out**, except at the very end of `2 ^ 32 - 1` bytes. -/
theorem decodeStringFrom_eq {pre s : Bytes} {room : ℕ} (hlen : (pre ++ s).length < 2 ^ 32)
    (hend : ¬ ((pre ++ s).length = 2 ^ 32 - 1 ∧ EndsInPercent s)) :
    decodeStringFrom (pre ++ s) pre.length room = decodeString s room := by
  induction s using escape_cases generalizing pre room with
  | nil =>
    cases room with
    | zero => rfl
    | succ room =>
      rw [decodeStringFrom, if_neg (by rw [List.append_nil]; exact Nat.lt_irrefl _)]
      rfl
  | escape a b s ih =>
    cases room with
    | zero => rw [decodeString_zero, decodeStringFrom]
    | succ room =>
      have happ : pre ++ 37 :: a :: b :: s = (pre ++ [37, a, b]) ++ s := by
        rw [List.append_assoc]
        rfl
      have hends : EndsInPercent (37 :: a :: b :: s) ↔ EndsInPercent s := by
        simp [EndsInPercent, scan_escape]
      rw [hends, happ] at hend
      rw [decodeStringFrom_escape hlen, decodeString_escape, happ, ih (happ ▸ hlen) hend]
  | broken s hs =>
    cases room with
    | zero => rw [decodeString_zero, decodeStringFrom]
    | succ room =>
      have hends : s = [] → EndsInPercent (37 :: s) := by
        rintro rfl
        exact List.mem_singleton_self _
      rw [decodeStringFrom_broken hs hlen, decodeString_broken hs,
        if_neg fun h => hend ⟨h.1, hends h.2⟩]
  | plain c s hc ih =>
    cases room with
    | zero => rw [decodeString_zero, decodeStringFrom]
    | succ room =>
      have happ : pre ++ c :: s = (pre ++ [c]) ++ s := by
        rw [List.append_assoc]
        rfl
      have hends : EndsInPercent (c :: s) ↔ EndsInPercent s := by
        simp [EndsInPercent, scan_cons_of_ne hc]
      rw [hends, happ] at hend
      rw [decodeStringFrom_plain hc hlen, decodeString_cons_of_ne hc, happ, ih (happ ▸ hlen) hend]

/-- There, a `%` makes the loop read past the end. -/
theorem decodeStringFrom_undefined {pre s : Bytes} {room : ℕ}
    (hlen : (pre ++ s).length = 2 ^ 32 - 1) (hroom : (scan s).length ≤ room)
    (hend : EndsInPercent s) : decodeStringFrom (pre ++ s) pre.length room = .undefined := by
  have hlt : (pre ++ s).length < 2 ^ 32 := by omega
  induction s using escape_cases generalizing pre room with
  | nil => exact absurd hend List.not_mem_nil
  | escape a b s ih =>
    rw [scan_escape, List.length_cons] at hroom
    obtain ⟨room, rfl⟩ : ∃ k, room = k + 1 := ⟨room - 1, by omega⟩
    have happ : pre ++ 37 :: a :: b :: s = (pre ++ [37, a, b]) ++ s := by
      rw [List.append_assoc]
      rfl
    have hends : EndsInPercent s := by simpa [EndsInPercent, scan_escape] using hend
    rw [decodeStringFrom_escape hlt, happ,
      ih (happ ▸ hlen) (Nat.le_of_succ_le_succ hroom) hends (happ ▸ hlt)]
    rfl
  | broken s hs =>
    rw [scan_broken hs, List.length_singleton] at hroom
    obtain ⟨room, rfl⟩ : ∃ k, room = k + 1 := ⟨room - 1, by omega⟩
    have hnil : s = [] := by
      have hmem : ScanUnit.broken [] ∈ scan (37 :: s) := hend
      rw [scan_broken hs, List.mem_singleton, ScanUnit.broken.injEq] at hmem
      exact hmem.symm
    rw [decodeStringFrom_broken hs hlt, if_pos ⟨hlen, hnil⟩]
  | plain c s hc ih =>
    rw [scan_cons_of_ne hc, List.length_cons] at hroom
    obtain ⟨room, rfl⟩ : ∃ k, room = k + 1 := ⟨room - 1, by omega⟩
    have happ : pre ++ c :: s = (pre ++ [c]) ++ s := by
      rw [List.append_assoc]
      rfl
    have hends : EndsInPercent s := by simpa [EndsInPercent, scan_cons_of_ne hc] using hend
    rw [decodeStringFrom_plain hc hlt, happ,
      ih (happ ▸ hlen) (Nat.le_of_succ_le_succ hroom) hends (happ ▸ hlt)]
    rfl

/-- The end of `2 ^ 32 - 1` bytes that is a `%`. -/
def PastTheEnd (data : Bytes) : Prop := data.length = 2 ^ 32 - 1 ∧ EndsInPercent data

/-- **`decode_string` with its indices.** -/
theorem decodeStringAt_eq {data : Bytes} {bufSize : ℕ} (hlen : data.length < 2 ^ 32)
    (hroom : (scan data).length ≤ bufSize) :
    (PastTheEnd data → decodeStringAt data bufSize = .undefined) ∧
      (¬ PastTheEnd data → decodeStringAt data bufSize = decodeString data bufSize) :=
  ⟨fun h => @decodeStringFrom_undefined [] data bufSize h.1 hroom h.2,
    fun h => @decodeStringFrom_eq [] data bufSize hlen h⟩

/-! ## What is rejected -/

/-- What `decode_string` is to do: it rejects data with a malformed escape, and decodes any
other. -/
def DecodesExactly (data : Bytes) (bufSize : ℕ) : Prop :=
  ((∃ u ∈ scan data, u.Malformed) → ∃ code, code ≠ 0 ∧ decodeStringAt data bufSize = .ret code) ∧
    ((∀ u ∈ scan data, ¬ u.Malformed) →
      decodeStringAt data bufSize = .ok (percentDecode data))

/-- Every `%` with two bytes behind it has two digits there. -/
def AllHex (data : Bytes) : Prop :=
  ∀ a b, .escape a b ∈ scan data → isxdigit a = true ∧ isxdigit b = true

theorem map_written_eq {data : Bytes} (h : ∀ u ∈ scan data, ¬ u.Malformed) :
    (scan data).map ScanUnit.written = percentDecode data :=
  List.map_congr_left fun u hu => ScanUnit.written_eq_byte (h u hu)

theorem forall_not_malformed_iff {data : Bytes} :
    (∀ u ∈ scan data, ¬ u.Malformed) ↔ ¬ EndsBroken data ∧ AllHex data := by
  constructor
  · refine fun h => ⟨?_, fun a b hab => not_not.mp (h _ hab)⟩
    rintro ⟨rest, hrest⟩
    exact h _ hrest trivial
  · rintro ⟨hbroken, hhex⟩ u hu
    cases u with
    | plain c => exact not_false
    | escape a b => exact not_not.mpr (hhex a b hu)
    | broken rest => exact absurd ⟨rest, hu⟩ hbroken

/-- **`decode_string` rejects exactly the malformed escapes** if and only if the data ends in a
broken escape, or has two hexadecimal digits behind every other `%`; and not, where its `unsigned`
index comes round, in a `%`. -/
theorem decodesExactly_iff {data : Bytes} {bufSize : ℕ} (hlen : data.length < 2 ^ 32)
    (hroom : (scan data).length ≤ bufSize) :
    DecodesExactly data bufSize ↔ (EndsBroken data ∨ AllHex data) ∧ ¬ PastTheEnd data := by
  obtain ⟨hpast, hat⟩ := decodeStringAt_eq hlen hroom
  obtain ⟨hbroken, hwhole⟩ := decodeString_eq_scan hroom
  have hmalformed : EndsBroken data → ∃ u ∈ scan data, u.Malformed :=
    fun ⟨rest, hrest⟩ => ⟨_, hrest, trivial⟩
  constructor
  · rintro ⟨hreject, -⟩
    have hin : ¬ PastTheEnd data := by
      intro h
      obtain ⟨code, -, hcode⟩ := hreject (hmalformed ⟨[], h.2⟩)
      exact absurd ((hpast h).symm.trans hcode) (by simp)
    refine ⟨?_, hin⟩
    by_contra hnone
    rw [not_or] at hnone
    have hsome : ∃ u ∈ scan data, u.Malformed := by
      by_contra hall
      push Not at hall
      exact hnone.2 (forall_not_malformed_iff.mp hall).2
    obtain ⟨code, -, hcode⟩ := hreject hsome
    rw [hat hin, hwhole hnone.1] at hcode
    exact absurd hcode (by simp)
  · rintro ⟨hor, hin⟩
    rw [DecodesExactly, hat hin]
    refine ⟨fun ⟨u, hu, hmal⟩ => ⟨-1, by decide, hbroken ?_⟩, ?_⟩
    · by_contra hnot
      exact forall_not_malformed_iff.mpr ⟨hnot, hor.resolve_left hnot⟩ u hu hmal
    · intro hall
      rw [hwhole (forall_not_malformed_iff.mp hall).1, map_written_eq hall]

/-- An escape of two digits. -/
theorem decodesExactly_iff_slash : DecodesExactly (ascii "%2F") 1 ↔
    (EndsBroken (ascii "%2F") ∨ AllHex (ascii "%2F")) ∧ ¬ PastTheEnd (ascii "%2F") :=
  decodesExactly_iff (by decide) (by decide)

/-- Two letters behind a `%` that are not digits are read as the number zero. -/
theorem not_decodesExactly_zz : (scan (ascii "%zz")).length ≤ 1 ∧
    decodeStringAt (ascii "%zz") 1 = .ok [0] ∧ ¬ DecodesExactly (ascii "%zz") 1 := by
  have hok : decodeStringAt (ascii "%zz") 1 = .ok [0] := by decide
  refine ⟨by decide, hok, ?_⟩
  intro h
  obtain ⟨code, -, hcode⟩ := h.1 ⟨.escape 122 122, by decide, by decide⟩
  exact absurd (hok.symm.trans hcode) (by simp)

end HttpCodec
end CModel
