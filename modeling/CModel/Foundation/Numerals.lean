import Mathlib.Data.Nat.Digits.Lemmas
import Mathlib.Tactic.IntervalCases
import CModel.Foundation.Bytes

/-!
# Numbers, printed and read

How C prints a number in decimal and how its library reads one back, and the two hexadecimal
digits of a percent escape.

* `decimal`, `decimalInt`: `%u` and `%d`, and what `ostream << n` writes.
* `digitsValue`: the number a digit string stands for; `digitsValue_decimal` is the round trip.
* `scanSign`: the optional sign in front of the digits.
* `atoi`: blanks, a sign, digits; the result saturates at `long` and is then cut to `int`.
* `istreamUnsigned`, `istreamInt`: `istream >> n`.  Where nothing is left after the blanks the
  variable keeps what it held, which is `none`; where no digit follows it is set to `0`; where the
  number does not fit it is set to the nearest bound, except that a negated number that fits is
  reduced modulo `2 ^ 32` for `unsigned`.
* `strtol16`: `strtol` in base sixteen on a text too short to overflow; `toChar_strtol16_pair` reads
  two digits, `toChar_strtol16_hexPair` the two digits of `hexPair`.
-/

namespace CModel

/-! ## Printing -/

/-- The character of a digit. -/
def digitByte (d : ℕ) : Byte := UInt8.ofNat (48 + d)

/-- A natural number in decimal, without leading zeros. -/
def decimal (n : ℕ) : Bytes :=
  if n = 0 then [48] else (Nat.digits 10 n).reverse.map digitByte

/-- An integer in decimal. -/
def decimalInt (z : ℤ) : Bytes :=
  if z < 0 then 45 :: decimal z.natAbs else decimal z.natAbs

theorem toNat_digitByte {d : ℕ} (h : d < 10) : (digitByte d).toNat = 48 + d := by
  rw [digitByte, UInt8.toNat_ofNat']
  omega

theorem isdigit_iff {c : Byte} : isdigit c = true ↔ 48 ≤ c.toNat ∧ c.toNat ≤ 57 := by
  rw [isdigit, Bool.and_eq_true, decide_eq_true_eq, decide_eq_true_eq, UInt8.le_iff_toNat_le,
    UInt8.le_iff_toNat_le]
  rfl

theorem isdigit_digitByte {d : ℕ} (h : d < 10) : isdigit (digitByte d) = true := by
  rw [isdigit_iff, toNat_digitByte h]
  omega

/-- Only digits are printed. -/
theorem isdigit_of_mem_decimal {n : ℕ} {c : Byte} (h : c ∈ decimal n) : isdigit c = true := by
  unfold decimal at h
  split at h
  · rw [List.mem_singleton] at h
    rw [h]
    rfl
  · obtain ⟨d, hd, rfl⟩ := List.mem_map.mp h
    exact isdigit_digitByte (Nat.digits_lt_base (by omega) (List.mem_reverse.mp hd))

theorem decimal_ne_nil (n : ℕ) : decimal n ≠ [] := by
  unfold decimal
  split
  · exact List.cons_ne_nil _ _
  · next h =>
    intro hnil
    rw [List.map_eq_nil_iff, List.reverse_eq_nil_iff] at hnil
    exact h (Nat.digits_eq_nil_iff_eq_zero.mp hnil)

/-- The number of digits. -/
theorem length_decimal_le {n k : ℕ} (hk : 0 < k) (h : n < 10 ^ k) : (decimal n).length ≤ k := by
  unfold decimal
  split
  · rw [List.length_singleton]
    omega
  · rw [List.length_map, List.length_reverse]
    exact (Nat.digits_length_le_iff (by omega) n).mpr h

/-! ## Reading -/

/-- The number a digit string stands for. -/
def digitsValue (s : Bytes) : ℕ := s.foldl (fun v c => 10 * v + (c.toNat - 48)) 0

@[simp] theorem digitsValue_nil : digitsValue [] = 0 := rfl

theorem digitsValue_append_singleton (s : Bytes) (c : Byte) :
    digitsValue (s ++ [c]) = 10 * digitsValue s + (c.toNat - 48) := by
  rw [digitsValue, List.foldl_append]
  rfl

theorem digitsValue_map_digitByte {l : List ℕ} (h : ∀ d ∈ l, d < 10) :
    digitsValue (l.reverse.map digitByte) = Nat.ofDigits 10 l := by
  induction l with
  | nil => rfl
  | cons d l ih =>
    have hd := toNat_digitByte (h d List.mem_cons_self)
    rw [List.reverse_cons, List.map_append, List.map_singleton, digitsValue_append_singleton,
      ih fun e he => h e (List.mem_cons_of_mem d he), hd, Nat.ofDigits_cons]
    omega

/-- **A printed number reads back.** -/
theorem digitsValue_decimal (n : ℕ) : digitsValue (decimal n) = n := by
  unfold decimal
  split
  · next h => rw [h]; rfl
  · rw [digitsValue_map_digitByte fun d hd => Nat.digits_lt_base (by omega) hd,
      Nat.ofDigits_digits]

/-- The digits that start a text end at the first byte that is none. -/
theorem takeWhile_isdigit_append {ds rest : Bytes} (hds : ∀ c ∈ ds, isdigit c = true)
    (hrest : ∀ c ∈ rest.head?, isdigit c = false) :
    (ds ++ rest).takeWhile isdigit = ds := by
  rw [List.takeWhile_append_of_pos hds]
  cases rest with
  | nil => rw [List.takeWhile_nil, List.append_nil]
  | cons c rest =>
    rw [List.takeWhile_cons_of_neg (by rw [hrest c rfl]; exact Bool.false_ne_true),
      List.append_nil]

/-- Leading blanks are skipped up to a byte that is none. -/
theorem dropWhile_isspace_append {ws rest : Bytes} (hws : ∀ c ∈ ws, isspace c = true)
    (hrest : ∀ c ∈ rest.head?, isspace c = false) :
    (ws ++ rest).dropWhile isspace = rest := by
  rw [List.dropWhile_append_of_pos hws]
  cases rest with
  | nil => rfl
  | cons c rest =>
    rw [List.dropWhile_cons_of_neg (by rw [hrest c rfl]; exact Bool.false_ne_true)]

/-- The sign in front of a number, and what follows it. -/
def scanSign : Bytes → Bool × Bytes
  | [] => (false, [])
  | c :: s => if c = 45 then (true, s) else if c = 43 then (false, s) else (false, c :: s)

theorem scanSign_of_isdigit {s : Bytes} (h : ∀ c ∈ s.head?, isdigit c = true) :
    scanSign s = (false, s) := by
  cases s with
  | nil => rfl
  | cons c s =>
    have hc : isdigit c = true := h c rfl
    have h₁ : c ≠ 45 := by rintro rfl; exact absurd hc (by decide)
    have h₂ : c ≠ 43 := by rintro rfl; exact absurd hc (by decide)
    rw [scanSign, if_neg h₁, if_neg h₂]

@[simp] theorem scanSign_minus (s : Bytes) : scanSign (45 :: s) = (true, s) := rfl

/-- `atoi`: `strtol` in base ten, cut to `int`. -/
def atoi (dm : DataModel) (s : Bytes) : ℤ :=
  let (neg, r) := scanSign (s.dropWhile isspace)
  let v : ℤ := digitsValue (r.takeWhile isdigit)
  int32 (if neg then max (-v) (-dm.longMax - 1) else min v dm.longMax)

/-- Whatever the text is, the result is an `int`. -/
theorem atoi_mem (dm : DataModel) (s : Bytes) : -2 ^ 31 ≤ atoi dm s ∧ atoi dm s < 2 ^ 31 :=
  int32_mem _

/-- `istream >> n` for an `unsigned`. -/
def istreamUnsigned (s : Bytes) : Option ℕ :=
  match s.dropWhile isspace with
  | [] => none
  | c :: s =>
    let (neg, r) := scanSign (c :: s)
    let v := digitsValue (r.takeWhile isdigit)
    if 2 ^ 32 ≤ v then some (2 ^ 32 - 1)
    else if neg then some ((2 ^ 32 - v) % 2 ^ 32)
    else some v

/-- `istream >> n` for an `int`. -/
def istreamInt (s : Bytes) : Option ℤ :=
  match s.dropWhile isspace with
  | [] => none
  | c :: s =>
    let (neg, r) := scanSign (c :: s)
    let v : ℤ := digitsValue (r.takeWhile isdigit)
    if neg then some (max (-v) (-2 ^ 31)) else some (min v (2 ^ 31 - 1))

/-! ## Reading a number that was printed -/

section Reading

variable {ws ds rest : Bytes}

/-- `atoi` on blanks, digits and a byte that is no digit. -/
theorem atoi_of_digits {dm : DataModel} (hws : ∀ c ∈ ws, isspace c = true)
    (hds : ∀ c ∈ ds, isdigit c = true) (hne : ds ≠ [])
    (hrest : ∀ c ∈ rest.head?, isdigit c = false) (hlt : digitsValue ds < 2 ^ 31) :
    atoi dm (ws ++ (ds ++ rest)) = digitsValue ds := by
  obtain ⟨c, ds', rfl⟩ := List.exists_cons_of_ne_nil hne
  have hc : isdigit c = true := hds c List.mem_cons_self
  have hmin : min (digitsValue (c :: ds') : ℤ) dm.longMax = digitsValue (c :: ds') := by
    have hmax : (2 : ℤ) ^ 31 - 1 ≤ dm.longMax := by cases dm <;> decide
    omega
  rw [atoi, dropWhile_isspace_append hws (by
    intro d hd
    rw [List.cons_append, List.head?_cons, Option.mem_some_iff] at hd
    exact hd ▸ isspace_eq_false_of_isdigit hc)]
  rw [scanSign_of_isdigit (by
    intro d hd
    rw [List.cons_append, List.head?_cons, Option.mem_some_iff] at hd
    exact hd ▸ hc)]
  simp only [Bool.false_eq_true, if_false]
  rw [takeWhile_isdigit_append hds hrest, hmin, int32_of_mem (by omega) (by omega)]

/-- `istream >> n` on blanks, digits and a byte that is no digit. -/
theorem istreamUnsigned_of_digits (hws : ∀ c ∈ ws, isspace c = true)
    (hds : ∀ c ∈ ds, isdigit c = true) (hne : ds ≠ [])
    (hrest : ∀ c ∈ rest.head?, isdigit c = false) (hlt : digitsValue ds < 2 ^ 32) :
    istreamUnsigned (ws ++ (ds ++ rest)) = some (digitsValue ds) := by
  obtain ⟨c, ds', rfl⟩ := List.exists_cons_of_ne_nil hne
  have hc : isdigit c = true := hds c List.mem_cons_self
  have hskip : (ws ++ (c :: ds' ++ rest)).dropWhile isspace = c :: (ds' ++ rest) :=
    dropWhile_isspace_append hws fun d hd => by
      rw [List.cons_append, List.head?_cons, Option.mem_some_iff] at hd
      exact hd ▸ isspace_eq_false_of_isdigit hc
  have hsign : scanSign (c :: (ds' ++ rest)) = (false, c :: ds' ++ rest) :=
    scanSign_of_isdigit fun d hd => by
      rw [List.head?_cons, Option.mem_some_iff] at hd
      exact hd ▸ hc
  rw [istreamUnsigned, hskip]
  simp only [hsign]
  rw [takeWhile_isdigit_append hds hrest, if_neg (by omega), if_neg Bool.false_ne_true]

/-- **A printed `unsigned` is read back**, behind blanks and before a byte that is no digit. -/
theorem istreamUnsigned_decimal {n : ℕ} (hws : ∀ c ∈ ws, isspace c = true)
    (hrest : ∀ c ∈ rest.head?, isdigit c = false) (hlt : n < 2 ^ 32) :
    istreamUnsigned (ws ++ (decimal n ++ rest)) = some n := by
  rw [istreamUnsigned_of_digits hws (fun c hc => isdigit_of_mem_decimal hc) (decimal_ne_nil n)
    hrest (by rwa [digitsValue_decimal]), digitsValue_decimal]

theorem atoi_decimal {dm : DataModel} {n : ℕ} (hws : ∀ c ∈ ws, isspace c = true)
    (hrest : ∀ c ∈ rest.head?, isdigit c = false) (hlt : n < 2 ^ 31) :
    atoi dm (ws ++ (decimal n ++ rest)) = n := by
  rw [atoi_of_digits hws (fun c hc => isdigit_of_mem_decimal hc) (decimal_ne_nil n)
    hrest (by rwa [digitsValue_decimal]), digitsValue_decimal]

/-- A number alone. -/
theorem atoi_decimal_self {dm : DataModel} {n : ℕ} (hlt : n < 2 ^ 31) :
    atoi dm (decimal n) = n := by
  have h : atoi dm ([] ++ (decimal n ++ [])) = n := atoi_decimal (by simp) (by simp) hlt
  rwa [List.nil_append, List.append_nil] at h

/-- **A printed `int` is read back**, behind blanks. -/
theorem istreamInt_decimalInt {z : ℤ} (hws : ∀ c ∈ ws, isspace c = true)
    (h₁ : -2 ^ 31 ≤ z) (h₂ : z < 2 ^ 31) : istreamInt (ws ++ decimalInt z) = some z := by
  obtain ⟨d, ds, hds⟩ := List.exists_cons_of_ne_nil (decimal_ne_nil z.natAbs)
  have hd : isdigit d = true := isdigit_of_mem_decimal (hds ▸ List.mem_cons_self)
  have htake : (decimal z.natAbs).takeWhile isdigit = decimal z.natAbs :=
    List.takeWhile_eq_self_iff.mpr fun c hc => isdigit_of_mem_decimal hc
  rcases lt_or_ge z 0 with hz | hz
  · have hskip : (ws ++ decimalInt z).dropWhile isspace = 45 :: decimal z.natAbs := by
      rw [decimalInt, if_pos hz]
      exact dropWhile_isspace_append hws fun c hc => by
        rw [List.head?_cons, Option.mem_some_iff] at hc
        exact hc ▸ rfl
    rw [istreamInt, hskip]
    simp only [scanSign_minus, if_true]
    rw [htake, digitsValue_decimal]
    congr 1
    omega
  · have hskip : (ws ++ decimalInt z).dropWhile isspace = d :: ds := by
      rw [decimalInt, if_neg (by omega), hds]
      exact dropWhile_isspace_append hws fun c hc => by
        rw [List.head?_cons, Option.mem_some_iff] at hc
        exact hc ▸ isspace_eq_false_of_isdigit hd
    have hsign : scanSign (d :: ds) = (false, d :: ds) :=
      scanSign_of_isdigit fun c hc => by
        rw [List.head?_cons, Option.mem_some_iff] at hc
        exact hc ▸ hd
    rw [istreamInt, hskip]
    simp only [hsign, Bool.false_eq_true, if_false]
    rw [← hds, htake, digitsValue_decimal]
    congr 1
    omega

end Reading

/-! ## Hexadecimal -/

/-- The value of a hexadecimal digit. -/
def xdigitValue (c : Byte) : ℕ :=
  if isdigit c then c.toNat - 48 else if c ≤ 70 then c.toNat - 55 else c.toNat - 87

/-- `strtol(s, 0, 16)`: blanks, a sign, an optional `0x` before a digit, digits. -/
def strtol16 (s : Bytes) : ℤ :=
  let (neg, r) := scanSign (s.dropWhile isspace)
  let r := match r with
    | z :: x :: c :: r' =>
      if z = 48 ∧ (x = 120 ∨ x = 88) ∧ isxdigit c = true then c :: r' else r
    | _ => r
  let v : ℤ := (r.takeWhile isxdigit).foldl (fun v c => 16 * v + xdigitValue c) 0
  if neg then -v else v

/-- The conversion to `char`. -/
def toChar (z : ℤ) : Byte := UInt8.ofNat (z % 256).toNat

/-- An upper-case hexadecimal digit. -/
def hexDigit (d : ℕ) : Byte := UInt8.ofNat (if d < 10 then 48 + d else 55 + d)

/-- The two digits of a byte in a percent escape. -/
def hexPair (c : Byte) : Bytes := [hexDigit (c.toNat / 16), hexDigit (c.toNat % 16)]

theorem isxdigit_hexDigit {d : ℕ} (h : d < 16) : isxdigit (hexDigit d) = true := by
  interval_cases d <;> rfl

theorem isspace_hexDigit {d : ℕ} (h : d < 16) : isspace (hexDigit d) = false := by
  interval_cases d <;> rfl

theorem hexDigit_ne_zero {d : ℕ} (h : d < 16) : hexDigit d ≠ 0 := by
  interval_cases d <;> decide

theorem xdigitValue_hexDigit {d : ℕ} (h : d < 16) : xdigitValue (hexDigit d) = d := by
  interval_cases d <;> rfl

/-- The byte that two hexadecimal digits stand for. -/
def escapeByte (a b : Byte) : Byte := UInt8.ofNat (16 * xdigitValue a + xdigitValue b)

theorem isxdigit_iff {c : Byte} : isxdigit c = true ↔
    (48 ≤ c.toNat ∧ c.toNat ≤ 57) ∨ (65 ≤ c.toNat ∧ c.toNat ≤ 70) ∨
      (97 ≤ c.toNat ∧ c.toNat ≤ 102) := by
  simp only [isxdigit, Bool.or_eq_true, isdigit_iff, Bool.and_eq_true, decide_eq_true_eq,
    UInt8.le_iff_toNat_le, or_assoc]
  rfl

theorem xdigitValue_lt {c : Byte} (h : isxdigit c = true) : xdigitValue c < 16 := by
  have hc := isxdigit_iff.mp h
  have h70 : c ≤ 70 ↔ c.toNat ≤ 70 := UInt8.le_iff_toNat_le
  rw [xdigitValue]
  split
  · next hd =>
    rw [isdigit_iff] at hd
    omega
  · next hd =>
    rw [isdigit_iff] at hd
    split
    · next hle =>
      rw [h70] at hle
      omega
    · omega

/-- **Two hexadecimal digits, read by `strtol`.** -/
theorem strtol16_pair {a b : Byte} (ha : isxdigit a = true) (hb : isxdigit b = true) :
    strtol16 (cstr [a, b]) = (16 * xdigitValue a + xdigitValue b : ℕ) := by
  have hne : ∀ {c d : Byte}, isxdigit c = true → isxdigit d = false → c ≠ d := by
    rintro c d hc hd rfl
    exact absurd (hc.symm.trans hd) (by simp)
  have hzero : (0 : Byte) ∉ [a, b] := by
    rw [List.mem_cons, List.mem_singleton, not_or]
    exact ⟨(hne ha rfl).symm, (hne hb rfl).symm⟩
  have hspace : isspace a = false := by grind [isspace, isxdigit, isdigit]
  rw [cstr_eq_self hzero, strtol16, List.dropWhile_cons_of_neg (by simp [hspace]), scanSign,
    if_neg (hne ha rfl), if_neg (hne ha rfl)]
  simp only [List.takeWhile_cons, ha, hb, if_true, List.takeWhile_nil, List.foldl_cons,
    List.foldl_nil, Bool.false_eq_true, if_false]
  omega

theorem toChar_natCast {n : ℕ} (h : n < 256) : toChar n = UInt8.ofNat n := by
  rw [toChar, Int.emod_eq_of_lt (by omega) (by omega), Int.toNat_natCast]

theorem toChar_strtol16_pair {a b : Byte} (ha : isxdigit a = true) (hb : isxdigit b = true) :
    toChar (strtol16 (cstr [a, b])) = escapeByte a b := by
  have hlt₁ := xdigitValue_lt ha
  have hlt₂ := xdigitValue_lt hb
  rw [strtol16_pair ha hb, toChar_natCast (by omega), escapeByte]

/-- **The two digits of a byte read back as the byte.** -/
theorem toChar_strtol16_hexPair (c : Byte) : toChar (strtol16 (hexPair c)) = c := by
  have hc : c.toNat < 256 := c.toNat_lt
  have h₁ : c.toNat / 16 < 16 := by omega
  have h₂ : c.toNat % 16 < 16 := by omega
  have hzero : (0 : Byte) ∉ hexPair c := by
    rw [hexPair, List.mem_cons, List.mem_singleton, not_or]
    exact ⟨(hexDigit_ne_zero h₁).symm, (hexDigit_ne_zero h₂).symm⟩
  have hpair := toChar_strtol16_pair (isxdigit_hexDigit h₁) (isxdigit_hexDigit h₂)
  rw [← hexPair, cstr_eq_self hzero] at hpair
  rw [hpair, escapeByte, xdigitValue_hexDigit h₁, xdigitValue_hexDigit h₂, Nat.div_add_mod]
  exact UInt8.ofNat_toNat

end CModel
