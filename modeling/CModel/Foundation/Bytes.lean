import Mathlib.Algebra.Group.Int.Defs
import Mathlib.Algebra.Group.Nat.Defs
import Mathlib.Data.List.TakeWhile
import Mathlib.Data.Int.Order.Basic

/-!
# Byte strings and the character classes of the C locale

A C buffer is read as the list of its bytes.  The predicates of `<cctype>` are the ones of the
"C" locale: a byte above `127`, which `char` passes on as a negative number, is in no class and
is its own upper and lower case.

* `ascii`: the bytes of a string literal.
* `isspace`, `isdigit`, `isxdigit`, `isalpha`, `toupper`, `tolower`: `<cctype>`.
* `cstr`: what a `const char*` names, the bytes before the first zero.
* `DataModel`: the widths of the integer types that differ between the two Unix data models.
* `u32`, `int32`: the reduction to `unsigned` and to `int`.
-/

namespace CModel

/-- A byte of a buffer. -/
abbrev Byte := UInt8

/-- The contents of a buffer or of a `std::string`. -/
abbrev Bytes := List Byte

/-- The bytes of an ASCII literal. -/
def ascii (s : String) : Bytes := s.toByteArray.data.toList

/-- A statement about the bytes of a list is decided on the list, not on all 256 bytes. -/
instance (priority := high) decidableForallMem (p : Byte → Prop) [DecidablePred p] (l : Bytes) :
    Decidable (∀ c ∈ l, p c) :=
  List.decidableBAll p l

/-- Line feed. -/
abbrev LF : Byte := 10

/-- Carriage return. -/
abbrev CR : Byte := 13

/-! ## Character classes -/

/-- `isspace`: blank, and the five control characters from tab to carriage return. -/
def isspace (c : Byte) : Bool := c == 32 || (9 ≤ c && c ≤ 13)

/-- `isdigit`. -/
def isdigit (c : Byte) : Bool := 48 ≤ c && c ≤ 57

/-- `isalpha`. -/
def isalpha (c : Byte) : Bool := (65 ≤ c && c ≤ 90) || (97 ≤ c && c ≤ 122)

/-- `isxdigit`. -/
def isxdigit (c : Byte) : Bool := isdigit c || (65 ≤ c && c ≤ 70) || (97 ≤ c && c ≤ 102)

/-- `toupper`. -/
def toupper (c : Byte) : Byte := if 97 ≤ c && c ≤ 122 then c - 32 else c

/-- `tolower`. -/
def tolower (c : Byte) : Byte := if 65 ≤ c && c ≤ 90 then c + 32 else c

theorem toupper_ne_zero {c : Byte} (h : c ≠ 0) : toupper c ≠ 0 := by
  grind [toupper]

theorem toupper_toupper (c : Byte) : toupper (toupper c) = toupper c := by
  grind [toupper]

theorem isspace_eq_false_of_isdigit {c : Byte} (h : isdigit c = true) : isspace c = false := by
  grind [isdigit, isspace]

/-! ## Zero-terminated strings -/

/-- The C string that starts a buffer: its bytes before the first zero. -/
def cstr (s : Bytes) : Bytes := s.takeWhile (· != 0)

/-- Without a zero the C string is the whole buffer. -/
theorem cstr_eq_self {s : Bytes} (h : (0 : Byte) ∉ s) : cstr s = s := by
  rw [cstr, List.takeWhile_eq_self_iff]
  intro c hc
  have hne : c ≠ 0 := fun h0 => h (h0 ▸ hc)
  simpa using hne

/-- A text without a zero is its own C string in upper case. -/
theorem cstr_map_toupper {s : Bytes} (h : (0 : Byte) ∉ s) :
    cstr (s.map toupper) = s.map toupper := by
  refine cstr_eq_self ?_
  intro hzero
  obtain ⟨c, hc, h0⟩ := List.mem_map.mp hzero
  have hne : c ≠ 0 := fun h' => h (h' ▸ hc)
  exact toupper_ne_zero hne h0

/-- A C string holds no zero. -/
theorem zero_notMem_cstr (s : Bytes) : (0 : Byte) ∉ cstr s := by
  intro h
  have h0 := List.mem_takeWhile_imp h
  simp at h0

/-! ## Integer types -/

/-- The two Unix data models: `int` has 32 bits in both, `long` has 32 in the one and 64 in the
other. -/
inductive DataModel where
  | ilp32
  | lp64
  deriving DecidableEq, Repr

/-- `ULONG_MAX`. -/
def DataModel.ulongMax : DataModel → ℕ
  | .ilp32 => 2 ^ 32 - 1
  | .lp64 => 2 ^ 64 - 1

/-- `LONG_MAX`. -/
def DataModel.longMax : DataModel → ℤ
  | .ilp32 => 2 ^ 31 - 1
  | .lp64 => 2 ^ 63 - 1

/-- The conversion to `unsigned`. -/
def u32 (n : ℕ) : ℕ := n % 2 ^ 32

/-- The conversion to `int`. -/
def int32 (z : ℤ) : ℤ := (z + 2 ^ 31) % 2 ^ 32 - 2 ^ 31

theorem u32_of_lt {n : ℕ} (h : n < 2 ^ 32) : u32 n = n := Nat.mod_eq_of_lt h

theorem int32_of_mem {z : ℤ} (h₁ : -2 ^ 31 ≤ z) (h₂ : z < 2 ^ 31) : int32 z = z := by
  unfold int32
  omega

/-- An `int` is at least `-2 ^ 31` and below `2 ^ 31`. -/
theorem int32_mem (z : ℤ) : -2 ^ 31 ≤ int32 z ∧ int32 z < 2 ^ 31 := by
  unfold int32
  omega

end CModel
