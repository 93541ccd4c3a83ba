import CModel.Foundation.CString

/-!
# Zero-terminated strings as a type

* `CStr`: the bytes in front of the terminating zero, none of which is zero, which is a field.
* `CStr.of`: the string that a buffer starts with.
* The order of `strcmp`, by the unsigned values of the bytes.
-/

namespace CModel

/-- What a `char*` leads to that is not null. -/
structure CStr where
  bytes : Bytes
  noZero : (0 : Byte) ∉ bytes
  deriving DecidableEq, Repr

namespace CStr

/-- The string at the start of a buffer. -/
def of (s : Bytes) : CStr := ⟨cstr s, zero_notMem_cstr s⟩

/-- The empty string. -/
def empty : CStr := of []

theorem ext_iff {a b : CStr} : a = b ↔ a.bytes = b.bytes := by
  cases a
  cases b
  simp

@[simp] theorem bytes_of (s : Bytes) : (of s).bytes = cstr s := rfl

theorem of_bytes (s : CStr) : of s.bytes = s := ext_iff.mpr (cstr_eq_self s.noZero)

/-- `strcmp` -/
instance : Ord CStr := ⟨fun a b => compare a.bytes b.bytes⟩

theorem compare_eq (a b : CStr) : compare a b = compare a.bytes b.bytes := rfl

instance : Std.TransOrd CStr where
  eq_swap {a b} := @Std.OrientedCmp.eq_swap Bytes compare _ a.bytes b.bytes
  isLE_trans {a b c} h₁ h₂ :=
    @Std.TransCmp.isLE_trans Bytes compare _ a.bytes b.bytes c.bytes h₁ h₂

instance : Std.LawfulEqOrd CStr where
  compare_self {a} := @Std.ReflCmp.compare_self Bytes compare _ a.bytes
  eq_of_compare {a b} h :=
    ext_iff.mpr (@Std.LawfulEqCmp.eq_of_compare Bytes compare _ a.bytes b.bytes h)

end CStr

end CModel
