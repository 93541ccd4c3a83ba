import CModel.Foundation.Bytes
import CModel.Foundation.Search

/-!
# `<cstring>` and `std::map`

* `strstr`, `strchr`: the first occurrence before the first zero.  A buffer without a zero is
  taken to end where its bytes end.
* `findChar`: the first occurrence of a byte, zeros or not, as `std::string::find` looks for it.
* `StdMap`: `std::map<std::string, std::string>`, ordered by the unsigned values of the bytes.
-/

namespace CModel

/-- `strstr`. -/
def strstr (s pat : Bytes) : Option ℕ := findBy (· == ·) pat (cstr s)

/-- The first position of a byte: `std::string::find`. -/
def findChar (c : Byte) (s : Bytes) : Option ℕ := s.findIdx? (· == c)

/-- `strchr`, for a byte other than zero. -/
def strchr (s : Bytes) (c : Byte) : Option ℕ := findChar c (cstr s)

/-- `std::map<std::string, std::string>`. -/
abbrev StdMap := Std.ExtTreeMap Bytes Bytes

/-- The value of a key, empty where there is none. -/
def StdMap.get (m : StdMap) (k : Bytes) : Bytes := m[k]?.getD []

theorem StdMap.get_of_getElem? {m : StdMap} {k v : Bytes} (h : m[k]? = some v) :
    StdMap.get m k = v := by
  rw [StdMap.get, h, Option.getD_some]

/-- `map::insert` leaves a key alone that is in the map. -/
theorem StdMap.getElem?_insertIfNew (m : StdMap) (k v key : Bytes) :
    (m.insertIfNew k v)[key]? = m[key]?.or (if k = key then some v else none) := by
  rw [Std.ExtTreeMap.getElem?_insertIfNew]
  by_cases hkey : k = key
  · subst hkey
    cases hm : m[k]? with
    | none =>
      have hmem : k ∉ m := by
        rw [Std.ExtTreeMap.mem_iff_isSome_getElem?, hm]
        exact Bool.false_ne_true
      rw [if_pos ⟨Std.LawfulEqCmp.compare_eq_iff_eq.mpr rfl, hmem⟩, if_pos rfl, Option.none_or]
    | some w =>
      have hmem : k ∈ m := by
        rw [Std.ExtTreeMap.mem_iff_isSome_getElem?, hm]
        rfl
      rw [if_neg fun h0 => h0.2 hmem, Option.some_or]
  · rw [if_neg fun h0 => hkey (Std.LawfulEqCmp.compare_eq_iff_eq.mp h0.1), if_neg hkey,
      Option.or_none]

/-- A pair that is inserted comes in front of the pairs that follow it. -/
theorem StdMap.getElem?_insertIfNew_or (m : StdMap) (k v : Bytes) (ps : List (Bytes × Bytes))
    (key : Bytes) : (m.insertIfNew k v)[key]?.or (ps.lookup key) =
      m[key]?.or (((k, v) :: ps).lookup key) := by
  rw [StdMap.getElem?_insertIfNew, Option.or_assoc, List.lookup_cons]
  by_cases hkey : k = key
  · rw [if_pos hkey, hkey, beq_self_eq_true, Option.some_or]
  · rw [if_neg hkey, beq_eq_false_iff_ne.mpr (Ne.symm hkey), Option.none_or]

/-- What stands in front of a zero. -/
theorem cstr_append_zero {s : Bytes} (h : (0 : Byte) ∉ s) (t : Bytes) : cstr (s ++ 0 :: t) = s := by
  have hs : ∀ x ∈ s, (x != 0) = true := fun x hx => bne_iff_ne.mpr fun h0 => h (by rwa [← h0])
  rw [cstr, List.takeWhile_append_of_pos hs, List.takeWhile_cons_of_neg (by decide),
    List.append_nil]

/-- Text without a zero in front. -/
theorem cstr_append {s : Bytes} (h : (0 : Byte) ∉ s) (t : Bytes) : cstr (s ++ t) = s ++ cstr t :=
  List.takeWhile_append_of_pos fun _ hx => bne_iff_ne.mpr fun h0 => h (by rwa [← h0])

theorem cstr_cons {c : Byte} (h : c ≠ 0) (t : Bytes) : cstr (c :: t) = c :: cstr t :=
  List.takeWhile_cons_of_pos (bne_iff_ne.mpr h)

theorem strstr_eq_findBy {s pat : Bytes} (h : (0 : Byte) ∉ s) :
    strstr s pat = findBy (· == ·) pat s := by
  rw [strstr, cstr_eq_self h]

/-- An occurrence lies inside the text. -/
theorem length_le_of_strstr {s pat : Bytes} {k : ℕ} (h : strstr s pat = some k) :
    k + pat.length ≤ s.length :=
  (findBy_add_length_le h).trans (List.takeWhile_prefix _).length_le

/-- The pattern stands where it is found. -/
theorem isPrefix_drop_of_strstr {s pat : Bytes} {k : ℕ} (h : strstr s pat = some k) :
    pat <+: s.drop k := by
  obtain ⟨hi, hp, -⟩ := findBy_eq_some_iff.mp h
  obtain ⟨r, hr⟩ : cstr s <+: s := List.takeWhile_prefix _
  have hdrop : s.drop k = (cstr s).drop k ++ r := by
    rw [← List.drop_append_of_le_length hi, hr]
  rw [hdrop]
  exact (prefixBy_beq_iff.mp hp).trans (List.prefix_append _ _)

/-- The text is cut at the first occurrence. -/
theorem exists_of_strstr {s pat : Bytes} {k : ℕ} (hne : pat ≠ []) (h : strstr s pat = some k) :
    ∃ t, s = s.take k ++ (pat ++ t) ∧ ¬ pat <:+: s.take k := by
  obtain ⟨r, hr⟩ : cstr s <+: s := List.takeWhile_prefix _
  have hle := findBy_add_length_le h
  have htake : (cstr s).take k = s.take k := by
    have happ : (cstr s ++ r).take k = (cstr s).take k :=
      List.take_append_of_le_length (by omega)
    rw [← happ, hr]
  obtain ⟨t, hcut, hno⟩ := exists_of_findBy hne h
  rw [htake] at hcut hno
  refine ⟨t ++ r, ?_, hno⟩
  calc s = cstr s ++ r := hr.symm
    _ = s.take k ++ (pat ++ (t ++ r)) := by rw [hcut, List.append_assoc, List.append_assoc]

/-- A pattern without its first letter inside is found behind a text without the pattern. -/
theorem strstr_of_not_isInfix {p : Byte} {ps s : Bytes} (hp : p ∉ ps) (hzero : (0 : Byte) ∉ p :: ps)
    (hs : ¬ p :: ps <:+: s) (hszero : (0 : Byte) ∉ s) (t : Bytes) :
    strstr (s ++ (p :: ps ++ t)) (p :: ps) = some s.length := by
  rw [strstr, cstr_append hszero, cstr_append hzero]
  exact findBy_of_not_isInfix hp hs (cstr t)

theorem findChar_eq_none_iff {c : Byte} {s : Bytes} : findChar c s = none ↔ c ∉ s := by
  rw [findChar, List.findIdx?_eq_none_iff]
  constructor
  · intro h hc
    exact absurd (h c hc) (by simp)
  · intro h x hx
    have hne : x ≠ c := fun h0 => h (h0 ▸ hx)
    simpa using hne

/-- The first occurrence of a byte splits the text. -/
theorem findChar_append {c : Byte} {s : Bytes} (h : c ∉ s) (t : Bytes) :
    findChar c (s ++ c :: t) = some s.length := by
  induction s with
  | nil => simp [findChar, List.findIdx?_cons]
  | cons a s ih =>
    have ha : a ≠ c := fun h0 => h (h0 ▸ List.mem_cons_self)
    have hs := ih fun h0 => h (List.mem_cons_of_mem a h0)
    rw [findChar] at hs ⊢
    rw [List.cons_append, List.findIdx?_cons, hs]
    simp [ha]

/-- The text in front of the first occurrence of a byte. -/
theorem takeWhile_bne {c : Byte} {s : Bytes} (h : c ∉ s) (t : Bytes) :
    (s ++ c :: t).takeWhile (· != c) = s := by
  have hs : ∀ x ∈ s, (x != c) = true := fun x hx => bne_iff_ne.mpr fun h0 => h (by rwa [← h0])
  rw [List.takeWhile_append_of_pos hs, List.takeWhile_cons_of_neg (by simp), List.append_nil]

/-- The text from the first occurrence of a byte on. -/
theorem dropWhile_bne {c : Byte} {s : Bytes} (h : c ∉ s) (t : Bytes) :
    (s ++ c :: t).dropWhile (· != c) = c :: t := by
  have hs : ∀ x ∈ s, (x != c) = true := fun x hx => bne_iff_ne.mpr fun h0 => h (by rwa [← h0])
  rw [List.dropWhile_append_of_pos hs, List.dropWhile_cons_of_neg (by simp)]

/-- A text without the byte is in front of it. -/
theorem takeWhile_bne_of_notMem {c : Byte} {s : Bytes} (h : c ∉ s) :
    s.takeWhile (· != c) = s :=
  List.takeWhile_eq_self_iff.mpr fun x hx => bne_iff_ne.mpr fun h0 => h (by rwa [← h0])

/-- Cutting at the first occurrence of a byte, or not at all. -/
theorem take_findChar (c : Byte) (s : Bytes) :
    s.take ((findChar c s).getD s.length) = s.takeWhile (· != c) := by
  by_cases h : c ∈ s
  · obtain ⟨a, b, rfl, ha⟩ := List.eq_append_cons_of_mem h
    rw [findChar_append ha, takeWhile_bne ha, Option.getD_some, List.take_left]
  · rw [findChar_eq_none_iff.mpr h, takeWhile_bne_of_notMem h, Option.getD_none, List.take_length]

theorem findChar_eq_some_iff {c : Byte} {s : Bytes} {i : ℕ} :
    findChar c s = some i ↔ ∃ a b, s = a ++ c :: b ∧ c ∉ a ∧ a.length = i := by
  constructor
  · intro h
    have hmem : c ∈ s := by
      by_contra hc
      rw [findChar_eq_none_iff.mpr hc] at h
      exact absurd h (by simp)
    obtain ⟨a, b, rfl, ha⟩ := List.eq_append_cons_of_mem hmem
    rw [findChar_append ha, Option.some.injEq] at h
    exact ⟨a, b, rfl, ha, h⟩
  · rintro ⟨a, b, rfl, ha, rfl⟩
    exact findChar_append ha b

end CModel
