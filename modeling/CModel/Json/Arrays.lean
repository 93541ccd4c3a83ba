import CModel.Json.Value

/-!
# Arrays and their sizes

An array is a map by index, in which an index may be missing, and its size is the last index and
one.

* `Indexed`: the entries by ascending index, none of which is too large for an `int`.
* `arraySize_le_iff`: the size by what is in the map.
* `BuiltArray`: the arrays that assignments to elements and `resize` make of an empty one.
* `eraseFrom_spec`: what the loop of `resize` leaves.
* `resize_spec`: **where `resize` takes elements away, its assertion holds exactly if the last
  element to stay is there**; the array has the size asked for, with the elements that fit.
-/

namespace CModel
namespace Json

variable {R : Type} {m : List (CZString × Value R)} {n i : ℕ}

/-- The entries of an array by ascending index, at which `size` does not leave the range of an
`int`. -/
structure Indexed (m : List (CZString × Value R)) : Prop where
  ascending : Assoc.Ascending m
  index : ∀ e ∈ m, ∃ i : ℕ, i + 1 < 2 ^ 31 ∧ e.1 = .index i

namespace Indexed

theorem nil : Indexed ([] : List (CZString × Value R)) :=
  ⟨Assoc.ascending_nil, fun _ h => absurd h List.not_mem_nil⟩

theorem erase (h : Indexed m) (key : CZString) : Indexed (Assoc.erase key m) where
  ascending := h.ascending.erase key
  index e he := h.index e (List.mem_of_mem_filter he)

theorem insert (h : Indexed m) (hi : i + 1 < 2 ^ 31) (v : Value R) :
    Indexed (Assoc.insert (.index i) v m) where
  ascending := Assoc.ascending_insert h.ascending
  index e he := by
    rcases Assoc.mem_of_mem_insert he with rfl | he
    · exact ⟨i, hi, rfl⟩
    · exact h.index e he

theorem modify {f : Value R → Option (Value R)} {key : CZString} {m' : List (CZString × Value R)}
    (h : Indexed m) (hm : Assoc.modify key f m = some m') : Indexed m' where
  ascending := h.ascending.modify hm
  index e he := by
    have hkey : e.1 ∈ m.map Prod.fst := Assoc.keys_modify hm ▸ List.mem_map_of_mem he
    obtain ⟨e', he', heq⟩ := List.mem_map.mp hkey
    rw [← heq]
    exact h.index e' he'

/-- A map without an entry, or with a last one. -/
theorem nil_or_last (h : Indexed m) : m = [] ∨
    ∃ l v k, m = l ++ [(CZString.index (k : ℕ), v)] ∧ k + 1 < 2 ^ 31 ∧
      ∀ e ∈ l, ∃ j : ℕ, j < k ∧ e.1 = .index j := by
  rcases List.eq_nil_or_concat m with rfl | ⟨l, ⟨key, v⟩, rfl⟩
  · exact .inl rfl
  · rw [List.concat_eq_append] at h ⊢
    obtain ⟨k, hk, hkey⟩ := h.index (key, v) (by simp)
    obtain rfl : key = .index k := hkey
    refine .inr ⟨l, v, k, rfl, hk, fun e he => ?_⟩
    obtain ⟨j, -, hj⟩ := h.index e (List.mem_append_left _ he)
    have hlt := (List.pairwise_append.mp h.ascending).2.2 e he _ (List.mem_singleton_self _)
    rw [hj, CZString.compare_index, Std.compare_eq_lt] at hlt
    exact ⟨j, by exact_mod_cast hlt, hj⟩

end Indexed

theorem arraySize_last {l : List (CZString × Value R)} {v : Value R} {k : ℕ} (hk : k + 1 < 2 ^ 31) :
    Value.arraySize (l ++ [(.index (k : ℤ), v)]) = k + 1 := by
  rw [Value.arraySize, List.getLast?_concat]
  simp only [CZString.indexOf, Option.getD_some]
  omega

/-- The size is the first index from which on there is nothing. -/
theorem arraySize_le_iff (h : Indexed m) :
    Value.arraySize m ≤ n ↔ ∀ i : ℕ, n ≤ i → Assoc.find (.index i) m = none := by
  rcases h.nil_or_last with rfl | ⟨l, v, k, rfl, hk, hl⟩
  · exact ⟨fun _ _ _ => rfl, fun _ => Nat.zero_le _⟩
  · rw [arraySize_last hk]
    constructor
    · intro hle i hi
      refine Assoc.find_eq_none_iff.mpr fun e he heq => ?_
      rcases List.mem_append.mp he with he | he
      · obtain ⟨j, hj, hkey⟩ := hl e he
        have hij := CZString.index.inj (hkey.symm.trans heq)
        omega
      · rw [List.mem_singleton.mp he] at heq
        have hki := CZString.index.inj heq
        omega
    · intro hnone
      by_contra hlt
      have hlast := Assoc.find_eq_none_iff.mp (hnone k (by omega)) (.index k, v) (by simp)
      exact hlast rfl

/-- The last element of an array is there. -/
theorem arraySize_eq_succ_iff (h : Indexed m) : Value.arraySize m = n + 1 ↔
    (Assoc.find (.index n) m).isSome ∧ ∀ i : ℕ, n < i → Assoc.find (.index i) m = none := by
  have hle := @arraySize_le_iff R m n h
  have hsucc := @arraySize_le_iff R m (n + 1) h
  constructor
  · intro hsize
    have habove := hsucc.mp hsize.le
    refine ⟨?_, fun i hi => habove i hi⟩
    rw [← Option.ne_none_iff_isSome]
    intro hnone
    have hshort := hle.mpr fun i hi => by
      rcases Nat.eq_or_lt_of_le hi with rfl | hi
      · exact hnone
      · exact habove i hi
    omega
  · rintro ⟨hsome, habove⟩
    have hupper := hsucc.mpr habove
    by_contra hne
    have hnone := hle.mp (by omega) n le_rfl
    rw [hnone] at hsome
    exact absurd hsome (by simp)

/-! ## Taking elements away -/

theorem ofIndex_eq_index (h : i < 2 ^ 31) : CZString.ofIndex i = .index i := by
  rw [CZString.ofIndex, int32_of_mem (by omega) (by omega)]

/-- A run of the loop takes its indices away. -/
theorem foldl_erase_spec {start count : ℕ} (h : Indexed m) (hle : start + count ≤ 2 ^ 31) :
    Indexed ((List.range' start count).foldl
      (fun m index => Assoc.erase (CZString.ofIndex index) m) m) ∧
    ∀ i : ℕ, Assoc.find (.index i) ((List.range' start count).foldl
      (fun m index => Assoc.erase (CZString.ofIndex index) m) m) =
        if start ≤ i ∧ i < start + count then none else Assoc.find (.index i) m := by
  induction count generalizing m start with
  | zero => exact ⟨h, fun i => (if_neg (by omega)).symm⟩
  | succ count ih =>
    rw [List.range'_succ, List.foldl_cons, ofIndex_eq_index (by omega)]
    obtain ⟨hindexed, hfind⟩ := @ih _ (start + 1) (h.erase (.index start)) (by omega)
    refine ⟨hindexed, fun i => ?_⟩
    rw [hfind]
    by_cases hi : i = start
    · subst hi
      rw [if_neg (by omega), Assoc.find_erase_self, if_pos (by omega)]
    · have hne : CZString.index (start : ℤ) ≠ .index i := by
        intro heq
        have hcast := CZString.index.inj heq
        omega
      rw [Assoc.find_erase_of_ne hne]
      by_cases hin : start + 1 ≤ i ∧ i < start + 1 + count
      · rw [if_pos hin, if_pos (by omega)]
      · rw [if_neg hin, if_neg (by omega)]

/-- The loop of `resize` takes the indices from `newSize` on away. -/
theorem eraseFrom_spec (h : Indexed m) {newSize oldSize : ℕ} (hold : oldSize ≤ 2 ^ 31) :
    Indexed (Value.eraseFrom newSize oldSize m) ∧
      ∀ i : ℕ, Assoc.find (.index i) (Value.eraseFrom newSize oldSize m) =
        if newSize ≤ i ∧ i < oldSize then none else Assoc.find (.index i) m := by
  rw [Value.eraseFrom]
  by_cases hle : newSize ≤ oldSize
  · have hrange : newSize + (oldSize - newSize) ≤ 2 ^ 31 := by omega
    obtain ⟨hindexed, hfind⟩ := foldl_erase_spec h hrange
    refine ⟨hindexed, fun i => ?_⟩
    rw [hfind, Nat.add_sub_cancel' hle]
  · rw [Nat.sub_eq_zero_of_le (by omega)]
    exact ⟨h, fun i => (if_neg (by omega)).symm⟩

theorem arraySize_lt (h : Indexed m) : Value.arraySize m < 2 ^ 31 := by
  rcases h.nil_or_last with rfl | ⟨l, v, k, rfl, hk, -⟩
  · exact Nat.two_pow_pos 31
  · rwa [arraySize_last hk]

/-- What is left after the loop has the size asked for exactly if its last element is there. -/
theorem arraySize_eraseFrom (h : Indexed m) :
    Value.arraySize (Value.eraseFrom (n + 1) (Value.arraySize m) m) = n + 1 ↔
      (Assoc.find (.index n) m).isSome := by
  obtain ⟨hindexed, hfind⟩ := eraseFrom_spec h (arraySize_lt h).le
  rw [arraySize_eq_succ_iff hindexed, hfind, if_neg (by omega)]
  refine and_iff_left fun i hi => ?_
  rw [hfind]
  by_cases hlt : i < Value.arraySize m
  · rw [if_pos ⟨hi, hlt⟩]
  · rw [if_neg (by omega)]
    exact (arraySize_le_iff h).mp (Nat.le_refl _) i (by omega)

/-! ## Elements that are put in -/

theorem find_insert_getD (h : Indexed m) (key key' : CZString) (b : Value R) :
    (Assoc.find key' (Assoc.insert key b m)).getD b = (Assoc.find key' m).getD b := by
  by_cases hkey : key = key'
  · subst hkey
    rw [Assoc.find_insert_self h.ascending]
    rfl
  · rw [Assoc.find_insert_of_ne hkey]

/-- An element behind the last one makes the array as long as its index says. -/
theorem arraySize_insert (h : Indexed m) (hn : n + 1 < 2 ^ 31) (hsize : Value.arraySize m ≤ n)
    (v : Value R) : Value.arraySize (Assoc.insert (.index n) v m) = n + 1 := by
  have hlt : ∀ e ∈ m, compare e.1 (CZString.index n) = .lt := by
    intro e he
    obtain ⟨i, -, hi⟩ := h.index e he
    rw [hi, CZString.compare_index, Std.compare_eq_lt]
    by_contra hle
    have hnone := (arraySize_le_iff h).mp hsize i (by omega)
    exact Assoc.find_eq_none_iff.mp hnone e he hi
  rw [Assoc.insert_last hlt, arraySize_last hn]

/-- A negative index is in front of all others. -/
theorem arraySize_insert_negative (h : Indexed m) (hm : m ≠ []) {z : ℤ} (hz : z < 0)
    (v : Value R) : Value.arraySize (Assoc.insert (.index z) v m) = Value.arraySize m := by
  obtain ⟨e, l, rfl⟩ := List.exists_cons_of_ne_nil hm
  obtain ⟨i, -, hi⟩ := h.index e List.mem_cons_self
  have hgt : compare e.1 (CZString.index z) = .gt := by
    rw [hi, CZString.compare_index, Std.compare_eq_gt]
    omega
  have hfront : Assoc.insert (.index z) v (e :: l) = (.index z, v) :: e :: l := by
    rw [Assoc.insert]
    simp only [hgt]
  rw [hfront, Value.arraySize, Value.arraySize, List.getLast?_cons_cons]

/-! ## The new size -/

variable {c : Comments} {v w : Value R}

theorem eq_of_asMap (hv : v.asMap .array = some (c, m)) :
    (v = .scalar c .null ∧ m = []) ∨ v = .map c .array m := by
  cases v with
  | scalar c' a =>
    cases a with
    | null =>
      obtain ⟨rfl, rfl⟩ := Prod.mk.inj (Option.some.inj hv)
      exact .inl ⟨rfl, rfl⟩
    | _ => exact absurd hv (by simp [Value.asMap])
  | map c' k m' =>
    by_cases hk : k = .array
    · subst hk
      obtain ⟨rfl, rfl⟩ := Prod.mk.inj (Option.some.inj hv)
      exact .inr rfl
    · rw [Value.asMap, if_neg hk] at hv
      exact absurd hv (by simp)

theorem size_eq_arraySize (hv : v.asMap .array = some (c, m)) : v.size = Value.arraySize m := by
  obtain ⟨rfl, rfl⟩ | rfl := eq_of_asMap hv
  · rfl
  · rfl

theorem get_index (hv : v.asMap .array = some (c, m)) (i : ℕ) :
    v.get (.index i) = some ((Assoc.find (.index i) m).getD .null) := by
  have hmap : Value.mapTypeOf (.index i) = .array := rfl
  rw [Value.get, Value.at?, hmap, hv]
  rfl

theorem resize_zero (hv : v.asMap .array = some (c, m)) :
    v.resize 0 = some (.map c .array []) := by
  rw [Value.resize, hv]
  rfl

theorem resize_of_lt (hv : v.asMap .array = some (c, m)) (hlt : Value.arraySize m < n) :
    v.resize n =
      some (.map c .array (Assoc.insert (CZString.ofIndex (n - 1)) .null m)) := by
  have hpos : n ≠ 0 := by omega
  simp only [Value.resize, hv, Option.bind_eq_bind, Option.bind_some, if_neg hpos, if_pos hlt]
  rfl

theorem resize_of_le (hv : v.asMap .array = some (c, m)) (h : Indexed m)
    (hle : n + 1 ≤ Value.arraySize m) :
    v.resize (n + 1) =
      if (Assoc.find (.index n) m).isSome then
        some (.map c .array (Value.eraseFrom (n + 1) (Value.arraySize m) m))
      else none := by
  have hge : ¬Value.arraySize m < n + 1 := by omega
  simp only [Value.resize, hv, Option.bind_eq_bind, Option.bind_some, if_neg (Nat.succ_ne_zero n),
    if_neg hge]
  exact if_congr (arraySize_eraseFrom h) rfl rfl

/-- An array of a size, with the elements of another one that fit. -/
structure ResizedTo (n : ℕ) (v w : Value R) (c : Comments) : Prop where
  indexed : ∃ m, w = .map c .array m ∧ Indexed m
  size : w.size = n
  get : ∀ i : ℕ, w.get (.index i) = if i < n then v.get (.index i) else some .null

theorem resizedTo_zero (v : Value R) (c : Comments) : ResizedTo 0 v (.map c .array []) c where
  indexed := ⟨[], rfl, .nil⟩
  size := rfl
  get i := by
    rw [if_neg (Nat.not_lt_zero i), get_index rfl]
    rfl

theorem resizedTo_of_lt (hv : v.asMap .array = some (c, m)) (h : Indexed m)
    (hlt : Value.arraySize m < n) (hn : n < 2 ^ 31) :
    ResizedTo n v (.map c .array (Assoc.insert (CZString.ofIndex (n - 1)) .null m)) c := by
  have hlast : n - 1 + 1 < 2 ^ 31 := by omega
  rw [ofIndex_eq_index (by omega)]
  refine ⟨⟨_, rfl, h.insert hlast _⟩, ?_, fun i => ?_⟩
  · have hsize := arraySize_insert h hlast (by omega) Value.null
    rw [Nat.sub_add_cancel (by omega)] at hsize
    exact hsize
  · rw [get_index rfl, find_insert_getD h, get_index hv]
    by_cases hi : i < n
    · rw [if_pos hi]
    · rw [if_neg hi, (arraySize_le_iff h).mp (Nat.le_refl _) i (by omega), Option.getD_none]

theorem resizedTo_of_le (hv : v.asMap .array = some (c, m)) (h : Indexed m)
    (hlast : (Assoc.find (.index n) m).isSome) :
    ResizedTo (n + 1) v (.map c .array (Value.eraseFrom (n + 1) (Value.arraySize m) m)) c := by
  obtain ⟨hindexed, hfind⟩ := eraseFrom_spec h (arraySize_lt h).le
  refine ⟨⟨_, rfl, hindexed⟩, (arraySize_eraseFrom h).mpr hlast, fun i => ?_⟩
  rw [get_index rfl, hfind, get_index hv]
  by_cases hi : i < n + 1
  · rw [if_pos hi, if_neg (by omega)]
  · rw [if_neg hi]
    by_cases hin : i < Value.arraySize m
    · rw [if_pos (by omega), Option.getD_none]
    · rw [if_neg (by omega), (arraySize_le_iff h).mp (Nat.le_refl _) i (by omega),
        Option.getD_none]

/-- A size out of the range of an `int` is asked for by a negative index. -/
theorem size_of_large (h : Indexed m) (hn : 2 ^ 31 < n) (hn' : n < 2 ^ 32) :
    Value.arraySize (Assoc.insert (CZString.ofIndex (n - 1)) (.null : Value R) m) =
      if m = [] then n else Value.arraySize m := by
  have hindex : int32 ((n - 1 : ℕ) : ℤ) = n - 1 - 2 ^ 32 := by
    unfold int32
    omega
  rw [CZString.ofIndex, hindex]
  by_cases hm : m = []
  · subst hm
    rw [if_pos rfl, Assoc.insert, Value.arraySize]
    simp only [List.getLast?_singleton, CZString.indexOf, Option.getD_some]
    omega
  · rw [if_neg hm, arraySize_insert_negative h hm (by omega)]

theorem resize_cases (hv : v.asMap .array = some (c, m)) (h : Indexed m) (hn : n < 2 ^ 32) :
    ((v.resize n).isSome ↔
      n = 0 ∨ Value.arraySize m < n ∨ (Assoc.find (.index (n - 1 : ℕ)) m).isSome) ∧
    ∀ w, v.resize n = some w →
      if n < 2 ^ 31 then ResizedTo n v w c
      else (2 ^ 31 < n → w.size = if m = [] then n else Value.arraySize m) ∧
        ∀ i : ℕ, w.get (.index i) = v.get (.index i) := by
  by_cases hlt : Value.arraySize m < n
  · rw [resize_of_lt hv hlt]
    refine ⟨⟨fun _ => .inr (.inl hlt), fun _ => rfl⟩, ?_⟩
    rintro w ⟨⟩
    by_cases hint : n < 2 ^ 31
    · rw [if_pos hint]
      exact resizedTo_of_lt hv h hlt hint
    · rw [if_neg hint]
      refine ⟨fun hlarge => size_of_large h hlarge hn, fun i => ?_⟩
      rw [get_index rfl, find_insert_getD h, get_index hv]
  · have hsize := arraySize_lt h
    have hint : n < 2 ^ 31 := by omega
    cases n with
    | zero =>
      rw [resize_zero hv]
      refine ⟨⟨fun _ => .inl rfl, fun _ => rfl⟩, ?_⟩
      rintro w ⟨⟩
      rw [if_pos hint]
      exact resizedTo_zero v c
    | succ n =>
      rw [resize_of_le hv h (by omega), Nat.add_sub_cancel]
      by_cases hlast : (Assoc.find (.index n) m).isSome
      · rw [if_pos hlast]
        refine ⟨⟨fun _ => .inr (.inr hlast), fun _ => rfl⟩, ?_⟩
        rintro w ⟨⟩
        rw [if_pos hint]
        exact resizedTo_of_le hv h hlast
      · rw [if_neg hlast]
        refine ⟨⟨fun hsome => absurd hsome (by simp), ?_⟩, fun w hw => absurd hw (by simp)⟩
        rintro (hzero | hgrow | hsome)
        · exact absurd hzero (Nat.succ_ne_zero n)
        · exact absurd hgrow hlt
        · exact absurd hsome hlast

/-! ## Arrays of a program -/

/-- What becomes of a null value or an empty array by assignments to its elements, which
`operator[]` puts in first, and by `resize`, with indices and sizes that are in the range of an `int`. -/
inductive BuiltArray : Value R → Prop
  | null (c : Comments) : BuiltArray (.scalar c .null)
  | empty (c : Comments) : BuiltArray (.map c .array [])
  | assign {v u w : Value R} {i : ℕ} {f : Value R → Option (Value R)} (h : BuiltArray v)
      (hi : i + 1 < 2 ^ 31) (hu : v.reach (.index i) = some u)
      (hw : u.modifyChild (.index i) f = some w) : BuiltArray w
  | resize {v w : Value R} {n : ℕ} (h : BuiltArray v) (hn : n < 2 ^ 31)
      (hw : v.resize n = some w) : BuiltArray w

theorem BuiltArray.indexed (h : BuiltArray v) :
    ∃ c m, v.asMap .array = some (c, m) ∧ Indexed m := by
  induction h with
  | null c => exact ⟨c, [], rfl, .nil⟩
  | empty c => exact ⟨c, [], rfl, .nil⟩
  | @assign v u w i f _ hi hu hw ih =>
    obtain ⟨c, m, hv, hm⟩ := ih
    have hmap : Value.mapTypeOf (.index i) = .array := rfl
    rw [Value.reach, hmap, hv] at hu
    obtain rfl := Option.some.inj hu
    obtain ⟨m', hmodify, rfl⟩ := Option.map_eq_some_iff.mp hw
    exact ⟨c, m', rfl, (hm.insert hi _).modify hmodify⟩
  | @resize v w n _ hn hw ih =>
    obtain ⟨c, m, hv, hm⟩ := ih
    have hresized := (resize_cases hv hm (by omega)).2 w hw
    rw [if_pos hn] at hresized
    obtain ⟨m', rfl, hindexed⟩ := hresized.indexed
    exact ⟨c, m', rfl, hindexed⟩

/-- `append` is the assignment to the element behind the last one. -/
theorem BuiltArray.append {value w : Value R} (h : BuiltArray v) (hsize : v.size + 1 < 2 ^ 31)
    (hw : Value.append value v = some w) : BuiltArray w := by
  rw [Value.append, ofIndex_eq_index (by omega)] at hw
  obtain ⟨u, hu, hassign⟩ := Option.bind_eq_some_iff.mp hw
  exact h.assign hsize hu hassign

theorem arraySize_eq_zero_iff (h : Indexed m) : Value.arraySize m = 0 ↔ m = [] := by
  rcases h.nil_or_last with rfl | ⟨l, v, k, rfl, hk, -⟩
  · exact ⟨fun _ => rfl, fun _ => rfl⟩
  · rw [arraySize_last hk]
    simp

/-- **What `resize` does to an array.**  It fails at its assertion only where elements are to be
taken away and the last one to stay is missing.  With a size in the range of an `int` the array has
that size, and the elements that fit; a larger one becomes a negative index, which lengthens no
array but the empty one. -/
theorem resize_spec (h : BuiltArray v) (hn : n < 2 ^ 32) :
    ((v.resize n).isSome ↔
      n = 0 ∨ v.size < n ∨ ∃ e, v.at? (.index (n - 1 : ℕ)) = some (some e)) ∧
    ∀ w, v.resize n = some w →
      if n < 2 ^ 31 then
        w.size = n ∧ ∀ i : ℕ, w.get (.index i) = if i < n then v.get (.index i) else some .null
      else (2 ^ 31 < n → w.size = if v.size = 0 then n else v.size) ∧
        ∀ i : ℕ, w.get (.index i) = v.get (.index i) := by
  obtain ⟨c, m, hv, hm⟩ := h.indexed
  obtain ⟨hsome, hresized⟩ := resize_cases hv hm hn
  have hat : (∃ e, v.at? (.index (n - 1 : ℕ)) = some (some e)) ↔
      (Assoc.find (.index (n - 1 : ℕ)) m).isSome := by
    have hmap : Value.mapTypeOf (.index (n - 1 : ℕ)) = .array := rfl
    rw [Value.at?, hmap, hv, Option.isSome_iff_exists]
    simp
  rw [size_eq_arraySize hv, hat]
  refine ⟨hsome, fun w hw => ?_⟩
  have hcases := hresized w hw
  by_cases hint : n < 2 ^ 31
  · rw [if_pos hint] at hcases ⊢
    exact ⟨hcases.size, hcases.get⟩
  · rw [if_neg hint] at hcases ⊢
    simpa only [arraySize_eq_zero_iff hm] using hcases

/-- Two elements with a gap between them. -/
def gap : Value ℕ :=
  .map {} .array (Assoc.insert (.index 3) .null (Assoc.insert (.index 0) .null []))

theorem builtArray_gap : BuiltArray gap :=
  BuiltArray.assign (i := 3) (f := some)
    (BuiltArray.assign (v := .null) (i := 0) (f := some) (.null {}) (by decide) rfl rfl)
    (by decide) rfl rfl

theorem resize_gap : (gap.resize 3).isSome = false ∧ (gap.resize 1).isSome = true := by
  refine ⟨?_, (resize_spec builtArray_gap (by decide)).1.mpr (.inr (.inr ⟨.null, rfl⟩))⟩
  rw [← Bool.not_eq_true, (resize_spec builtArray_gap (by decide)).1]
  rintro (hzero | hgrow | ⟨e, he⟩)
  · exact absurd hzero (by decide)
  · exact absurd hgrow (by decide)
  · have hnone : gap.at? (.index (3 - 1 : ℕ)) = some none := rfl
    exact absurd (hnone.symm.trans he) (by simp)

end Json
end CModel
