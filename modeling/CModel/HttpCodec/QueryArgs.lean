import CModel.HttpCodec.RequestLine

/-!
# The loop over the arguments

`CHttpRequestLine::infuse` takes the argument string apart at `&` and `=`.  A name starts at the
front and behind each `&`, and goes on up to the next `=`, also over further `&`; the first value of
a name stays.

* `Reads`: what a name reads in an argument string, said without the loop.
* `reads_behind`: behind the first `&` the string starts anew.
* `splitArgs_cases`: the induction along the loop.
* `getElem?_splitArgs`: **the map after the loop** sends a name to what it reads.
-/

namespace CModel
namespace HttpCodec

/-! ## What a name reads -/

section Reads

variable {n v w s T : Bytes}

/-- At position `i` of the text `T`, in front or behind a `&`, the name `n` stands with a `=`. -/
def StartsAt (n T : Bytes) (i : ℕ) : Prop :=
  (i = 0 ∨ T[i - 1]? = some 38) ∧ n ++ [61] <+: T.drop i

/-- The text behind the `=` of the name `n` at position `i`: up to the next `&`, or all of it where
the name has a `&` itself. -/
def valueAt (n T : Bytes) (i : ℕ) : Bytes :=
  let r := T.drop (i + n.length + 1)
  if 38 ∈ n then r else r.takeWhile (· != 38)

/-- In the text `T` the name `n` reads `v`, where it stands first. -/
def Reads (T n v : Bytes) : Prop :=
  ∃ i, StartsAt n T i ∧ (∀ j < i, ¬ StartsAt n T j) ∧ v = valueAt n T i

/-- A name reads one value. -/
theorem Reads.unique (hv : Reads T n v) (hw : Reads T n w) : v = w := by
  obtain ⟨i, hi, hmin, rfl⟩ := hv
  obtain ⟨j, hj, hmin', rfl⟩ := hw
  rcases lt_trichotomy i j with h | rfl | h
  · exact absurd hi (hmin' i h)
  · rfl
  · exact absurd hj (hmin j h)

/-- A name that stands somewhere reads a value. -/
theorem exists_reads (h : ∃ i, StartsAt n T i) : ∃ v, Reads T n v := by
  classical
  exact ⟨_, Nat.find h, Nat.find_spec h, fun j hj => Nat.find_min h hj, rfl⟩

theorem drop_behind (s T : Bytes) (i : ℕ) : (s ++ 38 :: T).drop (s.length + 1 + i) = T.drop i := by
  rw [← List.drop_drop, ← List.drop_drop, List.drop_left]
  rfl

/-- Behind a `&` the text starts anew. -/
theorem startsAt_behind (n s T : Bytes) (i : ℕ) :
    StartsAt n (s ++ 38 :: T) (s.length + 1 + i) ↔ StartsAt n T i := by
  rw [StartsAt, StartsAt, drop_behind]
  cases i with
  | zero => simp
  | succ i =>
    have hget : (s ++ 38 :: T)[s.length + 1 + (i + 1) - 1]? = T[i + 1 - 1]? := by
      rw [List.getElem?_append_right (by omega),
        show s.length + 1 + (i + 1) - 1 - s.length = i + 1 by omega, List.getElem?_cons_succ]
      rfl
    rw [hget]
    simp

/-- In front of the first `&` a name stands at the start only. -/
theorem not_startsAt_inside (hs : (38 : Byte) ∉ s) {j : ℕ} (hpos : 0 < j) (hj : j ≤ s.length) :
    ¬ StartsAt n (s ++ T) j := by
  rintro ⟨h0 | hamp, -⟩
  · omega
  · rw [List.getElem?_append_left (by omega)] at hamp
    exact hs (List.mem_of_getElem? hamp)

/-- **A name that does not stand at the start** reads what it reads behind the first `&`. -/
theorem reads_behind (hs : (38 : Byte) ∉ s) (h0 : ¬ StartsAt n (s ++ 38 :: T) 0) :
    Reads (s ++ 38 :: T) n v ↔ Reads T n v := by
  have hvalue : ∀ i, valueAt n (s ++ 38 :: T) (s.length + 1 + i) = valueAt n T i := by
    intro i
    rw [valueAt, valueAt,
      show s.length + 1 + i + n.length + 1 = s.length + 1 + (i + n.length + 1) by omega,
      drop_behind]
  constructor
  · rintro ⟨i, hi, hmin, rfl⟩
    have hlt : s.length < i := by
      by_contra hle
      rcases Nat.eq_zero_or_pos i with rfl | hpos
      · exact h0 hi
      · exact not_startsAt_inside hs hpos (by omega) hi
    obtain ⟨i, rfl⟩ : ∃ k, i = s.length + 1 + k := ⟨i - (s.length + 1), by omega⟩
    refine ⟨i, (startsAt_behind n s T i).mp hi, ?_, hvalue i⟩
    intro j hj hstart
    exact hmin (s.length + 1 + j) (by omega) ((startsAt_behind n s T j).mpr hstart)
  · rintro ⟨i, hi, hmin, rfl⟩
    refine ⟨s.length + 1 + i, (startsAt_behind n s T i).mpr hi, ?_, (hvalue i).symm⟩
    intro j hj hstart
    by_cases hle : j ≤ s.length
    · rcases Nat.eq_zero_or_pos j with rfl | hpos
      · exact h0 hstart
      · exact not_startsAt_inside hs hpos hle hstart
    · obtain ⟨j, rfl⟩ : ∃ k, j = s.length + 1 + k := ⟨j - (s.length + 1), by omega⟩
      exact hmin j (by omega) ((startsAt_behind n s T j).mp hstart)

theorem startsAt_zero (n r : Bytes) : StartsAt n (n ++ 61 :: r) 0 :=
  ⟨Or.inl rfl, r, by rw [List.drop_zero, List.append_assoc]; rfl⟩

/-- A name in front reads what follows its `=`. -/
theorem reads_front (n r : Bytes) :
    Reads (n ++ 61 :: r) n (if 38 ∈ n then r else r.takeWhile (· != 38)) := by
  refine ⟨0, startsAt_zero n r, fun j hj => absurd hj (Nat.not_lt_zero j), ?_⟩
  rw [valueAt, Nat.zero_add, ← List.drop_drop, List.drop_left]
  rfl

/-- Only the name in front of the first `=` stands at the start. -/
theorem eq_of_startsAt_zero {m r : Bytes} (hm : (61 : Byte) ∉ m) (hn : (61 : Byte) ∉ n)
    (h : StartsAt n (m ++ 61 :: r) 0) : m = n := by
  obtain ⟨-, t, ht⟩ := h
  rw [List.drop_zero, List.append_assoc] at ht
  have hcut := congrArg (List.takeWhile (· != 61)) ht
  rw [List.singleton_append, takeWhile_bne hn, takeWhile_bne hm] at hcut
  exact hcut.symm

theorem mem_of_startsAt {i : ℕ} (h : StartsAt n T i) : (61 : Byte) ∈ T :=
  List.mem_of_mem_drop (h.2.subset (by simp))

end Reads

/-! ## The map after the split -/

/-- The loop takes the text apart like this: nothing where it has no `=`, and else the first name
with its value, and then what follows the first `&`. -/
theorem splitArgs_name {m r : Bytes} (hm : (61 : Byte) ∉ m) (args : StdMap) :
    splitArgs (m ++ 61 :: r) args =
      let args' := args.insertIfNew m (if 38 ∈ m then r else r.takeWhile (· != 38))
      let c := (findChar 38 (m ++ 61 :: r)).getD (m ++ 61 :: r).length
      if c + 1 < (m ++ 61 :: r).length then splitArgs ((m ++ 61 :: r).drop (c + 1)) args'
      else args' := by
  have htake : (m ++ 61 :: r).take m.length = m := List.take_left
  have hdrop : (m ++ 61 :: r).drop (m.length + 1) = r := by
    rw [← List.drop_drop, List.drop_left]
    rfl
  have hvalue : (if m.length < (findChar 38 (m ++ 61 :: r)).getD (m ++ 61 :: r).length then
        r.take ((findChar 38 (m ++ 61 :: r)).getD (m ++ 61 :: r).length - (m.length + 1))
      else r) = if 38 ∈ m then r else r.takeWhile (· != 38) := by
    by_cases hamp : (38 : Byte) ∈ m
    · obtain ⟨a, b, rfl, ha⟩ := List.eq_append_cons_of_mem hamp
      rw [if_pos hamp, List.append_assoc, List.cons_append, findChar_append ha, Option.getD_some,
        List.length_append, if_neg (by omega)]
    · have hfind : (findChar 38 (m ++ 61 :: r)).getD (m ++ 61 :: r).length =
          m.length + 1 + (findChar 38 r).getD r.length := by
        by_cases hr : (38 : Byte) ∈ r
        · obtain ⟨a, b, rfl, ha⟩ := List.eq_append_cons_of_mem hr
          have hma : (38 : Byte) ∉ m ++ 61 :: a := by
            rw [List.mem_append, List.mem_cons, not_or, not_or]
            exact ⟨hamp, by decide, ha⟩
          have hfind := findChar_append hma b
          rw [List.append_assoc, List.cons_append] at hfind
          rw [hfind, findChar_append ha, Option.getD_some, Option.getD_some, List.length_append,
            List.length_cons]
          omega
        · have hmr : (38 : Byte) ∉ m ++ 61 :: r := by
            rw [List.mem_append, List.mem_cons, not_or, not_or]
            exact ⟨hamp, by decide, hr⟩
          rw [findChar_eq_none_iff.mpr hmr, findChar_eq_none_iff.mpr hr, Option.getD_none,
            Option.getD_none, List.length_append, List.length_cons]
          omega
      rw [if_neg hamp, hfind, if_pos (by omega), Nat.add_sub_cancel_left, take_findChar]
  rw [splitArgs, findChar_append hm]
  simp only [htake, hdrop, hvalue]

theorem splitArgs_of_notMem {T : Bytes} (h : (61 : Byte) ∉ T) (args : StdMap) :
    splitArgs T args = args := by
  rw [splitArgs, findChar_eq_none_iff.mpr h]

/-- Without a `&` the text holds one name. -/
theorem splitArgs_last {m r : Bytes} (hm : (61 : Byte) ∉ m) (hamp : (38 : Byte) ∉ m ++ 61 :: r)
    (args : StdMap) : splitArgs (m ++ 61 :: r) args =
      args.insertIfNew m (if 38 ∈ m then r else r.takeWhile (· != 38)) := by
  rw [splitArgs_name hm, findChar_eq_none_iff.mpr hamp, Option.getD_none]
  exact if_neg (by omega)

/-- Otherwise the loop goes on behind the first `&`. -/
theorem splitArgs_behind {m r s T : Bytes} (hm : (61 : Byte) ∉ m) (hs : (38 : Byte) ∉ s)
    (hT : m ++ 61 :: r = s ++ 38 :: T) (args : StdMap) : splitArgs (m ++ 61 :: r) args =
      splitArgs T (args.insertIfNew m (if 38 ∈ m then r else r.takeWhile (· != 38))) := by
  have hdrop : (s ++ 38 :: T).drop (s.length + 1) = T := drop_behind s T 0
  rw [splitArgs_name hm, hT, findChar_append hs, Option.getD_some]
  simp only [hdrop, List.length_append, List.length_cons]
  cases T with
  | nil => rw [if_neg (by simp), splitArgs_of_notMem List.not_mem_nil]
  | cons c T => exact if_pos (by rw [List.length_cons]; omega)

/-- Every text is empty of `=`, or a name and no `&`, or a name and more behind the first `&`. -/
theorem splitArgs_cases {motive : Bytes → Prop} (T : Bytes)
    (none : ∀ T, (61 : Byte) ∉ T → motive T)
    (last : ∀ m r, (61 : Byte) ∉ m → (38 : Byte) ∉ m ++ 61 :: r → motive (m ++ 61 :: r))
    (behind : ∀ m r s T, (61 : Byte) ∉ m → (38 : Byte) ∉ s → m ++ 61 :: r = s ++ 38 :: T →
      motive T → motive (m ++ 61 :: r)) : motive T := by
  induction hlen : T.length using Nat.strong_induction_on generalizing T with
  | _ len ih =>
    by_cases heq : (61 : Byte) ∈ T
    · obtain ⟨m, r, rfl, hm⟩ := List.eq_append_cons_of_mem heq
      by_cases hamp : (38 : Byte) ∈ m ++ 61 :: r
      · obtain ⟨s, T, hT, hs⟩ := List.eq_append_cons_of_mem hamp
        refine behind m r s T hm hs hT (ih T.length ?_ T rfl)
        rw [← hlen, hT, List.length_append, List.length_cons]
        omega
      · exact last m r hm hamp
    · exact none T heq

/-- A name with a `=` is never put into the map. -/
theorem getElem?_splitArgs_of_mem {n : Bytes} (hn : (61 : Byte) ∈ n) (T : Bytes) (args : StdMap) :
    (splitArgs T args)[n]? = args[n]? := by
  have hinsert : ∀ {m : Bytes} (w : Bytes) (args : StdMap), (61 : Byte) ∉ m →
      (args.insertIfNew m w)[n]? = args[n]? := by
    intro m w args hm
    have hne : m ≠ n := fun h => hm (h ▸ hn)
    rw [StdMap.getElem?_insertIfNew, if_neg hne, Option.or_none]
  induction T using splitArgs_cases generalizing args with
  | none T h => rw [splitArgs_of_notMem h]
  | last m r hm hamp => rw [splitArgs_last hm hamp, hinsert _ _ hm]
  | behind m r s T hm hs hT ih => rw [splitArgs_behind hm hs hT, ih, hinsert _ _ hm]

/-- A name that is in the map keeps its value. -/
theorem getElem?_splitArgs_of_some {n v : Bytes} (T : Bytes) {args : StdMap}
    (h : args[n]? = some v) : (splitArgs T args)[n]? = some v := by
  have hinsert : ∀ (m w : Bytes) (args : StdMap), args[n]? = some v →
      (args.insertIfNew m w)[n]? = some v := by
    intro m w args h
    rw [StdMap.getElem?_insertIfNew, h, Option.some_or]
  induction T using splitArgs_cases generalizing args with
  | none T hT => rw [splitArgs_of_notMem hT, h]
  | last m r hm hamp => rw [splitArgs_last hm hamp, hinsert _ _ _ h]
  | behind m r s T hm hs hT ih => rw [splitArgs_behind hm hs hT, ih (hinsert _ _ _ h)]

/-- **The map after the split sends a name to what it reads.** -/
theorem getElem?_splitArgs {n T v : Bytes} (hn : (61 : Byte) ∉ n) (h : Reads T n v)
    {args : StdMap} (hargs : args[n]? = none) : (splitArgs T args)[n]? = some v := by
  have hsame : ∀ (w : Bytes) (args : StdMap), args[n]? = none →
      (args.insertIfNew n w)[n]? = some w := by
    intro w args h
    rw [StdMap.getElem?_insertIfNew, h, if_pos rfl, Option.none_or]
  have hother : ∀ (m w : Bytes) (args : StdMap), m ≠ n → args[n]? = none →
      (args.insertIfNew m w)[n]? = none := by
    intro m w args hne h
    rw [StdMap.getElem?_insertIfNew, h, if_neg hne, Option.none_or]
  induction T using splitArgs_cases generalizing args with
  | none T hT =>
    obtain ⟨i, hi, -⟩ := h
    exact absurd (mem_of_startsAt hi) hT
  | last m r hm hamp =>
    rw [splitArgs_last hm hamp]
    by_cases hmn : m = n
    · subst hmn
      rw [h.unique (reads_front m r), hsame _ _ hargs]
    · obtain ⟨i, hi, -⟩ := h
      rcases Nat.eq_zero_or_pos i with rfl | hpos
      · exact absurd (eq_of_startsAt_zero hm hn hi) hmn
      · rcases hi.1 with h0 | hget
        · omega
        · exact absurd (List.mem_of_getElem? hget) hamp
  | behind m r s T hm hs hT ih =>
    rw [splitArgs_behind hm hs hT]
    by_cases hmn : m = n
    · subst hmn
      rw [h.unique (reads_front m r)]
      exact getElem?_splitArgs_of_some T (hsame _ _ hargs)
    · have h0 : ¬ StartsAt n (s ++ 38 :: T) 0 := by
        rw [← hT]
        exact fun h0 => hmn (eq_of_startsAt_zero hm hn h0)
      rw [hT] at h
      exact ih ((reads_behind hs h0).mp h) (hother _ _ _ hmn hargs)

end HttpCodec
end CModel
