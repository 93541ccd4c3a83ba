import CModel.Foundation.Segments
import CModel.HttpCodec.QueryArgs

/-!
# The pairs of an argument string

The loop over the arguments looks for the next `=` and the next `&` from the same position, so a
segment without a `=` takes in what follows it up to the next `=`.

* `argPairs`: the pairs of the segments that have a `=`.
* `getElem?_splitArgs_pairs`: **the loop finds the pairs** where no segment without a `=` stands in
  front of one with it.
* `exists_key_splitArgs`: elsewhere it puts in a name with a `&`.
* `pairsFound_iff`: **the loop finds exactly the pairs** in the first case alone.
-/

namespace CModel
namespace HttpCodec

/-- The pairs of the segments that have a `=`: what is in front of the first one, and what is
behind it. -/
def argPairs (arg : Bytes) : List (Bytes × Bytes) := pairsOf 38 61 arg

/-- No segment without a `=` stands in front of one with a `=`. -/
def SignsFirst (arg : Bytes) : Prop :=
  (arg.splitOn 38).Pairwise fun s t => (61 : Byte) ∈ t → (61 : Byte) ∈ s

instance (arg : Bytes) : Decidable (SignsFirst arg) :=
  inferInstanceAs (Decidable (List.Pairwise _ _))

/-! ## One segment and the others -/

section Segment

variable {a b : Bytes}

theorem argPairs_last {s : Bytes} (h : (38 : Byte) ∉ s) :
    argPairs s = (cutAt 61 s).toList := by
  rw [argPairs, pairsOf, List.splitOn_eq_singleton h]
  cases hs : cutAt 61 s <;> simp [hs]

theorem argPairs_append (h : (38 : Byte) ∉ a) (b : Bytes) :
    argPairs (a ++ 38 :: b) = (cutAt 61 a).toList ++ argPairs b :=
  filterMap_splitOn_append (cutAt 61) h b

theorem signsFirst_last {s : Bytes} (h : (38 : Byte) ∉ s) : SignsFirst s := by
  rw [SignsFirst, List.splitOn_eq_singleton h]
  exact List.pairwise_singleton _ _

/-- **The first segment has a `=`**, or there is none at all. -/
theorem signsFirst_append (h : (38 : Byte) ∉ a) (b : Bytes) :
    SignsFirst (a ++ 38 :: b) ↔ ((61 : Byte) ∈ b → (61 : Byte) ∈ a) ∧ SignsFirst b :=
  pairwise_splitOn_append (by decide) (fun s => (61 : Byte) ∈ s) h b

/-- Without a `=` there are no pairs. -/
theorem argPairs_of_notMem {s : Bytes} (h : (61 : Byte) ∉ s) : argPairs s = [] := by
  rw [argPairs, pairsOf, List.filterMap_eq_nil_iff]
  exact fun t ht => cutAt_of_notMem fun hmem => h (mem_of_mem_splitOn ht hmem)

theorem signsFirst_of_notMem {s : Bytes} (h : (61 : Byte) ∉ s) : SignsFirst s :=
  List.pairwise_of_forall_mem_list fun _ _ _ ht hmem => absurd (mem_of_mem_splitOn ht hmem) h

end Segment

/-- Two ways to cut a text, at its first `=` and at its first `&`. -/
theorem cut_cases {m r s T : Bytes} (hm : (61 : Byte) ∉ m) (hs : (38 : Byte) ∉ s)
    (hT : m ++ 61 :: r = s ++ 38 :: T) :
    (∃ v, (38 : Byte) ∉ m ∧ s = m ++ 61 :: v ∧ r = v ++ 38 :: T) ∨
      ((38 : Byte) ∈ m ∧ (61 : Byte) ∉ s ∧ (61 : Byte) ∈ T) := by
  rcases List.append_eq_append_iff.mp hT with ⟨u, hu, hr⟩ | ⟨u, hu, hr⟩
  · cases u with
    | nil => exact absurd (List.cons.inj hr).1 (by decide)
    | cons c u =>
      obtain ⟨rfl, rfl⟩ := List.cons.inj hr
      refine Or.inl ⟨u, ?_, hu, rfl⟩
      intro h0
      rw [hu, List.mem_append, not_or] at hs
      exact hs.1 h0
  · cases u with
    | nil => exact absurd (List.cons.inj hr).1 (by decide)
    | cons c u =>
      obtain ⟨rfl, rfl⟩ := List.cons.inj hr
      refine Or.inr ⟨hu ▸ List.mem_append_right s List.mem_cons_self, ?_, by simp⟩
      intro h0
      rw [hu, List.mem_append, not_or] at hm
      exact hm.1 h0

/-! ## The loop -/

/-- **The loop finds the pairs**, the first of a name, where no segment without a `=` stands in
front of one with it. -/
theorem getElem?_splitArgs_pairs {arg : Bytes} (h : SignsFirst arg) (args : StdMap)
    (key : Bytes) : (splitArgs arg args)[key]? = args[key]?.or ((argPairs arg).lookup key) := by
  induction arg using splitArgs_cases generalizing args with
  | none T hT =>
    rw [splitArgs_of_notMem hT, argPairs_of_notMem hT, List.lookup_nil, Option.or_none]
  | last m r hm hamp =>
    have hamp' : (38 : Byte) ∉ m ∧ (38 : Byte) ∉ r := by
      rw [List.mem_append, List.mem_cons, not_or, not_or] at hamp
      exact ⟨hamp.1, hamp.2.2⟩
    have hlast := StdMap.getElem?_insertIfNew_or args m r [] key
    rw [List.lookup_nil, Option.or_none] at hlast
    rw [splitArgs_last hm hamp, if_neg hamp'.1, takeWhile_bne_of_notMem hamp'.2,
      argPairs_last hamp, cutAt_append hm]
    exact hlast
  | behind m r s T hm hs hT ih =>
    rw [splitArgs_behind hm hs hT]
    rw [hT] at h ⊢
    obtain ⟨hfirst, hrest⟩ := (signsFirst_append hs T).mp h
    rcases cut_cases hm hs hT with ⟨v, hamp, rfl, rfl⟩ | ⟨-, hnot, hmem⟩
    · have hv : (38 : Byte) ∉ v := fun h0 => hs (by simp [h0])
      rw [if_neg hamp, takeWhile_bne hv, ih hrest, StdMap.getElem?_insertIfNew_or,
        argPairs_append hs, cutAt_append hm]
      rfl
    · exact absurd (hfirst hmem) hnot

/-- **Elsewhere the loop puts in a name with a `&`.** -/
theorem exists_key_splitArgs {arg : Bytes} (h : ¬ SignsFirst arg) (args : StdMap) :
    ∃ key value : Bytes, (38 : Byte) ∈ key ∧ (splitArgs arg args)[key]? = some value := by
  induction arg using splitArgs_cases generalizing args with
  | none T hT => exact absurd (signsFirst_of_notMem hT) h
  | last m r hm hamp => exact absurd (signsFirst_last hamp) h
  | behind m r s T hm hs hT ih =>
    rw [splitArgs_behind hm hs hT]
    rw [hT, signsFirst_append hs] at h
    rcases cut_cases hm hs hT with ⟨v, -, rfl, -⟩ | ⟨hamp, -, -⟩
    · exact ih (fun hrest => h ⟨fun _ => by simp, hrest⟩) _
    · have hsome : ∃ w, (args.insertIfNew m (if 38 ∈ m then r else r.takeWhile (· != 38)))[m]? =
          some w := by
        rw [StdMap.getElem?_insertIfNew, if_pos rfl]
        cases args[m]? with
        | none => exact ⟨_, rfl⟩
        | some w => exact ⟨w, rfl⟩
      obtain ⟨w, hw⟩ := hsome
      exact ⟨m, w, hamp, getElem?_splitArgs_of_some T hw⟩

/-- The loop, which starts with an empty map, finds the pairs, the first of a name, and nothing
else. -/
def PairsFound (arg : Bytes) : Prop :=
  ∀ key, (splitArgs arg ∅)[key]? = (argPairs arg).lookup key

/-- **The loop finds exactly the pairs** if and only if no segment without a `=` stands in front of
one with a `=`. -/
theorem pairsFound_iff (arg : Bytes) : PairsFound arg ↔ SignsFirst arg := by
  constructor
  · intro hall
    by_contra hnot
    obtain ⟨key, value, hamp, hget⟩ := exists_key_splitArgs hnot ∅
    rw [hall key] at hget
    exact notMem_of_lookup_pairsOf hget hamp
  · intro h key
    rw [getElem?_splitArgs_pairs h, Std.ExtTreeMap.getElem?_empty, Option.none_or]

/-- **The text `a&b=c`** gives the name `a&b`. -/
theorem signLater_not_pairsFound : ¬ PairsFound (ascii "a&b=c") := by
  intro hall
  obtain ⟨key, value, hamp, hget⟩ :=
    exists_key_splitArgs (show ¬ SignsFirst (ascii "a&b=c") by decide) ∅
  rw [hall key] at hget
  exact notMem_of_lookup_pairsOf hget hamp

end HttpCodec
end CModel
