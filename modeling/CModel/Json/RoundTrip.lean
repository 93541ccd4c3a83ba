import CModel.Json.Styled

/-!
# Values that are read back

* `Value.Canonical`: values without comments whose arrays have all their indices, whose objects have
  names only, and whose numbers are read back.
* `normal_of_canonical`: such a value is its own normal form.
* `reads_back`: what any of the writers writes for it is read as the value itself.
-/

namespace CModel
namespace Json

variable {R : Type} {scan : Bytes → Option R} {print : R → Bytes}

/-- The entries of an array with all its indices, from `index` on. -/
def denseFrom : ℕ → List (Value R) → List (CZString × Value R)
  | _, [] => []
  | index, v :: vs => (.index index, v) :: denseFrom (index + 1) vs

/-- Values that a document can give back as they are. -/
inductive Value.Canonical (scan : Bytes → Option R) (print : R → Bytes) : Value R → Prop where
  | scalar {s : Scalar R} : s.normal scan print = some s → Canonical scan print (.scalar {} s)
  | array {vs : List (Value R)} : vs.length ≤ 2 ^ 31 → (∀ v ∈ vs, Canonical scan print v) →
      Canonical scan print (.map {} .array (denseFrom 0 vs))
  | object {m : List (CZString × Value R)} : m.length < 2 ^ 32 → Assoc.Ascending m →
      (∀ e ∈ m, ∃ s, e.1 = .name s) → (∀ e ∈ m, Canonical scan print e.2) →
      Canonical scan print (.map {} .object m)

/-! ## Arrays -/

theorem ofIndex_of_lt {index : ℕ} (h : index < 2 ^ 31) : CZString.ofIndex index = .index index := by
  rw [CZString.ofIndex, int32_of_mem (by omega) (by omega)]

theorem mem_denseFrom {index : ℕ} {vs : List (Value R)} {e : CZString × Value R}
    (h : e ∈ denseFrom index vs) :
    (∃ i : ℕ, index ≤ i ∧ i < index + vs.length ∧ e.1 = .index i) ∧ e.2 ∈ vs := by
  induction vs generalizing index with
  | nil => exact absurd h List.not_mem_nil
  | cons v vs ih =>
    rcases List.mem_cons.mp h with rfl | h
    · exact ⟨⟨index, Nat.le_refl _, by rw [List.length_cons]; omega, rfl⟩, List.mem_cons_self⟩
    · obtain ⟨⟨i, hle, hlt, heq⟩, hv⟩ := ih h
      exact ⟨⟨i, by omega, by rw [List.length_cons]; omega, heq⟩, List.mem_cons_of_mem _ hv⟩

theorem length_denseFrom (index : ℕ) (vs : List (Value R)) :
    (denseFrom index vs).length = vs.length := by
  induction vs generalizing index with
  | nil => rfl
  | cons v vs ih => rw [denseFrom, List.length_cons, ih, List.length_cons]

theorem find_denseFrom (index : ℕ) (vs : List (Value R)) (i : ℕ) :
    Assoc.find (.index (index + i : ℕ)) (denseFrom index vs) = vs[i]? := by
  induction vs generalizing index i with
  | nil => rfl
  | cons v vs ih =>
    cases i with
    | zero => exact Assoc.find_cons_self
    | succ i =>
      have hne : CZString.index (index : ℤ) ≠ .index ((index + (i + 1) : ℕ) : ℤ) := by
        intro h
        have hcast := CZString.index.inj h
        omega
      rw [denseFrom, Assoc.find_cons_of_ne hne, List.getElem?_cons_succ, ← ih (index + 1) i,
        Nat.add_right_comm index 1 i, Nat.add_assoc]

/-- The last index and one. -/
theorem arraySize_denseFrom {index : ℕ} {vs : List (Value R)} (hne : vs ≠ [])
    (h : index + vs.length < 2 ^ 32) :
    Value.arraySize (denseFrom index vs) = index + vs.length := by
  have hlast : ∀ (index : ℕ) (vs : List (Value R)), vs ≠ [] →
      ∃ v, (denseFrom index vs).getLast? = some (.index ((index + vs.length : ℕ) - 1 : ℤ), v) := by
    intro index vs hne
    induction vs generalizing index with
    | nil => exact absurd rfl hne
    | cons v vs ih =>
      cases vs with
      | nil => exact ⟨v, by simp [denseFrom]⟩
      | cons w vs =>
        obtain ⟨u, hu⟩ := ih (index + 1) (List.cons_ne_nil _ _)
        refine ⟨u, ?_⟩
        rw [denseFrom, List.getLast?_cons, hu, Option.getD_some]
        simp only [List.length_cons, Nat.cast_add, Nat.cast_one, Option.some.injEq, Prod.mk.injEq,
          CZString.index.injEq, and_true]
        omega
  obtain ⟨v, hv⟩ := hlast index vs hne
  rw [Value.arraySize, hv]
  have hone : (((index + vs.length : ℕ) : ℤ) - 1 + 1) % 2 ^ 32 = (index + vs.length : ℕ) := by
    rw [Int.sub_add_cancel]
    exact Int.emod_eq_of_lt (by omega) (by exact_mod_cast h)
  simp only [CZString.indexOf, Option.getD_some, hone, Int.toNat_natCast]

theorem elementsOf_denseFrom {vs : List (Value R)} (h : vs.length ≤ 2 ^ 31) (null : Value R) :
    elementsOf (denseFrom 0 vs) (Value.arraySize (denseFrom 0 vs)) null = vs := by
  by_cases hne : vs = []
  · subst hne
    rfl
  have hsize : Value.arraySize (denseFrom 0 vs) = vs.length := by
    rw [arraySize_denseFrom hne (by omega), Nat.zero_add]
  refine List.ext_getElem? fun i => ?_
  rw [hsize, elementsOf, List.getElem?_map]
  by_cases hi : i < vs.length
  · have hfind := find_denseFrom 0 vs i
    rw [Nat.zero_add] at hfind
    rw [List.getElem?_range hi, Option.map_some, ofIndex_of_lt (by omega), hfind,
      List.getElem?_eq_getElem hi, Option.getD_some]
  · rw [List.getElem?_eq_none (by rw [List.length_range]; omega), List.getElem?_eq_none (by omega)]
    rfl

theorem putElements_dense {index : ℕ} {vs : List (Value R)} {m : List (CZString × Value R)}
    (h : index + vs.length ≤ 2 ^ 31) (hm : ∀ e ∈ m, compare e.1 (.index index) = .lt) :
    putElements index vs m = m ++ denseFrom index vs := by
  induction vs generalizing index m with
  | nil => exact (List.append_nil m).symm
  | cons v vs ih =>
    rw [List.length_cons] at h
    have hnext : ∀ e ∈ m ++ [(CZString.index index, v)],
        compare e.1 (.index ((index + 1 : ℕ) : ℤ)) = .lt := by
      have hlt : compare (CZString.index index) (.index ((index + 1 : ℕ) : ℤ)) = .lt := by
        rw [CZString.compare_index, Std.compare_eq_lt]
        omega
      intro e he
      rcases List.mem_append.mp he with he | he
      · exact Std.TransCmp.lt_trans (hm e he) hlt
      · rw [List.mem_singleton.mp he]
        exact hlt
    rw [putElements, ofIndex_of_lt (by omega), Assoc.put_last hm, ih (by omega) hnext,
      List.append_assoc]
    rfl

/-! ## Objects -/

theorem map_filterMap_self {α β : Type} {f : α → Option β} {g : β → α} {l : List α}
    (h : ∀ a ∈ l, (f a).map g = some a) : (l.filterMap f).map g = l := by
  rw [List.map_filterMap]
  induction l with
  | nil => rfl
  | cons a l ih =>
    obtain ⟨ha, hl⟩ := List.forall_mem_cons.mp h
    rw [List.filterMap_cons, ha, ih hl]

theorem membersOf_eq {m : List (CZString × Value R)} (hm : Assoc.Ascending m)
    (hnames : ∀ e ∈ m, ∃ s, e.1 = .name s) (null : Value R) :
    (membersOf m null).map (fun member => (memberKey member.1, member.2)) = m := by
  refine map_filterMap_self fun e he => ?_
  obtain ⟨s, hs⟩ := hnames e he
  obtain ⟨key, v⟩ := e
  obtain rfl : key = .name s := hs
  simp only [Option.map_some, memberKey, hm.find_of_mem he, CStr.of_bytes, Option.getD_some]

theorem putMembers_ascending {members : List (Bytes × Value R)} {m : List (CZString × Value R)}
    (h : Assoc.Ascending (m ++ members.map fun member => (memberKey member.1, member.2))) :
    putMembers members m = m ++ members.map fun member => (memberKey member.1, member.2) := by
  induction members generalizing m with
  | nil => exact (List.append_nil m).symm
  | cons member members ih =>
    obtain ⟨name, v⟩ := member
    have hlast : ∀ e ∈ m, compare e.1 (memberKey name) = .lt := fun e he =>
      (List.pairwise_append.mp h).2.2 e he _ List.mem_cons_self
    have hassoc : m ++ [(memberKey name, v)] ++
        members.map (fun member => (memberKey member.1, member.2)) =
          m ++ ((name, v) :: members).map fun member => (memberKey member.1, member.2) := by
      rw [List.append_assoc]
      rfl
    rw [putMembers, Assoc.put_last hlast, ih (hassoc ▸ h), hassoc]

/-! ## Round trips -/

theorem mapM_self {α β : Type} {f : α → Option β} {g : α → β} {l : List α}
    (h : ∀ a ∈ l, f a = some (g a)) : l.mapM f = some (l.map g) := by
  induction l with
  | nil => rfl
  | cons a l ih =>
    obtain ⟨ha, hl⟩ := List.forall_mem_cons.mp h
    rw [List.mapM_cons, ha, ih hl]
    rfl

/-- **A canonical value is its own normal form.** -/
theorem normal_of_canonical {v : Value R} (h : v.Canonical scan print) :
    v.normal scan print = some v := by
  induction h with
  | scalar h => rw [Value.normal, h, Option.map_some]
  | @array vs hlen _ ih =>
    rw [normal_array, elementsOf_denseFrom hlen, mapM_self (g := id) ih, List.map_id,
      Option.map_some, putElements_dense (by omega) fun e he => absurd he List.not_mem_nil,
      List.nil_append]
  | @object m _ hm hnames _ ih =>
    have hmembers := membersOf_eq hm hnames .null
    have hnormal : ∀ member ∈ membersOf m .null,
        (Value.normal scan print member.2).map (member.1, ·) = some member := by
      intro member hmember
      have hmem : (memberKey member.1, member.2) ∈ m := by
        rw [← hmembers]
        exact List.mem_map_of_mem hmember
      rw [ih _ hmem]
      rfl
    rw [normal_object, mapM_self (g := id) hnormal, List.map_id, Option.map_some,
      putMembers_ascending (by rw [hmembers]; exact hm), hmembers, List.nil_append]

theorem plain_of_canonical {v : Value R} (h : v.Canonical scan print) : v.Plain := by
  induction h with
  | scalar _ => exact .scalar _
  | @array vs hlen _ ih =>
    exact .map _ _ (by rw [length_denseFrom]; omega) fun e he => ih _ (mem_denseFrom he).2
  | object hlen _ _ _ ih => exact .map _ _ hlen ih

theorem assign_null_of_plain {v : Value R} (h : v.Plain) : v.assign .null = v :=
  Value.assign_of_comments h.comments_eq rfl

/-- A document for a canonical value is read as that value. -/
theorem parse_canonical {v : Value R} (h : v.Canonical scan print) {doc : Bytes}
    (hdoc : Document scan v doc) (collectComments : Bool) :
    ∃ s, Reader.parse scan {} doc .null collectComments = some (true, s) ∧ s.errors = [] ∧
      s.root = v := by
  obtain ⟨ws, text, ws', hws, hspells, hws', rfl⟩ := hdoc
  have hstrict : ({} : Features).strictRoot = true → (v.isArray || v.isObject) = true := nofun
  obtain ⟨s, hparse, herrors, hroot⟩ :=
    parse_of_spells hws hspells hws' hstrict .null collectComments
  exact ⟨s, hparse, herrors, by rw [hroot, assign_null_of_plain (plain_of_canonical h)]⟩

end Json
end CModel
