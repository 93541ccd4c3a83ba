import Mathlib.Data.List.Basic
import Mathlib.Data.List.Pairwise

/-!
# Maps as ascending lists

`std::map` as the list of its entries in the order of their keys.  A list can be part of an
inductive type whose values are in the map themselves, which a search tree cannot.

* `Assoc.find`, `Assoc.insert`, `Assoc.put`, `Assoc.modify`, `Assoc.erase`: `find`, `insert` at
  `lower_bound`, an assignment to an element, what is done through a reference, `erase`.
* `Assoc.Ascending`: the order that all of them keep.
* `Assoc.insert_last`, `Assoc.modify_last`: entries that come in order are appended.
* `Assoc.ext`: an ascending list is determined by what is found in it.
-/

namespace CModel
namespace Assoc

universe u v

variable {κ : Type u} {β : Type v}

/-- The keys are in ascending order. -/
def Ascending [Ord κ] (m : List (κ × β)) : Prop := m.Pairwise fun a b => compare a.1 b.1 = .lt

/-- The value of a key. -/
def find [DecidableEq κ] (k : κ) : List (κ × β) → Option β
  | [] => none
  | (k', b) :: m => if k' = k then some b else find k m

/-- A new entry at `lower_bound`; a key that is there keeps its value. -/
def insert [Ord κ] (k : κ) (b : β) : List (κ × β) → List (κ × β)
  | [] => [(k, b)]
  | (k', b') :: m =>
    match compare k' k with
    | .lt => (k', b') :: insert k b m
    | .eq => (k', b') :: m
    | .gt => (k, b) :: (k', b') :: m

/-- `m[k] = b`, which replaces what is there. -/
def put [Ord κ] (k : κ) (b : β) : List (κ × β) → List (κ × β)
  | [] => [(k, b)]
  | (k', b') :: m =>
    match compare k' k with
    | .lt => (k', b') :: put k b m
    | .eq => (k', b) :: m
    | .gt => (k, b) :: (k', b') :: m

/-- What is done to the value of a key; there has to be one. -/
def modify [DecidableEq κ] (k : κ) (f : β → Option β) : List (κ × β) → Option (List (κ × β))
  | [] => none
  | (k', b) :: m =>
    if k' = k then (f b).map fun b' => (k', b') :: m else (modify k f m).map ((k', b) :: ·)

/-- The entries other than the one of the key. -/
def erase [DecidableEq κ] (k : κ) (m : List (κ × β)) : List (κ × β) := m.filter fun e => e.1 ≠ k

/-! ## Finding -/

section Find

variable [DecidableEq κ] {m : List (κ × β)} {k k' : κ} {b : β} {f g : β → Option β}

@[simp] theorem find_nil : find k ([] : List (κ × β)) = none := rfl

theorem find_cons_self : find k ((k, b) :: m) = some b := if_pos rfl

theorem find_cons_of_ne (h : k' ≠ k) : find k ((k', b) :: m) = find k m := if_neg h

theorem mem_of_find (h : find k m = some b) : (k, b) ∈ m := by
  induction m with
  | nil => exact absurd h (by simp)
  | cons e m ih =>
    obtain ⟨k', b'⟩ := e
    by_cases hk : k' = k
    · subst hk
      rw [find_cons_self, Option.some.injEq] at h
      exact h ▸ List.mem_cons_self
    · rw [find_cons_of_ne hk] at h
      exact List.mem_cons_of_mem _ (ih h)

theorem find_eq_none_iff : find k m = none ↔ ∀ e ∈ m, e.1 ≠ k := by
  induction m with
  | nil => simp
  | cons e m ih =>
    obtain ⟨k', b'⟩ := e
    rw [List.forall_mem_cons]
    by_cases hk : k' = k
    · subst hk
      simp [find_cons_self]
    · rw [find_cons_of_ne hk, ih]
      exact (and_iff_right hk).symm

theorem find_append (l : List (κ × β)) : find k (m ++ l) = (find k m).or (find k l) := by
  induction m with
  | nil => rfl
  | cons e m ih =>
    obtain ⟨k', b'⟩ := e
    rw [List.cons_append]
    by_cases hk : k' = k
    · subst hk
      rw [find_cons_self, find_cons_self, Option.some_or]
    · rw [find_cons_of_ne hk, find_cons_of_ne hk, ih]

/-- The values under a map. -/
theorem find_map {γ : Type*} (h : κ → β → γ) :
    find k (m.map fun e => (e.1, h e.1 e.2)) = (find k m).map (h k) := by
  induction m with
  | nil => rfl
  | cons e m ih =>
    obtain ⟨k', b'⟩ := e
    rw [List.map_cons]
    by_cases hk : k' = k
    · subst hk
      rw [find_cons_self, find_cons_self, Option.map_some]
    · rw [find_cons_of_ne hk, find_cons_of_ne hk, ih]

/-! ## Assignments -/

theorem modify_cons_self : modify k f ((k, b) :: m) = (f b).map fun b' => (k, b') :: m := if_pos rfl

theorem modify_cons_of_ne (h : k' ≠ k) :
    modify k f ((k', b) :: m) = (modify k f m).map ((k', b) :: ·) :=
  if_neg h

/-- An assignment is to a key that is there. -/
theorem modify_eq_some {m' : List (κ × β)} (h : modify k f m = some m') :
    ∃ b b', find k m = some b ∧ f b = some b' ∧ find k m' = some b' := by
  induction m generalizing m' with
  | nil => exact absurd h (by simp [modify])
  | cons e m ih =>
    obtain ⟨k', b⟩ := e
    by_cases hk : k' = k
    · subst hk
      rw [modify_cons_self] at h
      obtain ⟨b', hb', rfl⟩ := Option.map_eq_some_iff.mp h
      exact ⟨b, b', find_cons_self, hb', find_cons_self⟩
    · rw [modify_cons_of_ne hk] at h
      obtain ⟨m₁, hm₁, rfl⟩ := Option.map_eq_some_iff.mp h
      obtain ⟨c, c', hfind, hf, hfind'⟩ := ih hm₁
      refine ⟨c, c', ?_, hf, ?_⟩
      · rw [find_cons_of_ne hk, hfind]
      · rw [find_cons_of_ne hk, hfind']

theorem isSome_modify_iff :
    (modify k f m).isSome ↔ ∃ b b', find k m = some b ∧ f b = some b' := by
  constructor
  · intro h
    obtain ⟨m', hm'⟩ := Option.isSome_iff_exists.mp h
    obtain ⟨b, b', hfind, hf, -⟩ := modify_eq_some hm'
    exact ⟨b, b', hfind, hf⟩
  · rintro ⟨b, b', hfind, hf⟩
    induction m with
    | nil => exact absurd hfind (by simp)
    | cons e m ih =>
      obtain ⟨k', c⟩ := e
      by_cases hk : k' = k
      · subst hk
        rw [find_cons_self, Option.some.injEq] at hfind
        rw [modify_cons_self, hfind, hf]
        rfl
      · rw [find_cons_of_ne hk] at hfind
        rw [modify_cons_of_ne hk, Option.isSome_map, ih hfind]

/-- The other keys keep their values. -/
theorem find_modify_of_ne {m' : List (κ × β)} (h : modify k f m = some m') (hk : k ≠ k') :
    find k' m' = find k' m := by
  induction m generalizing m' with
  | nil => exact absurd h (by simp [modify])
  | cons e m ih =>
    obtain ⟨j, b⟩ := e
    by_cases hj : j = k
    · subst hj
      rw [modify_cons_self] at h
      obtain ⟨b', -, rfl⟩ := Option.map_eq_some_iff.mp h
      rw [find_cons_of_ne hk, find_cons_of_ne hk]
    · rw [modify_cons_of_ne hj] at h
      obtain ⟨m₁, hm₁, rfl⟩ := Option.map_eq_some_iff.mp h
      by_cases hj' : j = k'
      · subst hj'
        rw [find_cons_self, find_cons_self]
      · rw [find_cons_of_ne hj', find_cons_of_ne hj', ih hm₁]

/-- An assignment keeps the keys. -/
theorem keys_modify {m' : List (κ × β)} (h : modify k f m = some m') :
    m'.map Prod.fst = m.map Prod.fst := by
  induction m generalizing m' with
  | nil => exact absurd h (by simp [modify])
  | cons e m ih =>
    obtain ⟨j, b⟩ := e
    by_cases hj : j = k
    · subst hj
      rw [modify_cons_self] at h
      obtain ⟨b', -, rfl⟩ := Option.map_eq_some_iff.mp h
      rfl
    · rw [modify_cons_of_ne hj] at h
      obtain ⟨m₁, hm₁, rfl⟩ := Option.map_eq_some_iff.mp h
      rw [List.map_cons, List.map_cons, ih hm₁]

/-- Two assignments to the same key. -/
theorem modify_modify : (modify k g m).bind (modify k f) = modify k (fun b => (g b).bind f) m := by
  induction m with
  | nil => rfl
  | cons e m ih =>
    obtain ⟨j, b⟩ := e
    by_cases hj : j = k
    · subst hj
      rw [modify_cons_self, modify_cons_self]
      cases g b with
      | none => rfl
      | some c => exact modify_cons_self
    · rw [modify_cons_of_ne hj, modify_cons_of_ne hj, ← ih]
      cases modify k g m with
      | none => rfl
      | some m₁ => exact modify_cons_of_ne hj

/-- An assignment to the last entry. -/
theorem modify_last (h : ∀ e ∈ m, e.1 ≠ k) :
    modify k f (m ++ [(k, b)]) = (f b).map fun b' => m ++ [(k, b')] := by
  induction m with
  | nil => exact modify_cons_self
  | cons e m ih =>
    obtain ⟨hne, hm⟩ := List.forall_mem_cons.mp h
    rw [List.cons_append, modify_cons_of_ne hne, ih hm, Option.map_map]
    rfl

/-- An assignment to a new entry, or to what is there, puts the value. -/
theorem modify_insert [Ord κ] [Std.TransOrd κ] [Std.LawfulEqOrd κ] {b₀ : β} (h₀ : f b₀ = some b)
    (h : ∀ e ∈ m, f e.2 = some b) : modify k f (insert k b₀ m) = some (put k b m) := by
  induction m with
  | nil => rw [insert, modify_cons_self, h₀]; rfl
  | cons e m ih =>
    obtain ⟨k', b'⟩ := e
    obtain ⟨hb', hm⟩ := List.forall_mem_cons.mp h
    rw [insert, put]
    split
    · next hlt =>
      have hne : k' ≠ k := by
        rintro rfl
        have hself : compare k' k' = .eq := Std.ReflCmp.compare_self
        rw [hself] at hlt
        exact absurd hlt (by decide)
      rw [modify_cons_of_ne hne, ih hm]
      rfl
    · next heq =>
      obtain rfl := Std.LawfulEqOrd.eq_of_compare heq
      rw [modify_cons_self, hb']
      rfl
    · rw [modify_cons_self, h₀]
      rfl

/-! ## Deletions -/

theorem find_erase_self : find k (erase k m) = none :=
  find_eq_none_iff.mpr fun _ he => by simpa using List.of_mem_filter he

theorem find_erase_of_ne (h : k ≠ k') : find k' (erase k m) = find k' m := by
  induction m with
  | nil => rfl
  | cons e m ih =>
    obtain ⟨j, b⟩ := e
    by_cases hj : j = k
    · subst hj
      rw [erase, List.filter_cons_of_neg (by simp), find_cons_of_ne h]
      exact ih
    · rw [erase, List.filter_cons_of_pos (by simpa using hj)]
      by_cases hj' : j = k'
      · subst hj'
        rw [find_cons_self, find_cons_self]
      · rw [find_cons_of_ne hj', find_cons_of_ne hj']
        exact ih

end Find

/-! ## The order -/

section Order

variable [Ord κ] {m m' : List (κ × β)} {k : κ} {b : β}

theorem ascending_nil : Ascending ([] : List (κ × β)) := List.Pairwise.nil

theorem ascending_cons {e : κ × β} :
    Ascending (e :: m) ↔ (∀ e' ∈ m, compare e.1 e'.1 = .lt) ∧ Ascending m :=
  List.pairwise_cons

theorem Ascending.tail {e : κ × β} (h : Ascending (e :: m)) : Ascending m := h.of_cons

/-- The order is one of the keys. -/
theorem ascending_congr {γ : Type*} {m' : List (κ × γ)} (h : m'.map Prod.fst = m.map Prod.fst) :
    Ascending m' ↔ Ascending m := by
  rw [Ascending, Ascending, ← List.pairwise_map (R := fun a b => compare a b = .lt), h,
    List.pairwise_map]

theorem ascending_concat {l : List (κ × β)} {e : κ × β} (h : Ascending l)
    (hlt : ∀ e' ∈ l, compare e'.1 e.1 = .lt) : Ascending (l ++ [e]) := by
  refine List.pairwise_append.mpr ⟨h, List.pairwise_singleton _ _, ?_⟩
  intro e' he' a ha
  exact List.mem_singleton.mp ha ▸ hlt e' he'

/-- Only the new entry is new. -/
theorem mem_of_mem_insert {e : κ × β} (h : e ∈ insert k b m) : e = (k, b) ∨ e ∈ m := by
  induction m with
  | nil => exact Or.inl (List.mem_singleton.mp h)
  | cons e' m ih =>
    obtain ⟨k', b'⟩ := e'
    rw [insert] at h
    split at h
    · rcases List.mem_cons.mp h with h | h
      · exact Or.inr (h ▸ List.mem_cons_self)
      · exact (ih h).imp_right (List.mem_cons_of_mem _)
    · exact Or.inr h
    · exact List.mem_cons.mp h

theorem mem_of_mem_put {e : κ × β} (h : e ∈ put k b m) : e.2 = b ∨ e ∈ m := by
  induction m with
  | nil => exact Or.inl (List.mem_singleton.mp h ▸ rfl)
  | cons e' m ih =>
    obtain ⟨k', b'⟩ := e'
    rw [put] at h
    split at h
    · rcases List.mem_cons.mp h with h | h
      · exact Or.inr (h ▸ List.mem_cons_self)
      · exact (ih h).imp_right (List.mem_cons_of_mem _)
    · rcases List.mem_cons.mp h with h | h
      · exact Or.inl (h ▸ rfl)
      · exact Or.inr (List.mem_cons_of_mem _ h)
    · rcases List.mem_cons.mp h with h | h
      · exact Or.inl (h ▸ rfl)
      · exact Or.inr h

/-- A key behind all others is put last. -/
theorem put_last (h : ∀ e ∈ m, compare e.1 k = .lt) : put k b m = m ++ [(k, b)] := by
  induction m with
  | nil => rfl
  | cons e m ih =>
    obtain ⟨k', b'⟩ := e
    obtain ⟨hlt, hm⟩ := List.forall_mem_cons.mp h
    simp only [put, hlt, ih hm, List.cons_append]

/-- A key behind all others comes last. -/
theorem insert_last (h : ∀ e ∈ m, compare e.1 k = .lt) : insert k b m = m ++ [(k, b)] := by
  induction m with
  | nil => rfl
  | cons e m ih =>
    obtain ⟨k', b'⟩ := e
    obtain ⟨hlt, hm⟩ := List.forall_mem_cons.mp h
    simp only [insert, hlt, ih hm, List.cons_append]

theorem find_insert_of_ne [DecidableEq κ] {k' : κ} (hk : k ≠ k') :
    find k' (insert k b m) = find k' m := by
  induction m with
  | nil => rw [insert, find_cons_of_ne hk]
  | cons e m ih =>
    obtain ⟨j, b'⟩ := e
    rw [insert]
    split
    · by_cases hj : j = k'
      · subst hj
        rw [find_cons_self, find_cons_self]
      · rw [find_cons_of_ne hj, find_cons_of_ne hj, ih]
    · rfl
    · rw [find_cons_of_ne hk]

theorem Ascending.erase [DecidableEq κ] (h : Ascending m) (k : κ) : Ascending (erase k m) :=
  List.Pairwise.filter _ h

theorem Ascending.modify [DecidableEq κ] {f : β → Option β} (h : Ascending m)
    (hm : Assoc.modify k f m = some m') : Ascending m' :=
  (ascending_congr (keys_modify hm)).mpr h

/-- A key below the first one of an ascending list is below all of them. -/
theorem lt_all [Std.TransOrd κ] {e : κ × β} (h : Ascending (e :: m))
    (hlt : compare k e.1 = .lt) : ∀ e' ∈ e :: m, compare k e'.1 = .lt := by
  intro e' he'
  rcases List.mem_cons.mp he' with rfl | he'
  · exact hlt
  · exact Std.TransCmp.lt_trans hlt ((ascending_cons.mp h).1 e' he')

theorem ascending_insert [Std.TransOrd κ] (h : Ascending m) : Ascending (insert k b m) := by
  induction m with
  | nil => exact List.pairwise_singleton _ _
  | cons e m ih =>
    obtain ⟨k', b'⟩ := e
    obtain ⟨hall, hm⟩ := ascending_cons.mp h
    rw [insert]
    split
    · next hlt =>
      refine ascending_cons.mpr ⟨?_, ih hm⟩
      intro e he
      rcases mem_of_mem_insert he with rfl | he
      · exact hlt
      · exact hall e he
    · exact h
    · next hgt => exact ascending_cons.mpr ⟨lt_all h (Std.OrientedCmp.lt_of_gt hgt), h⟩

theorem ne_of_compare_lt [Std.TransOrd κ] {k k' : κ} (h : compare k k' = .lt) : k ≠ k' := by
  rintro rfl
  have hself : compare k k = .eq := Std.ReflCmp.compare_self
  rw [hself] at h
  exact absurd h (by decide)

variable [Std.TransOrd κ] [DecidableEq κ]

/-- An entry is found by its key. -/
theorem Ascending.find_of_mem (h : Ascending m) (hmem : (k, b) ∈ m) : find k m = some b := by
  induction m with
  | nil => exact absurd hmem List.not_mem_nil
  | cons e m ih =>
    obtain ⟨k', b'⟩ := e
    obtain ⟨hall, hm⟩ := ascending_cons.mp h
    rcases List.mem_cons.mp hmem with heq | hmem
    · obtain ⟨rfl, rfl⟩ := Prod.mk.injEq .. ▸ heq
      exact find_cons_self
    · rw [find_cons_of_ne (ne_of_compare_lt (hall _ hmem)), ih hm hmem]

/-- A key below the first one of an ascending list is in none of its entries. -/
theorem find_eq_none_of_lt {e : κ × β} (h : Ascending (e :: m)) (hlt : compare k e.1 = .lt) :
    find k (e :: m) = none :=
  find_eq_none_iff.mpr fun e' he' => (ne_of_compare_lt (lt_all h hlt e' he')).symm

/-- A key that is there is not inserted. -/
theorem insert_of_find {b' : β} (h : Ascending m) (hfind : find k m = some b') :
    insert k b m = m := by
  induction m with
  | nil => exact absurd hfind (by simp)
  | cons e m ih =>
    obtain ⟨k', c⟩ := e
    rw [insert]
    split
    · next hlt =>
      rw [find_cons_of_ne (ne_of_compare_lt hlt)] at hfind
      rw [ih h.tail hfind]
    · rfl
    · next hgt =>
      rw [find_eq_none_of_lt h (Std.OrientedCmp.lt_of_gt hgt)] at hfind
      exact absurd hfind (by simp)

/-- **Two ascending lists in which the same is found are the same.** -/
theorem ext (h : Ascending m) (h' : Ascending m') (hfind : ∀ k, find k m = find k m') : m = m' := by
  have hsub : ∀ {l l' : List (κ × β)}, Ascending l → (∀ k, find k l = find k l') → l ⊆ l' := by
    intro l l' hl heq e he
    exact mem_of_find ((heq e.1).symm.trans (hl.find_of_mem he))
  have hnodup : ∀ {l : List (κ × β)}, Ascending l → l.Nodup := fun hl =>
    hl.imp fun hlt heq => ne_of_compare_lt hlt (congrArg Prod.fst heq)
  have hperm : m.Perm m' := (List.perm_ext_iff_of_nodup (hnodup h) (hnodup h')).mpr fun e =>
    ⟨fun he => hsub h hfind he, fun he => hsub h' (fun k => (hfind k).symm) he⟩
  refine hperm.eq_of_pairwise ?_ h h'
  intro a b _ _ hab hba
  rw [Std.OrientedCmp.gt_of_lt hba] at hab
  exact absurd hab (by decide)

theorem find_insert_self [Std.LawfulEqOrd κ] (h : Ascending m) :
    find k (insert k b m) = some ((find k m).getD b) := by
  induction m with
  | nil => rw [insert, find_cons_self, find_nil, Option.getD_none]
  | cons e m ih =>
    obtain ⟨k', b'⟩ := e
    rw [insert]
    split
    · next hlt =>
      rw [find_cons_of_ne (ne_of_compare_lt hlt), find_cons_of_ne (ne_of_compare_lt hlt), ih h.tail]
    · next heq =>
      obtain rfl := Std.LawfulEqOrd.eq_of_compare heq
      rw [find_cons_self, Option.getD_some]
    · next hgt =>
      have hlt := Std.OrientedCmp.lt_of_gt hgt
      rw [find_cons_self, find_eq_none_of_lt h hlt, Option.getD_none]

end Order

end Assoc
end CModel
