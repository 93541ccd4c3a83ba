import Mathlib.Algebra.GroupWithZero.Nat
import Mathlib.Data.List.Basic

/-!
# Tables that are filled again from their start

A table has a fixed number of entries and a count of what has been put into it.  Each time that it is
filled, the items go to the entries from the first one on, and the count goes on from where it was.

* `RefillTable`, `RefillTable.fill`: the table, and a list of items that is put into it.
* `RefillTable.Lists`: the entries that the count tells of are what comes of a list of items.
* `RefillTable.lists_fills_iff`: behind several lists the table lists all the items only if at most
  one of the lists has any.
-/

namespace CModel

universe u v

/-- Entries, with `none` in what has not been filled, and how many items have been put into them. -/
structure RefillTable (β : Type v) where
  entries : List (Option β)
  num : ℕ

namespace RefillTable

variable {α : Type u} {β : Type v} {store : α → Option β → β} {t : RefillTable β} {i j n : ℕ} {a : α}
  {as : List α} {gs : List (List α)}

/-- `n` entries that have not been filled. -/
def empty (n : ℕ) : RefillTable β := ⟨List.replicate n none, 0⟩

/-- One item is put into the entry `i`. -/
def put (store : α → Option β → β) (i : ℕ) (t : RefillTable β) (a : α) : RefillTable β :=
  ⟨t.entries.set i (some (store a t.entries[i]?.join)), t.num + 1⟩

/-- The items are put into the entries from `i` on. -/
def fillFrom (store : α → Option β → β) : ℕ → RefillTable β → List α → RefillTable β
  | _, t, [] => t
  | i, t, a :: as => fillFrom store (i + 1) (t.put store i a) as

/-- The items are put into the entries from the first one on. -/
def fill (store : α → Option β → β) (t : RefillTable β) (as : List α) : RefillTable β :=
  fillFrom store 0 t as

/-- The table lists what comes of the items in entries that had not been filled. -/
def Lists (store : α → Option β → β) (t : RefillTable β) (as : List α) : Prop :=
  t.num ≤ t.entries.length ∧ t.num = as.length ∧
    t.entries.take t.num = as.map fun a => some (store a none)

instance [DecidableEq β] : Decidable (t.Lists store as) := inferInstanceAs (Decidable (_ ∧ _ ∧ _))

/-! ## One list of items -/

@[simp] theorem length_put : (t.put store i a).entries.length = t.entries.length :=
  List.length_set ..

@[simp] theorem num_put : (t.put store i a).num = t.num + 1 := rfl

theorem getElem?_put : (t.put store i a).entries[j]? =
    if i = j then t.entries[j]?.map fun e => some (store a e) else t.entries[j]? := by
  rw [put, List.getElem?_set]
  by_cases hij : i = j
  · subst hij
    by_cases hi : i < t.entries.length
    · rw [if_pos rfl, if_pos rfl, if_pos hi, List.getElem?_eq_getElem hi]
      rfl
    · rw [if_pos rfl, if_pos rfl, if_neg hi, List.getElem?_eq_none (Nat.le_of_not_lt hi)]
      rfl
  · rw [if_neg hij, if_neg hij]

theorem length_fillFrom : (fillFrom store i t as).entries.length = t.entries.length := by
  induction as generalizing i t with
  | nil => rfl
  | cons a as ih => rw [fillFrom, ih, length_put]

theorem num_fillFrom : (fillFrom store i t as).num = t.num + as.length := by
  induction as generalizing i t with
  | nil => rfl
  | cons a as ih =>
    rw [fillFrom, ih, num_put, List.length_cons]
    omega

/-- The items are in the entries from `i` on, and the others are what they were. -/
theorem getElem?_fillFrom : (fillFrom store i t as).entries[j]? =
    t.entries[j]?.map fun e =>
      if i ≤ j then (as[j - i]?.map fun a => store a e).or e else e := by
  induction as generalizing i t with
  | nil => simp [fillFrom]
  | cons a as ih =>
    rw [fillFrom, ih, getElem?_put]
    rcases Nat.lt_trichotomy i j with hlt | rfl | hlt
    · have hget : (a :: as)[j - i]? = as[j - (i + 1)]? := by
        rw [show j - i = j - (i + 1) + 1 by omega, List.getElem?_cons_succ]
      rw [if_neg (Nat.ne_of_lt hlt), hget]
      simp only [Nat.succ_le_of_lt hlt, Nat.le_of_lt hlt, if_true]
    · have hnot : ¬ i + 1 ≤ i := by omega
      simp [hnot, Function.comp_def]
    · rw [if_neg (Nat.ne_of_gt hlt)]
      simp only [show ¬ i + 1 ≤ j by omega, show ¬ i ≤ j by omega, if_false]

@[simp] theorem length_fill : (t.fill store as).entries.length = t.entries.length := length_fillFrom

@[simp] theorem num_fill : (t.fill store as).num = t.num + as.length := num_fillFrom

@[simp] theorem fill_nil : t.fill store [] = t := rfl

theorem getElem?_fill : (t.fill store as).entries[j]? =
    t.entries[j]?.map fun e => (as[j]?.map fun a => store a e).or e := by
  simp [fill, getElem?_fillFrom]

/-- A list that fits is listed by the table that it is put into. -/
theorem lists_fill (h : as.length ≤ n) : ((empty n).fill store as).Lists store as := by
  refine ⟨?_, ?_, List.ext_getElem? ?_⟩
  · simpa [empty] using h
  · simp [empty]
  · intro j
    have hnum : ((empty n).fill store as).num = as.length := by simp [empty]
    rw [hnum]
    by_cases hj : j < as.length
    · rw [List.getElem?_take_of_lt hj, getElem?_fill, List.getElem?_map,
        List.getElem?_eq_getElem hj]
      simp [empty, Nat.lt_of_lt_of_le hj h]
    · rw [List.getElem?_eq_none (by simp; omega), List.getElem?_eq_none (by simp; omega)]

/-! ## Several lists of items -/

theorem length_fills : (gs.foldl (fill store) t).entries.length = t.entries.length := by
  induction gs generalizing t with
  | nil => rfl
  | cons g gs ih => rw [List.foldl_cons, ih, length_fill]

theorem num_fills : (gs.foldl (fill store) t).num = t.num + gs.flatten.length := by
  induction gs generalizing t with
  | nil => simp
  | cons g gs ih =>
    rw [List.foldl_cons, ih, num_fill, List.flatten_cons, List.length_append]
    omega

/-- The entries behind all the lists are what they were. -/
theorem getElem?_fills (h : ∀ g ∈ gs, g.length ≤ j) :
    (gs.foldl (fill store) t).entries[j]? = t.entries[j]? := by
  induction gs generalizing t with
  | nil => rfl
  | cons g gs ih =>
    rw [List.foldl_cons, ih fun g' hg' => h g' (List.mem_cons_of_mem g hg'), getElem?_fill,
      List.getElem?_eq_none (h g List.mem_cons_self)]
    simp

/-- Lists without items change nothing. -/
theorem fills_filter :
    (gs.filter fun g => !g.isEmpty).foldl (fill store) t = gs.foldl (fill store) t := by
  induction gs generalizing t with
  | nil => rfl
  | cons g gs ih =>
    cases g with
    | nil => exact ih
    | cons a g => exact ih

theorem flatten_filter : (gs.filter fun g => !g.isEmpty).flatten = gs.flatten := by
  induction gs with
  | nil => rfl
  | cons g gs ih =>
    cases g with
    | nil => simpa using ih
    | cons a g => simpa using ih

/-- Where two lists have items, all of the lists together are longer than each of them. -/
theorem length_lt_flatten (hne : ∀ g ∈ gs, g ≠ []) (h : 2 ≤ gs.length) {g : List α} (hg : g ∈ gs) :
    g.length < gs.flatten.length := by
  obtain ⟨front, back, rfl⟩ := List.append_of_mem hg
  have hother : ∃ g' ∈ front ++ back, 0 < g'.length := by
    have hlen : 0 < (front ++ back).length := by
      simp only [List.length_append, List.length_cons] at h ⊢
      omega
    obtain ⟨g', hg'⟩ := List.exists_mem_of_length_pos hlen
    refine ⟨g', hg', List.length_pos_of_ne_nil (hne g' ?_)⟩
    rcases List.mem_append.mp hg' with hf | hb
    · exact List.mem_append_left _ hf
    · exact List.mem_append_right _ (List.mem_cons_of_mem g hb)
  obtain ⟨g', hg', hpos⟩ := hother
  have hle : g'.length ≤ front.flatten.length + back.flatten.length := by
    rw [← List.length_append, ← List.flatten_append]
    exact (List.sublist_flatten_of_mem hg').length_le
  simp only [List.flatten_append, List.flatten_cons, List.length_append]
  omega

/-- With two lists that have items, the last entry that is counted has never been filled. -/
theorem getElem?_fills_last (h : 2 ≤ (gs.filter fun g => !g.isEmpty).length)
    (hfit : gs.flatten.length ≤ n) : 0 < gs.flatten.length ∧
      (gs.foldl (fill store) (empty n)).entries[gs.flatten.length - 1]? = some none := by
  rw [← fills_filter, ← flatten_filter]
  rw [← flatten_filter] at hfit
  have hmem : ∀ g ∈ gs.filter fun g => !g.isEmpty, g ≠ [] := by
    intro g hg
    rw [List.mem_filter] at hg
    simpa using hg.2
  generalize gs.filter (fun g => !g.isEmpty) = hs at hmem h hfit
  have hlt : ∀ g ∈ hs, g.length < hs.flatten.length := fun g hg => length_lt_flatten hmem h hg
  obtain ⟨g, hg⟩ : ∃ g, g ∈ hs := List.exists_mem_of_length_pos (by omega)
  have hpos : 0 < hs.flatten.length := Nat.lt_of_le_of_lt (Nat.zero_le _) (hlt g hg)
  refine ⟨hpos, ?_⟩
  rw [getElem?_fills fun g hg => by have := hlt g hg; omega]
  exact List.getElem?_replicate_of_lt (by omega)

/-- Behind several lists the table lists their items if and only if at most one of them has any. -/
theorem lists_fills_iff (h : ∀ g ∈ gs, g.length ≤ n) :
    (gs.foldl (fill store) (empty n)).Lists store gs.flatten ↔
      (gs.filter fun g => !g.isEmpty).length ≤ 1 := by
  constructor
  · rintro ⟨hle, -, htake⟩
    by_contra hlen
    have hnum : (gs.foldl (fill store) (empty n)).num = gs.flatten.length := by
      rw [num_fills]
      exact Nat.zero_add _
    have hfit : gs.flatten.length ≤ n := by
      rw [length_fills, hnum] at hle
      simpa [empty] using hle
    obtain ⟨hpos, hlast⟩ : 0 < gs.flatten.length ∧
        (gs.foldl (fill store) (empty n)).entries[gs.flatten.length - 1]? = some none :=
      getElem?_fills_last (by omega) hfit
    rw [hnum] at htake
    have hread := congrArg (fun l => l[gs.flatten.length - 1]?) htake
    simp only [List.getElem?_map] at hread
    rw [List.getElem?_take_of_lt (by omega), hlast, List.getElem?_eq_getElem (by omega)] at hread
    simp at hread
  · intro hlen
    rw [← fills_filter, ← flatten_filter]
    have hfits : ∀ g ∈ gs.filter fun g => !g.isEmpty, g.length ≤ n := fun g hg =>
      h g (List.mem_of_mem_filter hg)
    generalize gs.filter (fun g => !g.isEmpty) = hs at hlen hfits
    rcases hs with _ | ⟨g, _ | ⟨g', hs⟩⟩
    · exact ⟨Nat.zero_le _, rfl, rfl⟩
    · have hlists : ((empty n).fill store g).Lists store g := lists_fill (hfits g List.mem_cons_self)
      simpa using hlists
    · simp at hlen

end RefillTable

end CModel
