import Mathlib.Data.List.Basic
import Mathlib.Data.List.Nodup

/-!
# Singly linked lists

Nodes by address, each with what is in it and the address of the node behind it.

* `Chain`: a list, read from the address of its first node.
* `Chain.congr`: only the nodes of the list matter.
* `Chain.concat`: another node behind the last one.
-/

namespace CModel

universe u v

variable {ι : Type u} {α : Type v}

/-- The nodes from an address on, up to the null pointer, with what is in them. -/
def Chain (view : ι → Option (α × Option ι)) : Option ι → List (ι × α) → Prop
  | first, [] => first = none
  | first, (p, a) :: l => first = some p ∧ ∃ next, view p = some (a, next) ∧ Chain view next l

variable {view view' : ι → Option (α × Option ι)} {first : Option ι} {l : List (ι × α)}

/-- Only the nodes of the list matter. -/
theorem Chain.congr (h : Chain view first l) (heq : ∀ q ∈ l, view' q.1 = view q.1) :
    Chain view' first l := by
  induction l generalizing first with
  | nil => exact h
  | cons q l ih =>
    obtain ⟨hfirst, next, hq, hl⟩ := h
    exact ⟨hfirst, next, (heq q List.mem_cons_self).trans hq,
      ih hl fun r hr => heq r (List.mem_cons_of_mem q hr)⟩

theorem Chain.first_eq (h : Chain view first l) : first = l.head?.map Prod.fst := by
  cases l with
  | nil => exact h
  | cons q l => exact h.1

/-- The nodes of a list are there. -/
theorem Chain.mem (h : Chain view first l) {q : ι × α} (hq : q ∈ l) :
    ∃ next, view q.1 = some (q.2, next) := by
  induction l generalizing first with
  | nil => exact absurd hq List.not_mem_nil
  | cons r l ih =>
    obtain ⟨-, next, hr, hl⟩ := h
    rcases List.mem_cons.mp hq with rfl | hq
    · exact ⟨next, hr⟩
    · exact ih hl hq

/-- A new node behind the last one, whose address is stored there. -/
theorem Chain.concat {t p : ι} {a b : α} (h : Chain view first (l ++ [(t, a)]))
    (hlast : view' t = some (a, some p)) (hnew : view' p = some (b, none))
    (hkeep : ∀ q ∈ l, view' q.1 = view q.1) :
    Chain view' first (l ++ [(t, a), (p, b)]) := by
  induction l generalizing first with
  | nil => exact ⟨h.1, some p, hlast, rfl, none, hnew, rfl⟩
  | cons q l ih =>
    obtain ⟨hfirst, next, hq, hl⟩ := h
    exact ⟨hfirst, next, (hkeep q List.mem_cons_self).trans hq,
      ih hl fun r hr => hkeep r (List.mem_cons_of_mem q hr)⟩

end CModel
