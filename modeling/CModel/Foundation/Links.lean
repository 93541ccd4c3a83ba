import Mathlib.Data.List.Basic
import Mathlib.Data.List.Nodup
import Mathlib.Logic.Function.Basic

/-!
# Doubly linked lists

Nodes by address, each with the addresses of the node before it and the node behind it.  What else
is in a node does not matter here: `view` gives the two addresses of a node, where there is one.

* `Links`: the nodes of a list one after the other, from what is before the first to what is behind
  the last.
* `links_append`: a list is linked if and only if its two parts are and meet.
* `Links.setPrev`, `Links.setNext`: another neighbour at one end.
* `Links.pushFront`, `Links.unlink`: what a new head and the removal of a node come to.
-/

namespace CModel

universe u

variable {ι : Type u}

/-- The two addresses in a node. -/
structure Link (ι : Type u) where
  prev : Option ι
  next : Option ι

/-- The nodes `ps` follow each other, with `prev` before the first of them and `next` behind the
last. -/
def Links (view : ι → Option (Link ι)) : Option ι → List ι → Option ι → Prop
  | _, [], _ => True
  | prev, p :: ps, next =>
    view p = some ⟨prev, ps.head?.or next⟩ ∧ Links view (some p) ps next

variable {view view' : ι → Option (Link ι)} {prev next : Option ι} {p : ι} {ps qs : List ι}

/-- Only the nodes of the list matter. -/
theorem Links.congr (h : Links view prev ps next) (heq : ∀ q ∈ ps, view' q = view q) :
    Links view' prev ps next := by
  induction ps generalizing prev with
  | nil => trivial
  | cons p ps ih =>
    obtain ⟨hp, hps⟩ := h
    exact ⟨(heq p List.mem_cons_self).trans hp,
      ih hps fun q hq => heq q (List.mem_cons_of_mem p hq)⟩

theorem links_append :
    Links view prev (ps ++ qs) next ↔
      Links view prev ps (qs.head?.or next) ∧ Links view (ps.getLast?.or prev) qs next := by
  induction ps generalizing prev with
  | nil => simp [Links]
  | cons p ps ih =>
    have hhead : (ps ++ qs).head?.or next = ps.head?.or (qs.head?.or next) := by
      rw [List.head?_append, Option.or_assoc]
    have hlast : (p :: ps).getLast?.or prev = ps.getLast?.or (some p) := by
      cases ps with
      | nil => rfl
      | cons q ps => rw [List.getLast?_cons_cons, List.getLast?_cons]; rfl
    rw [List.cons_append, Links, Links, ih, hhead, hlast, and_assoc]

/-- A node with its neighbours. -/
theorem Links.at (h : Links view none (ps ++ p :: qs) none) :
    view p = some ⟨ps.getLast?, qs.head?⟩ := by
  have hp := (links_append.mp h).2.1
  rwa [Option.or_none, Option.or_none] at hp

/-- Another node behind the last one. -/
theorem Links.setNext {q next' : Option ι} (h : Links view prev ps next) (hnodup : ps.Nodup)
    (hlast : ps.getLast? = q)
    (hset : ∀ r ∈ q, view' r = (view r).map fun l => { l with next := next' })
    (hkeep : ∀ r ∈ ps, q ≠ some r → view' r = view r) : Links view' prev ps next' := by
  rcases List.eq_nil_or_concat ps with rfl | ⟨ps, r, rfl⟩
  · trivial
  · rw [List.concat_eq_append] at *
    rw [List.getLast?_append, List.getLast?_singleton] at hlast
    obtain rfl : q = some r := hlast.symm
    have hr : r ∉ ps := fun hr => (List.nodup_append.mp hnodup).2.2 r hr r (by simp) rfl
    obtain ⟨hps, hlink, -⟩ := links_append.mp h
    refine links_append.mpr ⟨hps.congr ?_, ?_, trivial⟩
    · intro s hs
      refine hkeep s (List.mem_append_left _ hs) fun heq => hr ?_
      rwa [Option.some.inj heq]
    · rw [hset r rfl, hlink]
      rfl

/-- Another node before the first one. -/
theorem Links.setPrev {q prev' : Option ι} (h : Links view prev ps next) (hnodup : ps.Nodup)
    (hhead : ps.head? = q)
    (hset : ∀ r ∈ q, view' r = (view r).map fun l => { l with prev := prev' })
    (hkeep : ∀ r ∈ ps, q ≠ some r → view' r = view r) : Links view' prev' ps next := by
  cases ps with
  | nil => trivial
  | cons p ps =>
    obtain rfl : q = some p := hhead.symm
    obtain ⟨hp, hps⟩ := h
    refine ⟨by rw [hset p rfl, hp]; rfl, hps.congr ?_⟩
    intro s hs
    refine hkeep s (List.mem_cons_of_mem p hs) fun heq => (List.nodup_cons.mp hnodup).1 ?_
    rwa [Option.some.inj heq]

section Operations

variable [DecidableEq ι]

/-- What a new head of a list does to the nodes. -/
def linkFront (view : ι → Option (Link ι)) (p : ι) (head : Option ι) : ι → Option (Link ι) :=
  fun q =>
    if q = p then some ⟨none, head⟩
    else if some q = head then (view q).map fun l => { l with prev := some p }
    else view q

/-- What the removal of a node does to the nodes: its neighbours get to know each other. -/
def unlink (view : ι → Option (Link ι)) (p : ι) (link : Link ι) : ι → Option (Link ι) :=
  fun q =>
    if q = p then none
    else if some q = link.prev then (view q).map fun l => { l with next := link.next }
    else if some q = link.next then (view q).map fun l => { l with prev := link.prev }
    else view q

theorem Links.pushFront (h : Links view none ps none) (hnodup : ps.Nodup) (hp : p ∉ ps) :
    Links (linkFront view p ps.head?) none (p :: ps) none := by
  have hne : ∀ r ∈ ps, r ≠ p := fun r hr heq => hp (heq ▸ hr)
  refine ⟨by rw [linkFront, if_pos rfl, Option.or_none], ?_⟩
  refine h.setPrev hnodup rfl ?_ ?_
  · intro r hr
    rw [linkFront, if_neg (hne r (List.mem_of_mem_head? hr)), if_pos hr.symm]
  · intro r hr hhead
    rw [linkFront, if_neg (hne r hr), if_neg (Ne.symm hhead)]

theorem Links.unlink (h : Links view none (ps ++ p :: qs) none)
    (hnodup : (ps ++ p :: qs).Nodup) :
    Links (unlink view p ⟨ps.getLast?, qs.head?⟩) none (ps ++ qs) none := by
  obtain ⟨hps, -, hqs⟩ := links_append.mp h
  obtain ⟨hnps, hncons, hdisj⟩ := List.nodup_append.mp hnodup
  obtain ⟨hpqs, hnqs⟩ := List.nodup_cons.mp hncons
  have hneps : ∀ r ∈ ps, r ≠ p := fun r hr => hdisj r hr p List.mem_cons_self
  have hneqs : ∀ r ∈ qs, r ≠ p := fun r hr heq => hpqs (heq ▸ hr)
  have hpsqs : ∀ r ∈ ps, r ∉ qs := fun r hr hr' =>
    hdisj r hr r (List.mem_cons_of_mem p hr') rfl
  refine links_append.mpr ⟨?_, ?_⟩
  · rw [Option.or_none]
    refine hps.setNext hnps rfl ?_ ?_
    · intro r hr
      rw [CModel.unlink, if_neg (hneps r (List.mem_of_getLast? hr)), if_pos hr.symm]
    · intro r hr hlast
      rw [CModel.unlink, if_neg (hneps r hr), if_neg (Ne.symm hlast), if_neg]
      exact fun hhead => hpsqs r hr (List.mem_of_mem_head? hhead.symm)
  · rw [Option.or_none]
    refine hqs.setPrev hnqs rfl ?_ ?_
    · intro r hr
      have hr' : r ∈ qs := List.mem_of_mem_head? hr
      rw [CModel.unlink, if_neg (hneqs r hr'), if_neg, if_pos hr.symm]
      exact fun hlast => hpsqs r (List.mem_of_getLast? hlast.symm) hr'
    · intro r hr hhead
      rw [CModel.unlink, if_neg (hneqs r hr), if_neg, if_neg (Ne.symm hhead)]
      exact fun hlast => hpsqs r (List.mem_of_getLast? hlast.symm) hr

end Operations

end CModel
