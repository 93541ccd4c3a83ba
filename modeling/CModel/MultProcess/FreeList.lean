import CModel.Foundation.Chain
import CModel.Foundation.System
import CModel.MultProcess.Context
import Mathlib.Data.Int.Cast.Basic
import Mathlib.Data.List.Range

/-!
# The free list of the contexts

* `FreeList`: from `next_idx` on the contexts that are not in use are linked, and together with
  those in use they are all.
* `FreeList.alloc`, `FreeList.free`: what `alloc_context` and `free_context` do to it.
* `contexts`: a pool from which contexts are taken and to which they are given back.
* `free_list`: **the free list holds exactly the contexts that are not in use.**
-/

namespace CModel
namespace MultProcess

/-- The context that an index stands for; `-1` stands for none. -/
def link (i : ℤ) : Option ℤ := if i = -1 then none else some i

/-- The link in a context. -/
def view (arr : List ConnContext) (i : ℤ) : Option (Unit × Option ℤ) :=
  (contextAt arr i).map fun c => ((), link c.nextIdx)

/-- The contexts `free` are linked from `next_idx` on. -/
def ContextPool.Links (pool : ContextPool) (free : List ℤ) : Prop :=
  Chain (view pool.arr) (link pool.nextIdx) (free.map fun i => (i, ()))

/-- The contexts that are linked, and those in use, are all contexts. -/
structure FreeList (pool : ContextPool) (inUse : List ℕ) (free : List ℤ) : Prop where
  links : pool.Links free
  perm : (free ++ inUse.map Nat.cast).Perm ((List.range pool.arr.length).map Nat.cast)
  total : pool.total = pool.arr.length
  allocated : pool.allocated = inUse.length

variable {pool : ContextPool} {inUse : List ℕ} {free : List ℤ} {i : ℕ} {c : ConnContext}

theorem FreeList.length_eq (h : FreeList pool inUse free) :
    free.length + inUse.length = pool.arr.length := by
  have hlen := h.perm.length_eq
  simpa only [List.length_append, List.length_map, List.length_range] using hlen

theorem FreeList.nodup (h : FreeList pool inUse free) : (free ++ inUse.map Nat.cast).Nodup :=
  h.perm.nodup_iff.mpr (List.nodup_range.map fun _ _ => Int.ofNat_inj.mp)

theorem FreeList.mem_iff (h : FreeList pool inUse free) {j : ℕ} :
    j < pool.arr.length ↔ (j : ℤ) ∈ free ∨ j ∈ inUse := by
  have hmem := h.perm.mem_iff (a := (j : ℤ))
  simp only [List.mem_append, List.mem_map, Int.natCast_inj, exists_eq_right,
    List.mem_range] at hmem
  exact hmem.symm

theorem FreeList.lt (h : FreeList pool inUse free) (hi : i ∈ inUse) : i < pool.arr.length :=
  h.mem_iff.mpr (.inr hi)

theorem FreeList.notMem (h : FreeList pool inUse free) (hi : i ∈ inUse) : (i : ℤ) ∉ free :=
  fun hfree => List.disjoint_of_nodup_append h.nodup hfree (List.mem_map_of_mem hi)

/-- Everything that is linked is a context. -/
theorem FreeList.exists_eq (h : FreeList pool inUse free) {z : ℤ} (hz : z ∈ free) :
    ∃ j : ℕ, z = j ∧ j < pool.arr.length := by
  have hmem := h.perm.mem_iff.mp (List.mem_append_left _ hz)
  obtain ⟨j, hj, rfl⟩ := List.mem_map.mp hmem
  exact ⟨j, rfl, List.mem_range.mp hj⟩

theorem contextAt_natCast (arr : List ConnContext) (i : ℕ) : contextAt arr i = arr[i]? := by
  rw [contextAt, if_pos (Int.natCast_nonneg i), Int.toNat_natCast]

/-- What has been written to one context is not seen at another. -/
theorem view_set_of_ne (arr : List ConnContext) (c : ConnContext) {z : ℤ} (hz : z ≠ i) :
    view (arr.set i c) z = view arr z := by
  unfold view contextAt
  split
  · rw [List.getElem?_set_ne (by omega)]
  · rfl

theorem view_set_self {arr : List ConnContext} (hi : i < arr.length) (c : ConnContext) :
    view (arr.set i c) i = some ((), link c.nextIdx) := by
  rw [view, contextAt_natCast, List.getElem?_set_self hi]
  rfl

theorem link_natCast (i : ℕ) : link i = some (i : ℤ) := if_neg (by omega)

/-! ## The operations -/

/-- Contexts of which each is linked to the one behind it. -/
theorem chain_behind {a : List ConnContext}
    (hnext : ∀ (i : ℕ) (c : ConnContext), a[i]? = some c →
      c.nextIdx = if i + 1 < a.length then (i : ℤ) + 1 else -1)
    {k m : ℕ} (hk : k + m = a.length) :
    Chain (view a) (if k < a.length then some (k : ℤ) else none)
      ((List.range' k m).map fun i : ℕ => ((i : ℤ), ())) := by
  induction m generalizing k with
  | zero => exact if_neg (by omega)
  | succ m ih =>
    have hlt : k < a.length := by omega
    have hc : a[k]? = some a[k] := List.getElem?_eq_getElem hlt
    have hrest := ih (k := k + 1) (by omega)
    refine ⟨if_pos hlt, _, ?_, hrest⟩
    rw [view, contextAt_natCast, hc, Option.map_some, hnext k _ hc]
    by_cases hlast : k + 1 < a.length
    · rw [if_pos hlast, if_pos hlast, link, if_neg (by omega)]
      push_cast
      rfl
    · rw [if_neg hlast, if_neg hlast]
      rfl

theorem freeList_init {memory : List ConnContext} (h : initPool memory = some pool) :
    FreeList pool [] ((List.range memory.length).map Nat.cast) := by
  unfold initPool at h
  split at h
  · exact absurd h (by simp)
  · next hpos =>
    obtain rfl := Option.some.inj h
    refine ⟨?_, ?_, ?_, rfl⟩
    · have hchain := chain_behind (k := 0) (m := memory.length) (a := memory.mapIdx fun i c =>
        { c with nextIdx := if i + 1 < memory.length then (i : ℤ) + 1 else -1 }) ?_ ?_
      · rw [List.length_mapIdx, if_pos (Nat.pos_of_ne_zero hpos)] at hchain
        rw [ContextPool.Links, List.map_map, List.range_eq_range']
        exact hchain
      · intro i c hc
        rw [List.getElem?_mapIdx] at hc
        obtain ⟨c', -, rfl⟩ := Option.map_eq_some_iff.mp hc
        rw [List.length_mapIdx]
      · rw [List.length_mapIdx, Nat.zero_add]
    · rw [List.map_nil, List.append_nil, List.length_mapIdx]
    · rw [List.length_mapIdx]

/-- `alloc_context` takes the first context of the list. -/
theorem FreeList.alloc (h : FreeList pool inUse free) (hroom : pool.allocated < pool.total) :
    ∃ (i : ℕ) (c : ConnContext) (rest : List ℤ), free = (i : ℤ) :: rest ∧ pool.arr[i]? = some c ∧
      allocContext pool = some (i, { pool with
        allocated := pool.allocated + 1
        nextIdx := c.nextIdx
        arr := pool.arr.set i c.reset }) ∧
      FreeList { pool with
        allocated := pool.allocated + 1
        nextIdx := c.nextIdx
        arr := pool.arr.set i c.reset } (i :: inUse) rest := by
  have hlen := h.length_eq
  have htotal := h.total
  have hallocated := h.allocated
  cases free with
  | nil =>
    rw [List.length_nil] at hlen
    omega
  | cons z rest =>
    obtain ⟨i, rfl, hi⟩ := h.exists_eq List.mem_cons_self
    obtain ⟨hfirst, next, hview, hrest⟩ := h.links
    have hc : pool.arr[i]? = some pool.arr[i] := List.getElem?_eq_getElem hi
    have hnext : pool.nextIdx = i := by
      unfold link at hfirst
      split at hfirst
      · exact absurd hfirst (by simp)
      · exact Option.some.inj hfirst
    rw [view, contextAt_natCast, hc, Option.map_some, Option.some.injEq, Prod.mk.injEq] at hview
    refine ⟨i, pool.arr[i], rest, rfl, hc, ?_, ?_⟩
    · rw [allocContext, if_pos hroom, hnext, contextAt_natCast, hc]
      rfl
    · have hnot : (i : ℤ) ∉ rest := (List.nodup_cons.mp (List.Nodup.of_append_left h.nodup)).1
      refine ⟨?_, ?_, ?_, ?_⟩
      · rw [ContextPool.Links, hview.2]
        refine hrest.congr ?_
        intro q hq
        obtain ⟨z, hz, rfl⟩ := List.mem_map.mp hq
        exact view_set_of_ne _ _ fun heq => hnot (heq ▸ hz)
      · rw [List.length_set, List.map_cons]
        exact (List.perm_middle).trans h.perm
      · rw [List.length_set]
        exact htotal
      · rw [List.length_cons]
        push_cast
        omega

/-- `free_context` makes the context the first one of the list. -/
theorem FreeList.give (h : FreeList pool inUse free) (hi : i ∈ inUse) :
    ∃ c, pool.arr[i]? = some c ∧
      freeContext pool i = some { pool with
        allocated := pool.allocated - 1
        nextIdx := i
        arr := pool.arr.set i { c with nextIdx := pool.nextIdx } } ∧
      FreeList { pool with
        allocated := pool.allocated - 1
        nextIdx := i
        arr := pool.arr.set i { c with nextIdx := pool.nextIdx } } (inUse.erase i)
        ((i : ℤ) :: free) := by
  have hlt := h.lt hi
  have hc : pool.arr[i]? = some pool.arr[i] := List.getElem?_eq_getElem hlt
  have hpos : 0 < inUse.length := List.length_pos_of_mem hi
  have hallocated := h.allocated
  refine ⟨pool.arr[i], hc, ?_, ?_, ?_, ?_, ?_⟩
  · rw [freeContext, if_pos (by omega), hc]
    rfl
  · refine ⟨link_natCast i, _, view_set_self hlt _, h.links.congr ?_⟩
    intro q hq
    obtain ⟨z, hz, rfl⟩ := List.mem_map.mp hq
    exact view_set_of_ne _ _ fun heq => h.notMem hi (heq ▸ hz)
  · rw [List.length_set]
    refine List.Perm.trans ?_ h.perm
    have hperm := ((List.perm_cons_erase hi).map (Nat.cast : ℕ → ℤ)).symm
    rw [List.map_cons] at hperm
    exact (List.perm_middle.symm).trans (hperm.append_left free)
  · rw [List.length_set]
    exact h.total
  · rw [List.length_erase_of_mem hi]
    simp only
    omega

/-! ## Runs -/

/-- A pool and the contexts that have been taken from it. -/
structure Contexts where
  pool : ContextPool
  inUse : List ℕ

/-- What is done with a pool. -/
inductive ContextEvent where
  | alloc
  | free (context : ℕ)

/-- A context is taken when there is one, and only given back when it is in use. -/
def Contexts.Enabled (s : Contexts) : ContextEvent → Prop
  | .alloc => s.pool.allocated < s.pool.total
  | .free context => context ∈ s.inUse

/-- One call. -/
def Contexts.step (s : Contexts) : ContextEvent → Option Contexts
  | .alloc => (allocContext s.pool).map fun r => ⟨r.2, r.1 :: s.inUse⟩
  | .free context => (freeContext s.pool context).map fun pool => ⟨pool, s.inUse.erase context⟩

/-- The calls that a worker makes, in any order. -/
def contexts : System Contexts ContextEvent := ⟨Contexts.Enabled, Contexts.step⟩

variable {s s' : Contexts} {e : ContextEvent}

/-- Each call is defined, and keeps the free list. -/
theorem FreeList.step (h : FreeList s.pool s.inUse free) (he : s.Enabled e) :
    ∃ s' free', s.step e = some s' ∧ FreeList s'.pool s'.inUse free' := by
  cases e with
  | alloc =>
    obtain ⟨i, c, rest, -, -, halloc, h'⟩ := h.alloc he
    exact ⟨_, rest, by rw [Contexts.step, halloc, Option.map_some], h'⟩
  | free context =>
    obtain ⟨c, -, hfree, h'⟩ := h.give he
    exact ⟨_, _, by rw [Contexts.step, hfree, Option.map_some], h'⟩

theorem exists_freeList (h : ∃ free, FreeList s.pool s.inUse free) (hruns : contexts.Runs s s') :
    ∃ free, FreeList s'.pool s'.inUse free := by
  refine hruns.keep (P := fun t => ∃ free, FreeList t.pool t.inUse free) h ?_
  rintro t t' e ⟨free, ht⟩ he hstep
  obtain ⟨t₁, free', hstep', ht'⟩ := ht.step he
  obtain rfl := Option.some.inj (hstep'.symm.trans hstep)
  exact ⟨free', ht'⟩

/-- After any calls on a pool of any size: from `next_idx` on `total - allocated` different contexts
are linked, up to `-1`, none of them in use; `allocated` is the number of those in use; what
`alloc_context` returns is not in use, and every context is linked or in use. -/
theorem free_list {memory : List ConnContext} {pool : ContextPool}
    (hinit : initPool memory = some pool) (hruns : contexts.Runs ⟨pool, []⟩ s) :
    ∃ free : List ℤ, s.pool.Links free ∧ free.Nodup ∧
      (free.length : ℤ) = s.pool.total - s.pool.allocated ∧
      (∀ z ∈ free, 0 ≤ z ∧ z < s.pool.total) ∧
      (∀ i ∈ s.inUse, (i : ℤ) ∉ free) ∧
      (s.inUse.Nodup ∧ s.pool.allocated = s.inUse.length) ∧
      (∀ i pool', allocContext s.pool = some (i, pool') → i ∉ s.inUse) ∧
      ∀ i : ℕ, (i : ℤ) < s.pool.total → (i : ℤ) ∈ free ∨ i ∈ s.inUse := by
  obtain ⟨free, h⟩ := exists_freeList ⟨_, freeList_init hinit⟩ hruns
  have hlen := h.length_eq
  have htotal := h.total
  have hallocated := h.allocated
  refine ⟨free, h.links, h.nodup.of_append_left, by omega, ?_, fun i hi => h.notMem hi,
    ⟨?_, hallocated⟩, ?_, ?_⟩
  · intro z hz
    obtain ⟨j, rfl, hj⟩ := h.exists_eq hz
    omega
  · exact h.nodup.of_append_right.of_map _
  · intro i pool' halloc hmem
    have hroom : s.pool.allocated < s.pool.total := by
      by_contra hfull
      rw [allocContext, if_neg hfull] at halloc
      exact absurd halloc (by simp)
    obtain ⟨j, c, rest, rfl, -, halloc', -⟩ := h.alloc hroom
    obtain ⟨rfl, -⟩ := Prod.mk.inj (Option.some.inj (halloc'.symm.trans halloc))
    exact h.notMem hmem List.mem_cons_self
  · intro i hi
    exact h.mem_iff.mp (by omega)

/-- Of two contexts that have been taken the first is given back. -/
theorem free_list_two : ∃ pool s, initPool [default, default] = some pool ∧
    contexts.Runs ⟨pool, []⟩ s ∧ s.inUse = [1] ∧
    ∀ i pool', allocContext s.pool = some (i, pool') → i ∉ s.inUse := by
  have hinit : initPool [default, default] =
      some ⟨2, 0, 0, [{ (default : ConnContext) with nextIdx := 1 },
        { (default : ConnContext) with nextIdx := -1 }]⟩ := rfl
  have hruns : contexts.Runs ⟨⟨2, 0, 0, [{ (default : ConnContext) with nextIdx := 1 },
      { (default : ConnContext) with nextIdx := -1 }]⟩, []⟩ _ :=
    .head (e := .alloc) (show (0 : ℤ) < 2 by decide) rfl <|
    .head (e := .alloc) (show (0 : ℤ) + 1 < 2 by decide) rfl <|
    .head (e := .free 0) (show (0 : ℕ) ∈ [1, 0] by decide) rfl .refl
  obtain ⟨free, -, -, -, -, -, -, hfresh, -⟩ := free_list hinit hruns
  exact ⟨_, _, hinit, hruns, rfl, hfresh⟩

end MultProcess
end CModel
