import CModel.Foundation.Chain
import CModel.ThreadPool.Pool

/-!
# The queue of jobs

* `Queued`: the jobs of a pool as a list, with what `head`, `tail` and `queue_cur_num` are for it.
* `AddSpec`, `TakeSpec`: everything that a critical section of `threadpool_add_job` and of
  `threadpool_function` can come to, on the list; `threadpoolAddJob_spec`,
  `threadpoolFunction_spec`.
-/

namespace CModel
namespace ThreadPool

variable {κ : Type}

/-- The jobs as nodes of a list. -/
def nodes (mem : Store (Job κ)) (p : ℕ) : Option (κ × Option ℕ) :=
  (mem.cell p).map fun job => (job.call, job.next)

/-- The jobs from `head` to `tail`, each with its address. -/
structure Queued (pool : Pool κ) (q : List (ℕ × κ)) : Prop where
  chain : Chain (nodes pool.mem) pool.head q
  tail : pool.tail = q.getLast?.map Prod.fst
  count : pool.queueCurNum = q.length
  nodup : (q.map Prod.fst).Nodup

variable {pool pool' : Pool κ} {q : List (ℕ × κ)} {call : κ} {malloc : Bool}

theorem nodes_eq_some {mem : Store (Job κ)} {p : ℕ} {next : Option ℕ} :
    nodes mem p = some (call, next) ↔ mem.cell p = some ⟨call, next⟩ := by
  rw [nodes, Option.map_eq_some_iff]
  constructor
  · rintro ⟨⟨c, n⟩, hcell, heq⟩
    obtain ⟨rfl, rfl⟩ := Prod.mk.inj heq
    exact hcell
  · exact fun h => ⟨_, h, rfl⟩

theorem Queued.cell (h : Queued pool q) {a : ℕ × κ} (ha : a ∈ q) :
    ∃ next, pool.mem.cell a.1 = some ⟨a.2, next⟩ := by
  obtain ⟨next, hnode⟩ := h.chain.mem ha
  exact ⟨next, nodes_eq_some.mp hnode⟩

theorem Queued.lt_next (h : Queued pool q) {a : ℕ × κ} (ha : a ∈ q) : a.1 < pool.mem.next := by
  obtain ⟨next, hcell⟩ := h.cell ha
  exact Store.lt_next hcell

theorem Queued.count_eq_zero (h : Queued pool q) : pool.queueCurNum = 0 ↔ q = [] := by
  rw [h.count, Int.natCast_eq_zero, List.length_eq_zero_iff]

theorem Queued.head_eq_none (h : Queued pool q) : pool.head = none ↔ q = [] := by
  rw [h.chain.first_eq, Option.map_eq_none_iff, List.head?_eq_none_iff]

/-- Only the jobs in the queue matter. -/
theorem Queued.congr (h : Queued pool q) (hhead : pool'.head = pool.head)
    (htail : pool'.tail = pool.tail) (hcount : pool'.queueCurNum = pool.queueCurNum)
    (hcell : ∀ a ∈ q, pool'.mem.cell a.1 = pool.mem.cell a.1) : Queued pool' q where
  chain := by
    rw [hhead]
    exact h.chain.congr fun a ha => by rw [nodes, nodes, hcell a ha]
  tail := htail.trans h.tail
  count := hcount.trans h.count
  nodup := h.nodup

/-! ## A new job -/

/-- What a critical section of `threadpool_add_job` comes to. -/
inductive AddSpec (pool : Pool κ) (q : List (ℕ × κ)) (call : κ) (malloc : Bool) :
    Adding κ → Prop where
  | wait (full : pool.queueCurNum = pool.queueMaxNum)
      (isOpen : ¬(pool.queueClose = true ∨ pool.poolClose = true)) :
      AddSpec pool q call malloc .wait
  | refused (isClosed : pool.queueClose = true ∨ pool.poolClose = true ∨ malloc = false) :
      AddSpec pool q call malloc .refused
  | added {mem : Store (Job κ)} {head tail : Option ℕ}
      (room : pool.queueCurNum ≠ pool.queueMaxNum)
      (isOpen : ¬(pool.queueClose = true ∨ pool.poolClose = true))
      (next : mem.next = pool.mem.next + 1)
      (cells : ∀ p < pool.mem.next, (∀ a ∈ q, a.1 ≠ p) → mem.cell p = pool.mem.cell p)
      (queued : Queued
        { pool with mem, head, tail, queueCurNum := pool.queueCurNum + 1 }
        (q ++ [(pool.mem.next, call)])) :
      AddSpec pool q call malloc (.added pool.mem.next q.isEmpty
        { pool with mem, head, tail, queueCurNum := pool.queueCurNum + 1 })

theorem Queued.nodup_concat (h : Queued pool q) (call : κ) :
    ((q ++ [(pool.mem.next, call)]).map Prod.fst).Nodup := by
  rw [List.map_append, List.nodup_append]
  refine ⟨h.nodup, List.nodup_singleton _, ?_⟩
  intro p hp p' hp'
  obtain ⟨a, ha, rfl⟩ := List.mem_map.mp hp
  have hlt := h.lt_next ha
  have hnew : p' = pool.mem.next := by simpa using hp'
  omega

/-- A job for an empty queue. -/
theorem queued_singleton (h : Queued pool []) (call : κ) :
    Queued
      { pool with
        mem := (pool.mem.new ⟨call, none⟩).2
        head := some pool.mem.next
        tail := some pool.mem.next
        queueCurNum := pool.queueCurNum + 1 }
      [(pool.mem.next, call)] where
  chain := ⟨rfl, none, nodes_eq_some.mpr (Function.update_self _ _ _), rfl⟩
  tail := rfl
  count := by
    have hcount := h.count
    simp only [List.length_nil, List.length_singleton] at hcount ⊢
    omega
  nodup := List.nodup_singleton _

/-- A job for the end of a queue, where the last job so far gets its address. -/
theorem queued_concat {l : List (ℕ × κ)} {t : ℕ} {c : κ} (h : Queued pool (l ++ [(t, c)]))
    (call : κ) :
    ∃ mem, (pool.mem.new ⟨call, none⟩).2.modify t (fun j => { j with next := some pool.mem.next })
        = some mem ∧
      mem.next = pool.mem.next + 1 ∧
      (∀ p < pool.mem.next, p ≠ t → mem.cell p = pool.mem.cell p) ∧
      Queued
        { pool with
          mem
          tail := some pool.mem.next
          queueCurNum := pool.queueCurNum + 1 }
        (l ++ [(t, c)] ++ [(pool.mem.next, call)]) := by
  have hmem : (t, c) ∈ l ++ [(t, c)] := List.mem_append_right _ List.mem_cons_self
  obtain ⟨next, hcell⟩ := h.cell hmem
  have hlt := h.lt_next hmem
  have hnew : (pool.mem.new ⟨call, none⟩).2.cell t = some ⟨c, next⟩ := by
    rw [Store.new_snd_cell, Function.update_of_ne (ne_of_lt hlt)]
    exact hcell
  refine ⟨_, Store.modify_of_some hnew _, rfl, ?_, ?_⟩
  · intro p hp hpt
    rw [Store.put_cell, Function.update_of_ne hpt, Store.new_snd_cell,
      Function.update_of_ne (ne_of_lt hp)]
  · have hl : ∀ a ∈ l, a.1 ≠ t := fun a ha hat => by
      have hdisj := (List.nodup_append.mp (List.map_append ▸ h.nodup)).2.2
      exact hdisj a.1 (List.mem_map_of_mem ha) t (by simp) hat
    refine ⟨?_, ?_, ?_, h.nodup_concat call⟩
    · rw [List.append_assoc]
      refine h.chain.concat ?_ ?_ ?_
      · exact nodes_eq_some.mpr (Function.update_self _ _ _)
      · refine nodes_eq_some.mpr ?_
        rw [Store.put_cell, Function.update_of_ne (ne_of_gt hlt), Store.new_snd_cell,
          Function.update_self]
      · intro a ha
        have halt := h.lt_next (List.mem_append_left _ ha)
        rw [nodes, nodes, Store.put_cell, Function.update_of_ne (hl a ha), Store.new_snd_cell,
          Function.update_of_ne (ne_of_lt halt)]
    · simp
    · have hcount := h.count
      simp only [List.length_append, List.length_singleton] at hcount ⊢
      omega

theorem threadpoolAddJob_spec (h : Queued pool q) (call : κ) (malloc : Bool) :
    ∃ r, threadpoolAddJob pool call malloc = some r ∧ AddSpec pool q call malloc r := by
  unfold threadpoolAddJob
  split
  · next hwait => exact ⟨_, rfl, .wait hwait.1 hwait.2⟩
  next hwait =>
  split
  · next hclosed => exact ⟨_, rfl, .refused (hclosed.imp_right .inl)⟩
  next hopen =>
  have hroom : pool.queueCurNum ≠ pool.queueMaxNum := fun hfull => hwait ⟨hfull, hopen⟩
  cases malloc with
  | false => exact ⟨_, rfl, .refused (.inr (.inr rfl))⟩
  | true =>
    rcases List.eq_nil_or_concat q with rfl | ⟨l, ⟨t, c⟩, rfl⟩
    · have hhead : pool.head = none := h.chain
      rw [hhead]
      refine ⟨_, rfl, .added hroom hopen rfl ?_ (queued_singleton h call)⟩
      intro p hp _
      exact Function.update_of_ne (ne_of_lt hp) _ _
    · rw [List.concat_eq_append] at h ⊢
      obtain ⟨mem, hmodify, hnext, hcells, hqueued⟩ := queued_concat h call
      obtain ⟨p, hhead⟩ : ∃ p, pool.head = some p := by
        refine Option.ne_none_iff_exists'.mp ?_
        intro hnone
        simpa using h.head_eq_none.mp hnone
      have htail : pool.tail = some t := by rw [h.tail, List.getLast?_concat]; rfl
      have hempty : (l ++ [(t, c)]).isEmpty = false := by simp
      have hspec : AddSpec pool (l ++ [(t, c)]) call true _ := .added hroom hopen hnext
        (fun p hp hne => hcells p hp fun hpt => hne (t, c) (by simp) hpt.symm) hqueued
      rw [hempty] at hspec
      refine ⟨_, ?_, hspec⟩
      simp only [Bool.not_true, Bool.false_eq_true, if_false, hhead, htail, Store.new_fst]
      simp only [Option.bind_eq_bind, Option.bind_some, hmodify]

/-! ## The next job -/

/-- What a critical section of `threadpool_function` comes to. -/
inductive TakeSpec (pool : Pool κ) (q : List (ℕ × κ)) : Taking κ → Prop where
  | wait (empty : q = []) (isOpen : pool.poolClose = false) : TakeSpec pool q .wait
  | exit (isClosed : pool.poolClose = true) : TakeSpec pool q .exit
  | taken {pjob : ℕ} {call : κ} {rest : List (ℕ × κ)} {head tail : Option ℕ}
      (front : q = (pjob, call) :: rest) (isOpen : pool.poolClose = false)
      (queued : Queued { pool with queueCurNum := pool.queueCurNum - 1, head, tail } rest) :
      TakeSpec pool q (.taken pjob call rest.isEmpty
        (pool.queueCurNum - 1 = pool.queueMaxNum - 1)
        { pool with queueCurNum := pool.queueCurNum - 1, head, tail })

/-- The queue without its first job, which is empty if and only if the counter is zero now. -/
theorem queued_rest {pjob : ℕ} {rest : List (ℕ × κ)} (h : Queued pool ((pjob, call) :: rest)) :
    ∃ next, pool.mem.cell pjob = some ⟨call, next⟩ ∧
      (pool.queueCurNum - 1 = 0 ↔ rest = []) ∧
      Queued
        { pool with
          queueCurNum := pool.queueCurNum - 1
          head := if pool.queueCurNum - 1 = 0 then none else next
          tail := if pool.queueCurNum - 1 = 0 then none else pool.tail }
        rest := by
  obtain ⟨hhead, next, hnode, hrest⟩ := h.chain
  have hcount := h.count
  have hzero : pool.queueCurNum - 1 = 0 ↔ rest = [] := by
    rw [hcount, List.length_cons, ← List.length_eq_zero_iff]
    omega
  refine ⟨next, nodes_eq_some.mp hnode, hzero, ?_⟩
  by_cases hnil : rest = []
  · rw [if_pos (hzero.mpr hnil), if_pos (hzero.mpr hnil)]
    subst hnil
    exact ⟨rfl, rfl, hzero.mpr rfl, List.nodup_nil⟩
  · rw [if_neg fun hz => hnil (hzero.mp hz), if_neg fun hz => hnil (hzero.mp hz)]
    refine ⟨hrest, ?_, ?_, (List.nodup_cons.mp h.nodup).2⟩
    · rw [h.tail, List.getLast?_cons, List.getLast?_eq_some_getLast hnil]
      rfl
    · rw [List.length_cons] at hcount
      simp only
      omega

theorem threadpoolFunction_spec (h : Queued pool q) :
    ∃ r, threadpoolFunction pool = some r ∧ TakeSpec pool q r := by
  unfold threadpoolFunction
  split
  · next hwait =>
    exact ⟨_, rfl, .wait (h.count_eq_zero.mp hwait.1) (Bool.eq_false_iff.mpr hwait.2)⟩
  next hwait =>
  split
  · next hclosed => exact ⟨_, rfl, .exit hclosed⟩
  next hopen =>
  cases q with
  | nil => exact absurd ⟨h.count_eq_zero.mpr rfl, hopen⟩ hwait
  | cons a rest =>
    obtain ⟨pjob, call⟩ := a
    obtain ⟨next, hcell, hzero, hqueued⟩ := queued_rest h
    have hempty : rest.isEmpty = decide (pool.queueCurNum - 1 = 0) := by
      rw [Bool.eq_iff_iff, decide_eq_true_iff, hzero, List.isEmpty_iff]
    have hspec := TakeSpec.taken (q := (pjob, call) :: rest) rfl
      (Bool.eq_false_iff.mpr hopen) hqueued
    rw [hempty] at hspec
    refine ⟨_, ?_, hspec⟩
    rw [h.chain.1, Option.bind_eq_bind, Option.bind_some, hcell]
    rfl

end ThreadPool
end CModel
