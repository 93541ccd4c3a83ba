import CModel.MultProcess.FreeList
import CModel.MultProcess.Worker

/-!
# What belongs to whom

* `Ledger`: a descriptor is open for a context exactly where the context is in use and holds it, and
  what is watched, or is still to be handled, is for an open descriptor of its context.
* `Ledger.set`: a context gets new contents, and maybe a descriptor more.
* `Ledger.release`, `Taken.ledger`: a context is given back, and taken.
* `Ledger.after`: the handler of a context is called.
-/

namespace CModel
namespace MultProcess

/-- The descriptors that a context holds. -/
def Worker.fds (w : Worker) (i : ℕ) : List ℤ := ((w.pool.arr[i]?).map ConnContext.fds).getD []

/-- What belongs to whom. -/
structure Ledger (w : Worker) : Prop where
  free : ∃ free, FreeList w.pool w.inUse free
  owner : ∀ fd i, w.owner fd = some i ↔ i ∈ w.inUse ∧ fd ∈ w.fds i
  nodup : ∀ i ∈ w.inUse, (w.fds i).Nodup
  interest : ∀ g ∈ w.interest, w.owner g.fd = some g.ctx
  batch : ∀ ev ∈ w.batch, w.owner ev.fd = some ev.ctx

variable {w w' : Worker} {i j : ℕ} {c c' : ConnContext} {fd : ℤ} {r : Results} {ev : Event}

theorem Worker.fds_eq (hc : w.pool.arr[i]? = some c) : w.fds i = c.fds := by
  rw [Worker.fds, hc]
  rfl

theorem ConnContext.mem_fds : fd ∈ c.fds ↔ fd = c.fd ∨ (c.endFd ≠ 0 ∧ fd = c.endFd) := by
  unfold ConnContext.fds
  split <;> simp [*]

/-- A context that is in use gets new contents. -/
theorem FreeList.set {pool : ContextPool} {inUse : List ℕ} {free : List ℤ}
    (h : FreeList pool inUse free) (hi : i ∈ inUse) (c : ConnContext) :
    FreeList { pool with arr := pool.arr.set i c } inUse free where
  links := h.links.congr fun q hq => by
    obtain ⟨z, hz, rfl⟩ := List.mem_map.mp hq
    exact view_set_of_ne _ _ fun heq => h.notMem hi (heq ▸ hz)
  perm := by
    rw [List.length_set]
    exact h.perm
  total := by
    rw [List.length_set]
    exact h.total
  allocated := h.allocated

theorem Worker.fds_set_self (harr : w'.pool.arr = w.pool.arr.set i c')
    (hi : i < w.pool.arr.length) : w'.fds i = c'.fds :=
  Worker.fds_eq (by rw [harr, List.getElem?_set_self hi])

theorem Worker.fds_set_of_ne (harr : w'.pool.arr = w.pool.arr.set i c') (hj : j ≠ i) :
    w'.fds j = w.fds j := by
  rw [Worker.fds, Worker.fds, harr, List.getElem?_set_ne hj.symm]

/-- A context that is in use gets new contents, and maybe a descriptor more. -/
theorem Ledger.set (h : Ledger w) (hi : i ∈ w.inUse)
    (hpool : w'.pool = { w.pool with arr := w.pool.arr.set i c' }) (hinUse : w'.inUse = w.inUse)
    (hsub : ∀ fd ∈ w.fds i, fd ∈ c'.fds) (hnodup : c'.fds.Nodup)
    (hself : ∀ fd, w'.owner fd = some i ↔ fd ∈ c'.fds)
    (hother : ∀ fd j, j ≠ i → (w'.owner fd = some j ↔ w.owner fd = some j))
    (hinterest : ∀ g ∈ w'.interest, (∃ g₀ ∈ w.interest, g₀.fd = g.fd ∧ g₀.ctx = g.ctx) ∨
      (g.ctx = i ∧ g.fd ∈ c'.fds))
    (hbatch : w'.batch = w.batch) : Ledger w' := by
  obtain ⟨free, hfree⟩ := h.free
  have harr : w'.pool.arr = w.pool.arr.set i c' := by rw [hpool]
  have hfds : w'.fds i = c'.fds := Worker.fds_set_self harr (hfree.lt hi)
  -- what has belonged to a context goes on belonging to it
  have hkeep : ∀ fd j, w.owner fd = some j → w'.owner fd = some j := by
    intro fd j hj
    by_cases hji : j = i
    · subst hji
      exact (hself fd).mpr (hsub fd ((h.owner fd j).mp hj).2)
    · exact (hother fd j hji).mpr hj
  refine ⟨⟨free, ?_⟩, ?_, ?_, ?_, ?_⟩
  · rw [hpool, hinUse]
    exact hfree.set hi c'
  · intro fd j
    rw [hinUse]
    by_cases hji : j = i
    · subst hji
      rw [hself, hfds]
      exact (and_iff_right hi).symm
    · rw [hother fd j hji, Worker.fds_set_of_ne harr hji]
      exact h.owner fd j
  · intro j hj
    by_cases hji : j = i
    · subst hji
      rwa [hfds]
    · rw [Worker.fds_set_of_ne harr hji]
      exact h.nodup j (hinUse ▸ hj)
  · intro g hg
    obtain ⟨g₀, hg₀, hfd, hctx⟩ | ⟨hctx, hfd⟩ := hinterest g hg
    · rw [← hfd, ← hctx]
      exact hkeep _ _ (h.interest g₀ hg₀)
    · rw [hctx]
      exact (hself _).mpr hfd
  · intro ev hev
    exact hkeep _ _ (h.batch ev (hbatch ▸ hev))

/-- A context gets new contents, with the same descriptors. -/
theorem Ledger.replace (h : Ledger w) (hi : i ∈ w.inUse) (hc : w.pool.arr[i]? = some c)
    (c' : ConnContext) (hfds : c'.fds = c.fds) : Ledger (w.setContext i c') := by
  have hsame : w.fds i = c'.fds := (Worker.fds_eq hc).trans hfds.symm
  refine h.set hi rfl rfl ?_ ?_ ?_ (fun _ _ _ => Iff.rfl) (fun g hg => .inl ⟨g, hg, rfl, rfl⟩) rfl
  · rw [hsame]
    exact fun _ => id
  · rw [← hsame]
    exact h.nodup i hi
  · intro fd
    rw [← hsame]
    exact (h.owner fd i).trans (and_iff_right hi)

/-- A descriptor is watched for the context that it is open for. -/
theorem Ledger.add (h : Ledger w) (howner : w.owner fd = some i) (mask : BitVec 32) :
    Ledger (w.op i (.add fd mask)) where
  free := h.free
  owner := h.owner
  nodup := h.nodup
  interest g hg := by
    obtain hg | hg := List.mem_append.mp hg
    · exact h.interest g hg
    · rwa [List.mem_singleton.mp hg]
  batch := h.batch

/-! ## Closing -/

/-- A descriptor that is closed need not be taken from `epoll` before. -/
theorem Worker.del_close (w : Worker) (i : ℕ) (fd : ℤ) : (w.del fd).close i fd = w.close i fd := by
  simp only [Worker.close, Worker.del, List.filter_filter, Bool.and_self]
  rfl

theorem processClose_eq (w : Worker) (i : ℕ) (c : ConnContext) :
    processClose w i c = c.fds.foldl (fun w fd => w.close i fd) w := by
  have hdel : ∀ (b : Bool) (w : Worker) (fd : ℤ),
      (if b then w.del fd else w).close i fd = w.close i fd := by
    intro b w fd
    cases b
    · rfl
    · exact w.del_close i fd
  unfold processClose ConnContext.fds
  simp only [hdel]
  split <;> rfl

/-- What comes of closing descriptors that are open for a context. -/
structure Closed (w : Worker) (fds : List ℤ) (w' : Worker) : Prop where
  pool : w'.pool = w.pool
  batch : w'.batch = w.batch
  inUse : w'.inUse = w.inUse
  faults : w'.faults = w.faults
  owner : ∀ x, w'.owner x = if x ∈ fds then none else w.owner x
  interest : ∀ g ∈ w'.interest, g ∈ w.interest ∧ g.fd ∉ fds

theorem closed_foldl {fds : List ℤ} (hnodup : fds.Nodup) (hfds : ∀ fd ∈ fds, w.owner fd = some i) :
    Closed w fds (fds.foldl (fun w fd => w.close i fd) w) := by
  induction fds generalizing w with
  | nil => exact ⟨rfl, rfl, rfl, rfl, fun x => rfl, fun g hg => ⟨hg, List.not_mem_nil⟩⟩
  | cons fd fds ih =>
    obtain ⟨hfd, hrest⟩ := List.nodup_cons.mp hnodup
    have howner : ∀ x, (w.close i fd).owner x = if x = fd then none else w.owner x :=
      fun x => Function.update_apply ..
    have hclosed := ih hrest (w := w.close i fd) fun x hx => by
      have hne : x ≠ fd := ne_of_mem_of_not_mem hx hfd
      rw [howner, if_neg hne]
      exact hfds x (List.mem_cons_of_mem _ hx)
    refine ⟨hclosed.pool, hclosed.batch, hclosed.inUse, hclosed.faults.trans ?_, ?_, ?_⟩
    · exact if_pos (hfds fd List.mem_cons_self)
    · intro x
      rw [List.foldl_cons, hclosed.owner, howner]
      by_cases hx : x = fd <;> simp [hx]
    · intro g hg
      obtain ⟨hmem, hnot⟩ := hclosed.interest g hg
      obtain ⟨hmem', hne⟩ := List.mem_filter.mp hmem
      simp only [decide_eq_true_eq] at hne
      exact ⟨hmem', fun hin => (List.mem_cons.mp hin).elim hne hnot⟩

/-- A context is given back, with its descriptors closed, when no event for it is left. -/
theorem Ledger.release (h : Ledger w) (hi : i ∈ w.inUse) (hc : w.pool.arr[i]? = some c)
    (hbatch : ∀ ev ∈ w.batch, ev.ctx ≠ i) :
    ∃ w', (processClose w i c).free i = some w' ∧ Ledger w' ∧ w'.faults = w.faults ∧
      w'.inUse = w.inUse.erase i ∧
      ∀ j ≠ i, w'.pool.arr[j]? = w.pool.arr[j]? := by
  obtain ⟨free, hfree⟩ := h.free
  have hown : ∀ fd ∈ c.fds, w.owner fd = some i := fun fd hfd =>
    (h.owner fd i).mpr ⟨hi, by rwa [Worker.fds_eq hc]⟩
  have hclosed := closed_foldl (Worker.fds_eq hc ▸ h.nodup i hi) hown
  rw [← processClose_eq] at hclosed
  obtain ⟨c', hc', hgive, hfree'⟩ := hfree.give hi
  have hstep : (processClose w i c).free i = some { processClose w i c with
      pool := { w.pool with
        allocated := w.pool.allocated - 1
        nextIdx := i
        arr := w.pool.arr.set i { c' with nextIdx := w.pool.nextIdx } }
      inUse := w.inUse.erase i
      faults := w.faults } := by
    rw [Worker.free, hclosed.pool, hgive, hclosed.inUse, if_pos hi, hclosed.faults]
    rfl
  have herase : ∀ j, j ∈ w.inUse.erase i ↔ j ≠ i ∧ j ∈ w.inUse := fun j =>
    (hfree.nodup.of_append_right.of_map _).mem_erase_iff
  have hother : ∀ fd j, j ≠ i → w.owner fd = some j → fd ∉ c.fds := fun fd j hj howner hfd =>
    hj (Option.some.inj (howner.symm.trans (hown fd hfd)))
  refine ⟨_, hstep, ⟨⟨_, hfree'⟩, fun fd j => ?_, fun j hj => ?_, fun g hg => ?_, fun ev hev => ?_⟩,
    rfl, rfl, fun j hj => List.getElem?_set_ne hj.symm⟩
  · change (processClose w i c).owner fd = some j ↔ j ∈ w.inUse.erase i ∧ _
    rw [hclosed.owner, herase]
    by_cases hj : j = i
    · subst hj
      have hnone : (if fd ∈ c.fds then none else w.owner fd) ≠ some j := by
        split
        · simp
        · next hfd => exact fun howner => hfd (Worker.fds_eq hc ▸ ((h.owner fd j).mp howner).2)
      exact iff_of_false hnone fun hin => hin.1.1 rfl
    · rw [and_iff_right hj, Worker.fds_set_of_ne rfl hj, ← h.owner fd j]
      split
      · next hfd => exact iff_of_false (by simp) fun howner => hother fd j hj howner hfd
      · rfl
  · obtain ⟨hji, hj⟩ := (herase j).mp hj
    rw [Worker.fds_set_of_ne rfl hji]
    exact h.nodup j hj
  · obtain ⟨hmem, hnot⟩ := hclosed.interest g hg
    exact (hclosed.owner g.fd).trans ((if_neg hnot).trans (h.interest g hmem))
  · have hev' : ev ∈ w.batch := hclosed.batch ▸ hev
    have howner := h.batch ev hev'
    have hnot := hother ev.fd ev.ctx (hbatch ev hev') howner
    exact (hclosed.owner ev.fd).trans ((if_neg hnot).trans howner)

/-! ## Taking a context -/

/-- What comes of taking a context for a descriptor. -/
structure Taken (w : Worker) (fd : ℤ) (i : ℕ) (c : ConnContext) (w' : Worker) : Prop where
  fresh : i ∉ w.inUse
  endFd : c.endFd = 0
  self : w'.pool.arr[i]? = some c
  other : ∀ j ≠ i, w'.pool.arr[j]? = w.pool.arr[j]?
  inUse : w'.inUse = i :: w.inUse
  owner : w'.owner = Function.update w.owner fd (some i)
  interest : w'.interest = w.interest
  batch : w'.batch = w.batch
  faults : w'.faults = w.faults
  free : ∃ free, FreeList w'.pool w'.inUse free

theorem Ledger.taken (h : Ledger w) (htake : w.take fd = some (i, c, w')) : Taken w fd i c w' := by
  obtain ⟨free, hfree⟩ := h.free
  unfold Worker.take at htake
  simp only [Option.bind_eq_bind, Option.bind_eq_some_iff] at htake
  obtain ⟨⟨i', pool'⟩, halloc, c', hc', heq⟩ := htake
  have hroom : w.pool.allocated < w.pool.total := by
    by_contra hfull
    rw [allocContext, if_neg hfull] at halloc
    exact absurd halloc (by simp)
  obtain ⟨i₀, c₀, rest, hcons, hc₀, halloc', hfree'⟩ := hfree.alloc hroom
  obtain ⟨rfl, rfl⟩ := Prod.mk.inj (Option.some.inj (halloc'.symm.trans halloc))
  simp only [Option.some.injEq, Prod.mk.injEq] at heq
  obtain ⟨rfl, rfl, rfl⟩ := heq
  have hlt : i₀ < w.pool.arr.length := (List.getElem?_eq_some_iff.mp hc₀).1
  have hreset : c' = c₀.reset := by
    rw [List.getElem?_set_self hlt] at hc'
    exact (Option.some.inj hc').symm
  refine ⟨fun hin => ?_, ?_, hc', fun j hj => List.getElem?_set_ne hj.symm, rfl, rfl, rfl, rfl, rfl,
    ⟨rest, hfree'⟩⟩
  · exact hfree.notMem hin (hcons ▸ List.mem_cons_self)
  · rw [hreset]
    rfl

/-- A context that has been taken for a descriptor that has not been open gets its contents. -/
theorem Taken.ledger (h : Ledger w) (hw' : Taken w fd i c w') (hfd : w.owner fd = none)
    (hc' : c'.fds = [fd]) : Ledger (w'.setContext i c') := by
  obtain ⟨free, hfree⟩ := hw'.free
  have hi : i ∈ w'.inUse := by rw [hw'.inUse]; exact List.mem_cons_self
  have hself : (w'.setContext i c').fds i = [fd] :=
    (Worker.fds_set_self rfl (hfree.lt hi)).trans hc'
  have hother : ∀ j ≠ i, (w'.setContext i c').fds j = w.fds j := by
    intro j hj
    rw [Worker.fds_set_of_ne rfl hj, Worker.fds, Worker.fds, hw'.other j hj]
  have howner : ∀ x, (w'.setContext i c').owner x = if x = fd then some i else w.owner x := by
    intro x
    exact (congrFun hw'.owner x).trans (Function.update_apply ..)
  -- what has belonged to a context goes on belonging to it
  have hkeep : ∀ x j, w.owner x = some j → (w'.setContext i c').owner x = some j := by
    intro x j hj
    have hne : x ≠ fd := fun heq => by simp [heq, hfd] at hj
    rw [howner, if_neg hne, hj]
  refine ⟨⟨free, hfree.set hi c'⟩, ?_, ?_, ?_, ?_⟩
  · intro x j
    change _ ↔ j ∈ w'.inUse ∧ _
    rw [howner, hw'.inUse, List.mem_cons]
    by_cases hj : j = i
    · subst hj
      rw [hself, List.mem_singleton, and_iff_right (.inl rfl)]
      have hnone : w.owner x ≠ some j := fun hx => hw'.fresh ((h.owner x j).mp hx).1
      split <;> simp [*]
    · rw [hother j hj, or_iff_right hj, ← h.owner x j]
      split
      · next heq => exact iff_of_false (by simp [Ne.symm hj]) (by simp [heq, hfd])
      · rfl
  · intro j hj
    by_cases hji : j = i
    · rw [hji, hself]
      exact List.nodup_singleton fd
    · rw [hother j hji]
      exact h.nodup j ((List.mem_cons.mp (hw'.inUse ▸ hj)).resolve_left hji)
  · intro g hg
    exact hkeep _ _ (h.interest g (hw'.interest ▸ hg))
  · intro ev hev
    exact hkeep _ _ (h.batch ev (hw'.batch ▸ hev))

/-! ## The operations of a handler -/

/-- What operations on behalf of a context do. -/
structure Done (w : Worker) (i : ℕ) (ops : List Op) (w' : Worker) : Prop where
  pool : w'.pool = w.pool
  batch : w'.batch = w.batch
  inUse : w'.inUse = w.inUse
  faults : w'.faults = w.faults
  owner : w'.owner =
    (ops.filterMap Op.opens).foldl (fun o fd => Function.update o fd (some i)) w.owner
  interest : ∀ g ∈ w'.interest, (∃ g₀ ∈ w.interest, g₀.fd = g.fd ∧ g₀.ctx = g.ctx) ∨
    (g.ctx = i ∧ g.fd ∈ ops.filterMap Op.watches)

theorem done_op (w : Worker) (i : ℕ) (o : Op) : Done w i [o] (w.op i o) := by
  cases o with
  | add fd mask =>
    refine ⟨rfl, rfl, rfl, rfl, rfl, ?_⟩
    intro g hg
    obtain hg | hg := List.mem_append.mp hg
    · exact .inl ⟨g, hg, rfl, rfl⟩
    · obtain rfl := List.mem_singleton.mp hg
      exact .inr ⟨rfl, List.mem_singleton_self fd⟩
  | mod fd mask =>
    refine ⟨rfl, rfl, rfl, rfl, rfl, ?_⟩
    intro g hg
    obtain ⟨g₀, hg₀, rfl⟩ := List.mem_map.mp hg
    split
    · exact .inr ⟨rfl, List.mem_singleton_self fd⟩
    · exact .inl ⟨g₀, hg₀, rfl, rfl⟩
  | opened fd => exact ⟨rfl, rfl, rfl, rfl, rfl, fun g hg => .inl ⟨g, hg, rfl, rfl⟩⟩
  | received fd data => exact ⟨rfl, rfl, rfl, rfl, rfl, fun g hg => .inl ⟨g, hg, rfl, rfl⟩⟩
  | sent fd data => exact ⟨rfl, rfl, rfl, rfl, rfl, fun g hg => .inl ⟨g, hg, rfl, rfl⟩⟩
  | connecting fd addr => exact ⟨rfl, rfl, rfl, rfl, rfl, fun g hg => .inl ⟨g, hg, rfl, rfl⟩⟩

theorem Done.trans {ops ops' : List Op} {w₁ w₂ : Worker} (h : Done w i ops w₁)
    (h' : Done w₁ i ops' w₂) : Done w i (ops ++ ops') w₂ where
  pool := h'.pool.trans h.pool
  batch := h'.batch.trans h.batch
  inUse := h'.inUse.trans h.inUse
  faults := h'.faults.trans h.faults
  owner := by rw [h'.owner, h.owner, List.filterMap_append, List.foldl_append]
  interest g hg := by
    rw [List.filterMap_append, List.mem_append]
    obtain ⟨g₁, hg₁, hfd, hctx⟩ | ⟨hctx, hfd⟩ := h'.interest g hg
    · rw [← hfd, ← hctx]
      exact (h.interest g₁ hg₁).imp_right fun h₁ => ⟨h₁.1, .inl h₁.2⟩
    · exact .inr ⟨hctx, .inr hfd⟩

theorem done_foldl (w : Worker) (i : ℕ) (ops : List Op) :
    Done w i ops (ops.foldl (Worker.op i) w) := by
  induction ops generalizing w with
  | nil => exact ⟨rfl, rfl, rfl, rfl, rfl, fun g hg => .inl ⟨g, hg, rfl, rfl⟩⟩
  | cons o ops ih => exact (done_op w i o).trans (ih (w.op i o))

theorem Worker.after_pool (w : Worker) (i : ℕ) (d : Call) :
    (w.after i d).pool = { w.pool with arr := w.pool.arr.set i d.ctx } :=
  congrArg (fun pool : ContextPool => { pool with arr := pool.arr.set i d.ctx })
    (done_foldl w i d.ops).pool

theorem Worker.after_inUse (w : Worker) (i : ℕ) (d : Call) : (w.after i d).inUse = w.inUse :=
  (done_foldl w i d.ops).inUse

theorem Worker.after_batch (w : Worker) (i : ℕ) (d : Call) : (w.after i d).batch = w.batch :=
  (done_foldl w i d.ops).batch

theorem Worker.after_faults (w : Worker) (i : ℕ) (d : Call) : (w.after i d).faults = w.faults :=
  (done_foldl w i d.ops).faults

theorem Worker.after_owner (w : Worker) (i : ℕ) (d : Call) : (w.after i d).owner =
    (d.ops.filterMap Op.opens).foldl (fun o fd => Function.update o fd (some i)) w.owner :=
  (done_foldl w i d.ops).owner

variable {d d' : Call}

/-- What `epoll` is told of is a descriptor of the context. -/
theorem Frame.mem_fds (h : Frame d r d') (hfits : Fits d.ctx) (hzero : Opens d.ctx r → r.socket ≠ 0)
    (hfd : fd ∈ d'.ops.filterMap Op.watches) : fd ∈ d'.ctx.fds := by
  rw [ConnContext.mem_fds]
  refine (h.watches fd hfd).imp Eq.symm fun ⟨hend', hsingle⟩ => ⟨?_, hend'.symm⟩
  obtain ⟨hopens, hend⟩ | ⟨hwhy, hopens, hend⟩ := h.endFd
  · rw [hend]
    exact fun hnone => absurd (hsingle (hfits.mpr hnone)) (by simp [hopens])
  · rw [hend]
    exact hzero hwhy

/-- A handler that has opened nothing. -/
theorem Ledger.after_same (h : Ledger w) (hi : i ∈ w.inUse) (hd : w.pool.arr[i]? = some d.ctx)
    (hopens : d'.ops.filterMap Op.opens = []) (hfds : d'.ctx.fds = d.ctx.fds)
    (hwatches : ∀ fd ∈ d'.ops.filterMap Op.watches, fd ∈ d'.ctx.fds) : Ledger (w.after i d') := by
  have howner : (w.after i d').owner = w.owner := by
    rw [Worker.after_owner, hopens]
    rfl
  have hsame : w.fds i = d'.ctx.fds := (Worker.fds_eq hd).trans hfds.symm
  refine h.set hi (w.after_pool i d') (w.after_inUse i d') ?_ ?_ ?_ ?_ ?_ (w.after_batch i d')
  · rw [hsame]
    exact fun _ => id
  · rw [← hsame]
    exact h.nodup i hi
  · intro fd
    rw [howner, h.owner, hsame]
    exact and_iff_right hi
  · rw [howner]
    exact fun _ _ _ => Iff.rfl
  · exact fun g hg => ((done_foldl w i d'.ops).interest g hg).imp_right fun hin =>
      ⟨hin.1, hwatches _ hin.2⟩

/-- A handler that has opened a descriptor for a context that had one. -/
theorem Ledger.after_opened {x : ℤ} (h : Ledger w) (hi : i ∈ w.inUse)
    (hd : w.pool.arr[i]? = some d.ctx) (hone : d.ctx.fds = [d.ctx.fd])
    (hnone : w.owner x = none) (hopens : d'.ops.filterMap Op.opens = [x])
    (htwo : d'.ctx.fds = [d.ctx.fd, x])
    (hwatches : ∀ fd ∈ d'.ops.filterMap Op.watches, fd ∈ d'.ctx.fds) : Ledger (w.after i d') := by
  have hfds : w.fds i = [d.ctx.fd] := (Worker.fds_eq hd).trans hone
  have hself : ∀ fd, w.owner fd = some i ↔ fd = d.ctx.fd := fun fd => by
    rw [h.owner, hfds, and_iff_right hi, List.mem_singleton]
  have howner : ∀ fd, (w.after i d').owner fd = if fd = x then some i else w.owner fd := by
    intro fd
    rw [Worker.after_owner, hopens]
    exact Function.update_apply ..
  refine h.set hi (w.after_pool i d') (w.after_inUse i d') ?_ ?_ ?_ ?_ ?_ (w.after_batch i d')
  · rw [hfds, htwo]
    exact fun fd hfd => List.mem_cons.mpr (.inl (List.mem_singleton.mp hfd))
  · rw [htwo]
    refine List.nodup_cons.mpr ⟨?_, List.nodup_singleton _⟩
    intro hin
    have hx := (hself x).mpr (List.mem_singleton.mp hin).symm
    exact absurd (hnone.symm.trans hx) (by simp)
  · intro fd
    rw [howner, htwo]
    split
    · next heq => simp [heq]
    · next hne => simp [hself, hne]
  · intro fd j hj
    rw [howner]
    split
    · next heq => exact iff_of_false (by simp [Ne.symm hj]) (by simp [heq, hnone])
    · rfl
  · exact fun g hg => ((done_foldl w i d'.ops).interest g hg).imp_right fun hin =>
      ⟨hin.1, hwatches _ hin.2⟩

/-- Wherever a handler ends, its context holds what is open for it. -/
theorem Ledger.after (h : Ledger w) (hi : i ∈ w.inUse) (hd : w.pool.arr[i]? = some d.ctx)
    (hfits : Fits d.ctx) (hframe : Frame d r d')
    (hfresh : 0 ≤ r.socket → w.owner r.socket = none) (hzero : Opens d.ctx r → r.socket ≠ 0) :
    Ledger (w.after i d') := by
  have hwatches := fun fd (hfd : fd ∈ d'.ops.filterMap Op.watches) => hframe.mem_fds hfits hzero hfd
  obtain ⟨hopens, hend⟩ | ⟨hwhy, hopens, hend⟩ := hframe.endFd
  · have hfds : d'.ctx.fds = d.ctx.fds := by rw [ConnContext.fds, ConnContext.fds, hend, hframe.fd]
    exact h.after_same hi hd hopens hfds hwatches
  · have hone : d.ctx.fds = [d.ctx.fd] := if_pos (hfits.mp (by rw [hwhy.1]; rfl))
    have htwo : d'.ctx.fds = [d.ctx.fd, r.socket] := by
      rw [ConnContext.fds, hend, if_neg (hzero hwhy), hframe.fd]
    exact h.after_opened hi hd hone (hfresh hwhy.2.2.2.2) hopens htwo hwatches

end MultProcess
end CModel
