import CModel.MultProcess.Sound
import Mathlib.Data.List.Perm.Subperm

/-!
# The pool of a web server

Without a proxy each context that is in use has one descriptor, and a process can have no more
descriptors open than its pool has contexts.

* `WebContext`, `Serving`: which handlers there are, and that the listeners go on listening.
* `serving_accept`, `serving_handled`: what `process_accept` and the two handlers keep, and that they
  get as far as their end.
* `Web`: a worker of a web server, at any time.
* `Worker.clients`: the sockets of the clients.
* `pool_never_dry`: **the contexts in use are those of the listeners and one for each client, so that
  neither assertion of `context.c` fails.**
-/

namespace CModel
namespace MultProcess

variable {g : Globals} {ok : ℤ → Prop} {la : List ℤ} {w w' : Worker} {i : ℕ}
  {c c' : ConnContext} {fd : ℤ} {r : Results} {ev : Event} {d : Call} {listenCtx : ConnContext}

/-- A context of a web server is one of a listener, or one of a client; `ok` is what is known of
the descriptors. -/
def WebContext (g : Globals) (ok : ℤ → Prop) (c : ConnContext) : Prop :=
  ok c.fd ∧ ((c.handler = .processAccept ∧ c.fd ∈ g.la ∧ c.enableProxy = false) ∨
    ((c.handler = .processRead ∨ c.handler = .processWrite) ∧ c.fd ∉ g.la))

/-- The contexts in use are those of a web server, and the listeners `la` have one. -/
structure Serving (g : Globals) (ok : ℤ → Prop) (la : List ℤ) (w : Worker) : Prop where
  contexts : ∀ i ∈ w.inUse, ∀ c, w.pool.arr[i]? = some c → WebContext g ok c
  listeners : ∀ fd ∈ la, ∃ i ∈ w.inUse, ∃ c, w.pool.arr[i]? = some c ∧
    c.handler = .processAccept ∧ c.fd = fd

/-- A context is left alone, or fits; one of a listener stays. -/
theorem Serving.of_contexts (h : Serving g ok la w)
    (hnew : ∀ i ∈ w'.inUse, ∀ c, w'.pool.arr[i]? = some c →
      (i ∈ w.inUse ∧ w.pool.arr[i]? = some c) ∨ WebContext g ok c)
    (hold : ∀ i ∈ w.inUse, ∀ c, w.pool.arr[i]? = some c → c.handler = .processAccept →
      i ∈ w'.inUse ∧ ∃ c', w'.pool.arr[i]? = some c' ∧ c'.handler = .processAccept ∧
        c'.fd = c.fd) : Serving g ok la w' where
  contexts i hi c hc := (hnew i hi c hc).elim (fun h' => h.contexts i h'.1 c h'.2) id
  listeners fd hfd := by
    obtain ⟨i, hi, c, hc, hhandler, rfl⟩ := h.listeners fd hfd
    obtain ⟨hi', c', hc', hhandler', hfd'⟩ := hold i hi c hc hhandler
    exact ⟨i, hi', c', hc', hhandler', hfd'⟩

/-- A context gets new contents. -/
theorem Serving.set (h : Serving g ok la w) (hc : w.pool.arr[i]? = some c)
    (hinUse : w'.inUse = w.inUse) (hself : w'.pool.arr[i]? = some c')
    (hother : ∀ j ≠ i, w'.pool.arr[j]? = w.pool.arr[j]?) (hweb : WebContext g ok c')
    (hlistens : c.handler = .processAccept → c'.handler = .processAccept ∧ c'.fd = c.fd) :
    Serving g ok la w' := by
  refine h.of_contexts ?_ (fun j hj d hd hhandler => ⟨hinUse ▸ hj, ?_⟩)
  · intro j hj d hd
    by_cases hji : j = i
    · rw [hji, hself] at hd
      exact .inr (Option.some.inj hd ▸ hweb)
    · exact .inl ⟨hinUse ▸ hj, hother j hji ▸ hd⟩
  · by_cases hji : j = i
    · rw [hji, hc] at hd
      obtain rfl := Option.some.inj hd
      exact ⟨c', hji ▸ hself, hlistens hhandler⟩
    · exact ⟨d, (hother j hji).trans hd, hhandler, rfl⟩

/-- The context of a client is given back. -/
theorem Serving.release (h : Serving g ok la w) (hnodup : w.inUse.Nodup)
    (hc : w.pool.arr[i]? = some c) (hhandler : c.handler ≠ .processAccept)
    (hinUse : w'.inUse = w.inUse.erase i) (hother : ∀ j ≠ i, w'.pool.arr[j]? = w.pool.arr[j]?) :
    Serving g ok la w' := by
  refine h.of_contexts (fun j hj d hd => .inl ?_) ?_
  · rw [hinUse, hnodup.mem_erase_iff] at hj
    exact ⟨hj.2, hother j hj.1 ▸ hd⟩
  · intro j hj d hd hlistens
    have hji : j ≠ i := by
      rintro rfl
      exact hhandler (Option.some.inj (hc.symm.trans hd) ▸ hlistens)
    refine ⟨?_, d, (hother j hji).trans hd, hlistens, rfl⟩
    rw [hinUse, hnodup.mem_erase_iff]
    exact ⟨hji, hj⟩

/-- What is not in use does not matter. -/
theorem Serving.congr (h : Serving g ok la w) (hinUse : w'.inUse = w.inUse)
    (hsame : ∀ j ∈ w.inUse, w'.pool.arr[j]? = w.pool.arr[j]?) : Serving g ok la w' := by
  refine h.of_contexts (fun j hj d hd => .inl ?_) ?_
  · rw [hinUse] at hj
    exact ⟨hj, hsame j hj ▸ hd⟩
  · intro j hj d hd hlistens
    exact ⟨hinUse ▸ hj, d, (hsame j hj).trans hd, hlistens, rfl⟩

/-- A context is taken for a client. -/
theorem Serving.take (h : Serving g ok la w) (hfresh : i ∉ w.inUse) (hinUse : w'.inUse = i :: w.inUse)
    (hself : w'.pool.arr[i]? = some c') (hother : ∀ j ≠ i, w'.pool.arr[j]? = w.pool.arr[j]?)
    (hweb : WebContext g ok c') : Serving g ok la w' := by
  refine h.of_contexts ?_ ?_
  · intro j hj d hd
    by_cases hji : j = i
    · rw [hji, hself] at hd
      exact .inr (Option.some.inj hd ▸ hweb)
    · exact .inl ⟨(List.mem_cons.mp (hinUse ▸ hj)).resolve_left hji, hother j hji ▸ hd⟩
  · intro j hj d hd hlistens
    have hji : j ≠ i := ne_of_mem_of_not_mem hj hfresh
    exact ⟨hinUse ▸ List.mem_cons_of_mem _ hj, d, (hother j hji).trans hd, hlistens, rfl⟩

/-- The descriptors of the listeners stay open. -/
theorem Serving.not_mem (h : Serving g ok la w) (hledger : Ledger w) (hfd : w.owner fd = none) :
    fd ∉ la := by
  intro hla
  obtain ⟨i, hi, c, hc, -, rfl⟩ := h.listeners fd hla
  have howner : w.owner c.fd = some i := by
    rw [hledger.owner, Worker.fds_eq hc, ConnContext.mem_fds]
    exact ⟨hi, .inl rfl⟩
  exact absurd (hfd.symm.trans howner) (by simp)

/-! ## Accepting -/

theorem processClose_keeps (w : Worker) (i : ℕ) (c : ConnContext) :
    (processClose w i c).batch = w.batch ∧ (processClose w i c).pool = w.pool := by
  rw [processClose_eq]
  induction c.fds generalizing w with
  | nil => exact ⟨rfl, rfl⟩
  | cons fd fds ih => exact ih (w.close i fd)

theorem free_keeps (hfree : w.free i = some w') :
    w'.batch = w.batch ∧ w'.pool.total = w.pool.total := by
  obtain ⟨pool, hpool, heq⟩ := Option.bind_eq_some_iff.mp hfree
  obtain rfl := Option.some.inj heq
  unfold freeContext at hpool
  split at hpool
  · obtain ⟨c, -, heq⟩ := Option.bind_eq_some_iff.mp hpool
    obtain rfl := Option.some.inj heq
    exact ⟨rfl, rfl⟩
  · exact absurd hpool (by simp)

/-- Giving a context back leaves the events that are to be handled, and the size of the pool. -/
theorem close_free_keeps (hfree : (processClose w i c).free i = some w') :
    w'.batch = w.batch ∧ w'.pool.total = w.pool.total := by
  obtain ⟨hbatch, hpool⟩ := processClose_keeps w i c
  obtain ⟨hbatch', htotal⟩ := free_keeps hfree
  exact ⟨hbatch'.trans hbatch, htotal.trans (congrArg ContextPool.total hpool)⟩

theorem take_total {x : ℕ × ConnContext × Worker} (htake : w.take fd = some x) :
    x.2.2.pool.total = w.pool.total := by
  unfold Worker.take at htake
  obtain ⟨⟨i, pool⟩, halloc, htake⟩ := Option.bind_eq_some_iff.mp htake
  obtain ⟨c, -, heq⟩ := Option.bind_eq_some_iff.mp htake
  obtain rfl := Option.some.inj heq
  unfold allocContext at halloc
  split at halloc
  · obtain ⟨c', -, heq⟩ := Option.bind_eq_some_iff.mp halloc
    obtain ⟨rfl, rfl⟩ := Prod.mk.inj (Option.some.inj heq)
    rfl
  · exact absurd halloc (by simp)

theorem Ledger.exists_context (h : Ledger w) (hi : i ∈ w.inUse) :
    ∃ c, w.pool.arr[i]? = some c := by
  obtain ⟨free, hlist⟩ := h.free
  exact ⟨_, List.getElem?_eq_getElem (hlist.lt hi)⟩

theorem Ledger.nodup_inUse (h : Ledger w) : w.inUse.Nodup := by
  obtain ⟨free, hlist⟩ := h.free
  exact hlist.nodup.of_append_right.of_map _

/-- A pool that is not dry has a context. -/
theorem Ledger.exists_take (h : Ledger w) (hroom : w.pool.allocated < w.pool.total) (fd : ℤ) :
    ∃ i c w', w.take fd = some (i, c, w') := by
  obtain ⟨free, hlist⟩ := h.free
  obtain ⟨i, c, rest, -, hc, halloc, -⟩ := hlist.alloc hroom
  have hlt : i < w.pool.arr.length := (List.getElem?_eq_some_iff.mp hc).1
  have hsome : (w.take fd).isSome := by
    simp [Worker.take, halloc, List.getElem?_set_self hlt]
  obtain ⟨x, hx⟩ := Option.isSome_iff_exists.mp hsome
  exact ⟨x.1, x.2.1, x.2.2, hx⟩

/-- A context that has been taken tells that the pool has not been dry. -/
theorem room_of_take {x : ℕ × ConnContext × Worker} (htake : w.take fd = some x) :
    w.pool.allocated < w.pool.total := by
  by_contra hfull
  simp [Worker.take, allocContext, hfull] at htake

theorem ConnContext.accepted_web (hproxy : listenCtx.enableProxy = false) (fd : ℤ) :
    (c.accepted listenCtx fd).handler = .processRead ∧ (c.accepted listenCtx fd).fd = fd := by
  simp [ConnContext.accepted, hproxy]

/-- `process_accept` of a web server, as long as the pool is not dry. -/
theorem serving_accept (h : Serving g ok g.la w) (hledger : Ledger w)
    (hproxy : listenCtx.enableProxy = false) (hok : 0 ≤ r.accept → ok r.accept)
    (hfresh : 0 ≤ r.accept → w.owner r.accept = none)
    (hroom : isHupErr listenCtx.events = false → 0 ≤ r.accept →
      w.pool.allocated < w.pool.total) :
    ∃ w', processAccept w listenCtx r = some w' ∧ Serving g ok g.la w' ∧ w'.batch = w.batch ∧
      w'.pool.total = w.pool.total := by
  unfold processAccept
  split
  · exact ⟨w, rfl, h, rfl, rfl⟩
  next hhup =>
  split
  · exact ⟨_, rfl, ⟨h.contexts, h.listeners⟩, rfl, rfl⟩
  next hneg =>
  have hpos : 0 ≤ r.accept := Int.not_lt.mp hneg
  have hfd := hfresh hpos
  obtain ⟨i, c, w₁, htake⟩ :=
    hledger.exists_take (hroom (by simpa using hhup) hpos) r.accept
  have htaken := hledger.taken htake
  have htotal : w₁.pool.total = w.pool.total := take_total htake
  obtain ⟨hhandler, hclient⟩ := ConnContext.accepted_web (c := c) hproxy r.accept
  have hlt : i < w₁.pool.arr.length := (List.getElem?_eq_some_iff.mp htaken.self).1
  have hi : i ∈ w₁.inUse := by
    rw [htaken.inUse]
    exact List.mem_cons_self
  have hother : ∀ c', ∀ j ≠ i, (w₁.pool.arr.set i c')[j]? = w.pool.arr[j]? := fun c' j hj =>
    (List.getElem?_set_ne (Ne.symm hj)).trans (htaken.other j hj)
  simp only [htake, Option.bind_eq_bind, Option.bind_some]
  split
  · -- the connection cannot be watched, and the pool is as before
    have hledger₁ := htaken.ledger hledger hfd (fds_accepted listenCtx r.accept htaken.endFd)
    have hbatch := hledger.batch_ne htaken.fresh
    rw [← htaken.batch] at hbatch
    obtain ⟨w', hfree, -, -, hinUse, hrest⟩ :=
      hledger₁.release hi (List.getElem?_set_self hlt) hbatch
    obtain ⟨hbatch', htotal'⟩ := close_free_keeps hfree
    refine ⟨w', hfree, h.congr ?_ ?_, hbatch'.trans htaken.batch, htotal'.trans htotal⟩
    · rw [hinUse]
      change w₁.inUse.erase i = w.inUse
      rw [htaken.inUse, List.erase_cons_head]
    · intro j hj
      have hji : j ≠ i := ne_of_mem_of_not_mem hj htaken.fresh
      exact (hrest j hji).trans (hother _ j hji)
  · refine ⟨_, rfl, h.take htaken.fresh htaken.inUse (List.getElem?_set_self ?_) (fun j hj => ?_)
      ⟨?_, .inr ⟨.inl hhandler, ?_⟩⟩, htaken.batch, htotal⟩
    · exact (List.length_set ..).symm ▸ hlt
    · exact (List.getElem?_set_ne (Ne.symm hj)).trans (hother _ j hj)
    · exact hclient.symm ▸ hok hpos
    · exact hclient.symm ▸ h.not_mem hledger hfd

/-- Where `process_accept` has taken a context, the pool has not been dry. -/
theorem accept_room (haccept : processAccept w listenCtx r = some w')
    (hhup : isHupErr listenCtx.events = false) (hpos : 0 ≤ r.accept) :
    w.pool.allocated < w.pool.total := by
  unfold processAccept at haccept
  rw [if_neg (by simp [hhup]), if_neg (Int.not_lt.mpr hpos)] at haccept
  obtain ⟨x, htake, -⟩ := Option.bind_eq_some_iff.mp haccept
  exact room_of_take htake

/-! ## The handlers of a client -/

/-- The handlers of a client end. -/
theorem handle_web (hweb : WebContext g ok d.ctx) (hhandler : d.ctx.handler ≠ .processAccept)
    (hops : d.ops = []) (hcounter : d.counter = none) :
    ∃ k next, handle d r = some k ∧ WebSpec d r next k ∧
      (next = .processRead ∨ next = .processWrite) := by
  obtain ⟨-, hlistens | ⟨hread | hwrite, -⟩⟩ := hweb
  · exact absurd hlistens.1 hhandler
  · exact ⟨_, .processWrite, by rw [handle, hread], readSpec ⟨hread, hops, hcounter⟩, .inr rfl⟩
  · exact ⟨_, .processRead, by rw [handle, hwrite], writeSpec ⟨hwrite, hops, hcounter⟩, .inl rfl⟩

/-- A context of a web server never opens a descriptor. -/
theorem WebContext.not_opens (hweb : WebContext g ok c) : ¬ Opens c r := by
  rintro ⟨hhandler, -⟩
  obtain ⟨-, hlistens | ⟨hread | hwrite, -⟩⟩ := hweb
  · exact absurd (hlistens.1.symm.trans hhandler) (by simp)
  · exact absurd (hread.symm.trans hhandler) (by simp)
  · exact absurd (hwrite.symm.trans hhandler) (by simp)

/-- The handler of a client, when no event is left for it. -/
theorem serving_handled (h : Serving g ok la w) (hkept : Kept w) (hi : i ∈ w.inUse)
    (hc : w.pool.arr[i]? = some d.ctx) (hhandler : d.ctx.handler ≠ .processAccept)
    (hops : d.ops = []) (hcounter : d.counter = none)
    (hsocket : 0 ≤ r.socket → w.owner r.socket = none) (hbatch : ∀ ev ∈ w.batch, ev.ctx ≠ i) :
    ∃ w', (handle d r).bind (w.into i) = some w' ∧ Serving g ok la w' ∧ w'.batch = w.batch ∧
      w'.pool.total = w.pool.total := by
  have hweb := h.contexts i hi d.ctx hc
  obtain ⟨k, next, hhandle, hspec, hnext⟩ := handle_web (r := r) hweb hhandler hops hcounter
  have hlt : i < w.pool.arr.length := (List.getElem?_eq_some_iff.mp hc).1
  have harr : ∀ d', (w.after i d').pool.arr = w.pool.arr.set i d'.ctx := fun d' => by
    rw [w.after_pool]
  have htotal : ∀ d', (w.after i d').pool.total = w.pool.total := fun d' => by rw [w.after_pool]
  have hself : ∀ d', (w.after i d').pool.arr[i]? = some d'.ctx := fun d' => by
    rw [harr, List.getElem?_set_self hlt]
  have hother : ∀ d', ∀ j ≠ i, (w.after i d').pool.arr[j]? = w.pool.arr[j]? := fun d' j hj => by
    rw [harr, List.getElem?_set_ne (Ne.symm hj)]
  rw [hhandle, Option.bind_some]
  cases hspec with
  | @closes d' frame why =>
    have hledger := hkept.ledger.after hi hc (hkept.fits i hi _ hc) frame hsocket
      fun hopens => absurd hopens hweb.not_opens
    obtain ⟨w', hfree, -, -, hinUse, hrest⟩ := hledger.release
      (w.after_inUse i d' ▸ hi) (hself d') (w.after_batch i d' ▸ hbatch)
    obtain ⟨hbatch', htotal'⟩ := close_free_keeps hfree
    refine ⟨w', hfree, h.release hkept.ledger.nodup_inUse hc hhandler ?_ ?_,
      hbatch'.trans (w.after_batch i d'), htotal'.trans (htotal d')⟩
    · rw [hinUse, w.after_inUse]
    · intro j hj
      exact (hrest j hj).trans (hother d' j hj)
  | @goes d' frame why handler =>
    refine ⟨w.after i d', rfl, h.set hc (w.after_inUse i d') (hself d') (hother d') ?_
      fun hlistens => absurd hlistens hhandler, w.after_batch i d', htotal d'⟩
    rw [WebContext, frame.fd, handler]
    obtain ⟨hok, hlistens | ⟨-, hclient⟩⟩ := hweb
    · exact absurd hlistens.1 hhandler
    · exact ⟨hok, .inr ⟨hnext, hclient⟩⟩

/-! ## The loop -/

/-- A worker of a web server whose pool has `n` contexts. -/
structure Web (g : Globals) (ok : ℤ → Prop) (n : ℤ) (w : Worker) : Prop where
  kept : Kept w
  serving : Serving g ok g.la w
  batch : (w.batch.map Event.fd).Nodup
  total : w.pool.total = n

variable {n : ℤ}

/-- A context of a web server has one descriptor. -/
theorem Serving.fds_eq (h : Serving g ok la w) (hkept : Kept w) (hi : i ∈ w.inUse)
    (hc : w.pool.arr[i]? = some c) : c.fds = [c.fd] := by
  have hsingle : c.handler.single = true := by
    obtain ⟨-, hlistens | ⟨hread | hwrite, -⟩⟩ := h.contexts i hi c hc
    · rw [hlistens.1]
      rfl
    · rw [hread]
      rfl
    · rw [hwrite]
      rfl
  exact if_pos ((hkept.fits i hi c hc).mp hsingle)

/-- No two events of a batch are for the same connection. -/
theorem Web.ctx_ne (h : Web g ok n w) {rest : List Event} (hbatch : w.batch = ev :: rest) :
    ∀ ev' ∈ rest, ev'.ctx ≠ ev.ctx := by
  intro ev' hev' heq
  have howner := h.kept.ledger.batch ev (hbatch ▸ List.mem_cons_self)
  have howner' := h.kept.ledger.batch ev' (hbatch ▸ List.mem_cons_of_mem _ hev')
  rw [h.kept.ledger.owner] at howner howner'
  rw [heq] at howner'
  obtain ⟨c, hc⟩ := h.kept.ledger.exists_context howner.1
  have hfds := h.serving.fds_eq h.kept howner.1 hc
  rw [Worker.fds_eq hc, hfds, List.mem_singleton] at howner howner'
  have hnodup := h.batch
  rw [hbatch, List.map_cons, List.nodup_cons] at hnodup
  exact hnodup.1 ((howner.2.trans howner'.2.symm) ▸ List.mem_map_of_mem hev')

/-- So nothing of a connection is left when it is closed. -/
theorem Web.separate (h : Web g ok n w) (e : WorkerEvent) : Separate w e := by
  cases e with
  | wait evts => trivial
  | call r =>
    intro ev rest c hbatch hc
    have howner := h.kept.ledger.batch ev (hbatch ▸ List.mem_cons_self)
    have hi := ((h.kept.ledger.owner _ _).mp howner).1
    have hweb : WebContext g ok { c with events := ev.events } := h.serving.contexts _ hi c hc
    exact ⟨fun _ => h.ctx_ne hbatch, fun hopens => absurd hopens hweb.not_opens⟩

/-- The next event is noted in its context. -/
theorem Web.noted (h : Web g ok n w) {rest : List Event} (hbatch : w.batch = ev :: rest)
    (hc : w.pool.arr[ev.ctx]? = some c) :
    Kept (w.noted ev rest c) ∧ Serving g ok g.la (w.noted ev rest c) := by
  have hlt : ev.ctx < w.pool.arr.length := (List.getElem?_eq_some_iff.mp hc).1
  obtain ⟨hi, hkept⟩ := h.kept.noted hbatch hc
  exact ⟨hkept, h.serving.set hc rfl (List.getElem?_set_self hlt)
    (fun j hj => List.getElem?_set_ne (Ne.symm hj)) (h.serving.contexts ev.ctx hi c hc)
    fun hlistens => ⟨hlistens, rfl⟩⟩

/-- The next event is handled, as long as the pool is not dry. -/
theorem Web.call (h : Web g ok n w) {rest : List Event} (hbatch : w.batch = ev :: rest)
    (he : w.Enabled (.call r)) (hok : 0 ≤ r.accept → ok r.accept)
    (hroom : ∀ c, w.pool.arr[ev.ctx]? = some c → c.handler = .processAccept →
      isHupErr ev.events = false → 0 ≤ r.accept → w.pool.allocated < w.pool.total) :
    ∃ w', w.step (.call r) = some w' ∧ Web g ok n w' := by
  obtain ⟨haccept, hsocket⟩ := id he
  have howner := h.kept.ledger.batch ev (hbatch ▸ List.mem_cons_self)
  obtain ⟨hi, -⟩ := (h.kept.ledger.owner _ _).mp howner
  obtain ⟨c, hc⟩ := h.kept.ledger.exists_context hi
  have hlt : ev.ctx < w.pool.arr.length := (List.getElem?_eq_some_iff.mp hc).1
  obtain ⟨hkept, hserving⟩ := h.noted hbatch hc
  have hnodup : (rest.map Event.fd).Nodup := by
    have hall := h.batch
    rw [hbatch, List.map_cons] at hall
    exact hall.of_cons
  obtain ⟨w', hstep, hserving', hbatch', htotal⟩ : ∃ w', w.step (.call r) = some w' ∧
      Serving g ok g.la w' ∧ w'.batch = rest ∧ w'.pool.total = w.pool.total := by
    rw [Worker.step_call hbatch hc]
    split
    · next hlistens =>
      obtain ⟨-, ⟨-, -, hproxy⟩ | ⟨hread | hwrite, -⟩⟩ := h.serving.contexts _ hi c hc
      · exact serving_accept hserving hkept.ledger hproxy hok haccept (hroom c hc hlistens)
      · exact absurd (hread.symm.trans hlistens) (by simp)
      · exact absurd (hwrite.symm.trans hlistens) (by simp)
    · next hclient =>
      exact serving_handled (d := ⟨{ c with events := ev.events }, w.last, [], none⟩) hserving
        hkept hi (List.getElem?_set_self hlt) hclient rfl rfl hsocket (h.ctx_ne hbatch)
  exact ⟨w', hstep, h.kept.step he (h.separate _) hstep, hserving', hbatch'.symm ▸ hnodup,
    htotal.trans h.total⟩

/-- Where an event of a listener has been handled, the pool has not been dry. -/
theorem call_room (hstep : w.step (.call r) = some w') {rest : List Event}
    (hbatch : w.batch = ev :: rest) (hc : w.pool.arr[ev.ctx]? = some c)
    (hlistens : c.handler = .processAccept) (hhup : isHupErr ev.events = false)
    (hpos : 0 ≤ r.accept) : w.pool.allocated < w.pool.total := by
  rw [Worker.step_call hbatch hc, if_pos hlistens] at hstep
  have hroom : (w.noted ev rest c).pool.allocated < (w.noted ev rest c).pool.total :=
    accept_room hstep hhup hpos
  exact hroom

/-- **One step of the loop.** -/
theorem Web.step {e : WorkerEvent} (h : Web g ok n w) (he : w.Enabled e)
    (hok : ∀ r, e = .call r → 0 ≤ r.accept → ok r.accept) (hstep : w.step e = some w') :
    Web g ok n w' := by
  cases e with
  | wait evts =>
    have hkept := h.kept.step he trivial hstep
    obtain rfl := Option.some.inj hstep
    exact ⟨hkept, ⟨h.serving.contexts, h.serving.listeners⟩, he.2.2.1, h.total⟩
  | call r =>
    cases hbatch : w.batch with
    | nil => exact absurd hstep (by simp [Worker.step, hbatch])
    | cons ev rest =>
      obtain ⟨w₁, hstep', hweb⟩ := h.call hbatch he (hok r rfl) fun c hc =>
        call_room hstep hbatch hc
      exact Option.some.inj (hstep'.symm.trans hstep) ▸ hweb

/-! ## How many contexts are in use -/

/-- The descriptors that are open for the contexts in use. -/
def Worker.sockets (w : Worker) : List ℤ := w.inUse.flatMap w.fds

/-- The sockets of the clients. -/
def Worker.clients (w : Worker) (g : Globals) : List ℤ := w.sockets.filter (· ∉ g.la)

theorem Ledger.mem_sockets (h : Ledger w) : fd ∈ w.sockets ↔ ∃ i ∈ w.inUse, w.owner fd = some i := by
  simp only [Worker.sockets, List.mem_flatMap, h.owner]
  exact exists_congr fun i => ⟨fun hin => ⟨hin.1, hin⟩, And.right⟩

theorem Ledger.nodup_sockets (h : Ledger w) : w.sockets.Nodup := by
  refine List.nodup_flatMap.mpr ⟨h.nodup, h.nodup_inUse.pairwise_of_forall_ne ?_⟩
  intro i hi j hj hij fd hfd hfd'
  have howner := (h.owner fd i).mpr ⟨hi, hfd⟩
  have howner' := (h.owner fd j).mpr ⟨hj, hfd'⟩
  exact hij (Option.some.inj (howner.symm.trans howner'))

theorem length_flatMap_one {l : List ℕ} {f : ℕ → List ℤ} (hone : ∀ i ∈ l, (f i).length = 1) :
    (l.flatMap f).length = l.length := by
  induction l with
  | nil => rfl
  | cons i l ih =>
    rw [List.flatMap_cons, List.length_append, hone i List.mem_cons_self,
      ih fun j hj => hone j (List.mem_cons_of_mem _ hj), List.length_cons, Nat.add_comm]

theorem Serving.length_sockets (h : Serving g ok la w) (hkept : Kept w) :
    w.pool.allocated = w.sockets.length := by
  obtain ⟨free, hlist⟩ := hkept.ledger.free
  rw [hlist.allocated, Worker.sockets, length_flatMap_one fun i hi => ?_]
  obtain ⟨c, hc⟩ := hkept.ledger.exists_context hi
  rw [Worker.fds_eq hc, h.fds_eq hkept hi hc]
  rfl

/-- What is known of the descriptors holds of all that are open. -/
theorem Serving.ok_of_mem (h : Serving g ok la w) (hkept : Kept w) (hfd : fd ∈ w.sockets) :
    ok fd := by
  obtain ⟨i, hi, hin⟩ := List.mem_flatMap.mp hfd
  obtain ⟨c, hc⟩ := hkept.ledger.exists_context hi
  rw [Worker.fds_eq hc, h.fds_eq hkept hi hc, List.mem_singleton] at hin
  exact hin ▸ (h.contexts i hi c hc).1

/-- The contexts in use are those of the listeners, and one for each client. -/
theorem Serving.allocated_eq (h : Serving g ok g.la w) (hkept : Kept w) (hla : g.la.Nodup) :
    w.pool.allocated = g.la.length + (w.clients g).length := by
  have hlisten : (w.sockets.filter (· ∈ g.la)).Perm g.la := by
    refine (List.perm_ext_iff_of_nodup (hkept.ledger.nodup_sockets.filter _) hla).mpr ?_
    intro fd
    rw [List.mem_filter, decide_eq_true_eq]
    refine ⟨And.right, fun hfd => ⟨?_, hfd⟩⟩
    obtain ⟨i, hi, c, hc, -, rfl⟩ := h.listeners fd hfd
    refine List.mem_flatMap.mpr ⟨i, hi, ?_⟩
    rw [Worker.fds_eq hc, ConnContext.mem_fds]
    exact .inl rfl
  have hsplit := List.length_eq_length_filter_add (l := w.sockets) (· ∈ g.la)
  rw [h.length_sockets hkept, hsplit, hlisten.length_eq]
  simp [Worker.clients]

/-- `RLIMIT_NOFILE`, as `init_server` sets it -/
def BelowLimit (fd : ℤ) : Prop := 0 ≤ fd ∧ fd < maxConnsPerWorker

theorem length_le_of_nodup {l : List ℤ} {m : ℕ} (hnodup : l.Nodup)
    (hl : ∀ x ∈ l, 0 ≤ x ∧ x < m) : l.length ≤ m := by
  have hsub : l ⊆ (List.range m).map Nat.cast := by
    intro x hx
    obtain ⟨hpos, hlt⟩ := hl x hx
    exact List.mem_map.mpr ⟨x.toNat, List.mem_range.mpr (by omega), Int.toNat_of_nonneg hpos⟩
  have hle := (List.subperm_of_subset hnodup hsub).length_le
  rwa [List.length_map, List.length_range] at hle

/-- With one more descriptor for which there is no context yet, the pool is not dry. -/
theorem Serving.room (h : Serving g BelowLimit la w) (hkept : Kept w)
    (hnone : w.owner fd = none) (hfd : BelowLimit fd) :
    w.pool.allocated < maxConnsPerWorker := by
  have hnot : fd ∉ w.sockets := by
    rw [hkept.ledger.mem_sockets]
    rintro ⟨i, -, howner⟩
    exact absurd (hnone.symm.trans howner) (by simp)
  have hle := length_le_of_nodup (m := maxConnsPerWorker)
    (List.nodup_cons.mpr ⟨hnot, hkept.ledger.nodup_sockets⟩)
    (List.forall_mem_cons.mpr ⟨hfd, fun x hx => h.ok_of_mem hkept hx⟩)
  rw [List.length_cons] at hle
  rw [h.length_sockets hkept]
  omega

/-! ## Runs -/

/-- A listener gets a context. -/
theorem Serving.listen (h : Serving g ok la w) (hkept : Kept w) (hproxy : g.enableProxy = false)
    (hroom : w.pool.allocated < w.pool.total) (hfd : fd ∈ g.la) (hok : ok fd) :
    ∃ w', w.listen g fd = some w' ∧ Serving g ok (la ++ [fd]) w' ∧ w'.batch = w.batch ∧
      w'.pool.total = w.pool.total := by
  obtain ⟨i, c, w₁, htake⟩ := hkept.ledger.exists_take hroom fd
  have htaken := hkept.ledger.taken htake
  have hlt : i < w₁.pool.arr.length := (List.getElem?_eq_some_iff.mp htaken.self).1
  let w' := (w₁.setContext i (c.listens g fd)).op i (.add fd inHupErr)
  have hself : w'.pool.arr[i]? = some (c.listens g fd) := List.getElem?_set_self hlt
  have hserving : Serving g ok la w' := h.take htaken.fresh htaken.inUse hself
    (fun j hj => (List.getElem?_set_ne (Ne.symm hj)).trans (htaken.other j hj))
    ⟨hok, .inl ⟨rfl, hfd, hproxy⟩⟩
  refine ⟨w', by rw [Worker.listen, htake]; rfl, ⟨hserving.contexts, ?_⟩,
    htaken.batch, take_total htake⟩
  intro x hx
  obtain hx | hx := List.mem_append.mp hx
  · exact hserving.listeners x hx
  · rw [List.mem_singleton.mp hx]
    exact ⟨i, htaken.inUse ▸ List.mem_cons_self, _, hself, rfl, rfl⟩

/-- All listeners get one. -/
theorem Serving.foldlM_listen {rest : List ℤ} (h : Serving g BelowLimit la w) (hkept : Kept w)
    (hproxy : g.enableProxy = false) (htotal : w.pool.total = maxConnsPerWorker)
    (hnodup : rest.Nodup) (hnone : ∀ fd ∈ rest, w.owner fd = none)
    (hfds : ∀ fd ∈ rest, fd ∈ g.la ∧ BelowLimit fd) :
    ∃ w', rest.foldlM (Worker.listen g) w = some w' ∧ Serving g BelowLimit (la ++ rest) w' ∧
      Kept w' ∧ w'.batch = w.batch ∧ w'.pool.total = w.pool.total := by
  induction rest generalizing w la with
  | nil => exact ⟨w, rfl, (List.append_nil la).symm ▸ h, hkept, rfl, rfl⟩
  | cons fd rest ih =>
    obtain ⟨hnot, hnodup'⟩ := List.nodup_cons.mp hnodup
    obtain ⟨hla, hbelow⟩ := hfds fd List.mem_cons_self
    have hnone' := hnone fd List.mem_cons_self
    obtain ⟨w₁, hlisten, hserving, hbatch, htotal'⟩ :=
      h.listen hkept hproxy (htotal ▸ h.room hkept hnone' hbelow) hla hbelow
    obtain ⟨hkept₁, howner⟩ := hkept.listen hnone' hlisten
    obtain ⟨w', hfold, hserving', hkept', hbatch', htotal''⟩ := ih hserving hkept₁
      (htotal'.trans htotal) hnodup'
      (fun x hx => howner x (ne_of_mem_of_not_mem hx hnot) (hnone x (List.mem_cons_of_mem _ hx)))
      (fun x hx => hfds x (List.mem_cons_of_mem _ hx))
    refine ⟨w', ?_, ?_, hkept', hbatch'.trans hbatch, htotal''.trans htotal'⟩
    · rw [List.foldlM_cons, hlisten]
      exact hfold
    · rwa [List.append_assoc] at hserving'

/-- The worker comes to its loop. -/
theorem web_processClientsInit {memory : List ConnContext} (hproxy : g.enableProxy = false)
    (hmemory : memory.length = maxConnsPerWorker) (hnodup : g.la.Nodup)
    (hla : ∀ fd ∈ g.la, BelowLimit fd) :
    ∃ w₀, processClientsInit g memory = some w₀ ∧ Web g BelowLimit maxConnsPerWorker w₀ := by
  obtain ⟨pool, hpool, htotal⟩ : ∃ pool, initPool memory = some pool ∧
      pool.total = maxConnsPerWorker := by
    refine ⟨_, if_neg (by rw [hmemory]; decide), ?_⟩
    exact congrArg Nat.cast hmemory
  have hkept := kept_init hpool
  have hempty : Serving g BelowLimit [] ⟨pool, 0, [], [], [], [], fun _ => none, []⟩ :=
    ⟨by simp, by simp⟩
  obtain ⟨w₀, hfold, hserving, hkept₀, hbatch, htotal₀⟩ := hempty.foldlM_listen hkept hproxy htotal
    hnodup (fun _ _ => rfl) (fun fd hfd => ⟨hfd, hla fd hfd⟩)
  refine ⟨w₀, ?_, hkept₀, hserving, ?_, htotal₀.trans htotal⟩
  · rw [processClientsInit, hpool]
    exact hfold
  · rw [hbatch]
    exact List.nodup_nil

/-- What is known of fewer descriptors is known of more. -/
theorem Web.mono {ok' : ℤ → Prop} (h : Web g ok n w) (hok : ∀ fd, ok fd → ok' fd) :
    Web g ok' n w :=
  ⟨h.kept, ⟨fun i hi c hc => (h.serving.contexts i hi c hc).imp (hok c.fd) id,
    h.serving.listeners⟩, h.batch, h.total⟩

/-- `accept` returns a descriptor below the limit. -/
def AcceptsBelow (_ : Worker) : WorkerEvent → Prop
  | .wait _ => True
  | .call r => 0 ≤ r.accept → BelowLimit r.accept

/-- A worker of a web server comes to its loop, and at any time later the contexts that are in use
are those of the listeners, and one for each socket of a client that is open for one of them.  As
long as `accept` returns descriptors below the limit, the pool is never dry when a connection has
been accepted, and the handling of an event is never broken off by an assertion. -/
theorem pool_never_dry {memory : List ConnContext} (hproxy : g.enableProxy = false)
    (hmemory : memory.length = maxConnsPerWorker) (hnodup : g.la.Nodup)
    (hla : ∀ fd ∈ g.la, BelowLimit fd) :
    ∃ w₀, processClientsInit g memory = some w₀ ∧
      (∀ w, worker.Runs w₀ w → (w.clients g).Nodup ∧
        (∀ fd, fd ∈ w.clients g ↔ fd ∉ g.la ∧ ∃ i ∈ w.inUse, w.owner fd = some i) ∧
        w.pool.allocated = g.la.length + (w.clients g).length) ∧
      ∀ w, (worker.only AcceptsBelow).Runs w₀ w → ∀ e, (worker.only AcceptsBelow).Enabled w e →
        (∀ r, e = .call r → 0 ≤ r.accept → w.pool.allocated < w.pool.total) ∧
        (w.step e = none → w.batch = []) := by
  obtain ⟨w₀, hinit, hweb₀⟩ := web_processClientsInit hproxy hmemory hnodup hla
  refine ⟨w₀, hinit, ?_, ?_⟩
  · intro w hruns
    have hweb : Web g (fun _ => True) maxConnsPerWorker w := by
      refine hruns.keep (hweb₀.mono fun _ _ => trivial) ?_
      exact fun ht he hstep => ht.step he (fun _ _ _ => trivial) hstep
    refine ⟨hweb.kept.ledger.nodup_sockets.filter _, ?_,
      hweb.serving.allocated_eq hweb.kept hnodup⟩
    intro fd
    rw [Worker.clients, List.mem_filter, decide_eq_true_eq, hweb.kept.ledger.mem_sockets]
    exact and_comm
  · intro w hruns e he
    have hweb : Web g BelowLimit maxConnsPerWorker w := by
      refine hruns.keep hweb₀ ?_
      rintro t t' e ht ⟨he, hbelow⟩ hstep
      exact ht.step he (fun r hr => by subst hr; exact hbelow) hstep
    obtain ⟨he, hbelow⟩ := he
    have hroom : ∀ r, e = .call r → 0 ≤ r.accept → w.pool.allocated < w.pool.total := by
      rintro r rfl hpos
      rw [hweb.total]
      exact hweb.serving.room hweb.kept (he.1 hpos) (hbelow hpos)
    refine ⟨hroom, fun hnone => ?_⟩
    cases e with
    | wait evts => exact absurd hnone (by simp [Worker.step])
    | call r =>
      cases hbatch : w.batch with
      | nil => rfl
      | cons ev rest =>
        obtain ⟨w', hstep, -⟩ := hweb.call hbatch he hbelow fun _ _ _ _ => hroom r rfl
        exact absurd (hnone.symm.trans hstep) (by simp)

/-- A web server that listens on descriptor 3. -/
def webThree : Globals := ⟨[3], [], false, 0, 4⟩

/-- The worker of this web server when it enters its loop. -/
def workerWeb : Worker :=
  { workerThree with pool := ⟨8192, 1, 1, ((default : ConnContext).reset.listens webThree 3) ::
    { (default : ConnContext) with nextIdx := 2 } :: otherContexts⟩ }

theorem processClientsInit_web :
    processClientsInit webThree (List.replicate maxConnsPerWorker default) = some workerWeb := by
  rw [processClientsInit, initPool_max]
  rfl

/-- A client is accepted on descriptor 5. -/
theorem pool_never_dry_three : ∃ w, worker.Runs workerWeb w ∧ w.clients webThree = [5] ∧
    w.pool.allocated = (1 : ℕ) + ([5] : List ℤ).length := by
  have hlen : (List.replicate maxConnsPerWorker (default : ConnContext)).length =
      maxConnsPerWorker := List.length_replicate
  obtain ⟨w₀, hinit, hcount, -⟩ := pool_never_dry (g := webThree) rfl hlen (List.nodup_singleton 3)
    (List.forall_mem_singleton.mpr ⟨by decide, by decide⟩)
  obtain rfl := Option.some.inj (processClientsInit_web.symm.trans hinit)
  have hruns : worker.Runs workerWeb _ :=
    .head (e := .wait [⟨3, 0, epollIn⟩]) ⟨rfl, by decide, by decide,
      List.forall_mem_singleton.mpr ⟨⟨3, 0, inHupErr⟩, .head _, rfl, rfl, by decide⟩⟩ rfl <|
    .head (e := .call fiveSix) ⟨fun _ => rfl, fun _ => rfl⟩ rfl .refl
  exact ⟨_, hruns, rfl, (hcount _ hruns).2.2⟩

end MultProcess
end CModel
