import CModel.MultProcess.Worker

/-!
# What the contexts of a worker are told

The context of a listener gets the core of the worker and, for a proxy, the list of back ends; a
connection gets both from its listener.  The handlers never change them, nor does a context lose them
when it is given back.

* `Agrees`: a context has what the globals of the worker say.
* `Agreed`: the contexts that can get an event do, and whatever has been counted has been counted for
  the core of the worker.
* `Agreed.step`, `agreed_runs`: this holds in every state of every run, also where a context is used
  that has been given back.
-/

namespace CModel
namespace MultProcess

/-! ## One context -/

/-- What a context has been told of the globals. -/
def ConnContext.settings (c : ConnContext) : ℤ × Bool × List ProxyAddr :=
  (c.cpuId, c.enableProxy, c.pa)

/-- The context has what the globals say; for the web server `enable_proxy` is not set. -/
structure Agrees (g : Globals) (c : ConnContext) : Prop where
  cpuId : c.cpuId = g.cpuId
  proxy : g.enableProxy = true → c.enableProxy = true ∧ c.pa = g.pa

/-- Where a handler ends, wherever that is. -/
def Handled.call : Handled → Call
  | .back c => c
  | .freeBack c => c

variable {g : Globals} {c c' listenCtx : ConnContext} {d : Call} {r : Results} {h : Handled}
  {w w' : Worker} {i j : ℕ} {fd : ℤ} {ev : Event} {e : WorkerEvent}

theorem Agrees.of_settings (hc : Agrees g c) (heq : c'.settings = c.settings) : Agrees g c' := by
  obtain ⟨hcpu, hproxy⟩ := Prod.mk.inj heq
  obtain ⟨henable, hpa⟩ := Prod.mk.inj hproxy
  exact ⟨hcpu.trans hc.cpuId, fun hg => ⟨henable.trans (hc.proxy hg).1, hpa.trans (hc.proxy hg).2⟩⟩

theorem agrees_listens (c : ConnContext) (g : Globals) (fd : ℤ) : Agrees g (c.listens g fd) :=
  ⟨rfl, fun hg => ⟨hg, by rw [ConnContext.listens, if_pos hg]⟩⟩

theorem Agrees.accepted (hl : Agrees g listenCtx) (c : ConnContext) (fd : ℤ) :
    Agrees g (c.accepted listenCtx fd) := by
  unfold ConnContext.accepted
  split
  · exact ⟨hl.cpuId, fun hg => ⟨rfl, (hl.proxy hg).2⟩⟩
  · next hnot => exact ⟨hl.cpuId, fun hg => absurd (hl.proxy hg).1 hnot⟩

theorem settings_processReadFrontend (hh : processReadFrontend d r = some h) :
    h.call.ctx.settings = d.ctx.settings := by
  unfold processReadFrontend at hh
  split at hh
  · exact Option.some.inj hh ▸ rfl
  split at hh
  · exact Option.some.inj hh ▸ rfl
  split at hh
  · exact Option.some.inj hh ▸ rfl
  split at hh
  · exact Option.some.inj hh ▸ rfl
  split at hh
  · exact Option.some.inj hh ▸ rfl
  simp only [Option.bind_eq_bind, Option.bind_eq_some_iff] at hh
  obtain ⟨⟨addr, last⟩, -, hh⟩ := hh
  simp only at hh
  split at hh
  · exact Option.some.inj hh ▸ rfl
  split at hh
  · exact Option.some.inj hh ▸ rfl
  · exact Option.some.inj hh ▸ rfl

/-- The other handlers leave the settings of their context alone, and the cursor of
`select_backend`. -/
theorem handle_other (hne : d.ctx.handler ≠ .processReadFrontend) (hh : handle d r = some h) :
    h.call.ctx.settings = d.ctx.settings ∧ h.call.last = d.last := by
  cases hhandler : d.ctx.handler <;> rw [handle, hhandler] at hh
  case processReadFrontend => exact absurd hhandler hne
  case processAccept => exact absurd hh (by simp)
  all_goals obtain rfl := Option.some.inj hh
  case processWriteBackend =>
    unfold processWriteBackend
    repeat' split
    all_goals exact ⟨rfl, rfl⟩
  case processReadBackend =>
    unfold processReadBackend
    repeat' split
    all_goals exact ⟨rfl, rfl⟩
  case processWriteFrontend =>
    unfold processWriteFrontend
    repeat' split
    all_goals exact ⟨rfl, rfl⟩
  case processRead =>
    unfold processRead
    repeat' split
    all_goals exact ⟨rfl, rfl⟩
  case processWrite =>
    unfold processWrite
    repeat' split
    all_goals exact ⟨rfl, rfl⟩

/-- A handler leaves the settings of its context alone. -/
theorem settings_handle (hh : handle d r = some h) : h.call.ctx.settings = d.ctx.settings := by
  by_cases hhandler : d.ctx.handler = .processReadFrontend
  · rw [handle, hhandler] at hh
    exact settings_processReadFrontend hh
  · exact (handle_other hhandler hh).1

/-! ## The worker -/

/-- A context of the pool that has what the globals say. -/
def Told (g : Globals) (w : Worker) (i : ℕ) : Prop := ∃ c, w.pool.arr[i]? = some c ∧ Agrees g c

/-- The contexts that can get an event have been told of the globals, and all that has been counted
has been counted for the core of the worker. -/
structure Agreed (g : Globals) (w : Worker) : Prop where
  interest : ∀ reg ∈ w.interest, Told g w reg.ctx
  batch : ∀ ev ∈ w.batch, Told g w ev.ctx
  counted : ∀ k ∈ w.counted, k.1 = g.cpuId

/-- A change of the pool after which every context that has been told of the globals still is. -/
theorem Agreed.of_told (hw : Agreed g w) (htold : ∀ i, Told g w i → Told g w' i)
    (hinterest : ∀ reg ∈ w'.interest, reg ∈ w.interest) (hbatch : w'.batch = w.batch)
    (hcounted : w'.counted = w.counted) : Agreed g w' where
  interest reg hreg := htold _ (hw.interest reg (hinterest reg hreg))
  batch ev hev := htold _ (hw.batch ev (hbatch ▸ hev))
  counted k hk := hw.counted k (hcounted ▸ hk)

theorem Told.set (hj : Told g w j) (harr : w'.pool.arr = w.pool.arr.set i c) (hc : Agrees g c) :
    Told g w' j := by
  obtain ⟨c', hc', hagrees⟩ := hj
  by_cases hij : i = j
  · subst hij
    exact ⟨c, harr ▸ List.getElem?_set_self (List.getElem?_eq_some_iff.mp hc').1, hc⟩
  · exact ⟨c', by rw [harr, List.getElem?_set_ne hij, hc'], hagrees⟩

/-- A context is replaced by one with the same settings. -/
theorem Told.set_same (hj : Told g w j) (harr : w'.pool.arr = w.pool.arr.set i c')
    (hc : w.pool.arr[i]? = some c) (hsame : c'.settings = c.settings) : Told g w' j := by
  obtain ⟨b, hb, hagrees⟩ := hj
  by_cases hij : i = j
  · subst hij
    obtain rfl : c = b := Option.some.inj (hc.symm.trans hb)
    exact Told.set ⟨c, hc, hagrees⟩ harr (hagrees.of_settings hsame)
  · exact ⟨b, by rw [harr, List.getElem?_set_ne hij, hb], hagrees⟩

theorem Agreed.setContext (hw : Agreed g w) (hc : Agrees g c) : Agreed g (w.setContext i c) :=
  hw.of_told (fun _ hj => hj.set rfl hc) (fun _ hreg => hreg) rfl rfl

theorem Agreed.del (hw : Agreed g w) (fd : ℤ) : Agreed g (w.del fd) :=
  hw.of_told (fun _ hj => hj) (fun _ hreg => List.mem_of_mem_filter hreg) rfl rfl

theorem Agreed.close (hw : Agreed g w) (i : ℕ) (fd : ℤ) : Agreed g (w.close i fd) :=
  hw.of_told (fun _ hj => hj) (fun _ hreg => List.mem_of_mem_filter hreg) rfl rfl

theorem Agreed.processClose (hw : Agreed g w) (i : ℕ) (c : ConnContext) :
    Agreed g (processClose w i c) := by
  have hclient : Agreed g (if c.fdAdded = true then w.del c.fd else w) := by
    split
    · exact hw.del c.fd
    · exact hw
  unfold MultProcess.processClose
  dsimp only
  split
  · exact hclient.close i c.fd
  · refine Agreed.close ?_ i c.endFd
    split
    · exact (hclient.close i c.fd).del c.endFd
    · exact hclient.close i c.fd

theorem Agreed.free (hw : Agreed g w) (hfree : w.free i = some w') : Agreed g w' := by
  simp only [Worker.free, Option.bind_eq_bind, Option.bind_eq_some_iff, Option.some.injEq] at hfree
  obtain ⟨pool, hpool, rfl⟩ := hfree
  unfold freeContext at hpool
  split at hpool
  · simp only [Option.bind_eq_bind, Option.bind_eq_some_iff, Option.some.injEq] at hpool
    obtain ⟨c, hc, rfl⟩ := hpool
    exact hw.of_told (fun _ hj => hj.set_same rfl hc rfl) (fun _ hreg => hreg) rfl rfl
  · exact absurd hpool (by simp)

theorem Agreed.take (hw : Agreed g w) (htake : w.take fd = some (i, c, w')) :
    Agreed g w' ∧ w'.pool.arr[i]? = some c := by
  simp only [Worker.take, Option.bind_eq_bind, Option.bind_eq_some_iff] at htake
  obtain ⟨⟨i', pool⟩, halloc, c', hc', heq⟩ := htake
  simp only [Option.some.injEq, Prod.mk.injEq] at heq
  obtain ⟨rfl, rfl, rfl⟩ := heq
  refine ⟨?_, hc'⟩
  unfold allocContext at halloc
  split at halloc
  · simp only [Option.bind_eq_bind, Option.bind_eq_some_iff, Option.some.injEq,
      Prod.mk.injEq] at halloc
    obtain ⟨ret, hret, rfl, rfl⟩ := halloc
    have hget : w.pool.arr[w.pool.nextIdx.toNat]? = some ret := by
      unfold contextAt at hret
      split at hret
      · exact hret
      · exact absurd hret (by simp)
    exact hw.of_told (fun _ hj => hj.set_same rfl hget rfl) (fun _ hreg => hreg) rfl rfl
  · exact absurd halloc (by simp)

theorem Worker.op_pool (w : Worker) (i : ℕ) (o : Op) : (w.op i o).pool = w.pool := by
  cases o <;> rfl

/-- An operation on behalf of a context that has been told of the globals. -/
theorem Agreed.op (hw : Agreed g w) (hi : Told g w i) (o : Op) : Agreed g (w.op i o) := by
  have htold : ∀ j, Told g w j → Told g (w.op i o) j := fun j hj => by
    rw [Told, Worker.op_pool]
    exact hj
  cases o with
  | add fd mask =>
    refine ⟨?_, fun ev hev => htold _ (hw.batch ev hev), hw.counted⟩
    intro reg hreg
    rcases List.mem_append.mp hreg with hold | hnew
    · exact htold _ (hw.interest reg hold)
    · obtain rfl := List.mem_singleton.mp hnew
      exact htold _ hi
  | mod fd mask =>
    refine ⟨?_, fun ev hev => htold _ (hw.batch ev hev), hw.counted⟩
    intro reg hreg
    obtain ⟨old, hold, rfl⟩ := List.mem_map.mp hreg
    split
    · exact htold _ hi
    · exact htold _ (hw.interest old hold)
  | _ => exact hw.of_told htold (fun _ hreg => hreg) rfl rfl

theorem Agreed.foldl_op (hw : Agreed g w) (hi : Told g w i) (ops : List Op) :
    Agreed g (ops.foldl (Worker.op i) w) ∧ Told g (ops.foldl (Worker.op i) w) i := by
  induction ops generalizing w with
  | nil => exact ⟨hw, hi⟩
  | cons o ops ih =>
    refine ih (hw.op hi o) ?_
    rw [Told, Worker.op_pool]
    exact hi

theorem Agreed.count (hw : Agreed g w) {cpuId : ℤ} (hcpu : cpuId = g.cpuId)
    (counter : Option Counter) : Agreed g (w.count cpuId counter) := by
  refine ⟨hw.interest, hw.batch, ?_⟩
  intro k hk
  rcases List.mem_append.mp hk with hold | hnew
  · exact hw.counted k hold
  · obtain ⟨_, -, rfl⟩ := List.mem_map.mp hnew
    exact hcpu

theorem Agreed.after (hw : Agreed g w) (hi : Told g w i) (hd : Agrees g d.ctx) :
    Agreed g (w.after i d) := by
  have hset := (hw.foldl_op hi d.ops).1.setContext (i := i) hd
  have hlast : Agreed g { (d.ops.foldl (Worker.op i) w).setContext i d.ctx with last := d.last } :=
    ⟨hset.interest, hset.batch, hset.counted⟩
  exact hlast.count hd.cpuId d.counter

theorem Agreed.into (hw : Agreed g w) (hi : Told g w i) (hh : Agrees g h.call.ctx)
    (hinto : w.into i h = some w') : Agreed g w' := by
  cases h with
  | back d => exact Option.some.inj hinto ▸ hw.after hi hh
  | freeBack d => exact ((hw.after hi hh).processClose i d.ctx).free hinto

theorem Agreed.accept (hw : Agreed g w) (hl : Agrees g listenCtx)
    (haccept : processAccept w listenCtx r = some w') : Agreed g w' := by
  have hset : ∀ {i c w₁}, w.take r.accept = some (i, c, w₁) →
      Agreed g (w₁.setContext i (c.accepted listenCtx r.accept)) ∧
        Told g (w₁.setContext i (c.accepted listenCtx r.accept)) i := by
    intro i c w₁ htake
    obtain ⟨hw₁, hi⟩ := hw.take htake
    have hc := hl.accepted c r.accept
    exact ⟨hw₁.setContext hc, _, List.getElem?_set_self (List.getElem?_eq_some_iff.mp hi).1, hc⟩
  cases acceptSpec haccept with
  | hangsUp => exact hw
  | fails => exact hw.count hl.cpuId _
  | closes pos take free => exact ((hset take).1.processClose _ _).free free
  | accepts pos take =>
    exact ((hset take).1.op (hset take).2 _).setContext ((hl.accepted _ _).of_settings rfl)

theorem Told.noted {rest : List Event} (hc : w.pool.arr[ev.ctx]? = some c) (hagrees : Agrees g c) :
    Told g (w.noted ev rest c) ev.ctx :=
  ⟨_, List.getElem?_set_self (List.getElem?_eq_some_iff.mp hc).1, hagrees.of_settings rfl⟩

theorem Agreed.noted {rest : List Event} (hw : Agreed g w) (hbatch : w.batch = ev :: rest)
    (hagrees : Agrees g c) : Agreed g (w.noted ev rest c) := by
  have hnoted : Agrees g { c with events := ev.events } := hagrees.of_settings rfl
  have hset := hw.setContext (i := ev.ctx) hnoted
  exact ⟨hset.interest, fun ev' hev' =>
    hset.batch ev' (hbatch.symm ▸ List.mem_cons_of_mem ev hev'), hset.counted⟩

/-- The next event is for a context that has been told of the globals. -/
theorem Agreed.next {rest : List Event} (hw : Agreed g w) (hbatch : w.batch = ev :: rest)
    (hc : w.pool.arr[ev.ctx]? = some c) : Agrees g c := by
  obtain ⟨c', hc', hagrees⟩ := hw.batch ev (hbatch ▸ List.mem_cons_self)
  obtain rfl : c = c' := Option.some.inj (hc.symm.trans hc')
  exact hagrees

/-- One step of the loop keeps the agreement. -/
theorem Agreed.step (hw : Agreed g w) (he : w.Enabled e) (hstep : w.step e = some w') :
    Agreed g w' := by
  cases e with
  | wait evts =>
    obtain rfl := Option.some.inj hstep
    refine ⟨hw.interest, ?_, hw.counted⟩
    intro ev hev
    obtain ⟨reg, hreg, -, hctx, -⟩ := he.2.2.2 ev hev
    exact hctx ▸ hw.interest reg hreg
  | call r =>
    cases callSpec hstep with
    | @accepts ev rest c batch ctx handler accept =>
      have hagrees := hw.next batch ctx
      have hnoted : Agrees g { c with events := ev.events } := hagrees.of_settings rfl
      exact (hw.noted batch hagrees).accept hnoted accept
    | handles batch ctx handler handle into =>
      have hagrees := hw.next batch ctx
      refine (hw.noted batch hagrees).into (.noted ctx hagrees) ?_ into
      exact hagrees.of_settings (settings_handle handle)

theorem Agreed.listen (hw : Agreed g w) (hlisten : w.listen g fd = some w') : Agreed g w' := by
  simp only [Worker.listen, Option.bind_eq_bind, Option.bind_eq_some_iff, Option.some.injEq]
    at hlisten
  obtain ⟨⟨i, c, w₁⟩, htake, rfl⟩ := hlisten
  obtain ⟨hw₁, hi⟩ := hw.take htake
  have hc := agrees_listens c g fd
  exact (hw₁.setContext hc).op
    ⟨_, List.getElem?_set_self (List.getElem?_eq_some_iff.mp hi).1, hc⟩ _

theorem agreed_init {memory : List ConnContext} (hinit : processClientsInit g memory = some w) :
    Agreed g w := by
  simp only [processClientsInit, Option.bind_eq_bind, Option.bind_eq_some_iff] at hinit
  obtain ⟨pool, -, hlisten⟩ := hinit
  exact foldlM_keep hlisten ⟨by simp, by simp, by simp⟩ fun hw => hw.listen

/-- **The contexts agree with the globals** in every state of the loop. -/
theorem agreed_runs {memory : List ConnContext} {w₀ : Worker}
    (hinit : processClientsInit g memory = some w₀) (hruns : worker.Runs w₀ w) : Agreed g w :=
  hruns.keep (agreed_init hinit) fun hw he hstep => hw.step he hstep

/-! ## Where nothing is counted -/

/-- The cursor of `select_backend`, and what has been counted. -/
def Worker.tally (w : Worker) : ℕ × List (ℤ × Counter) := (w.last, w.counted)

theorem Worker.tally_op (w : Worker) (i : ℕ) (o : Op) : (w.op i o).tally = w.tally := by
  cases o <;> rfl

theorem Worker.tally_foldl_op (w : Worker) (i : ℕ) (ops : List Op) :
    (ops.foldl (Worker.op i) w).tally = w.tally := by
  induction ops generalizing w with
  | nil => rfl
  | cons o ops ih => exact (ih _).trans (w.tally_op i o)

theorem tally_processClose (w : Worker) (i : ℕ) (c : ConnContext) :
    (processClose w i c).tally = w.tally := by
  unfold processClose
  repeat' split
  all_goals rfl

/-- A connection is closed and its context given back. -/
theorem Worker.tally_release (hfree : (processClose w i c).free i = some w') :
    w'.tally = w.tally := by
  simp only [Worker.free, Option.bind_eq_bind, Option.bind_eq_some_iff, Option.some.injEq] at hfree
  obtain ⟨pool, -, rfl⟩ := hfree
  exact tally_processClose w i c

theorem Worker.tally_take (htake : w.take fd = some (i, c, w')) : w'.tally = w.tally := by
  simp only [Worker.take, Option.bind_eq_bind, Option.bind_eq_some_iff, Option.some.injEq,
    Prod.mk.injEq] at htake
  obtain ⟨p, -, c', -, -, -, rfl⟩ := htake
  rfl

theorem tally_processClientsInit {memory : List ConnContext}
    (hinit : processClientsInit g memory = some w) : w.tally = (0, []) := by
  simp only [processClientsInit, Option.bind_eq_bind, Option.bind_eq_some_iff] at hinit
  obtain ⟨pool, -, hlisten⟩ := hinit
  refine foldlM_keep (P := fun w => w.tally = (0, [])) hlisten rfl fun ht hone => ?_
  simp only [Worker.listen, Option.bind_eq_bind, Option.bind_eq_some_iff, Option.some.injEq] at hone
  obtain ⟨⟨i, c, w₁⟩, htake, rfl⟩ := hone
  exact (Worker.tally_op ..).trans ((Worker.tally_take htake).trans ht)

end MultProcess
end CModel
