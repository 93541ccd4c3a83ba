import CModel.MultProcess.Ledger

/-!
# No context is used behind its end

* `Kept`: the ledger, contexts that fit their handlers, and nothing that has gone wrong.
* `Kept.accept`, `Kept.handled`, `Kept.step`: what the handlers and the loop keep.
* `contexts_sound`: **as long as no batch has a second event for a connection that is closed, no
  context is freed twice or used behind that, and no descriptor is lost.**
-/

namespace CModel
namespace MultProcess

/-- A worker of which nothing has gone wrong. -/
structure Kept (w : Worker) : Prop where
  ledger : Ledger w
  faults : w.faults = []
  fits : ∀ i ∈ w.inUse, ∀ c, w.pool.arr[i]? = some c → Fits c

variable {w w' : Worker} {i : ℕ} {c c' : ConnContext} {fd : ℤ} {r : Results} {ev : Event}
  {d : Call} {k : Handled}

/-- The contexts in use, but for one, fit their handlers. -/
def FitsBut (w : Worker) (i : ℕ) : Prop :=
  ∀ j ∈ w.inUse, j ≠ i → ∀ c, w.pool.arr[j]? = some c → Fits c

theorem Kept.fitsBut (h : Kept w) (i : ℕ) : FitsBut w i := fun j hj _ => h.fits j hj

theorem FitsBut.setContext (h : FitsBut w i) (c : ConnContext) : FitsBut (w.setContext i c) i := by
  intro j hj hji d hd
  have hd' : (w.pool.arr.set i c)[j]? = some d := hd
  rw [List.getElem?_set_ne (Ne.symm hji)] at hd'
  exact h j hj hji d hd'

/-- Where one context has got new contents. -/
theorem Kept.set (hledger : Ledger w') (hfaults : w'.faults = []) (hbut : FitsBut w' i)
    (hi : w'.pool.arr[i]? = some c') (hfits : Fits c') : Kept w' where
  ledger := hledger
  faults := hfaults
  fits j hj c hc := by
    by_cases hji : j = i
    · rw [hji, hi] at hc
      rwa [← Option.some.inj hc]
    · exact hbut j hj hji c hc

/-- A context is given back, whatever its handler would have expected. -/
theorem Ledger.kept_release (h : Ledger w) (hfaults : w.faults = []) (hbut : FitsBut w i)
    (hi : i ∈ w.inUse) (hc : w.pool.arr[i]? = some c) (hbatch : ∀ ev ∈ w.batch, ev.ctx ≠ i)
    (hfree : (processClose w i c).free i = some w') : Kept w' := by
  obtain ⟨w₁, hfree', hledger, hfaults', hinUse, hother⟩ := h.release hi hc hbatch
  obtain rfl := Option.some.inj (hfree'.symm.trans hfree)
  obtain ⟨free, hlist⟩ := h.free
  have hnodup : w.inUse.Nodup := hlist.nodup.of_append_right.of_map _
  refine ⟨hledger, hfaults'.trans hfaults, ?_⟩
  intro j hj c hjc
  rw [hinUse, hnodup.mem_erase_iff] at hj
  rw [hother j hj.1] at hjc
  exact hbut j hj.2 hj.1 c hjc

/-! ## Accepting -/

/-- A context that is taken gets contents that fit. -/
theorem Kept.take (h : Kept w) (hw' : Taken w fd i c w') (hfd : w.owner fd = none)
    (hc' : c'.fds = [fd]) (hfits : Fits c') : Kept (w'.setContext i c') := by
  have hlt : i < w'.pool.arr.length := (List.getElem?_eq_some_iff.mp hw'.self).1
  refine .set (hw'.ledger h.ledger hfd hc') (hw'.faults.trans h.faults) (fun j hj hji d hd => ?_)
    (List.getElem?_set_self hlt) hfits
  have hjin : j ∈ w.inUse := (List.mem_cons.mp (hw'.inUse ▸ hj)).resolve_left hji
  have hd' : (w'.pool.arr.set i c')[j]? = some d := hd
  rw [List.getElem?_set_ne (Ne.symm hji), hw'.other j hji] at hd'
  exact h.fits j hjin d hd'

/-- The events that are left are not for a context that has just been taken. -/
theorem Ledger.batch_ne (h : Ledger w) (hi : i ∉ w.inUse) : ∀ ev ∈ w.batch, ev.ctx ≠ i := by
  intro ev hev heq
  exact hi (heq ▸ ((h.owner ev.fd ev.ctx).mp (h.batch ev hev)).1)

theorem fds_accepted (listenCtx : ConnContext) (fd : ℤ) (hend : c.endFd = 0) :
    (c.accepted listenCtx fd).fds = [fd] := by
  have hend' : (c.accepted listenCtx fd).endFd = 0 := by
    unfold ConnContext.accepted
    split <;> exact hend
  have hfd : (c.accepted listenCtx fd).fd = fd := by
    unfold ConnContext.accepted
    split <;> rfl
  rw [ConnContext.fds, if_pos hend', hfd]

theorem fits_accepted (listenCtx : ConnContext) (hend : c.endFd = 0) :
    Fits (c.accepted listenCtx fd) := by
  unfold ConnContext.accepted Fits
  split <;> exact iff_of_true rfl hend

/-- A context that is taken for a client. -/
theorem Kept.client (h : Kept w) (listenCtx : ConnContext) (hfd : w.owner fd = none)
    (htake : w.take fd = some (i, c, w')) : Taken w fd i c w' ∧
      Kept (w'.setContext i (c.accepted listenCtx fd)) ∧
      (w'.setContext i (c.accepted listenCtx fd)).pool.arr[i]? =
        some (c.accepted listenCtx fd) := by
  have htaken := h.ledger.taken htake
  have hlt : i < w'.pool.arr.length := (List.getElem?_eq_some_iff.mp htaken.self).1
  exact ⟨htaken, h.take htaken hfd (fds_accepted listenCtx fd htaken.endFd)
    (fits_accepted listenCtx htaken.endFd), List.getElem?_set_self hlt⟩

theorem Taken.mem_inUse (h : Taken w fd i c w') : i ∈ w'.inUse := by
  rw [h.inUse]
  exact List.mem_cons_self

theorem Kept.accept (h : Kept w) {listenCtx : ConnContext}
    (hfresh : 0 ≤ r.accept → w.owner r.accept = none)
    (hstep : processAccept w listenCtx r = some w') : Kept w' := by
  cases acceptSpec hstep with
  | hangsUp => exact h
  | fails =>
    exact ⟨⟨h.ledger.free, h.ledger.owner, h.ledger.nodup, h.ledger.interest, h.ledger.batch⟩,
      h.faults, h.fits⟩
  | closes pos take free =>
    -- the connection cannot be watched, and is closed
    obtain ⟨htaken, hkept, hself⟩ := h.client listenCtx (hfresh pos) take
    refine hkept.ledger.kept_release hkept.faults (hkept.fitsBut _) htaken.mem_inUse hself ?_ free
    have hbatch := h.ledger.batch_ne htaken.fresh
    rwa [← htaken.batch] at hbatch
  | @accepts i c w₁ pos take =>
    obtain ⟨htaken, hkept, hself⟩ := h.client listenCtx (hfresh pos) take
    have howner : (w₁.setContext i (c.accepted listenCtx r.accept)).owner r.accept = some i :=
      (congrFun htaken.owner r.accept).trans (Function.update_self ..)
    have hledger := (hkept.ledger.add howner inHupErr).replace htaken.mem_inUse hself
      { c.accepted listenCtx r.accept with fdAdded := true } rfl
    exact .set hledger hkept.faults ((hkept.fitsBut i).setContext _)
      (List.getElem?_set_self (List.getElem?_eq_some_iff.mp hself).1)
      (fits_accepted listenCtx htaken.endFd)

/-! ## The handler of a connection -/

theorem Kept.handled (h : Kept w) (hi : i ∈ w.inUse) (hc : w.pool.arr[i]? = some c)
    (hops : d.ops = []) (hcounter : d.counter = none) (hd : d.ctx = c)
    (hhandle : handle d r = some k) (hsocket : 0 ≤ r.socket → w.owner r.socket = none)
    (hcloses : Closes c r → ∀ ev ∈ w.batch, ev.ctx ≠ i) (hopens : Opens c r → r.socket ≠ 0)
    (hinto : w.into i k = some w') : Kept w' := by
  subst hd
  have hfits := h.fits i hi d.ctx hc
  obtain ⟨free, hlist⟩ := h.ledger.free
  have harr : ∀ d', (w.after i d').pool.arr = w.pool.arr.set i d'.ctx := fun d' => by
    rw [w.after_pool]
  have hself : ∀ d', (w.after i d').pool.arr[i]? = some d'.ctx := fun d' => by
    rw [harr, List.getElem?_set_self (hlist.lt hi)]
  have hbut : ∀ d', FitsBut (w.after i d') i := by
    intro d' j hj hji c hc
    rw [harr, List.getElem?_set_ne (Ne.symm hji)] at hc
    exact h.fits j (w.after_inUse i d' ▸ hj) c hc
  cases handleSpec hops hcounter hhandle with
  | @closes d' frame why =>
    have hledger := h.ledger.after hi hc hfits frame hsocket hopens
    refine hledger.kept_release ((w.after_faults i d').trans h.faults) (hbut d') ?_ (hself d') ?_
      hinto
    · exact w.after_inUse i d' ▸ hi
    · exact w.after_batch i d' ▸ hcloses why
  | @goes d' frame why fits =>
    have hledger := h.ledger.after hi hc hfits frame hsocket hopens
    obtain rfl := Option.some.inj hinto
    exact .set hledger ((w.after_faults i d').trans h.faults) (hbut d') (hself d')
      (fits hopens hfits)

/-- The next event is noted in its context, which is in use. -/
theorem Kept.noted (h : Kept w) {rest : List Event} (hbatch : w.batch = ev :: rest)
    (hc : w.pool.arr[ev.ctx]? = some c) : ev.ctx ∈ w.inUse ∧ Kept (w.noted ev rest c) := by
  have howner := h.ledger.batch ev (hbatch ▸ List.mem_cons_self)
  obtain ⟨hi, hfd⟩ := (h.ledger.owner ev.fd ev.ctx).mp howner
  rw [Worker.fds_eq hc] at hfd
  have hrest : ∀ ev' ∈ rest, w.owner ev'.fd = some ev'.ctx := fun ev' hev' =>
    h.ledger.batch ev' (hbatch ▸ List.mem_cons_of_mem ev hev')
  have hpopped : Kept { w with batch := rest } :=
    ⟨⟨h.ledger.free, h.ledger.owner, h.ledger.nodup, h.ledger.interest, hrest⟩, h.faults, h.fits⟩
  rw [Worker.noted, if_pos ⟨hi, hfd⟩]
  exact ⟨hi, .set (hpopped.ledger.replace hi hc _ rfl) h.faults
    ((hpopped.fitsBut ev.ctx).setContext _)
    (List.getElem?_set_self (List.getElem?_eq_some_iff.mp hc).1) (h.fits ev.ctx hi c hc)⟩

/-! ## The loop -/

theorem Kept.step {e : WorkerEvent} (h : Kept w) (he : w.Enabled e) (hsep : Separate w e)
    (hstep : w.step e = some w') : Kept w' := by
  cases e with
  | wait evts =>
    obtain rfl := Option.some.inj hstep
    obtain ⟨-, -, -, hevts⟩ := he
    refine ⟨⟨h.ledger.free, h.ledger.owner, h.ledger.nodup, h.ledger.interest, ?_⟩,
      h.faults, h.fits⟩
    intro ev hev
    obtain ⟨g, hg, hfd, hctx, -⟩ := hevts ev hev
    rw [← hfd, ← hctx]
    exact h.ledger.interest g hg
  | call r =>
    obtain ⟨haccept, hsocket⟩ := he
    cases callSpec hstep with
    | accepts batch ctx handler accept => exact (h.noted batch ctx).2.accept haccept accept
    | @handles ev rest c k batch ctx handler handle into =>
      obtain ⟨hi, hkept⟩ := h.noted batch ctx
      obtain ⟨hcloses, hopens⟩ := hsep ev rest c batch ctx
      exact hkept.handled hi (List.getElem?_set_self (List.getElem?_eq_some_iff.mp ctx).1) rfl rfl
        rfl handle hsocket hcloses hopens into

/-! ## Runs -/

theorem kept_init {pool : ContextPool} {memory : List ConnContext}
    (h : initPool memory = some pool) : Kept ⟨pool, 0, [], [], [], [], fun _ => none, []⟩ where
  ledger := ⟨⟨_, freeList_init h⟩, fun fd i => by simp, by simp, by simp, by simp⟩
  faults := rfl
  fits := by simp

/-- A listener gets a context. -/
theorem Kept.listen {g : Globals} (h : Kept w) (hfd : w.owner fd = none)
    (hlisten : w.listen g fd = some w') :
    Kept w' ∧ ∀ x, x ≠ fd → w.owner x = none → w'.owner x = none := by
  unfold Worker.listen at hlisten
  simp only [Option.bind_eq_bind, Option.bind_eq_some_iff] at hlisten
  obtain ⟨⟨i, c, w₁⟩, htake, heq⟩ := hlisten
  obtain rfl := Option.some.inj heq
  have htaken := h.ledger.taken htake
  have hfds : (c.listens g fd).fds = [fd] := if_pos htaken.endFd
  have hkept := h.take htaken hfd hfds (iff_of_true rfl htaken.endFd)
  have howner : (w₁.setContext i (c.listens g fd)).owner fd = some i :=
    (congrFun htaken.owner fd).trans (Function.update_self ..)
  refine ⟨⟨hkept.ledger.add howner inHupErr, hkept.faults, hkept.fits⟩, ?_⟩
  intro x hx hnone
  exact (congrFun htaken.owner x).trans ((Function.update_of_ne hx ..).trans hnone)

theorem Kept.foldlM_listen {g : Globals} {la : List ℤ} (h : Kept w) (hla : la.Nodup)
    (hnone : ∀ fd ∈ la, w.owner fd = none) (hlisten : la.foldlM (Worker.listen g) w = some w') :
    Kept w' := by
  induction la generalizing w with
  | nil =>
    obtain rfl := Option.some.inj hlisten
    exact h
  | cons fd la ih =>
    rw [List.foldlM_cons] at hlisten
    obtain ⟨w₁, hfirst, hrest⟩ := Option.bind_eq_some_iff.mp hlisten
    obtain ⟨hfd, hla'⟩ := List.nodup_cons.mp hla
    obtain ⟨hkept, howner⟩ := h.listen (hnone fd List.mem_cons_self) hfirst
    refine ih hkept hla' ?_ hrest
    intro x hx
    exact howner x (ne_of_mem_of_not_mem hx hfd) (hnone x (List.mem_cons_of_mem _ hx))

theorem kept_processClientsInit {g : Globals} {memory : List ConnContext} (hla : g.la.Nodup)
    (hinit : processClientsInit g memory = some w) : Kept w := by
  obtain ⟨pool, hpool, hlisten⟩ := Option.bind_eq_some_iff.mp hinit
  exact (kept_init hpool).foldlM_listen hla (fun _ _ => rfl) hlisten

/-- As long as a handler that closes its connection leaves no other event for it in the batch: a
handler is only called with a context that belongs to the descriptor of its event, a context is only
given back when it is in use, a descriptor is only closed when it is open for the context that is
given back, and what is open belongs to a context that is in use. -/
theorem contexts_sound {g : Globals} {memory : List ConnContext} {w₀ : Worker} (hla : g.la.Nodup)
    (hinit : processClientsInit g memory = some w₀)
    (hruns : (worker.only Separate).Runs w₀ w) : w.Sound := by
  have hkept : Kept w := by
    refine hruns.keep (kept_processClientsInit hla hinit) ?_
    rintro t t' e ht ⟨he, hsep⟩ hstep
    exact ht.step he hsep hstep
  exact ⟨hkept.faults, fun fd i howner => ((hkept.ledger.owner fd i).mp howner).1⟩

/-- A proxy that listens on descriptor 3. -/
def proxyThree : Globals := ⟨[3], [⟨80, 0⟩], true, 0, 4⟩

/-- The client on descriptor 5 and the back end on descriptor 6. -/
def fiveSix : Results := ⟨5, some [], 0, 6, true, true, true, true⟩

/-- Nothing that can fail succeeds. -/
def failing : Results := ⟨-1, none, -1, -1, false, false, false, false⟩

/-- The contexts of the pool behind the first two. -/
def otherContexts : List ConnContext :=
  (List.replicate 8190 default).mapIdx fun i (c : ConnContext) =>
    { c with nextIdx := if i + 1 + 1 + 1 < 8192 then ((i + 1 + 1 : ℕ) : ℤ) + 1 else -1 }

/-- The worker of this proxy when it enters its loop. -/
def workerThree : Worker where
  pool := ⟨8192, 1, 1, ((default : ConnContext).reset.listens proxyThree 3) ::
    { (default : ConnContext) with nextIdx := 2 } :: otherContexts⟩
  last := 0
  interest := [⟨3, 0, inHupErr⟩]
  batch := []
  counted := []
  inUse := [0]
  owner := Function.update (fun _ => none) 3 (some 0)
  faults := []

theorem initPool_max : initPool (List.replicate maxConnsPerWorker default) = some ⟨8192, 0, 0,
    { (default : ConnContext) with nextIdx := 1 } ::
      { (default : ConnContext) with nextIdx := 2 } :: otherContexts⟩ := by
  rw [initPool, List.length_replicate, if_neg (by decide), maxConnsPerWorker,
    List.replicate_succ, List.replicate_succ, List.mapIdx_cons, List.mapIdx_cons]
  rfl

theorem processClientsInit_three :
    processClientsInit proxyThree (List.replicate maxConnsPerWorker default) =
      some workerThree := by
  rw [processClientsInit, initPool_max]
  rfl

/-- A client is accepted. -/
theorem contexts_sound_three : ∃ w, (worker.only Separate).Runs workerThree w ∧
    w.inUse = [1, 0] ∧ w.Sound := by
  have hsep : ∀ w : Worker, w.batch = [⟨3, 0, epollIn⟩] → Separate w (.call fiveSix) := by
    intro w hbatch ev rest c hcons _
    obtain ⟨rfl, rfl⟩ := List.cons.inj (hbatch.symm.trans hcons)
    exact ⟨fun _ ev' hev' => absurd hev' List.not_mem_nil, fun _ => show (6 : ℤ) ≠ 0 by decide⟩
  have hruns : (worker.only Separate).Runs workerThree _ :=
    .head (e := .wait [⟨3, 0, epollIn⟩]) ⟨⟨rfl, by decide, by decide,
      List.forall_mem_singleton.mpr ⟨⟨3, 0, inHupErr⟩, .head _, rfl, rfl, by decide⟩⟩,
      trivial⟩ rfl <|
    .head (e := .call fiveSix) ⟨⟨fun _ => rfl, fun _ => rfl⟩, hsep _ rfl⟩ rfl .refl
  exact ⟨_, hruns, rfl, contexts_sound (List.nodup_singleton 3) processClientsInit_three hruns⟩

/-- The client and the back end hang up; the first of the two events closes the connection. -/
theorem hang_up_twice : ∃ memory w₀ w, memory.length = maxConnsPerWorker ∧
    processClientsInit proxyThree memory = some w₀ ∧ worker.Runs w₀ w ∧
    w.faults = [.doubleFree, .badClose, .badClose, .stale] ∧ ¬w.Sound := by
  have hneg : ¬(0 : ℤ) ≤ -1 := by decide
  have hruns : worker.Runs workerThree _ :=
    .head (e := .wait [⟨3, 0, epollIn⟩]) ⟨rfl, by decide, by decide,
      List.forall_mem_singleton.mpr ⟨⟨3, 0, inHupErr⟩, .head _, rfl, rfl, by decide⟩⟩ rfl <|
    .head (e := .call fiveSix) ⟨fun _ => rfl, fun _ => rfl⟩ rfl <|
    .head (e := .wait [⟨5, 1, epollIn⟩]) ⟨rfl, by decide, by decide,
      List.forall_mem_singleton.mpr
        ⟨⟨5, 1, inHupErr⟩, .tail _ (.head _), rfl, rfl, by decide⟩⟩ rfl <|
    .head (e := .call { fiveSix with accept := -1 }) ⟨fun h => absurd h hneg, fun _ => rfl⟩ rfl <|
    .head (e := .wait [⟨5, 1, epollHup⟩, ⟨6, 1, epollHup⟩]) ⟨rfl, by decide, by decide,
      List.forall_mem_cons.mpr ⟨⟨⟨5, 1, hupErr⟩, .tail _ (.head _), rfl, rfl, by decide⟩,
      List.forall_mem_singleton.mpr
        ⟨⟨6, 1, epollOut ||| hupErr⟩, .tail _ (.tail _ (.head _)), rfl, rfl, by decide⟩⟩⟩ rfl <|
    .head (e := .call failing) ⟨fun h => absurd h hneg, fun h => absurd h hneg⟩ rfl <|
    .head (e := .call failing) ⟨fun h => absurd h hneg, fun h => absurd h hneg⟩ rfl <|
    .refl
  refine ⟨_, _, _, List.length_replicate, processClientsInit_three, hruns, rfl, ?_⟩
  intro h
  exact List.cons_ne_nil Fault.doubleFree [.badClose, .badClose, .stale] h.1

end MultProcess
end CModel
