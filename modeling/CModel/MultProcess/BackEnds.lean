import CModel.Foundation.Rotation
import CModel.MultProcess.Options
import CModel.MultProcess.Settings
import CModel.MultProcess.Sound

/-!
# The back ends of a proxy

What `main` has read behind `-x` is copied into the context of each listener, and from there into
that of each connection, and `select_backend` goes through the copy of the connection that asks for a
back end, with one cursor for all of them.

* `Options.backEnds`: the list that the contexts get.
* `Selecting`, `Worker.selections`: the calls of `select_backend`, with the entry that is read.
* `SelectsInTurn`: no call reads an entry that has not been filled, and as many calls in a row as
  there are back ends get each of them once.
* `InTurn`: in every run the calls go round the list.
* `backEnds_inTurn_iff`: **this is what happens if exactly one `-x` takes addresses**, and no other
  command line with `-x` comes to it.
-/

namespace CModel
namespace MultProcess

/-! ## The list -/

/-- An entry as `select_backend` reads it; `htons` takes 16 bits of the port. -/
def AddrEntry.toProxyAddr (e : AddrEntry) : ProxyAddr := ⟨(e.paramPort % 65536).toNat, e.ip⟩

/-- `pa` as it is copied; undefined where an entry behind the table would be. -/
def Options.backEnds (o : Options) : Option (List ProxyAddr) :=
  if o.pa.num ≤ maxProxyAddress then
    some ((o.pa.entries.take o.pa.num).map fun e => (e.getD .zero).toProxyAddr)
  else none

/-! ## The calls of `select_backend` -/

instance (ctx : ConnContext) (r : Results) : Decidable (Opens ctx r) :=
  inferInstanceAs (Decidable (_ ∧ _ ∧ _ ∧ _ ∧ _))

/-- A call of the handler comes to `select_backend`. -/
def Selecting (ctx : ConnContext) (r : Results) : Prop := Opens ctx r ∧ r.setsockopt = true

instance (ctx : ConnContext) (r : Results) : Decidable (Selecting ctx r) :=
  inferInstanceAs (Decidable (_ ∧ _))

/-- The index that a call of `select_backend` reads, and what it finds there. -/
structure Selection where
  index : ℕ
  addr : Option ProxyAddr

/-- The context whose handler is called next. -/
def Worker.called (w : Worker) : Option ConnContext := do
  let ev ← w.batch.head?
  let c ← w.pool.arr[ev.ctx]?
  some { c with events := ev.events }

/-- The call of `select_backend` in a step. -/
def Worker.selections (w : Worker) : WorkerEvent → List Selection
  | .wait _ => []
  | .call r =>
    match w.called with
    | none => []
    | some ctx => if Selecting ctx r then [⟨w.last, ctx.pa[w.last]?⟩] else []

/-- Each call of `select_backend` that a worker can come to reads an entry that the command line has
filled, and as many calls in a row as there are back ends get each of them once. -/
def SelectsInTurn (o : Options) : Prop :=
  ∃ pa, o.backEnds = some pa ∧ ∀ la cpuId epFd memory w₀ l w, memory.length = maxConnsPerWorker →
    processClientsInit ⟨la, pa, true, cpuId, epFd⟩ memory = some w₀ →
    worker.RunsWith Worker.selections w₀ l w →
    (∀ e, worker.Enabled w e → ∀ s ∈ w.selections e, s.index < o.pa.num ∧
      ∃ entry, o.pa.entries[s.index]? = some (some entry) ∧ s.addr = some entry.toProxyAddr) ∧
    ∀ front window back, l = front ++ window ++ back → window.length = o.pa.num →
      ∀ j < o.pa.num, (window.map Selection.index).count j = 1

/-! ## The cursor -/

variable {c ctx listenCtx : ConnContext} {d : Call} {r : Results} {h : Handled} {w w' : Worker}
  {i j k : ℕ} {fd : ℤ} {e : WorkerEvent} {g : Globals} {l : List Selection} {a : ProxyAddr}

/-- `process_read_frontend` moves the cursor where it calls `select_backend`, and nowhere else. -/
theorem last_processReadFrontend (hhandler : d.ctx.handler = .processReadFrontend)
    (hh : processReadFrontend d r = some h) :
    (Selecting d.ctx r ∧ ∃ a, selectBackend d.ctx d.last = some (a, h.call.last)) ∨
      (¬ Selecting d.ctx r ∧ h.call.last = d.last) := by
  unfold processReadFrontend at hh
  split at hh
  · next hhup =>
    refine .inr ⟨?_, Option.some.inj hh ▸ rfl⟩
    intro hs
    exact absurd (hhup.symm.trans hs.1.2.1) (by simp)
  next hhup =>
  split at hh
  · next hread => exact .inr ⟨fun hs => hs.1.2.2.1 hread, Option.some.inj hh ▸ rfl⟩
  next data hread =>
  split at hh
  · next hctl =>
    refine .inr ⟨?_, Option.some.inj hh ▸ rfl⟩
    intro hs
    simp [hs.1.2.2.2.1] at hctl
  next hctl =>
  split at hh
  · next hsocket =>
    refine .inr ⟨?_, Option.some.inj hh ▸ rfl⟩
    intro hs
    exact absurd hs.1.2.2.2.2 (Int.not_le.mpr hsocket)
  next hsocket =>
  split at hh
  · next hopt =>
    refine .inr ⟨?_, Option.some.inj hh ▸ rfl⟩
    intro hs
    simp [hs.2] at hopt
  next hopt =>
  have hsel : Selecting d.ctx r :=
    ⟨⟨hhandler, by simpa using hhup, by simp [hread], by simpa using hctl, Int.not_lt.mp hsocket⟩,
      by simpa using hopt⟩
  simp only [Option.bind_eq_bind, Option.bind_eq_some_iff] at hh
  obtain ⟨⟨a, last⟩, hselect, hh⟩ := hh
  have hlast : h.call.last = last := by
    simp only at hh
    split at hh
    · exact Option.some.inj hh ▸ rfl
    split at hh
    · exact Option.some.inj hh ▸ rfl
    · exact Option.some.inj hh ▸ rfl
  exact .inl ⟨hsel, a, hlast ▸ hselect⟩

/-- The other handlers do not move it. -/
theorem last_handle (hh : handle d r = some h) :
    (Selecting d.ctx r ∧ ∃ a, selectBackend d.ctx d.last = some (a, h.call.last)) ∨
      (¬ Selecting d.ctx r ∧ h.call.last = d.last) := by
  by_cases hhandler : d.ctx.handler = .processReadFrontend
  · rw [handle, hhandler] at hh
    exact last_processReadFrontend hhandler hh
  · exact .inr ⟨fun hs => hhandler hs.1.1, (handle_other hhandler hh).2⟩

theorem last_processAccept (haccept : processAccept w listenCtx r = some w') :
    w'.last = w.last := by
  cases acceptSpec haccept with
  | hangsUp => rfl
  | fails => rfl
  | @closes i c w₁ w' pos take free =>
    have hw' : w'.last = w₁.last := congrArg Prod.fst (Worker.tally_release free)
    exact hw'.trans (congrArg Prod.fst (Worker.tally_take take))
  | accepts pos take => exact congrArg Prod.fst (Worker.tally_take take)

theorem Worker.last_into (hinto : w.into i h = some w') : w'.last = h.call.last := by
  cases h with
  | back d => exact Option.some.inj hinto ▸ rfl
  | freeBack d => exact congrArg Prod.fst (Worker.tally_release hinto)

/-- What a step does to the cursor. -/
theorem Worker.last_step (hstep : w.step (.call r) = some w') : ∃ ctx, w.called = some ctx ∧
    ((Selecting ctx r ∧ ∃ a, selectBackend ctx w.last = some (a, w'.last)) ∨
      (¬ Selecting ctx r ∧ w'.last = w.last)) := by
  have hcalled : ∀ {ev rest c}, w.batch = ev :: rest → w.pool.arr[ev.ctx]? = some c →
      w.called = some { c with events := ev.events } := by
    intro ev rest c hbatch hc
    rw [Worker.called, hbatch]
    simp [hc]
  cases callSpec hstep with
  | @accepts ev rest c batch ctx handler accept =>
    have hlast : w'.last = (w.noted ev rest c).last := last_processAccept accept
    refine ⟨_, hcalled batch ctx, .inr ⟨?_, hlast⟩⟩
    intro hs
    exact absurd (handler.symm.trans hs.1.1) (by simp)
  | handles batch ctx handler handle into =>
    rw [Worker.last_into into]
    exact ⟨_, hcalled batch ctx, last_handle handle⟩

/-! ## In turn -/

/-- The calls have gone round the list. -/
structure InTurn (g : Globals) (l : List Selection) (w : Worker) : Prop where
  agreed : Agreed g w
  last : w.last = l.length % g.pa.length
  calls : l = (List.range l.length).map fun k => ⟨k % g.pa.length, g.pa[k % g.pa.length]?⟩

/-- The context that is called next carries the list of the worker. -/
theorem Agreed.called (hw : Agreed g w) (hproxy : g.enableProxy = true)
    (hcalled : w.called = some ctx) : ctx.pa = g.pa := by
  simp only [Worker.called, Option.bind_eq_bind, Option.bind_eq_some_iff, Option.some.injEq]
    at hcalled
  obtain ⟨ev, hev, c, hc, rfl⟩ := hcalled
  obtain ⟨rest, hbatch⟩ := List.head?_eq_some_iff.mp hev
  exact ((hw.next hbatch hc).proxy hproxy).2

/-- The cursor goes to the next place of the circle. -/
theorem succ_mod (k n : ℕ) : (k + 1) % n = if k % n + 1 = n then 0 else k % n + 1 := by
  rw [← Nat.mod_add_mod k n 1]
  rcases Nat.eq_zero_or_pos n with rfl | hn
  · rw [Nat.mod_zero, if_neg (by omega)]
  split
  · next h => rw [h, Nat.mod_self]
  · next h =>
    have hlt := Nat.mod_lt k hn
    rw [Nat.mod_eq_of_lt (by omega)]

/-- A call of `select_backend` that is next reads the entry that is next in the circle. -/
theorem InTurn.next (h : InTurn g l w) (hproxy : g.enableProxy = true) {s : Selection}
    (hs : s ∈ w.selections e) :
    s = ⟨l.length % g.pa.length, g.pa[l.length % g.pa.length]?⟩ := by
  cases e with
  | wait evts => simp [Worker.selections] at hs
  | call r =>
    unfold Worker.selections at hs
    cases hcalled : w.called with
    | none => simp [hcalled] at hs
    | some ctx =>
      simp only [hcalled] at hs
      split at hs
      · rw [List.mem_singleton.mp hs, h.agreed.called hproxy hcalled, h.last]
      · simp at hs

/-- One step of the loop. -/
theorem InTurn.step (h : InTurn g l w) (hproxy : g.enableProxy = true) (he : worker.Enabled w e)
    (hstep : worker.step w e = some w') : InTurn g (l ++ w.selections e) w' := by
  have hagreed := h.agreed.step he hstep
  cases e with
  | wait evts =>
    obtain rfl := Option.some.inj hstep
    exact ⟨hagreed, by simpa [Worker.selections] using h.last,
      by simpa [Worker.selections] using h.calls⟩
  | call r =>
    obtain ⟨ctx, hcalled, ⟨hsel, a, hselect⟩ | ⟨hnot, hlast⟩⟩ := Worker.last_step hstep
    · have hpa := h.agreed.called hproxy hcalled
      have hout : w.selections (.call r) =
          [⟨l.length % g.pa.length, g.pa[l.length % g.pa.length]?⟩] := by
        simp only [Worker.selections, hcalled, if_pos hsel, hpa, h.last]
      rw [hout]
      refine ⟨hagreed, ?_, ?_⟩
      · simp only [selectBackend, Option.bind_eq_bind, Option.bind_eq_some_iff, Option.some.injEq,
          Prod.mk.injEq, hpa] at hselect
        obtain ⟨addr, -, -, hlast⟩ := hselect
        rw [← hlast, List.length_append, List.length_singleton, succ_mod, h.last]
      · rw [List.length_append, List.length_singleton, List.range_succ, List.map_append, ← h.calls]
        rfl
    · have hout : w.selections (.call r) = [] := by
        simp only [Worker.selections, hcalled, if_neg hnot]
      rw [hout, List.append_nil]
      exact ⟨hagreed, hlast.trans h.last, h.calls⟩

/-- **The calls go round the list** in every run of the loop. -/
theorem inTurn_runs {memory : List ConnContext} {w₀ : Worker} (hproxy : g.enableProxy = true)
    (hinit : processClientsInit g memory = some w₀)
    (hruns : worker.RunsWith Worker.selections w₀ l w) : InTurn g l w := by
  induction hruns with
  | refl =>
    refine ⟨agreed_init hinit, ?_, rfl⟩
    rw [show w₀.last = 0 from congrArg Prod.fst (tally_processClientsInit hinit)]
    exact (Nat.zero_mod _).symm
  | step _ he hstep ih => exact ih.step hproxy he hstep

/-! ## Each back end once -/

/-- Where the table lists the back ends, an entry that is counted has been filled. -/
theorem entry_of_lists {t : RefillTable AddrEntry} {store : Bytes → Option AddrEntry → AddrEntry}
    {addrs : List Bytes} (h : t.Lists store addrs) (hj : j < t.num) :
    ∃ entry, t.entries[j]? = some (some entry) := by
  have hread := congrArg (fun entries => entries[j]?) h.2.2
  have hlt : j < addrs.length := h.2.1 ▸ hj
  simp only [List.getElem?_take_of_lt hj, List.getElem?_map, List.getElem?_eq_getElem hlt] at hread
  exact ⟨_, hread⟩

theorem backEnds_eq {o : Options} {pa : List ProxyAddr} (h : o.backEnds = some pa) :
    o.pa.num ≤ maxProxyAddress ∧
      pa = (o.pa.entries.take o.pa.num).map fun e => (e.getD .zero).toProxyAddr := by
  unfold Options.backEnds at h
  split at h
  · next hnum => exact ⟨hnum, (Option.some.inj h).symm⟩
  · exact absurd h (by simp)

theorem selectsInTurn_of_lists {o : Options} {addrs : List Bytes}
    {store : Bytes → Option AddrEntry → AddrEntry} (htables : o.Tables)
    (h : o.pa.Lists store addrs) (hne : addrs ≠ []) : SelectsInTurn o := by
  have hpos : 0 < o.pa.num := h.2.1 ▸ List.length_pos_of_ne_nil hne
  have hback : o.backEnds = some _ := if_pos (htables.pa ▸ h.1)
  refine ⟨_, hback, ?_⟩
  intro la cpuId epFd memory w₀ l w _ hinit hruns
  have hturn := inTurn_runs rfl hinit hruns
  have hlen : ((o.pa.entries.take o.pa.num).map fun e => (e.getD .zero).toProxyAddr).length =
      o.pa.num := by
    rw [List.length_map, List.length_take, Nat.min_eq_left h.1]
  constructor
  · intro e he s hs
    have hlt : l.length % o.pa.num < o.pa.num := Nat.mod_lt _ hpos
    obtain ⟨entry, hentry⟩ := entry_of_lists h hlt
    have hread := hturn.next rfl hs
    simp only [hlen] at hread
    subst hread
    refine ⟨hlt, entry, hentry, ?_⟩
    simp only [List.getElem?_map, List.getElem?_take_of_lt hlt, hentry]
    rfl
  · rintro front window back rfl hwindow j hj
    have hindex := congrArg (List.map Selection.index) hturn.calls
    simp only [hlen, List.map_append, List.map_map] at hindex
    exact count_window hindex ((List.length_map _).trans hwindow) hj

/-! ## A client whose back end refuses

One client after the other asks for a back end, and no connection to a back end comes about. -/

/-- The globals of a proxy that listens on descriptor 3. -/
def proxyOf (pa : List ProxyAddr) : Globals := ⟨[3], pa, true, 0, 4⟩

/-- The context of its listener. -/
def listener (pa : List ProxyAddr) (events : BitVec 32) : ConnContext :=
  { (default : ConnContext).reset.listens (proxyOf pa) 3 with events }

/-- What earlier clients have left behind. -/
structure Leftover where
  events : BitVec 32
  ctx : ConnContext
  others : List ConnContext
  counted : List (ℤ × Counter)
  owner : ℤ → Option ℕ
  faults : List Fault

/-- The worker without a client. -/
def Leftover.idle (s : Leftover) (pa : List ProxyAddr) (last : ℕ) (batch : List Event) :
    Worker where
  pool := ⟨8192, 1, 1, listener pa s.events :: s.ctx :: s.others⟩
  last
  interest := [⟨3, 0, inHupErr⟩]
  batch
  counted := s.counted
  inUse := [0]
  owner := s.owner
  faults := s.faults

/-- The context of the client on descriptor 5. -/
def Leftover.client (s : Leftover) (pa : List ProxyAddr) : ConnContext :=
  { s.ctx.reset.accepted (listener pa epollIn) 5 with fdAdded := true }

/-- The worker with this client. -/
def Leftover.waiting (s : Leftover) (pa : List ProxyAddr) (last : ℕ) (batch : List Event) :
    Worker where
  pool := ⟨8192, 2, s.ctx.nextIdx, listener pa epollIn :: s.client pa :: s.others⟩
  last
  interest := [⟨3, 0, inHupErr⟩, ⟨5, 1, inHupErr⟩]
  batch
  counted := s.counted
  inUse := [1, 0]
  owner := Function.update s.owner 5 (some 1)
  faults := s.faults

/-- A client is accepted on descriptor 5. -/
def accepting : Results := ⟨5, some [], 0, -1, true, true, true, true⟩

/-- A back end is asked for on descriptor 6, and refuses. -/
def refused : Results := ⟨-1, some [], 0, 6, true, false, true, true⟩

/-- The call of `process_read_frontend` for the client. -/
def Leftover.refusedCall (s : Leftover) (pa : List ProxyAddr) (a : ProxyAddr) (last : ℕ) :
    Call where
  ctx := { s.client pa with events := epollIn, dataLen := 0, endFd := 6 }
  last
  ops := [.received 5 [], .mod 5 hupErr, .opened 6, .connecting 6 a]
  counter := none

theorem isHupErr_epollIn : isHupErr epollIn = false := by decide

variable {pa : List ProxyAddr} {s : Leftover}

theorem Leftover.accept (s : Leftover) (pa : List ProxyAddr) (k : ℕ) : ∃ faults,
    worker.step (s.idle pa k [⟨3, 0, epollIn⟩]) (.call accepting) =
      some ({ s with faults }.waiting pa k []) := by
  refine ⟨if 0 ∈ [0] ∧ 3 ∈ (listener pa s.events).fds then s.faults else .stale :: s.faults, ?_⟩
  change processAccept ({ s with
    events := epollIn
    faults := if 0 ∈ [0] ∧ 3 ∈ (listener pa s.events).fds then s.faults else .stale :: s.faults
    }.idle pa k []) (listener pa epollIn) accepting = _
  rw [processAccept, if_neg (by rw [listener, isHupErr_epollIn]; exact Bool.false_ne_true),
    if_neg (by decide)]
  rfl

theorem Leftover.readFrontend (s : Leftover) (ha : pa[k]? = some a) :
    processReadFrontend ⟨{ s.client pa with events := epollIn }, k, [], none⟩ refused =
      some (.freeBack (s.refusedCall pa a (if k + 1 = pa.length then 0 else k + 1))) := by
  rw [processReadFrontend,
    if_neg (by dsimp only; rw [isHupErr_epollIn]; exact Bool.false_ne_true)]
  simp only [refused, Bool.not_true, Bool.false_eq_true, if_false, show ¬ (6 : ℤ) < 0 by decide]
  change Option.bind (Option.bind pa[k]? _) _ = _
  rw [ha]
  rfl

/-- The client is gone, and the cursor has moved on. -/
theorem Leftover.refuse (s : Leftover) (ha : pa[k]? = some a) : ∃ s' : Leftover,
    worker.step (s.waiting pa k [⟨5, 1, epollIn⟩]) (.call refused) =
      some (s'.idle pa (if k + 1 = pa.length then 0 else k + 1) []) ∧
    s'.owner 5 = none ∧ s'.owner 6 = none := by
  let ctx : ConnContext := { s.client pa with events := epollIn }
  let d := s.refusedCall pa a (if k + 1 = pa.length then 0 else k + 1)
  obtain ⟨faults, hstep⟩ : ∃ faults,
      worker.step (s.waiting pa k [⟨5, 1, epollIn⟩]) (.call refused) =
        (some (Handled.freeBack d)).bind
          (({ s with faults }.waiting pa k []).setContext 1 ctx |>.into 1) := by
    refine ⟨if 1 ∈ [1, 0] ∧ 5 ∈ ctx.fds then s.faults else .stale :: s.faults, ?_⟩
    rw [← s.readFrontend ha]
    rfl
  have hfds : d.ctx.fds = [5, 6] := rfl
  let opened := Function.update (Function.update s.owner 5 (some 1)) 6 (some 1)
  let owner := Function.update (Function.update opened 5 none) 6 none
  obtain ⟨faults', hidle⟩ : ∃ faults',
      worker.step (s.waiting pa k [⟨5, 1, epollIn⟩]) (.call refused) =
        some (Leftover.idle ⟨epollIn, { d.ctx with nextIdx := s.ctx.nextIdx }, s.others,
          s.counted ++ [], owner, faults'⟩ pa d.last []) := by
    refine ⟨?_, ?_⟩
    rotate_left
    · rw [hstep, Option.bind_some, Worker.into, processClose_eq, hfds, List.foldl_cons,
        List.foldl_cons, List.foldl_nil]
      rfl
  have hfive : owner 5 = none :=
    (Function.update_of_ne (by decide) ..).trans (Function.update_self ..)
  have hsix : owner 6 = none := Function.update_self ..
  exact ⟨_, hidle, hfive, hsix⟩

/-- A worker that can serve the client on descriptor 5. -/
def Idle (pa : List ProxyAddr) (k : ℕ) (w : Worker) : Prop :=
  ∃ s : Leftover, w = s.idle pa k [] ∧ s.owner 5 = none ∧ s.owner 6 = none

theorem processClientsInit_proxyOf (pa : List ProxyAddr) :
    processClientsInit (proxyOf pa) (List.replicate maxConnsPerWorker default) = some
      { pool := ⟨8192, 1, 1,
          listener pa 0 :: { (default : ConnContext) with nextIdx := 2 } :: otherContexts⟩
        last := 0
        interest := [⟨3, 0, inHupErr⟩]
        batch := []
        counted := []
        inUse := [0]
        owner := Function.update (fun _ => none) 3 (some 0)
        faults := [] } := by
  rw [processClientsInit, initPool_max]
  rfl

theorem idle_init (pa : List ProxyAddr) : ∃ w,
    processClientsInit (proxyOf pa) (List.replicate maxConnsPerWorker default) = some w ∧
      Idle pa 0 w := by
  refine ⟨_, processClientsInit_proxyOf pa, ?_⟩
  generalize otherContexts = others
  exact ⟨⟨0, { (default : ConnContext) with nextIdx := 2 }, others, [],
    Function.update (fun _ => none) 3 (some 0), []⟩, rfl, rfl, rfl⟩

/-- The client comes to the point where it asks for a back end. -/
theorem Idle.asks (h : Idle pa k w) : ∃ s : Leftover,
    worker.Runs w (s.waiting pa k [⟨5, 1, epollIn⟩]) ∧
      worker.Enabled (s.waiting pa k [⟨5, 1, epollIn⟩]) (.call refused) := by
  obtain ⟨s, rfl, hfive, hsix⟩ := h
  obtain ⟨faults, hstep⟩ := s.accept pa k
  have howner : Function.update s.owner 5 (some 1) 6 = none :=
    (Function.update_of_ne (by decide) ..).trans hsix
  refine ⟨{ s with faults }, .head (e := .wait [⟨3, 0, epollIn⟩]) ?_ rfl <|
    .head (e := .call accepting) ?_ hstep <|
    .head (e := .wait [⟨5, 1, epollIn⟩]) ?_ rfl .refl, ?_⟩
  · exact ⟨rfl, by decide, by decide, List.forall_mem_singleton.mpr
      ⟨⟨3, 0, inHupErr⟩, .head _, rfl, rfl, by decide⟩⟩
  · exact ⟨fun _ => hfive, fun h => absurd h (by decide)⟩
  · exact ⟨rfl, by decide, by decide, List.forall_mem_singleton.mpr
      ⟨⟨5, 1, inHupErr⟩, .tail _ (.head _), rfl, rfl, by decide⟩⟩
  · exact ⟨fun h => absurd h (by decide), fun _ => howner⟩

/-- A client that is refused moves the cursor on. -/
theorem Idle.next (h : Idle pa k w) (hk : k + 1 < pa.length) :
    ∃ w', worker.Runs w w' ∧ Idle pa (k + 1) w' := by
  obtain ⟨s, hruns, he⟩ := h.asks
  obtain ⟨s', hstep, hfive, hsix⟩ := s.refuse (List.getElem?_eq_getElem (Nat.lt_of_succ_lt hk))
  rw [if_neg hk.ne] at hstep
  exact ⟨_, hruns.step he hstep, s', rfl, hfive, hsix⟩

/-- The cursor comes to each entry of the list. -/
theorem idle_reaches (pa : List ProxyAddr) (hk : k = 0 ∨ k < pa.length) : ∃ w₀ w,
    processClientsInit (proxyOf pa) (List.replicate maxConnsPerWorker default) = some w₀ ∧
      worker.Runs w₀ w ∧ Idle pa k w := by
  induction k with
  | zero =>
    obtain ⟨w, hinit, hidle⟩ := idle_init pa
    exact ⟨w, w, hinit, .refl, hidle⟩
  | succ k ih =>
    have hlt : k + 1 < pa.length := hk.resolve_left (Nat.succ_ne_zero k)
    obtain ⟨w₀, w, hinit, hruns, hidle⟩ := ih (.inr (Nat.lt_of_succ_lt hlt))
    obtain ⟨w', hruns', hidle'⟩ := hidle.next hlt
    exact ⟨w₀, w', hinit, hruns.trans hruns', hidle'⟩

/-- Where the calls go in turn, each entry that the cursor comes to has been filled. -/
theorem SelectsInTurn.filled {o : Options} (h : SelectsInTurn o) (htables : o.Tables)
    (hk : k = 0 ∨ k < o.pa.num) : k < o.pa.num ∧ ∃ entry, o.pa.entries[k]? = some (some entry) := by
  obtain ⟨pa, hpa, hall⟩ := h
  obtain ⟨hnum, heq⟩ := backEnds_eq hpa
  have hlen : pa.length = o.pa.num := by
    rw [heq, List.length_map, List.length_take, htables.pa, Nat.min_eq_left hnum]
  obtain ⟨w₀, w, hinit, hruns, hidle⟩ := idle_reaches pa (hlen ▸ hk)
  obtain ⟨s, hasks, he⟩ := hidle.asks
  obtain ⟨l, hl⟩ := (hruns.trans hasks).runsWith Worker.selections
  have hsel : ⟨k, pa[k]?⟩ ∈ (s.waiting pa k [⟨5, 1, epollIn⟩]).selections (.call refused) := by
    have hcalled : (s.waiting pa k [⟨5, 1, epollIn⟩]).called =
        some { s.client pa with events := epollIn } := rfl
    have hselecting : Selecting { s.client pa with events := epollIn } refused :=
      ⟨⟨rfl, isHupErr_epollIn, by decide, rfl, by decide⟩, rfl⟩
    rw [Worker.selections, hcalled]
    simp only [if_pos hselecting]
    exact List.mem_singleton.mpr rfl
  obtain ⟨hlt, entry, hentry, -⟩ :=
    (hall _ _ _ _ _ l _ List.length_replicate hinit hl).1 _ he _ hsel
  exact ⟨hlt, entry, hentry⟩

/-- **The back ends are selected in turn** exactly if one `-x`, and no other, takes addresses.
Without any address `select_backend` reads an entry although there is none, and with the addresses
of two `-x` it comes to an entry that has never been filled, or the list does not fit into a
context. -/
theorem backEnds_inTurn_iff (inetAton : Bytes → Option ℕ) (dm : DataModel) (args : List Bytes)
    (fuel : ℕ) (h : args.length < fuel) :
    ∃ o, optionLoop inetAton dm fuel args .init = .ok o ∧
      (o.enableProxy = true → (SelectsInTurn o ↔ ExactlyOneTakes (proxyAddrs args))) := by
  refine ⟨optionsOf inetAton dm args, optionLoop_init h, ?_⟩
  intro _
  have htables : (optionsOf inetAton dm args).Tables := tables_optionsOf
  have hpa : (optionsOf inetAton dm args).pa = _ := pa_optionsOf
  constructor
  · intro hturn
    have hnum : (optionsOf inetAton dm args).pa.num = (proxyAddrs args).flatten.length := by
      rw [hpa, RefillTable.num_fills]
      exact Nat.zero_add _
    have hfit : (proxyAddrs args).flatten.length ≤ maxProxyAddress := by
      obtain ⟨pa, hback, -⟩ := hturn
      exact hnum ▸ (backEnds_eq hback).1
    have hpos : 0 < (proxyAddrs args).flatten.length := hnum ▸ (hturn.filled htables (.inl rfl)).1
    have hsome : (proxyAddrs args).filter (fun g => !g.isEmpty) ≠ [] := by
      intro hnil
      rw [← RefillTable.flatten_filter, hnil] at hpos
      exact absurd hpos (by simp)
    have hone : ¬ 2 ≤ ((proxyAddrs args).filter fun g => !g.isEmpty).length := by
      intro htwo
      have hlast : (optionsOf inetAton dm args).pa.entries[(proxyAddrs args).flatten.length - 1]? =
          some none := by
        rw [hpa]
        exact (RefillTable.getElem?_fills_last htwo hfit).2
      obtain ⟨-, entry, hentry⟩ := hturn.filled htables
        (k := (proxyAddrs args).flatten.length - 1) (.inr (by omega))
      rw [hlast] at hentry
      simp at hentry
    have := List.length_pos_of_ne_nil hsome
    rw [ExactlyOneTakes]
    omega
  · intro hone
    rw [ExactlyOneTakes] at hone
    have hlists : (optionsOf inetAton dm args).pa.Lists (storeArg inetAton dm)
        (proxyAddrs args).flatten := by
      rw [hpa]
      exact (RefillTable.lists_fills_iff length_le_of_mem_proxyAddrs).mpr hone.le
    refine selectsInTurn_of_lists htables hlists ?_
    rw [← RefillTable.flatten_filter]
    obtain ⟨g, hg⟩ := List.length_eq_one_iff.mp hone
    have hmem : g ∈ (proxyAddrs args).filter fun g => !g.isEmpty := hg ▸ List.mem_singleton_self g
    have hne : g ≠ [] := by simpa using (List.mem_filter.mp hmem).2
    simpa [hg] using hne

/-- Two back ends behind one `-x`. -/
theorem backEnds_inTurn_iff_two : ∃ o,
    optionLoop atonOfTwo .lp64 4 [ascii "-x", ascii "10.0.0.1:80", ascii "10.0.0.2:80"] .init =
      .ok o ∧ o.enableProxy = true ∧ o.pa.num = 2 ∧ SelectsInTurn o := by
  obtain ⟨o, hrun, hiff⟩ := backEnds_inTurn_iff atonOfTwo .lp64
    [ascii "-x", ascii "10.0.0.1:80", ascii "10.0.0.2:80"] 4 (by decide)
  have ho : o = optionsOf atonOfTwo .lp64 [ascii "-x", ascii "10.0.0.1:80", ascii "10.0.0.2:80"] :=
    Except.ok.inj (hrun.symm.trans (optionLoop_init (by decide)))
  have hproxy : o.enableProxy = true := by
    rw [ho]
    decide
  refine ⟨o, hrun, hproxy, ?_, (hiff hproxy).mpr (by decide)⟩
  rw [ho]
  decide

/-- Behind `-x` stands another option; the proxy is on, and has no back end to select. -/
theorem not_inTurn_without_address : ∃ o,
    optionLoop atonOfTwo .lp64 3 [ascii "-x", ascii "-d"] .init = .ok o ∧ o.enableProxy = true ∧
      ¬ SelectsInTurn o := by
  refine ⟨optionsOf atonOfTwo .lp64 [ascii "-x", ascii "-d"], optionLoop_init (by decide),
    by decide, ?_⟩
  intro hturn
  have hpos := (hturn.filled tables_optionsOf (.inl rfl)).1
  exact absurd hpos (by decide)

end MultProcess
end CModel
