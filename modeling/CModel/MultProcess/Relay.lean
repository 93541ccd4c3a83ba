import CModel.Foundation.System
import CModel.MultProcess.HandlerSteps

/-!
# What the proxy relays

A connection goes through its four handlers: the request is read from the client and written to the
back end, the answer read from the back end and written to the client, each through the one buffer
of the context.

* `Relay`, `relay`: a connection with what has gone through its two sockets, and the calls of its
  handlers, with any results that the system calls can have.
* `Relayed`: what has been read on the one side has been written on the other.
* `Short`: a `write` that is done and does not take all of `data_len` bytes, before the connection
  goes on.
* `Stage`: what is where, for each handler.
* `relayed_iff_not_short`: **without such a `write` nothing is lost, and the first one loses
  bytes.**
-/

namespace CModel
namespace MultProcess

/-- A connection of the proxy, and what has gone through its sockets. -/
structure Relay where
  ctx : ConnContext
  last : ℕ
  closed : Bool
  /-- whether the transaction has been counted in `trancnt` -/
  counted : Bool
  fromClient : Bytes
  toBackend : Bytes
  fromBackend : Bytes
  toClient : Bytes

/-- The connection behind `process_accept`. -/
def Relay.init (ctx : ConnContext) (last : ℕ) : Relay := ⟨ctx, last, false, false, [], [], [], []⟩

/-- What an operation does to the two sockets. -/
def Relay.op (s : Relay) : Op → Relay
  | .received fd data =>
    if fd = s.ctx.fd then { s with fromClient := s.fromClient ++ data }
    else { s with fromBackend := s.fromBackend ++ data }
  | .sent fd data =>
    if fd = s.ctx.fd then { s with toClient := s.toClient ++ data }
    else { s with toBackend := s.toBackend ++ data }
  | _ => s

/-- The connection behind a call of its handler. -/
def Relay.after (s : Relay) (c : Call) (closed : Bool) : Relay :=
  { c.ops.foldl Relay.op s with
    ctx := c.ctx
    last := c.last
    closed
    counted := s.counted || c.counter = some .trancnt }

/-- An event of the connection, with the results of the system calls that its handler does. -/
structure RelayEvent where
  events : BitVec 32
  results : Results

/-- Where the handler of the connection starts. -/
def Relay.call (s : Relay) (e : RelayEvent) : Call :=
  { ctx := { s.ctx with events := e.events }, last := s.last, ops := [], counter := none }

/-- What the system calls can return: `read` at most what fits into the buffer, `write` at most what
it is asked to, `socket` a descriptor that is not open. -/
def Relay.Enabled (s : Relay) (e : RelayEvent) : Prop :=
  s.closed = false ∧ (∀ data, e.results.read = some data → data.length ≤ maxBufsize) ∧
    (s.ctx.handler = .processWriteBackend ∨ s.ctx.handler = .processWriteFrontend →
      e.results.write ≤ s.ctx.dataLen) ∧
    e.results.socket ≠ s.ctx.fd

/-- The connection where its handler ends. -/
def Relay.into (s : Relay) : Handled → Relay
  | .back c => s.after c false
  | .freeBack c => s.after c true

/-- One call of the handler. -/
def Relay.step (s : Relay) (e : RelayEvent) : Option Relay :=
  (handle (s.call e) e.results).map s.into

/-- The calls of the handlers of one connection. -/
def relay : System Relay RelayEvent := ⟨Relay.Enabled, Relay.step⟩

/-- Where `process_write_backend` has left the connection to `process_read_backend` the back end has
got what has been read from the client, and where the transaction has been counted the client has
got what has been read from the back end. -/
def Relayed (s : Relay) : Prop :=
  (s.ctx.handler = .processReadBackend → s.closed = false → s.toBackend = s.fromClient) ∧
    (s.counted = true → s.toClient = s.fromBackend)

/-- A `write` that takes less than `data_len` bytes, where the handler does not fail. -/
def Short (s : Relay) (e : RelayEvent) : Prop :=
  e.results.write < s.ctx.dataLen ∧
    match s.ctx.handler with
    | .processWriteBackend => ¬Closes (s.call e).ctx e.results
    | .processWriteFrontend => 0 ≤ e.results.write ∧ s.ctx.flags &&& proxyBackendEvent = 0
    | _ => False

/-! ## The stages of a connection -/

/-- What has gone through the sockets of a connection that is open. -/
def Stage (s : Relay) : Prop :=
  s.counted = false ∧ s.toClient = [] ∧
    match s.ctx.handler with
    | .processReadFrontend => s.fromClient = [] ∧ s.toBackend = [] ∧ s.fromBackend = []
    | .processWriteBackend => Holds s.ctx s.fromClient ∧ s.toBackend = [] ∧ s.fromBackend = [] ∧
        s.ctx.endFd ≠ s.ctx.fd
    | .processReadBackend => s.toBackend = s.fromClient ∧ s.fromBackend = [] ∧
        s.ctx.endFd ≠ s.ctx.fd
    | .processWriteFrontend => Holds s.ctx s.fromBackend
    | _ => False

variable {s s' : Relay} {e : RelayEvent} {ctx : ConnContext} {last : ℕ} {data : Bytes} {h : Handled}

/-- How much of what the buffer holds a `write` takes. -/
theorem Holds.take_eq_iff (h : Holds ctx data) {ret : ℤ} (hret : 0 ≤ ret)
    (hle : ret ≤ ctx.dataLen) : ctx.buf.take ret.toNat = data ↔ ret = ctx.dataLen := by
  obtain ⟨hlen, htake⟩ := h
  constructor
  · intro heq
    have hbuf : data.length ≤ ctx.buf.length := by
      rw [← htake, List.length_take]
      exact Nat.min_le_right ..
    have hlength := congrArg List.length heq
    rw [List.length_take] at hlength
    omega
  · intro heq
    rw [heq, hlen, Int.toNat_natCast, htake]

theorem Relay.start_call {handler : Handler} (hhandler : s.ctx.handler = handler) :
    (s.call e).Start handler :=
  ⟨hhandler, rfl, rfl⟩

/-- What a step does: it loses bytes exactly where there is a short `write`, and else leaves the
connection, if it is open, with everything in its place. -/
structure Goes (s : Relay) (e : RelayEvent) (s' : Relay) : Prop where
  relayed : Relayed s' ↔ ¬Short s e
  stage : ¬Short s e → s'.closed = false → Stage s'

/-- A connection that is closed without having been counted. -/
theorem goes_of_closed {c : Call} (hshort : ¬Short s e) (hs : s.counted = false)
    (hcounter : c.counter ≠ some .trancnt) : Goes s e (s.into (.freeBack c)) where
  relayed := by
    refine iff_of_true ⟨?_, ?_⟩ hshort
    · intro _ hopen
      exact absurd hopen (by simp [Relay.into, Relay.after])
    · intro hcounted
      exact absurd hcounted (by simp [Relay.into, Relay.after, hs, hcounter])
  stage _ hopen := absurd hopen (by simp [Relay.into, Relay.after])

/-! ## One lemma for each handler -/

theorem goes_readFrontend (hs : Stage s) (hhandler : s.ctx.handler = .processReadFrontend)
    (hsocket : e.results.socket ≠ s.ctx.fd)
    (hspec : ReadFrontendSpec (s.call e) e.results h) : Goes s e (s.into h) := by
  have hshort : ¬Short s e := fun h => by simp [Short, hhandler] at h
  obtain ⟨hcounted, hclient, hstage⟩ := hs
  rw [hhandler] at hstage
  obtain ⟨hfrom, hto, hback⟩ := hstage
  cases hspec with
  | closes frame counter why => exact goes_of_closed hshort hcounted counter
  | @goes c data addr frame counter why holds opens handler endFd ops =>
    have hfd : c.ctx.fd = s.ctx.fd := frame.fd
    have hread : (s.into (.back c)).fromClient = data := by
      simp [Relay.into, Relay.after, ops, Relay.op, Relay.call, hfrom]
    have hrest : (s.into (.back c)).counted = false ∧ (s.into (.back c)).toClient = [] ∧
        (s.into (.back c)).toBackend = [] ∧ (s.into (.back c)).fromBackend = [] := by
      simp [Relay.into, Relay.after, ops, Relay.op, Relay.call, counter, hcounted, hclient, hto,
        hback]
    refine ⟨iff_of_true ⟨?_, ?_⟩ hshort, fun _ _ => ⟨hrest.1, hrest.2.1, ?_⟩⟩
    · intro hnext
      exact absurd (handler.symm.trans hnext) (by simp)
    · intro hnext
      exact absurd (hrest.1.symm.trans hnext) (by simp)
    · have hnext : (s.into (.back c)).ctx.handler = .processWriteBackend := handler
      rw [hnext]
      refine ⟨?_, hrest.2.2.1, hrest.2.2.2, ?_⟩
      · rw [hread]
        exact holds
      · change c.ctx.endFd ≠ c.ctx.fd
        rw [endFd, hfd]
        exact hsocket

theorem goes_writeBackend (hs : Stage s) (hhandler : s.ctx.handler = .processWriteBackend)
    (hwrite : e.results.write ≤ s.ctx.dataLen)
    (hspec : WriteBackendSpec (s.call e) e.results h) : Goes s e (s.into h) := by
  obtain ⟨hcounted, hclient, hstage⟩ := hs
  rw [hhandler] at hstage
  obtain ⟨hholds, hto, hback, hne⟩ := hstage
  have hshort : Short s e ↔
      e.results.write < s.ctx.dataLen ∧ ¬Closes (s.call e).ctx e.results := by
    rw [Short, hhandler]
  cases hspec with
  | closes frame counter why =>
    exact goes_of_closed (fun h => (hshort.mp h).2 why) hcounted (by simp [counter])
  | @goes c frame counter why handler ops =>
    have hpos : 0 ≤ e.results.write := by
      by_contra hneg
      exact why (by simp [Closes, Relay.call, hhandler, Int.not_le.mp hneg])
    have hgone : (s.into (.back c)).fromClient = s.fromClient ∧
        (s.into (.back c)).toBackend = s.ctx.buf.take e.results.write.toNat := by
      simp [Relay.into, Relay.after, ops, Relay.op, Relay.call, hne, hto]
    have hrest : (s.into (.back c)).counted = false ∧ (s.into (.back c)).toClient = [] ∧
        (s.into (.back c)).fromBackend = [] := by
      simp [Relay.into, Relay.after, ops, Relay.op, Relay.call, counter, hcounted, hclient, hback,
        hne]
    have hall : (s.into (.back c)).toBackend = (s.into (.back c)).fromClient ↔ ¬Short s e := by
      rw [hgone.1, hgone.2, hholds.take_eq_iff hpos hwrite, hshort]
      constructor
      · exact fun heq hless => absurd heq (Int.ne_of_lt hless.1)
      · exact fun hless => le_antisymm hwrite (Int.not_lt.mp fun hlt => hless ⟨hlt, why⟩)
    refine ⟨⟨fun hrel => hall.mp (hrel.1 handler rfl), fun hless => ⟨fun _ _ => hall.mpr hless,
      fun hnext => absurd (hrest.1.symm.trans hnext) (by simp)⟩⟩, fun hless _ =>
      ⟨hrest.1, hrest.2.1, ?_⟩⟩
    have hnext : (s.into (.back c)).ctx.handler = .processReadBackend := handler
    have hfd : c.ctx.fd = s.ctx.fd := frame.fd
    have hend : c.ctx.endFd = s.ctx.endFd := frame.endFd_eq (by simp [Relay.call, hhandler])
    rw [hnext]
    refine ⟨hall.mpr hless, hrest.2.2, ?_⟩
    change c.ctx.endFd ≠ c.ctx.fd
    rw [hfd, hend]
    exact hne

theorem goes_readBackend (hs : Stage s) (hhandler : s.ctx.handler = .processReadBackend)
    (hspec : ReadBackendSpec (s.call e) e.results h) : Goes s e (s.into h) := by
  have hshort : ¬Short s e := fun h => by simp [Short, hhandler] at h
  obtain ⟨hcounted, hclient, hstage⟩ := hs
  rw [hhandler] at hstage
  obtain ⟨-, hback, hne⟩ := hstage
  cases hspec with
  | closes frame counter why => exact goes_of_closed hshort hcounted counter
  | @goes c data frame counter why holds handler ops =>
    have hread : (s.into (.back c)).fromBackend = data := by
      simp [Relay.into, Relay.after, ops, Relay.op, Relay.call, hne, hback]
    have hrest : (s.into (.back c)).counted = false ∧ (s.into (.back c)).toClient = [] := by
      simp [Relay.into, Relay.after, ops, Relay.op, Relay.call, counter, hcounted, hclient, hne]
    refine ⟨iff_of_true ⟨?_, ?_⟩ hshort, fun _ _ => ⟨hrest.1, hrest.2, ?_⟩⟩
    · intro hnext
      exact absurd (handler.symm.trans hnext) (by simp)
    · intro hnext
      exact absurd (hrest.1.symm.trans hnext) (by simp)
    · have hnext : (s.into (.back c)).ctx.handler = .processWriteFrontend := handler
      rw [hnext, hread]
      exact holds

theorem goes_writeFrontend (hs : Stage s) (hhandler : s.ctx.handler = .processWriteFrontend)
    (hwrite : e.results.write ≤ s.ctx.dataLen)
    (hspec : WriteFrontendSpec (s.call e) e.results h) : Goes s e (s.into h) := by
  obtain ⟨hcounted, hclient, hholds⟩ := hs
  rw [hhandler] at hholds
  have hshort : Short s e ↔ e.results.write < s.ctx.dataLen ∧ 0 ≤ e.results.write ∧
      s.ctx.flags &&& proxyBackendEvent = 0 := by
    rw [Short, hhandler]
  cases hspec with
  | fails frame counter why =>
    refine goes_of_closed ?_ hcounted (by simp [counter])
    intro h
    obtain ⟨-, hpos, hflag⟩ := hshort.mp h
    exact why.elim (fun hset => hset hflag) (Int.not_lt.mpr hpos)
  | @counts c frame counter flag pos ops =>
    have hgone : (s.into (.freeBack c)).fromBackend = s.fromBackend ∧
        (s.into (.freeBack c)).toClient = s.ctx.buf.take e.results.write.toNat := by
      simp [Relay.into, Relay.after, ops, Relay.op, Relay.call, hclient]
    have hall : (s.into (.freeBack c)).toClient = (s.into (.freeBack c)).fromBackend ↔
        ¬Short s e := by
      rw [hgone.1, hgone.2, hholds.take_eq_iff pos hwrite, hshort]
      constructor
      · exact fun heq hless => absurd heq (Int.ne_of_lt hless.1)
      · exact fun hless => le_antisymm hwrite (Int.not_lt.mp fun hlt => hless ⟨hlt, pos, flag⟩)
    have hnow : (s.into (.freeBack c)).counted = true := by
      simp [Relay.into, Relay.after, counter]
    refine ⟨⟨fun hrel => hall.mp (hrel.2 hnow), fun hless => ⟨?_, fun _ => hall.mpr hless⟩⟩, ?_⟩
    · intro _ hopen
      exact absurd hopen (by simp [Relay.into, Relay.after])
    · intro _ hopen
      exact absurd hopen (by simp [Relay.into, Relay.after])

theorem Stage.goes (hs : Stage s) (he : s.Enabled e) (hstep : s.step e = some s') :
    Goes s e s' := by
  obtain ⟨-, -, hwrite, hsocket⟩ := he
  obtain ⟨h, hhandle, rfl⟩ := Option.map_eq_some_iff.mp hstep
  have hcall : (s.call e).ctx.handler = s.ctx.handler := rfl
  cases hhandler : s.ctx.handler <;> rw [handle, hcall, hhandler] at hhandle
  case processReadFrontend =>
    exact goes_readFrontend hs hhandler hsocket (readFrontendSpec (s.start_call hhandler) hhandle)
  case processWriteBackend =>
    obtain rfl := Option.some.inj hhandle
    exact goes_writeBackend hs hhandler (hwrite (.inl hhandler))
      (writeBackendSpec (s.start_call hhandler))
  case processReadBackend =>
    obtain rfl := Option.some.inj hhandle
    exact goes_readBackend hs hhandler (readBackendSpec (s.start_call hhandler))
  case processWriteFrontend =>
    obtain rfl := Option.some.inj hhandle
    exact goes_writeFrontend hs hhandler (hwrite (.inr hhandler))
      (writeFrontendSpec (s.start_call hhandler))
  case processAccept => exact absurd hhandle (by simp)
  case processRead => exact absurd hs.2.2 (by simp [hhandler])
  case processWrite => exact absurd hs.2.2 (by simp [hhandler])

/-! ## Runs -/

theorem stage_init (hctx : ctx.handler = .processReadFrontend) : Stage (Relay.init ctx last) := by
  refine ⟨rfl, rfl, ?_⟩
  have hhandler : (Relay.init ctx last).ctx.handler = .processReadFrontend := hctx
  rw [hhandler]
  exact ⟨rfl, rfl, rfl⟩

theorem relayed_init (hctx : ctx.handler = .processReadFrontend) :
    Relayed (Relay.init ctx last) := by
  refine ⟨?_, fun hcounted => absurd hcounted (by simp [Relay.init])⟩
  intro hnext
  exact absurd (hctx.symm.trans hnext) (by simp)

/-- Without a short `write` nothing is lost, and everything is in its place. -/
theorem relayed_runs (hctx : ctx.handler = .processReadFrontend)
    (hruns : (relay.only fun s e => ¬Short s e).Runs (Relay.init ctx last) s) :
    Relayed s ∧ (s.closed = false → Stage s) := by
  refine hruns.keep (P := fun t => Relayed t ∧ (t.closed = false → Stage t))
    ⟨relayed_init hctx, fun _ => stage_init hctx⟩ ?_
  rintro t t' e ⟨-, ht⟩ ⟨he, hshort⟩ hstep
  have hgoes := (ht he.1).goes he hstep
  exact ⟨hgoes.relayed.mpr hshort, hgoes.stage hshort⟩

/-- From a connection that has just been accepted on: as long as no `write` that is done takes less
than `data_len` bytes, everything that has been read is written, and the first such `write` loses
bytes. -/
theorem relayed_iff_not_short (hctx : ctx.handler = .processReadFrontend)
    (hruns : (relay.only fun s e => ¬Short s e).Runs (Relay.init ctx last) s) :
    Relayed s ∧ ∀ e s', s.Enabled e → s.step e = some s' → (Relayed s' ↔ ¬Short s e) := by
  obtain ⟨hrel, hstage⟩ := relayed_runs hctx hruns
  exact ⟨hrel, fun e s' he hstep => ((hstage he.1).goes he hstep).relayed⟩

/-- A connection of the proxy, its client on descriptor 7. -/
def connSeven : ConnContext :=
  { (default : ConnContext) with fd := 7, handler := .processReadFrontend, pa := [⟨80, 0⟩] }

/-- A request of two bytes, the back end on descriptor 8, and then a `write` that takes `ret`. -/
def twoBytes (ret : ℤ) : Results := ⟨-1, some [1, 2], ret, 8, true, true, true, true⟩

/-- The back end has got both bytes, and goes on with the connection. -/
theorem relayed_iff_not_short_two : ∃ s, (relay.only fun s e => ¬Short s e).Runs
    (Relay.init connSeven 0) s ∧ s.toBackend = [1, 2] ∧
    (Relayed s ∧ ∀ e s', s.Enabled e → s.step e = some s' → (Relayed s' ↔ ¬Short s e)) := by
  have hruns : (relay.only fun s e => ¬Short s e).Runs (Relay.init connSeven 0) _ :=
    .head (e := ⟨epollIn, twoBytes 2⟩)
      ⟨⟨rfl, by simp [twoBytes, maxBufsize], by simp [Relay.init, connSeven],
        by simp [twoBytes, Relay.init, connSeven]⟩, by simp [Short, Relay.init, connSeven]⟩ rfl <|
    .head (e := ⟨epollOut, twoBytes 2⟩)
      ⟨⟨rfl, by simp [twoBytes, maxBufsize], fun _ => show (2 : ℤ) ≤ 2 by decide,
        show (8 : ℤ) ≠ 7 by decide⟩, fun h => absurd h.1 (show ¬(2 : ℤ) < 2 by decide)⟩ rfl .refl
  exact ⟨_, hruns, rfl, relayed_iff_not_short rfl hruns⟩

/-- The back end takes one byte of the two, and is asked for its answer. -/
theorem short_write_loses : ∃ s, relay.Runs (Relay.init connSeven 0) s ∧ ¬Relayed s := by
  have hruns : relay.Runs (Relay.init connSeven 0) _ :=
    .head (e := ⟨epollIn, twoBytes 1⟩)
      ⟨rfl, by simp [twoBytes, maxBufsize], by simp [Relay.init, connSeven],
        by simp [twoBytes, Relay.init, connSeven]⟩ rfl <|
    .head (e := ⟨epollOut, twoBytes 1⟩)
      ⟨rfl, by simp [twoBytes, maxBufsize], fun _ => show (1 : ℤ) ≤ 2 by decide,
        show (8 : ℤ) ≠ 7 by decide⟩ rfl .refl
  refine ⟨_, hruns, ?_⟩
  intro h
  exact absurd (h.1 rfl rfl) (show ([1] : Bytes) ≠ [1, 2] by decide)

end MultProcess
end CModel
