import CModel.MultProcess.Worker

/-!
# The states of a proxied connection

The handler of a connection, its flag `PROXY_BACKEND_EVENT` and its descriptor for the back end are
set in separate statements, with system calls between them that can fail, and `alloc_context` does
not reset the flags.

* `Proxied`, `proxied`: a connection from `process_accept` on, with the descriptors that are open
  and watched for it, and any calls of its handlers.
* `Mismatch`: the tests of the handlers that print that the back end is enabled, or not.
* `back_readFrontend`, `back_writeBackend`, `back_readBackend`: what a handler leaves behind where
  it goes on with the connection.
* `InStep`: handler, flag and descriptors agree.
* `proxied_inStep`: **they agree whenever the connection waits for an event, so that none of these
  tests ever holds.**
-/

namespace CModel
namespace MultProcess

/-! ## A connection -/

/-- A connection of the proxy, with the descriptors that are open for it, and those of them that
`epoll` watches. -/
structure Proxied where
  ctx : ConnContext
  live : Bool
  opened : List ℤ
  watched : List ℤ

/-- `process_accept` with a context that `memory` is what has been left in. -/
def Proxied.accept (memory listenCtx : ConnContext) (r : Results) : Proxied :=
  let c := memory.reset.accepted listenCtx r.accept
  if !r.ctl₁ then ⟨c, false, [], []⟩
  else ⟨{ c with fdAdded := true }, true, [r.accept], [r.accept]⟩

/-- What an operation does to the descriptors of the connection. -/
def Proxied.op (s : Proxied) : Op → Proxied
  | .opened fd => { s with opened := s.opened ++ [fd] }
  | .add fd _ => { s with watched := s.watched ++ [fd] }
  | _ => s

/-- An event of either descriptor: its bits, what the system calls of the handler return, and
`last`, which the other connections change as well. -/
structure ProxiedEvent where
  events : BitVec 32
  last : ℕ
  results : Results

/-- The call of the handler for an event. -/
def Proxied.call (s : Proxied) (e : ProxiedEvent) : Call :=
  ⟨{ s.ctx with events := e.events }, e.last, [], none⟩

/-- The connection where its handler ends. -/
def Proxied.into (s : Proxied) : Handled → Proxied
  | .back c => { c.ops.foldl Proxied.op s with ctx := c.ctx }
  | .freeBack c => ⟨c.ctx, false, [], []⟩

/-- One call of the handler. -/
def Proxied.step (s : Proxied) (e : ProxiedEvent) : Option Proxied :=
  (handle (s.call e) e.results).map s.into

/-- The calls of the handlers of one connection, as long as its context is not given back. -/
def proxied : System Proxied ProxiedEvent := ⟨fun s _ => s.live = true, Proxied.step⟩

/-- A handler finds that the back end is enabled where it should not be, or the other way round. -/
def Mismatch (ctx : ConnContext) : Prop :=
  match ctx.handler with
  | .processWriteBackend => isHupErr ctx.events = false ∧ ctx.flags &&& proxyBackendEvent = 0
  | .processReadBackend => ctx.flags &&& proxyBackendEvent = 0
  | .processWriteFrontend => ctx.flags &&& proxyBackendEvent ≠ 0
  | _ => False

/-- Handler, flag and descriptors of a connection agree. -/
structure InStep (s : Proxied) : Prop where
  backend : s.ctx.handler = .processWriteBackend ∨ s.ctx.handler = .processReadBackend →
    s.ctx.flags &&& proxyBackendEvent ≠ 0 ∧ s.ctx.endFd ∈ s.opened ∧ s.ctx.endFd ∈ s.watched
  frontend : s.ctx.handler = .processWriteFrontend → s.ctx.flags &&& proxyBackendEvent = 0

/-! ## The flag -/

theorem flag_or (flags : BitVec 32) : (flags ||| proxyBackendEvent) &&& proxyBackendEvent ≠ 0 := by
  intro h
  have hbit := congrArg (fun b => b.getLsbD 0) h
  simp [proxyBackendEvent] at hbit

theorem flag_andNot (flags : BitVec 32) :
    (flags &&& ~~~proxyBackendEvent) &&& proxyBackendEvent = 0 := by
  rw [BitVec.and_assoc, BitVec.and_comm (~~~proxyBackendEvent)]
  simp [proxyBackendEvent]

/-! ## Where a handler goes on -/

variable {c c' : Call} {r : Results} {s s' : Proxied} {e : ProxiedEvent}

/-- `process_read_frontend` goes on with a back end that is open and watched. -/
theorem back_readFrontend (hops : c.ops = []) (hh : processReadFrontend c r = some (.back c')) :
    c'.ctx.handler = .processWriteBackend ∧ c'.ctx.flags &&& proxyBackendEvent ≠ 0 ∧
      Op.opened c'.ctx.endFd ∈ c'.ops ∧ Op.add c'.ctx.endFd (epollOut ||| hupErr) ∈ c'.ops := by
  unfold processReadFrontend at hh
  split at hh
  · exact absurd (Option.some.inj hh) (by simp)
  split at hh
  · exact absurd (Option.some.inj hh) (by simp)
  split at hh
  · exact absurd (Option.some.inj hh) (by simp)
  split at hh
  · exact absurd (Option.some.inj hh) (by simp)
  split at hh
  · exact absurd (Option.some.inj hh) (by simp)
  simp only [Option.bind_eq_bind, Option.bind_eq_some_iff] at hh
  obtain ⟨⟨addr, last⟩, -, hh⟩ := hh
  simp only at hh
  split at hh
  · exact absurd (Option.some.inj hh) (by simp)
  split at hh
  · exact absurd (Option.some.inj hh) (by simp)
  · obtain rfl := Handled.back.inj (Option.some.inj hh)
    exact ⟨rfl, flag_or _, by simp [hops], by simp [hops]⟩

/-- `process_write_backend` goes on with the back end that there is. -/
theorem back_writeBackend (hh : processWriteBackend c r = .back c') :
    c'.ctx.handler = .processReadBackend ∧ c'.ctx.flags &&& proxyBackendEvent ≠ 0 ∧
      c'.ctx.endFd = c.ctx.endFd := by
  unfold processWriteBackend at hh
  split at hh
  · exact absurd hh (by simp)
  split at hh
  · exact absurd hh (by simp)
  split at hh
  · exact absurd hh (by simp)
  split at hh
  · exact absurd hh (by simp)
  · obtain rfl := Handled.back.inj hh
    exact ⟨rfl, flag_or _, rfl⟩

/-- `process_read_backend` goes on without the flag. -/
theorem back_readBackend (hh : processReadBackend c r = .back c') :
    c'.ctx.handler = .processWriteFrontend ∧ c'.ctx.flags &&& proxyBackendEvent = 0 := by
  unfold processReadBackend at hh
  split at hh
  · exact absurd hh (by simp)
  split at hh
  · exact absurd hh (by simp)
  split at hh
  · exact absurd hh (by simp)
  split at hh
  · exact absurd hh (by simp)
  · obtain rfl := Handled.back.inj hh
    exact ⟨rfl, flag_andNot _⟩

/-- `process_write_frontend` does not go on. -/
theorem writeFrontend_ne_back : processWriteFrontend c r ≠ .back c' := by
  unfold processWriteFrontend
  split
  · simp
  split <;> simp

/-! ## The descriptors -/

/-- What operations do to the descriptors. -/
theorem foldl_op (ops : List Op) (s : Proxied) :
    (∀ fd, fd ∈ s.opened ∨ Op.opened fd ∈ ops → fd ∈ (ops.foldl Proxied.op s).opened) ∧
      (∀ fd, fd ∈ s.watched ∨ (∃ mask, Op.add fd mask ∈ ops) →
        fd ∈ (ops.foldl Proxied.op s).watched) ∧
      (ops.foldl Proxied.op s).live = s.live := by
  induction ops generalizing s with
  | nil => exact ⟨by simp, by simp, rfl⟩
  | cons o ops ih =>
    obtain ⟨hopened, hwatched, hlive⟩ := ih (s.op o)
    refine ⟨fun fd hfd => hopened fd ?_, fun fd hfd => hwatched fd ?_, hlive.trans ?_⟩
    · cases o <;> simp only [Proxied.op, List.mem_append, List.mem_cons, List.not_mem_nil,
        or_false, Op.opened.injEq, reduceCtorEq, false_or] at hfd ⊢ <;> tauto
    · cases o <;> simp only [Proxied.op, List.mem_append, List.mem_cons, List.not_mem_nil,
        or_false, Op.add.injEq, reduceCtorEq, false_or, exists_or] at hfd ⊢ <;> tauto
    · cases o <;> rfl

/-- The handlers of a connection of the proxy. -/
def Handler.proxy : Handler → Bool
  | .processReadFrontend | .processWriteBackend | .processReadBackend | .processWriteFrontend =>
    true
  | .processAccept | .processRead | .processWrite => false

/-- **One call of a handler**: a connection that goes on is in step again. -/
theorem InStep.step (h : InStep s) (hproxy : s.ctx.handler.proxy = true)
    (hstep : s.step e = some s') (hlive : s'.live = true) :
    InStep s' ∧ s'.ctx.handler.proxy = true := by
  obtain ⟨k, hhandle, rfl⟩ := Option.map_eq_some_iff.mp hstep
  cases k with
  | freeBack c => exact absurd hlive (by simp [Proxied.into])
  | back c =>
    obtain ⟨hopened, hwatched, -⟩ := foldl_op c.ops s
    have hcall : (s.call e).ctx.handler = s.ctx.handler := rfl
    cases hhandler : s.ctx.handler <;> rw [handle, hcall, hhandler] at hhandle
    case processReadFrontend =>
      obtain ⟨hnext, hflag, hop, hadd⟩ := back_readFrontend rfl hhandle
      refine ⟨⟨fun _ => ⟨hflag, hopened _ (.inr hop), hwatched _ (.inr ⟨_, hadd⟩)⟩, ?_⟩, ?_⟩
      · intro hw
        exact absurd (hnext.symm.trans hw) (by simp)
      · exact congrArg Handler.proxy hnext
    case processWriteBackend =>
      obtain ⟨hnext, hflag, hend⟩ := back_writeBackend (Option.some.inj hhandle)
      obtain ⟨-, hop, hadd⟩ := h.backend (.inl hhandler)
      have hend' : c.ctx.endFd = s.ctx.endFd := hend
      refine ⟨⟨fun _ => ⟨hflag, hopened _ (.inl ?_), hwatched _ (.inl ?_)⟩, ?_⟩, ?_⟩
      · exact hend'.symm ▸ hop
      · exact hend'.symm ▸ hadd
      · intro hw
        exact absurd (hnext.symm.trans hw) (by simp)
      · exact congrArg Handler.proxy hnext
    case processReadBackend =>
      obtain ⟨hnext, hflag⟩ := back_readBackend (Option.some.inj hhandle)
      have hnext' : (s.into (.back c)).ctx.handler = .processWriteFrontend := hnext
      refine ⟨⟨?_, fun _ => hflag⟩, congrArg Handler.proxy hnext⟩
      intro hw
      rw [hnext'] at hw
      exact absurd hw (by simp)
    case processWriteFrontend => exact absurd (Option.some.inj hhandle) writeFrontend_ne_back
    all_goals exact absurd (hhandler ▸ hproxy) (by simp [Handler.proxy])

/-- A connection that has been accepted waits for its client. -/
theorem inStep_accept {memory listenCtx : ConnContext} (hproxy : listenCtx.enableProxy = true) :
    InStep (Proxied.accept memory listenCtx r) ∧
      (Proxied.accept memory listenCtx r).ctx.handler = .processReadFrontend := by
  have hhandler : (Proxied.accept memory listenCtx r).ctx.handler = .processReadFrontend := by
    unfold Proxied.accept ConnContext.accepted
    simp only [hproxy, if_true]
    split <;> rfl
  refine ⟨⟨?_, ?_⟩, hhandler⟩
  · intro hw
    rw [hhandler] at hw
    exact absurd hw (by simp)
  · intro hw
    exact absurd (hhandler.symm.trans hw) (by simp)

/-- A connection that is in step passes the tests of its handlers. -/
theorem InStep.not_mismatch (h : InStep s) (e : ProxiedEvent) : ¬ Mismatch (s.call e).ctx := by
  unfold Mismatch
  cases hhandler : (s.call e).ctx.handler
  case processWriteBackend => exact fun hm => (h.backend (.inl hhandler)).1 hm.2
  case processReadBackend => exact fun hm => (h.backend (.inr hhandler)).1 hm
  case processWriteFrontend => exact fun hm => hm (h.frontend hhandler)
  all_goals exact id

/-- From `process_accept` of a proxy on, with whatever a context from the pool holds, after any
calls of the handlers for any events and with any results of the system calls: where the handler is
one of the back end, the flag is set and the descriptor of the back end is open and watched; where
it is the one that writes to the client, the flag is clear; and no event finds the flag other than
the handler wants it. -/
theorem proxied_inStep {memory listenCtx : ConnContext} (hproxy : listenCtx.enableProxy = true)
    (hruns : proxied.Runs (Proxied.accept memory listenCtx r) s) (hlive : s.live = true) :
    InStep s ∧ ∀ e, ¬ Mismatch (s.call e).ctx := by
  obtain ⟨haccept, hfirst⟩ : InStep (.accept memory listenCtx r) ∧
      (Proxied.accept memory listenCtx r).ctx.handler = .processReadFrontend := inStep_accept hproxy
  obtain ⟨h, -⟩ : InStep s ∧ s.ctx.handler.proxy = true := by
    refine hruns.keep (P := fun t => t.live = true → InStep t ∧ t.ctx.handler.proxy = true)
      (fun _ => ⟨haccept, congrArg Handler.proxy hfirst⟩) ?_ hlive
    intro t t' e ht he hstep hlive'
    obtain ⟨hin, hhandler⟩ := ht he
    exact hin.step hhandler hstep hlive'
  exact ⟨h, h.not_mismatch⟩

/-- The listener of a proxy for one address. -/
def listenProxy : ConnContext :=
  { (default : ConnContext) with handler := .processAccept, enableProxy := true, pa := [⟨80, 0⟩] }

/-- The client on descriptor 5, the back end on 6, and a request of two bytes. -/
def clientFive : Results := ⟨5, some [1, 2], 2, 6, true, true, true, true⟩

/-- The back end on descriptor 6 has got the request, for a context whose flags were all set. -/
theorem proxied_inStep_six : ∃ s, proxied.Runs
    (Proxied.accept { (default : ConnContext) with flags := 0xff } listenProxy clientFive) s ∧
    s.ctx.handler = .processReadBackend ∧ s.ctx.endFd = 6 ∧
    (InStep s ∧ ∀ e, ¬ Mismatch (s.call e).ctx) := by
  have hruns : proxied.Runs (Proxied.accept { (default : ConnContext) with flags := 0xff }
      listenProxy clientFive) _ :=
    .head (e := ⟨epollIn, 0, clientFive⟩) rfl rfl <|
    .head (e := ⟨epollOut, 0, clientFive⟩) rfl rfl .refl
  exact ⟨_, hruns, rfl, rfl, proxied_inStep rfl hruns rfl⟩

end MultProcess
end CModel
