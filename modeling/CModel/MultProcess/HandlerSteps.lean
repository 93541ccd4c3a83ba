import CModel.MultProcess.Handlers

/-!
# What a handler can do

* `Op.opens`, `Op.watches`: the descriptors that operations open, and those that `epoll` is told of.
* `Frame`: what a handler leaves alone, wherever it ends.
* `ReadFrontendSpec`, `WriteBackendSpec`, `ReadBackendSpec`, `WriteFrontendSpec`: everything that
  one call of a handler of the proxy can come to, and why it comes to `free_back`.
* `HandleSpec`: what the handlers have in common.
-/

namespace CModel
namespace MultProcess

/-- A descriptor that is opened. -/
@[simp] def Op.opens : Op → Option ℤ
  | .opened fd => some fd
  | _ => none

/-- A descriptor that `epoll` is told of. -/
@[simp] def Op.watches : Op → Option ℤ
  | .add fd _ => some fd
  | .mod fd _ => some fd
  | _ => none

/-- What a buffer holds is what has been read. -/
def Holds (ctx : ConnContext) (data : Bytes) : Prop :=
  ctx.dataLen = data.length ∧ ctx.buf.take data.length = data

/-- The results with which a connection gets a descriptor for its back end. -/
def Opens (ctx : ConnContext) (r : Results) : Prop :=
  ctx.handler = .processReadFrontend ∧ isHupErr ctx.events = false ∧ r.read ≠ none ∧
    r.ctl₁ = true ∧ 0 ≤ r.socket

/-- Whether a context with this handler has only one descriptor. -/
def Handler.single : Handler → Bool
  | .processAccept | .processRead | .processWrite | .processReadFrontend => true
  | .processWriteBackend | .processReadBackend | .processWriteFrontend => false

/-- A context with the descriptors that its handler expects. -/
def Fits (ctx : ConnContext) : Prop := ctx.handler.single = true ↔ ctx.endFd = 0

/-- What a handler leaves alone: it keeps the descriptors of the connection, but for the one that it
has opened for the back end, and tells `epoll` of no other ones. -/
structure Frame (c : Call) (r : Results) (c' : Call) : Prop where
  fd : c'.ctx.fd = c.ctx.fd
  endFd : (c'.ops.filterMap Op.opens = [] ∧ c'.ctx.endFd = c.ctx.endFd) ∨
    (Opens c.ctx r ∧ c'.ops.filterMap Op.opens = [r.socket] ∧ c'.ctx.endFd = r.socket)
  watches : ∀ fd ∈ c'.ops.filterMap Op.watches, c'.ctx.fd = fd ∨ (c'.ctx.endFd = fd ∧
    (c.ctx.handler.single = true → r.socket ∈ c'.ops.filterMap Op.opens))

variable {c c' : Call} {r : Results} {h : Handled}

theorem Frame.endFd_eq (h : Frame c r c') (hhandler : c.ctx.handler ≠ .processReadFrontend) :
    c'.ctx.endFd = c.ctx.endFd :=
  h.endFd.elim And.right fun hopened => absurd hopened.1.1 hhandler

/-- Nothing has been opened, and `epoll` told of the client only. -/
theorem Frame.same (hfd : c'.ctx.fd = c.ctx.fd) (hend : c'.ctx.endFd = c.ctx.endFd)
    (hopens : c'.ops.filterMap Op.opens = [])
    (hwatches : ∀ fd ∈ c'.ops.filterMap Op.watches, fd = c.ctx.fd) : Frame c r c' :=
  ⟨hfd, .inl ⟨hopens, hend⟩, fun fd hin => .inl (hfd.trans (hwatches fd hin).symm)⟩

/-- Nothing has been opened for a context that holds the descriptor of a back end. -/
theorem Frame.proxied (hsingle : c.ctx.handler.single = false) (hfd : c'.ctx.fd = c.ctx.fd)
    (hend : c'.ctx.endFd = c.ctx.endFd) (hopens : c'.ops.filterMap Op.opens = [])
    (hwatches : ∀ fd ∈ c'.ops.filterMap Op.watches, c.ctx.fd = fd ∨ c.ctx.endFd = fd) :
    Frame c r c' := by
  refine ⟨hfd, .inl ⟨hopens, hend⟩, fun fd hin => (hwatches fd hin).imp ?_ ?_⟩
  · exact hfd.trans
  · exact fun heq => ⟨hend.trans heq, fun htrue => absurd (hsingle.symm.trans htrue) (by simp)⟩

/-- The descriptor of the back end has been opened. -/
theorem Frame.opened (hwhy : Opens c.ctx r) (hfd : c'.ctx.fd = c.ctx.fd)
    (hend : c'.ctx.endFd = r.socket) (hopens : c'.ops.filterMap Op.opens = [r.socket])
    (hwatches : ∀ fd ∈ c'.ops.filterMap Op.watches, c.ctx.fd = fd ∨ r.socket = fd) :
    Frame c r c' := by
  refine ⟨hfd, .inr ⟨hwhy, hopens, hend⟩, fun fd hin => (hwatches fd hin).imp ?_ ?_⟩
  · exact hfd.trans
  · exact fun heq => ⟨hend.trans heq, fun _ => hopens ▸ List.mem_singleton_self _⟩

/-! ## What each handler can come to -/

/-- `process_read_frontend` -/
inductive ReadFrontendSpec (c : Call) (r : Results) : Handled → Prop where
  | closes {c' : Call} (frame : Frame c r c') (counter : c'.counter ≠ some .trancnt)
      (why : Closes c.ctx r) : ReadFrontendSpec c r (.freeBack c')
  | goes {c' : Call} {data : Bytes} {a : ProxyAddr} (frame : Frame c r c')
      (counter : c'.counter = none) (why : ¬Closes c.ctx r) (holds : Holds c'.ctx data)
      (opens : Opens c.ctx r) (handler : c'.ctx.handler = .processWriteBackend)
      (endFd : c'.ctx.endFd = r.socket)
      (ops : c'.ops = [.received c.ctx.fd data, .mod c.ctx.fd hupErr, .opened r.socket,
        .connecting r.socket a, .add r.socket (epollOut ||| hupErr)]) :
      ReadFrontendSpec c r (.back c')

/-- `process_write_backend` -/
inductive WriteBackendSpec (c : Call) (r : Results) : Handled → Prop where
  | closes {c' : Call} (frame : Frame c r c') (counter : c'.counter = none)
      (why : Closes c.ctx r) : WriteBackendSpec c r (.freeBack c')
  | goes {c' : Call} (frame : Frame c r c') (counter : c'.counter = none)
      (why : ¬Closes c.ctx r) (handler : c'.ctx.handler = .processReadBackend)
      (ops : c'.ops = [.sent c.ctx.endFd (c.ctx.buf.take r.write.toNat),
        .mod c.ctx.endFd (epollIn ||| hupErr)]) : WriteBackendSpec c r (.back c')

/-- `process_read_backend` -/
inductive ReadBackendSpec (c : Call) (r : Results) : Handled → Prop where
  | closes {c' : Call} (frame : Frame c r c') (counter : c'.counter ≠ some .trancnt)
      (why : Closes c.ctx r) : ReadBackendSpec c r (.freeBack c')
  | goes {c' : Call} {data : Bytes} (frame : Frame c r c') (counter : c'.counter = none)
      (why : ¬Closes c.ctx r) (holds : Holds c'.ctx data)
      (handler : c'.ctx.handler = .processWriteFrontend)
      (ops : c'.ops = [.received c.ctx.endFd data, .mod c.ctx.fd (epollOut ||| hupErr),
        .mod c.ctx.endFd hupErr]) : ReadBackendSpec c r (.back c')

/-- `process_write_frontend` -/
inductive WriteFrontendSpec (c : Call) (r : Results) : Handled → Prop where
  | fails {c' : Call} (frame : Frame c r c') (counter : c'.counter = none)
      (why : c.ctx.flags &&& proxyBackendEvent ≠ 0 ∨ r.write < 0) :
      WriteFrontendSpec c r (.freeBack c')
  | counts {c' : Call} (frame : Frame c r c') (counter : c'.counter = some .trancnt)
      (flag : c.ctx.flags &&& proxyBackendEvent = 0) (pos : 0 ≤ r.write)
      (ops : c'.ops = [.sent c.ctx.fd (c.ctx.buf.take r.write.toNat)]) :
      WriteFrontendSpec c r (.freeBack c')

/-- `process_read` and `process_write`, the one of which goes on with the other. -/
inductive WebSpec (c : Call) (r : Results) (next : Handler) : Handled → Prop where
  | closes {c' : Call} (frame : Frame c r c') (why : Closes c.ctx r) :
      WebSpec c r next (.freeBack c')
  | goes {c' : Call} (frame : Frame c r c') (why : ¬Closes c.ctx r)
      (handler : c'.ctx.handler = next) : WebSpec c r next (.back c')

/-- A context whose handler is about to be called. -/
structure Call.Start (c : Call) (handler : Handler) : Prop where
  handler : c.ctx.handler = handler
  ops : c.ops = []
  counter : c.counter = none

@[simp] theorem Call.op_ops (c : Call) (o : Op) : (c.op o).ops = c.ops ++ [o] := rfl

@[simp] theorem Call.op_counter (c : Call) (o : Op) : (c.op o).counter = c.counter := rfl

@[simp] theorem Call.op_ctx (c : Call) (o : Op) : (c.op o).ctx = c.ctx := rfl

@[simp] theorem Call.receive_fd (c : Call) (fd : ℤ) (data : Bytes) :
    (c.receive fd data).ctx.fd = c.ctx.fd := rfl

@[simp] theorem Call.receive_endFd (c : Call) (fd : ℤ) (data : Bytes) :
    (c.receive fd data).ctx.endFd = c.ctx.endFd := rfl

@[simp] theorem Call.receive_ops (c : Call) (fd : ℤ) (data : Bytes) :
    (c.receive fd data).ops = c.ops ++ [.received fd data] := rfl

@[simp] theorem Call.receive_counter (c : Call) (fd : ℤ) (data : Bytes) :
    (c.receive fd data).counter = c.counter := rfl

@[simp] theorem Call.send_ops (c : Call) (fd ret : ℤ) :
    (c.send fd ret).ops = c.ops ++ [.sent fd (c.ctx.buf.take ret.toNat)] := rfl

@[simp] theorem Call.send_counter (c : Call) (fd ret : ℤ) : (c.send fd ret).counter = c.counter :=
  rfl

theorem readFrontendSpec (hc : c.Start .processReadFrontend)
    (hh : processReadFrontend c r = some h) : ReadFrontendSpec c r h := by
  obtain ⟨hhandler, hops, hcounter⟩ := hc
  have hwhy : Closes c.ctx r ↔ isHupErr c.ctx.events = true ∨ r.read = none ∨ r.ctl₁ = false ∨
      r.socket < 0 ∨ r.setsockopt = false ∨ r.connect = false ∨ r.ctl₂ = false := by
    rw [Closes, hhandler]
  unfold processReadFrontend at hh
  split at hh
  · next hhup =>
    obtain rfl := Option.some.inj hh
    exact .closes (.same rfl rfl (by simp [hops]) (by simp [hops])) (by simp [hcounter])
      (hwhy.mpr (.inl hhup))
  split at hh
  · next hread =>
    obtain rfl := Option.some.inj hh
    exact .closes (.same rfl rfl (by simp [hops]) (by simp [hops])) (by simp)
      (hwhy.mpr (by simp [hread]))
  next hhup _ data hread =>
  split at hh
  · next hctl =>
    obtain rfl := Option.some.inj hh
    exact .closes (.same rfl rfl (by simp [hops]) (by simp [hops])) (by simp [hcounter])
      (hwhy.mpr (by simp_all))
  next hctl =>
  split at hh
  · next hsocket =>
    obtain rfl := Option.some.inj hh
    exact .closes (.same rfl rfl (by simp [hops]) (by simp [hops])) (by simp [hcounter])
      (hwhy.mpr (by simp [hsocket]))
  next hsocket =>
  -- from here on there is a descriptor for the back end
  have hopens : Opens c.ctx r :=
    ⟨hhandler, by simpa using hhup, by simp [hread], by simpa using hctl, Int.not_lt.mp hsocket⟩
  split at hh
  · next hsetsockopt =>
    obtain rfl := Option.some.inj hh
    exact .closes (.opened hopens rfl rfl (by simp [hops, List.filterMap_cons]) (by simp [hops]))
      (by simp [hcounter]) (hwhy.mpr (by simp_all))
  next hsetsockopt =>
  simp only [Option.bind_eq_bind, Option.bind_eq_some_iff] at hh
  obtain ⟨⟨addr, last⟩, -, hh⟩ := hh
  simp only at hh
  split at hh
  · next hconnect =>
    obtain rfl := Option.some.inj hh
    exact .closes (.opened hopens rfl rfl (by simp [hops, List.filterMap_cons]) (by simp [hops]))
      (by simp [hcounter]) (hwhy.mpr (by simp_all))
  next hconnect =>
  split at hh
  · next hctl₂ =>
    obtain rfl := Option.some.inj hh
    exact .closes (.opened hopens rfl rfl (by simp [hops, List.filterMap_cons]) (by simp [hops]))
      (by simp [hcounter]) (hwhy.mpr (by simp_all))
  · next hctl₂ =>
    obtain rfl := Option.some.inj hh
    exact .goes (a := addr) (.opened hopens rfl rfl (by simp [hops, List.filterMap_cons])
      (by simp [hops])) (by simp [hcounter]) (fun h => by simp_all) ⟨rfl, List.take_left⟩ hopens
      rfl rfl (by simp [hops])

theorem writeBackendSpec (hc : c.Start .processWriteBackend) :
    WriteBackendSpec c r (processWriteBackend c r) := by
  obtain ⟨hhandler, hops, hcounter⟩ := hc
  have hsingle : c.ctx.handler.single = false := by rw [hhandler]; rfl
  have hwhy : Closes c.ctx r ↔ isHupErr c.ctx.events = true ∨
      c.ctx.flags &&& proxyBackendEvent = 0 ∨ r.write < 0 ∨ r.ctl₁ = false := by
    rw [Closes, hhandler]
  unfold processWriteBackend
  split
  · next hhup =>
    exact .closes (.same rfl rfl (by simp [hops]) (by simp [hops])) hcounter (hwhy.mpr (.inl hhup))
  next hhup =>
  split
  · next hflag =>
    exact .closes (.same rfl rfl (by simp [hops]) (by simp [hops])) hcounter
      (hwhy.mpr (.inr (.inl hflag)))
  next hflag =>
  split
  · next hwrite =>
    exact .closes (.same rfl rfl (by simp [hops]) (by simp [hops])) hcounter
      (hwhy.mpr (.inr (.inr (.inl hwrite))))
  next hwrite =>
  split
  · next hctl =>
    exact .closes (.same rfl rfl (by simp [hops]) (by simp [hops])) hcounter
      (hwhy.mpr (by simp_all))
  · next hctl =>
    exact .goes (.proxied hsingle rfl rfl (by simp [hops]) (by simp [hops, Call.send])) hcounter
      (fun h => by simp_all) rfl (by simp [hops, Call.send])

theorem readBackendSpec (hc : c.Start .processReadBackend) :
    ReadBackendSpec c r (processReadBackend c r) := by
  obtain ⟨hhandler, hops, hcounter⟩ := hc
  have hsingle : c.ctx.handler.single = false := by rw [hhandler]; rfl
  have hwhy : Closes c.ctx r ↔ c.ctx.flags &&& proxyBackendEvent = 0 ∨ r.read = none ∨
      r.ctl₁ = false ∨ r.ctl₂ = false := by
    rw [Closes, hhandler]
  unfold processReadBackend
  split
  · next hflag =>
    exact .closes (.same rfl rfl (by simp [hops]) (by simp [hops])) (by simp [hcounter])
      (hwhy.mpr (.inl hflag))
  next hflag =>
  split
  · next hread =>
    exact .closes (.same rfl rfl (by simp [hops]) (by simp [hops])) (by simp)
      (hwhy.mpr (.inr (.inl hread)))
  next data hread =>
  split
  · next hctl₁ =>
    exact .closes (.same rfl rfl (by simp [hops]) (by simp [hops])) (by simp [hcounter])
      (hwhy.mpr (by simp_all))
  next hctl₁ =>
  split
  · next hctl₂ =>
    exact .closes (.same rfl rfl (by simp [hops]) (by simp [hops])) (by simp [hcounter])
      (hwhy.mpr (by simp_all))
  · next hctl₂ =>
    exact .goes (.proxied hsingle rfl rfl (by simp [hops]) (by simp [hops])) (by simp [hcounter])
      (fun h => by simp_all) ⟨rfl, List.take_left⟩ rfl (by simp [hops])

theorem writeFrontendSpec (hc : c.Start .processWriteFrontend) :
    WriteFrontendSpec c r (processWriteFrontend c r) := by
  obtain ⟨hhandler, hops, hcounter⟩ := hc
  unfold processWriteFrontend
  split
  · next hflag =>
    exact .fails (.same rfl rfl (by simp [hops]) (by simp [hops])) hcounter (.inl hflag)
  next hflag =>
  split
  · next hwrite =>
    exact .fails (.same rfl rfl (by simp [hops]) (by simp [hops])) hcounter (.inr hwrite)
  · next hwrite =>
    exact .counts (.same rfl rfl (by simp [hops]) (by simp [hops])) rfl (not_not.mp hflag)
      (Int.not_lt.mp hwrite) (by simp [hops])

theorem writeSpec (hc : c.Start .processWrite) : WebSpec c r .processRead (processWrite c r) := by
  obtain ⟨hhandler, hops, -⟩ := hc
  have hwhy : Closes c.ctx r ↔ isHupErr c.ctx.events = true ∨ r.write < 0 ∨ r.ctl₁ = false := by
    rw [Closes, hhandler]
  unfold processWrite
  split
  · next hhup =>
    exact .closes (.same rfl rfl (by simp [hops]) (by simp [hops])) (hwhy.mpr (.inl hhup))
  next hhup =>
  split
  · next hwrite =>
    exact .closes (.same rfl rfl (by simp [hops]) (by simp [hops])) (hwhy.mpr (.inr (.inl hwrite)))
  next hwrite =>
  split
  · next hctl =>
    exact .closes (.same rfl rfl (by simp [hops]) (by simp [hops])) (hwhy.mpr (by simp_all))
  · next hctl =>
    exact .goes (.same rfl rfl (by simp [hops]) (by simp [hops])) (fun h => by simp_all) rfl

theorem readSpec (hc : c.Start .processRead) : WebSpec c r .processWrite (processRead c r) := by
  obtain ⟨hhandler, hops, -⟩ := hc
  have hwhy : Closes c.ctx r ↔ isHupErr c.ctx.events = true ∨ r.read = none ∨ r.read = some [] ∨
      r.ctl₁ = false := by
    rw [Closes, hhandler]
  unfold processRead
  split
  · next hhup =>
    exact .closes (.same rfl rfl (by simp [hops]) (by simp [hops])) (hwhy.mpr (.inl hhup))
  next hhup =>
  split
  · next hread =>
    exact .closes (.same rfl rfl (by simp [hops]) (by simp [hops])) (hwhy.mpr (.inr (.inl hread)))
  next data hread =>
  split
  · next hempty =>
    exact .closes (.same rfl rfl (by simp [hops]) (by simp [hops])) (hwhy.mpr (by simp_all))
  next hempty =>
  split
  · next hctl =>
    exact .closes (.same rfl rfl (by simp [hops]) (by simp [hops])) (hwhy.mpr (by simp_all))
  · next hctl =>
    exact .goes (.same rfl rfl (by simp [hops]) (by simp [hops])) (fun h => by simp_all) rfl

/-! ## Any handler -/

/-- What the handlers have in common. -/
inductive HandleSpec (c : Call) (r : Results) : Handled → Prop where
  | closes {c' : Call} (frame : Frame c r c') (why : Closes c.ctx r) : HandleSpec c r (.freeBack c')
  | goes {c' : Call} (frame : Frame c r c') (why : ¬Closes c.ctx r)
      (fits : (Opens c.ctx r → r.socket ≠ 0) → Fits c.ctx → Fits c'.ctx) :
      HandleSpec c r (.back c')

/-- A handler that goes on with one for which there are the same descriptors. -/
theorem HandleSpec.on {c' : Call} {handler next : Handler} (frame : Frame c r c')
    (why : ¬Closes c.ctx r) (hhandler : c.ctx.handler = handler) (hnext : c'.ctx.handler = next)
    (hsingle : next.single = handler.single) (hne : handler ≠ .processReadFrontend) :
    HandleSpec c r (.back c') := by
  refine .goes frame why ?_
  intro _ hfits
  rw [Fits, hnext, hsingle, frame.endFd_eq (by rwa [hhandler]), ← hhandler]
  exact hfits

theorem WebSpec.common {handler next : Handler} (hspec : WebSpec c r next h)
    (hhandler : c.ctx.handler = handler) (hsingle : next.single = handler.single)
    (hne : handler ≠ .processReadFrontend) : HandleSpec c r h := by
  cases hspec with
  | closes frame why => exact .closes frame why
  | goes frame why hnext => exact .on frame why hhandler hnext hsingle hne

theorem handleSpec (hops : c.ops = []) (hcounter : c.counter = none) (hh : handle c r = some h) :
    HandleSpec c r h := by
  cases hhandler : c.ctx.handler <;> rw [handle, hhandler] at hh
  case processReadFrontend =>
    cases readFrontendSpec ⟨hhandler, hops, hcounter⟩ hh with
    | closes frame counter why => exact .closes frame why
    | goes frame counter why holds opens hnext hend =>
      refine .goes frame why ?_
      intro hsocket _
      rw [Fits, hnext, hend]
      exact iff_of_false (by simp [Handler.single]) (hsocket opens)
  case processWriteBackend =>
    have hspec : WriteBackendSpec c r h :=
      Option.some.inj hh ▸ writeBackendSpec ⟨hhandler, hops, hcounter⟩
    cases hspec with
    | closes frame counter why => exact .closes frame why
    | goes frame counter why hnext => exact .on frame why hhandler hnext rfl (by simp)
  case processReadBackend =>
    have hspec : ReadBackendSpec c r h :=
      Option.some.inj hh ▸ readBackendSpec ⟨hhandler, hops, hcounter⟩
    cases hspec with
    | closes frame counter why => exact .closes frame why
    | goes frame counter why holds hnext => exact .on frame why hhandler hnext rfl (by simp)
  case processWriteFrontend =>
    have hspec : WriteFrontendSpec c r h :=
      Option.some.inj hh ▸ writeFrontendSpec ⟨hhandler, hops, hcounter⟩
    have hcloses : Closes c.ctx r := by
      rw [Closes, hhandler]
      trivial
    cases hspec with
    | fails frame => exact .closes frame hcloses
    | counts frame => exact .closes frame hcloses
  case processRead =>
    have hspec : WebSpec c r .processWrite h :=
      Option.some.inj hh ▸ readSpec ⟨hhandler, hops, hcounter⟩
    exact hspec.common hhandler rfl (by simp)
  case processWrite =>
    have hspec : WebSpec c r .processRead h :=
      Option.some.inj hh ▸ writeSpec ⟨hhandler, hops, hcounter⟩
    exact hspec.common hhandler rfl (by simp)
  case processAccept => exact absurd hh (by simp)

end MultProcess
end CModel
