import CModel.MultProcess.Context

/-!
# The handlers of a connection

`proxy_server.c` and the handlers of `web_server.c`.  Each handler gets the context of its event and
does some system calls, whose results are given; it ends at `back`, or at `free_back`, where the
connection is closed.

* `Results`: what the system calls of one call of a handler return.
* `Call`, `Op`: how far a call of a handler is, and what it has done with descriptors.
* `selectBackend`, `processReadFrontend`, `processWriteBackend`, `processReadBackend`,
  `processWriteFrontend`, `processRead`, `processWrite`.
* `Closes`: the results with which a handler comes to `free_back`.
-/

namespace CModel
namespace MultProcess

/-! ## Events -/

def epollIn : BitVec 32 := 0x001
def epollOut : BitVec 32 := 0x004
def epollErr : BitVec 32 := 0x008
def epollHup : BitVec 32 := 0x010

/-- `EPOLLHUP | EPOLLERR` -/
def hupErr : BitVec 32 := epollHup ||| epollErr

/-- `events & (EPOLLHUP | EPOLLERR)` -/
def isHupErr (events : BitVec 32) : Bool := events &&& hupErr ≠ 0

/-! ## Calls -/

/-- What the system calls of a handler return. -/
structure Results where
  accept : ℤ
  /-- what has been read, at most `MAX_BUFSIZE` bytes -/
  read : Option Bytes
  write : ℤ
  socket : ℤ
  setsockopt : Bool
  /-- whether `connect` returns 0, or fails with `EINPROGRESS` -/
  connect : Bool
  /-- whether the first `epoll_ctl` succeeds -/
  ctl₁ : Bool
  /-- whether the second one does -/
  ctl₂ : Bool

/-- The counters of `struct worker_data` that the handlers increase. -/
inductive Counter where
  | trancnt
  | acceptCnt
  | readCnt
  | writeCnt
  deriving DecidableEq

/-- What a handler has done with a descriptor. -/
inductive Op where
  | opened (fd : ℤ)
  | received (fd : ℤ) (data : Bytes)
  | sent (fd : ℤ) (data : Bytes)
  | connecting (fd : ℤ) (addr : ProxyAddr)
  /-- `EPOLL_CTL_ADD` -/
  | add (fd : ℤ) (mask : BitVec 32)
  /-- `EPOLL_CTL_MOD` -/
  | mod (fd : ℤ) (mask : BitVec 32)

/-- How far a call of a handler is; `last` is the static variable of `select_backend`. -/
structure Call where
  ctx : ConnContext
  last : ℕ
  ops : List Op
  counter : Option Counter

/-- Where a handler ends. -/
inductive Handled where
  | back (c : Call)
  | freeBack (c : Call)

/-- One more operation. -/
def Call.op (c : Call) (o : Op) : Call := { c with ops := c.ops ++ [o] }

/-- `read(fd, ctx->buf, MAX_BUFSIZE)` with the length stored. -/
def Call.receive (c : Call) (fd : ℤ) (data : Bytes) : Call :=
  { c with ctx := { c.ctx with
    buf := data ++ c.ctx.buf.drop data.length
    dataLen := data.length } }.op (.received fd data)

/-- `write(fd, ctx->buf, ctx->data_len)` which has returned `ret`. -/
def Call.send (c : Call) (fd : ℤ) (ret : ℤ) : Call := c.op (.sent fd (c.ctx.buf.take ret.toNat))

/-! ## The proxy -/

/-- `select_backend`: the address, and `last` afterwards. -/
def selectBackend (ctx : ConnContext) (last : ℕ) : Option (ProxyAddr × ℕ) := do
  let addr ← ctx.pa[last]?
  some (addr, if last + 1 = ctx.pa.length then 0 else last + 1)

/-- `process_read_frontend` -/
def processReadFrontend (c : Call) (r : Results) : Option Handled :=
  if isHupErr c.ctx.events then some (.freeBack c)
  else
    match r.read with
    | none => some (.freeBack { c with counter := some .readCnt })
    | some data =>
      let c := c.receive c.ctx.fd data
      if !r.ctl₁ then some (.freeBack c)
      else
        let c := c.op (.mod c.ctx.fd hupErr)
        if r.socket < 0 then some (.freeBack c)
        else
          let c := { c with ctx := { c.ctx with endFd := r.socket } }.op (.opened r.socket)
          if !r.setsockopt then some (.freeBack c)
          else do
            let (addr, last) ← selectBackend c.ctx c.last
            let c := { c with last }.op (.connecting r.socket addr)
            if !r.connect then some (.freeBack c)
            else
              let c := { c with ctx := { c.ctx with
                handler := .processWriteBackend
                flags := c.ctx.flags ||| proxyBackendEvent } }
              if !r.ctl₂ then some (.freeBack c)
              else
                some (.back ({ c with ctx := { c.ctx with endFdAdded := true } }.op
                  (.add r.socket (epollOut ||| hupErr))))

/-- `process_write_backend` -/
def processWriteBackend (c : Call) (r : Results) : Handled :=
  if isHupErr c.ctx.events then .freeBack c
  else if c.ctx.flags &&& proxyBackendEvent = 0 then .freeBack c
  else if r.write < 0 then .freeBack c
  else
    let c := c.send c.ctx.endFd r.write
    let c := { c with ctx := { c.ctx with
      handler := .processReadBackend
      flags := c.ctx.flags ||| proxyBackendEvent } }
    if !r.ctl₁ then .freeBack c
    else .back (c.op (.mod c.ctx.endFd (epollIn ||| hupErr)))

/-- `process_read_backend`, which does not look at the event. -/
def processReadBackend (c : Call) (r : Results) : Handled :=
  if c.ctx.flags &&& proxyBackendEvent = 0 then .freeBack c
  else
    match r.read with
    | none => .freeBack { c with counter := some .readCnt }
    | some data =>
      let c := c.receive c.ctx.endFd data
      let c := { c with ctx := { c.ctx with
        handler := .processWriteFrontend
        flags := c.ctx.flags &&& ~~~proxyBackendEvent } }
      if !r.ctl₁ then .freeBack c
      else
        let c := c.op (.mod c.ctx.fd (epollOut ||| hupErr))
        if !r.ctl₂ then .freeBack c else .back (c.op (.mod c.ctx.endFd hupErr))

/-- `process_write_frontend`, which does not look at the event and closes in any case. -/
def processWriteFrontend (c : Call) (r : Results) : Handled :=
  if c.ctx.flags &&& proxyBackendEvent ≠ 0 then .freeBack c
  else if r.write < 0 then .freeBack c
  else .freeBack { c.send c.ctx.fd r.write with counter := some .trancnt }

/-! ## The web server -/

/-- `http_200` -/
def http200 : Bytes := ascii ("HTTP/1.0 200 OK\r\n" ++ "Cache-Control: no-cache\r\n" ++
  "Connection: close\r\n" ++ "Content-Type: text/html\r\n" ++ "\r\n" ++
  "<html><body><h1>200 OK</h1>\nEverything is fine.\n</body></html>\n")

/-- `process_write` -/
def processWrite (c : Call) (r : Results) : Handled :=
  if isHupErr c.ctx.events then .freeBack c
  else if r.write < 0 then .freeBack { c with counter := some .writeCnt }
  else
    let c := { c.op (.sent c.ctx.fd (http200.take r.write.toNat)) with
      ctx := { c.ctx with handler := .processRead }
      counter := some .trancnt }
    if !r.ctl₁ then .freeBack c else .back (c.op (.mod c.ctx.fd (epollIn ||| hupErr)))

/-- `process_read` -/
def processRead (c : Call) (r : Results) : Handled :=
  if isHupErr c.ctx.events then .freeBack c
  else
    match r.read with
    | none => .freeBack { c with counter := some .readCnt }
    | some data =>
      if data.length = 0 then .freeBack c
      else
        let c := c.receive c.ctx.fd data
        let c := { c with ctx := { c.ctx with handler := .processWrite } }
        if !r.ctl₁ then .freeBack c else .back (c.op (.mod c.ctx.fd (epollOut ||| hupErr)))

/-- The handler of a connection. -/
def handle (c : Call) (r : Results) : Option Handled :=
  match c.ctx.handler with
  | .processReadFrontend => processReadFrontend c r
  | .processWriteBackend => some (processWriteBackend c r)
  | .processReadBackend => some (processReadBackend c r)
  | .processWriteFrontend => some (processWriteFrontend c r)
  | .processRead => some (processRead c r)
  | .processWrite => some (processWrite c r)
  -- not the handler of a connection
  | .processAccept => none

/-- The results with which the handler of a connection comes to `free_back`. -/
def Closes (ctx : ConnContext) (r : Results) : Prop :=
  match ctx.handler with
  | .processReadFrontend => isHupErr ctx.events = true ∨ r.read = none ∨ r.ctl₁ = false ∨
      r.socket < 0 ∨ r.setsockopt = false ∨ r.connect = false ∨ r.ctl₂ = false
  | .processWriteBackend => isHupErr ctx.events = true ∨ ctx.flags &&& proxyBackendEvent = 0 ∨
      r.write < 0 ∨ r.ctl₁ = false
  | .processReadBackend => ctx.flags &&& proxyBackendEvent = 0 ∨ r.read = none ∨ r.ctl₁ = false ∨
      r.ctl₂ = false
  | .processWriteFrontend => True
  | .processRead => isHupErr ctx.events = true ∨ r.read = none ∨ r.read = some [] ∨ r.ctl₁ = false
  | .processWrite => isHupErr ctx.events = true ∨ r.write < 0 ∨ r.ctl₁ = false
  | .processAccept => False

end MultProcess
end CModel
