import CModel.Foundation.Bytes

/-!
# The contexts of a worker

`context.h` and `context.c`: what a worker knows of a connection, and the array that it takes these
contexts from.

* `ConnContext`, `ContextPool`: the two structures.
* `initPool`, `allocContext`, `freeContext`: a context that is not in use holds the index of the
  next one that is not, and the pool that of the first.
-/

namespace CModel
namespace MultProcess

/-- `MAX_BUFSIZE` -/
def maxBufsize : ℕ := 2048

/-- `PROXY_BACKEND_EVENT` -/
def proxyBackendEvent : BitVec 32 := 0x01

/-- `struct proxy_addr`; its text is only printed. -/
structure ProxyAddr where
  paramPort : ℕ
  proxyip : ℕ

/-- What `handler` can point to. -/
inductive Handler where
  | processAccept
  | processRead
  | processWrite
  | processReadFrontend
  | processWriteBackend
  | processReadBackend
  | processWriteFrontend
  deriving DecidableEq, Inhabited

/-- `struct conn_context`.  `pool` is left out, as a worker has one pool, and `pa` holds `pa_num`
addresses. -/
structure ConnContext where
  fd : ℤ
  fdAdded : Bool
  endFd : ℤ
  endFdAdded : Bool
  flags : BitVec 32
  epFd : ℤ
  cpuId : ℤ
  handler : Handler
  events : BitVec 32
  dataLen : ℤ
  nextIdx : ℤ
  buf : Bytes
  pa : List ProxyAddr
  enableProxy : Bool
  deriving Inhabited

/-- `struct context_pool` -/
structure ContextPool where
  total : ℤ
  allocated : ℤ
  nextIdx : ℤ
  arr : List ConnContext

/-- `init_pool`; `memory` is what `malloc` finds in the array, as many contexts as asked for. -/
def initPool (memory : List ConnContext) : Option ContextPool :=
  if memory.length = 0 then none
  else
    some
      { total := memory.length
        allocated := 0
        nextIdx := 0
        arr := memory.mapIdx fun i c =>
          { c with nextIdx := if i + 1 < memory.length then (i : ℤ) + 1 else -1 } }

/-- `arr[i]`; undefined outside of the array. -/
def contextAt (arr : List ConnContext) (i : ℤ) : Option ConnContext :=
  if 0 ≤ i then arr[i.toNat]? else none

/-- A context as `alloc_context` hands it out; the other fields are what they were. -/
def ConnContext.reset (c : ConnContext) : ConnContext :=
  { c with fd := 0, fdAdded := false, endFd := 0, endFdAdded := false, nextIdx := -1 }

/-- `alloc_context`: the index of the context.  It aborts where all are in use. -/
def allocContext (pool : ContextPool) : Option (ℕ × ContextPool) :=
  if pool.allocated < pool.total then do
    let ret ← contextAt pool.arr pool.nextIdx
    some (pool.nextIdx.toNat,
      { pool with
        allocated := pool.allocated + 1
        nextIdx := ret.nextIdx
        arr := pool.arr.set pool.nextIdx.toNat ret.reset })
  else none

/-- `free_context`.  It aborts where none is in use. -/
def freeContext (pool : ContextPool) (context : ℕ) : Option ContextPool :=
  if 0 < pool.allocated then do
    let c ← pool.arr[context]?
    some
      { pool with
        allocated := pool.allocated - 1
        nextIdx := context
        arr := pool.arr.set context { c with nextIdx := pool.nextIdx } }
  else none

end MultProcess
end CModel
