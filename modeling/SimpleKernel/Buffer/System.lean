import SimpleKernel.Lib.Transition
import SimpleKernel.Buffer.Pool

/-! Threads that work on one buffer pool. Control passes only where the code blocks: in `dev_read`, `dev_write`,
`wait_for_buffer`, `yield` and the user's sync function. Between two such points a thread runs in one step. -/
namespace SimpleKernel.Buffer
open LinkedList
open Function (update)

/-- The two functions that may need a new buffer. -/
inductive Fetch where
  | get | alloc
  deriving DecidableEq, Repr

/-- The callers of `lookup_buffer`. -/
inductive Caller where
  | fetch (k : Fetch)
  | invalidate
  deriving DecidableEq, Repr

/-- Where a thread is. `taken` is the data that the device has already taken out of a buffer that is being written.
`flushNext` and `syncNext` are the heads of the loops of `flush_buffers` and `sync_buffers`. -/
inductive Pc (β : Type) where
  | idle
  | wait (c : Caller) (f : BufId)
  | woken (c : Caller) (f : BufId)
  | evict (k : Fetch) (b : Blkno) (f : BufId) (taken : Option β)
  | retry (k : Fetch) (b : Blkno)
  | read (f : BufId)
  | flushWrite (interruptable : Bool) (f : BufId) (taken : Option β)
  | flushNext (interruptable : Bool)
  | syncUser (interruptable : Bool)
  | syncNext (interruptable : Bool) (i : BufId)
  | syncWrite (interruptable : Bool) (f : BufId) (taken : Option β)

inductive Ret where
  | nothing
  | buf (r : Option BufId)
  | code (rc : ℤ)
  deriving DecidableEq, Repr

/-- `holds t f` counts the references to `f` that `t` was given and has not released.
`leaked f` counts the locks that no thread can release any more. -/
structure Sys (τ β : Type) where
  pool : Pool τ β
  dev : Dev β
  pc : τ → Pc β
  holds : τ → BufId → ℕ
  leaked : BufId → ℕ
  ret : τ → Ret

inductive Op (β : Type) where
  | get (b : Blkno)
  | alloc (b : Blkno)
  | write (f : BufId) (d : β)
  | markUpdated (f : BufId)
  | markInvalid (f : BufId)
  | release (f : BufId)
  | invalidate (b : Blkno)
  | flush (interruptable : Bool)
  | sync (interruptable : Bool)
  | setNosync (v : Bool)

/-- `take`: the device takes the data of a write. `done`: a transfer is over with result
`rc`; after a partial transfer `d` is what the target holds. -/
inductive Label (τ β : Type) where
  | call (t : τ) (op : Op β)
  | take (t : τ)
  | done (t : τ) (rc : ℤ) (d : β)
  | resume (t : τ)

namespace Sys
variable {τ β : Type} [DecidableEq τ]

/-- Thread `t` goes on to `pc` with the pool `p`. -/
@[simps] def goto (s : Sys τ β) (t : τ) (p : Pool τ β) (pc : Pc β) : Sys τ β :=
  { s with pool := p, pc := update s.pc t pc }

/-- The call of `t` returns. -/
@[simps] def finish (s : Sys τ β) (t : τ) (p : Pool τ β) (r : Ret) : Sys τ β :=
  { s with pool := p, pc := update s.pc t .idle, ret := update s.ret t r }

/-- The call of `t` returns buffer `f`, locked for `t`. -/
@[simps] def give (s : Sys τ β) (t : τ) (p : Pool τ β) (f : BufId) : Sys τ β :=
  { s with
    pool := p
    pc := update s.pc t .idle
    holds := update s.holds t (update (s.holds t) f (s.holds t f + 1))
    ret := update s.ret t (.buf (some f)) }

/-- One reference less of `t` to `f`. -/
@[simps] def unhold (s : Sys τ β) (t : τ) (f : BufId) : Sys τ β :=
  { s with holds := update s.holds t (update (s.holds t) f (s.holds t f - 1)) }

/-- A lock on `f` is left behind. -/
@[simps] def leak (s : Sys τ β) (f : BufId) : Sys τ β :=
  { s with leaked := update s.leaked f (s.leaked f + 1) }

/-- `mark_thread_ready` for the threads that `release_buffer_waiters` finds. -/
@[simps] def wake (s : Sys τ β) (ts : List τ) : Sys τ β :=
  { s with pc := fun u => if u ∈ ts then
      (match s.pc u with
        | .wait c f => .woken c f
        | x => x)
      else s.pc u }

variable [Zero β]

/-- The caller of `lookup_buffer` has got `f`, with a lock; the pool is `p`. -/
def afterLookup (s : Sys τ β) (t : τ) (c : Caller) (p : Pool τ β) (f : BufId) : Sys τ β :=
  match c with
  | .fetch k =>
    if p.state f = .error then s.finish t (p.releaseBuffer f) (.buf none)
    else
      match k with
      | .get => s.give t p f
      | .alloc => s.give t (p.setData f 0) f
  | .invalidate => s.finish t ((p.markBufferInvalid f).releaseBuffer f) .nothing

/-- The rest of `get_buffer` and `alloc_buffer` once `get_new_buffer` returned `f`. -/
def useNew (s : Sys τ β) (t : τ) (k : Fetch) (b : Blkno) (p : Pool τ β) (f : BufId) : Sys τ β :=
  match k with
  | .get => s.goto t (p.bindForRead f b) (.read f)
  | .alloc => s.give t (p.bindForAlloc f b) f

/-- `get_new_buffer` after `write_buffer` returned `rc`. -/
def evictFinish (s : Sys τ β) (t : τ) (k : Fetch) (b : Blkno) (f : BufId) (rc : ℤ) : Sys τ β :=
  let p := s.pool.writeBufferFinish f rc
  let s' := s.wake (s.pool.waiters f)
  if 0 ≤ rc ∧ p.locks f = 0 then s'.useNew t k b (p.removeFromHashtable f) f
  else s'.goto t p (.retry k b)

/-- One pass of the loop in `get_new_buffer`. -/
def fetchNew (s : Sys τ β) (t : τ) (k : Fetch) (b : Blkno) : Sys τ β :=
  match s.pool.getNewBuffer with
  | (.taken f, p) => s.useNew t k b p f
  | (.write f, p) =>
    if p.state f = .dirty then s.goto t (p.writeBufferStart f false) (.evict k b f none)
    else s.evictFinish t k b f p.bufsize
  | (.spin, p) => s.goto t p (.retry k b)

/-- `lookup_buffer` and what its caller does with the result. -/
def lookupBuffer (s : Sys τ β) (t : τ) (c : Caller) (b : Blkno) : Sys τ β :=
  match s.pool.search b with
  | some f =>
    if s.pool.busy f then s.goto t (s.pool.waitForBuffer t f) (.wait c f)
    else s.afterLookup t c (s.pool.claim f) f
  | none =>
    match c with
    | .fetch k => s.fetchNew t k b
    | .invalidate => s.finish t s.pool .nothing

/-- `flush_buffers` after `write_buffer` returned `rc`, up to the next pass of the loop. -/
def flushWritten (s : Sys τ β) (f : BufId) (rc : ℤ) : Sys τ β :=
  let s' := s.wake (s.pool.waiters f)
  let p := s.pool.writeBufferFinish f rc
  if rc < 0 then { s' with pool := p } else { s' with pool := p.flushFinish f }

/-- One pass of the loop in `flush_buffers`. -/
def flushLoop (s : Sys τ β) (t : τ) (interruptable : Bool) : Sys τ β :=
  match s.pool.dirty.head with
  | none => s.finish t s.pool (.code 0)
  | some f =>
    if interruptable && s.pool.ioactive then s.finish t s.pool (.code (-EINTR))
    else if s.pool.state f = .dirty then
      s.goto t (s.pool.writeBufferStart f true) (.flushWrite interruptable f none)
    else
      let s' := s.flushWritten f s.pool.bufsize
      s'.goto t s'.pool (.flushNext interruptable)

def flushDone (s : Sys τ β) (t : τ) (interruptable : Bool) (f : BufId) (rc : ℤ) : Sys τ β :=
  let s' := s.flushWritten f rc
  if rc < 0 then s'.finish t s'.pool (.code rc) else s'.flushLoop t interruptable

/-- The loop of `sync_buffers` from index `i` on. -/
def syncLoop (s : Sys τ β) (t : τ) (interruptable : Bool) (i : BufId) : Sys τ β :=
  match s.pool.nextUpdated (s.pool.poolsize - i) i with
  | none => s.finish t s.pool (.code 0)
  | some f =>
    if interruptable && s.pool.ioactive then s.finish t s.pool (.code (-EINTR))
    else s.goto t (s.pool.lock f) (.syncWrite interruptable f none)

/-- `sync_buffers` after the user's sync function. -/
def syncStart (s : Sys τ β) (t : τ) (interruptable : Bool) : Sys τ β :=
  if s.pool.bufcount .updated = 0 then s.finish t s.pool (.code 0)
  else { s with pool := { s.pool with ioactive := false } }.syncLoop t interruptable 0

/-- `sync_buffers` after `dev_write` returned `rc`. A failure leaves the lock behind. -/
def syncDone (s : Sys τ β) (t : τ) (interruptable : Bool) (f : BufId) (rc : ℤ) : Sys τ β :=
  if rc < 0 then (s.finish t s.pool (.code rc)).leak f
  else
    { s with pool := (s.pool.changeState f .locked).releaseBuffer f }.syncLoop t interruptable
      (f + 1)

/-- A call made by an idle thread. Only a holder writes to a buffer or releases it. -/
def call (s : Sys τ β) (t : τ) : Op β → Option (Sys τ β)
  | .get b => some (s.lookupBuffer t (.fetch .get) b)
  | .alloc b => some (s.lookupBuffer t (.fetch .alloc) b)
  | .write f d => if 0 < s.holds t f then some (s.finish t (s.pool.setData f d) .nothing) else none
  | .markUpdated f =>
    if f < s.pool.poolsize then some (s.finish t (s.pool.markBufferUpdated f) .nothing) else none
  | .markInvalid f =>
    if f < s.pool.poolsize then some (s.finish t (s.pool.markBufferInvalid f) .nothing) else none
  | .release f =>
    if 0 < s.holds t f then
      some ((s.finish t (s.pool.releaseBuffer f) .nothing).unhold t f)
    else none
  | .invalidate b => some (s.lookupBuffer t .invalidate b)
  | .flush i =>
    if s.pool.nosync then some (s.finish t s.pool (.code 0))
    else some ({ s with pool := { s.pool with ioactive := false } }.flushLoop t i)
  | .sync i =>
    if s.pool.nosync then some (s.finish t s.pool (.code 0))
    else if s.pool.sync.isSome then some (s.goto t s.pool (.syncUser i))
    else some (s.syncStart t i)
  | .setNosync v => some (s.finish t { s.pool with nosync := v } .nothing)

/-- The device after a write of buffer `f` with result `rc`. A complete write stores what
the device took. -/
def written (s : Sys τ β) (f : BufId) (taken : Option β) (rc : ℤ) (d : β) : Option (Dev β) :=
  if rc = s.pool.bufsize then taken.map (update s.dev (s.pool.addr f))
  else some (update s.dev (s.pool.addr f) d)

/-- What buffer `f` holds after a read with result `rc`. -/
def fetched (s : Sys τ β) (f : BufId) (rc : ℤ) (d : β) : β :=
  if rc = s.pool.bufsize then s.dev (s.pool.addr f) else d

/-- `get_buffer` after `dev_read` left `d` in `f` and returned `rc`. -/
def readDone (s : Sys τ β) (t : τ) (f : BufId) (rc : ℤ) (d : β) : Sys τ β :=
  let s' := s.wake (s.pool.waiters f)
  let p := s.pool.readBufferFinish f rc d
  if rc < 0 then s'.finish t (p.releaseBuffer f) (.buf none) else s'.give t p f

def take (s : Sys τ β) (t : τ) : Option (Sys τ β) :=
  match s.pc t with
  | .evict k b f none => some (s.goto t s.pool (.evict k b f (some (s.pool.data f))))
  | .flushWrite i f none => some (s.goto t s.pool (.flushWrite i f (some (s.pool.data f))))
  | .syncWrite i f none => some (s.goto t s.pool (.syncWrite i f (some (s.pool.data f))))
  | _ => none

def done (s : Sys τ β) (t : τ) (rc : ℤ) (d : β) : Option (Sys τ β) :=
  match s.pc t with
  | .evict k b f taken =>
    (s.written f taken rc d).map fun dev => { s with dev := dev }.evictFinish t k b f rc
  | .flushWrite i f taken =>
    (s.written f taken rc d).map fun dev => { s with dev := dev }.flushDone t i f rc
  | .syncWrite i f taken =>
    (s.written f taken rc d).map fun dev => { s with dev := dev }.syncDone t i f rc
  | .read f => some (s.readDone t f rc (s.fetched f rc d))
  | _ => none

def resume (s : Sys τ β) (t : τ) : Option (Sys τ β) :=
  match s.pc t with
  | .woken c f => some (s.afterLookup t c s.pool f)
  | .retry k b => some (s.fetchNew t k b)
  | .flushNext i => some (s.flushLoop t i)
  | .syncNext i j => some (s.syncLoop t i j)
  | .syncUser i =>
    match s.pool.sync with
    | some g => some ({ s with dev := g s.dev }.syncStart t i)
    | none => none
  | _ => none

/-- No step follows a panic. -/
def step (s : Sys τ β) : Label τ β → Option (Sys τ β)
  | .call t op =>
    match s.pool.panicked, s.pc t with
    | false, .idle => s.call t op
    | _, _ => none
  | .take t => if s.pool.panicked then none else s.take t
  | .done t rc d => if s.pool.panicked then none else s.done t rc d
  | .resume t => if s.pool.panicked then none else s.resume t

end Sys

/-- A fresh pool on a device, with all threads idle. -/
def initSys (τ : Type) {β : Type} [Zero β] (poolsize bufsize blksize : ℕ)
    (sync : Option (Dev β → Dev β)) (dev : Dev β) : Sys τ β where
  pool := initBufferPool τ poolsize bufsize blksize sync
  dev := dev
  pc := fun _ => .idle
  holds := fun _ _ => 0
  leaked := fun _ => 0
  ret := fun _ => .nothing

end SimpleKernel.Buffer
