import Mathlib.Algebra.Group.Defs
import Mathlib.Tactic.Simps.Basic
import SimpleKernel.Lib.LinkedList

/-! The buffer pool of `krnl/buf.c`. A buffer is named by its index in `bufbase`; the fields of `struct buf` are
maps from it. Functions that block are cut there: `readBufferStart` runs up to `dev_read`, `readBufferFinish` after
it. -/
namespace SimpleKernel.Buffer
open LinkedList
open Function (update)

/-- `BUF_STATE_FREE` to `BUF_STATE_ERROR`. -/
inductive BufState where
  | free | clean | dirty | reading | writing | locked | updated | invalid | error
  deriving DecidableEq, Repr

abbrev BufId := ℕ
abbrev Blkno := UInt32

/-- The device, by the device block at which a transfer of one buffer starts. -/
abbrev Dev (β : Type) := UInt32 → β

def bufpoolHashsize : ℕ := 512

def EINTR : ℤ := 4

/-- `struct bufpool` with its buffers. `τ` is the type of threads and `β` the content of
one buffer. `panicked` records a call of `panic`. -/
structure Pool (τ β : Type) where
  poolsize : ℕ
  bufsize : ℤ
  blksPerBuffer : UInt32
  ioactive : Bool
  nosync : Bool
  sync : Option (Dev β → Dev β)
  state : BufId → BufState
  locks : BufId → UInt16
  waiters : BufId → List τ
  blkno : BufId → Blkno
  data : BufId → β
  chain : Links BufId
  bucket : Links BufId
  freelist : Option BufId
  clean : Ends BufId
  dirty : Ends BufId
  bufcount : BufState → ℤ
  hashtable : ℕ → Option BufId
  panicked : Bool

def bufhash (blkno : Blkno) : ℕ := blkno.toNat

def slot (blkno : Blkno) : ℕ := bufhash blkno % bufpoolHashsize

namespace Pool
variable {τ β : Type}

/-- The device block at which the content of buffer `f` lives, in 32-bit arithmetic. -/
def addr (p : Pool τ β) (f : BufId) : UInt32 := p.blkno f * p.blksPerBuffer

@[simps] def changeState (p : Pool τ β) (f : BufId) (newstate : BufState) : Pool τ β :=
  { p with
    bufcount := fun s => p.bufcount s - (if s = p.state f then 1 else 0) +
      (if s = newstate then 1 else 0)
    state := update p.state f newstate }

@[simps] def lock (p : Pool τ β) (f : BufId) : Pool τ β :=
  { p with locks := update p.locks f (p.locks f + 1) }

@[simps] def unlock (p : Pool τ β) (f : BufId) : Pool τ β :=
  { p with locks := update p.locks f (p.locks f - 1) }

@[simps] def setData (p : Pool τ β) (f : BufId) (d : β) : Pool τ β :=
  { p with data := update p.data f d }

@[simps] def setBlkno (p : Pool τ β) (f : BufId) (blkno : Blkno) : Pool τ β :=
  { p with blkno := update p.blkno f blkno }

@[simps] def waitForBuffer (p : Pool τ β) (t : τ) (f : BufId) : Pool τ β :=
  { p with waiters := update p.waiters f (t :: p.waiters f) }

/-- Every waiter is given a lock before it is made ready. -/
@[simps] def releaseBufferWaiters (p : Pool τ β) (f : BufId) : Pool τ β :=
  { p with
    locks := update p.locks f (p.locks f + UInt16.ofNat (p.waiters f).length)
    waiters := update p.waiters f [] }

@[simps] def insertIntoHashtable (p : Pool τ β) (f : BufId) : Pool τ β :=
  { p with
    bucket := p.bucket.prepend (p.hashtable (slot (p.blkno f))) f
    hashtable := update p.hashtable (slot (p.blkno f)) (some f) }

@[simps] def removeFromHashtable (p : Pool τ β) (f : BufId) : Pool τ β :=
  { p with
    bucket := (p.bucket.bypass f).clear f
    hashtable := update p.hashtable (slot (p.blkno f))
      (if p.hashtable (slot (p.blkno f)) = some f then p.bucket.next f
        else p.hashtable (slot (p.blkno f))) }

@[simps] def removeFromClean (p : Pool τ β) (f : BufId) : Pool τ β :=
  { p with chain := (p.chain.bypass f).clear f, clean := p.clean.drop p.chain f }

@[simps] def removeFromDirty (p : Pool τ β) (f : BufId) : Pool τ β :=
  { p with chain := (p.chain.bypass f).clear f, dirty := p.dirty.drop p.chain f }

@[simps] def appendClean (p : Pool τ β) (f : BufId) : Pool τ β :=
  { p with chain := p.chain.append p.clean f, clean := p.clean.append f }

@[simps] def appendDirty (p : Pool τ β) (f : BufId) : Pool τ β :=
  { p with chain := p.chain.append p.dirty f, dirty := p.dirty.append f }

@[simps] def pushFree (p : Pool τ β) (f : BufId) : Pool τ β :=
  { p with chain := p.chain.push p.freelist f, freelist := some f }

@[simps] def popFree (p : Pool τ β) (f : BufId) : Pool τ β :=
  { p with chain := p.chain.clear f, freelist := p.chain.next f }

/-- The head `f` of the clean list is taken off it. The tail is moved to `chain.next`. -/
@[simps] def popClean (p : Pool τ β) (f : BufId) : Pool τ β :=
  { p with
    chain := (p.chain.setPrev (p.chain.next f) none).clear f
    clean := ⟨p.chain.next f, if p.clean.tail = some f then p.chain.next f else p.clean.tail⟩ }

/-- `panic`: the kernel stops here. -/
@[simps] def panic (p : Pool τ β) : Pool τ β := { p with panicked := true }

/-- The walk along a hash chain; `fuel` bounds the number of buffers looked at. -/
def searchChain (p : Pool τ β) (blkno : Blkno) : ℕ → Option BufId → Option BufId
  | 0, _ => none
  | _ + 1, none => none
  | fuel + 1, some f =>
    if p.blkno f = blkno then some f else searchChain p blkno fuel (p.bucket.next f)

/-- The loop at the start of `lookup_buffer`. A chain has at most `poolsize` buffers. -/
def search (p : Pool τ β) (blkno : Blkno) : Option BufId :=
  p.searchChain blkno p.poolsize (p.hashtable (slot blkno))

/-- `lookup_buffer` has to wait for a buffer that is being read or written. -/
def busy (p : Pool τ β) (f : BufId) : Bool :=
  p.state f = .reading ∨ p.state f = .writing

/-- The switch of `lookup_buffer` for a buffer that is not busy. -/
def claim [Zero β] (p : Pool τ β) (f : BufId) : Pool τ β :=
  match p.state f with
  | .free => p.panic
  | .clean => ((p.removeFromClean f).changeState f .locked).lock f
  | .dirty => ((p.removeFromDirty f).changeState f .updated).lock f
  | .reading | .writing => p
  | .locked | .updated => p.lock f
  | .invalid => ((p.changeState f .locked).lock f).setData f 0
  | .error => p.lock f

def readBufferStart (p : Pool τ β) (f : BufId) : Pool τ β :=
  { p.changeState f .reading with ioactive := true }

/-- The end of `read_buffer` and of `write_buffer`: a transfer of `rc` bytes is over. -/
def transferFinish (p : Pool τ β) (f : BufId) (rc : ℤ) : Pool τ β :=
  if rc ≠ p.bufsize then (p.changeState f .error).releaseBufferWaiters f
  else (p.changeState f .locked).releaseBufferWaiters f

/-- `dev_read` left `d` in the buffer and returned `rc`. -/
def readBufferFinish (p : Pool τ β) (f : BufId) (rc : ℤ) (d : β) : Pool τ β :=
  (p.setData f d).transferFinish f rc

/-- `write_buffer` on a dirty buffer, up to `dev_write`. -/
def writeBufferStart (p : Pool τ β) (f : BufId) (flush : Bool) : Pool τ β :=
  if flush then (p.removeFromDirty f).changeState f .writing
  else { (p.removeFromDirty f).changeState f .writing with ioactive := true }

def writeBufferFinish (p : Pool τ β) (f : BufId) (rc : ℤ) : Pool τ β := p.transferFinish f rc

/-- What one pass of the loop in `get_new_buffer` finds: a buffer to use, a dirty buffer
to write back first, or nothing. -/
inductive NewBuffer where
  | taken (f : BufId)
  | write (f : BufId)
  | spin
  deriving DecidableEq

def getNewBuffer (p : Pool τ β) : NewBuffer × Pool τ β :=
  match p.freelist with
  | some f => (.taken f, p.popFree f)
  | none =>
    match p.clean.head with
    | some f => (.taken f, (p.popClean f).removeFromHashtable f)
    | none =>
      match p.dirty.head with
      | some f => (.write f, p)
      | none => (.spin, p)

/-- The new buffer `f` is entered in the hash table under `blkno`. -/
def bind (p : Pool τ β) (f : BufId) (blkno : Blkno) : Pool τ β :=
  (p.setBlkno f blkno).insertIntoHashtable f

/-- `get_buffer` on a new buffer, up to `dev_read`. -/
def bindForRead (p : Pool τ β) (f : BufId) (blkno : Blkno) : Pool τ β :=
  ((p.bind f blkno).lock f).readBufferStart f

/-- `alloc_buffer` on a new buffer. -/
def bindForAlloc [Zero β] (p : Pool τ β) (f : BufId) (blkno : Blkno) : Pool τ β :=
  (((p.bind f blkno).setData f 0).changeState f .locked).lock f

def markBufferUpdated (p : Pool τ β) (f : BufId) : Pool τ β :=
  if p.state f = .locked ∨ p.state f = .invalid then p.changeState f .updated else p

def markBufferInvalid (p : Pool τ β) (f : BufId) : Pool τ β :=
  if p.state f = .locked ∨ p.state f = .updated then p.changeState f .invalid else p

/-- The last lock on `f` was released. -/
def settle (p : Pool τ β) (f : BufId) : Pool τ β :=
  match p.state f with
  | .locked => (p.changeState f .clean).appendClean f
  | .updated => (p.changeState f .dirty).appendDirty f
  | .invalid | .error => ((p.removeFromHashtable f).changeState f .free).pushFree f
  | .free | .clean | .dirty | .reading | .writing => p.panic

def releaseBuffer (p : Pool τ β) (f : BufId) : Pool τ β :=
  if (p.unlock f).locks f ≠ 0 then p.unlock f else (p.unlock f).settle f

/-- `flush_buffers` after a write: the buffer goes to the clean list if nobody locked it. -/
def flushFinish (p : Pool τ β) (f : BufId) : Pool τ β :=
  if p.locks f = 0 then (p.changeState f .clean).appendClean f else p

/-- The loop of `sync_buffers` from index `i` on: the next updated buffer. -/
def nextUpdated (p : Pool τ β) : ℕ → BufId → Option BufId
  | 0, _ => none
  | k + 1, i => if p.state i = .updated then some i else nextUpdated p k (i + 1)

end Pool

/-- `init_buffer_pool`, once its allocations succeeded. -/
def initBufferPool (τ : Type) {β : Type} [Zero β] (poolsize bufsize blksize : ℕ)
    (sync : Option (Dev β → Dev β)) : Pool τ β where
  poolsize := poolsize
  bufsize := bufsize
  blksPerBuffer := UInt32.ofNat (bufsize / blksize)
  ioactive := false
  nosync := false
  sync := sync
  state := fun _ => .free
  locks := fun _ => 0
  waiters := fun _ => []
  blkno := fun _ => 0
  data := fun _ => 0
  chain := ⟨fun f => if f + 1 < poolsize then some (f + 1) else none, fun _ => none⟩
  bucket := ⟨fun _ => none, fun _ => none⟩
  freelist := some 0
  clean := ⟨none, none⟩
  dirty := ⟨none, none⟩
  bufcount := fun s => if s = .free then poolsize else 0
  hashtable := fun _ => none
  panicked := false

end SimpleKernel.Buffer
