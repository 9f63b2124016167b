import Mathlib.Algebra.Group.Nat.Defs
import Mathlib.Algebra.Group.Int.Defs
import SimpleKernel.Lib.Transition
import Mathlib.Logic.Function.Basic
import Mathlib.Data.List.Basic

/-! Virtio queues (`sys/krnl/virtio.c`): the driver's side, and a device that completes what is published to it. -/
namespace SimpleKernel.Virtio

/-- `flags` of a descriptor: `VRING_DESC_F_NEXT` and `VRING_DESC_F_WRITE`. -/
structure Flags where
  next : Bool
  write : Bool
  deriving DecidableEq

/-- `struct vring_desc`. -/
structure Desc where
  addr : ℕ
  len : ℕ
  flags : Flags
  next : ℕ
  deriving DecidableEq

/-- `struct scatterlist`, with the physical address of the data. -/
structure Scatter where
  addr : ℕ
  size : ℕ
  deriving DecidableEq

/-- `struct vring_used_elem`. -/
structure UsedElem where
  id : ℕ
  len : ℕ
  deriving DecidableEq

/-- `struct virtio_queue` with its ring. The indices of the ring are counters of 16 bits. -/
structure Queue (α : Type) where
  size : ℕ
  desc : ℕ → Desc
  availIdx : ℕ
  availRing : ℕ → ℕ
  usedIdx : ℕ
  usedRing : ℕ → UsedElem
  numFree : ℕ
  freeHead : ℕ
  numAdded : ℕ
  lastUsedIdx : ℕ
  data : ℕ → Option α

variable {α : Type}

/-- `init_queue`, in memory that is cleared. -/
def Queue.init (size : ℕ) : Queue α where
  size := size
  desc := fun i => ⟨0, 0, ⟨false, false⟩, if i < size - 1 then i + 1 else 0⟩
  availIdx := 0
  availRing := fun _ => 0
  usedIdx := 0
  usedRing := fun _ => ⟨0, 0⟩
  numFree := size
  freeHead := 0
  numAdded := 0
  lastUsedIdx := 0
  data := fun _ => none

/-- The loops of `virtio_enqueue`: descriptors from `i` on are filled; the result has the next one and the last one
filled. -/
def fill (desc : ℕ → Desc) (i tail : ℕ) (write : Bool) : List Scatter → (ℕ → Desc) × ℕ × ℕ
  | [] => (desc, i, tail)
  | sg :: sgs =>
    let desc := Function.update desc i ⟨sg.addr, sg.size, ⟨true, write⟩, (desc i).next⟩
    fill desc (desc i).next i write sgs

/-- `virtio_enqueue` once there are enough free buffers. -/
def Queue.enqueue (q : Queue α) (out ins : List Scatter) (data : α) : Queue α :=
  let head := q.freeHead
  let (desc, i, tail) := fill q.desc q.freeHead 0 false out
  let (desc, i, tail) := fill desc i tail true ins
  let avail := (q.availIdx + q.numAdded) % q.size
  { q with
    numFree := q.numFree - (out.length + ins.length)
    desc := Function.update desc tail { desc tail with flags := { (desc tail).flags with next := false } }
    freeHead := i
    data := Function.update q.data head (some data)
    numAdded := q.numAdded + 1
    availRing := Function.update q.availRing avail head }

/-- `virtio_kick`. -/
def Queue.kick (q : Queue α) : Queue α := { q with availIdx := (q.availIdx + q.numAdded) % 2 ^ 16, numAdded := 0 }

/-- The loop of `virtio_release`: the last buffer from `i` on, and how many there are. `fuel` bounds the walk. -/
def findEnd (desc : ℕ → Desc) : ℕ → ℕ → Option (ℕ × ℕ)
  | 0, _ => none
  | fuel + 1, i =>
    if (desc i).flags.next then (findEnd desc fuel (desc i).next).map fun r => (r.1, r.2 + 1) else some (i, 1)

/-- `virtio_release`. -/
def Queue.release (q : Queue α) (head : ℕ) : Option (Queue α) :=
  (findEnd q.desc q.size head).map fun r =>
    { q with
      data := Function.update q.data head none
      numFree := q.numFree + r.2
      desc := Function.update q.desc r.1 { q.desc r.1 with next := q.freeHead }
      freeHead := head }

/-- What has happened: the tokens of the requests in the order they were enqueued, which request a head stands for,
the requests that the device has completed with their lengths, and what `virtio_dequeue` returned. -/
structure Record (α : Type) where
  enqueued : List α
  owner : ℕ → ℕ
  completed : List (ℕ × ℕ)
  returned : List (ℕ × Option α × ℕ)

/-- The queue, and the device: how many entries of the available ring it has taken, of 16 bits, and the heads that it
is working on. -/
structure State (α : Type) where
  queue : Queue α
  lastAvail : ℕ
  inflight : List ℕ
  record : Record α

def State.init (size : ℕ) : State α := ⟨.init size, 0, [], ⟨[], fun _ => 0, [], []⟩⟩

/-- The driver calls one of its functions; the device takes a published chain, or completes one that it has taken. -/
inductive Act (α : Type)
  | enqueue (out ins : List Scatter) (data : α)
  | kick
  | dequeue
  | take
  | complete (head len : ℕ)

def State.enqueue (s : State α) (out ins : List Scatter) (data : α) : State α :=
  { s with
    queue := s.queue.enqueue out ins data
    record := { s.record with
      enqueued := s.record.enqueued ++ [data]
      owner := Function.update s.record.owner s.queue.freeHead s.record.enqueued.length } }

/-- `virtio_dequeue`; without a completed buffer it returns `NULL`. -/
def State.dequeue (s : State α) : Option (State α) :=
  if s.queue.lastUsedIdx = s.queue.usedIdx then some s
  else
    let e := s.queue.usedRing (s.queue.lastUsedIdx % s.queue.size)
    (s.queue.release e.id).map fun q => { s with
      queue := { q with lastUsedIdx := (q.lastUsedIdx + 1) % 2 ^ 16 }
      record := { s.record with
        returned := s.record.returned ++ [(s.record.owner e.id, s.queue.data e.id, e.len)] } }

/-- The device takes the next entry of the available ring. -/
def State.take (s : State α) : Option (State α) :=
  if s.lastAvail = s.queue.availIdx then none
  else some { s with
    inflight := s.inflight ++ [s.queue.availRing (s.lastAvail % s.queue.size)]
    lastAvail := (s.lastAvail + 1) % 2 ^ 16 }

/-- The device puts a chain into the used ring. -/
def State.complete (s : State α) (head len : ℕ) : Option (State α) :=
  if head ∈ s.inflight then some { s with
    queue := { s.queue with
      usedRing := Function.update s.queue.usedRing (s.queue.usedIdx % s.queue.size) ⟨head, len⟩
      usedIdx := (s.queue.usedIdx + 1) % 2 ^ 16 }
    inflight := s.inflight.erase head
    record := { s.record with completed := s.record.completed ++ [(s.record.owner head, len)] } }
  else none

def step (s : State α) : Act α → Option (State α)
  | .enqueue out ins data =>
    if out.length + ins.length ≤ s.queue.numFree then some (s.enqueue out ins data) else none
  | .kick => some { s with queue := s.queue.kick }
  | .dequeue => s.dequeue
  | .take => s.take
  | .complete head len => s.complete head len

/-- Scatter lists are not empty. -/
def Legal (_ : State α) : Act α → Prop
  | .enqueue out ins _ => 0 < out.length + ins.length
  | _ => True

end SimpleKernel.Virtio
