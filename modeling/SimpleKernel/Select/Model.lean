import SimpleKernel.Handle.Table
import SimpleKernel.Lib.Traced
import SimpleKernel.Object.Model

/-! `select` and `poll` (`krnl/iomux.c`): what they lock and release, and what they leave in the arrays of the
caller. -/
namespace SimpleKernel.Select
open Handle
open Object (EPERM EINTR EINVAL ETIMEOUT infinite)

/-- The fields of `struct ioobject` that decide where it is queued. `iomux` is an address. -/
structure IoObject where
  signaled : ℕ
  monitored : ℕ
  iomux : Option ℕ

structure Kernel (ω τ : Type) where
  handles : State ω τ
  io : ω → IoObject

/-- What a call does to the counts, and the waits, with the kernel before and after them. -/
inductive Event (ω τ : Type) where
  | olock (o : ω)
  | orel (o : Option ω)
  | wait (before after : Kernel ω τ)

abbrev Action (ω τ α : Type) := Traced (Kernel ω τ) (Event ω τ) α

/-- `IOEVT_READ | IOEVT_ACCEPT | IOEVT_CLOSE` -/
def readMask : ℕ := 0x29

/-- `IOEVT_WRITE | IOEVT_CONNECT` -/
def writeMask : ℕ := 0x12

/-- `IOEVT_ERROR` -/
def exceptMask : ℕ := 0x04

/-- The three `fd_set`s, each with its first `count` entries. A null pointer is no set. -/
structure FdSets where
  read : Option (List ℤ)
  write : Option (List ℤ)
  except : Option (List ℤ)
  deriving DecidableEq

structure PollFd where
  fd : ℤ
  events : ℕ
  revents : ℕ

variable {ω τ : Type} [DecidableEq ω]

section Kernel

/-- `ISIOOBJECT`: a socket or a file. -/
def Kernel.isIoObject (k : Kernel ω τ) (o : ω) : Bool :=
  (k.handles.obj o).type = 6 || (k.handles.obj o).type = 5

/-- The object is put into a queue of the multiplexer at `self`. -/
def Kernel.attach (k : Kernel ω τ) (self : ℕ) (o : ω) (events : ℕ) : Kernel ω τ :=
  { k with io := Function.update k.io o { k.io o with iomux := some self, monitored := events } }

def olock (fd : ℤ) : Action ω τ (Option ω) := fun k =>
  let r := k.handles.olock fd objectAny
  (r.2, { k with handles := r.1 }, r.2.toList.map Event.olock)

/-- A null pointer has no counts. -/
def orel (o : Option ω) : Action ω τ Unit := fun k =>
  match o with
  | none => ((), k, [.orel none])
  | some o => ((), { k with handles := k.handles.orel o }, [.orel (some o)])

def isIoObject (o : ω) : Action ω τ Bool := fun k => (k.isIoObject o, k, [])

def eventsSignaled (o : ω) : Action ω τ ℕ := fun k => ((k.io o).signaled, k, [])

/-- `queue_ioobject` on the multiplexer at `self`, for which no thread waits yet. -/
def queueIoobject (self : ℕ) (o : ω) (events : ℕ) : Action ω τ ℤ := fun k =>
  if k.isIoObject o = false then (-EBADF, k, [])
  else if events = 0 then (-EINVAL, k, [])
  else
    match (k.io o).iomux with
    | none => (0, k.attach self o events, [])
    | some iomux =>
      if iomux ≠ self then (-EPERM, k, [])
      else (0, k.attach self o (events ||| (k.io o).monitored), [])

/-- No object is attached to the multiplexer at `self` any more. -/
def Kernel.detached (k : Kernel ω τ) (self : ℕ) : Kernel ω τ :=
  { k with io := fun o => if (k.io o).iomux = some self then { k.io o with iomux := none } else k.io o }

def closeIomux (self : ℕ) : Action ω τ Unit := fun k => ((), k.detached self, [])

/-- `wait_for_object` or `msleep`. `woken` is what it returns, and the kernel as the other threads leave it. -/
def wait (woken : ℤ × Kernel ω τ) : Action ω τ ℤ := fun k => (woken.1, woken.2, [.wait k woken.2])

end Kernel

section Select

/-- The loop of `check_fds` with `left` entries left, from the entry `n` on. The array is compacted in place. -/
def checkFdsLoop (eventmask : ℕ) : ℕ → ℕ → ℕ → List ℤ → Action ω τ (ℤ × List ℤ)
  | 0, _, found, fds => pure (found, fds)
  | left + 1, n, found, fds => do
    let fd := fds.getD n 0
    match ← olock fd with
    | none => pure (-EBADF, fds)
    | some iob => do
      let io ← isIoObject iob
      if io then do
        let signaled ← eventsSignaled iob
        orel (some iob)
        if signaled &&& eventmask ≠ 0 then checkFdsLoop eventmask left (n + 1) (found + 1) (fds.set found fd)
        else checkFdsLoop eventmask left (n + 1) found fds
      else do
        orel (some iob)
        pure (-EBADF, fds)

def checkFds (fds : Option (List ℤ)) (eventmask : ℕ) : Action ω τ (ℤ × Option (List ℤ)) :=
  match fds with
  | none => pure (0, none)
  | some fds => do
    let r ← checkFdsLoop eventmask fds.length 0 0 fds
    pure (r.1, some r.2)

/-- A descriptor is queued. An object that cannot be queued is not released. -/
def queueFd (self eventmask : ℕ) (fd : ℤ) : Action ω τ ℤ := do
  match ← olock fd with
  | none => pure (-EBADF)
  | some iob => do
    let io ← isIoObject iob
    if io then do
      let rc ← queueIoobject self iob eventmask
      if rc < 0 then pure rc
      else do
        orel (some iob)
        pure 0
    else do
      orel (some iob)
      pure (-EBADF)

/-- The loop of `add_fds_to_iomux`. -/
def addFdsLoop (self eventmask : ℕ) : List ℤ → Action ω τ ℤ
  | [] => pure 0
  | fd :: fds => do
    let rc ← queueFd self eventmask fd
    if rc < 0 then pure rc else addFdsLoop self eventmask fds

def addFdsToIomux (self : ℕ) (fds : Option (List ℤ)) (eventmask : ℕ) : Action ω τ ℤ :=
  match fds with
  | none => pure 0
  | some fds => addFdsLoop self eventmask fds

/-- `fds->count = n` -/
def setCount (fds : Option (List ℤ)) (n : ℤ) : Option (List ℤ) := fds.map (List.take n.toNat)

def checkSelect (s : FdSets) : Action ω τ (ℤ × FdSets) := do
  let r ← checkFds s.read readMask
  if r.1 < 0 then pure (r.1, ⟨r.2, s.write, s.except⟩)
  else do
    let w ← checkFds s.write writeMask
    if w.1 < 0 then pure (w.1, ⟨r.2, w.2, s.except⟩)
    else do
      let e ← checkFds s.except exceptMask
      if e.1 < 0 then pure (e.1, ⟨r.2, w.2, e.2⟩)
      else if r.1 ≠ 0 ∨ w.1 ≠ 0 ∨ e.1 ≠ 0 then
        pure (r.1 + w.1 + e.1, ⟨setCount r.2 r.1, setCount w.2 w.1, setCount e.2 e.1⟩)
      else pure (0, ⟨r.2, w.2, e.2⟩)

/-- The timeout in milliseconds, from seconds and microseconds. -/
def selectTimeout : Option (ℤ × ℤ) → ℕ
  | none => infinite.toNat
  | some (sec, usec) => ((sec * 1000 + usec.tdiv 1000) % 2 ^ 32).toNat

/-- The three calls of `add_fds_to_iomux`. -/
def addSets (self : ℕ) (s : FdSets) : Action ω τ ℤ := do
  let rc ← addFdsToIomux self s.read readMask
  if rc < 0 then pure rc
  else do
    let rc ← addFdsToIomux self s.write writeMask
    if rc < 0 then pure rc
    else addFdsToIomux self s.except exceptMask

/-- `close_iomux` before the return. -/
def leave {α : Type} (self : ℕ) (r : α) : Action ω τ α := do
  closeIomux self
  pure r

/-- The multiplexer lies at `self` on the stack. -/
def select (self : ℕ) (woken : ℤ × Kernel ω τ) (s : FdSets) (timeout : Option (ℤ × ℤ)) :
    Action ω τ (ℤ × FdSets) := do
  let r ← checkSelect s
  if r.1 ≠ 0 then pure r
  else if selectTimeout timeout = 0 then pure (0, r.2)
  else if timeout ≠ none ∧ s.read = none ∧ s.write = none ∧ s.except = none then do
    let rc ← wait woken
    pure (if 0 < rc then -EINTR else 0, r.2)
  else do
    let rc ← addSets self r.2
    if rc < 0 then leave self (rc, r.2)
    else do
      let rc ← wait woken
      if rc < 0 then leave self (if rc = -ETIMEOUT then 0 else rc, r.2)
      else do
        let q ← checkSelect r.2
        if q.1 = 0 then leave self (0, ⟨setCount q.2.read 0, setCount q.2.write 0, setCount q.2.except 0⟩)
        else leave self q

end Select

section Poll

/-- The events to look for when `poll` asks for `events` (`POLLIN` and `POLLOUT`). -/
def pollMask (events : ℕ) : ℕ :=
  0x24 ||| (if events &&& 1 ≠ 0 then 0x09 else 0) ||| (if events &&& 4 ≠ 0 then 0x12 else 0)

/-- The events that `poll` reports: `POLLIN`, `POLLOUT`, `POLLERR` and `POLLHUP`. -/
def pollRevents (mask : ℕ) : ℕ :=
  (if mask &&& 0x09 ≠ 0 then 1 else 0) ||| (if mask &&& 0x12 ≠ 0 then 4 else 0) |||
    (if mask &&& 0x04 ≠ 0 then 8 else 0) ||| (if mask &&& 0x20 ≠ 0 then 0x10 else 0)

def pollnval : ℕ := 0x20

/-- What is reported for a descriptor. An object that is no I/O object is released here. -/
def pollEntry (events : ℕ) : Option ω → Action ω τ ℕ
  | none => pure pollnval
  | some iob => do
    let io ← isIoObject iob
    if io then do
      let signaled ← eventsSignaled iob
      pure (pollRevents (pollMask events &&& signaled))
    else do
      orel (some iob)
      pure pollnval

/-- One turn of the loop of `check_poll`. Whatever `olock` has answered is released at its end. -/
def checkPollFd (p : PollFd) : Action ω τ ℕ :=
  if 0 ≤ p.fd then do
    let iob ← olock p.fd
    let revents ← pollEntry p.events iob
    orel iob
    pure revents
  else pure 0

def checkPoll : List PollFd → Action ω τ (ℤ × List PollFd)
  | [] => pure (0, [])
  | p :: fds => do
    let revents ← checkPollFd p
    let r ← checkPoll fds
    pure (if revents ≠ 0 then r.1 + 1 else r.1, { p with revents := revents } :: r.2)

def addFdToIomux (self : ℕ) (fd : ℤ) (events : ℕ) : Action ω τ ℤ :=
  if fd < 0 then pure 0 else queueFd self (pollMask events) fd

def addPoll (self : ℕ) : List PollFd → Action ω τ ℤ
  | [] => pure 0
  | p :: fds => do
    let rc ← addFdToIomux self p.fd p.events
    if rc < 0 then pure rc else addPoll self fds

/-- `poll` of at least one entry. -/
def pollFds (self : ℕ) (woken : ℤ × Kernel ω τ) (fds : List PollFd) (timeout : ℤ) :
    Action ω τ (ℤ × List PollFd) := do
  let r ← checkPoll fds
  if 0 < r.1 then pure r
  else if timeout = 0 then pure (0, r.2)
  else do
    let rc ← addPoll self r.2
    if rc < 0 then leave self (rc, r.2)
    else do
      let rc ← wait woken
      if rc < 0 then leave self (if rc = -ETIMEOUT then 0 else rc, r.2)
      else do
        let r ← checkPoll r.2
        leave self r

/-- The array `fds` has `nfds` entries. -/
def poll (self : ℕ) (woken : ℤ × Kernel ω τ) (fds : Option (ℕ → PollFd)) (nfds : ℕ) (timeout : ℤ) :
    Action ω τ (ℤ × List PollFd) :=
  if nfds = 0 then do
    let rc ← wait woken
    pure (if 0 < rc then -EINTR else 0, [])
  else
    match fds with
    | none => pure (-EINVAL, [])
    | some fds => pollFds self woken ((List.range nfds).map fds) timeout

end Poll

end SimpleKernel.Select
