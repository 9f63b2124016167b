import SimpleKernel.Lib.Traced
import SimpleKernel.Mem.Buffers
import SimpleKernel.Handle.Table

/-! What the handlers of system calls (`krnl/syscall.c`) are made of: accesses to user memory, the checks
`lock_buffer` to `lock_fdset`, the operations on handles and other kernel functions. -/
namespace SimpleKernel.Syscall
open Mem Handle

def EPERM : ℤ := 1
def EINTR : ℤ := 4
def ENOSYS : ℤ := 40
def ETIMEOUT : ℤ := 70

/-- `OBJECT_THREAD` to `OBJECT_FILEMAP`. -/
def objectThread : ℤ := 0
def objectEvent : ℤ := 1
def objectMutex : ℤ := 3
def objectSemaphore : ℤ := 4
def objectFile : ℤ := 5
def objectSocket : ℤ := 6
def objectIomux : ℤ := 7
def objectFilemap : ℤ := 8

/-- What a handler does to user memory: a check that has accepted a range, the read or write of a
word, and a store into `errnum` of the caller's thread information block. A null pointer is not
checked and not accepted. -/
inductive Event where
  | accepted (addr size : UInt32) (modify : Bool)
  | access (addr : UInt32) (write : Bool)
  | errnum

/-- The functions that handlers call and that are not described further. -/
inductive KernelFn where
  | mkfs | mount | umount | getfsstat | fstatfs | statfs | openFile | fsync | read | recv | write | send
  | ioctl | ioctlsocket | tell | getThreadTimes | lseek | ftruncate | futime | utime | fstat | stat
  | mkdir | rmdir | rename | link | unlink | opendir | readdir | vmalloc | vmfree | vmrealloc
  | vmprotect | vmlock | vmunlock | vmmap | vmsync | waitForOneObject | waitForAllObjects
  | waitForAnyObject | kmalloc | initEvent | initSem | initMutex | initIomux | pulseEvent | setEvent
  | resetEvent | stop | createThread | suspendThread | resumeThread | terminateThread | setContext
  | getContext | getThreadPriority | setThreadPriority | msleep | getTime | setTime | releaseSem
  | accept | bind | connect | getpeername | getsockname | getsockopt | listen | recvfrom | sendto
  | setsockopt | shutdown | socket | readv | recvv | writev | sendv | chdir | queueIoobject
  | closeIomux | recvmsg | sendmsg | waitForObject | pipe | setmode | chmod | fchmod | cpuSysinfo
  | memSysinfo | loadSysinfo | releaseMutex | pread | pwrite | getuid | setuid | getgid | setgid
  | geteuid | seteuid | getegid | setegid | getgroups | setgroups | chown | fchown | access | getcwd
  | sendUserSignal | setSignalMask | getPendingSignals | scheduleAlarm
  deriving DecidableEq

/-- The parts of the kernel's state that handlers work on. `fault`: a null pointer was followed, or
a function does not return. `made` is history: the objects that were created. -/
structure Kernel (ω : Type) where
  pt : PageTables
  mem : UInt32 → UInt32
  handles : State ω Unit
  fault : Bool
  made : List ω

/-- What is left open. `result` and `effect` are those of the other kernel functions, `created` and `peer` the
objects that one creates. `events` are the events that are signaled for an I/O object, before and after the call has
waited. -/
structure World (ω : Type) where
  fetchPage : PageTables → UInt32 → PageTables × ℤ
  strAccess : PageTables → (UInt32 → UInt32) → UInt32 → PageTables × Bool
  result : KernelFn → List ω → List UInt32 → ℤ
  effect : KernelFn → List ω → List UInt32 → Kernel ω → Kernel ω
  created : ω
  peer : ω
  closeResult : ω → ℤ
  threadId : ω → ℤ
  threadTib : ω → UInt32
  tib : UInt32
  events : Bool → ω → UInt32
  clocks : ℤ
  systemclock : ℤ × ℤ

abbrev M (ω : Type) := Traced (Kernel ω) Event

variable {ω : Type} [DecidableEq ω]

section Memory

/-- A word of user memory is read or written by the handler itself. -/
def load (addr : UInt32) : M ω UInt32 := fun k => (k.mem addr, k, [.access addr false])

def store (addr v : UInt32) : M ω Unit := fun k =>
  ((), { k with mem := Function.update k.mem addr v }, [.access addr true])

/-- A word is read by a function that the handler calls. -/
def peek (addr : UInt32) : M ω UInt32 := fun k => (k.mem addr, k, [])

def poke (addr v : UInt32) : M ω Unit := fun k =>
  ((), { k with mem := Function.update k.mem addr v }, [])

/-- `if (tib) tib->errnum = -rc`. -/
def setErrnum (w : World ω) : M ω Unit := fun k => ((), k, if w.tib = 0 then [] else [.errnum])

/-- The first `n` words of the parameter block. -/
def args (params : UInt32) : ℕ → M ω (ℕ → UInt32)
  | 0 => pure fun _ => 0
  | n + 1 => do
    let a ← args params n
    let v ← load (params + 4 * UInt32.ofNat n)
    pure (Function.update a n v)

/-- The page tables and the code that a check leaves; the checks always return. -/
def check (r : PageTables → Option (PageTables × ℤ)) (events : List Event) : M ω ℤ := fun k =>
  let q := (r k.pt).getD (k.pt, -EFAULT)
  (q.2, { k with pt := q.1 }, if q.2 < 0 then [] else events)

def lockBuffer (w : World ω) (buffer size : UInt32) (modify : Bool) : M ω ℤ :=
  check (fun pt => Mem.lockBuffer w.fetchPage pt buffer size modify)
    (if buffer = 0 then [] else [.accepted buffer size modify])

def lockString (w : World ω) (s : UInt32) : M ω ℤ := fun k =>
  if s = 0 then (0, k, [])
  else
    let r := w.strAccess k.pt k.mem s
    (if r.2 then 0 else -EFAULT, { k with pt := r.1 }, [])

def lockIovec (w : World ω) (iov count : UInt32) (modify : Bool) : M ω ℤ := fun k =>
  check (fun pt => checkIovec w.fetchPage k.mem pt iov count modify) [] k

def lockFdset (w : World ω) (fds : UInt32) (modify : Bool) : M ω ℤ := fun k =>
  check (fun pt => Mem.lockFdset w.fetchPage k.mem pt fds modify) [] k

/-- A check of an argument. -/
inductive Lock where
  | buffer (p size : UInt32) (modify : Bool)
  | string (s : UInt32)
  | iovec (iov count : UInt32) (modify : Bool)
  | fdset (fds : UInt32) (modify : Bool)

def Lock.code (w : World ω) : Lock → M ω ℤ
  | .buffer p size modify => lockBuffer w p size modify
  | .string s => lockString w s
  | .iovec iov count modify => lockIovec w iov count modify
  | .fdset fds modify => lockFdset w fds modify

/-- The checks one after the other until one fails. -/
def lockAll (w : World ω) : List Lock → M ω Bool
  | [] => pure true
  | l :: ls => do
    let rc ← l.code w
    if rc < 0 then pure false else lockAll w ls

/-- The handlers answer a failed check with `-EFAULT`. -/
def guarded (w : World ω) (locks : List Lock) (body : M ω ℤ) : M ω ℤ := do
  let ok ← lockAll w locks
  if ok then body else pure (-EFAULT)

end Memory

section Handles

/-- The objects that a function creates when it returns `rc`. -/
def World.makes (w : World ω) (f : KernelFn) (rc : ℤ) : List ω :=
  match f with
  | .openFile | .opendir | .socket | .accept => if rc = 0 then [w.created] else []
  | .pipe => if rc = 0 then [w.created, w.peer] else []
  | .createThread => if rc < 0 then [] else [w.created]
  | .kmalloc | .vmmap => if rc = 0 then [] else [w.created]
  | _ => []

def call (w : World ω) (f : KernelFn) (objs : List ω) (args : List UInt32) : M ω ℤ := fun k =>
  let rc := w.result f objs args
  (rc, { w.effect f objs args k with made := w.makes f rc ++ k.made }, [])

def fault : M ω Unit := fun k => ((), { k with fault := true }, [])

def typeOf (o : ω) : M ω ℤ := fun k => ((k.handles.obj o).type.toNat, k, [])

def olock (h : UInt32) (type : ℤ) : M ω (Option ω) := fun k =>
  let r := k.handles.olock (asInt h) type
  (r.2, { k with handles := r.1 }, [])

def orel (o : ω) : M ω Unit := fun k => ((), { k with handles := k.handles.orel o }, [])

/-- `orel` of what `olock` has answered. -/
def orelFound : Option ω → M ω Unit
  | some o => orel o
  | none => fault

def halloc (o : ω) : M ω ℤ := fun k =>
  match k.handles.halloc o with
  | some r => (r.2, { k with handles := r.1 }, [])
  | none => (-1, { k with fault := true }, [])

def hprotect (h : ℤ) : M ω Unit := fun k => ((), { k with handles := (k.handles.hprotect h).1 }, [])

/-- `close`, `closesocket` and `close_object` called by a handler. -/
def closeDirect (o : ω) : M ω Unit := fun k =>
  ((), { k with handles := { k.handles with
    closed := Function.update k.handles.closed o (k.handles.closed o + 1) } }, [])

/-- The rest of `hfree` or `hassign` when `close_object` was called. -/
def closing (w : World ω) (o : ω) (handles : State ω Unit) : M ω ℤ := fun k =>
  match handles.closeReturns () (w.closeResult o) with
  | some r => (r.2, { k with handles := r.1 }, [])
  | none => (0, { k with handles := handles }, [])

def hfree (w : World ω) (h : ℤ) : M ω ℤ := fun k =>
  match k.handles.hlookup h, k.handles.hfree () h with
  | some (o, _), (handles, none) => closing w o handles k
  | _, (handles, rc) => (rc.getD 0, { k with handles := handles }, [])

def hassign (w : World ω) (o : ω) (h : ℤ) : M ω ℤ := fun k =>
  match k.handles.hassign () o h with
  | some (handles, some rc) => (rc, { k with handles := handles }, [])
  | some (handles, none) =>
    match k.handles.hlookup h with
    | some (oo, _) => closing w oo handles k
    | none => (0, { k with handles := handles }, [])
  | none => (0, { k with fault := true }, [])

/-- The object of the handle is locked for the rest of the call. -/
def withObject (h : UInt32) (type : ℤ) (body : ω → M ω ℤ) : M ω ℤ := do
  match ← olock h type with
  | none => pure (-EBADF)
  | some o => do
    let rc ← body o
    orel o
    pure rc

end Handles

/-- A handler reads its parameters first. -/
structure Handler (ω : Type) where
  words : ℕ
  body : (ℕ → UInt32) → M ω ℤ

end SimpleKernel.Syscall
