import SimpleKernel.Syscall.Calls

/-! The handlers of the system calls, in the order of the source, and the kernel functions below
them that lock objects or give them handles. -/
namespace SimpleKernel.Syscall
open Mem Handle

variable {ω : Type} [DecidableEq ω] (w : World ω)

def sizeofStatfs : UInt32 := 556
def sizeofStat64 : UInt32 := 48
def sizeofUtimbuf : UInt32 := 12
def sizeofTms : UInt32 := 16
def sizeofContext : UInt32 := 64
def sizeofSockaddr : UInt32 := 16
def sizeofTimeval : UInt32 := 8
def sizeofSigset : UInt32 := 4
def sizeofPollfd : UInt32 := 8
def sizeofGid : UInt32 := 2
def sizeofMsghdr : UInt32 := 16
def sizeofCpuinfo : UInt32 := 108
def sizeofMeminfo : UInt32 := 20
def sizeofLoadinfo : UInt32 := 20

def maxWaitObjects : ℕ := 16

/-! Files and file systems. -/

section Files

def sysNull : Handler ω := ⟨0, fun _ => pure 0⟩

def sysMkfs : Handler ω := ⟨3, fun a =>
  guarded w [.string (a 0), .string (a 1), .string (a 2)] (call w .mkfs [] [a 0, a 1, a 2])⟩

def sysMount : Handler ω := ⟨4, fun a =>
  guarded w [.string (a 0), .string (a 1), .string (a 2), .string (a 3)]
    (call w .mount [] [a 0, a 1, a 2, a 3])⟩

def sysUmount : Handler ω := ⟨1, fun a => guarded w [.string (a 0)] (call w .umount [] [a 0])⟩

def sysGetfsstat : Handler ω := ⟨2, fun a =>
  guarded w [.buffer (a 0) (a 1) true] (call w .getfsstat [] [a 0, a 1])⟩

def sysFstatfs : Handler ω := ⟨2, fun a =>
  withObject (a 0) objectFile fun f =>
    guarded w [.buffer (a 1) sizeofStatfs true] (call w .fstatfs [f] [a 1])⟩

def sysStatfs : Handler ω := ⟨2, fun a =>
  guarded w [.string (a 0), .buffer (a 1) sizeofStatfs true] (call w .statfs [] [a 0, a 1])⟩

/-- The object that a kernel function has created gets a handle or is closed. -/
def hallocOrClose (rc : ℤ) : M ω ℤ :=
  if rc = 0 then do
    let h ← halloc w.created
    if h < 0 then do
      closeDirect w.created
      pure h
    else pure h
  else pure rc

def sysOpen : Handler ω := ⟨3, fun a =>
  guarded w [.string (a 0)] do
    let rc ← call w .openFile [] [a 0, a 1, if a 1 &&& 0x100 = 0 then 0 else a 2]
    hallocOrClose w rc⟩

def sysClose : Handler ω := ⟨1, fun a => hfree w (asInt (a 0))⟩

def sysFsync : Handler ω := ⟨1, fun a =>
  withObject (a 0) objectFile fun f => call w .fsync [f] []⟩

/-- Files and sockets are served by different functions. -/
def fileOrSocket (o : ω) (f g : KernelFn) (fileArgs socketArgs : List UInt32) : M ω ℤ := do
  let type ← typeOf o
  if type = objectFile then call w f [o] fileArgs
  else if type = objectSocket then call w g [o] socketArgs
  else pure (-EBADF)

def sysRead : Handler ω := ⟨3, fun a =>
  withObject (a 0) objectAny fun o =>
    guarded w [.buffer (a 1) (a 2) true] (fileOrSocket w o .read .recv [a 1, a 2] [a 1, a 2, 0])⟩

def sysWrite : Handler ω := ⟨3, fun a =>
  withObject (a 0) objectAny fun o =>
    guarded w [.buffer (a 1) (a 2) false] (fileOrSocket w o .write .send [a 1, a 2] [a 1, a 2, 0])⟩

def sysIoctl : Handler ω := ⟨4, fun a =>
  withObject (a 0) objectAny fun o =>
    guarded w [.buffer (a 2) (a 3) true]
      (fileOrSocket w o .ioctl .ioctlsocket [a 1, a 2, a 3] [a 1, a 2, a 3])⟩

/-- `if (retval) *retval = rc`, the result of `tell` and `lseek`. -/
def offsetResult (retval : UInt32) (rc : ℤ) : M ω ℤ := do
  if retval ≠ 0 then do
    store retval (UInt32.ofInt rc)
    store (retval + 4) (UInt32.ofInt (rc / 2 ^ 32))
  if rc < 0 then pure rc else pure (rc % 2 ^ 31)

def sysTell : Handler ω := ⟨2, fun a =>
  withObject (a 0) objectFile fun f =>
    guarded w [.buffer (a 1) 8 true] do
      let rc ← call w .tell [f] []
      offsetResult (a 1) rc⟩

def sysThreadtimes : Handler ω := ⟨2, fun a =>
  withObject (a 0) objectThread fun t =>
    guarded w [.buffer (a 1) sizeofTms true] (call w .getThreadTimes [t] [a 1])⟩

def sysLseek : Handler ω := ⟨5, fun a =>
  withObject (a 0) objectFile fun f =>
    guarded w [.buffer (a 4) 8 true] do
      let rc ← call w .lseek [f] [a 1, a 2, a 3]
      offsetResult (a 4) rc⟩

def sysFtruncate : Handler ω := ⟨3, fun a =>
  withObject (a 0) objectFile fun f => call w .ftruncate [f] [a 1, a 2]⟩

def sysFutime : Handler ω := ⟨2, fun a =>
  withObject (a 0) objectFile fun f =>
    guarded w [.buffer (a 1) sizeofUtimbuf true] (call w .futime [f] [a 1])⟩

def sysUtime : Handler ω := ⟨2, fun a =>
  guarded w [.string (a 0), .buffer (a 1) sizeofUtimbuf true] (call w .utime [] [a 0, a 1])⟩

/-- `if (buffer && rc > 0) rc = 0`. -/
def statResult (buffer : UInt32) (rc : ℤ) : ℤ := if buffer ≠ 0 ∧ 0 < rc then 0 else rc

def sysFstat : Handler ω := ⟨2, fun a => do
  let rc ← withObject (a 0) objectFile fun f =>
    guarded w [.buffer (a 1) sizeofStat64 true] (call w .fstat [f] [a 1])
  pure (statResult (a 1) rc)⟩

def sysStat : Handler ω := ⟨2, fun a => do
  let rc ← guarded w [.string (a 0), .buffer (a 1) sizeofStat64 true] (call w .stat [] [a 0, a 1])
  pure (statResult (a 1) rc)⟩

def sysMkdir : Handler ω := ⟨2, fun a => guarded w [.string (a 0)] (call w .mkdir [] [a 0, a 1])⟩

def sysRmdir : Handler ω := ⟨1, fun a => guarded w [.string (a 0)] (call w .rmdir [] [a 0])⟩

def sysRename : Handler ω := ⟨2, fun a =>
  guarded w [.string (a 0), .string (a 1)] (call w .rename [] [a 0, a 1])⟩

def sysLink : Handler ω := ⟨2, fun a =>
  guarded w [.string (a 0), .string (a 1)] (call w .link [] [a 0, a 1])⟩

def sysUnlink : Handler ω := ⟨1, fun a => guarded w [.string (a 0)] (call w .unlink [] [a 0])⟩

def sysOpendir : Handler ω := ⟨1, fun a =>
  guarded w [.string (a 0)] do
    let rc ← call w .opendir [] [a 0]
    hallocOrClose w rc⟩

def sysReaddir : Handler ω := ⟨3, fun a =>
  withObject (a 0) objectFile fun f =>
    guarded w [.buffer (a 1) (direntSize (a 2)) true] (call w .readdir [f] [a 1, a 2])⟩

end Files

/-! Memory. -/

section Memory

def sysVmalloc : Handler ω := ⟨5, fun a => do
  let retval ← call w .vmalloc [] [a 0, a 1, a 2, a 3, a 4]
  if retval = 0 then setErrnum w
  pure retval⟩

def sysVmfree : Handler ω := ⟨3, fun a => call w .vmfree [] [a 0, a 1, a 2]⟩

def sysVmrealloc : Handler ω := ⟨6, fun a => call w .vmrealloc [] [a 0, a 1, a 2, a 3, a 4, a 5]⟩

def sysVmprotect : Handler ω := ⟨3, fun a => call w .vmprotect [] [a 0, a 1, a 2]⟩

def sysVmlock : Handler ω := ⟨2, fun a => call w .vmlock [] [a 0, a 1]⟩

def sysVmunlock : Handler ω := ⟨2, fun a => call w .vmunlock [] [a 0, a 1]⟩

/-- `vmmap` as far as objects go: the new file map and the file get a handle each. `result` is 0
when there is no address range or no memory for the map. -/
def vmmap (f : ω) (args : List UInt32) : M ω ℤ := do
  let addr ← call w .vmmap [f] args
  if addr = 0 then pure 0
  else do
    let self ← halloc w.created
    let file ← halloc f
    if self < 0 ∨ file < 0 then pure 0
    else do
      hprotect self
      hprotect file
      pure addr

def sysVmmap : Handler ω := ⟨6, fun a =>
  withObject (a 3) objectFile fun f => do
    let retval ← vmmap w f [a 0, a 1, a 2, a 4, a 5]
    if retval = 0 then setErrnum w
    pure retval⟩

def sysVmsync : Handler ω := ⟨2, fun a => call w .vmsync [] [a 0, a 1]⟩

end Memory

/-! Objects and threads. -/

section Objects

def sysWaitone : Handler ω := ⟨2, fun a =>
  withObject (a 0) objectAny fun o => call w .waitForOneObject [o] [a 1]⟩

def orelAll : List ω → M ω Unit
  | [] => pure ()
  | o :: os => do
    orel o
    orelAll os

/-- The loop that locks the objects of the handles `h[n]`, `h[n + 1]` and so on, after the objects `os`, the last
one first. At a bad handle the locked objects are released. -/
def olockAll (h : UInt32) : ℕ → ℕ → List ω → M ω (Option (List ω))
  | _, 0, os => pure (some os.reverse)
  | n, m + 1, os => do
    let hn ← load (h + 4 * UInt32.ofNat n)
    match ← olock hn objectAny with
    | some o => olockAll h (n + 1) m (o :: os)
    | none => do
      orelAll os
      pure none

/-- `sys_waitall` and `sys_waitany`. -/
def sysWait (f : KernelFn) : Handler ω := ⟨3, fun a =>
  let count := asInt (a 1)
  if count < 0 ∨ (maxWaitObjects : ℤ) < count then pure (-EINVAL)
  else if a 0 = 0 ∧ 0 < count then pure (-EFAULT)
  else guarded w [.buffer (a 0) (a 1 * 4) false] do
    match ← olockAll (a 0) 0 (a 1).toNat [] with
    | none => pure (-EBADF)
    | some os => do
      let rc ← call w (if count = 1 then .waitForOneObject else f) os [a 2]
      orelAll os
      pure rc⟩

def sysWaitall : Handler ω := sysWait w .waitForAllObjects

def sysWaitany : Handler ω := sysWait w .waitForAnyObject

/-- A new object of the type that `init` sets up gets a handle or is closed. -/
def sysMake (init : KernelFn) (words : ℕ) : Handler ω := ⟨words, fun a => do
  let p ← call w .kmalloc [] []
  if p = 0 then pure (-ENOMEM)
  else do
    let _ ← call w init [w.created] [a 0, a 1]
    hallocOrClose w 0⟩

def sysMkevent : Handler ω := sysMake w .initEvent 2

/-- An operation on the event of a handle. -/
def sysEvent (f : KernelFn) : Handler ω := ⟨1, fun a =>
  withObject (a 0) objectEvent fun e => do
    let _ ← call w f [e] []
    pure 0⟩

def sysEpulse : Handler ω := sysEvent w .pulseEvent

def sysEset : Handler ω := sysEvent w .setEvent

def sysEreset : Handler ω := sysEvent w .resetEvent

def sysGetthreadblock : Handler ω := ⟨1, fun a =>
  withObject (a 0) objectThread fun t => pure (asInt (w.threadTib t))⟩

def sysExitos : Handler ω := ⟨1, fun a => do
  let _ ← call w .stop [] [a 0]
  pure 0⟩

def sysDup : Handler ω := ⟨1, fun a => withObject (a 0) objectAny fun o => halloc o⟩

def sysDup2 : Handler ω := ⟨2, fun a =>
  withObject (a 0) objectAny fun o => hassign w o (asInt (a 1))⟩

/-- `create_user_thread` as far as objects go: `result` is negative when the thread, its block or
its stack cannot be allocated; else the thread gets its own handle, which is protected. -/
def createUserThread (args : List UInt32) : M ω ℤ := do
  let rc ← call w .createThread [] args
  if rc < 0 then pure rc
  else do
    let hndl ← halloc w.created
    hprotect hndl
    pure 0

def sysMkthread : Handler ω := ⟨4, fun a =>
  if osBase ≤ a 0 then pure (-EFAULT)
  else guarded w [.string (a 2)] do
    let rc ← createUserThread w [a 0, a 1, a 2]
    if rc < 0 then pure rc
    else do
      let h ← halloc w.created
      if h < 0 then pure h
      else do
        if a 3 ≠ 0 then store (a 3) (w.threadTib w.created)
        pure h⟩

/-- The object of the idle thread, whose id is 0, is not released. -/
def sysSuspend : Handler ω := ⟨1, fun a => do
  match ← olock (a 0) objectThread with
  | none => pure (-EBADF)
  | some t =>
    if w.threadId t = 0 then pure (-EBADF)
    else do
      let rc ← call w .suspendThread [t] []
      orel t
      pure rc⟩

def sysResume : Handler ω := ⟨1, fun a =>
  withObject (a 0) objectThread fun t => call w .resumeThread [t] []⟩

def sysEndthread : Handler ω := ⟨1, fun a => do
  let _ ← call w .terminateThread [] [a 0]
  pure 0⟩

def sysSetcontext : Handler ω := ⟨2, fun a =>
  withObject (a 0) objectThread fun t =>
    guarded w [.buffer (a 1) sizeofContext false] (call w .setContext [t] [a 1])⟩

def sysGetcontext : Handler ω := ⟨2, fun a =>
  withObject (a 0) objectThread fun t =>
    guarded w [.buffer (a 1) sizeofContext true] (call w .getContext [t] [a 1])⟩

def sysGetprio : Handler ω := ⟨1, fun a =>
  withObject (a 0) objectThread fun t => call w .getThreadPriority [t] []⟩

def sysSetprio : Handler ω := ⟨2, fun a =>
  withObject (a 0) objectThread fun t =>
    if asInt (a 1) < 1 ∨ 15 < asInt (a 1) then pure (-EINVAL)
    else if w.threadTib t = 0 then pure (-EPERM)
    else call w .setThreadPriority [t] [a 1]⟩

def sysMsleep : Handler ω := ⟨1, fun a => call w .msleep [] [a 0]⟩

def sysTime : Handler ω := ⟨1, fun a =>
  guarded w [.buffer (a 0) 4 true] do
    let t ← call w .getTime [] []
    if a 0 ≠ 0 then store (a 0) (UInt32.ofInt t)
    pure t⟩

def sysGettimeofday : Handler ω := ⟨2, fun a =>
  if a 0 = 0 then pure (-EINVAL)
  else guarded w [.buffer (a 0) sizeofTimeval true] do
    store (a 0) (UInt32.ofInt w.systemclock.1)
    store (a 0 + 4) (UInt32.ofInt w.systemclock.2)
    pure 0⟩

def sysSettimeofday : Handler ω := ⟨1, fun a =>
  if a 0 = 0 then pure (-EINVAL)
  else guarded w [.buffer (a 0) sizeofTimeval false] do
    let _ ← call w .setTime [] [a 0]
    pure 0⟩

def sysClock : Handler ω := ⟨0, fun _ => pure w.clocks⟩

def sysMksem : Handler ω := sysMake w .initSem 1

def sysSemrel : Handler ω := ⟨2, fun a =>
  withObject (a 0) objectSemaphore fun s => call w .releaseSem [s] [a 1]⟩

end Objects

/-! Sockets. -/

section Sockets

def sysAccept : Handler ω := ⟨3, fun a =>
  withObject (a 0) objectSocket fun s =>
    guarded w [.buffer (a 1) sizeofSockaddr true, .buffer (a 2) 4 true] do
      let rc ← call w .accept [s] [a 1, a 2]
      hallocOrClose w rc⟩

def sysBind : Handler ω := ⟨3, fun a =>
  withObject (a 0) objectSocket fun s =>
    guarded w [.buffer (a 1) (a 2) false] (call w .bind [s] [a 1, a 2])⟩

def sysConnect : Handler ω := ⟨3, fun a =>
  withObject (a 0) objectSocket fun s =>
    guarded w [.buffer (a 1) (a 2) false] (call w .connect [s] [a 1, a 2])⟩

def sysGetpeername : Handler ω := ⟨3, fun a =>
  withObject (a 0) objectSocket fun s =>
    guarded w [.buffer (a 1) sizeofSockaddr true, .buffer (a 2) 4 true]
      (call w .getpeername [s] [a 1, a 2])⟩

def sysGetsockname : Handler ω := ⟨3, fun a =>
  withObject (a 0) objectSocket fun s =>
    guarded w [.buffer (a 1) sizeofSockaddr true, .buffer (a 2) 4 true]
      (call w .getsockname [s] [a 1, a 2])⟩

def sysGetsockopt : Handler ω := ⟨5, fun a =>
  withObject (a 0) objectSocket fun s =>
    if a 4 = 0 then pure (-EFAULT)
    else guarded w [.buffer (a 4) 4 true] do
      let inoptlen ← load (a 4)
      guarded w [.buffer (a 3) inoptlen true] (call w .getsockopt [s] [a 1, a 2, a 3, a 4])⟩

def sysListen : Handler ω := ⟨2, fun a =>
  withObject (a 0) objectSocket fun s => call w .listen [s] [a 1]⟩

def sysRecv : Handler ω := ⟨4, fun a =>
  withObject (a 0) objectSocket fun s =>
    guarded w [.buffer (a 1) (a 2) true] (call w .recv [s] [a 1, a 2, a 3])⟩

def sysRecvfrom : Handler ω := ⟨6, fun a =>
  withObject (a 0) objectSocket fun s =>
    guarded w [.buffer (a 1) (a 2) true, .buffer (a 4) sizeofSockaddr true, .buffer (a 5) 4 true]
      (call w .recvfrom [s] [a 1, a 2, a 3, a 4, a 5])⟩

def sysSend : Handler ω := ⟨4, fun a =>
  withObject (a 0) objectSocket fun s =>
    guarded w [.buffer (a 1) (a 2) false] (call w .send [s] [a 1, a 2, a 3])⟩

def sysSendto : Handler ω := ⟨6, fun a =>
  withObject (a 0) objectSocket fun s =>
    guarded w [.buffer (a 1) (a 2) false, .buffer (a 4) sizeofSockaddr false]
      (call w .sendto [s] [a 1, a 2, a 3, a 4, a 5])⟩

def sysSetsockopt : Handler ω := ⟨5, fun a =>
  withObject (a 0) objectSocket fun s =>
    guarded w [.buffer (a 3) (a 4) false] (call w .setsockopt [s] [a 1, a 2, a 3, a 4])⟩

def sysShutdown : Handler ω := ⟨2, fun a =>
  withObject (a 0) objectSocket fun s => call w .shutdown [s] [a 1]⟩

def sysSocket : Handler ω := ⟨3, fun a => do
  let rc ← call w .socket [] [a 0, a 1, a 2]
  hallocOrClose w rc⟩

def sysReadv : Handler ω := ⟨3, fun a =>
  withObject (a 0) objectAny fun o =>
    guarded w [.iovec (a 1) (a 2) true] (fileOrSocket w o .readv .recvv [a 1, a 2] [a 1, a 2])⟩

def sysWritev : Handler ω := ⟨3, fun a =>
  withObject (a 0) objectAny fun o =>
    guarded w [.iovec (a 1) (a 2) false] (fileOrSocket w o .writev .sendv [a 1, a 2] [a 1, a 2])⟩

def sysChdir : Handler ω := ⟨1, fun a => guarded w [.string (a 0)] (call w .chdir [] [a 0])⟩

end Sockets

/-! Multiplexing (`iomux.c`). -/

section Iomux

def infinite : UInt32 := 0xFFFFFFFF

/-- The events that `select` and `poll` look for. -/
def readMask : UInt32 := 0x29
def writeMask : UInt32 := 0x12
def errorMask : UInt32 := 0x04
def pollnval : UInt32 := 0x20

def isIoobject (o : ω) : M ω Bool := do
  let type ← typeOf o
  pure (type = objectSocket || type = objectFile)

/-- The loop of `check_fds` from entry `n` on, with `m` entries left. -/
def checkFdsLoop (late : Bool) (fds mask : UInt32) : ℕ → ℕ → ℤ → M ω ℤ
  | _, 0, found => pure found
  | n, m + 1, found => do
    let fd ← peek (fds + 4 * UInt32.ofNat (n + 1))
    match ← olock fd objectAny with
    | none => pure (-EBADF)
    | some iob => do
      let io ← isIoobject iob
      if io then do
        let hit := decide (w.events late iob &&& mask ≠ 0)
        if hit then poke (fds + 4 * UInt32.ofInt (found + 1)) fd
        orel iob
        checkFdsLoop late fds mask (n + 1) m (if hit then found + 1 else found)
      else do
        orel iob
        pure (-EBADF)

def checkFds (late : Bool) (fds mask : UInt32) : M ω ℤ :=
  if fds = 0 then pure 0
  else do
    let count ← peek fds
    checkFdsLoop w late fds mask 0 count.toNat 0

/-- The loop of `add_fds_to_iomux`. An object that cannot be queued is not released. -/
def addFdsLoop (fds mask : UInt32) : ℕ → ℕ → M ω ℤ
  | _, 0 => pure 0
  | n, m + 1 => do
    let fd ← peek (fds + 4 * UInt32.ofNat (n + 1))
    match ← olock fd objectAny with
    | none => pure (-EBADF)
    | some iob => do
      let io ← isIoobject iob
      if io then do
        let rc ← call w .queueIoobject [iob] [mask, UInt32.ofNat n]
        if rc < 0 then pure rc
        else do
          orel iob
          addFdsLoop fds mask (n + 1) m
      else do
        orel iob
        pure (-EBADF)

def addFdsToIomux (fds mask : UInt32) : M ω ℤ :=
  if fds = 0 then pure 0
  else do
    let count ← peek fds
    addFdsLoop w fds mask 0 count.toNat

def setCount (fds : UInt32) (n : ℤ) : M ω Unit :=
  if fds = 0 then pure () else poke fds (UInt32.ofInt n)

def checkSelect (late : Bool) (readfds writefds exceptfds : UInt32) : M ω ℤ := do
  let numread ← checkFds w late readfds readMask
  if numread < 0 then pure numread
  else do
    let numwrite ← checkFds w late writefds writeMask
    if numwrite < 0 then pure numwrite
    else do
      let numexcept ← checkFds w late exceptfds errorMask
      if numexcept < 0 then pure numexcept
      else if numread ≠ 0 ∨ numwrite ≠ 0 ∨ numexcept ≠ 0 then do
        setCount readfds numread
        setCount writefds numwrite
        setCount exceptfds numexcept
        pure (numread + numwrite + numexcept)
      else pure 0

/-- `close_iomux` before an error is returned. -/
def leaveIomux (rc : ℤ) : M ω ℤ := do
  let _ ← call w .closeIomux [] []
  pure rc

/-- The three sets are queued one after the other. -/
def addSets : List (UInt32 × UInt32) → M ω ℤ
  | [] => pure 0
  | (fds, mask) :: sets => do
    let rc ← addFdsToIomux w fds mask
    if rc < 0 then pure rc else addSets sets

/-- The timeout of `select` in milliseconds. -/
def selectTimeout (timeout : UInt32) : M ω UInt32 :=
  if timeout = 0 then pure infinite
  else do
    let sec ← peek timeout
    let usec ← peek (timeout + 4)
    pure (sec * 1000 + UInt32.ofInt ((asInt usec).tdiv 1000))

def select (readfds writefds exceptfds timeout : UInt32) : M ω ℤ := do
  let rc ← checkSelect w false readfds writefds exceptfds
  if rc ≠ 0 then pure rc
  else do
    let tmo ← selectTimeout timeout
    if tmo = 0 then pure 0
    else if timeout ≠ 0 ∧ readfds = 0 ∧ writefds = 0 ∧ exceptfds = 0 then do
      let rc ← call w .msleep [] [tmo]
      pure (if 0 < rc then -EINTR else 0)
    else do
      let rc ← addSets w [(readfds, readMask), (writefds, writeMask), (exceptfds, errorMask)]
      if rc < 0 then leaveIomux w rc
      else do
        let rc ← call w .waitForObject [] [tmo]
        if rc < 0 then leaveIomux w (if rc = -ETIMEOUT then 0 else rc)
        else do
          let rc ← checkSelect w true readfds writefds exceptfds
          if rc = 0 then do
            setCount readfds 0
            setCount writefds 0
            setCount exceptfds 0
          leaveIomux w rc

/-- The events to look for when `poll` asks for `events`. -/
def pollMask (events : UInt32) : UInt32 :=
  0x24 ||| (if events &&& 1 ≠ 0 then 0x09 else 0) ||| (if events &&& 4 ≠ 0 then 0x12 else 0)

/-- The events that `poll` reports for an I/O object. -/
def pollRevents (events signaled : UInt32) : UInt32 :=
  let mask := pollMask events &&& signaled
  (if mask &&& 0x09 ≠ 0 then 1 else 0) ||| (if mask &&& 0x12 ≠ 0 then 4 else 0) |||
    (if mask &&& 0x04 ≠ 0 then 8 else 0) ||| (if mask &&& 0x20 ≠ 0 then 0x10 else 0)

/-- What `check_poll` reports for a handle. An object that is no I/O object is released here. -/
def pollEntry (late : Bool) (events : UInt32) : Option ω → M ω UInt32
  | none => pure pollnval
  | some iob => do
    let io ← isIoobject iob
    if io then pure (pollRevents events (w.events late iob))
    else do
      orel iob
      pure pollnval

/-- The loop of `check_poll`. Whatever `olock` has answered is released once more. -/
def checkPollLoop (late : Bool) (fds : UInt32) : ℕ → ℕ → ℤ → M ω ℤ
  | _, 0, ready => pure ready
  | n, m + 1, ready => do
    let fd ← peek (fds + 8 * UInt32.ofNat n)
    let events ← peek (fds + 8 * UInt32.ofNat n + 4)
    if asInt fd < 0 then do
      poke (fds + 8 * UInt32.ofNat n + 4) (events &&& 0xFFFF)
      checkPollLoop late fds (n + 1) m ready
    else do
      let found ← olock fd objectAny
      let revents ← pollEntry w late events found
      orelFound found
      poke (fds + 8 * UInt32.ofNat n + 4) (events &&& (0xFFFF : UInt32) ||| revents <<< 16)
      checkPollLoop late fds (n + 1) m (if revents ≠ 0 then ready + 1 else ready)

/-- `add_fd_to_iomux`. An object that cannot be queued is not released. -/
def addFdToIomux (n : ℕ) (fd events : UInt32) : M ω ℤ :=
  if asInt fd < 0 then pure 0
  else do
    match ← olock fd objectAny with
    | none => pure (-EBADF)
    | some iob => do
      let io ← isIoobject iob
      if io then do
        let rc ← call w .queueIoobject [iob] [pollMask events, UInt32.ofNat n]
        if rc < 0 then pure rc
        else do
          orel iob
          pure 0
      else do
        orel iob
        pure (-EBADF)

def addPollLoop (fds : UInt32) : ℕ → ℕ → M ω ℤ
  | _, 0 => pure 0
  | n, m + 1 => do
    let fd ← peek (fds + 8 * UInt32.ofNat n)
    let events ← peek (fds + 8 * UInt32.ofNat n + 4)
    let rc ← addFdToIomux w n fd events
    if rc < 0 then pure rc else addPollLoop fds (n + 1) m

def poll (fds nfds timeout : UInt32) : M ω ℤ :=
  if nfds = 0 then do
    let rc ← call w .msleep [] [timeout]
    pure (if 0 < rc then -EINTR else 0)
  else if fds = 0 then pure (-EINVAL)
  else do
    let rc ← checkPollLoop w false fds 0 nfds.toNat 0
    if 0 < rc then pure rc
    else if timeout = 0 then pure 0
    else do
      let rc ← addPollLoop w fds 0 nfds.toNat
      if rc < 0 then leaveIomux w rc
      else do
        let rc ← call w .waitForObject [] [timeout]
        if rc < 0 then leaveIomux w (if rc = -ETIMEOUT then 0 else rc)
        else do
          let rc ← checkPollLoop w true fds 0 nfds.toNat 0
          leaveIomux w rc

def sysMkiomux : Handler ω := sysMake w .initIomux 1

def sysDispatch : Handler ω := ⟨4, fun a =>
  withObject (a 0) objectIomux fun iomux =>
    withObject (a 1) objectAny fun o => call w .queueIoobject [iomux, o] [a 2, a 3]⟩

/-- `sys_recvmsg` and `sys_sendmsg`. The fields of the message are read behind a check that a null
pointer passes. -/
def sysMsg (f : KernelFn) (modify : Bool) : Handler ω := ⟨3, fun a =>
  withObject (a 0) objectSocket fun s =>
    guarded w [.buffer (a 1) sizeofMsghdr modify] do
      let iov ← load (a 1 + 8)
      let iovlen ← load (a 1 + 12)
      guarded w [.iovec iov iovlen modify] do
        let name ← load (a 1)
        let namelen ← load (a 1 + 4)
        guarded w [.buffer name namelen modify] do
          let rc ← call w f [s] [a 1, a 2]
          let _ ← load (a 1 + 8)
          let _ ← load (a 1 + 12)
          pure rc⟩

def sysRecvmsg : Handler ω := sysMsg w .recvmsg true

def sysSendmsg : Handler ω := sysMsg w .sendmsg false

def sysSelect : Handler ω := ⟨5, fun a =>
  guarded w [.fdset (a 1) true, .fdset (a 2) true, .fdset (a 3) true,
      .buffer (a 4) sizeofTimeval true] (select w (a 1) (a 2) (a 3) (a 4))⟩

/-- A handle that could not be allocated is not freed; the files are closed in any case. -/
def sysPipe : Handler ω := ⟨1, fun a =>
  guarded w [.buffer (a 0) 8 true] do
    let rc ← call w .pipe [] []
    if rc = 0 then do
      let h0 ← halloc w.created
      store (a 0) (UInt32.ofInt h0)
      let h1 ← halloc w.peer
      store (a 0 + 4) (UInt32.ofInt h1)
      let f0 ← load (a 0)
      let f1 ← load (a 0 + 4)
      if asInt f0 < 0 ∨ asInt f1 < 0 then do
        if 0 ≤ asInt f0 then do
          let _ ← hfree w (asInt f0)
        if 0 ≤ asInt f1 then do
          let _ ← hfree w (asInt f1)
        closeDirect w.created
        closeDirect w.peer
        pure (-ENFILE)
      else pure 0
    else pure rc⟩

end Iomux

/-! The rest. -/

section Rest

def sysSetmode : Handler ω := ⟨2, fun a =>
  withObject (a 0) objectFile fun f => call w .setmode [f] [a 1]⟩

def sysChmod : Handler ω := ⟨2, fun a => guarded w [.string (a 0)] (call w .chmod [] [a 0, a 1])⟩

def sysFchmod : Handler ω := ⟨2, fun a =>
  withObject (a 0) objectFile fun f => call w .fchmod [f] [a 1]⟩

/-- `sysinfo` hands the buffer on when it is large enough. -/
def sysinfo (f : KernelFn) (data size needed : UInt32) : M ω ℤ :=
  if data = 0 ∨ size < needed then pure (-EFAULT) else call w f [] [data]

def sysSysinfo : Handler ω := ⟨3, fun a =>
  guarded w [.buffer (a 1) (a 2) true]
    (if a 0 = 0 then sysinfo w .cpuSysinfo (a 1) (a 2) sizeofCpuinfo
    else if a 0 = 1 then sysinfo w .memSysinfo (a 1) (a 2) sizeofMeminfo
    else if a 0 = 2 then sysinfo w .loadSysinfo (a 1) (a 2) sizeofLoadinfo
    else pure (-EINVAL))⟩

def sysMkmutex : Handler ω := sysMake w .initMutex 1

def sysMutexrel : Handler ω := ⟨1, fun a =>
  withObject (a 0) objectMutex fun m => call w .releaseMutex [m] []⟩

def sysPread : Handler ω := ⟨5, fun a =>
  withObject (a 0) objectFile fun f =>
    guarded w [.buffer (a 1) (a 2) true] (call w .pread [f] [a 1, a 2, a 3, a 4])⟩

def sysPwrite : Handler ω := ⟨5, fun a =>
  withObject (a 0) objectFile fun f =>
    guarded w [.buffer (a 1) (a 2) false] (call w .pwrite [f] [a 1, a 2, a 3, a 4])⟩

def sysGetuid : Handler ω := ⟨0, fun _ => call w .getuid [] []⟩

/-- The calls that set an id use the lower half of their word. -/
def sysSetid (f : KernelFn) : Handler ω := ⟨1, fun a => call w f [] [a 0 &&& 0xFFFF]⟩

def sysSetuid : Handler ω := sysSetid w .setuid

def sysGetgid : Handler ω := ⟨0, fun _ => call w .getgid [] []⟩

def sysSetgid : Handler ω := sysSetid w .setgid

def sysGeteuid : Handler ω := ⟨0, fun _ => call w .geteuid [] []⟩

def sysSeteuid : Handler ω := sysSetid w .seteuid

def sysGetegid : Handler ω := ⟨0, fun _ => call w .getegid [] []⟩

def sysSetegid : Handler ω := sysSetid w .setegid

def sysGetgroups : Handler ω := ⟨2, fun a =>
  guarded w [.buffer (a 1) (a 0 * sizeofGid) true] (call w .getgroups [] [a 0, a 1])⟩

def sysSetgroups : Handler ω := ⟨2, fun a =>
  guarded w [.buffer (a 1) (a 0 * sizeofGid) false] (call w .setgroups [] [a 0, a 1])⟩

def sysChown : Handler ω := ⟨3, fun a =>
  guarded w [.string (a 0)] (call w .chown [] [a 0, a 1, a 2])⟩

def sysFchown : Handler ω := ⟨3, fun a =>
  withObject (a 0) objectFile fun f => call w .fchown [f] [a 1, a 2]⟩

def sysAccess : Handler ω := ⟨2, fun a => guarded w [.string (a 0)] (call w .access [] [a 0, a 1])⟩

def sysPoll : Handler ω := ⟨3, fun a =>
  guarded w [.buffer (a 0) (a 1 * sizeofPollfd) true] (poll w (a 0) (a 1) (a 2))⟩

def sysGetcwd : Handler ω := ⟨2, fun a =>
  guarded w [.buffer (a 0) (a 1) true] (call w .getcwd [] [a 0, a 1])⟩

def sysSendsig : Handler ω := ⟨2, fun a =>
  withObject (a 0) objectThread fun t => call w .sendUserSignal [t] [a 1]⟩

def sysSigprocmask : Handler ω := ⟨3, fun a =>
  guarded w [.buffer (a 1) sizeofSigset false, .buffer (a 2) sizeofSigset true]
    (call w .setSignalMask [] [a 0, a 1, a 2])⟩

def sysSigpending : Handler ω := ⟨1, fun a =>
  guarded w [.buffer (a 0) sizeofSigset true] (call w .getPendingSignals [] [a 0])⟩

def sysAlarm : Handler ω := ⟨1, fun a => call w .scheduleAlarm [] [a 0]⟩

end Rest

end SimpleKernel.Syscall
