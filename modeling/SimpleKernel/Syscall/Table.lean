import SimpleKernel.Syscall.Handlers

/-! The table of system calls and `syscall`. -/
namespace SimpleKernel.Syscall
open Mem Handle

/-- An entry of `syscalltab`. -/
inductive Entry where
  | null | mkfs | mount | umount | open | close | fsync | read | write | tell | lseek | ftruncate
  | fstat | stat | mkdir | rmdir | rename | link | unlink | opendir | readdir | vmalloc | vmfree
  | vmrealloc | vmprotect | vmlock | vmunlock | waitone | mkevent | epulse | eset | ereset
  | getthreadblock | exitos | dup | mkthread | suspend | resume | endthread | setcontext
  | getcontext | getprio | setprio | msleep | time | gettimeofday | clock | mksem | semrel
  | ioctl | getfsstat | fstatfs | statfs | futime | utime | settimeofday | accept | bind
  | connect | getpeername | getsockname | getsockopt | listen | recv | recvfrom | send | sendto
  | setsockopt | shutdown | socket | waitall | waitany | readv | writev | chdir | mkiomux
  | dispatch | recvmsg | sendmsg | select | pipe | dup2 | setmode | chmod | fchmod | sysinfo
  | mkmutex | mutexrel | pread | pwrite | getuid | setuid | getgid | setgid | geteuid | seteuid
  | getegid | setegid | getgroups | setgroups | chown | fchown | access | poll | getcwd | sendsig
  | sigprocmask | sigpending | alarm | vmmap | vmsync | threadtimes
  deriving DecidableEq

/-- The order of `syscalltab`. -/
def syscalls : List Entry :=
  [.null, .mkfs, .mount, .umount, .open, .close, .fsync, .read, .write, .tell, .lseek,
    .ftruncate, .fstat, .stat, .mkdir, .rmdir, .rename, .link, .unlink, .opendir, .readdir,
    .vmalloc, .vmfree, .vmrealloc, .vmprotect, .vmlock, .vmunlock, .waitone, .mkevent, .epulse,
    .eset, .ereset, .getthreadblock, .exitos, .dup, .mkthread, .suspend, .resume, .endthread,
    .setcontext, .getcontext, .getprio, .setprio, .msleep, .time, .gettimeofday, .clock, .mksem,
    .semrel, .ioctl, .getfsstat, .fstatfs, .statfs, .futime, .utime, .settimeofday, .accept,
    .bind, .connect, .getpeername, .getsockname, .getsockopt, .listen, .recv, .recvfrom, .send,
    .sendto, .setsockopt, .shutdown, .socket, .waitall, .waitany, .readv, .writev, .chdir,
    .mkiomux, .dispatch, .recvmsg, .sendmsg, .select, .pipe, .dup2, .setmode, .chmod, .fchmod,
    .sysinfo, .mkmutex, .mutexrel, .pread, .pwrite, .getuid, .setuid, .getgid, .setgid, .geteuid,
    .seteuid, .getegid, .setegid, .getgroups, .setgroups, .chown, .fchown, .access, .poll,
    .getcwd, .sendsig, .sigprocmask, .sigpending, .alarm, .vmmap, .vmsync, .threadtimes]

def syscallMax : ℤ := 111

def Entry.paramsize : Entry → UInt32
  | .null | .time | .clock | .getuid | .getgid | .geteuid | .getegid => 0
  | .umount | .close | .fsync | .rmdir | .unlink | .opendir | .epulse | .eset | .ereset
  | .getthreadblock | .exitos | .dup | .suspend | .resume | .endthread | .getprio | .msleep
  | .mksem | .settimeofday | .chdir | .mkiomux | .pipe | .mkmutex | .mutexrel | .setuid
  | .setgid | .seteuid | .setegid | .sigpending | .alarm => 4
  | .tell | .fstat | .stat | .mkdir | .rename | .link | .vmlock | .vmunlock | .waitone
  | .mkevent | .setcontext | .getcontext | .setprio | .gettimeofday | .semrel | .getfsstat
  | .fstatfs | .statfs | .futime | .utime | .listen | .shutdown | .dup2 | .setmode | .chmod
  | .fchmod | .getgroups | .setgroups | .access | .getcwd | .sendsig | .vmsync
  | .threadtimes => 8
  | .lseek => 10
  | .mkfs | .open | .read | .write | .ftruncate | .readdir | .vmfree | .vmprotect
  | .mkthread | .accept | .bind | .connect | .getpeername | .getsockname | .socket
  | .waitall | .waitany | .readv | .writev | .recvmsg | .sendmsg | .sysinfo | .chown
  | .fchown | .poll | .sigprocmask => 12
  | .mount | .vmalloc | .ioctl | .recv | .send | .dispatch => 16
  | .vmrealloc | .getsockopt | .setsockopt | .select | .pread | .pwrite => 20
  | .recvfrom | .sendto | .vmmap => 24

variable {ω : Type} [DecidableEq ω] (w : World ω)

def Entry.handler : Entry → Handler ω
  | .null => sysNull
  | .mkfs => sysMkfs w
  | .mount => sysMount w
  | .umount => sysUmount w
  | .open => sysOpen w
  | .close => sysClose w
  | .fsync => sysFsync w
  | .read => sysRead w
  | .write => sysWrite w
  | .tell => sysTell w
  | .lseek => sysLseek w
  | .ftruncate => sysFtruncate w
  | .fstat => sysFstat w
  | .stat => sysStat w
  | .mkdir => sysMkdir w
  | .rmdir => sysRmdir w
  | .rename => sysRename w
  | .link => sysLink w
  | .unlink => sysUnlink w
  | .opendir => sysOpendir w
  | .readdir => sysReaddir w
  | .vmalloc => sysVmalloc w
  | .vmfree => sysVmfree w
  | .vmrealloc => sysVmrealloc w
  | .vmprotect => sysVmprotect w
  | .vmlock => sysVmlock w
  | .vmunlock => sysVmunlock w
  | .waitone => sysWaitone w
  | .mkevent => sysMkevent w
  | .epulse => sysEpulse w
  | .eset => sysEset w
  | .ereset => sysEreset w
  | .getthreadblock => sysGetthreadblock w
  | .exitos => sysExitos w
  | .dup => sysDup
  | .mkthread => sysMkthread w
  | .suspend => sysSuspend w
  | .resume => sysResume w
  | .endthread => sysEndthread w
  | .setcontext => sysSetcontext w
  | .getcontext => sysGetcontext w
  | .getprio => sysGetprio w
  | .setprio => sysSetprio w
  | .msleep => sysMsleep w
  | .time => sysTime w
  | .gettimeofday => sysGettimeofday w
  | .clock => sysClock w
  | .mksem => sysMksem w
  | .semrel => sysSemrel w
  | .ioctl => sysIoctl w
  | .getfsstat => sysGetfsstat w
  | .fstatfs => sysFstatfs w
  | .statfs => sysStatfs w
  | .futime => sysFutime w
  | .utime => sysUtime w
  | .settimeofday => sysSettimeofday w
  | .accept => sysAccept w
  | .bind => sysBind w
  | .connect => sysConnect w
  | .getpeername => sysGetpeername w
  | .getsockname => sysGetsockname w
  | .getsockopt => sysGetsockopt w
  | .listen => sysListen w
  | .recv => sysRecv w
  | .recvfrom => sysRecvfrom w
  | .send => sysSend w
  | .sendto => sysSendto w
  | .setsockopt => sysSetsockopt w
  | .shutdown => sysShutdown w
  | .socket => sysSocket w
  | .waitall => sysWaitall w
  | .waitany => sysWaitany w
  | .readv => sysReadv w
  | .writev => sysWritev w
  | .chdir => sysChdir w
  | .mkiomux => sysMkiomux w
  | .dispatch => sysDispatch w
  | .recvmsg => sysRecvmsg w
  | .sendmsg => sysSendmsg w
  | .select => sysSelect w
  | .pipe => sysPipe w
  | .dup2 => sysDup2 w
  | .setmode => sysSetmode w
  | .chmod => sysChmod w
  | .fchmod => sysFchmod w
  | .sysinfo => sysSysinfo w
  | .mkmutex => sysMkmutex w
  | .mutexrel => sysMutexrel w
  | .pread => sysPread w
  | .pwrite => sysPwrite w
  | .getuid => sysGetuid w
  | .setuid => sysSetuid w
  | .getgid => sysGetgid w
  | .setgid => sysSetgid w
  | .geteuid => sysGeteuid w
  | .seteuid => sysSeteuid w
  | .getegid => sysGetegid w
  | .setegid => sysSetegid w
  | .getgroups => sysGetgroups w
  | .setgroups => sysSetgroups w
  | .chown => sysChown w
  | .fchown => sysFchown w
  | .access => sysAccess w
  | .poll => sysPoll w
  | .getcwd => sysGetcwd w
  | .sendsig => sysSendsig w
  | .sigprocmask => sysSigprocmask w
  | .sigpending => sysSigpending w
  | .alarm => sysAlarm w
  | .vmmap => sysVmmap w
  | .vmsync => sysVmsync w
  | .threadtimes => sysThreadtimes w

/-- The handler is called when the parameter block is accepted. -/
def dispatchCall (c : Entry) (params : UInt32) : M ω ℤ := do
  let rc ← lockBuffer w params c.paramsize false
  if 0 ≤ rc then do
    let a ← args params (c.handler w).words
    (c.handler w).body a
  else pure rc

/-- `syscall` up to the delivery of signals. -/
def syscall (syscallno : ℤ) (params : UInt32) : M ω ℤ :=
  if syscallno < 0 ∨ syscallMax < syscallno then pure (-ENOSYS)
  else
    match syscalls[syscallno.toNat]? with
    | none => pure (-ENOSYS)
    | some c => do
      let rc ← dispatchCall w c params
      if rc < 0 then do
        setErrnum w
        pure (-1)
      else pure rc

end SimpleKernel.Syscall
