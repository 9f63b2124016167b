import SimpleKernel.Syscall.Accesses
import SimpleKernel.Syscall.Balance

/-! Every system call leaves the lock counts alone, apart from `suspend` of the idle thread and from `select` and
`poll` with what they do not release. -/
namespace SimpleKernel.Syscall
open Mem Handle Traced

variable {ω : Type} [DecidableEq ω] {w : World ω} {k : Kernel ω} {c : Entry} {params : UInt32}

/-- The calls that lock objects without `withObject` or `olockAll`. -/
def Entry.special : Entry → Bool
  | .suspend | .select | .poll => true
  | _ => false

omit [DecidableEq ω] in
theorem level_setErrnum : Level (setErrnum w) := fun _ => rfl

theorem level_vmmap (hw : w.Tame) (f : ω) (l : List UInt32) : Level (vmmap w f l) := by
  refine (level_call hw _ _ _).bind fun addr => ?_
  split
  · exact keeps_pure
  refine (level_halloc _).bind fun self => (level_halloc _).bind fun file => ?_
  split
  · exact keeps_pure
  · exact (level_hprotect _).bind fun _ => (level_hprotect _).bind fun _ => keeps_pure

theorem level_createUserThread (hw : w.Tame) (l : List UInt32) :
    Level (createUserThread w l) := by
  refine (level_call hw _ _ _).bind fun rc => ?_
  split
  · exact keeps_pure
  · exact (level_halloc _).bind fun h => (level_hprotect _).bind fun _ => keeps_pure

theorem level_sysPipe (hw : w.Tame) (a : ℕ → UInt32) : Level ((sysPipe w).body a) := by
  have hclose : Level (do closeDirect w.created; closeDirect w.peer; pure (-ENFILE) : M ω ℤ) :=
    fun _ => rfl
  refine level_guarded _ ((level_call hw _ _ _).bind fun rc => ?_)
  split
  · refine (level_halloc _).bind fun h0 => Keeps.bind (fun _ => rfl) fun _ => ?_
    refine (level_halloc _).bind fun h1 => Keeps.bind (fun _ => rfl) fun _ => ?_
    refine Keeps.bind (fun _ => rfl) fun f0 => Keeps.bind (fun _ => rfl) fun f1 => ?_
    dsimp only
    split
    · split
      · refine (level_hfree _).bind fun _ => ?_
        split
        · exact (level_hfree _).bind fun _ => hclose
        · exact hclose
      · split
        · exact (level_hfree _).bind fun _ => hclose
        · exact hclose
    · exact keeps_pure
  · exact keeps_pure

/-- The calls that create objects. -/
def Entry.creator : Entry → Bool
  | .open | .opendir | .socket | .accept | .mkevent | .mksem | .mkmutex | .mkiomux | .mkthread
  | .pipe | .vmmap => true
  | _ => false

/-- A part of the state that no step of the other calls changes. -/
structure Framed {γ : Type} (w : World ω) (v : Kernel ω → γ) : Prop where
  call : ∀ f objs l, f.creates = false → Keeps v (call w f objs l)
  lockAll : ∀ ls, Keeps v (lockAll w ls)
  load : ∀ addr, Keeps v (load addr)
  store : ∀ addr x, Keeps v (store addr x)
  typeOf : ∀ o, Keeps v (typeOf o)
  errnum : Keeps v (setErrnum w)
  object : ∀ h type body, (∀ o, Keeps v (body o)) → Keeps v (withObject h type body)
  wait : ∀ f a, f.creates = false → Keeps v ((sysWait w f).body a)
  halloc : ∀ o, Keeps v (halloc o)
  hassign : ∀ o h, Keeps v (hassign w o h)
  hfree : ∀ h, Keeps v (hfree w h)

section Framed
variable {γ : Type} {v : Kernel ω → γ}

theorem Framed.guarded (hv : Framed w v) (ls : List Lock) {body : M ω ℤ} (h : Keeps v body) :
    Keeps v (guarded w ls body) := by
  refine (hv.lockAll ls).bind fun ok => ?_
  split
  · exact h
  · exact keeps_pure

theorem Framed.fileOrSocket (hv : Framed w v) (o : ω) {f g : KernelFn} (hf : f.creates = false)
    (hg : g.creates = false) (l l' : List UInt32) : Keeps v (fileOrSocket w o f g l l') := by
  refine (hv.typeOf o).bind fun type => ?_
  split
  · exact hv.call _ _ _ hf
  split
  · exact hv.call _ _ _ hg
  · exact keeps_pure

theorem Framed.offsetResult (hv : Framed w v) (retval : UInt32) (rc : ℤ) :
    Keeps v (offsetResult (ω := ω) retval rc) := by
  unfold Syscall.offsetResult
  dsimp only
  split
  · refine (hv.store _ _).bind fun _ => (hv.store _ _).bind fun _ => ?_
    split <;> exact keeps_pure
  · split <;> exact keeps_pure

theorem Framed.sysMsg (hv : Framed w v) {f : KernelFn} (hf : f.creates = false) (modify : Bool)
    (a : ℕ → UInt32) : Keeps v ((sysMsg w f modify).body a) := by
  refine hv.object _ _ _ fun s => hv.guarded _ ?_
  refine (hv.load _).bind fun iov => (hv.load _).bind fun iovlen => hv.guarded _ ?_
  refine (hv.load _).bind fun name => (hv.load _).bind fun namelen => hv.guarded _ ?_
  refine (hv.call _ _ _ hf).bind fun rc => ?_
  exact (hv.load _).bind fun _ => (hv.load _).bind fun _ => keeps_pure

theorem Framed.body (hv : Framed w v) (hs : c.special = false) (hc : c.creator = false)
    (a : ℕ → UInt32) : Keeps v ((c.handler w).body a) := by
  cases c with
  | suspend | select | poll => exact absurd hs (by decide)
  | «open» | opendir | socket | accept | mkevent | mksem | mkmutex | mkiomux | mkthread | pipe
  | vmmap => exact absurd hc (by decide)
  | null | clock => exact keeps_pure
  | vmfree | vmrealloc | vmprotect | vmlock | vmunlock | vmsync | msleep | getuid | setuid | getgid
  | setgid | geteuid | seteuid | getegid | setegid | alarm => exact hv.call _ _ _ rfl
  | exitos | endthread => exact (hv.call _ _ _ rfl).bind fun _ => keeps_pure
  | mkfs | mount | umount | getfsstat | statfs | utime | mkdir | rmdir | rename | link | unlink
  | chdir | chmod | getgroups | setgroups | chown | access | getcwd | sigprocmask | sigpending =>
    exact hv.guarded _ (hv.call _ _ _ rfl)
  | fsync | ftruncate | waitone | resume | getprio | semrel | listen | shutdown | setmode | fchmod
  | mutexrel | fchown | sendsig => exact hv.object _ _ _ fun o => hv.call _ _ _ rfl
  | fstatfs | threadtimes | futime | readdir | setcontext | getcontext | bind | connect
  | getpeername | getsockname | recv | recvfrom | send | sendto | setsockopt | pread | pwrite =>
    exact hv.object _ _ _ fun o => hv.guarded _ (hv.call _ _ _ rfl)
  | read | write | ioctl | readv | writev =>
    exact hv.object _ _ _ fun o => hv.guarded _ (hv.fileOrSocket _ rfl rfl _ _)
  | epulse | eset | ereset =>
    exact hv.object _ _ _ fun o => (hv.call _ _ _ rfl).bind fun _ => keeps_pure
  | waitall | waitany => exact hv.wait _ _ rfl
  | close => exact hv.hfree _
  | dup => exact hv.object _ _ _ fun o => hv.halloc o
  | dup2 => exact hv.object _ _ _ fun o => hv.hassign o _
  | tell | lseek =>
    exact hv.object _ _ _ fun f => hv.guarded _ ((hv.call _ _ _ rfl).bind fun rc =>
      hv.offsetResult _ rc)
  | fstat =>
    exact (hv.object _ _ _ fun f => hv.guarded _ (hv.call _ _ _ rfl)).bind
      fun rc => keeps_pure
  | stat => exact (hv.guarded _ (hv.call _ _ _ rfl)).bind fun rc => keeps_pure
  | getthreadblock => exact hv.object _ _ _ fun t => keeps_pure
  | setprio =>
    refine hv.object _ _ _ fun t => ?_
    split
    · exact keeps_pure
    split
    · exact keeps_pure
    · exact hv.call _ _ _ rfl
  | time =>
    refine hv.guarded _ ((hv.call _ _ _ rfl).bind fun t => ?_)
    split
    · exact (hv.store _ _).bind fun _ => keeps_pure
    · exact keeps_pure
  | gettimeofday =>
    unfold Entry.handler sysGettimeofday
    dsimp only
    split
    · exact keeps_pure
    · exact hv.guarded _ ((hv.store _ _).bind fun _ => (hv.store _ _).bind fun _ => keeps_pure)
  | settimeofday =>
    unfold Entry.handler sysSettimeofday
    dsimp only
    split
    · exact keeps_pure
    · exact hv.guarded _ ((hv.call _ _ _ rfl).bind fun _ => keeps_pure)
  | getsockopt =>
    refine hv.object _ _ _ fun s => ?_
    split
    · exact keeps_pure
    · exact hv.guarded _ ((hv.load _).bind fun inoptlen =>
        hv.guarded _ (hv.call _ _ _ rfl))
  | dispatch =>
    exact hv.object _ _ _ fun iomux => hv.object _ _ _ fun o => hv.call _ _ _ rfl
  | recvmsg | sendmsg => exact hv.sysMsg rfl _ a
  | vmalloc =>
    refine (hv.call _ _ _ rfl).bind fun retval => ?_
    split
    · exact hv.errnum.bind fun _ => keeps_pure
    · exact keeps_pure
  | sysinfo =>
    have hinfo (f : KernelFn) (needed : UInt32) (hf : f.creates = false) :
        Keeps v (sysinfo w f (a 1) (a 2) needed) := by
      unfold sysinfo
      split
      · exact keeps_pure
      · exact hv.call _ _ _ hf
    refine hv.guarded _ ?_
    split
    · exact hinfo _ _ rfl
    split
    · exact hinfo _ _ rfl
    split
    · exact hinfo _ _ rfl
    · exact keeps_pure

end Framed

theorem framed_locks (hw : w.Tame) : Framed w locks where
  call f objs l _ := level_call hw f objs l
  lockAll := level_lockAll
  load _ _ := rfl
  store _ _ _ := rfl
  typeOf _ _ := rfl
  errnum _ := rfl
  object h type _ := level_withObject h type
  wait f a _ := level_sysWait hw f a
  halloc := level_halloc
  hassign := level_hassign
  hfree := level_hfree

theorem level_creator (hw : w.Tame) (hc : c.creator = true) (a : ℕ → UInt32) :
    Level ((c.handler w).body a) := by
  have hopen (f : KernelFn) (objs : List ω) (l : List UInt32) :
      Level (do let rc ← call w f objs l; hallocOrClose w rc) :=
    (level_call hw _ _ _).bind fun rc => level_hallocOrClose rc
  cases c with
  | mkevent | mksem | mkmutex | mkiomux => exact level_sysMake hw _ _ a
  | «open» | opendir => exact level_guarded _ (hopen _ _ _)
  | socket => exact hopen _ _ _
  | accept => exact level_withObject _ _ fun s => level_guarded _ (hopen _ _ _)
  | pipe => exact level_sysPipe hw a
  | vmmap =>
    refine level_withObject _ _ fun f => (level_vmmap hw _ _).bind fun retval => ?_
    split
    · exact level_setErrnum.bind fun _ => keeps_pure
    · exact keeps_pure
  | mkthread =>
    unfold Entry.handler sysMkthread
    dsimp only
    split
    · exact keeps_pure
    refine level_guarded _ ((level_createUserThread hw _).bind fun rc => ?_)
    split
    · exact keeps_pure
    refine (level_halloc _).bind fun h => ?_
    split
    · exact keeps_pure
    split
    · exact Keeps.bind (fun _ => rfl) fun _ => keeps_pure
    · exact keeps_pure
  | _ => exact absurd hc (by simp [Entry.creator])

/-- What the calls with an object that is not released again need: the thread to suspend is not the
idle one; `queue_ioobject` finds memory; the handles given to `poll` are those of I/O objects. -/
def LocksReturned (w : World ω) (k : Kernel ω) (c : Entry) (params : UInt32) : Prop :=
  (c = .suspend → ∀ t, (k.handles.olock (asInt (k.mem params)) objectThread).2 = some t →
    w.threadId t ≠ 0) ∧
  (c = .select ∨ c = .poll → Queues w) ∧
  (c = .poll → IoEntries k (k.mem params) (k.mem (params + 4)).toNat)

omit [DecidableEq ω] in
theorem pollView_guarded (fds p size : UInt32) (modify : Bool) {body : M ω ℤ}
    (hb : ∀ k', pollView fds k' = pollView fds k → locks (body.after k') = locks k) :
    locks ((guarded w [.buffer p size modify] body).after k) = locks k := by
  have hlock : pollView fds ((lockAll w [.buffer p size modify]).after k) = pollView fds k := by
    rw [lockAll, after_bind]
    split <;> rfl
  rw [guarded, after_bind]
  split
  · exact hb _ hlock
  · exact locks_of_pollView hlock

theorem locks_sysSuspend (hw : w.Tame) {a : ℕ → UInt32}
    (hid : ∀ t, (olock (a 0) objectThread).value k = some t → w.threadId t ≠ 0) :
    locks (((sysSuspend w).body a).after k) = locks k := by
  unfold sysSuspend
  rw [after_bind]
  cases hv : (olock (a 0) objectThread).value k with
  | none => exact congrArg locks (olock_none hv)
  | some t =>
    dsimp only
    rw [if_neg (hid t hv)]
    have hlift := locks_olock (lifted_nil (locks k)).symm hv
    exact (locks_orel ((level_call hw _ _ _ _).trans hlift)).trans (lifted_nil _)

theorem locks_sysPoll (hw : w.Tame) (hq : Queues w) {a : ℕ → UInt32}
    (hio : IoEntries k (a 0) (a 1).toNat) : locks (((sysPoll w).body a).after k) = locks k := by
  refine pollView_guarded (a 0) _ _ _ fun k' hv => ?_
  exact (level_poll hw hq _ _ _ (hio.congr hv)).trans (locks_of_pollView hv)

theorem locks_dispatchCall (hw : w.Tame) (hr : LocksReturned w k c params) :
    locks ((dispatchCall w c params).after k) = locks k := by
  rw [dispatchCall, after_bind]
  split
  swap
  · rfl
  rw [after_bind, args_after]
  by_cases hc : c.creator = true
  · exact level_creator hw hc _ _
  by_cases hs : c.special = false
  · exact (framed_locks hw).body hs (by simpa using hc) _ _
  cases c with
  | suspend =>
    refine (locks_sysSuspend hw fun t ht => ?_).trans rfl
    have harg : (args params 1).value ((lockBuffer w params 4 false).after k) 0 = k.mem params := by
      exact congrArg k.mem (UInt32.add_zero params)
    have hwords : ((Entry.suspend).handler w).words = 1 := rfl
    have hsize : (Entry.suspend).paramsize = 4 := rfl
    rw [hwords, hsize, harg] at ht
    exact hr.1 rfl t ht
  | select => exact level_guarded _ (level_select hw (hr.2.1 (Or.inl rfl)) _ _ _ _) _
  | poll =>
    refine (locks_sysPoll hw (hr.2.1 (Or.inr rfl)) ?_).trans rfl
    have hwords : ((Entry.poll).handler w).words = 3 := rfl
    have hsize : (Entry.poll).paramsize = 12 := rfl
    have h0 : (args params 3).value ((lockBuffer w params 12 false).after k) 0 = k.mem params := by
      exact congrArg k.mem (UInt32.add_zero params)
    have h1 : (args params 3).value ((lockBuffer w params 12 false).after k) 1 =
        k.mem (params + 4) := by
      rfl
    rw [hwords, hsize, h0]
    exact (hr.2.2 rfl).congr rfl
  | _ => exact absurd rfl hs

end SimpleKernel.Syscall
