import SimpleKernel.Syscall.Checked

/-! System calls and the memory they have checked. -/
namespace SimpleKernel.Syscall
open Mem Handle Traced

variable {ω : Type} {w : World ω} {known : List Event} {addr p size params : UInt32}
  {write modify : Bool} {k : Kernel ω} {a : ℕ → UInt32}

theorem safe_load (h : Covered known addr false) : Safe known (load (ω := ω) addr) :=
  fun _ => ⟨h, trivial⟩

theorem safe_store (v : UInt32) (h : Covered known addr true) :
    Safe known (store (ω := ω) addr v) :=
  fun _ => ⟨h, trivial⟩

theorem covered_guarded {locks : List Lock} (off : UInt32) (hp : p ≠ 0)
    (h : .buffer p size modify ∈ locks) (hoff : off.toNat + 4 ≤ size.toNat)
    (hw : write = true → modify = true) : Covered (accepts locks ++ known) (p + off) write := by
  refine covered_of_mem off (List.mem_append_left _ ?_) hoff hw
  induction locks with
  | nil => simp at h
  | cons l ls ih =>
    rcases List.mem_cons.mp h with rfl | htail
    · simp [accepts, hp]
    · have hin := ih htail
      cases l with
      | buffer q size' modify' => exact List.mem_append_right _ hin
      | string | iovec | fdset => exact hin

theorem covered_guarded_zero {locks : List Lock} (hp : p ≠ 0) (h : .buffer p size modify ∈ locks)
    (hsize : 4 ≤ size.toNat) (hw : write = true → modify = true) :
    Covered (accepts locks ++ known) p write := by
  have hcov : Covered (accepts locks ++ known) (p + 0) write :=
    covered_guarded 0 hp h (by simpa using hsize) hw
  rwa [UInt32.add_zero] at hcov

section Bodies

theorem safe_setErrnum : Safe known (setErrnum w) := by
  intro k
  unfold Traced.log setErrnum
  split
  · exact trivial
  · exact ⟨trivial, trivial⟩

theorem safe_offsetResult {retval : UInt32} (rc : ℤ) {locks : List Lock}
    (h : .buffer retval 8 true ∈ locks) :
    Safe (accepts locks ++ known) (offsetResult (ω := ω) retval rc) := by
  unfold offsetResult
  dsimp only
  split
  · next hne =>
    refine Safe.bind (safe_store _ (covered_guarded_zero hne h (by decide) fun _ => rfl)) fun _ => ?_
    refine Safe.bind (safe_store _ (covered_guarded 4 hne h (by decide) fun _ => rfl)) fun _ => ?_
    split <;> exact careful_pure
  · split <;> exact careful_pure

variable [DecidableEq ω]

theorem safe_olockAll {h : UInt32} (n m : ℕ) (os : List ω)
    (hcov : ∀ i, n ≤ i → i < n + m → Covered known (h + 4 * UInt32.ofNat i) false) :
    Safe known (olockAll h n m os) := by
  induction m generalizing n os with
  | zero => exact careful_pure
  | succ m ih =>
    refine Safe.bind (safe_load (hcov n (by omega) (by omega))) fun hn => ?_
    refine Safe.bind (silent_olock _ _).careful fun found => ?_
    cases found with
    | none => exact Safe.bind (still_orelAll os).silent.careful fun _ => careful_pure
    | some o => exact ih (n + 1) (o :: os) fun i hlo hhi => hcov i (by omega) (by omega)

theorem safe_sysWait (f : KernelFn) (a : ℕ → UInt32) : Safe known ((sysWait w f).body a) := by
  unfold sysWait
  dsimp only
  split
  · exact careful_pure
  next hcount =>
  split
  · exact careful_pure
  next hnull =>
  refine safe_guarded (Safe.bind (safe_olockAll 0 _ [] fun i _ hi => ?_) fun found => ?_)
  · have hsmall : (a 1).toNat ≤ 16 := by
      have hlt := (a 1).toNat_lt
      rw [asInt_eq, maxWaitObjects] at hcount
      split at hcount <;> omega
    have hne : a 0 ≠ 0 := by
      intro h0
      refine hnull ⟨h0, ?_⟩
      rw [asInt_eq]
      omega
    refine covered_guarded _ hne (List.mem_singleton.mpr rfl) ?_ (by simp)
    have hi' : (UInt32.ofNat i).toNat = i := Mem.toNat_ofNat (by omega)
    rw [UInt32.toNat_mul, hi']
    change 4 * i % 2 ^ 32 + 4 ≤ (a 1).toNat * 4 % 2 ^ 32
    omega
  · cases found with
    | none => exact careful_pure
    | some os =>
      refine Safe.bind (silent_call _ _ _).careful fun rc => ?_
      exact Safe.bind (still_orelAll os).silent.careful fun _ => careful_pure

theorem safe_sysMake (init : KernelFn) (words : ℕ) (a : ℕ → UInt32) :
    Safe known ((sysMake w init words).body a) := by
  refine Safe.bind (silent_call _ _ _).careful fun p => ?_
  split
  · exact careful_pure
  · exact Safe.bind (silent_call _ _ _).careful fun _ => (silent_hallocOrClose _).careful

theorem safe_sysGetsockopt (a : ℕ → UInt32) : Safe known ((sysGetsockopt w).body a) := by
  refine safe_withObject fun s => ?_
  split
  · exact careful_pure
  next hne =>
  refine safe_guarded (Safe.bind (safe_load ?_) fun inoptlen => safe_guarded ?_)
  · exact covered_guarded_zero hne (List.mem_singleton.mpr rfl) (by decide) (by simp)
  · exact (silent_call _ _ _).careful

omit [DecidableEq ω] in
theorem safe_sysGettimeofday (a : ℕ → UInt32) : Safe known ((sysGettimeofday w).body a) := by
  unfold sysGettimeofday
  dsimp only
  split
  · exact careful_pure
  next hne =>
  refine safe_guarded (Safe.bind (safe_store _ ?_) fun _ => Safe.bind (safe_store _ ?_) fun _ =>
    careful_pure)
  · exact covered_guarded_zero hne (List.mem_singleton.mpr rfl) (by decide) fun _ => rfl
  · exact covered_guarded 4 hne (List.mem_singleton.mpr rfl) (by decide) fun _ => rfl

theorem safe_sysPipe (h : a 0 ≠ 0) : Safe known ((sysPipe w).body a) := by
  have hlock : Lock.buffer (a 0) 8 true ∈ [Lock.buffer (a 0) 8 true] := List.mem_singleton.mpr rfl
  have hclose : Silent (do closeDirect w.created; closeDirect w.peer; pure (-ENFILE) : M ω ℤ) :=
    fun _ => rfl
  refine safe_guarded (Safe.bind (silent_call _ _ _).careful fun rc => ?_)
  split
  · refine Safe.bind (silent_halloc _).careful fun h0 => ?_
    refine Safe.bind (safe_store _ (covered_guarded_zero h hlock (by decide) fun _ => rfl)) fun _ => ?_
    refine Safe.bind (silent_halloc _).careful fun h1 => ?_
    refine Safe.bind (safe_store _ (covered_guarded 4 h hlock (by decide) fun _ => rfl)) fun _ => ?_
    refine Safe.bind (safe_load (covered_guarded_zero h hlock (by decide) (by simp))) fun f0 => ?_
    refine Safe.bind (safe_load (covered_guarded 4 h hlock (by decide) (by simp))) fun f1 => ?_
    dsimp only
    split
    · refine Silent.careful ?_
      split
      · refine (silent_hfree _).bind fun _ => ?_
        split
        · exact (silent_hfree _).bind fun _ => hclose
        · exact hclose
      · split
        · exact (silent_hfree _).bind fun _ => hclose
        · exact hclose
    · exact careful_pure
  · exact careful_pure

theorem safe_sysMsg (f : KernelFn) (h : a 1 ≠ 0) : Safe known ((sysMsg w f modify).body a) := by
  have hcov (off : UInt32) (hoff : off.toNat + 4 ≤ 16) :
      Covered (accepts [.buffer (a 1) sizeofMsghdr modify] ++ known) (a 1 + off) false :=
    covered_guarded off h (List.mem_singleton.mpr rfl) hoff (by simp)
  refine safe_withObject fun s => safe_guarded ?_
  refine Safe.bind (safe_load (hcov 8 (by decide))) fun iov => ?_
  refine Safe.bind (safe_load (hcov 12 (by decide))) fun iovlen => ?_
  refine safe_guarded ((?_ : Safe (accepts [.buffer (a 1) sizeofMsghdr modify] ++ known) _).mono
    (List.subset_append_right _ _))
  refine Safe.bind (safe_load ?_) fun name => ?_
  · simpa only [UInt32.add_zero] using hcov 0 (by decide)
  refine Safe.bind (safe_load (hcov 4 (by decide))) fun namelen => ?_
  refine safe_guarded ((?_ : Safe (accepts [.buffer (a 1) sizeofMsghdr modify] ++ known) _).mono
    (List.subset_append_right _ _))
  refine Safe.bind (silent_call _ _ _).careful fun rc => ?_
  refine Safe.bind (safe_load (hcov 8 (by decide))) fun _ => ?_
  exact Safe.bind (safe_load (hcov 12 (by decide))) fun _ => careful_pure

/-- The entries of the table with a `paramsize` below what the handler reads. -/
def Entry.short : Entry → Bool
  | .lseek | .vmalloc | .vmrealloc | .mkthread | .time => true
  | _ => false

/-- The entries that store or read through a pointer that may be null. -/
def Entry.follows : Entry → Bool
  | .pipe | .recvmsg | .sendmsg => true
  | _ => false

theorem safe_body {c : Entry} (hs : c.short = false) (hf : c.follows = false) (a : ℕ → UInt32) :
    Safe known ((c.handler w).body a) := by
  cases c with
  | lseek | vmalloc | vmrealloc | mkthread | time => exact absurd hs (by decide)
  | pipe | recvmsg | sendmsg => exact absurd hf (by decide)
  | null | clock => exact careful_pure
  | vmfree | vmprotect | vmlock | vmunlock | vmsync | msleep | getuid | setuid | getgid | setgid
  | geteuid | seteuid | getegid | setegid | alarm => exact (silent_call _ _ _).careful
  | exitos | endthread => exact ((silent_call _ _ _).bind fun _ => silent_pure).careful
  | mkfs | mount | umount | getfsstat | statfs | utime | mkdir | rmdir | rename | link | unlink
  | chdir | chmod | getgroups | setgroups | chown | access | getcwd | sigprocmask | sigpending =>
    exact safe_guarded (silent_call _ _ _).careful
  | fsync | ftruncate | waitone | resume | getprio | semrel | listen | shutdown | setmode | fchmod
  | mutexrel | fchown | sendsig => exact safe_withObject fun o => (silent_call _ _ _).careful
  | fstatfs | threadtimes | futime | readdir | setcontext | getcontext | bind | connect
  | getpeername | getsockname | recv | recvfrom | send | sendto | setsockopt | pread | pwrite =>
    exact safe_withObject fun o => safe_guarded (silent_call _ _ _).careful
  | read | write | ioctl | readv | writev =>
    exact safe_withObject fun o => safe_guarded (silent_fileOrSocket _ _ _ _ _).careful
  | epulse | eset | ereset =>
    exact safe_withObject fun o => ((silent_call _ _ _).bind fun _ => silent_pure).careful
  | mkevent | mksem | mkmutex | mkiomux => exact safe_sysMake _ _ a
  | waitall | waitany => exact safe_sysWait _ a
  | «open» | opendir =>
    exact safe_guarded ((silent_call _ _ _).bind fun rc => silent_hallocOrClose rc).careful
  | socket => exact ((silent_call _ _ _).bind fun rc => silent_hallocOrClose rc).careful
  | accept =>
    exact safe_withObject fun s =>
      safe_guarded ((silent_call _ _ _).bind fun rc => silent_hallocOrClose rc).careful
  | close => exact (silent_hfree _).careful
  | dup => exact safe_withObject fun o => (silent_halloc o).careful
  | dup2 => exact safe_withObject fun o => (silent_hassign o _).careful
  | tell =>
    exact safe_withObject fun f => safe_guarded (Safe.bind (silent_call _ _ _).careful fun rc =>
      safe_offsetResult rc (List.mem_singleton.mpr rfl))
  | fstat =>
    exact Safe.bind (safe_withObject fun f => safe_guarded (silent_call _ _ _).careful)
      fun rc => careful_pure
  | stat => exact Safe.bind (safe_guarded (silent_call _ _ _).careful) fun rc => careful_pure
  | getthreadblock => exact safe_withObject fun t => careful_pure
  | suspend =>
    refine Safe.bind (silent_olock _ _).careful fun found => ?_
    cases found with
    | none => exact careful_pure
    | some t =>
      dsimp only
      split
      · exact careful_pure
      · refine Safe.bind (silent_call _ _ _).careful fun rc => ?_
        exact Safe.bind (silent_orel t).careful fun _ => careful_pure
  | setprio =>
    refine safe_withObject fun t => ?_
    split
    · exact careful_pure
    split
    · exact careful_pure
    · exact (silent_call _ _ _).careful
  | gettimeofday => exact safe_sysGettimeofday a
  | settimeofday =>
    unfold Entry.handler sysSettimeofday
    dsimp only
    split
    · exact careful_pure
    · exact safe_guarded (Safe.bind (silent_call _ _ _).careful fun _ => careful_pure)
  | getsockopt => exact safe_sysGetsockopt a
  | dispatch =>
    exact safe_withObject fun iomux => safe_withObject fun o => (silent_call _ _ _).careful
  | select => exact safe_guarded (still_select _ _ _ _).silent.careful
  | poll => exact safe_guarded (still_poll _ _ _).silent.careful
  | vmmap =>
    refine safe_withObject fun f => Safe.bind (silent_vmmap _ _).careful fun retval => ?_
    split
    · exact Safe.bind safe_setErrnum fun _ => careful_pure
    · exact careful_pure
  | sysinfo =>
    have hinfo (f : KernelFn) (needed : UInt32) : Silent (sysinfo w f (a 1) (a 2) needed) := by
      unfold sysinfo
      split
      · exact silent_pure
      · exact silent_call _ _ _
    refine safe_guarded (Silent.careful ?_)
    split
    · exact hinfo _ _
    split
    · exact hinfo _ _
    split
    · exact hinfo _ _
    · exact silent_pure

end Bodies

section Parameters

theorem covered_access {x : UInt32} {b : Bool} :
    Covered (.access x b :: known) addr write ↔ Covered known addr write := by
  constructor
  · rintro ⟨q, size, modify, hmem, hrest⟩
    exact ⟨q, size, modify, by simpa using hmem, hrest⟩
  · rintro ⟨q, size, modify, hmem, hrest⟩
    exact ⟨q, size, modify, List.mem_cons_of_mem _ hmem, hrest⟩

theorem not_covered_nil : ¬ Covered [] addr write := by
  rintro ⟨q, size, modify, hmem, -⟩
  simp at hmem

theorem covered_singleton :
    Covered [.accepted p size modify] addr write ↔
      (addr - p).toNat + 4 ≤ size.toNat ∧ (write = true → modify = true) := by
  constructor
  · rintro ⟨q, size', modify', hmem, ⟨off, rfl, hoff⟩, hw⟩
    obtain ⟨rfl, rfl, rfl⟩ := by simpa using hmem
    rw [UInt32.add_comm, UInt32.add_sub_cancel]
    exact ⟨hoff, hw⟩
  · rintro ⟨hoff, hw⟩
    refine ⟨p, size, modify, List.mem_singleton.mpr rfl, ⟨addr - p, ?_, hoff⟩, hw⟩
    rw [UInt32.add_comm, UInt32.sub_add_cancel]

theorem args_after (n : ℕ) : (args params n).after k = k := by
  induction n with
  | zero => rfl
  | succ n ih =>
    rw [args, after_bind, ih]
    rfl

theorem args_value {n i : ℕ} (h : i < n) :
    (args params n).value k i = k.mem (params + 4 * UInt32.ofNat i) := by
  induction n with
  | zero => omega
  | succ n ih =>
    have hval : (args params (n + 1)).value k =
        Function.update ((args params n).value k) n (k.mem (params + 4 * UInt32.ofNat n)) := by
      rw [args, value_bind, args_after]
      rfl
    rw [hval]
    by_cases hi : i = n
    · subst hi
      rw [Function.update_self]
    · rw [Function.update_of_ne hi]
      exact ih (by omega)

theorem admitted_loads {l : List UInt32} :
    Admitted Admits known (l.map fun x => .access x false) ↔ ∀ x ∈ l, Covered known x false := by
  induction l generalizing known with
  | nil => simp [Admitted]
  | cons x l ih =>
    rw [List.map_cons, Admitted, ih, List.forall_mem_cons]
    refine and_congr Iff.rfl (forall₂_congr fun y _ => ?_)
    exact covered_access

theorem args_log (n : ℕ) : (args params n).log k =
    ((List.range n).map fun i => params + 4 * UInt32.ofNat i).map fun x => .access x false := by
  induction n with
  | zero => rfl
  | succ n ih =>
    rw [args, log_bind, ih, List.range_succ, List.map_append, List.map_append]
    rfl

theorem admitted_args {n : ℕ} : Admitted Admits known ((args params n).log k) ↔
    ∀ i, i < n → Covered known (params + 4 * UInt32.ofNat i) false := by
  rw [args_log, admitted_loads]
  simp

end Parameters

section Table
variable [DecidableEq ω] {c : Entry}

theorem words_le (c : Entry) : (c.handler w).words ≤ 6 := by
  cases c <;> exact Nat.le_of_ble_eq_true rfl

theorem fits_iff (c : Entry) : 4 * (c.handler w).words ≤ c.paramsize.toNat ↔ c.short = false := by
  have hdec : decide (4 * (c.handler w).words ≤ c.paramsize.toNat) = !c.short := by
    cases c <;> rfl
  rw [← Bool.not_eq_true', ← hdec, decide_eq_true_iff]

theorem covered_params (hs : c.short = false) :
    ∀ i, i < (c.handler w).words →
      Covered [.accepted params c.paramsize false] (params + 4 * UInt32.ofNat i) false := by
  intro i hi
  have hw := words_le (w := w) c
  have hfits := (fits_iff (w := w) c).mpr hs
  refine covered_of_mem _ (List.mem_singleton.mpr rfl) ?_ (by simp)
  rw [UInt32.toNat_mul, Mem.toNat_ofNat (by omega)]
  change 4 * i % 2 ^ 32 + 4 ≤ _
  omega

theorem admitted_of_accepted {known known' es : List Event} (h : Admitted Admits known es)
    (hsub : ∀ p size modify, .accepted p size modify ∈ known → .accepted p size modify ∈ known') :
    Admitted Admits known' es := by
  induction es generalizing known known' with
  | nil => exact trivial
  | cons e es ih =>
    refine ⟨?_, ih h.2 fun p size modify hmem => ?_⟩
    · cases e with
      | access addr write =>
        obtain ⟨p, size, modify, hmem, hrest⟩ := h.1
        exact ⟨p, size, modify, hsub p size modify hmem, hrest⟩
      | accepted | errnum => exact trivial
    · rcases List.mem_cons.mp hmem with heq | hmem
      · exact List.mem_cons.mpr (Or.inl heq)
      · exact List.mem_cons_of_mem _ (hsub p size modify hmem)

/-- What is known of the parameter block when the handler is called. -/
def blockKnown (c : Entry) (params : UInt32) : List Event :=
  if params = 0 then [] else [.accepted params c.paramsize false]

theorem dispatchCall_rejected (h : (lockBuffer w params c.paramsize false).value k < 0) :
    Admitted Admits [] ((dispatchCall w c params).log k) := by
  rw [dispatchCall, log_bind, if_neg (by omega), admitted_append]
  exact ⟨safe_lockBuffer k, trivial⟩

theorem dispatchCall_accepted (h : 0 ≤ (lockBuffer w params c.paramsize false).value k) :
    Admitted Admits [] ((dispatchCall w c params).log k) ↔
      (∀ i, i < (c.handler w).words →
        Covered (blockKnown c params) (params + 4 * UInt32.ofNat i) false) ∧
      Admitted Admits (blockKnown c params) (((c.handler w).body
        ((args params (c.handler w).words).value
          ((lockBuffer w params c.paramsize false).after k))).log
        ((lockBuffer w params c.paramsize false).after k)) := by
  have hlog : (lockBuffer w params c.paramsize false).log k = blockKnown c params :=
    lockBuffer_log h
  have hrev : (blockKnown c params).reverse ++ [] = blockKnown c params := by
    unfold blockKnown
    split <;> rfl
  rw [dispatchCall, log_bind, if_pos h, admitted_append, hlog, hrev, log_bind, args_after,
    admitted_append, admitted_args]
  refine ⟨fun hall => ⟨hall.2.1, ?_⟩, fun hall => ⟨?_, hall.1, ?_⟩⟩
  · refine admitted_of_accepted hall.2.2 fun q size modify hmem => ?_
    rcases List.mem_append.mp hmem with hmem | hmem
    · simp [args_log] at hmem
    · exact hmem
  · rw [← hlog]
    exact safe_lockBuffer k
  · exact hall.2.mono monotone_admits (List.subset_append_right _ _)

end Table

end SimpleKernel.Syscall
