import SimpleKernel.Syscall.Table

/-! Which accesses of system calls lie in memory that was checked. -/
namespace SimpleKernel.Syscall
open Mem Handle Traced

/-- The word at `addr` lies in the range of `size` bytes at `p`. -/
def Within (addr p size : UInt32) : Prop := ∃ off, addr = p + off ∧ off.toNat + 4 ≤ size.toNat

/-- One of the checks has accepted a range with the word, for this kind of access. -/
def Covered (known : List Event) (addr : UInt32) (write : Bool) : Prop :=
  ∃ p size modify, .accepted p size modify ∈ known ∧ Within addr p size ∧
    (write = true → modify = true)

def Admits (known : List Event) : Event → Prop
  | .access addr write => Covered known addr write
  | .accepted _ _ _ | .errnum => True

variable {ω : Type} {w : World ω} {α : Type} {known : List Event} {addr p size : UInt32}
  {write modify : Bool} {k : Kernel ω} {a : ℕ → UInt32}

theorem monotone_admits : Monotone Admits := by
  intro l l' e hsub h
  cases e with
  | access addr write =>
    obtain ⟨p, size, modify, hmem, hrest⟩ := h
    exact ⟨p, size, modify, hsub hmem, hrest⟩
  | accepted | errnum => exact trivial

theorem covered_of_mem (off : UInt32) (h : .accepted p size modify ∈ known)
    (hoff : off.toNat + 4 ≤ size.toNat) (hw : write = true → modify = true) :
    Covered known (p + off) write :=
  ⟨p, size, modify, h, ⟨off, rfl, hoff⟩, hw⟩

/-! Operations that do not access user memory. -/

abbrev Safe (known : List Event) (m : M ω α) : Prop := Careful Admits known m

theorem Safe.bind {β : Type} {m : M ω α} {f : α → M ω β} (h : Safe known m)
    (hf : ∀ x, Safe known (f x)) : Safe known (m >>= f) :=
  Careful.bind monotone_admits h hf

theorem Safe.mono {known' : List Event} {m : M ω α} (h : Safe known m) (hsub : known ⊆ known') :
    Safe known' m :=
  Careful.mono monotone_admits h hsub

theorem silent_call (f : KernelFn) (objs : List ω) (l : List UInt32) : Silent (call w f objs l) :=
  fun _ => rfl

theorem safe_lockBuffer : Safe known (lockBuffer w p size modify) := by
  intro k
  unfold Traced.log lockBuffer check
  dsimp only
  split
  · exact trivial
  · split
    · exact trivial
    · exact ⟨trivial, trivial⟩

theorem silent_lockString (s : UInt32) : Silent (lockString w s) := by
  intro k
  unfold Traced.log lockString
  split <;> rfl

theorem silent_lockIovec (iov count : UInt32) : Silent (lockIovec w iov count modify) := by
  intro k
  unfold Traced.log lockIovec check
  dsimp only
  split <;> rfl

theorem silent_lockFdset (fds : UInt32) : Silent (lockFdset w fds modify) := by
  intro k
  unfold Traced.log lockFdset check
  dsimp only
  split <;> rfl

theorem safe_lock (l : Lock) : Safe known (l.code w) := by
  cases l with
  | buffer p size modify => exact safe_lockBuffer
  | string s => exact (silent_lockString s).careful
  | iovec iov count modify => exact (silent_lockIovec iov count).careful
  | fdset fds modify => exact (silent_lockFdset fds).careful

/-- What the checks have accepted when all of them succeed. -/
def accepts : List Lock → List Event
  | [] => []
  | .buffer p size modify :: ls => (if p = 0 then [] else [.accepted p size modify]) ++ accepts ls
  | _ :: ls => accepts ls

theorem lockBuffer_log (h : 0 ≤ (lockBuffer w p size modify).value k) :
    (lockBuffer w p size modify).log k = if p = 0 then [] else [.accepted p size modify] := by
  unfold Traced.value lockBuffer check at h
  unfold Traced.log lockBuffer check
  dsimp only at h ⊢
  rw [if_neg (by omega)]

theorem safe_lockAll (locks : List Lock) : Safe known (lockAll w locks) := by
  induction locks with
  | nil => exact careful_pure
  | cons l ls ih =>
    refine Safe.bind (safe_lock l) fun rc => ?_
    split
    · exact careful_pure
    · exact ih

theorem accepts_subset {locks : List Lock} (h : (lockAll w locks).value k = true) :
    accepts locks ⊆ (lockAll w locks).log k := by
  induction locks generalizing k with
  | nil => exact List.nil_subset _
  | cons l ls ih =>
    rw [lockAll, value_bind] at h
    rw [lockAll, log_bind]
    split at h
    · simp at h
    · next hrc =>
      rw [if_neg hrc]
      have htail := ih h
      cases l with
      | buffer p size modify =>
        have hlog : ((Lock.buffer p size modify).code w).log k = _ :=
          lockBuffer_log (Int.not_lt.mp hrc)
        rw [hlog]
        exact List.append_subset.mpr ⟨List.subset_append_left _ _,
          List.Subset.trans htail (List.subset_append_right _ _)⟩
      | string | iovec | fdset => exact List.Subset.trans htail (List.subset_append_right _ _)

theorem safe_guarded {locks : List Lock} {body : M ω ℤ} (h : Safe (accepts locks ++ known) body) :
    Safe known (guarded w locks body) := by
  refine (safe_lockAll locks).bind_log fun k => ?_
  split
  · next hok =>
    refine (h _).mono monotone_admits (List.append_subset.mpr ⟨?_, List.subset_append_right _ _⟩)
    intro e he
    exact List.mem_append_left _ (List.mem_reverse.mpr (accepts_subset hok he))
  · exact trivial

section Handles
variable [DecidableEq ω]

theorem silent_olock (h : UInt32) (type : ℤ) : Silent (olock (ω := ω) h type) := fun _ => rfl

theorem silent_orel (o : ω) : Silent (orel o) := fun _ => rfl

theorem silent_halloc (o : ω) : Silent (halloc o) := by
  intro k
  unfold Traced.log halloc
  split <;> rfl

theorem silent_hfree (h : ℤ) : Silent (hfree w h) := by
  intro k
  unfold Traced.log hfree
  split
  · unfold closing
    split <;> rfl
  · rfl

theorem silent_hassign (o : ω) (h : ℤ) : Silent (hassign w o h) := by
  intro k
  unfold Traced.log hassign
  split
  · rfl
  · split
    · unfold closing
      split <;> rfl
    · rfl
  · rfl

theorem safe_withObject {h : UInt32} {type : ℤ} {body : ω → M ω ℤ}
    (hb : ∀ o, Safe known (body o)) : Safe known (withObject h type body) := by
  refine Safe.bind (silent_olock h type).careful fun found => ?_
  cases found with
  | none => exact careful_pure
  | some o => exact Safe.bind (hb o) fun rc => Safe.bind (silent_orel o).careful fun _ => careful_pure

omit [DecidableEq ω] in
theorem silent_fileOrSocket (o : ω) (f g : KernelFn) (l l' : List UInt32) :
    Silent (fileOrSocket w o f g l l') := by
  refine Silent.bind (fun _ => rfl) fun type => ?_
  split
  · exact silent_call f [o] l
  split
  · exact silent_call g [o] l'
  · exact silent_pure

theorem silent_hallocOrClose (rc : ℤ) : Silent (hallocOrClose w rc) := by
  unfold hallocOrClose
  split
  · refine (silent_halloc w.created).bind fun h => ?_
    split
    · exact Silent.bind (fun _ => rfl) fun _ => silent_pure
    · exact silent_pure
  · exact silent_pure

theorem silent_vmmap (f : ω) (l : List UInt32) : Silent (vmmap w f l) := by
  refine (silent_call _ _ _).bind fun addr => ?_
  split
  · exact silent_pure
  · refine (silent_halloc _).bind fun self => (silent_halloc _).bind fun file => ?_
    split
    · exact silent_pure
    · exact Silent.bind (fun _ => rfl) fun _ => Silent.bind (fun _ => rfl) fun _ => silent_pure

/-- Nothing is logged and no object is created. -/
def Still (m : M ω α) : Prop := ∀ k, m.log k = [] ∧ (m.after k).made = k.made

section
omit [DecidableEq ω]

theorem Still.silent {m : M ω α} (h : Still m) : Silent m := fun k => (h k).1

theorem still_pure {x : α} : Still (pure x : M ω α) := fun _ => ⟨rfl, rfl⟩

theorem Still.bind {β : Type} {m : M ω α} {f : α → M ω β} (h : Still m) (hf : ∀ x, Still (f x)) :
    Still (m >>= f) := by
  intro k
  rw [log_bind, after_bind, (h k).1, (hf _ _).1, (hf _ _).2, (h k).2]
  exact ⟨rfl, rfl⟩

end

/-- The functions that create an object. -/
def KernelFn.creates : KernelFn → Bool
  | .openFile | .opendir | .socket | .accept | .pipe | .createThread | .vmmap | .kmalloc => true
  | _ => false

omit [DecidableEq ω] in
theorem makes_eq_nil {f : KernelFn} (hf : f.creates = false) (rc : ℤ) : w.makes f rc = [] := by
  cases f <;> first | rfl | exact absurd hf (by decide)

omit [DecidableEq ω] in
theorem still_call {f : KernelFn} (hf : f.creates = false) (objs : List ω) (l : List UInt32) :
    Still (call w f objs l) := by
  intro k
  refine ⟨rfl, ?_⟩
  change w.makes f _ ++ k.made = k.made
  rw [makes_eq_nil hf, List.nil_append]

theorem still_olock (h : UInt32) (type : ℤ) : Still (olock (ω := ω) h type) :=
  fun _ => ⟨rfl, rfl⟩

theorem still_orel (o : ω) : Still (orel o) := fun _ => ⟨rfl, rfl⟩

theorem still_orelAll (os : List ω) : Still (orelAll os) := by
  induction os with
  | nil => exact still_pure
  | cons o os ih => exact (still_orel o).bind fun _ => ih

omit [DecidableEq ω] in
theorem still_isIoobject (o : ω) : Still (isIoobject o) :=
  Still.bind (fun _ => ⟨rfl, rfl⟩) fun _ => still_pure

theorem still_checkFdsLoop (late : Bool) (fds mask : UInt32) (n m : ℕ) (found : ℤ) :
    Still (checkFdsLoop w late fds mask n m found) := by
  induction m generalizing n found with
  | zero => exact still_pure
  | succ m ih =>
    refine Still.bind (fun _ => ⟨rfl, rfl⟩) fun fd => (still_olock _ _).bind fun iob => ?_
    cases iob with
    | none => exact still_pure
    | some iob =>
      refine (still_isIoobject iob).bind fun io => ?_
      dsimp only
      split
      · split
        · exact Still.bind (fun _ => ⟨rfl, rfl⟩) fun _ => (still_orel iob).bind fun _ => ih _ _
        · exact (still_orel iob).bind fun _ => ih _ _
      · exact (still_orel iob).bind fun _ => still_pure

theorem still_checkFds (late : Bool) (fds mask : UInt32) : Still (checkFds w late fds mask) := by
  unfold checkFds
  split
  · exact still_pure
  · exact Still.bind (fun _ => ⟨rfl, rfl⟩) fun _ => still_checkFdsLoop _ _ _ _ _ _

theorem still_addFdsLoop (fds mask : UInt32) (n m : ℕ) : Still (addFdsLoop w fds mask n m) := by
  induction m generalizing n with
  | zero => exact still_pure
  | succ m ih =>
    refine Still.bind (fun _ => ⟨rfl, rfl⟩) fun fd => (still_olock _ _).bind fun iob => ?_
    cases iob with
    | none => exact still_pure
    | some iob =>
      refine (still_isIoobject iob).bind fun io => ?_
      split
      · refine (still_call rfl _ _).bind fun rc => ?_
        split
        · exact still_pure
        · exact (still_orel iob).bind fun _ => ih _
      · exact (still_orel iob).bind fun _ => still_pure

theorem still_addFdsToIomux (fds mask : UInt32) : Still (addFdsToIomux w fds mask) := by
  unfold addFdsToIomux
  split
  · exact still_pure
  · exact Still.bind (fun _ => ⟨rfl, rfl⟩) fun _ => still_addFdsLoop _ _ _ _

omit [DecidableEq ω] in
theorem still_setCount (fds : UInt32) (n : ℤ) : Still (setCount (ω := ω) fds n) := by
  unfold setCount
  split
  · exact still_pure
  · exact fun _ => ⟨rfl, rfl⟩

theorem still_checkSelect (late : Bool) (r v e : UInt32) : Still (checkSelect w late r v e) := by
  refine (still_checkFds _ _ _).bind fun numread => ?_
  split
  · exact still_pure
  refine (still_checkFds _ _ _).bind fun numwrite => ?_
  split
  · exact still_pure
  refine (still_checkFds _ _ _).bind fun numexcept => ?_
  split
  · exact still_pure
  split
  · exact (still_setCount _ _).bind fun _ => (still_setCount _ _).bind fun _ =>
      (still_setCount _ _).bind fun _ => still_pure
  · exact still_pure

omit [DecidableEq ω] in
theorem still_leaveIomux (rc : ℤ) : Still (leaveIomux w rc) :=
  (still_call rfl _ _).bind fun _ => still_pure

theorem still_addSets (sets : List (UInt32 × UInt32)) : Still (addSets w sets) := by
  induction sets with
  | nil => exact still_pure
  | cons x sets ih =>
    refine (still_addFdsToIomux _ _).bind fun rc => ?_
    split
    · exact still_pure
    · exact ih

omit [DecidableEq ω] in
theorem still_selectTimeout (timeout : UInt32) : Still (selectTimeout (ω := ω) timeout) := by
  unfold selectTimeout
  split
  · exact still_pure
  · exact Still.bind (fun _ => ⟨rfl, rfl⟩) fun _ => Still.bind (fun _ => ⟨rfl, rfl⟩) fun _ => still_pure

theorem still_select (r v e timeout : UInt32) : Still (select w r v e timeout) := by
  refine (still_checkSelect _ _ _ _).bind fun rc => ?_
  split
  · exact still_pure
  refine (still_selectTimeout _).bind fun tmo => ?_
  split
  · exact still_pure
  split
  · exact (still_call rfl _ _).bind fun _ => still_pure
  refine (still_addSets _).bind fun rc => ?_
  split
  · exact still_leaveIomux _
  refine (still_call rfl _ _).bind fun rc => ?_
  split
  · exact still_leaveIomux _
  refine (still_checkSelect _ _ _ _).bind fun rc => ?_
  split
  · exact (still_setCount _ _).bind fun _ => (still_setCount _ _).bind fun _ =>
      (still_setCount _ _).bind fun _ => still_leaveIomux _
  · exact still_leaveIomux _

theorem still_pollEntry (late : Bool) (events : UInt32) (found : Option ω) :
    Still (pollEntry w late events found) := by
  cases found with
  | none => exact still_pure
  | some iob =>
    refine (still_isIoobject iob).bind fun io => ?_
    split
    · exact still_pure
    · exact (still_orel iob).bind fun _ => still_pure

theorem still_orelFound (found : Option ω) : Still (orelFound found) := by
  cases found with
  | none => exact fun _ => ⟨rfl, rfl⟩
  | some o => exact still_orel o

theorem still_checkPollLoop (late : Bool) (fds : UInt32) (n m : ℕ) (ready : ℤ) :
    Still (checkPollLoop w late fds n m ready) := by
  induction m generalizing n ready with
  | zero => exact still_pure
  | succ m ih =>
    refine Still.bind (fun _ => ⟨rfl, rfl⟩) fun fd => Still.bind (fun _ => ⟨rfl, rfl⟩) fun events => ?_
    split
    · exact Still.bind (fun _ => ⟨rfl, rfl⟩) fun _ => ih _ _
    · exact (still_olock _ _).bind fun found => (still_pollEntry _ _ _).bind fun revents =>
        (still_orelFound _).bind fun _ => Still.bind (fun _ => ⟨rfl, rfl⟩) fun _ => ih _ _

theorem still_addFdToIomux (n : ℕ) (fd events : UInt32) : Still (addFdToIomux w n fd events) := by
  unfold addFdToIomux
  split
  · exact still_pure
  refine (still_olock _ _).bind fun iob => ?_
  cases iob with
  | none => exact still_pure
  | some iob =>
    refine (still_isIoobject iob).bind fun io => ?_
    split
    · refine (still_call rfl _ _).bind fun rc => ?_
      split
      · exact still_pure
      · exact (still_orel iob).bind fun _ => still_pure
    · exact (still_orel iob).bind fun _ => still_pure

theorem still_addPollLoop (fds : UInt32) (n m : ℕ) : Still (addPollLoop w fds n m) := by
  induction m generalizing n with
  | zero => exact still_pure
  | succ m ih =>
    refine Still.bind (fun _ => ⟨rfl, rfl⟩) fun fd => Still.bind (fun _ => ⟨rfl, rfl⟩) fun events =>
      (still_addFdToIomux _ _ _).bind fun rc => ?_
    split
    · exact still_pure
    · exact ih _

theorem still_poll (fds nfds timeout : UInt32) : Still (poll w fds nfds timeout) := by
  unfold poll
  split
  · exact (still_call rfl _ _).bind fun _ => still_pure
  split
  · exact still_pure
  refine (still_checkPollLoop _ _ _ _ _).bind fun rc => ?_
  split
  · exact still_pure
  split
  · exact still_pure
  refine (still_addPollLoop _ _ _).bind fun rc => ?_
  split
  · exact still_leaveIomux _
  refine (still_call rfl _ _).bind fun rc => ?_
  split
  · exact still_leaveIomux _
  · exact (still_checkPollLoop _ _ _ _ _).bind fun rc => still_leaveIomux _

end Handles

end SimpleKernel.Syscall
