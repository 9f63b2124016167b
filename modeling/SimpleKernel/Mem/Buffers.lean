import SimpleKernel.Mem.Access

/-! The checks of user buffers whose length comes from a count (`syscall.c`, `iovec.c`). It is computed in 32 bits
and handed to `mem_access` as a signed number. -/
namespace SimpleKernel.Mem

/-- `(int) x`. -/
def asInt (x : UInt32) : ℤ := x.toBitVec.toInt

def accessFor (modify : Bool) : UInt32 := if modify then ptUserWrite else ptUserRead

/-- `(fds->count + 1) * sizeof(int)`. -/
def fdsetSize (count : UInt32) : UInt32 := (count + 1) * 4

/-- `iovlen * sizeof(struct iovec)`. -/
def iovecSize (iovlen : UInt32) : UInt32 := iovlen * 8

def sizeofDirentry : UInt32 := 268

/-- `count * sizeof(struct direntry)`. -/
def direntSize (count : UInt32) : UInt32 := count * sizeofDirentry

section model

variable (fetchPage : PageTables → UInt32 → PageTables × ℤ)

/-- The return code of a check that denies access with `-EFAULT`. -/
def accessCode (pt : PageTables) (addr size : UInt32) (modify : Bool) :
    Option (PageTables × ℤ) :=
  (memAccess fetchPage pt addr size (accessFor modify)).map fun p =>
    (p.1, if p.2 then 0 else -EFAULT)

def lockBuffer (pt : PageTables) (buffer size : UInt32) (modify : Bool) :
    Option (PageTables × ℤ) :=
  if buffer ≠ 0 then
    if asInt size < 0 then some (pt, -EINVAL) else accessCode fetchPage pt buffer size modify
  else some (pt, 0)

/- The words of user memory, as they are while the call looks at them. -/
variable (mem : UInt32 → UInt32)

def lockFdset (pt : PageTables) (fds : UInt32) (modify : Bool) : Option (PageTables × ℤ) :=
  if fds ≠ 0 then
    (accessCode fetchPage pt fds 4 modify).bind fun p =>
      if p.2 < 0 then some p
      else if osBase ≤ fds then some (p.1, -EFAULT)
      else if osBase ≤ fds + fdsetSize (mem fds) then some (p.1, -EFAULT)
      else accessCode fetchPage p.1 fds (fdsetSize (mem fds)) modify
  else some (pt, 0)

/-- The elements of an I/O vector one after the other; `iov_len < 0` is never true of a
`size_t`. -/
def iovecLoop (modify : Bool) : ℕ → PageTables → UInt32 → Option (PageTables × ℤ)
  | 0, pt, _ => some (pt, 0)
  | n + 1, pt, iov =>
    if mem (iov + 4) ≠ 0 then
      (accessCode fetchPage pt (mem (iov + 4)) (mem iov) modify).bind fun p =>
        if p.2 < 0 then some p else iovecLoop modify n p.1 (iov + 8)
    else if mem iov ≠ 0 then some (pt, -EFAULT)
    else iovecLoop modify n pt (iov + 8)

def checkIovec (pt : PageTables) (iov iovlen : UInt32) (modify : Bool) :
    Option (PageTables × ℤ) :=
  if iov ≠ 0 then
    if asInt iovlen < 0 then some (pt, -EINVAL)
    else
      (accessCode fetchPage pt iov (iovecSize iovlen) false).bind fun p =>
        if p.2 < 0 then some p else iovecLoop fetchPage mem modify iovlen.toNat p.1 iov
  else if iovlen ≠ 0 then some (pt, -EFAULT)
  else some (pt, 0)

/-- The check of the buffer in `sys_readdir`. -/
def readdirCheck (pt : PageTables) (dirp count : UInt32) : Option (PageTables × ℤ) :=
  lockBuffer fetchPage pt dirp (direntSize count) true

end model

section returns

variable (fetchPage : PageTables → UInt32 → PageTables × ℤ) (mem : UInt32 → UInt32)

end returns

/-- A check of `bytes` bytes takes in `n` elements of `k` bytes. -/
def Covers (bytes : ℤ) (n k : ℕ) : Prop :=
  bytes = (n * k : ℕ) ∧ ∀ i, i < n → ((i + 1) * k : ℕ) ≤ bytes

variable {fetchPage : PageTables → UInt32 → PageTables × ℤ} {pt pt' : PageTables}
  {mem : UInt32 → UInt32} {modify : Bool} {x : UInt32} {n k : ℕ}

theorem asInt_eq : asInt x = if x.toNat < 2 ^ 31 then (x.toNat : ℤ) else (x.toNat : ℤ) - 2 ^ 32 := by
  rw [asInt, BitVec.toInt_eq_toNat_cond]
  simp only [UInt32.toNat_toBitVec]
  split <;> split <;> first | rfl | omega

theorem covers_iff (hx : x.toNat = n * k % 2 ^ 32) : Covers (asInt x) n k ↔ n * k < 2 ^ 31 := by
  rw [asInt_eq]
  constructor
  · rintro ⟨heq, -⟩
    split at heq <;> omega
  · intro hsmall
    have hmod : x.toNat = n * k := by omega
    rw [if_pos (by omega), hmod]
    refine ⟨rfl, fun i hi => ?_⟩
    exact_mod_cast Nat.mul_le_mul_right k hi

theorem toNat_fdsetSize (count : UInt32) :
    (fdsetSize count).toNat = (count.toNat + 1) * 4 % 2 ^ 32 := by
  change (count.toNat + 1) % 2 ^ 32 * 4 % 2 ^ 32 = _
  omega

theorem toNat_iovecSize (iovlen : UInt32) :
    (iovecSize iovlen).toNat = iovlen.toNat * 8 % 2 ^ 32 := by
  rfl

theorem toNat_direntSize (count : UInt32) :
    (direntSize count).toNat = count.toNat * 268 % 2 ^ 32 := by
  rfl

theorem lockFdset_accepted {fds : UInt32} (hfds : fds ≠ 0)
    (h : lockFdset fetchPage mem pt fds modify = some (pt', 0)) :
    fds < osBase ∧ fds + fdsetSize (mem fds) < osBase := by
  simp only [lockFdset, hfds, ne_eq] at h
  obtain ⟨p, -, hp⟩ := Option.bind_eq_some_iff.mp h
  split at hp
  · next hneg =>
    obtain rfl := Option.some.inj hp
    simp at hneg
  split at hp
  · simp [EFAULT] at hp
  split at hp
  · simp [EFAULT] at hp
  · next hfds hend => exact ⟨UInt32.not_le.mp hfds, UInt32.not_le.mp hend⟩

/-! Page tables that grant everything accept every size that reaches `mem_access`. -/

/-- Every page may be read and written. -/
def granting : PageTables := ⟨fun _ => ptPresent, fun _ => ptUserWrite⟩

theorem accessible_granting (addr : UInt32) (modify : Bool) :
    Accessible granting (accessFor modify) addr := by
  have hpde : ptPresent &&& ptPresent ≠ 0 := by decide
  have hpte : ptUserWrite &&& accessFor modify = accessFor modify := by
    cases modify <;> decide
  exact ⟨hpde, hpte⟩

theorem noFile_granting : NoFile granting := by
  have hpte : ptUserWrite &&& ptFile = 0 := by decide
  exact fun _ => hpte

theorem accessCode_granting (addr size : UInt32) (modify : Bool) :
    accessCode fetchPage granting addr size modify = some (granting, 0) := by
  rw [accessCode, memAccess_of_all fetchPage addr size noFile_granting
    fun a => accessible_granting a modify]
  rfl

theorem lockFdset_granting {fds : UInt32} (hfds : fds < osBase)
    (hend : fds + fdsetSize (mem fds) < osBase) :
    lockFdset fetchPage mem granting fds modify = some (granting, 0) := by
  have h1 : ¬ osBase ≤ fds := UInt32.not_le.mpr hfds
  have h2 : ¬ osBase ≤ fds + fdsetSize (mem fds) := UInt32.not_le.mpr hend
  simp [lockFdset, accessCode_granting, h1, h2]

theorem iovecLoop_granting (n : ℕ) (iov : UInt32) :
    iovecLoop fetchPage (fun _ => 0) modify n granting iov = some (granting, 0) := by
  induction n generalizing iov with
  | zero => rfl
  | succ n ih => simp [iovecLoop, ih]

theorem checkIovec_granting {iov iovlen : UInt32} (hiov : iov ≠ 0) (hlen : ¬ asInt iovlen < 0) :
    checkIovec fetchPage (fun _ => 0) granting iov iovlen modify = some (granting, 0) := by
  simp [checkIovec, hiov, hlen, accessCode_granting, iovecLoop_granting]

theorem readdirCheck_granting {dirp count : UInt32} (hsize : ¬ asInt (direntSize count) < 0) :
    readdirCheck fetchPage granting dirp count = some (granting, 0) := by
  simp [readdirCheck, lockBuffer, hsize, accessCode_granting]

/-- The three checks take in all elements, whatever memory and page tables hold, if and only if the mathematical
size is below `2 ^ 31` or the comparisons before `mem_access` reject the arguments. -/
theorem buffer_sizes_iff (fetchPage : PageTables → UInt32 → PageTables × ℤ) :
    (∀ fds count : UInt32,
      (∀ pt pt' mem modify, fds ≠ 0 → mem fds = count →
        lockFdset fetchPage mem pt fds modify = some (pt', 0) →
          Covers (asInt (fdsetSize count)) (count.toNat + 1) 4) ↔
        fds = 0 ∨ osBase ≤ fds ∨ osBase ≤ fds + fdsetSize count ∨
          (count.toNat + 1) * 4 < 2 ^ 31) ∧
    (∀ iov iovlen : UInt32,
      (∀ pt pt' mem modify, checkIovec fetchPage mem pt iov iovlen modify = some (pt', 0) →
          Covers (if iov = 0 then 0 else asInt (iovecSize iovlen)) iovlen.toNat 8) ↔
        iov = 0 ∨ asInt iovlen < 0 ∨ iovlen.toNat * 8 < 2 ^ 31) ∧
    ∀ dirp count : UInt32,
      (∀ pt pt', readdirCheck fetchPage pt dirp count = some (pt', 0) →
          Covers (if dirp = 0 then 0 else asInt (direntSize count)) count.toNat 268) ↔
        dirp = 0 ∧ count = 0 ∨
          dirp ≠ 0 ∧ (asInt (direntSize count) < 0 ∨ count.toNat * 268 < 2 ^ 31) := by
  refine ⟨fun fds count => ?_, fun iov iovlen => ?_, fun dirp count => ?_⟩
  · rw [covers_iff (toNat_fdsetSize count)]
    constructor
    · intro h
      by_contra hnot
      simp only [not_or, UInt32.not_le] at hnot
      obtain ⟨hfds, huser, hend, hbig⟩ := hnot
      exact hbig (h granting granting (fun _ => count) false hfds rfl
        (lockFdset_granting huser hend))
    · rintro hcase pt pt' mem modify hfds rfl hacc
      obtain ⟨huser, hend⟩ := lockFdset_accepted hfds hacc
      rcases hcase with h | h | h | h
      · exact absurd h hfds
      · exact absurd h (UInt32.not_le.mpr huser)
      · exact absurd h (UInt32.not_le.mpr hend)
      · exact h
  · by_cases hiov : iov = 0
    · simp only [hiov, true_or, iff_true]
      intro pt pt' mem modify hacc
      have hlen : iovlen = 0 := by
        by_contra hne
        simp [checkIovec, hne, EFAULT] at hacc
      simp [Covers, hlen]
    · simp only [hiov, if_false, false_or]
      rw [covers_iff (toNat_iovecSize iovlen)]
      constructor
      · intro h
        by_contra hnot
        rw [not_or] at hnot
        exact hnot.2 (h granting granting _ false (checkIovec_granting hiov hnot.1))
      · rintro (hneg | hsmall) pt pt' mem modify hacc
        · simp [checkIovec, hiov, hneg, EINVAL] at hacc
        · exact hsmall
  · by_cases hdirp : dirp = 0
    · simp only [hdirp, if_true, true_and, ne_eq, not_true_eq_false, false_and, or_false]
      constructor
      · intro h
        have hnone := (h granting granting (by simp [readdirCheck, lockBuffer])).1
        have hzero : count.toNat = 0 := by omega
        exact UInt32.toNat.inj hzero
      · rintro rfl pt pt' -
        simp [Covers]
    · simp only [hdirp, if_false, false_and, false_or, ne_eq, not_false_eq_true, true_and]
      rw [covers_iff (toNat_direntSize count)]
      constructor
      · intro h
        by_contra hnot
        rw [not_or] at hnot
        exact hnot.2 (h granting granting (readdirCheck_granting hnot.1))
      · rintro (hneg | hsmall) pt pt' hacc
        · simp [readdirCheck, lockBuffer, hdirp, hneg, EINVAL] at hacc
        · exact hsmall

/-- An `fd_set` whose count is `2 ^ 30 - 1` is accepted after a check of no bytes at all. -/
theorem buffer_sizes_wrap :
    ¬ ∀ (fds count : UInt32) (pt pt' : PageTables) (mem : UInt32 → UInt32) (modify : Bool),
      fds ≠ 0 → mem fds = count →
      lockFdset fetchNothing mem pt fds modify = some (pt', 0) →
        Covers (asInt (fdsetSize count)) (count.toNat + 1) 4 := by
  intro h
  have hacc : lockFdset fetchNothing (fun _ => 0x3FFFFFFF) granting 0x12000 false =
      some (granting, 0) := lockFdset_granting (by decide) (by decide)
  have hcov := h 0x12000 0x3FFFFFFF granting granting _ false (by decide) rfl hacc
  exact absurd hcov.1 (by decide)

end SimpleKernel.Mem
