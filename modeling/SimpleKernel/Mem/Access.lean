import SimpleKernel.Mem.Paging

/-! The checks of user memory. The loop of `mem_access` masks the address of the next page with `~PAGESIZE`, so its
pages are counted from the address of the buffer and not from the start of its first page. -/
namespace SimpleKernel.Mem

/-- `(int) size <= 0`. -/
def nonpos (size : UInt32) : Bool := size = 0 || osBase ≤ size

section model

/- `fetch_page` reads a page of a mapped file and may block; what it does is left open. -/
variable (fetchPage : PageTables → UInt32 → PageTables × ℤ)

/-- The checks that one turn of the loop makes. -/
def pageAccess (pt : PageTables) (addr access : UInt32) : PageTables × Bool :=
  if pt.getPde addr &&& ptPresent = 0 then (pt, false)
  else if pt.getPte addr &&& access ≠ access then
    if pt.getPte addr &&& ptFile ≠ 0 then
      if (fetchPage pt (pageAddr addr)).2 < 0 then ((fetchPage pt (pageAddr addr)).1, false)
      else
        ((fetchPage pt (pageAddr addr)).1,
          (fetchPage pt (pageAddr addr)).1.getPte addr &&& access = access)
    else (pt, false)
  else (pt, true)

def memAccessLoop (access : UInt32) :
    ℕ → PageTables → UInt32 → UInt32 → UInt32 → Option (PageTables × Bool)
  | 0, _, _, _, _ => none
  | fuel + 1, pt, addr, next, size =>
    match pageAccess fetchPage pt addr access with
    | (pt', false) => some (pt', false)
    | (pt', true) =>
      if nonpos (size - (next - addr)) then some (pt', true)
      else memAccessLoop access fuel pt' next (next + pageSize) (size - (next - addr))

/-- The page tables afterwards and whether access is granted. The loop makes at most `2 ^ 19 + 2`
turns. -/
def memAccess (pt : PageTables) (vaddr size access : UInt32) : Option (PageTables × Bool) :=
  memAccessLoop fetchPage access (2 ^ 20) pt vaddr ((vaddr &&& ~~~pageSize) + pageSize) size

end model

/-- The page of `addr` is present in the directory and its entry has all bits of `access`. -/
def Accessible (pt : PageTables) (access addr : UInt32) : Prop :=
  pt.getPde addr &&& ptPresent ≠ 0 ∧ pt.getPte addr &&& access = access

/-- No page is mapped to a file. -/
def NoFile (pt : PageTables) : Prop := ∀ i, pt.ptab i &&& ptFile = 0

variable {fetchPage : PageTables → UInt32 → PageTables × ℤ} {pt : PageTables}
  {vaddr size access addr : UInt32} {fuel : ℕ}

theorem Accessible.of_page {v w : UInt32} (h : v.toNat / 4096 = w.toNat / 4096)
    (hv : Accessible pt access v) : Accessible pt access w := by
  obtain ⟨hpte, hpde⟩ := idx_of_page h
  rwa [Accessible, PageTables.getPde, PageTables.getPte, ← hpte, ← hpde]

theorem pageAccess_eq (fetchPage : PageTables → UInt32 → PageTables × ℤ) (addr access : UInt32)
    (hfile : NoFile pt) :
    ∃ b, pageAccess fetchPage pt addr access = (pt, b) ∧ (b = true ↔ Accessible pt access addr) := by
  have hnot : pt.getPte addr &&& ptFile = 0 := hfile _
  by_cases hpde : pt.getPde addr &&& ptPresent = 0
  · exact ⟨false, by simp [pageAccess, hpde], by simp [Accessible, hpde]⟩
  by_cases hpte : pt.getPte addr &&& access = access
  · exact ⟨true, by simp [pageAccess, hpde, hpte], by simp [Accessible, hpde, hpte]⟩
  · exact ⟨false, by simp [pageAccess, hpde, hpte, hnot], by simp [Accessible, hpte]⟩

theorem nonpos_iff : nonpos size = true ↔ size.toNat = 0 ∨ 2 ^ 31 ≤ size.toNat := by
  rw [nonpos, Bool.or_eq_true, decide_eq_true_eq, decide_eq_true_eq, ← UInt32.toNat_inj]
  rfl

/-- The address `k` pages behind `addr`. -/
def ahead (addr : UInt32) (k : ℕ) : UInt32 := addr + pageSize * UInt32.ofNat k

theorem ahead_zero : ahead addr 0 = addr := by
  simp [ahead]

theorem ahead_succ (k : ℕ) : ahead (addr + pageSize) k = ahead addr (k + 1) := by
  simp only [ahead, UInt32.ofNat_add, UInt32.mul_add, UInt32.ofNat_one, UInt32.mul_one]
  rw [UInt32.add_assoc, UInt32.add_comm pageSize]

theorem toNat_ahead {k : ℕ} (h : addr.toNat + 4096 * k < 2 ^ 32) :
    (ahead addr k).toNat = addr.toNat + 4096 * k := by
  have hps : pageSize.toNat = 4096 := rfl
  have hlt : k < 2 ^ 32 := by omega
  have hk : (UInt32.ofNat k).toNat = k := UInt32.toNat_ofNat_of_lt' hlt
  rw [ahead, UInt32.toNat_add, UInt32.toNat_mul, hps]
  omega

/-- From a turn on in which `next` is one page ahead, the loop looks at one page after the other
until the size is used up. -/
theorem memAccessLoop_eq (addr : UInt32) (hfile : NoFile pt) (hpos : 1 ≤ size.toNat) (hsize : size.toNat < 2 ^ 31)
    (hfuel : size.toNat / 4096 < fuel) :
    ∃ b, memAccessLoop fetchPage access fuel pt addr (addr + pageSize) size = some (pt, b) ∧
      (b = true ↔ ∀ k, 4096 * k < size.toNat → Accessible pt access (ahead addr k)) := by
  induction fuel generalizing addr size with
  | zero => omega
  | succ fuel ih =>
    obtain ⟨b, hb, hacc⟩ := pageAccess_eq fetchPage addr access hfile
    have hdiff : addr + pageSize - addr = pageSize := by
      rw [UInt32.add_comm, UInt32.add_sub_cancel]
    simp only [memAccessLoop, hb, hdiff]
    cases b with
    | false =>
      refine ⟨false, rfl, ?_⟩
      have hno : ¬ Accessible pt access addr := fun h => by simpa using hacc.mpr h
      simp only [Bool.false_eq_true, false_iff, not_forall]
      exact ⟨0, by omega, by rwa [ahead_zero]⟩
    | true =>
      have hyes : Accessible pt access addr := hacc.mp rfl
      have hps : pageSize.toNat = 4096 := rfl
      by_cases hlast : size.toNat ≤ 4096
      · have hstop : nonpos (size - pageSize) = true := by
          rw [nonpos_iff, UInt32.toNat_sub]
          omega
        refine ⟨true, by simp [hstop], ?_⟩
        simp only [true_iff]
        intro k hk
        obtain rfl : k = 0 := by omega
        rwa [ahead_zero]
      · have hless : (size - pageSize).toNat = size.toNat - 4096 := by
          rw [UInt32.toNat_sub]
          omega
        have hgo : nonpos (size - pageSize) = false := by
          rw [Bool.eq_false_iff, ne_eq, nonpos_iff]
          omega
        obtain ⟨b, hb', hacc'⟩ := ih (addr + pageSize) (by omega : 1 ≤ (size - pageSize).toNat)
          (by omega) (by omega)
        refine ⟨b, by simpa [hgo] using hb', hacc'.trans ⟨fun h k hk => ?_, fun h k hk => ?_⟩⟩
        · cases k with
          | zero => rwa [ahead_zero]
          | succ k =>
            rw [← ahead_succ]
            exact h k (by omega)
        · rw [ahead_succ]
          exact h (k + 1) (by omega)

theorem and_not_pageSize (v : UInt32) : v &&& ~~~pageSize = v ∨ v &&& ~~~pageSize = v - pageSize := by
  have hps : pageSize.toBitVec = BitVec.twoPow 32 12 := by decide
  have hsplit := and_add_and_not v.toBitVec (BitVec.twoPow 32 12)
  rw [BitVec.and_twoPow] at hsplit
  split at hsplit
  · right
    apply UInt32.toBitVec_inj.mp
    simp only [UInt32.toBitVec_and, UInt32.toBitVec_not, UInt32.toBitVec_sub, hps]
    rw [BitVec.add_comm] at hsplit
    exact (BitVec.sub_eq_iff_eq_add.mpr hsplit.symm).symm
  · left
    apply UInt32.toBitVec_inj.mp
    simpa [hps] using hsplit

theorem memAccessLoop_again (hfile : NoFile pt) (hpos : 1 ≤ size.toNat)
    (hsize : size.toNat < 2 ^ 31) (hfuel : size.toNat / 4096 < fuel) :
    ∃ b, memAccessLoop fetchPage access (fuel + 1) pt addr addr size = some (pt, b) ∧
      (b = true ↔ ∀ k, 4096 * k < size.toNat → Accessible pt access (ahead addr k)) := by
  obtain ⟨b, hb, hacc⟩ := pageAccess_eq fetchPage addr access hfile
  have hgo : nonpos size = false := by
    rw [Bool.eq_false_iff, ne_eq, nonpos_iff]
    omega
  simp only [memAccessLoop, hb, UInt32.sub_self, UInt32.sub_zero, hgo]
  cases b with
  | true => exact memAccessLoop_eq _ hfile hpos hsize hfuel
  | false =>
    have hno : ¬ Accessible pt access addr := fun h => by simpa using hacc.mpr h
    refine ⟨false, rfl, ?_⟩
    simp only [Bool.false_eq_true, false_iff, not_forall]
    exact ⟨0, by omega, by rwa [ahead_zero]⟩

/-- Where the loop looks: at the addresses that lie a whole number of pages behind the start of
the buffer. -/
theorem memAccess_eq (fetchPage : PageTables → UInt32 → PageTables × ℤ) (vaddr access : UInt32)
    (hfile : NoFile pt) (hpos : 1 ≤ size.toNat) (hsize : size.toNat < 2 ^ 31) :
    ∃ b, memAccess fetchPage pt vaddr size access = some (pt, b) ∧
      (b = true ↔ ∀ k, 4096 * k < size.toNat → Accessible pt access (ahead vaddr k)) := by
  rcases and_not_pageSize vaddr with hnext | hnext
  · rw [memAccess, hnext]
    exact memAccessLoop_eq _ hfile hpos hsize (by omega)
  · have hsame : (vaddr &&& ~~~pageSize) + pageSize = vaddr := by
      rw [hnext, UInt32.sub_add_cancel]
    rw [memAccess, hsame]
    exact memAccessLoop_again hfile hpos hsize (by omega)

theorem memAccessLoop_returns (pt : PageTables) (addr : UInt32) (hsize : size.toNat < 2 ^ 31)
    (hfuel : size.toNat / 4096 < fuel) :
    memAccessLoop fetchPage access fuel pt addr (addr + pageSize) size ≠ none := by
  induction fuel generalizing pt addr size with
  | zero => omega
  | succ fuel ih =>
    have hdiff : addr + pageSize - addr = pageSize := by
      rw [UInt32.add_comm, UInt32.add_sub_cancel]
    have hps : pageSize.toNat = 4096 := rfl
    rw [memAccessLoop, hdiff]
    split
    · simp
    · split
      · simp
      · next hgo =>
        rw [nonpos_iff, UInt32.toNat_sub, hps] at hgo
        have hless : (size - pageSize).toNat = size.toNat - 4096 := by
          rw [UInt32.toNat_sub, hps]
          omega
        exact ih _ _ (by omega) (by omega)

theorem memAccess_returns (fetchPage : PageTables → UInt32 → PageTables × ℤ) (pt : PageTables)
    (vaddr size access : UInt32) : memAccess fetchPage pt vaddr size access ≠ none := by
  have hturn : ∀ fuel next, 2 ^ 19 ≤ fuel →
      memAccessLoop fetchPage access (fuel + 1) pt vaddr next size ≠ none := by
    intro fuel next hfuel
    rw [memAccessLoop]
    split
    · simp
    · split
      · simp
      · next hgo =>
        rw [nonpos_iff] at hgo
        exact memAccessLoop_returns _ _ (by omega) (by omega)
  exact hturn _ _ (by omega)

theorem memAccess_of_all (fetchPage : PageTables → UInt32 → PageTables × ℤ)
    (vaddr size : UInt32) (hfile : NoFile pt) (hall : ∀ addr, Accessible pt access addr) :
    memAccess fetchPage pt vaddr size access = some (pt, true) := by
  have hturn : ∀ fuel next, 2 ^ 19 ≤ fuel →
      memAccessLoop fetchPage access (fuel + 1) pt vaddr next size = some (pt, true) := by
    intro fuel next hfuel
    obtain ⟨b, hb, hacc⟩ := pageAccess_eq fetchPage vaddr access hfile
    simp only [memAccessLoop, hb, hacc.mpr (hall vaddr)]
    cases hstop : nonpos (size - (next - vaddr)) with
    | true => rfl
    | false =>
      rw [Bool.eq_false_iff, ne_eq, nonpos_iff] at hstop
      have hleft : (size - (next - vaddr)).toNat / 4096 < fuel := by omega
      obtain ⟨b, hb, hacc⟩ := memAccessLoop_eq next hfile (by omega) (by omega) hleft
      rw [hacc.mpr fun k _ => hall _] at hb
      exact hb
  exact hturn _ _ (by omega)

/-- Every page that holds a byte of the buffer is accessible. -/
def BufferAccessible (pt : PageTables) (access vaddr size : UInt32) : Prop :=
  ∀ b : ℕ, vaddr.toNat ≤ b → b < vaddr.toNat + size.toNat →
    Accessible pt access (UInt32.ofNat b)

theorem toNat_ofNat {b : ℕ} (h : b < 2 ^ 32) : (UInt32.ofNat b).toNat = b :=
  UInt32.toNat_ofNat_of_lt' h

/-- The directory is full and all entries but that of page `p` grant read access. -/
def allBut (p : ℕ) : PageTables :=
  ⟨fun _ => ptPresent, fun i => if i.toNat = p then 0 else ptUserRead⟩

theorem noFile_allBut (p : ℕ) : NoFile (allBut p) := by
  intro i
  simp only [allBut]
  split <;> decide

theorem accessible_allBut {p : ℕ} :
    Accessible (allBut p) ptUserRead addr ↔ addr.toNat / 4096 ≠ p := by
  have hpde : ptPresent &&& ptPresent ≠ 0 := by decide
  simp only [Accessible, PageTables.getPde, PageTables.getPte, allBut, toNat_ptabIdx, hpde, ne_eq,
    not_false_eq_true, true_and]
  split
  · next h => simpa [h] using (by decide : ¬(0 : UInt32) &&& ptUserRead = ptUserRead)
  · next h => simp [h]

/-- The check is exact for a buffer, whatever the page tables hold, if and only if the last page
of the buffer is reached by whole pages from its start. -/
theorem memAccess_exact_iff (fetchPage : PageTables → UInt32 → PageTables × ℤ)
    (vaddr size : UInt32) (hpos : 1 ≤ size.toNat) (hsize : size.toNat < 2 ^ 31)
    (hwrap : vaddr.toNat + size.toNat ≤ 2 ^ 32) :
    (∀ (pt : PageTables) (access : UInt32), NoFile pt →
      ∃ b, memAccess fetchPage pt vaddr size access = some (pt, b) ∧
        (b = true ↔ BufferAccessible pt access vaddr size)) ↔
      vaddr.toNat % 4096 + (size.toNat - 1) % 4096 < 4096 := by
  constructor
  · intro h
    by_contra hlast
    -- the page of the last byte is the only one that is not accessible
    let p := (vaddr.toNat + size.toNat - 1) / 4096
    obtain ⟨b, hb, hexact⟩ := h (allBut p) ptUserRead (noFile_allBut p)
    obtain ⟨b', hb', hseen⟩ := memAccess_eq fetchPage vaddr ptUserRead (noFile_allBut p) hpos
      hsize
    obtain rfl : b = b' := by
      rw [hb] at hb'
      simpa using hb'
    have hgranted : b = true := by
      refine hseen.mpr fun k hk => accessible_allBut.mpr ?_
      rw [toNat_ahead (by omega)]
      simp only [p]
      omega
    have hdenied := hexact.mp hgranted (vaddr.toNat + size.toNat - 1) (by omega) (by omega)
    rw [accessible_allBut, toNat_ofNat (by omega)] at hdenied
    exact hdenied rfl
  · intro hreach pt access hfile
    obtain ⟨b, hb, hseen⟩ := memAccess_eq fetchPage vaddr access hfile hpos hsize
    refine ⟨b, hb, hseen.trans ⟨fun h i hlo hhi => ?_, fun h k hk => ?_⟩⟩
    · apply (h (i / 4096 - vaddr.toNat / 4096) (by omega)).of_page
      rw [toNat_ahead (by omega), toNat_ofNat (by omega)]
      omega
    · have hbyte := h (vaddr.toNat + 4096 * k) (by omega) (by omega)
      apply hbyte.of_page
      rw [toNat_ahead (by omega), toNat_ofNat (by omega)]

/-- `fetch_page` at an entry that names no file: `-EBADF`. -/
def fetchNothing (pt : PageTables) (_ : UInt32) : PageTables × ℤ := (pt, -9)

theorem memAccess_exact_page :
    (0x12000 : UInt32).toNat % 4096 + ((4096 : UInt32).toNat - 1) % 4096 < 4096 ∧
      ∀ (pt : PageTables) (access : UInt32), NoFile pt →
        ∃ b, memAccess fetchNothing pt 0x12000 4096 access = some (pt, b) ∧
          (b = true ↔ BufferAccessible pt access 0x12000 4096) := by
  have hreach : (0x12000 : UInt32).toNat % 4096 + ((4096 : UInt32).toNat - 1) % 4096 < 4096 := by
    decide
  exact ⟨hreach, (memAccess_exact_iff fetchNothing 0x12000 4096 (by decide) (by decide)
    (by decide)).mpr hreach⟩

/-- Two bytes across a page boundary are taken to be accessible although the page of the second
is not there. -/
theorem memAccess_skips_page :
    ¬ ∀ (pt : PageTables) (vaddr size access : UInt32), NoFile pt → vaddr < osBase →
      1 ≤ size.toNat → size.toNat < 2 ^ 31 → vaddr.toNat + size.toNat ≤ 2 ^ 32 →
      ∃ b, memAccess fetchNothing pt vaddr size access = some (pt, b) ∧
        (b = true ↔ BufferAccessible pt access vaddr size) := by
  intro h
  have hfile := noFile_allBut 0x13
  obtain ⟨b, hb, hexact⟩ := h (allBut 0x13) 0x12FFF 2 ptUserRead hfile (by decide) (by decide)
    (by decide) (by decide)
  obtain ⟨b', hb', hseen⟩ := memAccess_eq fetchNothing 0x12FFF ptUserRead hfile
    (by decide : 1 ≤ (2 : UInt32).toNat) (by decide)
  obtain rfl : b = b' := by
    rw [hb] at hb'
    simpa using hb'
  have hgranted : b = true := by
    refine hseen.mpr fun k hk => ?_
    obtain rfl : k = 0 := by
      change 4096 * k < 2 at hk
      omega
    rw [accessible_allBut]
    decide
  have hdenied := hexact.mp hgranted 0x13000 (by decide) (by decide)
  rw [accessible_allBut] at hdenied
  exact hdenied (by decide)

/-- Where `str_access` is: before the checks of the page of `s`, before it reads the byte at `s`, or at its end. -/
inductive StrPc
  | check (s : UInt32)
  | read (s : UInt32)
  | done (ret : Bool)

def strStep (fetchPage : PageTables → UInt32 → PageTables × ℤ) (mem : UInt32 → UInt8) (access : UInt32) :
    PageTables × StrPc → PageTables × StrPc
  | (pt, .check s) =>
    let r := pageAccess fetchPage pt s access
    (r.1, if r.2 then .read s else .done false)
  | (pt, .read s) =>
    (pt, if mem s = 0 then .done true else if (s + 1) &&& (pageSize - 1) = 0 then .check (s + 1) else .read (s + 1))
  | (pt, .done ret) => (pt, .done ret)

/-- `str_access` after `n` steps. -/
def strRun (fetchPage : PageTables → UInt32 → PageTables × ℤ) (mem : UInt32 → UInt8) (access : UInt32)
    (pt : PageTables) (s : UInt32) : ℕ → PageTables × StrPc
  | 0 => (pt, .check s)
  | n + 1 => strStep fetchPage mem access (strRun fetchPage mem access pt s n)

/-- The page of `addr` is there and has all required access bits. -/
def Grants (pt : PageTables) (access addr : UInt32) : Prop :=
  pt.getPte addr &&& ptPresent ≠ 0 ∧ Accessible pt access addr

theorem Accessible.grants (h : Accessible pt access addr) (hpresent : access &&& ptPresent = ptPresent) :
    Grants pt access addr := by
  refine ⟨?_, h⟩
  rw [← hpresent, ← UInt32.and_assoc, h.2, hpresent]
  decide

theorem page_succ {s : UInt32} (h : (s + 1) &&& (pageSize - 1) ≠ 0) : s.toNat / 4096 = (s + 1).toNat / 4096 := by
  have hoff : ((s + 1) &&& (pageSize - 1)).toNat = (s + 1).toNat % 4096 := by
    rw [UInt32.toNat_and]
    exact Nat.and_two_pow_sub_one_eq_mod _ 12
  have hne : ((s + 1) &&& (pageSize - 1)).toNat ≠ 0 := fun h0 => h (UInt32.toNat.inj h0)
  have hsucc : (s + 1).toNat = (s.toNat + 1) % 2 ^ 32 := UInt32.toNat_add ..
  rw [hoff] at hne
  rw [hsucc]
  have hlt := s.toNat_lt
  generalize s.toNat = a at *
  omega

variable {mem : UInt32 → UInt8} {s : UInt32} {n : ℕ}

/-- The bytes before the current one are in pages that were checked. Of the current one, so is its page if the byte is
to be read, and it is the NUL at the end. -/
theorem strRun_spec (hfile : NoFile pt) (n : ℕ) : ∃ pc, strRun fetchPage mem access pt s n = (pt, pc) ∧
    ∃ k : ℕ, (∀ j < k, Accessible pt access (s + .ofNat j)) ∧
      match pc with
      | .check a => a = s + .ofNat k
      | .read a => a = s + .ofNat k ∧ Accessible pt access a ∧
        ∃ m < n, ∃ b, (strRun fetchPage mem access pt s m).2 = .check b ∧ b.toNat / 4096 = a.toNat / 4096
      | .done ret => ret = true → mem (s + .ofNat k) = 0 ∧ Accessible pt access (s + .ofNat k) := by
  induction n with
  | zero => exact ⟨.check s, rfl, 0, by simp, by simp⟩
  | succ n ih =>
    obtain ⟨pc, hrun, k, hbefore, hpc⟩ := ih
    rw [strRun, hrun]
    cases pc with
    | check a =>
      obtain ⟨b, hb, hacc⟩ := pageAccess_eq fetchPage a access hfile
      rw [strStep, hb]
      cases b with
      | false => exact ⟨_, rfl, k, hbefore, fun h => absurd h Bool.false_ne_true⟩
      | true => exact ⟨_, rfl, k, hbefore, hpc, hacc.mp rfl, n, n.lt_succ_self, a, by rw [hrun], rfl⟩
    | read a =>
      obtain ⟨rfl, hread, m, hm, b, hcheck, hpage⟩ := hpc
      have hnext : s + .ofNat k + 1 = s + .ofNat (k + 1) := by
        rw [UInt32.ofNat_add, ← UInt32.add_assoc]
        rfl
      have hbefore' (j : ℕ) (hj : j < k + 1) : Accessible pt access (s + .ofNat j) := by
        rcases Nat.lt_succ_iff_lt_or_eq.mp hj with hlt | rfl
        · exact hbefore j hlt
        · exact hread
      rw [strStep]
      split
      · next hzero => exact ⟨_, rfl, k, hbefore, fun _ => ⟨hzero, hread⟩⟩
      · split
        · exact ⟨_, rfl, k + 1, hbefore', hnext⟩
        · next hoff =>
          have hsame := page_succ hoff
          exact ⟨_, rfl, k + 1, hbefore', hnext, hread.of_page hsame, m, Nat.lt_succ_of_lt hm, b, hcheck,
            hpage.trans hsame⟩
    | done ret => exact ⟨_, rfl, k, hbefore, hpc⟩

end SimpleKernel.Mem
