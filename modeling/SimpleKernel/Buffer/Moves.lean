import SimpleKernel.Buffer.Runs

/-! What one step can do: it enters through its label and makes at most one more move, after a lookup with the
buffer, after a transfer with the next buffer of a loop. In between the thread might have blocked. -/
namespace SimpleKernel.Buffer
open LinkedList Transition

variable {τ β : Type}

def Label.thread : Label τ β → τ
  | .call t _ | .take t | .done t _ _ | .resume t => t

/-- The operations that look up a block. -/
def Op.lookup : Op β → Option (Caller × Blkno)
  | .get b => some (.fetch .get, b)
  | .alloc b => some (.fetch .alloc, b)
  | .invalidate b => some (.invalidate, b)
  | _ => none

/-- The pool with another `ioactive`. -/
@[simps] def Pool.setIoactive (p : Pool τ β) (v : Bool) : Pool τ β := { p with ioactive := v }

variable [DecidableEq τ] [Zero β]

/-- How a label enters a step. -/
inductive Entry : Label τ β → Sys τ β → Sys τ β → Prop
  | miss {s t op k b} : s.pc t = .idle → Op.lookup op = some (.fetch k, b) →
      s.pool.search b = none → Entry (.call t op) s (s.goto t s.pool (.retry k b))
  | absent {s t b} : s.pc t = .idle → s.pool.search b = none →
      Entry (.call t (.invalidate b)) s (s.finish t s.pool .nothing)
  | wait {s t op c b f} : s.pc t = .idle → Op.lookup op = some (c, b) →
      s.pool.search b = some f → s.pool.busy f = true →
      Entry (.call t op) s (s.goto t (s.pool.waitForBuffer t f) (.wait c f))
  | claim {s t op c b f} : s.pc t = .idle → Op.lookup op = some (c, b) →
      s.pool.search b = some f → s.pool.busy f = false →
      Entry (.call t op) s (s.goto t (s.pool.claim f) (.woken c f))
  | write {s t f d} : s.pc t = .idle → 0 < s.holds t f →
      Entry (.call t (.write f d)) s (s.finish t (s.pool.setData f d) .nothing)
  | markUpdated {s t f} : s.pc t = .idle →
      Entry (.call t (.markUpdated f)) s (s.finish t (s.pool.markBufferUpdated f) .nothing)
  | markInvalid {s t f} : s.pc t = .idle →
      Entry (.call t (.markInvalid f)) s (s.finish t (s.pool.markBufferInvalid f) .nothing)
  | release {s t f} : s.pc t = .idle → 0 < s.holds t f →
      Entry (.call t (.release f)) s ((s.finish t (s.pool.releaseBuffer f) .nothing).unhold t f)
  | setNosync {s t v} : s.pc t = .idle →
      Entry (.call t (.setNosync v)) s (s.finish t { s.pool with nosync := v } .nothing)
  | nosync {s t op i} : s.pc t = .idle → op = .flush i ∨ op = .sync i → s.pool.nosync = true →
      Entry (.call t op) s (s.finish t s.pool (.code 0))
  | flush {s t i} : s.pc t = .idle → s.pool.nosync = false →
      Entry (.call t (.flush i)) s (s.goto t (s.pool.setIoactive false) (.flushNext i))
  | sync {s t i} : s.pc t = .idle → s.pool.nosync = false → s.pool.sync.isSome = true →
      Entry (.call t (.sync i)) s (s.goto t s.pool (.syncUser i))
  | syncStart {s t i v} : s.pc t = .idle → s.pool.nosync = false → s.pool.sync = none →
      Entry (.call t (.sync i)) s (s.goto t (s.pool.setIoactive v) (.syncNext i 0))
  | take {s t s'} : s.take t = some s' → Entry (.take t) s s'
  | evictEnd {s t k b f taken rc d dev} : s.pc t = .evict k b f taken →
      s.written f taken rc d = some dev →
      Entry (.done t rc d) s ({ s with dev := dev }.evictFinish t k b f rc)
  | flushEnd {s t i f taken rc d dev} : s.pc t = .flushWrite i f taken →
      s.written f taken rc d = some dev → 0 ≤ rc →
      Entry (.done t rc d) s (({ s with dev := dev }.flushWritten f rc).goto t
        ({ s with dev := dev }.flushWritten f rc).pool (.flushNext i))
  | flushFail {s t i f taken rc d dev} : s.pc t = .flushWrite i f taken →
      s.written f taken rc d = some dev → rc < 0 →
      Entry (.done t rc d) s (({ s with dev := dev }.flushWritten f rc).finish t
        ({ s with dev := dev }.flushWritten f rc).pool (.code rc))
  | syncEnd {s t i f taken rc d dev} : s.pc t = .syncWrite i f taken →
      s.written f taken rc d = some dev → 0 ≤ rc →
      Entry (.done t rc d) s ({ s with dev := dev }.goto t
        ((s.pool.changeState f .locked).releaseBuffer f) (.syncNext i (f + 1)))
  | syncFail {s t i f taken rc d dev} : s.pc t = .syncWrite i f taken →
      s.written f taken rc d = some dev → rc < 0 →
      Entry (.done t rc d) s (({ s with dev := dev }.finish t s.pool (.code rc)).leak f)
  | readEnd {s t f rc d} : s.pc t = .read f →
      Entry (.done t rc d) s (s.readDone t f rc (s.fetched f rc d))
  | resume {s t} : (∃ c f, s.pc t = .woken c f) ∨ (∃ k b, s.pc t = .retry k b) ∨
      (∃ i, s.pc t = .flushNext i) ∨ (∃ i j, s.pc t = .syncNext i j) → Entry (.resume t) s s
  | syncUser {s t i g v} : s.pc t = .syncUser i → s.pool.sync = some g →
      Entry (.resume t) s
        ({ s with dev := g s.dev }.goto t (s.pool.setIoactive v) (.syncNext i 0))

/-- How a step may go on. -/
inductive Cont (t : τ) : Sys τ β → Sys τ β → Prop
  | afterLookup {s c f} : s.pc t = .woken c f → Cont t s (s.afterLookup t c s.pool f)
  | free {s k b f} : s.pc t = .retry k b → s.pool.freelist = some f →
      Cont t s (s.useNew t k b (s.pool.popFree f) f)
  | clean {s k b f} : s.pc t = .retry k b → s.pool.freelist = none →
      s.pool.clean.head = some f →
      Cont t s (s.useNew t k b ((s.pool.popClean f).removeFromHashtable f) f)
  | evict {s k b f} : s.pc t = .retry k b → s.pool.freelist = none → s.pool.clean.head = none →
      s.pool.dirty.head = some f →
      Cont t s (s.goto t (s.pool.writeBufferStart f false) (.evict k b f none))
  | flush {s i f} : s.pc t = .flushNext i → s.pool.dirty.head = some f →
      Cont t s (s.goto t (s.pool.writeBufferStart f true) (.flushWrite i f none))
  | flushReturn {s i rc} : s.pc t = .flushNext i →
      s.pool.dirty.head = none ∧ rc = 0 ∨ i = true ∧ rc = -EINTR →
      Cont t s (s.finish t s.pool (.code rc))
  | sync {s i j f} : s.pc t = .syncNext i j → s.pool.state f = .updated →
      (∀ g, j ≤ g → g < f → s.pool.state g ≠ .updated) →
      Cont t s (s.goto t (s.pool.lock f) (.syncWrite i f none))
  | syncReturn {s i j rc} : s.pc t = .syncNext i j →
      (∀ g, j ≤ g → g < s.pool.poolsize → s.pool.state g ≠ .updated) ∧ rc = 0 ∨
        i = true ∧ rc = -EINTR → Cont t s (s.finish t s.pool (.code rc))

/-- A step in its one or two moves, with the invariant in between. -/
def Moves [Fintype τ] (l : Label τ β) (s s' : Sys τ β) : Prop :=
  ∃ m, Entry l s m ∧ Inv m ∧ (m = s' ∨ Cont l.thread m s')

section Goto
variable {s : Sys τ β} {t : τ} {p q : Pool τ β} {x : Pc β}

theorem goto_useNew {k : Fetch} {b : Blkno} {f : BufId} :
    (s.goto t p x).useNew t k b q f = s.useNew t k b q f := by
  cases k <;> simp [Sys.useNew]

theorem goto_afterLookup {c : Caller} {f : BufId} :
    (s.goto t p x).afterLookup t c q f = s.afterLookup t c q f := by
  unfold Sys.afterLookup
  cases c with
  | fetch k => cases k <;> simp
  | invalidate => simp

end Goto

variable [Fintype τ] {s s' : Sys τ β} {t : τ}

theorem fetchNew_cont {k : Fetch} {b : Blkno} (h : Inv (s.goto t s.pool (.retry k b))) :
    s.goto t s.pool (.retry k b) = s.fetchNew t k b ∨
      Cont t (s.goto t s.pool (.retry k b)) (s.fetchNew t k b) := by
  have hpc : (s.goto t s.pool (.retry k b)).pc t = .retry k b := by simp
  unfold Sys.fetchNew Pool.getNewBuffer
  cases hfr : s.pool.freelist with
  | some f =>
    have := Cont.free hpc hfr
    rw [goto_useNew] at this
    exact Or.inr this
  | none =>
    cases hcl : s.pool.clean.head with
    | some f =>
      have := Cont.clean hpc hfr hcl
      rw [goto_useNew] at this
      exact Or.inr this
    | none =>
      cases hd : s.pool.dirty.head with
      | some f =>
        have hst : s.pool.state f = .dirty := (h.dirty_head hd).2
        have := Cont.evict hpc hfr hcl hd
        rw [goto_goto] at this
        simp only [hst]
        exact Or.inr this
      | none => exact Or.inl rfl

theorem flushLoop_cont {i : Bool} (h : Inv (s.goto t s.pool (.flushNext i))) :
    Cont t (s.goto t s.pool (.flushNext i)) (s.flushLoop t i) := by
  have hpc : (s.goto t s.pool (.flushNext i)).pc t = .flushNext i := by simp
  unfold Sys.flushLoop
  cases hd : s.pool.dirty.head with
  | none =>
    have := Cont.flushReturn hpc (Or.inl ⟨hd, rfl⟩)
    rwa [goto_finish] at this
  | some f =>
    have hst : s.pool.state f = .dirty := (h.dirty_head hd).2
    simp only [hst]
    split_ifs with hc
    · have := Cont.flushReturn hpc (Or.inr ⟨by simp_all, rfl⟩)
      rwa [goto_finish] at this
    · have := Cont.flush hpc hd
      rwa [goto_goto] at this

omit [DecidableEq τ] [Zero β] [Fintype τ] in
theorem nextUpdated_none {p : Pool τ β} {k i : ℕ} (h : p.nextUpdated k i = none) :
    ∀ g, i ≤ g → g < i + k → p.state g ≠ .updated := by
  induction k generalizing i with
  | zero =>
    intro g h1 h2
    omega
  | succ k ih =>
    unfold Pool.nextUpdated at h
    split_ifs at h with hst
    intro g h1 h2
    rcases Nat.eq_or_lt_of_le h1 with rfl | h1
    · exact hst
    · exact ih h g h1 (by omega)

omit [DecidableEq τ] [Zero β] [Fintype τ] in
theorem nextUpdated_first {p : Pool τ β} {k i f : ℕ} (h : p.nextUpdated k i = some f) :
    ∀ g, i ≤ g → g < f → p.state g ≠ .updated := by
  induction k generalizing i with
  | zero => simp [Pool.nextUpdated] at h
  | succ k ih =>
    unfold Pool.nextUpdated at h
    intro g h1 h2
    split_ifs at h with hst
    · cases h
      omega
    · rcases Nat.eq_or_lt_of_le h1 with rfl | h1
      · exact hst
      · exact ih h g h1 h2

omit [Fintype τ] in
theorem syncLoop_cont {i : Bool} {j : BufId} :
    Cont t (s.goto t s.pool (.syncNext i j)) (s.syncLoop t i j) := by
  have hpc : (s.goto t s.pool (.syncNext i j)).pc t = .syncNext i j := by simp
  unfold Sys.syncLoop
  cases hn : s.pool.nextUpdated (s.pool.poolsize - j) j with
  | none =>
    have hnone : ∀ g, j ≤ g → g < s.pool.poolsize → s.pool.state g ≠ .updated := by
      intro g h1 h2
      exact nextUpdated_none hn g h1 ((Nat.add_sub_cancel' (h1.trans h2.le)).symm ▸ h2)
    have := Cont.syncReturn hpc (Or.inl ⟨hnone, rfl⟩)
    rwa [goto_finish] at this
  | some f =>
    simp only
    split_ifs with hc
    · have := Cont.syncReturn hpc (Or.inr ⟨by simp_all, rfl⟩)
      rwa [goto_finish] at this
    · have := Cont.sync hpc (nextUpdated_some hn).1 (nextUpdated_first hn)
      rwa [goto_goto] at this

theorem syncStart_moves {i : Bool} (h : Inv (s.goto t s.pool .idle)) :
    ∃ v, Inv (s.goto t (s.pool.setIoactive v) (.syncNext i 0)) ∧
      Cont t (s.goto t (s.pool.setIoactive v) (.syncNext i 0)) (s.syncStart t i) := by
  have hinv (v : Bool) : Inv (s.goto t (s.pool.setIoactive v) (.syncNext i 0)) := by
    have h1 : Inv (s.goto t (s.pool.setIoactive v) .idle) :=
      h.silent (by constructor <;> rfl) rfl rfl rfl
    have := h1.goto_neutral (t := t) (by simpa using Pc.neutral_idle) (Pc.neutral_syncNext i 0)
    rwa [goto_goto] at this
  unfold Sys.syncStart
  split_ifs with hc
  · refine ⟨s.pool.ioactive, hinv _, ?_⟩
    have hpc : (s.goto t s.pool (.syncNext i 0)).pc t = .syncNext i 0 := by simp
    have hnone : ∀ g, 0 ≤ g → g < s.pool.poolsize → s.pool.state g ≠ .updated := by
      intro g _ hg hst
      have hcount := h.counts .updated
      simp only [Sys.goto_pool, hc] at hcount
      have := (Finset.sum_eq_zero_iff_of_nonneg fun f _ => by split_ifs <;> simp).mp hcount.symm g
        (Finset.mem_range.mpr hg)
      simp [hst] at this
    have := Cont.syncReturn hpc (Or.inl ⟨hnone, rfl⟩)
    rwa [goto_finish] at this
  · refine ⟨false, hinv _, ?_⟩
    exact syncLoop_cont (s := { s with pool := s.pool.setIoactive false })

theorem lookupBuffer_moves {op : Op β} {c : Caller} {b : Blkno} (h : Inv s) (ht : s.pc t = .idle)
    (hop : op.lookup = some (c, b)) :
    Moves (.call t op) s (s.lookupBuffer t c b) := by
  have hn : (s.pc t).Neutral := by rw [ht]; exact Pc.neutral_idle
  unfold Sys.lookupBuffer
  cases hs : s.pool.search b with
  | none =>
    cases c with
    | fetch k =>
      have hm := h.goto_neutral hn (Pc.neutral_retry k b)
      exact ⟨_, Entry.miss ht hop hs, hm, fetchNew_cont hm⟩
    | invalidate =>
      obtain rfl : op = .invalidate b := by cases op <;> simp_all [Op.lookup]
      exact ⟨_, Entry.absent ht hs, (h.goto_neutral hn Pc.neutral_idle).finish, Or.inl rfl⟩
  | some f =>
    obtain ⟨hf, hhash, -⟩ := h.shape.search_some hs
    simp only
    split_ifs with hb
    · exact ⟨_, Entry.wait ht hop hs hb, h.wait hn hb c, Or.inl rfl⟩
    · have hb := Bool.eq_false_of_not_eq_true hb
      have hfree : s.pool.state f ≠ .free := fun e => by simp [e, BufState.role, Role.hashed] at hhash
      refine ⟨_, Entry.claim ht hop hs hb, h.claim hn hf hfree hb c, Or.inr ?_⟩
      have hpc : (s.goto t (s.pool.claim f) (.woken c f)).pc t = .woken c f := by simp
      have := Cont.afterLookup hpc
      rwa [goto_afterLookup] at this

theorem call_moves {op : Op β} (h : Inv s) (hbd : s.Bounded) (ht : s.pc t = .idle)
    (hc : s.call t op = some s') : Moves (.call t op) s s' := by
  have hinv := call_inv h hbd ht hc
  have hidle : Inv (s.goto t s.pool .idle) := by rwa [goto_self _ ht]
  cases op with
  | get b | alloc b | invalidate b =>
    simp only [Sys.call, Option.some.injEq] at hc
    exact hc ▸ lookupBuffer_moves h ht rfl
  | write f d =>
    simp only [Sys.call, Option.ite_none_right_eq_some, Option.some.injEq] at hc
    obtain ⟨hh, rfl⟩ := hc
    exact ⟨_, Entry.write ht hh, hinv, Or.inl rfl⟩
  | markUpdated f =>
    simp only [Sys.call, Option.ite_none_right_eq_some, Option.some.injEq] at hc
    obtain ⟨-, rfl⟩ := hc
    exact ⟨_, Entry.markUpdated ht, hinv, Or.inl rfl⟩
  | markInvalid f =>
    simp only [Sys.call, Option.ite_none_right_eq_some, Option.some.injEq] at hc
    obtain ⟨-, rfl⟩ := hc
    exact ⟨_, Entry.markInvalid ht, hinv, Or.inl rfl⟩
  | release f =>
    simp only [Sys.call, Option.ite_none_right_eq_some, Option.some.injEq] at hc
    obtain ⟨hh, rfl⟩ := hc
    exact ⟨_, Entry.release ht hh, hinv, Or.inl rfl⟩
  | flush i =>
    simp only [Sys.call] at hc
    split_ifs at hc with hns
    · cases hc
      exact ⟨_, Entry.nosync ht (Or.inl rfl) hns, hinv, Or.inl rfl⟩
    · cases hc
      have hm : Inv (s.goto t (s.pool.setIoactive false) (.flushNext i)) := by
        have h1 : Inv (s.goto t (s.pool.setIoactive false) .idle) :=
          hidle.silent (by constructor <;> rfl) rfl rfl rfl
        have := h1.goto_neutral (t := t) (by simpa using Pc.neutral_idle) (Pc.neutral_flushNext i)
        rwa [goto_goto] at this
      exact ⟨_, Entry.flush ht (Bool.eq_false_of_not_eq_true hns), hm, Or.inr
        (flushLoop_cont (s := { s with pool := s.pool.setIoactive false }) hm)⟩
  | sync i =>
    simp only [Sys.call] at hc
    split_ifs at hc with hns hsy
    · cases hc
      exact ⟨_, Entry.nosync ht (Or.inr rfl) hns, hinv, Or.inl rfl⟩
    · cases hc
      exact ⟨_, Entry.sync ht (Bool.eq_false_of_not_eq_true hns) hsy, hinv, Or.inl rfl⟩
    · cases hc
      obtain ⟨v, hm, hcont⟩ := syncStart_moves hidle
      exact ⟨_, Entry.syncStart ht (Bool.eq_false_of_not_eq_true hns) (by simpa using hsy), hm,
        Or.inr hcont⟩
  | setNosync v =>
    simp only [Sys.call, Option.some.injEq] at hc
    subst hc
    exact ⟨_, Entry.setNosync ht, hinv, Or.inl rfl⟩

theorem done_moves {rc : ℤ} {d : β} (h : Inv s) (hbd : s.Bounded)
    (hd : s.done t rc d = some s') : Moves (.done t rc d) s s' := by
  have hinv := done_inv h hbd hd
  have hdev (dev : Dev β) : Inv { s with dev := dev } := h.silent (PoolEq.refl _) rfl rfl rfl
  cases hpc : s.pc t with
  | evict k b f taken =>
    simp only [Sys.done, hpc, Option.map_eq_some_iff] at hd
    obtain ⟨dev, hw, rfl⟩ := hd
    exact ⟨_, Entry.evictEnd hpc hw, hinv, Or.inl rfl⟩
  | flushWrite i f taken =>
    simp only [Sys.done, hpc, Option.map_eq_some_iff] at hd
    obtain ⟨dev, hw, rfl⟩ := hd
    by_cases hrc : rc < 0
    · refine ⟨_, Entry.flushFail hpc hw hrc, ?_, Or.inl ?_⟩
      · exact (flushWritten_inv (hdev dev) hbd hpc rc).finish
      · simp [Sys.flushDone, hrc]
    · have h1 := flushWritten_inv (hdev dev) hbd hpc rc
      have hm := h1.goto_neutral (t := t) (by simpa using Pc.neutral_idle) (Pc.neutral_flushNext i)
      rw [goto_goto] at hm
      refine ⟨_, Entry.flushEnd hpc hw (not_lt.mp hrc), hm, Or.inr ?_⟩
      simp only [Sys.flushDone, hrc]
      exact flushLoop_cont hm
  | syncWrite i f taken =>
    simp only [Sys.done, hpc, Option.map_eq_some_iff] at hd
    obtain ⟨dev, hw, rfl⟩ := hd
    by_cases hrc : rc < 0
    · refine ⟨_, Entry.syncFail hpc hw hrc, ?_, Or.inl ?_⟩
      · simpa [Sys.syncDone, hrc] using hinv
      · simp [Sys.syncDone, hrc]
    · have h1 := syncEnd_inv (hdev dev) hbd hpc
      have hm := h1.goto_neutral (t := t) (by simpa using Pc.neutral_idle)
        (Pc.neutral_syncNext i (f + 1))
      rw [goto_goto] at hm
      refine ⟨_, Entry.syncEnd hpc hw (not_lt.mp hrc), hm, Or.inr ?_⟩
      simp only [Sys.syncDone, hrc]
      exact syncLoop_cont (s := { s with
        dev := dev, pool := (s.pool.changeState f .locked).releaseBuffer f })
  | read f =>
    simp only [Sys.done, hpc, Option.some.injEq] at hd
    subst hd
    exact ⟨_, Entry.readEnd hpc, hinv, Or.inl rfl⟩
  | _ => simp [Sys.done, hpc] at hd

theorem resume_moves (h : Inv s) (hr : s.resume t = some s') : Moves (.resume t) s s' := by
  cases hpc : s.pc t with
  | woken c f =>
    simp only [Sys.resume, hpc, Option.some.injEq] at hr
    subst hr
    exact ⟨s, Entry.resume (by simp [hpc]), h, Or.inr (Cont.afterLookup hpc)⟩
  | retry k b =>
    simp only [Sys.resume, hpc, Option.some.injEq] at hr
    subst hr
    have hself := goto_self _ hpc
    have := fetchNew_cont (by rwa [hself])
    rw [hself] at this
    exact ⟨s, Entry.resume (by simp [hpc]), h, this⟩
  | flushNext i =>
    simp only [Sys.resume, hpc, Option.some.injEq] at hr
    subst hr
    have hself := goto_self _ hpc
    have := flushLoop_cont (by rwa [hself])
    rw [hself] at this
    exact ⟨s, Entry.resume (by simp [hpc]), h, Or.inr this⟩
  | syncNext i j =>
    simp only [Sys.resume, hpc, Option.some.injEq] at hr
    subst hr
    have := syncLoop_cont (s := s) (t := t) (i := i) (j := j)
    rw [goto_self _ hpc] at this
    exact ⟨s, Entry.resume (by simp [hpc]), h, Or.inr this⟩
  | syncUser i =>
    simp only [Sys.resume, hpc] at hr
    split at hr
    · rename_i g hg
      cases hr
      have h1 : Inv ({ s with dev := g s.dev }.goto t s.pool .idle) :=
        (h.goto_neutral (by rw [hpc]; exact Pc.neutral_syncUser i)
          Pc.neutral_idle).silent (PoolEq.refl _) rfl rfl rfl
      obtain ⟨v, hm, hcont⟩ := syncStart_moves h1
      exact ⟨_, Entry.syncUser hpc hg, hm, Or.inr hcont⟩
    · cases hr
  | _ => simp [Sys.resume, hpc] at hr

theorem step_moves {l : Label τ β} (h : Inv s) (hbd : s.Bounded) (hs : s.step l = some s') :
    Moves l s s' := by
  have hp := h.alive
  cases l with
  | call t op =>
    simp only [Sys.step] at hs
    split at hs
    · rename_i hpc
      exact call_moves h hbd hpc hs
    · cases hs
  | take t =>
    simp only [Sys.step, hp] at hs
    exact ⟨s', Entry.take hs, take_inv h hs, Or.inl rfl⟩
  | done t rc d =>
    simp only [Sys.step, hp] at hs
    exact done_moves h hbd hs
  | resume t =>
    simp only [Sys.step, hp] at hs
    exact resume_moves h hs

/-- A property holds throughout a run if the single moves keep it. `Q` is what an entry leaves to the move that
follows it. -/
theorem moves_invariant {P : Sys τ β → Prop} {Q : Label τ β → Sys τ β → Prop}
    {ok : Sys τ β → Label τ β → Prop}
    (hr : Reach Sys.step ok s s') (hbd : ∀ m l, ok m l → m.Bounded) (h : Inv s) (h0 : P s)
    (hentry : ∀ a l b, Inv a → Inv b → ok a l → P a → Entry l a b → P b ∧ Q l b)
    (hcont : ∀ l a b, Inv a → Inv b → P a → Q l a → Cont l.thread a b → P b) : P s' := by
  refine (hr.invariant (P := fun m => Inv m ∧ P m) ⟨h, h0⟩ fun a l b ha hok hl => ?_).2
  have hb := step_inv ha.1 (hbd a l hok) hl
  obtain ⟨m, he, hm, hc⟩ := step_moves ha.1 (hbd a l hok) hl
  obtain ⟨hpm, hqm⟩ := hentry a l m ha.1 hm hok ha.2 he
  rcases hc with rfl | hc
  · exact ⟨hb, hpm⟩
  · exact ⟨hb, hcont l m b hm hb hpm hqm hc⟩

end SimpleKernel.Buffer
