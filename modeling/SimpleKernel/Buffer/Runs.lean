import SimpleKernel.Buffer.Preservation

/-! Every label keeps the invariant, so it holds throughout every run from a fresh pool. -/
namespace SimpleKernel.Buffer
open LinkedList Transition

variable {τ β : Type} [DecidableEq τ] {s : Sys τ β} {t : τ} {f : BufId}

section Update
variable (s : Sys τ β) (t : τ) (p q : Pool τ β) (x y : Pc β)

@[simp] theorem goto_goto : (s.goto t p x).goto t q y = s.goto t q y := by
  simp [Sys.goto]

@[simp] theorem goto_finish (r : Ret) : (s.goto t p x).finish t q r = s.finish t q r := by
  simp [Sys.goto, Sys.finish]

@[simp] theorem goto_give : (s.goto t p x).give t q f = s.give t q f := by
  simp [Sys.goto, Sys.give]

variable {s t}

theorem goto_self (h : s.pc t = x) : s.goto t s.pool x = s := by
  subst h
  simp [Sys.goto]

end Update

section Give
variable {p : Pool τ β}

theorem turn_give (h : (s.pc t).About f) : Turn s (s.give t p f) t f :=
  ⟨fun u hu => by simp [hu], fun u hu => by simp [Sys.give, hu], fun g hg => by simp [hg],
    fun _ _ => rfl, h, by simpa using Pc.neutral_idle.about f⟩

theorem turn_finish {r : Ret} (h : (s.pc t).About f) : Turn s (s.finish t p r) t f :=
  ⟨fun u hu => by simp [hu], fun _ _ => rfl, fun _ _ => rfl, fun _ _ => rfl, h,
    by simpa using Pc.neutral_idle.about f⟩

variable [Fintype τ]

theorem give_refs : (s.give t p f).refs f + (s.pc t).refs f = s.refs f + 1 := by
  have := refs_change (f := f) s (s.give t p f) (t := t) (fun u hu => by simp [hu])
    (fun u hu => by simp [Sys.give, hu]) rfl
  simp only [Sys.give_holds, Sys.give_pc, Function.update_self, Pc.idle_refs] at this
  omega

theorem finish_refs {r : Ret} : (s.finish t p r).refs f + (s.pc t).refs f = s.refs f := by
  have := refs_change (f := f) s (s.finish t p r) (t := t) (fun u hu => by simp [hu])
    (fun _ _ => rfl) rfl
  simp only [Sys.finish_holds, Sys.finish_pc, Function.update_self, Pc.idle_refs] at this
  omega

theorem Inv.finish {r : Ret} (h : Inv (s.goto t p .idle)) : Inv (s.finish t p r) :=
  h.silent (PoolEq.refl _) rfl rfl rfl

theorem Inv.give {q : Pool τ β} {x : Pc β} (h : Inv (s.goto t p x)) (hx : x.About f)
    (h1 : x.refs f = 1) (h2 : x.reads f = 0) (h3 : x.writes f = 0) (h4 : ¬ x.waits f)
    (hq : PoolEq p q) : Inv (s.give t q f) := by
  have hturn : Turn (s.goto t p x) ((s.goto t p x).give t q f) t f := turn_give (by simpa using hx)
  rw [goto_give] at hturn
  refine h.transport hq fun g => ?_
  rcases eq_or_ne g f with rfl | hg
  · have hr := give_refs (s := s.goto t p x) (t := t) (p := q) (f := g)
    have hrd := readers_change (f := g) _ _ hturn.pc
    have hwr := writers_change (f := g) _ _ hturn.pc
    simp only [goto_give, Sys.goto_pc, Function.update_self, h2, h3, Sys.give_pc] at hr hrd hwr
    refine ⟨by omega, hrd, hwr, fun u => ?_⟩
    rcases eq_or_ne u t with rfl | hu
    · simp [h4]
    · simp [hu]
  · exact hturn.tally hg

end Give

section Loose
variable {τ β : Type} [Fintype τ] {s : Sys τ β} {f : BufId}

theorem Loose.close_active (h : Loose s f .active) (hr : (s.pool.state f).role = .active)
    (hb : s.pool.busy f = false) (hok : RefsOk (s.pool.state f) (s.refs f)) : Inv s := by
  have ht (g : BufId) := Tally.of_eq s s rfl rfl rfl g
  refine h.toAround.close_settled (fun g _ => ht g)
    ⟨rfl, rfl, rfl, fun _ _ => rfl, fun _ _ => rfl, fun _ _ => rfl⟩ (h.settled (ht f)) ?_ h.counts
    h.core.locks h.quiet hb hok
  rw [hr]
  exact h.shape

theorem Loose.removeFromHashtable (h : Loose s f .active) :
    Loose { s with pool := s.pool.removeFromHashtable f } f .hand := by
  have ht (g : BufId) :=
    Tally.of_eq s { s with pool := s.pool.removeFromHashtable f } rfl rfl rfl g
  refine h.toAround.move ⟨rfl, rfl, rfl, fun _ _ => rfl, fun _ _ => rfl, fun _ _ => rfl⟩
    (fun g _ => ht g) ?_ h.counts (h.core.congr (ht f) rfl rfl) h.quiet h.readers h.writers
  have := h.shape.removeFromHashtable h.inside (by simp)
  simpa using this

theorem Inv.popFree (h : Inv s) (hh : s.pool.freelist = some f) :
    Loose { s with pool := s.pool.popFree f } f .hand ∧ s.refs f = 0 := by
  obtain ⟨⟨hf, hst⟩, hs⟩ := h.shape.popFree hh
  have hst : s.pool.state f = .free := by
    cases hx : s.pool.state f <;> simp_all [BufState.role]
  have hl := h.loose hf (by simp [Pool.busy, hst])
  have ht (g : BufId) := Tally.of_eq s { s with pool := s.pool.popFree f } rfl rfl rfl g
  refine ⟨hl.toAround.move ⟨rfl, rfl, rfl, fun _ _ => rfl, fun _ _ => rfl, fun _ _ => rfl⟩
    (fun g _ => ht g) hs h.counts (hl.core.congr (ht f) rfl rfl) hl.quiet hl.readers hl.writers, ?_⟩
  have := (h.buf f).refs
  rwa [hst] at this

theorem Inv.popClean (h : Inv s) (hh : s.pool.clean.head = some f) :
    Loose { s with pool := (s.pool.popClean f).removeFromHashtable f } f .hand ∧ s.refs f = 0 := by
  obtain ⟨⟨hf, hst⟩, he⟩ := h.shape.popClean hh
  have hs := h.shape.removeFromClean hf hst
  have hst : s.pool.state f = .clean := by
    cases hx : s.pool.state f <;> simp_all [BufState.role]
  have hl := h.loose hf (by simp [Pool.busy, hst])
  have ht (g : BufId) := Tally.of_eq s { s with pool := s.pool.popClean f } rfl rfl rfl g
  rw [← he] at hs
  refine ⟨Loose.removeFromHashtable (s := { s with pool := s.pool.popClean f })
    (hl.toAround.move ⟨rfl, rfl, rfl, fun _ _ => rfl, fun _ _ => rfl, fun _ _ => rfl⟩
    (fun g _ => ht g) hs h.counts (hl.core.congr (ht f) rfl rfl) hl.quiet hl.readers hl.writers), ?_⟩
  have := (h.buf f).refs
  rwa [hst] at this

theorem Loose.flushClean (h : Loose s f .active) (hr : s.refs f = 0) :
    Inv { s with pool := (s.pool.changeState f .clean).appendClean f } := by
  have ht (g : BufId) :=
    Tally.of_eq s { s with pool := (s.pool.changeState f .clean).appendClean f } rfl rfl rfl g
  refine h.toAround.close_settled (fun g _ => ht g)
    ⟨rfl, rfl, rfl, by simp +contextual, fun _ _ => rfl, fun _ _ => rfl⟩ (h.settled (ht f)) ?_
    (h.counts.changeState h.inside .clean) ?_ h.quiet (by simp [Pool.busy]) ?_
  · have := (h.shape.changeState (f := f) .clean).appendClean h.inside (by simp)
    simpa [BufState.role] using this
  · exact h.core.locks
  · rw [(ht f).refs, hr]
    simp [RefsOk]

theorem Inv.free_head (h : Inv s) (hf : s.pool.freelist = some f) : s.pool.state f = .free := by
  have := (h.shape.popFree hf).1.2
  cases hx : s.pool.state f <;> simp_all [BufState.role]

theorem Inv.clean_head (h : Inv s) (hc : s.pool.clean.head = some f) : s.pool.state f = .clean := by
  have := (h.shape.popClean hc).1.2
  cases hx : s.pool.state f <;> simp_all [BufState.role]

theorem Inv.dirty_head (h : Inv s) (hd : s.pool.dirty.head = some f) :
    f < s.pool.poolsize ∧ s.pool.state f = .dirty := by
  obtain ⟨xs, h1, hm⟩ := h.shape.dirty
  obtain ⟨hf, hr⟩ := (hm f).mp (List.mem_of_head? (h1.head.symm.trans hd))
  cases hx : s.pool.state f <;> simp_all [BufState.role]

end Loose

variable [Fintype τ] [Zero β]

omit [Zero β] in
theorem releaseFinish_inv {p : Pool τ β} {x : Pc β} (h : Inv (s.goto t p x)) (hx : x.About f)
    (h1 : x.refs f = 1) (hbd : (s.goto t p x).refs f ≤ 2 ^ 16) (hb : p.busy f = false) (r : Ret) :
    Inv (s.finish t (p.releaseBuffer f) r) := by
  have hr := finish_refs (s := s.goto t p x) (t := t) (p := p.releaseBuffer f) (f := f) (r := r)
  have ht := turn_finish (s := s.goto t p x) (t := t) (p := p.releaseBuffer f) (f := f)
    (r := r) (by simpa using hx)
  simp only [goto_finish, Sys.goto_pc, Function.update_self, h1] at hr ht
  refine h.release ?_ ht rfl hr (by simpa using Pc.neutral_idle) hb
  omega

theorem afterLookup_inv {p : Pool τ β} {c : Caller} (h : Inv (s.goto t p (.woken c f)))
    (hbd : (s.goto t p (.woken c f)).refs f ≤ 2 ^ 16) (hb : p.busy f = false) :
    Inv (s.afterLookup t c p f) := by
  have habout : (Pc.woken c f : Pc β).About f := Pc.about_of_target (Or.inr rfl)
  have hone : (Pc.woken c f : Pc β).refs f = 1 := by simp [Pc.refs]
  unfold Sys.afterLookup
  cases c with
  | fetch k =>
    split_ifs with he
    · exact releaseFinish_inv h habout hone hbd hb _
    · cases k with
      | get =>
        exact h.give habout hone rfl rfl id (PoolEq.refl _)
      | alloc =>
        exact h.give habout hone rfl rfl id (by constructor <;> rfl)
  | invalidate =>
    have hi := h.markBufferInvalid f
    refine releaseFinish_inv (s := s) hi habout hone hbd ?_ _
    unfold Pool.markBufferInvalid
    split_ifs with hst
    · simp [Pool.busy]
    · exact hb

theorem useNew_inv {p : Pool τ β} (h : Loose (s.goto t p .idle) f .hand)
    (hr : (s.goto t p .idle).refs f = 0) (k : Fetch) (b : Blkno) :
    Inv (s.useNew t k b p f) := by
  have hsh := h.shape.bind h.inside (by simp) b
  have hlk := h.core.locks
  have habout : ((s.goto t p .idle).pc t).About f := by simpa using Pc.neutral_idle.about f
  rw [hr] at hlk
  rw [Function.update_idem] at hsh
  simp only [Sys.goto_pool] at hsh hlk
  cases k with
  | get =>
    have hturn := turn_goto (p := p.bindForRead f b)
      (x := .read f) habout (Pc.about_of_target (Or.inr rfl))
    have hrefs := goto_refs (s := s.goto t p .idle) (t := t) (f := f) (p := p.bindForRead f b)
      (x := .read f)
    have hrd := readers_change (f := f) _ _ hturn.pc
    have hwr := writers_change (f := f) _ _ hturn.pc
    rw [h.readers] at hrd
    rw [h.writers] at hwr
    simp only [goto_goto, hr, Sys.goto_pc, Function.update_self, Pc.refs, Pc.reads, Nat.add_zero] at hturn hrefs hrd hwr
    have hst : (p.bindForRead f b).state f = .reading := by
      simp [Pool.bindForRead, Pool.readBufferStart]
    show Inv (s.goto t (p.bindForRead f b) (.read f))
    have hmove : PoolMove p (p.bindForRead f b) f := by
      constructor <;> simp +contextual [Pool.bindForRead, Pool.readBufferStart, Pool.bind]
    refine h.toAround.close hmove (fun g hg => hturn.tally hg) ?_ ?_
      ⟨bufCore_of_quiet ?_ ?_ ?_, ?_, ?_, ?_, ?_⟩
    · simpa [hst, BufState.role] using ((hsh.lock).changeState .reading).congr_pool
        (by constructor <;> rfl)
    · exact (h.counts.changeState (p := (p.bind f b).lock f) h.inside .reading).congr_pool
        (by constructor <;> rfl)
    · rw [hrefs]
      simp [Pool.bindForRead, Pool.readBufferStart, Pool.bind, hlk]
    · exact h.quiet
    · exact hturn.not_waits h.not_waits (by simp [Pc.waits])
    · intro _
      exact h.quiet
    · rw [Sys.goto_pool, hst]
      exact hrd
    · rw [Sys.goto_pool, hst]
      exact hwr
    · rw [Sys.goto_pool, hst]
      exact hrefs
  | alloc =>
    have hturn := turn_give (p := p.bindForAlloc f b) habout
    have hrefs := give_refs (s := s.goto t p .idle) (t := t) (f := f) (p := p.bindForAlloc f b)
    have hset := hturn.settled h (by simp) (by simp) (by simp)
    simp only [goto_give, hr, Sys.goto_pc, Function.update_self, Pc.idle_refs, Nat.add_zero] at hturn hrefs hset
    have hst : (p.bindForAlloc f b).state f = .locked := by simp [Pool.bindForAlloc]
    show Inv (s.give t (p.bindForAlloc f b) f)
    have hmove : PoolMove p (p.bindForAlloc f b) f := by
      constructor <;> simp +contextual [Pool.bindForAlloc, Pool.bind]
    refine h.toAround.close_settled (fun g hg => hturn.tally hg) hmove hset ?_ ?_ ?_ h.quiet ?_ ?_
    · have := ((hsh.setData (f := f) 0).changeState (f := f) .locked).lock (f := f)
      rw [Sys.give_pool, hst]
      exact this
    · exact h.counts.changeState (p := (p.bind f b).setData f 0) h.inside .locked
    · rw [hrefs]
      simp [Pool.bindForAlloc, Pool.bind, hlk]
    · simp [Pool.busy, hst]
    · rw [hrefs, Sys.give_pool, hst]
      exact Nat.one_pos

theorem fetchNew_inv (h : Inv s) (ht : (s.pc t).Neutral) (k : Fetch) (b : Blkno) :
    Inv (s.fetchNew t k b) := by
  have hidle := h.goto_neutral ht Pc.neutral_idle
  unfold Sys.fetchNew Pool.getNewBuffer
  cases hfr : s.pool.freelist with
  | some f =>
    have hl := hidle.popFree hfr
    exact useNew_inv (s := s) hl.1 hl.2 k b
  | none =>
    cases hcl : s.pool.clean.head with
    | some f =>
      have hl := hidle.popClean hcl
      exact useNew_inv (s := s) hl.1 hl.2 k b
    | none =>
      cases hd : s.pool.dirty.head with
      | some f =>
        obtain ⟨hf, hst⟩ := h.dirty_head hd
        simp only [hst]
        exact h.startWrite ht hf hst (Pc.about_of_target (Or.inr rfl)) rfl rfl (by simp [Pc.writes])
          id false
      | none => exact h.goto_neutral ht (Pc.neutral_retry k b)

theorem lookupBuffer_inv (h : Inv s) (hbd : s.Bounded) (ht : s.pc t = .idle) (c : Caller)
    (b : Blkno) : Inv (s.lookupBuffer t c b) := by
  have hn : (s.pc t).Neutral := by rw [ht]; exact Pc.neutral_idle
  unfold Sys.lookupBuffer
  cases hs : s.pool.search b with
  | none =>
    cases c with
    | fetch k => exact fetchNew_inv h hn k b
    | invalidate => exact (h.goto_neutral hn Pc.neutral_idle).finish
  | some f =>
    obtain ⟨hf, hhash, -⟩ := h.shape.search_some hs
    simp only
    split_ifs with hb
    · exact h.wait hn hb c
    · have hb := Bool.eq_false_of_not_eq_true hb
      have hfree : s.pool.state f ≠ .free := fun e => by simp [e, BufState.role, Role.hashed] at hhash
      refine afterLookup_inv (h.claim hn hf hfree hb c) ?_ ?_
      · have := goto_refs (s := s) (t := t) (f := f) (p := s.pool.claim f) (x := .woken c f)
        have hlt := hbd f
        simp only [Pc.refs, ↓reduceIte] at this
        omega
      · have hst := (claim_spec h.shape h.counts hf hfree hb).2.2.2.2.2
        cases hx : s.pool.state f <;> simp_all [Pool.busy]

omit [DecidableEq τ] [Fintype τ] [Zero β] in
theorem transferFinish_state (p : Pool τ β) (f : BufId) (rc : ℤ) :
    (p.transferFinish f rc).state f = if rc = p.bufsize then .locked else .error := by
  simp [transferFinish_spec]

omit [DecidableEq τ] [Zero β] in
theorem Loose.close_transfer {m : Sys τ β} {p : Pool τ β} {rc : ℤ} (h : Loose m f .active)
    (hp : m.pool = p.transferFinish f rc) (hr : rc = p.bufsize → 0 < m.refs f) : Inv m := by
  have hst : m.pool.state f = if rc = p.bufsize then .locked else .error := by
    rw [hp, transferFinish_state]
  split_ifs at hst with hrc
  · exact h.close_active (by simp [hst, BufState.role]) (by simp [Pool.busy, hst])
      (by simpa [hst, RefsOk] using hr hrc)
  · exact h.close_active (by simp [hst, BufState.role]) (by simp [Pool.busy, hst])
      (by simp [hst, RefsOk])

theorem evictFinish_inv {k : Fetch} {b : Blkno} {taken : Option β} (h : Inv s) (hbd : s.Bounded)
    (hpc : s.pc t = .evict k b f taken) (rc : ℤ) : Inv (s.evictFinish t k b f rc) := by
  have htr := h.transfer (by rw [hpc]; exact Pc.about_of_target (Or.inr rfl))
    (by rw [hpc]; exact id) (by simp [hpc, Pc.reads, Pc.writes]) (Pc.neutral_idle.about f)
    (by simp [hpc, Pc.refs]) rfl rfl id rc
  obtain ⟨hl, hrefs⟩ := htr
  have hlt := hbd f
  have hlk := hl.core.locks
  unfold Sys.evictFinish
  dsimp only
  split_ifs with hc
  · have h0 : ((s.wake (s.pool.waiters f)).goto t (s.pool.transferFinish f rc) .idle).refs f = 0 := by
      rw [← ofNat_eq_zero (by omega), ← hlk]
      exact hc.2
    exact useNew_inv (s := s.wake (s.pool.waiters f)) hl.removeFromHashtable h0 k b
  · have hinv : Inv ((s.wake (s.pool.waiters f)).goto t (s.pool.transferFinish f rc) .idle) := by
      refine hl.close_transfer rfl fun hrc => ?_
      by_contra h0
      apply hc
      have hz : UInt16.ofNat _ = 0 := (ofNat_eq_zero (by omega)).mpr (Nat.eq_zero_of_not_pos h0)
      exact ⟨hrc ▸ h.size, hlk.trans hz⟩
    have := hinv.goto_neutral (t := t) (by simpa using Pc.neutral_idle)
      (Pc.neutral_retry k b)
    rwa [goto_goto] at this

section
omit [Zero β]

theorem flushWritten_inv {i : Bool} {taken : Option β} (h : Inv s) (hbd : s.Bounded)
    (hpc : s.pc t = .flushWrite i f taken) (rc : ℤ) :
    Inv ((s.flushWritten f rc).goto t (s.flushWritten f rc).pool .idle) := by
  have htr := h.transfer (t := t) (f := f) (x := .idle)
    (by rw [hpc]; exact Pc.about_of_target (Or.inr rfl)) (by rw [hpc]; exact id)
    (by simp [hpc, Pc.reads, Pc.writes]) (Pc.neutral_idle.about f) (by simp [hpc, Pc.refs]) rfl rfl
    id rc
  obtain ⟨hl, hrefs⟩ := htr
  have hlt := hbd f
  have hlk := hl.core.locks
  unfold Sys.flushWritten Pool.writeBufferFinish
  dsimp only
  split_ifs with hc
  · refine hl.close_transfer rfl fun hrc => ?_
    have := h.size
    omega
  · unfold Pool.flushFinish
    split_ifs with h0
    · refine hl.flushClean ?_
      rw [← ofNat_eq_zero (by omega), ← hlk]
      exact h0
    · refine hl.close_transfer rfl fun hrc => ?_
      by_contra hz
      apply h0
      have hz : UInt16.ofNat _ = 0 := (ofNat_eq_zero (by omega)).mpr (Nat.eq_zero_of_not_pos hz)
      exact hlk.trans hz

theorem flushLoop_inv (h : Inv (s.goto t s.pool .idle)) (i : Bool) : Inv (s.flushLoop t i) := by
  unfold Sys.flushLoop
  cases hd : s.pool.dirty.head with
  | none => exact h.finish
  | some f =>
    obtain ⟨hf, hst⟩ : f < s.pool.poolsize ∧ s.pool.state f = .dirty := h.dirty_head hd
    simp only [hst, ↓reduceIte]
    split_ifs with hc
    · exact h.finish
    · have := h.startWrite (t := t) (x := .flushWrite i f none) (by simpa using Pc.neutral_idle) hf
        hst (Pc.about_of_target (Or.inr rfl)) rfl rfl (by simp [Pc.writes]) id true
      rwa [goto_goto] at this

theorem flushDone_inv {i : Bool} {taken : Option β} (h : Inv s) (hbd : s.Bounded)
    (hpc : s.pc t = .flushWrite i f taken) (rc : ℤ) : Inv (s.flushDone t i f rc) := by
  have hw := flushWritten_inv h hbd hpc rc
  unfold Sys.flushDone
  dsimp only
  split_ifs
  · exact hw.finish
  · exact flushLoop_inv hw i

end

omit [DecidableEq τ] [Fintype τ] [Zero β] in
theorem nextUpdated_some {p : Pool τ β} {k i : ℕ} (h : p.nextUpdated k i = some f) :
    p.state f = .updated ∧ i ≤ f ∧ f < i + k := by
  induction k generalizing i with
  | zero => simp [Pool.nextUpdated] at h
  | succ k ih =>
    unfold Pool.nextUpdated at h
    split_ifs at h with hst
    · obtain rfl : i = f := by simpa using h
      exact ⟨hst, le_refl i, Nat.lt_add_of_pos_right k.succ_pos⟩
    · obtain ⟨h1, h2, h3⟩ := ih h
      exact ⟨h1, Nat.le_of_succ_le h2, by rwa [Nat.add_right_comm] at h3⟩

omit [Zero β] in
theorem syncLoop_inv (h : Inv (s.goto t s.pool .idle)) (i : Bool) (j : BufId) :
    Inv (s.syncLoop t i j) := by
  unfold Sys.syncLoop
  cases hn : s.pool.nextUpdated (s.pool.poolsize - j) j with
  | none => exact h.finish
  | some f =>
    simp only
    split_ifs with hc
    · exact h.finish
    · have := h.syncLock (t := t) (by simpa using Pc.neutral_idle) (nextUpdated_some hn).1 i
      rwa [goto_goto] at this

omit [Zero β] in
theorem syncStart_inv (h : Inv (s.goto t s.pool .idle)) (i : Bool) : Inv (s.syncStart t i) := by
  unfold Sys.syncStart
  split_ifs
  · exact h.finish
  · refine syncLoop_inv ?_ i 0
    exact h.silent (by constructor <;> rfl) rfl rfl rfl

omit [DecidableEq τ] [Zero β] in
theorem Inv.not_busy (h : Inv s) (hrd : (s.pc t).reads f = 0)
    (hpos : 0 < s.holds t f + (s.pc t).refs f) : s.pool.busy f = false := by
  have hle (u : τ) : (s.pc u).reads f ≤ s.holds u f + (s.pc u).refs f := by
    cases s.pc u <;> simp [Pc.reads, Pc.refs]
  have hlt : s.readers f < s.refs f := by
    have : s.readers f < ∑ u, (s.holds u f + (s.pc u).refs f) :=
      Finset.sum_lt_sum (fun u _ => hle u) ⟨t, Finset.mem_univ t, by omega⟩
    simp only [Sys.refs]
    omega
  have hok := (h.buf f).refs
  have hr := (h.buf f).readers
  cases hst : s.pool.state f <;> simp_all [Pool.busy, RefsOk]

omit [DecidableEq τ] [Zero β] in
theorem refs_pos (hpos : 0 < s.holds t f + (s.pc t).refs f) : 0 < s.refs f := by
  have : s.holds t f + (s.pc t).refs f ≤ ∑ u, (s.holds u f + (s.pc u).refs f) :=
    Finset.single_le_sum (f := fun u => s.holds u f + (s.pc u).refs f) (fun _ _ => Nat.zero_le _)
      (Finset.mem_univ t)
  simp only [Sys.refs]
  omega

section
omit [Zero β]

theorem leak_inv {i : Bool} {taken : Option β} (h : Inv s) (hpc : s.pc t = .syncWrite i f taken)
    (r : Ret) : Inv ((s.finish t s.pool r).leak f) := by
  refine h.transport (PoolEq.refl _) fun g => ?_
  have hr := finish_refs (s := s) (t := t) (p := s.pool) (f := g) (r := r)
  have hrd := readers_change (f := g) s (s.finish t s.pool r) (t := t) (fun u hu => by simp [hu])
  have hwr := writers_change (f := g) s (s.finish t s.pool r) (t := t) (fun u hu => by simp [hu])
  simp only [hpc, Pc.refs, Pc.reads, Pc.writes, Sys.finish_pc, Function.update_self,
    Nat.add_zero] at hr hrd hwr
  refine ⟨?_, hrd, hwr, fun u => ?_⟩
  · rw [← hr]
    rcases eq_or_ne g f with rfl | hg
    · simp [Sys.refs, add_assoc]
    · simp [Sys.refs, hg, hg.symm]
  · rcases eq_or_ne u t with rfl | hu
    · simp [hpc, Pc.waits]
    · simp [hu]

theorem syncEnd_inv {i : Bool} {taken : Option β} (h : Inv s) (hbd : s.Bounded)
    (hpc : s.pc t = .syncWrite i f taken) :
    Inv (s.goto t ((s.pool.changeState f .locked).releaseBuffer f) .idle) := by
  have hone : (s.pc t).refs f = 1 := by simp [hpc, Pc.refs]
  have hpos : 0 < s.refs f := refs_pos (t := t) (by omega)
  have hb : s.pool.busy f = false := h.not_busy (t := t) (by rw [hpc]; rfl) (by omega)
  have hset : Inv { s with pool := s.pool.changeState f .locked } := h.setState hpos hb (Or.inl rfl)
  have hlt := hbd f
  have hr := goto_refs (s := s) (t := t) (f := f)
    (p := (s.pool.changeState f .locked).releaseBuffer f) (x := .idle)
  rw [hone, Pc.idle_refs] at hr
  refine hset.release (t := t) (f := f) (by omega) ?_ rfl hr (by simpa using Pc.neutral_idle)
    (by simp [Pool.busy])
  exact turn_goto (s := { s with pool := s.pool.changeState f .locked })
    (by rw [hpc]; exact Pc.about_of_target (Or.inr rfl)) (Pc.neutral_idle.about f)

theorem syncDone_inv {i : Bool} {taken : Option β} (h : Inv s) (hbd : s.Bounded)
    (hpc : s.pc t = .syncWrite i f taken) (rc : ℤ) : Inv (s.syncDone t i f rc) := by
  unfold Sys.syncDone
  split_ifs with hrc
  · exact leak_inv h hpc _
  · exact syncLoop_inv (syncEnd_inv h hbd hpc) i (f + 1)

theorem release_inv (h : Inv s) (hbd : s.Bounded) (ht : s.pc t = .idle) (hpos : 0 < s.holds t f)
    (r : Ret) : Inv ((s.finish t (s.pool.releaseBuffer f) r).unhold t f) := by
  have hb : s.pool.busy f = false := h.not_busy (t := t) (by rw [ht]; rfl) (by omega)
  have hlt := hbd f
  have hr := refs_change (f := f) s ((s.finish t (s.pool.releaseBuffer f) r).unhold t f) (t := t)
    (fun u hu => by simp [hu]) (fun u hu => by simp [Sys.unhold, Sys.finish, hu]) rfl
  simp only [ht, Sys.unhold_pc, Sys.unhold_holds, Sys.finish_pc, Sys.finish_holds,
    Function.update_self, Pc.idle_refs, Nat.add_zero] at hr
  refine h.release (t := t) (f := f) (by omega) ?_ rfl (by omega) (by simpa using Pc.neutral_idle) hb
  refine ⟨fun u hu => by simp [hu], fun u hu => by simp [Sys.unhold, Sys.finish, hu],
    fun g hg => by simp [hg], fun _ _ => rfl, ?_, ?_⟩
  · rw [ht]
    exact Pc.neutral_idle.about f
  · simpa using Pc.neutral_idle.about f

end

theorem call_inv {s' : Sys τ β} {op : Op β} (h : Inv s) (hbd : s.Bounded) (ht : s.pc t = .idle)
    (hc : s.call t op = some s') : Inv s' := by
  have hn : (s.pc t).Neutral := by rw [ht]; exact Pc.neutral_idle
  have hidle := h.goto_neutral hn Pc.neutral_idle
  cases op with
  | get b | alloc b | invalidate b =>
    simp only [Sys.call, Option.some.injEq] at hc
    exact hc ▸ lookupBuffer_inv h hbd ht _ b
  | write f d =>
    simp only [Sys.call, Option.ite_none_right_eq_some, Option.some.injEq] at hc
    obtain ⟨-, rfl⟩ := hc
    exact hidle.silent (by constructor <;> rfl) rfl rfl rfl
  | markUpdated f =>
    simp only [Sys.call, Option.ite_none_right_eq_some, Option.some.injEq] at hc
    obtain ⟨-, rfl⟩ := hc
    exact (hidle.markBufferUpdated f).silent (PoolEq.refl _) rfl rfl rfl
  | markInvalid f =>
    simp only [Sys.call, Option.ite_none_right_eq_some, Option.some.injEq] at hc
    obtain ⟨-, rfl⟩ := hc
    exact (hidle.markBufferInvalid f).silent (PoolEq.refl _) rfl rfl rfl
  | release f =>
    simp only [Sys.call, Option.ite_none_right_eq_some, Option.some.injEq] at hc
    obtain ⟨hpos, rfl⟩ := hc
    exact release_inv h hbd ht hpos _
  | flush i =>
    simp only [Sys.call] at hc
    split_ifs at hc
    · cases hc
      exact hidle.finish
    · cases hc
      refine flushLoop_inv ?_ i
      exact hidle.silent (by constructor <;> rfl) rfl rfl rfl
  | sync i =>
    simp only [Sys.call] at hc
    split_ifs at hc
    · cases hc
      exact hidle.finish
    · cases hc
      exact h.goto_neutral hn (Pc.neutral_syncUser i)
    · cases hc
      exact syncStart_inv hidle i
  | setNosync v =>
    simp only [Sys.call, Option.some.injEq] at hc
    subst hc
    exact hidle.silent (by constructor <;> rfl) rfl rfl rfl

omit [Zero β] in
theorem take_inv {s' : Sys τ β} (h : Inv s) (ht : s.take t = some s') : Inv s' := by
  unfold Sys.take at ht
  split at ht
  · rename_i hpc
    cases ht
    exact h.goto_agree fun g => by rw [hpc]; exact ⟨rfl, rfl, rfl, Iff.rfl⟩
  · rename_i hpc
    cases ht
    exact h.goto_agree fun g => by rw [hpc]; exact ⟨rfl, rfl, rfl, Iff.rfl⟩
  · rename_i hpc
    cases ht
    exact h.goto_agree fun g => by rw [hpc]; exact ⟨rfl, rfl, rfl, Iff.rfl⟩
  · cases ht

omit [Zero β] in
theorem readDone_inv (h : Inv s) (hbd : s.Bounded) (hpc : s.pc t = .read f) (rc : ℤ) (v : β) :
    Inv (s.readDone t f rc v) := by
  have h1 : Inv { s with pool := s.pool.setData f v } :=
    h.silent (by constructor <;> rfl) rfl rfl rfl
  have hab : (Pc.woken (.fetch .get) f : Pc β).About f := Pc.about_of_target (Or.inr rfl)
  have hone : (Pc.woken (.fetch .get) f : Pc β).refs f = 1 := by simp [Pc.refs]
  obtain ⟨hl, hrefs⟩ := h1.transfer (t := t) (f := f) (x := .woken (.fetch .get) f)
    (by rw [hpc]; exact Pc.about_of_target (Or.inr rfl)) (by rw [hpc]; exact id)
    (by simp [hpc, Pc.reads, Pc.writes]) hab (by simp [hpc, Pc.refs]) rfl rfl id rc
  have hlt := hbd f
  have hpos : 0 < s.refs f := refs_pos (t := t) (by simp [hpc, Pc.refs])
  have hinv := hl.close_transfer rfl fun _ => hrefs ▸ Nat.add_pos_left hpos _
  have hbusy : (s.pool.readBufferFinish f rc v).busy f = false := by
    simp only [Pool.busy, Pool.readBufferFinish, transferFinish_state]
    split_ifs <;> simp
  unfold Sys.readDone
  dsimp only
  split_ifs
  · exact releaseFinish_inv (s := s.wake (s.pool.waiters f)) hinv hab hone
      (hrefs.trans_le hlt.le) hbusy _
  · exact Inv.give (s := s.wake (s.pool.waiters f)) hinv hab hone rfl rfl id (PoolEq.refl _)

theorem done_inv {s' : Sys τ β} {rc : ℤ} {d : β} (h : Inv s) (hbd : s.Bounded)
    (hd : s.done t rc d = some s') : Inv s' := by
  have hdev (dev : Dev β) : Inv { s with dev := dev } := h.silent (PoolEq.refl _) rfl rfl rfl
  cases hpc : s.pc t with
  | evict k b f taken =>
    simp only [Sys.done, hpc, Option.map_eq_some_iff] at hd
    obtain ⟨dev, -, rfl⟩ := hd
    exact evictFinish_inv (hdev dev) hbd hpc rc
  | flushWrite i f taken =>
    simp only [Sys.done, hpc, Option.map_eq_some_iff] at hd
    obtain ⟨dev, -, rfl⟩ := hd
    exact flushDone_inv (hdev dev) hbd hpc rc
  | syncWrite i f taken =>
    simp only [Sys.done, hpc, Option.map_eq_some_iff] at hd
    obtain ⟨dev, -, rfl⟩ := hd
    exact syncDone_inv (hdev dev) hbd hpc rc
  | read f =>
    simp only [Sys.done, hpc, Option.some.injEq] at hd
    exact hd ▸ readDone_inv h hbd hpc rc _
  | _ => simp [Sys.done, hpc] at hd

theorem resume_inv {s' : Sys τ β} (h : Inv s) (hbd : s.Bounded) (hr : s.resume t = some s') :
    Inv s' := by
  cases hpc : s.pc t with
  | woken c f =>
    simp only [Sys.resume, hpc, Option.some.injEq] at hr
    subst hr
    have hself : s.goto t s.pool (.woken c f) = s := goto_self _ hpc
    refine afterLookup_inv (by rwa [hself]) ?_ (h.not_busy (t := t) ?_ ?_)
    · rw [hself]
      have := hbd f
      omega
    · rw [hpc]
      rfl
    · simp [hpc, Pc.refs]
  | retry k b =>
    simp only [Sys.resume, hpc, Option.some.injEq] at hr
    subst hr
    exact fetchNew_inv h (by rw [hpc]; exact Pc.neutral_retry k b) k b
  | flushNext i =>
    simp only [Sys.resume, hpc, Option.some.injEq] at hr
    subst hr
    exact flushLoop_inv (h.goto_neutral (by rw [hpc]; exact Pc.neutral_flushNext i)
      Pc.neutral_idle) i
  | syncNext i j =>
    simp only [Sys.resume, hpc, Option.some.injEq] at hr
    subst hr
    exact syncLoop_inv (h.goto_neutral (by rw [hpc]; exact Pc.neutral_syncNext i j)
      Pc.neutral_idle) i j
  | syncUser i =>
    simp only [Sys.resume, hpc] at hr
    split at hr
    · cases hr
      refine syncStart_inv ?_ i
      exact (h.goto_neutral (by rw [hpc]; exact Pc.neutral_syncUser i)
        Pc.neutral_idle).silent (PoolEq.refl _) rfl rfl rfl
    · cases hr
  | _ => simp [Sys.resume, hpc] at hr

theorem step_inv {s' : Sys τ β} {l : Label τ β} (h : Inv s) (hbd : s.Bounded)
    (hs : s.step l = some s') : Inv s' := by
  have hp := h.alive
  cases l with
  | call t op =>
    simp only [Sys.step] at hs
    split at hs
    · rename_i hpc
      exact call_inv h hbd hpc hs
    · cases hs
  | take t =>
    simp only [Sys.step, hp] at hs
    exact take_inv h hs
  | done t rc d =>
    simp only [Sys.step, hp] at hs
    exact done_inv h hbd hs
  | resume t =>
    simp only [Sys.step, hp] at hs
    exact resume_inv h hbd hs

section Facts

section
omit [DecidableEq τ] [Zero β]

theorem Inv.writing (h : Inv s) (hw : (s.pc t).writes f = 1) : s.pool.state f = .writing := by
  have h1 := (h.buf f).writers
  have h2 : (s.pc t).writes f ≤ s.writers f :=
    Finset.single_le_sum (f := fun u => (s.pc u).writes f) (fun _ _ => Nat.zero_le _)
      (Finset.mem_univ t)
  by_contra hc
  rw [if_neg hc] at h1
  omega

theorem Inv.reading (h : Inv s) (hr : (s.pc t).reads f = 1) : s.pool.state f = .reading := by
  have h1 := (h.buf f).readers
  have h2 : (s.pc t).reads f ≤ s.readers f :=
    Finset.single_le_sum (f := fun u => (s.pc u).reads f) (fun _ _ => Nat.zero_le _)
      (Finset.mem_univ t)
  by_contra hc
  rw [if_neg hc] at h1
  omega

theorem Inv.in_use (h : Inv s) (hpos : 0 < s.refs f) :
    s.pool.state f ≠ .free ∧ s.pool.state f ≠ .clean ∧ s.pool.state f ≠ .dirty ∧
      s.pool.state f ≠ .writing := by
  have hok := (h.buf f).refs
  cases hst : s.pool.state f <;> simp_all [RefsOk]

end

omit [Fintype τ] [Zero β] in
theorem flushWritten_goto {rc : ℤ} {q : Pool τ β} {x : Pc β} :
    (s.flushWritten f rc).goto t q x = (s.wake (s.pool.waiters f)).goto t q x := by
  unfold Sys.flushWritten
  dsimp only
  split_ifs <;> rfl

omit [Fintype τ] [Zero β] in
theorem flushWritten_finish {rc : ℤ} {q : Pool τ β} {r : Ret} :
    (s.flushWritten f rc).finish t q r = (s.wake (s.pool.waiters f)).finish t q r := by
  unfold Sys.flushWritten
  dsimp only
  split_ifs <;> rfl

end Facts

section Init
variable {poolsize bufsize blksize : ℕ} {sync : Option (Dev β → Dev β)} {dev : Dev β}

omit [DecidableEq τ] in
theorem init_inv (hp : 0 < poolsize) : Inv (initSys τ poolsize bufsize blksize sync dev) where
  shape := Shape.init hp
  counts st := by
    show (if st = .free then (poolsize : ℤ) else 0) =
      ∑ _f ∈ Finset.range poolsize, if BufState.free = st then 1 else 0
    by_cases hst : st = .free
    · simp [hst]
    · simp [hst, Ne.symm hst]
  alive := rfl
  size := Int.natCast_nonneg _
  range _ _ := rfl
  buf f :=
    { toBufCore := bufCore_of_quiet (by simp [initSys, initBufferPool, Sys.refs]) rfl fun _ => id
      quiet := fun _ => rfl
      readers := by simp [initSys, initBufferPool, Sys.readers]
      writers := by simp [initSys, initBufferPool, Sys.writers]
      refs := by simp [initSys, initBufferPool, Sys.refs, RefsOk] }

omit [DecidableEq τ] in
theorem init_bounded : (initSys τ poolsize bufsize blksize sync dev).Bounded := by
  intro f
  simp [initSys, initBufferPool, Sys.refs]

omit [Zero β] in
theorem bounded_unit {s : Sys Unit β} (h1 : ∀ f, s.holds () f ≤ 1) (h2 : ∀ f, s.leaked f = 0)
    (h3 : ∀ f, s.pool.waiters f = []) : s.Bounded := by
  intro f
  have hpc : (s.pc ()).refs f ≤ 1 := by
    cases s.pc () <;> simp [Pc.refs] <;> split_ifs <;> simp
  have := h1 f
  simp only [Sys.refs, Finset.univ_unique, Finset.sum_singleton, h2, h3, List.length_nil]
  show s.holds () f + (s.pc ()).refs f + 0 + 0 < 2 ^ 16
  omega

theorem reach_inv {s : Sys τ β} (hp : 0 < poolsize)
    (h : Reach Sys.step (fun m _ => m.Bounded) (initSys τ poolsize bufsize blksize sync dev) s) :
    Inv s :=
  h.invariant (init_inv hp) fun _ _ _ hm hok hl => step_inv hm hok hl

end Init

end SimpleKernel.Buffer
