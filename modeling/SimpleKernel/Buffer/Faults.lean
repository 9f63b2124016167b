import SimpleKernel.Buffer.Sequential

/-! The pool under transfer errors. As long as writes succeed and reads do not stop short, no
buffer is orphaned, failed calls leave the locks alone, and unsaved data stay in the cache. -/
namespace SimpleKernel.Buffer
open LinkedList Transition

variable {β : Type}

/-- Every buffer without locks is on one list, the one that its state names. -/
def Pool.ListedOnce (p : Pool Unit β) : Prop :=
  ∃ fs cs ds, IsStack p.chain p.freelist fs ∧ IsList p.chain p.clean cs ∧
    IsList p.chain p.dirty ds ∧ ∀ f < p.poolsize, p.locks f = 0 →
      p.state f = .free ∧ f ∈ fs ∧ f ∉ cs ∧ f ∉ ds ∨
      p.state f = .clean ∧ f ∉ fs ∧ f ∈ cs ∧ f ∉ ds ∨
      p.state f = .dirty ∧ f ∉ fs ∧ f ∉ cs ∧ f ∈ ds

/-- The data of a buffer in this state are not in the device yet. -/
def BufState.unsaved : BufState → Bool
  | .dirty | .updated | .writing => true
  | _ => false

/-- A buffer with unsaved data that becomes valid or is used for another block in one step
was written to the device by it. -/
def Saved (s s' : Sys Unit β) : Prop :=
  ∀ f, (s.pool.state f).unsaved = true →
    s'.pool.state f = .clean ∨ s'.pool.state f = .locked ∨ s'.pool.blkno f ≠ s.pool.blkno f →
    s'.dev (s.pool.addr f) = s.pool.data f

/-- A read whose buffer is returned was complete. -/
def ReadComplete (s : Sys Unit β) (l : Label Unit β) (s' : Sys Unit β) : Prop :=
  ∀ f rc d, l = .done () rc d → s.pc () = .read f → s'.ret () = .buf (some f) →
    rc = s.pool.bufsize ∧ s'.pool.data f = s.dev (s.pool.addr f)

section Saved
variable [Zero β] {s s' m : Sys Unit β} {f : BufId}

omit [Zero β] in
theorem settled_unsaved {st : BufState} (h : st.unsaved = true) : st.settled.unsaved = true := by
  cases st <;> simp_all [BufState.unsaved, BufState.settled]

omit [Zero β] in
theorem release_unsaved {p : Pool Unit β} {g : BufId} (h : (p.state f).unsaved = true) :
    ((p.releaseBuffer g).state f).unsaved = true := by
  rw [releaseBuffer_state]
  rcases eq_or_ne f g with rfl | hg
  · rw [Function.update_self]
    split_ifs
    · exact settled_unsaved h
    · exact h
  · rwa [Function.update_of_ne hg]

/-- What a move makes of a buffer with unsaved data: it keeps them, or it was marked invalid,
or they are in the device now. -/
def Fate (s m : Sys Unit β) (f : BufId) : Prop :=
  (m.pool.state f).unsaved = true ∧ m.pool.blkno f = s.pool.blkno f ∨
  m.pc () = .idle ∧ m.pool.state f = .invalid ∧ m.pool.blkno f = s.pool.blkno f ∨
  m.dev (s.pool.addr f) = s.pool.data f

theorem evictFinish_fate {k : Fetch} {b : Blkno} {g : BufId} {rc : ℤ} {dev : Dev β}
    (hd : dev (s.pool.addr g) = s.pool.data g) (hf : (s.pool.state f).unsaved = true) :
    Fate s ({ s with dev := dev }.evictFinish () k b g rc) f := by
  rcases eq_or_ne f g with rfl | hg
  · refine Or.inr (Or.inr ?_)
    rw [evictFinish_dev]
    exact hd
  · refine Or.inl ?_
    have hst : (s.pool.transferFinish g rc).state f = s.pool.state f := by
      simp [transferFinish_states, hg]
    have hb : (s.pool.transferFinish g rc).blkno f = s.pool.blkno f := by simp
    unfold Sys.evictFinish
    dsimp only
    split_ifs
    · rw [(useNew_data k b hg).2, useNew_blkno k b hg]
      exact ⟨hst ▸ hf, hb⟩
    · exact ⟨hst ▸ hf, hb⟩

theorem entry_fate {l : Label Unit β} (h : Solo s) (hso : s.Sound l) (he : Entry l s m)
    (hf : (s.pool.state f).unsaved = true) : Fate s m f := by
  have hfull {rc : ℤ} {d : β} (hs : s.Sound (.done () rc d)) (hn : ∀ f, s.pc () ≠ .read f) :
      rc = s.pool.bufsize := hs.resolve_right fun ⟨_, f, hf⟩ => hn f hf
  cases he with
  | miss | absent | wait | write | setNosync | nosync | flush | sync | syncStart | resume | syncUser =>
    exact Or.inl ⟨hf, rfl⟩
  | @claim _ _ op c b g hpc hop hs hb =>
    refine Or.inl ⟨?_, by simp⟩
    rw [Sys.goto_pool, claim_state]
    rcases eq_or_ne f g with rfl | hg
    · cases hst : s.pool.state f <;> simp_all [BufState.unsaved, BufState.claimed]
    · rwa [Function.update_of_ne hg]
  | @markUpdated _ _ g hpc =>
    refine Or.inl ⟨?_, by simp⟩
    rw [Sys.finish_pool, markBufferUpdated_state]
    rcases eq_or_ne f g with rfl | hg
    · rw [Function.update_self]
      split_ifs
      · rfl
      · exact hf
    · rwa [Function.update_of_ne hg]
  | @markInvalid _ _ g hpc =>
    rcases eq_or_ne f g with rfl | hg
    · by_cases hst : s.pool.state f = .locked ∨ s.pool.state f = .updated
      · exact Or.inr (Or.inl ⟨rfl, by simp [markBufferInvalid_state, hst], by simp⟩)
      · exact Or.inl ⟨by simpa [markBufferInvalid_state, hst] using hf, by simp⟩
    · exact Or.inl ⟨by simpa [markBufferInvalid_state, hg] using hf, by simp⟩
  | release hpc hh => exact Or.inl ⟨release_unsaved hf, by simp⟩
  | take ht =>
    unfold Sys.take at ht
    split at ht <;> cases ht <;> exact Or.inl ⟨hf, rfl⟩
  | @evictEnd _ _ k b g taken rc d dev hpc hw =>
    have hrc := hfull hso fun g hg => by rw [show s.pc () = _ from hpc] at hg; cases hg
    exact evictFinish_fate (h.fresh.stored
      (fun v hv => by rw [show s.pc () = _ from hpc, hv]; exact ⟨rfl, rfl⟩) hrc hw) hf
  | @flushEnd _ _ i g taken rc d dev hpc hw _ =>
    have hrc := hfull hso fun g hg => by rw [show s.pc () = _ from hpc] at hg; cases hg
    rcases eq_or_ne f g with rfl | hg
    · refine Or.inr (Or.inr ?_)
      rw [Sys.goto_dev, flushWritten_dev]
      exact h.fresh.stored
        (fun v hv => by rw [show s.pc () = _ from hpc, hv]; exact ⟨rfl, rfl⟩) hrc hw
    · obtain ⟨st, hst, -, -⟩ := flushWritten_state g { s with dev := dev } rc
      refine Or.inl ⟨?_, by simp⟩
      rw [Sys.goto_pool, hst, Function.update_of_ne hg]
      exact hf
  | @flushFail _ _ i g taken rc d dev hpc hw hneg =>
    have hrc := hfull hso fun g hg => by rw [show s.pc () = _ from hpc] at hg; cases hg
    have := h.inv.size
    omega
  | @syncEnd _ _ i g taken rc d dev hpc hw _ =>
    have hrc := hfull hso fun g hg => by rw [show s.pc () = _ from hpc] at hg; cases hg
    rcases eq_or_ne f g with rfl | hg
    · exact Or.inr (Or.inr (h.fresh.stored
        (fun v hv => by rw [show s.pc () = _ from hpc, hv]; exact ⟨rfl, rfl⟩) hrc hw))
    · refine Or.inl ⟨release_unsaved ?_, by simp⟩
      simpa [hg] using hf
  | @syncFail _ _ i g taken rc d dev hpc hw hneg =>
    have hrc := hfull hso fun g hg => by rw [show s.pc () = _ from hpc] at hg; cases hg
    have := h.inv.size
    omega
  | @readEnd _ _ g rc d hpc =>
    have hst := h.inv.reading (t := ()) (f := g) (by simp [show s.pc () = _ from hpc, Pc.reads])
    have hg : f ≠ g := by
      rintro rfl
      simp [hst, BufState.unsaved] at hf
    have hfin : ((s.pool.readBufferFinish g rc (s.fetched g rc d)).state f).unsaved = true ∧
        (s.pool.readBufferFinish g rc (s.fetched g rc d)).blkno f = s.pool.blkno f := by
      simpa [Pool.readBufferFinish, transferFinish_states, hg] using hf
    refine Or.inl ?_
    unfold Sys.readDone
    split_ifs
    · exact ⟨release_unsaved hfin.1, by simpa using hfin.2⟩
    · exact hfin

theorem cont_unsaved (h : Solo m) (hc : Cont () m s') (hf : (m.pool.state f).unsaved = true) :
    s'.pool.blkno f = m.pool.blkno f ∧
      ((s'.pool.state f).unsaved = true ∨ s'.pool.state f = .invalid ∨ s'.pool.state f = .free) := by
  have hnew {k : Fetch} {b : Blkno} {g : BufId} {p : Pool Unit β} (hg : f ≠ g)
      (hb : p.blkno = m.pool.blkno) (hst : p.state = m.pool.state) :
      (m.useNew () k b p g).pool.blkno f = m.pool.blkno f ∧
        ((m.useNew () k b p g).pool.state f).unsaved = true := by
    rw [useNew_blkno k b hg, (useNew_data k b hg).2, hb, hst]
    exact ⟨rfl, hf⟩
  cases hc with
  | @afterLookup c g hpc =>
    unfold Sys.afterLookup
    split
    · split_ifs
      · exact ⟨by simp, Or.inl (release_unsaved hf)⟩
      · split <;> exact ⟨rfl, Or.inl hf⟩
    · rw [Sys.finish_pool, releaseBuffer_state, markBufferInvalid_state]
      rcases eq_or_ne f g with rfl | hg
      · simp only [Function.update_self]
        cases hst : m.pool.state f <;> split_ifs <;> simp_all [BufState.unsaved, BufState.settled]
      · simp [hg, hf]
  | @free k b g hpc hfr =>
    have hst := h.inv.free_head hfr
    have := hnew (k := k) (b := b) (g := g) (p := m.pool.popFree g) (by
      rintro rfl
      simp [hst, BufState.unsaved] at hf) rfl rfl
    exact ⟨this.1, Or.inl this.2⟩
  | @clean k b g hpc hfr hcl =>
    have hst := h.inv.clean_head hcl
    have := hnew (k := k) (b := b) (g := g) (p := (m.pool.popClean g).removeFromHashtable g) (by
      rintro rfl
      simp [hst, BufState.unsaved] at hf) rfl rfl
    exact ⟨this.1, Or.inl this.2⟩
  | @evict k b g hpc hfr hcl hd | @flush i g hpc hd =>
    refine ⟨by simp, Or.inl ?_⟩
    rcases eq_or_ne f g with rfl | hg
    · simp [BufState.unsaved]
    · simpa [hg] using hf
  | flushReturn hpc hr => exact ⟨rfl, Or.inl hf⟩
  | sync hpc hst hfirst => exact ⟨rfl, Or.inl hf⟩
  | syncReturn hpc hr => exact ⟨rfl, Or.inl hf⟩

theorem cont_not_idle (hc : Cont () m s') : m.pc () ≠ .idle := by
  intro hi
  cases hc <;> simp_all

theorem step_saved {l : Label Unit β} (h : Solo s) (hbd : s.Bounded) (hso : s.Sound l)
    (hs : s.step l = some s') : Saved s s' := by
  intro f hf hchange
  obtain ⟨-, m, hm, he, hc⟩ := h.step hbd hso hs
  have hdev : s'.dev = m.dev := by
    rcases hc with rfl | hc
    · rfl
    · exact cont_dev hc
  rcases entry_fate h hso he hf with ⟨h1, h2⟩ | ⟨h1, h2, h3⟩ | h1
  · rcases hc with rfl | hc
    · rcases hchange with hx | hx | hx <;> simp_all [BufState.unsaved]
    · obtain ⟨h3, h4⟩ := cont_unsaved hm hc h1
      rcases hchange with hx | hx | hx <;> rcases h4 with h4 | h4 | h4 <;>
        simp_all [BufState.unsaved]
  · exfalso
    rcases hc with rfl | hc
    · rw [h3] at hchange
      simp [h2] at hchange
    · exact cont_not_idle hc h1
  · rw [hdev]
    exact h1

theorem step_readComplete {l : Label Unit β} (hso : s.Sound l) (hs : s.step l = some s') :
    ReadComplete s l s' := by
  rintro f rc d rfl hpc hret
  simp only [Sys.step] at hs
  split_ifs at hs
  simp only [Sys.done, hpc, Option.some.injEq] at hs
  subst hs
  by_cases h0 : rc < 0
  · simp [Sys.readDone, h0] at hret
  · have hrc : rc = s.pool.bufsize := hso.resolve_right fun h => h0 h.1
    refine ⟨hrc, ?_⟩
    simp only [Sys.readDone, h0, Sys.fetched, if_pos hrc]
    simp [Pool.readBufferFinish]

end Saved

/-- The last call failed. -/
def Sys.Failed (s : Sys Unit β) : Prop :=
  s.ret () = .buf none ∨ ∃ rc, rc < 0 ∧ s.ret () = .code rc

section Locks
variable [Zero β] {s s' m : Sys Unit β} {l : Label Unit β}

omit [Zero β] in
theorem give_not_failed (p : Pool Unit β) (f : BufId) : ¬ (s.give () p f).Failed := by
  rintro (h | ⟨rc, -, h⟩) <;> simp at h

theorem useNew_holds (k : Fetch) (b : Blkno) (p : Pool Unit β) (f : BufId) :
    (s.useNew () k b p f).holds = s.holds ∨
      (s.useNew () k b p f).pc () = .idle ∧ ¬ (s.useNew () k b p f).Failed := by
  cases k with
  | get => exact Or.inl rfl
  | alloc => exact Or.inr ⟨by simp [Sys.useNew], give_not_failed _ f⟩

theorem entry_holds (he : Entry l s m) : m.holds = s.holds ∨ m.pc () = .idle ∧ ¬ m.Failed := by
  cases he with
  | release hpc hh =>
    refine Or.inr ⟨rfl, ?_⟩
    rintro (h | ⟨rc, -, h⟩) <;> simp at h
  | take ht =>
    unfold Sys.take at ht
    split at ht <;> cases ht <;> exact Or.inl rfl
  | @evictEnd _ _ k b f taken rc d dev hpc hw =>
    unfold Sys.evictFinish
    dsimp only
    split_ifs
    · exact useNew_holds k b _ f
    · exact Or.inl rfl
  | flushEnd hpc hw hrc =>
    rw [flushWritten_goto]
    exact Or.inl rfl
  | flushFail hpc hw hrc =>
    rw [flushWritten_finish]
    exact Or.inl rfl
  | @readEnd _ _ f rc d hpc =>
    unfold Sys.readDone
    split_ifs
    · exact Or.inl rfl
    · exact Or.inr ⟨by simp, give_not_failed _ f⟩
  | _ => exact Or.inl rfl

theorem cont_holds (hc : Cont () m s') : s'.holds = m.holds ∨ s'.pc () = .idle ∧ ¬ s'.Failed := by
  cases hc with
  | @afterLookup c f hpc =>
    unfold Sys.afterLookup
    split
    · split_ifs
      · exact Or.inl rfl
      · split <;> exact Or.inr ⟨by simp, give_not_failed _ f⟩
    · exact Or.inl rfl
  | @free k b f hpc hf => exact useNew_holds k b _ f
  | @clean k b f hpc hf hcl => exact useNew_holds k b _ f
  | _ => exact Or.inl rfl

theorem step_holds (h : Solo s) (hbd : s.Bounded) (hso : s.Sound l) (hs : s.step l = some s') :
    s'.holds = s.holds ∨ s'.pc () = .idle ∧ ¬ s'.Failed := by
  obtain ⟨-, m, -, he, hc⟩ := h.step hbd hso hs
  rcases hc with rfl | hc
  · exact entry_holds he
  · rcases entry_holds he with h1 | h1
    · rcases cont_holds hc with h2 | h2
      · exact Or.inl (h2.trans h1)
      · exact Or.inr h2
    · exact absurd h1.1 (cont_not_idle hc)

omit [Zero β] in
theorem Solo.locks (h : Solo s) (hpc : s.pc () = .idle) (f : BufId) :
    s.pool.locks f = UInt16.ofNat (s.holds () f) := by
  rw [(h.inv.buf f).locks, (h.inv.idle hpc f).2, h.alone.leaked]
  simp

theorem exec_failed {op : Op β} (h : Solo s) (hpc : s.pc () = .idle)
    (he : Exec (fun m l => m.Bounded ∧ m.Sound l) op s s') (hf : s'.Failed) :
    s'.pool.locks = s.pool.locks := by
  obtain ⟨m, hok, hs, hr, hidle⟩ := he
  have hm := (h.step hok.1 hok.2 hs).1
  have hh := step_holds h hok.1 hok.2 hs
  have hend : Solo s' ∧ (s'.holds = s.holds ∨ s'.pc () = .idle ∧ ¬ s'.Failed) := by
    refine hr.invariant (P := fun a => Solo a ∧ (a.holds = s.holds ∨ a.pc () = .idle ∧ ¬ a.Failed))
      ⟨hm, hh⟩ fun a l b ha hok hl => ?_
    have hb := (ha.1.step hok.1.1 hok.1.2 hl).1
    rcases ha.2 with h1 | h1
    · rcases step_holds ha.1 hok.1.1 hok.1.2 hl with h2 | h2
      · exact ⟨hb, Or.inl (h2.trans h1)⟩
      · exact ⟨hb, Or.inr h2⟩
    · exact absurd h1.1 (own_step_not_idle hok.2 hl)
  have hh := hend.2.resolve_right fun hx => hx.2 hf
  funext f
  rw [hend.1.locks hidle, h.locks hpc, hh]

end Locks

section Theorem
variable [Zero β] {poolsize bufsize blksize : ℕ} {sync : Option (Dev β → Dev β)} {dev : Dev β}
  {s : Sys Unit β}

omit [Zero β] in
theorem Solo.listedOnce (h : Solo s) (hbd : s.Bounded) (hpc : s.pc () = .idle) :
    s.pool.ListedOnce := by
  obtain ⟨fs, hf, mf⟩ := h.inv.shape.free
  obtain ⟨cs, hc, mc⟩ := h.inv.shape.clean
  obtain ⟨ds, hd, md⟩ := h.inv.shape.dirty
  refine ⟨fs, cs, ds, hf, hc, hd, fun f hlt hl => ?_⟩
  have hr : s.refs f = 0 := by
    have := hbd f
    rw [← ofNat_eq_zero (by omega), ← (h.inv.buf f).locks, hl]
  have hok := (h.inv.buf f).refs
  have hbusy := (h.inv.idle hpc f).1
  have herr := h.alone.error f
  rw [mf, mc, md]
  cases hst : s.pool.state f <;> simp_all [RefsOk, BufState.role, Pool.busy]

/-- In every run of one thread with sound transfers: after each call every buffer without locks is on the list of
its state and none is in error; a failed call leaves the lock counts; unsaved data leave the cache only for the
device; and `get_buffer` returns whole blocks. -/
theorem faults_contained (hp : 0 < poolsize)
    (h : Reach Sys.step (fun m l => m.Bounded ∧ m.Sound l)
      (initSys Unit poolsize bufsize blksize sync dev) s) (hbd : s.Bounded) :
    (s.pc () = .idle → s.pool.ListedOnce ∧ ∀ f, s.pool.state f ≠ .error) ∧
    (∀ op s', s.pc () = .idle → Exec (fun m l => m.Bounded ∧ m.Sound l) op s s' → s'.Failed →
      s'.pool.locks = s.pool.locks) ∧
    ∀ l s', s.Sound l → s.step l = some s' → Saved s s' ∧ ReadComplete s l s' := by
  have hsolo := reach_solo hp h
  refine ⟨fun hpc => ⟨hsolo.listedOnce hbd hpc, hsolo.alone.error⟩, ?_, ?_⟩
  · intro op s' hpc he hf
    exact exec_failed hsolo hpc he hf
  · intro l s' hso hs
    exact ⟨step_saved hsolo hbd hso hs, step_readComplete hso hs⟩

theorem faults_contained_failed_read :
    ∃ s : Sys Unit ℕ, s.ret () = .buf none ∧ s.pool.ListedOnce := by
  have r1 : Reach Sys.step (fun m l => m.Bounded ∧ m.Sound l)
      (initSys Unit (β := ℕ) 1 512 512 none 0) _ :=
    Reach.single (l := .call () (.get 0)) ⟨init_bounded, by trivial⟩ rfl
  have r2 := r1.tail (l := .done () (-5) 0)
    ⟨bounded_unit (fun _ => Nat.zero_le 1) (fun _ => rfl) fun _ => rfl,
      by exact Or.inr ⟨by decide, 0, rfl⟩⟩ rfl
  refine ⟨_, ?_, ((faults_contained (by decide) r2
    (bounded_unit (fun _ => Nat.zero_le 1) (fun _ => rfl) fun f => ?_)).1 ?_).1⟩
  · rfl
  · show Function.update (fun _ : BufId => ([] : List Unit)) 0 [] f = []
    simp [Function.update_apply]
  · rfl

end Theorem

/-- A failed flush orphans its buffer, a short write lets an unsaved buffer be used for another
block, a failed sync leaves a lock behind, and a short read is returned. -/
theorem faults_not_contained :
    (∃ s : Sys Unit ℕ, Reach Sys.step (fun _ _ => True) (initSys Unit 1 512 512 none 0) s ∧
      s.pc () = .idle ∧ ¬ s.pool.ListedOnce) ∧
    (∃ s s' : Sys Unit ℕ, Reach Sys.step (fun _ _ => True) (initSys Unit 1 512 512 none 0) s ∧
      s.step (.done () 100 0) = some s' ∧ ¬ Saved s s') ∧
    (∃ s s' : Sys Unit ℕ, Reach Sys.step (fun _ _ => True) (initSys Unit 1 512 512 none 0) s ∧
      Exec (fun _ _ => True) (.sync false) s s' ∧ s'.Failed ∧ s'.pool.locks 0 ≠ s.pool.locks 0) ∧
    ∃ s s' : Sys Unit ℕ, Reach Sys.step (fun _ _ => True) (initSys Unit 1 512 512 none 0) s ∧
      s.step (.done () 100 7) = some s' ∧ ¬ ReadComplete s (.done () 100 7) s' := by
  refine ⟨?_, ?_, ?_, ?_⟩
  · refine ⟨_, reach_of_run [.call () (.alloc 0), .call () (.markUpdated 0), .call () (.release 0),
      .call () (.flush false), .done () (-5) 0] rfl, rfl, ?_⟩
    rintro ⟨fs, cs, ds, -, -, -, h⟩
    rcases h 0 (by decide) rfl with ⟨h, -⟩ | ⟨h, -⟩ | ⟨h, -⟩ <;> cases h
  · refine ⟨_, _, reach_of_run [.call () (.alloc 0), .call () (.write 0 5), .call () (.markUpdated 0),
      .call () (.release 0), .call () (.get 1)] rfl, rfl, fun h => ?_⟩
    have := h 0 rfl (Or.inr (Or.inr (by decide)))
    cases this
  · refine ⟨_, _, reach_of_run [.call () (.alloc 0), .call () (.markUpdated 0)] rfl,
      ⟨_, trivial, rfl, Reach.single (l := .done () (-5) 0) ⟨trivial, by simp⟩ rfl, rfl⟩,
      Or.inr ⟨-5, by decide, rfl⟩, by decide⟩
  · refine ⟨_, _, reach_of_run [.call () (.get 0)] rfl, rfl, fun h => ?_⟩
    have := (h 0 100 7 rfl rfl rfl).1
    cases this

end SimpleKernel.Buffer
