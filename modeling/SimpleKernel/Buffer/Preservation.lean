import SimpleKernel.Buffer.Invariant

/-! Every step keeps the invariant. A step is followed through the states that it passes: a lock taken by
`lookup_buffer` is first a reference of the pending call, and a buffer between two lists is `Loose`. -/
namespace SimpleKernel.Buffer
open LinkedList
open Function (update update_eq_self update_self)

theorem ofNat_succ (n : ℕ) : UInt16.ofNat (n + 1) = UInt16.ofNat n + 1 := by
  simp [UInt16.ofNat_add]

theorem ofNat_eq_zero {n : ℕ} (h : n < 2 ^ 16) : UInt16.ofNat n = 0 ↔ n = 0 := by
  constructor
  · intro e
    have := congrArg UInt16.toNat e
    simp only [UInt16.toNat_ofNat', UInt16.toNat_zero] at this
    omega
  · rintro rfl; rfl

variable {τ β : Type} [DecidableEq τ] {s : Sys τ β} {t : τ} {f : BufId}

omit [DecidableEq τ] in
theorem claim_spec [Zero β] {p : Pool τ β} (hs : Shape p (fun g => (p.state g).role))
    (hc : Counts p) (hf : f < p.poolsize) (hfree : p.state f ≠ .free) (hb : p.busy f = false) :
    PoolMove p (p.claim f) f ∧ (p.claim f).locks f = p.locks f + 1 ∧
    (p.claim f).waiters = p.waiters ∧ Counts (p.claim f) ∧
    Shape (p.claim f) (update (fun g => (p.state g).role) f .active) ∧
    (p.claim f).state f = (match p.state f with
      | .clean | .invalid => .locked
      | .dirty => .updated
      | st => st) := by
  have hact (h : (p.state f).role = .active) :
      Shape p (update (fun g => (p.state g).role) f .active) := by
    rw [← h, update_eq_self]
    exact hs
  cases hst : p.state f with
  | free => exact absurd hst hfree
  | reading | writing => simp [Pool.busy, hst] at hb
  | clean =>
    simp only [Pool.claim, hst]
    exact ⟨⟨rfl, rfl, rfl, by simp +contextual, by simp +contextual, by simp +contextual⟩,
      by simp, rfl, (hc.changeState hf .locked),
      ((hs.removeFromClean hf (by rw [hst]; rfl)).changeState _).lock, by simp⟩
  | dirty =>
    simp only [Pool.claim, hst]
    exact ⟨⟨rfl, rfl, rfl, by simp +contextual, by simp +contextual, by simp +contextual⟩,
      by simp, rfl, (hc.changeState hf .updated),
      ((hs.removeFromDirty hf (by rw [hst]; rfl)).changeState _).lock, by simp⟩
  | locked | updated | error =>
    simp only [Pool.claim, hst]
    exact ⟨⟨rfl, rfl, rfl, by simp +contextual, by simp +contextual, by simp +contextual⟩,
      by simp, rfl, hc, (hact (by rw [hst]; rfl)).lock, by simp [hst]⟩
  | invalid =>
    simp only [Pool.claim, hst]
    exact ⟨⟨rfl, rfl, rfl, by simp +contextual, by simp +contextual, by simp +contextual⟩,
      by simp, rfl, (hc.changeState hf .locked),
      (((hact (by rw [hst]; rfl)).changeState _).lock).setData _, by simp⟩

variable [Fintype τ]

omit [DecidableEq τ] in
theorem bufCore_of_quiet (hl : s.pool.locks f = UInt16.ofNat (s.refs f))
    (hw : s.pool.waiters f = []) (hn : ∀ u, ¬ (s.pc u).waits f) : BufCore s f where
  locks := hl
  nodup := by simp [hw]
  waiters u := by simp [hw, hn u]

/-- No thread reads, writes or awaits `f`. -/
structure Settled (s : Sys τ β) (f : BufId) : Prop where
  readers : s.readers f = 0
  writers : s.writers f = 0
  not_waits : ∀ u, ¬ (s.pc u).waits f

section
omit [DecidableEq τ]

theorem Turn.settled {s' : Sys τ β} {r : Role} (h : Turn s s' t f) (hl : Loose s f r)
    (h1 : (s'.pc t).reads f = 0) (h2 : (s'.pc t).writes f = 0) (h3 : ¬ (s'.pc t).waits f) :
    Settled s' f := by
  have hrd := readers_change (f := f) s s' h.pc
  have hwr := writers_change (f := f) s s' h.pc
  rw [hl.readers, h1] at hrd
  rw [hl.writers, h2] at hwr
  exact ⟨by omega, by omega, h.not_waits hl.not_waits h3⟩

theorem Loose.settled {s' : Sys τ β} {r : Role} (hl : Loose s f r) (ht : Tally s s' f) :
    Settled s' f :=
  ⟨ht.readers.trans hl.readers, ht.writers.trans hl.writers,
    fun u hu => hl.not_waits u ((ht.waits u).mp hu)⟩

theorem Around.close_settled {s' : Sys τ β} (ha : Around s f) (ht : ∀ g, g ≠ f → Tally s s' g)
    (hm : PoolMove s.pool s'.pool f) (hz : Settled s' f)
    (hs : Shape s'.pool (update (fun g => (s.pool.state g).role) f
      (s'.pool.state f).role))
    (hc : Counts s'.pool) (hlk : s'.pool.locks f = UInt16.ofNat (s'.refs f))
    (hw : s'.pool.waiters f = []) (hb : s'.pool.busy f = false)
    (hr : RefsOk (s'.pool.state f) (s'.refs f)) : Inv s' := by
  have h1 : s'.pool.state f ≠ .reading := fun e => by simp [Pool.busy, e] at hb
  have h2 : s'.pool.state f ≠ .writing := fun e => by simp [Pool.busy, e] at hb
  exact ha.close hm ht hs hc
    ⟨bufCore_of_quiet hlk hw hz.not_waits, fun _ => hw, by simp [hz.readers, h1],
      by simp [hz.writers, h2], hr⟩

end

theorem Inv.goto_agree {x : Pc β} (h : Inv s) (ha : ∀ g, x.Agree (s.pc t) g) :
    Inv (s.goto t s.pool x) := by
  refine h.transport (PoolEq.refl _) fun f => ?_
  have hpc (u : τ) : ((s.goto t s.pool x).pc u).Agree (s.pc u) f := by
    rcases eq_or_ne u t with rfl | hu
    · simpa using ha f
    · simpa [hu] using (⟨rfl, rfl, rfl, Iff.rfl⟩ : (s.pc u).Agree (s.pc u) f)
  refine ⟨?_, ?_, ?_, fun u => (hpc u).waits⟩
  · simp only [Sys.refs, (hpc _).refs, Sys.goto_holds, Sys.goto_leaked]
  · simp only [Sys.readers, (hpc _).reads]
  · simp only [Sys.writers, (hpc _).writes]

theorem Inv.goto_neutral {x : Pc β} (h : Inv s) (ht : (s.pc t).Neutral) (hx : x.Neutral) :
    Inv (s.goto t s.pool x) :=
  h.goto_agree (hx.agree ht)

omit [Fintype τ] in
theorem turn_goto {p : Pool τ β} {x : Pc β} (h : (s.pc t).About f) (hx : x.About f) :
    Turn s (s.goto t p x) t f :=
  ⟨fun u hu => by simp [hu], fun _ _ => rfl, fun _ _ => rfl, fun _ _ => rfl, h, by simpa using hx⟩

theorem goto_refs {p : Pool τ β} {x : Pc β} :
    (s.goto t p x).refs f + (s.pc t).refs f = s.refs f + x.refs f := by
  have := refs_change (f := f) s (s.goto t p x) (t := t) (fun u hu => by simp [hu])
    (fun _ _ => rfl) rfl
  simp only [Sys.goto_holds, Sys.goto_pc, update_self] at this
  omega

theorem Inv.claim [Zero β] (h : Inv s) (ht : (s.pc t).Neutral) (hf : f < s.pool.poolsize)
    (hfree : s.pool.state f ≠ .free) (hb : s.pool.busy f = false) (c : Caller) :
    Inv (s.goto t (s.pool.claim f) (.woken c f)) := by
  have hl := h.loose hf hb
  obtain ⟨hm, hlk, hw, hc, hs, hst⟩ := claim_spec h.shape h.counts hf hfree hb
  have hturn : Turn s (s.goto t (s.pool.claim f) (.woken c f)) t f :=
    turn_goto (ht.about f) (Pc.about_of_target (Or.inr rfl))
  have hrefs : (s.goto t (s.pool.claim f) (.woken c f)).refs f = s.refs f + 1 := by
    have := goto_refs (s := s) (t := t) (f := f) (p := s.pool.claim f) (x := .woken c f)
    rw [(ht f).refs] at this
    simpa [Pc.refs] using this
  have hact : ((s.pool.claim f).state f).role = .active ∧
      RefsOk ((s.pool.claim f).state f) (s.refs f + 1) ∧ (s.pool.claim f).busy f = false := by
    cases hst : s.pool.state f <;> simp_all [BufState.role, RefsOk, Pool.busy]
  refine hl.toAround.close_settled (fun g hg => hturn.tally hg) hm (hturn.settled hl ?_ ?_ ?_) ?_ hc
    ?_ ?_ hact.2.2 ?_
  · simp [Pc.reads]
  · simp [Pc.writes]
  · simp [Pc.waits]
  · simpa [hact.1] using hs
  · rw [hrefs, ofNat_succ, ← (h.buf f).locks]
    exact hlk
  · exact (congrFun hw f).trans hl.quiet
  · rw [hrefs]
    exact hact.2.1

omit [DecidableEq τ] [Fintype τ] in
theorem settle_spec {p : Pool τ β} (hs : Shape p (fun g => (p.state g).role)) (hc : Counts p)
    (hf : f < p.poolsize) (ha : (p.state f).role = .active) (hb : p.busy f = false) :
    PoolMove p (p.settle f) f ∧ (p.settle f).locks = p.locks ∧ (p.settle f).waiters = p.waiters ∧
    Counts (p.settle f) ∧
    Shape (p.settle f) (update (fun g => (p.state g).role) f
      ((p.settle f).state f).role) ∧
    (p.settle f).state f = (match p.state f with
      | .locked => .clean
      | .updated => .dirty
      | _ => .free) := by
  have hact : Shape p (update (fun g => (p.state g).role) f .active) := by
    rw [← ha, update_eq_self]
    exact hs
  have hat : update (fun g => (p.state g).role) f .active f = .active := by simp
  cases hst : p.state f with
  | free | clean | dirty => simp [hst, BufState.role] at ha
  | reading | writing => simp [Pool.busy, hst] at hb
  | locked =>
    simp only [Pool.settle, hst]
    refine ⟨⟨rfl, rfl, rfl, by simp +contextual, by simp +contextual, by simp +contextual⟩,
      rfl, rfl, hc.changeState hf .clean, ?_, by simp⟩
    simpa [BufState.role] using (hact.changeState (f := f) .clean).appendClean hf hat
  | updated =>
    simp only [Pool.settle, hst]
    refine ⟨⟨rfl, rfl, rfl, by simp +contextual, by simp +contextual, by simp +contextual⟩,
      rfl, rfl, hc.changeState hf .dirty, ?_, by simp⟩
    simpa [BufState.role] using (hact.changeState (f := f) .dirty).appendDirty hf hat
  | invalid | error =>
    simp only [Pool.settle, hst]
    refine ⟨⟨rfl, rfl, rfl, by simp +contextual, by simp +contextual, by simp +contextual⟩,
      rfl, rfl, hc.changeState hf .free, ?_, by simp⟩
    have h1 := ((hact.removeFromHashtable hf hat).changeState (f := f) .free)
    simpa [BufState.role] using h1.pushFree hf (by simp)

omit [DecidableEq τ] in
theorem Inv.release {s' : Sys τ β} (h : Inv s) (hbd : s'.refs f < 2 ^ 16) (ht : Turn s s' t f)
    (hp : s'.pool = s.pool.releaseBuffer f) (hrefs : s'.refs f + 1 = s.refs f)
    (hx : (s'.pc t).Neutral) (hb : s.pool.busy f = false) : Inv s' := by
  have hf : f < s.pool.poolsize := h.inside (by omega)
  have hl := h.loose hf hb
  have hz := ht.settled hl (hx f).reads (hx f).writes (fun hw => ((hx f).waits.mp hw).elim)
  have hok := (h.buf f).refs
  have hlk : s.pool.locks f - 1 = UInt16.ofNat (s'.refs f) := by
    rw [(h.buf f).locks, ← hrefs, ofNat_succ]
    simp
  have hql : (s.pool.unlock f).locks f = UInt16.ofNat (s'.refs f) := by simp [hlk]
  have hqs : Shape (s.pool.unlock f) (fun g => ((s.pool.unlock f).state g).role) :=
    ⟨h.shape.free, h.shape.clean, h.shape.dirty, h.shape.hash⟩
  have hqm : PoolMove s.pool (s.pool.unlock f) f :=
    ⟨rfl, rfl, rfl, fun _ _ => rfl, fun g hg => by simp [hg], fun _ _ => rfl⟩
  have hact : (s.pool.state f).role = .active := by
    cases hst : s.pool.state f <;> simp_all [RefsOk, BufState.role]
  by_cases h0 : s'.refs f = 0
  · have hpe : s'.pool = (s.pool.unlock f).settle f := by
      rw [hp, Pool.releaseBuffer, hql, h0]
      exact if_neg (by simp)
    obtain ⟨hm, h1, h2, h3, h4, h5⟩ := settle_spec hqs h.counts hf hact hb
    have hst : RefsOk (((s.pool.unlock f).settle f).state f) 0 ∧
        ((s.pool.unlock f).settle f).busy f = false := by
      rw [Pool.busy, h5]
      cases hst : s.pool.state f <;> simp_all [RefsOk]
    refine hl.toAround.close_settled (fun g hg => ht.tally hg) ?_ hz ?_ ?_ ?_ ?_ ?_ ?_ <;> rw [hpe]
    · exact ⟨hm.poolsize, hm.bufsize, hm.panicked, fun g hg => hm.state g hg,
        fun g hg => (hm.locks g hg).trans (hqm.locks g hg), fun g hg => hm.waiters g hg⟩
    · exact h4
    · exact h3
    · rw [h1, hql]
    · rw [h2]
      exact hl.quiet
    · exact hst.2
    · rw [h0]
      exact hst.1
  · have hpe : s'.pool = s.pool.unlock f := by
      rw [hp, Pool.releaseBuffer, hql]
      refine if_pos ?_
      rw [Ne, ofNat_eq_zero hbd]
      exact h0
    refine hl.toAround.close_settled (fun g hg => ht.tally hg) ?_ hz ?_ ?_ ?_ ?_ ?_ ?_ <;> rw [hpe]
    · exact hqm
    · show Shape (s.pool.unlock f) (update _ f (s.pool.state f).role)
      rw [update_eq_self]
      exact hqs
    · exact h.counts
    · exact hql
    · exact hl.quiet
    · exact hb
    · show RefsOk (s.pool.state f) _
      cases hst : s.pool.state f <;> simp_all [RefsOk] <;> omega

theorem Inv.wait (h : Inv s) (ht : (s.pc t).Neutral) (hb : s.pool.busy f = true) (c : Caller) :
    Inv (s.goto t (s.pool.waitForBuffer t f) (.wait c f)) := by
  have hf : f < s.pool.poolsize := by
    by_contra hf
    simp [Pool.busy, h.range f (Nat.not_lt.mp hf)] at hb
  have hturn : Turn s (s.goto t (s.pool.waitForBuffer t f) (.wait c f)) t f :=
    turn_goto (ht.about f) (Pc.about_of_target (Or.inr rfl))
  have hbuf := h.buf f
  have hrefs := goto_refs (s := s) (t := t) (f := f) (p := s.pool.waitForBuffer t f)
    (x := .wait c f)
  have hrd := readers_change (f := f) s _ hturn.pc
  have hwr := writers_change (f := f) s _ hturn.pc
  rw [(ht f).refs] at hrefs
  rw [(ht f).reads] at hrd
  rw [(ht f).writes] at hwr
  simp only [Pc.refs, Pc.reads, Pc.writes, Sys.goto_pc, update_self, Nat.add_zero]
    at hrefs hrd hwr
  have hmem : t ∉ s.pool.waiters f := by
    rw [hbuf.waiters t, (ht f).waits]
    exact id
  refine (h.around hf).close ⟨rfl, rfl, rfl, fun _ _ => rfl, fun _ _ => rfl, ?_⟩
    (fun g hg => hturn.tally hg) ?_ h.counts ⟨⟨?_, ?_, ?_⟩, ?_, ?_, ?_, ?_⟩
  · intro g hg
    simp [hg]
  · show Shape (s.pool.waitForBuffer t f) (update _ f (s.pool.state f).role)
    rw [update_eq_self]
    exact ⟨h.shape.free, h.shape.clean, h.shape.dirty, h.shape.hash⟩
  · rw [hrefs]
    exact hbuf.locks
  · simpa using ⟨hmem, hbuf.nodup⟩
  · intro u
    rcases eq_or_ne u t with rfl | hu
    · simp [Pc.waits]
    · simp [hu, hbuf.waiters u]
  · intro hb'
    exact absurd hb (by simpa [Pool.busy] using hb')
  · rw [hrd]
    exact hbuf.readers
  · rw [hwr]
    exact hbuf.writers
  · rw [hrefs]
    exact hbuf.refs

section
omit [DecidableEq τ]

theorem Inv.setState {st : BufState} (h : Inv s) (hrefs : 0 < s.refs f) (hb : s.pool.busy f = false)
    (hst : st = .locked ∨ st = .updated ∨ st = .invalid) :
    Inv { s with pool := s.pool.changeState f st } := by
  have hf := h.inside hrefs.ne'
  have hl := h.loose hf hb
  have ht (g : BufId) := Tally.of_eq s { s with pool := s.pool.changeState f st } rfl rfl rfl g
  have hrole : (s.pool.state f).role = .active := by
    have := (h.buf f).refs
    cases hx : s.pool.state f <;> simp_all [RefsOk, BufState.role]
  have hnew : st.role = .active ∧ RefsOk st (s.refs f) ∧ st ≠ .reading ∧ st ≠ .writing := by
    rcases hst with rfl | rfl | rfl <;> simp [BufState.role, RefsOk, hrefs]
  refine hl.toAround.close_settled (fun g _ => ht g) ⟨rfl, rfl, rfl, ?_, fun _ _ => rfl, fun _ _ => rfl⟩
    (hl.settled (ht f)) ?_ (h.counts.changeState hf st) ?_ hl.quiet ?_ ?_
  · intro g hg
    simp [hg]
  · have := h.shape.changeState (f := f) st
    simpa [hnew.1, ← hrole] using this
  · rw [(ht f).refs]
    exact (h.buf f).locks
  · simp [Pool.busy, hnew.2.2.1, hnew.2.2.2]
  · rw [(ht f).refs]
    simpa using hnew.2.1

theorem Inv.markBufferUpdated (h : Inv s) (f : BufId) :
    Inv { s with pool := s.pool.markBufferUpdated f } := by
  have hok := (h.buf f).refs
  unfold Pool.markBufferUpdated
  split_ifs with hst
  · apply h.setState _ _ (by simp)
    · rcases hst with hst | hst <;> simpa [RefsOk, hst] using hok
    · rcases hst with hst | hst <;> simp [Pool.busy, hst]
  · exact h

theorem Inv.markBufferInvalid (h : Inv s) (f : BufId) :
    Inv { s with pool := s.pool.markBufferInvalid f } := by
  have hok := (h.buf f).refs
  unfold Pool.markBufferInvalid
  split_ifs with hst
  · apply h.setState _ _ (by simp)
    · rcases hst with hst | hst <;> simpa [RefsOk, hst] using hok
    · rcases hst with hst | hst <;> simp [Pool.busy, hst]
  · exact h

end

theorem Inv.syncLock (h : Inv s) (ht : (s.pc t).Neutral) (hst : s.pool.state f = .updated)
    (i : Bool) : Inv (s.goto t (s.pool.lock f) (.syncWrite i f none)) := by
  have hb : s.pool.busy f = false := by simp [Pool.busy, hst]
  have hrefs := goto_refs (s := s) (t := t) (f := f) (p := s.pool.lock f)
    (x := .syncWrite i f none)
  rw [(ht f).refs] at hrefs
  simp only [Pc.refs, Nat.add_zero, ↓reduceIte] at hrefs
  have hok := (h.buf f).refs
  rw [hst] at hok
  have hl := h.loose (h.inside (Nat.pos_iff_ne_zero.mp hok)) hb
  have hturn : Turn s (s.goto t (s.pool.lock f) (.syncWrite i f none)) t f :=
    turn_goto (ht.about f) (Pc.about_of_target (Or.inr rfl))
  refine hl.toAround.close_settled (fun g hg => hturn.tally hg)
    ⟨rfl, rfl, rfl, fun _ _ => rfl, ?_, fun _ _ => rfl⟩ (hturn.settled hl ?_ ?_ ?_) ?_ h.counts ?_
    hl.quiet hb ?_
  · intro g hg
    simp [hg]
  · simp [Pc.reads]
  · simp [Pc.writes]
  · simp [Pc.waits]
  · show Shape (s.pool.lock f) (update _ f (s.pool.state f).role)
    rw [update_eq_self]
    exact h.shape.lock
  · rw [hrefs, ofNat_succ, ← (h.buf f).locks]
    simp
  · rw [hrefs]
    simp [hst, RefsOk]

theorem Inv.startWrite {x : Pc β} (h : Inv s) (ht : (s.pc t).Neutral) (hf : f < s.pool.poolsize)
    (hst : s.pool.state f = .dirty) (hx : x.About f) (h1 : x.refs f = 0) (h2 : x.reads f = 0)
    (h3 : x.writes f = 1) (h4 : ¬ x.waits f) (flush : Bool) :
    Inv (s.goto t (s.pool.writeBufferStart f flush) x) := by
  have hb : s.pool.busy f = false := by simp [Pool.busy, hst]
  have hl := h.loose hf hb
  have hturn : Turn s (s.goto t (s.pool.writeBufferStart f flush) x) t f :=
    turn_goto (ht.about f) hx
  have hrefs := goto_refs (s := s) (t := t) (f := f) (p := s.pool.writeBufferStart f flush) (x := x)
  have hrd := readers_change (f := f) s _ hturn.pc
  have hwr := writers_change (f := f) s _ hturn.pc
  simp only [(ht f).refs, h1, Pc.idle_refs, Nat.add_zero] at hrefs
  simp only [(ht f).reads, Sys.goto_pc, update_self, h2, hl.readers] at hrd
  simp only [(ht f).writes, Sys.goto_pc, update_self, h3, hl.writers] at hwr
  have hp : PoolEq ((s.pool.removeFromDirty f).changeState f .writing)
      (s.pool.writeBufferStart f flush) := by
    unfold Pool.writeBufferStart
    split_ifs <;> constructor <;> rfl
  have hstate : (s.pool.writeBufferStart f flush).state f = .writing := by simp [hp.state]
  refine hl.toAround.close ⟨?_, ?_, ?_, ?_, ?_, ?_⟩ (fun g hg => hturn.tally hg) ?_ ?_
    ⟨bufCore_of_quiet ?_ ?_ ?_, ?_, ?_, ?_, ?_⟩
  · exact hp.poolsize
  · exact hp.bufsize
  · exact hp.panicked
  · intro g hg
    simp [hp.state, hg]
  · simp [hp.locks]
  · simp [hp.waiters]
  · have := (h.shape.removeFromDirty hf (by rw [hst]; rfl)).changeState (f := f) .writing
    simpa [hstate, BufState.role] using this.congr_pool hp
  · exact (h.counts.changeState (p := s.pool.removeFromDirty f) hf .writing).congr_pool hp
  · have : (s.pool.writeBufferStart f flush).locks f = s.pool.locks f := by simp [hp.locks]
    rw [hrefs, Sys.goto_pool, this, (h.buf f).locks]
  · simpa [hp.waiters] using hl.quiet
  · exact hturn.not_waits hl.not_waits (by simpa using h4)
  · intro _
    simpa [hp.waiters] using hl.quiet
  · simpa [hstate] using hrd
  · simpa [hstate] using hwr
  · have := (h.buf f).refs
    rw [hst] at this
    rw [hrefs, Sys.goto_pool, hstate]
    exact this

section Wake

omit [Fintype τ] in
theorem wake_pc (hw : ∀ u, u ∈ s.pool.waiters f ↔ (s.pc u).waits f) (u : τ) :
    ((s.wake (s.pool.waiters f)).pc u = s.pc u ∧ ¬ (s.pc u).waits f) ∨
      ∃ c, s.pc u = .wait c f ∧ (s.wake (s.pool.waiters f)).pc u = .woken c f := by
  by_cases hu : u ∈ s.pool.waiters f
  · right
    have hx := (hw u).mp hu
    cases hpc : s.pc u with
    | wait c g =>
      obtain rfl : g = f := by simpa [hpc, Pc.waits] using hx
      exact ⟨c, rfl, by simp [hu, hpc]⟩
    | _ => simp [hpc, Pc.waits] at hx
  · left
    exact ⟨by simp [hu], fun hx => hu ((hw u).mpr hx)⟩

theorem wake_refs (hd : (s.pool.waiters f).Nodup)
    (hw : ∀ u, u ∈ s.pool.waiters f ↔ (s.pc u).waits f) :
    (s.wake (s.pool.waiters f)).refs f = s.refs f + (s.pool.waiters f).length := by
  have hpt (u : τ) : (s.wake (s.pool.waiters f)).holds u f +
      ((s.wake (s.pool.waiters f)).pc u).refs f =
      s.holds u f + (s.pc u).refs f + if u ∈ (s.pool.waiters f).toFinset then 1 else 0 := by
    rcases wake_pc hw u with ⟨h1, h2⟩ | ⟨c, h1, h2⟩
    · rw [← hw u] at *
      simp [h2]
    · have : u ∈ s.pool.waiters f := (hw u).mpr (by rw [h1]; rfl)
      rw [h1, h2]
      simp [Pc.refs, this]
  simp only [Sys.refs]
  rw [Finset.sum_congr rfl fun u _ => hpt u, Finset.sum_add_distrib, Finset.sum_ite_mem,
    Finset.univ_inter, Finset.sum_const, List.toFinset_card_of_nodup hd, smul_eq_mul]
  simp only [Sys.wake_leaked]
  omega

theorem wake_tally {g : BufId} (hw : ∀ u, u ∈ s.pool.waiters f ↔ (s.pc u).waits f) (hg : g ≠ f) :
    Tally s (s.wake (s.pool.waiters f)) g := by
  have hag (u : τ) : ((s.wake (s.pool.waiters f)).pc u).Agree (s.pc u) g := by
    rcases wake_pc hw u with ⟨h1, -⟩ | ⟨c, h1, h2⟩
    · rw [h1]
      exact ⟨rfl, rfl, rfl, Iff.rfl⟩
    · rw [h1, h2]
      exact (Pc.agree_of_target (by simp [Pc.target, hg.symm])).trans
        (Pc.agree_of_target (by simp [Pc.target, hg.symm])).symm
  refine ⟨?_, ?_, ?_, fun u => (hag u).waits⟩
  · simp only [Sys.refs, (hag _).refs]
    rfl
  · simp only [Sys.readers, (hag _).reads]
  · simp only [Sys.writers, (hag _).writes]

theorem wake_settled (hw : ∀ u, u ∈ s.pool.waiters f ↔ (s.pc u).waits f) :
    (s.wake (s.pool.waiters f)).readers f = s.readers f ∧
    (s.wake (s.pool.waiters f)).writers f = s.writers f ∧
    ∀ u, ¬ ((s.wake (s.pool.waiters f)).pc u).waits f := by
  refine ⟨Finset.sum_congr rfl fun u _ => ?_, Finset.sum_congr rfl fun u _ => ?_, fun u => ?_⟩ <;>
    rcases wake_pc hw u with ⟨h1, h2⟩ | ⟨c, h1, h2⟩
  · rw [h1]
  · rw [h1, h2]
    rfl
  · rw [h1]
  · rw [h1, h2]
    rfl
  · rw [h1]
    exact h2
  · rw [h2]
    exact id

end Wake

omit [DecidableEq τ] [Fintype τ] in
theorem transferFinish_spec (p : Pool τ β) (f : BufId) (rc : ℤ) :
    p.transferFinish f rc =
      (p.changeState f (if rc = p.bufsize then .locked else .error)).releaseBufferWaiters f := by
  unfold Pool.transferFinish
  split_ifs <;> simp_all

theorem Inv.transfer {x : Pc β} (h : Inv s) (ht : (s.pc t).About f) (htw : ¬ (s.pc t).waits f)
    (hrw : (s.pc t).reads f + (s.pc t).writes f = 1) (hx : x.About f)
    (hxr : x.refs f = (s.pc t).refs f) (h1 : x.reads f = 0)
    (h2 : x.writes f = 0) (h3 : ¬ x.waits f) (rc : ℤ) :
    Loose ((s.wake (s.pool.waiters f)).goto t (s.pool.transferFinish f rc) x) f .active ∧
    ((s.wake (s.pool.waiters f)).goto t (s.pool.transferFinish f rc) x).refs f =
      s.refs f + (s.pool.waiters f).length := by
  have hbuf := h.buf f
  have hpc : (s.wake (s.pool.waiters f)).pc t = s.pc t := by
    rcases wake_pc hbuf.waiters t with ⟨h1, -⟩ | ⟨c, h1, -⟩
    · exact h1
    · exact absurd (by rw [h1]; rfl) htw
  obtain ⟨hwr, hww, hwn⟩ := wake_settled hbuf.waiters
  generalize hm : s.wake (s.pool.waiters f) = m at *
  have hturn : Turn m (m.goto t (s.pool.transferFinish f rc) x) t f := turn_goto (hpc ▸ ht) hx
  have hrefs := goto_refs (s := m) (t := t) (f := f) (p := s.pool.transferFinish f rc) (x := x)
  rw [hpc, hxr, ← hm, wake_refs hbuf.nodup hbuf.waiters, hm, Nat.add_right_cancel_iff] at hrefs
  have hrd := readers_change (f := f) m _ hturn.pc
  have hwt := writers_change (f := f) m _ hturn.pc
  simp only [hpc, hwr, Sys.goto_pc, update_self, hbuf.readers] at hrd
  simp only [hpc, hww, Sys.goto_pc, update_self, hbuf.writers] at hwt
  have hbusy : s.pool.state f = .reading ∨ s.pool.state f = .writing := by
    by_contra hc
    rw [not_or] at hc
    simp only [hc.1, hc.2, ↓reduceIte] at hrd hwt
    omega
  have hf : f < s.pool.poolsize := by
    by_contra hf
    simp [h.range f (Nat.not_lt.mp hf)] at hbusy
  have hzero : (m.goto t (s.pool.transferFinish f rc) x).readers f = 0 ∧
      (m.goto t (s.pool.transferFinish f rc) x).writers f = 0 := by
    rcases hbusy with hb | hb <;> simp only [hb, ↓reduceIte, reduceCtorEq] at hrd hwt <;>
      constructor <;> omega
  have hrole : (s.pool.state f).role = .active := by
    rcases hbusy with hb | hb <;> rw [hb] <;> rfl
  refine ⟨(h.around hf).move ⟨?_, ?_, ?_, ?_, ?_, ?_⟩ ?_ ?_ ?_ (bufCore_of_quiet ?_ ?_ ?_) ?_
    hzero.1 hzero.2, hrefs⟩
  · simp [transferFinish_spec]
  · simp [transferFinish_spec]
  · simp [transferFinish_spec]
  · intro g hg
    simp [transferFinish_spec, hg]
  · intro g hg
    simp [transferFinish_spec, hg]
  · intro g hg
    simp [transferFinish_spec, hg]
  · intro g hg
    have := wake_tally hbuf.waiters hg
    rw [hm] at this
    exact this.trans (hturn.tally hg)
  · rw [← hrole, update_eq_self, transferFinish_spec]
    exact (h.shape.changeState _).releaseBufferWaiters
  · rw [transferFinish_spec]
    exact h.counts.changeState hf _
  · rw [hrefs, UInt16.ofNat_add, ← hbuf.locks]
    simp [transferFinish_spec]
  · simp [transferFinish_spec]
  · exact hturn.not_waits hwn (by simpa using h3)
  · simp [transferFinish_spec]

end SimpleKernel.Buffer
