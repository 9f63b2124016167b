import SimpleKernel.Buffer.Representation
import SimpleKernel.Buffer.Uniqueness
import SimpleKernel.Buffer.WriteBack

/-! A pool that one thread works on: a call finds no buffer busy and nobody else changes a buffer that is being
written. -/
namespace SimpleKernel.Buffer
open LinkedList Transition

variable {β : Type}

/-- Writes succeed in full; reads succeed in full or fail. -/
def Sys.Sound (s : Sys Unit β) : Label Unit β → Prop
  | .done _ rc _ => rc = s.pool.bufsize ∨ rc < 0 ∧ ∃ f, s.pc () = .read f
  | _ => True

/-- What holds of a pool with one thread between its steps. -/
structure Alone (s : Sys Unit β) : Prop where
  error : ∀ f, s.pool.state f ≠ .error
  leaked : s.leaked = 0
  waits : ∀ f, ¬ (s.pc ()).waits f

section Calm
variable [Zero β] {s s' : Sys Unit β} {f : BufId}

omit [Zero β] in
theorem calm (hq : (s.pc ()).Quiet) (f : BufId) : ¬ s.copied f ∧ ¬ s.syncing f :=
  ⟨fun ⟨_, _, hs, _⟩ => (hq f).1 hs, fun ⟨_, hs⟩ => (hq f).1 hs⟩

theorem entry_idle {t : Unit} {op : Op β} (he : Entry (.call t op) s s') : s.pc () = .idle := by
  cases he <;> assumption

theorem entry_exclusive {l : Label Unit β} (he : Entry l s s') : s.Exclusive l := by
  cases l with
  | call t op =>
    intro k b _ _ u
    rw [show s.pc u = .idle from entry_idle he]
    exact id
  | _ => trivial

theorem entry_calm {l : Label Unit β} (he : Entry l s s') : s.Undisturbed l := by
  cases l with
  | call t op =>
    have hq : (s.pc ()).Quiet := by
      rw [entry_idle he]
      exact quiet_idle
    cases op with
    | write f d => exact (calm hq f).1
    | alloc b => exact fun f _ => (calm hq f).1
    | markInvalid f => exact (calm hq f).2
    | invalidate b => exact fun f _ => (calm hq f).2
    | _ => trivial
  | resume t =>
    constructor
    · intro f hw
      refine (calm ?_ f).1
      rw [show s.pc () = _ from hw]
      exact fun _ => ⟨id, fun _ => id⟩
    · intro f hw
      refine (calm ?_ f).2
      rw [show s.pc () = _ from hw]
      exact fun _ => ⟨id, fun _ => id⟩
  | _ => trivial

section
omit [Zero β]

theorem Alone.waiters (ha : Alone s) (hi : Inv s) (f : BufId) : s.pool.waiters f = [] :=
  List.eq_nil_iff_forall_not_mem.mpr fun t ht => ha.waits f (((hi.buf f).waiters t).mp ht)

theorem Inv.neutral (hi : Inv s) (hn : (s.pc ()).Neutral) (f : BufId) :
    s.pool.busy f = false ∧ s.refs f = s.holds () f + s.leaked f := by
  have h1 : s.readers f = 0 := by simp [Sys.readers, (hn f).reads]
  have h2 : s.writers f = 0 := by simp [Sys.writers, (hn f).writes]
  rw [(hi.buf f).readers] at h1
  rw [(hi.buf f).writers] at h2
  refine ⟨?_, by simp [Sys.refs, (hn f).refs]⟩
  simp only [Pool.busy, Bool.decide_or, Bool.or_eq_false_iff, decide_eq_false_iff_not]
  constructor
  · intro h
    simp [h] at h1
  · intro h
    simp [h] at h2

theorem Inv.idle (hi : Inv s) (hpc : s.pc () = .idle) (f : BufId) :
    s.pool.busy f = false ∧ s.refs f = s.holds () f + s.leaked f :=
  hi.neutral (by rw [hpc]; exact Pc.neutral_idle) f

end

end Calm

section Geometry
variable [Zero β] {s s' : Sys Unit β}

end Geometry

section Alone
variable [Zero β] {s s' : Sys Unit β} {f : BufId}

section
omit [Zero β]

theorem settled_error {st : BufState} (h : st ≠ .error) : st.settled ≠ .error := by
  cases st <;> simp_all [BufState.settled]

theorem releaseBuffer_no_error {p : Pool Unit β} (h : ∀ g, p.state g ≠ .error) (g : BufId) :
    (p.releaseBuffer f).state g ≠ .error := by
  rw [releaseBuffer_state]
  rcases eq_or_ne g f with rfl | hg
  · rw [Function.update_self]
    split_ifs
    · exact settled_error (h g)
    · exact h g
  · rw [Function.update_of_ne hg]
    exact h g

theorem update_no_error {p : Pool Unit β} {st : BufState} (h : ∀ g, p.state g ≠ .error)
    (hst : st ≠ .error) (g : BufId) : Function.update p.state f st g ≠ .error := by
  rcases eq_or_ne g f with rfl | hg
  · rwa [Function.update_self]
  · rw [Function.update_of_ne hg]
    exact h g

end

theorem useNew_no_error {p : Pool Unit β} {k : Fetch} {b : Blkno} (h : ∀ g, p.state g ≠ .error)
    (g : BufId) : (s.useNew () k b p f).pool.state g ≠ .error := by
  cases k
  · exact update_no_error h (by decide) g
  · exact update_no_error h (by decide) g

omit [Zero β] in
theorem readDone_no_error {rc : ℤ} {d : β} (hi : Inv s) (ha : Alone s) (hpc : s.pc () = .read f)
    (hrc : rc = s.pool.bufsize ∨ rc < 0) (g : BufId) :
    (s.readDone () f rc d).pool.state g ≠ .error := by
  have hst := hi.reading (t := ()) (f := f) (by simp [hpc, Pc.reads])
  have hone : s.refs f = 1 := by
    have := (hi.buf f).refs
    rwa [hst] at this
  have hlocks : (s.pool.readBufferFinish f rc d).locks f - 1 = 0 := by
    simp [Pool.readBufferFinish, transferFinish_spec, (hi.buf f).locks, hone, ha.waiters hi f]
  have hpool (h : rc ≠ s.pool.bufsize) : (s.pool.readBufferFinish f rc d).state =
      Function.update s.pool.state f .error := by
    simp [Pool.readBufferFinish, transferFinish_states, h, Pool.setData]
  unfold Sys.readDone
  dsimp only
  split_ifs with h0
  · have hne : rc ≠ s.pool.bufsize := by
      have := hi.size
      omega
    show ((s.pool.readBufferFinish f rc d).releaseBuffer f).state g ≠ .error
    rw [releaseBuffer_state, hlocks, hpool hne]
    rcases eq_or_ne g f with rfl | hg
    · simp [BufState.settled]
    · simpa [hg] using ha.error g
  · have heq : rc = s.pool.bufsize := hrc.resolve_right h0
    show (s.pool.readBufferFinish f rc d).state g ≠ .error
    rw [Pool.readBufferFinish, transferFinish_states, Pool.setData_bufsize, if_pos heq]
    exact update_no_error (p := s.pool) ha.error (by decide) g

omit [Zero β] in
theorem flushWritten_no_error {rc : ℤ} (ha : Alone s) (hrc : rc = s.pool.bufsize) (g : BufId) :
    (s.flushWritten f rc).pool.state g ≠ .error := by
  obtain ⟨st, hst, -, hne⟩ := flushWritten_state f s rc
  rw [hst]
  exact update_no_error ha.error (hne hrc) g

theorem evictFinish_no_error {rc : ℤ} {k : Fetch} {b : Blkno} (ha : Alone s)
    (hrc : rc = s.pool.bufsize) (g : BufId) :
    (s.evictFinish () k b f rc).pool.state g ≠ .error := by
  have htr (g : BufId) : (s.pool.transferFinish f rc).state g ≠ .error := by
    rw [transferFinish_states, if_pos hrc]
    exact update_no_error ha.error (by decide) g
  unfold Sys.evictFinish
  dsimp only
  split_ifs
  · exact useNew_no_error (p := (s.pool.transferFinish f rc).removeFromHashtable f) htr g
  · exact htr g

theorem entry_alone {l : Label Unit β} (hi : Inv s) (ha : Alone s) (hso : s.Sound l)
    (he : Entry l s s') : Alone s' := by
  have hfull {rc : ℤ} {d : β} (hs : s.Sound (.done () rc d)) (hn : ∀ f, s.pc () ≠ .read f) :
      rc = s.pool.bufsize := hs.resolve_right fun ⟨_, f, hf⟩ => hn f hf
  cases he with
  | miss | absent | write | setNosync | nosync | flush | sync | syncStart | syncUser =>
    exact ⟨ha.error, ha.leaked, fun _ => id⟩
  | @wait _ _ op c b f hpc hop hs hb =>
    rw [(hi.idle hpc f).1] at hb
    cases hb
  | @claim _ _ op c b f hpc hop hs hb =>
    refine ⟨fun g => ?_, ha.leaked, fun _ => id⟩
    show (s.pool.claim f).state g ≠ .error
    rw [claim_state]
    refine update_no_error ha.error ?_ g
    have := ha.error f
    cases hst : s.pool.state f <;> simp_all [BufState.claimed]
  | @markUpdated _ _ f hpc =>
    refine ⟨fun g => ?_, ha.leaked, fun _ => id⟩
    show (s.pool.markBufferUpdated f).state g ≠ .error
    rw [markBufferUpdated_state]
    refine update_no_error ha.error ?_ g
    split_ifs
    · decide
    · exact ha.error f
  | @markInvalid _ _ f hpc =>
    refine ⟨fun g => ?_, ha.leaked, fun _ => id⟩
    show (s.pool.markBufferInvalid f).state g ≠ .error
    rw [markBufferInvalid_state]
    refine update_no_error ha.error ?_ g
    split_ifs
    · decide
    · exact ha.error f
  | release hpc hh => exact ⟨releaseBuffer_no_error ha.error, ha.leaked, fun _ => id⟩
  | take ht =>
    unfold Sys.take at ht
    split at ht <;> cases ht <;> exact ⟨ha.error, ha.leaked, fun _ => id⟩
  | @evictEnd _ _ k b f taken rc d dev hpc hw =>
    have hrc := hfull hso fun g hg => by rw [show s.pc () = _ from hpc] at hg; cases hg
    refine ⟨evictFinish_no_error ⟨ha.error, ha.leaked, ha.waits⟩ hrc,
      (evictFinish_kept _ () k b f rc).1.trans ha.leaked, fun g => ?_⟩
    unfold Sys.evictFinish
    dsimp only
    split_ifs
    · cases k <;> simp [Sys.useNew, Pc.waits]
    · simp [Pc.waits]
  | @flushEnd _ _ i f taken rc d dev hpc hw hrc =>
    have hrc := hfull hso fun g hg => by rw [show s.pc () = _ from hpc] at hg; cases hg
    exact ⟨flushWritten_no_error ⟨ha.error, ha.leaked, ha.waits⟩ hrc,
      (flushWritten_kept _ f rc).1.trans ha.leaked, fun _ => id⟩
  | @flushFail _ _ i f taken rc d dev hpc hw hrc =>
    have hrc := hfull hso fun g hg => by rw [show s.pc () = _ from hpc] at hg; cases hg
    exact ⟨flushWritten_no_error ⟨ha.error, ha.leaked, ha.waits⟩ hrc,
      (flushWritten_kept _ f rc).1.trans ha.leaked, fun _ => id⟩
  | @syncEnd _ _ i f taken rc d dev hpc hw hrc =>
    refine ⟨releaseBuffer_no_error fun g => ?_, ha.leaked, fun _ => id⟩
    exact update_no_error ha.error (by decide) g
  | @syncFail _ _ i f taken rc d dev hpc hw hrc =>
    have := hfull hso fun g hg => by rw [show s.pc () = _ from hpc] at hg; cases hg
    have := hi.size
    omega
  | @readEnd _ _ f rc d hpc =>
    refine ⟨readDone_no_error hi ha hpc (hso.imp_right And.left),
      (readDone_kept s () f rc _).1.trans ha.leaked, fun g => ?_⟩
    unfold Sys.readDone
    split_ifs <;> simp [Pc.waits]
  | resume hpc => exact ha

theorem cont_alone (ha : Alone s) (hc : Cont () s s') : Alone s' := by
  cases hc with
  | @afterLookup c f hpc =>
    refine ⟨fun g => ?_, (afterLookup_kept s () c s.pool f).1.trans ha.leaked, fun g => ?_⟩
    · unfold Sys.afterLookup
      split
      · split_ifs
        · exact releaseBuffer_no_error ha.error g
        · split <;> exact ha.error g
      · refine releaseBuffer_no_error (fun g => ?_) g
        rw [markBufferInvalid_state]
        refine update_no_error ha.error ?_ g
        split_ifs
        · decide
        · exact ha.error f
    · unfold Sys.afterLookup
      split
      · split_ifs
        · exact id
        · split <;> exact id
      · exact id
  | @free k b f hpc hf | @clean k b f hpc hf hcl =>
    refine ⟨useNew_no_error ha.error,
      (useNew_kept s () k b _ f).1.trans ha.leaked, fun g => ?_⟩
    cases k <;> simp [Sys.useNew, Pc.waits]
  | @evict k b f hpc hf hcl hd | @flush i f hpc hd =>
    refine ⟨fun g => ?_, ha.leaked, fun _ => id⟩
    exact update_no_error ha.error (by decide) g
  | flushReturn hpc hr => exact ⟨ha.error, ha.leaked, fun _ => id⟩
  | sync hpc hst hf => exact ⟨ha.error, ha.leaked, fun _ => id⟩
  | syncReturn hpc hr => exact ⟨ha.error, ha.leaked, fun _ => id⟩

end Alone

/-- All that is known of a state of a pool with one thread. -/
structure Solo (s : Sys Unit β) : Prop where
  inv : Inv s
  uniq : Uniq s
  fresh : Fresh s
  alone : Alone s

section Solo
variable [Zero β] {s s' m : Sys Unit β} {l : Label Unit β} {poolsize bufsize blksize : ℕ}
  {sync : Option (Dev β → Dev β)} {dev : Dev β}

theorem Solo.entry (h : Solo s) (hm : Inv m) (hso : s.Sound l) (he : Entry l s m) : Solo m :=
  ⟨hm, entry_uniq h.inv h.uniq (entry_exclusive he) he, entry_fresh h.inv h.fresh (entry_calm he) he,
    entry_alone h.inv h.alone hso he⟩

theorem Solo.cont (h : Solo m) (hs : Inv s') (hun : m.Undisturbed (.resume ()))
    (hc : Cont () m s') : Solo s' :=
  ⟨hs, cont_uniq h.inv h.uniq hc, cont_fresh h.inv h.fresh hun hc, cont_alone h.alone hc⟩

theorem Solo.step (h : Solo s) (hbd : s.Bounded) (hso : s.Sound l) (hs : s.step l = some s') :
    Solo s' ∧ ∃ m, Solo m ∧ Entry l s m ∧ (m = s' ∨ Cont () m s') := by
  obtain ⟨m, he, hm, hc⟩ := step_moves h.inv hbd hs
  have hsm := h.entry hm hso he
  rcases hc with rfl | hc
  · exact ⟨hsm, m, hsm, he, Or.inl rfl⟩
  · have hs' := hsm.cont (step_inv h.inv hbd hs) (entry_undisturbed (entry_calm he) he) hc
    exact ⟨hs', m, hsm, he, Or.inr hc⟩

theorem init_solo (hp : 0 < poolsize) : Solo (initSys Unit poolsize bufsize blksize sync dev) where
  inv := init_inv hp
  uniq := init_uniq
  fresh := ⟨fun _ _ _ => False.elim, fun _ _ => False.elim⟩
  alone := ⟨fun _ => by simp [initSys, initBufferPool], rfl, fun _ => id⟩

theorem reach_solo (hp : 0 < poolsize) (h : Reach Sys.step (fun m l => m.Bounded ∧ m.Sound l)
    (initSys Unit poolsize bufsize blksize sync dev) s) : Solo s :=
  h.invariant (init_solo hp) fun _ _ _ ha hok hl => (ha.step hok.1 hok.2 hl).1

/-- The call `op` of the only thread, made in `s`, returned in `s'`. -/
def Exec (ok : Sys Unit β → Label Unit β → Prop) (op : Op β) (s s' : Sys Unit β) : Prop :=
  ∃ m, ok s (.call () op) ∧ s.step (.call () op) = some m ∧
    Reach Sys.step (fun a l => ok a l ∧ ∀ op, l ≠ .call () op) m s' ∧ s'.pc () = .idle

theorem own_step_not_idle (hl : ∀ op, l ≠ .call () op) (hs : s.step l = some s') :
    s.pc () ≠ .idle := by
  intro hpc
  cases l with
  | call t op => exact hl op rfl
  | take t => simp [Sys.step, Sys.take, show s.pc t = .idle from hpc] at hs
  | done t rc d => simp [Sys.step, Sys.done, show s.pc t = .idle from hpc] at hs
  | resume t => simp [Sys.step, Sys.resume, show s.pc t = .idle from hpc] at hs

end Solo

end SimpleKernel.Buffer
