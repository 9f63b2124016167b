import SimpleKernel.Buffer.Effects

/-! Changes to a buffer while it is written back. `sync_buffers` sets its state to locked after the write, whatever
the holders did meanwhile; so no change is lost only if none is made after the device has taken the data. -/
namespace SimpleKernel.Buffer
open LinkedList Transition
open Function (update update_of_ne update_self)

variable {τ β : Type}

/-- The thread writes `f` back and the device took `v`. -/
def Pc.copy (x : Pc β) (f : BufId) (v : β) : Prop :=
  match x with
  | .evict _ _ g (some w) | .flushWrite _ g (some w) | .syncWrite _ g (some w) => g = f ∧ w = v
  | _ => False

/-- The thread writes `f` back in `sync_buffers`. -/
def Pc.syncs (x : Pc β) (f : BufId) : Prop :=
  match x with
  | .syncWrite _ g _ => g = f
  | _ => False

/-- The thread does not write back. -/
def Pc.Quiet (x : Pc β) : Prop := ∀ f, ¬ x.syncs f ∧ ∀ v, ¬ x.copy f v

theorem quiet_idle : (Pc.idle : Pc β).Quiet := fun _ => ⟨id, fun _ => id⟩

def Sys.syncing (s : Sys τ β) (f : BufId) : Prop := ∃ u, (s.pc u).syncs f

def Sys.copied (s : Sys τ β) (f : BufId) : Prop := ∃ u v, (s.pc u).syncs f ∧ (s.pc u).copy f v

/-- While `sync_buffers` writes a buffer, no holder marks it invalid, and none changes its
data once the device has taken them. -/
def Sys.Undisturbed (s : Sys τ β) : Label τ β → Prop
  | .call _ (.write f _) => ¬ s.copied f
  | .call _ (.alloc b) => ∀ f, s.pool.search b = some f → ¬ s.copied f
  | .call _ (.markInvalid f) => ¬ s.syncing f
  | .call _ (.invalidate b) => ∀ f, s.pool.search b = some f → ¬ s.syncing f
  | .resume t => (∀ f, s.pc t = .woken (.fetch .alloc) f → ¬ s.copied f) ∧
      ∀ f, s.pc t = .woken .invalidate f → ¬ s.syncing f
  | _ => True

/-- What the device took is still the content of the buffer. -/
structure Fresh (s : Sys τ β) : Prop where
  data : ∀ u f v, (s.pc u).copy f v → s.pool.data f = v
  valid : ∀ u f, (s.pc u).syncs f → s.pool.state f ≠ .invalid

section Move
variable [DecidableEq τ] {s s' : Sys τ β} {t : τ} {f : BufId}

omit [DecidableEq τ] in
theorem Fresh.move (h : Fresh s) (t : τ)
    (hpc : ∀ u, u ≠ t → ∀ f, ((s'.pc u).syncs f → (s.pc u).syncs f) ∧
      ∀ v, (s'.pc u).copy f v → (s.pc u).copy f v)
    (ht : (s'.pc t).Quiet)
    (hd : ∀ u f v, u ≠ t → (s.pc u).copy f v → s'.pool.data f = s.pool.data f)
    (hst : ∀ u f, u ≠ t → (s.pc u).syncs f → s'.pool.state f = .invalid →
      s.pool.state f = .invalid) : Fresh s' := by
  constructor
  · intro u f v hc
    rcases eq_or_ne u t with rfl | hu
    · exact absurd hc ((ht f).2 v)
    · have hc := (hpc u hu f).2 v hc
      rw [hd u f v hu hc]
      exact h.data u f v hc
  · intro u f hs hi
    rcases eq_or_ne u t with rfl | hu
    · exact (ht f).1 hs
    · have hs := (hpc u hu f).1 hs
      exact h.valid u f hs (hst u f hu hs hi)

variable {p : Pool τ β}

theorem Fresh.goto {x : Pc β} (h : Fresh s) (hx : x.Quiet)
    (hd : ∀ u f v, u ≠ t → (s.pc u).copy f v → p.data f = s.pool.data f)
    (hst : ∀ u f, u ≠ t → (s.pc u).syncs f → p.state f = .invalid → s.pool.state f = .invalid) :
    Fresh (s.goto t p x) := by
  refine h.move t (fun u hu f => ?_) (by simpa using hx) hd hst
  simp [hu]

theorem Fresh.finish {r : Ret} (h : Fresh s)
    (hd : ∀ u f v, u ≠ t → (s.pc u).copy f v → p.data f = s.pool.data f)
    (hst : ∀ u f, u ≠ t → (s.pc u).syncs f → p.state f = .invalid → s.pool.state f = .invalid) :
    Fresh (s.finish t p r) := by
  refine h.move t (fun u hu f => ?_) ?_ hd hst
  · simp [hu]
  · rw [Sys.finish_pc, update_self]
    exact quiet_idle

theorem Fresh.give (h : Fresh s)
    (hd : ∀ u f v, u ≠ t → (s.pc u).copy f v → p.data f = s.pool.data f)
    (hst : ∀ u f, u ≠ t → (s.pc u).syncs f → p.state f = .invalid → s.pool.state f = .invalid) :
    Fresh (s.give t p f) := by
  refine h.move t (fun u hu f => ?_) ?_ hd hst
  · simp [hu]
  · rw [Sys.give_pc, update_self]
    exact quiet_idle

theorem wake_writes {ts : List τ} (u : τ) (f : BufId) :
    (((s.wake ts).pc u).syncs f ↔ (s.pc u).syncs f) ∧
      ∀ v, ((s.wake ts).pc u).copy f v ↔ (s.pc u).copy f v := by
  simp only [Sys.wake_pc]
  split_ifs
  · cases s.pc u <;> exact ⟨Iff.rfl, fun v => Iff.rfl⟩
  · exact ⟨Iff.rfl, fun v => Iff.rfl⟩

theorem Fresh.wake {ts : List τ} (h : Fresh s) : Fresh (s.wake ts) :=
  ⟨fun u f v hc => h.data u f v (((wake_writes u f).2 v).mp hc),
    fun u f hs => h.valid u f ((wake_writes u f).1.mp hs)⟩

omit [DecidableEq τ] in
theorem Fresh.setDev (h : Fresh s) (dev : Dev β) : Fresh { s with dev := dev } :=
  ⟨h.data, h.valid⟩

end Move

section Facts
variable [Fintype τ] {s : Sys τ β} {t u : τ} {f : BufId} {v : β}

omit [Fintype τ] in
theorem writes_or_syncs {x : Pc β} (h : x.copy f v) : x.writes f = 1 ∨ x.syncs f := by
  unfold Pc.copy at h
  split at h
  · exact Or.inl (by simp [Pc.writes, h.1])
  · exact Or.inl (by simp [Pc.writes, h.1])
  · exact Or.inr h.1
  · exact h.elim

omit [Fintype τ] in
theorem refs_of_syncs {x : Pc β} (h : x.syncs f) : x.refs f = 1 ∧ x.reads f = 0 := by
  unfold Pc.syncs at h
  split at h
  · simp [Pc.refs, Pc.reads, h]
  · exact h.elim

theorem Inv.of_syncs (h : Inv s) (hs : (s.pc u).syncs f) :
    0 < s.refs f ∧ s.pool.busy f = false := by
  obtain ⟨h1, h2⟩ := refs_of_syncs hs
  exact ⟨refs_pos (t := u) (by omega), h.not_busy h2 (by omega)⟩

theorem Inv.sole_writer (h : Inv s) (ht : (s.pc t).writes f = 1) (hu : u ≠ t) :
    ¬ (s.pc u).syncs f ∧ ¬ (s.pc u).copy f v := by
  classical
  have hst := h.writing ht
  have hsync : ¬ (s.pc u).syncs f := fun hs => (h.in_use (h.of_syncs hs).1).2.2.2 hst
  refine ⟨hsync, fun hc => ?_⟩
  have hw := (writes_or_syncs hc).resolve_right hsync
  have hone := (h.buf f).writers
  rw [if_pos hst] at hone
  have hsum : ∑ w ∈ ({t, u} : Finset τ), (s.pc w).writes f ≤ s.writers f :=
    Finset.sum_le_sum_of_subset (Finset.subset_univ _)
  rw [Finset.sum_pair hu.symm] at hsum
  omega

theorem Inv.not_written (h : Inv s) (hst : s.pool.state f = .free ∨ s.pool.state f = .clean) :
    ¬ (s.pc u).syncs f ∧ ¬ (s.pc u).copy f v := by
  have hsync : ¬ (s.pc u).syncs f := fun hs => by
    have := h.in_use (h.of_syncs hs).1
    rcases hst with hst | hst <;> simp [hst] at this
  refine ⟨hsync, fun hc => ?_⟩
  have := h.writing ((writes_or_syncs hc).resolve_right hsync)
  rcases hst with hst | hst <;> simp [hst] at this

end Facts

section Moves
variable [DecidableEq τ] [Fintype τ] [Zero β] {s s' : Sys τ β} {t : τ} {f : BufId}

section
omit [Fintype τ]

theorem useNew_data {p : Pool τ β} (k : Fetch) (b : Blkno) {g : BufId} (hg : g ≠ f) :
    (s.useNew t k b p f).pool.data g = p.data g ∧ (s.useNew t k b p f).pool.state g = p.state g := by
  cases k <;> simp [Sys.useNew, Pool.bindForRead, Pool.bindForAlloc, Pool.readBufferStart, Pool.bind, hg]

theorem useNew_blkno {p : Pool τ β} (k : Fetch) (b : Blkno) {g : BufId} (hg : g ≠ f) :
    (s.useNew t k b p f).pool.blkno g = p.blkno g := by
  cases k <;> simp [Sys.useNew, Pool.bindForRead, Pool.bindForAlloc, Pool.readBufferStart, Pool.bind, hg]

theorem Fresh.useNew {p : Pool τ β} {k : Fetch} {b : Blkno} (h : Fresh s)
    (hn : ∀ u v, u ≠ t → ¬ (s.pc u).syncs f ∧ ¬ (s.pc u).copy f v)
    (hd : p.data = s.pool.data) (hst : ∀ g, g ≠ f → p.state g = s.pool.state g) :
    Fresh (s.useNew t k b p f) := by
  refine h.move t (fun u hu g => ?_) ?_ (fun u g v hu hc => ?_) (fun u g hu hs => ?_)
  · cases k <;> simp [Sys.useNew, hu]
  · cases k
    · simp only [Sys.useNew, Sys.goto_pc, update_self]
      exact fun _ => ⟨id, fun _ => id⟩
    · simp only [Sys.useNew, Sys.give_pc, update_self]
      exact quiet_idle
  · have hg : g ≠ f := fun e => (hn u v hu).2 (e ▸ hc)
    rw [(useNew_data k b hg).1, hd]
  · have hg : g ≠ f := fun e => (hn u 0 hu).1 (e ▸ hs)
    rw [(useNew_data k b hg).2, hst g hg]
    exact id

theorem evictFinish_fresh {k : Fetch} {b : Blkno} {rc : ℤ} (h : Fresh s)
    (hn : ∀ u v, u ≠ t → ¬ (s.pc u).syncs f ∧ ¬ (s.pc u).copy f v) :
    Fresh (s.evictFinish t k b f rc) := by
  have hw : Fresh (s.wake (s.pool.waiters f)) := h.wake
  have hnw (u : τ) (v : β) (hu : u ≠ t) : ¬ ((s.wake (s.pool.waiters f)).pc u).syncs f ∧
      ¬ ((s.wake (s.pool.waiters f)).pc u).copy f v := by
    have : (((s.wake (s.pool.waiters f)).pc u).syncs f ↔ (s.pc u).syncs f) ∧
        ∀ v, ((s.wake (s.pool.waiters f)).pc u).copy f v ↔ (s.pc u).copy f v := wake_writes u f
    rw [this.1, this.2 v]
    exact hn u v hu
  have hst (g : BufId) (hg : g ≠ f) : (s.pool.transferFinish f rc).state g = s.pool.state g := by
    simp [transferFinish_states, hg]
  unfold Sys.evictFinish
  dsimp only
  split_ifs
  · exact hw.useNew hnw (transferFinish_data s.pool f rc) hst
  · refine hw.goto (fun _ => ⟨id, fun _ => id⟩) (fun u g v _ _ => ?_) (fun u g hu hs => ?_)
    · exact congrFun (transferFinish_data s.pool f rc) g
    · have hg : g ≠ f := fun e => (hnw u 0 hu).1 (e ▸ hs)
      show (s.pool.transferFinish f rc).state g = _ → _
      rw [hst g hg]
      exact id

end

omit [Fintype τ] [Zero β] in
theorem take_fresh (h : Fresh s) (ht : s.take t = some s') : Fresh s' := by
  have hgoto (f : BufId) (x : Pc β) (hc : ∀ g v, x.copy g v → g = f ∧ v = s.pool.data f)
      (hs : ∀ g, x.syncs g → (s.pc t).syncs g) : Fresh (s.goto t s.pool x) := by
    constructor
    · intro u g v hu
      rcases eq_or_ne u t with rfl | hut
      · obtain ⟨rfl, rfl⟩ := hc g v (by simpa using hu)
        rfl
      · exact h.data u g v (by simpa [hut] using hu)
    · intro u g hu
      rcases eq_or_ne u t with rfl | hut
      · exact h.valid u g (hs g (by simpa using hu))
      · exact h.valid u g (by simpa [hut] using hu)
  unfold Sys.take at ht
  split at ht <;> cases ht <;> rename_i hpc
  · exact hgoto _ _ (fun g v hc => ⟨hc.1.symm, hc.2.symm⟩) fun g => False.elim
  · exact hgoto _ _ (fun g v hc => ⟨hc.1.symm, hc.2.symm⟩) fun g => False.elim
  · exact hgoto _ _ (fun g v hc => ⟨hc.1.symm, hc.2.symm⟩) fun g hs => by
      rw [hpc]
      exact hs

omit [Fintype τ] [Zero β] in
theorem not_invalid_of_flushWritten {rc : ℤ} {g : BufId}
    (h : (s.flushWritten f rc).pool.state g = .invalid) : s.pool.state g = .invalid := by
  obtain ⟨st, hst, hor, -⟩ := flushWritten_state f s rc
  rw [hst] at h
  rcases eq_or_ne g f with rfl | hg
  · rw [update_self] at h
    subst h
    simp at hor
  · simpa [hg] using h

omit [Zero β] in
theorem readDone_fresh {rc : ℤ} {d : β} (hi : Inv s) (h : Fresh s) (hpc : s.pc t = .read f) :
    Fresh (s.readDone t f rc d) := by
  have hst := hi.reading (t := t) (f := f) (by simp [hpc, Pc.reads])
  have hd (u : τ) (g : BufId) (v : β) (hc : ((s.wake (s.pool.waiters f)).pc u).copy g v) :
      (s.pool.readBufferFinish f rc d).data g = s.pool.data g := by
    have hg : g ≠ f := by
      rintro rfl
      rcases writes_or_syncs (((wake_writes u g).2 v).mp hc) with hw | hs
      · rw [hi.writing hw] at hst
        cases hst
      · have := (hi.of_syncs hs).2
        simp [Pool.busy, hst] at this
    simp [Pool.readBufferFinish, hg]
  have hs (g : BufId) (hx : (s.pool.readBufferFinish f rc d).state g = .invalid) :
      s.pool.state g = .invalid := by
    rw [Pool.readBufferFinish, transferFinish_states] at hx
    rcases eq_or_ne g f with rfl | hg
    · rw [update_self] at hx
      split_ifs at hx
    · simpa [hg] using hx
  unfold Sys.readDone
  dsimp only
  split_ifs
  · refine h.wake.finish (fun u g v _ hc => ?_) fun u g _ _ hx => hs g ?_
    · rw [releaseBuffer_data]
      exact hd u g v hc
    · rw [releaseBuffer_state] at hx
      rcases eq_or_ne g f with rfl | hg
      · rw [update_self] at hx
        split_ifs at hx
        · cases hst : (s.pool.readBufferFinish g rc d).state g <;> simp_all [BufState.settled]
        · exact hx
      · simpa [hg] using hx
  · exact h.wake.give (fun u g v _ hc => hd u g v hc) fun u g _ _ => hs g

theorem entry_fresh {l : Label τ β} (hi : Inv s) (h : Fresh s) (hun : s.Undisturbed l)
    (he : Entry l s s') : Fresh s' := by
  cases he with
  | miss | wait | sync | syncStart =>
    exact h.goto (fun _ => ⟨id, fun _ => id⟩) (fun _ _ _ _ _ => rfl) fun _ _ _ _ => id
  | absent | setNosync | nosync => exact h.finish (fun _ _ _ _ _ => rfl) fun _ _ _ _ => id
  | @claim _ t op c b f hpc hop hs hb =>
    refine h.goto (fun _ => ⟨id, fun _ => id⟩) (fun u g v _ hc => ?_) fun u g _ _ => ?_
    · rw [claim_data]
      split_ifs with hst
      · refine update_of_ne (fun e => ?_) _ _
        subst e
        rcases writes_or_syncs hc with hw | hs
        · rw [hi.writing hw] at hst
          cases hst
        · exact h.valid u _ hs hst
      · rfl
    · rw [claim_state]
      rcases eq_or_ne g f with rfl | hg
      · cases hst : s.pool.state g <;> simp [BufState.claimed]
      · simp [hg]
  | @write _ t f d hpc hh =>
    refine h.finish (fun u g v _ hc => ?_) fun _ _ _ _ => id
    refine update_of_ne (fun e => ?_) _ _
    subst e
    rcases writes_or_syncs hc with hw | hs
    · exact (hi.in_use (refs_pos (t := t) (by omega))).2.2.2 (hi.writing hw)
    · exact hun ⟨u, v, hs, hc⟩
  | @markUpdated _ t f hpc =>
    refine h.finish (fun _ _ _ _ _ => by simp) fun u g _ _ => ?_
    rw [markBufferUpdated_state]
    rcases eq_or_ne g f with rfl | hg
    · split_ifs <;> simp_all
    · simp [hg]
  | @markInvalid _ t f hpc =>
    refine h.finish (fun _ _ _ _ _ => by simp) fun u g _ hs => ?_
    have hg : g ≠ f := fun e => hun ⟨u, e ▸ hs⟩
    rw [markBufferInvalid_state]
    simp [hg]
  | @release _ t f hpc hh =>
    have := h.finish (t := t) (p := s.pool.releaseBuffer f) (r := .nothing)
      (fun _ _ _ _ _ => by simp) fun u g _ _ => ?_
    · exact ⟨this.data, this.valid⟩
    · rw [releaseBuffer_state]
      rcases eq_or_ne g f with rfl | hg
      · simp only [update_self]
        split_ifs
        · cases hst : s.pool.state g <;> simp [BufState.settled]
        · exact id
      · simp [hg]
  | flush hpc hns => exact h.goto (fun _ => ⟨id, fun _ => id⟩) (fun _ _ _ _ _ => rfl) fun _ _ _ _ => id
  | take ht => exact take_fresh h ht
  | @evictEnd _ t k b f taken rc d dev hpc hw =>
    refine evictFinish_fresh (h.setDev dev) fun u v hu => ?_
    exact hi.sole_writer (by simp [hpc, Pc.writes]) hu
  | @flushEnd _ t i f taken rc d dev hpc hw hrc =>
    rw [flushWritten_goto]
    exact (h.setDev dev).wake.goto (fun _ => ⟨id, fun _ => id⟩)
      (fun _ g _ _ _ => congrFun (flushWritten_data f _ rc) g)
      fun _ g _ _ => not_invalid_of_flushWritten
  | @flushFail _ t i f taken rc d dev hpc hw hrc =>
    rw [flushWritten_finish]
    exact (h.setDev dev).wake.finish (fun _ g _ _ _ => congrFun (flushWritten_data f _ rc) g)
      fun _ g _ _ => not_invalid_of_flushWritten
  | @syncEnd _ t i f taken rc d dev hpc hw hrc =>
    refine (h.setDev dev).goto (fun _ => ⟨id, fun _ => id⟩)
      (fun _ g _ _ _ => congrFun (releaseBuffer_data _ f) g) fun u g _ _ => ?_
    rw [releaseBuffer_state]
    rcases eq_or_ne g f with rfl | hg
    · split_ifs <;> simp [BufState.settled]
    · simp [hg]
  | @syncFail _ t i f taken rc d dev hpc hw hrc =>
    have := (h.setDev dev).finish (t := t) (r := .code rc) (fun _ _ _ _ _ => rfl)
      fun _ _ _ _ => id
    exact ⟨this.data, this.valid⟩
  | @readEnd _ t f rc d hpc => exact readDone_fresh hi h hpc
  | resume hpc => exact h
  | syncUser hpc hsy => 
    exact (h.setDev _).goto (fun _ => ⟨id, fun _ => id⟩) (fun _ _ _ _ _ => rfl) fun _ _ _ _ => id

omit [Fintype τ] in
/-- A step that has got a buffer from `lookup_buffer` has either just looked it up or was
resumed with it. -/
theorem entry_woken {l : Label τ β} {c : Caller} (he : Entry l s s')
    (hw : s'.pc l.thread = .woken c f) :
    (∃ t op b, l = .call t op ∧ op.lookup = some (c, b) ∧ s.pool.search b = some f ∧
      ∀ u, u ≠ t → s'.pc u = s.pc u) ∨ l = .resume l.thread ∧ s' = s := by
  cases he with
  | @claim _ t op c' b f' hpc hop hs hb =>
    simp only [Label.thread, Sys.goto_pc, update_self, Pc.woken.injEq] at hw
    obtain ⟨rfl, rfl⟩ := hw
    exact Or.inl ⟨t, op, b, rfl, hop, hs, fun u hu => by simp [hu]⟩
  | resume hpc => exact Or.inr ⟨rfl, rfl⟩
  | take ht =>
    unfold Sys.take at ht
    split at ht <;> cases ht <;> simp [Label.thread] at hw
  | @evictEnd _ t k b f taken rc d dev hpc hwr =>
    simp only [Sys.evictFinish, Label.thread] at hw
    split_ifs at hw
    · cases k <;> simp [Sys.useNew] at hw
    · simp at hw
  | readEnd hpc =>
    simp only [Sys.readDone, Label.thread] at hw
    split_ifs at hw <;> simp at hw
  | _ => simp [Label.thread] at hw

omit [Fintype τ] in
theorem entry_undisturbed {l : Label τ β} (hun : s.Undisturbed l) (he : Entry l s s') :
    s'.Undisturbed (.resume l.thread) := by
  constructor
  · rintro f hw ⟨u, v, hs, hc⟩
    rcases entry_woken he hw with ⟨t, op, b, rfl, hop, hsr, hpc⟩ | ⟨hl, rfl⟩
    · obtain rfl : op = .alloc b := by cases op <;> simp_all [Op.lookup]
      have hu : u ≠ t := by
        rintro rfl
        rw [show s'.pc u = _ from hw] at hs
        exact hs
      rw [hpc u hu] at hs hc
      exact hun f hsr ⟨u, v, hs, hc⟩
    · rw [hl] at hun
      exact hun.1 f hw ⟨u, v, hs, hc⟩
  · rintro f hw ⟨u, hs⟩
    rcases entry_woken he hw with ⟨t, op, b, rfl, hop, hsr, hpc⟩ | ⟨hl, rfl⟩
    · obtain rfl : op = .invalidate b := by cases op <;> simp_all [Op.lookup]
      have hu : u ≠ t := by
        rintro rfl
        rw [show s'.pc u = _ from hw] at hs
        exact hs
      rw [hpc u hu] at hs
      exact hun f hsr ⟨u, hs⟩
    · rw [hl] at hun
      exact hun.2 f hw ⟨u, hs⟩

theorem cont_fresh (hi : Inv s) (h : Fresh s) (hun : s.Undisturbed (.resume t))
    (hc : Cont t s s') : Fresh s' := by
  cases hc with
  | @afterLookup c f hpc =>
    have hrel (q : Pool τ β) (g : BufId) (hq : (q.releaseBuffer f).state g = .invalid) :
        q.state g = .invalid := by
      rw [releaseBuffer_state] at hq
      rcases eq_or_ne g f with rfl | hg
      · rw [update_self] at hq
        split_ifs at hq
        · cases hst : q.state g <;> simp_all [BufState.settled]
        · exact hq
      · simpa [hg] using hq
    unfold Sys.afterLookup
    split
    · split_ifs
      · exact h.finish (fun _ _ _ _ _ => by simp) fun u g _ _ => hrel s.pool g
      · split
        · exact h.give (fun _ _ _ _ _ => rfl) fun _ _ _ _ => id
        · refine h.give (fun u g v _ hc => ?_) fun _ _ _ _ => id
          refine update_of_ne (fun e => ?_) _ _
          subst e
          rcases writes_or_syncs hc with hw | hs
          · have hpos : 0 < s.refs g := refs_pos (t := t) (by simp [hpc, Pc.refs])
            exact (hi.in_use hpos).2.2.2 (hi.writing hw)
          · exact hun.1 g hpc ⟨u, v, hs, hc⟩
    · refine h.finish (fun _ _ _ _ _ => by simp) fun u g _ hs hx => ?_
      have hg : g ≠ f := fun e => hun.2 f hpc ⟨u, e ▸ hs⟩
      have := hrel _ g hx
      rw [markBufferInvalid_state] at this
      simpa [hg] using this
  | @free k b f hpc hf =>
    exact h.useNew (fun u v _ => hi.not_written (Or.inl (hi.free_head hf))) rfl fun _ _ => rfl
  | @clean k b f hpc hf hcl =>
    exact h.useNew (fun u v _ => hi.not_written (Or.inr (hi.clean_head hcl))) rfl fun _ _ => rfl
  | @evict k b f hpc hf hcl hd | @flush i f hpc hd =>
    refine h.goto (fun _ => ⟨id, fun _ => id⟩) (fun _ _ _ _ _ => by simp) fun u g _ _ hx => ?_
    rcases eq_or_ne g f with rfl | hg
    · simp at hx
    · simpa [hg] using hx
  | flushReturn hpc hr => exact h.finish (fun _ _ _ _ _ => rfl) fun _ _ _ _ => id
  | @sync i j f hpc hst hf =>
    constructor
    · intro u g v hu
      rcases eq_or_ne u t with rfl | hut
      · simp [Pc.copy] at hu
      · exact h.data u g v (by simpa [hut] using hu)
    · intro u g hu
      rcases eq_or_ne u t with rfl | hut
      · obtain rfl : f = g := by simpa [Pc.syncs] using hu
        show s.pool.state f ≠ .invalid
        rw [hst]
        decide
      · exact h.valid u g (by simpa [hut] using hu)
  | syncReturn hpc hr => exact h.finish (fun _ _ _ _ _ => rfl) fun _ _ _ _ => id

section
omit [Fintype τ]

@[simp] theorem useNew_dev {p : Pool τ β} {k : Fetch} {b : Blkno} :
    (s.useNew t k b p f).dev = s.dev := by
  funext a
  cases k <;> simp [Sys.useNew]

theorem cont_dev (hc : Cont t s s') : s'.dev = s.dev := by
  cases hc with
  | afterLookup hpc =>
    unfold Sys.afterLookup
    split
    · split_ifs
      · rfl
      · split <;> rfl
    · rfl
  | free hpc hf => exact useNew_dev
  | clean hpc hf hcl => exact useNew_dev
  | _ => rfl

theorem evictFinish_dev {k : Fetch} {b : Blkno} {rc : ℤ} :
    (s.evictFinish t k b f rc).dev = s.dev := by
  unfold Sys.evictFinish
  dsimp only
  split_ifs
  · exact useNew_dev
  · rfl

end

omit [Fintype τ] [Zero β] in
theorem flushWritten_dev {rc : ℤ} : (s.flushWritten f rc).dev = s.dev := by
  unfold Sys.flushWritten
  dsimp only
  split_ifs <;> rfl

omit [DecidableEq τ] [Fintype τ] [Zero β] in
theorem written_full {taken : Option β} {rc : ℤ} {d : β} {dev : Dev β}
    (hw : s.written f taken rc d = some dev) (hrc : rc = s.pool.bufsize) :
    ∃ v, taken = some v ∧ dev = update s.dev (s.pool.addr f) v := by
  rw [Sys.written, if_pos hrc, Option.map_eq_some_iff] at hw
  obtain ⟨v, hv, rfl⟩ := hw
  exact ⟨v, hv, rfl⟩

omit [DecidableEq τ] [Fintype τ] [Zero β] in
theorem Fresh.stored {taken : Option β} {rc : ℤ} {d : β} {dev : Dev β} (h : Fresh s)
    (hcp : ∀ v, taken = some v → (s.pc t).copy f v) (hrc : rc = s.pool.bufsize)
    (hw : s.written f taken rc d = some dev) : dev (s.pool.addr f) = s.pool.data f := by
  obtain ⟨v, hv, rfl⟩ := written_full hw hrc
  rw [update_self, h.data t f v (hcp v hv)]

theorem Fresh.written {rc : ℤ} {d : β} (hi : Inv s) (hb : s.Bounded) (h : Fresh s)
    (hw : (s.pc t).writes f = 1 ∨ (s.pc t).syncs f) (hrc : rc = s.pool.bufsize)
    (hs : s.step (.done t rc d) = some s') : s'.dev (s.pool.addr f) = s.pool.data f := by
  obtain ⟨m, he, -, hc⟩ := step_moves hi hb hs
  have hdev : s'.dev = m.dev := by
    rcases hc with rfl | hc
    · rfl
    · exact cont_dev hc
  rw [hdev]
  cases he with
  | @evictEnd _ _ k b g taken _ _ dev hpc hwr =>
    rw [evictFinish_dev]
    obtain rfl : g = f := by simpa [hpc, Pc.writes, Pc.syncs] using hw
    exact h.stored (fun v hv => by rw [hpc, hv]; exact ⟨rfl, rfl⟩) hrc hwr
  | @flushEnd _ _ i g taken _ _ dev hpc hwr _ =>
    rw [Sys.goto_dev, flushWritten_dev]
    obtain rfl : g = f := by simpa [hpc, Pc.writes, Pc.syncs] using hw
    exact h.stored (fun v hv => by rw [hpc, hv]; exact ⟨rfl, rfl⟩) hrc hwr
  | @flushFail _ _ i g taken _ _ dev hpc hwr _ =>
    rw [Sys.finish_dev, flushWritten_dev]
    obtain rfl : g = f := by simpa [hpc, Pc.writes, Pc.syncs] using hw
    exact h.stored (fun v hv => by rw [hpc, hv]; exact ⟨rfl, rfl⟩) hrc hwr
  | @syncEnd _ _ i g taken _ _ dev hpc hwr _ | @syncFail _ _ i g taken _ _ dev hpc hwr _ =>
    obtain rfl : g = f := by simpa [hpc, Pc.writes, Pc.syncs] using hw
    exact h.stored (fun v hv => by rw [hpc, hv]; exact ⟨rfl, rfl⟩) hrc hwr
  | readEnd hpc => simp [hpc, Pc.writes, Pc.syncs] at hw

end Moves

/-- A write back of `f` that ended between `s` and `s'` lost nothing: a buffer marked invalid
stays so, and data that did not reach the device are still to be written. -/
def WriteBackSafe (s s' : Sys τ β) (f : BufId) : Prop :=
  if s.pool.state f = .invalid then s'.pool.state f = .invalid ∨ s'.pool.state f = .free
  else s'.dev (s.pool.addr f) = s.pool.data f ∨ s'.pool.state f = .updated ∨ s'.pool.state f = .dirty

section Theorem
variable [DecidableEq τ] [Fintype τ] [Zero β] {poolsize bufsize blksize : ℕ}
  {sync : Option (Dev β → Dev β)} {dev : Dev β} {s s' : Sys τ β}

/-- In every run in which the buffers that `sync_buffers` writes are left alone, every complete
write back is safe. -/
theorem write_back_safe {t : τ} {f : BufId} {rc : ℤ} {d : β} (hp : 0 < poolsize)
    (h : Reach Sys.step (fun m l => m.Bounded ∧ m.Undisturbed l)
      (initSys τ poolsize bufsize blksize sync dev) s) (hb : s.Bounded)
    (hw : (s.pc t).writes f = 1 ∨ (s.pc t).syncs f) (hrc : rc = s.pool.bufsize)
    (hs : s.step (.done t rc d) = some s') : WriteBackSafe s s' f := by
  have hinv : Inv s := reach_inv hp (h.mono fun _ _ hok => hok.1)
  have hfresh : Fresh s := moves_invariant
    h (fun _ _ hok => hok.1) (init_inv hp)
    ⟨fun _ _ _ => False.elim, fun _ _ => False.elim⟩
    (fun a l b ha _ hok hu he => ⟨entry_fresh ha hu hok.2 he, entry_undisturbed hok.2 he⟩)
    (fun l a b ha _ hu hq hc => cont_fresh ha hu hq hc)
  have hst : s.pool.state f ≠ .invalid := by
    rcases hw with hw | hw
    · rw [hinv.writing hw]
      decide
    · exact hfresh.valid t f hw
  rw [WriteBackSafe, if_neg hst]
  exact Or.inl (hfresh.written hinv hb hw hrc hs)

theorem write_back_safe_sync :
    ∃ s s' : Sys Unit ℕ, (s.pc ()).syncs 0 ∧ s.step (.done () 512 0) = some s' ∧
      WriteBackSafe s s' 0 := by
  have h1 (f : BufId) : update (fun _ : BufId => 0) 0 1 f ≤ 1 := by
    rcases eq_or_ne f 0 with rfl | hf
    · simp
    · simp [hf]
  have r1 : Reach Sys.step (fun m l => m.Bounded ∧ m.Undisturbed l)
      (initSys Unit (β := ℕ) 1 512 512 none 0) _ :=
    Reach.single (l := .call () (.alloc 0)) ⟨init_bounded, fun f hf => by cases hf⟩ rfl
  have r2 := r1.tail (l := .call () (.markUpdated 0))
    ⟨bounded_unit h1 (fun _ => rfl) fun _ => rfl, by trivial⟩ rfl
  have r3 := r2.tail (l := .call () (.sync false))
    ⟨bounded_unit h1 (fun _ => rfl) fun _ => rfl, by trivial⟩ rfl
  have r4 := r3.tail (l := .take ()) ⟨bounded_unit h1 (fun _ => rfl) fun _ => rfl, by trivial⟩ rfl
  refine ⟨_, _, ?_, ?_, write_back_safe (t := ()) (d := 0) (by decide) r4
    (bounded_unit h1 (fun _ => rfl) fun _ => rfl) (Or.inr rfl) rfl rfl⟩
  · rfl
  · rfl

end Theorem

/-- Thread 0 changes a buffer, or marks it invalid, after the device took the data for the
`sync_buffers` of thread 1. -/
theorem sync_loses_update :
    (∃ s s' : Sys (Fin 2) ℕ, Reach Sys.step (fun _ _ => True) (initSys (Fin 2) 1 512 512 none 0) s ∧
      (s.pc 1).syncs 0 ∧ s.step (.done 1 512 0) = some s' ∧ ¬ WriteBackSafe s s' 0) ∧
    ∃ s s' : Sys (Fin 2) ℕ, Reach Sys.step (fun _ _ => True) (initSys (Fin 2) 1 512 512 none 0) s ∧
      s.pool.state 0 = .invalid ∧ (s.pc 1).syncs 0 ∧ s.step (.done 1 512 0) = some s' ∧
      s'.pool.state 0 = .locked := by
  constructor
  · refine ⟨_, _, reach_of_run [.call 0 (.alloc 0), .call 0 (.write 0 5), .call 0 (.markUpdated 0),
      .call 1 (.sync false), .take 1, .call 0 (.write 0 7), .call 0 (.markUpdated 0)] rfl, rfl, rfl, ?_⟩
    rintro (h | h | h) <;> cases h
  · exact ⟨_, _, reach_of_run [.call 0 (.alloc 0), .call 0 (.write 0 5), .call 0 (.markUpdated 0),
      .call 1 (.sync false), .take 1, .call 0 (.markInvalid 0)] rfl, rfl, rfl, rfl, rfl⟩

end SimpleKernel.Buffer
