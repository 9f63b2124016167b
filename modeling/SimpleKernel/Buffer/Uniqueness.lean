import SimpleKernel.Buffer.Moves

/-! Two buffers in the hash table never carry the same block, provided that no call misses on a block while another
miss on it is in `get_new_buffer`: the miss is not looked at again after `get_new_buffer` blocked. -/
namespace SimpleKernel.Buffer
open LinkedList Transition

variable {τ β : Type}

/-- The block that buffer `f` caches. -/
def Pool.block (p : Pool τ β) (f : BufId) : Option Blkno :=
  if f < p.poolsize ∧ p.state f ≠ .free then some (p.blkno f) else none

/-- The thread missed on block `b` and is in `get_new_buffer`. -/
def Pc.misses (x : Pc β) (b : Blkno) : Prop :=
  match x with
  | .evict _ c _ _ | .retry _ c => c = b
  | _ => False

/-- A call of `get_buffer` or `alloc_buffer` that misses is alone with its block. -/
def Sys.Exclusive (s : Sys τ β) : Label τ β → Prop
  | .call _ op => ∀ k b, op.lookup = some (.fetch k, b) → s.pool.search b = none →
      ∀ u, ¬ (s.pc u).misses b
  | _ => True

structure Uniq (s : Sys τ β) : Prop where
  block : ∀ f g b, s.pool.block f = some b → s.pool.block g = some b → f = g
  fresh : ∀ t b, (s.pc t).misses b → ∀ f, s.pool.block f ≠ some b
  alone : ∀ t u b, (s.pc t).misses b → (s.pc u).misses b → t = u

/-- No buffer gets another block from `p` to `q`. -/
def Shrinks (p q : Pool τ β) : Prop := ∀ g b, q.block g = some b → p.block g = some b

theorem block_eq_some {p : Pool τ β} {f : BufId} {b : Blkno} :
    p.block f = some b ↔ (f < p.poolsize ∧ p.state f ≠ .free) ∧ p.blkno f = b := by
  simp [Pool.block]

theorem shrinks_of {p q : Pool τ β} (hn : q.poolsize = p.poolsize)
    (h : ∀ g, q.state g ≠ .free → p.state g ≠ .free ∧ q.blkno g = p.blkno g) : Shrinks p q := by
  intro g b hg
  rw [block_eq_some] at hg ⊢
  obtain ⟨h1, h2⟩ := h g hg.1.2
  exact ⟨⟨hn ▸ hg.1.1, h1⟩, h2 ▸ hg.2⟩

theorem Shrinks.refl (p : Pool τ β) : Shrinks p p := fun _ _ h => h

theorem Shrinks.trans {p q r : Pool τ β} (h : Shrinks p q) (h' : Shrinks q r) : Shrinks p r :=
  fun g b hg => h g b (h' g b hg)

section Shrinks
variable {p : Pool τ β} {f : BufId}

theorem shrinks_changeState {st : BufState} (h : p.state f ≠ .free) :
    Shrinks p (p.changeState f st) := by
  refine shrinks_of rfl fun g hg => ⟨?_, rfl⟩
  rcases eq_or_ne g f with rfl | hne
  · exact h
  · simpa [hne] using hg

theorem shrinks_releaseBuffer : Shrinks p (p.releaseBuffer f) := by
  have hu : Shrinks p (p.unlock f) := shrinks_of rfl fun g hg => ⟨hg, rfl⟩
  unfold Pool.releaseBuffer
  split_ifs
  · exact hu
  · unfold Pool.settle
    refine hu.trans ?_
    split
    · rename_i hst
      exact shrinks_changeState (by rw [hst]; decide)
    · rename_i hst
      exact shrinks_changeState (by rw [hst]; decide)
    · rename_i hst
      exact shrinks_changeState (p := (p.unlock f).removeFromHashtable f) (by
        rw [Pool.removeFromHashtable_state, hst]; decide)
    · rename_i hst
      exact shrinks_changeState (p := (p.unlock f).removeFromHashtable f) (by
        rw [Pool.removeFromHashtable_state, hst]; decide)
    all_goals exact shrinks_of rfl fun g hg => ⟨hg, rfl⟩

theorem shrinks_claim [Zero β] : Shrinks p (p.claim f) := by
  unfold Pool.claim
  split
  · exact shrinks_of rfl fun g hg => ⟨hg, rfl⟩
  · rename_i hst
    exact shrinks_changeState (p := p.removeFromClean f) (by
      rw [Pool.removeFromClean_state, hst]; decide)
  · rename_i hst
    exact shrinks_changeState (p := p.removeFromDirty f) (by
      rw [Pool.removeFromDirty_state, hst]; decide)
  · exact Shrinks.refl p
  · exact Shrinks.refl p
  · exact shrinks_of rfl fun g hg => ⟨hg, rfl⟩
  · exact shrinks_of rfl fun g hg => ⟨hg, rfl⟩
  · rename_i hst
    exact shrinks_changeState (p := p) (by rw [hst]; decide)
  · exact shrinks_of rfl fun g hg => ⟨hg, rfl⟩

theorem shrinks_mark : Shrinks p (p.markBufferUpdated f) ∧ Shrinks p (p.markBufferInvalid f) := by
  constructor
  · unfold Pool.markBufferUpdated
    split_ifs with hst
    · exact shrinks_changeState (by rcases hst with hst | hst <;> rw [hst] <;> decide)
    · exact Shrinks.refl p
  · unfold Pool.markBufferInvalid
    split_ifs with hst
    · exact shrinks_changeState (by rcases hst with hst | hst <;> rw [hst] <;> decide)
    · exact Shrinks.refl p

theorem shrinks_writeBufferStart {flush : Bool} (h : p.state f ≠ .free) :
    Shrinks p (p.writeBufferStart f flush) := by
  unfold Pool.writeBufferStart
  split_ifs
  · exact shrinks_changeState h
  · exact shrinks_changeState (p := p.removeFromDirty f) h

theorem shrinks_transferFinish {rc : ℤ} (h : p.state f ≠ .free) :
    Shrinks p (p.transferFinish f rc) := by
  rw [transferFinish_spec]
  exact shrinks_changeState h

end Shrinks

section Keep
variable [DecidableEq τ] {s s' : Sys τ β} {t : τ} {f : BufId}

omit [DecidableEq τ] in
theorem Uniq.shrink (h : Uniq s) (hp : Shrinks s.pool s'.pool)
    (hpc : ∀ u b, u ≠ t → (s'.pc u).misses b → (s.pc u).misses b)
    (ht : ∀ b, (s'.pc t).misses b → (s.pc t).misses b ∨
      (∀ g, s.pool.block g ≠ some b) ∧ ∀ u, ¬ (s.pc u).misses b) : Uniq s' := by
  refine ⟨fun a c b ha hc => h.block a c b (hp a b ha) (hp c b hc), fun u b hu g hg => ?_,
    fun u v b hu hv => ?_⟩
  · rcases eq_or_ne u t with rfl | hut
    · rcases ht b hu with hm | hm
      · exact h.fresh u b hm g (hp g b hg)
      · exact hm.1 g (hp g b hg)
    · exact h.fresh u b (hpc u b hut hu) g (hp g b hg)
  · have hback (w : τ) (hw : (s'.pc w).misses b) :
        (s.pc w).misses b ∨ w = t ∧ ∀ x, ¬ (s.pc x).misses b := by
      rcases eq_or_ne w t with rfl | hwt
      · exact (ht b hw).imp_right fun hm => ⟨rfl, hm.2⟩
      · exact Or.inl (hpc w b hwt hw)
    rcases hback u hu with h1 | ⟨h1, h1'⟩ <;> rcases hback v hv with h2 | ⟨h2, h2'⟩
    · exact h.alone u v b h1 h2
    · exact absurd h1 (h2' u)
    · exact absurd h2 (h1' v)
    · exact h1.trans h2.symm

theorem Uniq.goto {p : Pool τ β} {x : Pc β} (h : Uniq s) (hp : Shrinks s.pool p)
    (hx : ∀ b, x.misses b → (s.pc t).misses b) : Uniq (s.goto t p x) := by
  refine h.shrink (t := t) hp (fun u b hu hm => by simpa [hu] using hm) fun b hm => Or.inl ?_
  exact hx b (by simpa using hm)

theorem Uniq.finish {p : Pool τ β} {r : Ret} (h : Uniq s) (hp : Shrinks s.pool p) :
    Uniq (s.finish t p r) := by
  refine h.shrink (t := t) hp (fun u b hu hm => by simpa [hu] using hm) fun b hm => ?_
  simp [Pc.misses] at hm

theorem Uniq.give {p : Pool τ β} (h : Uniq s) (hp : Shrinks s.pool p) :
    Uniq (s.give t p f) := by
  refine h.shrink (t := t) hp (fun u b hu hm => by simpa [hu] using hm) fun b hm => ?_
  simp [Pc.misses] at hm

theorem Uniq.wake {ts : List τ} (h : Uniq s) : Uniq (s.wake ts) := by
  have hpc (u : τ) (b : Blkno) : ((s.wake ts).pc u).misses b ↔ (s.pc u).misses b := by
    simp only [Sys.wake_pc]
    split_ifs
    · cases s.pc u <;> exact Iff.rfl
    · exact Iff.rfl
  exact ⟨h.block, fun t b ht => h.fresh t b ((hpc t b).mp ht),
    fun t u b ht hu => h.alone t u b ((hpc t b).mp ht) ((hpc u b).mp hu)⟩

omit [DecidableEq τ] in
theorem Uniq.setDev (h : Uniq s) (dev : Dev β) : Uniq { s with dev := dev } :=
  ⟨h.block, h.fresh, h.alone⟩

variable [Zero β]

theorem Uniq.useNew {p : Pool τ β} {k : Fetch} {b : Blkno} (h : Uniq s) (hm : (s.pc t).misses b)
    (hp : ∀ g c, g ≠ f → p.block g = some c → s.pool.block g = some c) :
    Uniq (s.useNew t k b p f) := by
  have hblk (g : BufId) (c : Blkno) (hg : (s.useNew t k b p f).pool.block g = some c) :
      g = f ∧ c = b ∨ g ≠ f ∧ s.pool.block g = some c := by
    rcases eq_or_ne g f with rfl | hne
    · rw [block_eq_some] at hg
      cases k <;> simp_all [Sys.useNew, Pool.bindForRead, Pool.bindForAlloc, Pool.readBufferStart,
        Pool.bind]
    · right
      refine ⟨hne, hp g c hne ?_⟩
      rw [block_eq_some] at hg ⊢
      cases k <;> simpa [Sys.useNew, Pool.bindForRead, Pool.bindForAlloc, Pool.readBufferStart,
        Pool.bind, hne] using hg
  have hpc (u : τ) (c : Blkno) (hu : ((s.useNew t k b p f).pc u).misses c) :
      u ≠ t ∧ (s.pc u).misses c := by
    rcases eq_or_ne u t with rfl | hut
    · cases k <;> simp [Sys.useNew, Pc.misses] at hu
    · cases k <;> exact ⟨hut, by simpa [Sys.useNew, hut] using hu⟩
  refine ⟨fun a c d ha hc => ?_, fun u c hu g hg => ?_, fun u v c hu hv => ?_⟩
  · rcases hblk a d ha with ⟨h1, e1⟩ | ⟨-, h1⟩ <;> rcases hblk c d hc with ⟨h2, e2⟩ | ⟨-, h2⟩
    · exact h1.trans h2.symm
    · exact absurd (e1 ▸ h2) (h.fresh t b hm c)
    · exact absurd (e2 ▸ h1) (h.fresh t b hm a)
    · exact h.block a c d h1 h2
  · obtain ⟨hut, hum⟩ := hpc u c hu
    rcases hblk g c hg with ⟨-, e⟩ | ⟨-, hg⟩
    · exact hut (h.alone u t b (e ▸ hum) hm)
    · exact h.fresh u c hum g hg
  · exact h.alone u v c (hpc u c hu).2 (hpc v c hv).2

end Keep

section Moves
variable [DecidableEq τ] [Fintype τ] [Zero β] {s s' : Sys τ β} {t : τ} {f : BufId}

omit [Fintype τ] [Zero β] in
theorem shrinks_flushWritten {rc : ℤ} (hst : s.pool.state f ≠ .free) :
    Shrinks s.pool (s.flushWritten f rc).pool := by
  have htr : Shrinks s.pool (s.pool.transferFinish f rc) := shrinks_transferFinish hst
  unfold Sys.flushWritten
  dsimp only
  split_ifs
  · exact htr
  · unfold Pool.flushFinish
    split_ifs
    · refine htr.trans (shrinks_changeState (p := s.pool.transferFinish f rc) ?_)
      rw [transferFinish_state]
      split_ifs <;> decide
    · exact htr

omit [Fintype τ] in
theorem evictFinish_uniq {k : Fetch} {b : Blkno} {rc : ℤ} (h : Uniq s) (hm : (s.pc t).misses b)
    (hst : s.pool.state f ≠ .free) : Uniq (s.evictFinish t k b f rc) := by
  have htr : Shrinks s.pool (s.pool.transferFinish f rc) := shrinks_transferFinish hst
  have hw : Uniq (s.wake (s.pool.waiters f)) := h.wake
  have hmw : ((s.wake (s.pool.waiters f)).pc t).misses b := by
    simp only [Sys.wake_pc]
    split_ifs
    · cases hx : s.pc t <;> simp_all [Pc.misses]
    · exact hm
  unfold Sys.evictFinish
  dsimp only
  split_ifs
  · exact hw.useNew hmw fun g c _ hg => htr g c hg
  · refine hw.goto htr fun c hc => ?_
    obtain rfl : b = c := hc
    exact hmw

theorem entry_uniq {l : Label τ β} (hi : Inv s) (h : Uniq s) (hex : s.Exclusive l)
    (he : Entry l s s') : Uniq s' := by
  cases he with
  | @miss _ t op k b hpc hop hs =>
    refine h.shrink (t := t) (Shrinks.refl _) (fun u c hu hm => by simpa [hu] using hm) fun c hm => ?_
    obtain rfl : b = c := by simpa [Pc.misses] using hm
    refine Or.inr ⟨fun g hg => ?_, hex k b hop hs⟩
    rw [block_eq_some] at hg
    have hh : (s.pool.state g).role.hashed = true := by
      cases hst : s.pool.state g <;> simp_all [BufState.role, Role.hashed]
    exact hi.shape.search_none hs hg.1.1 hh hg.2
  | absent hpc hs => exact h.finish (Shrinks.refl _)
  | wait | flush | syncStart => exact h.goto (shrinks_of rfl fun g hg => ⟨hg, rfl⟩) fun _ => False.elim
  | claim hpc hop hs hb => exact h.goto shrinks_claim fun _ => False.elim
  | write hpc hh => exact h.finish (shrinks_of rfl fun g hg => ⟨hg, rfl⟩)
  | markUpdated hpc => exact h.finish shrinks_mark.1
  | markInvalid hpc => exact h.finish shrinks_mark.2
  | @release _ t f hpc hh =>
    have := h.finish (t := t) (r := .nothing) (shrinks_releaseBuffer (f := f))
    exact ⟨this.block, this.fresh, this.alone⟩
  | setNosync hpc => exact h.finish (shrinks_of rfl fun g hg => ⟨hg, rfl⟩)
  | nosync hpc hop hns => exact h.finish (Shrinks.refl _)
  | sync hpc hns hsy => exact h.goto (Shrinks.refl _) fun _ => False.elim
  | take ht =>
    unfold Sys.take at ht
    split at ht <;> cases ht
    · rename_i hpc
      exact h.goto (Shrinks.refl _) fun b hb => by rw [hpc]; exact hb
    · exact h.goto (Shrinks.refl _) fun _ => False.elim
    · exact h.goto (Shrinks.refl _) fun _ => False.elim
  | @evictEnd _ t k b f taken rc d dev hpc hw =>
    have hst := hi.writing (t := t) (f := f) (by simp [hpc, Pc.writes])
    exact evictFinish_uniq (h.setDev _) (by rw [hpc]; rfl) (by rw [hst]; decide)
  | @flushEnd _ t i f taken rc d dev hpc hw hrc =>
    have hst := hi.writing (t := t) (f := f) (by simp [hpc, Pc.writes])
    rw [flushWritten_goto]
    exact (h.setDev dev).wake.goto (shrinks_flushWritten (by rw [hst]; decide)) fun _ => False.elim
  | @flushFail _ t i f taken rc d dev hpc hw hrc =>
    have hst := hi.writing (t := t) (f := f) (by simp [hpc, Pc.writes])
    rw [flushWritten_finish]
    exact (h.setDev dev).wake.finish (shrinks_flushWritten (by rw [hst]; decide))
  | @syncEnd _ t i f taken rc d dev hpc hw hrc =>
    have hst := (hi.in_use (refs_pos (t := t) (f := f) (by simp [hpc, Pc.refs]))).1
    exact (h.setDev dev).goto ((shrinks_changeState hst).trans shrinks_releaseBuffer)
      fun _ => False.elim
  | @syncFail _ t i f taken rc d dev hpc hw hrc =>
    have := (h.setDev dev).finish (t := t) (r := .code rc) (Shrinks.refl s.pool)
    exact ⟨this.block, this.fresh, this.alone⟩
  | @readEnd _ t f rc d hpc =>
    have hst := hi.reading (t := t) (f := f) (by simp [hpc, Pc.reads])
    have hp : Shrinks s.pool (s.pool.readBufferFinish f rc (s.fetched f rc d)) :=
      shrinks_transferFinish (by
        rw [Pool.setData_state, hst]
        decide)
    unfold Sys.readDone
    split_ifs
    · exact h.wake.finish (hp.trans shrinks_releaseBuffer)
    · exact h.wake.give hp
  | resume hpc => exact h
  | syncUser hpc hsy =>
    exact (h.setDev _).goto (shrinks_of rfl fun g hg => ⟨hg, rfl⟩) fun _ => False.elim

theorem cont_uniq (hi : Inv s) (h : Uniq s) (hc : Cont t s s') : Uniq s' := by
  cases hc with
  | afterLookup hpc =>
    unfold Sys.afterLookup
    split
    · split_ifs
      · exact h.finish shrinks_releaseBuffer
      · split
        · exact h.give (Shrinks.refl _)
        · exact h.give (shrinks_of rfl fun g hg => ⟨hg, rfl⟩)
    · exact h.finish (shrinks_mark.2.trans shrinks_releaseBuffer)
  | free hpc hf => exact h.useNew (by rw [hpc]; rfl) fun g c _ hg => hg
  | clean hpc hf hcl => exact h.useNew (by rw [hpc]; rfl) fun g c _ hg => hg
  | evict hpc hf hcl hd =>
    have hst := (hi.dirty_head hd).2
    refine h.goto (shrinks_writeBufferStart (by rw [hst]; decide)) fun c hc => ?_
    rw [hpc]
    exact hc
  | flush hpc hd =>
    have hst := (hi.dirty_head hd).2
    exact h.goto (shrinks_writeBufferStart (by rw [hst]; decide)) fun _ => False.elim
  | flushReturn hpc hr => exact h.finish (Shrinks.refl _)
  | sync hpc hst hf => exact h.goto (shrinks_of rfl fun g hg => ⟨hg, rfl⟩) fun _ => False.elim
  | syncReturn hpc hr => exact h.finish (Shrinks.refl _)

end Moves

/-- Buffer `f` is on a chain of the hash table. -/
def Pool.inTable (p : Pool τ β) (f : BufId) : Prop :=
  ∃ i n, p.bucket.follow (p.hashtable i) n = some f

theorem Shape.block_of_inTable {p : Pool τ β} (h : Shape p fun g => (p.state g).role) {f : BufId}
    (hf : p.inTable f) : p.block f = some (p.blkno f) := by
  obtain ⟨i, n, hf⟩ := hf
  obtain ⟨xs, hb, hm⟩ := h.hash i
  obtain ⟨h1, h2, -⟩ := (hm f).mp (hb.follow_mem hf)
  refine block_eq_some.mpr ⟨⟨h1, ?_⟩, rfl⟩
  intro hst
  simp [hst, BufState.role, Role.hashed] at h2

section Theorem
variable [DecidableEq τ] [Fintype τ] [Zero β] {poolsize bufsize blksize : ℕ}
  {sync : Option (Dev β → Dev β)} {dev : Dev β} {s : Sys τ β}

omit [DecidableEq τ] [Fintype τ] in
theorem init_uniq : Uniq (initSys τ poolsize bufsize blksize sync dev) := by
  refine ⟨fun f g b hf => ?_, fun t b ht => ht.elim, fun t u b ht => ht.elim⟩
  simp [block_eq_some, initSys, initBufferPool] at hf

/-- In every run in which each miss is alone with its block, a block is in the hash table at
most once, and those who hold it hold the same buffer. -/
theorem cached_block_unique (hp : 0 < poolsize)
    (h : Reach Sys.step (fun m l => m.Bounded ∧ m.Exclusive l)
      (initSys τ poolsize bufsize blksize sync dev) s) :
    (∀ f g, s.pool.inTable f → s.pool.inTable g → s.pool.blkno f = s.pool.blkno g → f = g) ∧
    ∀ t u f g, 0 < s.holds t f → 0 < s.holds u g → s.pool.blkno f = s.pool.blkno g → f = g := by
  have hinv : Inv s := reach_inv hp (h.mono fun _ _ hok => hok.1)
  have huniq : Uniq s := moves_invariant h (fun _ _ hok => hok.1)
    (init_inv hp) init_uniq (fun a l b ha _ hok hu he => ⟨entry_uniq ha hu hok.2 he, trivial⟩)
    (fun l a b ha _ hu _ hc => cont_uniq ha hu hc)
  have hheld (t : τ) (f : BufId) (hh : 0 < s.holds t f) : s.pool.block f = some (s.pool.blkno f) := by
    have hpos : 0 < s.refs f := refs_pos (t := t) (by omega)
    exact block_eq_some.mpr ⟨⟨hinv.inside hpos.ne', (hinv.in_use hpos).1⟩, rfl⟩
  constructor
  · intro f g hf hg hb
    exact huniq.block f g _ (hinv.shape.block_of_inTable hf) (hb ▸ hinv.shape.block_of_inTable hg)
  · intro t u f g hf hg hb
    exact huniq.block f g _ (hheld t f hf) (hb ▸ hheld u g hg)

theorem cached_block_unique_after_alloc :
    ((initSys (Fin 2) (β := ℕ) 2 512 512 none 0).lookupBuffer 0 (.fetch .alloc) 7).holds 0 0 = 1 ∧
    ∀ t u f g, 0 < ((initSys (Fin 2) (β := ℕ) 2 512 512 none 0).lookupBuffer 0 (.fetch .alloc) 7).holds t f →
      0 < ((initSys (Fin 2) (β := ℕ) 2 512 512 none 0).lookupBuffer 0 (.fetch .alloc) 7).holds u g →
      ((initSys (Fin 2) (β := ℕ) 2 512 512 none 0).lookupBuffer 0 (.fetch .alloc) 7).pool.blkno f =
        ((initSys (Fin 2) (β := ℕ) 2 512 512 none 0).lookupBuffer 0 (.fetch .alloc) 7).pool.blkno g →
      f = g :=
  ⟨rfl, (cached_block_unique (by decide) (Reach.single (l := .call 0 (.alloc 7))
    ⟨init_bounded, fun _ _ _ _ _ => id⟩ rfl)).2⟩

end Theorem

/-- Threads 0 and 1 miss on block 2 while thread 2 holds both buffers of the pool; when it
releases them, each of the two enters block 2 in a buffer of its own. -/
theorem cached_block_twice :
    ∃ s : Sys (Fin 3) ℕ, Reach Sys.step (fun _ _ => True) (initSys (Fin 3) 2 512 512 none 0) s ∧
      s.pool.inTable 0 ∧ s.pool.inTable 1 ∧ s.pool.blkno 0 = 2 ∧ s.pool.blkno 1 = 2 ∧
      s.holds 0 0 = 1 ∧ s.holds 1 1 = 1 := by
  refine ⟨_, reach_of_run ([.call 2 (.alloc 0), .call 2 (.alloc 1), .call 0 (.get 2),
    .call 1 (.get 2), .call 2 (.release 0), .call 2 (.release 1), .resume 0, .done 0 512 0,
    .resume 1, .done 1 512 0]) rfl, ⟨2, 1, rfl⟩, ⟨2, 0, rfl⟩, rfl, rfl, rfl, rfl⟩

end SimpleKernel.Buffer
