import SimpleKernel.Buffer.Runs

/-! What the invariant says about the pool itself: the counts, the lists, the hash chains and
the locks. -/
namespace SimpleKernel.Buffer
open LinkedList Transition

variable {τ β : Type}

section Geometry

/-- What `init_buffer_pool` sets and no other function changes. -/
def Pool.geometry (p : Pool τ β) : ℕ × ℤ × UInt32 × Option (Dev β → Dev β) :=
  (p.poolsize, p.bufsize, p.blksPerBuffer, p.sync)

variable (p : Pool τ β) (f : BufId)

@[simp] theorem releaseBuffer_geometry : (p.releaseBuffer f).geometry = p.geometry := by
  unfold Pool.releaseBuffer Pool.settle
  split_ifs
  · rfl
  · split <;> rfl

@[simp] theorem markBufferUpdated_geometry : (p.markBufferUpdated f).geometry = p.geometry := by
  unfold Pool.markBufferUpdated
  split_ifs <;> rfl

@[simp] theorem markBufferInvalid_geometry : (p.markBufferInvalid f).geometry = p.geometry := by
  unfold Pool.markBufferInvalid
  split_ifs <;> rfl

@[simp] theorem claim_geometry [Zero β] : (p.claim f).geometry = p.geometry := by
  unfold Pool.claim
  split <;> rfl

@[simp] theorem transferFinish_geometry (rc : ℤ) : (p.transferFinish f rc).geometry = p.geometry := by
  rw [transferFinish_spec]
  rfl

@[simp] theorem writeBufferStart_geometry (flush : Bool) :
    (p.writeBufferStart f flush).geometry = p.geometry := by
  unfold Pool.writeBufferStart
  split_ifs <;> rfl

@[simp] theorem flushFinish_geometry : (p.flushFinish f).geometry = p.geometry := by
  unfold Pool.flushFinish
  split_ifs <;> rfl

@[simp] theorem getNewBuffer_geometry : p.getNewBuffer.2.geometry = p.geometry := by
  unfold Pool.getNewBuffer
  split
  · rfl
  · split
    · rfl
    · split <;> rfl

@[simp] theorem bindForRead_geometry (b : Blkno) : (p.bindForRead f b).geometry = p.geometry := by
  simp [Pool.geometry, Pool.bindForRead, Pool.readBufferStart, Pool.bind]

@[simp] theorem bindForAlloc_geometry [Zero β] (b : Blkno) :
    (p.bindForAlloc f b).geometry = p.geometry := by
  simp [Pool.geometry, Pool.bindForAlloc, Pool.bind]

end Geometry

section Kept
variable [DecidableEq τ] (s : Sys τ β) (t : τ)

/-- From `s` to `s'` no lock was left behind, and the pool has the geometry of `p`. -/
def Kept (s s' : Sys τ β) (p : Pool τ β) : Prop :=
  s'.leaked = s.leaked ∧ s'.pool.geometry = p.geometry

theorem flushWritten_kept (f : BufId) (rc : ℤ) : Kept s (s.flushWritten f rc) s.pool := by
  unfold Sys.flushWritten Pool.writeBufferFinish
  split_ifs <;> exact ⟨rfl, by simp⟩

theorem flushLoop_kept (i : Bool) : Kept s (s.flushLoop t i) s.pool := by
  unfold Sys.flushLoop
  split
  · exact ⟨rfl, rfl⟩
  · split_ifs
    · exact ⟨rfl, rfl⟩
    · exact ⟨rfl, by simp⟩
    · exact flushWritten_kept s _ _

theorem flushDone_kept (i : Bool) (f : BufId) (rc : ℤ) : Kept s (s.flushDone t i f rc) s.pool := by
  have hw := flushWritten_kept s f rc
  unfold Sys.flushDone
  split_ifs
  · exact hw
  · have hl := flushLoop_kept (s.flushWritten f rc) t i
    exact ⟨hl.1.trans hw.1, hl.2.trans hw.2⟩

theorem syncLoop_kept (i : Bool) (j : BufId) : Kept s (s.syncLoop t i j) s.pool := by
  unfold Sys.syncLoop
  split
  · exact ⟨rfl, rfl⟩
  · split_ifs <;> exact ⟨rfl, rfl⟩

theorem syncStart_kept (i : Bool) : Kept s (s.syncStart t i) s.pool := by
  unfold Sys.syncStart
  split_ifs
  · exact ⟨rfl, rfl⟩
  · exact syncLoop_kept _ t i 0

variable [Zero β]

theorem useNew_kept (k : Fetch) (b : Blkno) (p : Pool τ β) (f : BufId) :
    Kept s (s.useNew t k b p f) p := by
  cases k <;> exact ⟨rfl, by simp [Sys.useNew]⟩

theorem evictFinish_kept (k : Fetch) (b : Blkno) (f : BufId) (rc : ℤ) :
    Kept s (s.evictFinish t k b f rc) s.pool := by
  unfold Sys.evictFinish Pool.writeBufferFinish
  dsimp only
  split_ifs
  · have := useNew_kept (s.wake (s.pool.waiters f)) t k b
      ((s.pool.transferFinish f rc).removeFromHashtable f) f
    exact ⟨this.1, this.2.trans (transferFinish_geometry s.pool f rc)⟩
  · exact ⟨rfl, by simp⟩

theorem fetchNew_kept (k : Fetch) (b : Blkno) : Kept s (s.fetchNew t k b) s.pool := by
  have hg := getNewBuffer_geometry s.pool
  unfold Sys.fetchNew
  cases hx : s.pool.getNewBuffer with
  | mk r p =>
    rw [hx] at hg
    cases r with
    | taken f =>
      have := useNew_kept s t k b p f
      exact ⟨this.1, this.2.trans hg⟩
    | write f =>
      dsimp only
      split_ifs
      · exact ⟨rfl, by simpa using hg⟩
      · exact evictFinish_kept s t k b _ _
    | spin => exact ⟨rfl, hg⟩

theorem afterLookup_kept (c : Caller) (p : Pool τ β) (f : BufId) :
    Kept s (s.afterLookup t c p f) p := by
  unfold Sys.afterLookup
  split
  · split_ifs
    · exact ⟨rfl, by simp⟩
    · split <;> exact ⟨rfl, rfl⟩
  · exact ⟨rfl, by simp⟩

theorem lookupBuffer_kept (c : Caller) (b : Blkno) : Kept s (s.lookupBuffer t c b) s.pool := by
  unfold Sys.lookupBuffer
  split
  · split_ifs
    · exact ⟨rfl, rfl⟩
    · have := afterLookup_kept s t c (s.pool.claim ‹_›) ‹_›
      exact ⟨this.1, this.2.trans (claim_geometry _ _)⟩
  · split
    · exact fetchNew_kept s t _ b
    · exact ⟨rfl, rfl⟩

theorem call_kept {s' : Sys τ β} {op : Op β} (h : s.call t op = some s') : Kept s s' s.pool := by
  cases op with
  | get b | alloc b | invalidate b =>
    simp only [Sys.call, Option.some.injEq] at h
    exact h ▸ lookupBuffer_kept s t _ b
  | write f d =>
    simp only [Sys.call, Option.ite_none_right_eq_some, Option.some.injEq] at h
    obtain ⟨-, rfl⟩ := h
    exact ⟨rfl, rfl⟩
  | markUpdated f | markInvalid f | release f =>
    simp only [Sys.call, Option.ite_none_right_eq_some, Option.some.injEq] at h
    obtain ⟨-, rfl⟩ := h
    exact ⟨rfl, by simp⟩
  | flush i =>
    simp only [Sys.call] at h
    split_ifs at h <;> cases h
    · exact ⟨rfl, rfl⟩
    · exact flushLoop_kept _ t i
  | sync i =>
    simp only [Sys.call] at h
    split_ifs at h <;> cases h
    · exact ⟨rfl, rfl⟩
    · exact ⟨rfl, rfl⟩
    · exact syncStart_kept s t i
  | setNosync v =>
    simp only [Sys.call, Option.some.injEq] at h
    subst h
    exact ⟨rfl, rfl⟩

theorem resume_kept {s' : Sys τ β} (h : s.resume t = some s') : Kept s s' s.pool := by
  unfold Sys.resume at h
  split at h
  · cases h
    exact afterLookup_kept s t _ s.pool _
  · cases h
    exact fetchNew_kept s t _ _
  · cases h
    exact flushLoop_kept s t _
  · cases h
    exact syncLoop_kept s t _ _
  · split at h <;> cases h
    exact syncStart_kept _ t _
  · cases h

omit [Zero β] in
theorem readDone_kept (f : BufId) (rc : ℤ) (d : β) : Kept s (s.readDone t f rc d) s.pool := by
  have hg : (s.pool.readBufferFinish f rc d).geometry = s.pool.geometry :=
    transferFinish_geometry (s.pool.setData f d) f rc
  unfold Sys.readDone
  dsimp only
  split_ifs
  · exact ⟨rfl, (releaseBuffer_geometry _ f).trans hg⟩
  · exact ⟨rfl, hg⟩

omit [Zero β] in
theorem syncDone_kept (i : Bool) (f : BufId) (rc : ℤ) :
    (s.syncDone t i f rc).pool.geometry = s.pool.geometry ∧
      (0 ≤ rc → (s.syncDone t i f rc).leaked = s.leaked) := by
  unfold Sys.syncDone
  split_ifs with hrc
  · exact ⟨rfl, fun h => absurd h (not_le.mpr hrc)⟩
  · have hl := syncLoop_kept { s with pool := (s.pool.changeState f .locked).releaseBuffer f } t i (f + 1)
    exact ⟨hl.2.trans (releaseBuffer_geometry _ f), fun _ => hl.1⟩

theorem done_kept {s' : Sys τ β} {rc : ℤ} {d : β} (h : s.done t rc d = some s') :
    s'.pool.geometry = s.pool.geometry ∧ (0 ≤ rc → s'.leaked = s.leaked) := by
  unfold Sys.done at h
  split at h
  · obtain ⟨dev, -, rfl⟩ := Option.map_eq_some_iff.mp h
    have := evictFinish_kept { s with dev := dev } t ‹_› ‹_› ‹_› rc
    exact ⟨this.2, fun _ => this.1⟩
  · obtain ⟨dev, -, rfl⟩ := Option.map_eq_some_iff.mp h
    have := flushDone_kept { s with dev := dev } t ‹_› ‹_› rc
    exact ⟨this.2, fun _ => this.1⟩
  · obtain ⟨dev, -, rfl⟩ := Option.map_eq_some_iff.mp h
    exact syncDone_kept { s with dev := dev } t _ _ rc
  · cases h
    have := readDone_kept s t ‹_› rc (s.fetched ‹_› rc d)
    exact ⟨this.2, fun _ => this.1⟩
  · cases h

end Kept

/-- Every transfer that ends succeeds in full. -/
def Sys.Full (s : Sys τ β) : Label τ β → Prop
  | .done _ rc _ => rc = s.pool.bufsize
  | _ => True

theorem step_kept [DecidableEq τ] [Zero β] {s s' : Sys τ β} {l : Label τ β}
    (h : s.step l = some s') :
    s'.pool.geometry = s.pool.geometry ∧
      (0 ≤ s.pool.bufsize → s.Full l → s'.leaked = s.leaked) := by
  cases l with
  | call t op =>
    simp only [Sys.step] at h
    split at h
    · have := call_kept s t h
      exact ⟨this.2, fun _ _ => this.1⟩
    · cases h
  | take t =>
    simp only [Sys.step] at h
    split_ifs at h
    unfold Sys.take at h
    split at h <;> cases h <;> exact ⟨rfl, fun _ _ => rfl⟩
  | done t rc d =>
    simp only [Sys.step] at h
    split_ifs at h
    have := done_kept s t h
    exact ⟨this.1, fun h0 hf => this.2 (hf ▸ h0)⟩
  | resume t =>
    simp only [Sys.step] at h
    split_ifs at h
    have := resume_kept s t h
    exact ⟨this.2, fun _ _ => this.1⟩

instance : Fintype BufState where
  elems := {.free, .clean, .dirty, .reading, .writing, .locked, .updated, .invalid, .error}
  complete x := by cases x <;> simp

section Represents
variable [Fintype τ]

/-- The references that threads have to `f`, their pending calls included. -/
def Sys.holders (s : Sys τ β) (f : BufId) : ℕ := ∑ t, (s.holds t f + (s.pc t).refs f)

/-- The buffers of the pool in state `st`. -/
def Pool.inState (p : Pool τ β) (st : BufState) : Finset BufId :=
  (Finset.range p.poolsize).filter fun f => p.state f = st

/-- What the fields of a pool say about its buffers. -/
structure Represents (s : Sys τ β) : Prop where
  bufcount : ∀ st, s.pool.bufcount st = (s.pool.inState st).card
  total : ∑ st, s.pool.bufcount st = s.pool.poolsize
  freelist : ∃ xs, IsStack s.pool.chain s.pool.freelist xs ∧
    ∀ f, f ∈ xs ↔ f ∈ s.pool.inState .free
  clean : ∃ xs, IsList s.pool.chain s.pool.clean xs ∧ ∀ f, f ∈ xs ↔ f ∈ s.pool.inState .clean
  dirty : ∃ xs, IsList s.pool.chain s.pool.dirty xs ∧ ∀ f, f ∈ xs ↔ f ∈ s.pool.inState .dirty
  hashtable : ∀ i, ∃ xs, IsBucket s.pool.bucket (s.pool.hashtable i) xs ∧
    ∀ f, f ∈ xs ↔ f < s.pool.poolsize ∧ s.pool.state f ≠ .free ∧ slot (s.pool.blkno f) = i
  locks : ∀ f, (s.pool.locks f).toNat = s.holders f

theorem role_iff (st : BufState) :
    (st.role = .free ↔ st = .free) ∧ (st.role = .clean ↔ st = .clean) ∧
      (st.role = .dirty ↔ st = .dirty) ∧ (st.role.hashed = true ↔ st ≠ .free) := by
  cases st <;> simp [BufState.role, Role.hashed]

theorem Inv.represents {s : Sys τ β} (h : Inv s) (hb : s.Bounded) (hl : s.leaked = 0) :
    Represents s := by
  have hcount (st : BufState) : s.pool.bufcount st = (s.pool.inState st).card := by
    rw [h.counts st, Pool.inState, Finset.card_filter]
    push_cast
    rfl
  have hin (st : BufState) (f : BufId) :
      f ∈ s.pool.inState st ↔ f < s.pool.poolsize ∧ s.pool.state f = st := by
    simp [Pool.inState]
  refine ⟨hcount, ?_, ?_, ?_, ?_, fun i => ?_, fun f => ?_⟩
  · simp only [hcount]
    rw [← Nat.cast_sum, Nat.cast_inj]
    have := Finset.card_eq_sum_card_fiberwise (f := s.pool.state) (s := Finset.range s.pool.poolsize)
      (t := Finset.univ) fun _ _ => by simp
    simpa [Pool.inState] using this.symm
  · obtain ⟨xs, h1, hm⟩ := h.shape.free
    exact ⟨xs, h1, fun f => by rw [hm, hin, (role_iff _).1]⟩
  · obtain ⟨xs, h1, hm⟩ := h.shape.clean
    exact ⟨xs, h1, fun f => by rw [hm, hin, (role_iff _).2.1]⟩
  · obtain ⟨xs, h1, hm⟩ := h.shape.dirty
    exact ⟨xs, h1, fun f => by rw [hm, hin, (role_iff _).2.2.1]⟩
  · obtain ⟨xs, h1, hm⟩ := h.shape.hash i
    exact ⟨xs, h1, fun f => by rw [hm, (role_iff _).2.2.2]⟩
  · have hr : s.refs f = s.holders f := by simp [Sys.refs, Sys.holders, hl]
    have hlt := hb f
    rw [(h.buf f).locks, hr]
    exact Nat.mod_eq_of_lt (by omega)

end Represents

section Theorem
variable [DecidableEq τ] [Fintype τ] [Zero β] {poolsize bufsize blksize : ℕ}
  {sync : Option (Dev β → Dev β)} {dev : Dev β} {s : Sys τ β}

/-- In every run with successful transfers, and with fewer than `2 ^ 16` references to each
buffer, the fields of the pool are in order. -/
theorem pool_represents (hp : 0 < poolsize)
    (h : Reach Sys.step (fun m l => m.Bounded ∧ m.Full l)
      (initSys τ poolsize bufsize blksize sync dev) s) (hb : s.Bounded) :
    s.pool.poolsize = poolsize ∧ Represents s := by
  have hinv : Inv s := reach_inv hp (h.mono fun _ _ hok => hok.1)
  have hkept : s.pool.geometry = (initBufferPool τ poolsize bufsize blksize sync).geometry ∧
      s.leaked = 0 := by
    refine h.invariant (P := fun m => m.pool.geometry =
      (initBufferPool τ poolsize bufsize blksize sync).geometry ∧ m.leaked = 0) ⟨rfl, rfl⟩ ?_
    intro a l b ha hok hl
    obtain ⟨h1, h2⟩ := step_kept hl
    have hsize : a.pool.bufsize = bufsize := congrArg (fun g => g.2.1) ha.1
    exact ⟨h1.trans ha.1, (h2 (hsize ▸ Int.natCast_nonneg _) hok.2).trans ha.2⟩
  exact ⟨congrArg Prod.fst hkept.1, hinv.represents hb hkept.2⟩

theorem pool_represents_after_alloc :
    Represents ((initSys Unit (β := ℕ) 2 512 512 none 0).lookupBuffer () (.fetch .alloc) 0) := by
  have hstep : (initSys Unit (β := ℕ) 2 512 512 none 0).step (.call () (.alloc 0)) =
      some ((initSys Unit 2 512 512 none 0).lookupBuffer () (.fetch .alloc) 0) := rfl
  refine (pool_represents (by decide) (Reach.single ⟨init_bounded, by trivial⟩ hstep)
    (bounded_unit (fun f => ?_) (fun _ => rfl) fun _ => rfl)).2
  show Function.update (fun _ => 0) 0 1 f ≤ 1
  rcases eq_or_ne f 0 with rfl | hf
  · simp
  · simp [hf]

end Theorem

section Overflow
variable [DecidableEq τ] [Zero β]

/-- `get_buffer b` by `t` finds the buffer `f`, which is held already. -/
structure Hit (s : Sys τ β) (t : τ) (b : Blkno) (f : BufId) : Prop where
  alive : s.pool.panicked = false
  idle : s.pc t = .idle
  search : s.pool.search b = some f
  state : s.pool.state f = .locked

omit [DecidableEq τ] [Zero β] in
theorem search_lock (p : Pool τ β) (f : BufId) (b : Blkno) : (p.lock f).search b = p.search b := by
  have hchain (k : ℕ) (h : Option BufId) :
      (p.lock f).searchChain b k h = p.searchChain b k h := by
    induction k generalizing h with
    | zero => rfl
    | succ k ih =>
      cases h with
      | none => rfl
      | some g => simp only [Pool.searchChain, Pool.lock_blkno, Pool.lock_bucket, ih]
  exact hchain _ _

theorem Hit.get {s : Sys τ β} {t : τ} {b : Blkno} {f : BufId} (h : Hit s t b f) :
    s.step (.call t (.get b)) = some (s.give t (s.pool.lock f) f) := by
  simp only [Sys.step, h.alive, h.idle, Sys.call, Sys.lookupBuffer, h.search]
  simp [Pool.busy, Pool.claim, Sys.afterLookup, h.state]

theorem Hit.gets {s : Sys τ β} {t : τ} {b : Blkno} {f : BufId} (h : Hit s t b f) (n : ℕ) :
    ∃ s', Reach Sys.step (fun m l => m.Full l) s s' ∧ Hit s' t b f ∧
      s'.pool.locks f = s.pool.locks f + UInt16.ofNat n ∧ s'.holds t f = s.holds t f + n := by
  induction n with
  | zero => exact ⟨s, Reach.refl s, h, by simp, rfl⟩
  | succ n ih =>
    obtain ⟨m, hm, hh, hl, hn⟩ := ih
    refine ⟨m.give t (m.pool.lock f) f, hm.tail (by trivial) hh.get, ⟨hh.alive, ?_, ?_, hh.state⟩, ?_, ?_⟩
    · simp
    · exact (search_lock m.pool f b).trans hh.search
    · simp [hl, UInt16.add_assoc]
    · simp [hn, add_assoc]

/-- The free list has no `prev` links, and `2 ^ 16` holders leave a lock count of zero. -/
theorem free_list_singly_linked_and_locks_wrap :
    (¬ ∃ xs, IsBucket (initSys Unit (β := ℕ) 2 512 512 none 0).pool.chain
      (initSys Unit (β := ℕ) 2 512 512 none 0).pool.freelist xs) ∧
    ∃ s : Sys Unit ℕ, Reach Sys.step (fun m l => m.Full l) (initSys Unit 1 512 512 none 0) s ∧
      s.holders 0 = 65536 ∧ s.pool.locks 0 = 0 := by
  constructor
  · rintro ⟨xs, -, hs, hh⟩
    rcases xs with - | ⟨a, - | ⟨b, ys⟩⟩
    · cases hh
    · obtain ⟨-, hn, -⟩ := hs
      cases hh
      cases hn
    · obtain ⟨-, hn, hp, -⟩ := hs
      cases hp
  · have hstep : (initSys Unit (β := ℕ) 1 512 512 none 0).step (.call () (.alloc 0)) =
        some ((initSys Unit 1 512 512 none 0).lookupBuffer () (.fetch .alloc) 0) := rfl
    have hhit : Hit ((initSys Unit (β := ℕ) 1 512 512 none 0).lookupBuffer () (.fetch .alloc) 0) () 0 0 :=
      ⟨rfl, rfl, rfl, rfl⟩
    obtain ⟨s, hr, hh, hl, hn⟩ := hhit.gets 65535
    refine ⟨s, (Reach.single (by trivial) hstep).trans hr, ?_, ?_⟩
    · simp [Sys.holders, hh.idle, hn]
      rfl
    · rw [hl]
      rfl

end Overflow

end SimpleKernel.Buffer
