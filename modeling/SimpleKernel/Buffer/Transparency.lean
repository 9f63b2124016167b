import SimpleKernel.Buffer.Termination

/-! The cache is transparent to its only caller. -/
namespace SimpleKernel.Buffer
open LinkedList Transition
open Function (update update_eq_self update_idem update_self)

variable {β : Type} [Zero β]

section Exec
variable {B : Set Blkno} {w : UInt32} {op : Op β} {s s' : Sys Unit β} {v : View β}

theorem call_step (h : Solo s) (hbd : s.Bounded) (hco : Coherent B w s v) (ha : Allowed B v s op)
    (hs : s.step (.call () op) = some s') : Solo s' ∧ Progress B w op s v s' := by
  obtain ⟨hs', m, hm, he, hc⟩ := h.step hbd (by trivial) hs
  have hp := call_progress h hm hbd hco ha he
  rcases hc with rfl | hc
  · exact ⟨hs', hp⟩
  · exact ⟨hs', cont_progress hm hs' ha hp hc⟩

theorem exec_progress (h : Solo s) (hh : ∀ f, s.holds () f + 1 < 2 ^ 16)
    (hsv : Served B w s.pool.sync) (hco : Coherent B w s v) (ha : Allowed B v s op)
    (he : Exec Sys.Full op s s') : Solo s' ∧ Progress B w op s v s' := by
  obtain ⟨m, -, hs, hr, -⟩ := he
  refine hr.invariant (P := fun a => Solo a ∧ Progress B w op s v a)
    (call_step h (h.bounded hh) hco ha hs) fun a l b hab hok hl => ?_
  have hpc := own_step_not_idle hok.2 hl
  have hbd : a.Bounded := hab.1.bounded (by rw [(hab.2.running hpc).1]; exact hh)
  exact step_progress hab.1 hbd hsv ha hok.1 hok.2 hab.2 hl

theorem call_enabled (h : Solo s) (hpc : s.pc () = .idle) (ha : Allowed B v s op) :
    ∃ m, s.step (.call () op) = some m := by
  simp only [Sys.step, h.inv.alive, hpc]
  cases op with
  | get b | alloc b | invalidate b => exact ⟨_, rfl⟩
  | write f d => exact ⟨_, if_pos ha.1⟩
  | markUpdated f => exact ⟨_, if_pos (h.held_state hpc ha.1).1⟩
  | markInvalid f => exact ⟨_, if_pos (h.held_state hpc ha.1).1⟩
  | release f => exact ⟨_, if_pos ha.1⟩
  | flush i =>
    simp only [Sys.call]
    split_ifs
    · exact ⟨_, rfl⟩
    · exact ⟨_, rfl⟩
  | sync i =>
    simp only [Sys.call]
    split_ifs
    · exact ⟨_, rfl⟩
    · exact ⟨_, rfl⟩
    · exact ⟨_, rfl⟩
  | setNosync x => exact ⟨_, rfl⟩

theorem exec_exists (h : Solo s) (hpc : s.pc () = .idle) (hh : ∀ f, s.holds () f + 1 < 2 ^ 16)
    (hsv : Served B w s.pool.sync) (hco : Coherent B w s v) (ha : Allowed B v s op) :
    ∃ s', Exec Sys.Full op s s' := by
  obtain ⟨m, hm⟩ := call_enabled h hpc ha
  obtain ⟨hs, hp⟩ := call_step h (h.bounded hh) hco ha hm
  obtain ⟨s', hr, hidle⟩ := returns hsv ha hh hs hp
  exact ⟨s', m, by trivial, hm, hr, hidle⟩

end Exec

/-- The calls of one thread on a fresh pool, with what the thread sees of the blocks. -/
inductive Trace (B : Set Blkno) (poolsize bufsize blksize : ℕ) (sync : Option (Dev β → Dev β))
    (dev : Dev β) : Sys Unit β → View β → Prop
  | start : Trace B poolsize bufsize blksize sync dev (initSys Unit poolsize bufsize blksize sync dev)
      ⟨fun b => dev (b * UInt32.ofNat (bufsize / blksize)), fun _ => false⟩
  | act {s s' : Sys Unit β} {v : View β} (o : Op β) :
      Trace B poolsize bufsize blksize sync dev s v → Allowed B v s o →
      (∀ f, s.holds () f + 1 < 2 ^ 16) → Exec Sys.Full o s s' →
      Trace B poolsize bufsize blksize sync dev s' (v.after s o)

section Trace
variable {B : Set Blkno} {poolsize bufsize blksize : ℕ} {sync : Option (Dev β → Dev β)}
  {dev : Dev β} {s s₁ s₂ : Sys Unit β} {v : View β}

theorem init_coherent : Coherent B (UInt32.ofNat (bufsize / blksize))
    (initSys Unit poolsize bufsize blksize sync dev)
    ⟨fun b => dev (b * UInt32.ofNat (bufsize / blksize)), fun _ => false⟩ := by
  have hnone (f : BufId) (b : Blkno) :
      (initSys Unit poolsize bufsize blksize sync dev).pool.block f ≠ some b := by
    simp [Pool.block, initSys, initBufferPool]
  exact ⟨rfl, fun f b h => absurd h (hnone f b), fun _ _ _ => ⟨rfl, rfl⟩,
    fun f b h => absurd h (hnone f b)⟩

theorem trace_coherent (hp : 0 < poolsize) (hsv : Served B (UInt32.ofNat (bufsize / blksize)) sync)
    (h : Trace B poolsize bufsize blksize sync dev s v) :
    Solo s ∧ s.pc () = .idle ∧ s.pool.sync = sync ∧
      Coherent B (UInt32.ofNat (bufsize / blksize)) s v := by
  induction h with
  | start => exact ⟨init_solo hp, rfl, rfl, init_coherent⟩
  | act _ _ ha hh he ih =>
    obtain ⟨h1, -, h3, h4⟩ := ih
    obtain ⟨hs, hpr⟩ := exec_progress h1 hh (h3 ▸ hsv) h4 ha he
    have hidle := he.choose_spec.2.2.2
    exact ⟨hs, hidle, (congrArg (fun x => x.2.2.2) hpr.geometry).trans h3, (hpr.returned hidle).1⟩

omit [Zero β] in
theorem Coherent.device {w : UInt32} {b : Blkno} (h : Solo s) (hpc : s.pc () = .idle)
    (hco : Coherent B w s v) (hd : s.Settled) (hu : ∀ g, s.pool.state g ≠ .updated) (hb : b ∈ B)
    (hm : v.unmarked b = false) : s.dev (b * w) = v.content b := by
  by_cases hc : ∃ f, s.pool.block f = some b
  · obtain ⟨f, hf⟩ := hc
    have hok := hco.cached f b hf
    have h1 := hd f
    have h2 := hu f
    have h3 := h.alone.error f
    have h4 := (h.inv.idle hpc f).1
    have h5 := (block_eq_some.mp hf).1.2
    cases hst : s.pool.state f <;> simp_all [CacheOk, Pool.busy]
  · exact (hco.absent b hb fun f hf => hc ⟨f, hf⟩).1

/-- After any calls of one thread on a fresh pool, with full transfers: every call that it may make returns;
`get_buffer` returns a buffer of its block with the content of the block; and after `flush_buffers` and
`sync_buffers` the device holds every block that is not left changed and unmarked. -/
theorem cache_coherent (hp : 0 < poolsize)
    (hsv : Served B (UInt32.ofNat (bufsize / blksize)) sync)
    (h : Trace B poolsize bufsize blksize sync dev s v) (hh : ∀ f, s.holds () f + 1 < 2 ^ 16) :
    (∀ op, Allowed B v s op → ∃ s', Exec Sys.Full op s s') ∧
    (∀ b s', Allowed B v s (.get b) → Exec Sys.Full (.get b) s s' →
      ∃ f, s'.ret () = .buf (some f) ∧ s'.pool.blkno f = b ∧ s'.pool.data f = v.content b) ∧
    (s.pool.nosync = false → ∀ s₁, Exec Sys.Full (.flush false) s s₁ →
      (∃ s₂, Exec Sys.Full (.sync false) s₁ s₂) ∧ ∀ s₂, Exec Sys.Full (.sync false) s₁ s₂ →
        ∀ b ∈ B, v.unmarked b = false →
          s₂.dev (b * UInt32.ofNat (bufsize / blksize)) = v.content b) := by
  obtain ⟨h1, h2, h3, h4⟩ := trace_coherent hp hsv h
  refine ⟨fun op ha => exec_exists h1 h2 hh (h3 ▸ hsv) h4 ha, fun b s' ha he => ?_,
    fun hns s₁ hf => ?_⟩
  · obtain ⟨-, hpr⟩ := exec_progress h1 hh (h3 ▸ hsv) h4 ha he
    exact (hpr.returned he.choose_spec.2.2.2).2
  · have ha : Allowed B v s (.flush false) := trivial
    obtain ⟨g1, hpr⟩ := exec_progress h1 hh (h3 ▸ hsv) h4 ha hf
    have g2 := hf.choose_spec.2.2.2
    have g3 : s₁.pool.sync = sync := (congrArg (fun x => x.2.2.2) hpr.geometry).trans h3
    obtain ⟨g4, hholds, hns₁, hset⟩ := hpr.returned g2
    have hh₁ : ∀ f, s₁.holds () f + 1 < 2 ^ 16 := by
      rw [hholds]
      exact hh
    refine ⟨exec_exists g1 g2 hh₁ (g3 ▸ hsv) g4 trivial, fun s₂ hy b hb hm => ?_⟩
    have ha₁ : Allowed B v s₁ (.sync false) := trivial
    obtain ⟨k1, hpr₂⟩ := exec_progress g1 hh₁ (g3 ▸ hsv) g4 ha₁ hy
    have k2 := hy.choose_spec.2.2.2
    obtain ⟨k4, hset₂, hupd⟩ := hpr₂.returned k2
    exact Coherent.device k1 k2 k4 (hset₂ (hset rfl hns)) (hupd rfl (hns₁.trans hns)) hb hm

/-- A block that was allocated, written and marked is in the device after a flush and a sync. -/
theorem cache_coherent_written : ∃ s : Sys Unit ℕ, s.pool.state 0 = .updated ∧
    ∀ s₁ s₂, Exec Sys.Full (.flush false) s s₁ → Exec Sys.Full (.sync false) s₁ s₂ →
      s₂.dev 0 = 7 := by
  have hsv : Served (β := ℕ) {0} (UInt32.ofNat (512 / 512)) none :=
    ⟨by decide, fun b hb => by simp [OnDevice, Set.mem_singleton_iff.mp hb], by simp⟩
  have hone (g : BufId) : update (fun _ : BufId => 0) 0 1 g + 1 < 2 ^ 16 := by
    rcases eq_or_ne g 0 with rfl | hg
    · decide
    · simp [hg]
  have t0 : Trace (β := ℕ) {0} 2 512 512 none 0 _ _ := Trace.start
  have t1 := t0.act (o := .alloc 0) ⟨rfl, fun f hf => by simp [Pool.block, initSys, initBufferPool] at hf,
    by decide⟩ (fun _ => Nat.one_lt_two_pow (by decide)) ⟨_, by trivial, rfl, Reach.refl _, rfl⟩
  have t2 := t1.act (o := .write 0 7) ⟨by decide, by decide⟩ hone
    ⟨_, by trivial, rfl, Reach.refl _, rfl⟩
  have t3 := t2.act (o := .markUpdated 0) ⟨by decide, by decide⟩ hone
    ⟨_, by trivial, rfl, Reach.refl _, rfl⟩
  have hdev := (cache_coherent (by decide) hsv t3 hone).2.2 rfl
  refine ⟨_, ?_, fun s₁ s₂ h1 h2 => (hdev s₁ h1).2 s₂ h2 0 rfl rfl⟩
  rfl

end Trace

section Limits
variable {τ : Type} [DecidableEq τ]

omit [Zero β] in
theorem Hit.give {s : Sys τ β} {t : τ} {b : Blkno} {f : BufId} (h : Hit s t b f) :
    Hit (s.give t (s.pool.lock f) f) t b f :=
  ⟨h.alive, by simp, (search_lock s.pool f b).trans h.search, h.state⟩

theorem Hit.run_gets {s : Sys τ β} {t : τ} {b : Blkno} {f : BufId} (h : Hit s t b f) (n : ℕ) :
    run Sys.step s (List.replicate (n + 1) (.call t (.get b))) = some
      { s with
        pool := { s.pool with
          locks := update s.pool.locks f (s.pool.locks f + UInt16.ofNat (n + 1)) }
        holds := update s.holds t (update (s.holds t) f (s.holds t f + (n + 1)))
        ret := update s.ret t (.buf (some f)) } := by
  have hpc : update s.pc t .idle = s.pc := by
    rw [← h.idle, update_eq_self]
  induction n generalizing s with
  | zero => simp [run, h.get, Sys.give, Pool.lock, hpc]
  | succ n ih =>
    have hrun : run Sys.step s (List.replicate (n + 1 + 1) (.call t (.get b))) =
        run Sys.step (s.give t (s.pool.lock f) f) (List.replicate (n + 1) (.call t (.get b))) := by
      rw [List.replicate_succ]
      simp only [run, List.foldlM_cons, h.get, Option.bind_eq_bind, Option.bind_some]
    rw [hrun, ih h.give (by simp)]
    have hl : s.pool.locks f + 1 + (UInt16.ofNat n + 1) =
        s.pool.locks f + (UInt16.ofNat n + 1 + 1) := by
      rw [UInt16.add_assoc, UInt16.add_comm 1]
    simp only [Sys.give, Pool.lock, hpc, ofNat_succ, update_self, update_idem, hl,
      add_assoc, Nat.add_comm 1]

/-- The pool with its first buffer allocated and held `n + 1` times. -/
def crowd (n : ℕ) : Sys Unit ℕ :=
  { (initSys Unit 2 512 512 none 0).lookupBuffer () (.fetch .alloc) 0 with
    holds := update (fun _ _ => 0) () (update (fun _ => 0) 0 (0 + 1 + n))
    ret := update (fun _ => .nothing) () (.buf (some 0)) }

theorem run_crowd (n : ℕ) (hn : UInt16.ofNat (n + 1) = 0) (ls : List (Label Unit ℕ)) :
    run Sys.step (initSys Unit (β := ℕ) 2 512 512 none 0)
      (.call () (.alloc 0) :: (List.replicate (n + 1) (.call () (.get 0)) ++ ls)) =
    run Sys.step (crowd (n + 1)) ls := by
  have hstep : (initSys Unit 2 512 512 none 0).step (.call () (.alloc 0)) =
      some (crowd 0) := rfl
  have hhit : Hit (crowd 0) () 0 0 := ⟨rfl, rfl, rfl, rfl⟩
  have hgets := hhit.run_gets n
  rw [hn, UInt16.add_zero, update_eq_self] at hgets
  simp only [run] at hgets
  simp only [run, List.foldlM_cons, hstep, Option.bind_eq_bind, Option.bind_some,
    List.foldlM_append, hgets]
  simp only [crowd, update_self, update_idem]

/-- What the conditions on the calls are for: a buffer from `alloc_buffer` is seen cleared; with `2 ^ 16` references
more than its lock count shows a buffer becomes clean under its holder; blocks beyond the end of the device are
those at its start; and the sync function may change a block behind the cache. -/
theorem cache_not_coherent :
    (∃ s, run Sys.step (initSys Unit (β := ℕ) 2 512 512 none fun _ => 5)
        [.call () (.alloc 0), .call () (.get 0)] = some s ∧
      s.ret () = .buf (some 0) ∧ s.pool.blkno 0 = 0 ∧ s.pool.data 0 = 0) ∧
    (∃ s, run Sys.step (initSys Unit (β := ℕ) 2 512 512 none 0)
        (.call () (.alloc 0) :: (List.replicate 65536 (.call () (.get 0)) ++
          [.call () (.release 0), .call () (.write 0 7), .call () (.markUpdated 0),
            .call () (.flush false), .call () (.sync false)])) = some s ∧
      s.pc () = .idle ∧ s.pool.data 0 = 7 ∧ s.dev 0 = 0) ∧
    (∃ s, run Sys.step (initSys Unit (β := ℕ) 2 1024 512 none 0)
        [.call () (.alloc 0), .call () (.write 0 7), .call () (.markUpdated 0),
          .call () (.release 0), .call () (.flush false), .take (), .done () 1024 0,
          .call () (.get 2147483648), .done () 1024 0] = some s ∧
      s.ret () = .buf (some 1) ∧ s.pool.blkno 1 = 2147483648 ∧ s.pool.data 1 = 7) ∧
    ∃ s, run Sys.step (initSys Unit (β := ℕ) 2 512 512 (some fun _ _ => 9) fun _ => 5)
        [.call () (.get 0), .done () 512 0, .call () (.sync false), .resume (),
          .call () (.get 0)] = some s ∧
      s.ret () = .buf (some 0) ∧ s.pool.data 0 = 5 ∧ s.dev 0 = 9 := by
  refine ⟨⟨_, rfl, rfl, rfl, rfl⟩, ?_, ⟨_, rfl, rfl, rfl, rfl⟩, ⟨_, rfl, rfl, rfl, rfl⟩⟩
  rw [run_crowd 65535 rfl]
  exact ⟨_, rfl, rfl, rfl, rfl⟩

end Limits

end SimpleKernel.Buffer
