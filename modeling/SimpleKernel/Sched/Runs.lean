import SimpleKernel.Sched.Steps

/-! The scheduler over whole runs from `init_sched` on. -/
namespace SimpleKernel.Sched
open LinkedList Transition
open Function (update update_of_ne update_self)

variable {τ : Type} [DecidableEq τ] {s : Threads τ} {c c' : Cpu τ} {q : ℤ → List τ} {early : Prop}
  {t u cur idle systask : τ} {charge boost : ℤ}

theorem Queued.step {l : SchedCall τ} (h : Queued c.threads q early) (hok : c.Ok l)
    (hl : c.step l = some c') : ∃ q', Queued c'.threads q' early := by
  have hclear : ∀ {s : Threads τ}, (∃ q', Queued s q' early) →
      ∃ q', Queued s.clearPreempt q' early := by
    rintro s ⟨q', h'⟩
    exact ⟨q', h'.congr ⟨rfl, rfl, rfl, rfl⟩ rfl rfl rfl⟩
  cases l with
  | wake t charge boost =>
    obtain rfl := Option.some.inj hl
    refine h.markThreadReady ?_
    rcases hok with hw | hs | hr
    · exact .inl (by simp [hw])
    · exact .inl (by simp [hs])
    · exact .inr hr.2
  | interrupt t =>
    obtain rfl := Option.some.inj hl
    exact h.interruptThread
  | preempt =>
    obtain rfl := Option.some.inj hl
    exact hclear (h.preemptThread hok)
  | yield =>
    obtain rfl := Option.some.inj hl
    exact hclear (h.yield hok)
  | idle =>
    obtain rfl := Option.some.inj hl
    have hrun : c.threads.state c.cur = .running := hok
    exact hclear (h.markThreadReady (.inl (by simp [hrun])))
  | wait alert =>
    obtain rfl := Option.some.inj hl
    exact hclear ⟨q, h.enterWait hok alert⟩
  | waited | tick =>
    obtain rfl := Option.some.inj hl
    exact ⟨q, h.congr ⟨rfl, rfl, rfl, rfl⟩ rfl rfl rfl⟩
  | suspend t =>
    obtain rfl := Option.some.inj hl
    exact h.suspendThread
  | resume t =>
    obtain rfl := Option.some.inj hl
    exact h.resumeThread
  | setPriority t p =>
    obtain rfl := Option.some.inj hl
    exact h.setThreadPriority hok
  | createKernel t p =>
    obtain rfl := Option.some.inj hl
    exact h.createKernelThread hok.1 hok.2.2
  | createUser t =>
    obtain rfl := Option.some.inj hl
    exact ⟨q, h.createUserThread hok.1⟩
  | terminate =>
    obtain rfl := Option.some.inj hl
    have hrun : c.threads.state c.cur = .running := hok
    exact hclear ⟨q, h.setState (by simp [hrun]) (by decide) (by simp) (by simp)⟩
  | dispatch => exact (h.dispatch hl).1

theorem Queued.reach (h : Queued c.threads q early) (hr : Reach Cpu.step Cpu.Ok c c') :
    ∃ q', Queued c'.threads q' early := by
  refine hr.invariant (P := fun c => ∃ q', Queued c.threads q' early) ⟨q, h⟩
    fun a l b ha hok hl => ?_
  obtain ⟨q', ha⟩ := ha
  exact ha.step hok hl

theorem queued_initSched (hne : idle ≠ systask) :
    ∃ q, Queued (initSched idle systask).threads q True := by
  refine Queued.createKernelThread (q := fun _ => []) ?_ (by simp [hne.symm])
    ⟨by decide, by decide⟩
  refine ⟨⟨⟨fun p => isList_nil _, by simp⟩, by simp, fun p hp htest => .inr ⟨trivial, ?_⟩⟩,
    fun t p => ?_, fun t => ⟨by simp [prioritySysidle], by simp [prioritySysidle, priorityLevels]⟩,
    fun t => ⟨by simp [prioritySysidle], by simp [prioritySysidle, priorityLevels]⟩,
    fun t => le_refl _, fun t _ => rfl, fun t ht => ?_⟩
  · have hzero : Level prioritySysidle := ⟨by decide, by decide⟩
    rw [tested_iff hp, testBit_bit hzero hp] at htest
    exact (of_decide_eq_true htest).symm
  · by_cases ht : t = idle <;> simp [ht]
  · by_cases hti : t = idle <;> simp [hti] at ht

/-! States of threads. -/

theorem state_insertReady : (s.insertReady t).state = s.state := by
  rw [Threads.insertReady]
  split
  · exact sameThreads_insertReadyHead.state
  · exact sameThreads_insertReadyTail.state

theorem state_markThreadReady (hu : u ≠ t) :
    (s.markThreadReady cur t charge boost).state u = s.state u := by
  rw [Threads.markThreadReady]
  split
  · simp [hu]
  split
  · rfl
  · simp only [state_insertReady, Threads.setState_state, update_of_ne hu]

theorem markThreadReady_suspended (hsus : 0 < s.suspendCount t) :
    (s.markThreadReady cur t charge boost).state t = .suspended := by
  rw [Threads.markThreadReady, if_pos hsus]
  simp

theorem markThreadReady_ready (hcount : ¬ 0 < s.suspendCount t) :
    (s.markThreadReady cur t charge boost).state t = .ready := by
  rw [Threads.markThreadReady, if_neg hcount]
  split
  · next hx => exact hx.2
  · simp only [state_insertReady, Threads.setState_state, update_self]

theorem state_interruptThread (hu : s.state t = .waiting → u ≠ t) :
    (s.interruptThread cur t).state u = s.state u := by
  rw [Threads.interruptThread]
  split
  · rfl
  next hwait =>
    split
    · rfl
    · exact state_markThreadReady (hu (not_not.mp hwait))

theorem state_preemptThread (hu : u ≠ cur) : (s.preemptThread cur).state u = s.state u := by
  have hstate : (s.preemptThread cur).state = update s.state cur .ready := by
    rw [Threads.preemptThread, sameThreads_insertReadyTail.state]
    split <;> rfl
  rw [hstate, update_of_ne hu]

theorem state_suspendThread (hu : u = t → s.state t ≠ .ready ∧ s.state t ≠ .running) :
    (s.suspendThread t).1.state u = s.state u := by
  rw [Threads.suspendThread]
  split
  · split
    next hready =>
      exact update_of_ne (fun hx => (hu hx).1 hready) _ _
    · split
      next hrun => exact update_of_ne (fun hx => (hu hx).2 hrun) _ _
      · rfl
  · rfl

theorem state_setThreadPriority (hu : u = t → t ≠ cur ∧ s.state t ≠ .ready) :
    (s.setThreadPriority cur t p).1.state u = s.state u := by
  have hcur : t = cur → u ≠ t := fun ht hx => (hu hx).1 ht
  rw [Threads.setThreadPriority]
  split
  · rfl
  split
  · rfl
  split
  · next ht =>
    split
    · exact state_markThreadReady (hcur ht)
    · rfl
  split
  · next hready =>
    have hne : u ≠ t := fun hx => (hu hx).2 hready
    exact (state_markThreadReady hne).trans (update_of_ne hne _ _)
  · rfl

theorem resumeThread_suspended (hst : s.state u = .suspended) :
    (s.resumeThread cur t).1.state u = .suspended ∨ (s.resumeThread cur t).1.state u = .ready := by
  rw [Threads.resumeThread]
  split
  · split
    · next hzero =>
      split
      · by_cases hu : u = t
        · subst hu
          refine .inr (markThreadReady_ready ?_)
          simp [Threads.setSuspendCount, hzero]
        · exact .inl ((state_markThreadReady hu).trans hst)
      · exact .inl hst
    · exact .inl hst
  · exact .inl hst

theorem suspended_step {l : SchedCall τ} (h : Queued c.threads q early)
    (hst : c.threads.state t = .suspended) (hok : c.Ok l) (hl : c.step l = some c') :
    c'.threads.state t = .suspended ∨ c'.threads.state t = .ready := by
  have hcount := h.suspended t hst
  have hcur : c.threads.state c.cur = .running → t ≠ c.cur := by
    rintro hrun rfl
    simp [hst] at hrun
  -- a thread that gives up the processor is another one
  have hself : ∀ {s : Threads τ}, (∀ u, u ≠ c.cur → s.state u = c.threads.state u) →
      c.threads.state c.cur = .running → s.state t = .suspended := by
    intro s hs hrun
    rw [hs t (hcur hrun), hst]
  cases l with
  | wake u charge boost =>
    obtain rfl := Option.some.inj hl
    by_cases hu : t = u
    · subst hu
      exact .inl (markThreadReady_suspended hcount)
    · exact .inl ((state_markThreadReady hu).trans hst)
  | interrupt u =>
    obtain rfl := Option.some.inj hl
    refine .inl ((state_interruptThread ?_).trans hst)
    rintro hwait rfl
    simp [hst] at hwait
  | preempt =>
    obtain rfl := Option.some.inj hl
    exact .inl (hself (fun u hu => state_preemptThread hu) hok)
  | yield | idle =>
    obtain rfl := Option.some.inj hl
    exact .inl (hself (fun u hu => state_markThreadReady hu) hok)
  | wait alert | terminate =>
    obtain rfl := Option.some.inj hl
    exact .inl (hself (fun u hu => update_of_ne hu _ _) hok)
  | waited =>
    obtain rfl := Option.some.inj hl
    exact .inl hst
  | suspend u =>
    obtain rfl := Option.some.inj hl
    refine .inl ((state_suspendThread ?_).trans hst)
    rintro rfl
    simp [hst]
  | resume u =>
    obtain rfl := Option.some.inj hl
    exact resumeThread_suspended hst
  | setPriority u p =>
    obtain rfl := Option.some.inj hl
    refine .inl ((state_setThreadPriority ?_).trans hst)
    rintro rfl
    refine ⟨?_, by simp [hst]⟩
    intro hx
    simp [hok hx] at hst
  | createKernel u p =>
    obtain rfl := Option.some.inj hl
    have hu : t ≠ u := by
      rintro rfl
      simp [hok.1] at hst
    refine .inl ((state_markThreadReady hu).trans ?_)
    exact (update_of_ne hu _ _).trans hst
  | createUser u =>
    obtain rfl := Option.some.inj hl
    have hu : t ≠ u := by
      rintro rfl
      simp [hok.1] at hst
    exact .inl ((update_of_ne hu _ _).trans hst)
  | tick =>
    obtain rfl := Option.some.inj hl
    exact .inl hst
  | dispatch =>
    obtain ⟨-, hready, hstate, -⟩ := h.dispatch hl
    have hne : t ≠ c'.cur := by
      rintro rfl
      simp [hst] at hready
    rw [hstate, update_of_ne hne]
    exact .inl hst

/-- On the way from `c` the thread has become ready, or it is suspended still. -/
def Kept (c c' : Cpu τ) (t : τ) : Prop :=
  c'.threads.state t = .suspended ∧ 0 < c'.threads.suspendCount t ∨
    ∃ m, Reach Cpu.step Cpu.Ok c m ∧ Reach Cpu.step Cpu.Ok m c' ∧ m.threads.state t = .ready

theorem Queued.kept (h : Queued c.threads q early) (hst : c.threads.state t = .suspended)
    (hr : Reach Cpu.step Cpu.Ok c c') : Kept c c' t := by
  refine (hr.invariant (P := fun c' => Reach Cpu.step Cpu.Ok c c' ∧ Kept c c' t)
    ⟨Reach.refl c, .inl ⟨hst, h.suspended t hst⟩⟩ fun a l b ha hok hl => ?_).2
  obtain ⟨hca, hkept⟩ := ha
  have hcb := hca.tail hok hl
  refine ⟨hcb, ?_⟩
  rcases hkept with ⟨hsus, -⟩ | ⟨m, hcm, hma, hready⟩
  · obtain ⟨qa, ha⟩ := h.reach hca
    obtain ⟨qb, hb⟩ := h.reach hcb
    rcases suspended_step ha hsus hok hl with hsus' | hready
    · exact .inl ⟨hsus', hb.suspended t hsus'⟩
    · exact .inr ⟨b, hcb, Reach.refl b, hready⟩
  · exact .inr ⟨m, hcm, hma.tail hok hl, hready⟩

theorem resumeThread_ready (hst : s.state t = .suspended) (hone : s.suspendCount t = 1) :
    (s.resumeThread cur t).1.state t = .ready := by
  rw [Threads.resumeThread]
  rw [if_pos (by omega), if_pos (by omega), if_pos (.inl hst)]
  apply markThreadReady_ready
  simp [Threads.setSuspendCount, hone]

omit [DecidableEq τ] in
theorem le_boosted : s.priority t ≤ s.boosted t boost := le_max_left _ _

omit [DecidableEq τ] in
theorem boosted_le : s.boosted t boost ≤ max (s.priority t) priorityTimeCritical :=
  max_le_max_left _ (min_le_right _ _)

theorem markThreadReady_priority :
    (s.markThreadReady cur t charge boost).priority t = s.priority t ∨
      (s.markThreadReady cur t charge boost).priority t = s.boosted t boost ∨
      s.quantum t ≤ charge ∧ s.basePriority t < s.boosted t boost ∧
        (s.markThreadReady cur t charge boost).priority t = s.boosted t boost - 1 := by
  rw [Threads.markThreadReady]
  split
  · exact .inl rfl
  split
  · exact .inl rfl
  · refine .inr ?_
    dsimp only
    rw [Threads.insertReady]
    split
    · rw [sameThreads_insertReadyHead.priority]
      exact .inl (update_self _ _ _)
    · next hquantum =>
      rw [sameThreads_insertReadyTail.priority]
      simp only [Threads.setState_quantum, Threads.setState_priority,
        update_self] at hquantum ⊢
      split
      · next hlt => exact .inr ⟨by omega, hlt, rfl⟩
      · exact .inl rfl

/-- The scheduler from `init_sched` on. The ready threads are those of the queues, each in the one of its priority.
A bit of the summary is set iff its queue is not empty, but for the one of the idle thread, until that thread has
been queued. -/
theorem scheduler_queues (hne : idle ≠ systask)
    (hr : Reach Cpu.step Cpu.Ok (initSched idle systask) c) :
    (∃ q, Queued c.threads q True ∧ ∀ p t l, q p = t :: l → (∀ r, p < r → q r = []) →
      ∃ s', c.threads.findReadyThread = some (s', t) ∧
        Linked s' (update q p l) True) ∧
    ((c.threads.queue prioritySysidle).head ≠ none → ∀ c', Reach Cpu.step Cpu.Ok c c' →
      ∃ q, Queued c'.threads q False) ∧
    (∀ t charge boost, c.threads.priority t ≤ c.threads.boosted t boost ∧
      c.threads.boosted t boost ≤ max (c.threads.priority t) priorityTimeCritical ∧
      ((c.threads.markThreadReady c.cur t charge boost).priority t = c.threads.priority t ∨
        (c.threads.markThreadReady c.cur t charge boost).priority t =
          c.threads.boosted t boost ∨
        c.threads.quantum t ≤ charge ∧ c.threads.basePriority t < c.threads.boosted t boost ∧
          (c.threads.markThreadReady c.cur t charge boost).priority t =
            c.threads.boosted t boost - 1)) ∧
    (∀ t, 0 < c.threads.suspendCount t → ∀ charge boost c₁ c',
      c.Ok (.wake t charge boost) → c.step (.wake t charge boost) = some c₁ →
      Reach Cpu.step Cpu.Ok c₁ c' → Kept c₁ c' t) ∧
    (∀ t, c.threads.state t = .suspended → c.threads.suspendCount t = 1 →
      (c.threads.resumeThread c.cur t).1.state t = .ready) := by
  obtain ⟨q₀, h₀⟩ := queued_initSched hne
  obtain ⟨q, h⟩ := h₀.reach hr
  refine ⟨⟨q, h, ?_⟩, ?_, ?_, ?_, ?_⟩
  · intro p t l hq hhigh
    have hp : Level p := by
      rw [((h.member t p).mp (by simp [hq])).2]
      exact h.prio t
    obtain ⟨s', hfind, hl, -⟩ := h.toLinked.findReadyThread hp hq hhigh
    exact ⟨s', hfind, hl⟩
  · intro hidle c' hr'
    have hq : q prioritySysidle ≠ [] := fun hnil => hidle (h.toLinked.head_eq_none.mpr hnil)
    have hfull : Queued c.threads q False := by
      refine ⟨⟨h.family, h.set, fun p hp htest => ?_⟩, h.member, h.prio, h.base, h.counts,
        h.active, h.suspended⟩
      rcases h.nonempty p hp htest with hne | ⟨-, rfl⟩
      · exact .inl hne
      · exact .inl hq
    exact hfull.reach hr'
  · intro t charge boost
    exact ⟨le_boosted, boosted_le, markThreadReady_priority⟩
  · intro t hcount charge boost c₁ c' hok hl hr'
    obtain ⟨q₁, h₁⟩ := h.step hok hl
    obtain rfl := Option.some.inj hl
    exact h₁.kept (markThreadReady_suspended hcount) hr'
  · intro t hst hone
    exact resumeThread_ready hst hone

/-- Once the idle thread has given up the processor the summary is exact. -/
theorem scheduler_queues_idle : ∃ c, (initSched false true).step .idle = some c ∧
    ∃ q, Queued c.threads q False := by
  have hstart : (initSched false true).Ok .idle := by
    change (initSched false true).threads.state false = .running
    decide
  have hstep : (initSched false true).step .idle = some _ := rfl
  have hr : Reach Cpu.step Cpu.Ok _ _ := Reach.single hstart hstep
  exact ⟨_, hstep, (scheduler_queues (by decide : false ≠ true) hr).2.1 (by decide) _
    (Reach.refl _)⟩

/-- `init_sched` sets the bit of the idle thread, which runs and is in no queue. -/
theorem summary_early : ¬ ∀ c, Reach Cpu.step Cpu.Ok (initSched false true) c →
    ∀ p, Level p → (Tested c.threads.readySummary p ↔ (c.threads.queue p).head ≠ none) := by
  intro h
  have hzero : Level prioritySysidle := ⟨by decide, by decide⟩
  have htest : Tested (initSched false true).threads.readySummary prioritySysidle := by
    change _ ≠ _
    decide
  exact (h _ (Reach.refl _) prioritySysidle hzero).mp htest (by decide)

end SimpleKernel.Sched
