import SimpleKernel.Sched.Queues
import Mathlib.Data.Nat.Find

/-! Every operation of the scheduler keeps the queues in order. -/
namespace SimpleKernel.Sched
open LinkedList
open Function (update update_eq_self update_idem update_of_ne update_self)

variable {τ : Type} {s s' : Threads τ} {q : ℤ → List τ} {early : Prop} {t u cur : τ}
  {p charge boost : ℤ}

/-- What putting a thread into a queue does not change. -/
structure SameThreads (s s' : Threads τ) : Prop where
  state : s'.state = s.state
  priority : s'.priority = s.priority
  basePriority : s'.basePriority = s.basePriority
  suspendCount : s'.suspendCount = s.suspendCount

/-- The priority of a thread that goes into a queue. -/
def queuePriority (s : Threads τ) (t : τ) : ℤ :=
  if 0 < s.quantum t then s.priority t
  else if s.basePriority t < s.priority t then s.priority t - 1 else s.priority t

theorem level_decay {a b : ℤ} (ha : Level a) (hb : Level b) :
    Level (if b < a then a - 1 else a) := by
  obtain ⟨ha0, ha1⟩ := ha
  obtain ⟨hb0, -⟩ := hb
  split
  · exact ⟨by omega, by omega⟩
  · exact ⟨ha0, ha1⟩

theorem level_queuePriority (hp : Level (s.priority t)) (hb : Level (s.basePriority t)) :
    Level (queuePriority s t) := by
  rw [queuePriority]
  split
  · exact hp
  · exact level_decay hp hb

theorem level_boosted (hp : Level (s.priority t)) : Level (s.boosted t boost) := by
  obtain ⟨h0, h1⟩ := hp
  have hcrit : priorityTimeCritical = 15 := rfl
  refine ⟨?_, ?_⟩
  · exact le_trans h0 (le_max_left _ _)
  · rw [priorityLevels]
    exact max_lt h1 (by omega)

theorem Queued.congr (h : Queued s q early) (hs : SameThreads s s') (hl : s'.links = s.links)
    (hq : s'.queue = s.queue) (hr : s'.readySummary = s.readySummary) : Queued s' q early := by
  obtain ⟨hst, hpr, hba, hsu⟩ := hs
  refine ⟨h.toLinked.congr hl hq hr, ?_, ?_, ?_, ?_, ?_, ?_⟩
  · rw [hst, hpr]
    exact h.member
  · rw [hpr]
    exact h.prio
  · rw [hba]
    exact h.base
  · rw [hsu]
    exact h.counts
  · rw [hst, hsu]
    exact h.active
  · rw [hst, hsu]
    exact h.suspended

variable [DecidableEq τ]

theorem sameThreads_insertReadyHead : SameThreads s (s.insertReadyHead t) := by
  rw [Threads.insertReadyHead]
  split <;> exact ⟨rfl, rfl, rfl, rfl⟩

theorem sameThreads_insertReadyTail : SameThreads s (s.insertReadyTail t) := by
  rw [Threads.insertReadyTail]
  split <;> exact ⟨rfl, rfl, rfl, rfl⟩

theorem Linked.insertReady (h : Linked s q early) (ht : ∀ r, t ∉ q r) (hp : Level (s.priority t))
    (hb : Level (s.basePriority t)) :
    (∃ q', Linked (s.insertReady t) q' early ∧ Enqueued q q' t (queuePriority s t)) ∧
      (s.insertReady t).state = s.state ∧
      (s.insertReady t).priority = update s.priority t (queuePriority s t) ∧
      (s.insertReady t).basePriority = s.basePriority ∧
      (s.insertReady t).suspendCount = s.suspendCount := by
  rw [Threads.insertReady]
  split
  · next hq =>
    have hprio : queuePriority s t = s.priority t := if_pos hq
    obtain ⟨hst, hpr, hba, hsu⟩ := sameThreads_insertReadyHead (s := s)
    rw [hprio, update_eq_self]
    exact ⟨h.insertReadyHead ht hp, hst, hpr, hba, hsu⟩
  · next hq =>
    have hprio : queuePriority s t =
        if s.basePriority t < s.priority t then s.priority t - 1 else s.priority t := if_neg hq
    set s₁ : Threads τ := { s with
      quantum := update s.quantum t defaultQuantum
      priority := update s.priority t
        (if s.basePriority t < s.priority t then s.priority t - 1 else s.priority t) } with hs₁
    have h₁ : Linked s₁ q early := h.congr rfl rfl rfl
    have hself : s₁.priority t = queuePriority s t := by simp [hs₁, hprio]
    have hlevel : Level (s₁.priority t) := by
      rw [hself, hprio]
      exact level_decay hp hb
    obtain ⟨hst, hpr, hba, hsu⟩ := sameThreads_insertReadyTail (s := s₁)
    have hins := h₁.insertReadyTail ht hlevel
    rw [hself] at hins
    refine ⟨hins, hst, ?_, hba, hsu⟩
    rw [hpr, hprio]

theorem Queued.makeReady (h : Queued (s.setState t .transition) q early) (hne : s.state t ≠ .ready)
    (hcount : s.suspendCount t = 0) :
    ∃ q', Queued (s.markThreadReady cur t charge boost) q' early := by
  rw [Threads.markThreadReady, if_neg (by omega), if_neg (fun hx => hne hx.2)]
  set s₁ : Threads τ := Threads.setState { s with
    quantum := update s.quantum t (s.quantum t - charge)
    priority := update s.priority t (s.boosted t boost)
    panicked := s.panicked || decide (s.state t = .ready) } t .ready with hs₁
  have h₁ : Linked s₁ q early := h.toLinked.congr rfl rfl rfl
  have hp : Level (s₁.priority t) := by
    have : s₁.priority t = s.boosted t boost := by simp [hs₁]
    rw [this]
    exact level_boosted (h.prio t)
  have hb : Level (s₁.basePriority t) := h.base t
  have hne' : (s.setState t .transition).state t ≠ .ready := by simp
  have hnot : ∀ r, t ∉ q r := fun r hr => hne' ((h.member t r).mp hr).1
  obtain ⟨⟨q', hl, hq'⟩, hst, hpr, hba, hsu⟩ := h₁.insertReady hnot hp hb
  refine h.enqueue hne' hcount ?_ ?_ (level_queuePriority hp hb) hba hsu
    fun _ => ⟨q', hl.congr rfl rfl rfl, hq'⟩
  · rw [hst]
    change update s.state t _ = update (update s.state t _) t _
    rw [update_idem]
  · rw [hpr]
    change update (update s.priority t _) t _ = _
    rw [update_idem]
    rfl

theorem sameOthers_setState {st : ThreadState} : SameOthers s (s.setState t st) t :=
  ⟨fun u hu => by simp [hu], fun _ _ => rfl, fun _ _ => rfl, fun _ _ => rfl⟩

theorem Queued.setState {st : ThreadState} (h : Queued s q early) (ht : s.state t ≠ .ready)
    (hst : st ≠ .ready) (hrun : st = .running → s.suspendCount t = 0)
    (hsus : st = .suspended → 0 < s.suspendCount t) : Queued (s.setState t st) q early := by
  refine h.alterIdle ht (h.toLinked.congr rfl rfl rfl) sameOthers_setState
    ⟨?_, h.prio t, h.base t, h.counts t, ?_, ?_⟩
  · simpa using hst
  · simpa using hrun
  · simpa using hsus

theorem Queued.markThreadReady (h : Queued s q early)
    (ht : s.state t ≠ .ready ∨ s.interrupted t = true) :
    ∃ q', Queued (s.markThreadReady cur t charge boost) q' early := by
  by_cases hsus : 0 < s.suspendCount t
  · rw [Threads.markThreadReady, if_pos hsus]
    have hne : s.state t ≠ .ready := fun hr => by
      have := h.active t (.inl hr)
      omega
    exact ⟨q, h.setState hne (by decide) (by simp) fun _ => hsus⟩
  by_cases hint : s.interrupted t = true ∧ s.state t = .ready
  · rw [Threads.markThreadReady, if_neg hsus, if_pos hint]
    exact ⟨q, h⟩
  have hne : s.state t ≠ .ready := fun hr => hint ⟨ht.resolve_left (not_not.mpr hr), hr⟩
  exact (h.setState hne (by decide) (by simp) (by simp)).makeReady hne
    (le_antisymm (not_lt.mp hsus) (h.counts t))

theorem Queued.interruptThread (h : Queued s q early) :
    ∃ q', Queued (s.interruptThread cur t) q' early := by
  rw [Threads.interruptThread]
  split
  · exact ⟨q, h⟩
  next hwait =>
  split
  · exact ⟨q, h⟩
  · refine Queued.markThreadReady (h.congr ⟨rfl, rfl, rfl, rfl⟩ rfl rfl rfl) (.inl ?_)
    simp only [not_not] at hwait
    simp [hwait]

theorem Queued.preemptThread (h : Queued s q early) (hrun : s.state cur = .running) :
    ∃ q', Queued (s.preemptThread cur) q' early := by
  have hne : s.state cur ≠ .ready := by simp [hrun]
  rw [Threads.preemptThread]
  set s₁ : Threads τ := if s.quantum cur ≤ 0 then
      { s with
        quantum := update s.quantum cur defaultQuantum
        priority := update s.priority cur
          (if s.basePriority cur < s.priority cur then s.priority cur - 1 else s.priority cur) }
    else s with hs₁
  -- what a new quantum changes
  obtain ⟨p, hp, hprio, hst, hba, hsu, hl⟩ : ∃ p, Level p ∧
      s₁.priority = update s.priority cur p ∧ s₁.state = s.state ∧
      s₁.basePriority = s.basePriority ∧ s₁.suspendCount = s.suspendCount ∧ Linked s₁ q early := by
    rw [hs₁]
    split
    · exact ⟨_, level_decay (h.prio cur) (h.base cur), rfl, rfl, rfl, rfl,
        h.toLinked.congr rfl rfl rfl⟩
    · exact ⟨s.priority cur, h.prio cur, by rw [update_eq_self], rfl, rfl, rfl, h.toLinked⟩
  have hself : (s₁.setState cur .ready).priority cur = p := by
    change s₁.priority cur = p
    rw [hprio, update_self]
  obtain ⟨ht1, ht2, ht3, ht4⟩ := sameThreads_insertReadyTail (s := s₁.setState cur .ready)
  refine h.enqueue hne (h.active cur (.inr hrun)) ?_ ?_ hp ?_ ?_ fun hnot => ?_
  · rw [ht1]
    change update s₁.state cur _ = _
    rw [hst]
  · rw [ht2]
    exact hprio
  · rw [ht3]
    exact hba
  · rw [ht4]
    exact hsu
  · have hl' : Linked (s₁.setState cur .ready) q early := hl.congr rfl rfl rfl
    have hins := hl'.insertReadyTail hnot (by rwa [hself])
    rwa [hself] at hins

theorem Queued.yield (h : Queued s q early) (hrun : s.state cur = .running) :
    ∃ q', Queued (s.yield cur) q' early :=
  Queued.markThreadReady (h.congr ⟨rfl, rfl, rfl, rfl⟩ rfl rfl rfl) (.inl (by simp [hrun]))

theorem Queued.enterWait (h : Queued s q early) (hrun : s.state cur = .running) (alert : Bool) :
    Queued (s.enterWait cur alert) q early :=
  have hwaiting : Queued (s.setState cur .waiting) q early :=
    h.setState (by simp [hrun]) (by decide) (by simp) (by simp)
  hwaiting.congr ⟨rfl, rfl, rfl, rfl⟩ rfl rfl rfl

theorem sameOthers_setSuspendCount {n : ℤ} : SameOthers s (s.setSuspendCount t n) t :=
  ⟨fun _ _ => rfl, fun _ _ => rfl, fun _ _ => rfl,
    fun u hu => by simp [Threads.setSuspendCount, hu]⟩

theorem sameOthers_setPriority : SameOthers s (s.setPriority t p) t :=
  ⟨fun _ _ => rfl, fun u hu => by simp [Threads.setPriority, hu],
    fun u hu => by simp [Threads.setPriority, hu], fun _ _ => rfl⟩

omit [DecidableEq τ] in
theorem SameOthers.trans {s'' : Threads τ} (h : SameOthers s s' t) (h' : SameOthers s' s'' t) :
    SameOthers s s'' t :=
  ⟨fun u hu => (h'.state u hu).trans (h.state u hu),
    fun u hu => (h'.priority u hu).trans (h.priority u hu),
    fun u hu => (h'.basePriority u hu).trans (h.basePriority u hu),
    fun u hu => (h'.suspendCount u hu).trans (h.suspendCount u hu)⟩

section
variable (h : Queued s q early)
include h

theorem Queued.suspendThread :
    ∃ q', Queued (s.suspendThread t).1 q' early := by
  have hcount := h.counts t
  have hself : (s.setSuspendCount t (s.suspendCount t + 1)).suspendCount t = s.suspendCount t + 1 := by
    simp [Threads.setSuspendCount]
  have hl : Linked (s.setSuspendCount t (s.suspendCount t + 1)) q early :=
    h.toLinked.congr rfl rfl rfl
  -- the count of a thread that neither runs nor is ready
  have hother : s.state t ≠ .ready → s.state t ≠ .running →
      Queued (s.setSuspendCount t (s.suspendCount t + 1)) q early := by
    intro hready hrun
    refine h.alterIdle hready hl sameOthers_setSuspendCount
      ⟨hready, h.prio t, h.base t, ?_, fun hx => absurd hx hrun, fun _ => ?_⟩
    · omega
    · omega
  simp only [Threads.suspendThread]
  split
  · next hzero =>
    split
    · next hready =>
      have hmem : t ∈ q (s.priority t) := (h.member t _).mpr ⟨hready, rfl⟩
      have hl' := hl.removeFromReadyQueue hmem (h.prio t)
      refine ⟨_, h.alterReady hready (hl'.congr rfl rfl rfl)
        (sameOthers_setSuspendCount.trans ⟨fun u hu => ?_, fun _ _ => rfl, fun _ _ => rfl,
          fun _ _ => rfl⟩) ⟨by simp, h.prio t, h.base t, ?_, by simp, fun _ => ?_⟩⟩
      · simp [hu, Threads.removeFromReadyQueue]
      · change 0 ≤ (s.setSuspendCount t (s.suspendCount t + 1)).suspendCount t
        omega
      · change 0 < (s.setSuspendCount t (s.suspendCount t + 1)).suspendCount t
        omega
    · next hready =>
      split
      · next hrun =>
        refine ⟨q, h.alterIdle hready (hl.congr rfl rfl rfl)
          (sameOthers_setSuspendCount.trans ⟨fun u hu => ?_, fun _ _ => rfl, fun _ _ => rfl,
            fun _ _ => rfl⟩)
          ⟨by simp [Threads.clearPreempt], h.prio t, h.base t, ?_, by simp [Threads.clearPreempt],
            fun _ => ?_⟩⟩
        · simp [hu, Threads.clearPreempt]
        · change 0 ≤ (s.setSuspendCount t (s.suspendCount t + 1)).suspendCount t
          omega
        · change 0 < (s.setSuspendCount t (s.suspendCount t + 1)).suspendCount t
          omega
      · next hrun => exact ⟨q, hother hready hrun⟩
  · next hpos =>
    have hidle : s.state t ≠ .ready ∧ s.state t ≠ .running :=
      ⟨fun hx => hpos (h.active t (.inl hx)), fun hx => hpos (h.active t (.inr hx))⟩
    exact ⟨q, hother hidle.1 hidle.2⟩

theorem Queued.resumeThread :
    ∃ q', Queued (s.resumeThread cur t).1 q' early := by
  simp only [Threads.resumeThread]
  split
  swap
  · exact ⟨q, h⟩
  next hpos =>
  have hready : s.state t ≠ .ready := fun hx => by
    have := h.active t (.inl hx)
    omega
  have hrun : s.state t ≠ .running := fun hx => by
    have := h.active t (.inr hx)
    omega
  have hself : (s.setSuspendCount t (s.suspendCount t - 1)).suspendCount t = s.suspendCount t - 1 := by
    simp [Threads.setSuspendCount]
  have hl : Linked (s.setSuspendCount t (s.suspendCount t - 1)) q early :=
    h.toLinked.congr rfl rfl rfl
  have hcount : 0 ≤ (s.setSuspendCount t (s.suspendCount t - 1)).suspendCount t := by omega
  split
  · next hzero =>
    split
    · have htrans : Queued ((s.setSuspendCount t (s.suspendCount t - 1)).setState t .transition) q
          early := by
        refine h.alterIdle hready (hl.congr rfl rfl rfl)
          (sameOthers_setSuspendCount.trans sameOthers_setState)
          ⟨by simp, h.prio t, h.base t, hcount, by simp, by simp⟩
      exact htrans.makeReady hready (by omega)
    · next hstate =>
      rw [not_or] at hstate
      exact ⟨q, h.alterIdle hready hl sameOthers_setSuspendCount
        ⟨hready, h.prio t, h.base t, hcount, fun hx => absurd hx hrun,
          fun hx => absurd hx hstate.1⟩⟩
  · next hpos' =>
    refine ⟨q, h.alterIdle hready hl sameOthers_setSuspendCount
      ⟨hready, h.prio t, h.base t, hcount, fun hx => absurd hx hrun, fun _ => ?_⟩⟩
    omega

theorem Queued.setPriority (hready : s.state t ≠ .ready) (hp : Level p) :
    Queued (s.setPriority t p) q early :=
  h.alterIdle hready (h.toLinked.congr rfl rfl rfl) sameOthers_setPriority
    ⟨hready, by simpa [Threads.setPriority] using hp, by simpa [Threads.setPriority] using hp,
      h.counts t, fun hx => h.active t (.inr hx), h.suspended t⟩

theorem Queued.setThreadPriority (hcur : t = cur → s.state t = .running) :
    ∃ q', Queued (s.setThreadPriority cur t p).1 q' early := by
  rw [Threads.setThreadPriority]
  split
  · exact ⟨q, h⟩
  next hrange =>
  have hp : Level p := by
    rw [not_or, not_lt, not_le] at hrange
    exact hrange
  split
  · exact ⟨q, h⟩
  split
  · next heq =>
    have hne : s.state t ≠ .ready := by simp [hcur heq]
    have h₁ := h.setPriority hne hp
    split
    · have hready : ∃ q', Queued ((s.setPriority t p).markThreadReady cur t 0 0) q' early :=
        h₁.markThreadReady (.inl hne)
      obtain ⟨q', h'⟩ := hready
      exact ⟨q', h'.congr ⟨rfl, rfl, rfl, rfl⟩ rfl rfl rfl⟩
    · exact ⟨q, h₁⟩
  split
  · next hready =>
    have hmem : t ∈ q (s.priority t) := (h.member t _).mpr ⟨hready, rfl⟩
    have hl' := h.toLinked.removeFromReadyQueue hmem (h.prio t)
    have hothers : SameOthers s (((s.removeFromReadyQueue t).setPriority t p).setState t .transition)
        t := by
      refine ⟨fun u hu => ?_, fun u hu => ?_, fun u hu => ?_, fun _ _ => rfl⟩
      · simp [hu, Threads.setPriority, Threads.removeFromReadyQueue]
      · simp [hu, Threads.setPriority, Threads.removeFromReadyQueue]
      · simp [hu, Threads.setPriority, Threads.removeFromReadyQueue]
    have hl₁ : Linked (((s.removeFromReadyQueue t).setPriority t p).setState t .transition) _ early :=
      hl'.congr rfl rfl rfl
    have h₁ := h.alterReady hready hl₁ hothers
      ⟨by simp, by simpa [Threads.setPriority] using hp, by simpa [Threads.setPriority] using hp,
        h.counts t, by simp, by simp⟩
    exact h₁.markThreadReady (.inl (by simp))
  · next hready => exact ⟨q, h.setPriority hready hp⟩

theorem Queued.createThread (hst : s.state t = .initialized) (hp : Level p) :
    Queued (s.createThread cur t p) q early := by
  have hne : s.state t ≠ .ready := by simp [hst]
  have hnot : ∀ r, t ∉ q r := fun r hr => hne ((h.member t r).mp hr).1
  refine h.alterIdle hne ⟨?_, h.set, h.nonempty⟩ ⟨fun u hu => ?_, fun u hu => ?_, fun u hu => ?_,
    fun u hu => ?_⟩ ⟨?_, ?_, ?_, ?_, ?_, ?_⟩
  · refine h.family.congr fun k b hb => ?_
    have hframe := clear_frame s.links (hnot k)
    exact ⟨hframe.1 b hb, hframe.2 b hb⟩
  all_goals simp [Threads.createThread, Threads.initThread, Threads.setPriority, *]

theorem Queued.createKernelThread (hst : s.state t = .initialized)
    (hp : Level p) : ∃ q', Queued (s.createKernelThread cur t p) q' early :=
  (h.createThread hst hp).markThreadReady
    (.inl (by simp [Threads.createThread, Threads.initThread, Threads.setPriority]))

theorem Queued.createUserThread (hst : s.state t = .initialized) :
    Queued (s.createUserThread cur t) q early := by
  have h₁ : Queued (s.createThread cur t priorityNormal) q early :=
    h.createThread hst ⟨by decide, by decide⟩
  have hinit : (s.createThread cur t priorityNormal).state t = .initialized := by
    simp [Threads.createThread, Threads.initThread, Threads.setPriority]
  have hcount := h₁.counts t
  rw [Threads.createUserThread]
  refine h₁.alterIdle (by simp [hinit]) (h₁.toLinked.congr rfl rfl rfl) sameOthers_setSuspendCount
    ⟨?_, h₁.prio t, h₁.base t, ?_, ?_, ?_⟩
  · simp [Threads.setSuspendCount, hinit]
  · simp only [Threads.setSuspendCount, update_self]
    omega
  · simp [Threads.setSuspendCount, hinit]
  · simp [Threads.setSuspendCount, hinit]

end

omit [DecidableEq τ] in
theorem Queued.highest (h : Queued s q early) (hne : ∃ p, q p ≠ []) :
    ∃ p t l, Level p ∧ q p = t :: l ∧ ∀ r, p < r → q r = [] := by
  classical
  have hlevel : ∀ p, q p ≠ [] → Level p := by
    intro p hp
    obtain ⟨t, l, hq⟩ := List.exists_cons_of_ne_nil hp
    rw [((h.member t p).mp (by simp [hq])).2]
    exact h.prio t
  obtain ⟨p₀, hp₀⟩ := hne
  obtain ⟨hlt₀, hcast₀⟩ := (hlevel p₀ hp₀).toNat
  set n := Nat.findGreatest (fun n => q (n : ℤ) ≠ []) 31 with hn
  have hspec : q (n : ℤ) ≠ [] := by
    have hex : q ((p₀.toNat : ℕ) : ℤ) ≠ [] := by rwa [hcast₀]
    exact Nat.findGreatest_spec (P := fun n => q (n : ℤ) ≠ []) (by omega : p₀.toNat ≤ 31) hex
  obtain ⟨t, l, hq⟩ := List.exists_cons_of_ne_nil hspec
  refine ⟨n, t, l, hlevel _ hspec, hq, fun r hr => ?_⟩
  by_contra hne
  obtain ⟨hlt, hcast⟩ := (hlevel r hne).toNat
  have hgt : n < r.toNat := by omega
  have := Nat.findGreatest_is_greatest hgt (by omega : r.toNat ≤ 31)
  rw [hcast] at this
  exact this hne

theorem Queued.dispatch {c c' : Cpu τ} (h : Queued c.threads q early) (hc : c.dispatch = some c') :
    (∃ q', Queued c'.threads q' early) ∧ c.threads.state c'.cur = .ready ∧
      c'.threads.state = update c.threads.state c'.cur .running ∧
      c'.threads.suspendCount = c.threads.suspendCount := by
  obtain ⟨⟨s', t⟩, hfind, rfl⟩ := Option.map_eq_some_iff.mp hc
  have hne : ∃ p, q p ≠ [] := by
    rw [Threads.findReadyThread] at hfind
    split at hfind
    · simp at hfind
    · obtain ⟨u, hu, -⟩ := Option.map_eq_some_iff.mp hfind
      refine ⟨findHighestBit 31 c.threads.readySummary, fun hnil => ?_⟩
      rw [h.toLinked.head_eq_none.mpr hnil] at hu
      simp at hu
  obtain ⟨p, u, l, hp, hq, hhigh⟩ := h.highest hne
  obtain ⟨s₁, hs₁, hl, hst, hpr, hba, hsu⟩ := h.toLinked.findReadyThread hp hq hhigh
  rw [hs₁] at hfind
  obtain ⟨rfl, rfl⟩ := Prod.mk.inj (Option.some.inj hfind)
  obtain ⟨hready, rfl⟩ := (h.member u p).mp (by simp [hq])
  have hnodup := (h.family.lists (c.threads.priority u)).nodup
  rw [hq] at hnodup
  have hothers : SameOthers c.threads (s₁.setState u .running) u :=
    ⟨fun v hv => by simp [hv, hst], fun v _ => congrFun hpr v, fun v _ => congrFun hba v,
      fun v _ => congrFun hsu v⟩
  have hout : Outside (s₁.setState u .running) u :=
    ⟨by simp, congrFun hpr u ▸ h.prio u, congrFun hba u ▸ h.base u, congrFun hsu u ▸ h.counts u,
      fun _ => (congrFun hsu u).trans (h.active u (.inl hready)), by simp⟩
  refine ⟨⟨_, h.alter (hl.congr rfl rfl rfl) hothers hout fun v r => ?_⟩, hready, ?_, hsu⟩
  · by_cases hr : r = c.threads.priority u
    · subst hr
      rw [update_self, hq, List.mem_cons]
      constructor
      · intro hv
        refine ⟨.inr hv, ?_⟩
        rintro rfl
        exact (List.nodup_cons.mp hnodup).1 hv
      · rintro ⟨hv, hne⟩
        exact hv.resolve_left hne
    · rw [update_of_ne hr]
      refine ⟨fun hv => ⟨hv, ?_⟩, fun hv => hv.1⟩
      rintro rfl
      exact hr ((h.member v r).mp hv).2
  · change update s₁.state u _ = _
    rw [hst]

end SimpleKernel.Sched
