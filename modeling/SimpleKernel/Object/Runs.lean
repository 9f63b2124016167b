import SimpleKernel.Object.Release

/-! Every step of a run keeps the wait lists sound, as long as no wait call names an object twice. -/
namespace SimpleKernel.Object
open LinkedList Sched Transition
open Function (update update_eq_self update_of_ne update_self)

variable {τ ι : Type} [DecidableEq τ] [DecidableEq ι] {s s' : Sys τ ι} {q : Queues τ ι} {t u : τ}
  {late : Prop} {objs : List ι} {timeout : UInt32} {alertable : Bool} {ty : WaitType}

/-- The wait calls name no object twice. -/
def Label.Distinct : Label τ ι → Prop
  | .call (.waitAny objs _ _) | .call (.waitAll objs _ _) => objs.Nodup
  | _ => True

/-- No thread is interrupted. -/
def Label.Quiet : Label τ ι → Prop
  | .interrupt _ => False
  | _ => True

/-! Calls that do not block. -/

omit [DecidableEq ι] in
theorem sameWaits_finish {rc : ℤ} (h : s.pc t = none) : SameWaits s (s.finish t rc) := by
  refine ⟨rfl, rfl, rfl, rfl, rfl, ?_⟩
  rw [← update_eq_self t s.pc, h]
  rfl

theorem sameWaits_enterObject (s : Sys τ ι) (o : ι) : SameWaits s (s.enterObject o) :=
  ⟨rfl, rfl, rfl, rfl, rfl, rfl⟩

theorem sameWaits_recurse (s : Sys τ ι) (o : ι) : SameWaits s (s.recurse o) := by
  rw [Sys.recurse]
  split <;> exact ⟨rfl, rfl, rfl, rfl, rfl, rfl⟩

theorem sameWaits_enterAny {n : ℕ} (h : s.pc s.cur = none) (hs : s.enterAny n objs = some s') :
    SameWaits s s' := by
  induction objs generalizing n with
  | nil => simp [Sys.enterAny] at hs
  | cons o objs ih =>
    rw [Sys.enterAny] at hs
    split at hs
    · obtain rfl := Option.some.inj hs
      have henter := sameWaits_enterObject s o
      refine henter.trans (sameWaits_finish ?_)
      rw [henter.pc, h]
    split at hs
    · obtain rfl := Option.some.inj hs
      have hrec := sameWaits_recurse s o
      refine hrec.trans (sameWaits_finish ?_)
      rw [hrec.pc, h]
    · exact ih hs

theorem sameWaits_enterAll {rc : ℤ} : SameWaits s (s.enterAll rc objs).1 := by
  induction objs generalizing s rc with
  | nil => exact SameWaits.refl s
  | cons o objs ih =>
    rw [Sys.enterAll]
    split
    · exact (sameWaits_enterObject s o).trans ih
    split
    · exact (sameWaits_recurse s o).trans ih
    · exact ih

omit [DecidableEq τ] in
theorem setObj_self (s : Sys τ ι) (o : ι) : s.setObj o (s.obj o) = s := by
  rw [Sys.setObj, update_eq_self]

/-! Calls that block. -/

theorem Sound.free (t : τ) (h : Sound s q late) (hwait : s.threads.state t ≠ .waiting)
    (hready : s.threads.state t ≠ .ready) : s.pc t = none ∧ s.waitlist t = [] := by
  have hpc : s.pc t = none := by
    rw [Option.eq_none_iff_forall_ne_some]
    intro w hw
    rcases h.pending t w hw with hst | hst
    · exact hwait hst
    · exact hready hst
  refine ⟨hpc, ?_⟩
  by_contra hne
  obtain ⟨w, hw⟩ := h.blocked t hne
  simp [hw.pc] at hpc

theorem Sound.idle (h : Sound s q late) (hrun : s.threads.state t = .running) :
    s.pc t = none ∧ s.waitlist t = [] ∧ s.threads.alertable t = false := by
  obtain ⟨hpc, hnil⟩ := h.free t (by simp [hrun]) (by simp [hrun])
  refine ⟨hpc, hnil, ?_⟩
  by_contra halert
  obtain ⟨w, hw, -⟩ := h.alert t (by simpa using halert)
  simp [hw] at hpc

theorem setupWait_eq (s : Sys τ ι) (ty : WaitType) (objs : List ι) (timed : Bool) :
    s.setupWait ty objs timed =
      { s with
        links := (s.setupWait ty objs timed).links
        waiters := (s.setupWait ty objs timed).waiters
        expired := (s.setupWait ty objs timed).expired
        armed := (s.setupWait ty objs timed).armed
        waitlist := update s.waitlist s.cur (chain ty objs timed s.cur) } := by
  rw [Sys.setupWait]
  rw [link_eq]
  cases timed <;> rfl

omit [DecidableEq ι] in
theorem leave_eq (s : Sys τ ι) (t : τ) (timed : Bool) : ∃ armed hist, s.leave t timed =
    { s with armed := armed, pc := update s.pc t none, hist := hist } := by
  cases timed
  · exact ⟨_, _, rfl⟩
  · exact ⟨_, _, rfl⟩

theorem abandon_eq (s : Sys τ ι) (t : τ) : ∃ waitkey, s.abandon t =
    { s with
      links := (s.cancelWait t).links
      waiters := (s.cancelWait t).waiters
      waitlist := update s.waitlist t []
      waitkey := waitkey } := by
  rw [Sys.abandon, cancelWait_eq]
  exact ⟨_, rfl⟩

theorem Linked.abandon (h : Linked s q) (timed : Bool) :
    Linked ((s.abandon t).leave t timed) (q.without t) := by
  obtain ⟨armed, hist, hleave⟩ := leave_eq (s.abandon t) t timed
  rw [hleave]
  exact (h.cancelWait t).congr rfl rfl rfl

theorem Sound.startWait (h : Sound s q late) (hrun : s.threads.state s.cur = .running)
    (hlen : objs.length ≤ maxWaitObjects) (hnodup : objs.Nodup) :
    ∃ q', Sound (s.startWait ty objs timeout alertable) q' late := by
  obtain ⟨-, hidle, halert⟩ := h.idle hrun
  have hl := h.toLinked.setupWait ty (decide (timeout ≠ infinite)) hlen hidle
  rw [Sys.startWait]
  set timed := decide (timeout ≠ infinite)
  have hset := setupWait_eq s ty objs timed
  split
  · refine ⟨_, h.alter s.cur (hl.abandon timed) (fun u hu => ?_) ?_ ?_ ?_ ?_ ?_⟩
    all_goals
      obtain ⟨waitkey, habandon⟩ := abandon_eq (s.setupWait ty objs timed) s.cur
      obtain ⟨armed, hist, hleave⟩ := leave_eq ((s.setupWait ty objs timed).abandon s.cur) s.cur timed
      rw [hleave, habandon, hset]
    · exact ⟨by simp [hu], by simp [hu], rfl, rfl, rfl, rfl⟩
    · simp
    · simp
    · simp [halert]
    · exact h.counts s.cur
    · exact h.calm
  · refine ⟨_, h.alter s.cur (hl.congr rfl rfl rfl) (fun u hu => ?_) ?_ ?_ ?_ ?_ ?_⟩
    all_goals rw [hset]
    · refine ⟨by simp [hu], by simp [hu], by simp [Threads.enterWait, hu], ?_, ?_, rfl⟩
      · cases alertable <;> simp [Threads.enterWait, hu]
      · cases alertable <;> simp [Threads.enterWait, hu]
    · exact fun _ => ⟨⟨objs, ty, alertable, timed⟩, by simp, by simp, hnodup,
        .inl (by simp [Threads.enterWait])⟩
    · exact fun _ _ => .inl (by simp [Threads.enterWait])
    · intro hx
      refine ⟨⟨objs, ty, alertable, timed⟩, by simp, ?_⟩
      cases alertable
      · exact absurd hx (by simp [Threads.enterWait, halert])
      · rfl
    · exact h.counts s.cur
    · exact h.calm

theorem Sound.waitForOneObject {o : ι} (h : Sound s q late)
    (hrun : s.threads.state s.cur = .running) :
    ∃ q', Sound (s.waitForOneObject o timeout alertable) q' late := by
  have h₁ : Sound s.beginWait q late := h.congr ⟨rfl, rfl, rfl, rfl, rfl, rfl⟩
  obtain ⟨hpc, -, -⟩ := h₁.idle hrun
  rw [Sys.waitForOneObject]
  split
  · have henter := sameWaits_enterObject s.beginWait o
    exact ⟨q, h₁.congr (henter.trans (sameWaits_finish (by exact hpc)))⟩
  split
  · have hrec := sameWaits_recurse s.beginWait o
    exact ⟨q, h₁.congr (hrec.trans (sameWaits_finish (by rw [hrec.pc]; exact hpc)))⟩
  split
  · exact ⟨q, h₁.congr (sameWaits_finish hpc)⟩
  · exact h₁.startWait hrun (by decide : 1 ≤ maxWaitObjects) (List.nodup_singleton o)

theorem Sound.waitForAnyObject (h : Sound s q late) (hrun : s.threads.state s.cur = .running)
    (hnodup : objs.Nodup) (hs : s.waitForAnyObject objs timeout alertable = some s') :
    ∃ q', Sound s' q' late := by
  have h₁ : Sound s.beginWait q late := h.congr ⟨rfl, rfl, rfl, rfl, rfl, rfl⟩
  obtain ⟨hpc, -, -⟩ := h₁.idle hrun
  have hfinish : ∀ rc, Sound (s.beginWait.finish s.cur rc) q late :=
    fun rc => h₁.congr (sameWaits_finish hpc)
  rw [Sys.waitForAnyObject] at hs
  split at hs
  · split at hs
    · obtain rfl := Option.some.inj hs
      exact ⟨q, hfinish _⟩
    · simp at hs
  split at hs
  · obtain rfl := Option.some.inj hs
    exact ⟨q, hfinish _⟩
  next hlen =>
    split at hs
    · next s₁ hany =>
      obtain rfl := Option.some.inj hs
      exact ⟨q, h₁.congr (sameWaits_enterAny hpc hany)⟩
    · split at hs
      · obtain rfl := Option.some.inj hs
        exact ⟨q, hfinish _⟩
      · obtain rfl := Option.some.inj hs
        exact h₁.startWait hrun (not_lt.mp hlen) hnodup

theorem Sound.waitForAllObjects (h : Sound s q late) (hrun : s.threads.state s.cur = .running)
    (hnodup : objs.Nodup) (hs : s.waitForAllObjects objs timeout alertable = some s') :
    ∃ q', Sound s' q' late := by
  have h₁ : Sound s.beginWait q late := h.congr ⟨rfl, rfl, rfl, rfl, rfl, rfl⟩
  obtain ⟨hpc, -, -⟩ := h₁.idle hrun
  have hfinish : ∀ rc, Sound (s.beginWait.finish s.cur rc) q late :=
    fun rc => h₁.congr (sameWaits_finish hpc)
  rw [Sys.waitForAllObjects] at hs
  split at hs
  · split at hs
    · obtain rfl := Option.some.inj hs
      exact ⟨q, hfinish _⟩
    · simp at hs
  split at hs
  · obtain rfl := Option.some.inj hs
    exact ⟨q, hfinish _⟩
  next hlen =>
    split at hs
    · obtain rfl := Option.some.inj hs
      have hall : SameWaits s.beginWait (s.beginWait.enterAll 0 objs).1 := sameWaits_enterAll
      refine ⟨q, h₁.congr (hall.trans (sameWaits_finish ?_))⟩
      rw [hall.pc]
      exact hpc
    split at hs
    · obtain rfl := Option.some.inj hs
      exact ⟨q, hfinish _⟩
    · obtain rfl := Option.some.inj hs
      exact h₁.startWait hrun (not_lt.mp hlen) hnodup

/-! Threads that start, stop and go on. -/

theorem Sound.wasInterrupted (h : Sound s q late) (hready : s.threads.state t = .ready)
    (ht : s.waitlist t ≠ []) :
    ∃ w, s.pc t = some w ∧ w.alertable = true ∧ s.threads.interrupted t = true := by
  obtain ⟨w, hw⟩ := h.blocked t ht
  rcases hw.state with hwait | ⟨-, -, hint, halert⟩
  · simp [hready] at hwait
  · exact ⟨w, hw.pc, halert, hint⟩

theorem Sound.dispatch (h : Sound s q late) (hready : s.threads.state t = .ready) :
    ∃ q', Sound (s.dispatch t) q' late := by
  -- the threads after the switch, which the rest of the wait call may change
  have hother : ∀ u, u ≠ t → (s.threads.switchTo t).state u = s.threads.state u :=
    fun u hu => update_of_ne hu _ _
  rw [Sys.dispatch]
  split
  · next w hpc =>
    rw [Sys.endWait]
    split
    · next halert =>
      set s₁ : Sys τ ι := { s with cur := t, threads := (s.threads.switchTo t).leaveAlertableWait t }
      have hl₁ : Linked s₁ q := h.toLinked.congr rfl rfl rfl
      have hflags : ∀ u, u ≠ t → SameThread s s₁ u := fun u hu =>
        ⟨rfl, rfl, hother u hu, update_of_ne hu _ _, update_of_ne hu _ _, rfl⟩
      split
      · obtain ⟨armed, hist, hleave⟩ := leave_eq (s₁.abandon t) t w.timed
        obtain ⟨waitkey, habandon⟩ := abandon_eq s₁ t
        refine ⟨_, h.alter t (hl₁.abandon w.timed) (fun u hu => ?_) ?_ ?_ ?_ ?_ ?_⟩
        all_goals rw [hleave, habandon]
        · obtain ⟨h₁, h₂, h₃, h₄, h₅, h₆⟩ := hflags u hu
          exact ⟨by simp [hu, h₁], by simp [hu, h₂], h₃, h₄, h₅, h₆⟩
        · simp
        · simp
        · simp [s₁, Threads.leaveAlertableWait]
        · exact h.counts t
        · exact h.calm
      · next hint =>
        obtain ⟨armed, hist, hleave⟩ := leave_eq s₁ t w.timed
        refine ⟨q, h.alter t ?_ (fun u hu => ?_) ?_ ?_ ?_ ?_ ?_⟩
        all_goals rw [hleave]
        · exact hl₁.congr rfl rfl rfl
        · obtain ⟨h₁, h₂, h₃, h₄, h₅, h₆⟩ := hflags u hu
          exact ⟨h₁, by simp [hu, h₂], h₃, h₄, h₅, h₆⟩
        · intro ht
          obtain ⟨w', -, -, hint'⟩ := h.wasInterrupted hready ht
          exact absurd hint' hint
        · simp
        · simp [s₁, Threads.leaveAlertableWait]
        · exact h.counts t
        · exact h.calm
    · next halert =>
      obtain ⟨armed, hist, hleave⟩ :=
        leave_eq { s with cur := t, threads := s.threads.switchTo t } t w.timed
      refine ⟨q, h.alter t ?_ (fun u hu => ?_) ?_ ?_ ?_ ?_ ?_⟩
      all_goals rw [hleave]
      · exact h.toLinked.congr rfl rfl rfl
      · exact ⟨rfl, by simp [hu], hother u hu, rfl, rfl, rfl⟩
      · intro ht
        obtain ⟨w', hpc', halert', -⟩ := h.wasInterrupted hready ht
        obtain rfl : w = w' := Option.some.inj (hpc.symm.trans hpc')
        exact absurd halert' halert
      · simp
      · intro hx
        obtain ⟨w', hpc', halert'⟩ := h.alert t hx
        obtain rfl : w = w' := Option.some.inj (hpc.symm.trans hpc')
        exact absurd halert' halert
      · exact h.counts t
      · exact h.calm
  · next hpc =>
    refine ⟨q, h.alter t (h.toLinked.congr rfl rfl rfl) (fun u hu => ?_) ?_ ?_ ?_ ?_ ?_⟩
    · exact ⟨rfl, rfl, hother u hu, rfl, rfl, rfl⟩
    · intro ht
      obtain ⟨w', hpc', -⟩ := h.wasInterrupted hready ht
      simp [hpc] at hpc'
    · intro w hw
      simp [hpc] at hw
    · intro hx
      obtain ⟨w', hpc', -⟩ := h.alert t hx
      simp [hpc] at hpc'
    · exact h.counts t
    · exact h.calm

theorem Sound.setThreads {threads : Threads τ} (h : Sound s q late) (hpc : s.pc t = none)
    (hnil : s.waitlist t = []) (hstate : ∀ u, u ≠ t → threads.state u = s.threads.state u)
    (hflags : SameFlags s.threads threads) : Sound { s with threads := threads } q late := by
  refine h.alter t (h.toLinked.congr rfl rfl rfl) (fun u hu => ?_) ?_ ?_ ?_ ?_ ?_
  · exact ⟨rfl, rfl, hstate u hu, congrFun hflags.alertable u, congrFun hflags.interrupted u,
      congrFun hflags.suspendCount u⟩
  · exact fun ht => absurd hnil ht
  · intro w hw
    simp [hpc] at hw
  · intro hx
    exact h.alert t (hflags.alertable ▸ hx)
  · rw [hflags.suspendCount]
    exact h.counts t
  · rw [hflags.panicked]
    exact h.calm

theorem Sound.start (h : Sound s q late) (hinit : s.threads.state t = .initialized) :
    Sound { s with threads := s.threads.markThreadReady s.cur t 0 0 } q late := by
  obtain ⟨hpc, hnil⟩ := h.free t (by simp [hinit]) (by simp [hinit])
  exact h.setThreads hpc hnil (fun u hu => state_markThreadReady hu)
    (sameFlags_markThreadReady (by simp [hinit]))

theorem Sound.preempt (h : Sound s q late) (hrun : s.threads.state s.cur = .running) :
    Sound { s with threads := s.threads.preemptThread s.cur } q late := by
  obtain ⟨hpc, hnil, -⟩ := h.idle hrun
  exact h.setThreads hpc hnil (fun u hu => state_preemptThread hu) sameFlags_preemptThread

theorem Sound.interrupt (h : Sound s q late) (hlate : late) :
    Sound { s with threads := s.threads.interruptThread s.cur t } q late := by
  rw [Threads.interruptThread]
  split
  · exact h
  split
  · exact h
  next hwait halert =>
    have hwait : s.threads.state t = .waiting := not_not.mp hwait
    obtain ⟨w, hpc, hw⟩ := h.alert t (by simpa using halert)
    set threads : Threads τ :=
      { s.threads with interrupted := update s.threads.interrupted t true } with hthreads
    have hstate : threads.state t = .waiting := hwait
    have hflags : SameFlags threads (threads.markThreadReady s.cur t 1 1) :=
      sameFlags_markThreadReady (by simp [hstate])
    have hready : (threads.markThreadReady s.cur t 1 1).state t = .ready := by
      apply markThreadReady_ready
      have hcount : threads.suspendCount t = 0 := h.counts t
      simp [hcount]
    have hint : (threads.markThreadReady s.cur t 1 1).interrupted t = true := by
      rw [hflags.interrupted]
      exact update_self _ _ _
    refine h.alter t (h.toLinked.congr rfl rfl rfl) (fun u hu => ?_) (fun ht => ?_) ?_ ?_ ?_ ?_
    · refine ⟨rfl, rfl, state_markThreadReady hu, congrFun hflags.alertable u, ?_,
        congrFun hflags.suspendCount u⟩
      exact (congrFun hflags.interrupted u).trans (update_of_ne hu _ _)
    · obtain ⟨w', hw'⟩ := h.blocked t ht
      obtain rfl : w = w' := Option.some.inj (hpc.symm.trans hw'.pc)
      exact ⟨w, hpc, hw'.chain, hw'.nodup, .inr ⟨hlate, hready, hint, hw⟩⟩
    · exact fun _ _ => .inr hready
    · exact fun _ => ⟨w, hpc, hw⟩
    · exact (congrFun hflags.suspendCount t).trans (h.counts t)
    · exact hflags.panicked.trans h.calm

variable [Fintype τ] {l : Label τ ι} {o : ObjId τ ι} {grant : Sys τ ι → τ → Sys τ ι × Bool}

/-! Calls that release threads. -/

/-- The state in which the release loop of a step starts, the object whose wait list it walks and
what it does for a thread. -/
def Sys.releases (s : Sys τ ι) :
    Label τ ι → Option (Sys τ ι × ObjId τ ι × (Sys τ ι → τ → Sys τ ι × Bool))
  | .call (.setEvent e) =>
    match (s.obj e).body with
    | .event manualReset =>
      some (s.setObj e ⟨true, .event manualReset⟩, .obj e, Sys.grantEvent e manualReset)
    | _ => none
  | .call (.releaseSem o n) =>
    match (s.obj o).body with
    | .semaphore count =>
      if 0 < count + n then
        some ((s.giveBack o n.toNat).setObj o ⟨true, .semaphore (count + n)⟩, .obj o,
          Sys.grantSem o)
      else none
    | _ => none
  | .call (.setSem o n) =>
    match (s.obj o).body with
    | .semaphore _ =>
      if 0 < n then some (s.setObj o ⟨true, .semaphore n⟩, .obj o, Sys.grantSem o) else none
    | _ => none
  | .call (.releaseMutex m) =>
    match (s.obj m).body with
    | .mutex owner recursion =>
      if owner = some s.cur ∧ ¬ 0 < wrap (recursion - 1) then
        some ((s.giveBack m 1).setObj m ⟨true, .mutex none (wrap (recursion - 1))⟩, .obj m,
          Sys.grantMutex m)
      else none
    | _ => none
  | .expire t =>
    if s.armed t then
      some ({ s with
        armed := update s.armed t false
        expired := update s.expired t true }, .timer t, Sys.grantWaiter 0)
    else none
  | _ => none

theorem step_call {op : Op ι} (h : s.step (.call op) = some s') : s.call op = some s' := by
  rw [Sys.step] at h
  split at h
  · simp at h
  · exact h

theorem step_preempt (h : s.step .preempt = some s') :
    s.threads.state s.cur = .running ∧
      s' = { s with threads := s.threads.preemptThread s.cur } := by
  rw [Sys.step] at h
  split at h
  · simp at h
  split at h
  · next hactive => exact ⟨of_decide_eq_true hactive, (Option.some.inj h).symm⟩
  · simp at h

theorem step_dispatch (h : s.step (.dispatch t) = some s') :
    s.threads.state t = .ready ∧ s' = s.dispatch t := by
  rw [Sys.step] at h
  split at h
  · simp at h
  split at h
  · next hready => exact ⟨hready.2, (Option.some.inj h).symm⟩
  · simp at h

theorem step_start (h : s.step (.start t) = some s') : s.threads.state t = .initialized ∧
    s' = { s with threads := s.threads.markThreadReady s.cur t 0 0 } := by
  rw [Sys.step] at h
  split at h
  · simp at h
  split at h
  · next hinit => exact ⟨hinit, (Option.some.inj h).symm⟩
  · simp at h

theorem step_interrupt (h : s.step (.interrupt t) = some s') :
    s' = { s with threads := s.threads.interruptThread s.cur t } := by
  rw [Sys.step] at h
  split at h
  · simp at h
  · exact (Option.some.inj h).symm

theorem step_signal {v : Bool} (h : s.step (.signal t v) = some s') :
    s' = { s with signals := update s.signals t v } := by
  rw [Sys.step] at h
  split at h
  · simp at h
  · exact (Option.some.inj h).symm

theorem releases_spec {s₁ : Sys τ ι} (h : s.releases l = some (s₁, o, grant)) :
    SameWaits s s₁ ∧ Grants grant ∧ ∀ s', s.step l = some s' → s' = s₁.releaseWith o grant := by
  cases l with
  | call op =>
    suffices SameWaits s s₁ ∧ Grants grant ∧
        ∀ s', s.call op = some s' → s' = s₁.releaseWith o grant from
      ⟨this.1, this.2.1, fun s' hs => this.2.2 s' (step_call hs)⟩
    cases op with
    | setEvent e =>
      rw [Sys.releases] at h
      split at h
      · next manualReset hbody =>
        obtain ⟨rfl, rfl, rfl⟩ := h
        refine ⟨⟨rfl, rfl, rfl, rfl, rfl, rfl⟩, grants_grantEvent e manualReset, fun s' hs => ?_⟩
        rw [Sys.call, Sys.setEvent, hbody] at hs
        exact (Option.some.inj hs).symm
      · simp at h
    | releaseSem o n =>
      rw [Sys.releases] at h
      split at h
      · next count hbody =>
        split at h
        · next hpos =>
          obtain ⟨rfl, rfl, rfl⟩ := h
          refine ⟨⟨rfl, rfl, rfl, rfl, rfl, rfl⟩, grants_grantSem o, fun s' hs => ?_⟩
          rw [Sys.call, Sys.releaseSem, hbody] at hs
          dsimp only at hs
          rw [Sys.raiseSem, if_pos hpos] at hs
          exact (Option.some.inj hs).symm
        · simp at h
      · simp at h
    | setSem o n =>
      rw [Sys.releases] at h
      split at h
      · next count hbody =>
        split at h
        · next hpos =>
          obtain ⟨rfl, rfl, rfl⟩ := h
          refine ⟨⟨rfl, rfl, rfl, rfl, rfl, rfl⟩, grants_grantSem o, fun s' hs => ?_⟩
          rw [Sys.call, Sys.setSem, hbody] at hs
          rw [Sys.raiseSem, if_pos hpos] at hs
          exact (Option.some.inj hs).symm
        · simp at h
      · simp at h
    | releaseMutex m =>
      rw [Sys.releases] at h
      split at h
      · next owner recursion hbody =>
        split at h
        · next hown =>
          obtain ⟨rfl, rfl, rfl⟩ := h
          refine ⟨⟨rfl, rfl, rfl, rfl, rfl, rfl⟩, grants_grantMutex m, fun s' hs => ?_⟩
          rw [Sys.call, Sys.releaseMutex, hbody] at hs
          dsimp only at hs
          rw [if_neg (not_not.mpr hown.1), if_neg hown.2] at hs
          split at hs
          · exact (Option.some.inj hs).symm
          · simp at hs
        · simp at h
      · simp at h
    | waitOne | waitAny | waitAll | resetEvent => simp [Sys.releases] at h
  | expire t =>
    rw [Sys.releases] at h
    split at h
    · next harmed =>
      obtain ⟨rfl, rfl, rfl⟩ := h
      refine ⟨⟨rfl, rfl, rfl, rfl, rfl, rfl⟩, grants_grantWaiter 0, fun s' hs => ?_⟩
      rw [Sys.step] at hs
      split at hs
      · simp at hs
      · exact (Option.some.inj hs).symm
    · simp at h
  | preempt | dispatch | start | interrupt | signal => simp [Sys.releases] at h

theorem call_of_releases {op : Op ι} (h : s.releases (.call op) = none) (hs : s.call op = some s')
    (hop : match op with | .waitOne _ _ _ | .waitAny _ _ _ | .waitAll _ _ _ => False | _ => True) :
    ∃ o x s₁, (s₁ = s ∨ ∃ n, s₁ = s.giveBack o n) ∧ s' = s₁.setObj o x ∧
      ((s.obj o).signaled = false → x.signaled = false) := by
  cases op with
  | waitOne | waitAny | waitAll => exact hop.elim
  | setEvent e =>
    rw [Sys.releases] at h
    rw [Sys.call, Sys.setEvent] at hs
    split at hs
    · next hbody => simp [hbody] at h
    · simp at hs
  | resetEvent e =>
    rw [Sys.call, Sys.resetEvent] at hs
    split at hs
    · obtain rfl := Option.some.inj hs
      exact ⟨e, _, s, .inl rfl, rfl, fun _ => rfl⟩
    · simp at hs
  | releaseSem o n =>
    rw [Sys.releases] at h
    rw [Sys.call, Sys.releaseSem] at hs
    split at hs
    · next count hbody =>
      rw [hbody] at h
      obtain rfl := Option.some.inj hs
      rw [Sys.raiseSem]
      split
      · next hpos => simp [hpos] at h
      · exact ⟨o, _, _, .inr ⟨n.toNat, rfl⟩, rfl, id⟩
    · simp at hs
  | setSem o n =>
    rw [Sys.releases] at h
    rw [Sys.call, Sys.setSem] at hs
    split at hs
    · next count hbody =>
      rw [hbody] at h
      obtain rfl := Option.some.inj hs
      rw [Sys.raiseSem]
      split
      · next hpos => simp [hpos] at h
      · exact ⟨o, _, s, .inl rfl, rfl, id⟩
    · simp at hs
  | releaseMutex m =>
    rw [Sys.releases] at h
    rw [Sys.call, Sys.releaseMutex] at hs
    split at hs
    · split at hs
      · next owner recursion hbody =>
        rw [hbody] at h
        split at hs
        · obtain rfl := Option.some.inj hs
          exact ⟨m, s.obj m, s, .inl rfl, (setObj_self s m).symm, id⟩
        · next hown =>
          split at hs
          · obtain rfl := Option.some.inj hs
            exact ⟨m, _, _, .inr ⟨1, rfl⟩, rfl, id⟩
          · next hrec => simp [not_not.mp hown, hrec] at h
      · simp at hs
    · simp at hs

theorem Sound.step (h : Sound s q late) (hd : l.Distinct) (hquiet : late ∨ l.Quiet)
    (hs : s.step l = some s') : ∃ q', Sound s' q' late := by
  cases hrel : s.releases l with
  | some r =>
    obtain ⟨hsame, hg, hstep⟩ := releases_spec hrel
    rw [hstep s' hs]
    exact (h.congr hsame).releaseWith hg
  | none =>
    cases l with
    | call op =>
      have hcall := step_call hs
      cases op with
      | waitOne o timeout alertable =>
        rw [Sys.call] at hcall
        split at hcall
        · next hactive =>
          obtain rfl := Option.some.inj hcall
          exact h.waitForOneObject (of_decide_eq_true hactive)
        · simp at hcall
      | waitAny objs timeout alertable =>
        rw [Sys.call] at hcall
        split at hcall
        · next hactive => exact h.waitForAnyObject (of_decide_eq_true hactive) hd hcall
        · simp at hcall
      | waitAll objs timeout alertable =>
        rw [Sys.call] at hcall
        split at hcall
        · next hactive => exact h.waitForAllObjects (of_decide_eq_true hactive) hd hcall
        · simp at hcall
      | setEvent | resetEvent | releaseSem | setSem | releaseMutex =>
        obtain ⟨o, x, s₁, rfl | ⟨n, rfl⟩, rfl, -⟩ := call_of_releases hrel hcall trivial
        · exact ⟨q, h.congr ⟨rfl, rfl, rfl, rfl, rfl, rfl⟩⟩
        · exact ⟨q, h.congr ⟨rfl, rfl, rfl, rfl, rfl, rfl⟩⟩
    | preempt =>
      obtain ⟨hactive, rfl⟩ := step_preempt hs
      exact ⟨q, h.preempt hactive⟩
    | dispatch t =>
      obtain ⟨hready, rfl⟩ := step_dispatch hs
      exact h.dispatch hready
    | start t =>
      obtain ⟨hinit, rfl⟩ := step_start hs
      exact ⟨q, h.start hinit⟩
    | expire t =>
      rw [Sys.step] at hs
      rw [Sys.releases] at hrel
      split at hs
      · simp at hs
      · split at hs
        · next harmed => simp [harmed] at hrel
        · simp at hs
    | interrupt t =>
      obtain rfl := step_interrupt hs
      exact ⟨q, h.interrupt (hquiet.resolve_right id)⟩
    | signal t v =>
      obtain rfl := step_signal hs
      exact ⟨q, h.congr ⟨rfl, rfl, rfl, rfl, rfl, rfl⟩⟩

omit [Fintype τ] in
theorem sound_initSys {priority : τ → ℤ} {obj : ι → Obj τ} :
    Sound (initSys t priority obj) (fun _ => []) late := by
  refine ⟨⟨⟨fun o => isList_nil _, by simp⟩, fun _ _ => rfl, fun o u n => ?_, by simp [initSys],
    by simp [initSys]⟩, by simp [initSys], by simp [initSys], by simp [initSys], fun u => rfl, rfl⟩
  simp [initSys, blockAt_nil]

end SimpleKernel.Object
