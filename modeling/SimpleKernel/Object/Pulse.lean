import SimpleKernel.Object.Wakeups

/-! `pulse_event`. Its loop goes on to the next wait block only when it has released a thread: at a
thread that is not ready to run it stays for ever. -/
namespace SimpleKernel.Object
open LinkedList Sched Transition

variable {τ ι : Type} [DecidableEq τ] [DecidableEq ι] {s s' : Sys τ ι} {q : Queues τ ι} {t u : τ}
  {e : ι} {b c : Wb τ} {l : List (Wb τ)} {rel : List τ} {manualReset : Bool} {n : ℕ}

namespace Sys

/-- At most `n` rounds of the loop of `pulse_event`, with the threads for which `release_thread` is
called. -/
def pulseLoop (manualReset : Bool) : Option (Wb τ) → ℕ → Sys τ ι → Option (Sys τ ι × List τ)
  | none, _, s => some (s, [])
  | some _, 0, _ => none
  | some wb, n + 1, s =>
    let next := s.links.next wb
    let s' := s.scanned wb.1
    if s.threadReadyToRun wb.1 then
      let s' := s'.releaseThread wb.1
      if manualReset then (pulseLoop manualReset next n s').map fun r => (r.1, wb.1 :: r.2)
      else some (s', [wb.1])
    -- `wb = wb_next` stands in the branch above
    else pulseLoop manualReset (some wb) n s'

def setSignaled (s : Sys τ ι) (e : ι) (v : Bool) : Sys τ ι :=
  s.setObj e { s.obj e with signaled := v }

/-- `pulse_event` with at most `n` rounds of its loop. -/
def pulseEvent (s : Sys τ ι) (e : ι) (n : ℕ) : Option (Sys τ ι × List τ) :=
  match (s.obj e).body with
  | .event manualReset =>
    (pulseLoop manualReset (s.waiters (.obj e)).head n (s.setSignaled e true)).map fun r =>
      (r.1.setSignaled e false, r.2)
  | _ => none

/-- The threads on the wait list of `e` whose wait is satisfied while `e` is signaled, in order. -/
def satisfied (s : Sys τ ι) (q : Queues τ ι) (e : ι) : List τ :=
  ((q (.obj e)).map Prod.fst).filter (s.setSignaled e true).threadReadyToRun

end Sys

/-! What the release of a thread leaves alone. -/

theorem obj_releaseThread : (s.releaseThread t).obj = s.obj := by
  rw [Sys.releaseThread, cancelWait_eq]

theorem signaled_releaseThread (o : ObjId τ ι) : (s.releaseThread t).signaled o = s.signaled o := by
  rw [Sys.releaseThread, cancelWait_eq]
  cases o <;> rfl

omit [DecidableEq τ] [DecidableEq ι] in
theorem ready_congr (hw : s'.waitlist u = s.waitlist u) (hs : ∀ o, s'.signaled o = s.signaled o) :
    s'.threadReadyToRun u = s.threadReadyToRun u := by
  simp only [Sys.threadReadyToRun, hw, hs]

theorem ready_releaseThread (hu : u ≠ t) :
    ((s.scanned t).releaseThread t).threadReadyToRun u = s.threadReadyToRun u := by
  apply ready_congr
  · exact Function.update_of_ne hu _ _
  · intro o
    rw [signaled_releaseThread]
    cases o <;> rfl

theorem ready_released : ((s.scanned t).releaseThread t).threadReadyToRun t = true := by
  have hnil : ((s.scanned t).releaseThread t).waitlist t = [] := Function.update_self _ _ _
  rw [Sys.threadReadyToRun, hnil]
  rfl

theorem suspendCount_markThreadReady {th : Threads τ} {cur : τ} {charge boost : ℤ} :
    (th.markThreadReady cur t charge boost).suspendCount = th.suspendCount := by
  rw [Threads.markThreadReady]
  split
  · rfl
  split
  · rfl
  · exact sameFlags_insertReady.suspendCount

/-- The threads of `rel` are released and nothing else is done. -/
structure Woken (s s' : Sys τ ι) (rel : List τ) : Prop where
  obj : s'.obj = s.obj
  suspendCount : s'.threads.suspendCount = s.threads.suspendCount
  released : ∀ t ∈ rel, s'.waitlist t = [] ∧
    s'.threads.state t = if 0 < s.threads.suspendCount t then .suspended else .ready
  others : ∀ t, t ∉ rel → s'.waitlist t = s.waitlist t ∧ s'.threads.state t = s.threads.state t

omit [DecidableEq τ] [DecidableEq ι] in
theorem Woken.refl (s : Sys τ ι) : Woken s s [] :=
  ⟨rfl, rfl, by simp, fun _ _ => ⟨rfl, rfl⟩⟩

theorem woken_releaseThread : Woken s (s.releaseThread t) [t] := by
  constructor
  · exact obj_releaseThread
  · exact suspendCount_markThreadReady
  · intro u hu
    obtain rfl := List.mem_singleton.mp hu
    refine ⟨Function.update_self _ _ _, ?_⟩
    split
    · next hsus => exact markThreadReady_suspended hsus
    · next hsus => exact markThreadReady_ready hsus
  · intro u hu
    rw [List.mem_singleton] at hu
    exact ⟨Function.update_of_ne hu _ _, state_markThreadReady hu⟩

omit [DecidableEq ι] in
theorem Woken.trans {s₁ : Sys τ ι} {rel' : List τ} (h : Woken s s₁ rel) (h' : Woken s₁ s' rel') :
    Woken s s' (rel ++ rel') := by
  refine ⟨h'.obj.trans h.obj, h'.suspendCount.trans h.suspendCount, fun u hu => ?_, fun u hu => ?_⟩
  · by_cases hlate : u ∈ rel'
    · rw [← h.suspendCount]
      exact h'.released u hlate
    · have hearly : u ∈ rel := (List.mem_append.mp hu).resolve_right hlate
      rw [(h'.others u hlate).1, (h'.others u hlate).2]
      exact h.released u hearly
  · rw [List.mem_append, not_or] at hu
    rw [(h'.others u hu.2).1, (h'.others u hu.2).2]
    exact h.others u hu.1

theorem pulseLoop_woken {wb : Option (Wb τ)} (h : Sys.pulseLoop manualReset wb n s = some (s', rel)) :
    Woken s s' rel := by
  induction n generalizing s wb rel with
  | zero =>
    cases wb with
    | none =>
      obtain ⟨rfl, rfl⟩ := Prod.mk.inj (Option.some.inj h)
      exact Woken.refl s
    | some b => simp [Sys.pulseLoop] at h
  | succ n ih =>
    cases wb with
    | none =>
      obtain ⟨rfl, rfl⟩ := Prod.mk.inj (Option.some.inj h)
      exact Woken.refl s
    | some b =>
      have hscan : Woken s (s.scanned b.1) [] := ⟨rfl, rfl, by simp, fun _ _ => ⟨rfl, rfl⟩⟩
      rw [Sys.pulseLoop] at h
      split at h
      · split at h
        · obtain ⟨⟨s₁, rel₁⟩, hrest, heq⟩ := Option.map_eq_some_iff.mp h
          obtain ⟨rfl, rfl⟩ := Prod.mk.inj heq
          exact (hscan.trans woken_releaseThread).trans (ih hrest)
        · obtain ⟨rfl, rfl⟩ := Prod.mk.inj (Option.some.inj h)
          exact hscan.trans woken_releaseThread
      · exact hscan.trans (ih h)

theorem pulseLoop_stuck (h : s.threadReadyToRun b.1 = false) :
    Sys.pulseLoop manualReset (some b) n s = none := by
  induction n generalizing s with
  | zero => rfl
  | succ n ih =>
    have hscan : (s.scanned b.1).threadReadyToRun b.1 = s.threadReadyToRun b.1 :=
      ready_congr rfl fun o => by cases o <;> rfl
    rw [Sys.pulseLoop, if_neg (by simp [h])]
    exact ih (hscan.trans h)

/-! The walk along the wait list. -/

/-- The blocks of the other threads. -/
def others (t : τ) (l : List (Wb τ)) : List (Wb τ) := l.filter fun c => c.1 ≠ t

theorem mem_others : b ∈ others t l ↔ b ∈ l ∧ b.1 ≠ t := by
  simp [others]

theorem head_others (h : ∀ c ∈ l.head?, c.1 ≠ t) : (others t l).head? = l.head? := by
  cases l with
  | nil => rfl
  | cons c l =>
    have hne : c.1 ≠ t := h c rfl
    simp [others, hne]

/-- When the walk comes to the first block of a thread, the block behind it is not of the same
thread; the blocks of the threads before have been taken off by then. -/
def Apart : List (Wb τ) → Prop
  | [] => True
  | b :: l => (∀ c ∈ l.head?, c.1 ≠ b.1) ∧ Apart (others b.1 l)
termination_by l => l.length
decreasing_by
  have hle : (others b.1 l).length ≤ l.length := List.length_filter_le _ l
  rw [List.length_cons]
  omega

/-- Released threads leave the wait lists. -/
def Queues.less (q : Queues τ ι) (rel : List τ) : Queues τ ι := fun o =>
  (q o).filter fun b => b.1 ∉ rel

omit [DecidableEq ι] in
theorem less_nil : q.less [] = q := by
  funext o
  simp [Queues.less]

omit [DecidableEq ι] in
theorem without_less : (q.without t).less rel = q.less (t :: rel) := by
  funext o
  simp only [Queues.less, Queues.without, List.filter_filter]
  apply List.filter_congr
  intro b _
  simp [Bool.and_comm]

theorem Linked.release (h : Linked s q) (hq : q (.obj e) = b :: l) :
    Linked ((s.scanned b.1).releaseThread b.1) (q.without b.1) ∧
      (q.without b.1) (.obj e) = others b.1 l ∧ s.links.next b = l.head? := by
  refine ⟨?_, ?_, h.family.next (show q (.obj e) = [] ++ b :: l from hq)⟩
  · have hscan : Linked (s.scanned b.1) q := h.congr rfl rfl rfl
    exact (hscan.cancelWait b.1).congr rfl rfl rfl
  · simp [Queues.without, others, hq]

/-- With a manual reset: when all threads are ready and no block is followed by one of the same
thread, the walk releases each thread once. -/
theorem pulseLoop_manual (h : Linked s q) (hq : q (.obj e) = l)
    (hready : ∀ b ∈ l, s.threadReadyToRun b.1 = true) (hapart : Apart l) :
    ∃ n s' rel, Sys.pulseLoop true l.head? n s = some (s', rel) ∧ rel.Nodup ∧
      (∀ t, t ∈ rel ↔ t ∈ l.map Prod.fst) ∧ Linked s' (q.less rel) := by
  induction l using Apart.induct generalizing s q with
  | case1 =>
    refine ⟨0, s, [], rfl, List.nodup_nil, by simp, ?_⟩
    rw [less_nil]
    exact h
  | case2 b l ih =>
    obtain ⟨hlinked, hrest, hnext⟩ := h.release hq
    rw [Apart] at hapart
    have hready' : ∀ c ∈ others b.1 l,
        ((s.scanned b.1).releaseThread b.1).threadReadyToRun c.1 = true := by
      intro c hc
      obtain ⟨hmem, hne⟩ := mem_others.mp hc
      rw [ready_releaseThread hne]
      exact hready c (List.mem_cons_of_mem _ hmem)
    obtain ⟨n, s', rel, hloop, hnodup, hmem, hlinked'⟩ := ih hlinked hrest hready' hapart.2
    have hfirst : b.1 ∉ rel := by
      simp [hmem, others]
    refine ⟨n + 1, s', b.1 :: rel, ?_, List.nodup_cons.mpr ⟨hfirst, hnodup⟩, fun t => ?_, ?_⟩
    · rw [List.head?_cons, Sys.pulseLoop]
      simp only [hready b List.mem_cons_self, hnext]
      rw [← head_others hapart.1, hloop]
      rfl
    · rw [List.mem_cons, hmem, List.map_cons, List.mem_cons]
      by_cases ht : t = b.1
      · simp [ht]
      · simp only [ht, false_or, List.mem_map, mem_others]
        constructor
        · rintro ⟨c, ⟨hc, -⟩, hct⟩
          exact ⟨c, hc, hct⟩
        · rintro ⟨c, hc, rfl⟩
          exact ⟨c, ⟨hc, ht⟩, rfl⟩
    · rw [← without_less]
      exact hlinked'

/-- With a manual reset: a walk that ends and releases no thread twice found all threads ready, and
no block followed by one of the same thread. -/
theorem pulseLoop_manual_conv (h : Linked s q) (hq : q (.obj e) = l)
    (hloop : Sys.pulseLoop true l.head? n s = some (s', rel)) (hnodup : rel.Nodup) :
    (∀ b ∈ l, s.threadReadyToRun b.1 = true) ∧ Apart l := by
  induction l using Apart.induct generalizing s q n rel with
  | case1 => exact ⟨by simp, by rw [Apart]; trivial⟩
  | case2 b l ih =>
    obtain ⟨hlinked, hrest, hnext⟩ := h.release hq
    rw [List.head?_cons] at hloop
    cases hb : s.threadReadyToRun b.1 with
    | false =>
      rw [pulseLoop_stuck hb] at hloop
      exact absurd hloop (by simp)
    | true =>
    cases n with
    | zero => simp [Sys.pulseLoop] at hloop
    | succ n =>
    simp only [Sys.pulseLoop, hb, hnext] at hloop
    obtain ⟨⟨s₁, rel₁⟩, hloop₁, heq⟩ := Option.map_eq_some_iff.mp hloop
    obtain ⟨rfl, rfl⟩ := Prod.mk.inj heq
    obtain ⟨hfirst, hnodup₁⟩ := List.nodup_cons.mp hnodup
    have hhead : ∀ c ∈ l.head?, c.1 ≠ b.1 := by
      -- its block would be found unlinked, and the thread released once more
      intro c hc hsame
      rw [hc] at hloop₁
      cases n with
      | zero => simp [Sys.pulseLoop] at hloop₁
      | succ n =>
        simp only [Sys.pulseLoop, hsame, ready_released] at hloop₁
        obtain ⟨r, -, heq⟩ := Option.map_eq_some_iff.mp hloop₁
        obtain ⟨-, rfl⟩ := Prod.mk.inj heq
        exact hfirst List.mem_cons_self
    rw [← head_others hhead] at hloop₁
    obtain ⟨hready, hapart⟩ := ih hlinked hrest hloop₁ hnodup₁
    refine ⟨fun c hc => ?_, ?_⟩
    · by_cases hcb : c.1 = b.1
      · rw [hcb]
        exact hb
      · have hcl : c ∈ l := (List.mem_cons.mp hc).resolve_left fun heq => hcb (by rw [heq])
        rw [← ready_releaseThread hcb]
        exact hready c (mem_others.mpr ⟨hcl, hcb⟩)
    · rw [Apart]
      exact ⟨hhead, hapart⟩

/-- What `pulse_event` is to do: the threads of `rel` are released, each once, all that are satisfied or the first
of them; the others wait as before, and the event is not signaled. -/
structure Pulsed (s : Sys τ ι) (q : Queues τ ι) (e : ι) (manualReset : Bool) (s' : Sys τ ι)
    (rel : List τ) : Prop where
  once : rel.Nodup
  right : if manualReset then ∀ t, t ∈ rel ↔ t ∈ s.satisfied q e
    else rel = (s.satisfied q e).head?.toList
  released : ∀ t ∈ rel, s'.waitlist t = [] ∧
    s'.threads.state t = if 0 < s.threads.suspendCount t then .suspended else .ready
  others : ∀ t, t ∉ rel → s'.waitlist t = s.waitlist t ∧ s'.threads.state t = s.threads.state t
  linked : Linked s' (q.less rel)
  reset : (s'.obj e).signaled = false

/-- The thread of the first block, or with a manual reset every thread of the list, is ready once
the event is signaled; with a manual reset no block is followed by one of the same thread. -/
def PulseEnds (s : Sys τ ι) (q : Queues τ ι) (e : ι) (manualReset : Bool) : Prop :=
  if manualReset then
    (∀ b ∈ q (.obj e), (s.setSignaled e true).threadReadyToRun b.1 = true) ∧ Apart (q (.obj e))
  else ∀ b ∈ (q (.obj e)).head?, (s.setSignaled e true).threadReadyToRun b.1 = true

theorem pulsed_of_woken {s₁ : Sys τ ι} (hw : Woken (s.setSignaled e true) s₁ rel)
    (hl : Linked s₁ (q.less rel)) (honce : rel.Nodup)
    (hright : if manualReset then ∀ t, t ∈ rel ↔ t ∈ s.satisfied q e
      else rel = (s.satisfied q e).head?.toList) :
    Pulsed s q e manualReset (s₁.setSignaled e false) rel where
  once := honce
  right := hright
  released := hw.released
  others := hw.others
  linked := hl.congr rfl rfl rfl
  reset := by simp [Sys.setSignaled]

/-- `pulse_event` ends and wakes the right threads if and only if `PulseEnds` holds. -/
theorem pulseEvent_iff (h : Linked s q) (he : (s.obj e).body = .event manualReset) :
    (∃ n s' rel, s.pulseEvent e n = some (s', rel) ∧ Pulsed s q e manualReset s' rel) ↔
      PulseEnds s q e manualReset := by
  have hset : Linked (s.setSignaled e true) q := h.congr rfl rfl rfl
  have hhead : (s.waiters (.obj e)).head = (q (.obj e)).head? := (h.family.lists _).head
  simp only [Sys.pulseEvent, he, hhead]
  cases manualReset with
  | true =>
    constructor
    · rintro ⟨n, s', rel, hpulse, hp⟩
      obtain ⟨⟨s₁, rel₁⟩, hloop, heq⟩ := Option.map_eq_some_iff.mp hpulse
      obtain ⟨rfl, rfl⟩ := Prod.mk.inj heq
      exact pulseLoop_manual_conv hset rfl hloop hp.once
    · rintro ⟨hready, hapart⟩
      obtain ⟨n, s₁, rel, hloop, hnodup, hmem, hl⟩ := pulseLoop_manual hset rfl hready hapart
      refine ⟨n, _, rel, by rw [hloop]; rfl, ?_⟩
      apply pulsed_of_woken (pulseLoop_woken hloop) hl hnodup
      intro t
      rw [hmem, Sys.satisfied, List.mem_filter]
      constructor
      · intro ht
        obtain ⟨b, hb, rfl⟩ := List.mem_map.mp ht
        exact ⟨ht, hready b hb⟩
      · exact And.left
  | false =>
    simp only [PulseEnds, Bool.false_eq_true, if_false]
    cases hq : q (.obj e) with
    | nil =>
      have hnone : s.satisfied q e = [] := by simp [Sys.satisfied, hq]
      simp only [List.head?_nil, Option.mem_def, reduceCtorEq, false_imp_iff, implies_true, iff_true]
      refine ⟨0, _, [], rfl, ?_⟩
      apply pulsed_of_woken (Woken.refl _)
      · rw [less_nil]
        exact hset
      · exact List.nodup_nil
      · simp [hnone]
    | cons b l =>
      simp only [List.head?_cons, Option.mem_def, Option.some.injEq, forall_eq']
      obtain ⟨hl, -, -⟩ := hset.release hq
      cases hb : (s.setSignaled e true).threadReadyToRun b.1 with
      | false =>
        simp [pulseLoop_stuck hb]
      | true =>
        have hloop : Sys.pulseLoop false (some b) 1 (s.setSignaled e true) =
            some (((s.setSignaled e true).scanned b.1).releaseThread b.1, [b.1]) := by
          simp [Sys.pulseLoop, hb]
        have hfirst : s.satisfied q e = b.1 :: (l.map Prod.fst).filter
            (s.setSignaled e true).threadReadyToRun := by
          rw [Sys.satisfied, hq, List.map_cons, List.filter_cons_of_pos hb]
        simp only [iff_true]
        refine ⟨1, _, [b.1], by rw [hloop]; rfl, ?_⟩
        apply pulsed_of_woken (pulseLoop_woken hloop)
        · rw [← without_less, less_nil]
          exact hl
        · exact List.nodup_singleton _
        · simp [hfirst]

/-- A thread that waits for one manual-reset event. -/
def oneWaiter : Sys Bool Unit := eventPair.setupWait .any [()] false

theorem linked_oneWaiter :
    Linked oneWaiter fun o => [] ++ own false 0 (chain .any [()] false false) o := by
  have hsound : Sound eventPair (fun _ => []) False := sound_initSys
  exact hsound.toLinked.setupWait .any false (by decide) rfl

/-- It is released. -/
theorem pulseEvent_oneWaiter : ∃ n s' rel, oneWaiter.pulseEvent () n = some (s', rel) ∧
    Pulsed oneWaiter (fun o => [] ++ own false 0 (chain .any [()] false false) o) () true s' rel := by
  apply (pulseEvent_iff linked_oneWaiter rfl).mpr
  have hqueue : [] ++ own false 0 (chain .any [()] false false) (.obj ()) = [(false, 0)] := rfl
  simp only [PulseEnds, hqueue]
  refine ⟨?_, ?_⟩
  · intro b hb
    obtain rfl := List.mem_singleton.mp hb
    decide
  · simp [Apart, others]

/-- A thread waits for both of two events; the pulse of one of them does not end. -/
theorem pulseEvent_hangs : ∃ s,
    Reach Sys.step (fun _ l => l.Distinct ∧ l.Quiet)
      (initSys false (fun _ => 8) fun _ => ⟨false, .event true⟩ : Sys Bool Bool) s ∧
    (s.obj false).body = .event true ∧ ∀ n, s.pulseEvent false n = none := by
  have hrun : (runOk Sys.step (fun _ l => l.Distinct ∧ l.Quiet)
      (initSys false (fun _ => 8) fun _ => ⟨false, .event true⟩ : Sys Bool Bool)
      [.start true, .call (.waitAll [false, true] infinite false), .dispatch true]).map
      (fun s => ((s.obj false).body, (s.waiters (.obj false)).head,
        (s.setSignaled false true).threadReadyToRun false)) =
      some (.event true, some (false, 0), false) := by decide
  obtain ⟨s, hs, hfacts⟩ := Option.map_eq_some_iff.mp hrun
  simp only [Prod.mk.injEq] at hfacts
  obtain ⟨hbody, hhead, hready⟩ := hfacts
  refine ⟨s, reach_of_runOk _ hs, hbody, fun n => ?_⟩
  simp only [Sys.pulseEvent, hbody, hhead]
  rw [pulseLoop_stuck hready]
  rfl

end SimpleKernel.Object
