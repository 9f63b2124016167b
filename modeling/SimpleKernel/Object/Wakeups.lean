import SimpleKernel.Object.Runs

/-! Wakeups reach waiting threads only, as long as no wait call names an object twice. -/
namespace SimpleKernel.Object
open LinkedList Sched Transition

variable {τ ι : Type} [DecidableEq τ] [DecidableEq ι] {s s' : Sys τ ι} {q : Queues τ ι} {t u : τ}
  {late : Prop} {o : ObjId τ ι} {grant : Sys τ ι → τ → Sys τ ι × Bool}

variable [Fintype τ] {l : Label τ ι}

theorem Sound.reach (h : Sound s q late)
    (hr : Reach Sys.step (fun _ l => l.Distinct ∧ (late ∨ l.Quiet)) s s') :
    ∃ q', Sound s' q' late := by
  refine hr.invariant (P := fun s => ∃ q', Sound s q' late) ⟨q, h⟩ fun a l b ha hok hl => ?_
  obtain ⟨q', ha⟩ := ha
  exact ha.step hok.1 hok.2 hl

omit [Fintype τ] in
theorem Sound.nodup_threads (h : Sound s q late) : ((q o).map Prod.fst).Nodup := by
  refine (h.family.lists o).nodup.map_on fun x hx y hy heq => Prod.ext heq ?_
  have hy' : (x.1, y.2) ∈ q o := heq ▸ hy
  exact h.eq_of_mem hx hy'

/-- In every run without interrupts in which no wait call names an object twice, the release loops
test linked blocks only, of threads that wait, and no thread twice. -/
theorem wakeups_reach_waiting {priority : τ → ℤ} {obj : ι → Obj τ} {s₁ : Sys τ ι}
    (hr : Reach Sys.step (fun _ l => l.Distinct ∧ l.Quiet) (initSys t priority obj) s)
    (hrel : s.releases l = some (s₁, o, grant)) (hs : s.step l = some s') :
    s' = s₁.releaseWith o grant ∧
    (∀ n, s₁.fuel ≤ n → Sys.visits grant n (s₁.waiters o).head s₁ =
      Sys.visits grant s₁.fuel (s₁.waiters o).head s₁) ∧
    (∀ x ∈ Sys.visits grant s₁.fuel (s₁.waiters o).head s₁,
      (∃ q, IsFamily x.1.links x.1.waiters q ∧ x.2 ∈ q o) ∧ x.1.waitlist x.2.1 ≠ [] ∧
        x.1.threads.state x.2.1 = .waiting) ∧
    ((Sys.visits grant s₁.fuel (s₁.waiters o).head s₁).map fun x => x.2.1).Nodup ∧
    s'.threads.panicked = false := by
  have hr' : Reach Sys.step (fun _ l => l.Distinct ∧ (False ∨ l.Quiet))
      (initSys t priority obj) s := hr.mono fun _ _ hok => ⟨hok.1, .inr hok.2⟩
  obtain ⟨q, h⟩ := sound_initSys.reach hr'
  obtain ⟨hsame, hg, hstep⟩ := releases_spec hrel
  have h₁ := h.congr hsame
  have hhead : (s₁.waiters o).head = (q o).head? := (h₁.family.lists o).head
  have hwalk : Walking o False s₁ (q o) := ⟨q, [], h₁, rfl⟩
  rw [hhead]
  obtain ⟨hvisit, hinit⟩ := visits_rule (fun _ _ _ hw => hw.next)
    (fun _ _ _ hw _ => hw.skip) (fun _ _ _ hw _ _ => hw.granted hg) hwalk
  refine ⟨hstep s' hs, fun n hn => ?_, fun x hx => ?_, ?_, ?_⟩
  · have hlen : (q o).length ≤ s₁.fuel := h₁.toLinked.length_le_fuel
    exact visits_fuel (fun _ _ _ hw => hw.next) (fun _ _ _ hw _ => hw.skip)
      (fun _ _ _ hw _ _ => hw.granted hg) (le_trans hlen hn) hlen hwalk
  · obtain ⟨l', hw⟩ := hvisit x hx
    obtain ⟨-, hchain, w, hblocked⟩ := hw.waits
    obtain ⟨q', xs, hsx, hqx⟩ := hw
    refine ⟨⟨q', hsx.family, by simp [hqx]⟩, hchain, ?_⟩
    exact hblocked.state.resolve_right fun hx => hx.1
  · have hmap : (Sys.visits grant s₁.fuel (q o).head? s₁).map (fun x => x.2.1) =
        ((Sys.visits grant s₁.fuel (q o).head? s₁).map Prod.snd).map Prod.fst := by
      rw [List.map_map]
      rfl
    rw [hmap]
    exact h₁.nodup_threads.sublist (hinit.sublist.map Prod.fst)
  · obtain ⟨q', h'⟩ := h₁.releaseWith hg
    rw [hstep s' hs]
    exact h'.calm

/-! Two threads and one manual-reset event. The first thread waits for the event as often as `objs`
says, then the second one runs. -/

instance : ∀ l : Label τ ι, Decidable l.Quiet
  | .interrupt _ => isFalse id
  | .call _ | .preempt | .dispatch _ | .start _ | .expire _ | .signal _ _ => isTrue trivial

instance : ∀ l : Label τ ι, Decidable l.Distinct
  | .call (.waitAny objs _ _) | .call (.waitAll objs _ _) => inferInstanceAs (Decidable objs.Nodup)
  | .call (.waitOne _ _ _) | .call (.setEvent _) | .call (.resetEvent _) | .call (.releaseSem _ _)
  | .call (.setSem _ _) | .call (.releaseMutex _) | .interrupt _ | .preempt | .dispatch _
  | .start _ | .expire _ | .signal _ _ => isTrue trivial

def eventPair : Sys Bool Unit := initSys false (fun _ => 8) fun _ => ⟨false, .event true⟩

def waitRun (objs : List Unit) : List (Label Bool Unit) :=
  [.start true, .call (.waitAny objs infinite false), .dispatch true]

/-- The thread that waits for the event once is woken. -/
theorem wakeups_reach_waiting_once : ∃ s s' s₁ o grant,
    Reach Sys.step (fun _ l => l.Distinct ∧ l.Quiet) eventPair s ∧
    s.releases (.call (.setEvent ())) = some (s₁, o, grant) ∧
    s.step (.call (.setEvent ())) = some s' ∧
    (∀ x ∈ Sys.visits grant s₁.fuel (s₁.waiters o).head s₁,
      x.1.threads.state x.2.1 = .waiting) ∧ s'.threads.panicked = false := by
  have hrun : (runOk Sys.step (fun _ l => l.Distinct ∧ l.Quiet) eventPair (waitRun [()])).map
      (fun s => ((s.releases (.call (.setEvent ()))).isSome,
        (s.step (.call (.setEvent ()))).isSome)) = some (true, true) := by decide
  obtain ⟨s, hs, hboth⟩ := Option.map_eq_some_iff.mp hrun
  obtain ⟨hrel, hstep⟩ := Prod.mk.inj hboth
  obtain ⟨⟨s₁, o, grant⟩, hrel⟩ := Option.isSome_iff_exists.mp hrel
  obtain ⟨s', hstep⟩ := Option.isSome_iff_exists.mp hstep
  have hr := reach_of_runOk (waitRun [()]) hs
  obtain ⟨-, -, hvisit, -, hcalm⟩ := wakeups_reach_waiting hr hrel hstep
  exact ⟨s, s', s₁, o, grant, hr, hrel, hstep, fun x hx => (hvisit x hx).2.2, hcalm⟩

/-- The thread that waits for the event twice is ready when its second block is tested. -/
theorem woken_twice : ¬ ∀ s, Reach Sys.step (fun _ l => l.Quiet) eventPair s →
    ∀ l s₁ o grant, s.releases l = some (s₁, o, grant) →
      ∀ x ∈ Sys.visits grant s₁.fuel (s₁.waiters o).head s₁,
        x.1.threads.state x.2.1 = .waiting := by
  intro hclaim
  have hrun : (runOk Sys.step (fun _ l => l.Quiet) eventPair (waitRun [(), ()])).map
      (fun s => (s.releases (.call (.setEvent ()))).map fun r =>
        (Sys.visits r.2.2 r.1.fuel (r.1.waiters r.2.1).head r.1).map
          fun x => x.1.threads.state x.2.1) = some (some [.waiting, .ready]) := by decide
  obtain ⟨s, hs, hrel⟩ := Option.map_eq_some_iff.mp hrun
  obtain ⟨⟨s₁, o, grant⟩, hrel, hstates⟩ := Option.map_eq_some_iff.mp hrel
  have hready : ThreadState.ready ∈
      (Sys.visits grant s₁.fuel (s₁.waiters o).head s₁).map fun x => x.1.threads.state x.2.1 := by
    rw [hstates]
    decide
  obtain ⟨x, hx, hxready⟩ := List.mem_map.mp hready
  have hwait := hclaim s (reach_of_runOk _ hs) _ s₁ o grant hrel x hx
  simp [hwait] at hxready

end SimpleKernel.Object
