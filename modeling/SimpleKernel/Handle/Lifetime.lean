import SimpleKernel.Handle.Steps

/-! The life of objects over all interleavings of threads. -/
namespace SimpleKernel.Handle

open Transition

variable {ω τ : Type} [DecidableEq ω] [DecidableEq τ] {s s' : State ω τ} {l : τ × Call ω}
  {fl : List ℕ} {refs : ω → Finset ℕ}

theorem Inv.step (hi : Inv s fl refs) (hused : Used s l) (hsafe : Safe s l)
    (hs : step s l = some s') : ∃ fl' refs', Inv s' fl' refs' := by
  obtain ⟨t, c⟩ := l
  cases hp : s.phase t with
  | idle =>
    cases c with
    | halloc o =>
      simp only [Handle.step, hp] at hs
      obtain ⟨r, hr, rfl⟩ := Option.map_eq_some_iff.mp hs
      exact hi.halloc hused hsafe hr
    | hassign o h =>
      simp only [Handle.step, hp] at hs
      obtain ⟨r, hr, rfl⟩ := Option.map_eq_some_iff.mp hs
      exact hi.hassign hp hused hsafe hr
    | hfree h =>
      simp only [Handle.step, hp, Option.some.injEq] at hs
      subst hs
      exact hi.hfree hp hsafe
    | olock h type =>
      simp only [Handle.step, hp, Option.some.injEq] at hs
      subst hs
      exact ⟨fl, refs, hi.olock hsafe⟩
    | orel o =>
      simp only [Handle.step, hp, Option.some.injEq] at hs
      subst hs
      exact ⟨fl, refs, hi.orel hused hsafe⟩
    | hprotect h | hunprotect h =>
      simp only [Handle.step, hp, Option.some.injEq] at hs
      subst hs
      exact ⟨fl, refs, hi.setProtect⟩
    | closeReturns rc => simp [Handle.step, hp] at hs
  | freeing o =>
    cases c with
    | closeReturns rc =>
      simp only [Handle.step, hp, State.closeReturns, Option.map_some, Option.some.injEq] at hs
      subst hs
      exact ⟨fl, refs, hi.freed hp⟩
    | _ => simp [Handle.step, hp] at hs
  | assigning o h oo =>
    cases c with
    | closeReturns rc =>
      obtain ⟨hrc, ho, hcount⟩ := hsafe o h oo hp
      simp only [Handle.step, hp, State.closeReturns, if_neg (not_lt.mpr hrc), Option.map_some,
        Option.some.injEq] at hs
      subst hs
      exact ⟨fl, _, hi.assigned hp ho hcount⟩
    | _ => simp [Handle.step, hp] at hs

omit [DecidableEq ω] [DecidableEq τ] in
theorem inv_initial (type : ω → UInt16) : Inv (initial type : State ω τ) [] fun _ => ∅ := by
  refine ⟨⟨rfl, List.nodup_nil, fun h => ?_⟩, fun o h => ?_, fun o => rfl, fun o => rfl, ?_, ?_,
    fun o => ?_⟩
  · simp [initial]
  · simp [initial, Refers]
  · intro t o h oo hp
    simp [initial] at hp
  · intro t t' h ht
    simp [initial, Phase.slot] at ht
  · exact .live rfl rfl (by simp [closers, initial, Phase.target]) (by simp [initial])
      (.inr rfl)

/-- What is said of an object: it is destroyed at most once, and then has no handle and no outstanding lock; it is
closed once, when its last handle has gone; once closed, with nobody waiting for the close and no lock left, it has
been destroyed. A handle that `hassign` is about to assign anew counts as gone. -/
structure LifetimeOk (s : State ω τ) (o : ω) : Prop where
  once : s.destroyed o ≤ 1
  unused : 0 < s.destroyed o → (∀ h, ¬ Refers s h o) ∧ s.locked o = 0
  closedOnce : s.closed o ≤ 1
  closed_iff : s.closed o = 1 ↔ s.given o = true ∧ ∀ h, Refers s h o → Busy s h
  destroyed : s.closed o = 1 → closers s o = ∅ → s.locked o = 0 → s.destroyed o = 1

omit [DecidableEq ω] [DecidableEq τ] in
theorem Inv.lifetimeOk (hi : Inv s fl refs) (o : ω) : LifetimeOk s o := by
  have hempty : refs o = ∅ ↔ ∀ h, Refers s h o → Busy s h := by
    rw [Finset.eq_empty_iff_forall_notMem]
    refine forall_congr' fun h => ?_
    rw [hi.refsOk o h, not_and, not_not]
  -- a handle that is about to be assigned belongs to an object that is being closed
  have hbusy : ∀ h, Refers s h o → Busy s h → (closers s o).Nonempty := by
    rintro h ⟨-, p, hh⟩ ⟨t, ht⟩
    cases hp : s.phase t with
    | idle => simp [hp, Phase.slot] at ht
    | freeing x => simp [hp, Phase.slot] at ht
    | assigning x k oo =>
      obtain rfl : k = h := by simpa [hp, Phase.slot] using ht
      obtain ⟨-, q, hq⟩ := hi.busy t x k oo hp
      obtain rfl : oo = o := by
        rw [hq] at hh
        exact (Slot.used.inj hh).1
      exact ⟨t, by simp [closers, hp, Phase.target]⟩
  cases hi.stage o with
  | live hc hd hcl hg hl =>
    refine ⟨by omega, fun hpos => by omega, by omega, ?_, fun hone => by omega⟩
    refine ⟨fun hone => by omega, fun hboth => ?_⟩
    exact absurd (hempty.mpr hboth.2) (hg.mp hboth.1).ne_empty
  | closing t hc hd hcl hg hr =>
    refine ⟨by omega, fun hpos => by omega, by omega, ?_, fun _ hnone => ?_⟩
    · exact ⟨fun _ => ⟨hg, hempty.mp hr⟩, fun _ => hc⟩
    · rw [hcl] at hnone
      exact absurd hnone (Set.singleton_ne_empty t)
  | shut hc hd hcl hg hr hl =>
    refine ⟨by omega, fun hpos => by omega, by omega, ?_, fun _ _ hzero => by omega⟩
    exact ⟨fun _ => ⟨hg, hempty.mp hr⟩, fun _ => hc⟩
  | gone hc hd hcl hg hr hl =>
    refine ⟨by omega, fun _ => ⟨fun h hh => ?_, hl⟩, by omega, ?_, fun _ _ _ => hd⟩
    · have hne := hbusy h hh (hempty.mp hr h hh)
      rw [hcl] at hne
      exact Set.not_nonempty_empty hne
    · exact ⟨fun _ => ⟨hg, hempty.mp hr⟩, fun _ => hc⟩

/-- In every run without one of the defects the life of every object is in order. -/
theorem object_lifetime (type : ω → UInt16)
    (h : Reach step (fun s l => Used s l ∧ Safe s l) (initial type) s) (o : ω) :
    LifetimeOk s o := by
  have hinv : ∃ fl refs, Inv s fl refs := by
    refine h.invariant (P := fun s => ∃ fl refs, Inv s fl refs) ⟨_, _, inv_initial type⟩
      fun a l b ha hok hl => ?_
    obtain ⟨fl, refs, ha⟩ := ha
    exact ha.step hok.1 hok.2 hl
  obtain ⟨fl, refs, hi⟩ := hinv
  exact hi.lifetimeOk o

instance (s : State ω τ) (o : ω) : Decidable (Held s o) :=
  inferInstanceAs (Decidable (s.given o = false ∨ (s.obj o).handleCount ≠ 0))

instance (s : State ω τ) (l : τ × Call ω) : Decidable (Used s l) :=
  match l with
  | (_, .halloc o) => inferInstanceAs (Decidable (Held s o))
  | (_, .hassign o _) => inferInstanceAs (Decidable (Held s o))
  | (_, .orel o) => inferInstanceAs (Decidable (0 < s.locked o))
  | (_, .hfree _) => .isTrue trivial
  | (_, .olock _ _) => .isTrue trivial
  | (_, .hprotect _) => .isTrue trivial
  | (_, .hunprotect _) => .isTrue trivial
  | (_, .closeReturns _) => .isTrue trivial

/-- Thread `false` opens an object and locks it; while thread `true` closes its only handle and
waits in `close_object`, `false` gives up the lock. -/
def raceRun : List (Bool × Call Unit) :=
  [(false, .halloc ()), (false, .olock 0 objectAny), (true, .hfree 0), (false, .orel ()),
    (true, .closeReturns 0)]

theorem object_lifetime_opened :
    ∃ s : State Unit Bool, step (initial fun _ => 1) (false, .halloc ()) = some s ∧
      LifetimeOk s () := by
  have hsome : (step (initial fun _ => 1 : State Unit Bool) (false, .halloc ())).isSome = true := by
    decide +kernel
  obtain ⟨s, hs⟩ := Option.isSome_iff_exists.mp hsome
  refine ⟨s, hs, object_lifetime (fun _ => 1) (Reach.single ⟨?_, ?_⟩ hs) ()⟩
  · exact Or.inl rfl
  · simp only [Safe]
    decide

/-- The object is destroyed by `orel` and once more by `hfree`. -/
theorem object_destroyed_twice :
    ¬ ∀ (s : State Unit Bool), Reach step Used (initial fun _ => 1) s → LifetimeOk s () := by
  intro hclaim
  have hrun : (runOk step Used (initial fun _ => 1 : State Unit Bool) raceRun).map
      (fun s => s.destroyed ()) = some 2 := by decide +kernel
  obtain ⟨s, hs, htwo⟩ := Option.map_eq_some_iff.mp hrun
  have honce := (hclaim s (reach_of_runOk raceRun hs)).once
  omega

end SimpleKernel.Handle
