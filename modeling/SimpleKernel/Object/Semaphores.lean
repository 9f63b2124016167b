import SimpleKernel.Object.Runs

/-! The count of a semaphore and its signaled flag. The flag repeats that the count is positive; `release_sem` and
`set_sem` set it, and the threads that take the semaphore clear it. -/
namespace SimpleKernel.Object
open LinkedList Sched Transition
open Function (update update_eq_self update_of_ne update_self)

def initSem {τ : Type} (count : UInt32) : Obj τ := ⟨decide (0 < count), .semaphore count⟩

/-- The object is taken in the event. -/
def Event.takes {τ ι : Type} [DecidableEq ι] (o : ι) : Event τ ι → Bool
  | .acquire _ o' => o' = o
  | .release _ _ _ => false

namespace Sys
variable {τ ι : Type} [DecidableEq τ] [DecidableEq ι]

/-- How often `o` was taken so far. -/
def grants (s : Sys τ ι) (o : ι) : ℕ := s.hist.log.countP (Event.takes o)

/-- Every semaphore is signaled if and only if its count is positive. -/
def SemOk (s : Sys τ ι) : Prop :=
  ∀ o c, (s.obj o).body = .semaphore c → ((s.obj o).signaled = true ↔ 0 < c)

/-- No count is brought to 0 by an addition that wraps or by `set_sem`. -/
def Counted (s : Sys τ ι) : Label τ ι → Prop
  | .call (.releaseSem o n) => ∀ c, (s.obj o).body = .semaphore c → c = 0 ∨ c + n ≠ 0
  | .call (.setSem o n) => ∀ c, (s.obj o).body = .semaphore c → c = 0 ∨ n ≠ 0
  | _ => True

/-- The count of `o` before it is taken in a step: what the call itself makes of it. -/
def offered (s : Sys τ ι) (l : Label τ ι) (o : ι) : Option UInt32 :=
  match (s.obj o).body with
  | .semaphore c =>
    match l with
    | .call (.releaseSem o' n) => some (if o' = o then c + n else c)
    | .call (.setSem o' n) => some (if o' = o then n else c)
    | _ => some c
  | _ => none

end Sys

variable {τ ι : Type} [DecidableEq τ] [DecidableEq ι] {s s' s₁ s₂ : Sys τ ι} {t : τ} {o : ι}
  {grant : Sys τ ι → τ → Sys τ ι × Bool}

/-- From `s` to `s'` every count falls by one whenever the semaphore is taken. -/
structure Draws (s s' : Sys τ ι) : Prop where
  ok : s'.SemOk
  count : ∀ o c, (s.obj o).body = .semaphore c →
    ∃ c', (s'.obj o).body = .semaphore c' ∧ c'.toNat + s'.grants o = c.toNat + s.grants o

section
omit [DecidableEq τ]

theorem Draws.trans (h : Draws s s₁) (h' : Draws s₁ s₂) : Draws s s₂ := by
  refine ⟨h'.ok, fun o c hc => ?_⟩
  obtain ⟨c₁, hc₁, hsum⟩ := h.count o c hc
  obtain ⟨c₂, hc₂, hsum'⟩ := h'.count o c₁ hc₁
  exact ⟨c₂, hc₂, hsum'.trans hsum⟩

theorem Draws.same (h : s.SemOk) (hobj : s'.obj = s.obj) (hlog : s'.hist.log = s.hist.log) :
    Draws s s' := by
  refine ⟨fun o c => ?_, fun o c hc => ⟨c, ?_, ?_⟩⟩
  · rw [hobj]
    exact h o c
  · rw [hobj]
    exact hc
  · rw [Sys.grants, hlog, Sys.grants]

theorem Draws.refl (h : s.SemOk) : Draws s s := Draws.same h rfl rfl

end

/-- An object that is not a semaphore. -/
def Plain (x : Obj τ) : Prop := ∀ c, x.body ≠ .semaphore c

theorem grants_acquire (s : Sys τ ι) (t : τ) (o o' : ι) :
    (s.acquire t o).grants o' = s.grants o' + if o = o' then 1 else 0 := by
  simp only [Sys.grants, Sys.acquire_hist_log, List.countP_cons, Event.takes]
  split_ifs <;> simp_all

omit [DecidableEq τ] in
theorem Draws.plain {x : Obj τ} (h : s.SemOk) (hold : Plain (s.obj o)) (hnew : Plain x)
    (hobj : s'.obj = update s.obj o x)
    (hlog : ∀ o', o' ≠ o → s'.grants o' = s.grants o') : Draws s s' := by
  refine ⟨fun o' c => ?_, fun o' c hc => ?_⟩
  · rw [hobj]
    rcases eq_or_ne o' o with rfl | ho
    · rw [update_self]
      exact fun hc => absurd hc (hnew c)
    · rw [update_of_ne ho]
      exact h o' c
  · have ho : o' ≠ o := by
      rintro rfl
      exact hold c hc
    rw [hobj, update_of_ne ho, hlog o' ho]
    exact ⟨c, hc, rfl⟩

omit [DecidableEq τ] in
theorem plain_entered {x : Obj τ} (h : Plain x) (t : τ) : Plain (x.entered t) := by
  intro c
  unfold Obj.entered
  cases hb : x.body with
  | event m => cases m <;> simp [hb]
  | semaphore c' => exact absurd hb (h c')
  | thread | timer | mutex | file | socket | filemap => simp [hb]

theorem toNat_pred_of_pos {c : UInt32} (h : 0 < c) : (c - 1).toNat + 1 = c.toNat := by
  have hpos : 0 < c.toNat := by
    have := UInt32.lt_iff_toNat_lt.mp h
    simpa using this
  have hle : 1 ≤ c := UInt32.le_iff_toNat_le.mpr hpos
  rw [UInt32.toNat_sub_of_le _ _ hle]
  exact Nat.succ_pred_eq_of_pos hpos

omit [DecidableEq τ] in
theorem Draws.take {x : Obj τ} {c : UInt32} (h : s.SemOk) (hc : (s.obj o).body = .semaphore c)
    (hpos : 0 < c) (hx : x.body = .semaphore (c - 1)) (hsig : x.signaled = true ↔ 0 < c - 1)
    (hobj : s'.obj = update s.obj o x)
    (hlog : ∀ o', s'.grants o' = s.grants o' + if o = o' then 1 else 0) : Draws s s' := by
  refine ⟨fun o' c' => ?_, fun o' c' hc' => ?_⟩
  · rw [hobj]
    rcases eq_or_ne o' o with rfl | ho
    · rw [update_self, hx]
      intro he
      rw [← Body.semaphore.inj he]
      exact hsig
    · rw [update_of_ne ho]
      exact h o' c'
  · rw [hobj, hlog]
    rcases eq_or_ne o' o with rfl | ho
    · obtain rfl := Body.semaphore.inj (hc.symm.trans hc')
      rw [update_self, if_pos rfl]
      refine ⟨c - 1, hx, ?_⟩
      have := toNat_pred_of_pos hpos
      omega
    · rw [update_of_ne ho, if_neg ho.symm]
      exact ⟨c', hc', rfl⟩

theorem pos_iff_ne_zero (c : UInt32) : 0 < c ↔ c ≠ 0 := by
  rw [UInt32.lt_iff_toNat_lt, ne_eq, ← UInt32.toNat_inj]
  simp only [UInt32.toNat_zero]
  omega

theorem draws_enterObject (h : s.SemOk) (hs : (s.obj o).signaled = true) :
    Draws s (s.enterObject o) := by
  have hlog (o' : ι) : (s.enterObject o).grants o' = s.grants o' + if o = o' then 1 else 0 :=
    grants_acquire _ _ _ _
  by_cases hp : Plain (s.obj o)
  · refine Draws.plain h hp (plain_entered hp s.cur) rfl fun o' ho => ?_
    rw [hlog, if_neg ho.symm, Nat.add_zero]
  · obtain ⟨c, hc⟩ := not_forall_not.mp hp
    refine Draws.take h hc ((h o c hc).mp hs) ?_ ?_ rfl hlog
    · rw [Obj.entered, hc]
    · rw [Obj.entered, hc, pos_iff_ne_zero]
      by_cases h0 : c - 1 = 0
      · simp [h0]
      · simp [hs]

theorem draws_recurse (h : s.SemOk) (o : ι) : Draws s (s.recurse o) := by
  unfold Sys.recurse
  split
  · next owner recursion hb =>
    refine Draws.plain h
      (fun c hc => ?_) (fun c hc => by simp at hc) rfl fun o' ho => ?_
    · rw [hb] at hc
      simp at hc
    · rw [grants_acquire, if_neg ho.symm]
      rfl
  · exact Draws.refl h

theorem draws_enterAny {n : ℕ} {objs : List ι} (h : s.SemOk) (hs : s.enterAny n objs = some s') :
    Draws s s' := by
  induction objs generalizing n with
  | nil => simp [Sys.enterAny] at hs
  | cons o objs ih =>
    rw [Sys.enterAny] at hs
    split at hs
    · next hsig =>
      obtain rfl := Option.some.inj hs
      exact (draws_enterObject h hsig).trans (Draws.same (draws_enterObject h hsig).ok rfl rfl)
    split at hs
    · obtain rfl := Option.some.inj hs
      exact (draws_recurse h o).trans (Draws.same (draws_recurse h o).ok rfl rfl)
    · exact ih hs

theorem draws_enterAll {rc : ℤ} {objs : List ι} (h : s.SemOk) :
    Draws s (s.enterAll rc objs).1 := by
  induction objs generalizing s rc with
  | nil => exact Draws.refl h
  | cons o objs ih =>
    rw [Sys.enterAll]
    split
    · next hsig => exact (draws_enterObject h hsig).trans (ih (draws_enterObject h hsig).ok)
    split
    · exact (draws_recurse h o).trans (ih (draws_recurse h o).ok)
    · exact ih h

/-! The walks along wait lists. -/

omit [DecidableEq ι] in
theorem releaseLoop_keeps {P Q : Sys τ ι → Prop} (hscan : ∀ s t, P s → P (s.scanned t))
    (hgo : ∀ s t, P s → (grant s t).2 = true → P (grant s t).1)
    (hstop : ∀ s t, P s → (grant s t).2 = false → Q (grant s t).1) (hdone : ∀ s, P s → Q s)
    {n : ℕ} {wb : Option (Wb τ)} (h : P s) : Q (Sys.releaseLoop grant n wb s) := by
  induction n generalizing s wb with
  | zero => exact hdone s h
  | succ n ih =>
    cases wb with
    | none => exact hdone s h
    | some wb =>
      rw [Sys.releaseLoop]
      dsimp only
      split
      · split
        · next hr => exact ih (hgo _ _ (hscan s wb.1 h) hr)
        · next hr => exact hstop _ _ (hscan s wb.1 h) (Bool.eq_false_iff.mpr hr)
      · exact ih (hscan s wb.1 h)

theorem releaseThread_obj (s : Sys τ ι) (t : τ) : (s.releaseThread t).obj = s.obj := by
  rw [Sys.releaseThread, cancelWait_eq]

theorem releaseThread_hist (s : Sys τ ι) (t : τ) : (s.releaseThread t).hist = s.hist := by
  rw [Sys.releaseThread, cancelWait_eq]

theorem releaseThread_setObj (s : Sys τ ι) (t : τ) (o : ι) (x : Obj τ) :
    (((s.releaseThread t).acquire t o).setObj o x).obj = update s.obj o x := by
  have hobj : ((s.releaseThread t).acquire t o).obj = s.obj := releaseThread_obj s t
  rw [Sys.setObj, hobj]

theorem grants_releaseThread_acquire (s : Sys τ ι) (t : τ) (o o' : ι) :
    ((s.releaseThread t).acquire t o).grants o' = s.grants o' + if o = o' then 1 else 0 := by
  rw [grants_acquire, Sys.grants, releaseThread_hist]
  rfl

variable [Fintype τ]

theorem draws_releaseWith {w : ObjId τ ι} (h : s.SemOk) (ho : Plain (s.obj o))
    (hg : ∀ s₁ t, s₁.SemOk → Plain (s₁.obj o) →
      Draws s₁ (grant s₁ t).1 ∧ Plain ((grant s₁ t).1.obj o)) :
    Draws s (s.releaseWith w grant) := by
  have hgrant (s₁ : Sys τ ι) (t : τ) (h₁ : Draws s s₁ ∧ Plain (s₁.obj o)) :
      Draws s (grant s₁ t).1 ∧ Plain ((grant s₁ t).1.obj o) := by
    obtain ⟨hd, hp⟩ := hg s₁ t h₁.1.ok h₁.2
    exact ⟨h₁.1.trans hd, hp⟩
  exact releaseLoop_keeps
    (fun s₁ _ h₁ => ⟨h₁.1.trans (Draws.same h₁.1.ok rfl rfl), h₁.2⟩)
    (fun s₁ t h₁ _ => hgrant s₁ t h₁) (fun s₁ t h₁ _ => (hgrant s₁ t h₁).1) (fun _ h₁ => h₁.1)
    ⟨Draws.refl h, ho⟩

omit [Fintype τ] in
theorem draws_grantEvent {manualReset : Bool} (h : s.SemOk) (ho : Plain (s.obj o)) :
    Draws s (s.grantEvent o manualReset t).1 ∧ Plain ((s.grantEvent o manualReset t).1.obj o) := by
  have hlog (o' : ι) (hne : o' ≠ o) :
      ((s.releaseThread t).acquire t o).grants o' = s.grants o' := by
    rw [grants_releaseThread_acquire, if_neg hne.symm, Nat.add_zero]
  have hobj : ((s.releaseThread t).acquire t o).obj = s.obj := releaseThread_obj s t
  rw [Sys.grantEvent]
  dsimp only
  split
  · refine ⟨Draws.plain h ho ho ?_ hlog, ?_⟩
    · rw [hobj, update_eq_self]
    · rw [hobj]
      exact ho
  · have hnew : Plain ⟨false, (s.obj o).body⟩ := ho
    have hset := releaseThread_setObj s t o ⟨false, (s.obj o).body⟩
    rw [hobj]
    refine ⟨Draws.plain h ho hnew hset hlog, ?_⟩
    rw [hset, update_self]
    exact hnew

omit [Fintype τ] in
theorem draws_grantMutex (h : s.SemOk) (ho : Plain (s.obj o)) :
    Draws s (s.grantMutex o t).1 ∧ Plain ((s.grantMutex o t).1.obj o) := by
  have hnew : Plain ⟨false, .mutex (some t) 1⟩ := fun c hc => by simp at hc
  have hobj : (s.grantMutex o t).1.obj = update s.obj o ⟨false, .mutex (some t) 1⟩ :=
    releaseThread_obj _ t
  refine ⟨Draws.plain h ho hnew hobj fun o' hne => ?_, ?_⟩
  · rw [Sys.grantMutex, grants_releaseThread_acquire, if_neg hne.symm]
    rfl
  · rw [hobj, update_self]
    exact hnew

theorem draws_expire (h : s.SemOk) (t : τ) : Draws s (s.expireWaitableTimer t) := by
  refine releaseLoop_keeps
    (fun s₁ _ h₁ => h₁.trans (Draws.same h₁.ok rfl rfl)) ?_ ?_ (fun _ h₁ => h₁)
    (Draws.same h rfl rfl)
  all_goals
    intro s₁ u h₁ _
    refine h₁.trans (Draws.same h₁.ok (releaseThread_obj _ u) ?_)
    rw [Sys.grantWaiter, releaseThread_hist]
    rfl

omit [Fintype τ] in
theorem draws_grantSem {c : UInt32} (h : s.SemOk) (hc : (s.obj o).body = .semaphore c)
    (hpos : 0 < c) : Draws s (s.grantSem o t).1 ∧ ((s.grantSem o t).2 = true →
      ∃ c', ((s.grantSem o t).1.obj o).body = .semaphore c' ∧ 0 < c') := by
  have hcount : (s.obj o).count = c := by rw [Obj.count, hc]
  have hset := releaseThread_setObj s t o
  have hlog := grants_releaseThread_acquire s t o
  rw [Sys.grantSem, hcount]
  split
  · next h0 =>
    refine ⟨Draws.take h hc hpos rfl ?_ (hset _) hlog, by simp⟩
    simp [h0]
  · next h0 =>
    have hpos' : 0 < c - 1 := (pos_iff_ne_zero _).mpr h0
    refine ⟨Draws.take h hc hpos rfl ?_ (hset _) hlog, fun _ => ?_⟩
    · simp [hpos', (h o c hc).mpr hpos]
    · exact ⟨c - 1, by simp, hpos'⟩

theorem draws_releaseWith_grantSem {w : ObjId τ ι} {c : UInt32} (h : s.SemOk)
    (hc : (s.obj o).body = .semaphore c) (hpos : 0 < c) :
    Draws s (s.releaseWith w (Sys.grantSem o)) := by
  refine releaseLoop_keeps
    (P := fun s₁ => Draws s s₁ ∧ ∃ c', (s₁.obj o).body = .semaphore c' ∧ 0 < c')
    (fun s₁ _ h₁ => ⟨h₁.1.trans (Draws.same h₁.1.ok rfl rfl), h₁.2⟩) ?_ ?_ (fun _ h₁ => h₁.1)
    ⟨Draws.refl h, c, hc, hpos⟩
  · rintro s₁ t ⟨hd, c', hc', hpos'⟩ hgo
    obtain ⟨hd', hnext⟩ := draws_grantSem hd.ok hc' hpos'
    exact ⟨hd.trans hd', hnext hgo⟩
  · rintro s₁ t ⟨hd, c', hc', hpos'⟩ -
    exact hd.trans (draws_grantSem hd.ok hc' hpos').1

/-! Steps. -/

section
omit [Fintype τ]

theorem startWait_same {ty : WaitType} {objs : List ι} {timeout : UInt32} {alertable : Bool} :
    (s.startWait ty objs timeout alertable).obj = s.obj ∧
      (s.startWait ty objs timeout alertable).hist.log = s.hist.log := by
  rw [Sys.startWait]
  dsimp only
  rw [setupWait_eq]
  split
  · rw [Sys.abandon, cancelWait_eq]
    cases decide (timeout ≠ infinite) <;> exact ⟨rfl, rfl⟩
  · exact ⟨rfl, rfl⟩

theorem dispatch_same : (s.dispatch t).obj = s.obj ∧ (s.dispatch t).hist.log = s.hist.log := by
  rw [Sys.dispatch]
  split
  · next w _ =>
    rw [Sys.endWait]
    dsimp only
    split
    · split
      · rw [Sys.abandon, cancelWait_eq]
        cases w.timed <;> exact ⟨rfl, rfl⟩
      · cases w.timed <;> exact ⟨rfl, rfl⟩
    · cases w.timed <;> exact ⟨rfl, rfl⟩
  · exact ⟨rfl, rfl⟩

theorem draws_startWait {ty : WaitType} {objs : List ι} {timeout : UInt32} {alertable : Bool}
    (h : s.SemOk) : Draws s (s.startWait ty objs timeout alertable) :=
  Draws.same h startWait_same.1 startWait_same.2

theorem draws_finish {rc : ℤ} (h : s.SemOk) : Draws s (s.finish t rc) := Draws.same h rfl rfl

theorem draws_waitForOneObject {timeout : UInt32} {alertable : Bool} (h : s.SemOk) :
    Draws s (s.waitForOneObject o timeout alertable) := by
  have hbegin : Draws s s.beginWait := Draws.same h rfl rfl
  refine hbegin.trans ?_
  rw [Sys.waitForOneObject]
  split
  · next hsig =>
    have henter := draws_enterObject hbegin.ok hsig
    exact henter.trans (draws_finish henter.ok)
  split
  · have hrec := draws_recurse hbegin.ok o
    exact hrec.trans (draws_finish hrec.ok)
  split
  · exact draws_finish hbegin.ok
  · exact draws_startWait hbegin.ok

theorem draws_waitForAnyObject {objs : List ι} {timeout : UInt32} {alertable : Bool} (h : s.SemOk)
    (hs : s.waitForAnyObject objs timeout alertable = some s') : Draws s s' := by
  have hbegin : Draws s s.beginWait := Draws.same h rfl rfl
  refine hbegin.trans ?_
  rw [Sys.waitForAnyObject] at hs
  split at hs
  · split at hs
    · obtain rfl := Option.some.inj hs
      exact draws_finish hbegin.ok
    · simp at hs
  split at hs
  · obtain rfl := Option.some.inj hs
    exact draws_finish hbegin.ok
  split at hs
  · next s₁ hany =>
    obtain rfl := Option.some.inj hs
    exact draws_enterAny hbegin.ok hany
  split at hs
  · obtain rfl := Option.some.inj hs
    exact draws_finish hbegin.ok
  · obtain rfl := Option.some.inj hs
    exact draws_startWait hbegin.ok

theorem draws_waitForAllObjects {objs : List ι} {timeout : UInt32} {alertable : Bool} (h : s.SemOk)
    (hs : s.waitForAllObjects objs timeout alertable = some s') : Draws s s' := by
  have hbegin : Draws s s.beginWait := Draws.same h rfl rfl
  refine hbegin.trans ?_
  rw [Sys.waitForAllObjects] at hs
  dsimp only at hs
  split at hs
  · split at hs
    · obtain rfl := Option.some.inj hs
      exact draws_finish hbegin.ok
    · simp at hs
  split at hs
  · obtain rfl := Option.some.inj hs
    exact draws_finish hbegin.ok
  split at hs
  · obtain rfl := Option.some.inj hs
    have hall : Draws s.beginWait (s.beginWait.enterAll 0 objs).1 := draws_enterAll hbegin.ok
    exact hall.trans (draws_finish hall.ok)
  split at hs
  · obtain rfl := Option.some.inj hs
    exact draws_finish hbegin.ok
  · obtain rfl := Option.some.inj hs
    exact draws_startWait hbegin.ok

end

theorem draws_setEvent (h : s.SemOk) (hs : s.setEvent o = some s') : Draws s s' := by
  rw [Sys.setEvent] at hs
  split at hs
  · next m hb =>
    obtain rfl := Option.some.inj hs
    have hold : Plain (s.obj o) := fun c hc => by simp [hb] at hc
    have hnew : Plain (⟨true, .event m⟩ : Obj τ) := fun c hc => by simp at hc
    have hset : Draws s (s.setObj o ⟨true, .event m⟩) :=
      Draws.plain h hold hnew rfl fun _ _ => rfl
    refine hset.trans (draws_releaseWith hset.ok ?_ fun _ _ h₁ ho =>
      draws_grantEvent h₁ ho)
    simpa using hnew
  · simp at hs

theorem draws_releaseMutex {r : Sys τ ι × ℤ} (h : s.SemOk) (hs : s.releaseMutex o = some r) :
    Draws s r.1 := by
  rw [Sys.releaseMutex] at hs
  split at hs
  · next owner recursion hb =>
    have hold : Plain (s.obj o) := fun c hc => by simp [hb] at hc
    split at hs
    · obtain rfl := Option.some.inj hs
      exact Draws.refl h
    have hset (x : Obj τ) (hx : Plain x) : Draws s ((s.giveBack o 1).setObj o x) := by
      refine Draws.plain h hold hx rfl fun o' _ => ?_
      simp [Sys.grants, Event.takes]
    split at hs
    · obtain rfl := Option.some.inj hs
      exact hset _ fun c hc => by simp at hc
    · obtain rfl := Option.some.inj hs
      have hnew : Plain (⟨true, .mutex none (wrap (recursion - 1))⟩ : Obj τ) :=
        fun c hc => by simp at hc
      refine (hset _ hnew).trans (draws_releaseWith (hset _ hnew).ok ?_ fun _ _ h₁ ho =>
        draws_grantMutex h₁ ho)
      simpa using hnew
  · simp at hs

omit [Fintype τ] [DecidableEq τ] in
theorem semOk_setObj_initSem (h : s.SemOk) (o : ι) (c : UInt32) :
    (s.setObj o (initSem c)).SemOk := by
  intro o' c' hc'
  rw [Sys.setObj_obj] at hc' ⊢
  rcases eq_or_ne o' o with rfl | ho
  · rw [update_self] at hc' ⊢
    obtain rfl := Body.semaphore.inj hc'
    simp [initSem]
  · rw [update_of_ne ho] at hc' ⊢
    exact h o' c' hc'

theorem draws_raiseSem {c c' : UInt32} (h : s.SemOk) (hc : (s.obj o).body = .semaphore c)
    (hok : c = 0 ∨ c' ≠ 0) : Draws (s.setObj o (initSem c')) (s.raiseSem o c') := by
  have hset := semOk_setObj_initSem h o c'
  rw [Sys.raiseSem]
  split
  · next hpos =>
    have hinit : (initSem c' : Obj τ) = ⟨true, .semaphore c'⟩ := by simp [initSem, hpos]
    rw [← hinit]
    exact draws_releaseWith_grantSem hset (by simp [initSem]) hpos
  · next hpos =>
    obtain rfl : c' = 0 := by
      by_contra h0
      exact hpos ((pos_iff_ne_zero c').mpr h0)
    obtain rfl : c = 0 := hok.resolve_right fun h0 => h0 rfl
    have hflag : (s.obj o).signaled = false := by
      rw [Bool.eq_false_iff]
      intro hsig
      exact absurd ((h o 0 hc).mp hsig) (by decide)
    rw [hflag]
    exact Draws.refl hset

theorem not_semOk_raiseSem {c : UInt32} (h : s.SemOk) (hc : (s.obj o).body = .semaphore c)
    (hpos : c ≠ 0) : ¬ (s.raiseSem o 0).SemOk := by
  intro hok
  have hbody : ((s.raiseSem o 0).obj o).body = .semaphore 0 := by
    simp [Sys.raiseSem]
  have hsig : ((s.raiseSem o 0).obj o).signaled = true := by
    have := (h o c hc).mpr ((pos_iff_ne_zero c).mpr hpos)
    simpa [Sys.raiseSem] using this
  exact absurd ((hok o 0 hbody).mp hsig) (by decide)

variable {l : Label τ ι}

theorem draws_step (h : s.SemOk) (hs : s.step l = some s')
    (hl : match l with | .call (.releaseSem _ _) | .call (.setSem _ _) => False | _ => True) :
    Draws s s' := by
  cases l with
  | call op =>
    have hcall := step_call hs
    cases op with
    | waitOne o timeout alertable =>
      rw [Sys.call] at hcall
      split at hcall
      · obtain rfl := Option.some.inj hcall
        exact draws_waitForOneObject h
      · simp at hcall
    | waitAny objs timeout alertable =>
      rw [Sys.call] at hcall
      split at hcall
      · exact draws_waitForAnyObject h hcall
      · simp at hcall
    | waitAll objs timeout alertable =>
      rw [Sys.call] at hcall
      split at hcall
      · exact draws_waitForAllObjects h hcall
      · simp at hcall
    | setEvent e => exact draws_setEvent h hcall
    | resetEvent e =>
      rw [Sys.call, Sys.resetEvent] at hcall
      split at hcall
      · next m hb =>
        obtain rfl := Option.some.inj hcall
        exact Draws.plain h (fun c hc => by simp [hb] at hc) (fun c hc => by simp at hc) rfl
          fun _ _ => rfl
      · simp at hcall
    | releaseSem | setSem => exact hl.elim
    | releaseMutex m =>
      rw [Sys.call] at hcall
      split at hcall
      · obtain ⟨r, hr, rfl⟩ := Option.map_eq_some_iff.mp hcall
        exact draws_releaseMutex h hr
      · simp at hcall
  | preempt =>
    obtain ⟨-, rfl⟩ := step_preempt hs
    exact Draws.same h rfl rfl
  | dispatch t =>
    obtain ⟨-, rfl⟩ := step_dispatch hs
    exact Draws.same h dispatch_same.1 dispatch_same.2
  | start t =>
    obtain ⟨-, rfl⟩ := step_start hs
    exact Draws.same h rfl rfl
  | expire t =>
    rw [Sys.step] at hs
    split at hs
    · simp at hs
    split at hs
    · obtain rfl := Option.some.inj hs
      exact draws_expire h t
    · simp at hs
  | interrupt t =>
    obtain rfl := step_interrupt hs
    exact Draws.same h rfl rfl
  | signal t v =>
    obtain rfl := step_signal hs
    exact Draws.same h rfl rfl

theorem exact_raiseSem {c n : UInt32} (h : s.SemOk) (hc : (s.obj o).body = .semaphore c)
    (hgrants : ∀ o', s₁.grants o' = s.grants o') (hobj : s₁.obj = s.obj) :
    ((s₁.raiseSem o n).SemOk ↔ c = 0 ∨ n ≠ 0) ∧ (c = 0 ∨ n ≠ 0 →
      ∀ o' c', (s.obj o').body = .semaphore c' → ∃ c'', ((s₁.raiseSem o n).obj o').body =
        .semaphore c'' ∧ c''.toNat + (s₁.raiseSem o n).grants o' =
          (if o = o' then n else c').toNat + s.grants o') := by
  have h₁ : s₁.SemOk := by
    intro o' c'
    rw [hobj]
    exact h o' c'
  have hc₁ : (s₁.obj o).body = .semaphore c := by
    rw [hobj]
    exact hc
  refine ⟨⟨fun hok => ?_, fun hok => (draws_raiseSem h₁ hc₁ hok).ok⟩, fun hok o' c' hc' => ?_⟩
  · by_contra hnot
    obtain ⟨hpos, hn⟩ := not_or.mp hnot
    obtain rfl := not_not.mp hn
    exact not_semOk_raiseSem h₁ hc₁ hpos hok
  · have hdraws := (draws_raiseSem h₁ hc₁ hok).count o' (if o = o' then n else c')
    have hgrants' : (s₁.setObj o (initSem n)).grants o' = s.grants o' := hgrants o'
    rw [hgrants'] at hdraws
    apply hdraws
    rcases eq_or_ne o o' with rfl | ho
    · simp [initSem]
    · rw [Sys.setObj_obj, update_of_ne ho.symm, if_neg ho, hobj]
      exact hc'

theorem exact_step (h : s.SemOk) (hs : s.step l = some s') :
    (s'.SemOk ↔ s.Counted l) ∧ (s.Counted l → ∀ o c, s.offered l o = some c →
      ∃ c', (s'.obj o).body = .semaphore c' ∧
        c'.toNat + s'.grants o = c.toNat + s.grants o) := by
  -- the operations on a semaphore; the rest keeps every count
  by_cases hsem : ∃ o n, l = .call (.releaseSem o n) ∨ l = .call (.setSem o n)
  · obtain ⟨o, n, rfl | rfl⟩ := hsem
    · have hcall := step_call hs
      rw [Sys.call, Sys.releaseSem] at hcall
      split at hcall
      · next c hc =>
        obtain rfl := Option.some.inj hcall
        have hgrants (o' : ι) : (s.giveBack o n.toNat).grants o' = s.grants o' := by
          simp [Sys.grants, Event.takes]
        obtain ⟨hiff, hcount⟩ := exact_raiseSem h hc hgrants rfl
        have hcond : s.Counted (.call (.releaseSem o n)) ↔ c = 0 ∨ c + n ≠ 0 := by
          simp [Sys.Counted, hc]
        refine ⟨hiff.trans hcond.symm, fun hok o' c' hoff => ?_⟩
        rw [Sys.offered] at hoff
        split at hoff
        · next c₀ hc₀ =>
          obtain ⟨c'', hc'', hsum⟩ := hcount (hcond.mp hok) o' c₀ hc₀
          refine ⟨c'', hc'', ?_⟩
          rw [hsum, ← Option.some.inj hoff]
          split
          · next ho =>
            subst ho
            rw [Body.semaphore.inj (hc.symm.trans hc₀)]
          · rfl
        · simp at hoff
      · simp at hcall
    · have hcall := step_call hs
      rw [Sys.call, Sys.setSem] at hcall
      split at hcall
      · next c hc =>
        obtain rfl := Option.some.inj hcall
        obtain ⟨hiff, hcount⟩ := exact_raiseSem h hc (fun _ => rfl) rfl
        have hcond : s.Counted (.call (.setSem o n)) ↔ c = 0 ∨ n ≠ 0 := by
          simp [Sys.Counted, hc]
        refine ⟨hiff.trans hcond.symm, fun hok o' c' hoff => ?_⟩
        rw [Sys.offered] at hoff
        split at hoff
        · next c₀ hc₀ =>
          obtain ⟨c'', hc'', hsum⟩ := hcount (hcond.mp hok) o' c₀ hc₀
          exact ⟨c'', hc'', by rw [hsum, ← Option.some.inj hoff]⟩
        · simp at hoff
      · simp at hcall
  · push Not at hsem
    have hdraws : Draws s s' := by
      refine draws_step h hs ?_
      split
      · exact (hsem _ _).1 rfl
      · exact (hsem _ _).2 rfl
      · trivial
    have hcond : s.Counted l := by
      unfold Sys.Counted
      split
      · exact absurd rfl (hsem _ _).1
      · exact absurd rfl (hsem _ _).2
      · trivial
    refine ⟨⟨fun _ => hcond, fun _ => hdraws.ok⟩, fun _ o c hoff => ?_⟩
    rw [Sys.offered] at hoff
    split at hoff
    · next c₀ hc₀ =>
      obtain rfl : c₀ = c := by
        split at hoff
        · exact absurd rfl (hsem _ _).1
        · exact absurd rfl (hsem _ _).2
        · exact Option.some.inj hoff
      exact hdraws.count o c₀ hc₀
    · simp at hoff

/-- As long as no `release_sem` wraps a positive count to 0 and no `set_sem` sets one to 0, every semaphore is
signaled if and only if its count is positive, and taking it lowers a positive count by one. -/
theorem semaphores_counted {priority : τ → ℤ} {obj : ι → Obj τ}
    (hobj : ∀ o c, (obj o).body = .semaphore c → obj o = initSem c)
    (hr : Reach Sys.step Sys.Counted (initSys t priority obj) s) :
    s.SemOk ∧ ∀ l s', s.step l = some s' →
      (s'.SemOk ↔ s.Counted l) ∧ (s.Counted l → ∀ o c, s.offered l o = some c →
        ∃ c', (s'.obj o).body = .semaphore c' ∧
          c'.toNat + s'.grants o = c.toNat + s.grants o) := by
  have hok : s.SemOk := by
    refine hr.invariant (fun o c hc => ?_) fun a l b ha hl hstep =>
      (exact_step ha hstep).1.mpr hl
    have hinit : (initSys t priority obj : Sys τ ι).obj o = initSem c := hobj o c hc
    rw [hinit]
    simp [initSem]
  exact ⟨hok, fun l s' hs => exact_step hok hs⟩

/-! One thread and one semaphore. -/

instance : ∀ (s : Sys τ ι) (l : Label τ ι), Decidable (s.Counted l)
  | s, .call (.releaseSem o n) =>
    match h : (s.obj o).body with
    | .semaphore c => decidable_of_iff (c = 0 ∨ c + n ≠ 0) (by simp [Sys.Counted, h])
    | .thread _ | .event _ | .timer | .mutex _ _ | .file | .socket | .filemap =>
      isTrue (by simp [Sys.Counted, h])
  | s, .call (.setSem o n) =>
    match h : (s.obj o).body with
    | .semaphore c => decidable_of_iff (c = 0 ∨ n ≠ 0) (by simp [Sys.Counted, h])
    | .thread _ | .event _ | .timer | .mutex _ _ | .file | .socket | .filemap =>
      isTrue (by simp [Sys.Counted, h])
  | _, .call (.waitOne _ _ _) | _, .call (.waitAny _ _ _) | _, .call (.waitAll _ _ _)
  | _, .call (.setEvent _) | _, .call (.resetEvent _) | _, .call (.releaseMutex _)
  | _, .preempt | _, .dispatch _ | _, .start _ | _, .expire _ | _, .interrupt _
  | _, .signal _ _ => isTrue trivial

def oneSem : Sys Unit Unit := initSys () (fun _ => 8) fun _ => initSem 1

/-- The semaphore is taken and released again. -/
theorem semaphores_counted_again : ∃ s s', Reach Sys.step Sys.Counted oneSem s ∧ s.SemOk ∧
    s.step (.call (.releaseSem () 2)) = some s' ∧ s'.SemOk := by
  have hrun : (runOk Sys.step Sys.Counted oneSem [.call (.waitOne () infinite false)]).map
      (fun s => (decide (s.Counted (.call (.releaseSem () 2))),
        (s.step (.call (.releaseSem () 2))).isSome)) = some (true, true) := by decide
  obtain ⟨s, hs, hboth⟩ := Option.map_eq_some_iff.mp hrun
  obtain ⟨hcond, hstep⟩ := Prod.mk.inj hboth
  obtain ⟨s', hstep⟩ := Option.isSome_iff_exists.mp hstep
  have hr := reach_of_runOk _ hs
  obtain ⟨hok, hnext⟩ := semaphores_counted
    (fun o c hc => by rw [← Body.semaphore.inj hc]) hr
  exact ⟨s, s', hr, hok, hstep, (hnext _ s' hstep).1.mpr (of_decide_eq_true hcond)⟩

/-- An addition that wraps leaves the semaphore signaled with a count of 0, and a wait then lowers
the count from 0 to `2 ^ 32 - 1`. -/
theorem wait_takes_from_zero :
    (¬ ∀ s, Reach Sys.step (fun _ _ => True) oneSem s → s.SemOk) ∧
    (run Sys.step oneSem [.call (.releaseSem () 0xFFFFFFFF)]).map (fun s => (s.obj ()).count) =
      some 0 ∧
    (run Sys.step oneSem [.call (.releaseSem () 0xFFFFFFFF),
      .call (.waitOne () infinite false)]).map (fun s => (s.obj ()).count) = some 0xFFFFFFFF := by
  refine ⟨fun hclaim => ?_, by decide, by decide⟩
  have hrun : (run Sys.step oneSem [.call (.releaseSem () 0xFFFFFFFF)]).map
      (fun s => ((s.obj ()).signaled, (s.obj ()).body)) = some (true, .semaphore 0) := by decide
  obtain ⟨s, hs, hboth⟩ := Option.map_eq_some_iff.mp hrun
  obtain ⟨hsig, hbody⟩ := Prod.mk.inj hboth
  exact absurd ((hclaim s (reach_of_run _ hs) () 0 hbody).mp hsig) (by decide)

end SimpleKernel.Object
