import SimpleKernel.Lib.Ring
import SimpleKernel.Object.Semaphores

/-! The message queues of `krnl/queue.c`: a circular buffer between two semaphores. A thread that waits for a
semaphore keeps its call until it runs again, perhaps long after the semaphore was granted; between two waits the
calls are not interrupted. -/
namespace SimpleKernel.Object
open LinkedList Sched Transition
open Function (update update_eq_self update_of_ne update_self)

/-! Threads that wait for one semaphore each, without a timeout. -/
section Permits
variable {τ ι : Type} [DecidableEq τ] [DecidableEq ι] {s s' : Sys τ ι} {q : Queues τ ι} {t : τ}
  {o o' : ι}

/-- The wait of `wait_for_object(o, INFINITE)`. -/
def single (o : ι) : Wait ι := ⟨[o], .any, false, false⟩

/-- The thread was granted the object of its wait and has not run since. -/
def Sys.Granted (s : Sys τ ι) (o : ι) (t : τ) : Prop := s.pc t = some (single o) ∧ s.waitlist t = []

/-- Nobody waits for more than one object; a wait that is over succeeds. -/
structure Simple (s : Sys τ ι) : Prop where
  waits : ∀ t w, s.pc t = some w → ∃ o, w = single o
  key : ∀ t o, s.Granted o t → s.waitkey t = 0

section
omit [DecidableEq τ] [DecidableEq ι]

theorem Blocked.waitlist_eq {late : Prop} (h : Blocked s late t (single o)) :
    s.waitlist t = [⟨.obj o, .any, 0⟩] := h.chain

theorem Simple.blocked {late : Prop} {w : Wait ι} (h : Simple s) (hw : Blocked s late t w) {n : ℕ}
    (hb : BlockAt (s.waitlist t) 0 (.obj o) n) : w = single o := by
  obtain ⟨o', rfl⟩ := h.waits t w hw.pc
  rw [hw.waitlist_eq] at hb
  obtain ⟨wb, hwb, ho⟩ := (blockAt_zero _ _ _).mp hb
  obtain rfl := List.mem_singleton.mp (List.mem_of_getElem? hwb)
  rw [ObjId.obj.inj ho]

theorem Blocked.ready {late : Prop} (h : Blocked s late t (single o))
    (hs : (s.obj o).signaled = true) :
    s.threadReadyToRun t = true ∧ s.scanWaitkey t = 0 := by
  rw [Sys.threadReadyToRun, Sys.scanWaitkey, h.waitlist_eq]
  simp [Sys.signaled, hs]

end

variable [Fintype τ]

open Classical in
/-- The permits of `o`: its count, and those of the threads that have not run since they were
granted one. -/
noncomputable def Sys.permits (s : Sys τ ι) (o : ι) : ℕ :=
  (s.obj o).count.toNat + (Finset.univ.filter (s.Granted o)).card

omit [DecidableEq τ] [DecidableEq ι] in
theorem permits_congr (hobj : (s'.obj o).count = (s.obj o).count)
    (hpc : ∀ t, s'.Granted o t ↔ s.Granted o t) : s'.permits o = s.permits o := by
  classical
  rw [Sys.permits, Sys.permits, hobj]
  simp only [hpc]

omit [DecidableEq ι] in
theorem permits_grant (hcount : (s'.obj o).count.toNat + 1 = (s.obj o).count.toNat)
    (ht : ¬ s.Granted o t) (hpc : ∀ u, s'.Granted o u ↔ u = t ∨ s.Granted o u) :
    s'.permits o = s.permits o := by
  classical
  have hset : Finset.univ.filter (s'.Granted o) = insert t (Finset.univ.filter (s.Granted o)) := by
    ext u
    simp [hpc]
  rw [Sys.permits, Sys.permits, hset, Finset.card_insert_of_notMem (by simpa using ht)]
  omega

omit [DecidableEq ι] in
theorem permits_use (hcount : (s'.obj o).count = (s.obj o).count) (ht : s.Granted o t)
    (hpc : ∀ u, s'.Granted o u ↔ u ≠ t ∧ s.Granted o u) :
    s'.permits o + 1 = s.permits o := by
  classical
  have hset : Finset.univ.filter (s.Granted o) = insert t (Finset.univ.filter (s'.Granted o)) := by
    ext u
    simp only [Finset.mem_filter, Finset.mem_univ, true_and, Finset.mem_insert, hpc]
    by_cases hu : u = t
    · simp [hu, ht]
    · simp [hu]
  have hnot : t ∉ Finset.univ.filter (s'.Granted o) := by simp [hpc]
  rw [Sys.permits, Sys.permits, hset, hcount, Finset.card_insert_of_notMem hnot]
  omega

omit [DecidableEq τ] [DecidableEq ι] [Fintype τ] in
theorem single_inj (h : single o = single o') : o = o' := by
  simpa [single] using h

omit [Fintype τ] in
theorem grantSem_same (s : Sys τ ι) (o : ι) (t : τ) : (s.grantSem o t).1.pc = s.pc ∧
    (s.grantSem o t).1.waitlist = update s.waitlist t [] ∧
    (s.grantSem o t).1.waitkey = s.waitkey ∧
    (s.grantSem o t).1.obj = update s.obj o ((s.grantSem o t).1.obj o) ∧
    ((s.grantSem o t).1.obj o).count = (s.obj o).count - 1 := by
  have hset := releaseThread_setObj s t o
  have hpc : (s.releaseThread t).pc = s.pc := by rw [Sys.releaseThread, cancelWait_eq]
  have hkey : (s.releaseThread t).waitkey = s.waitkey := by rw [Sys.releaseThread, cancelWait_eq]
  rw [Sys.grantSem]
  split
  · refine ⟨hpc, rfl, hkey, ?_, ?_⟩
    · rw [hset, update_self]
    · rw [hset, update_self]
      rfl
  · refine ⟨hpc, rfl, hkey, ?_, ?_⟩
    · rw [hset, update_self]
    · rw [hset, update_self]
      rfl

/-- The state of a system in which threads wait for one semaphore each. -/
structure Tidy (s : Sys τ ι) : Prop extends Simple s where
  sound : ∃ q, Sound s q True
  semOk : s.SemOk
  sems : ∀ o, ∃ c, (s.obj o).body = .semaphore c

/-- The invariant of the walk of `release_sem` that started in `s₀`. -/
structure Granting (s₀ : Sys τ ι) (s : Sys τ ι) : Prop extends Simple s where
  draws : Draws s₀ s
  permits : ∀ o', s.permits o' = s₀.permits o'
  pc : s.pc = s₀.pc

theorem Granting.grant {s₀ : Sys τ ι} {wb : Wb τ} {l : List (Wb τ)} {c : UInt32}
    (h : Granting s₀ s) (hw : Walking (.obj o) True s (wb :: l))
    (hc : (s.obj o).body = .semaphore c) (hpos : 0 < c) :
    s.threadReadyToRun wb.1 = true ∧ Granting s₀ (Sys.grantSem o (s.scanned wb.1) wb.1).1 ∧
      ((Sys.grantSem o (s.scanned wb.1) wb.1).2 = true → ∃ c',
        ((Sys.grantSem o (s.scanned wb.1) wb.1).1.obj o).body = .semaphore c' ∧ 0 < c') := by
  obtain ⟨hblock, hne, w, hb⟩ := hw.waits
  obtain rfl := h.toSimple.blocked hb hblock
  obtain ⟨hready, hkey⟩ := hb.ready ((h.draws.ok o c hc).mpr hpos)
  have hscan : Draws s (s.scanned wb.1) := Draws.same h.draws.ok rfl rfl
  obtain ⟨hdraws, hnext⟩ := draws_grantSem hscan.ok hc hpos
  obtain ⟨hpc, hwl, hwk, hobj, hcount⟩ := grantSem_same (s.scanned wb.1) o wb.1
  set s' := (Sys.grantSem o (s.scanned wb.1) wb.1).1
  have hgranted (o' : ι) (u : τ) (hu : u ≠ wb.1) : s'.Granted o' u ↔ s.Granted o' u := by
    rw [Sys.Granted, hpc, hwl, update_of_ne hu]
    rfl
  have hself (o' : ι) : s'.Granted o' wb.1 ↔ o' = o := by
    rw [Sys.Granted, hpc, hwl, update_self]
    constructor
    · rintro ⟨he, -⟩
      exact single_inj (Option.some.inj (he.symm.trans hb.pc))
    · rintro rfl
      exact ⟨hb.pc, rfl⟩
  have hnot (o' : ι) : ¬ s.Granted o' wb.1 := fun hg => hne hg.2
  refine ⟨hready, ⟨⟨fun t w ht => ?_, fun t o' ht => ?_⟩, ?_, fun o' => ?_, ?_⟩, hnext⟩
  · rw [hpc] at ht
    exact h.waits t w ht
  · rw [hwk]
    rcases eq_or_ne t wb.1 with rfl | hne'
    · rw [Sys.setWaitkey_waitkey, update_self]
      exact hkey
    · rw [Sys.setWaitkey_waitkey, update_of_ne hne']
      exact h.key t o' ((hgranted o' t hne').mp ht)
  · exact h.draws.trans (hscan.trans hdraws)
  · rw [← h.permits o']
    rcases eq_or_ne o' o with rfl | ho
    · refine permits_grant ?_ (hnot o') fun u => ?_
      · have hcs : (s.obj o').count = c := by rw [Obj.count, hc]
        rw [hcount]
        simp only [Sys.setWaitkey_obj, hcs]
        exact toNat_pred_of_pos hpos
      · rcases eq_or_ne u wb.1 with rfl | hu
        · simp [hself]
        · simp [hgranted o' u hu, hu]
    · refine permits_congr ?_ fun u => ?_
      · rw [hobj, update_of_ne ho]
        rfl
      · rcases eq_or_ne u wb.1 with rfl | hu
        · simp [hself, ho, hnot]
        · exact hgranted o' u hu
  · rw [hpc]
    exact h.pc

theorem Simple.releaseWith {c : UInt32} (h : Simple s) (hq : Sound s q True) (hok : s.SemOk)
    (hc : (s.obj o).body = .semaphore c) (hpos : 0 < c) :
    (∃ q', Sound (s.releaseWith (.obj o) (Sys.grantSem o)) q' True) ∧
      Granting s (s.releaseWith (.obj o) (Sys.grantSem o)) := by
  have hhead : (s.waiters (.obj o)).head = (q (.obj o)).head? := (hq.family.lists (.obj o)).head
  rw [Sys.releaseWith, hhead]
  refine releaseLoop_rule
    (P := fun s₁ l => Walking (.obj o) True s₁ l ∧ Granting s s₁ ∧
      ∃ c', (s₁.obj o).body = .semaphore c' ∧ 0 < c')
    (Q := fun s₁ => (∃ q', Sound s₁ q' True) ∧ Granting s s₁)
    (fun _ _ _ hw => hw.1.next) ?_ ?_ ?_ ?_ hq.toLinked.length_le_fuel
    ⟨⟨q, [], hq, rfl⟩, ⟨h, Draws.refl hok, fun _ => rfl, rfl⟩, c, hc, hpos⟩
  · rintro s₁ wb l ⟨hw, hg, c', hc', hp⟩ hready
    rw [(hg.grant hw hc' hp).1] at hready
    simp at hready
  · rintro s₁ wb l ⟨hw, hg, c', hc', hp⟩ - hgo
    obtain ⟨-, hg', hnext⟩ := hg.grant hw hc' hp
    exact ⟨hw.granted (grants_grantSem o), hg', hnext hgo⟩
  · rintro s₁ wb l ⟨hw, hg, c', hc', hp⟩ - -
    obtain ⟨q', xs, hs', -⟩ := hw.granted (grants_grantSem o)
    exact ⟨⟨q', hs'⟩, (hg.grant hw hc' hp).2.1⟩
  · rintro s₁ ⟨⟨q', xs, hs', -⟩, hg, -⟩
    exact ⟨⟨q', hs'⟩, hg⟩

omit [DecidableEq τ] in
theorem permits_setObj {c c' : UInt32} (hc : (s.obj o).body = .semaphore c) {n : ℕ}
    (hn : c'.toNat = c.toNat + n) (sig : Bool) :
    (s.setObj o ⟨sig, .semaphore c'⟩).permits o' = s.permits o' + if o' = o then n else 0 := by
  rcases eq_or_ne o' o with rfl | ho
  · have hcs : (s.obj o').count = c := by rw [Obj.count, hc]
    have hcs' : ((s.setObj o' ⟨sig, .semaphore c'⟩).obj o').count = c' := by
      simp [Obj.count]
    have hset : (s.setObj o' ⟨sig, .semaphore c'⟩).Granted o' = s.Granted o' := rfl
    rw [Sys.permits, Sys.permits, hcs, hcs', hset, hn, if_pos rfl]
    omega
  · rw [if_neg ho, Nat.add_zero]
    refine permits_congr ?_ fun u => Iff.rfl
    simp [update_of_ne ho]

theorem Tidy.releaseSem {c n : UInt32} (h : Tidy s) (hc : (s.obj o).body = .semaphore c)
    (hn : c.toNat + n.toNat < 2 ^ 32) (hpos : 0 < n) (hs : s.releaseSem o n = some s') :
    Tidy s' ∧ s'.pc = s.pc ∧
      ∀ o', s'.permits o' = s.permits o' + if o' = o then n.toNat else 0 := by
  have hsum : (c + n).toNat = c.toNat + n.toNat := by
    rw [UInt32.toNat_add, Nat.mod_eq_of_lt hn]
  have hpos' : 0 < c + n := by
    rw [UInt32.lt_iff_toNat_lt] at hpos ⊢
    rw [hsum]
    exact Nat.lt_add_left _ hpos
  rw [Sys.releaseSem, hc] at hs
  obtain rfl := Option.some.inj hs
  rw [Sys.raiseSem, if_pos hpos']
  set s₀ := (s.giveBack o n.toNat).setObj o ⟨true, .semaphore (c + n)⟩ with hs₀
  obtain ⟨q, hq⟩ := h.sound
  have hq₀ : Sound s₀ q True := hq.congr ⟨rfl, rfl, rfl, rfl, rfl, rfl⟩
  have hok₀ : s₀.SemOk := by
    have hinit : s₀ = (s.giveBack o n.toNat).setObj o (initSem (c + n)) := by
      rw [initSem, decide_eq_true hpos']
    rw [hinit]
    exact semOk_setObj_initSem h.semOk o (c + n)
  have hc₀ : (s₀.obj o).body = .semaphore (c + n) := by simp [hs₀]
  have hsimple : Simple s₀ := ⟨h.waits, h.key⟩
  obtain ⟨hsound, hg⟩ := hsimple.releaseWith hq₀ hok₀ hc₀ hpos'
  refine ⟨⟨hg.toSimple, hsound, hg.draws.ok, fun o' => ?_⟩, hg.pc, fun o' => ?_⟩
  · obtain ⟨c₁, hc₁⟩ : ∃ c₁, (s₀.obj o').body = .semaphore c₁ := by
      rcases eq_or_ne o' o with rfl | ho
      · exact ⟨_, hc₀⟩
      · obtain ⟨c₁, hc₁⟩ := h.sems o'
        exact ⟨c₁, by simpa [hs₀, update_of_ne ho] using hc₁⟩
    obtain ⟨c₂, hc₂, -⟩ := hg.draws.count o' c₁ hc₁
    exact ⟨c₂, hc₂⟩
  · rw [hg.permits o']
    exact permits_setObj hc hsum true

omit [Fintype τ] in
theorem Tidy.of_draws (h : Tidy s) (hsimple : Simple s') (hsound : ∃ q, Sound s' q True)
    (hd : Draws s s') : Tidy s' := by
  refine ⟨hsimple, hsound, hd.ok, fun o => ?_⟩
  obtain ⟨c, hc⟩ := h.sems o
  obtain ⟨c', hc', -⟩ := hd.count o c hc
  exact ⟨c', hc'⟩

theorem Tidy.congr (h : Tidy s) (hsound : ∃ q, Sound s' q True) (hobj : s'.obj = s.obj)
    (hlog : s'.hist.log = s.hist.log) (hpc : s'.pc = s.pc) (hwl : s'.waitlist = s.waitlist)
    (hkey : s'.waitkey = s.waitkey) : Tidy s' ∧ ∀ o, s'.permits o = s.permits o := by
  have hgranted (o : ι) (t : τ) : s'.Granted o t ↔ s.Granted o t := by
    rw [Sys.Granted, Sys.Granted, hpc, hwl]
  refine ⟨h.of_draws ⟨fun t w ht => ?_, fun t o ht => ?_⟩ hsound
    (Draws.same h.semOk hobj hlog), fun o => permits_congr (by rw [hobj]) (hgranted o)⟩
  · rw [hpc] at ht
    exact h.waits t w ht
  · rw [hkey]
    exact h.key t o ((hgranted o t).mp ht)

theorem Tidy.wait (h : Tidy s) (hrun : s.threads.state s.cur = .running)
    (hs : s' = s.waitForOneObject o infinite false) :
    Tidy s' ∧ ((s'.pc = s.pc ∧ s'.hist.ret s.cur = 0 ∧
        ∀ o', s'.permits o' + (if o' = o then 1 else 0) = s.permits o') ∨
      (s'.pc = update s.pc s.cur (some (single o)) ∧
        ∀ o', s'.permits o' = s.permits o')) := by
  obtain ⟨q, hq⟩ := h.sound
  have hsound : ∃ q', Sound s' q' True := by
    rw [hs]
    exact hq.waitForOneObject hrun
  have hdraws : Draws s s' := by
    rw [hs]
    exact draws_waitForOneObject h.semOk
  obtain ⟨hpc, -, -⟩ := hq.idle hrun
  obtain ⟨c, hc⟩ := h.sems o
  have hown : s.beginWait.owned o = false := by
    simp [Sys.owned, hc]
  rw [Sys.waitForOneObject] at hs
  by_cases hsig : (s.obj o).signaled = true
  · have hcpos := (h.semOk o c hc).mp hsig
    rw [Sys.beginWait_obj, if_pos hsig] at hs
    have hpc' : s'.pc = s.pc := by
      rw [hs]
      show update s.pc s.cur none = s.pc
      rw [← hpc, update_eq_self]
    have hobj : s'.obj = update s.obj o ((s.obj o).entered s.cur) := by
      rw [hs]
      rfl
    have hkey : s'.waitkey = s.waitkey := by
      rw [hs]
      rfl
    have hgranted (o' : ι) (t : τ) : s'.Granted o' t ↔ s.Granted o' t := by
      rw [Sys.Granted, hpc', hs]
      rfl
    refine ⟨h.of_draws ⟨fun t w ht => ?_, fun t o' ht => ?_⟩ hsound hdraws,
      .inl ⟨hpc', ?_, fun o' => ?_⟩⟩
    · rw [hpc'] at ht
      exact h.waits t w ht
    · rw [hkey]
      exact h.key t o' ((hgranted o' t).mp ht)
    · rw [hs]
      simp [Obj.enterCode, hc]
    · rcases eq_or_ne o' o with rfl | ho
      · have hcs : (s.obj o').count = c := by rw [Obj.count, hc]
        have hcs' : (s'.obj o').count = c - 1 := by
          rw [hobj, update_self, Obj.entered, hc]
          rfl
        have hpred := toNat_pred_of_pos hcpos
        have hset : s'.Granted o' = s.Granted o' := funext fun t => propext (hgranted o' t)
        rw [Sys.permits, Sys.permits, hcs, hcs', hset, if_pos rfl]
        omega
      · rw [if_neg ho]
        refine permits_congr ?_ (hgranted o')
        rw [hobj, update_of_ne ho]
  · have hne : infinite ≠ 0 := by decide
    rw [Sys.beginWait_obj, if_neg hsig, hown] at hs
    have hpc' : s'.pc = update s.pc s.cur (some (single o)) := by
      rw [hs]
      rfl
    have hwl' : s'.waitlist = update s.waitlist s.cur [⟨.obj o, .any, 0⟩] := by
      rw [hs]
      rfl
    have hgranted (o' : ι) (t : τ) : s'.Granted o' t ↔ s.Granted o' t := by
      rw [Sys.Granted, Sys.Granted, hpc', hwl']
      rcases eq_or_ne t s.cur with rfl | ht
      · simp [hpc]
      · simp [update_of_ne ht]
    refine ⟨h.of_draws ⟨fun t w ht => ?_, fun t o' ht => ?_⟩ hsound hdraws,
      .inr ⟨hpc', fun o' => permits_congr ?_ (hgranted o')⟩⟩
    · rw [hpc'] at ht
      rcases eq_or_ne t s.cur with rfl | hne
      · rw [update_self] at ht
        exact ⟨o, (Option.some.inj ht).symm⟩
      · rw [update_of_ne hne] at ht
        exact h.waits t w ht
    · rw [hs]
      exact h.key t o' ((hgranted o' t).mp ht)
    · rw [hs]
      rfl

theorem Tidy.dispatch (h : Tidy s) (hready : s.threads.state t = .ready)
    (hs : s' = s.dispatch t) :
    Tidy s' ∧ ((s.pc t = none ∧ s'.pc = s.pc ∧ ∀ o, s'.permits o = s.permits o) ∨
      ∃ o, s.pc t = some (single o) ∧ s'.pc = update s.pc t none ∧
        s'.hist.ret t = 0 ∧ ∀ o', s'.permits o' + (if o' = o then 1 else 0) = s.permits o') := by
  obtain ⟨q, hq⟩ := h.sound
  have hsound : ∃ q', Sound s' q' True := by
    rw [hs]
    exact hq.dispatch hready
  have hdraws : Draws s s' := by
    rw [hs]
    exact Draws.same h.semOk dispatch_same.1 dispatch_same.2
  rw [Sys.dispatch] at hs
  cases hpc : s.pc t with
  | none =>
    rw [hpc] at hs
    subst hs
    obtain ⟨htidy, hperm⟩ := h.congr hsound rfl rfl rfl rfl rfl
    exact ⟨htidy, .inl ⟨rfl, rfl, hperm⟩⟩
  | some w =>
    obtain ⟨o, rfl⟩ := h.waits t w hpc
    -- the thread is ready, so its wait blocks are gone
    have hnil : s.waitlist t = [] := by
      by_contra hne
      obtain ⟨w, hw, halert, -⟩ := hq.wasInterrupted hready hne
      obtain rfl := Option.some.inj (hpc.symm.trans hw)
      simp [single] at halert
    have hgr : s.Granted o t := ⟨hpc, hnil⟩
    rw [hpc] at hs
    have hpc' : s'.pc = update s.pc t none := by
      rw [hs]
      rfl
    have hself (o' : ι) : ¬ s'.Granted o' t := by
      rw [Sys.Granted, hpc']
      simp
    have hgranted (o' : ι) (u : τ) (hu : u ≠ t) : s'.Granted o' u ↔ s.Granted o' u := by
      rw [Sys.Granted, hpc', update_of_ne hu, hs]
      rfl
    have hobj : s'.obj = s.obj := by
      rw [hs]
      rfl
    refine ⟨h.of_draws ⟨fun u w hu => ?_, fun u o' hu => ?_⟩ hsound hdraws,
      .inr ⟨o, rfl, hpc', ?_, fun o' => ?_⟩⟩
    · rcases eq_or_ne u t with rfl | hne
      · simp [hpc'] at hu
      · rw [hpc', update_of_ne hne] at hu
        exact h.waits u w hu
    · rcases eq_or_ne u t with rfl | hne
      · exact absurd hu (hself o')
      · have hkey : s'.waitkey = s.waitkey := by
          rw [hs]
          rfl
        rw [hkey]
        exact h.key u o' ((hgranted o' u hne).mp hu)
    · have hret : s'.hist.ret t = s.waitkey t := by
        rw [hs]
        show update s.hist.ret t (s.waitkey t) t = _
        rw [update_self]
      rw [hret]
      exact h.key t o hgr
    · rcases eq_or_ne o' o with rfl | ho
      · rw [if_pos rfl]
        refine permits_use (by rw [hobj]) hgr fun u => ?_
        rcases eq_or_ne u t with rfl | hu
        · simp [hself]
        · simp [hgranted o' u hu, hu]
      · rw [if_neg ho]
        refine permits_congr (by rw [hobj]) fun u => ?_
        rcases eq_or_ne u t with rfl | hu
        · have hnot : ¬ s.Granted o' u := fun hg =>
            ho (single_inj (Option.some.inj (hg.1.symm.trans hpc)))
          simp [hself, hnot]
        · exact hgranted o' u hu

end Permits

/-! The queue. -/

/-- The semaphores of `struct queue`. -/
inductive QueueSem where
  | notempty | notfull
  deriving DecidableEq

/-- A call of `enqueue` or `dequeue` with the timeout `INFINITE`. -/
inductive QueueCall (μ : Type) where
  | enqueue (msg : μ)
  | dequeue

/-- The semaphore that a call waits for. -/
def QueueCall.sem {μ : Type} : QueueCall μ → QueueSem
  | .enqueue _ => .notfull
  | .dequeue => .notempty

/-- A queue and its threads. `call t` is the call of `t` that has blocked; `enqueued` and `dequeued` are the
messages that went in and out, `refused` counts the calls that returned an error. -/
structure MsgQueue (τ μ : Type) where
  sys : Sys τ QueueSem
  size : ℕ
  inIdx : ℕ
  outIdx : ℕ
  elems : ℕ → μ
  call : τ → Option (QueueCall μ)
  enqueued : List μ
  dequeued : List μ
  refused : ℕ

namespace MsgQueue
variable {τ μ : Type} [DecidableEq τ] [Fintype τ]

/-- `release_sem(&q->o, 1)`. -/
def releaseSem (s : MsgQueue τ μ) (o : QueueSem) : MsgQueue τ μ :=
  { s with sys := (s.sys.releaseSem o 1).getD s.sys }

/-- The rest of `enqueue` and `dequeue` once the wait of `t` has returned. -/
def proceed (s : MsgQueue τ μ) (t : τ) (c : QueueCall μ) : MsgQueue τ μ :=
  if s.sys.hist.ret t < 0 then { s with refused := s.refused + 1 }
  else
    match c with
    | .enqueue msg =>
      { s with
        elems := update s.elems s.inIdx msg
        inIdx := Ring.next s.size s.inIdx
        enqueued := s.enqueued ++ [msg] }.releaseSem .notempty
    | .dequeue =>
      { s with
        outIdx := Ring.next s.size s.outIdx
        dequeued := s.dequeued ++ [s.elems s.outIdx] }.releaseSem .notfull

/-- The running thread calls `enqueue` or `dequeue`: it waits, or goes on at once. -/
def begin (s : MsgQueue τ μ) (c : QueueCall μ) : MsgQueue τ μ :=
  let s' := { s with sys := s.sys.waitForOneObject c.sem infinite false }
  match s'.sys.pc s.sys.cur with
  | none => s'.proceed s.sys.cur c
  | some _ => { s' with call := update s.call s.sys.cur (some c) }

/-- The call of `t` goes on when the thread runs again. -/
def resume (s : MsgQueue τ μ) (t : τ) : MsgQueue τ μ :=
  match s.call t with
  | none => s
  | some c => { s with call := update s.call t none }.proceed t c

end MsgQueue

/-- Steps of the threads that use the queue. -/
inductive QueueLabel (τ μ : Type) where
  | call (c : QueueCall μ)
  | preempt
  | dispatch (t : τ)
  | start (t : τ)
  | interrupt (t : τ)
  | signal (t : τ) (v : Bool)

namespace MsgQueue
variable {τ μ : Type} [DecidableEq τ] [Fintype τ]

def step (s : MsgQueue τ μ) : QueueLabel τ μ → Option (MsgQueue τ μ)
  | .call c => if ¬ s.sys.threads.panicked ∧ s.sys.active then some (s.begin c) else none
  | .preempt => (s.sys.step .preempt).map fun sys => { s with sys := sys }
  | .dispatch t => (s.sys.step (.dispatch t)).map fun sys => { s with sys := sys }.resume t
  | .start t => (s.sys.step (.start t)).map fun sys => { s with sys := sys }
  | .interrupt t => (s.sys.step (.interrupt t)).map fun sys => { s with sys := sys }
  | .signal t v => (s.sys.step (.signal t v)).map fun sys => { s with sys := sys }

/-- A queue as `alloc_queue` leaves it; `elems` is what its memory holds. -/
def allocQueue (t : τ) (priority : τ → ℤ) (size : ℕ) (elems : ℕ → μ) : MsgQueue τ μ where
  sys := initSys t priority fun
    | .notempty => initSem 0
    | .notfull => initSem (UInt32.ofNat size)
  size := size
  inIdx := 0
  outIdx := 0
  elems := elems
  call := fun _ => none
  enqueued := []
  dequeued := []
  refused := 0

variable {s s' : MsgQueue τ μ} {held : QueueSem → ℕ} {stored : List μ} {t : τ} {c : QueueCall μ}
  {o : QueueSem}

/-- The messages `stored` are in the buffer. The running thread holds the permits `held`; with
those of the semaphores there is one for each message and one for each free slot. -/
structure Inv (s : MsgQueue τ μ) (held : QueueSem → ℕ) (stored : List μ) : Prop where
  tidy : Tidy s.sys
  calls : ∀ t, s.sys.pc t = (s.call t).map fun c => single c.sem
  full : s.sys.permits .notfull + held .notfull + stored.length = s.size
  empty : s.sys.permits .notempty + held .notempty = stored.length
  ring : Ring.IsRing s.elems s.size s.outIdx stored
  inIdx : s.inIdx = (s.outIdx + stored.length) % s.size
  order : s.enqueued = s.dequeued ++ stored
  refused : s.refused = 0
  small : s.size < 2 ^ 32

/-- One permit of `o`. -/
abbrev one (o : QueueSem) : QueueSem → ℕ := fun o' => if o' = o then 1 else 0

/-- No permit. -/
abbrev zero : QueueSem → ℕ := fun _ => 0

theorem Inv.releaseSem (h : Inv s (one o) stored) : Inv (s.releaseSem o) zero stored := by
  obtain ⟨c, hc⟩ := h.tidy.sems o
  have hcount : (s.sys.obj o).count = c := by rw [Obj.count, hc]
  have hle : c.toNat ≤ s.sys.permits o := by
    rw [Sys.permits, hcount]
    exact Nat.le_add_right _ _
  have hfull := h.full
  have hempty := h.empty
  have hone : (1 : UInt32).toNat = 1 := rfl
  have hlt : c.toNat + (1 : UInt32).toNat < 2 ^ 32 := by
    have := h.small
    cases o <;> simp [one] at hfull hempty <;> omega
  obtain ⟨sys, hsys⟩ : ∃ sys, s.sys.releaseSem o 1 = some sys := by
    rw [Sys.releaseSem, hc]
    exact ⟨_, rfl⟩
  obtain ⟨htidy, hpc, hperm⟩ := h.tidy.releaseSem hc hlt (by decide) hsys
  have hrel : s.releaseSem o = { s with sys := sys } := by
    rw [MsgQueue.releaseSem, hsys, Option.getD_some]
  rw [hrel]
  refine ⟨htidy, fun t => ?_, ?_, ?_, h.ring, h.inIdx, h.order, h.refused, h.small⟩
  · rw [hpc]
    exact h.calls t
  · rw [hperm]
    cases o <;> simp [one] at hfull ⊢ <;> omega
  · rw [hperm]
    cases o <;> simp [one] at hempty ⊢ <;> omega

theorem Inv.proceed (h : Inv s (one c.sem) stored) (hret : s.sys.hist.ret t = 0) :
    ∃ stored', Inv (s.proceed t c) zero stored' := by
  have hnot : ¬ s.sys.hist.ret t < 0 := by omega
  unfold MsgQueue.proceed
  rw [if_neg hnot]
  cases c with
  | enqueue msg =>
    have hfull : s.sys.permits .notfull + 1 + stored.length = s.size := h.full
    have hempty : s.sys.permits .notempty + 0 = stored.length := h.empty
    have hlen : (stored ++ [msg]).length = stored.length + 1 := by simp
    refine ⟨stored ++ [msg], Inv.releaseSem ⟨h.tidy, h.calls, ?_, ?_, ?_, ?_, ?_, h.refused,
      h.small⟩⟩
    · show s.sys.permits .notfull + 0 + (stored ++ [msg]).length = s.size
      omega
    · show s.sys.permits .notempty + 1 = (stored ++ [msg]).length
      omega
    · rw [h.inIdx]
      exact h.ring.push (by omega) msg
    · rw [h.inIdx]
      exact Ring.next_push h.ring
    · rw [h.order, List.append_assoc]
  | dequeue =>
    have hfull : s.sys.permits .notfull + 0 + stored.length = s.size := h.full
    have hempty : s.sys.permits .notempty + 1 = stored.length := h.empty
    cases stored with
    | nil => simp at hempty
    | cons x rest =>
      have hlen : (x :: rest).length = rest.length + 1 := List.length_cons
      refine ⟨rest, Inv.releaseSem ⟨h.tidy, h.calls, ?_, ?_, h.ring.pop, ?_, ?_, h.refused,
        h.small⟩⟩
      · show s.sys.permits .notfull + 1 + rest.length = s.size
        omega
      · show s.sys.permits .notempty + 0 = rest.length
        omega
      · rw [h.inIdx]
        exact (Ring.next_pop h.ring).symm
      · rw [h.order, h.ring.head, List.append_assoc]
        rfl

theorem Inv.withSys {sys : Sys τ QueueSem} (h : Inv s zero stored)
    (call : τ → Option (QueueCall μ)) (held : QueueSem → ℕ) (htidy : Tidy sys)
    (hcalls : ∀ t, sys.pc t = (call t).map fun c => single c.sem)
    (hperm : ∀ o, sys.permits o + held o = s.sys.permits o) :
    Inv { s with sys := sys, call := call } held stored := by
  have hfull := h.full
  have hempty := h.empty
  refine ⟨htidy, hcalls, ?_, ?_, h.ring, h.inIdx, h.order, h.refused, h.small⟩
  · rw [hperm]
    exact hfull
  · rw [hperm]
    exact hempty

theorem Inv.calls_update {x : Option (QueueCall μ)} (h : Inv s held stored) (t u : τ) :
    update s.sys.pc t (x.map fun c => single c.sem) u =
      (update s.call t x u).map fun c => single c.sem := by
  rcases eq_or_ne u t with rfl | hu
  · rw [update_self, update_self]
  · rw [update_of_ne hu, update_of_ne hu]
    exact h.calls u

theorem Inv.begin (h : Inv s zero stored) (hrun : s.sys.threads.state s.sys.cur = .running) :
    ∃ stored', Inv (s.begin c) zero stored' := by
  obtain ⟨htidy, hcase⟩ := h.tidy.wait hrun rfl
  obtain ⟨q, hq⟩ := h.tidy.sound
  obtain ⟨hidle, -, -⟩ := hq.idle hrun
  rw [MsgQueue.begin]
  rcases hcase with ⟨hpc, hret, hperm⟩ | ⟨hpc, hperm⟩
  · have hinv := h.withSys s.call (one c.sem) htidy (fun t => by rw [hpc]; exact h.calls t) hperm
    rw [hpc, hidle]
    exact hinv.proceed hret
  · have hinv := h.withSys (update s.call s.sys.cur (some c)) zero htidy
      (fun t => by rw [hpc]; exact h.calls_update (x := some c) s.sys.cur t) hperm
    rw [hpc, update_self]
    exact ⟨stored, hinv⟩

theorem Inv.dispatch (h : Inv s zero stored) (hready : s.sys.threads.state t = .ready) :
    ∃ stored', Inv ({ s with sys := s.sys.dispatch t }.resume t) zero stored' := by
  obtain ⟨htidy, hcase⟩ := h.tidy.dispatch hready rfl
  have hcall := h.calls t
  rw [MsgQueue.resume]
  rcases hcase with ⟨hnone, hpc, hperm⟩ | ⟨o, hsome, hpc, hret, hperm⟩
  · rw [hnone] at hcall
    have hcall' : s.call t = none := Option.map_eq_none_iff.mp hcall.symm
    simp only [hcall']
    exact ⟨stored, h.withSys s.call zero htidy (fun u => by rw [hpc]; exact h.calls u) hperm⟩
  · rw [hsome] at hcall
    obtain ⟨c, hc, hsem⟩ := Option.map_eq_some_iff.mp hcall.symm
    obtain rfl := single_inj hsem
    simp only [hc]
    have hinv := h.withSys (update s.call t none) (one c.sem) htidy
      (fun u => by rw [hpc]; exact h.calls_update (x := none) t u) hperm
    exact hinv.proceed hret

theorem Inv.congr {sys : Sys τ QueueSem} (h : Inv s zero stored) (hsound : ∃ q, Sound sys q True)
    (hobj : sys.obj = s.sys.obj) (hlog : sys.hist.log = s.sys.hist.log) (hpc : sys.pc = s.sys.pc)
    (hwl : sys.waitlist = s.sys.waitlist) (hkey : sys.waitkey = s.sys.waitkey) :
    Inv { s with sys := sys } zero stored := by
  obtain ⟨htidy, hperm⟩ := h.tidy.congr hsound hobj hlog hpc hwl hkey
  exact h.withSys s.call zero htidy (fun t => by rw [hpc]; exact h.calls t) hperm

theorem Inv.step {l : QueueLabel τ μ} (h : Inv s zero stored) (hs : s.step l = some s') :
    ∃ stored', Inv s' zero stored' := by
  obtain ⟨q, hq⟩ := h.tidy.sound
  cases l with
  | call c =>
    rw [MsgQueue.step] at hs
    split at hs
    · next hrun =>
      obtain rfl := Option.some.inj hs
      exact h.begin (of_decide_eq_true hrun.2)
    · simp at hs
  | preempt =>
    obtain ⟨sys, hsys, rfl⟩ := Option.map_eq_some_iff.mp hs
    obtain ⟨hrun, rfl⟩ := step_preempt hsys
    exact ⟨stored, h.congr ⟨q, hq.preempt hrun⟩ rfl rfl rfl rfl rfl⟩
  | dispatch t =>
    obtain ⟨sys, hsys, rfl⟩ := Option.map_eq_some_iff.mp hs
    obtain ⟨hready, rfl⟩ := step_dispatch hsys
    exact h.dispatch hready
  | start t =>
    obtain ⟨sys, hsys, rfl⟩ := Option.map_eq_some_iff.mp hs
    obtain ⟨hinit, rfl⟩ := step_start hsys
    exact ⟨stored, h.congr ⟨q, hq.start hinit⟩ rfl rfl rfl rfl rfl⟩
  | interrupt t =>
    obtain ⟨sys, hsys, rfl⟩ := Option.map_eq_some_iff.mp hs
    obtain rfl := step_interrupt hsys
    exact ⟨stored, h.congr ⟨q, hq.interrupt trivial⟩ rfl rfl rfl rfl rfl⟩
  | signal t v =>
    obtain ⟨sys, hsys, rfl⟩ := Option.map_eq_some_iff.mp hs
    obtain rfl := step_signal hsys
    exact ⟨stored, h.congr ⟨q, hq.congr ⟨rfl, rfl, rfl, rfl, rfl, rfl⟩⟩ rfl rfl rfl rfl rfl⟩

theorem proceed_size : (s.proceed t c).size = s.size := by
  unfold MsgQueue.proceed
  split
  · rfl
  · cases c <;> rfl

theorem step_size {l : QueueLabel τ μ} (hs : s.step l = some s') : s'.size = s.size := by
  cases l with
  | call c =>
    rw [MsgQueue.step] at hs
    split at hs
    · obtain rfl := Option.some.inj hs
      rw [MsgQueue.begin]
      split
      · exact proceed_size
      · rfl
    · simp at hs
  | dispatch t =>
    obtain ⟨sys, hsys, rfl⟩ := Option.map_eq_some_iff.mp hs
    rw [MsgQueue.resume]
    split
    · rfl
    · exact proceed_size
  | preempt | start t | interrupt t | signal t v =>
    obtain ⟨sys, hsys, rfl⟩ := Option.map_eq_some_iff.mp hs
    rfl

theorem inv_allocQueue {priority : τ → ℤ} {size : ℕ} {elems : ℕ → μ} (hpos : 0 < size)
    (hsize : size < 2 ^ 32) : Inv (allocQueue t priority size elems) zero [] := by
  have hgranted (o : QueueSem) (u : τ) : ¬ (allocQueue t priority size elems).sys.Granted o u :=
    fun hg => by simp [allocQueue, initSys, Sys.Granted] at hg
  have hperm (o : QueueSem) : (allocQueue t priority size elems).sys.permits o =
      ((allocQueue t priority size elems).sys.obj o).count.toNat := by
    classical
    rw [Sys.permits, Finset.filter_false_of_mem fun u _ => hgranted o u]
    rfl
  have hcount : (UInt32.ofNat size).toNat = size := by
    exact Nat.mod_eq_of_lt hsize
  refine ⟨⟨⟨fun u w hu => ?_, fun u o hu => absurd hu (hgranted o u)⟩, ⟨_, sound_initSys⟩,
    fun o c hc => ?_, fun o => ?_⟩, fun u => rfl, ?_, ?_, Ring.isRing_nil hpos, ?_, rfl, rfl, hsize⟩
  · simp [allocQueue, initSys] at hu
  · cases o <;>
    · obtain rfl := Body.semaphore.inj hc
      simp [allocQueue, initSys, initSem]
  · cases o <;> exact ⟨_, rfl⟩
  · rw [hperm]
    simp [allocQueue, initSys, initSem, Obj.count, hcount]
  · rw [hperm]
    simp [allocQueue, initSys, initSem, Obj.count]
  · simp [allocQueue]

/-- The messages come out of the queue in the order in which they went in, none is lost or comes out twice, no call
fails, and the buffer never holds more messages than slots. -/
theorem queue_in_order {priority : τ → ℤ} {size : ℕ} {elems : ℕ → μ} (hpos : 0 < size)
    (hsize : size < 2 ^ 31)
    (hr : Reach MsgQueue.step (fun _ _ => True) (allocQueue t priority size elems) s) :
    ∃ stored, s.enqueued = s.dequeued ++ stored ∧ stored.length ≤ size ∧
      (∀ i msg, stored[i]? = some msg → s.elems ((s.outIdx + i) % size) = msg) ∧
      s.inIdx < size ∧ s.outIdx < size ∧ s.refused = 0 := by
  have hinv : (∃ stored, Inv s zero stored) ∧ s.size = size := by
    refine hr.invariant (P := fun s => (∃ stored, Inv s zero stored) ∧ s.size = size)
      ⟨⟨[], inv_allocQueue hpos (by omega)⟩, rfl⟩ fun a l b ha _ hl => ?_
    obtain ⟨⟨stored, ha⟩, hsz⟩ := ha
    exact ⟨ha.step hl, (step_size hl).trans hsz⟩
  obtain ⟨⟨stored, h⟩, rfl⟩ := hinv
  refine ⟨stored, h.order, h.ring.length_le, h.ring.get, ?_, h.ring.out_lt, h.refused⟩
  rw [h.inIdx]
  exact Nat.mod_lt _ hpos

/-- A queue with one slot: the producer waits until its first message is taken. -/
theorem queue_in_order_one : ∃ s : MsgQueue Bool ℕ,
    Reach MsgQueue.step (fun _ _ => True) (allocQueue false (fun _ => 8) 1 fun _ => 0) s ∧
      s.enqueued = [7, 8] ∧ s.dequeued = [7] ∧ s.inIdx < 1 := by
  have hrun : (run MsgQueue.step (allocQueue false (fun _ => 8) 1 fun _ => 0)
      [.call (.enqueue 7), .start true, .call (.enqueue 8), .dispatch true, .call .dequeue,
        .call .dequeue, .dispatch false]).map
      (fun s : MsgQueue Bool ℕ => (s.enqueued, s.dequeued)) = some ([7, 8], [7]) := by decide
  obtain ⟨s, hs, hboth⟩ := Option.map_eq_some_iff.mp hrun
  obtain ⟨henq, hdeq⟩ := Prod.mk.inj hboth
  have hr := reach_of_run _ hs
  obtain ⟨stored, -, -, -, hin, -⟩ := queue_in_order (by decide) (by decide) hr
  exact ⟨s, hr, henq, hdeq, hin⟩

end MsgQueue

end SimpleKernel.Object
