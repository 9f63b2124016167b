import SimpleKernel.Pthread.RwLock

/-! Who has a reader-writer lock. -/
namespace SimpleKernel.Pthread
open Transition Tally
open Function (update update_of_ne update_self)

namespace RwThread

/-- Waits for a semaphore to read. -/
def queued (th : RwThread) : ℕ := match th.pc with
  | .waits false _ => 1
  | _ => 0

/-- Was woken to read, and has not looked at the lock. -/
def woken (th : RwThread) : ℕ := if th.pc = .back false then 1 else 0

theorem idle {th : RwThread} (hout : th.pc = .out) : th.queued = 0 ∧ th.woken = 0 := by
  rw [queued, woken, hout]
  exact ⟨rfl, rfl⟩

end RwThread

namespace RwState
variable {τ : Type} [DecidableEq τ] [Fintype τ]

def total (f : RwThread → ℕ) (s : RwState τ) : ℕ := ∑ t, f (s.threads t)

/-- The permits of the semaphore for readers. -/
def permits (s : RwState τ) : ℕ := (s.sems s.lock.sharedWaiters).getD 0

/-- The readers that an unlock has let in and that have not returned from their call. -/
def granted (s : RwState τ) : ℕ := s.permits + s.total RwThread.woken

/-- The condition on a step: a thread that wants to write finds the lock free or its own, a reader that had to wait
does not go on, only threads that have the lock unlock it, no count overflows, and the number of waiting writers,
never initialized, is not positive when a writer lets readers in. -/
def Undisputed (s : RwState τ) : RwAct τ → Prop
  | .call _ .rdlock | .call _ .tryrdlock =>
    -2 ^ 31 < s.lock.numActive ∧ s.lock.numActive < 2 ^ 31 - 1 ∧ s.lock.numSharedWaiters < 2 ^ 31 - 1
  | .call t .wrlock | .call t .trywrlock =>
    s.lock.numActive = 0 ∨ (s.lock.numActive < 0 ∧ s.lock.owner = some t ∧ -2 ^ 31 < s.lock.numActive)
  | .call t .unlock => 0 < (s.threads t).reads + (s.threads t).writes ∧
    (0 < s.lock.numSharedWaiters → s.lock.numExclusiveWaiters ≤ 0)
  | .go t => (s.threads t).pc ≠ .back false

/-- The lock has readers, or one writer. -/
structure RwInv (shared exclusive : ℤ) (s : RwState τ) : Prop where
  sharedWaiters : s.lock.sharedWaiters = shared
  exclusiveWaiters : s.lock.exclusiveWaiters = exclusive
  sem : (s.sems shared).isSome
  place : ∀ t, (s.threads t).pc = .out ∨ (s.threads t).pc = .waits false shared ∨ (s.threads t).pc = .back false
  waiters : (s.total RwThread.queued : ℤ) = s.lock.numSharedWaiters + s.permits
  positive : 0 ≤ s.lock.numSharedWaiters
  readers : s.lock.owner = none → s.total RwThread.writes = 0 ∧ s.lock.numSharedWaiters = 0 ∧
    s.lock.numActive = s.total RwThread.reads + s.granted
  writer : ∀ t, s.lock.owner = some t → s.total RwThread.writes = (s.threads t).writes ∧ 0 < (s.threads t).writes ∧
    s.lock.numActive = -(s.threads t).writes ∧ s.total RwThread.reads = 0 ∧ s.granted = 0
  small : -2 ^ 31 ≤ s.lock.numActive ∧ s.lock.numActive < 2 ^ 31 ∧ s.lock.numSharedWaiters < 2 ^ 31

variable {shared exclusive : ℤ} {s s' : RwState τ} {t : τ}

omit [DecidableEq τ] in
theorem le_total (f : RwThread → ℕ) (s : RwState τ) (t : τ) : f (s.threads t) ≤ s.total f :=
  le_sum (fun u => f (s.threads u)) t

/-- A total after a step of thread `t`, whose summand becomes the one of `th`. -/
def Turns (s : RwState τ) (t : τ) (th : RwThread) (f : RwThread → ℕ) (n : ℕ) : Prop :=
  n + f (s.threads t) = s.total f + f th

theorem turns_update (s : RwState τ) (t : τ) (th : RwThread) (l : RwLock τ) (sems : ℤ → Option ℕ)
    (f : RwThread → ℕ) : s.Turns t th f (total f ⟨l, sems, update s.threads t th⟩) :=
  sum_update f s.threads t th

omit [Fintype τ] in
theorem place_update {P : RwThread → Prop} (h : ∀ u, P (s.threads u)) {th : RwThread} (hth : P th) (u : τ) :
    P (update s.threads t th u) := by
  by_cases hut : u = t
  · rw [hut, update_self]
    exact hth
  · rw [update_of_ne hut]
    exact h u

/-- A step of a thread that gets the lock or gives it back: afterwards it is the writer, or there is none. -/
theorem RwInv.change (h : RwInv shared exclusive s) {l : RwLock τ} {m : ℤ → Option ℕ} {th : RwThread}
    (hshared : l.sharedWaiters = shared) (hexclusive : l.exclusiveWaiters = exclusive) (hsem : (m shared).isSome)
    (hplace : th.pc = .out) (howner : l.owner = none ∨ l.owner = some t)
    (hwaiters : ∀ q, s.Turns t th RwThread.queued q → (q : ℤ) = l.numSharedWaiters + (m shared).getD 0)
    (hpositive : 0 ≤ l.numSharedWaiters)
    (htotals : ∀ w r k, s.Turns t th RwThread.writes w → s.Turns t th RwThread.reads r →
      s.Turns t th RwThread.woken k →
      (l.owner = none → w = 0 ∧ l.numSharedWaiters = 0 ∧ l.numActive = r + ((m shared).getD 0 + k : ℕ)) ∧
      (l.owner = some t → w = th.writes ∧ 0 < th.writes ∧ l.numActive = -th.writes ∧ r = 0 ∧
        (m shared).getD 0 + k = 0))
    (hsmall : -2 ^ 31 ≤ l.numActive ∧ l.numActive < 2 ^ 31 ∧ l.numSharedWaiters < 2 ^ 31) :
    RwInv shared exclusive ⟨l, m, update s.threads t th⟩ := by
  have hturns := turns_update s t th l m
  obtain ⟨hreaders, hwriter⟩ := htotals _ _ _ (hturns _) (hturns _) (hturns _)
  constructor
  · exact hshared
  · exact hexclusive
  · exact hsem
  · exact place_update (P := fun th => th.pc = .out ∨ th.pc = .waits false shared ∨ th.pc = .back false) h.place
      (.inl hplace)
  · rw [permits, hshared]
    exact hwaiters _ (hturns _)
  · exact hpositive
  · rw [granted, permits, hshared]
    exact hreaders
  · intro u hu
    rw [granted, permits, hshared]
    dsimp only at hu ⊢
    rcases howner with hnone | hself
    · rw [hnone] at hu
      cases hu
    · obtain rfl : t = u := by
        rw [hself] at hu
        exact Option.some.inj hu
      rw [update_self]
      exact hwriter hself
  · exact hsmall

theorem RwInv.wait (h : RwInv shared exclusive s) {l : RwLock τ} {m : ℤ → Option ℕ} {th : RwThread}
    (hl : l = { s.lock with numSharedWaiters := l.numSharedWaiters }) (hsem : (m shared).isSome)
    (hplace : th.pc = .out ∨ th.pc = .waits false shared ∨ th.pc = .back false)
    (hreads : th.reads = (s.threads t).reads) (hwrites : th.writes = (s.threads t).writes)
    (hgranted : (m shared).getD 0 + th.woken = s.permits + (s.threads t).woken)
    (hwaiters : ∀ q, s.Turns t th RwThread.queued q → (q : ℤ) = l.numSharedWaiters + (m shared).getD 0)
    (hpositive : 0 ≤ l.numSharedWaiters) (hsmall : l.numSharedWaiters < 2 ^ 31)
    (hnone : s.lock.owner = none → l.numSharedWaiters = 0) :
    RwInv shared exclusive ⟨l, m, update s.threads t th⟩ := by
  have hturns := turns_update s t th l m
  have howner : l.owner = s.lock.owner := by rw [hl]
  have hactive : l.numActive = s.lock.numActive := by rw [hl]
  have hshared : l.sharedWaiters = shared := by
    rw [hl]
    exact h.sharedWaiters
  have hw := hturns RwThread.writes
  have hr := hturns RwThread.reads
  have hk := hturns RwThread.woken
  rw [Turns] at hw hr hk
  constructor
  · exact hshared
  · rw [hl]
    exact h.exclusiveWaiters
  · exact hsem
  · exact place_update (P := fun th => th.pc = .out ∨ th.pc = .waits false shared ∨ th.pc = .back false) h.place
      hplace
  · rw [permits, hshared]
    exact hwaiters _ (hturns _)
  · exact hpositive
  · intro hfree
    rw [granted, permits, hshared]
    dsimp only at hfree ⊢
    rw [howner] at hfree
    obtain ⟨hzero, -, hcount⟩ := h.readers hfree
    rw [granted] at hcount
    refine ⟨by omega, hnone hfree, by omega⟩
  · intro u hu
    rw [granted, permits, hshared]
    dsimp only at hu ⊢
    rw [howner] at hu
    have hsame : (update s.threads t th u).writes = (s.threads u).writes := by
      by_cases hut : u = t
      · rw [hut, update_self, hwrites]
      · rw [update_of_ne hut]
    obtain ⟨hone, hpos, hcount, hzero, hno⟩ := h.writer u hu
    rw [granted] at hno
    rw [hsame]
    refine ⟨by omega, hpos, by omega, by omega, by omega⟩
  · have hbounds := h.small
    dsimp only
    omega

omit [DecidableEq τ] in
theorem RwInv.permits_eq (h : RwInv shared exclusive s) : s.permits = (s.sems shared).getD 0 := by
  rw [permits, h.sharedWaiters]

omit [DecidableEq τ] in
theorem RwInv.owner_active (h : RwInv shared exclusive s) : s.lock.numActive < 0 ↔ s.lock.owner ≠ none := by
  cases hown : s.lock.owner with
  | none =>
    obtain ⟨-, -, hactive⟩ := h.readers hown
    simp only [ne_eq, not_true, iff_false]
    omega
  | some u =>
    obtain ⟨-, hpos, hactive, -⟩ := h.writer u hown
    simp only [ne_eq, reduceCtorEq, not_false_eq_true, iff_true]
    omega

section
variable (h : RwInv shared exclusive s)
include h

theorem RwInv.again (hlo : -2 ^ 31 < s.lock.numActive) (hout : (s.threads t).pc = .out)
    (hself : s.lock.owner = some t) (ret : Ret) :
    RwInv shared exclusive ({ s with lock := { s.lock with numActive := int32 (s.lock.numActive - 1) } }.set t
      (((s.threads t).got .write).done ret)) := by
  have hwaiters := h.waiters
  have hsmall := h.small
  obtain ⟨hqueued, hwoken⟩ := RwThread.idle hout
  rw [h.permits_eq] at hwaiters
  obtain ⟨hw, -, hcount, hr, hk⟩ := h.writer t hself
  have hdec : int32 (s.lock.numActive - 1) = s.lock.numActive - 1 := int32_eq (by omega) (by omega)
  rw [granted, h.permits_eq] at hk
  rw [hdec]
  apply h.change (l := { s.lock with numActive := s.lock.numActive - 1 }) h.sharedWaiters h.exclusiveWaiters h.sem rfl
    (.inr hself)
  · intro q hq
    simp only [Turns, RwThread.queued, RwThread.done] at hq hqueued
    dsimp only
    omega
  · exact h.positive
  · intro w r k hw' hr' hk'
    simp only [Turns, RwThread.woken, RwThread.done, RwThread.got] at hw' hr' hk' hwoken
    dsimp only [RwThread.done, RwThread.got]
    rw [hself]
    refine ⟨fun hnone => (nomatch hnone), fun _ => ?_⟩
    simp only [reduceCtorEq, if_false] at hk'
    omega
  · dsimp only
    omega

theorem RwInv.rdPass (hlo : -2 ^ 31 < s.lock.numActive)
    (hhi : s.lock.numActive < 2 ^ 31 - 1) (hout : (s.threads t).pc = .out) (ret : Ret)
    (hgot : (s.lock.rdPass t).2 ≠ .none) :
    RwInv shared exclusive
      ({ s with lock := (s.lock.rdPass t).1 }.set t (((s.threads t).got (s.lock.rdPass t).2).done ret)) := by
  have hactive := h.owner_active
  have hwaiters := h.waiters
  have hsmall := h.small
  obtain ⟨hqueued, hwoken⟩ := RwThread.idle hout
  rw [h.permits_eq] at hwaiters
  rw [RwLock.rdPass] at hgot ⊢
  split at hgot
  · rename_i hneg
    split at hgot
    · rename_i hself
      rw [if_pos hneg, if_pos hself]
      exact h.again hlo hout hself ret
    · exact absurd rfl hgot
  · rename_i hnonneg
    have hnone : s.lock.owner = none := by
      by_contra hsome
      exact hnonneg (hactive.2 hsome)
    obtain ⟨hw, hnum, hcount⟩ := h.readers hnone
    have hinc : int32 (s.lock.numActive + 1) = s.lock.numActive + 1 := int32_eq (by omega) (by omega)
    rw [granted, h.permits_eq] at hcount
    rw [if_neg hnonneg, hinc]
    apply h.change (l := { s.lock with numActive := s.lock.numActive + 1 }) h.sharedWaiters h.exclusiveWaiters h.sem rfl
      (.inl hnone)
    · intro q hq
      simp only [Turns, RwThread.queued, RwThread.done] at hq hqueued
      dsimp only
      omega
    · exact h.positive
    · intro w r k hw' hr' hk'
      simp only [Turns, RwThread.woken, RwThread.done, RwThread.got] at hw' hr' hk' hwoken
      dsimp only
      rw [hnone]
      refine ⟨fun _ => ?_, fun hsome => (nomatch hsome)⟩
      simp only [reduceCtorEq, if_false] at hk'
      omega
    · dsimp only
      omega

theorem RwInv.wrPass (hlo : -2 ^ 31 < s.lock.numActive)
    (hout : (s.threads t).pc = .out) (ret : Ret) (hgot : (s.lock.wrPass t).2 ≠ .none) :
    RwInv shared exclusive
      ({ s with lock := (s.lock.wrPass t).1 }.set t (((s.threads t).got (s.lock.wrPass t).2).done ret)) := by
  have hactive := h.owner_active
  have hwaiters := h.waiters
  have hsmall := h.small
  obtain ⟨hqueued, hwoken⟩ := RwThread.idle hout
  rw [h.permits_eq] at hwaiters
  rw [RwLock.wrPass] at hgot ⊢
  split at hgot
  · rename_i hfree
    have hnone : s.lock.owner = none := by
      by_contra hsome
      have hneg := hactive.2 hsome
      omega
    obtain ⟨hw, -, hcount⟩ := h.readers hnone
    have hzero := le_total RwThread.writes s t
    rw [granted, h.permits_eq] at hcount
    rw [if_pos hfree]
    apply h.change (l := { s.lock with numActive := -1, owner := some t }) h.sharedWaiters h.exclusiveWaiters h.sem rfl
      (.inr rfl)
    · intro q hq
      simp only [Turns, RwThread.queued, RwThread.done] at hq hqueued
      dsimp only
      omega
    · exact h.positive
    · intro w r k hw' hr' hk'
      simp only [Turns, RwThread.woken, RwThread.done, RwThread.got] at hw' hr' hk' hwoken
      dsimp only [RwThread.done, RwThread.got]
      refine ⟨fun hnone => (nomatch hnone), fun _ => ?_⟩
      simp only [reduceCtorEq, if_false] at hk'
      omega
    · dsimp only
      omega
  · rename_i hfree
    split at hgot
    · rename_i hmine
      obtain ⟨hneg, hself⟩ := hmine
      rw [if_neg hfree, if_pos ⟨hneg, hself⟩]
      exact h.again hlo hout hself ret
    · exact absurd rfl hgot

theorem RwInv.rdWait (hroom : s.lock.numSharedWaiters < 2 ^ 31 - 1)
    (hout : (s.threads t).pc = .out) (hgot : (s.lock.rdPass t).2 = .none) : RwInv shared exclusive (s.rdTurn t) := by
  have hactive := h.owner_active
  have hwaiters := h.waiters
  have hpositive := h.positive
  obtain ⟨hqueued, hwoken⟩ := RwThread.idle hout
  have hsame : (s.lock.rdPass t).1 = s.lock ∧ s.lock.numActive < 0 := by
    rw [RwLock.rdPass] at hgot ⊢
    split at hgot
    · rename_i hneg
      split at hgot
      · cases hgot
      · rename_i hother
        rw [if_pos hneg, if_neg hother]
        exact ⟨rfl, hneg⟩
    · cases hgot
  have hinc : int32 (s.lock.numSharedWaiters + 1) = s.lock.numSharedWaiters + 1 := int32_eq (by omega) (by omega)
  rw [h.permits_eq] at hwaiters
  rw [rdTurn]
  rw [if_pos hgot, hsame.1]
  apply h.wait rfl h.sem
    (.inr (.inl (by rw [h.sharedWaiters])))
  · rfl
  · rfl
  · rw [h.permits_eq, hwoken]
    rfl
  · intro q hq
    simp only [Turns, RwThread.queued] at hq hqueued
    dsimp only
    omega
  · dsimp only
    omega
  · dsimp only
    omega
  · intro hnone
    exact absurd hnone (hactive.1 hsame.2)

theorem RwInv.wake {n : ℕ} (hpc : (s.threads t).pc = .waits false shared)
    (hsems : s.sems shared = some (n + 1)) :
    RwInv shared exclusive ({ s with sems := update s.sems shared (some n) }.set t
      { s.threads t with pc := .back false }) := by
  have hwaiters := h.waiters
  have hqueued : (s.threads t).queued = 1 := by rw [RwThread.queued, hpc]
  have hwoken : (s.threads t).woken = 0 := by rw [RwThread.woken, hpc]; rfl
  have hpermits := h.permits_eq
  rw [hsems, Option.getD_some] at hpermits
  apply h.wait (l := s.lock) (m := update s.sems shared (some n)) rfl
  · rw [update_self]
    rfl
  · exact .inr (.inr rfl)
  · rfl
  · rfl
  · rw [update_self, hpermits, hwoken]
    rfl
  · intro q hq
    simp only [Turns, RwThread.queued] at hq hqueued
    rw [update_self, Option.getD_some]
    omega
  · exact h.positive
  · exact h.small.2.2
  · exact fun hnone => (h.readers hnone).2.1

theorem RwInv.unlockReader (hout : (s.threads t).pc = .out)
    (hheld : 0 < (s.threads t).reads + (s.threads t).writes) (hreader : 0 < s.lock.numActive) {l : RwLock τ}
    {m : ℤ → Option ℕ} (hshared : l.sharedWaiters = s.lock.sharedWaiters)
    (hexclusive : l.exclusiveWaiters = s.lock.exclusiveWaiters) (hnum : l.numSharedWaiters = s.lock.numSharedWaiters)
    (howner : l.owner = s.lock.owner) (hactive : l.numActive = s.lock.numActive - 1)
    (hm : m shared = s.sems shared) :
    RwInv shared exclusive ⟨l, m, update s.threads t
      (RwThread.done { s.threads t with reads := (s.threads t).reads - 1 } .ok)⟩ := by
  have hwaiters := h.waiters
  have hpositive := h.positive
  have hsmall := h.small
  obtain ⟨hqueued, hwoken⟩ := RwThread.idle hout
  have hwrites := le_total RwThread.writes s t
  have hnone : s.lock.owner = none := by
    by_contra hsome
    have hneg := h.owner_active.2 hsome
    omega
  obtain ⟨hw, hzero, hcount⟩ := h.readers hnone
  rw [h.permits_eq] at hwaiters
  rw [granted, h.permits_eq] at hcount
  apply h.change (hshared.trans h.sharedWaiters) (hexclusive.trans h.exclusiveWaiters)
  · rw [hm]
    exact h.sem
  · rfl
  · exact .inl (howner.trans hnone)
  · intro q hq
    simp only [Turns, RwThread.queued, RwThread.done] at hq hqueued
    rw [hm]
    omega
  · rw [hnum]
    exact hpositive
  · intro w r k hw' hr' hk'
    simp only [Turns, RwThread.woken, RwThread.done, reduceCtorEq, if_false] at hw' hr' hk' hwoken
    rw [howner, hnone, hm]
    refine ⟨fun _ => ?_, fun hsome => (nomatch hsome)⟩
    omega
  · omega

/-- A writer gives the lock back once. If that was the last time, the lock is free or goes to all readers that
wait. -/
theorem RwInv.unlockWriter (hout : (s.threads t).pc = .out)
    (hself : s.lock.owner = some t) {l : RwLock τ} {m : ℤ → Option ℕ}
    (hshared : l.sharedWaiters = s.lock.sharedWaiters) (hexclusive : l.exclusiveWaiters = s.lock.exclusiveWaiters)
    (hcases : (l.owner = s.lock.owner ∧ l.numActive = s.lock.numActive + 1 ∧ l.numActive < 0 ∧
        l.numSharedWaiters = s.lock.numSharedWaiters ∧ m shared = s.sems shared) ∨
      (l.owner = none ∧ s.lock.numActive = -1 ∧ l.numSharedWaiters = 0 ∧ l.numActive = s.lock.numSharedWaiters ∧
        m shared = (s.sems shared).map (· + s.lock.numSharedWaiters.toNat))) :
    RwInv shared exclusive ⟨l, m, update s.threads t
      (RwThread.done { s.threads t with writes := (s.threads t).writes - 1 } .ok)⟩ := by
  have hwaiters := h.waiters
  have hsmall := h.small
  obtain ⟨hqueued, hwoken⟩ := RwThread.idle hout
  obtain ⟨hw, -, hcount, hr, hk⟩ := h.writer t hself
  obtain ⟨n, hn⟩ := Option.isSome_iff_exists.1 h.sem
  rw [h.permits_eq, hn, Option.getD_some] at hwaiters
  rw [granted, h.permits_eq, hn, Option.getD_some] at hk
  have hsems : ∃ n', m shared = some n' ∧ (l.owner = s.lock.owner → n' = n) ∧
      (l.owner = none → n' = n + s.lock.numSharedWaiters.toNat) := by
    rcases hcases with ⟨howner, -, -, -, hm⟩ | ⟨howner, -, -, -, hm⟩
    · refine ⟨n, by rw [hm, hn], fun _ => rfl, fun hnone => ?_⟩
      rw [howner, hself] at hnone
      cases hnone
    · refine ⟨_, by rw [hm, hn]; rfl, fun hsome => ?_, fun _ => rfl⟩
      rw [howner, hself] at hsome
      cases hsome
  obtain ⟨n', hn', hkept, hgiven⟩ := hsems
  apply h.change (hshared.trans h.sharedWaiters) (hexclusive.trans h.exclusiveWaiters)
  · rw [hn']
    rfl
  · rfl
  · rcases hcases with ⟨howner, -⟩ | ⟨howner, -⟩
    · exact .inr (howner.trans hself)
    · exact .inl howner
  · intro q hq
    simp only [Turns, RwThread.queued, RwThread.done] at hq hqueued
    rw [hn', Option.getD_some]
    rcases hcases with ⟨howner, -, -, hnum, -⟩ | ⟨howner, -, hnum, -, -⟩
    · have hsame := hkept howner
      omega
    · have hmore := hgiven howner
      omega
  · rcases hcases with ⟨-, -, -, hnum, -⟩ | ⟨-, -, hnum, -, -⟩ <;> omega
  · intro w r k hw' hr' hk'
    simp only [Turns, RwThread.woken, RwThread.done, reduceCtorEq, if_false] at hw' hr' hk' hwoken
    rw [hn', Option.getD_some]
    rcases hcases with ⟨howner, hactive, hneg, -, -⟩ | ⟨howner, hone, hnum, hactive, -⟩
    · have hsame := hkept howner
      rw [howner, hself]
      refine ⟨fun hnone => (nomatch hnone), fun _ => ?_⟩
      dsimp only [RwThread.done]
      omega
    · have hmore := hgiven howner
      rw [howner]
      refine ⟨fun _ => ?_, fun hsome => (nomatch hsome)⟩
      omega
  · rcases hcases with ⟨-, hactive, hneg, hnum, -⟩ | ⟨-, -, hnum, hactive, -⟩ <;> omega

end

omit [Fintype τ] in
theorem unlock_none {l : RwLock τ} (h : s.lock.unlock = (l, none)) : s.unlock t =
    ⟨l, s.sems, update s.threads t (RwThread.done (if 0 < s.lock.numActive
      then { s.threads t with reads := (s.threads t).reads - 1 }
      else if s.lock.numActive < 0 then { s.threads t with writes := (s.threads t).writes - 1 }
      else s.threads t) .ok)⟩ := by
  simp only [unlock, h, set]

omit [Fintype τ] in
theorem unlock_some {l : RwLock τ} {i n : ℤ} (h : s.lock.unlock = (l, some (i, n))) : s.unlock t =
    ⟨l, update s.sems i ((s.sems i).map (· + n.toNat)),
      update s.threads t (RwThread.done (if 0 < s.lock.numActive
        then { s.threads t with reads := (s.threads t).reads - 1 }
        else if s.lock.numActive < 0 then { s.threads t with writes := (s.threads t).writes - 1 }
        else s.threads t) .ok)⟩ := by
  simp only [unlock, h, set, semrel]

theorem RwInv.unlock (h : RwInv shared exclusive s) (hne : shared ≠ exclusive) (hout : (s.threads t).pc = .out)
    (hheld : 0 < (s.threads t).reads + (s.threads t).writes)
    (hjunk : 0 < s.lock.numSharedWaiters → s.lock.numExclusiveWaiters ≤ 0) : RwInv shared exclusive (s.unlock t) := by
  have hsmall := h.small
  have hpositive := h.positive
  have hreads := le_total RwThread.reads s t
  have hwrites := le_total RwThread.writes s t
  have hother (n : ℕ) : update s.sems exclusive ((s.sems exclusive).map (· + n)) shared = s.sems shared := by
    rw [update_of_ne hne]
  by_cases hreader : 0 < s.lock.numActive
  · have hdec : int32 (s.lock.numActive - 1) = s.lock.numActive - 1 := int32_eq (by omega) (by omega)
    by_cases hlast : s.lock.numActive - 1 = 0 ∧ 0 < s.lock.numExclusiveWaiters
    · have hu : s.lock.unlock = ({ s.lock with
          numActive := s.lock.numActive - 1
          numExclusiveWaiters := int32 (s.lock.numExclusiveWaiters - 1) }, some (exclusive, 1)) := by
        simp only [RwLock.unlock, if_pos hreader, hdec, if_pos hlast, h.exclusiveWaiters]
      rw [unlock_some hu, if_pos hreader]
      exact h.unlockReader hout hheld hreader rfl rfl rfl rfl rfl (hother 1)
    · have hu : s.lock.unlock = ({ s.lock with numActive := s.lock.numActive - 1 }, none) := by
        simp only [RwLock.unlock, if_pos hreader, hdec, if_neg hlast]
      rw [unlock_none hu, if_pos hreader]
      exact h.unlockReader hout hheld hreader rfl rfl rfl rfl rfl rfl
  · have hself : s.lock.owner = some t := by
      cases howner : s.lock.owner with
      | none =>
        obtain ⟨hw, -, hcount⟩ := h.readers howner
        omega
      | some u =>
        obtain ⟨hw, -, -, hr, -⟩ := h.writer u howner
        by_cases hut : u = t
        · rw [hut]
        · have hboth := add_le_sum (fun v => (s.threads v).writes) hut
          have htotal : s.total RwThread.writes = ∑ v, (s.threads v).writes := rfl
          omega
    obtain ⟨hw, hpos, hcount, -, -⟩ := h.writer t hself
    have hneg : s.lock.numActive < 0 := by omega
    have hinc : int32 (s.lock.numActive + 1) = s.lock.numActive + 1 := int32_eq (by omega) (by omega)
    by_cases hlast : s.lock.numActive + 1 = 0
    · by_cases hexclusive : 0 < s.lock.numExclusiveWaiters
      · have hzero : s.lock.numSharedWaiters = 0 := by
          omega
        have hu : s.lock.unlock = ({ s.lock with
            numActive := s.lock.numActive + 1
            owner := none
            numExclusiveWaiters := int32 (s.lock.numExclusiveWaiters - 1) }, some (exclusive, 1)) := by
          simp only [RwLock.unlock, if_neg hreader, if_pos hneg, hinc, if_pos hlast, if_pos hexclusive,
            h.exclusiveWaiters]
        rw [unlock_some hu, if_neg hreader, if_pos hneg]
        apply h.unlockWriter hout hself
        · rfl
        · rfl
        right
        refine ⟨rfl, by omega, hzero, by dsimp only; omega, ?_⟩
        rw [hother, hzero]
        simp
      · by_cases hwaiting : 0 < s.lock.numSharedWaiters
        · have hu : s.lock.unlock = ({ s.lock with
              numActive := s.lock.numSharedWaiters
              owner := none
              numSharedWaiters := 0 }, some (shared, s.lock.numSharedWaiters)) := by
            simp only [RwLock.unlock, if_neg hreader, if_pos hneg, hinc, if_pos hlast, if_neg hexclusive,
              if_pos hwaiting, h.sharedWaiters]
          rw [unlock_some hu, if_neg hreader, if_pos hneg]
          apply h.unlockWriter hout hself
          · rfl
          · rfl
          right
          refine ⟨rfl, by omega, rfl, rfl, ?_⟩
          rw [update_self]
        · have hzero : s.lock.numSharedWaiters = 0 := by omega
          have hu : s.lock.unlock = ({ s.lock with numActive := s.lock.numActive + 1, owner := none }, none) := by
            simp only [RwLock.unlock, if_neg hreader, if_pos hneg, hinc, if_pos hlast, if_neg hexclusive,
              if_neg hwaiting]
          rw [unlock_none hu, if_neg hreader, if_pos hneg]
          apply h.unlockWriter hout hself
          · rfl
          · rfl
          right
          refine ⟨rfl, by omega, hzero, by dsimp only; omega, ?_⟩
          rw [hzero]
          simp
    · have hu : s.lock.unlock = ({ s.lock with numActive := s.lock.numActive + 1 }, none) := by
        simp only [RwLock.unlock, if_neg hreader, if_pos hneg, hinc, if_neg hlast]
      rw [unlock_none hu, if_neg hreader, if_pos hneg]
      apply h.unlockWriter hout hself
      · rfl
      · rfl
      left
      exact ⟨rfl, rfl, by dsimp only; omega, rfl, rfl⟩

omit [Fintype τ] in
theorem wrPass_got (hok : s.lock.numActive = 0 ∨
    (s.lock.numActive < 0 ∧ s.lock.owner = some t ∧ -2 ^ 31 < s.lock.numActive)) :
    (s.lock.wrPass t).2 ≠ .none ∧ -2 ^ 31 < s.lock.numActive := by
  rw [RwLock.wrPass]
  rcases hok with hfree | ⟨hneg, hself, hlo⟩
  · rw [if_pos hfree]
    exact ⟨Got.noConfusion, by omega⟩
  · rw [if_neg (by omega), if_pos ⟨hneg, hself⟩]
    exact ⟨Got.noConfusion, hlo⟩

theorem RwInv.refused (h : RwInv shared exclusive s) (hout : (s.threads t).pc = .out) (ret : Ret) :
    RwInv shared exclusive (s.set t ((s.threads t).done ret)) := by
  have hwaiters := h.waiters
  rw [h.permits_eq] at hwaiters
  obtain ⟨hqueued, hwoken⟩ := RwThread.idle hout
  have hplace : ((s.threads t).done ret).pc = .out := rfl
  apply h.wait rfl h.sem (.inl hplace) rfl rfl
  · rw [h.permits_eq, hwoken]
    rfl
  · intro q hq
    simp only [Turns, RwThread.queued, RwThread.done] at hq hqueued
    omega
  · exact h.positive
  · exact h.small.2.2
  · exact fun hnone => (h.readers hnone).2.1

omit [Fintype τ] in
theorem rdPass_refused (hgot : (s.lock.rdPass t).2 = .none) : (s.lock.rdPass t).1 = s.lock := by
  rw [RwLock.rdPass] at hgot ⊢
  split
  · split
    · rename_i hneg hself
      rw [if_pos hneg, if_pos hself] at hgot
      cases hgot
    · rfl
  · rename_i hneg
    rw [if_neg hneg] at hgot
    cases hgot

theorem RwInv.call {c : RwCall} (h : RwInv shared exclusive s) (hne : shared ≠ exclusive)
    (hok : s.Undisputed (.call t c)) (hout : (s.threads t).pc = .out) : RwInv shared exclusive (s.call t c) := by
  cases c with
  | rdlock =>
    obtain ⟨hlo, hhi, hroom⟩ := hok
    by_cases hgot : (s.lock.rdPass t).2 = .none
    · exact h.rdWait hroom hout hgot
    · have hturn := h.rdPass hlo hhi hout .ok hgot
      rw [RwState.call, rdTurn]
      rw [if_neg hgot]
      exact hturn
  | tryrdlock =>
    obtain ⟨hlo, hhi, hroom⟩ := hok
    rw [RwState.call, tryrdlock]
    by_cases hgot : (s.lock.rdPass t).2 = .none
    · rw [rdPass_refused hgot, hgot]
      exact h.refused hout .ebusy
    · rw [if_neg hgot]
      exact h.rdPass hlo hhi hout .ok hgot
  | wrlock =>
    obtain ⟨hgot, hlo⟩ := wrPass_got hok
    rw [RwState.call, wrTurn]
    rw [if_neg hgot]
    exact h.wrPass hlo hout .ok hgot
  | trywrlock =>
    obtain ⟨hgot, hlo⟩ := wrPass_got hok
    exact h.wrPass hlo hout .ok hgot
  | unlock => exact h.unlock hne hout hok.1 hok.2

theorem RwInv.step {a : RwAct τ} (h : RwInv shared exclusive s) (hne : shared ≠ exclusive) (hok : s.Undisputed a)
    (hs : s.step a = some s') : RwInv shared exclusive s' := by
  cases a with
  | call t c =>
    simp only [RwState.step] at hs
    split at hs
    · rename_i hout
      obtain rfl := Option.some.inj hs
      exact h.call hne hok hout
    · cases hs
  | go t =>
    have hback : (s.threads t).pc ≠ .back false := hok
    rcases h.place t with hpc | hpc | hpc
    · simp only [RwState.step, hpc] at hs
      cases hs
    · simp only [RwState.step, hpc] at hs
      split at hs
      · rename_i hnone
        have hsome := h.sem
        rw [hnone] at hsome
        cases hsome
      · cases hs
      · rename_i n hn
        obtain rfl := Option.some.inj hs
        exact h.wake hpc hn
    · exact absurd hpc hback

omit [DecidableEq τ] in
theorem rwInv_init (shared exclusive junk : ℤ) : RwInv shared exclusive (init shared exclusive junk : RwState τ) := by
  constructor
  · rfl
  · rfl
  · simp [init]
  · exact fun t => .inl rfl
  · simp [init, total, RwThread.queued, RwLock.init, permits]
  · exact Int.le_refl 0
  · intro _
    simp [init, total, granted, permits, RwLock.init, RwThread.woken]
  · exact fun t h => (nomatch h)
  · simp [init, RwLock.init]

/-- A writer excludes all others, `num_active` counts the readers or the recursion of the writer, and the handles of
the semaphores are the ones the lock was made with. -/
structure Exclusive (shared exclusive : ℤ) (s : RwState τ) : Prop where
  writer : ∀ t, 0 < (s.threads t).writes → s.lock.numActive = -(s.threads t).writes ∧ s.granted = 0 ∧
    ∀ u, (s.threads u).reads = 0 ∧ (u ≠ t → (s.threads u).writes = 0)
  readers : (∀ t, (s.threads t).writes = 0) → s.lock.numActive = s.total RwThread.reads + s.granted
  handles : s.lock.sharedWaiters = shared ∧ s.lock.exclusiveWaiters = exclusive

/-- A try that returns success got the lock. An unlock that makes the lock free releases a thread that waits to
write, or else all that wait to read. -/
structure Fair (s : RwState τ) (a : RwAct τ) (s' : RwState τ) : Prop where
  tried : ∀ t, a = .call t .tryrdlock ∨ a = .call t .trywrlock → (s'.threads t).ret = some .ok →
    (s'.threads t).reads + (s'.threads t).writes = (s.threads t).reads + (s.threads t).writes + 1
  released : ∀ t, a = .call t .unlock → s.lock.numActive = 1 ∨ s.lock.numActive = -1 →
    (∃ u h, (s'.threads u).pc = .waits true h ∧ 0 < (s'.sems h).getD 0) ∨
      ((∀ u h, (s'.threads u).pc ≠ .waits true h) ∧ s'.total RwThread.queued = s'.permits)

omit [DecidableEq τ] in
theorem RwInv.excludes (h : RwInv shared exclusive s) : Exclusive shared exclusive s := by
  constructor
  · intro t ht
    cases howner : s.lock.owner with
    | none =>
      obtain ⟨hzero, -⟩ := h.readers howner
      have hle := le_total RwThread.writes s t
      omega
    | some u =>
      obtain ⟨htotal, hpos, hcount, hreads, hgranted⟩ := h.writer u howner
      have hsum : s.total RwThread.writes = ∑ v, (s.threads v).writes := rfl
      have hut : u = t := by
        by_contra hne
        have hboth := add_le_sum (fun v => (s.threads v).writes) hne
        omega
      rw [hut] at htotal hcount
      refine ⟨hcount, hgranted, fun v => ⟨?_, fun hv => ?_⟩⟩
      · have hle := le_total RwThread.reads s v
        omega
      · have hboth := add_le_sum (fun v => (s.threads v).writes) hv
        omega
  · intro hall
    cases howner : s.lock.owner with
    | none => exact (h.readers howner).2.2
    | some u =>
      obtain ⟨-, hpos, -⟩ := h.writer u howner
      have hzero := hall u
      omega
  · exact ⟨h.sharedWaiters, h.exclusiveWaiters⟩

omit [Fintype τ] [DecidableEq τ] in
theorem unlock_active (hfree : s.lock.numActive = 1 ∨ s.lock.numActive = -1) (hwaiters : 0 ≤ s.lock.numSharedWaiters) :
    0 ≤ s.lock.unlock.1.numActive := by
  rw [RwLock.unlock]
  rcases hfree with hone | hone
  · have hzero : int32 (s.lock.numActive - 1) = 0 := by rw [hone]; rfl
    rw [if_pos (by omega), hzero]
    dsimp only
    split <;> exact Int.le_refl 0
  · have hzero : int32 (s.lock.numActive + 1) = 0 := by rw [hone]; rfl
    rw [if_neg (by omega), if_pos (by omega), hzero]
    dsimp only
    rw [if_pos rfl]
    split
    · exact Int.le_refl 0
    · split
      · exact hwaiters
      · exact Int.le_refl 0

omit [Fintype τ] in
theorem unlock_lock (s : RwState τ) (t : τ) : (s.unlock t).lock = s.lock.unlock.1 := by
  cases hu : s.lock.unlock.2 with
  | none => rw [unlock_none (Prod.ext rfl hu)]
  | some r => rw [unlock_some (Prod.ext rfl hu)]

theorem rdPass_count (th : RwThread) (ret : Ret) {g : Got} (hgot : g ≠ .none) :
    ((th.got g).done ret).reads + ((th.got g).done ret).writes = th.reads + th.writes + 1 := by
  cases g with
  | none => exact absurd rfl hgot
  | read =>
    simp only [RwThread.got, RwThread.done]
    omega
  | write =>
    simp only [RwThread.got, RwThread.done]
    omega

theorem RwInv.fair {a : RwAct τ} (h : RwInv shared exclusive s) (hne : shared ≠ exclusive) (hok : s.Undisputed a)
    (hs : s.step a = some s') : Fair s a s' := by
  have hnext := h.step hne hok hs
  constructor
  · rintro t (rfl | rfl) hret
    · simp only [RwState.step] at hs
      split at hs
      · obtain rfl := Option.some.inj hs
        simp only [RwState.call, tryrdlock, set, update_self] at hret ⊢
        by_cases hgot : (s.lock.rdPass t).2 = .none
        · rw [if_pos hgot] at hret
          cases hret
        · exact rdPass_count _ _ hgot
      · cases hs
    · simp only [RwState.step] at hs
      split at hs
      · obtain rfl := Option.some.inj hs
        simp only [RwState.call, trywrlock, set, update_self] at hret ⊢
        exact rdPass_count _ _ (wrPass_got hok).1
      · cases hs
  · rintro t rfl hfree
    right
    simp only [RwState.step] at hs
    split at hs
    · obtain rfl := Option.some.inj hs
      rw [RwState.call] at hnext ⊢
      refine ⟨fun u i hpc => ?_, ?_⟩
      · rcases hnext.place u with hout | hwaits | hback
        · rw [hout] at hpc
          cases hpc
        · rw [hwaits] at hpc
          cases hpc
        · rw [hback] at hpc
          cases hpc
      · have hactive := unlock_active hfree h.positive
        rw [← unlock_lock s t] at hactive
        have hnone : (s.unlock t).lock.owner = none := by
          by_contra hsome
          have hneg := hnext.owner_active.2 hsome
          omega
        have hzero := (hnext.readers hnone).2.1
        have hwaiters := hnext.waiters
        omega
    · cases hs

instance (s : RwState τ) (a : RwAct τ) : Decidable (s.Undisputed a) :=
  match a with
  | .call _ .rdlock | .call _ .tryrdlock => inferInstanceAs (Decidable (_ ∧ _ ∧ _))
  | .call _ .wrlock | .call _ .trywrlock => inferInstanceAs (Decidable (_ ∨ (_ ∧ _ ∧ _)))
  | .call _ .unlock => inferInstanceAs (Decidable (_ ∧ (_ → _)))
  | .go _ => inferInstanceAs (Decidable (_ ≠ _))

/-- A thread has the lock for writing twice when another one wants to read, and gives it back. -/
def letInRun : List (RwAct Bool) :=
  [.call true .wrlock, .call true .tryrdlock, .call false .rdlock, .call true .unlock, .call true .unlock, .go false]

end RwState

end SimpleKernel.Pthread
