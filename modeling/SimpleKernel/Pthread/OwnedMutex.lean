import SimpleKernel.Pthread.Mutex
import Mathlib.Data.Fintype.Basic

/-! Mutexes of the kinds `PTHREAD_MUTEX_RECURSIVE` and `PTHREAD_MUTEX_ERRORCHECK`, which record their owner. -/
namespace SimpleKernel.Pthread
open Transition

/-- The thread has the mutex: from the exchange that got it to the one that gives it back. -/
def Thread.Has (th : Thread) : Prop :=
  0 < th.count ∨ th.pc = .setRecursion ∨ th.pc = .setOwner ∨ th.pc = .subRecursion ∨ th.pc = .clearOwner ∨
    th.pc = .unlockSwap

/-- The thread is recorded as the owner. -/
def Thread.Owns (th : Thread) : Prop := 0 < th.count ∨ th.pc = .subRecursion ∨ th.pc = .clearOwner

/-- The recursion count is the one of the thread. -/
def Thread.Counts (th : Thread) : Prop := 0 < th.count ∨ th.pc = .subRecursion

/-- The recursion count that goes with the number of times the thread has locked the mutex. -/
def Thread.recursion (th : Thread) : ℤ := th.count + if th.pc = .subRecursion then 1 else 0

/-- The thread is about to try again. -/
def Thread.Retries (th : Thread) : Prop :=
  th.pc = .contend ∨ th.pc = .wokenRecursion ∨ th.pc = .wokenOwner ∨ (th.pc = .compareOwner ∧ th.count = 0)

/-- A thread that was recorded without having the mutex. -/
def Thread.Strays (th : Thread) : Prop :=
  th.pc = .contend ∨ th.pc = .waiting ∨ th.pc = .wokenRecursion ∨ th.pc = .wokenOwner

/-- A wakeup is on its way, or a thread tries again. -/
def Thread.Stirs (th : Thread) : Prop := th.Retries ∨ th.pc = .signal

variable {τ : Type} [DecidableEq τ]

/-- A thread gets a contended mutex only if it was recorded as its owner with a recursion of 1, and it is recorded
only while no other one is; the holder does not lock the mutex again while others wait for it, and the recursion
count does not overflow. -/
def Orderly (s : State τ) : Act τ → Prop
  | .call _ _ => True
  | .go t =>
    ((s.threads t).pc = .contend → s.mutex.lock = 0 → s.mutex.owner = some t ∧ s.mutex.recursion = 1) ∧
    ((s.threads t).pc = .wokenRecursion → s.mutex.recursion = 1 ∨ ∀ u, ¬ (s.threads u).Counts) ∧
    ((s.threads t).pc = .wokenOwner → ∀ u, ¬ (s.threads u).Owns) ∧
    ((s.threads t).pc = .lockSwap → 0 < (s.threads t).count → (∃ w, (s.threads w).pc = .waiting) →
      s.mutex.signaled = true ∨ ∃ u, (s.threads u).Stirs) ∧
    ((s.threads t).pc = .addRecursion → s.mutex.recursion < 2 ^ 31 - 1)

/-- A thread that waits will be woken. -/
def Rouses (m : Mutex τ) (th : Thread) : Prop := m.lock < 0 ∨ m.signaled = true ∨ th.Stirs

/-- Where a thread can be. -/
def Owned (k : Kind) (th : Thread) : Prop := match th.pc with
  | .out | .lockSwap | .compareOwner | .trySwap | .unlockOwner => k = .errorcheck → th.count ≤ 1
  | .addRecursion => 0 < th.count ∧ k = .recursive
  | .tryOwner | .subRecursion => k = .recursive
  | _ => th.count = 0

structure OwnedInv (k : Kind) (s : State τ) : Prop where
  single : ∀ t u, (s.threads t).Has → (s.threads u).Has → t = u
  free : s.mutex.lock = 0 ↔ ∀ t, ¬ (s.threads t).Has
  owner : ∀ t, (s.threads t).Owns → s.mutex.owner = some t
  recursion : ∀ t, (s.threads t).Counts → s.mutex.recursion = (s.threads t).recursion
  small : ∀ t, (s.threads t).Counts → s.mutex.recursion < 2 ^ 31
  fresh : ∀ t, (s.threads t).pc = .setOwner → s.mutex.recursion = 1
  strays : ∀ t, s.mutex.owner = some t → (s.threads t).Owns ∨ (s.threads t).Strays
  owned : ∀ t, Owned k (s.threads t)
  rouses : ∀ w, (s.threads w).pc = .waiting → ∃ u, Rouses s.mutex (s.threads u)

/-- What the step of one thread does to who has the mutex. -/
inductive Passes (m m' : Mutex τ) (th th' : Thread) : Prop
  | stays : (th'.Has ↔ th.Has) → (m'.lock = 0 ↔ m.lock = 0) → Passes m m' th th'
  | takes : m.lock = 0 → m'.lock ≠ 0 → th'.Has → Passes m m' th th'
  | gives : th.Has → m'.lock = 0 → ¬ th'.Has → Passes m m' th th'

/-- What the step of one thread keeps. `free` tells that no other thread has the mutex. -/
structure Keeps (k : Kind) (t : τ) (m m' : Mutex τ) (th th' : Thread) : Prop where
  passes : Passes m m' th th'
  owner : th'.Owns → m'.owner = some t
  recursion : th'.Counts → m'.recursion = th'.recursion
  small : th'.Counts → m'.recursion < 2 ^ 31
  fresh : th'.pc = .setOwner → m'.recursion = 1
  strays : m'.owner = some t → th'.Owns ∨ th'.Strays
  recorded : m'.owner = m.owner ∨ m'.owner = none ∨ m'.owner = some t
  owned : Owned k th'
  waits : th'.pc = .waiting → Rouses m' th'

variable {k : Kind} {s s' : State τ} {t : τ}

theorem Thread.Owns.has {th : Thread} (h : th.Owns) : th.Has := by
  rcases h with h | h | h
  · exact .inl h
  · exact .inr (.inr (.inr (.inl h)))
  · exact .inr (.inr (.inr (.inr (.inl h))))

theorem Thread.Counts.owns {th : Thread} (h : th.Counts) : th.Owns := by
  rcases h with h | h
  · exact .inl h
  · exact .inr (.inl h)

theorem OwnedInv.change (h : OwnedInv k s) (hs : s'.threads = Function.update s.threads t (s'.threads t))
    (hkeeps : Keeps k t s.mutex s'.mutex (s.threads t) (s'.threads t))
    (howner : ∀ u, u ≠ t → (s.threads u).Owns → s'.mutex.owner = s.mutex.owner)
    (hrecursion : ∀ u, u ≠ t → (s.threads u).Counts → s'.mutex.recursion = s.mutex.recursion)
    (hfresh : ∀ u, u ≠ t → (s.threads u).pc = .setOwner → s'.mutex.recursion = 1)
    (hrouses : (Rouses s.mutex (s.threads t) → Rouses s'.mutex (s'.threads t)) ∨
      ∀ w, (s.threads w).pc = .waiting → s'.mutex.signaled = true ∨ ∃ u, u ≠ t ∧ (s.threads u).Stirs) :
    OwnedInv k s' := by
  have hother (u : τ) (hu : u ≠ t) : s'.threads u = s.threads u := by
    rw [hs, Function.update_of_ne hu]
  have hclash (u : τ) (hu : u ≠ t) (hthis : (s'.threads t).Has) (hthat : (s.threads u).Has) : False := by
    cases hkeeps.passes with
    | stays hhas _ => exact hu (h.single u t hthat (hhas.1 hthis))
    | takes hfree _ _ => exact h.free.1 hfree u hthat
    | gives _ _ hnot => exact hnot hthis
  constructor
  · intro u v hu hv
    by_cases hut : u = t
    · by_cases hvt : v = t
      · rw [hut, hvt]
      · rw [hut] at hu
        rw [hother v hvt] at hv
        exact (hclash v hvt hu hv).elim
    · by_cases hvt : v = t
      · rw [hvt] at hv
        rw [hother u hut] at hu
        exact (hclash u hut hv hu).elim
      · rw [hother u hut] at hu
        rw [hother v hvt] at hv
        exact h.single u v hu hv
  · cases hkeeps.passes with
    | stays hhas hlock =>
      rw [hlock, h.free]
      apply forall_congr'
      intro u
      by_cases hut : u = t
      · rw [hut, hhas]
      · rw [hother u hut]
    | takes _ hlock hhas =>
      constructor
      · exact fun hzero => absurd hzero hlock
      · exact fun hall => absurd hhas (hall t)
    | gives hhas hlock hnot =>
      constructor
      · intro _ u
        by_cases hut : u = t
        · rw [hut]
          exact hnot
        · rw [hother u hut]
          exact fun hu => hut (h.single u t hu hhas)
      · exact fun _ => hlock
  · intro u hu
    by_cases hut : u = t
    · rw [hut] at hu ⊢
      exact hkeeps.owner hu
    · rw [hother u hut] at hu
      rw [howner u hut hu]
      exact h.owner u hu
  · intro u hu
    by_cases hut : u = t
    · rw [hut] at hu ⊢
      exact hkeeps.recursion hu
    · rw [hother u hut] at hu ⊢
      rw [hrecursion u hut hu]
      exact h.recursion u hu
  · intro u hu
    by_cases hut : u = t
    · rw [hut] at hu
      exact hkeeps.small hu
    · rw [hother u hut] at hu
      rw [hrecursion u hut hu]
      exact h.small u hu
  · intro u hu
    by_cases hut : u = t
    · rw [hut] at hu
      exact hkeeps.fresh hu
    · rw [hother u hut] at hu
      exact hfresh u hut hu
  · intro u hu
    by_cases hut : u = t
    · rw [hut] at hu ⊢
      exact hkeeps.strays hu
    · rw [hother u hut]
      apply h.strays
      rcases hkeeps.recorded with hsame | hnone | hself
      · rw [← hsame]
        exact hu
      · rw [hnone] at hu
        cases hu
      · rw [hself] at hu
        exact absurd (Option.some.inj hu).symm hut
  · intro u
    by_cases hut : u = t
    · rw [hut]
      exact hkeeps.owned
    · rw [hother u hut]
      exact h.owned u
  · intro w hw
    by_cases hwt : w = t
    · rw [hwt] at hw
      exact ⟨t, hkeeps.waits hw⟩
    · rw [hother w hwt] at hw
      rcases hrouses with hthis | hthat
      · obtain ⟨u, hu⟩ := h.rouses w hw
        by_cases hut : u = t
        · rw [hut] at hu
          exact ⟨t, hthis hu⟩
        · rcases hu with hlock | hsignaled | hstirs
          · exact ⟨t, hthis (.inl hlock)⟩
          · exact ⟨t, hthis (.inr (.inl hsignaled))⟩
          · refine ⟨u, .inr (.inr ?_)⟩
            rw [hother u hut]
            exact hstirs
      · rcases hthat w hw with hsignaled | ⟨u, hut, hstirs⟩
        · exact ⟨t, .inr (.inl hsignaled)⟩
        · refine ⟨u, .inr (.inr ?_)⟩
          rw [hother u hut]
          exact hstirs

/-- What is known of the mutex and of the thread before its step. -/
structure Ready (k : Kind) (t : τ) (m : Mutex τ) (th : Thread) : Prop where
  held : th.Has → m.lock ≠ 0
  owner : th.Owns → m.owner = some t
  recursion : th.Counts → m.recursion = th.recursion
  small : th.Counts → m.recursion < 2 ^ 31
  fresh : th.pc = .setOwner → m.recursion = 1
  strays : m.owner = some t → th.Owns ∨ th.Strays
  owned : Owned k th

/-- The part of `Orderly` about the fields of the mutex. -/
def Steady (t : τ) (m : Mutex τ) (th : Thread) : Prop := match th.pc with
  | .contend => m.lock = 0 → m.owner = some t ∧ m.recursion = 1
  | .addRecursion => m.recursion < 2 ^ 31 - 1
  | _ => True

/-- Where a thread is of no special kind. -/
def Pc.Plain (pc : Pc) : Prop := match pc with
  | .out | .lockSwap | .compareOwner | .addRecursion | .trySwap | .tryOwner | .unlockOwner | .signal => True
  | _ => False

theorem Pc.Plain.has {th : Thread} (h : th.pc.Plain) : th.Has ↔ 0 < th.count := by
  obtain ⟨pc, count, ret⟩ := th
  cases pc <;> simp_all [Pc.Plain, Thread.Has]

theorem Pc.Plain.owns {th : Thread} (h : th.pc.Plain) : th.Owns ↔ 0 < th.count := by
  obtain ⟨pc, count, ret⟩ := th
  cases pc <;> simp_all [Pc.Plain, Thread.Owns]

theorem Pc.Plain.counts {th : Thread} (h : th.pc.Plain) : th.Counts ↔ 0 < th.count := by
  obtain ⟨pc, count, ret⟩ := th
  cases pc <;> simp_all [Pc.Plain, Thread.Counts]

theorem Pc.Plain.recursion {th : Thread} (h : th.pc.Plain) : th.recursion = th.count := by
  obtain ⟨pc, count, ret⟩ := th
  cases pc <;> simp_all [Pc.Plain, Thread.recursion]

theorem Pc.Plain.strays {th : Thread} (h : th.pc.Plain) : ¬ th.Strays := by
  obtain ⟨pc, count, ret⟩ := th
  cases pc <;> simp_all [Pc.Plain, Thread.Strays]

omit [DecidableEq τ] in
theorem Ready.keeps {m m' : Mutex τ} {th th' : Thread} (h : Ready k t m th) (hpc : th.pc.Plain) (hpc' : th'.pc.Plain)
    (hcount : th'.count = th.count) (howned : Owned k th') (hlock : m'.lock = 0 ↔ m.lock = 0)
    (howner : m'.owner = m.owner) (hrecursion : m'.recursion = m.recursion) : Keeps k t m m' th th' := by
  constructor
  · apply Passes.stays
    · rw [hpc.has, hpc'.has, hcount]
    · exact hlock
  · intro howns
    rw [hpc'.owns, hcount, ← hpc.owns] at howns
    rw [howner]
    exact h.owner howns
  · intro hcounts
    rw [hpc'.counts, hcount, ← hpc.counts] at hcounts
    rw [hrecursion, hpc'.recursion, hcount, ← hpc.recursion]
    exact h.recursion hcounts
  · intro hcounts
    rw [hpc'.counts, hcount, ← hpc.counts] at hcounts
    rw [hrecursion]
    exact h.small hcounts
  · intro hset
    rw [hset] at hpc'
    exact hpc'.elim
  · intro hself
    rw [howner] at hself
    left
    rw [hpc'.owns, hcount, ← hpc.owns]
    exact (h.strays hself).resolve_right hpc.strays
  · exact .inl howner
  · exact howned
  · intro hwait
    rw [hwait] at hpc'
    exact hpc'.elim

section
attribute [local simp] Thread.Owns Thread.Counts Thread.goto Thread.locked Thread.done Thread.unlock Thread.recursion Owned Thread.Strays

theorem exec_keeps {m m' : Mutex τ} {th th' : Thread} (hk : k ≠ .normal) (h : Ready k t m th) (hok : Steady t m th)
    (hexec : exec k t m th = some (m', th')) : Keeps k t m m' th th' := by
  have hready := h
  obtain ⟨hheld, howner, hrecursion, hsmall, hfresh, hstrays, howned⟩ := h
  obtain ⟨pc, count, ret⟩ := th
  have hnotrec : k ≠ .recursive → k = .errorcheck := by
    cases k <;> simp_all
  cases pc with
  | out => cases hexec
  | lockSwap =>
    simp only [exec, if_neg hk] at hexec
    split at hexec
    · rename_i hfree
      obtain ⟨rfl, rfl⟩ := Prod.mk.inj (Option.some.inj hexec)
      have hnot : ¬ 0 < count := fun hpos => hheld (.inl hpos) hfree
      constructor
      · exact .takes hfree (by simp) (by simp [Thread.Has])
      all_goals simp_all
    · rename_i hlocked
      obtain ⟨rfl, rfl⟩ := Prod.mk.inj (Option.some.inj hexec)
      exact hready.keeps trivial trivial rfl howned (by simp [hlocked]) rfl rfl
  | compareOwner =>
    simp only [exec] at hexec
    split at hexec
    · rename_i hself
      obtain ⟨rfl, rfl⟩ := Prod.mk.inj (Option.some.inj hexec)
      have hpos : 0 < count := by
        simpa [Thread.Owns, Thread.Strays] using hstrays hself
      split
      · rename_i hrec
        exact hready.keeps trivial trivial rfl ⟨hpos, hrec⟩ Iff.rfl rfl rfl
      · exact hready.keeps trivial trivial rfl howned Iff.rfl rfl rfl
    · rename_i hother
      obtain ⟨rfl, rfl⟩ := Prod.mk.inj (Option.some.inj hexec)
      have hnot : count = 0 := by
        have hno : ¬ 0 < count := fun hpos => hother (howner (.inl hpos))
        omega
      constructor
      · apply Passes.stays <;> simp [Thread.Has]
      all_goals simp_all
  | contend =>
    simp only [exec, Option.some.injEq, Prod.mk.injEq] at hexec
    obtain ⟨rfl, rfl⟩ := hexec
    split
    · rename_i hfree
      constructor
      · exact .takes hfree (by simp) (by simp [Thread.Has])
      all_goals simp_all [Steady]
    · rename_i hlocked
      constructor
      · apply Passes.stays <;> simp [Thread.Has, hlocked]
      all_goals simp_all [Rouses]
  | waiting =>
    simp only [exec, if_neg hk] at hexec
    split at hexec
    · obtain ⟨rfl, rfl⟩ := Prod.mk.inj (Option.some.inj hexec)
      constructor
      · apply Passes.stays <;> simp [Thread.Has]
      all_goals simp_all
    · cases hexec
  | wokenRecursion | wokenOwner | setRecursion | setOwner | clearOwner =>
    simp only [exec, Option.some.injEq, Prod.mk.injEq] at hexec
    obtain ⟨rfl, rfl⟩ := hexec
    constructor
    · apply Passes.stays <;> simp [Thread.Has]
    all_goals simp_all
  | addRecursion =>
    simp only [exec, Option.some.injEq, Prod.mk.injEq] at hexec
    obtain ⟨rfl, rfl⟩ := hexec
    obtain ⟨hpos, hrec⟩ : 0 < count ∧ k = .recursive := howned
    have hvalue : m.recursion = count := by
      have hcount := hrecursion (.inl hpos)
      simpa [Thread.recursion] using hcount
    have hroom : m.recursion < 2 ^ 31 - 1 := hok
    have hnext : int32 (m.recursion + 1) = m.recursion + 1 := int32_eq (by omega) (by omega)
    rw [hnext]
    constructor
    · apply Passes.stays <;> simp [Thread.Has, hpos]
    all_goals simp_all
    all_goals omega
  | trySwap =>
    simp only [exec, if_neg hk] at hexec
    split at hexec
    · rename_i hfree
      obtain ⟨rfl, rfl⟩ := Prod.mk.inj (Option.some.inj hexec)
      have hnot : ¬ 0 < count := fun hpos => hheld (.inl hpos) hfree
      constructor
      · exact .takes hfree (by simp) (by simp [Thread.Has])
      all_goals simp_all
    · obtain ⟨rfl, rfl⟩ := Prod.mk.inj (Option.some.inj hexec)
      split
      · rename_i hrec
        exact hready.keeps trivial trivial rfl hrec Iff.rfl rfl rfl
      · exact hready.keeps trivial trivial rfl howned Iff.rfl rfl rfl
  | tryOwner =>
    simp only [exec, Option.some.injEq, Prod.mk.injEq] at hexec
    obtain ⟨rfl, rfl⟩ := hexec
    have hrec : k = .recursive := howned
    split
    · rename_i hself
      have hpos : 0 < count := by
        simpa [Thread.Owns, Thread.Strays] using hstrays hself
      exact hready.keeps trivial trivial rfl ⟨hpos, hrec⟩ Iff.rfl rfl rfl
    · have hout : Owned k (Thread.done ⟨.tryOwner, count, ret⟩ .ebusy) := by
        intro herror
        rw [hrec] at herror
        cases herror
      exact hready.keeps trivial trivial rfl hout Iff.rfl rfl rfl
  | unlockOwner =>
    simp only [exec, Option.some.injEq, Prod.mk.injEq] at hexec
    obtain ⟨rfl, rfl⟩ := hexec
    split
    · rename_i hself
      have hpos : 0 < count := by
        simpa [Thread.Owns, Thread.Strays] using hstrays hself
      have hvalue : m.recursion = count := by
        simpa [Thread.recursion] using hrecursion (.inl hpos)
      split
      · rename_i hrec
        constructor
        · apply Passes.stays <;> simp [Thread.Has, hpos]
        all_goals simp_all
      · rename_i hrec
        have hone : count = 1 := by
          have hle : count ≤ 1 := howned (hnotrec hrec)
          omega
        constructor
        · apply Passes.stays <;> simp [Thread.Has, hpos]
        all_goals simp_all
    · exact hready.keeps trivial trivial rfl howned Iff.rfl rfl rfl
  | subRecursion =>
    simp only [exec, Option.some.injEq, Prod.mk.injEq] at hexec
    obtain ⟨rfl, rfl⟩ := hexec
    have hvalue : m.recursion = count + 1 := by
      simpa [Thread.recursion] using hrecursion (.inr rfl)
    have hroom := hsmall (.inr rfl)
    have hnext : int32 (m.recursion - 1) = m.recursion - 1 := int32_eq (by omega) (by omega)
    have hself := howner (.inr (.inl rfl))
    rw [hnext]
    split
    · rename_i hlast
      have hzero : count = 0 := by omega
      constructor
      · apply Passes.stays <;> simp [Thread.Has]
      all_goals simp_all
    · rename_i hlast
      have hpos : 0 < count := by omega
      constructor
      · apply Passes.stays <;> simp [Thread.Has, hpos]
      all_goals simp_all
      all_goals omega
  | unlockSwap =>
    simp only [exec, if_neg hk, Option.some.injEq, Prod.mk.injEq] at hexec
    obtain ⟨rfl, rfl⟩ := hexec
    have hzero : count = 0 := howned
    have hgives (th' : Thread) (hnot : ¬ th'.Has) :
        Passes m { m with lock := 0 } ⟨.unlockSwap, count, ret⟩ th' := .gives (by simp [Thread.Has]) rfl hnot
    split
    · constructor
      · exact hgives _ (by simp [Thread.Has, hzero])
      all_goals simp_all
    · constructor
      · exact hgives _ (by simp [Thread.Has, hzero])
      all_goals simp_all
  | signal =>
    simp only [exec, Option.some.injEq, Prod.mk.injEq] at hexec
    obtain ⟨rfl, rfl⟩ := hexec
    have hzero : count = 0 := howned
    exact hready.keeps trivial trivial rfl (fun _ => hzero ▸ Nat.zero_le 1) Iff.rfl rfl rfl

end

theorem exec_owner {m m' : Mutex τ} {th th' : Thread} (hexec : exec k t m th = some (m', th')) :
    m'.owner = m.owner ∨ th.Has ∨ th.pc = .wokenOwner := by
  obtain ⟨pc, count, ret⟩ := th
  cases pc with
  | setOwner => exact .inr (.inl (.inr (.inr (.inl rfl))))
  | clearOwner => exact .inr (.inl (.inr (.inr (.inr (.inr (.inl rfl))))))
  | wokenOwner => exact .inr (.inr rfl)
  | _ =>
    left
    simp only [exec] at hexec
    grind

theorem exec_recursion {m m' : Mutex τ} {th th' : Thread} (howned : Owned k th)
    (hexec : exec k t m th = some (m', th')) :
    m'.recursion = m.recursion ∨ th.Has ∨ (th.pc = .wokenRecursion ∧ m'.recursion = 1) := by
  obtain ⟨pc, count, ret⟩ := th
  cases pc with
  | setRecursion => exact .inr (.inl (.inr (.inl rfl)))
  | addRecursion => exact .inr (.inl (.inl howned.1))
  | subRecursion => exact .inr (.inl (.inr (.inr (.inr (.inl rfl)))))
  | wokenRecursion =>
    obtain ⟨rfl, -⟩ := Prod.mk.inj (Option.some.inj hexec)
    exact .inr (.inr ⟨rfl, rfl⟩)
  | _ =>
    left
    simp only [exec] at hexec
    grind

theorem exec_rouses {m m' : Mutex τ} {th th' : Thread} (hk : k ≠ .normal) (h : Ready k t m th)
    (hexec : exec k t m th = some (m', th')) :
    (Rouses m th → Rouses m' th') ∨ (th.pc = .lockSwap ∧ 0 < th.count ∧ m'.signaled = m.signaled) := by
  obtain ⟨-, -, -, -, -, hstrays, -⟩ := h
  obtain ⟨pc, count, ret⟩ := th
  have hkeep (hlock : m'.lock = m.lock) (hsignaled : m'.signaled = m.signaled)
      (hstirs : Thread.Stirs ⟨pc, count, ret⟩ → th'.Stirs) : Rouses m ⟨pc, count, ret⟩ → Rouses m' th' := by
    rw [Rouses, Rouses, hlock, hsignaled]
    exact Or.imp_right (Or.imp_right hstirs)
  cases pc with
  | lockSwap =>
    simp only [exec, if_neg hk] at hexec
    split at hexec
    · rename_i hfree
      obtain ⟨rfl, rfl⟩ := Prod.mk.inj (Option.some.inj hexec)
      left
      rintro (hlock | hsignaled | hstirs)
      · omega
      · exact .inr (.inl hsignaled)
      · simp [Thread.Stirs, Thread.Retries] at hstirs
    · obtain ⟨rfl, rfl⟩ := Prod.mk.inj (Option.some.inj hexec)
      by_cases hpos : 0 < count
      · exact .inr ⟨rfl, hpos, rfl⟩
      · left
        intro _
        exact .inr (.inr (.inl (.inr (.inr (.inr ⟨rfl, Nat.eq_zero_of_not_pos hpos⟩)))))
  | compareOwner =>
    left
    simp only [exec] at hexec
    split at hexec
    · rename_i hself
      obtain ⟨rfl, rfl⟩ := Prod.mk.inj (Option.some.inj hexec)
      have hpos : 0 < count := by
        simpa [Thread.Owns, Thread.Strays] using hstrays hself
      apply hkeep rfl rfl
      intro hstirs
      simp only [Thread.Stirs, Thread.Retries, reduceCtorEq, true_and, false_or, or_false] at hstirs
      omega
    · obtain ⟨rfl, rfl⟩ := Prod.mk.inj (Option.some.inj hexec)
      exact fun _ => .inr (.inr (.inl (.inl rfl)))
  | contend =>
    left
    obtain ⟨rfl, rfl⟩ := Prod.mk.inj (Option.some.inj hexec)
    exact fun _ => .inl (by simp)
  | waiting =>
    left
    simp only [exec, if_neg hk] at hexec
    split at hexec
    · obtain ⟨rfl, rfl⟩ := Prod.mk.inj (Option.some.inj hexec)
      exact fun _ => .inr (.inr (.inl (.inr (.inl rfl))))
    · cases hexec
  | wokenRecursion =>
    left
    obtain ⟨rfl, rfl⟩ := Prod.mk.inj (Option.some.inj hexec)
    exact fun _ => .inr (.inr (.inl (.inr (.inr (.inl rfl)))))
  | wokenOwner =>
    left
    obtain ⟨rfl, rfl⟩ := Prod.mk.inj (Option.some.inj hexec)
    exact fun _ => .inr (.inr (.inl (.inl rfl)))
  | trySwap =>
    left
    simp only [exec, if_neg hk] at hexec
    split at hexec
    · rename_i hfree
      obtain ⟨rfl, rfl⟩ := Prod.mk.inj (Option.some.inj hexec)
      rintro (hlock | hsignaled | hstirs)
      · omega
      · exact .inr (.inl hsignaled)
      · simp [Thread.Stirs, Thread.Retries] at hstirs
    · obtain ⟨rfl, rfl⟩ := Prod.mk.inj (Option.some.inj hexec)
      exact hkeep rfl rfl (by simp [Thread.Stirs, Thread.Retries])
  | unlockSwap =>
    left
    simp only [exec, if_neg hk, Option.some.injEq, Prod.mk.injEq] at hexec
    obtain ⟨rfl, rfl⟩ := hexec
    split
    · exact fun _ => .inr (.inr (.inr rfl))
    · rename_i hlock
      rintro (hlock' | hsignaled | hstirs)
      · exact absurd hlock' hlock
      · exact .inr (.inl hsignaled)
      · simp [Thread.Stirs, Thread.Retries] at hstirs
  | signal =>
    left
    obtain ⟨rfl, rfl⟩ := Prod.mk.inj (Option.some.inj hexec)
    exact fun _ => .inr (.inl rfl)
  | out => cases hexec
  | _ =>
    left
    obtain ⟨rfl, rfl⟩ := Prod.mk.inj (Option.some.inj hexec)
    exact hkeep rfl rfl (by simp [Thread.Stirs, Thread.Retries])

omit [DecidableEq τ] in
theorem OwnedInv.ready (h : OwnedInv k s) (t : τ) : Ready k t s.mutex (s.threads t) := by
  constructor
  · exact fun hhas hfree => h.free.1 hfree t hhas
  · exact h.owner t
  · exact h.recursion t
  · exact h.small t
  · exact h.fresh t
  · exact h.strays t
  · exact h.owned t

theorem OwnedInv.go (h : OwnedInv k s) (hk : k ≠ .normal) (hok : Orderly s (.go t))
    (hs : s'.threads = Function.update s.threads t (s'.threads t))
    (hexec : exec k t s.mutex (s.threads t) = some (s'.mutex, s'.threads t)) : OwnedInv k s' := by
  have hready := h.ready t
  obtain ⟨hcontend, hcount, hrecord, hrelock, hadd⟩ := hok
  have hclash (u : τ) (hu : u ≠ t) (hthat : (s.threads u).Has) (hthis : (s.threads t).Has) : False :=
    hu (h.single u t hthat hthis)
  have hsteady : Steady t s.mutex (s.threads t) := by
    rw [Steady]
    split
    · rename_i hpc
      exact hcontend hpc
    · rename_i hpc
      exact hadd hpc
    · trivial
  apply h.change hs (exec_keeps hk hready hsteady hexec)
  · intro u hu howns
    rcases exec_owner hexec with hsame | hthis | hwoken
    · exact hsame
    · exact (hclash u hu howns.has hthis).elim
    · exact absurd howns (hrecord hwoken u)
  · intro u hu hcounts
    rcases exec_recursion (h.owned t) hexec with hsame | hthis | ⟨hwoken, hone⟩
    · exact hsame
    · exact (hclash u hu hcounts.owns.has hthis).elim
    · rcases hcount hwoken with hsame | hnone
      · rw [hone, hsame]
      · exact absurd hcounts (hnone u)
  · intro u hu hset
    rcases exec_recursion (h.owned t) hexec with hsame | hthis | ⟨-, hone⟩
    · rw [hsame]
      exact h.fresh u hset
    · exact (hclash u hu (.inr (.inr (.inl hset))) hthis).elim
    · exact hone
  · rcases exec_rouses hk hready hexec with hkeep | ⟨hswap, hpos, hsignaled⟩
    · exact .inl hkeep
    · right
      intro w hw
      rcases hrelock hswap hpos ⟨w, hw⟩ with hset | ⟨u, hu⟩
      · rw [hsignaled]
        exact .inl hset
      · refine .inr ⟨u, ?_, hu⟩
        rintro rfl
        simp [Thread.Stirs, Thread.Retries, hswap] at hu

theorem OwnedInv.call {c : Call} (h : OwnedInv k s) (hk : k ≠ .normal) (hout : (s.threads t).pc = .out)
    (hs : s'.threads = Function.update s.threads t (s'.threads t)) (hmutex : s'.mutex = s.mutex)
    (hthread : s'.threads t = (s.threads t).goto (c.entry k)) : OwnedInv k s' := by
  have howned := h.owned t
  have hplain : (s.threads t).pc.Plain := by
    rw [hout]
    trivial
  have hentry : (c.entry k).Plain ∧ Owned k ((s.threads t).goto (c.entry k)) := by
    simp only [Owned, hout] at howned
    cases c with
    | lock => exact ⟨trivial, howned⟩
    | trylock => exact ⟨trivial, howned⟩
    | unlock =>
      rw [Call.entry, if_neg hk]
      exact ⟨trivial, howned⟩
  have hsame : Rouses s.mutex (s.threads t) → Rouses s.mutex ((s.threads t).goto (c.entry k)) := by
    rintro (hlock | hsignaled | hstirs)
    · exact .inl hlock
    · exact .inr (.inl hsignaled)
    · simp [Thread.Stirs, Thread.Retries, hout] at hstirs
  apply h.change hs
  · rw [hmutex, hthread]
    exact (h.ready t).keeps hplain hentry.1 rfl hentry.2 Iff.rfl rfl rfl
  · exact fun _ _ _ => by rw [hmutex]
  · exact fun _ _ _ => by rw [hmutex]
  · intro u _ hset
    rw [hmutex]
    exact h.fresh u hset
  · left
    rw [hmutex, hthread]
    exact hsame

omit [DecidableEq τ] in
theorem ownedInv_init (k : Kind) : OwnedInv k (State.init : State τ) := by
  constructor
  all_goals simp [State.init, Thread.idle, Mutex.init, Thread.Has, Thread.Owns, Thread.Counts, Owned]

theorem OwnedInv.reach (hk : k ≠ .normal) (h : Reach (step k) Orderly State.init s) : OwnedInv k s := by
  apply h.invariant (ownedInv_init k)
  intro s a s' hinv hok hs
  obtain ⟨t, hthreads, ⟨c, rfl, hout, hmutex, hthread⟩ | ⟨rfl, hexec⟩⟩ := step_cases hs
  · exact hinv.call hk hout hthreads hmutex hthread
  · exact hinv.go hk hok hthreads hexec

/-- What is said of a state: one holder at most, recorded with the number of its locks, who alone can unlock the
mutex; and no thread waits for a free mutex with no wakeup on its way and nobody about to try again. -/
structure Settled (k : Kind) (s : State τ) : Prop where
  single : ∀ t u, 0 < (s.threads t).count → 0 < (s.threads u).count → t = u
  owner : ∀ t, 0 < (s.threads t).count → s.mutex.owner = some t ∧
    ((s.threads t).pc ≠ .subRecursion → s.mutex.recursion = (s.threads t).count)
  refused : ∀ t, (s.threads t).pc = .unlockOwner → (s.threads t).count = 0 →
    exec k t s.mutex (s.threads t) = some (s.mutex, (s.threads t).done .eperm)
  roused : s.mutex.lock = 0 → s.mutex.signaled = false → (∀ u, ¬ (s.threads u).Stirs) →
    ∀ w, (s.threads w).pc ≠ .waiting

section
variable [Fintype τ]

instance (th : Thread) : Decidable th.Counts := inferInstanceAs (Decidable (_ ∨ _))
instance (th : Thread) : Decidable th.Owns := inferInstanceAs (Decidable (_ ∨ _ ∨ _))
instance (th : Thread) : Decidable th.Retries := inferInstanceAs (Decidable (_ ∨ _ ∨ _ ∨ _))
instance (th : Thread) : Decidable th.Stirs := inferInstanceAs (Decidable (_ ∨ _))

instance (s : State τ) (a : Act τ) : Decidable (Orderly s a) :=
  match a with
  | .call _ _ => .isTrue trivial
  | .go _ => inferInstanceAs (Decidable (_ ∧ _ ∧ _ ∧ _ ∧ _))

end

/-- The second thread waits, is woken by the unlock of the first one, and gets the mutex. -/
def handOverRun : List (Act Bool) :=
  [.call true .lock, .go true, .go true, .go true, .call false .lock, .go false, .go false, .go false,
    .call true .unlock, .go true, .go true, .go true, .go true, .go true, .go false, .go false, .go false, .go false]

/-- A thread finds the mutex free when it tries again at once. It has the mutex, but nobody is recorded. -/
def unrecordedRun : List (Act Bool) :=
  [.call true .lock, .go true, .go true, .go true, .call false .lock, .go false, .go false,
    .call true .unlock, .go true, .go true, .go true, .go true, .go false]

end SimpleKernel.Pthread
