import SimpleKernel.Pthread.Mutex

/-! Mutexes of kind `PTHREAD_MUTEX_NORMAL`. -/
namespace SimpleKernel.Pthread
open Transition

variable {τ : Type} [DecidableEq τ]

/-- Unlock is only called by the holder. -/
def ByHolder (s : State τ) : Act τ → Prop
  | .call t .unlock => 0 < (s.threads t).count
  | _ => True

/-- A thread is on its way to try again or to set the event. -/
def Pc.Rouses (pc : Pc) : Prop := pc = .contend ∨ pc = .signal

/-- A thread that waits will be woken: by the unlock of a contended mutex, or because the event is set or will be
set, or by the unlock of a thread that will mark the mutex as contended. -/
def Awake (m : Mutex τ) (th : Thread) : Prop := m.lock < 0 ∨ m.signaled = true ∨ th.pc.Rouses

/-- Where a thread can be in the functions of a normal mutex. -/
def Normal (th : Thread) : Prop := match th.pc with
  | .out | .lockSwap | .contend | .waiting | .trySwap | .signal => True
  | .unlockSwap => 0 < th.count
  | _ => False

structure NormalInv (s : State τ) : Prop where
  single : ∀ t u, 0 < (s.threads t).count → 0 < (s.threads u).count → t = u
  free : s.mutex.lock = 0 ↔ ∀ t, (s.threads t).count = 0
  once : ∀ t, (s.threads t).count ≤ 1
  normal : ∀ t, Normal (s.threads t)
  awake : ∀ w, (s.threads w).pc = .waiting → ∃ u, Awake s.mutex (s.threads u)

omit [DecidableEq τ] in
theorem normalInv_init : NormalInv (State.init : State τ) := by
  constructor
  · exact fun t u h => absurd h (Nat.lt_irrefl 0)
  · exact ⟨fun _ _ => rfl, fun _ => rfl⟩
  · exact fun _ => Nat.zero_le 1
  · exact fun _ => trivial
  · exact fun w h => (nomatch h)

/-- What the step of one thread may do to the mutex: nothing, or the thread takes it, or gives it back. -/
inductive Moves (m m' : Mutex τ) (th th' : Thread) : Prop
  | stays : th'.count = th.count → (m'.lock = 0 ↔ m.lock = 0) → Moves m m' th th'
  | takes : m.lock = 0 → m'.lock ≠ 0 → th'.count = th.count + 1 → Moves m m' th th'
  | gives : 0 < th.count → m'.lock = 0 → th'.count = th.count - 1 → Moves m m' th th'

variable {s s' : State τ} {t : τ}

theorem NormalInv.change (h : NormalInv s) (hs : s'.threads = Function.update s.threads t (s'.threads t))
    (hmoves : Moves s.mutex s'.mutex (s.threads t) (s'.threads t))
    (hnormal : Normal (s'.threads t))
    (hawake : Awake s.mutex (s.threads t) → Awake s'.mutex (s'.threads t))
    (hwait : (s'.threads t).pc = .waiting → Awake s'.mutex (s'.threads t)) : NormalInv s' := by
  have hother (u : τ) (hu : u ≠ t) : s'.threads u = s.threads u := by
    rw [hs, Function.update_of_ne hu]
  have hle := h.once t
  constructor
  · intro u v hu hv
    by_cases hut : u = t
    · by_cases hvt : v = t
      · rw [hut, hvt]
      · rw [hut] at hu ⊢
        rw [hother v hvt] at hv
        cases hmoves with
        | stays hcount _ => exact h.single t v (hcount ▸ hu) hv
        | takes hfree _ _ =>
          have hzero := h.free.1 hfree v
          omega
        | gives hpos _ hcount => omega
    · by_cases hvt : v = t
      · rw [hvt] at hv ⊢
        rw [hother u hut] at hu
        cases hmoves with
        | stays hcount _ => exact h.single u t hu (hcount ▸ hv)
        | takes hfree _ _ =>
          have hzero := h.free.1 hfree u
          omega
        | gives hpos _ hcount => omega
      · rw [hother u hut] at hu
        rw [hother v hvt] at hv
        exact h.single u v hu hv
  · cases hmoves with
    | stays hcount hlock =>
      rw [hlock, h.free]
      apply forall_congr'
      intro u
      by_cases hut : u = t
      · rw [hut, hcount]
      · rw [hother u hut]
    | takes _ hlock hcount =>
      constructor
      · exact fun hzero => absurd hzero hlock
      · intro hall
        have hzero := hall t
        omega
    | gives hpos hlock hcount =>
      constructor
      · intro _ u
        by_cases hut : u = t
        · rw [hut]
          omega
        · rw [hother u hut]
          have hne : ¬ 0 < (s.threads u).count := fun hu => hut (h.single u t hu hpos)
          omega
      · exact fun _ => hlock
  · intro u
    by_cases hut : u = t
    · rw [hut]
      cases hmoves with
      | stays hcount _ => omega
      | takes hfree _ hcount =>
        have hzero := h.free.1 hfree t
        omega
      | gives _ _ hcount => omega
    · rw [hother u hut]
      exact h.once u
  · intro u
    by_cases hut : u = t
    · rw [hut]
      exact hnormal
    · rw [hother u hut]
      exact h.normal u
  · intro w hw
    by_cases hwt : w = t
    · rw [hwt] at hw
      exact ⟨t, hwait hw⟩
    · rw [hother w hwt] at hw
      obtain ⟨u, hu⟩ := h.awake w hw
      by_cases hut : u = t
      · rw [hut] at hu
        exact ⟨t, hawake hu⟩
      · rcases hu with hlock | hsignaled | hrouses
        · exact ⟨t, hawake (.inl hlock)⟩
        · exact ⟨t, hawake (.inr (.inl hsignaled))⟩
        · refine ⟨u, .inr (.inr ?_)⟩
          rw [hother u hut]
          exact hrouses

theorem exec_normal {m m' : Mutex τ} {th th' : Thread} (hn : Normal th)
    (hheld : 0 < th.count → m.lock ≠ 0) (h : exec .normal t m th = some (m', th')) :
    Moves m m' th th' ∧ Normal th' ∧ (Awake m th → Awake m' th') ∧ (th'.pc = .waiting → Awake m' th') := by
  obtain ⟨pc, count, ret⟩ := th
  cases pc with
  | out => cases h
  | lockSwap =>
    simp only [exec] at h
    split at h
    · rename_i hfree
      obtain ⟨rfl, rfl⟩ := Prod.mk.inj (Option.some.inj h)
      refine ⟨.takes hfree (by simp) rfl, trivial, ?_, fun hw => (nomatch hw)⟩
      rintro (hlock | hsignaled | hcontend | hsignal)
      · omega
      · exact .inr (.inl hsignaled)
      · cases hcontend
      · cases hsignal
    · rename_i hlocked
      obtain ⟨rfl, rfl⟩ := Prod.mk.inj (Option.some.inj h)
      exact ⟨.stays rfl (by simp [hlocked]), trivial, fun _ => .inr (.inr (.inl rfl)), fun hw => (nomatch hw)⟩
  | contend =>
    obtain ⟨rfl, rfl⟩ := Prod.mk.inj (Option.some.inj h)
    have hawake (th' : Thread) : Awake { m with lock := -1 } th' := .inl (by simp)
    refine ⟨?_, ?_, fun _ => hawake _, fun _ => hawake _⟩
    · split
      · rename_i hfree
        exact .takes hfree (by simp) rfl
      · rename_i hlocked
        exact .stays rfl (by simp [hlocked])
    · split <;> trivial
  | waiting =>
    simp only [exec] at h
    split at h
    · obtain ⟨rfl, rfl⟩ := Prod.mk.inj (Option.some.inj h)
      exact ⟨.stays rfl Iff.rfl, trivial, fun _ => .inr (.inr (.inl rfl)), fun hw => (nomatch hw)⟩
    · cases h
  | trySwap =>
    simp only [exec] at h
    split at h
    · rename_i hfree
      obtain ⟨rfl, rfl⟩ := Prod.mk.inj (Option.some.inj h)
      refine ⟨.takes hfree (by simp) rfl, trivial, ?_, fun hw => (nomatch hw)⟩
      rintro (hlock | hsignaled | hcontend | hsignal)
      · omega
      · exact .inr (.inl hsignaled)
      · cases hcontend
      · cases hsignal
    · obtain ⟨rfl, rfl⟩ := Prod.mk.inj (Option.some.inj h)
      refine ⟨.stays rfl Iff.rfl, trivial, ?_, fun hw => (nomatch hw)⟩
      rintro (hlock | hsignaled | hcontend | hsignal)
      · exact .inl hlock
      · exact .inr (.inl hsignaled)
      · cases hcontend
      · cases hsignal
  | unlockSwap =>
    have hpos : 0 < count := hn
    have hlocked : m.lock ≠ 0 := hheld hpos
    simp only [exec, if_neg hlocked] at h
    obtain ⟨rfl, rfl⟩ := Prod.mk.inj (Option.some.inj h)
    split
    · exact ⟨.gives hpos rfl rfl, trivial, fun _ => .inr (.inr (.inr rfl)), fun hw => (nomatch hw)⟩
    · rename_i hcontended
      refine ⟨.gives hpos rfl rfl, trivial, ?_, fun hw => (nomatch hw)⟩
      rintro (hlock | hsignaled | hcontend | hsignal)
      · exact absurd hlock hcontended
      · exact .inr (.inl hsignaled)
      · cases hcontend
      · cases hsignal
  | signal =>
    obtain ⟨rfl, rfl⟩ := Prod.mk.inj (Option.some.inj h)
    exact ⟨.stays rfl Iff.rfl, trivial, fun _ => .inr (.inl rfl), fun hw => (nomatch hw)⟩
  | _ => exact hn.elim

theorem NormalInv.step {a : Act τ} (h : NormalInv s) (hok : ByHolder s a) (hs : step .normal s a = some s') :
    NormalInv s' := by
  obtain ⟨t, hthreads, ⟨c, rfl, hout, hmutex, hthread⟩ | ⟨rfl, hexec⟩⟩ := step_cases hs
  · apply h.change hthreads
    · exact .stays (by rw [hthread]; rfl) (by rw [hmutex])
    · rw [hthread]
      cases c with
      | lock => trivial
      | trylock => trivial
      | unlock => exact hok
    · rw [hmutex]
      rintro (hlock | hsignaled | hcontend | hsignal)
      · exact .inl hlock
      · exact .inr (.inl hsignaled)
      · rw [hout] at hcontend
        cases hcontend
      · rw [hout] at hsignal
        cases hsignal
    · rw [hthread]
      cases c with
      | lock => exact fun hwait => (nomatch hwait)
      | trylock => exact fun hwait => (nomatch hwait)
      | unlock => exact fun hwait => (nomatch hwait)
  · have hheld : 0 < (s.threads t).count → s.mutex.lock ≠ 0 := by
      intro hpos hfree
      have hzero := h.free.1 hfree t
      omega
    obtain ⟨hmoves, hnormal, hawake, hwait⟩ := exec_normal (h.normal t) hheld hexec
    exact h.change hthreads hmoves hnormal hawake hwait

theorem NormalInv.reach (h : Reach (Pthread.step .normal) ByHolder State.init s) : NormalInv s :=
  h.invariant normalInv_init fun _ _ _ hinv hok hs => hinv.step hok hs

/-- A thread waits for a free mutex, and nobody tries again or has set the event. -/
def Stranded (s : State τ) : Prop :=
  s.mutex.lock = 0 ∧ s.mutex.signaled = false ∧ (∀ u, (s.threads u).pc ≠ .contend) ∧ ∃ w, (s.threads w).pc = .waiting

/-- One thread at most is between lock and unlock. Where a thread waits for a free mutex and nobody tries again or
has set the event, an unlock that found the mutex contended is about to set it. -/
theorem normal_mutex (h : Reach (Pthread.step .normal) ByHolder State.init s) :
    (∀ t u, 0 < (s.threads t).count → 0 < (s.threads u).count → t = u) ∧
      (s.mutex.lock = 0 ↔ ∀ t, (s.threads t).count = 0) ∧
      (Stranded s → ∃ u, (s.threads u).pc = .signal) := by
  have hinv := NormalInv.reach h
  refine ⟨hinv.single, hinv.free, ?_⟩
  rintro ⟨hfree, hsignaled, hcontend, w, hw⟩
  obtain ⟨u, hlock | hset | hretries | hsignal⟩ := hinv.awake w hw
  · omega
  · rw [hsignaled] at hset
    cases hset
  · exact absurd hretries (hcontend u)
  · exact ⟨u, hsignal⟩

instance (s : State τ) (a : Act τ) : Decidable (ByHolder s a) :=
  match a with
  | .call t .unlock => inferInstanceAs (Decidable (0 < (s.threads t).count))
  | .call _ .lock => .isTrue trivial
  | .call _ .trylock => .isTrue trivial
  | .go _ => .isTrue trivial

/-- The second thread waits when the first one gives the mutex back. -/
def strandRun : List (Act Bool) :=
  [.call true .lock, .go true, .call false .lock, .go false, .go false, .call true .unlock, .go true]

theorem strandRun_stranded : ∃ s, runOk (step .normal) ByHolder (State.init : State Bool) strandRun = some s ∧
    Stranded s ∧ (s.threads true).pc = .signal := by
  refine ⟨_, rfl, ⟨rfl, rfl, ?_, false, rfl⟩, rfl⟩
  decide

theorem normal_mutex_strandRun : ∃ s : State Bool, Stranded s ∧ ∃ u, (s.threads u).pc = .signal := by
  obtain ⟨s, hs, hstranded, -⟩ := strandRun_stranded
  exact ⟨s, hstranded, (normal_mutex (reach_of_runOk _ hs)).2.2 hstranded⟩

/-- Between the exchange of an unlock and the setting of its event no wakeup is pending. -/
theorem normal_mutex_stranded : ¬ ∀ s : State Bool, Reach (step .normal) ByHolder State.init s →
    (∀ t u, 0 < (s.threads t).count → 0 < (s.threads u).count → t = u) ∧ ¬ Stranded s := by
  intro hclaim
  obtain ⟨s, hs, hstranded, -⟩ := strandRun_stranded
  exact (hclaim s (reach_of_runOk _ hs)).2 hstranded

end SimpleKernel.Pthread
