import SimpleKernel.Pthread.Condvar

/-! Which threads a signal or a broadcast wakes. -/
namespace SimpleKernel.Pthread.Condvar
open Transition Tally

variable {τ : Type}

/-- The thread is in a signal or broadcast and has not called `semrel`. -/
def Pc.Rousing : Pc → Prop
  | .signalTest | .signalRelease | .broadcastTest | .broadcastCount | .broadcastRelease _ => True
  | _ => False

/-- The thread holds the mutex. -/
def Pc.Locks : Pc → Prop
  | .increment | .unlock | .returnErrno | .signalTest | .signalRelease | .broadcastTest | .broadcastCount
  | .broadcastRelease _ => True
  | _ => False

theorem Pc.Rousing.locks {pc : Pc} (h : pc.Rousing) : pc.Locks := by
  cases pc
  all_goals first | exact trivial | exact h.elim

/-- The thread is counted in `waiting`. -/
def Pc.counted : Pc → ℕ
  | .unlock | .waitone | .queued | .decrement => 1
  | _ => 0

/-- What holds of a call that has returned. A signal has made one of the threads return that were waiting then, a
broadcast all. A wait that succeeded was woken by a call made after it began. -/
structure Ended (th : Thread τ) : Prop where
  signal : th.last = some .signal → th.ret = some 0 ∧ (th.seen.Nonempty → ∃ u ∈ th.seen, th.freed = [u])
  broadcast : th.last = some .broadcast → th.ret = some 0 ∧ ∀ u, u ∈ th.seen ↔ u ∈ th.freed
  wait : th.last = some .wait → th.ret = some th.rc ∧ (th.rc = 0 → th.fresh = false)

/-- What a thread knows of its own call. -/
def Local (th : Thread τ) : Prop := match th.pc with
  | .out => Ended th
  | .increment | .unlock | .waitone | .queued => th.last = some .wait ∧ th.errno = 0 ∧ th.rc = 0
  | .decrement | .lock | .returnErrno => th.last = some .wait ∧ th.errno = th.rc ∧ (th.rc = 0 → th.fresh = false)
  | .signalTest | .signalRelease => th.last = some .signal
  | .broadcastTest | .broadcastCount | .broadcastRelease _ => th.last = some .broadcast

variable [DecidableEq τ] [Fintype τ]

/-- What a thread that is about to wake others knows: nobody has begun to wait since it was called. -/
structure Rouses (s : State τ) (th : Thread τ) : Prop where
  seen : th.seen = s.waiters
  freed : th.freed = []
  fresh : ∀ u ∈ s.waiters, (s.threads u).fresh = false
  bound : ∀ n, th.pc = .broadcastRelease n → s.waiters.card ≤ n

structure Inv (s : State τ) : Prop where
  waiting : s.cond.waiting = (∑ t, (s.threads t).pc.counted : ℕ)
  count : s.cond.count = 0
  nodup : s.cond.queue.Nodup
  queue : ∀ t, t ∈ s.cond.queue ↔ (s.threads t).pc = .queued
  holds : ∀ t, (s.threads t).pc.Locks → s.mutex = some t
  own : ∀ t, Local (s.threads t)
  rouses : ∀ t, (s.threads t).pc.Rousing → Rouses s (s.threads t)

omit [DecidableEq τ] in
theorem inv_init : Inv (State.init : State τ) := by
  constructor
  · simp [State.init, Thread.idle, Pc.counted]
  · rfl
  · exact List.nodup_nil
  · exact fun t => ⟨nofun, nofun⟩
  · exact fun t h => h.elim
  · exact fun t => ⟨nofun, nofun, nofun⟩
  · exact fun t h => h.elim

variable {s s' : State τ} {t u : τ} {th : Thread τ} {cond : Cond τ} {mutex : Option τ}

section
omit [DecidableEq τ]

theorem mem_waiters : u ∈ s.waiters ↔ (s.threads u).Waits := by
  simp [State.waiters]

theorem Inv.quiet (h : Inv s) (hmutex : s.mutex = some t ∨ s.mutex = none) (hu : u ≠ t) :
    ¬ (s.threads u).pc.Locks := by
  intro hlocks
  have hheld := h.holds u hlocks
  rcases hmutex with hmutex | hmutex
  · exact hu (Option.some.inj (hheld.symm.trans hmutex))
  · rw [hheld] at hmutex
    nomatch hmutex

theorem waiters_congr (h : ∀ u, (s'.threads u).Waits ↔ (s.threads u).Waits) : s'.waiters = s.waiters := by
  unfold State.waiters
  apply Finset.filter_congr
  exact fun u _ => h u

end

theorem Inv.put (h : Inv s)
    (hwaiting : cond.waiting + (s.threads t).pc.counted = s.cond.waiting + th.pc.counted)
    (hcount : cond.count = 0) (hnodup : cond.queue.Nodup)
    (hqueue : ∀ u, u ∈ cond.queue ↔ u ≠ t ∧ u ∈ s.cond.queue ∨ u = t ∧ th.pc = .queued)
    (hmutex : mutex = s.mutex ∨ s.mutex = some t ∨ s.mutex = none)
    (hlocks : th.pc.Locks → mutex = some t) (hown : Local th)
    (hwaits : (th.Waits ↔ (s.threads t).Waits) ∧ (th.Waits → th.fresh = (s.threads t).fresh) ∨
      (s.mutex = some t ∨ s.mutex = none) ∧ ¬ th.pc.Rousing)
    (hrouses : th.pc.Rousing → (s.threads t).pc.Rousing ∧ th.seen = (s.threads t).seen ∧
      th.freed = (s.threads t).freed ∧ ∀ n, th.pc = .broadcastRelease n → s.waiters.card ≤ n) :
    Inv ⟨cond, mutex, Function.update s.threads t th⟩ := by
  constructor
  · have hsum := sum_update (fun x : Thread τ => x.pc.counted) s.threads t th
    have hold := h.waiting
    dsimp only
    omega
  · exact hcount
  · exact hnodup
  · intro u
    by_cases hu : u = t
    · rw [hqueue u, hu]
      simp
    · rw [hqueue u]
      simpa [hu] using h.queue u
  · intro u
    by_cases hu : u = t
    · subst hu
      simpa using hlocks
    · dsimp only
      rw [Function.update_of_ne hu]
      intro hheld
      rcases hmutex with hsame | hother
      · rw [hsame]
        exact h.holds u hheld
      · exact absurd hheld (h.quiet hother hu)
  · intro u
    by_cases hu : u = t
    · subst hu
      simpa using hown
    · simpa [hu] using h.own u
  · intro u
    dsimp only
    rcases hwaits with ⟨hsame, hfresh⟩ | ⟨hheld, hquiet⟩
    · have hwaiters : State.waiters ⟨cond, mutex, Function.update s.threads t th⟩ = s.waiters := by
        apply waiters_congr
        intro v
        by_cases hv : v = t
        · rw [hv]
          simpa using hsame
        · simp [hv]
      have hstale (hall : ∀ v ∈ s.waiters, (s.threads v).fresh = false) (v : τ) (hv : v ∈ s.waiters) :
          (Function.update s.threads t th v).fresh = false := by
        by_cases hvt : v = t
        · subst hvt
          rw [Function.update_self, hfresh (hsame.2 (mem_waiters.1 hv))]
          exact hall v hv
        · rw [Function.update_of_ne hvt]
          exact hall v hv
      by_cases hu : u = t
      · subst hu
        rw [Function.update_self]
        intro hrousing
        obtain ⟨hbefore, hseen, hfreed, hbound⟩ := hrouses hrousing
        have hr := h.rouses u hbefore
        constructor
        · rw [hseen, hwaiters, hr.seen]
        · rw [hfreed, hr.freed]
        · rw [hwaiters]
          exact hstale hr.fresh
        · rw [hwaiters]
          exact hbound
      · rw [Function.update_of_ne hu]
        intro hrousing
        have hr := h.rouses u hrousing
        constructor
        · rw [hwaiters, hr.seen]
        · exact hr.freed
        · rw [hwaiters]
          exact hstale hr.fresh
        · rw [hwaiters]
          exact hr.bound
    · intro hrousing
      by_cases hu : u = t
      · subst hu
        rw [Function.update_self] at hrousing
        exact absurd hrousing hquiet
      · rw [Function.update_of_ne hu] at hrousing
        exact absurd hrousing.locks (h.quiet hheld hu)

theorem Inv.advance (h : Inv s) {w : ℤ} (hpc : (s.threads t).pc ≠ .queued) (hnext : th.pc ≠ .queued)
    (hwaiting : w + (s.threads t).pc.counted = s.cond.waiting + th.pc.counted)
    (hmutex : mutex = s.mutex ∨ s.mutex = some t ∨ s.mutex = none)
    (hlocks : th.pc.Locks → mutex = some t) (hown : Local th)
    (hwaits : (th.Waits ↔ (s.threads t).Waits) ∧ (th.Waits → th.fresh = (s.threads t).fresh) ∨
      (s.mutex = some t ∨ s.mutex = none) ∧ ¬ th.pc.Rousing)
    (hrouses : th.pc.Rousing → (s.threads t).pc.Rousing ∧ th.seen = (s.threads t).seen ∧
      th.freed = (s.threads t).freed ∧ ∀ n, th.pc = .broadcastRelease n → s.waiters.card ≤ n) :
    Inv ⟨{ s.cond with waiting := w }, mutex, Function.update s.threads t th⟩ := by
  have hqueue (u : τ) : u ∈ s.cond.queue ↔ u ≠ t ∧ u ∈ s.cond.queue ∨ u = t ∧ th.pc = .queued := by
    constructor
    · intro hu
      refine .inl ⟨?_, hu⟩
      rintro rfl
      exact hpc ((h.queue u).1 hu)
    · rintro (⟨-, hu⟩ | ⟨-, hqueued⟩)
      · exact hu
      · exact absurd hqueued hnext
  exact h.put hwaiting h.count h.nodup hqueue hmutex hlocks hown hwaits hrouses

omit [DecidableEq τ] in
theorem Inv.waiting_le (h : Inv s) (t : τ) :
    (s.threads t).pc.counted ≤ s.cond.waiting ∧
      s.cond.waiting + 1 ≤ Fintype.card τ + (s.threads t).pc.counted := by
  have hone (u : τ) : (s.threads u).pc.counted ≤ 1 := by
    unfold Pc.counted
    split <;> omega
  have hadd : ∑ u, (s.threads u).pc.counted + ∑ u, (1 - (s.threads u).pc.counted) = Fintype.card τ := by
    rw [← Finset.sum_add_distrib, Fintype.card_eq_sum_ones]
    apply Finset.sum_congr rfl
    intro u _
    have hle := hone u
    omega
  have hle := le_sum (fun u => (s.threads u).pc.counted) t
  have hrest := le_sum (fun u => 1 - (s.threads u).pc.counted) t
  have hwaiting := h.waiting
  have ht := hone t
  omega

theorem Inv.increment (h : Inv s) (hcard : Fintype.card τ < 2 ^ 31) (hpc : (s.threads t).pc = .increment) :
    Inv ({ s with cond := { s.cond with waiting := int32 (s.cond.waiting + 1) } }.put t
      ((s.threads t).goto .unlock)) := by
  have hcounted : (s.threads t).pc.counted = 0 := by rw [hpc]; rfl
  have hle := h.waiting_le t
  have hint : int32 (s.cond.waiting + 1) = s.cond.waiting + 1 := int32_eq (by omega) (by omega)
  have hheld : s.mutex = some t := h.holds t (by rw [hpc]; trivial)
  have hown := h.own t
  simp only [Local, hpc] at hown
  rw [hint]
  apply h.advance
  · rw [hpc]
    nofun
  · nofun
  · rw [hcounted]
    simp [Thread.goto, Pc.counted]
  · exact .inl rfl
  · exact fun _ => hheld
  · exact hown
  · exact .inr ⟨.inl hheld, fun hr => hr⟩
  · exact fun hr => hr.elim

theorem Inv.unlock (h : Inv s) (hpc : (s.threads t).pc = .unlock) :
    Inv ({ s with mutex := none }.put t ((s.threads t).goto .waitone)) := by
  have hheld : s.mutex = some t := h.holds t (by rw [hpc]; trivial)
  have hown := h.own t
  simp only [Local, hpc] at hown
  apply h.advance
  · rw [hpc]
    nofun
  · nofun
  · rw [hpc]
    rfl
  · exact .inr (.inl hheld)
  · exact fun hl => hl.elim
  · exact hown
  · exact .inr ⟨.inl hheld, fun hr => hr⟩
  · exact fun hr => hr.elim

theorem Inv.enqueue (h : Inv s) (hpc : (s.threads t).pc = .waitone) :
    Inv ({ s with cond := { s.cond with queue := s.cond.queue ++ [t] } }.put t ((s.threads t).goto .queued)) := by
  have hnot : t ∉ s.cond.queue := by
    rw [h.queue, hpc]
    nofun
  have hown := h.own t
  simp only [Local, hpc] at hown
  apply h.put
  · rw [hpc]
    rfl
  · exact h.count
  · apply List.nodup_append.2 ⟨h.nodup, List.nodup_singleton t, _⟩
    rintro u hu v hv rfl
    exact hnot (List.mem_singleton.1 hv ▸ hu)
  · intro u
    rw [List.mem_append, List.mem_singleton]
    constructor
    · rintro (hu | hu)
      · refine .inl ⟨?_, hu⟩
        rintro rfl
        exact hnot hu
      · exact .inr ⟨hu, rfl⟩
    · rintro (⟨-, hu⟩ | ⟨hu, -⟩)
      · exact .inl hu
      · exact .inr hu
  · exact .inl rfl
  · exact fun hl => hl.elim
  · exact hown
  · refine .inl ⟨?_, fun _ => rfl⟩
    exact ⟨fun _ => .inl hpc, fun _ => .inr rfl⟩
  · exact fun hr => hr.elim

theorem Inv.decrement (h : Inv s) (hcard : Fintype.card τ < 2 ^ 31) (hpc : (s.threads t).pc = .decrement) :
    Inv ({ s with cond := { s.cond with waiting := int32 (s.cond.waiting - 1) } }.put t
      ((s.threads t).goto .lock)) := by
  have hcounted : (s.threads t).pc.counted = 1 := by rw [hpc]; rfl
  have hle := h.waiting_le t
  have hint : int32 (s.cond.waiting - 1) = s.cond.waiting - 1 := int32_eq (by omega) (by omega)
  have hown := h.own t
  simp only [Local, hpc] at hown
  have hbefore : ¬ (s.threads t).Waits := by simp [Thread.Waits, hpc]
  have hafter : ¬ ((s.threads t).goto .lock).Waits := by simp [Thread.Waits, Thread.goto]
  rw [hint]
  apply h.advance
  · rw [hpc]
    nofun
  · nofun
  · rw [hcounted]
    simp [Thread.goto, Pc.counted]
  · exact .inl rfl
  · exact fun hl => hl.elim
  · exact hown
  · exact .inl ⟨⟨fun hw => absurd hw hafter, fun hw => absurd hw hbefore⟩, fun hw => absurd hw hafter⟩
  · exact fun hr => hr.elim

theorem Inv.lock (h : Inv s) (hpc : (s.threads t).pc = .lock) (hfree : s.mutex = none) :
    Inv ({ s with mutex := some t }.put t ((s.threads t).goto .returnErrno)) := by
  have hown := h.own t
  simp only [Local, hpc] at hown
  apply h.advance
  · rw [hpc]
    nofun
  · nofun
  · rw [hpc]
    rfl
  · exact .inr (.inr hfree)
  · exact fun _ => rfl
  · exact hown
  · exact .inr ⟨.inr hfree, fun hr => hr⟩
  · exact fun hr => hr.elim

theorem Inv.returnErrno (h : Inv s) (hpc : (s.threads t).pc = .returnErrno) :
    Inv (s.put t ((s.threads t).done (s.threads t).errno)) := by
  have hheld : s.mutex = some t := h.holds t (by rw [hpc]; trivial)
  have hown := h.own t
  simp only [Local, hpc] at hown
  obtain ⟨hlast, herrno, hfresh⟩ := hown
  apply h.advance
  · rw [hpc]
    nofun
  · nofun
  · rw [hpc]
    rfl
  · exact .inl rfl
  · exact fun hl => hl.elim
  · constructor
    · intro hsignal
      rw [show ((s.threads t).done (s.threads t).errno).last = some .wait from hlast] at hsignal
      nomatch hsignal
    · intro hbroadcast
      rw [show ((s.threads t).done (s.threads t).errno).last = some .wait from hlast] at hbroadcast
      nomatch hbroadcast
    · exact fun _ => ⟨congrArg some herrno, hfresh⟩
  · exact .inr ⟨.inl hheld, fun hr => hr⟩
  · exact fun hr => hr.elim

theorem Inv.test (h : Inv s) {pc : Pc} {c : Call}
    (hpc : (s.threads t).pc = .signalTest ∧ pc = .signalRelease ∧ c = .signal ∨
      (s.threads t).pc = .broadcastTest ∧ pc = .broadcastCount ∧ c = .broadcast) :
    Inv (s.put t (if s.cond.waiting ≠ 0 then (s.threads t).goto pc else (s.threads t).done 0)) := by
  have hrousing : (s.threads t).pc.Rousing := by
    rcases hpc with ⟨hpc, -⟩ | ⟨hpc, -⟩
    all_goals
      rw [hpc]
      trivial
  have hheld := h.holds t hrousing.locks
  have hr := h.rouses t hrousing
  have hlast : (s.threads t).last = some c := by
    have hown := h.own t
    rcases hpc with ⟨hpc, -, rfl⟩ | ⟨hpc, -, rfl⟩
    all_goals simpa only [Local, hpc] using hown
  have hfacts : (s.threads t).pc.counted = 0 ∧ ¬ (s.threads t).Waits ∧ (s.threads t).pc ≠ .queued := by
    rcases hpc with ⟨hpc, -⟩ | ⟨hpc, -⟩
    all_goals simp [hpc, Pc.counted, Thread.Waits]
  have hnext : pc.counted = 0 ∧ ¬ ((s.threads t).goto pc).Waits ∧ pc ≠ .queued ∧ ∀ n, pc ≠ .broadcastRelease n := by
    rcases hpc with ⟨-, rfl, -⟩ | ⟨-, rfl, -⟩
    all_goals simp [Pc.counted, Thread.Waits, Thread.goto]
  split_ifs with hwaiting
  · apply h.advance hfacts.2.2 hnext.2.2.1
    · have hsame : ((s.threads t).goto pc).pc.counted = 0 := hnext.1
      rw [hfacts.1, hsame]
    · exact .inl rfl
    · exact fun _ => hheld
    · rcases hpc with ⟨-, rfl, rfl⟩ | ⟨-, rfl, rfl⟩
      · exact hlast
      · exact hlast
    · exact .inl ⟨⟨fun hw => absurd hw hnext.2.1, fun hw => absurd hw hfacts.2.1⟩, fun hw => absurd hw hnext.2.1⟩
    · exact fun _ => ⟨hrousing, rfl, rfl, fun n hn => absurd hn (hnext.2.2.2 n)⟩
  · have hnobody : s.waiters = ∅ := by
      apply Finset.filter_eq_empty_iff.2
      intro u _ hu
      have hcounted : (s.threads u).pc.counted = 1 := by
        rcases hu with hu | hu
        · rw [hu]
          rfl
        · rw [hu]
          rfl
      have hle := (h.waiting_le u).1
      omega
    apply h.advance hfacts.2.2
    · nofun
    · have hsame : ((s.threads t).done 0).pc.counted = 0 := rfl
      rw [hfacts.1, hsame]
    · exact .inl rfl
    · exact fun hl => hl.elim
    · have hseen : ((s.threads t).done 0).seen = ∅ := hr.seen.trans hnobody
      have hfreed : ((s.threads t).done 0).freed = [] := hr.freed
      constructor
      · intro _
        refine ⟨rfl, fun hsome => ?_⟩
        rw [hseen] at hsome
        exact absurd hsome Finset.not_nonempty_empty
      · intro _
        refine ⟨rfl, fun u => ?_⟩
        rw [hseen, hfreed]
        simp
      · intro hwait
        rw [show ((s.threads t).done 0).last = some c from hlast] at hwait
        obtain rfl := Option.some.inj hwait
        rcases hpc with ⟨-, -, hc⟩ | ⟨-, -, hc⟩
        · nomatch hc
        · nomatch hc
    · exact .inr ⟨.inl hheld, fun hr => hr⟩
    · exact fun hr => hr.elim

omit [DecidableEq τ] in
theorem Inv.waiters_le (h : Inv s) : s.waiters.card ≤ s.cond.waiting := by
  have hle : s.waiters.card ≤ ∑ u, (s.threads u).pc.counted := by
    unfold State.waiters
    rw [Finset.card_filter]
    apply Finset.sum_le_sum
    intro u _
    split_ifs with hu
    · rcases hu with hu | hu
      · rw [hu]
        exact Nat.le_refl 1
      · rw [hu]
        exact Nat.le_refl 1
    · exact Nat.zero_le _
  have hwaiting := h.waiting
  omega

theorem Inv.broadcastCount (h : Inv s) (hpc : (s.threads t).pc = .broadcastCount) :
    Inv (s.put t ((s.threads t).goto (.broadcastRelease s.cond.waiting))) := by
  have hrousing : (s.threads t).pc.Rousing := by
    rw [hpc]
    trivial
  have hheld := h.holds t hrousing.locks
  have hown := h.own t
  simp only [Local, hpc] at hown
  apply h.advance
  · rw [hpc]
    nofun
  · nofun
  · rw [hpc]
    rfl
  · exact .inl rfl
  · exact fun _ => hheld
  · exact hown
  · refine .inl ⟨?_, fun hw => ?_⟩
    · simp [Thread.Waits, Thread.goto, hpc]
    · simp [Thread.Waits, Thread.goto] at hw
  · refine fun _ => ⟨hrousing, rfl, rfl, fun n hn => ?_⟩
    obtain rfl := Pc.broadcastRelease.inj hn
    exact h.waiters_le

theorem Inv.semrel_eq (h : Inv s) {n : ℕ} (hn : n ≤ s.cond.queue.length) :
    s.semrel t n =
      { s with
        cond := { s.cond with queue := s.cond.queue.drop n }
        threads := fun u =>
          if u = t then { (s.threads u).done 0 with freed := s.cond.queue.take n }
          else if u ∈ s.cond.queue.take n then (s.threads u).goto .decrement else s.threads u } := by
  have hmin : min (s.cond.count + n) s.cond.queue.length = n := by
    rw [h.count]
    omega
  have hcount : s.cond.count + n - n = s.cond.count := by omega
  unfold State.semrel
  simp only [hmin, hcount]

theorem Inv.semrel (h : Inv s) {n : ℕ} (hn : n ≤ s.cond.queue.length) (hrousing : (s.threads t).pc.Rousing)
    (hended : Ended { (s.threads t).done 0 with freed := s.cond.queue.take n }) : Inv (s.semrel t n) := by
  rw [h.semrel_eq hn]
  have hheld := h.holds t hrousing.locks
  have hr := h.rouses t hrousing
  have hqueued {u : τ} (hu : u ∈ s.cond.queue.take n) : (s.threads u).pc = .queued :=
    (h.queue u).1 (List.mem_of_mem_take hu)
  have hquiet (u : τ) (hu : u ≠ t) : ¬ (s.threads u).pc.Locks := h.quiet (.inl hheld) hu
  constructor
  · rw [h.waiting]
    apply congrArg Nat.cast
    apply Finset.sum_congr rfl
    intro u _
    dsimp only
    split_ifs with hut hu
    · rw [hut]
      cases hpc : (s.threads t).pc
      all_goals first | rfl | (rw [hpc] at hrousing; exact hrousing.elim)
    · rw [hqueued hu]
      rfl
    · rfl
  · exact h.count
  · exact h.nodup.sublist (List.drop_sublist _ _)
  · intro u
    dsimp only
    have hsplit := List.take_append_drop n s.cond.queue
    have hdisjoint := (List.nodup_append.1 (hsplit.symm ▸ h.nodup)).2.2
    split_ifs with hut hu
    · rw [hut]
      refine ⟨fun hdrop => ?_, nofun⟩
      have hpc := (h.queue t).1 (List.mem_of_mem_drop hdrop)
      rw [hpc] at hrousing
      exact hrousing.elim
    · exact ⟨fun hdrop => absurd rfl (hdisjoint u hu u hdrop), nofun⟩
    · rw [← h.queue u]
      constructor
      · exact List.mem_of_mem_drop
      · intro hmem
        rw [← hsplit] at hmem
        exact (List.mem_append.1 hmem).resolve_left hu
  · intro u
    dsimp only
    split_ifs with hut hu
    · exact fun hl => hl.elim
    · exact fun hl => hl.elim
    · exact fun hl => absurd hl (hquiet u hut)
  · intro u
    dsimp only
    split_ifs with hut hu
    · subst hut
      exact hended
    · have hown := h.own u
      simp only [Local, hqueued hu] at hown
      have hwaits : u ∈ s.waiters := mem_waiters.2 (.inr (hqueued hu))
      exact ⟨hown.1, hown.2.1.trans hown.2.2.symm, fun _ => hr.fresh u hwaits⟩
    · exact h.own u
  · intro u
    dsimp only
    split_ifs with hut hu
    · exact fun hl => hl.elim
    · exact fun hl => hl.elim
    · exact fun hl => absurd hl.locks (hquiet u hut)

theorem Inv.signalRelease (h : Inv s) (hpc : (s.threads t).pc = .signalRelease) (hready : 1 ≤ s.cond.queue.length) :
    Inv (s.semrel t 1) := by
  have hrousing : (s.threads t).pc.Rousing := by
    rw [hpc]
    trivial
  have hr := h.rouses t hrousing
  have hlast := h.own t
  simp only [Local, hpc] at hlast
  obtain ⟨u, rest, hqueue⟩ := List.exists_cons_of_length_pos hready
  have hwaits : u ∈ s.waiters := mem_waiters.2 (.inr ((h.queue u).1 (by rw [hqueue]; exact List.mem_cons_self)))
  apply h.semrel hready hrousing
  rw [hqueue]
  constructor
  · exact fun _ => ⟨rfl, fun _ => ⟨u, hr.seen ▸ hwaits, rfl⟩⟩
  · intro hbroadcast
    nomatch hlast.symm.trans hbroadcast
  · intro hwait
    nomatch hlast.symm.trans hwait

theorem Inv.broadcastRelease (h : Inv s) {n : ℤ} (hpc : (s.threads t).pc = .broadcastRelease n)
    (hready : n ≤ s.cond.queue.length) : Inv (s.semrel t n.toNat) := by
  have hrousing : (s.threads t).pc.Rousing := by
    rw [hpc]
    trivial
  have hr := h.rouses t hrousing
  have hlast := h.own t
  simp only [Local, hpc] at hlast
  have hsubset : s.cond.queue.toFinset ⊆ s.waiters := by
    intro u hu
    exact mem_waiters.2 (.inr ((h.queue u).1 (List.mem_toFinset.1 hu)))
  have hlen : s.cond.queue.toFinset.card = s.cond.queue.length := List.toFinset_card_of_nodup h.nodup
  have hbound := hr.bound n hpc
  have heq : s.cond.queue.toFinset = s.waiters := by
    apply Finset.eq_of_subset_of_card_le hsubset
    omega
  have hle := Finset.card_le_card hsubset
  apply h.semrel (by omega) hrousing
  have htake : s.cond.queue.take n.toNat = s.cond.queue := List.take_of_length_le (by omega)
  rw [htake]
  constructor
  · intro hsignal
    nomatch hlast.symm.trans hsignal
  · refine fun _ => ⟨rfl, fun u => ?_⟩
    dsimp only [Thread.done]
    rw [hr.seen, ← heq, List.mem_toFinset]
  · intro hwait
    nomatch hlast.symm.trans hwait

theorem Inv.callWait (h : Inv s) (hpc : (s.threads t).pc = .out) (hheld : s.mutex = some t)
    (herrno : (s.threads t).errno = 0) : Inv (s.call t .wait) := by
  apply h.advance
  · rw [hpc]
    nofun
  · nofun
  · rw [hpc]
    rfl
  · exact .inl rfl
  · exact fun _ => hheld
  · exact ⟨rfl, herrno, rfl⟩
  · exact .inr ⟨.inl hheld, fun hr => hr⟩
  · exact fun hr => hr.elim

theorem Inv.callRouse (h : Inv s) {c : Call} (hc : c ≠ .wait) (hpc : (s.threads t).pc = .out)
    (hheld : s.mutex = some t) : Inv (s.call t c) := by
  have hentry : c.entry.Rousing ∧ c.entry.counted = 0 ∧ c.entry ≠ .queued ∧ c.entry ≠ .waitone ∧
      ∀ n, c.entry ≠ .broadcastRelease n := by
    cases c with
    | wait => exact absurd rfl hc
    | signal => exact ⟨trivial, rfl, nofun, nofun, nofun⟩
    | broadcast => exact ⟨trivial, rfl, nofun, nofun, nofun⟩
  have hquiet (u : τ) (hu : u ≠ t) : ¬ (s.threads u).pc.Locks := h.quiet (.inl hheld) hu
  unfold State.call
  rw [if_neg hc]
  have hwaiters : State.waiters ({ s with threads := fun u =>
      if u = t then { s.threads t with
        pc := c.entry, last := some c, ret := none, seen := s.waiters, freed := [], fresh := false }
      else { s.threads u with fresh := false } } : State τ) = s.waiters := by
    apply waiters_congr
    intro u
    dsimp only
    split_ifs with hu
    · rw [hu]
      simp [Thread.Waits, hpc, hentry]
    · rfl
  constructor
  · rw [h.waiting]
    apply congrArg Nat.cast
    apply Finset.sum_congr rfl
    intro u _
    dsimp only
    split_ifs with hu
    · rw [hu, hpc, hentry.2.1]
      rfl
    · rfl
  · exact h.count
  · exact h.nodup
  · intro u
    dsimp only
    split_ifs with hu
    · rw [hu, h.queue t, hpc]
      exact ⟨nofun, fun heq => absurd heq hentry.2.2.1⟩
    · exact h.queue u
  · intro u
    dsimp only
    split_ifs with hu
    · rw [hu]
      exact fun _ => hheld
    · exact h.holds u
  · intro u
    dsimp only
    split_ifs with hu
    · cases c with
      | wait => exact absurd rfl hc
      | signal => rfl
      | broadcast => rfl
    · have hown := h.own u
      unfold Local at hown ⊢
      dsimp only
      split at hown
      · exact ⟨hown.signal, hown.broadcast, fun hlast => ⟨(hown.wait hlast).1, fun _ => rfl⟩⟩
      all_goals first | exact hown | exact ⟨hown.1, hown.2.1, fun _ => rfl⟩
  · intro u
    dsimp only
    split_ifs with hu
    · intro _
      constructor
      · exact hwaiters.symm
      · rfl
      · intro v hv
        dsimp only
        split_ifs <;> rfl
      · exact fun n hn => absurd hn (hentry.2.2.2.2 n)
    · exact fun hl => absurd hl.locks (hquiet u hu)

omit [Fintype τ] in
theorem forget_eq (th : Thread τ) (u : τ) : ∃ seen, th.forget u = { th with seen := seen } ∧
    (th.pc = .out → seen = th.seen) ∧ (th.pc ≠ .out → seen = th.seen.erase u) := by
  unfold Thread.forget
  split_ifs with hpc
  · exact ⟨th.seen, rfl, fun _ => rfl, fun hne => absurd hpc hne⟩
  · exact ⟨th.seen.erase u, rfl, fun hout => absurd hout hpc, fun _ => rfl⟩

theorem Inv.interrupt (h : Inv s) (ht : (s.threads t).Waits) : Inv (s.interrupt t) := by
  have hcounted : (s.threads t).pc.counted = 1 ∧ (s.threads t).last = some .wait := by
    have hown := h.own t
    rcases ht with hpc | hpc
    all_goals
      simp only [Local, hpc] at hown
      exact ⟨by rw [hpc]; rfl, hown.1⟩
  have hwaiters : (s.interrupt t).waiters = s.waiters.erase t := by
    ext u
    rw [Finset.mem_erase, mem_waiters, mem_waiters]
    unfold State.interrupt
    dsimp only
    split_ifs with hu
    · simp [hu, Thread.Waits, Thread.goto]
    · obtain ⟨seen, hforget, -⟩ := forget_eq (s.threads u) t
      rw [hforget]
      exact ⟨fun hw => ⟨hu, hw⟩, fun hw => hw.2⟩
  have hpc (u : τ) (hu : u ≠ t) : ((s.interrupt t).threads u).pc = (s.threads u).pc := by
    unfold State.interrupt
    dsimp only
    rw [if_neg hu]
    obtain ⟨seen, hforget, -⟩ := forget_eq (s.threads u) t
    rw [hforget]
  have hself : (s.interrupt t).threads t = { (s.threads t).goto .decrement with errno := eintr, rc := eintr } :=
    if_pos rfl
  constructor
  · rw [show (s.interrupt t).cond.waiting = s.cond.waiting from rfl, h.waiting]
    apply congrArg Nat.cast
    apply Finset.sum_congr rfl
    intro u _
    by_cases hu : u = t
    · rw [hu, hcounted.1, hself]
      rfl
    · rw [hpc u hu]
  · exact h.count
  · exact h.nodup.erase t
  · intro u
    rw [show (s.interrupt t).cond.queue = s.cond.queue.erase t from rfl, h.nodup.mem_erase_iff]
    by_cases hu : u = t
    · rw [hu, hself]
      exact ⟨fun hw => absurd rfl hw.1, nofun⟩
    · rw [hpc u hu, ← h.queue u]
      exact ⟨fun hw => hw.2, fun hw => ⟨hu, hw⟩⟩
  · intro u
    by_cases hu : u = t
    · rw [hu, hself]
      exact fun hl => hl.elim
    · rw [hpc u hu]
      exact h.holds u
  · intro u
    unfold State.interrupt
    dsimp only
    split_ifs with hu
    · rw [hu]
      exact ⟨hcounted.2, rfl, nofun⟩
    · have hown := h.own u
      obtain ⟨seen, hforget, hout, -⟩ := forget_eq (s.threads u) t
      rw [hforget]
      unfold Local at hown ⊢
      dsimp only
      split at hown
      · next hpc =>
        rw [hout hpc]
        exact hown
      all_goals exact hown
  · intro u
    by_cases hu : u = t
    · rw [hu, hself]
      exact fun hl => hl.elim
    · intro hrousing
      rw [hpc u hu] at hrousing
      have hr := h.rouses u hrousing
      obtain ⟨seen, hforget, -, hseen⟩ := forget_eq (s.threads u) t
      have hinside : (s.threads u).pc ≠ .out := by
        intro hout
        rw [hout] at hrousing
        exact hrousing.elim
      have hthread : (s.interrupt t).threads u = { s.threads u with seen := s.waiters.erase t } := by
        unfold State.interrupt
        dsimp only
        rw [if_neg hu, hforget, hseen hinside, hr.seen]
      rw [hthread]
      constructor
      · exact hwaiters.symm
      · exact hr.freed
      · intro v hv
        rw [hwaiters] at hv
        obtain ⟨hvt, hv⟩ := Finset.mem_erase.1 hv
        unfold State.interrupt
        dsimp only
        rw [if_neg hvt]
        obtain ⟨seen', hforget', -⟩ := forget_eq (s.threads v) t
        rw [hforget']
        exact hr.fresh v hv
      · intro n hn
        have hbound := hr.bound n hn
        have hle := Finset.card_erase_le (a := t) (s := s.waiters)
        rw [hwaiters]
        omega

theorem Inv.exec (h : Inv s) (hcard : Fintype.card τ < 2 ^ 31) (hready : Ready s (.go t))
    (hexec : Condvar.exec s t = some s') : Inv s' := by
  unfold Condvar.exec at hexec
  simp only [Ready] at hready
  cases hpc : (s.threads t).pc with
  | out =>
    simp only [hpc] at hexec
    nomatch hexec
  | increment =>
    simp only [hpc] at hexec
    obtain rfl := Option.some.inj hexec
    exact h.increment hcard hpc
  | unlock =>
    simp only [hpc] at hexec
    obtain rfl := Option.some.inj hexec
    exact h.unlock hpc
  | waitone =>
    have hnone : ¬ 0 < s.cond.count := h.count.le.not_gt
    simp only [hpc, hnone] at hexec
    obtain rfl := Option.some.inj hexec
    exact h.enqueue hpc
  | queued =>
    simp only [hpc] at hexec
    nomatch hexec
  | decrement =>
    simp only [hpc] at hexec
    obtain rfl := Option.some.inj hexec
    exact h.decrement hcard hpc
  | lock =>
    simp only [hpc] at hexec
    split at hexec
    · next hfree =>
      obtain rfl := Option.some.inj hexec
      exact h.lock hpc hfree
    · nomatch hexec
  | returnErrno =>
    simp only [hpc] at hexec
    obtain rfl := Option.some.inj hexec
    exact h.returnErrno hpc
  | signalTest =>
    simp only [hpc] at hexec
    obtain rfl := Option.some.inj hexec
    exact h.test (.inl ⟨hpc, rfl, rfl⟩)
  | signalRelease =>
    simp only [hpc] at hexec hready
    obtain rfl := Option.some.inj hexec
    exact h.signalRelease hpc hready
  | broadcastTest =>
    simp only [hpc] at hexec
    obtain rfl := Option.some.inj hexec
    exact h.test (.inr ⟨hpc, rfl, rfl⟩)
  | broadcastCount =>
    simp only [hpc] at hexec
    obtain rfl := Option.some.inj hexec
    exact h.broadcastCount hpc
  | broadcastRelease n =>
    simp only [hpc] at hexec hready
    obtain rfl := Option.some.inj hexec
    exact h.broadcastRelease hpc hready

omit [DecidableEq τ] in
theorem Inv.setMutex (h : Inv s) (hpc : (s.threads t).pc = .out) (hmutex : s.mutex = some t ∨ s.mutex = none) :
    Inv { s with mutex := mutex } := by
  have hquiet (u : τ) (hl : (s.threads u).pc.Locks) : False := by
    have hu : u ≠ t := by
      rintro rfl
      rw [hpc] at hl
      exact hl.elim
    exact h.quiet hmutex hu hl
  constructor
  · exact h.waiting
  · exact h.count
  · exact h.nodup
  · exact h.queue
  · exact fun u hl => (hquiet u hl).elim
  · exact h.own
  · exact fun u hl => (hquiet u hl.locks).elim

theorem Inv.setErrno (h : Inv s) (hpc : (s.threads t).pc = .out) (e : ℤ) :
    Inv (s.put t { s.threads t with errno := e }) := by
  have hown := h.own t
  simp only [Local, hpc] at hown
  apply h.advance
  · rw [hpc]
    nofun
  · rw [hpc]
    nofun
  · rfl
  · exact .inl rfl
  · rw [hpc]
    exact fun hl => hl.elim
  · simp only [hpc]
    exact ⟨hown.signal, hown.broadcast, hown.wait⟩
  · exact .inl ⟨Iff.rfl, fun _ => rfl⟩
  · rw [hpc]
    exact fun hl => hl.elim

theorem Inv.step (h : Inv s) (hcard : Fintype.card τ < 2 ^ 31) {a : Act τ} (hdocumented : Documented s a)
    (hready : Ready s a) (hs : Condvar.step s a = some s') : Inv s' := by
  cases a with
  | lock t =>
    simp only [Condvar.step] at hs
    split at hs
    · next hfree =>
      obtain rfl := Option.some.inj hs
      exact h.setMutex hfree.1 (.inr hfree.2)
    · nomatch hs
  | unlock t =>
    simp only [Condvar.step] at hs
    split at hs
    · next hheld =>
      obtain rfl := Option.some.inj hs
      exact h.setMutex hheld.1 (.inl hheld.2)
    · nomatch hs
  | setErrno t e =>
    simp only [Condvar.step] at hs
    split at hs
    · next hpc =>
      obtain rfl := Option.some.inj hs
      exact h.setErrno hpc e
    · nomatch hs
  | call t c =>
    simp only [Condvar.step] at hs
    split at hs
    · next hpc =>
      obtain rfl := Option.some.inj hs
      cases c with
      | wait => exact h.callWait hpc hdocumented hready
      | signal => exact h.callRouse nofun hpc hdocumented
      | broadcast => exact h.callRouse nofun hpc hdocumented
    · nomatch hs
  | go t => exact h.exec hcard hready hs
  | interrupt t =>
    simp only [Condvar.step] at hs
    split at hs
    · next hw =>
      obtain rfl := Option.some.inj hs
      exact h.interrupt hw
    · nomatch hs

theorem Inv.reach (hcard : Fintype.card τ < 2 ^ 31)
    (h : Reach Condvar.step (fun s a => Documented s a ∧ Ready s a) State.init s) : Inv s :=
  h.invariant inv_init fun _ _ _ hinv hok hs => hinv.step hcard hok.1 hok.2 hs

/-- As long as `semrel` is called with no more than the number of blocked threads and waits begin with `errno` 0: no
wakeup is left for a thread that begins to wait later, a signal wakes one of the threads waiting when it was called
and a broadcast all, and the functions return 0 exactly when they succeeded. -/
theorem cond_wakes (hcard : Fintype.card τ < 2 ^ 31)
    (h : Reach Condvar.step (fun s a => Documented s a ∧ Ready s a) State.init s) :
    s.cond.count = 0 ∧ ∀ t, (s.threads t).pc = .out → Ended (s.threads t) := by
  have hinv := Inv.reach hcard h
  refine ⟨hinv.count, fun t hpc => ?_⟩
  have hown := hinv.own t
  simpa only [Local, hpc] using hown

instance (s : State τ) (a : Act τ) : Decidable (Documented s a) := by
  unfold Documented
  split <;> infer_instance

instance (s : State τ) (a : Act τ) : Decidable (Ready s a) := by
  unfold Ready
  split
  · infer_instance
  · split <;> infer_instance
  · infer_instance

/-- One thread waits and another one signals. -/
def signalRun : List (Act Bool) :=
  [.lock false, .call false .wait, .go false, .go false, .go false, .lock true, .call true .signal, .go true, .go true,
    .unlock true, .go false, .go false, .go false]

theorem cond_wakes_signalRun : ∃ s : State Bool, (s.threads true).seen = {false} ∧ (s.threads true).freed = [false] ∧
    (s.threads false).ret = some 0 ∧ s.cond.count = 0 := by
  have hrun : ∃ s, runOk step (fun s a => Documented s a ∧ Ready s a) (State.init : State Bool) signalRun = some s ∧
      (s.threads true).pc = .out ∧ (s.threads true).last = some .signal ∧ (s.threads true).seen = {false} ∧
      (s.threads false).ret = some 0 := ⟨_, rfl, rfl, rfl, by decide, rfl⟩
  obtain ⟨s, hs, hpc, hlast, hseen, hret⟩ := hrun
  obtain ⟨hcount, hended⟩ := cond_wakes (by decide) (reach_of_runOk _ hs)
  obtain ⟨u, hu, hfreed⟩ := ((hended true hpc).signal hlast).2 (by rw [hseen]; decide)
  rw [hseen, Finset.mem_singleton] at hu
  rw [hu] at hfreed
  exact ⟨s, hseen, hfreed, hret, hcount⟩

/-- Thread `u` has released the mutex and not yet reached the semaphore when `t` signals; `v`, which begins to wait
afterwards, is faster. -/
def lateRun (t u v : τ) : List (Act τ) :=
  [.lock u, .call u .wait, .go u, .go u, .lock t, .call t .signal, .go t, .go t, .unlock t, .lock v, .call v .wait,
    .go v, .go v, .go v, .go u, .go v, .go v, .go v]

/-- The thread waits with an `errno` that an earlier function has left, and is signalled. -/
def errnoRun : List (Act Bool) := .setErrno false 2 :: signalRun

/-- A thread that begins to wait after a signal takes the wakeup while the thread that was waiting stays blocked, and
a wait that was woken reports an error. -/
theorem cond_stolen :
    (¬ ∀ s : State (Fin 3), Reach step Documented State.init s → ∀ t, (s.threads t).pc = .out →
      (s.threads t).last = some .wait → (s.threads t).ret = some 0 → (s.threads t).fresh = false) ∧
    ¬ ∀ s : State Bool, Reach step Documented State.init s → ∀ t, (s.threads t).pc = .out →
      (s.threads t).last = some .wait → (s.threads t).rc = 0 → (s.threads t).ret = some 0 := by
  constructor
  · intro hclaim
    have hrun : ∃ s, runOk step Documented (State.init : State (Fin 3)) (lateRun 0 1 2) = some s ∧
        (s.threads 2).pc = .out ∧ (s.threads 2).last = some .wait ∧ (s.threads 2).ret = some 0 ∧
        (s.threads 2).fresh = true := ⟨_, rfl, rfl, rfl, rfl, rfl⟩
    obtain ⟨s, hs, hpc, hlast, hret, hfresh⟩ := hrun
    rw [hclaim s (reach_of_runOk _ hs) 2 hpc hlast hret] at hfresh
    nomatch hfresh
  · intro hclaim
    have hrun : ∃ s, runOk step Documented (State.init : State Bool) errnoRun = some s ∧
        (s.threads false).pc = .out ∧ (s.threads false).last = some .wait ∧ (s.threads false).rc = 0 ∧
        (s.threads false).ret = some 2 := ⟨_, rfl, rfl, rfl, rfl, rfl⟩
    obtain ⟨s, hs, hpc, hlast, hrc, hret⟩ := hrun
    rw [hclaim s (reach_of_runOk _ hs) false hpc hlast hrc] at hret
    nomatch hret

end SimpleKernel.Pthread.Condvar
