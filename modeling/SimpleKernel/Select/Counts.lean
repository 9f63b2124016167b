import SimpleKernel.Select.Scans

/-! When `select` and `poll` leave the lock counts as they are. -/
namespace SimpleKernel.Select
open Handle Traced

variable {ω τ α : Type} [DecidableEq ω] {k k' k₁ k₂ : Kernel ω τ} {o : ω} {m : Action ω τ α} {a : α}
  {os os' : List ω} {known : List (Event ω τ)}

def Event.locks (o : ω) : Event ω τ → Bool
  | .olock x => decide (x = o)
  | _ => false

def Event.releases (o : ω) : Event ω τ → Bool
  | .orel (some x) => decide (x = o)
  | _ => false

/-- The lock count of an object. -/
def Kernel.lockCount (k : Kernel ω τ) (o : ω) : UInt16 := (k.handles.obj o).lockCount

omit [DecidableEq ω] in
/-- What the other threads add to the lock count during the waits. -/
def drift (o : ω) : List (Event ω τ) → UInt16
  | [] => 0
  | .wait before after :: log => after.lockCount o - before.lockCount o + drift o log
  | _ :: log => drift o log

/-- What is released is an object that has been locked and has not been released yet. -/
def Held (known : List (Event ω τ)) : Event ω τ → Prop
  | .orel none => False
  | .orel (some o) => known.countP (Event.releases o) < known.countP (Event.locks o)
  | _ => True

/-- The call leaves every lock count as it was, apart from what other threads do while it waits, and it releases no
null pointer and no object that it has not locked. -/
structure KeepsCounts (k : Kernel ω τ) (m : Action ω τ α) : Prop where
  counts : ∀ o, (m.after k).lockCount o = k.lockCount o + drift o (m.log k)
  held : Admitted Held [] (m.log k)

/-- All that was locked is released. -/
def Settled (known : List (Event ω τ)) : Prop :=
  ∀ o, known.countP (Event.releases o) = known.countP (Event.locks o)

section Logs

theorem Settled.pair (h : Settled known) (o : ω) : Settled (.orel (some o) :: .olock o :: known) := by
  intro x
  have hx := h x
  by_cases hox : o = x <;> simp [Event.releases, Event.locks, hox, hx]

theorem Settled.wait (h : Settled known) : Settled (.wait k k' :: known) := by
  intro x
  simpa [Event.releases, Event.locks] using h x

theorem Settled.held_orel (h : Settled known) (o : ω) : Held (.olock o :: known) (.orel (some o)) := by
  rw [Held, List.countP_cons, h o]
  simp [Event.releases, Event.locks]

theorem Settled.held_pairs (h : Settled known) (os : List ω) :
    Admitted Held known (pairs os) ∧ Settled ((pairs os).reverse ++ known) := by
  induction os generalizing known with
  | nil => exact ⟨trivial, h⟩
  | cons o os ih =>
    obtain ⟨hadm, hset⟩ := ih (h.pair o)
    exact ⟨⟨trivial, h.held_orel o, hadm⟩, by simpa [pairs] using hset⟩

omit [DecidableEq ω] in
theorem drift_pairs (o : ω) (os : List ω) (log : List (Event ω τ)) : drift o (pairs os ++ log) = drift o log := by
  induction os with
  | nil => rfl
  | cons x os ih => exact ih

theorem settled_nil : Settled ([] : List (Event ω τ)) := fun _ => rfl

theorem keepsCounts_of_pairs (hrun : m k = (a, k', pairs os)) (hsame : k'.handles = k.handles) : KeepsCounts k m := by
  refine ⟨fun o => ?_, ?_⟩
  · have hdrift := drift_pairs (τ := τ) o os []
    rw [List.append_nil] at hdrift
    rw [Traced.after, Traced.log, hrun, hdrift, Kernel.lockCount, hsame]
    exact (UInt16.add_zero _).symm
  · rw [Traced.log, hrun]
    exact (settled_nil.held_pairs os).1

theorem Settled.across (h : Settled known) (os os' : List ω) (k₁ k₂ : Kernel ω τ) :
    Admitted Held known (pairs os ++ .wait k₁ k₂ :: pairs os') := by
  rw [admitted_append]
  exact ⟨(h.held_pairs os).1, trivial, ((h.held_pairs os).2.wait.held_pairs os').1⟩

theorem keepsCounts_of_wait (os' : List ω) (hrun : m k = (a, k', pairs os ++ .wait k₁ k₂ :: pairs os'))
    (hbefore : k₁.handles = k.handles) (hafter : k'.handles = k₂.handles) : KeepsCounts k m := by
  refine ⟨fun o => ?_, ?_⟩
  · have hdrift := drift_pairs (τ := τ) o os' []
    rw [List.append_nil] at hdrift
    rw [Traced.after, Traced.log, hrun, drift_pairs, drift, hdrift, Kernel.lockCount, hafter, Kernel.lockCount,
      Kernel.lockCount, Kernel.lockCount, hbefore, drift, UInt16.add_zero, UInt16.add_comm, UInt16.sub_add_cancel]
  · rw [Traced.log, hrun]
    exact settled_nil.across os os' k₁ k₂

theorem not_keepsCounts_of_lock (hrun : m k = (a, k', pairs os ++ [.olock o]))
    (hlock : k'.handles = (k.locked o).handles) : ¬ KeepsCounts k m := by
  intro h
  have hcount := h.counts o
  rw [Traced.after, Traced.log, hrun, drift_pairs, Kernel.lockCount, hlock, lockCount_locked] at hcount
  have hone : (1 : UInt16) = 0 := (UInt16.add_right_inj _).mp hcount
  exact absurd hone (by decide)

end Logs

section Select

theorem keepsCounts_select (k : Kernel ω τ) (self : ℕ) (woken : ℤ × Kernel ω τ) (s : FdSets) (timeout : Option (ℤ × ℤ)) :
    KeepsCounts k (select self woken s timeout) ↔
      ((∀ fd ∈ s.fds, k.valid fd = true) → k.Unready s → selectTimeout timeout ≠ 0 →
        ∀ fd ∈ s.fds, ¬ k.Elsewhere self fd) := by
  have hidle (h : (k.checked s).1 ≠ 0) (hvalid : ∀ fd ∈ s.fds, k.valid fd = true) (hready : k.Unready s) : False :=
    h (checked_zero.mpr ⟨hvalid, hready⟩)
  have hout := select_outcome k self woken s timeout
  generalize hrun : select self woken s timeout k = r at hout
  cases hout with
  | atOnce hfound => exact ⟨fun _ hv hr => (hidle hfound hv hr).elim, fun _ => keepsCounts_of_pairs hrun rfl⟩
  | zero _ hzero => exact ⟨fun _ _ _ htmo => absurd hzero htmo, fun _ => keepsCounts_of_pairs hrun rfl⟩
  | slept _ hnone =>
    refine ⟨fun _ _ _ _ => ?_, fun _ => keepsCounts_of_wait [] hrun rfl rfl⟩
    rw [FdSets.fds, hnone.1, hnone.2.1, hnone.2.2]
    exact List.forall_mem_nil _
  | refused hcheck htmo hneg helse hlock =>
    obtain ⟨hvalid, hready⟩ := checked_zero.mp hcheck
    refine ⟨fun h => absurd h (not_keepsCounts_of_lock hrun hlock), fun h => ?_⟩
    obtain ⟨fd, hfd, helse⟩ := helse
    exact absurd helse (h hvalid hready htmo fd hfd)
  | waitFailed _ _ _ hnone hbefore =>
    exact ⟨fun _ _ _ _ => hnone, fun _ => keepsCounts_of_wait [] hrun hbefore rfl⟩
  | woken _ _ _ hnone hbefore =>
    exact ⟨fun _ _ _ _ => hnone, fun _ => keepsCounts_of_wait _ hrun hbefore rfl⟩

end Select

section Poll

/-- What `poll` reports for an entry with a valid descriptor. -/
def Kernel.reported (k : Kernel ω τ) (p : PollFd) : ℕ :=
  if 0 ≤ p.fd then ((k.find p.fd).map fun o => pollRevents (pollMask p.events &&& (k.io o).signaled)).getD 0 else 0

/-- Every descriptor that is not negative is that of an I/O object. -/
def Kernel.Pollable (k : Kernel ω τ) (fds : List PollFd) : Prop := ∀ p ∈ fds, 0 ≤ p.fd → k.valid p.fd = true

/-- What `poll` leaves of an entry. -/
def Kernel.polled (k : Kernel ω τ) (p : PollFd) : PollFd := { p with revents := k.reported p }

theorem checkPollFd_run {p : PollFd} (h : 0 ≤ p.fd → k.valid p.fd = true) :
    ∃ os, checkPollFd p k = (k.reported p, k, pairs os) := by
  rw [checkPollFd, Kernel.reported]
  split
  swap
  · exact ⟨[], rfl⟩
  next hfd =>
  obtain ⟨o, hfind, hobj⟩ : ∃ o, k.find p.fd = some o ∧ k.isIoObject o = true := by
    simpa [Kernel.valid, Option.any_eq_true] using h hfd
  have hentry : pollEntry p.events (some o) (k.locked o) =
      (pollRevents (pollMask p.events &&& (k.io o).signaled), k.locked o, []) := by
    have hio : isIoObject o (k.locked o) = (true, k.locked o, []) := by rw [isIoObject, isIoObject_locked, hobj]
    rw [pollEntry, bind_eq hio]
    rfl
  refine ⟨[o], ?_⟩
  rw [bind_eq (olock_some hfind), bind_eq hentry, bind_eq (orel_locked hfind), hfind]
  rfl

theorem checkPoll_run {fds : List PollFd} (h : k.Pollable fds) :
    ∃ os, checkPoll fds k =
      ((((fds.countP fun p => k.reported p ≠ 0 : ℕ) : ℤ), fds.map k.polled), k, pairs os) := by
  induction fds with
  | nil => exact ⟨[], rfl⟩
  | cons p fds ih =>
    obtain ⟨hp, hfds⟩ := List.forall_mem_cons.mp h
    obtain ⟨os, hfirst⟩ := checkPollFd_run hp
    obtain ⟨os', hrest⟩ := ih hfds
    refine ⟨os ++ os', ?_⟩
    rw [checkPoll, bind_eq hfirst, bind_eq hrest]
    by_cases hzero : k.reported p = 0 <;> simp [hzero, Kernel.polled]

theorem not_admitted_checkPollFd {p : PollFd} (hset : Settled known) (hfd : 0 ≤ p.fd) (h : k.valid p.fd = false) :
    ¬ Admitted Held known ((checkPollFd p).log k) := by
  rw [checkPollFd, if_pos hfd, Traced.log]
  cases hfind : k.find p.fd with
  | none =>
    rw [bind_eq (olock_none hfind)]
    exact fun hadm => hadm.1
  | some o =>
    have hobj : k.isIoObject o = false := by simpa [Kernel.valid, hfind] using h
    have hentry : pollEntry p.events (some o) (k.locked o) = (pollnval, k, [.orel (some o)]) := by
      have hio : isIoObject o (k.locked o) = (false, k.locked o, []) := by rw [isIoObject, isIoObject_locked, hobj]
      rw [pollEntry, bind_eq hio, if_neg Bool.false_ne_true, bind_eq (orel_locked hfind)]
      rfl
    rw [bind_eq (olock_some hfind), bind_eq hentry]
    rintro ⟨-, -, hheld, -⟩
    rw [Held, hset.pair o o] at hheld
    exact absurd hheld (lt_irrefl _)

theorem not_admitted_checkPoll {fds : List PollFd} (hset : Settled known) (h : ¬ k.Pollable fds) :
    ¬ Admitted Held known ((checkPoll fds).log k) := by
  induction fds generalizing known with
  | nil => exact absurd (List.forall_mem_nil _) h
  | cons p fds ih =>
    by_cases hp : 0 ≤ p.fd → k.valid p.fd = true
    · obtain ⟨os, hfirst⟩ := checkPollFd_run hp
      have hfds : ¬ k.Pollable fds := fun hfds => h (List.forall_mem_cons.mpr ⟨hp, hfds⟩)
      have hrest := ih (hset.held_pairs os).2 hfds
      have hlog : (checkPollFd p).log k = pairs os := congrArg (fun r => r.2.2) hfirst
      have hafter : (checkPollFd p).after k = k := congrArg (fun r => r.2.1) hfirst
      rw [checkPoll, log_bind, log_bind, hlog, hafter, admitted_append, admitted_append]
      exact fun hadm => hrest hadm.2.1
    · have hp := Classical.not_imp.mp hp
      exact not_careful_bind (not_admitted_checkPollFd hset hp.1 (by simpa using hp.2))

theorem pollable_polled {fds : List PollFd} : k'.Pollable (fds.map k.polled) ↔ k'.Pollable fds := List.forall_mem_map

theorem none_reported {fds : List PollFd} :
    ¬ (0 : ℤ) < (fds.countP fun p => k.reported p ≠ 0 : ℕ) ↔ ∀ p ∈ fds, k.reported p = 0 := by
  simp

theorem keepsCounts_pollFds (k : Kernel ω τ) (self : ℕ) (woken : ℤ × Kernel ω τ) (fds : List PollFd) (timeout : ℤ) :
    KeepsCounts k (pollFds self woken fds timeout) ↔
      k.Pollable fds ∧ ((∀ p ∈ fds, k.reported p = 0) → timeout ≠ 0 →
        (∀ p ∈ fds, 0 ≤ p.fd → ¬ k.Elsewhere self p.fd) ∧ (0 ≤ woken.1 → woken.2.Pollable fds)) := by
  by_cases hpoll : k.Pollable fds
  swap
  · refine ⟨fun h => absurd h.held ?_, fun h => absurd h.1 hpoll⟩
    exact not_careful_bind (not_admitted_checkPoll settled_nil hpoll)
  obtain ⟨os, hcheck⟩ := checkPoll_run hpoll
  by_cases hfound : (0 : ℤ) < (fds.countP fun p => k.reported p ≠ 0 : ℕ)
  · have hrun : ∃ a, pollFds self woken fds timeout k = (a, k, pairs os) :=
      ⟨_, by rw [pollFds, bind_eq hcheck, if_pos hfound, pure_eq, List.append_nil]⟩
    obtain ⟨a, hrun⟩ := hrun
    exact ⟨fun _ => ⟨hpoll, fun hnone => absurd hfound (none_reported.mpr hnone)⟩, fun _ => keepsCounts_of_pairs hrun rfl⟩
  have hnone := none_reported.mp hfound
  by_cases htmo : timeout = 0
  · have hrun : ∃ a, pollFds self woken fds timeout k = (a, k, pairs os) :=
      ⟨_, by rw [pollFds, bind_eq hcheck, if_neg hfound, if_pos htmo, pure_eq, List.append_nil]⟩
    obtain ⟨a, hrun⟩ := hrun
    exact ⟨fun _ => ⟨hpoll, fun _ hne => absurd htmo hne⟩, fun _ => keepsCounts_of_pairs hrun rfl⟩
  have hmem {P : ℤ → Prop} :
      (∀ fd ∈ ((fds.map k.polled).map PollFd.fd).filter (0 ≤ ·), P fd) ↔ ∀ p ∈ fds, 0 ≤ p.fd → P p.fd := by
    refine ⟨fun h p hp hfd => h _ (List.mem_filter.mpr ⟨?_, decide_eq_true hfd⟩), fun h fd hfd => ?_⟩
    · exact List.mem_map.mpr ⟨_, List.mem_map_of_mem hp, rfl⟩
    · obtain ⟨hin, hle⟩ := List.mem_filter.mp hfd
      rw [List.map_map] at hin
      obtain ⟨p, hp, rfl⟩ := List.mem_map.mp hin
      exact h p hp (of_decide_eq_true hle)
  obtain ⟨k₁, os₁, hadd, hsame, hself, -⟩ | ⟨rc, k₁, os₁, o, hadd, hneg, hlock, helse⟩ :=
    adds_addPoll self (fds.map k.polled) k (hmem.mpr hpoll)
  swap
  · have hrun : pollFds self woken fds timeout k =
        ((rc, fds.map k.polled), k₁.detached self, pairs (os ++ os₁) ++ [.olock o]) := by
      rw [pollFds, bind_eq hcheck, if_neg hfound, if_neg htmo, bind_eq hadd, if_pos hneg, leave_eq, pairs_append,
        List.append_nil, List.append_assoc]
    refine ⟨fun h => absurd h (not_keepsCounts_of_lock hrun hlock), fun h => ?_⟩
    obtain ⟨fd, hfd, hother⟩ := helse
    exact absurd hother ((hmem (P := fun fd => ¬ k.Elsewhere self fd)).mpr (h.2 hnone htmo).1 fd hfd)
  by_cases hfail : woken.1 < 0
  · have hrun : ∃ a, pollFds self woken fds timeout k =
        (a, woken.2.detached self, pairs (os ++ os₁) ++ [.wait k₁ woken.2]) :=
      ⟨_, by rw [pollFds, bind_eq hcheck, if_neg hfound, if_neg htmo, bind_eq hadd, if_neg (lt_irrefl 0),
        bind_eq (wait_eq woken), if_pos hfail, leave_eq, pairs_append, List.append_nil, List.append_assoc]⟩
    obtain ⟨a, hrun⟩ := hrun
    exact ⟨fun _ => ⟨hpoll, fun _ _ => ⟨hmem.mp hself, fun hle => absurd hfail (not_lt.mpr hle)⟩⟩,
      fun _ => keepsCounts_of_wait [] hrun hsame rfl⟩
  by_cases hagain : woken.2.Pollable fds
  · obtain ⟨os₂, hlast⟩ := checkPoll_run (pollable_polled.mpr hagain : woken.2.Pollable (fds.map k.polled))
    have hrun : ∃ a, pollFds self woken fds timeout k =
        (a, woken.2.detached self, pairs (os ++ os₁) ++ .wait k₁ woken.2 :: pairs os₂) :=
      ⟨_, by rw [pollFds, bind_eq hcheck, if_neg hfound, if_neg htmo, bind_eq hadd, if_neg (lt_irrefl 0),
        bind_eq (wait_eq woken), if_neg hfail, bind_eq hlast, leave_eq, pairs_append, List.append_nil,
        List.append_assoc, List.singleton_append]⟩
    obtain ⟨a, hrun⟩ := hrun
    exact ⟨fun _ => ⟨hpoll, fun _ _ => ⟨hmem.mp hself, fun _ => hagain⟩⟩, fun _ => keepsCounts_of_wait _ hrun hsame rfl⟩
  · refine ⟨fun h => absurd h.held ?_, fun h => absurd ((h.2 hnone htmo).2 (not_lt.mp hfail)) hagain⟩
    obtain ⟨r, k₂, log, hlast⟩ : ∃ r k₂ log, checkPoll (fds.map k.polled) woken.2 = (r, k₂, log) := ⟨_, _, _, rfl⟩
    have hrun : pollFds self woken fds timeout k =
        (r, k₂.detached self, pairs (os ++ os₁) ++ .wait k₁ woken.2 :: log) := by
      rw [pollFds, bind_eq hcheck, if_neg hfound, if_neg htmo, bind_eq hadd, if_neg (lt_irrefl 0),
        bind_eq (wait_eq woken), if_neg hfail, bind_eq hlast, leave_eq, pairs_append, List.append_nil,
        List.append_assoc, List.singleton_append]
    have hlog : (checkPoll (fds.map k.polled)).log woken.2 = log := congrArg (fun r => r.2.2) hlast
    rw [Traced.log, hrun, admitted_append, ← hlog]
    rintro ⟨-, -, hadm⟩
    exact not_admitted_checkPoll (settled_nil.held_pairs (os ++ os₁)).2.wait (mt pollable_polled.mp hagain) hadm

/-- `poll` keeps the counts if and only if every descriptor is valid whenever it looks at them, and it does not have to
wait with one that it cannot queue. -/
theorem keepsCounts_poll (k : Kernel ω τ) (self : ℕ) (woken : ℤ × Kernel ω τ) (fds : Option (ℕ → PollFd)) (nfds : ℕ)
    (timeout : ℤ) :
    KeepsCounts k (poll self woken fds nfds timeout) ↔
      ∀ f, fds = some f → k.Pollable ((List.range nfds).map f) ∧
        ((∀ p ∈ (List.range nfds).map f, k.reported p = 0) → timeout ≠ 0 →
          (∀ p ∈ (List.range nfds).map f, 0 ≤ p.fd → ¬ k.Elsewhere self p.fd) ∧
            (0 ≤ woken.1 → woken.2.Pollable ((List.range nfds).map f))) := by
  by_cases hnfds : nfds = 0
  · subst hnfds
    have hrun : ∃ a, poll self woken fds 0 timeout k = (a, woken.2, pairs [] ++ [.wait k woken.2]) := ⟨_, rfl⟩
    obtain ⟨a, hrun⟩ := hrun
    refine ⟨fun _ f _ => ?_, fun _ => keepsCounts_of_wait [] hrun rfl rfl⟩
    exact ⟨List.forall_mem_nil _, fun _ _ => ⟨List.forall_mem_nil _, fun _ => List.forall_mem_nil _⟩⟩
  cases fds with
  | none =>
    have hrun : poll self woken none nfds timeout k = ((-Object.EINVAL, []), k, pairs []) := by
      rw [poll, if_neg hnfds]
      rfl
    exact ⟨fun _ f hf => absurd hf (Option.some_ne_none f).symm, fun _ => keepsCounts_of_pairs hrun rfl⟩
  | some f =>
    rw [poll, if_neg hnfds]
    exact (keepsCounts_pollFds k self woken _ timeout).trans
      ⟨fun h g hg => Option.some.inj hg ▸ h, fun h => h f rfl⟩

end Poll

/-- When the lock counts are kept by `select` and by `poll`. -/
theorem keepsCounts_iff (k : Kernel ω τ) (self : ℕ) (woken : ℤ × Kernel ω τ) :
    (∀ s timeout, KeepsCounts k (select self woken s timeout) ↔
      ((∀ fd ∈ s.fds, k.valid fd = true) → k.Unready s → selectTimeout timeout ≠ 0 →
        ∀ fd ∈ s.fds, ¬ k.Elsewhere self fd)) ∧
    ∀ fds nfds timeout, KeepsCounts k (poll self woken fds nfds timeout) ↔
      ∀ f, fds = some f → k.Pollable ((List.range nfds).map f) ∧
        ((∀ p ∈ (List.range nfds).map f, k.reported p = 0) → timeout ≠ 0 →
          (∀ p ∈ (List.range nfds).map f, 0 ≤ p.fd → ¬ k.Elsewhere self p.fd) ∧
            (0 ≤ woken.1 → woken.2.Pollable ((List.range nfds).map f))) :=
  ⟨keepsCounts_select k self woken, keepsCounts_poll k self woken⟩

/-- The only descriptor is 0, for a file that is attached to a multiplexer. -/
def attachedFile : Kernel Unit Unit where
  handles := { initial fun _ => 5 with htab := fun _ => .used () false, htabsize := 1, obj := fun _ => ⟨5, 1, 0⟩ }
  io := fun _ => ⟨0, 0, some 7⟩

/-- `select` of this descriptor keeps a lock, and `poll` of another one releases a null pointer. -/
theorem counts_not_kept :
    (¬ ∀ (k : Kernel Unit Unit) self woken s timeout, KeepsCounts k (select self woken s timeout)) ∧
      ¬ ∀ (k : Kernel Unit Unit) self woken fds nfds timeout, KeepsCounts k (poll self woken fds nfds timeout) := by
  constructor
  · intro h
    have hkeeps := h attachedFile 1 (0, attachedFile) ⟨some [0], none, none⟩ none
    rw [keepsCounts_select] at hkeeps
    exact hkeeps (by decide) (by unfold Kernel.Unready; decide) (by decide) 0 (by decide) ⟨(), 7, rfl, rfl, by decide⟩
  · intro h
    have hheld := (h attachedFile 1 (0, attachedFile) (some fun _ => ⟨3, 1, 0⟩) 1 0).held
    exact hheld.1

end SimpleKernel.Select
