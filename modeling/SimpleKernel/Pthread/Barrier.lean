import SimpleKernel.Lib.Int32
import SimpleKernel.Lib.Tally
import SimpleKernel.Lib.Transition
import Mathlib.Logic.Function.Basic
import Mathlib.Data.Fintype.BigOperators

/-! POSIX barriers (`lib/pthread/barrier.c`). Every access to a field is a step of its own. Threads of two rounds
can be in the call at a time. -/
namespace SimpleKernel.Pthread.Barrier
open Transition Tally
open Function (update update_of_ne update_self)

section model

/-- A semaphore with the threads that wait for it, in order; it is signaled when the count is not zero. -/
structure Sem (τ : Type) where
  count : ℕ
  waiters : List τ

/-- `release_sem` with the threads it releases. -/
def Sem.release {τ : Type} (m : Sem τ) (count : ℕ) : Sem τ × List τ :=
  let k := min (m.count + count) m.waiters.length
  (⟨m.count + count - k, m.waiters.drop k⟩, m.waiters.take k)

/-- What a thread does next; `step` is its local variable. -/
inductive Pc
  | out
  | readStep
  | decrement (step : Fin 2)
  | reset (step : Fin 2)
  | release (step : Fin 2)
  | waitone (step : Fin 2)
  | queued (step : Fin 2)
  | exchange (step : Fin 2)
  deriving DecidableEq

/-- `PTHREAD_BARRIER_SERIAL_THREAD`. -/
def serialThread : ℤ := 1

/-- A thread: where it is, how often it has called the function and what its calls returned. -/
structure Thread where
  pc : Pc
  calls : ℕ
  returns : List ℤ
  deriving DecidableEq

namespace Thread

def idle : Thread := ⟨.out, 0, []⟩

def goto (th : Thread) (pc : Pc) : Thread := { th with pc := pc }

def call (th : Thread) : Thread := { th with pc := .readStep, calls := th.calls + 1 }

def done (th : Thread) (rc : ℤ) : Thread := { th with pc := .out, returns := th.returns ++ [rc] }

end Thread

variable {τ : Type} [DecidableEq τ]

/-- `struct pthread_barrier` and the threads that use it. -/
structure State (τ : Type) where
  currHeight : ℕ
  initHeight : ℕ
  step : Fin 2
  breeched : Fin 2 → Sem τ
  threads : τ → Thread

/-- `pthread_barrier_init`, with the semaphores it makes. -/
def State.init (count : ℕ) : State τ := ⟨count, count, 0, fun _ => ⟨0, []⟩, fun _ => .idle⟩

def State.put (s : State τ) (t : τ) (th : Thread) : State τ := { s with threads := Function.update s.threads t th }

/-- `semrel` on one of the semaphores: the threads that are released return from `waitone`. -/
def State.semrel (s : State τ) (a : Fin 2) (count : ℕ) : State τ :=
  { s with
    breeched := Function.update s.breeched a ((s.breeched a).release count).1
    threads := fun u => if u ∈ ((s.breeched a).release count).2 then (s.threads u).goto (.exchange a) else s.threads u }

/-- The next step of a thread in `pthread_barrier_wait`. -/
def exec (s : State τ) (t : τ) : Option (State τ) :=
  let th := s.threads t
  match th.pc with
  | .out => none
  | .readStep => some (s.put t (th.goto (.decrement s.step)))
  | .decrement a =>
    let height := (s.currHeight + (2 ^ 32 - 1)) % 2 ^ 32
    some ({ s with currHeight := height }.put t (th.goto (if height = 0 then .reset a else .waitone a)))
  | .reset a => some ({ s with currHeight := s.initHeight }.put t (th.goto (.release a)))
  | .release a =>
    if 1 < s.initHeight then
      let rc := int32 (s.breeched a).count
      some ((s.semrel a (s.initHeight - 1)).put t (if rc = 0 then th.goto (.exchange a) else th.done rc))
    else some (s.put t (th.goto (.exchange a)))
  | .waitone a =>
    if 0 < (s.breeched a).count then
      some ({ s with
        breeched := Function.update s.breeched a { s.breeched a with count := (s.breeched a).count - 1 } }.put t
          (th.goto (.exchange a)))
    else
      some ({ s with
        breeched := Function.update s.breeched a
          { s.breeched a with waiters := (s.breeched a).waiters ++ [t] } }.put t (th.goto (.queued a)))
  | .queued _ => none
  | .exchange a =>
    if s.step = a then some ({ s with step := 1 - a }.put t (th.done serialThread)) else some (s.put t (th.done 0))

/-- A thread calls the function, or goes on. -/
inductive Act (τ : Type)
  | call (t : τ)
  | go (t : τ)

def step (s : State τ) : Act τ → Option (State τ)
  | .call t => if (s.threads t).pc = .out then some (s.put t (s.threads t).call) else none
  | .go t => exec s t

end model

/-- The semaphore of a round. -/
def par (r : ℕ) : Fin 2 := ⟨r % 2, Nat.mod_lt r Nat.two_pos⟩

theorem par_succ (r : ℕ) : par (r + 1) = 1 - par r := by
  rcases Nat.mod_two_eq_zero_or_one r with h | h
  · simp [par, Nat.add_mod, h]
  · simp [par, Nat.add_mod, h]

theorem flip_flip (a : Fin 2) : 1 - (1 - a) = a := by
  revert a
  decide

theorem flip_ne (a : Fin 2) : 1 - a ≠ a := by
  revert a
  decide

/-- A thread in its call of round `r`. -/
def Entered (r : ℕ) (th : Thread) : Prop := th.calls = r + 1 ∧ th.returns.length = r

/-- A thread in its call of the round before `r`, which is over. -/
def Leaving (r : ℕ) (th : Thread) : Prop := th.calls = r ∧ th.returns.length + 1 = r

/-- Where a thread can be while round `r` is the current one. -/
def Place (r : ℕ) (th : Thread) : Prop := match th.pc with
  | .out => th.calls = r ∧ th.returns.length = r
  | .readStep => Entered r th
  | .decrement a | .reset a | .release a | .queued a => a = par r ∧ Entered r th
  | .waitone a => a = par r ∧ Entered r th ∨ a = 1 - par r ∧ Leaving r th
  | .exchange a => a = 1 - par r ∧ Leaving r th

/-- The thread has arrived in the round of semaphore `a`. -/
def Pc.arrived (a : Fin 2) : Pc → ℕ
  | .waitone b | .queued b | .reset b | .release b => if b = a then 1 else 0
  | _ => 0

/-- The thread is about to take a count of semaphore `a`. -/
def Pc.waits (a : Fin 2) : Pc → ℕ
  | .waitone b => if b = a then 1 else 0
  | _ => 0

theorem Pc.arrived_le (a : Fin 2) (pc : Pc) : pc.arrived a ≤ 1 := by
  unfold Pc.arrived
  split
  all_goals first | split_ifs <;> omega | omega

variable {τ : Type} [DecidableEq τ] [Fintype τ] {s s' : State τ} {t : τ} {th : Thread} {r : ℕ}

/-- Not all threads have arrived in round `r`. -/
structure Gathering (r : ℕ) (s : State τ) : Prop where
  quiet : ∀ u a, (s.threads u).pc ≠ .reset a ∧ (s.threads u).pc ≠ .release a
  missing : 0 < s.currHeight
  count : s.currHeight + ∑ u, (s.threads u).pc.arrived (par r) = s.initHeight

/-- All threads have arrived in round `r`, `t` as the last one. -/
structure Full (r : ℕ) (s : State τ) (t : τ) : Prop where
  last : (s.threads t).pc = .reset (par r) ∨ (s.threads t).pc = .release (par r) ∧ s.currHeight = s.initHeight
  others : ∀ u, u ≠ t → (s.threads u).pc = .waitone (par r) ∨ (s.threads u).pc = .queued (par r)

/-- The semaphore of the last round holds a count for every thread that has not left it; that of round `r` holds
none. -/
structure Gates (r : ℕ) (s : State τ) : Prop where
  openCount : (s.breeched (1 - par r)).count = ∑ u, (s.threads u).pc.waits (1 - par r)
  openQueue : (s.breeched (1 - par r)).waiters = []
  shutCount : (s.breeched (par r)).count = 0
  shutQueue : ∀ u, u ∈ (s.breeched (par r)).waiters ↔ (s.threads u).pc = .queued (par r)
  nodup : (s.breeched (par r)).waiters.Nodup

/-- A call of round `k` returned `PTHREAD_BARRIER_SERIAL_THREAD`. -/
def Serial (k : ℕ) (th : Thread) : Prop := (th.returns)[k]? = some serialThread

/-- Who was the serial thread of a round; none has been chosen for the last round as long as nobody has left it. -/
structure Tickets (r : ℕ) (s : State τ) : Prop where
  turn : s.step = par r ∨ s.step = 1 - par r ∧ ∀ u, (s.threads u).returns.length + 1 = r
  serial : ∀ k, k + 1 < r ∨ k + 1 = r ∧ s.step = par r → ∃! u, Serial k (s.threads u)
  values : ∀ u, ∀ rc ∈ (s.threads u).returns, rc = 0 ∨ rc = serialThread

structure Inv (r : ℕ) (s : State τ) : Prop where
  everyone : s.initHeight = Fintype.card τ
  place : ∀ u, Place r (s.threads u)
  phase : Gathering r s ∨ ∃ t, Full r s t
  gates : Gates r s
  tickets : Tickets r s

omit [DecidableEq τ] in
theorem inv_init [Nonempty τ] : Inv 0 (State.init (Fintype.card τ) : State τ) := by
  constructor
  · rfl
  · exact fun u => ⟨rfl, rfl⟩
  · refine .inl ⟨fun u a => ⟨nofun, nofun⟩, Fintype.card_pos, ?_⟩
    simp [State.init, Thread.idle, Pc.arrived]
  · constructor
    · simp [State.init, Thread.idle, Pc.waits]
    · rfl
    · rfl
    · exact fun u => ⟨nofun, nofun⟩
    · exact List.nodup_nil
  · constructor
    · exact .inl rfl
    · intro k hk
      omega
    · exact fun u rc h => (nomatch h)

/-! One thread changes, the semaphores do not. -/

section
omit [Fintype τ]

theorem State.put_self (s : State τ) (t : τ) (th : Thread) : (s.put t th).threads t = th :=
  update_self ..

theorem State.put_other (s : State τ) {t u : τ} (th : Thread) (hu : u ≠ t) :
    (s.put t th).threads u = s.threads u :=
  update_of_ne hu ..

theorem place_put (h : ∀ u, Place r (s.threads u)) (ht : Place r th) (u : τ) :
    Place r ((s.put t th).threads u) := by
  by_cases hu : u = t
  · rw [hu, State.put_self]
    exact ht
  · rw [State.put_other s th hu]
    exact h u

end

theorem Inv.gathering (h : Inv r s) (hpc : (s.threads t).pc.arrived (par r) = 0) : Gathering r s := by
  rcases h.phase with hphase | ⟨v, hfull⟩
  · exact hphase
  · by_cases htv : t = v
    · rw [htv] at hpc
      rcases hfull.last with hlast | ⟨hlast, -⟩
      · simp [hlast, Pc.arrived] at hpc
      · simp [hlast, Pc.arrived] at hpc
    · rcases hfull.others t htv with hother | hother
      · simp [hother, Pc.arrived] at hpc
      · simp [hother, Pc.arrived] at hpc

theorem Gathering.put (h : Gathering r s) (hquiet : ∀ a, th.pc ≠ .reset a ∧ th.pc ≠ .release a)
    (hpc : th.pc.arrived (par r) = (s.threads t).pc.arrived (par r)) : Gathering r (s.put t th) := by
  constructor
  · intro u
    by_cases hu : u = t
    · rw [hu, State.put_self]
      exact hquiet
    · rw [State.put_other s th hu]
      exact h.quiet u
  · exact h.missing
  · have hsum := sum_update (fun x : Thread => x.pc.arrived (par r)) s.threads t th
    have hcount := h.count
    dsimp only [State.put]
    omega

theorem Gates.put (h : Gates r s) (hwaits : th.pc.waits (1 - par r) = (s.threads t).pc.waits (1 - par r))
    (hqueued : th.pc = .queued (par r) ↔ (s.threads t).pc = .queued (par r)) : Gates r (s.put t th) := by
  constructor
  · have hsum := sum_update (fun x : Thread => x.pc.waits (1 - par r)) s.threads t th
    have hopen := h.openCount
    dsimp only [State.put]
    omega
  · exact h.openQueue
  · exact h.shutCount
  · intro u
    by_cases hu : u = t
    · rw [hu, State.put_self, hqueued]
      exact h.shutQueue t
    · rw [State.put_other s th hu]
      exact h.shutQueue u
  · exact h.nodup

omit [DecidableEq τ] [Fintype τ] in
theorem Tickets.keep (h : Tickets r s) (hstep : s'.step = s.step)
    (hreturns : ∀ u, (s'.threads u).returns = (s.threads u).returns) : Tickets r s' := by
  constructor
  · simpa only [hstep, hreturns] using h.turn
  · simpa only [hstep, Serial, hreturns] using h.serial
  · simpa only [hreturns] using h.values

omit [Fintype τ] in
theorem Tickets.put (h : Tickets r s) (hreturns : th.returns = (s.threads t).returns) : Tickets r (s.put t th) := by
  have hstep : (s.put t th).step = s.step := rfl
  apply h.keep hstep
  intro u
  by_cases hu : u = t
  · rw [hu, State.put_self, hreturns]
  · rw [State.put_other s th hu]

omit [DecidableEq τ] [Fintype τ] in
theorem Tickets.turned (h : Tickets r s) (hlen : (s.threads t).returns.length = r) : s.step = par r := by
  rcases h.turn with hturn | ⟨-, hall⟩
  · exact hturn
  · have hlate := hall t
    omega

theorem Inv.put (h : Inv r s) (hplace : Place r th) (hreturns : th.returns = (s.threads t).returns)
    (hphase : Gathering r (s.put t th))
    (hwaits : th.pc.waits (1 - par r) = (s.threads t).pc.waits (1 - par r))
    (hqueued : th.pc = .queued (par r) ↔ (s.threads t).pc = .queued (par r)) : Inv r (s.put t th) := by
  constructor
  · exact h.everyone
  · exact place_put h.place hplace
  · exact .inl hphase
  · exact h.gates.put hwaits hqueued
  · exact h.tickets.put hreturns

theorem Inv.call (h : Inv r s) (hpc : (s.threads t).pc = .out) : Inv r (s.put t (s.threads t).call) := by
  have hplace := h.place t
  simp only [Place, hpc] at hplace
  apply h.put
  · exact ⟨congrArg (· + 1) hplace.1, hplace.2⟩
  · rfl
  · apply (h.gathering (by rw [hpc]; rfl)).put
    · exact fun a => ⟨nofun, nofun⟩
    · rw [hpc]
      rfl
  · rw [hpc]
    rfl
  · rw [hpc]
    exact ⟨nofun, nofun⟩

theorem Inv.readStep (h : Inv r s) (hpc : (s.threads t).pc = .readStep) :
    Inv r (s.put t ((s.threads t).goto (.decrement s.step))) := by
  have hplace := h.place t
  simp only [Place, hpc] at hplace
  apply h.put
  · exact ⟨h.tickets.turned hplace.2, hplace⟩
  · rfl
  · apply (h.gathering (by rw [hpc]; rfl)).put
    · exact fun a => ⟨nofun, nofun⟩
    · rw [hpc]
      rfl
  · rw [hpc]
    rfl
  · rw [hpc]
    exact ⟨nofun, nofun⟩

omit [DecidableEq τ] in
theorem Gathering.all_arrived (h : Gathering r s) (hcard : s.initHeight = Fintype.card τ)
    (hpc : (s.threads t).pc.arrived (par r) = 0) (hlast : s.currHeight = 1) (u : τ) (hu : u ≠ t) :
    (s.threads u).pc.arrived (par r) = 1 := by
  have hadd : ∑ v, (s.threads v).pc.arrived (par r) + ∑ v, (1 - (s.threads v).pc.arrived (par r)) =
      Fintype.card τ := by
    rw [← Finset.sum_add_distrib, Fintype.card_eq_sum_ones]
    apply Finset.sum_congr rfl
    intro v _
    have hle := Pc.arrived_le (par r) (s.threads v).pc
    omega
  have htwo := add_le_sum (fun v => 1 - (s.threads v).pc.arrived (par r)) hu
  have hle := Pc.arrived_le (par r) (s.threads u).pc
  have hcount := h.count
  omega

theorem Inv.decrement (h : Inv r s) (hcard : Fintype.card τ < 2 ^ 32) {a : Fin 2}
    (hpc : (s.threads t).pc = .decrement a) :
    Inv r ({ s with currHeight := (s.currHeight + (2 ^ 32 - 1)) % 2 ^ 32 }.put t
      ((s.threads t).goto (if (s.currHeight + (2 ^ 32 - 1)) % 2 ^ 32 = 0 then .reset a else .waitone a))) := by
  have hplace := h.place t
  simp only [Place, hpc] at hplace
  obtain ⟨rfl, hentered⟩ := hplace
  have harrived : (s.threads t).pc.arrived (par r) = 0 := by rw [hpc]; rfl
  have hgathering := h.gathering harrived
  have hmissing := hgathering.missing
  have hcount := hgathering.count
  have heveryone := h.everyone
  have hheight : (s.currHeight + (2 ^ 32 - 1)) % 2 ^ 32 = s.currHeight - 1 := by omega
  rw [hheight]
  constructor
  · exact h.everyone
  · apply place_put h.place
    split_ifs
    · exact ⟨rfl, hentered⟩
    · exact .inl ⟨rfl, hentered⟩
  · split_ifs with hlast
    · refine .inr ⟨t, .inl ?_, fun u hu => ?_⟩
      · rw [State.put_self]
        rfl
      · rw [State.put_other _ _ hu]
        have hone := hgathering.all_arrived h.everyone harrived (by omega) u hu
        have hquiet := hgathering.quiet u
        unfold Pc.arrived at hone
        split at hone
        all_goals simp_all
    · left
      have hsum := sum_update (fun x : Thread => x.pc.arrived (par r)) s.threads t
        ((s.threads t).goto (.waitone (par r)))
      have hone : ((s.threads t).goto (.waitone (par r))).pc.arrived (par r) = 1 := if_pos rfl
      constructor
      · intro u
        by_cases hu : u = t
        · rw [hu, State.put_self]
          exact fun a => ⟨nofun, nofun⟩
        · rw [State.put_other _ _ hu]
          exact hgathering.quiet u
      · exact Nat.pos_of_ne_zero hlast
      · dsimp only [State.put]
        omega
  · have hgates : Gates r (s.put t ((s.threads t).goto (if s.currHeight - 1 = 0 then .reset (par r) else
        .waitone (par r)))) := by
      apply h.gates.put
      · rw [hpc]
        split_ifs
        · rfl
        · simp [Thread.goto, Pc.waits, (flip_ne (par r)).symm]
      · rw [hpc]
        split_ifs
        · exact ⟨nofun, nofun⟩
        · exact ⟨nofun, nofun⟩
    exact ⟨hgates.openCount, hgates.openQueue, hgates.shutCount, hgates.shutQueue, hgates.nodup⟩
  · have htickets : Tickets r (s.put t ((s.threads t).goto (if s.currHeight - 1 = 0 then .reset (par r) else
        .waitone (par r)))) := h.tickets.put rfl
    exact ⟨htickets.turn, htickets.serial, htickets.values⟩

theorem Inv.full (h : Inv r s) (hpc : (s.threads t).pc = .reset (par r) ∨ (s.threads t).pc = .release (par r)) :
    Full r s t := by
  rcases h.phase with hgathering | ⟨v, hfull⟩
  · have hquiet := hgathering.quiet t (par r)
    rcases hpc with hpc | hpc
    · exact absurd hpc hquiet.1
    · exact absurd hpc hquiet.2
  · by_cases htv : t = v
    · rw [htv]
      exact hfull
    · have hother := hfull.others t htv
      rcases hpc with hpc | hpc
      · simp [hpc] at hother
      · simp [hpc] at hother

theorem Inv.reset (h : Inv r s) {a : Fin 2} (hpc : (s.threads t).pc = .reset a) :
    Inv r ({ s with currHeight := s.initHeight }.put t ((s.threads t).goto (.release a))) := by
  have hplace := h.place t
  simp only [Place, hpc] at hplace
  obtain ⟨rfl, hentered⟩ := hplace
  have hfull := h.full (.inl hpc)
  constructor
  · exact h.everyone
  · exact place_put h.place ⟨rfl, hentered⟩
  · refine .inr ⟨t, .inr ⟨?_, rfl⟩, fun u hu => ?_⟩
    · rw [State.put_self]
      rfl
    · rw [State.put_other _ _ hu]
      exact hfull.others u hu
  · have hgates : Gates r (s.put t ((s.threads t).goto (.release (par r)))) := by
      apply h.gates.put
      · rw [hpc]
        rfl
      · rw [hpc]
        exact ⟨nofun, nofun⟩
    exact ⟨hgates.openCount, hgates.openQueue, hgates.shutCount, hgates.shutQueue, hgates.nodup⟩
  · have htickets : Tickets r (s.put t ((s.threads t).goto (.release (par r)))) := h.tickets.put rfl
    exact ⟨htickets.turn, htickets.serial, htickets.values⟩

theorem Inv.enqueue (h : Inv r s) (hpc : (s.threads t).pc = .waitone (par r)) (hentered : Entered r (s.threads t)) :
    Inv r ({ s with
      breeched := update s.breeched (par r)
        { s.breeched (par r) with waiters := (s.breeched (par r)).waiters ++ [t] } }.put t
          ((s.threads t).goto (.queued (par r)))) := by
  have hnot : t ∉ (s.breeched (par r)).waiters := by
    rw [h.gates.shutQueue, hpc]
    nofun
  have hgates := h.gates
  constructor
  · exact h.everyone
  · exact place_put h.place ⟨rfl, hentered⟩
  · rcases h.phase with hgathering | ⟨v, hfull⟩
    · left
      have hnext : Gathering r (s.put t ((s.threads t).goto (.queued (par r)))) := by
        apply hgathering.put
        · exact fun a => ⟨nofun, nofun⟩
        · rw [hpc]
          rfl
      exact ⟨hnext.quiet, hnext.missing, hnext.count⟩
    · have htv : t ≠ v := by
        rintro rfl
        simpa [hpc] using hfull.last
      refine .inr ⟨v, ?_, fun u hu => ?_⟩
      · rw [State.put_other _ _ htv.symm]
        exact hfull.last
      · by_cases hut : u = t
        · rw [hut, State.put_self]
          exact .inr rfl
        · rw [State.put_other _ _ hut]
          exact hfull.others u hu
  · have hsum := sum_update (fun x : Thread => x.pc.waits (1 - par r)) s.threads t
      ((s.threads t).goto (.queued (par r)))
    have hzero : (s.threads t).pc.waits (1 - par r) = 0 := by
      rw [hpc]
      exact if_neg (flip_ne (par r)).symm
    have hnew : ((s.threads t).goto (.queued (par r))).pc.waits (1 - par r) = 0 := rfl
    constructor
    · dsimp only [State.put]
      rw [update_of_ne (flip_ne (par r)), hgates.openCount]
      omega
    · dsimp only [State.put]
      rw [update_of_ne (flip_ne (par r))]
      exact hgates.openQueue
    · dsimp only [State.put]
      rw [update_self]
      exact hgates.shutCount
    · intro u
      dsimp only [State.put]
      rw [update_self, List.mem_append, List.mem_singleton]
      by_cases hu : u = t
      · rw [hu, update_self]
        exact ⟨fun _ => rfl, fun _ => .inr rfl⟩
      · rw [update_of_ne hu, ← hgates.shutQueue]
        exact ⟨fun hmem => hmem.resolve_right hu, .inl⟩
    · dsimp only [State.put]
      rw [update_self]
      apply List.nodup_append.2 ⟨hgates.nodup, List.nodup_singleton t, _⟩
      rintro u hu v hv rfl
      exact hnot (List.mem_singleton.1 hv ▸ hu)
  · have htickets : Tickets r (s.put t ((s.threads t).goto (.queued (par r)))) := h.tickets.put rfl
    exact ⟨htickets.turn, htickets.serial, htickets.values⟩

omit [DecidableEq τ] in
theorem Inv.count_pos (h : Inv r s) (hpc : (s.threads t).pc = .waitone (1 - par r)) :
    0 < (s.breeched (1 - par r)).count := by
  have hone : (s.threads t).pc.waits (1 - par r) = 1 := by
    rw [hpc]
    exact if_pos rfl
  have hle := le_sum (fun u => (s.threads u).pc.waits (1 - par r)) t
  rw [h.gates.openCount]
  omega

theorem Inv.take (h : Inv r s) (hpc : (s.threads t).pc = .waitone (1 - par r)) (hleaving : Leaving r (s.threads t)) :
    Inv r ({ s with
      breeched := update s.breeched (1 - par r)
        { s.breeched (1 - par r) with count := (s.breeched (1 - par r)).count - 1 } }.put t
          ((s.threads t).goto (.exchange (1 - par r)))) := by
  have hgates := h.gates
  constructor
  · exact h.everyone
  · exact place_put h.place ⟨rfl, hleaving⟩
  · left
    have hzero : (s.threads t).pc.arrived (par r) = 0 := by
      rw [hpc]
      exact if_neg (flip_ne (par r))
    have hnext : Gathering r (s.put t ((s.threads t).goto (.exchange (1 - par r)))) := by
      apply (h.gathering hzero).put
      · exact fun a => ⟨nofun, nofun⟩
      · rw [hzero]
        rfl
    exact ⟨hnext.quiet, hnext.missing, hnext.count⟩
  · have hsum := sum_update (fun x : Thread => x.pc.waits (1 - par r)) s.threads t
      ((s.threads t).goto (.exchange (1 - par r)))
    have hone : (s.threads t).pc.waits (1 - par r) = 1 := by
      rw [hpc]
      exact if_pos rfl
    have hnew : ((s.threads t).goto (.exchange (1 - par r))).pc.waits (1 - par r) = 0 := rfl
    constructor
    · have hopen := hgates.openCount
      dsimp only [State.put]
      rw [update_self]
      dsimp only
      omega
    · dsimp only [State.put]
      rw [update_self]
      exact hgates.openQueue
    · dsimp only [State.put]
      rw [update_of_ne (flip_ne (par r)).symm]
      exact hgates.shutCount
    · intro u
      dsimp only [State.put]
      rw [update_of_ne (flip_ne (par r)).symm]
      by_cases hu : u = t
      · rw [hu, update_self, hgates.shutQueue, hpc]
        exact ⟨nofun, nofun⟩
      · rw [update_of_ne hu]
        exact hgates.shutQueue u
    · dsimp only [State.put]
      rw [update_of_ne (flip_ne (par r)).symm]
      exact hgates.nodup
  · have htickets : Tickets r (s.put t ((s.threads t).goto (.exchange (1 - par r)))) := h.tickets.put rfl
    exact ⟨htickets.turn, htickets.serial, htickets.values⟩

theorem serial_append {k : ℕ} {rc : ℤ} (hk : k < th.returns.length) : Serial k (th.done rc) ↔ Serial k th := by
  unfold Serial
  dsimp only [Thread.done]
  rw [List.getElem?_append_left hk]

theorem Inv.exchange (h : Inv r s) (hpc : (s.threads t).pc = .exchange (1 - par r))
    (hleaving : Leaving r (s.threads t)) {rc : ℤ} {a : Fin 2}
    (hturn : s.step = 1 - par r ∧ a = par r ∧ rc = serialThread ∨ s.step = par r ∧ a = par r ∧ rc = 0) :
    Inv r ({ s with step := a }.put t ((s.threads t).done rc)) := by
  have hzero : (s.threads t).pc.arrived (par r) = 0 := by
    rw [hpc]
    rfl
  have hparity : a = par r := by
    rcases hturn with ⟨-, ha, -⟩ | ⟨-, ha, -⟩
    · exact ha
    · exact ha
  obtain ⟨hcalls, hlen⟩ := hleaving
  have hearlier {k : ℕ} (hk : k + 1 < r) (u : τ) :
      Serial k (({ s with step := a }.put t ((s.threads t).done rc)).threads u) ↔ Serial k (s.threads u) := by
    by_cases hu : u = t
    · rw [hu, State.put_self, serial_append (by omega)]
    · rw [State.put_other _ _ hu]
  constructor
  · exact h.everyone
  · apply place_put h.place
    refine ⟨hcalls, ?_⟩
    simp only [Thread.done, List.length_append]
    exact hlen
  · left
    have hnext : Gathering r (s.put t ((s.threads t).done rc)) := by
      apply (h.gathering hzero).put
      · exact fun a => ⟨nofun, nofun⟩
      · rw [hzero]
        rfl
    exact ⟨hnext.quiet, hnext.missing, hnext.count⟩
  · have hgates : Gates r (s.put t ((s.threads t).done rc)) := by
      apply h.gates.put
      · rw [hpc]
        rfl
      · rw [hpc]
        exact ⟨nofun, nofun⟩
    exact ⟨hgates.openCount, hgates.openQueue, hgates.shutCount, hgates.shutQueue, hgates.nodup⟩
  · constructor
    · exact .inl hparity
    · intro k hk
      by_cases hlast : k + 1 < r
      · obtain ⟨u, hu, hunique⟩ := h.tickets.serial k (.inl hlast)
        exact ⟨u, (hearlier hlast u).2 hu, fun v hv => hunique v ((hearlier hlast v).1 hv)⟩
      · have hkr : k + 1 = r := by omega
        have hkt : k = (s.threads t).returns.length := by omega
        rcases hturn with ⟨hstep, -, rfl⟩ | ⟨hstep, -, rfl⟩
        · refine ⟨t, ?_, fun u hu => ?_⟩
          · dsimp only
            rw [State.put_self]
            simp [Serial, Thread.done, hkt]
          · by_contra hne
            dsimp only at hu
            rw [State.put_other _ _ hne] at hu
            rcases h.tickets.turn with hother | ⟨-, hall⟩
            · exact flip_ne (par r) (hstep.symm.trans hother)
            · have hshort := hall u
              have hlt : k < (s.threads u).returns.length := (List.getElem?_eq_some_iff.1 hu).1
              omega
        · have hsame (u : τ) : Serial k (({ s with step := a }.put t ((s.threads t).done 0)).threads u) ↔
              Serial k (s.threads u) := by
            by_cases hu : u = t
            · rw [hu, State.put_self]
              simp [Serial, Thread.done, hkt, serialThread]
            · rw [State.put_other _ _ hu]
          obtain ⟨u, hu, hunique⟩ := h.tickets.serial k (.inr ⟨hkr, hstep⟩)
          exact ⟨u, (hsame u).2 hu, fun v hv => hunique v ((hsame v).1 hv)⟩
    · intro u
      by_cases hu : u = t
      · rw [hu, State.put_self]
        intro x hx
        rcases List.mem_append.1 hx with hx | hx
        · exact h.tickets.values t x hx
        · rw [List.mem_singleton.1 hx]
          rcases hturn with ⟨-, -, rfl⟩ | ⟨-, -, rfl⟩
          · exact .inr rfl
          · exact .inl rfl
      · rw [State.put_other _ _ hu]
        exact h.tickets.values u

/-- The threads at the semaphore when the last one arrives: those in its queue, and those on the way there. -/
theorem Full.waits_eq (hfull : Full r s t) (hgates : Gates r s) :
    (∑ u, (s.threads u).pc.waits (par r)) + (s.breeched (par r)).waiters.length + 1 = Fintype.card τ := by
  have hlast : (s.threads t).pc.waits (par r) = 0 ∧ (s.threads t).pc ≠ .queued (par r) := by
    rcases hfull.last with hlast | ⟨hlast, -⟩
    · simp [hlast, Pc.waits]
    · simp [hlast, Pc.waits]
  have hnot : t ∉ (s.breeched (par r)).waiters.toFinset := by
    rw [List.mem_toFinset, hgates.shutQueue]
    exact hlast.2
  have hwaits : ∑ u, (s.threads u).pc.waits (par r) =
      (Finset.univ \ insert t (s.breeched (par r)).waiters.toFinset).card := by
    rw [Finset.card_eq_sum_ones, ← Finset.sum_subset (Finset.sdiff_subset)]
    · apply Finset.sum_congr rfl
      intro u hu
      simp only [Finset.mem_sdiff, Finset.mem_insert, List.mem_toFinset, hgates.shutQueue, not_or] at hu
      have hwaitone := (hfull.others u hu.2.1).resolve_right hu.2.2
      simp [hwaitone, Pc.waits]
    · intro u _ hu
      simp only [Finset.mem_sdiff, Finset.mem_univ, true_and, not_not, Finset.mem_insert, List.mem_toFinset,
        hgates.shutQueue] at hu
      rcases hu with rfl | hu
      · exact hlast.1
      · simp [hu, Pc.waits]
  have hsub := Finset.card_sdiff_add_card_eq_card (Finset.subset_univ (insert t (s.breeched (par r)).waiters.toFinset))
  rw [Finset.card_insert_of_notMem hnot, List.toFinset_card_of_nodup hgates.nodup, Finset.card_univ] at hsub
  omega

omit [Fintype τ] in
theorem State.semrel_zero {a : Fin 2} (h : (s.breeched a).count = 0) : s.semrel a 0 = s := by
  have hrelease : (s.breeched a).release 0 = (s.breeched a, []) := by
    cases hm : s.breeched a with
    | mk count waiters =>
      rw [hm] at h
      obtain rfl : count = 0 := h
      simp [Sem.release]
  simp [State.semrel, hrelease]

theorem Full.semrel_eq (hfull : Full r s t) (hgates : Gates r s) :
    s.semrel (par r) (Fintype.card τ - 1) =
      { s with
        breeched := update s.breeched (par r) ⟨∑ u, (s.threads u).pc.waits (par r), []⟩
        threads := fun u => if (s.threads u).pc = .queued (par r) then (s.threads u).goto (.exchange (par r))
          else s.threads u } := by
  have hwaits := hfull.waits_eq hgates
  have hmin : min ((s.breeched (par r)).count + (Fintype.card τ - 1)) (s.breeched (par r)).waiters.length =
      (s.breeched (par r)).waiters.length := by
    omega
  have hcount : (s.breeched (par r)).count + (Fintype.card τ - 1) - (s.breeched (par r)).waiters.length =
      ∑ u, (s.threads u).pc.waits (par r) := by
    rw [hgates.shutCount]
    omega
  have hrelease : (s.breeched (par r)).release (Fintype.card τ - 1) =
      (⟨∑ u, (s.threads u).pc.waits (par r), []⟩, (s.breeched (par r)).waiters) := by
    unfold Sem.release
    dsimp only
    rw [hmin, hcount, List.drop_length, List.take_length]
  unfold State.semrel
  simp only [hrelease, hgates.shutQueue]

theorem Inv.exec_release (h : Inv r s) (hpc : (s.threads t).pc = .release (par r)) :
    exec s t = some ((s.semrel (par r) (Fintype.card τ - 1)).put t ((s.threads t).goto (.exchange (par r)))) := by
  have hrc : int32 ((0 : ℕ) : ℤ) = 0 := rfl
  unfold exec
  simp only [hpc, h.everyone, h.gates.shutCount]
  split_ifs with hcard
  · rfl
  · have hone : Fintype.card τ - 1 = 0 := by omega
    rw [hone, State.semrel_zero h.gates.shutCount]

theorem Full.after (hfull : Full r s t) (hgates : Gates r s) (hplace : ∀ u, Place r (s.threads u))
    (hs : s' = (s.semrel (par r) (Fintype.card τ - 1)).put t ((s.threads t).goto (.exchange (par r)))) (u : τ) :
    Leaving (r + 1) (s'.threads u) ∧ (s'.threads u).returns = (s.threads u).returns ∧
      (s'.threads u).pc.waits (par r) = (s.threads u).pc.waits (par r) ∧
      ((s'.threads u).pc = .exchange (par r) ∨ (s'.threads u).pc = .waitone (par r)) := by
  rw [hs, hfull.semrel_eq hgates]
  have hu := hplace u
  have hleaving (hentered : Entered r (s.threads u)) (pc : Pc) : Leaving (r + 1) ((s.threads u).goto pc) :=
    ⟨hentered.1, congrArg (· + 1) hentered.2⟩
  by_cases hut : u = t
  · have hthread : Entered r (s.threads u) ∧ (s.threads u).pc.waits (par r) = 0 := by
      rw [hut] at hu ⊢
      rcases hfull.last with hlast | ⟨hlast, -⟩
      · simp only [Place, hlast] at hu
        exact ⟨hu.2, by rw [hlast]; rfl⟩
      · simp only [Place, hlast] at hu
        exact ⟨hu.2, by rw [hlast]; rfl⟩
    rw [hut] at hthread hleaving ⊢
    rw [State.put_self, hthread.2]
    exact ⟨hleaving hthread.1 _, rfl, rfl, .inl rfl⟩
  · rw [State.put_other _ _ hut]
    rcases hfull.others u hut with hother | hother
    · have hne : (s.threads u).pc ≠ .queued (par r) := by
        rw [hother]
        nofun
      dsimp only
      rw [if_neg hne]
      simp only [Place, hother] at hu
      have hentered : Entered r (s.threads u) := by
        rcases hu with ⟨-, hentered⟩ | ⟨hflip, -⟩
        · exact hentered
        · exact absurd hflip.symm (flip_ne (par r))
      exact ⟨hleaving hentered (s.threads u).pc, rfl, rfl, .inr hother⟩
    · dsimp only
      rw [if_pos hother]
      simp only [Place, hother] at hu
      refine ⟨hleaving hu.2 _, rfl, ?_, .inl rfl⟩
      rw [hother]
      rfl

theorem Inv.release (h : Inv r s) (hpc : (s.threads t).pc = .release (par r)) :
    ∃ s', exec s t = some s' ∧ Inv (r + 1) s' := by
  refine ⟨_, h.exec_release hpc, ?_⟩
  have hfull := h.full (.inr hpc)
  have hafter := hfull.after h.gates h.place rfl
  have hpar : par (r + 1) = 1 - par r := par_succ r
  have hflip : 1 - par (r + 1) = par r := by rw [hpar, flip_flip]
  have hheight : s.currHeight = s.initHeight := by
    rcases hfull.last with hlast | ⟨-, hheight⟩
    · rw [hpc] at hlast
      nomatch hlast
    · exact hheight
  have hsemrel := hfull.semrel_eq h.gates
  generalize hs' : (s.semrel (par r) (Fintype.card τ - 1)).put t ((s.threads t).goto (.exchange (par r))) = s' at *
  have hbreeched : s'.breeched = update s.breeched (par r)
      ⟨∑ u, (s.threads u).pc.waits (par r), []⟩ := by
    rw [← hs', hsemrel]
    rfl
  have hfields : s'.currHeight = s.currHeight ∧ s'.initHeight = s.initHeight ∧ s'.step = s.step := by
    rw [← hs']
    exact ⟨rfl, rfl, rfl⟩
  have hstep : s.step = par r := by
    have hplace := h.place t
    simp only [Place, hpc] at hplace
    exact h.tickets.turned hplace.2.2
  constructor
  · rw [hfields.2.1, h.everyone]
  · intro u
    obtain ⟨hleaving, -, -, hpc' | hpc'⟩ := hafter u
    · simp only [Place, hpc', hflip]
      exact ⟨trivial, hleaving⟩
    · simp only [Place, hpc', hflip]
      exact .inr ⟨trivial, hleaving⟩
  · left
    constructor
    · intro u a
      obtain ⟨-, -, -, hpc' | hpc'⟩ := hafter u
      · rw [hpc']
        exact ⟨nofun, nofun⟩
      · rw [hpc']
        exact ⟨nofun, nofun⟩
    · rw [hfields.1, hheight, h.everyone]
      exact Fintype.card_pos_iff.2 ⟨t⟩
    · rw [hfields.1, hfields.2.1, hheight]
      apply Nat.add_eq_left.2
      apply Finset.sum_eq_zero
      intro u _
      obtain ⟨-, -, -, hpc' | hpc'⟩ := hafter u
      · rw [hpc']
        rfl
      · rw [hpc', hpar]
        exact if_neg (flip_ne (par r)).symm
  · constructor
    · rw [hflip, hbreeched, update_self]
      apply Finset.sum_congr rfl
      intro u _
      exact (hafter u).2.2.1.symm
    · rw [hflip, hbreeched, update_self]
    · rw [hpar, hbreeched, update_of_ne (flip_ne (par r)), h.gates.openCount]
      apply Finset.sum_eq_zero
      intro u _
      have hu : (s.threads u).pc = .release (par r) ∨ (s.threads u).pc = .waitone (par r) ∨
          (s.threads u).pc = .queued (par r) := by
        by_cases hut : u = t
        · rw [hut]
          exact .inl hpc
        · exact .inr (hfull.others u hut)
      rcases hu with hu | hu | hu
      · rw [hu]
        rfl
      · rw [hu]
        exact if_neg (flip_ne (par r)).symm
      · rw [hu]
        rfl
    · intro u
      rw [hpar, hbreeched, update_of_ne (flip_ne (par r)), h.gates.openQueue]
      obtain ⟨-, -, -, hpc' | hpc'⟩ := hafter u
      · rw [hpc']
        exact ⟨nofun, nofun⟩
      · rw [hpc']
        exact ⟨nofun, nofun⟩
    · rw [hpar, hbreeched, update_of_ne (flip_ne (par r)), h.gates.openQueue]
      exact List.nodup_nil
  · constructor
    · refine .inr ⟨?_, fun u => (hafter u).1.2⟩
      rw [hfields.2.2, hstep, hflip]
    · intro k hk
      have hlt : k + 1 < r ∨ k + 1 = r ∧ s.step = par r := by
        rcases hk with hk | ⟨-, hturn⟩
        · by_cases hkr : k + 1 < r
          · exact .inl hkr
          · exact .inr ⟨by omega, hstep⟩
        · rw [hfields.2.2, hstep, hpar] at hturn
          exact absurd hturn.symm (flip_ne (par r))
      obtain ⟨u, hu, hunique⟩ := h.tickets.serial k hlt
      have hsame (v : τ) : Serial k (s'.threads v) ↔ Serial k (s.threads v) := by
        unfold Serial
        rw [(hafter v).2.1]
      exact ⟨u, (hsame u).2 hu, fun v hv => hunique v ((hsame v).1 hv)⟩
    · intro u
      rw [(hafter u).2.1]
      exact h.tickets.values u

theorem Inv.exec (h : Inv r s) (hcard : Fintype.card τ < 2 ^ 32) (hexec : Barrier.exec s t = some s') :
    ∃ r', Inv r' s' := by
  have hplace := h.place t
  cases hpc : (s.threads t).pc with
  | out =>
    simp only [Barrier.exec, hpc] at hexec
    nomatch hexec
  | readStep =>
    simp only [Barrier.exec, hpc] at hexec
    obtain rfl := Option.some.inj hexec
    exact ⟨r, h.readStep hpc⟩
  | decrement a =>
    simp only [Barrier.exec, hpc] at hexec
    obtain rfl := Option.some.inj hexec
    exact ⟨r, h.decrement hcard hpc⟩
  | reset a =>
    simp only [Barrier.exec, hpc] at hexec
    obtain rfl := Option.some.inj hexec
    exact ⟨r, h.reset hpc⟩
  | release a =>
    simp only [Place, hpc] at hplace
    obtain ⟨rfl, -⟩ := hplace
    obtain ⟨s₁, hs₁, hinv⟩ := h.release hpc
    obtain rfl := Option.some.inj (hs₁.symm.trans hexec)
    exact ⟨r + 1, hinv⟩
  | waitone a =>
    simp only [Place, hpc] at hplace
    rcases hplace with ⟨rfl, hentered⟩ | ⟨rfl, hleaving⟩
    · have hnone : ¬ 0 < (s.breeched (par r)).count := h.gates.shutCount.le.not_gt
      simp only [Barrier.exec, hpc, hnone] at hexec
      obtain rfl := Option.some.inj hexec
      exact ⟨r, h.enqueue hpc hentered⟩
    · simp only [Barrier.exec, hpc, h.count_pos hpc] at hexec
      obtain rfl := Option.some.inj hexec
      exact ⟨r, h.take hpc hleaving⟩
  | queued a =>
    simp only [Barrier.exec, hpc] at hexec
    nomatch hexec
  | exchange a =>
    simp only [Place, hpc] at hplace
    obtain ⟨rfl, hleaving⟩ := hplace
    simp only [Barrier.exec, hpc] at hexec
    split at hexec
    · next hturn =>
      obtain rfl := Option.some.inj hexec
      exact ⟨r, h.exchange hpc hleaving (.inl ⟨hturn, flip_flip (par r), rfl⟩)⟩
    · next hturn =>
      obtain rfl := Option.some.inj hexec
      have hstep : s.step = par r := by
        rcases h.tickets.turn with hstep | ⟨hstep, -⟩
        · exact hstep
        · exact absurd hstep hturn
      exact ⟨r, h.exchange hpc hleaving (.inr ⟨hstep, hstep, rfl⟩)⟩

theorem Inv.step (h : Inv r s) (hcard : Fintype.card τ < 2 ^ 32) {a : Act τ}
    (hs : Barrier.step s a = some s') : ∃ r', Inv r' s' := by
  cases a with
  | call t =>
    simp only [Barrier.step] at hs
    split at hs
    · next hpc =>
      obtain rfl := Option.some.inj hs
      exact ⟨r, h.call hpc⟩
    · nomatch hs
  | go t => exact h.exec hcard hs

theorem Inv.reach [Nonempty τ] (hcard : Fintype.card τ < 2 ^ 32)
    (h : Reach Barrier.step (fun _ _ => True) (State.init (Fintype.card τ)) s) : ∃ r, Inv r s := by
  apply h.invariant ⟨0, inv_init⟩
  rintro s₁ a s₂ ⟨r, hinv⟩ _ hs
  exact hinv.step hcard hs

omit [DecidableEq τ] in
theorem Inv.returns_le (h : Inv r s) (t u : τ) : (s.threads t).returns.length ≤ (s.threads u).calls := by
  have hle (v : τ) : (s.threads v).returns.length ≤ r ∧ r ≤ (s.threads v).calls := by
    have hplace := h.place v
    unfold Place Entered Leaving at hplace
    split at hplace <;> omega
  exact (hle t).1.trans (hle u).2

omit [DecidableEq τ] in
theorem Inv.serial_of_lt (h : Inv r s) {k : ℕ} (hk : k < (s.threads t).returns.length) :
    ∃! u, Serial k (s.threads u) := by
  have hlen : (s.threads t).returns.length ≤ r := by
    have hplace := h.place t
    unfold Place Entered Leaving at hplace
    split at hplace <;> omega
  rcases h.tickets.turn with hstep | ⟨-, hlate⟩
  · apply h.tickets.serial
    by_cases hkr : k + 1 < r
    · exact .inl hkr
    · exact .inr ⟨by omega, hstep⟩
  · have hshort := hlate t
    exact h.tickets.serial k (.inl (by omega))

/-- Two threads in two rounds; the first one begins the second round before the other has left the first. -/
def overlapRun : List (Act Bool) :=
  [.call true, .go true, .go true, .go true, .call false, .go false, .go false, .go false, .go false, .go true,
    .call true, .go true, .go true, .go true, .go false, .call false, .go false, .go false, .go false, .go false,
    .go false, .go true]

end SimpleKernel.Pthread.Barrier
