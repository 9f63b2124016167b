import SimpleKernel.Lib.ListFamily
import SimpleKernel.Lib.Transition
import Mathlib.Data.Fintype.Card
import Mathlib.Data.Int.Notation

/-! The requests that wait at a socket (`net/socket.c`), with the states of their threads (`krnl/sched.c`). -/
namespace SimpleKernel.Net
open LinkedList Transition

inductive ThreadState
  | running
  | ready
  | waiting
  | suspended
  deriving DecidableEq

/-- A thread and its request, which lies on its stack. `inside` says that it is in `submit_socket_request`, where
its wait is alertable; `completions` are the results of its request so far. -/
structure Requester where
  state : ThreadState
  suspendCount : ℕ
  interrupted : Bool
  inside : Bool
  timer : Bool
  rc : ℤ
  completions : List ℤ

/-- A socket: the links of the requests, `waithead` with `waittail`, and for each request that is finished how it was
completed and what `submit_socket_request` returned. -/
structure RequestQueue (τ : Type) where
  thread : τ → Requester
  links : Links τ
  ends : Ends τ
  returned : List (List ℤ × ℤ)

variable {τ : Type} [DecidableEq τ]

def RequestQueue.init (τ : Type) : RequestQueue τ where
  thread _ := ⟨.running, 0, false, false, false, 0, []⟩
  links := ⟨fun _ => none, fun _ => none⟩
  ends := ⟨none, none⟩
  returned := []

def eintr : ℤ := 4
def etimeout : ℤ := 70

/-- `mark_thread_ready`; a thread that is ready already is a panic. -/
def Requester.markReady (th : Requester) : Option Requester :=
  if 0 < th.suspendCount then some { th with state := .suspended }
  else if th.interrupted ∧ th.state = .ready then some th
  else if th.state = .ready then none
  else some { th with state := .ready }

def RequestQueue.set (s : RequestQueue τ) (t : τ) (th : Requester) : RequestQueue τ :=
  { s with thread := Function.update s.thread t th }

/-- `cancel_socket_request`. The fields of the request keep their values. -/
def RequestQueue.cancel (s : RequestQueue τ) (t : τ) : RequestQueue τ :=
  { s with links := s.links.bypass t, ends := s.ends.drop s.links t }

/-- `release_socket_request`. -/
def RequestQueue.release (s : RequestQueue τ) (t : τ) (rc : ℤ) : Option (RequestQueue τ) :=
  match { s.thread t with rc := rc, completions := (s.thread t).completions ++ [rc] }.markReady with
  | none => none
  | some th => some ((s.cancel t).set t th)

/-- The return from `submit_socket_request`, after `del_timer`. -/
def RequestQueue.leave (s : RequestQueue τ) (t : τ) : RequestQueue τ :=
  { s.set t { s.thread t with state := .running, inside := false, timer := false } with
    returned := s.returned ++ [((s.thread t).completions, (s.thread t).rc)] }

/-- What `submit_socket_request` does when the wait was interrupted. -/
def RequestQueue.giveUp (s : RequestQueue τ) (t : τ) : RequestQueue τ :=
  (s.cancel t).set t { s.thread t with rc := -eintr, completions := (s.thread t).completions ++ [-eintr] }

/-- `submit_socket_request` up to its wait, with a timer or with no limit. A thread that has signals to handle does not
wait. -/
def RequestQueue.submit (s : RequestQueue τ) (t : τ) (timer signals : Bool) : RequestQueue τ :=
  let s := { s with
    links := s.links.append s.ends t
    ends := s.ends.append t }.set t { s.thread t with inside := true, timer := timer, rc := 0, completions := [] }
  if signals then (s.giveUp t).leave t
  else s.set t { s.thread t with state := .waiting, interrupted := false }

/-- `interrupt_thread`. -/
def RequestQueue.interrupt (s : RequestQueue τ) (t : τ) : Option (RequestQueue τ) :=
  if (s.thread t).state ≠ .waiting then some s
  else
    match { s.thread t with interrupted := true }.markReady with
    | none => none
    | some th => some (s.set t th)

/-- `socket_timeout`, when the timer of the request expires. -/
def RequestQueue.expire (s : RequestQueue τ) (t : τ) : Option (RequestQueue τ) :=
  let s := s.set t { s.thread t with timer := false }
  if (s.thread t).state = .ready then some s
  else s.release t (if (s.thread t).rc > 0 then (s.thread t).rc else -etimeout)

/-- `suspend_thread`. -/
def RequestQueue.suspend (s : RequestQueue τ) (t : τ) : RequestQueue τ :=
  let th := { s.thread t with suspendCount := (s.thread t).suspendCount + 1 }
  if (s.thread t).suspendCount = 0 ∧ (th.state = .ready ∨ th.state = .running) then
    s.set t { th with state := .suspended }
  else s.set t th

/-- `resume_thread`. -/
def RequestQueue.resume (s : RequestQueue τ) (t : τ) : Option (RequestQueue τ) :=
  if (s.thread t).suspendCount = 0 then some s
  else
    let th := { s.thread t with suspendCount := (s.thread t).suspendCount - 1 }
    if th.suspendCount = 0 ∧ th.state = .suspended then
      match th.markReady with
      | none => none
      | some th => some (s.set t th)
    else some (s.set t th)

/-- A ready thread is dispatched: it goes on behind its wait, or it runs elsewhere. -/
def RequestQueue.dispatch (s : RequestQueue τ) (t : τ) : RequestQueue τ :=
  if (s.thread t).inside then
    if (s.thread t).interrupted then ((s.set t { s.thread t with interrupted := false }).giveUp t).leave t
    else s.leave t
  else s.set t { s.thread t with state := .running }

inductive RequestAct (τ : Type)
  | submit (t : τ) (timer signals : Bool)
  | release (t : τ) (rc : ℤ)
  | credit (t : τ) (bytes : ℤ)
  | interrupt (t : τ)
  | expire (t : τ)
  | suspend (t : τ)
  | resume (t : τ)
  | dispatch (t : τ)

variable [Fintype τ]

/-- The requests that the protocol finds from `waithead` on. -/
def RequestQueue.found (s : RequestQueue τ) : List τ := follow s.links.next (Fintype.card τ) s.ends.head

/-- One step. Nothing comes in between in the kernel, except where a thread waits. The protocol releases requests that
it finds in the list, or counts bytes that it sent for them. -/
def RequestQueue.step (s : RequestQueue τ) : RequestAct τ → Option (RequestQueue τ)
  | .submit t timer signals =>
    if (s.thread t).state = .running ∧ (s.thread t).inside = false then some (s.submit t timer signals) else some s
  | .release t rc => if t ∈ s.found then s.release t rc else some s
  | .credit t bytes =>
    if t ∈ s.found then some (s.set t { s.thread t with rc := (s.thread t).rc + bytes }) else some s
  | .interrupt t => s.interrupt t
  | .expire t => if (s.thread t).timer then s.expire t else some s
  | .suspend t => some (s.suspend t)
  | .resume t => s.resume t
  | .dispatch t => if (s.thread t).state = .ready then some (s.dispatch t) else some s

/-- Every finished request was completed once, with the result that was returned; the others were completed once at
most, and those that were not are the list. -/
def RequestQueue.Sound (s : RequestQueue τ) : Prop :=
  (∀ x ∈ s.returned, x.1 = [x.2]) ∧ (∀ t, (s.thread t).inside → (s.thread t).completions.length ≤ 1) ∧
    ∃ xs, IsList s.links s.ends xs ∧ ∀ t, t ∈ xs ↔ (s.thread t).inside ∧ (s.thread t).completions = []

omit [Fintype τ] in
@[simp] theorem RequestQueue.set_self (s : RequestQueue τ) (t : τ) (th : Requester) : (s.set t th).thread t = th :=
  Function.update_self _ _ _

omit [Fintype τ] in
theorem RequestQueue.set_of_ne (s : RequestQueue τ) {t u : τ} (th : Requester) (h : u ≠ t) :
    (s.set t th).thread u = s.thread u := Function.update_of_ne h _ _

/-- The condition on a step: a request whose thread is interrupted and did not run since is not released, and no timer
expires while the thread is suspended. -/
def RequestQueue.ok (s : RequestQueue τ) : RequestAct τ → Prop
  | .release t _ => (s.thread t).interrupted = false
  | .expire t => (s.thread t).state ≠ .suspended
  | _ => True

instance (s : RequestQueue τ) : (l : RequestAct τ) → Decidable (s.ok l)
  | .release t _ => inferInstanceAs (Decidable ((s.thread t).interrupted = false))
  | .expire t => inferInstanceAs (Decidable ((s.thread t).state ≠ .suspended))
  | .submit _ _ _ => inferInstanceAs (Decidable True)
  | .credit _ _ => inferInstanceAs (Decidable True)
  | .interrupt _ => inferInstanceAs (Decidable True)
  | .suspend _ => inferInstanceAs (Decidable True)
  | .resume _ => inferInstanceAs (Decidable True)
  | .dispatch _ => inferInstanceAs (Decidable True)

/-- How the state of a thread goes with its request. -/
structure Requester.Fits (th : Requester) : Prop where
  outside : th.inside = false → th.timer = false ∧ th.interrupted = false ∧ th.state ≠ .waiting
  inside : th.inside = true → th.state ≠ .running
  waiting : th.state = .waiting → th.interrupted = false ∧ th.completions = []
  interrupted : th.inside = true → th.interrupted = true → th.completions = []
  completed : th.inside = true → th.state ≠ .waiting → th.interrupted = false → th.completions = [th.rc]
  suspended : th.state = .suspended → 0 < th.suspendCount
  ready : th.state = .ready → th.suspendCount = 0

/-- A request that is not completed. -/
def Requester.Open (th : Requester) : Prop := th.inside = true ∧ th.completions = []

structure RequestQueue.Holds (s : RequestQueue τ) (xs : List τ) : Prop where
  list : IsList s.links s.ends xs
  mem : ∀ t, t ∈ xs ↔ (s.thread t).Open
  fits : ∀ t, (s.thread t).Fits
  returned : ∀ x ∈ s.returned, x.1 = [x.2]

variable {s s' : RequestQueue τ} {xs : List τ} {t : τ} {th : Requester}

omit [Fintype τ] [DecidableEq τ] in
theorem RequestQueue.Holds.sound (h : s.Holds xs) : s.Sound := by
  refine ⟨h.returned, fun t ht => ?_, xs, h.list, h.mem⟩
  have hfits := h.fits t
  by_cases hint : (s.thread t).interrupted = true
  · rw [hfits.interrupted ht hint]
    exact Nat.zero_le _
  · by_cases hwait : (s.thread t).state = .waiting
    · rw [(hfits.waiting hwait).2]
      exact Nat.zero_le _
    · rw [hfits.completed ht hwait (by simpa using hint)]
      exact Nat.le_refl _

omit [DecidableEq τ] in
theorem RequestQueue.Holds.found (h : s.Holds xs) : s.found = xs :=
  h.list.chain.follow h.list.nodup.length_le_card

section
omit [Fintype τ]

theorem RequestQueue.Holds.set (h : s.Holds xs) (hfits : th.Fits) (hopen : th.Open ↔ (s.thread t).Open) :
    (s.set t th).Holds xs := by
  refine ⟨h.list, fun u => ?_, fun u => ?_, h.returned⟩
  · by_cases hu : u = t
    · subst hu
      rw [set_self, hopen]
      exact h.mem u
    · rw [set_of_ne _ _ hu]
      exact h.mem u
  · by_cases hu : u = t
    · subst hu
      rwa [set_self]
    · rw [set_of_ne _ _ hu]
      exact h.fits u

theorem RequestQueue.Holds.complete (h : s.Holds xs) (th : Requester) (hopen : (s.thread t).Open)
    (hfits : th.Fits) (hdone : ¬ th.Open) : ∃ ys, ((s.cancel t).set t th).Holds ys := by
  obtain ⟨as, bs, hxs⟩ := List.append_of_mem ((h.mem t).mpr hopen)
  have hlist := h.list
  rw [hxs] at hlist
  have htas : t ∉ as ++ bs := (List.nodup_cons.mp (List.nodup_middle.mp hlist.nodup)).1
  refine ⟨as ++ bs, hlist.bypass, fun u => ?_, fun u => ?_, h.returned⟩
  · by_cases hu : u = t
    · subst hu
      rw [set_self]
      exact ⟨fun hm => absurd hm htas, fun ho => absurd ho hdone⟩
    · have hmem := h.mem u
      rw [hxs] at hmem
      rw [set_of_ne _ _ hu]
      simpa [hu, cancel] using hmem
  · by_cases hu : u = t
    · subst hu
      rwa [set_self]
    · rw [set_of_ne _ _ hu]
      exact h.fits u

theorem RequestQueue.Holds.leave (h : s.Holds xs) (hint : (s.thread t).interrupted = false)
    (hdone : (s.thread t).completions = [(s.thread t).rc]) :
    (s.leave t).Holds xs := by
  have hset : (s.set t { s.thread t with state := .running, inside := false, timer := false }).Holds xs := by
    apply h.set
    · constructor <;> simp [hint]
    · simp [Requester.Open, hdone]
  refine ⟨hset.list, hset.mem, hset.fits, fun x hx => ?_⟩
  rcases List.mem_append.mp hx with hx | hx
  · exact h.returned x hx
  · rw [List.mem_singleton.mp hx]
    exact hdone

theorem RequestQueue.Holds.submit (h : s.Holds xs) (hstate : (s.thread t).state = .running)
    (hout : (s.thread t).inside = false) (timer signals : Bool) : ∃ ys, (s.submit t timer signals).Holds ys := by
  have htxs : t ∉ xs := fun ht => by
    have hopen := ((h.mem t).mp ht).1
    rw [hout] at hopen
    exact absurd hopen (by simp)
  have hfits := h.fits t
  obtain ⟨htimer, hint, -⟩ := hfits.outside hout
  have hlist := h.list.append htxs
  cases signals with
  | false =>
    refine ⟨xs ++ [t], hlist, fun u => ?_, fun u => ?_, h.returned⟩
    · by_cases hu : u = t
      · subst hu
        simp [RequestQueue.submit, RequestQueue.set, Requester.Open]
      · have hmem := h.mem u
        simpa [RequestQueue.submit, RequestQueue.set, hu] using hmem
    · by_cases hu : u = t
      · subst hu
        simp only [RequestQueue.submit, RequestQueue.set, Bool.false_eq_true, if_false, Function.update_self]
        constructor <;> simp
      · simpa [RequestQueue.submit, RequestQueue.set, hu] using h.fits u
  | true =>
    -- the request is on the list for no longer than the function takes
    refine ⟨xs, ?_, fun u => ?_, fun u => ?_, fun x hx => ?_⟩
    · have hback := @IsList.bypass _ _ _ _ xs [] t hlist
      rwa [List.append_nil] at hback
    · by_cases hu : u = t
      · subst hu
        simp [RequestQueue.submit, RequestQueue.set, RequestQueue.giveUp, RequestQueue.leave, Requester.Open, htxs]
      · have hmem := h.mem u
        simpa [RequestQueue.submit, RequestQueue.set, RequestQueue.giveUp, RequestQueue.leave, RequestQueue.cancel, hu]
          using hmem
    · by_cases hu : u = t
      · subst hu
        simp only [RequestQueue.submit, RequestQueue.set, RequestQueue.giveUp, RequestQueue.leave, if_true,
          Function.update_self, Function.update_idem]
        constructor <;> simp [hint]
      · simpa [RequestQueue.submit, RequestQueue.set, RequestQueue.giveUp, RequestQueue.leave, RequestQueue.cancel, hu]
          using h.fits u
    · simp only [RequestQueue.submit, RequestQueue.set, RequestQueue.giveUp, RequestQueue.leave, RequestQueue.cancel,
        if_true, Function.update_self, List.nil_append, List.mem_append, List.mem_singleton] at hx
      rcases hx with hx | rfl
      · exact h.returned x hx
      · rfl

theorem RequestQueue.Holds.release (h : s.Holds xs) (hopen : (s.thread t).Open)
    (hwait : (s.thread t).state = .waiting) (rc : ℤ) : ∃ s' ys, s.release t rc = some s' ∧ s'.Holds ys := by
  have hint := (h.fits t).waiting hwait
  by_cases hsus : 0 < (s.thread t).suspendCount
  · obtain ⟨ys, hys⟩ := h.complete ({ s.thread t with
        rc := rc, completions := (s.thread t).completions ++ [rc], state := .suspended } : Requester) hopen
      (by constructor <;> simp [hopen.1, hopen.2, hint.1, hsus]) (by simp [Requester.Open])
    exact ⟨_, ys, by simp [RequestQueue.release, Requester.markReady, hsus], hys⟩
  · obtain ⟨ys, hys⟩ := h.complete ({ s.thread t with
        rc := rc, completions := (s.thread t).completions ++ [rc], state := .ready } : Requester) hopen
      (by constructor <;> simp [hopen.1, hopen.2, hint.1]; omega) (by simp [Requester.Open])
    exact ⟨_, ys, by simp [RequestQueue.release, Requester.markReady, hsus, hint.1, hwait], hys⟩

theorem RequestQueue.Holds.interrupt (h : s.Holds xs) (t : τ) : ∃ s', s.interrupt t = some s' ∧ s'.Holds xs := by
  by_cases hwait : (s.thread t).state = .waiting
  · obtain ⟨hint, hnil⟩ := (h.fits t).waiting hwait
    have hinside : (s.thread t).inside = true := by
      by_contra hout
      exact ((h.fits t).outside (by simpa using hout)).2.2 hwait
    by_cases hsus : 0 < (s.thread t).suspendCount
    · refine ⟨s.set t { s.thread t with interrupted := true, state := .suspended },
        by simp [RequestQueue.interrupt, Requester.markReady, hwait, hsus], h.set ?_ Iff.rfl⟩
      constructor <;> simp [hinside, hnil, hsus]
    · refine ⟨s.set t { s.thread t with interrupted := true, state := .ready },
        by simp [RequestQueue.interrupt, Requester.markReady, hwait, hsus], h.set ?_ Iff.rfl⟩
      constructor <;> simp [hinside, hnil]
      omega
  · exact ⟨s, by simp [RequestQueue.interrupt, hwait], h⟩

theorem RequestQueue.Holds.expire (h : s.Holds xs) (htimer : (s.thread t).timer = true)
    (hok : (s.thread t).state ≠ .suspended) : ∃ s' ys, s.expire t = some s' ∧ s'.Holds ys := by
  have hfits := h.fits t
  have hinside : (s.thread t).inside = true := by
    by_contra hout
    have hoff := (hfits.outside (by simpa using hout)).1
    rw [htimer] at hoff
    exact absurd hoff (by simp)
  have hset : (s.set t { s.thread t with timer := false }).Holds xs :=
    h.set ⟨fun ho => ⟨rfl, (hfits.outside ho).2⟩, hfits.inside, hfits.waiting, hfits.interrupted, hfits.completed,
      hfits.suspended, hfits.ready⟩ Iff.rfl
  by_cases hready : (s.thread t).state = .ready
  · exact ⟨_, xs, by simp [RequestQueue.expire, hready], hset⟩
  · have hwait : (s.thread t).state = .waiting := by
      have hrun := hfits.inside hinside
      cases hs : (s.thread t).state <;> simp_all
    have hopen : ((s.set t { s.thread t with timer := false }).thread t).Open := by
      rw [RequestQueue.set_self]
      exact ⟨hinside, (hfits.waiting hwait).2⟩
    obtain ⟨s', ys, hrun, hholds⟩ := hset.release hopen (by rwa [RequestQueue.set_self])
      (if (s.thread t).rc > 0 then (s.thread t).rc else -etimeout)
    refine ⟨s', ys, ?_, hholds⟩
    simp only [RequestQueue.expire, RequestQueue.set_self, hready, if_false, hrun]

theorem RequestQueue.Holds.suspend (h : s.Holds xs) (t : τ) : (s.suspend t).Holds xs := by
  have hfits := h.fits t
  unfold RequestQueue.suspend
  dsimp only
  split
  · rename_i hrun
    refine h.set ?_ Iff.rfl
    have hwait : (s.thread t).state ≠ .waiting := by rcases hrun.2 with hs | hs <;> simp [hs]
    exact ⟨fun ho => ⟨(hfits.outside ho).1, (hfits.outside ho).2.1, by simp⟩, fun _ => by simp, by simp,
      hfits.interrupted, fun hi _ => hfits.completed hi hwait, by simp, by simp⟩
  · rename_i hrun
    refine h.set ?_ Iff.rfl
    refine ⟨hfits.outside, hfits.inside, hfits.waiting, hfits.interrupted, hfits.completed, by simp, fun hr => ?_⟩
    have hzero := hfits.ready hr
    exact absurd ⟨hzero, Or.inl hr⟩ hrun

theorem RequestQueue.Holds.resume (h : s.Holds xs) (t : τ) : ∃ s', s.resume t = some s' ∧ s'.Holds xs := by
  have hfits := h.fits t
  by_cases hzero : (s.thread t).suspendCount = 0
  · exact ⟨s, by simp [RequestQueue.resume, hzero], h⟩
  · by_cases hlast : (s.thread t).suspendCount - 1 = 0 ∧ (s.thread t).state = .suspended
    · refine ⟨s.set t { s.thread t with suspendCount := 0, state := .ready }, ?_, h.set ?_ Iff.rfl⟩
      · simp [RequestQueue.resume, hzero, hlast, Requester.markReady]
      · have hwait : (s.thread t).state ≠ .waiting := by simp [hlast.2]
        exact ⟨fun ho => ⟨(hfits.outside ho).1, (hfits.outside ho).2.1, by simp⟩, fun _ => by simp, by simp,
          hfits.interrupted, fun hi _ => hfits.completed hi hwait, by simp, by simp⟩
    · refine ⟨s.set t { s.thread t with suspendCount := (s.thread t).suspendCount - 1 }, ?_, h.set ?_ Iff.rfl⟩
      · simp only [RequestQueue.resume, hzero, if_false, hlast]
      · refine ⟨hfits.outside, hfits.inside, hfits.waiting, hfits.interrupted, hfits.completed, fun hs => ?_,
          fun hr => ?_⟩
        · have hne : (s.thread t).suspendCount - 1 ≠ 0 := fun he => hlast ⟨he, hs⟩
          exact Nat.pos_of_ne_zero hne
        · exact absurd (hfits.ready hr) hzero

theorem RequestQueue.Holds.dispatch (h : s.Holds xs) (hready : (s.thread t).state = .ready) :
    ∃ ys, (s.dispatch t).Holds ys := by
  have hfits := h.fits t
  have hwait : (s.thread t).state ≠ .waiting := by simp [hready]
  cases hinside : (s.thread t).inside with
  | false =>
    obtain ⟨htimer, hint, -⟩ := hfits.outside hinside
    simp only [RequestQueue.dispatch, hinside, Bool.false_eq_true, if_false]
    refine ⟨xs, h.set ?_ (by simp [Requester.Open, hinside])⟩
    constructor <;> simp [htimer, hint]
  | true =>
    cases hint : (s.thread t).interrupted with
    | false =>
      simp only [RequestQueue.dispatch, hinside, hint, Bool.false_eq_true, if_true, if_false]
      exact ⟨xs, h.leave hint (hfits.completed hinside hwait hint)⟩
    | true =>
      rw [RequestQueue.dispatch, if_pos hinside, if_pos hint]
      have hnil := hfits.interrupted hinside hint
      have hgive : (s.set t { s.thread t with interrupted := false }).giveUp t =
          (s.cancel t).set t { s.thread t with interrupted := false, rc := -eintr, completions := [-eintr] } := by
        simp [RequestQueue.giveUp, RequestQueue.cancel, RequestQueue.set, hnil]
      obtain ⟨ys, hys⟩ := h.complete ({ s.thread t with
          interrupted := false, rc := -eintr, completions := [-eintr] } : Requester) ⟨hinside, hnil⟩
        (by constructor <;> simp [hinside, hready, hfits.ready hready]) (by simp [Requester.Open])
      rw [hgive]
      refine ⟨ys, hys.leave ?_ ?_⟩ <;> rw [RequestQueue.set_self]

end

theorem RequestQueue.Holds.step (h : s.Holds xs) {l : RequestAct τ} (hok : s.ok l) :
    ∃ s' ys, s.step l = some s' ∧ s'.Holds ys := by
  cases l with
  | submit t timer signals =>
    rw [RequestQueue.step]
    split
    · rename_i hguard
      obtain ⟨ys, hys⟩ := h.submit hguard.1 hguard.2 timer signals
      exact ⟨_, ys, rfl, hys⟩
    · exact ⟨s, xs, rfl, h⟩
  | release t rc =>
    rw [RequestQueue.step, h.found]
    split
    · rename_i ht
      have hopen := (h.mem t).mp ht
      have hwait : (s.thread t).state = .waiting := by
        by_contra hwait
        have hdone := (h.fits t).completed hopen.1 hwait hok
        rw [hopen.2] at hdone
        exact absurd hdone (by simp)
      exact h.release hopen hwait rc
    · exact ⟨s, xs, rfl, h⟩
  | credit t bytes =>
    rw [RequestQueue.step, h.found]
    split
    · rename_i ht
      have hopen := (h.mem t).mp ht
      have hfits := h.fits t
      refine ⟨_, xs, rfl, h.set ⟨hfits.outside, hfits.inside, hfits.waiting, hfits.interrupted, fun hi hw hn => ?_,
        hfits.suspended, hfits.ready⟩ Iff.rfl⟩
      have hdone := hfits.completed hi hw hn
      rw [hopen.2] at hdone
      exact absurd hdone (by simp)
    · exact ⟨s, xs, rfl, h⟩
  | interrupt t =>
    obtain ⟨s', hrun, hholds⟩ := h.interrupt t
    exact ⟨s', xs, hrun, hholds⟩
  | expire t =>
    rw [RequestQueue.step]
    split
    · rename_i htimer
      exact h.expire htimer hok
    · exact ⟨s, xs, rfl, h⟩
  | suspend t => exact ⟨_, xs, rfl, h.suspend t⟩
  | resume t =>
    obtain ⟨s', hrun, hholds⟩ := h.resume t
    exact ⟨s', xs, hrun, hholds⟩
  | dispatch t =>
    rw [RequestQueue.step]
    split
    · rename_i hready
      obtain ⟨ys, hys⟩ := h.dispatch hready
      exact ⟨_, ys, rfl, hys⟩
    · exact ⟨s, xs, rfl, h⟩

/-- In every run in which no request of an interrupted thread is released before it runs, and no timer expires while
it is suspended, each request is completed once, and nothing in the kernel panics. -/
theorem requests_once (h : Reach RequestQueue.step RequestQueue.ok (RequestQueue.init τ) s) :
    s.Sound ∧ ∀ l, s.ok l → ∃ s', s.step l = some s' := by
  have hinit : (RequestQueue.init τ).Holds [] := by
    refine ⟨isList_nil _, by simp [RequestQueue.init, Requester.Open], fun t => ?_, by simp [RequestQueue.init]⟩
    constructor <;> simp [RequestQueue.init]
  obtain ⟨xs, hxs⟩ : ∃ xs, s.Holds xs := by
    apply h.invariant ⟨[], hinit⟩
    rintro a l b ⟨xs, hxs⟩ hok hl
    obtain ⟨b', ys, hb', hholds⟩ := hxs.step hok
    obtain rfl := Option.some.inj (hl.symm.trans hb')
    exact ⟨ys, hholds⟩
  refine ⟨hxs.sound, fun l hok => ?_⟩
  obtain ⟨s', -, hs', -⟩ := hxs.step hok
  exact ⟨s', hs'⟩

/-- Two requests: one is released while its thread is suspended, the other one is interrupted. -/
def orderlyRequests (t u : τ) : List (RequestAct τ) :=
  [.submit t true false, .submit u false false, .suspend t, .release t 7, .interrupt u, .dispatch u, .resume t,
    .dispatch t]

theorem requests_once_orderly : ∃ s, Reach RequestQueue.step RequestQueue.ok (RequestQueue.init (Fin 2)) s ∧
    s.returned = [([-4], -4), ([7], 7)] ∧ s.Sound := by
  have hrun : (runOk RequestQueue.step RequestQueue.ok (RequestQueue.init (Fin 2)) (orderlyRequests 0 1)).map
      RequestQueue.returned = some [([-4], -4), ([7], 7)] := by decide +kernel
  obtain ⟨s, hs, hreturned⟩ := Option.map_eq_some_iff.mp hrun
  have hreach := reach_of_runOk (orderlyRequests 0 1) hs
  exact ⟨s, hreach, hreturned, (requests_once hreach).1⟩

/-- A release between the interruption and the run of the thread is overwritten, and so is one of a suspended thread
whose timer expires. -/
theorem requests_twice :
    (∃ s, Reach RequestQueue.step (fun _ _ => True) (RequestQueue.init (Fin 2)) s ∧
      s.returned = [([7, -4], -4)] ∧ ¬ s.Sound) ∧
    ∃ s, Reach RequestQueue.step (fun _ _ => True) (RequestQueue.init (Fin 2)) s ∧
      s.returned = [([0, -70], -70)] ∧ ¬ s.Sound := by
  have hinterrupt : (run RequestQueue.step (RequestQueue.init (Fin 2))
      [.submit 0 true false, .interrupt 0, .release 0 7, .dispatch 0]).map RequestQueue.returned =
        some [([7, -4], -4)] := by decide +kernel
  have hexpire : (run RequestQueue.step (RequestQueue.init (Fin 2))
      [.submit 0 true false, .suspend 0, .release 0 0, .expire 0, .resume 0, .dispatch 0]).map RequestQueue.returned =
        some [([0, -70], -70)] := by decide +kernel
  obtain ⟨s, hs, hreturned⟩ := Option.map_eq_some_iff.mp hinterrupt
  obtain ⟨s', hs', hreturned'⟩ := Option.map_eq_some_iff.mp hexpire
  refine ⟨⟨s, reach_of_run _ hs, hreturned, fun hsound => ?_⟩, s', reach_of_run _ hs', hreturned', fun hsound => ?_⟩
  · have hx := hsound.1 ([7, -4], -4) (by rw [hreturned]; exact List.mem_singleton_self _)
    exact absurd hx (by decide)
  · have hx := hsound.1 ([0, -70], -70) (by rw [hreturned']; exact List.mem_singleton_self _)
    exact absurd hx (by decide)

end SimpleKernel.Net
