import SimpleKernel.Lib.Int32
import SimpleKernel.Lib.Tally
import SimpleKernel.Lib.Transition
import Mathlib.Data.Fintype.BigOperators

/-! Condition variables (`lib/pthread/condvar.c`). Every access to the counter and every call of a mutex or
semaphore function is a step of its own. -/
namespace SimpleKernel.Pthread.Condvar

/-- `struct pthread_cond` with the count of its semaphore and the threads blocked in it, in order. -/
structure Cond (τ : Type) where
  waiting : ℤ
  count : ℕ
  queue : List τ

/-- What a thread does next. `n` is the argument that `pthread_cond_broadcast` has evaluated for `semrel`. -/
inductive Pc
  | out
  | increment
  | unlock
  | waitone
  | queued
  | decrement
  | lock
  | returnErrno
  | signalTest
  | signalRelease
  | broadcastTest
  | broadcastCount
  | broadcastRelease (n : ℤ)
  deriving DecidableEq

inductive Call
  | wait
  | signal
  | broadcast
  deriving DecidableEq

/-- Where a call begins. -/
def Call.entry : Call → Pc
  | .wait => .increment
  | .signal => .signalTest
  | .broadcast => .broadcastTest

def eintr : ℤ := 4

/-- A thread, its `errno`, the `rc` of its last wait, its last call and the result. For a signal or broadcast,
`seen` are the threads that were waiting when it was called and not interrupted since, `freed` those it has made
return. A wait is `fresh` when neither was called since it began. -/
structure Thread (τ : Type) where
  pc : Pc
  errno : ℤ
  rc : ℤ
  last : Option Call
  ret : Option ℤ
  seen : Finset τ
  freed : List τ
  fresh : Bool

namespace Thread

variable {τ : Type}

def idle : Thread τ := ⟨.out, 0, 0, none, none, ∅, [], false⟩

def goto (th : Thread τ) (pc : Pc) : Thread τ := { th with pc := pc }

def done (th : Thread τ) (ret : ℤ) : Thread τ := { th with pc := .out, ret := some ret }

/-- The thread has released the mutex and its wait has not ended. -/
def Waits (th : Thread τ) : Prop := th.pc = .waitone ∨ th.pc = .queued

instance (th : Thread τ) : Decidable th.Waits := inferInstanceAs (Decidable (_ ∨ _))

/-- The wait of another thread is interrupted while a call is under way. -/
def forget [DecidableEq τ] (th : Thread τ) (u : τ) : Thread τ :=
  if th.pc = .out then th else { th with seen := th.seen.erase u }

end Thread

structure State (τ : Type) where
  cond : Cond τ
  mutex : Option τ
  threads : τ → Thread τ

variable {τ : Type} [DecidableEq τ]

def State.init : State τ := ⟨⟨0, 0, []⟩, none, fun _ => .idle⟩

def State.put (s : State τ) (t : τ) (th : Thread τ) : State τ := { s with threads := Function.update s.threads t th }

/-- `semrel` by the thread `t`, which then returns 0: as many blocked threads as there are counts return from
`waitone`. -/
def State.semrel (s : State τ) (t : τ) (n : ℕ) : State τ :=
  let k := min (s.cond.count + n) s.cond.queue.length
  let released := s.cond.queue.take k
  { s with
    cond := { s.cond with count := s.cond.count + n - k, queue := s.cond.queue.drop k }
    threads := fun u =>
      if u = t then { (s.threads u).done 0 with freed := released }
      else if u ∈ released then (s.threads u).goto .decrement else s.threads u }

/-- The next step of a thread in one of the functions. -/
def exec (s : State τ) (t : τ) : Option (State τ) :=
  let th := s.threads t
  match th.pc with
  | .out => none
  | .increment =>
    some ({ s with cond := { s.cond with waiting := int32 (s.cond.waiting + 1) } }.put t (th.goto .unlock))
  | .unlock => some ({ s with mutex := none }.put t (th.goto .waitone))
  | .waitone =>
    if 0 < s.cond.count then
      some ({ s with cond := { s.cond with count := s.cond.count - 1 } }.put t (th.goto .decrement))
    else some ({ s with cond := { s.cond with queue := s.cond.queue ++ [t] } }.put t (th.goto .queued))
  | .queued => none
  | .decrement =>
    some ({ s with cond := { s.cond with waiting := int32 (s.cond.waiting - 1) } }.put t (th.goto .lock))
  | .lock => if s.mutex = none then some ({ s with mutex := some t }.put t (th.goto .returnErrno)) else none
  | .returnErrno => some (s.put t (th.done th.errno))
  | .signalTest => some (s.put t (if s.cond.waiting ≠ 0 then th.goto .signalRelease else th.done 0))
  | .signalRelease => some (s.semrel t 1)
  | .broadcastTest => some (s.put t (if s.cond.waiting ≠ 0 then th.goto .broadcastCount else th.done 0))
  | .broadcastCount => some (s.put t (th.goto (.broadcastRelease s.cond.waiting)))
  | .broadcastRelease n => some (s.semrel t n.toNat)

variable [Fintype τ]

/-- The threads that wait. -/
def State.waiters (s : State τ) : Finset τ := Finset.univ.filter fun u => (s.threads u).Waits

/-- A thread calls a function. -/
def State.call (s : State τ) (t : τ) (c : Call) : State τ :=
  let th := s.threads t
  if c = .wait then
    s.put t { th with pc := c.entry, rc := 0, last := some c, ret := none, seen := ∅, freed := [], fresh := true }
  else
    { s with threads := fun u =>
        if u = t then
          { th with pc := c.entry, last := some c, ret := none, seen := s.waiters, freed := [], fresh := false }
        else { s.threads u with fresh := false } }

/-- The wait of a thread is interrupted: `waitone` fails. -/
def State.interrupt (s : State τ) (t : τ) : State τ :=
  { s with
    cond := { s.cond with queue := s.cond.queue.erase t }
    threads := fun u =>
      if u = t then { (s.threads u).goto .decrement with errno := eintr, rc := eintr } else (s.threads u).forget t }

/-- Outside the functions a thread can lock and unlock the mutex, and other functions set its `errno`. -/
inductive Act (τ : Type)
  | lock (t : τ)
  | unlock (t : τ)
  | setErrno (t : τ) (e : ℤ)
  | call (t : τ) (c : Call)
  | go (t : τ)
  | interrupt (t : τ)

def step (s : State τ) : Act τ → Option (State τ)
  | .lock t => if (s.threads t).pc = .out ∧ s.mutex = none then some { s with mutex := some t } else none
  | .unlock t => if (s.threads t).pc = .out ∧ s.mutex = some t then some { s with mutex := none } else none
  | .setErrno t e => if (s.threads t).pc = .out then some (s.put t { s.threads t with errno := e }) else none
  | .call t c => if (s.threads t).pc = .out then some (s.call t c) else none
  | .go t => exec s t
  | .interrupt t => if (s.threads t).Waits then some (s.interrupt t) else none

/-- The functions are called with the mutex locked. -/
def Documented (s : State τ) : Act τ → Prop
  | .call t _ => s.mutex = some t
  | _ => True

/-- `semrel` is called with no more than the number of threads blocked in the semaphore, and a wait begins with
`errno` 0. -/
def Ready (s : State τ) : Act τ → Prop
  | .call t .wait => (s.threads t).errno = 0
  | .go t => match (s.threads t).pc with
    | .signalRelease => 1 ≤ s.cond.queue.length
    | .broadcastRelease n => n ≤ s.cond.queue.length
    | _ => True
  | _ => True

end SimpleKernel.Pthread.Condvar
