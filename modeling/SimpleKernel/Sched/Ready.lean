import Mathlib.Algebra.Group.Int.Defs
import Mathlib.Tactic.Simps.Basic
import SimpleKernel.Lib.LinkedList

/-! Thread states and ready queues of `krnl/sched.c`. The fields of `struct thread` that the
scheduler uses are maps from threads. -/
namespace SimpleKernel.Sched
open LinkedList
open Function (update)

/-- `THREAD_STATE_INITIALIZED` to `THREAD_STATE_TRANSITION`. -/
inductive ThreadState where
  | initialized | ready | running | waiting | terminated | suspended | transition
  deriving DecidableEq, Repr

def defaultQuantum : ℤ := 36

def priorityTimeCritical : ℤ := 15

/-- `alertable` and `interrupted` are the flags `THREAD_ALERTABLE` and `THREAD_INTERRUPTED`.
`panicked` records a call of `panic`. -/
structure Threads (τ : Type) where
  state : τ → ThreadState
  quantum : τ → ℤ
  priority : τ → ℤ
  basePriority : τ → ℤ
  suspendCount : τ → ℤ
  alertable : τ → Bool
  interrupted : τ → Bool
  links : Links τ
  queue : ℤ → Ends τ
  readySummary : UInt32
  preempt : Bool
  panicked : Bool

namespace Threads
variable {τ : Type} [DecidableEq τ]

@[simps] def setState (s : Threads τ) (t : τ) (st : ThreadState) : Threads τ :=
  { s with state := update s.state t st }

/-- `1 << prio`. -/
def bit (prio : ℤ) : UInt32 := 1 <<< UInt32.ofNat prio.toNat

/-- The thread becomes the only one in the ready queue of its priority. -/
@[simps] def insertFirst (s : Threads τ) (t : τ) : Threads τ :=
  { s with
    links := s.links.clear t
    queue := update s.queue (s.priority t) ⟨some t, some t⟩
    readySummary := s.readySummary ||| bit (s.priority t) }

def insertReadyHead (s : Threads τ) (t : τ) : Threads τ :=
  let q := s.queue (s.priority t)
  if q.head = none then s.insertFirst t
  else
    { s with
      links := s.links.prepend q.head t
      queue := update s.queue (s.priority t) { q with head := some t } }

def insertReadyTail (s : Threads τ) (t : τ) : Threads τ :=
  let q := s.queue (s.priority t)
  if q.tail = none then s.insertFirst t
  else
    { s with
      links := s.links.append q t
      queue := update s.queue (s.priority t) { q with tail := some t } }

def removeFromReadyQueue (s : Threads τ) (t : τ) : Threads τ :=
  let q := (s.queue (s.priority t)).drop s.links t
  { s with
    links := s.links.bypass t
    queue := update s.queue (s.priority t) q
    readySummary :=
      if q.tail = none then s.readySummary &&& ~~~ bit (s.priority t) else s.readySummary }

/-- A thread with quantum left goes to the head of its queue. A thread without gets a new
quantum, loses a boost step and goes to the tail. -/
def insertReady (s : Threads τ) (t : τ) : Threads τ :=
  if 0 < s.quantum t then s.insertReadyHead t
  else
    { s with
      quantum := update s.quantum t defaultQuantum
      priority := update s.priority t
        (if s.basePriority t < s.priority t then s.priority t - 1 else s.priority t) }.insertReadyTail t

/-- The priority of a thread after a boost. -/
def boosted (s : Threads τ) (t : τ) (boost : ℤ) : ℤ :=
  max (s.priority t) (min (s.basePriority t + boost) priorityTimeCritical)

def markThreadReady (s : Threads τ) (cur t : τ) (charge boost : ℤ) : Threads τ :=
  if 0 < s.suspendCount t then s.setState t .suspended
  else if s.interrupted t = true ∧ s.state t = .ready then s
  else
    let s' : Threads τ := { s with
      quantum := update s.quantum t (s.quantum t - charge)
      priority := update s.priority t (s.boosted t boost)
      panicked := s.panicked || decide (s.state t = .ready) }
    let s' := (s'.setState t .ready).insertReady t
    { s' with preempt := s'.preempt || decide (s'.priority cur < s'.priority t) }

/-- `interrupt_thread`. It has no effect on a thread that does not wait or is not alertable. -/
def interruptThread (s : Threads τ) (cur t : τ) : Threads τ :=
  if s.state t ≠ .waiting then s
  else if s.alertable t = false then s
  else { s with interrupted := update s.interrupted t true }.markThreadReady cur t 1 1

def preemptThread (s : Threads τ) (cur : τ) : Threads τ :=
  let s' :=
    if s.quantum cur ≤ 0 then
      { s with
        quantum := update s.quantum cur defaultQuantum
        priority := update s.priority cur
          (if s.basePriority cur < s.priority cur then s.priority cur - 1 else s.priority cur) }
    else s
  (s'.setState cur .ready).insertReadyTail cur

/-- `dispatch` switches to the ready thread `t`. -/
def switchTo (s : Threads τ) (t : τ) : Threads τ :=
  let s' := s.removeFromReadyQueue t
  { s'.setState t .running with links := s'.links.clear t, preempt := false }

/-- `enter_wait`, and `enter_alertable_wait` of a thread without signals, up to `dispatch`. -/
def enterWait (s : Threads τ) (t : τ) (alert : Bool) : Threads τ :=
  { s.setState t .waiting with
    alertable := if alert then update s.alertable t true else s.alertable
    interrupted := if alert then update s.interrupted t false else s.interrupted }

/-- The end of `enter_alertable_wait`. -/
def leaveAlertableWait (s : Threads τ) (t : τ) : Threads τ :=
  { s with
    alertable := update s.alertable t false
    interrupted := update s.interrupted t false }

end Threads

end SimpleKernel.Sched
