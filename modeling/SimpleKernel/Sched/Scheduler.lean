import SimpleKernel.Sched.Ready
import SimpleKernel.Lib.Transition

/-! The scheduler proper (`krnl/sched.c`): suspension, priorities, the choice of the next thread, and the steps of
the processor. Operations that end in `dispatch` are split there, since it first runs deferred procedure calls. -/
namespace SimpleKernel.Sched
open LinkedList
open Function (update)

def priorityLevels : ℤ := 32

/-- `PRIORITY_SYSIDLE` and `PRIORITY_NORMAL`. -/
def prioritySysidle : ℤ := 0
def priorityNormal : ℤ := 8

def quantumUnitsPerTick : ℤ := 3

def EINVAL : ℤ := 22

/-- The loop of `find_highest_bit` from bit `n` on. -/
def findHighestBit : ℕ → UInt32 → ℕ
  | 0, _ => 0
  | n + 1, mask => if mask &&& 0x80000000 = 0 then findHighestBit n (mask <<< 1) else n + 1

namespace Threads
variable {τ : Type} [DecidableEq τ]

def setSuspendCount (s : Threads τ) (t : τ) (n : ℤ) : Threads τ :=
  { s with suspendCount := update s.suspendCount t n }

/-- `t->base_priority = t->priority = priority`. -/
def setPriority (s : Threads τ) (t : τ) (priority : ℤ) : Threads τ :=
  { s with
    priority := update s.priority t priority
    basePriority := update s.basePriority t priority }

/-- What every call of `dispatch` starts with. -/
def clearPreempt (s : Threads τ) : Threads τ := { s with preempt := false }

/-- The new state and the previous count. A thread that suspends itself goes on with `dispatch`. -/
def suspendThread (s : Threads τ) (t : τ) : Threads τ × ℤ :=
  let s' := s.setSuspendCount t (s.suspendCount t + 1)
  let s' := if s.suspendCount t = 0 then
      if s.state t = .ready then (s'.removeFromReadyQueue t).setState t .suspended
      else if s.state t = .running then (s'.setState t .suspended).clearPreempt
      else s'
    else s'
  (s', s.suspendCount t)

def resumeThread (s : Threads τ) (cur t : τ) : Threads τ × ℤ :=
  let s' := if 0 < s.suspendCount t then
      let s' := s.setSuspendCount t (s.suspendCount t - 1)
      if s.suspendCount t - 1 = 0 then
        if s.state t = .suspended ∨ s.state t = .initialized then s'.markThreadReady cur t 0 0
        else s'
      else s'
    else s
  (s', s.suspendCount t)

/-- A thread that lowers its own priority goes on with `dispatch`. -/
def setThreadPriority (s : Threads τ) (cur t : τ) (priority : ℤ) : Threads τ × ℤ :=
  if priority < 0 ∨ priorityLevels ≤ priority then (s, -EINVAL)
  else if s.basePriority t = priority then (s, 0)
  else if t = cur then
    if priority < s.priority t then
      (((s.setPriority t priority).markThreadReady cur t 0 0).clearPreempt, 0)
    else (s.setPriority t priority, 0)
  else if s.state t = .ready then
    ((((s.removeFromReadyQueue t).setPriority t priority).setState t .transition).markThreadReady
      cur t 0 0, 0)
  else (s.setPriority t priority, 0)

/-- `yield` up to `dispatch`. -/
def yield (s : Threads τ) (cur : τ) : Threads τ :=
  { s with quantum := update s.quantum cur 0 }.markThreadReady cur cur 0 0

/-- The state without the thread and the thread; `none` when no bit is set, or when the queue of the
highest bit is empty and the kernel follows a null pointer. -/
def findReadyThread (s : Threads τ) : Option (Threads τ × τ) :=
  if s.readySummary = 0 then none
  else
    let prio : ℤ := findHighestBit 31 s.readySummary
    (s.queue prio).head.map fun t =>
      if s.links.next t = none then
        ({ s with
            links := s.links.clear t
            queue := update s.queue prio ⟨none, none⟩
            readySummary := s.readySummary &&& ~~~ bit prio }, t)
      else
        ({ s with
            links := (s.links.setPrev (s.links.next t) none).clear t
            queue := update s.queue prio
              { s.queue prio with head := s.links.next t } }, t)

def initThread (s : Threads τ) (t : τ) (priority : ℤ) : Threads τ :=
  { (s.setState t .initialized).setPriority t priority with
    quantum := update s.quantum t 0
    suspendCount := update s.suspendCount t 0
    alertable := update s.alertable t false
    interrupted := update s.interrupted t false
    links := s.links.clear t }

/-- `create_thread` by the thread `cur`. -/
def createThread (s : Threads τ) (cur t : τ) (priority : ℤ) : Threads τ :=
  let s' := s.initThread t priority
  { s' with preempt := s'.preempt || decide (s'.priority cur < priority) }

def createKernelThread (s : Threads τ) (cur t : τ) (priority : ℤ) : Threads τ :=
  (s.createThread cur t priority).markThreadReady cur t 0 0

def createUserThread (s : Threads τ) (cur t : τ) : Threads τ :=
  let s' := s.createThread cur t priorityNormal
  s'.setSuspendCount t (s'.suspendCount t + 1)

/-- The timer interrupt. -/
def tick (s : Threads τ) (cur : τ) : Threads τ :=
  { s with
    quantum := update s.quantum cur (s.quantum cur - quantumUnitsPerTick)
    preempt := s.preempt || decide (s.quantum cur - quantumUnitsPerTick ≤ 0) }

end Threads

/-- The threads and the one whose context the processor has. -/
structure Cpu (τ : Type) where
  threads : Threads τ
  cur : τ

/-- What the kernel does next. `wake` is a call of `mark_thread_ready` for a thread other than the
running one, `idle` the call in the idle loop. -/
inductive SchedCall (τ : Type) where
  | wake (t : τ) (charge boost : ℤ)
  | interrupt (t : τ)
  | preempt
  | yield
  | idle
  | wait (alert : Bool)
  | waited
  | suspend (t : τ)
  | resume (t : τ)
  | setPriority (t : τ) (priority : ℤ)
  | createKernel (t : τ) (priority : ℤ)
  | createUser (t : τ)
  | terminate
  | tick
  | dispatch

namespace Cpu
variable {τ : Type} [DecidableEq τ]

/-- `dispatch` behind the deferred procedure calls. -/
def dispatch (c : Cpu τ) : Option (Cpu τ) :=
  c.threads.findReadyThread.map fun p => ⟨p.1.setState p.2 .running, p.2⟩

def step (c : Cpu τ) : SchedCall τ → Option (Cpu τ)
  | .wake t charge boost =>
    some { c with threads := c.threads.markThreadReady c.cur t charge boost }
  | .interrupt t => some { c with threads := c.threads.interruptThread c.cur t }
  | .preempt => some { c with threads := (c.threads.preemptThread c.cur).clearPreempt }
  | .yield => some { c with threads := (c.threads.yield c.cur).clearPreempt }
  | .idle => some { c with threads := (c.threads.markThreadReady c.cur c.cur 0 0).clearPreempt }
  | .wait alert => some { c with threads := (c.threads.enterWait c.cur alert).clearPreempt }
  | .waited => some { c with threads := c.threads.leaveAlertableWait c.cur }
  | .suspend t => some { c with threads := (c.threads.suspendThread t).1 }
  | .resume t => some { c with threads := (c.threads.resumeThread c.cur t).1 }
  | .setPriority t priority =>
    some { c with threads := (c.threads.setThreadPriority c.cur t priority).1 }
  | .createKernel t priority =>
    some { c with threads := c.threads.createKernelThread c.cur t priority }
  | .createUser t => some { c with threads := c.threads.createUserThread c.cur t }
  | .terminate => some { c with threads := (c.threads.setState c.cur .terminated).clearPreempt }
  | .tick => some { c with threads := c.threads.tick c.cur }
  | .dispatch => c.dispatch

/-- How the kernel calls the scheduler: only waiting threads are woken, once more at most if they
were interrupted; the running thread gives up the processor itself, and `dispatch` follows; `int`
counters of suspensions do not overflow; threads are created once, with a valid priority. -/
def Ok (c : Cpu τ) : SchedCall τ → Prop
  | .wake t _ _ => c.threads.state t = .waiting ∨ c.threads.state t = .suspended ∨
      c.threads.state t = .ready ∧ c.threads.interrupted t = true
  | .preempt | .yield | .idle | .wait _ | .waited | .terminate =>
      c.threads.state c.cur = .running
  | .suspend t => (t = c.cur → c.threads.state t = .running) ∧
      c.threads.suspendCount t < 2 ^ 31 - 1
  | .setPriority t _ => t = c.cur → c.threads.state t = .running
  | .createKernel t priority => c.threads.state t = .initialized ∧ c.threads.suspendCount t = 0 ∧
      0 ≤ priority ∧ priority < priorityLevels
  | .createUser t => c.threads.state t = .initialized ∧ c.threads.suspendCount t = 0
  | .dispatch => c.threads.state c.cur ≠ .running
  | .interrupt _ | .resume _ | .tick => True

end Cpu

variable {τ : Type} [DecidableEq τ]

/-- The state that `init_sched` leaves: the idle thread runs, the thread of the system task queue
has been created. -/
def initSched (idle systask : τ) : Cpu τ where
  cur := idle
  threads :=
    Threads.createKernelThread
      { state := update (fun _ => .initialized) idle .running
        quantum := fun _ => 0
        priority := fun _ => prioritySysidle
        basePriority := fun _ => prioritySysidle
        suspendCount := fun _ => 0
        alertable := fun _ => false
        interrupted := fun _ => false
        links := ⟨fun _ => none, fun _ => none⟩
        queue := fun _ => ⟨none, none⟩
        readySummary := Threads.bit prioritySysidle
        preempt := false
        panicked := false } idle systask priorityNormal

end SimpleKernel.Sched
