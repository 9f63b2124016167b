import SimpleKernel.Lib.Transition
import SimpleKernel.Object.Model

/-! Threads that wait for objects. A wait call that blocks is cut at `dispatch`. Which ready thread is dispatched is
left open; the rest of a wait call runs when its thread is. -/
namespace SimpleKernel.Object
open LinkedList Sched
open Function (update)

/-- The wait blocks of a call for the objects `objs`. -/
def blocks {τ ι : Type} (waittype : WaitType) (objs : List ι) : List (Waitblock τ ι) :=
  objs.zipIdx.map fun p => ⟨.obj p.1, waittype, p.2⟩

/-- The wait block of the timer on the stack of `t`. -/
def timerBlock {τ ι : Type} (t : τ) : Waitblock τ ι := ⟨.timer t, .any, -ETIMEOUT⟩

namespace Sys
variable {τ ι : Type} [DecidableEq τ] [DecidableEq ι]

/-- The wait call of `t` returns `rc`. -/
@[simps] def finish (s : Sys τ ι) (t : τ) (rc : ℤ) : Sys τ ι :=
  { s with
    pc := update s.pc t none
    hist := { s.hist with ret := update s.hist.ret t rc } }

/-- A new wait call of the running thread. -/
@[simps] def beginWait (s : Sys τ ι) : Sys τ ι :=
  { s with hist := { s.hist with taken := update s.hist.taken s.cur [] } }

/-- `enter_object` for the running thread. -/
def enterObject (s : Sys τ ι) (o : ι) : Sys τ ι :=
  (s.setObj o ((s.obj o).entered s.cur)).acquire s.cur o

/-- The mutex `o` is owned by the running thread. -/
def owned (s : Sys τ ι) (o : ι) : Bool :=
  match (s.obj o).body with
  | .mutex owner _ => owner = some s.cur
  | _ => false

/-- The running thread acquires a mutex that it owns once more. -/
def recurse (s : Sys τ ι) (o : ι) : Sys τ ι :=
  match (s.obj o).body with
  | .mutex owner recursion =>
    (s.setObj o ⟨(s.obj o).signaled, .mutex owner (wrap (recursion + 1))⟩).acquire s.cur o
  | _ => s

/-- The blocks of `t` from number `n` on are put on the wait lists. -/
def link (s : Sys τ ι) (t : τ) : ℕ → List (Waitblock τ ι) → Sys τ ι
  | _, [] => s
  | n, wb :: wbs => link (s.insertInWaitlist wb.object (t, n)) t (n + 1) wbs

/-- `init_waitable_timer` for the timer on the stack of `t`; it expires in the future. -/
@[simps] def initTimer (s : Sys τ ι) (t : τ) : Sys τ ι :=
  { s with
    expired := update s.expired t false
    armed := update s.armed t true
    waiters := update s.waiters (.timer t) ⟨none, none⟩ }

@[simps] def cancelTimer (s : Sys τ ι) (t : τ) : Sys τ ι :=
  { s with armed := update s.armed t false }

/-- An interrupted wait gives up: `cancel_wait`, and the result is `-EINTR`. -/
def abandon (s : Sys τ ι) (t : τ) : Sys τ ι := (s.cancelWait t).setWaitkey t (-EINTR)

/-- The end of a wait call: the timer is stopped and the wait key returned. -/
def leave (s : Sys τ ι) (t : τ) (timed : Bool) : Sys τ ι :=
  let s' := if timed then s.cancelTimer t else s
  s'.finish t (s'.waitkey t)

/-- The wait blocks of the running thread are set up. -/
def setupWait (s : Sys τ ι) (waittype : WaitType) (objs : List ι) (timed : Bool) : Sys τ ι :=
  let wbs := blocks waittype objs ++ if timed then [timerBlock s.cur] else []
  let s' := if timed then s.initTimer s.cur else s
  { s'.link s.cur 0 wbs with waitlist := update s.waitlist s.cur wbs }

/-- A wait call that cannot be satisfied at once. With a signal ready an alertable wait is over
before it starts. -/
def startWait (s : Sys τ ι) (waittype : WaitType) (objs : List ι) (timeout : UInt32)
    (alertable : Bool) : Sys τ ι :=
  let timed := decide (timeout ≠ infinite)
  let s' := s.setupWait waittype objs timed
  if alertable && s.signals s.cur then (s'.abandon s.cur).leave s.cur timed
  else
    { s' with
      threads := s'.threads.enterWait s.cur alertable
      pc := update s'.pc s.cur (some ⟨objs, waittype, alertable, timed⟩)
      hist := { s'.hist with
        began := update s'.hist.began s.cur s'.hist.clock
        clock := s'.hist.clock + 1 } }

/-- The rest of a wait call once its thread runs again. -/
def endWait (s : Sys τ ι) (t : τ) (w : Wait ι) : Sys τ ι :=
  if w.alertable then
    let s' := { s with threads := s.threads.leaveAlertableWait t }
    if s.threads.interrupted t then (s'.abandon t).leave t w.timed else s'.leave t w.timed
  else s.leave t w.timed

def waitForOneObject (s : Sys τ ι) (o : ι) (timeout : UInt32) (alertable : Bool) : Sys τ ι :=
  let s := s.beginWait
  if (s.obj o).signaled then (s.enterObject o).finish s.cur (s.obj o).enterCode
  else if s.owned o then (s.recurse o).finish s.cur 0
  else if timeout = 0 then s.finish s.cur (-ETIMEOUT)
  else s.startWait .any [o] timeout alertable

/-- The loop of `wait_for_any_object` that looks for an object to enter. -/
def enterAny (s : Sys τ ι) : ℕ → List ι → Option (Sys τ ι)
  | _, [] => none
  | n, o :: os =>
    if (s.obj o).signaled then
      some ((s.enterObject o).finish s.cur
        (if (s.obj o).enterCode ≠ 0 then (s.obj o).enterCode else n))
    else if s.owned o then some ((s.recurse o).finish s.cur n)
    else enterAny s (n + 1) os

/-- The test of `wait_for_all_objects`: a mutex has to be signaled and owned by the caller. -/
def allSignaled (s : Sys τ ι) (objs : List ι) : Bool :=
  objs.all fun o =>
    match (s.obj o).body with
    | .mutex owner _ => (s.obj o).signaled && decide (owner = some s.cur)
    | _ => (s.obj o).signaled

/-- The loop of `wait_for_all_objects` that enters all objects. -/
def enterAll (s : Sys τ ι) : ℤ → List ι → Sys τ ι × ℤ
  | rc, [] => (s, rc)
  | rc, o :: os =>
    if (s.obj o).signaled then enterAll (s.enterObject o) (rc.lor (s.obj o).enterCode) os
    else if s.owned o then enterAll (s.recurse o) rc os
    else enterAll s rc os

/-- `wait_for_any_object`. A sleep without objects is not modelled. -/
def waitForAnyObject (s : Sys τ ι) (objs : List ι) (timeout : UInt32) (alertable : Bool) :
    Option (Sys τ ι) :=
  let s := s.beginWait
  if objs = [] then if timeout = infinite then some (s.finish s.cur (-EINVAL)) else none
  else if maxWaitObjects < objs.length then some (s.finish s.cur (-EINVAL))
  else
    match s.enterAny 0 objs with
    | some s' => some s'
    | none =>
      if timeout = 0 then some (s.finish s.cur (-ETIMEOUT))
      else some (s.startWait .any objs timeout alertable)

/-- `wait_for_all_objects`. A sleep without objects is not modelled. -/
def waitForAllObjects (s : Sys τ ι) (objs : List ι) (timeout : UInt32) (alertable : Bool) :
    Option (Sys τ ι) :=
  let s := s.beginWait
  if objs = [] then if timeout = infinite then some (s.finish s.cur (-EINVAL)) else none
  else if maxWaitObjects < objs.length then some (s.finish s.cur (-EINVAL))
  else if s.allSignaled objs then
    let r := s.enterAll 0 objs
    some (r.1.finish s.cur r.2)
  else if timeout = 0 then some (s.finish s.cur (-ETIMEOUT))
  else some (s.startWait .all objs timeout alertable)

end Sys

/-- Calls of the running thread. The operations on events and semaphores may also come from an
interrupt. -/
inductive Op (ι : Type) where
  | waitOne (o : ι) (timeout : UInt32) (alertable : Bool)
  | waitAny (objs : List ι) (timeout : UInt32) (alertable : Bool)
  | waitAll (objs : List ι) (timeout : UInt32) (alertable : Bool)
  | setEvent (e : ι)
  | resetEvent (e : ι)
  | releaseSem (o : ι) (n : UInt32)
  | setSem (o : ι) (n : UInt32)
  | releaseMutex (m : ι)

/-- `signal` changes whether a thread has signals to deliver. -/
inductive Label (τ ι : Type) where
  | call (op : Op ι)
  | preempt
  | dispatch (t : τ)
  | start (t : τ)
  | expire (t : τ)
  | interrupt (t : τ)
  | signal (t : τ) (v : Bool)

namespace Sys
variable {τ ι : Type} [DecidableEq τ] [DecidableEq ι] [Fintype τ]

/-- The running thread may make calls. -/
def active (s : Sys τ ι) : Bool := s.threads.state s.cur = .running

def call (s : Sys τ ι) : Op ι → Option (Sys τ ι)
  | .waitOne o timeout alertable =>
    if s.active then some (s.waitForOneObject o timeout alertable) else none
  | .waitAny objs timeout alertable =>
    if s.active then s.waitForAnyObject objs timeout alertable else none
  | .waitAll objs timeout alertable =>
    if s.active then s.waitForAllObjects objs timeout alertable else none
  | .setEvent e => s.setEvent e
  | .resetEvent e => s.resetEvent e
  | .releaseSem o n => s.releaseSem o n
  | .setSem o n => s.setSem o n
  | .releaseMutex m => if s.active then (s.releaseMutex m).map Prod.fst else none

/-- `dispatch` switches to `t`, and the wait call of `t` goes on. -/
def dispatch (s : Sys τ ι) (t : τ) : Sys τ ι :=
  let s' := { s with cur := t, threads := s.threads.switchTo t }
  match s.pc t with
  | some w => s'.endWait t w
  | none => s'

/-- No step follows a panic. -/
def step (s : Sys τ ι) (l : Label τ ι) : Option (Sys τ ι) :=
  if s.threads.panicked then none
  else
    match l with
    | .call op => s.call op
    | .preempt =>
      if s.active then some { s with threads := s.threads.preemptThread s.cur } else none
    | .dispatch t =>
      if ¬ s.active ∧ s.threads.state t = .ready then some (s.dispatch t) else none
    | .start t =>
      if s.threads.state t = .initialized then
        some { s with threads := s.threads.markThreadReady s.cur t 0 0 }
      else none
    | .expire t => if s.armed t then some (s.expireWaitableTimer t) else none
    | .interrupt t => some { s with threads := s.threads.interruptThread s.cur t }
    | .signal t v => some { s with signals := update s.signals t v }

end Sys

/-- The first thread `t` runs; nobody waits. -/
def initSys {τ ι : Type} [DecidableEq τ] (t : τ) (priority : τ → ℤ) (obj : ι → Obj τ) : Sys τ ι where
  cur := t
  threads :=
    { state := update (fun _ => .initialized) t .running
      quantum := fun _ => defaultQuantum
      priority := priority
      basePriority := priority
      suspendCount := fun _ => 0
      alertable := fun _ => false
      interrupted := fun _ => false
      links := ⟨fun _ => none, fun _ => none⟩
      queue := fun _ => ⟨none, none⟩
      readySummary := 0
      preempt := false
      panicked := false }
  signals := fun _ => false
  waitlist := fun _ => []
  waitkey := fun _ => 0
  pc := fun _ => none
  obj := obj
  expired := fun _ => false
  armed := fun _ => false
  waiters := fun _ => ⟨none, none⟩
  links := ⟨fun _ => none, fun _ => none⟩
  hist := ⟨fun _ => [], fun _ => 0, fun _ => 0, 0, []⟩

end SimpleKernel.Object
