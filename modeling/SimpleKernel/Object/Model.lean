import Mathlib.Data.Int.Bitwise
import Mathlib.Data.Fintype.Card
import SimpleKernel.Sched.Ready

/-! The waitable objects of `krnl/object.c`. A waiting thread links one wait block into the wait list of every
object; the operations that signal an object walk its list and release the threads whose wait is over. -/
namespace SimpleKernel.Object
open LinkedList Sched

def maxWaitObjects : ℕ := 16

def infinite : UInt32 := 0xFFFFFFFF

def EPERM : ℤ := 1
def EINTR : ℤ := 4
def EINVAL : ℤ := 22
def ETIMEOUT : ℤ := 70

/-- What `struct object` is the head of. `recursion` is a 32-bit `int`. -/
inductive Body (τ : Type) where
  | thread (exitcode : ℤ)
  | event (manualReset : Bool)
  | timer
  | mutex (owner : Option τ) (recursion : ℤ)
  | semaphore (count : UInt32)
  | file
  | socket
  | filemap
  deriving DecidableEq

structure Obj (τ : Type) where
  signaled : Bool
  body : Body τ

/-- An object of the system, or the timer on the stack of a thread that waits with a timeout. -/
inductive ObjId (τ ι : Type) where
  | obj (o : ι)
  | timer (t : τ)
  deriving DecidableEq

inductive WaitType where
  | all | any
  deriving DecidableEq, Repr

/-- A wait block that is linked. Its `thread` is known from its place. -/
structure Waitblock (τ ι : Type) where
  object : ObjId τ ι
  waittype : WaitType
  waitkey : ℤ

/-- `(t, n)` is block number `n` on the stack of thread `t`. -/
abbrev Wb (τ : Type) := τ × ℕ

/-- A wait call that has blocked. -/
structure Wait (ι : Type) where
  objs : List ι
  waittype : WaitType
  alertable : Bool
  timed : Bool

/-- `acquire`: the object was entered by the thread or handed to it. -/
inductive Event (τ ι : Type) where
  | acquire (t : τ) (o : ι)
  | release (t : τ) (o : ι) (n : ℕ)

/-- What happened so far. `taken t` lists the objects that were entered or handed over on
behalf of the last wait call of `t`, `ret t` is its result, `began t` the time at which it
blocked. -/
structure History (τ ι : Type) where
  taken : τ → List ι
  ret : τ → ℤ
  began : τ → ℕ
  clock : ℕ
  log : List (Event τ ι)

/-- `waitlist t` is the chain of wait blocks of `t`; `waiters o` and `links` are the wait list
of `o`. `expired` is the signaled state of the stack timers, `armed` says that they run. -/
structure Sys (τ ι : Type) where
  cur : τ
  threads : Threads τ
  signals : τ → Bool
  waitlist : τ → List (Waitblock τ ι)
  waitkey : τ → ℤ
  pc : τ → Option (Wait ι)
  obj : ι → Obj τ
  expired : τ → Bool
  armed : τ → Bool
  waiters : ObjId τ ι → Ends (Wb τ)
  links : Links (Wb τ)
  hist : History τ ι

/-- `x + 1` and `x - 1` for a 32-bit `int`. -/
def wrap (x : ℤ) : ℤ := x.bmod (2 ^ 32)

/-- The object after the switch of `enter_object`, on behalf of `t`. -/
def Obj.entered {τ : Type} (x : Obj τ) (t : τ) : Obj τ :=
  match x.body with
  | .event false => { x with signaled := false }
  | .mutex _ _ => ⟨false, .mutex (some t) 1⟩
  | .semaphore count => ⟨if count - 1 = 0 then false else x.signaled, .semaphore (count - 1)⟩
  | .filemap => { x with signaled := false }
  | .thread _ | .event true | .timer | .file | .socket => x

/-- What `enter_object` returns. -/
def Obj.enterCode {τ : Type} (x : Obj τ) : ℤ :=
  match x.body with
  | .thread exitcode => exitcode
  | _ => 0

/-- The count of a semaphore. -/
def Obj.count {τ : Type} (x : Obj τ) : UInt32 :=
  match x.body with
  | .semaphore count => count
  | _ => 0

namespace Sys
variable {τ ι : Type} [DecidableEq τ] [DecidableEq ι]

def signaled (s : Sys τ ι) : ObjId τ ι → Bool
  | .obj o => (s.obj o).signaled
  | .timer t => s.expired t

@[simps] def setObj (s : Sys τ ι) (o : ι) (x : Obj τ) : Sys τ ι :=
  { s with obj := Function.update s.obj o x }

@[simps] def setWaitkey (s : Sys τ ι) (t : τ) (k : ℤ) : Sys τ ι :=
  { s with waitkey := Function.update s.waitkey t k }

/-- `o` goes to `t`. -/
@[simps] def acquire (s : Sys τ ι) (t : τ) (o : ι) : Sys τ ι :=
  { s with hist := { s.hist with
      taken := Function.update s.hist.taken t (s.hist.taken t ++ [o])
      log := .acquire t o :: s.hist.log } }

/-- `n` is given back to `o` by the current thread. -/
@[simps] def giveBack (s : Sys τ ι) (o : ι) (n : ℕ) : Sys τ ι :=
  { s with hist := { s.hist with log := .release s.cur o n :: s.hist.log } }

@[simps] def insertInWaitlist (s : Sys τ ι) (o : ObjId τ ι) (wb : Wb τ) : Sys τ ι :=
  { s with
    links := s.links.append (s.waiters o) wb
    waiters := Function.update s.waiters o ((s.waiters o).append wb) }

@[simps] def removeFromWaitlist (s : Sys τ ι) (o : ObjId τ ι) (wb : Wb τ) : Sys τ ι :=
  { s with
    links := (s.links.bypass wb).clear wb
    waiters := Function.update s.waiters o ((s.waiters o).drop s.links wb) }

def threadReadyToRun (s : Sys τ ι) (t : τ) : Bool :=
  ((s.waitlist t).any fun wb => wb.waittype = .any && s.signaled wb.object) ||
    (s.waitlist t).all fun wb => wb.waittype = .any || s.signaled wb.object

/-- The wait key that `thread_ready_to_run` leaves: that of the last block whose object is
signaled. -/
def scanWaitkey (s : Sys τ ι) (t : τ) : ℤ :=
  (s.waitlist t).foldl (fun k wb => if s.signaled wb.object then wb.waitkey else k) (s.waitkey t)

/-- The blocks of `t` from number `n` on are taken off the wait lists. -/
def unlink (s : Sys τ ι) (t : τ) : ℕ → List (Waitblock τ ι) → Sys τ ι
  | _, [] => s
  | n, wb :: wbs => unlink (s.removeFromWaitlist wb.object (t, n)) t (n + 1) wbs

def cancelWait (s : Sys τ ι) (t : τ) : Sys τ ι :=
  { s.unlink t 0 (s.waitlist t) with waitlist := Function.update s.waitlist t [] }

def releaseThread (s : Sys τ ι) (t : τ) : Sys τ ι :=
  { s.cancelWait t with threads := s.threads.markThreadReady s.cur t 1 1 }

/-- The walk along a wait list. The next block is read before the thread is released; `grant`
says what is done for a thread that is ready to run, and whether the walk goes on. -/
def releaseLoop (grant : Sys τ ι → τ → Sys τ ι × Bool) :
    ℕ → Option (Wb τ) → Sys τ ι → Sys τ ι
  | 0, _, s => s
  | _ + 1, none, s => s
  | n + 1, some wb, s =>
    let next := s.links.next wb
    let s' := s.setWaitkey wb.1 (s.scanWaitkey wb.1)
    if s.threadReadyToRun wb.1 then
      let r := grant s' wb.1
      if r.2 then releaseLoop grant n next r.1 else r.1
    else releaseLoop grant n next s'

/-- What `set_event` does for a thread that is ready to run. -/
def grantEvent (e : ι) (manualReset : Bool) (s : Sys τ ι) (t : τ) : Sys τ ι × Bool :=
  let s' := (s.releaseThread t).acquire t e
  if manualReset then (s', true) else (s'.setObj e { s'.obj e with signaled := false }, false)

/-- What `release_sem` and `set_sem` do for a thread that is ready to run. -/
def grantSem (o : ι) (s : Sys τ ι) (t : τ) : Sys τ ι × Bool :=
  let count := (s.obj o).count - 1
  let s' := (s.releaseThread t).acquire t o
  if count = 0 then (s'.setObj o ⟨false, .semaphore count⟩, false)
  else (s'.setObj o ⟨(s.obj o).signaled, .semaphore count⟩, true)

/-- What `release_mutex` does for the first thread that is ready to run. -/
def grantMutex (m : ι) (s : Sys τ ι) (t : τ) : Sys τ ι × Bool :=
  ((((s.setObj m ⟨false, .mutex (some t) 1⟩)).releaseThread t).acquire t m, false)

/-- What `release_waiters` does for a thread that is ready to run. -/
def grantWaiter (waitkey : ℤ) (s : Sys τ ι) (t : τ) : Sys τ ι × Bool :=
  ((s.setWaitkey t waitkey).releaseThread t, true)

variable [Fintype τ]

/-- No wait list has more blocks. -/
def fuel (_ : Sys τ ι) : ℕ := (maxWaitObjects + 1) * Fintype.card τ

def releaseWith (s : Sys τ ι) (o : ObjId τ ι) (grant : Sys τ ι → τ → Sys τ ι × Bool) : Sys τ ι :=
  releaseLoop grant s.fuel (s.waiters o).head s

def setEvent (s : Sys τ ι) (e : ι) : Option (Sys τ ι) :=
  match (s.obj e).body with
  | .event manualReset =>
    some ((s.setObj e ⟨true, .event manualReset⟩).releaseWith (.obj e) (grantEvent e manualReset))
  | _ => none

def resetEvent (s : Sys τ ι) (e : ι) : Option (Sys τ ι) :=
  match (s.obj e).body with
  | .event manualReset => some (s.setObj e ⟨false, .event manualReset⟩)
  | _ => none

/-- The rest of `release_sem` and `set_sem`: the count of `o` is `count` now. -/
def raiseSem (s : Sys τ ι) (o : ι) (count : UInt32) : Sys τ ι :=
  if 0 < count then
    (s.setObj o ⟨true, .semaphore count⟩).releaseWith (.obj o) (grantSem o)
  else s.setObj o ⟨(s.obj o).signaled, .semaphore count⟩

def releaseSem (s : Sys τ ι) (o : ι) (n : UInt32) : Option (Sys τ ι) :=
  match (s.obj o).body with
  | .semaphore count => some ((s.giveBack o n.toNat).raiseSem o (count + n))
  | _ => none

def setSem (s : Sys τ ι) (o : ι) (n : UInt32) : Option (Sys τ ι) :=
  match (s.obj o).body with
  | .semaphore _ => some (s.raiseSem o n)
  | _ => none

def releaseMutex (s : Sys τ ι) (m : ι) : Option (Sys τ ι × ℤ) :=
  match (s.obj m).body with
  | .mutex owner recursion =>
    if owner ≠ some s.cur then some (s, -EPERM)
    else
      let s := s.giveBack m 1
      if 0 < wrap (recursion - 1) then
        some (s.setObj m ⟨(s.obj m).signaled, .mutex owner (wrap (recursion - 1))⟩, 0)
      else
        some ((s.setObj m ⟨true, .mutex none (wrap (recursion - 1))⟩).releaseWith (.obj m)
          (grantMutex m), 0)
  | _ => none

def expireWaitableTimer (s : Sys τ ι) (t : τ) : Sys τ ι :=
  { s with
    armed := Function.update s.armed t false
    expired := Function.update s.expired t true }.releaseWith (.timer t) (grantWaiter 0)

end Sys

end SimpleKernel.Object
