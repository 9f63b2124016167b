import SimpleKernel.Pthread.Mutex
import SimpleKernel.Lib.Tally

/-! POSIX reader-writer locks (`lib/pthread/rwlock.c`). The code between the lock and the unlock of the internal
mutex is one step, and so is a wait for a semaphore. -/
namespace SimpleKernel.Pthread
open Transition

/-- `struct pthread_rwlock` without its mutex. `shared_waiters` and `exclusive_waiters` are handles. -/
structure RwLock (τ : Type) where
  sharedWaiters : ℤ
  exclusiveWaiters : ℤ
  numSharedWaiters : ℤ
  numExclusiveWaiters : ℤ
  numActive : ℤ
  owner : Option τ

/-- What a call got. -/
inductive Got
  | none
  | read
  | write
  deriving DecidableEq

namespace RwLock
variable {τ : Type} [DecidableEq τ]

/-- `pthread_rwlock_init`. It does not set `num_exclusive_waiters`. -/
def init (shared exclusive junk : ℤ) : RwLock τ := ⟨shared, exclusive, 0, junk, 0, none⟩

/-- A thread tries to get the lock for reading. A writer gets it for writing once more. -/
def rdPass (l : RwLock τ) (self : τ) : RwLock τ × Got :=
  if l.numActive < 0 then
    if l.owner = some self then ({ l with numActive := int32 (l.numActive - 1) }, .write) else (l, .none)
  else ({ l with numActive := int32 (l.numActive + 1) }, .read)

/-- A thread tries to get the lock for writing. -/
def wrPass (l : RwLock τ) (self : τ) : RwLock τ × Got :=
  if l.numActive = 0 then ({ l with numActive := -1, owner := some self }, .write)
  else if l.numActive < 0 ∧ l.owner = some self then ({ l with numActive := int32 (l.numActive - 1) }, .write)
  else (l, .none)

/-- `pthread_rwlock_unlock`: the lock, and the semaphore that is released with the number of permits. -/
def unlock (l : RwLock τ) : RwLock τ × Option (ℤ × ℤ) :=
  if 0 < l.numActive then
    let l := { l with numActive := int32 (l.numActive - 1) }
    if l.numActive = 0 ∧ 0 < l.numExclusiveWaiters then
      ({ l with numExclusiveWaiters := int32 (l.numExclusiveWaiters - 1) }, some (l.exclusiveWaiters, 1))
    else (l, none)
  else if l.numActive < 0 then
    let l := { l with numActive := int32 (l.numActive + 1) }
    if l.numActive = 0 then
      let l := { l with owner := none }
      if 0 < l.numExclusiveWaiters then
        ({ l with numExclusiveWaiters := int32 (l.numExclusiveWaiters - 1) }, some (l.exclusiveWaiters, 1))
      else if 0 < l.numSharedWaiters then
        ({ l with numActive := l.numSharedWaiters, numSharedWaiters := 0 }, some (l.sharedWaiters, l.numSharedWaiters))
      else (l, none)
    else (l, none)
  else (l, none)

end RwLock

/-- Where a thread is: outside the functions, waiting for a semaphore, or back from the wait. -/
inductive RwPc
  | out
  | waits (exclusive : Bool) (handle : ℤ)
  | back (exclusive : Bool)
  deriving DecidableEq

/-- A thread, with the number of times it has the lock for reading and for writing. -/
structure RwThread where
  pc : RwPc
  reads : ℕ
  writes : ℕ
  ret : Option Ret
  deriving DecidableEq

namespace RwThread

def got (th : RwThread) : Got → RwThread
  | .none => th
  | .read => { th with reads := th.reads + 1 }
  | .write => { th with writes := th.writes + 1 }

def done (th : RwThread) (ret : Ret) : RwThread := { th with pc := .out, ret := some ret }

end RwThread

/-- The lock, the permits of the semaphores by handle, and the threads. -/
structure RwState (τ : Type) where
  lock : RwLock τ
  sems : ℤ → Option ℕ
  threads : τ → RwThread

inductive RwCall
  | rdlock
  | wrlock
  | tryrdlock
  | trywrlock
  | unlock
  deriving DecidableEq

inductive RwAct (τ : Type)
  | call (t : τ) (c : RwCall)
  | go (t : τ)

namespace RwState
variable {τ : Type} [DecidableEq τ]

def set (s : RwState τ) (t : τ) (th : RwThread) : RwState τ :=
  { s with threads := Function.update s.threads t th }

/-- `pthread_rwlock_init` made the two semaphores. -/
def init (shared exclusive junk : ℤ) : RwState τ :=
  ⟨.init shared exclusive junk, fun h => if h = shared ∨ h = exclusive then some 0 else none,
    fun _ => ⟨.out, 0, 0, none⟩⟩

def semrel (s : RwState τ) (h n : ℤ) : RwState τ :=
  { s with sems := Function.update s.sems h ((s.sems h).map (· + n.toNat)) }

/-- One turn of the loop of `pthread_rwlock_timedrdlock`. -/
def rdTurn (s : RwState τ) (t : τ) : RwState τ :=
  let r := s.lock.rdPass t
  let s := { s with lock := r.1 }
  if r.2 = .none then
    let s := { s with lock := { s.lock with numSharedWaiters := int32 (s.lock.numSharedWaiters + 1) } }
    s.set t { s.threads t with pc := .waits false s.lock.sharedWaiters }
  else s.set t (((s.threads t).got r.2).done .ok)

/-- One turn of the loop of `pthread_rwlock_timedwrlock`. It counts a waiter in the handle of the semaphore. -/
def wrTurn (s : RwState τ) (t : τ) : RwState τ :=
  let r := s.lock.wrPass t
  let s := { s with lock := r.1 }
  if r.2 = .none then
    let s := { s with lock := { s.lock with exclusiveWaiters := int32 (s.lock.exclusiveWaiters + 1) } }
    s.set t { s.threads t with pc := .waits true s.lock.exclusiveWaiters }
  else s.set t (((s.threads t).got r.2).done .ok)

def tryrdlock (s : RwState τ) (t : τ) : RwState τ :=
  let r := s.lock.rdPass t
  { s with lock := r.1 }.set t (((s.threads t).got r.2).done (if r.2 = Got.none then Ret.ebusy else .ok))

/-- `pthread_rwlock_trywrlock` returns 0 in every case. -/
def trywrlock (s : RwState τ) (t : τ) : RwState τ :=
  let r := s.lock.wrPass t
  { s with lock := r.1 }.set t (((s.threads t).got r.2).done .ok)

def unlock (s : RwState τ) (t : τ) : RwState τ :=
  let th := s.threads t
  let th := if 0 < s.lock.numActive then { th with reads := th.reads - 1 }
    else if s.lock.numActive < 0 then { th with writes := th.writes - 1 } else th
  let r := s.lock.unlock
  let s := { s with lock := r.1 }.set t (th.done .ok)
  match r.2 with
  | none => s
  | some (h, n) => s.semrel h n

def call (s : RwState τ) (t : τ) : RwCall → RwState τ
  | .rdlock => s.rdTurn t
  | .wrlock => s.wrTurn t
  | .tryrdlock => s.tryrdlock t
  | .trywrlock => s.trywrlock t
  | .unlock => s.unlock t

def step (s : RwState τ) : RwAct τ → Option (RwState τ)
  | .call t c => if (s.threads t).pc = .out then some (s.call t c) else none
  | .go t => match (s.threads t).pc with
    | .out => none
    | .waits exclusive h => match s.sems h with
      | none => some (s.set t ((s.threads t).done .errno))
      | some 0 => none
      | some (n + 1) =>
        some ({ s with sems := Function.update s.sems h (some n) }.set t { s.threads t with pc := .back exclusive })
    | .back false => some (s.rdTurn t)
    | .back true => some (s.wrTurn t)

end RwState

end SimpleKernel.Pthread
