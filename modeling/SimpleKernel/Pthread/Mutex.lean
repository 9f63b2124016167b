import SimpleKernel.Lib.Int32
import SimpleKernel.Lib.Transition
import Mathlib.Logic.Function.Basic

/-! POSIX mutexes (`lib/pthread/mutex.c`): lock, trylock and unlock. Every access to a field of the mutex is a step
of its own, and so is every exchange. -/
namespace SimpleKernel.Pthread

inductive Kind
  | normal
  | recursive
  | errorcheck
  deriving DecidableEq

/-- `struct pthread_mutex` with the state of its auto-reset event. -/
structure Mutex (τ : Type) where
  lock : ℤ
  recursion : ℤ
  owner : Option τ
  signaled : Bool

/-- `pthread_mutex_init`. -/
def Mutex.init {τ : Type} : Mutex τ := ⟨0, 0, none, false⟩

/-- What a thread does next. -/
inductive Pc
  | out
  | lockSwap
  | compareOwner
  | contend
  | waiting
  | wokenRecursion
  | wokenOwner
  | setRecursion
  | setOwner
  | addRecursion
  | trySwap
  | tryOwner
  | unlockOwner
  | subRecursion
  | clearOwner
  | unlockSwap
  | signal
  deriving DecidableEq

inductive Ret
  | ok
  | ebusy
  | edeadlk
  | eperm
  | errno
  deriving DecidableEq

/-- A thread: where it is, how often it has locked the mutex, and what its last call returned. -/
structure Thread where
  pc : Pc
  count : ℕ
  ret : Option Ret
  deriving DecidableEq

namespace Thread

def idle : Thread := ⟨.out, 0, none⟩

def goto (th : Thread) (pc : Pc) : Thread := { th with pc := pc }

def done (th : Thread) (ret : Ret) : Thread := { th with pc := .out, ret := some ret }

/-- A call that locked the mutex returns. -/
def locked (th : Thread) : Thread := { th with pc := .out, count := th.count + 1, ret := some .ok }

/-- An unlock that is not refused. -/
def unlock (th : Thread) (pc : Pc) : Thread := { th with pc := pc, count := th.count - 1 }

end Thread

variable {τ : Type} [DecidableEq τ]

/-- The next step of a thread in `pthread_mutex_lock`, `pthread_mutex_trylock` or `pthread_mutex_unlock`. -/
def exec (k : Kind) (self : τ) (m : Mutex τ) (th : Thread) : Option (Mutex τ × Thread) :=
  match th.pc with
  | .out => none
  | .lockSwap =>
    if m.lock = 0 then
      some ({ m with lock := 1 }, if k = .normal then th.locked else th.goto .setRecursion)
    else some ({ m with lock := 1 }, th.goto (if k = .normal then .contend else .compareOwner))
  | .compareOwner =>
    if m.owner = some self then
      some (m, if k = .recursive then th.goto .addRecursion else th.done .edeadlk)
    else some (m, th.goto .contend)
  | .contend => some ({ m with lock := -1 }, if m.lock = 0 then th.locked else th.goto .waiting)
  | .waiting =>
    if m.signaled then
      some ({ m with signaled := false }, th.goto (if k = .normal then .contend else .wokenRecursion))
    else none
  | .wokenRecursion => some ({ m with recursion := 1 }, th.goto .wokenOwner)
  | .wokenOwner => some ({ m with owner := some self }, th.goto .contend)
  | .setRecursion => some ({ m with recursion := 1 }, th.goto .setOwner)
  | .setOwner => some ({ m with owner := some self }, th.locked)
  | .addRecursion => some ({ m with recursion := int32 (m.recursion + 1) }, th.locked)
  | .trySwap =>
    if m.lock = 0 then
      some ({ m with lock := 1 }, if k = .normal then th.locked else th.goto .setRecursion)
    else some (m, if k = .recursive then th.goto .tryOwner else th.done .ebusy)
  | .tryOwner => some (m, if m.owner = some self then th.goto .addRecursion else th.done .ebusy)
  | .unlockOwner =>
    some (m, if m.owner = some self then th.unlock (if k = .recursive then .subRecursion else .clearOwner)
      else th.done .eperm)
  | .subRecursion =>
    some ({ m with recursion := int32 (m.recursion - 1) },
      if int32 (m.recursion - 1) = 0 then th.goto .clearOwner else th.done .ok)
  | .clearOwner => some ({ m with owner := none }, th.goto .unlockSwap)
  | .unlockSwap =>
    if k = .normal then
      some ({ m with lock := 0 },
        if m.lock = 0 then th.done .eperm
        else if m.lock < 0 then th.unlock .signal else (th.unlock .out).done .ok)
    else some ({ m with lock := 0 }, if m.lock < 0 then th.goto .signal else th.done .ok)
  | .signal => some ({ m with signaled := true }, th.done .ok)

inductive Call
  | lock
  | trylock
  | unlock
  deriving DecidableEq

/-- Where a call begins. -/
def Call.entry (k : Kind) : Call → Pc
  | .lock => .lockSwap
  | .trylock => .trySwap
  | .unlock => if k = .normal then .unlockSwap else .unlockOwner

structure State (τ : Type) where
  mutex : Mutex τ
  threads : τ → Thread

def State.init : State τ := ⟨.init, fun _ => .idle⟩

/-- A thread calls one of the functions, or goes on. -/
inductive Act (τ : Type)
  | call (t : τ) (c : Call)
  | go (t : τ)

def step (k : Kind) (s : State τ) : Act τ → Option (State τ)
  | .call t c =>
    if (s.threads t).pc = .out then
      some { s with threads := Function.update s.threads t ((s.threads t).goto (c.entry k)) }
    else none
  | .go t => (exec k t s.mutex (s.threads t)).map fun r => ⟨r.1, Function.update s.threads t r.2⟩

theorem step_cases {k : Kind} {s s' : State τ} {a : Act τ} (h : step k s a = some s') :
    ∃ t, s'.threads = Function.update s.threads t (s'.threads t) ∧
      ((∃ c, a = .call t c ∧ (s.threads t).pc = .out ∧ s'.mutex = s.mutex ∧
        s'.threads t = (s.threads t).goto (c.entry k)) ∨
      (a = .go t ∧ exec k t s.mutex (s.threads t) = some (s'.mutex, s'.threads t))) := by
  cases a with
  | call t c =>
    simp only [step] at h
    split at h
    · rename_i hout
      obtain rfl := Option.some.inj h
      exact ⟨t, by simp, .inl ⟨c, rfl, hout, rfl, by simp⟩⟩
    · cases h
  | go t =>
    obtain ⟨⟨m, th⟩, hexec, rfl⟩ := Option.map_eq_some_iff.1 h
    exact ⟨t, by simp, .inr ⟨rfl, by simpa using hexec⟩⟩

end SimpleKernel.Pthread
