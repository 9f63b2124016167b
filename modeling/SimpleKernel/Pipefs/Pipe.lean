import Mathlib.Algebra.GroupWithZero.Nat
import Mathlib.Algebra.Group.Int.Defs
import SimpleKernel.Lib.Transition
import Mathlib.Logic.Function.Basic

/-! The pipes of `fs/pipefs/pipefs.c`: data goes from the buffer of a writer to the buffer of a reader, one
of which waits in its call. -/
namespace SimpleKernel.Pipefs
open Transition

def EINTR : ℤ := 4
def EAGAIN : ℤ := 11
def EPIPE : ℤ := 32

theorem EINTR_neg : -EINTR < 0 := by decide

/-- The two ends of a pipe. -/
inductive Side
  | read | write
  deriving DecidableEq

/-- A `size_t` that is assigned to an `int`. -/
def toInt (n : ℕ) : ℤ := if n % 2 ^ 32 < 2 ^ 31 then (n % 2 ^ 32 : ℕ) else (n % 2 ^ 32 : ℕ) - 2 ^ 32

theorem toInt_eq {n : ℕ} (h : n < 2 ^ 31) : toInt n = n := by
  have hmod : n % 2 ^ 32 = n := Nat.mod_eq_of_lt (by omega)
  rw [toInt, hmod, if_pos h]

/-- `struct pipereq`, which lies on the stack of a call. The buffer of a reader holds what was copied to
it, the buffer of a writer what is left to copy. -/
structure Pipereq where
  buffer : List UInt8
  size : ℕ
  rc : ℤ

/-- A thread is outside of the calls, or its call runs, waits, or is ready to run again. A suspended thread
counts as ready. -/
inductive ThreadState
  | outside | running | waiting | ready
  deriving DecidableEq

/-- A thread and its call: `size` and `data` are the arguments, `moved` the bytes that were copied from or
to its buffer in this call. -/
structure Thread where
  state : ThreadState
  interrupted : Bool
  side : Side
  size : ℕ
  data : List UInt8
  req : Pipereq
  moved : List UInt8

/-- What a call returned. -/
structure Result where
  thread : ℕ
  side : Side
  size : ℕ
  data : List UInt8
  rc : ℤ
  moved : List UInt8
  deriving DecidableEq

/-- The two `struct pipe` of a pipe. `linked` says that their `peer` fields are set. The rest records the run: the
writes in the order they began, the bytes that went through either end with their thread, and the results. -/
structure Pipe where
  queue : Side → List ℕ
  linked : Bool
  thread : ℕ → Thread
  writes : List (ℕ × List UInt8)
  log : Side → List (ℕ × List UInt8)
  results : List Result

/-- `mark_thread_ready` of a thread whose request was queued: it is ready already if it was interrupted. -/
def Thread.markReady (h : Thread) : Thread := if h.state = .waiting then { h with state := .ready } else h

namespace Pipe

def setThread (s : Pipe) (t : ℕ) (h : Thread) : Pipe := { s with thread := Function.update s.thread t h }

def setQueue (s : Pipe) (k : Side) (ts : List ℕ) : Pipe := { s with queue := Function.update s.queue k ts }

def record (s : Pipe) (k : Side) (t : ℕ) (bytes : List UInt8) : Pipe :=
  { s with log := Function.update s.log k (s.log k ++ [(t, bytes)]) }

/-- The call of the thread `t` begins. -/
def begin (s : Pipe) (k : Side) (t size : ℕ) (data : List UInt8) : Pipe :=
  s.setThread t
    { s.thread t with state := .running, side := k, size := size, data := data, moved := [] }

/-- The call of the thread `t` returns. -/
def leave (s : Pipe) (t : ℕ) (rc : ℤ) : Pipe :=
  let h := s.thread t
  { s.setThread t { h with state := .outside, moved := [] } with
    results := s.results ++ [⟨t, h.side, h.size, h.data, rc, h.moved⟩] }

def cancelRequest (s : Pipe) (k : Side) (t : ℕ) : Pipe := s.setQueue k ((s.queue k).filter (· ≠ t))

/-- The end of a call that has queued its request, with the result `rc` of the wait. -/
def finish (s : Pipe) (t : ℕ) (rc : ℤ) : Pipe :=
  let h := s.thread t
  let s := if rc < 0 then s.cancelRequest h.side t else s
  let rc := if rc < 0 then rc else h.req.rc
  match h.side with
  | .read => s.leave t rc
  | .write => s.leave t (if rc < 0 then rc else toInt h.size)

/-- The request is put at the end of the queue, and `enter_alertable_wait`: with signals ready it returns at
once. -/
def wait (s : Pipe) (k : Side) (t : ℕ) (buffer : List UInt8) (size : ℕ) (signals : Bool) : Pipe :=
  let h := { s.thread t with req := ⟨buffer, size, -EINTR⟩ }
  let s := s.setQueue k (s.queue k ++ [t])
  if signals then (s.setThread t h).finish t (-EINTR)
  else s.setThread t { h with state := .waiting, interrupted := false }

/-- A reader takes `n` bytes from the waiting writer `w`. -/
def take (s : Pipe) (w n : ℕ) : Pipe :=
  let h := s.thread w
  (s.setThread w
    { h with
      req := { h.req with buffer := h.req.buffer.drop n, size := h.req.size - n }
      moved := h.moved ++ h.req.buffer.take n }).record .write w (h.req.buffer.take n)

/-- The loop of `pipefs_read` over the waiting writers, with the bytes that it copies. When a writer is not
taken from the queue, nothing is left to read. -/
def readLoop : List ℕ → ℕ → Pipe → Pipe × List UInt8
  | [], _, s => (s, [])
  | w :: ws, left, s =>
    if left = 0 then (s, [])
    else
      let h := s.thread w
      let bytes := min h.req.size left
      let s := s.take w bytes
      if (s.thread w).req.size = 0 then
        let h' := s.thread w
        let s := (s.setQueue .write ws).setThread w { h' with req := { h'.req with rc := 0 } }.markReady
        let r := readLoop ws (left - bytes) s
        (r.1, h.req.buffer.take bytes ++ r.2)
      else (s, h.req.buffer.take bytes)

def pipefsRead (s : Pipe) (t size : ℕ) (nonblock signals : Bool) : Pipe :=
  let s := s.begin .read t size []
  if size = 0 then s.leave t 0
  else if s.linked = false then s.leave t 0
  else
    let r := readLoop (s.queue .write) size s
    if r.2.length = 0 then
      if nonblock then r.1.leave t (-EAGAIN) else r.1.wait .read t [] size signals
    else
      let s := r.1.record .read t r.2
      (s.setThread t { s.thread t with moved := r.2 }).leave t (toInt r.2.length)

/-- The writer `t` gives bytes to the waiting reader `r`, whose request is done. -/
def give (s : Pipe) (r t : ℕ) (bytes : List UInt8) : Pipe :=
  let s := (s.record .write t bytes).record .read r bytes
  let s := s.setThread t { s.thread t with moved := (s.thread t).moved ++ bytes }
  let h := s.thread r
  s.setThread r
    { h with
      req := { h.req with buffer := bytes, rc := toInt bytes.length }
      moved := h.moved ++ bytes }.markReady

/-- The loop of `pipefs_write` over the waiting readers, with the bytes that are left. -/
def writeLoop (t : ℕ) : List ℕ → List UInt8 → Pipe → Pipe × List UInt8
  | [], data, s => (s, data)
  | r :: rs, data, s =>
    if data.length = 0 then (s, data)
    else
      let bytes := min (s.thread r).req.size data.length
      writeLoop t rs (data.drop bytes) ((s.setQueue .read rs).give r t (data.take bytes))

/-- A write begins. -/
def beginWrite (s : Pipe) (t : ℕ) (data : List UInt8) : Pipe :=
  { s.begin .write t data.length data with writes := s.writes ++ [(t, data)] }

def pipefsWrite (s : Pipe) (t : ℕ) (data : List UInt8) (nonblock signals : Bool) : Pipe :=
  let s := s.beginWrite t data
  if data.length = 0 then s.leave t 0
  else if s.linked = false then s.leave t (-EPIPE)
  else
    let r := writeLoop t (s.queue .read) data s
    if r.2.length = 0 then r.1.leave t (toInt data.length)
    else if nonblock then r.1.leave t (toInt (data.length - r.2.length))
    else r.1.wait .write t r.2 r.2.length signals

/-- `interrupt_thread`: a thread that waits becomes ready. -/
def interruptThread (s : Pipe) (t : ℕ) : Pipe :=
  let h := s.thread t
  if h.state = .waiting then s.setThread t { h with state := .ready, interrupted := true } else s

/-- A ready thread runs: it goes on after the wait. -/
def resume (s : Pipe) (t : ℕ) : Option Pipe :=
  let h := s.thread t
  if h.state = .ready then
    some ((s.setThread t { h with state := .running, interrupted := false }).finish t (if h.interrupted then -EINTR else 0))
  else none

def releaseAllWaiters (s : Pipe) (k : Side) (retcode : ℤ) : Pipe :=
  let ready t := { s.thread t with req := { (s.thread t).req with rc := retcode } }.markReady
  { s with
    thread := fun t => if t ∈ s.queue k then ready t else s.thread t
    queue := Function.update s.queue k [] }

def pipefsClose (s : Pipe) (k : Side) : Pipe :=
  let s := s.releaseAllWaiters k (-EINTR)
  if s.linked then
    let s := match k with
      | .write => s.releaseAllWaiters .read 0
      | .read => s.releaseAllWaiters .write (-EPIPE)
    { s with linked := false }
  else s

end Pipe

/-- The calls of threads, the interrupts, and a thread that runs again. -/
inductive PipeCall
  | read (t size : ℕ) (nonblock signals : Bool)
  | write (t : ℕ) (data : List UInt8) (nonblock signals : Bool)
  | interrupt (t : ℕ)
  | resume (t : ℕ)
  | close (k : Side)

def PipeCall.exec (s : Pipe) : PipeCall → Option Pipe
  | .read t size nonblock signals =>
    if (s.thread t).state = .outside then some (s.pipefsRead t size nonblock signals) else none
  | .write t data nonblock signals =>
    if (s.thread t).state = .outside then some (s.pipefsWrite t data nonblock signals) else none
  | .interrupt t => some (s.interruptThread t)
  | .resume t => s.resume t
  | .close k => some (s.pipefsClose k)

namespace Pipe

/-- After `pipe`: nothing was written and no thread is in a call. -/
structure Initial (s : Pipe) : Prop where
  queue : ∀ k, s.queue k = []
  linked : s.linked = true
  outside : ∀ t, (s.thread t).state = .outside ∧ (s.thread t).moved = []
  writes : s.writes = []
  log : ∀ k, s.log k = []
  results : s.results = []

/-- The bytes of a log one after the other. -/
def stream (l : List (ℕ × List UInt8)) : List UInt8 := l.flatMap fun e => e.2

/-- The bytes that went from or to the thread `t` at one end. -/
def passed (s : Pipe) (k : Side) (t : ℕ) : List UInt8 := stream ((s.log k).filter fun e => e.1 == t)

/-- The bytes that went from or to the thread `t` at one end in the calls that have returned. -/
def returned (s : Pipe) (k : Side) (t : ℕ) : List UInt8 :=
  (s.results.filter fun r => r.thread == t && r.side == k).flatMap fun r => r.moved

/-- The bytes that went from or to the thread `t` at one end in the call that it is in. -/
def current (s : Pipe) (k : Side) (t : ℕ) : List UInt8 :=
  if (s.thread t).side = k then (s.thread t).moved else []

end Pipe

end SimpleKernel.Pipefs
