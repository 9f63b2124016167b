import Mathlib.Algebra.Group.Nat.Defs
import Mathlib.Algebra.Group.Int.Defs
import SimpleKernel.Lib.Circle
import SimpleKernel.Lib.Transition

/-! Kernel timers (`sys/krnl/timer.c`): five vectors of timer lists. The lists are circles through the links of the
timers; the slots of the vectors are their heads. -/
namespace SimpleKernel.Timers
open LinkedList

/-- `TVR_BITS + n * TVN_BITS`: the number of ticks that a slot of a vector stands for is `2 ^ bits v`. -/
def bits (v : Fin 5) : ℕ := if v = 0 then 0 else 8 + 6 * (v - 1)

/-- `vec[i]` of one of the vectors. -/
structure Slot where
  vec : Fin 5
  i : ℕ
  deriving DecidableEq

/-- The ticks that a slot of a vector stands for. -/
def gran (v : Fin 5) : ℕ := 2 ^ bits v

/-- A timer due at tick `d` may be in the slot `k` while `now` is the next tick and `lap` slots of each vector have
been moved down: in the first vector within the next `2 ^ 8` ticks, in another one within the next `2 ^ 6` slots. -/
def Fits (now : ℕ) (lap : Fin 5 → ℕ) (expires : ℕ) (k : Slot) (d : ℕ) : Prop :=
  k.vec = 0 ∧ k.i = d % 2 ^ 8 ∧ now ≤ d ∧ d < now + 2 ^ 8 ∨
    k.vec ≠ 0 ∧ k.i = d / gran k.vec % 2 ^ 6 ∧ lap k.vec ≤ d / gran k.vec ∧ d / gran k.vec < lap k.vec + 2 ^ 6 ∧
      expires = d % 2 ^ 32

/-- `unsigned int` subtraction. -/
def sub32 (x y : ℕ) : ℕ := (x + 2 ^ 32 - y) % 2 ^ 32

/-- `struct timer` apart from its links, with `handler` and `arg` left out: the timer stands for them. -/
structure Timer where
  expires : ℕ
  active : Bool

/-- The static variables: the links of all timers and slots, the index of each vector and `timer_ticks`. -/
structure Wheel (τ : Type) where
  links : Links (Node Slot τ)
  index : Fin 5 → ℕ
  timerTicks : ℕ
  timers : τ → Timer

variable {τ : Type}

/-- The slot in which `attach_timer` puts a timer. -/
def Wheel.slot (w : Wheel τ) (expires : ℕ) : Slot :=
  let idx := sub32 expires w.timerTicks
  if idx < 2 ^ 8 then ⟨0, expires % 2 ^ 8⟩
  else if idx < 2 ^ (8 + 6) then ⟨1, expires / 2 ^ 8 % 2 ^ 6⟩
  else if idx < 2 ^ (8 + 2 * 6) then ⟨2, expires / 2 ^ (8 + 6) % 2 ^ 6⟩
  else if idx < 2 ^ (8 + 3 * 6) then ⟨3, expires / 2 ^ (8 + 2 * 6) % 2 ^ 6⟩
  else if 2 ^ 31 ≤ idx then ⟨0, w.index 0⟩
  else ⟨4, expires / 2 ^ (8 + 3 * 6) % 2 ^ 6⟩

/-- `init_timers`. -/
def Wheel.init : Wheel τ where
  links := ⟨fun | .head k => some (.head k) | .item _ => none, fun | .head k => some (.head k) | .item _ => none⟩
  index := fun _ => 0
  timerTicks := 0
  timers := fun _ => ⟨0, false⟩

variable [DecidableEq τ]

def Wheel.setTimer (w : Wheel τ) (t : τ) (x : Timer) : Wheel τ := { w with timers := Function.update w.timers t x }

def Wheel.attachTimer (w : Wheel τ) (t : τ) : Wheel τ :=
  { w with
    links := w.links.enter (.head (w.slot (w.timers t).expires)) (.item t)
    timers := Function.update w.timers t { w.timers t with active := true } }

/-- `detach_timer`; it returns whether the timer was active. -/
def Wheel.detachTimer (w : Wheel τ) (t : τ) : Wheel τ :=
  if (w.timers t).active then
    { w with
      links := w.links.bypass (.item t)
      timers := Function.update w.timers t { w.timers t with active := false } }
  else w

/-- What has happened to the timers, in ticks that do not wrap around: the tick to be processed next, when each
timer is due, and for every one that was attached, called or taken back, at which tick it was due, called or due. -/
structure Record (τ : Type) where
  now : ℕ
  due : τ → Option ℕ
  made : List (τ × ℕ)
  fired : List (τ × ℕ)
  cancelled : List (τ × ℕ)

/-- The tick that an expiry time stands for; one that is past stands for the next tick. -/
def Record.tick (r : Record τ) (expires : ℕ) : ℕ :=
  if sub32 expires (r.now % 2 ^ 32) < 2 ^ 31 then r.now + sub32 expires (r.now % 2 ^ 32) else r.now

def Record.attach (r : Record τ) (t : τ) (expires : ℕ) : Record τ :=
  { r with
    due := Function.update r.due t (some (r.tick expires))
    made := r.made ++ [(t, r.tick expires)] }

def Record.cancel (r : Record τ) (t : τ) : Record τ := match r.due t with
  | none => r
  | some d => { r with due := Function.update r.due t none, cancelled := r.cancelled ++ [(t, d)] }

def Record.fire (r : Record τ) (t : τ) : Record τ :=
  { r with due := Function.update r.due t none, fired := r.fired ++ [(t, r.now)] }

/-- What `run_timer_list` does next. -/
inductive Pc (τ : Type)
  | idle
  | test
  | cascade (n : Fin 5) (curr : Node Slot τ)
  | call
  | handler (t : τ)
  deriving DecidableEq

structure State (τ : Type) where
  wheel : Wheel τ
  ticks : ℕ
  pc : Pc τ
  record : Record τ

def State.init : State τ := ⟨.init, 0, .idle, ⟨0, fun _ => none, [], [], []⟩⟩

/-- The slot at the index of a vector. -/
def Wheel.current (w : Wheel τ) (v : Fin 5) : Slot := ⟨v, w.index v⟩

/-- `curr = head->next` for the slot at the index of a vector. -/
def Wheel.first (w : Wheel τ) (v : Fin 5) : Option (Node Slot τ) := w.links.next (.head (w.current v))

/-- A step of the loop of `cascade_timers`, or its end and what `run_timer_list` does then. The lists never reach the
head of another slot. -/
def cascade (s : State τ) (n : Fin 5) : Node Slot τ → Option (State τ)
  | .item t => (s.wheel.links.next (.item t)).map fun next =>
      { s with wheel := s.wheel.attachTimer t, pc := .cascade n next }
  | .head k =>
    if k = s.wheel.current n then
      let index := (s.wheel.index n + 1) % 2 ^ 6
      let w := { s.wheel with links := s.wheel.links.empty k, index := Function.update s.wheel.index n index }
      if index = 1 ∧ n + 1 ≠ 0 then (w.first (n + 1)).map fun next => { s with wheel := w, pc := .cascade (n + 1) next }
      else some { s with wheel := w, pc := .call }
    else none

/-- The next step of `run_timer_list`, up to the call of a handler. -/
def go (s : State τ) : Option (State τ) :=
  match s.pc with
  | .idle | .handler _ => none
  | .test =>
    if sub32 s.ticks s.wheel.timerTicks < 2 ^ 31 then
      if s.wheel.index 0 = 0 then (s.wheel.first 1).map fun next => { s with pc := .cascade 1 next }
      else some { s with pc := .call }
    else some { s with pc := .idle }
  | .cascade n curr => cascade s n curr
  | .call => match s.wheel.first 0 with
    | none => none
    | some (.head k) =>
      if k = s.wheel.current 0 then
        some { s with
          wheel := { s.wheel with
            timerTicks := (s.wheel.timerTicks + 1) % 2 ^ 32
            index := Function.update s.wheel.index 0 ((s.wheel.index 0 + 1) % 2 ^ 8) }
          pc := .test
          record := { s.record with now := s.record.now + 1 } }
      else none
    | some (.item t) =>
      some { s with
        wheel := { s.wheel.detachTimer t with links := (s.wheel.detachTimer t).links.clear (.item t) }
        pc := .handler t
        record := s.record.fire t }

/-- The functions can be called between the runs of `run_timer_list` and by handlers. -/
def Pc.Open : Pc τ → Prop
  | .idle | .handler _ => True
  | _ => False

instance (pc : Pc τ) : Decidable pc.Open := by
  unfold Pc.Open
  split <;> infer_instance

/-- The clock goes on, `run_timer_list` is called or goes on, a handler returns, a timer's `expires` is set, or one of
the functions is called. -/
inductive Act (τ : Type)
  | advance (k : ℕ)
  | run
  | go
  | ret
  | setExpires (t : τ) (expires : ℕ)
  | init (t : τ)
  | add (t : τ)
  | del (t : τ)
  | mod (t : τ) (expires : ℕ)
  deriving DecidableEq

def State.attach (s : State τ) (t : τ) : State τ :=
  { s with wheel := s.wheel.attachTimer t, record := s.record.attach t (s.wheel.timers t).expires }

def State.detach (s : State τ) (t : τ) : State τ :=
  { s with
    wheel := s.wheel.detachTimer t
    record := if (s.wheel.timers t).active then s.record.cancel t else s.record }

/-- `init_timer`; `link.prev` keeps its value. -/
def State.initTimer (s : State τ) (t : τ) : State τ :=
  { s with wheel := { s.wheel with links := s.wheel.links.setNext (some (.item t)) none }.setTimer t ⟨0, false⟩ }

def State.addTimer (s : State τ) (t : τ) : State τ := if (s.wheel.timers t).active then s else s.attach t

def State.delTimer (s : State τ) (t : τ) : State τ :=
  let s := s.detach t
  { s with wheel := { s.wheel with links := s.wheel.links.clear (.item t) } }

def State.setExpires (s : State τ) (t : τ) (expires : ℕ) : State τ :=
  { s with wheel := s.wheel.setTimer t { s.wheel.timers t with expires := expires % 2 ^ 32 } }

def State.modTimer (s : State τ) (t : τ) (expires : ℕ) : State τ := ((s.setExpires t expires).detach t).attach t

def step (s : State τ) : Act τ → Option (State τ)
  | .advance k => some { s with ticks := (s.ticks + k) % 2 ^ 32 }
  | .run => match s.pc with
    | .idle => some { s with pc := .test }
    | _ => none
  | .go => go s
  | .ret => match s.pc with
    | .handler _ => some { s with pc := .call }
    | _ => none
  | .setExpires t e => if s.pc.Open then some (s.setExpires t e) else none
  | .init t => if s.pc.Open then some (s.initTimer t) else none
  | .add t => if s.pc.Open then some (s.addTimer t) else none
  | .del t => if s.pc.Open then some (s.delTimer t) else none
  | .mod t e => if s.pc.Open then some (s.modTimer t e) else none

/-- `init_timer` is called, and `expires` set, for timers that are not active. -/
def Legal (s : State τ) : Act τ → Prop
  | .init t | .setExpires t _ => (s.wheel.timers t).active = false
  | _ => True

end SimpleKernel.Timers
