import SimpleKernel.Lib.ListFamily
import SimpleKernel.Lib.Transition
import Mathlib.Data.Int.Notation

/-! The I/O multiplexer of `krnl/iomux.c`: one `struct iomux`, the objects that can be attached to it, and
the threads that wait for it. -/
namespace SimpleKernel.Object
open LinkedList Transition
open Function (update update_apply update_of_ne update_self)

def ioevtRead : ℕ := 1

/-- `struct ioobject` without its links. `attached` says that its `iomux` is the multiplexer, and
`objSignaled` is the state of its own `struct object`. -/
structure IoObject where
  isIo : Bool
  attached : Bool
  monitored : ℕ
  signaled : ℕ
  context : ℤ
  objSignaled : Bool

/-- Some signaled event is monitored. -/
def IoObject.ready (o : IoObject) : Bool := decide (o.monitored &&& o.signaled ≠ 0)

/-- What a thread got from the multiplexer. -/
structure Delivery where
  thread : ℕ
  object : ℕ
  context : ℤ

/-- `struct iomux`. The queue `true` is the ready queue, the queue `false` the waiting queue. `delivered`
lists what the threads got, the last one first. -/
structure Iomux where
  links : Links ℕ
  ends : Bool → Ends ℕ
  signaled : Bool
  obj : ℕ → IoObject
  waiters : List ℕ
  delivered : List Delivery

inductive IoError
  | ebadf | einval | enoent

namespace Iomux

/-- The object gets other values. -/
def setObj (s : Iomux) (a : ℕ) (o : IoObject) : Iomux := { s with obj := update s.obj a o }

/-- The object is put at the end of a queue. -/
def append (s : Iomux) (k : Bool) (a : ℕ) : Iomux :=
  { s with
    links := s.links.append (s.ends k) a
    ends := update s.ends k ((s.ends k).append a) }

/-- `detach_ioobject`. -/
def detach (s : Iomux) (a : ℕ) : Iomux :=
  if (s.obj a).attached then
    let k := (s.obj a).ready
    let ends := update s.ends k ((s.ends k).drop s.links a)
    { s with
      links := (s.links.bypass a).clear a
      ends := ends
      signaled := if k = true ∧ (ends true).head = none then false else s.signaled
      obj := update s.obj a { s.obj a with attached := false } }
  else s

/-- One thread gets the object `a`: it is released with the context as its wait key. -/
def deliver (s : Iomux) (t a : ℕ) : Iomux :=
  { s.detach a with
    waiters := s.waiters.filter (· ≠ t)
    delivered := ⟨t, a, (s.obj a).context⟩ :: s.delivered }

/-- The loop of `release_waiting_threads` from a waiting thread on. `run` is `thread_ready_to_run`. -/
def releaseLoop (run : Iomux → ℕ → Bool) : List ℕ → Iomux → Iomux
  | [], s => s
  | t :: ts, s =>
    match (s.ends true).head with
    | none => s
    | some a => if run s t then releaseLoop run ts (s.deliver t a) else releaseLoop run ts s

def releaseWaitingThreads (s : Iomux) (run : Iomux → ℕ → Bool) : Iomux := releaseLoop run s.waiters s

/-- The second half of `queue_ioobject`: the object is not attached. -/
def attach (s : Iomux) (a events : ℕ) (context : ℤ) : Iomux :=
  let s := s.setObj a { s.obj a with attached := true, monitored := events, context := context }
  if (s.obj a).ready then { s.append true a with signaled := true } else s.append false a

/-- An object that is attached already is attached to this multiplexer. -/
def queueIoobject (s : Iomux) (run : Iomux → ℕ → Bool) (a events : ℕ) (context : ℤ) :
    Iomux × Except IoError Unit :=
  if (s.obj a).isIo = false then (s, .error .ebadf)
  else if events = 0 then (s, .error .einval)
  else
    let events := if (s.obj a).attached then events ||| (s.obj a).monitored else events
    let s := (s.detach a).attach a events context
    if (s.obj a).objSignaled then (s.releaseWaitingThreads run, .ok ()) else (s, .ok ())

/-- The object is moved from the waiting queue to the ready queue. -/
def moveToReady (s : Iomux) (a : ℕ) : Iomux :=
  let s := { s with
    links := s.links.bypass a
    ends := update s.ends false ((s.ends false).drop s.links a) }
  { s.append true a with signaled := true }

/-- The threads that wait for the object itself are left out. -/
def setIoEvent (s : Iomux) (run : Iomux → ℕ → Bool) (a events : ℕ) : Iomux :=
  let o := s.obj a
  let signaled := o.signaled ||| events
  if o.attached then
    if o.ready = false ∧ o.monitored &&& events ≠ 0 then
      ((s.setObj a { o with signaled := signaled }).moveToReady a).releaseWaitingThreads run
    else s.setObj a { o with signaled := signaled }
  else if signaled &&& ioevtRead ≠ 0 then s.setObj a { o with signaled := signaled, objSignaled := true }
  else s.setObj a { o with signaled := signaled }

/-- `events_signaled & ~events`. -/
def clearIoEvent (s : Iomux) (a events : ℕ) : Iomux :=
  let signaled := (s.obj a).signaled ^^^ ((s.obj a).signaled &&& events)
  s.setObj a
    { s.obj a with
      signaled := signaled
      objSignaled := if signaled &&& ioevtRead = 0 then false else (s.obj a).objSignaled }

/-- `dequeue_event_from_iomux`. -/
def dequeueEvent (s : Iomux) : Iomux × Except IoError ℤ :=
  match (s.ends true).head with
  | none => (s, .error .enoent)
  | some a => (s.detach a, .ok (s.obj a).context)

/-- `wait_for_one_object` of the thread `t` on the multiplexer: it takes the first object of the ready
queue or waits. -/
def waitForOneObject (s : Iomux) (t : ℕ) : Iomux :=
  if s.signaled then
    match (s.ends true).head with
    | none => s
    | some a => { s.detach a with delivered := ⟨t, a, (s.obj a).context⟩ :: s.delivered }
  else { s with waiters := s.waiters ++ [t] }

/-- The wait of the thread `t` ends by a time-out or an interrupt. -/
def giveUp (s : Iomux) (t : ℕ) : Iomux := { s with waiters := s.waiters.filter (· ≠ t) }

end Iomux

/-- `run` tells which threads `thread_ready_to_run` finds ready during the call. -/
inductive IomuxCall
  | queue (run : Iomux → ℕ → Bool) (a events : ℕ) (context : ℤ)
  | detach (a : ℕ)
  | set (run : Iomux → ℕ → Bool) (a events : ℕ)
  | clear (a events : ℕ)
  | dequeue
  | wait (t : ℕ)
  | giveUp (t : ℕ)

def IomuxCall.exec (s : Iomux) : IomuxCall → Option Iomux
  | .queue run a events context => some (s.queueIoobject run a events context).1
  | .detach a => some (s.detach a)
  | .set run a events => some (s.setIoEvent run a events)
  | .clear a events => some (s.clearIoEvent a events)
  | .dequeue => some s.dequeueEvent.1
  | .wait t => some (s.waitForOneObject t)
  | .giveUp t => some (s.giveUp t)

namespace Iomux
variable {s s' : Iomux} {q : Bool → List ℕ} {run : Iomux → ℕ → Bool} {a b t events : ℕ} {k : Bool}

/-- The queues are `q`: an attached object is on the ready queue if it is ready and on the waiting queue
otherwise, and the multiplexer is signaled while an object is ready. -/
structure Queues (s : Iomux) (q : Bool → List ℕ) : Prop where
  family : IsFamily s.links s.ends q
  mem : ∀ k a, a ∈ q k ↔ (s.obj a).attached = true ∧ (s.obj a).ready = k
  signaled : s.signaled = true ↔ q true ≠ []

theorem Queues.head (h : s.Queues q) : (s.ends true).head = (q true).head? := (h.family.lists true).head

theorem Queues.not_mem (h : s.Queues q) (ha : (s.obj a).attached = false) (k : Bool) : a ∉ q k := by
  intro hmem
  rw [((h.mem k a).mp hmem).1] at ha
  simp at ha

theorem Queues.setObj (h : s.Queues q) {o : IoObject} (hattached : o.attached = (s.obj a).attached)
    (hready : o.attached = true → o.ready = (s.obj a).ready) : (s.setObj a o).Queues q := by
  refine ⟨h.family, fun k b => ?_, h.signaled⟩
  rw [h.mem k b]
  by_cases hb : b = a
  · subst hb
    have hobj : (s.setObj b o).obj b = o := update_self _ _ _
    rw [hobj]
    constructor
    · rintro ⟨hat, hk⟩
      have hat' := hattached.trans hat
      exact ⟨hat', (hready hat').trans hk⟩
    · rintro ⟨hat, hk⟩
      exact ⟨hattached ▸ hat, hready hat ▸ hk⟩
  · have hobj : (s.setObj a o).obj b = s.obj b := update_of_ne hb _ _
    rw [hobj]

theorem detach_obj (s : Iomux) (a b : ℕ) :
    (s.detach a).obj b = if b = a then { s.obj a with attached := false } else s.obj b := by
  rw [detach]
  split
  · by_cases hb : b = a
    · rw [if_pos hb, hb]
      exact update_self _ _ _
    · rw [if_neg hb]
      exact update_of_ne hb _ _
  · next hno =>
    split
    · next hb =>
      have hfalse : (s.obj a).attached = false := by simpa using hno
      rw [hb, ← hfalse]
    · rfl

theorem detach_waiters (s : Iomux) (a : ℕ) : (s.detach a).waiters = s.waiters := by
  rw [detach]
  split
  · rfl
  · rfl

theorem detach_delivered (s : Iomux) (a : ℕ) : (s.detach a).delivered = s.delivered := by
  rw [detach]
  split
  · rfl
  · rfl

/-- The queues without the object `a`. -/
def without (q : Bool → List ℕ) (a : ℕ) : Bool → List ℕ := fun k => (q k).filter (· ≠ a)

theorem Queues.without_eq (h : s.Queues q) (hk : (s.obj a).ready = k) :
    update q k ((q k).filter (· ≠ a)) = without q a := by
  funext j
  by_cases hj : j = k
  · rw [hj, update_self]
    rfl
  · rw [update_of_ne hj, without, eq_comm, List.filter_eq_self]
    intro b hb
    have hne : b ≠ a := by
      rintro rfl
      exact hj (((h.mem j b).mp hb).2.symm.trans hk)
    simpa using hne

theorem Queues.without_of_not_attached (h : s.Queues q) (ha : (s.obj a).attached = false) :
    without q a = q := by
  funext j
  rw [without, List.filter_eq_self]
  intro b hb
  have hne : b ≠ a := by
    rintro rfl
    exact h.not_mem ha j hb
  simpa using hne

theorem Queues.detach (h : s.Queues q) (a : ℕ) : (s.detach a).Queues (without q a) := by
  have hmem (k : Bool) (b : ℕ) : b ∈ without q a k ↔
      ((s.detach a).obj b).attached = true ∧ ((s.detach a).obj b).ready = k := by
    rw [detach_obj, without, List.mem_filter, h.mem]
    by_cases hb : b = a
    · simp [hb]
    · simp [hb]
  cases hat : (s.obj a).attached with
  | false =>
    have hsame : s.detach a = s := by
      rw [Iomux.detach, if_neg (by simp [hat])]
    refine ⟨?_, hmem, ?_⟩
    · rw [hsame, h.without_of_not_attached hat]
      exact h.family
    · rw [hsame, h.without_of_not_attached hat]
      exact h.signaled
  | true =>
    have hin : a ∈ q (s.obj a).ready := (h.mem _ a).mpr ⟨hat, rfl⟩
    have hfamily := h.family.remove hin
    rw [h.without_eq rfl] at hfamily
    have hlinks : (s.detach a).links = (s.links.bypass a).clear a := by
      rw [Iomux.detach, if_pos hat]
    have hends : (s.detach a).ends = update s.ends (s.obj a).ready
        ((s.ends (s.obj a).ready).drop s.links a) := by
      rw [Iomux.detach, if_pos hat]
    have hsignaled : (s.detach a).signaled = if (s.obj a).ready = true ∧ ((s.detach a).ends true).head = none
        then false else s.signaled := by
      rw [Iomux.detach, if_pos hat]
    rw [← hlinks, ← hends] at hfamily
    refine ⟨hfamily, hmem, ?_⟩
    simp only [hsignaled, (hfamily.lists true).head, List.head?_eq_none_iff]
    cases hready : (s.obj a).ready with
    | true =>
      by_cases hempty : without q a true = []
      · simp [hempty]
      · rw [if_neg fun hboth => hempty hboth.2, h.signaled]
        refine ⟨fun _ => hempty, fun _ hnil => hempty ?_⟩
        rw [without, hnil]
        rfl
    | false =>
      have hsame : without q a true = q true := by
        rw [← h.without_eq hready, update_of_ne (by simp)]
      rw [hsame]
      exact h.signaled

/-- The queues with `a` at the end of one of them. -/
def withLast (q : Bool → List ℕ) (k : Bool) (a : ℕ) : Bool → List ℕ :=
  update q k (q k ++ [a])

theorem mem_withLast (q : Bool → List ℕ) (k j : Bool) : b ∈ withLast q k a j ↔ b ∈ q j ∨ j = k ∧ b = a := by
  rw [withLast]
  by_cases hj : j = k
  · subst hj
    simp
  · simp [hj]

theorem attach_obj (s : Iomux) (a events : ℕ) (context : ℤ) (b : ℕ) :
    (s.attach a events context).obj b =
      if b = a then { s.obj a with attached := true, monitored := events, context := context } else s.obj b := by
  have hobj : (s.attach a events context).obj = update s.obj a
      { s.obj a with attached := true, monitored := events, context := context } := by
    rw [attach]
    split <;> rfl
  rw [hobj, update_apply]

theorem attach_waiters (s : Iomux) (a events : ℕ) (context : ℤ) :
    (s.attach a events context).waiters = s.waiters := by
  rw [attach]
  split <;> rfl

theorem attach_delivered (s : Iomux) (a events : ℕ) (context : ℤ) :
    (s.attach a events context).delivered = s.delivered := by
  rw [attach]
  split <;> rfl

theorem Queues.attach (h : s.Queues q) (ha : (s.obj a).attached = false) (events : ℕ) (context : ℤ) :
    (s.attach a events context).Queues
      (withLast q ((s.attach a events context).obj a).ready a) := by
  have hfree := h.not_mem ha
  have hobj := attach_obj s a events context
  have hself : (s.attach a events context).obj a =
      { s.obj a with attached := true, monitored := events, context := context } := by
    rw [hobj, if_pos rfl]
  set o : IoObject := { s.obj a with attached := true, monitored := events, context := context } with ho
  have hmem (j : Bool) (b : ℕ) : b ∈ withLast q o.ready a j ↔
      ((s.attach a events context).obj b).attached = true ∧
        ((s.attach a events context).obj b).ready = j := by
    rw [mem_withLast, hobj]
    by_cases hb : b = a
    · subst hb
      simp [hfree j, ho, eq_comm]
    · rw [h.mem]
      simp [hb]
  have hset : (s.setObj a o).obj a = o := update_self _ _ _
  rw [hself]
  cases hready : o.ready with
  | true =>
    have heq : s.attach a events context = { (s.setObj a o).append true a with signaled := true } := by
      rw [Iomux.attach, hset, if_pos hready]
    rw [hready] at hmem
    refine ⟨?_, hmem, ?_⟩
    · rw [heq]
      exact h.family.append hfree
    · rw [heq]
      simp [withLast]
  | false =>
    have heq : s.attach a events context = (s.setObj a o).append false a := by
      rw [Iomux.attach, hset, if_neg (by simp [hready])]
    rw [hready] at hmem
    refine ⟨?_, hmem, ?_⟩
    · rw [heq]
      exact h.family.append hfree
    · rw [heq]
      exact h.signaled

theorem Queues.moveToReady (h : s.Queues q) {o : IoObject} (hat : (s.obj a).attached = true)
    (hnot : (s.obj a).ready = false) (hattached : o.attached = true) (hready : o.ready = true) :
    ((s.setObj a o).moveToReady a).Queues (withLast (without q a) true a) := by
  have hin : a ∈ q false := (h.mem false a).mpr ⟨hat, hnot⟩
  have hfamily := h.family.bypass hin
  rw [h.without_eq hnot] at hfamily
  have hfree (k : Bool) : a ∉ without q a k := by simp [without]
  have hobj (b : ℕ) : ((s.setObj a o).moveToReady a).obj b = if b = a then o else s.obj b :=
    update_apply _ _ _ _
  refine ⟨hfamily.append hfree, fun j b => ?_, ?_⟩
  · rw [mem_withLast, hobj, without, List.mem_filter, h.mem]
    by_cases hb : b = a
    · subst hb
      rw [if_pos rfl, hattached, hready]
      simp only [ne_eq, not_true_eq_false, decide_false, Bool.false_eq_true, and_false, false_or, and_true,
        true_and]
      exact eq_comm
    · simp [hb]
  · have hsignaled : ((s.setObj a o).moveToReady a).signaled = true := rfl
    rw [hsignaled]
    simp [withLast]

theorem Queues.deliver (h : s.Queues q) (t a : ℕ) : (s.deliver t a).Queues (without q a) := by
  have hd := h.detach a
  exact ⟨hd.family, hd.mem, hd.signaled⟩

theorem Queues.releaseLoop (h : s.Queues q) (run : Iomux → ℕ → Bool) (ts : List ℕ) :
    ∃ q', (Iomux.releaseLoop run ts s).Queues q' := by
  induction ts generalizing s q with
  | nil => exact ⟨q, h⟩
  | cons t ts ih =>
    rw [Iomux.releaseLoop]
    split
    · exact ⟨q, h⟩
    · split
      · exact ih (h.deliver t _)
      · exact ih h

theorem Queues.queueIoobject (h : s.Queues q) (run : Iomux → ℕ → Bool) (a events : ℕ) (context : ℤ) :
    ∃ q', (s.queueIoobject run a events context).1.Queues q' := by
  rw [Iomux.queueIoobject]
  split
  · exact ⟨q, h⟩
  · split
    · exact ⟨q, h⟩
    · have hfree : ((s.detach a).obj a).attached = false := by
        rw [detach_obj, if_pos rfl]
      dsimp only
      generalize (if (s.obj a).attached = true then events ||| (s.obj a).monitored else events) = mask
      have hat := (h.detach a).attach hfree mask context
      split
      · exact hat.releaseLoop run _
      · exact ⟨_, hat⟩

theorem land_lor_ne_zero {m x y : ℕ} : m &&& (x ||| y) ≠ 0 ↔ m &&& x ≠ 0 ∨ m &&& y ≠ 0 := by
  rw [Nat.and_or_distrib_left]
  have hor (u v : ℕ) : u ||| v = 0 ↔ u = 0 ∧ v = 0 := by
    constructor
    · intro huv
      exact ⟨Nat.eq_zero_of_le_zero (huv ▸ Nat.left_le_or), Nat.eq_zero_of_le_zero (huv ▸ Nat.right_le_or)⟩
    · rintro ⟨rfl, rfl⟩
      rfl
  rw [ne_eq, hor]
  tauto

theorem Queues.setIoEvent (h : s.Queues q) (run : Iomux → ℕ → Bool) (a events : ℕ) :
    ∃ q', (s.setIoEvent run a events).Queues q' := by
  rw [Iomux.setIoEvent]
  split
  · next hat =>
    split
    · next hnew =>
      refine (h.moveToReady (o := { s.obj a with signaled := (s.obj a).signaled ||| events }) hat hnew.1 hat
        ?_).releaseLoop run _
      simp only [IoObject.ready, decide_eq_true_eq]
      exact land_lor_ne_zero.mpr (.inr hnew.2)
    · next hold =>
      refine ⟨q, h.setObj rfl fun _ => ?_⟩
      simp only [IoObject.ready, decide_eq_decide, land_lor_ne_zero]
      rw [IoObject.ready, decide_eq_false_iff_not] at hold
      tauto
  · next hat =>
    split
    · exact ⟨q, h.setObj rfl fun h' => absurd h' (by simp [hat])⟩
    · exact ⟨q, h.setObj rfl fun h' => absurd h' (by simp [hat])⟩

theorem Queues.clearIoEvent (h : s.Queues q)
    (hsame : (s.obj a).attached = true → ((s.clearIoEvent a events).obj a).ready = (s.obj a).ready) :
    (s.clearIoEvent a events).Queues q := by
  refine h.setObj rfl fun hat => ?_
  have hready := hsame hat
  simpa only [Iomux.clearIoEvent, Iomux.setObj, update_self] using hready

theorem Queues.dequeueEvent (h : s.Queues q) : ∃ q', s.dequeueEvent.1.Queues q' := by
  rw [Iomux.dequeueEvent]
  split
  · exact ⟨q, h⟩
  · exact ⟨_, h.detach _⟩

theorem Queues.waitForOneObject (h : s.Queues q) (t : ℕ) : ∃ q', (s.waitForOneObject t).Queues q' := by
  rw [Iomux.waitForOneObject]
  split
  · split
    · exact ⟨q, h⟩
    · next a _ =>
      have hd := h.detach a
      exact ⟨_, hd.family, hd.mem, hd.signaled⟩
  · exact ⟨q, h.family, h.mem, h.signaled⟩

end Iomux

/-- `clear_io_event` does not take an attached object off the ready ones. -/
def IomuxCall.Steady (s : Iomux) : IomuxCall → Prop
  | .clear a events =>
    (s.obj a).attached = true → ((s.clearIoEvent a events).obj a).ready = (s.obj a).ready
  | _ => True

/-- After `init_iomux`: nothing is queued, nobody waits. -/
structure Iomux.Initial (s : Iomux) : Prop where
  ends : s.ends = fun _ => ⟨none, none⟩
  signaled : s.signaled = false
  detached : ∀ a, (s.obj a).attached = false
  waiters : s.waiters = []
  delivered : s.delivered = []

namespace Iomux
variable {s₀ s s' : Iomux} {q : Bool → List ℕ}

theorem Initial.queues (h : s.Initial) : s.Queues fun _ => [] := by
  refine ⟨⟨fun k => ?_, fun _ _ _ hmem => absurd hmem List.not_mem_nil⟩, fun k a => ?_, ?_⟩
  · rw [h.ends]
    exact isList_nil _
  · simp [h.detached]
  · simp [h.signaled]

theorem Queues.exec (h : s.Queues q) {c : IomuxCall} (hsteady : c.Steady s) (hs : c.exec s = some s') :
    ∃ q', s'.Queues q' := by
  cases c with
  | queue run a events context =>
    obtain rfl := Option.some.inj hs
    exact h.queueIoobject run a events context
  | detach a =>
    obtain rfl := Option.some.inj hs
    exact ⟨_, h.detach a⟩
  | set run a events =>
    obtain rfl := Option.some.inj hs
    exact h.setIoEvent run a events
  | clear a events =>
    obtain rfl := Option.some.inj hs
    exact ⟨q, h.clearIoEvent hsteady⟩
  | dequeue =>
    obtain rfl := Option.some.inj hs
    exact h.dequeueEvent
  | wait t =>
    obtain rfl := Option.some.inj hs
    exact h.waitForOneObject t
  | giveUp t =>
    obtain rfl := Option.some.inj hs
    exact ⟨q, h.family, h.mem, h.signaled⟩

/-- The queues are right in every run in which no attached object is taken off the ready ones by
`clear_io_event`. -/
theorem iomux_queues (hinit : s₀.Initial) (hrun : Reach IomuxCall.exec (fun s c => c.Steady s) s₀ s) :
    ∃ ready waiting : List ℕ,
      IsList s.links (s.ends true) ready ∧ IsList s.links (s.ends false) waiting ∧
      (∀ a, a ∈ ready ↔ (s.obj a).attached = true ∧ (s.obj a).monitored &&& (s.obj a).signaled ≠ 0) ∧
      (∀ a, a ∈ waiting ↔ (s.obj a).attached = true ∧ (s.obj a).monitored &&& (s.obj a).signaled = 0) ∧
      (s.signaled = true ↔ ready ≠ []) := by
  obtain ⟨q, h⟩ : ∃ q, s.Queues q :=
    hrun.invariant (P := fun s => ∃ q, s.Queues q) ⟨_, hinit.queues⟩ fun _ _ _ ⟨_, hq⟩ hok hcall =>
      hq.exec hok hcall
  refine ⟨q true, q false, h.family.lists true, h.family.lists false, fun a => ?_, fun a => ?_, h.signaled⟩
  · rw [h.mem true a, IoObject.ready, decide_eq_true_eq]
  · rw [h.mem false a, IoObject.ready, decide_eq_false_iff_not, not_not]

/-- One file that is not attached, and nobody waits. -/
def oneFile : Iomux where
  links := ⟨fun _ => none, fun _ => none⟩
  ends _ := ⟨none, none⟩
  signaled := false
  obj _ := ⟨true, false, 0, 0, 0, false⟩
  waiters := []
  delivered := []

theorem oneFile_initial : oneFile.Initial := ⟨rfl, rfl, fun _ => rfl, rfl, rfl⟩

/-- The file is queued for reading, and an event for reading comes. -/
def readyFile : Iomux := (oneFile.queueIoobject (fun _ _ => true) 1 1 7).1.setIoEvent (fun _ _ => true) 1 1

theorem readyFile_reach {ok : Iomux → IomuxCall → Prop}
    (hqueue : ok oneFile (.queue (fun _ _ => true) 1 1 7))
    (hset : ok (oneFile.queueIoobject (fun _ _ => true) 1 1 7).1 (.set (fun _ _ => true) 1 1)) :
    Reach IomuxCall.exec ok oneFile readyFile :=
  (Reach.single hqueue rfl).tail hset rfl

theorem iomux_queues_ready : ∃ ready waiting : List ℕ,
    IsList readyFile.links (readyFile.ends true) ready ∧
      IsList readyFile.links (readyFile.ends false) waiting ∧ 1 ∈ ready ∧ readyFile.signaled = true := by
  obtain ⟨ready, waiting, hready, hwaiting, hmem, -⟩ :=
    iomux_queues oneFile_initial (readyFile_reach trivial trivial)
  exact ⟨ready, waiting, hready, hwaiting, (hmem 1).mpr ⟨by decide, by decide⟩, by decide⟩

/-- The events of a ready file are cleared: it stays on the ready queue. -/
theorem cleared_stays_ready : ¬ ∀ s₀ s : Iomux, s₀.Initial →
    Reach IomuxCall.exec (fun _ _ => True) s₀ s → ∃ ready : List ℕ, IsList s.links (s.ends true) ready ∧
      ∀ a, a ∈ ready ↔ (s.obj a).attached = true ∧ (s.obj a).monitored &&& (s.obj a).signaled ≠ 0 := by
  intro h
  have hrun : Reach IomuxCall.exec (fun _ _ => True) oneFile (readyFile.clearIoEvent 1 1) :=
    (readyFile_reach trivial trivial).tail (l := .clear 1 1) trivial rfl
  obtain ⟨ready, hlist, hmem⟩ := h _ _ oneFile_initial hrun
  have hhead : ready.head? = some 1 := by
    rw [← hlist.head]
    decide
  obtain ⟨-, hready⟩ := (hmem 1).mp (List.mem_of_mem_head? hhead)
  exact hready (by decide)

end Iomux

end SimpleKernel.Object
