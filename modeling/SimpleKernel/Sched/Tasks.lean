import SimpleKernel.Lib.Chain
import SimpleKernel.Lib.Transition
import SimpleKernel.Sched.Ready

/-! Task queues. `queue_task` adds a task to a queue and wakes its worker thread, which takes the tasks off the list
and calls their procedures. A procedure may block, and may queue its own task again. The worker runs undisturbed
from `dispatch` to the call of a procedure or to its wait. -/
namespace SimpleKernel.Sched
open LinkedList Transition
open Function (update update_of_ne update_self)

def EAGAIN : ℤ := 11
def EBUSY : ℤ := 16

/-- `THREAD_WAIT_OBJECT` to `THREAD_WAIT_DEVIO`. -/
inductive WaitReason where
  | object | buffer | task | socket | sleep | pipe | devio
  deriving DecidableEq, Repr

/-- Where the worker is: at the head of its loop, or in the procedure of a task. -/
inductive WorkerPc (α : Type) where
  | loop
  | calling (task : α)
  deriving DecidableEq

/-- A task of type `α` is a place in memory with the fields `next`, `proc`, `arg`, and the flags `TASK_QUEUED` and
`TASK_EXECUTING`. A task is queued at most once, so `size` does not wrap. `accepted` and `executed` are history. -/
structure TaskQueue (α π β : Type) where
  head : Option α
  tail : Option α
  maxsize : ℤ
  size : ℤ
  active : Bool
  next : α → Option α
  proc : α → π
  arg : α → β
  queued : α → Bool
  executing : α → Bool
  state : ThreadState
  waitReason : WaitReason
  pc : WorkerPc α
  accepted : List (α × π × β)
  executed : List (α × π × β)

/-- `dispatch`, `work`, `block`, `wake`, `yield` and `finish` are about the worker: it is switched
to, it runs from the head of its loop, the procedure blocks, is woken, gives up the processor, and
returns. -/
inductive TaskLabel (α π β : Type) where
  | queueTask (task : α) (proc : π) (arg : β)
  | dispatch
  | work
  | block (reason : WaitReason)
  | wake
  | yield
  | finish

namespace TaskQueue
variable {α π β : Type} [DecidableEq α]

/-- `INFINITE` as an `int`. -/
def infinite : ℤ := -1

/-- The rest of `queue_task` once the task is accepted. Of `mark_thread_ready` only the state of
the worker matters here. -/
def addTask (s : TaskQueue α π β) (task : α) (proc : π) (arg : β) : TaskQueue α π β :=
  let next := update s.next task none
  { s with
    proc := update s.proc task proc
    arg := update s.arg task arg
    next :=
      match s.tail with
      | some last => update next last (some task)
      | none => next
    queued := update s.queued task true
    head := if s.tail = none then some task else s.head
    tail := some task
    size := s.size + 1
    state := if s.active = false ∧ s.state = .waiting then .ready else s.state
    accepted := s.accepted ++ [(task, proc, arg)] }

def queueTask (s : TaskQueue α π β) (task : α) (proc : π) (arg : β) : TaskQueue α π β × ℤ :=
  if s.queued task then (s, -EBUSY)
  else if s.maxsize ≠ infinite ∧ s.maxsize ≤ s.size then (s, -EAGAIN)
  else (s.addTask task proc arg, 0)

/-- The loop of `task_queue_task` up to the next call of a procedure or the next wait. A task that
is being executed is dropped. -/
def work (s : TaskQueue α π β) : TaskQueue α π β :=
  match s.head with
  | none => { s with state := .waiting, waitReason := .task }
  | some task =>
    let s := { s with
      head := s.next task
      tail := if s.tail = some task then none else s.tail
      size := s.size - 1
      queued := update s.queued task false }
    if s.executing task then s
    else
      { s with
        executing := update s.executing task true
        active := true
        pc := .calling task
        executed := s.executed ++ [(task, s.proc task, s.arg task)] }

/-- The rest of the loop, when the procedure of `task` returns. -/
def finish (s : TaskQueue α π β) (task : α) : TaskQueue α π β :=
  { s with executing := update s.executing task false, active := false, pc := .loop }

def step (s : TaskQueue α π β) : TaskLabel α π β → Option (TaskQueue α π β)
  | .queueTask task proc arg => some (s.queueTask task proc arg).1
  | .dispatch => if s.state = .ready then some { s with state := .running } else none
  | .work => if s.state = .running ∧ s.pc = .loop then some s.work else none
  | .block reason =>
    match s.pc with
    | .loop => none
    | .calling _ =>
      if s.state = .running ∧ reason ≠ .task then
        some { s with state := .waiting, waitReason := reason }
      else none
  | .wake =>
    match s.pc with
    | .loop => none
    | .calling _ => if s.state = .waiting then some { s with state := .ready } else none
  | .yield =>
    match s.pc with
    | .loop => none
    | .calling _ => if s.state = .running then some { s with state := .ready } else none
  | .finish =>
    match s.pc with
    | .loop => none
    | .calling task => if s.state = .running then some (s.finish task) else none

/-- The worker is in `enter_wait(THREAD_WAIT_TASK)`. -/
def Idle (s : TaskQueue α π β) : Prop := s.state = .waiting ∧ s.waitReason = .task

end TaskQueue

/-- `init_task_queue`; the tasks are as `init_task` leaves them. -/
def initTaskQueue {α π β : Type} (maxsize : ℤ) (proc : α → π) (arg : α → β) : TaskQueue α π β where
  head := none
  tail := none
  maxsize := maxsize
  size := 0
  active := false
  next := fun _ => none
  proc := proc
  arg := arg
  queued := fun _ => false
  executing := fun _ => false
  state := .ready
  waitReason := .object
  pc := .loop
  accepted := []
  executed := []

namespace TaskQueue
variable {α π β : Type} [DecidableEq α] {s s' : TaskQueue α π β} {q : List α} {task : α}

/-- What was accepted for `t`. -/
def entry (s : TaskQueue α π β) (t : α) : α × π × β := (t, s.proc t, s.arg t)

/-- The queued tasks are `q`. -/
structure Inv (s : TaskQueue α π β) (q : List α) : Prop where
  chain : Chain s.next s.head q
  tail : s.tail = q.getLast?
  queued : ∀ t, s.queued t = true ↔ t ∈ q
  size : s.size = q.length
  history : s.accepted = s.executed ++ q.map s.entry
  executing : ∀ t, s.executing t = true ↔ s.pc = .calling t
  active : s.active = true ↔ s.pc ≠ .loop
  idle : s.Idle → q = [] ∧ s.pc = .loop
  waits : s.pc = .loop → s.state = .waiting → s.Idle

omit [DecidableEq α] in
theorem inv_initTaskQueue (maxsize : ℤ) (proc : α → π) (arg : α → β) :
    (initTaskQueue maxsize proc arg).Inv [] := by
  constructor <;> simp [initTaskQueue, Idle, Chain]

theorem addTask_state (proc : π) (arg : β) : (s.addTask task proc arg).state =
    if s.active = false ∧ s.state = .waiting then .ready else s.state := rfl

theorem Inv.addTask (h : s.Inv q) (ht : task ∉ q) (proc : π) (arg : β) :
    (s.addTask task proc arg).Inv (q ++ [task]) := by
  have hne (b : α) (hb : b ∈ q) : b ≠ task := by
    rintro rfl
    exact ht hb
  have hc : Chain (update s.next task none) s.head q :=
    h.chain.congr fun b hb => update_of_ne (hne b hb) _ _
  have hold : q.map (s.addTask task proc arg).entry = q.map s.entry := by
    refine List.map_congr_left fun t hm => ?_
    simp [entry, TaskQueue.addTask, hne t hm]
  refine ⟨?_, by simp [TaskQueue.addTask], fun t => ?_, ?_, ?_, h.executing, h.active, ?_, ?_⟩
  · unfold TaskQueue.addTask
    rcases List.eq_nil_or_concat q with rfl | ⟨ys, b, rfl⟩
    · simp [h.tail, Chain]
    · rw [List.concat_eq_append] at hc ht
      have hlast : s.tail = some b := by simpa using h.tail
      simpa [hlast] using hc.append ht (update_self ..)
  · unfold TaskQueue.addTask
    rcases eq_or_ne t task with rfl | htt
    · simp
    · simp [htt, h.queued]
  · simp [TaskQueue.addTask, h.size]
  · rw [List.map_append, hold]
    simp [TaskQueue.addTask, h.history, entry]
  · -- a worker that waits for a task is woken
    rintro ⟨hstate, hreason⟩
    rw [addTask_state] at hstate
    split_ifs at hstate with hw
    have hloop := (h.idle ⟨hstate, hreason⟩).2
    exact absurd ⟨by simpa [hloop] using h.active, hstate⟩ hw
  · intro hpc hstate
    refine ⟨hstate, ?_⟩
    rw [addTask_state] at hstate
    split_ifs at hstate with hw
    exact (h.waits hpc hstate).2

theorem Inv.queueTask (h : s.Inv q) (task : α) (proc : π) (arg : β) :
    ∃ q', (s.queueTask task proc arg).1.Inv q' := by
  unfold TaskQueue.queueTask
  split_ifs with hqueued hfull
  · exact ⟨q, h⟩
  · exact ⟨q, h⟩
  · exact ⟨q ++ [task], h.addTask (fun hm => hqueued ((h.queued task).mpr hm)) proc arg⟩

theorem work_none (hhead : s.head = none) :
    s.work = { s with state := .waiting, waitReason := .task } := by
  unfold TaskQueue.work
  rw [hhead]

theorem work_some (hhead : s.head = some task) (hfree : s.executing task = false) :
    s.work = { s with
      head := s.next task
      tail := if s.tail = some task then none else s.tail
      size := s.size - 1
      queued := update s.queued task false
      executing := update s.executing task true
      active := true
      pc := .calling task
      executed := s.executed ++ [s.entry task] } := by
  unfold TaskQueue.work
  rw [hhead]
  simp only [hfree]
  rfl

theorem Inv.work (h : s.Inv q) (hpc : s.pc = .loop) :
    q = [] ∧ s.work.Inv [] ∨ ∃ task ys, q = task :: ys ∧ s.work.Inv ys ∧
      s.work.executed = s.executed ++ [s.entry task] := by
  cases q with
  | nil =>
    have hhead : s.head = none := h.chain
    refine Or.inl ⟨rfl, ?_⟩
    rw [work_none hhead]
    exact ⟨h.chain, h.tail, h.queued, h.size, h.history, h.executing, h.active,
      fun _ => ⟨rfl, hpc⟩, fun _ _ => ⟨rfl, rfl⟩⟩
  | cons task ys =>
    obtain ⟨hhead, hrest⟩ := h.chain
    have hnd := List.nodup_cons.mp h.chain.nodup
    have hfree : s.executing task = false := by
      by_contra hx
      simp [(h.executing task).mp (by simpa using hx)] at hpc
    rw [work_some hhead hfree]
    refine Or.inr ⟨task, ys, rfl, ?_, rfl⟩
    refine ⟨hrest, ?_, fun t => ?_, ?_, ?_, fun t => ?_, by simp, ?_, by simp⟩
    · rw [h.tail]
      cases ys with
      | nil => simp
      | cons b zs =>
        have hlast : (b :: zs).getLast? ≠ some task := fun e => hnd.1 (List.mem_of_getLast? e)
        rw [List.getLast?_cons_cons, if_neg hlast]
    · rcases eq_or_ne t task with rfl | hne
      · simpa using hnd.1
      · simp [hne, h.queued]
    · simp [h.size]
    · simp only [h.history, List.append_assoc]
      rfl
    · rcases eq_or_ne t task with rfl | hne
      · simp
      · simpa [hne, hne.symm, hpc] using h.executing t
    · rintro ⟨hstate, hreason⟩
      exact absurd (h.idle ⟨hstate, hreason⟩).1 (by simp)

theorem Inv.finish (h : s.Inv q) (hpc : s.pc = .calling task) (hstate : s.state = .running) :
    (s.finish task).Inv q := by
  refine ⟨h.chain, h.tail, h.queued, h.size, h.history, fun t => ?_, by simp [TaskQueue.finish],
    fun hi => ?_, fun _ hw => ?_⟩
  · unfold TaskQueue.finish
    rcases eq_or_ne t task with rfl | hne
    · simp
    · simpa [hne, hne.symm, hpc] using h.executing t
  · exact absurd (hstate.symm.trans hi.1) (by decide)
  · exact absurd (hstate.symm.trans hw) (by decide)

omit [DecidableEq α] in
theorem Inv.setState (h : s.Inv q) {st : ThreadState} {reason : WaitReason}
    (hst : st = .waiting → s.pc ≠ .loop ∧ reason ≠ .task) :
    ({ s with state := st, waitReason := reason } : TaskQueue α π β).Inv q :=
  ⟨h.chain, h.tail, h.queued, h.size, h.history, h.executing, h.active,
    fun hi => absurd hi.2 (hst hi.1).2, fun hpc hw => absurd hpc (hst hw).1⟩

theorem Inv.step {l : TaskLabel α π β} (h : s.Inv q) (hl : s.step l = some s') :
    ∃ q', s'.Inv q' := by
  cases l with
  | queueTask task proc arg =>
    obtain rfl := Option.some.inj hl
    exact h.queueTask task proc arg
  | dispatch =>
    obtain ⟨-, hl⟩ := Option.ite_none_right_eq_some.mp hl
    obtain rfl := Option.some.inj hl
    exact ⟨q, h.setState (by simp)⟩
  | work =>
    obtain ⟨⟨-, hpc⟩, hl⟩ := Option.ite_none_right_eq_some.mp hl
    obtain rfl := Option.some.inj hl
    rcases h.work hpc with ⟨-, hi⟩ | ⟨task, ys, -, hi, -⟩
    · exact ⟨[], hi⟩
    · exact ⟨ys, hi⟩
  | block reason =>
    simp only [TaskQueue.step] at hl
    split at hl
    · cases hl
    · rename_i task hpc
      obtain ⟨⟨-, hr⟩, hl⟩ := Option.ite_none_right_eq_some.mp hl
      obtain rfl := Option.some.inj hl
      exact ⟨q, h.setState fun _ => ⟨by simp [hpc], hr⟩⟩
  | wake | yield =>
    simp only [TaskQueue.step] at hl
    split at hl
    · cases hl
    · obtain ⟨-, hl⟩ := Option.ite_none_right_eq_some.mp hl
      obtain rfl := Option.some.inj hl
      exact ⟨q, h.setState (by simp)⟩
  | finish =>
    simp only [TaskQueue.step] at hl
    split at hl
    · cases hl
    · rename_i task hpc
      obtain ⟨hstate, hl⟩ := Option.ite_none_right_eq_some.mp hl
      obtain rfl := Option.some.inj hl
      exact ⟨q, h.finish hpc hstate⟩

theorem step_history {l : TaskLabel α π β} (hl : s.step l = some s') :
    s.accepted <+: s'.accepted ∧ s.executed <+: s'.executed := by
  cases l with
  | queueTask task proc arg =>
    obtain rfl := Option.some.inj hl
    unfold TaskQueue.queueTask
    split_ifs
    · exact ⟨List.prefix_rfl, List.prefix_rfl⟩
    · exact ⟨List.prefix_rfl, List.prefix_rfl⟩
    · exact ⟨List.prefix_append _ _, List.prefix_rfl⟩
  | dispatch =>
    obtain ⟨-, hl⟩ := Option.ite_none_right_eq_some.mp hl
    obtain rfl := Option.some.inj hl
    exact ⟨List.prefix_rfl, List.prefix_rfl⟩
  | work =>
    obtain ⟨-, hl⟩ := Option.ite_none_right_eq_some.mp hl
    obtain rfl := Option.some.inj hl
    unfold TaskQueue.work
    split
    · exact ⟨List.prefix_rfl, List.prefix_rfl⟩
    · rename_i task _
      by_cases hx : s.executing task = true
      · simp [hx]
      · simp [hx]
  | block reason | wake | yield | finish =>
    simp only [TaskQueue.step] at hl
    split at hl
    · cases hl
    · obtain ⟨-, hl⟩ := Option.ite_none_right_eq_some.mp hl
      obtain rfl := Option.some.inj hl
      exact ⟨List.prefix_rfl, List.prefix_rfl⟩

/-- An endless run from `s` that takes the labels `l`. -/
structure Runs (s : TaskQueue α π β) (σ : ℕ → TaskQueue α π β) (l : ℕ → TaskLabel α π β) : Prop where
  start : σ 0 = s
  steps : ∀ n, (σ n).step (l n) = some (σ (n + 1))

/-- Procedures return and the worker is dispatched: again and again it is at the head of its loop,
or it waits for a task. -/
def Fair (σ : ℕ → TaskQueue α π β) (l : ℕ → TaskLabel α π β) : Prop :=
  ∀ n, ∃ m, n ≤ m ∧ (l m = .work ∨ (σ m).Idle)

section Runs
variable {σ : ℕ → TaskQueue α π β} {l : ℕ → TaskLabel α π β}

theorem Runs.inv (hr : s.Runs σ l) (h : s.Inv q) (n : ℕ) : ∃ q', (σ n).Inv q' := by
  induction n with
  | zero => exact ⟨q, hr.start ▸ h⟩
  | succ n ih =>
    obtain ⟨q', hq'⟩ := ih
    exact hq'.step (hr.steps n)

theorem Runs.history (hr : s.Runs σ l) {n m : ℕ} (hnm : n ≤ m) :
    (σ n).accepted <+: (σ m).accepted ∧ (σ n).executed <+: (σ m).executed := by
  obtain ⟨k, rfl⟩ := Nat.exists_eq_add_of_le hnm
  induction k with
  | zero => exact ⟨List.prefix_rfl, List.prefix_rfl⟩
  | succ k ih =>
    obtain ⟨haccepted, hexecuted⟩ := ih (Nat.le_add_right n k)
    have hstep := step_history (hr.steps (n + k))
    exact ⟨haccepted.trans hstep.1, hexecuted.trans hstep.2⟩

/-- What was executed in state `n` of a run is a part of what was accepted; as soon as it is long
enough it has all that was accepted at the start. -/
theorem Runs.covers (hr : s.Runs σ l) (h : s.Inv q) {n : ℕ}
    (hlen : s.accepted.length ≤ (σ n).executed.length) : s.accepted <+: (σ n).executed := by
  obtain ⟨q', hq'⟩ := hr.inv h n
  have hstart : s.accepted <+: (σ n).accepted := hr.start ▸ (hr.history (Nat.zero_le n)).1
  have hexec : (σ n).executed <+: (σ n).accepted := hq'.history ▸ List.prefix_append _ _
  exact List.prefix_of_prefix_length_le hstart hexec hlen

theorem Runs.executes (hr : s.Runs σ l) (h : s.Inv q) (hfair : Fair σ l) (k n : ℕ)
    (hk : s.accepted.length ≤ (σ n).executed.length + k) : ∃ m, s.accepted <+: (σ m).executed := by
  induction k generalizing n with
  | zero => exact ⟨n, hr.covers h hk⟩
  | succ k ih =>
    obtain ⟨m, hnm, hturn⟩ := hfair n
    obtain ⟨q', hq'⟩ := hr.inv h m
    have hgrow := (hr.history hnm).2.length_le
    have hall : q' = [] → ∃ m, s.accepted <+: (σ m).executed := by
      rintro rfl
      have hdone : (σ m).accepted = (σ m).executed := by simpa using hq'.history
      exact ⟨m, hdone ▸ hr.start ▸ (hr.history (Nat.zero_le m)).1⟩
    rcases hturn with hwork | hidle
    · have hstep := hr.steps m
      rw [hwork] at hstep
      obtain ⟨⟨-, hpc⟩, hstep⟩ := Option.ite_none_right_eq_some.mp hstep
      rcases hq'.work hpc with ⟨hnil, -⟩ | ⟨task, ys, -, -, hexec⟩
      · exact hall hnil
      · rw [Option.some.inj hstep] at hexec
        refine ih (m + 1) ?_
        rw [hexec, List.length_append, List.length_singleton]
        omega
    · exact hall (hq'.idle hidle).1

end Runs

end TaskQueue

end SimpleKernel.Sched
