import SimpleKernel.Object.Iomux

/-! Threads that wait for one multiplexer, and the objects they get. -/
namespace SimpleKernel.Object
open LinkedList Transition

namespace Iomux
variable {s s' : Iomux} {q : Bool → List ℕ} {a b t events : ℕ} {context : ℤ}

/-- `thread_ready_to_run` of a thread that waits for the multiplexer with `wait_for_one_object`. -/
def oneObject (s : Iomux) (_ : ℕ) : Bool := s.signaled

/-- How often the object `a` was delivered. -/
def deliveries (s : Iomux) (a : ℕ) : ℕ := s.delivered.countP fun d => d.object == a

/-- How often the thread `t` got an object. -/
def received (s : Iomux) (t : ℕ) : ℕ := s.delivered.countP fun d => d.thread == t

/-- The mask that `queue_ioobject` leaves. -/
def queuedMask (s : Iomux) (a events : ℕ) : ℕ :=
  if (s.obj a).attached then events ||| (s.obj a).monitored else events

/-- The object is attached and ready. -/
def isReady (s : Iomux) (a : ℕ) : Bool := (s.obj a).attached && (s.obj a).ready

end Iomux

/-- The object that becomes ready by a call, before threads are released. -/
def IomuxCall.becomesReady (s : Iomux) (a : ℕ) : IomuxCall → Bool
  | .queue _ b events _ =>
    b == a && (s.obj a).isIo && events != 0 && !s.isReady a &&
      s.queuedMask a events &&& (s.obj a).signaled != 0
  | .set _ b events => b == a && (s.obj a).attached && !(s.obj a).ready && (s.obj a).monitored &&& events != 0
  | _ => false

/-- The calls of the threads that use the multiplexer and of the events. A thread waits once. -/
def IomuxCall.Waiting (s : Iomux) : IomuxCall → Prop
  | .queue run _ _ _ => run = Iomux.oneObject
  | .set run _ _ => run = Iomux.oneObject
  | .wait t => t ∉ s.waiters
  | .giveUp t => t ∈ s.waiters
  | _ => False

/-- An object that is ready when it is queued is signaled itself, or nobody waits. -/
def IomuxCall.Dispatched (s : Iomux) : IomuxCall → Prop
  | .queue _ a events _ =>
    s.queuedMask a events &&& (s.obj a).signaled ≠ 0 → (s.obj a).objSignaled = true ∨ s.waiters = []
  | _ => True

/-- A run with the number of times that each object became ready, and that each thread began to wait and
did not give up. -/
inductive IomuxRun (ok : Iomux → IomuxCall → Prop) : Iomux → (ℕ → ℕ) → (ℕ → ℕ) → Prop
  | start {s : Iomux} : s.Initial → IomuxRun ok s (fun _ => 0) fun _ => 0
  | step {s s' : Iomux} {n w : ℕ → ℕ} {c : IomuxCall} : IomuxRun ok s n w → ok s c → c.exec s = some s' →
      IomuxRun ok s' (fun a => n a + if c.becomesReady s a then 1 else 0)
        (match c with
          | .wait t => Function.update w t (w t + 1)
          | .giveUp t => Function.update w t (w t - 1)
          | _ => w)

namespace Iomux
variable {s s' : Iomux} {q : Bool → List ℕ} {n w : ℕ → ℕ} {a b t events : ℕ} {context : ℤ}

/-- Nobody waits while an object is ready; every object that became ready is still ready or was delivered
once, and every wait goes on or was ended by one object. -/
structure Served (s : Iomux) (q : Bool → List ℕ) (n w : ℕ → ℕ) : Prop where
  queues : s.Queues q
  nodup : s.waiters.Nodup
  objects : ∀ a, s.deliveries a + (if a ∈ q true then 1 else 0) = n a
  threads : ∀ t, s.received t + (if t ∈ s.waiters then 1 else 0) = w t

theorem deliveries_cons {d : Delivery} {ds : List Delivery} (h : s.delivered = d :: ds) (a : ℕ) :
    s.deliveries a = (ds.countP fun d => d.object == a) + if d.object = a then 1 else 0 := by
  rw [deliveries, h, List.countP_cons]
  simp only [beq_iff_eq]

theorem received_cons {d : Delivery} {ds : List Delivery} (h : s.delivered = d :: ds) (t : ℕ) :
    s.received t = (ds.countP fun d => d.thread == t) + if d.thread = t then 1 else 0 := by
  rw [received, h, List.countP_cons]
  simp only [beq_iff_eq]

theorem Served.deliver (h : s.Served q n w) (ha : (s.ends true).head = some a) (ht : t ∈ s.waiters) :
    (s.deliver t a).Served (without q a) n w := by
  have hmem : a ∈ q true := by
    rw [h.queues.head] at ha
    exact List.mem_of_mem_head? ha
  refine ⟨h.queues.deliver t a, h.nodup.filter _, fun b => ?_, fun u => ?_⟩
  · have hold := h.objects b
    rw [deliveries_cons rfl, without]
    show s.deliveries b + _ + _ = _
    by_cases hb : b = a
    · subst hb
      simp only [List.mem_filter, ne_eq, not_true_eq_false, decide_false, Bool.false_eq_true, and_false,
        if_true, if_false]
      rw [if_pos hmem] at hold
      omega
    · rw [if_neg (Ne.symm hb)]
      simp only [List.mem_filter, ne_eq, hb, not_false_eq_true, decide_true, and_true]
      omega
  · have hold := h.threads u
    rw [received_cons rfl]
    show s.received u + _ + (if u ∈ s.waiters.filter (· ≠ t) then 1 else 0) = _
    by_cases hu : u = t
    · subst hu
      simp only [List.mem_filter, ne_eq, not_true_eq_false, decide_false, Bool.false_eq_true, and_false,
        if_true, if_false]
      rw [if_pos ht] at hold
      omega
    · rw [if_neg (Ne.symm hu)]
      simp only [List.mem_filter, ne_eq, hu, not_false_eq_true, decide_true, and_true]
      omega

theorem Served.releaseLoop (h : s.Served q n w) {ts : List ℕ} (hts : s.waiters = ts) :
    ∃ q', (Iomux.releaseLoop oneObject ts s).Served q' n w ∧
      ((Iomux.releaseLoop oneObject ts s).waiters = [] ∨ q' true = []) := by
  induction ts generalizing s q with
  | nil => exact ⟨q, h, .inl hts⟩
  | cons t ts ih =>
    rw [Iomux.releaseLoop]
    split
    · next hnone =>
      rw [h.queues.head, List.head?_eq_none_iff] at hnone
      exact ⟨q, h, .inr hnone⟩
    · next a ha =>
      have hne : q true ≠ [] := by
        intro hnil
        rw [h.queues.head, hnil] at ha
        simp at ha
      rw [if_pos (show s.oneObject t = true from h.queues.signaled.mpr hne)]
      have hnodup := h.nodup
      rw [hts, List.nodup_cons] at hnodup
      refine ih (h.deliver ha (by rw [hts]; exact List.mem_cons_self)) ?_
      show s.waiters.filter (· ≠ t) = ts
      rw [hts, List.filter_cons, if_neg (by simp), List.filter_eq_self]
      intro u hu
      have hut : u ≠ t := by
        rintro rfl
        exact hnodup.1 hu
      simpa using hut

theorem Served.move (h : s.Served q n w) {q' : Bool → List ℕ} {m : ℕ → ℕ} (hq : s'.Queues q')
    (hwaiters : s'.waiters = s.waiters) (hdelivered : s'.delivered = s.delivered)
    (hm : ∀ b, (if b ∈ q' true then 1 else 0) = (if b ∈ q true then 1 else 0) + m b) :
    s'.Served q' (fun b => n b + m b) w := by
  refine ⟨hq, hwaiters ▸ h.nodup, fun b => ?_, fun u => ?_⟩
  · have hold := h.objects b
    rw [deliveries, hdelivered, hm]
    rw [deliveries] at hold
    omega
  · rw [received, hdelivered, hwaiters]
    exact h.threads u

theorem Queues.isReady_iff (h : s.Queues q) (a : ℕ) : a ∈ q true ↔ s.isReady a = true := by
  rw [h.mem, isReady, Bool.and_eq_true]

theorem ready_of_mask {m x e : ℕ} (h : m &&& x ≠ 0) : (e ||| m) &&& x ≠ 0 := by
  rw [Nat.and_comm, land_lor_ne_zero]
  right
  rwa [Nat.and_comm]

theorem Served.queued (h : s.Served q n w) (run : Iomux → ℕ → Bool) (hio : (s.obj a).isIo = true)
    (hevents : events ≠ 0) (context : ℤ) :
    let next := (s.detach a).attach a (s.queuedMask a events) context
    next.Served (withLast (without q a) ((next.obj a).ready) a)
      (fun b => n b + if (IomuxCall.queue run a events context).becomesReady s b then 1 else 0) w ∧
      (next.obj a).objSignaled = (s.obj a).objSignaled ∧
      ((next.obj a).ready = true ↔ s.queuedMask a events &&& (s.obj a).signaled ≠ 0) := by
  intro next
  have hfree : ((s.detach a).obj a).attached = false := by
    rw [detach_obj, if_pos rfl]
  have hself : next.obj a = { s.obj a with
      attached := true, monitored := s.queuedMask a events, context := context } := by
    rw [attach_obj, if_pos rfl, detach_obj, if_pos rfl]
  have hready : (next.obj a).ready = true ↔ s.queuedMask a events &&& (s.obj a).signaled ≠ 0 := by
    rw [hself, IoObject.ready, decide_eq_true_eq]
  have hq := (h.queues.detach a).attach hfree (s.queuedMask a events) context
  refine ⟨h.move hq ?_ ?_ fun b => ?_, by rw [hself], hready⟩
  · rw [attach_waiters, detach_waiters]
  · rw [attach_delivered, detach_delivered]
  · have hstays : s.isReady a = true → (next.obj a).ready = true := by
      intro his
      rw [isReady, Bool.and_eq_true, IoObject.ready, decide_eq_true_eq] at his
      rw [hready, queuedMask, if_pos his.1]
      exact ready_of_mask his.2
    have hbecomes : (IomuxCall.queue run a events context).becomesReady s b = true ↔
        b = a ∧ s.isReady a = false ∧ (next.obj a).ready = true := by
      rw [IomuxCall.becomesReady, hready]
      by_cases hb : b = a
      · subst hb
        simp [hio, hevents]
      · simp [hb, Ne.symm hb]
    simp only [hbecomes, mem_withLast, without, List.mem_filter, h.queues.isReady_iff]
    by_cases hb : b = a
    · subst hb
      cases his : s.isReady b with
      | true => simp [hstays his]
      | false =>
        cases hnext : (next.obj b).ready with
        | true => simp
        | false => simp
    · simp [hb]

theorem Served.same (h : s.Served q n w) (hidle : s.waiters = [] ∨ q true = []) {c : IomuxCall}
    (hno : ∀ b, c.becomesReady s b = false) :
    ∃ q', s.Served q' (fun b => n b + if c.becomesReady s b then 1 else 0) w ∧
      (s.waiters = [] ∨ q' true = []) := by
  refine ⟨q, h.move h.queues rfl rfl fun b => ?_, hidle⟩
  simp [hno]

theorem queueIoobject_eq (run : Iomux → ℕ → Bool) (hio : (s.obj a).isIo = true) (hevents : events ≠ 0) :
    (s.queueIoobject run a events context).1 =
      let next := (s.detach a).attach a (s.queuedMask a events) context
      if (next.obj a).objSignaled then next.releaseWaitingThreads run else next := by
  rw [Iomux.queueIoobject, if_neg (by simp [hio]), if_neg hevents]
  exact apply_ite Prod.fst _ _ _

theorem Served.queueIoobject (h : s.Served q n w) (hidle : s.waiters = [] ∨ q true = [])
    (hdispatched : (IomuxCall.queue oneObject a events context).Dispatched s) :
    ∃ q', (s.queueIoobject oneObject a events context).1.Served q'
      (fun b => n b + if (IomuxCall.queue oneObject a events context).becomesReady s b then 1 else 0) w ∧
      ((s.queueIoobject oneObject a events context).1.waiters = [] ∨ q' true = []) := by
  by_cases hrefused : (s.obj a).isIo = false ∨ events = 0
  · have hsame : (s.queueIoobject oneObject a events context).1 = s := by
      rw [Iomux.queueIoobject]
      obtain hio | hevents := hrefused
      · rw [if_pos hio]
      · rw [if_pos hevents]
        exact (apply_ite Prod.fst _ _ _).trans (ite_self s)
    rw [hsame]
    refine h.same hidle fun b => ?_
    rw [IomuxCall.becomesReady]
    by_cases hb : a = b
    · subst hb
      obtain hio | hevents := hrefused
      · simp [hio]
      · simp [hevents]
    · simp [hb]
  · obtain ⟨hio, hevents⟩ := not_or.mp hrefused
    have hio : (s.obj a).isIo = true := by simpa using hio
    obtain ⟨hserved, hobj, hready⟩ := h.queued oneObject hio hevents context
    rw [queueIoobject_eq oneObject hio hevents]
    dsimp only
    rw [hobj]
    split
    · exact hserved.releaseLoop rfl
    · next hquiet =>
      refine ⟨_, hserved, ?_⟩
      rw [attach_waiters, detach_waiters]
      cases hnext : (((s.detach a).attach a (s.queuedMask a events) context).obj a).ready with
      | true => exact .inl ((hdispatched (hready.mp hnext)).resolve_left hquiet)
      | false =>
        refine hidle.imp_right fun hnil => ?_
        rw [withLast, Function.update_of_ne (by simp), without, hnil]
        rfl

theorem Served.setObj (h : s.Served q n w) (hidle : s.waiters = [] ∨ q true = []) {o : IoObject}
    (hattached : o.attached = (s.obj a).attached) (hready : o.attached = true → o.ready = (s.obj a).ready)
    {c : IomuxCall} (hno : ∀ b, c.becomesReady s b = false) :
    ∃ q', (s.setObj a o).Served q' (fun b => n b + if c.becomesReady s b then 1 else 0) w ∧
      ((s.setObj a o).waiters = [] ∨ q' true = []) := by
  refine ⟨q, h.move (h.queues.setObj hattached hready) rfl rfl fun b => ?_, hidle⟩
  simp [hno]

theorem Served.setIoEvent (h : s.Served q n w) (hidle : s.waiters = [] ∨ q true = []) (a events : ℕ) :
    ∃ q', (s.setIoEvent oneObject a events).Served q'
      (fun b => n b + if (IomuxCall.set oneObject a events).becomesReady s b then 1 else 0) w ∧
      ((s.setIoEvent oneObject a events).waiters = [] ∨ q' true = []) := by
  have hdetached (hat : (s.obj a).attached = false) (b : ℕ) :
      (IomuxCall.set oneObject a events).becomesReady s b = false := by
    rw [IomuxCall.becomesReady]
    by_cases hb : a = b
    · subst hb
      simp [hat]
    · simp [hb]
  rw [Iomux.setIoEvent]
  split
  · next hat =>
    split
    · next hnew =>
      have hq := h.queues.moveToReady (o := { s.obj a with signaled := (s.obj a).signaled ||| events })
        hat hnew.1 hat (by
          simp only [IoObject.ready, decide_eq_true_eq]
          exact land_lor_ne_zero.mpr (.inr hnew.2))
      refine (h.move hq rfl rfl fun b => ?_).releaseLoop rfl
      · rw [IomuxCall.becomesReady]
        simp only [mem_withLast, without, List.mem_filter, h.queues.isReady_iff]
        by_cases hb : b = a
        · subst hb
          simp [isReady, hat, hnew.1, hnew.2]
        · simp [hb, Ne.symm hb]
    · next hold =>
      refine h.setObj hidle ?_ (fun _ => ?_) fun b => ?_
      · rfl
      · simp only [IoObject.ready, decide_eq_decide, land_lor_ne_zero]
        rw [IoObject.ready, decide_eq_false_iff_not] at hold
        tauto
      · rw [IomuxCall.becomesReady]
        by_cases hb : a = b
        · subst hb
          rw [not_and, not_not] at hold
          cases hready : (s.obj a).ready with
          | true => simp
          | false => simp [hold hready]
        · simp [hb]
  · next hat =>
    have hat : (s.obj a).attached = false := by simpa using hat
    have hnever {p : Prop} (hattached : (s.obj a).attached = true) : p := by
      rw [hat] at hattached
      exact absurd hattached (by simp)
    split
    · refine h.setObj hidle ?_ (fun hattached => hnever ?_) (hdetached hat)
      · rfl
      · exact hattached
    · refine h.setObj hidle ?_ (fun hattached => hnever ?_) (hdetached hat)
      · rfl
      · exact hattached

theorem Served.waitForOneObject (h : s.Served q n w) (hidle : s.waiters = [] ∨ q true = [])
    (ht : t ∉ s.waiters) :
    ∃ q', (s.waitForOneObject t).Served q' n (Function.update w t (w t + 1)) ∧
      ((s.waitForOneObject t).waiters = [] ∨ q' true = []) := by
  have hbegun (u : ℕ) : Function.update w t (w t + 1) u = w u + if t = u then 1 else 0 := by
    by_cases hu : t = u
    · subst hu
      simp
    · rw [Function.update_of_ne (Ne.symm hu), if_neg hu, Nat.add_zero]
  rw [Iomux.waitForOneObject]
  split
  · next hsignaled =>
    have hne := h.queues.signaled.mp hsignaled
    have hempty := hidle.resolve_right hne
    split
    · next hnone =>
      rw [h.queues.head, List.head?_eq_none_iff] at hnone
      exact absurd hnone hne
    · next a ha =>
      have hmem : a ∈ q true := by
        rw [h.queues.head] at ha
        exact List.mem_of_mem_head? ha
      have hd := h.queues.detach a
      have hwaiters : (s.detach a).waiters = [] := (detach_waiters s a).trans hempty
      refine ⟨without q a, ⟨⟨hd.family, hd.mem, hd.signaled⟩, ?_, fun b => ?_, fun u => ?_⟩, .inl hwaiters⟩
      · rw [hwaiters]
        exact List.nodup_nil
      · have hold := h.objects b
        rw [deliveries_cons rfl, without]
        show s.deliveries b + _ + _ = _
        by_cases hb : b = a
        · subst hb
          rw [if_pos hmem] at hold
          simpa using hold
        · simpa [hb, Ne.symm hb] using hold
      · have hold := h.threads u
        rw [received_cons rfl, hbegun]
        show s.received u + _ + (if u ∈ (s.detach a).waiters then 1 else 0) = _
        rw [hwaiters]
        rw [hempty] at hold
        simp only [List.not_mem_nil] at hold ⊢
        omega
  · next hquiet =>
    have hnil : q true = [] := by
      by_contra hne
      exact hquiet (h.queues.signaled.mpr hne)
    refine ⟨q, ⟨⟨h.queues.family, h.queues.mem, h.queues.signaled⟩, ?_, h.objects, fun u => ?_⟩, .inr hnil⟩
    · exact List.nodup_append.mpr ⟨h.nodup, List.nodup_singleton t, by
        rintro u hu v hv rfl
        exact ht (List.mem_singleton.mp hv ▸ hu)⟩
    · have hold := h.threads u
      show s.received u + (if u ∈ s.waiters ++ [t] then 1 else 0) = _
      by_cases hu : t = u
      · subst hu
        rw [if_neg ht] at hold
        simp
        omega
      · simpa [hu, Ne.symm hu] using hold

theorem Served.giveUp (h : s.Served q n w) (hidle : s.waiters = [] ∨ q true = []) (ht : t ∈ s.waiters) :
    (s.giveUp t).Served q n (Function.update w t (w t - 1)) ∧
      ((s.giveUp t).waiters = [] ∨ q true = []) := by
  refine ⟨⟨⟨h.queues.family, h.queues.mem, h.queues.signaled⟩, h.nodup.filter _, h.objects, fun u => ?_⟩, ?_⟩
  · have hold := h.threads u
    show s.received u + (if u ∈ s.waiters.filter (· ≠ t) then 1 else 0) = _
    by_cases hu : u = t
    · subst hu
      rw [if_pos ht] at hold
      simp
      omega
    · simpa [hu] using hold
  · refine hidle.imp_left fun hnil => ?_
    show s.waiters.filter (· ≠ t) = []
    rw [hnil]
    rfl

theorem Initial.served (h : s.Initial) : s.Served (fun _ => []) (fun _ => 0) fun _ => 0 := by
  refine ⟨h.queues, ?_, fun a => ?_, fun t => ?_⟩
  · rw [h.waiters]
    exact List.nodup_nil
  · simp [deliveries, h.delivered]
  · simp [received, h.delivered, h.waiters]

end Iomux

namespace IomuxRun
open Iomux
variable {s : Iomux} {n w : ℕ → ℕ}

theorem served (hrun : IomuxRun (fun s c => c.Waiting s ∧ c.Dispatched s) s n w) :
    ∃ q, s.Served q n w ∧ (s.waiters = [] ∨ q true = []) := by
  induction hrun with
  | start h => exact ⟨_, h.served, .inr rfl⟩
  | @step s s' n w c _ hok hs ih =>
    obtain ⟨q, h, hidle⟩ := ih
    obtain ⟨hwaiting, hdispatched⟩ := hok
    cases c with
    | queue run a events context =>
      obtain rfl := Option.some.inj hs
      obtain rfl : run = oneObject := hwaiting
      exact h.queueIoobject hidle hdispatched
    | set run a events =>
      obtain rfl := Option.some.inj hs
      obtain rfl : run = oneObject := hwaiting
      exact h.setIoEvent hidle a events
    | wait t =>
      obtain rfl := Option.some.inj hs
      exact h.waitForOneObject hidle hwaiting
    | giveUp t =>
      obtain rfl := Option.some.inj hs
      exact ⟨q, h.giveUp hidle hwaiting⟩
    | detach a => exact hwaiting.elim
    | clear a events => exact hwaiting.elim
    | dequeue => exact hwaiting.elim

/-- No thread waits while an object is ready; every object that became ready is on the ready queue or was
delivered, each time once, and every thread that waited got one object or is still waiting. -/
theorem no_lost_wakeup (hrun : IomuxRun (fun s c => c.Waiting s ∧ c.Dispatched s) s n w) :
    ∃ ready : List ℕ, IsList s.links (s.ends true) ready ∧
      (∀ a, a ∈ ready ↔ (s.obj a).attached = true ∧ (s.obj a).monitored &&& (s.obj a).signaled ≠ 0) ∧
      (s.waiters = [] ∨ ready = []) ∧
      (∀ a, s.deliveries a + (if a ∈ ready then 1 else 0) = n a) ∧
      ∀ t, s.received t + (if t ∈ s.waiters then 1 else 0) = w t := by
  obtain ⟨q, h, hidle⟩ := hrun.served
  refine ⟨q true, h.queues.family.lists true, fun a => ?_, hidle, h.objects, h.threads⟩
  rw [h.queues.mem, IoObject.ready, decide_eq_true_eq]

/-- The thread 5 waits, and a file for which a write event is known is queued. -/
def oneWriter (objSignaled : Bool) : Iomux :=
  { oneFile with obj := fun _ => ⟨true, false, 0, 2, 0, objSignaled⟩ }

theorem oneWriter_initial (objSignaled : Bool) : (oneWriter objSignaled).Initial :=
  ⟨rfl, rfl, fun _ => rfl, rfl, rfl⟩

theorem oneWriter_run (ok : Iomux → IomuxCall → Prop) (g : Bool) (hwait : ok (oneWriter g) (.wait 5))
    (hqueue : ok ((oneWriter g).waitForOneObject 5) (.queue oneObject 1 2 7)) :
    ∃ n w, IomuxRun ok (((oneWriter g).waitForOneObject 5).queueIoobject oneObject 1 2 7).1 n w :=
  ⟨_, _, ((IomuxRun.start (oneWriter_initial g)).step hwait rfl).step hqueue rfl⟩

/-- A file that is signaled itself is delivered when it is queued. -/
theorem no_lost_wakeup_writer :
    let s := (((oneWriter true).waitForOneObject 5).queueIoobject oneObject 1 2 7).1
    ∃ n w, IomuxRun (fun s c => c.Waiting s ∧ c.Dispatched s) s n w ∧ ∃ ready : List ℕ,
      IsList s.links (s.ends true) ready ∧ (s.waiters = [] ∨ ready = []) ∧ s.received 5 = 1 := by
  obtain ⟨n, w, hrun⟩ := oneWriter_run (fun s c => c.Waiting s ∧ c.Dispatched s) true
    ⟨List.not_mem_nil, trivial⟩ ⟨rfl, fun _ => .inl rfl⟩
  obtain ⟨ready, hlist, -, hidle, -⟩ := no_lost_wakeup hrun
  exact ⟨n, w, hrun, ready, hlist, hidle, by decide⟩

/-- The file that is queued is ready, but it is not signaled itself: the thread goes on waiting. -/
theorem ready_while_waiting : ¬ ∀ (s : Iomux) (n w : ℕ → ℕ), IomuxRun (fun s c => c.Waiting s) s n w →
    ∃ ready, IsList s.links (s.ends true) ready ∧ (s.waiters = [] ∨ ready = []) := by
  intro h
  obtain ⟨n, w, hrun⟩ := oneWriter_run (fun s c => c.Waiting s) false List.not_mem_nil rfl
  obtain ⟨ready, hlist, hidle⟩ := h _ n w hrun
  have hhead : ready.head? = some 1 := by
    rw [← hlist.head]
    decide
  obtain hwaiters | hnil := hidle
  · exact absurd hwaiters (by decide)
  · rw [hnil] at hhead
    simp at hhead

end IomuxRun

end SimpleKernel.Object
