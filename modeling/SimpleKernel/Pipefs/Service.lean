import SimpleKernel.Pipefs.Pipe
import Mathlib.Data.List.Nodup

/-! What the calls of a pipe keep, for any order of calls, interrupts and threads that run. -/
namespace SimpleKernel.Pipefs
open Transition

/-- The thread at one end when bytes go from `t` to `r`. -/
def Side.pick (r t : ℕ) : Side → ℕ
  | .read => r
  | .write => t

/-- The request of a thread that is queued at the end `k`. -/
structure Thread.Requests (h : Thread) (k : Side) : Prop where
  side : h.side = k
  pos : 0 < h.req.size
  bound : h.size < 2 ^ 31
  reader : k = .read → h.moved = [] ∧ h.req.size = h.size
  writer : k = .write →
    h.req.size = h.req.buffer.length ∧ h.moved ++ h.req.buffer = h.data ∧ h.size = h.data.length

/-- The request of a thread was served and taken from the queue. -/
structure Thread.Served (h : Thread) : Prop where
  bound : h.size < 2 ^ 31
  reader : h.side = .read → h.req.rc = h.moved.length ∧ 0 < h.moved.length ∧ h.moved.length ≤ h.size
  writer : h.side = .write → h.req.rc = 0 ∧ h.moved = h.data ∧ h.size = h.data.length

/-- How a thread and its places in the queues fit together. -/
inductive Thread.Fits (h : Thread) (q : Side → Prop) : Prop
  | outside : h.state = .outside → h.moved = [] → (∀ k, ¬ q k) → Fits h q
  | running : h.state = .running → (∀ k, ¬ q k) → Fits h q
  | waiting {k : Side} : h.state = .waiting → h.interrupted = false → (∀ j, q j ↔ j = k) → h.Requests k →
      Fits h q
  | interrupted {k : Side} : h.state = .ready → h.interrupted = true → h.moved = [] → (∀ j, q j ↔ j = k) →
      h.Requests k → Fits h q
  | served : h.state = .ready → h.interrupted = false → (∀ k, ¬ q k) → h.Served → Fits h q

/-- A call tells how many bytes went through it, or it failed and no byte did. -/
def Result.Exact (r : Result) : Prop :=
  (r.rc = r.moved.length ∧ (r.side = .write → r.moved <+: r.data)) ∨ (r.rc < 0 ∧ r.moved = [])

/-- The state between two steps of the calls: `flight` are the bytes that a running read has taken. -/
structure Pipe.Sound (s : Pipe) (flight : List UInt8) : Prop where
  linked : s.linked = true
  alternate : s.queue .read = [] ∨ s.queue .write = []
  nodup : ∀ k, (s.queue k).Nodup
  fits : ∀ t, (s.thread t).Fits fun k => t ∈ s.queue k
  results : ∀ r ∈ s.results, r.Exact
  streams : Pipe.stream (s.log .write) = Pipe.stream (s.log .read) ++ flight
  threads : ∀ k t, s.passed k t = s.returned k t ++ s.current k t

namespace Pipe
variable {s : Pipe} {f : List UInt8} {k : Side} {t u : ℕ} {h : Thread}

@[simp] theorem stream_nil : stream [] = [] := rfl

@[simp] theorem stream_append (l l' : List (ℕ × List UInt8)) : stream (l ++ l') = stream l ++ stream l' :=
  List.flatMap_append

@[simp] theorem stream_single (e : ℕ × List UInt8) : stream [e] = e.2 := by
  simp [stream]

theorem setThread_self (s : Pipe) (t : ℕ) (h : Thread) : (s.setThread t h).thread t = h :=
  Function.update_self _ _ _

theorem setThread_of_ne (s : Pipe) (h : Thread) (hu : u ≠ t) : (s.setThread t h).thread u = s.thread u :=
  Function.update_of_ne hu _ _

@[simp] theorem setThread_queue (s : Pipe) (t : ℕ) (h : Thread) : (s.setThread t h).queue = s.queue := rfl

@[simp] theorem setThread_log (s : Pipe) (t : ℕ) (h : Thread) : (s.setThread t h).log = s.log := rfl

@[simp] theorem record_thread (s : Pipe) (k : Side) (t : ℕ) (bytes : List UInt8) :
    (s.record k t bytes).thread = s.thread := rfl

theorem setQueue_self (s : Pipe) (k : Side) (ts : List ℕ) : (s.setQueue k ts).queue k = ts :=
  Function.update_self _ _ _

theorem setQueue_of_ne (s : Pipe) (ts : List ℕ) {j : Side} (hj : j ≠ k) : (s.setQueue k ts).queue j = s.queue j :=
  Function.update_of_ne hj _ _

theorem record_self (s : Pipe) (k : Side) (bytes : List UInt8) :
    (s.record k t bytes).log k = s.log k ++ [(t, bytes)] :=
  Function.update_self _ _ _

theorem record_of_ne (s : Pipe) (bytes : List UInt8) {j : Side} (hj : j ≠ k) :
    (s.record k t bytes).log j = s.log j :=
  Function.update_of_ne hj _ _

theorem Sound.free (hs : s.Sound f) (ht : (s.thread t).state = .running ∨ (s.thread t).state = .outside)
    (k : Side) : t ∉ s.queue k := by
  cases hs.fits t with
  | outside _ _ hq => exact hq k
  | running _ hq => exact hq k
  | waiting hstate => simp [hstate] at ht
  | interrupted hstate => simp [hstate] at ht
  | served hstate => simp [hstate] at ht

theorem Sound.requests (hs : s.Sound f) (ht : t ∈ s.queue k) : (s.thread t).Requests k := by
  cases hs.fits t with
  | outside _ _ hq => exact absurd ht (hq k)
  | running _ hq => exact absurd ht (hq k)
  | waiting _ _ hq hreq => exact (hq k).mp ht ▸ hreq
  | interrupted _ _ _ hq hreq => exact (hq k).mp ht ▸ hreq
  | served _ _ hq => exact absurd ht (hq k)

theorem Sound.waits (hs : s.Sound f) (ht : t ∈ s.queue k) (hno : (s.thread t).interrupted = false) :
    (s.thread t).state = .waiting := by
  cases hs.fits t with
  | outside _ _ hq => exact absurd ht (hq k)
  | running _ hq => exact absurd ht (hq k)
  | waiting hstate => exact hstate
  | interrupted _ hyes => simp [hno] at hyes
  | served _ _ hq => exact absurd ht (hq k)

theorem Sound.setThread (hs : s.Sound f) (hfits : h.Fits fun k => t ∈ s.queue k)
    (hcurrent : ∀ k, (if h.side = k then h.moved else []) = s.current k t) : (s.setThread t h).Sound f where
  linked := hs.linked
  alternate := hs.alternate
  nodup := hs.nodup
  fits u := by
    by_cases hu : u = t
    · subst hu
      rw [setThread_self]
      exact hfits
    · rw [setThread_of_ne s h hu]
      exact hs.fits u
  results := hs.results
  streams := hs.streams
  threads k u := by
    have hold := hs.threads k u
    have hnow : (s.setThread t h).current k u = s.current k u := by
      rw [current]
      by_cases hu : u = t
      · subst hu
        rw [setThread_self]
        exact hcurrent k
      · rw [setThread_of_ne s h hu, current]
    rw [hnow]
    exact hold

theorem Sound.begin (hs : s.Sound f) (ht : (s.thread t).state = .outside) (k : Side) (size : ℕ)
    (data : List UInt8) : (s.begin k t size data).Sound f := by
  have hmoved : (s.thread t).moved = [] := by
    cases hs.fits t with
    | outside _ hmoved => exact hmoved
    | running hstate => simp [hstate] at ht
    | waiting hstate => simp [hstate] at ht
    | interrupted hstate => simp [hstate] at ht
    | served hstate => simp [hstate] at ht
  refine hs.setThread (.running rfl (hs.free (.inr ht))) fun j => ?_
  rw [current, hmoved]
  simp

theorem Sound.leave (hs : s.Sound f) {rc : ℤ} (ht : (s.thread t).state = .running)
    (hrc : Result.Exact ⟨t, (s.thread t).side, (s.thread t).size, (s.thread t).data, rc, (s.thread t).moved⟩) :
    (s.leave t rc).Sound f where
  linked := hs.linked
  alternate := hs.alternate
  nodup := hs.nodup
  fits u := by
    by_cases hu : u = t
    · subst hu
      have hthread : (s.leave u rc).thread u = { s.thread u with state := .outside, moved := [] } :=
        setThread_self _ _ _
      rw [hthread]
      exact .outside rfl rfl (hs.free (.inl ht))
    · have hthread : (s.leave t rc).thread u = s.thread u := setThread_of_ne _ _ hu
      rw [hthread]
      exact hs.fits u
  results r hr := by
    rcases List.mem_append.mp hr with hr | hr
    · exact hs.results r hr
    · rw [List.mem_singleton.mp hr]
      exact hrc
  streams := hs.streams
  threads k u := by
    have hold := hs.threads k u
    have hreturned : (s.leave t rc).returned k u =
        s.returned k u ++ if t = u ∧ (s.thread t).side = k then (s.thread t).moved else [] := by
      rw [returned, returned]
      show (List.filter _ (s.results ++ _)).flatMap _ = _
      rw [List.filter_append, List.flatMap_append]
      by_cases hboth : t = u ∧ (s.thread t).side = k
      · simp [hboth.1, ← hboth.2]
      · have hfalse : (t == u && (s.thread t).side == k) = false := by simpa using hboth
        simp only [hfalse, List.filter_cons, if_neg hboth]
        rfl
    have hcurrent : (s.leave t rc).current k u = if u = t then [] else s.current k u := by
      rw [current]
      by_cases hu : u = t
      · subst hu
        have hthread : (s.leave u rc).thread u = { s.thread u with state := .outside, moved := [] } :=
          setThread_self _ _ _
        rw [hthread]
        simp
      · have hthread : (s.leave t rc).thread u = s.thread u := setThread_of_ne _ _ hu
        rw [hthread, if_neg hu, current]
    show s.passed k u = _
    rw [hold, hreturned, hcurrent]
    by_cases hu : u = t
    · subst hu
      rw [current]
      simp
    · rw [if_neg hu, if_neg fun hboth => hu hboth.1.symm, List.append_nil]

theorem finish_failed (s : Pipe) (t : ℕ) {rc : ℤ} (hrc : rc < 0) :
    s.finish t rc = (s.cancelRequest (s.thread t).side t).leave t rc := by
  rw [finish, if_pos hrc, if_pos hrc]
  cases (s.thread t).side with
  | read => rfl
  | write =>
    rw [if_pos hrc]

theorem finish_served (s : Pipe) (t : ℕ) :
    s.finish t 0 = s.leave t (match (s.thread t).side with
      | .read => (s.thread t).req.rc
      | .write => if (s.thread t).req.rc < 0 then (s.thread t).req.rc else toInt (s.thread t).size) := by
  rw [finish]
  cases (s.thread t).side with
  | read => rfl
  | write => rfl

theorem stream_filter_append (l l' : List (ℕ × List UInt8)) (p : ℕ × List UInt8 → Bool) :
    stream ((l ++ l').filter p) = stream (l.filter p) ++ stream (l'.filter p) := by
  rw [List.filter_append, stream_append]

theorem Sound.enqueue (hs : s.Sound f) (ht : (s.thread t).state = .running) (hother : ∀ j ≠ k, s.queue j = [])
    (hstate : h.state = .waiting) (hclear : h.interrupted = false) (hreq : h.Requests k)
    (hside : h.side = (s.thread t).side) (hmoved : h.moved = (s.thread t).moved) :
    ((s.setQueue k (s.queue k ++ [t])).setThread t h).Sound f := by
  have hfree := hs.free (.inl ht)
  have hmem (j : Side) (u : ℕ) : u ∈ (s.setQueue k (s.queue k ++ [t])).queue j ↔ u ∈ s.queue j ∨ u = t ∧ j = k := by
    by_cases hj : j = k
    · subst hj
      rw [setQueue_self]
      simp
    · rw [setQueue_of_ne s _ hj]
      simp [hj]
  refine ⟨hs.linked, ?_, fun j => ?_, fun u => ?_, hs.results, hs.streams, fun j u => ?_⟩
  · show (s.setQueue k (s.queue k ++ [t])).queue .read = [] ∨ (s.setQueue k (s.queue k ++ [t])).queue .write = []
    cases k with
    | read => exact .inr ((setQueue_of_ne s _ (by simp)).trans (hother _ (by simp)))
    | write => exact .inl ((setQueue_of_ne s _ (by simp)).trans (hother _ (by simp)))
  · show ((s.setQueue k (s.queue k ++ [t])).queue j).Nodup
    by_cases hj : j = k
    · subst hj
      rw [setQueue_self]
      exact List.nodup_append.mpr ⟨hs.nodup j, List.nodup_singleton t, by
        rintro u hu v hv rfl
        exact hfree j (List.mem_singleton.mp hv ▸ hu)⟩
    · rw [setQueue_of_ne s _ hj]
      exact hs.nodup j
  · show (((s.setQueue k (s.queue k ++ [t])).setThread t h).thread u).Fits
      fun j => u ∈ (s.setQueue k (s.queue k ++ [t])).queue j
    simp only [hmem]
    by_cases hu : u = t
    · subst hu
      rw [setThread_self]
      exact .waiting hstate hclear (fun j => by simp [hfree j]) hreq
    · rw [setThread_of_ne _ h hu]
      simp only [hu, false_and, or_false]
      exact hs.fits u
  · have hold := hs.threads j u
    have hnow : ((s.setQueue k (s.queue k ++ [t])).setThread t h).current j u = s.current j u := by
      rw [current, current]
      by_cases hu : u = t
      · subst hu
        rw [setThread_self, hside, hmoved]
      · rw [setThread_of_ne _ h hu]
        rfl
    rw [hnow]
    exact hold

theorem Sound.cancelRequest (hs : s.Sound f) (hq : ∀ j, t ∈ s.queue j ↔ j = k) (hstate : h.state = .running)
    (hside : h.side = (s.thread t).side) (hmoved : h.moved = (s.thread t).moved) :
    ((s.setThread t h).cancelRequest k t).Sound f := by
  have hmem (j : Side) (u : ℕ) :
      u ∈ ((s.setThread t h).cancelRequest k t).queue j ↔ u ∈ s.queue j ∧ u ≠ t := by
    by_cases hj : j = k
    · subst hj
      rw [Pipe.cancelRequest, setQueue_self]
      simp [Pipe.setThread]
    · rw [Pipe.cancelRequest, setQueue_of_ne _ _ hj]
      refine ⟨fun hu => ⟨hu, ?_⟩, fun hu => hu.1⟩
      rintro rfl
      exact hj ((hq j).mp hu)
  have hsub (j : Side) : (((s.setThread t h).cancelRequest k t).queue j).Sublist (s.queue j) := by
    by_cases hj : j = k
    · subst hj
      rw [Pipe.cancelRequest, setQueue_self]
      exact List.filter_sublist
    · rw [Pipe.cancelRequest, setQueue_of_ne _ _ hj]
      exact List.Sublist.refl _
  have hthread (u : ℕ) : ((s.setThread t h).cancelRequest k t).thread u = if u = t then h else s.thread u :=
    Function.update_apply _ _ _ _
  refine ⟨hs.linked, ?_, fun j => (hs.nodup j).sublist (hsub j), fun u => ?_, hs.results, hs.streams,
    fun j u => ?_⟩
  · refine hs.alternate.imp (fun hnil => ?_) fun hnil => ?_
    · exact List.sublist_nil.mp (hnil ▸ hsub .read)
    · exact List.sublist_nil.mp (hnil ▸ hsub .write)
  · rw [hthread]
    simp only [hmem]
    by_cases hu : u = t
    · subst hu
      rw [if_pos rfl]
      exact .running hstate (by simp)
    · simp only [ne_eq, hu, not_false_eq_true, and_true]
      exact hs.fits u
  · have hold := hs.threads j u
    have hnow : ((s.setThread t h).cancelRequest k t).current j u = s.current j u := by
      rw [current, hthread, current]
      by_cases hu : u = t
      · rw [if_pos hu, hside, hmoved, hu]
      · rw [if_neg hu]
    rw [hnow]
    exact hold

theorem cancelRequest_enqueue (s : Pipe) (h : Thread) (hfree : t ∉ s.queue k) :
    ((s.setQueue k (s.queue k ++ [t])).setThread t h).cancelRequest k t = s.setThread t h := by
  have hqueue : ((s.setQueue k (s.queue k ++ [t])).setThread t h).queue =
      Function.update s.queue k (s.queue k ++ [t]) := rfl
  have hfilter : (s.queue k ++ [t]).filter (· ≠ t) = s.queue k := by
    rw [List.filter_append, List.filter_eq_self.mpr]
    · simp
    · intro u hu
      have hut : u ≠ t := by
        rintro rfl
        exact hfree hu
      simpa using hut
  rw [Pipe.cancelRequest, hqueue, Function.update_self, hfilter]
  simp only [Pipe.setThread, Pipe.setQueue, Function.update_idem, Function.update_eq_self]

theorem Sound.wait (hs : s.Sound f) (ht : (s.thread t).state = .running) (hside : (s.thread t).side = k)
    (hother : ∀ j ≠ k, s.queue j = []) {buffer : List UInt8} {size : ℕ}
    (hreq : { s.thread t with req := ⟨buffer, size, -EINTR⟩ : Thread }.Requests k) {signals : Bool}
    (hsignals : signals = true → (s.thread t).moved = []) : (s.wait k t buffer size signals).Sound f := by
  subst hside
  rw [Pipe.wait]
  split
  · next hyes =>
    rw [finish_failed _ _ EINTR_neg, setThread_self, cancelRequest_enqueue _ _ (hs.free (.inl ht) _)]
    have hset : (s.setThread t { s.thread t with req := ⟨buffer, size, -EINTR⟩ }).Sound f :=
      hs.setThread (.running ht (hs.free (.inl ht))) fun _ => rfl
    refine hset.leave ?_ ?_
    · rw [setThread_self]
      exact ht
    · rw [setThread_self]
      exact .inr ⟨EINTR_neg, hsignals hyes⟩
  · exact hs.enqueue ht hother rfl rfl ⟨hreq.side, hreq.pos, hreq.bound, hreq.reader, hreq.writer⟩ rfl rfl

theorem Sound.resume {s' : Pipe} (hs : s.Sound f) (hresume : s.resume t = some s') : s'.Sound f := by
  rw [Pipe.resume] at hresume
  split at hresume
  · next hready =>
    obtain rfl := Option.some.inj hresume
    cases hs.fits t with
    | outside hstate => simp [hready] at hstate
    | running hstate => simp [hready] at hstate
    | waiting hstate => simp [hready] at hstate
    | @interrupted k _ hyes hmoved hq hreq =>
      have hside := hreq.side
      subst hside
      rw [if_pos hyes, finish_failed _ _ EINTR_neg, setThread_self]
      have hcancel := hs.cancelRequest (h := { s.thread t with state := .running, interrupted := false })
        hq rfl rfl rfl
      have hself : ((s.setThread t { s.thread t with state := .running, interrupted := false }).cancelRequest
          (s.thread t).side t).thread t = { s.thread t with state := .running, interrupted := false } :=
        setThread_self _ _ _
      refine hcancel.leave ?_ ?_
      · rw [hself]
      · rw [hself]
        exact .inr ⟨EINTR_neg, hmoved⟩
    | served _ hno hq hserved =>
      rw [if_neg (by simp [hno]), finish_served]
      have hset : (s.setThread t { s.thread t with state := .running, interrupted := false }).Sound f :=
        hs.setThread (.running rfl hq) fun _ => rfl
      refine hset.leave ?_ ?_
      · rw [setThread_self]
      · rw [setThread_self]
        left
        cases hside : (s.thread t).side with
        | read =>
          exact ⟨(hserved.reader hside).1, by simp⟩
        | write =>
          obtain ⟨hrc, hmoved, hsize⟩ := hserved.writer hside
          rw [hrc, toInt_eq hserved.bound, hsize, hmoved]
          exact ⟨rfl, fun _ => List.prefix_refl _⟩
  · simp at hresume

theorem Sound.interruptThread (hs : s.Sound f)
    (hwhole : (s.thread t).state = .waiting → (s.thread t).req.size = (s.thread t).size) :
    (s.interruptThread t).Sound f := by
  rw [Pipe.interruptThread]
  split
  · next hwaiting =>
    cases hs.fits t with
    | outside hstate => simp [hwaiting] at hstate
    | running hstate => simp [hwaiting] at hstate
    | @waiting k _ _ hq hreq =>
      have hmoved : (s.thread t).moved = [] := by
        cases k with
        | read => exact (hreq.reader rfl).1
        | write =>
          obtain ⟨hsize, hdata, htotal⟩ := hreq.writer rfl
          rw [hwhole hwaiting, htotal, ← hdata, List.length_append] at hsize
          exact List.eq_nil_of_length_eq_zero (by omega)
      exact hs.setThread (.interrupted rfl rfl hmoved hq
        ⟨hreq.side, hreq.pos, hreq.bound, hreq.reader, hreq.writer⟩) fun _ => rfl
    | interrupted hstate => simp [hwaiting] at hstate
    | served hstate => simp [hwaiting] at hstate
  · exact hs

theorem stream_filter_single (u : ℕ) (bytes : List UInt8) (t : ℕ) :
    stream ([(u, bytes)].filter fun e => e.1 == t) = if u = t then bytes else [] := by
  by_cases hu : u = t
  · simp [hu]
  · simp [hu]

theorem give_log_read (s : Pipe) (r t : ℕ) (bytes : List UInt8) :
    (s.give r t bytes).log .read = s.log .read ++ [(r, bytes)] := by
  show ((s.record .write t bytes).record .read r bytes).log .read = _
  rw [record_self, record_of_ne s bytes (by simp)]

theorem give_log_write (s : Pipe) (r t : ℕ) (bytes : List UInt8) :
    (s.give r t bytes).log .write = s.log .write ++ [(t, bytes)] := by
  show ((s.record .write t bytes).record .read r bytes).log .write = _
  rw [record_of_ne _ bytes (by simp), record_self]

theorem Sound.give (hs : s.Sound []) {r : ℕ} {rs : List ℕ} (bytes : List UInt8)
    (ht : (s.thread t).state = .running) (hside : (s.thread t).side = .write)
    (hqueue : s.queue .read = r :: rs) (hclear : (s.thread r).interrupted = false) (hpos : 0 < bytes.length)
    (hlen : bytes.length ≤ (s.thread r).req.size) : ((s.setQueue .read rs).give r t bytes).Sound [] := by
  have hmem : r ∈ s.queue .read := by
    rw [hqueue]
    exact List.mem_cons_self
  have hreq := hs.requests hmem
  have hwaits := hs.waits hmem hclear
  obtain ⟨hnone, hwhole⟩ := hreq.reader rfl
  have hne : r ≠ t := by
    rintro rfl
    exact hs.free (.inl ht) _ hmem
  have hnodup := hs.nodup .read
  rw [hqueue, List.nodup_cons] at hnodup
  have hlog (k : Side) : ((s.setQueue .read rs).give r t bytes).log k =
      s.log k ++ [(k.pick r t, bytes)] := by
    cases k with
    | read => exact give_log_read _ r t bytes
    | write => exact give_log_write _ r t bytes
  have hr : ((s.setQueue .read rs).give r t bytes).thread r =
      { s.thread r with
        state := .ready
        req := { (s.thread r).req with buffer := bytes, rc := toInt bytes.length }
        moved := bytes } := by
    refine (setThread_self _ _ _).trans ?_
    rw [setThread_of_ne _ _ hne]
    show Thread.markReady { s.thread r with
      req := { (s.thread r).req with buffer := bytes, rc := toInt bytes.length }
      moved := (s.thread r).moved ++ bytes } = _
    rw [hnone, List.nil_append, Thread.markReady, if_pos hwaits]
  have ht' : ((s.setQueue .read rs).give r t bytes).thread t =
      { s.thread t with moved := (s.thread t).moved ++ bytes } :=
    (setThread_of_ne _ _ hne.symm).trans (setThread_self _ _ _)
  have hthread (u : ℕ) (hur : u ≠ r) (hut : u ≠ t) :
      ((s.setQueue .read rs).give r t bytes).thread u = s.thread u :=
    (setThread_of_ne _ _ hur).trans (setThread_of_ne _ _ hut)
  have hq (k : Side) (u : ℕ) : u ∈ (s.setQueue .read rs).queue k ↔ u ∈ s.queue k ∧ (k = .read → u ≠ r) := by
    cases k with
    | read =>
      rw [hqueue, List.mem_cons]
      constructor
      · intro hu
        refine ⟨.inr hu, fun _ => ?_⟩
        rintro rfl
        exact hnodup.1 hu
      · rintro ⟨rfl | hu, hur⟩
        · exact absurd rfl (hur rfl)
        · exact hu
    | write =>
      rw [setQueue_of_ne s _ (by simp)]
      simp
  have hwrite : (s.setQueue .read rs).queue .write = s.queue .write := setQueue_of_ne s rs (by simp)
  refine ⟨hs.linked, .inr ?_, fun k => ?_, fun u => ?_, hs.results, ?_, fun k u => ?_⟩
  · refine hwrite.trans (hs.alternate.resolve_left ?_)
    simp [hqueue]
  · cases k with
    | read =>
      exact hnodup.2
    | write =>
      exact hs.nodup .write
  · show Thread.Fits _ fun k => u ∈ (s.setQueue .read rs).queue k
    simp only [hq]
    by_cases hur : u = r
    · subst hur
      rw [hr]
      refine .served rfl hclear (fun k hk => ?_) ⟨hreq.bound, fun _ => ?_, fun hwrite => ?_⟩
      · cases hs.fits u with
        | outside hstate => simp [hwaits] at hstate
        | running hstate => simp [hwaits] at hstate
        | waiting _ _ hj =>
          have hkk := ((hj k).mp hk.1).trans ((hj .read).mp hmem).symm
          exact hk.2 hkk rfl
        | interrupted hstate => simp [hwaits] at hstate
        | served hstate => simp [hwaits] at hstate
      · have hbound := hreq.bound
        exact ⟨toInt_eq (by omega), hpos, hwhole ▸ hlen⟩
      · have hread := hreq.side
        rw [hread] at hwrite
        simp at hwrite
    · by_cases hut : u = t
      · subst hut
        rw [ht']
        exact .running ht fun k hk => hs.free (.inl ht) k hk.1
      · rw [hthread u hur hut]
        simp only [ne_eq, hur, not_false_eq_true, implies_true, and_true]
        exact hs.fits u
  · rw [hlog, hlog, stream_append, hs.streams]
    simp
  · have hold := hs.threads k u
    have hpassed : ((s.setQueue .read rs).give r t bytes).passed k u =
        s.passed k u ++ if k.pick r t = u then bytes else [] := by
      rw [passed, hlog, stream_filter_append, stream_filter_single]
      rfl
    have hcurrent : ((s.setQueue .read rs).give r t bytes).current k u =
        s.current k u ++ if k.pick r t = u then bytes else [] := by
      rw [current, current]
      by_cases hur : u = r
      · subst hur
        rw [hr, hnone]
        cases k with
        | read => simp [hreq.side, Side.pick]
        | write => simp [hreq.side, hne.symm, Side.pick]
      · by_cases hut : u = t
        · subst hut
          rw [ht']
          cases k with
          | read => simp [hside, hne, Side.pick]
          | write => simp [hside, Side.pick]
        · rw [hthread u hur hut]
          cases k with
          | read => simp [Ne.symm hur, Side.pick]
          | write => simp [Ne.symm hut, Side.pick]
    rw [hpassed, hold, hcurrent, List.append_assoc]
    rfl

theorem Sound.pass (hs : s.Sound f) {w : ℕ} {ws ws' : List ℕ} (bytes : List UInt8)
    (hqueue : s.queue .write = w :: ws) (hws : ws' = w :: ws ∨ ws' = ws)
    (hfits : h.Fits fun k => w ∈ (s.setQueue .write ws').queue k) (hside : h.side = .write)
    (hmoved : h.moved = (s.thread w).moved ++ bytes) :
    (((s.setQueue .write ws').setThread w h).record .write w bytes).Sound (f ++ bytes) := by
  have hmem : w ∈ s.queue .write := by
    rw [hqueue]
    exact List.mem_cons_self
  have hreq := hs.requests hmem
  have hnodup := hs.nodup .write
  rw [hqueue] at hnodup
  have hread : (s.setQueue .write ws').queue .read = s.queue .read := setQueue_of_ne s ws' (by simp)
  have hq (k : Side) (u : ℕ) (hu : u ≠ w) : u ∈ (s.setQueue .write ws').queue k ↔ u ∈ s.queue k := by
    cases k with
    | read => rw [hread]
    | write =>
      rw [setQueue_self, hqueue]
      obtain rfl | rfl := hws
      · rfl
      · simp [hu]
  have hthread (u : ℕ) : (((s.setQueue .write ws').setThread w h).record .write w bytes).thread u =
      if u = w then h else s.thread u := Function.update_apply _ _ _ _
  have hlogRead : (((s.setQueue .write ws').setThread w h).record .write w bytes).log .read = s.log .read :=
    record_of_ne _ bytes (by simp)
  have hlogWrite : (((s.setQueue .write ws').setThread w h).record .write w bytes).log .write =
      s.log .write ++ [(w, bytes)] := record_self _ _ _
  refine ⟨hs.linked, .inl ?_, fun k => ?_, fun u => ?_, hs.results, ?_, fun k u => ?_⟩
  · refine hread.trans (hs.alternate.resolve_right ?_)
    simp [hqueue]
  · cases k with
    | read =>
      exact hs.nodup .read
    | write =>
      obtain rfl | rfl := hws
      · exact hnodup
      · exact hnodup.of_cons
  · show Thread.Fits _ fun k => u ∈ (s.setQueue .write ws').queue k
    rw [hthread]
    by_cases hu : u = w
    · subst hu
      rw [if_pos rfl]
      exact hfits
    · rw [if_neg hu]
      simp only [hq _ u hu]
      exact hs.fits u
  · rw [hlogRead, hlogWrite, stream_append, hs.streams]
    simp
  · have hold := hs.threads k u
    have hpassed : (((s.setQueue .write ws').setThread w h).record .write w bytes).passed k u =
        s.passed k u ++ if k = .write ∧ u = w then bytes else [] := by
      cases k with
      | read =>
        rw [passed, hlogRead, passed]
        simp
      | write =>
        rw [passed, hlogWrite, stream_filter_append, stream_filter_single, passed]
        simp [eq_comm]
    have hcurrent : (((s.setQueue .write ws').setThread w h).record .write w bytes).current k u =
        s.current k u ++ if k = .write ∧ u = w then bytes else [] := by
      rw [current, hthread, current]
      by_cases hu : u = w
      · subst hu
        rw [if_pos rfl, hside, hreq.side, hmoved]
        cases k with
        | read => simp
        | write => simp
      · simp [hu]
    rw [hpassed, hold, hcurrent, List.append_assoc]
    rfl

theorem Sound.take_part (hs : s.Sound f) {w n : ℕ} {ws : List ℕ} (hqueue : s.queue .write = w :: ws)
    (hclear : (s.thread w).interrupted = false) (hn : n < (s.thread w).req.size) :
    (s.take w n).Sound (f ++ (s.thread w).req.buffer.take n) := by
  have hmem : w ∈ s.queue .write := by
    rw [hqueue]
    exact List.mem_cons_self
  have hreq := hs.requests hmem
  obtain ⟨hsize, hdata, htotal⟩ := hreq.writer rfl
  have hwaits := hs.waits hmem hclear
  have hsame : s.setQueue .write (w :: ws) = s := by
    rw [setQueue, ← hqueue, Function.update_eq_self]
  have hpass := hs.pass ((s.thread w).req.buffer.take n) hqueue (.inl rfl) (h := { s.thread w with
    req := { (s.thread w).req with
      buffer := (s.thread w).req.buffer.drop n, size := (s.thread w).req.size - n }
    moved := (s.thread w).moved ++ (s.thread w).req.buffer.take n }) ?_ hreq.side rfl
  · rw [hsame] at hpass
    exact hpass
  · rw [hsame]
    cases hs.fits w with
    | outside hstate => simp [hwaits] at hstate
    | running hstate => simp [hwaits] at hstate
    | @waiting k _ _ hq _ =>
      obtain rfl := (hq .write).mp hmem
      refine .waiting hwaits hclear hq ⟨hreq.side, ?_, hreq.bound, fun h => ?_, fun _ => ⟨?_, ?_, htotal⟩⟩
      · exact Nat.sub_pos_of_lt hn
      · simp at h
      · rw [List.length_drop, hsize]
      · rw [List.append_assoc, List.take_append_drop, hdata]
    | interrupted hstate => simp [hwaits] at hstate
    | served hstate => simp [hwaits] at hstate

/-- The state after a writer has given all its data. -/
def dequeueWriter (s : Pipe) (w : ℕ) (ws : List ℕ) : Pipe :=
  let s := s.take w (s.thread w).req.size
  (s.setQueue .write ws).setThread w
    { s.thread w with req := { (s.thread w).req with rc := 0 } : Thread }.markReady

theorem take_self (s : Pipe) (w n : ℕ) : (s.take w n).thread w = { s.thread w with
    req := { (s.thread w).req with buffer := (s.thread w).req.buffer.drop n, size := (s.thread w).req.size - n }
    moved := (s.thread w).moved ++ (s.thread w).req.buffer.take n } :=
  setThread_self _ _ _

theorem Sound.dequeueWriter (hs : s.Sound f) {w : ℕ} {ws : List ℕ} (hqueue : s.queue .write = w :: ws)
    (hclear : (s.thread w).interrupted = false) : (s.dequeueWriter w ws).Sound (f ++ (s.thread w).req.buffer) := by
  have hmem : w ∈ s.queue .write := by
    rw [hqueue]
    exact List.mem_cons_self
  have hreq := hs.requests hmem
  obtain ⟨hsize, hdata, htotal⟩ := hreq.writer rfl
  have hwaits := hs.waits hmem hclear
  have hnodup := hs.nodup .write
  rw [hqueue, List.nodup_cons] at hnodup
  have htake : (s.thread w).req.buffer.take (s.thread w).req.size = (s.thread w).req.buffer :=
    List.take_of_length_le (Nat.le_of_eq hsize.symm)
  have hpass := hs.pass (s.thread w).req.buffer hqueue (.inr rfl) (h := { s.thread w with
    state := .ready
    req := ⟨(s.thread w).req.buffer.drop (s.thread w).req.size, (s.thread w).req.size - (s.thread w).req.size, 0⟩
    moved := (s.thread w).moved ++ (s.thread w).req.buffer }) ?_ hreq.side rfl
  · have heq : s.dequeueWriter w ws = ((s.setQueue .write ws).setThread w { s.thread w with
        state := .ready
        req := ⟨(s.thread w).req.buffer.drop (s.thread w).req.size,
          (s.thread w).req.size - (s.thread w).req.size, 0⟩
        moved := (s.thread w).moved ++ (s.thread w).req.buffer }).record .write w (s.thread w).req.buffer := by
      rw [Pipe.dequeueWriter]
      rw [take_self, Thread.markReady, if_pos hwaits]
      simp only [Pipe.take, htake, Pipe.setThread, Pipe.setQueue, Pipe.record, Function.update_idem]
    rw [heq]
    exact hpass
  · refine .served rfl hclear (fun k hk => ?_) ⟨hreq.bound, fun h => ?_, fun _ => ⟨rfl, hdata, htotal⟩⟩
    · cases k with
      | read =>
        rw [setQueue_of_ne s ws (by simp)] at hk
        have hnil := hs.alternate.resolve_right (by simp [hqueue])
        simp [hnil] at hk
      | write =>
        exact hnodup.1 hk
    · have hwrite := hreq.side
      rw [h] at hwrite
      simp at hwrite

/-- The queued threads that a transfer of `left` bytes comes to. -/
def reached (s : Pipe) : List ℕ → ℕ → List ℕ
  | [], _ => []
  | u :: us, left => if left = 0 then [] else u :: s.reached us (left - (s.thread u).req.size)

theorem reached_congr {s s' : Pipe} {us : List ℕ} (hsame : ∀ u ∈ us, s'.thread u = s.thread u) (left : ℕ) :
    s'.reached us left = s.reached us left := by
  induction us generalizing left with
  | nil => rfl
  | cons u us ih =>
    rw [reached, reached, hsame u List.mem_cons_self, ih fun v hv => hsame v (List.mem_cons_of_mem _ hv)]

theorem reached_subset (s : Pipe) (us : List ℕ) (left : ℕ) : s.reached us left ⊆ us := by
  induction us generalizing left with
  | nil => exact List.Subset.refl _
  | cons u us ih =>
    rw [reached]
    split
    · exact List.nil_subset _
    · exact List.cons_subset_cons _ (ih _)

theorem readLoop_cons (s : Pipe) (w : ℕ) (ws : List ℕ) {left : ℕ} (hleft : left ≠ 0) :
    readLoop (w :: ws) left s =
      if (s.thread w).req.size ≤ left then
        let r := readLoop ws (left - (s.thread w).req.size) (s.dequeueWriter w ws)
        (r.1, (s.thread w).req.buffer.take (s.thread w).req.size ++ r.2)
      else (s.take w left, (s.thread w).req.buffer.take left) := by
  rw [readLoop, if_neg hleft]
  dsimp only
  rw [take_self]
  dsimp only
  by_cases hall : (s.thread w).req.size ≤ left
  · have hzero : (s.thread w).req.size - min (s.thread w).req.size left = 0 := by omega
    rw [if_pos hzero, if_pos hall, Nat.min_eq_left hall, dequeueWriter]
    rw [take_self]
  · have hrest : (s.thread w).req.size - min (s.thread w).req.size left ≠ 0 := by omega
    rw [if_neg hrest, if_neg hall, Nat.min_eq_right (by omega)]

theorem dequeueWriter_of_ne (s : Pipe) {w : ℕ} (ws : List ℕ) (hu : u ≠ w) :
    (s.dequeueWriter w ws).thread u = s.thread u :=
  (setThread_of_ne _ _ hu).trans (setThread_of_ne _ _ hu)

theorem dequeueWriter_log (s : Pipe) (w : ℕ) (ws : List ℕ) : (s.dequeueWriter w ws).log .write =
    s.log .write ++ [(w, (s.thread w).req.buffer.take (s.thread w).req.size)] := by
  show (s.take w (s.thread w).req.size).log .write = _
  exact record_self _ _ _

theorem dequeueWriter_read (s : Pipe) (w : ℕ) (ws : List ℕ) :
    (s.dequeueWriter w ws).queue .read = s.queue .read := by
  rfl

theorem dequeueWriter_queue (s : Pipe) (w : ℕ) (ws : List ℕ) : (s.dequeueWriter w ws).queue .write = ws :=
  setQueue_self (s.take w (s.thread w).req.size) .write ws

theorem Sound.readLoop (hs : s.Sound f) (ws : List ℕ) (left : ℕ) (hqueue : s.queue .write = ws)
    (hclear : ∀ w ∈ s.reached ws left, (s.thread w).interrupted = false) :
    (readLoop ws left s).1.Sound (f ++ (readLoop ws left s).2) ∧ (readLoop ws left s).2.length ≤ left ∧
      (∀ u ∉ ws, (readLoop ws left s).1.thread u = s.thread u) ∧
      (0 < left → (readLoop ws left s).2.length = 0 → ws = [] ∧ (readLoop ws left s).1 = s) := by
  induction ws generalizing s f left with
  | nil =>
    rw [Pipe.readLoop, List.append_nil]
    exact ⟨hs, Nat.zero_le _, fun _ _ => rfl, fun _ _ => ⟨rfl, rfl⟩⟩
  | cons w ws ih =>
    by_cases hleft : left = 0
    · rw [Pipe.readLoop, if_pos hleft, List.append_nil]
      exact ⟨hs, Nat.zero_le _, fun _ _ => rfl, fun hpos => absurd hleft (by omega)⟩
    · have hmem : w ∈ s.queue .write := by
        rw [hqueue]
        exact List.mem_cons_self
      have hreq := hs.requests hmem
      obtain ⟨hsize, -, -⟩ := hreq.writer rfl
      have hpos := hreq.pos
      have hnodup := hs.nodup .write
      rw [hqueue, List.nodup_cons] at hnodup
      rw [reached, if_neg hleft] at hclear
      have hw := hclear w List.mem_cons_self
      rw [readLoop_cons s w ws hleft]
      split
      · next hall =>
        have htake : (s.thread w).req.buffer.take (s.thread w).req.size = (s.thread w).req.buffer :=
          List.take_of_length_le (Nat.le_of_eq hsize.symm)
        have htail (u : ℕ) (hu : u ∈ ws) : (s.dequeueWriter w ws).thread u = s.thread u := by
          refine dequeueWriter_of_ne s ws ?_
          rintro rfl
          exact hnodup.1 hu
        obtain ⟨hsound, hlen, hframe, -⟩ := ih (hs.dequeueWriter hqueue hw)
          (left - (s.thread w).req.size) (dequeueWriter_queue s w ws) fun u hu => by
            rw [reached_congr htail] at hu
            rw [htail u (reached_subset s ws _ hu)]
            exact hclear u (List.mem_cons_of_mem _ hu)
        rw [htake]
        refine ⟨?_, ?_, fun u hu => ?_, fun _ hnil => ?_⟩
        · rw [← List.append_assoc]
          exact hsound
        · rw [List.length_append]
          omega
        · rw [List.mem_cons, not_or] at hu
          exact (hframe u hu.2).trans (dequeueWriter_of_ne s ws hu.1)
        · rw [List.length_append] at hnil
          omega
      · next hpart =>
        refine ⟨hs.take_part hqueue hw (by omega), ?_, fun u hu => ?_, fun _ hnil => ?_⟩
        · rw [List.length_take]
          omega
        · rw [List.mem_cons, not_or] at hu
          exact setThread_of_ne _ _ hu.1
        · rw [List.length_take] at hnil
          omega

theorem Sound.deliver (hs : s.Sound f) (ht : (s.thread t).state = .running) (hside : (s.thread t).side = .read)
    (hmoved : (s.thread t).moved = []) :
    ((s.record .read t f).setThread t { s.thread t with moved := f }).Sound [] := by
  have hread : ((s.record .read t f).setThread t { s.thread t with moved := f }).log .read =
      s.log .read ++ [(t, f)] := by
    rw [setThread_log, record_self]
  have hwrite : ((s.record .read t f).setThread t { s.thread t with moved := f }).log .write = s.log .write := by
    rw [setThread_log, record_of_ne s f (by simp)]
  refine ⟨hs.linked, hs.alternate, hs.nodup, fun u => ?_, hs.results, ?_, fun k u => ?_⟩
  · by_cases hu : u = t
    · subst hu
      rw [setThread_self]
      exact .running ht (hs.free (.inl ht))
    · rw [setThread_of_ne _ _ hu]
      exact hs.fits u
  · rw [hread, hwrite, hs.streams]
    simp
  · have hold := hs.threads k u
    have hpassed : ((s.record .read t f).setThread t { s.thread t with moved := f }).passed k u =
        s.passed k u ++ if k = .read ∧ u = t then f else [] := by
      cases k with
      | read =>
        rw [passed, hread, stream_filter_append, stream_filter_single, passed]
        simp [eq_comm]
      | write =>
        rw [passed, hwrite, passed]
        simp
    have hcurrent : ((s.record .read t f).setThread t { s.thread t with moved := f }).current k u =
        s.current k u ++ if k = .read ∧ u = t then f else [] := by
      rw [current, current]
      by_cases hu : u = t
      · subst hu
        rw [setThread_self, hside, hmoved]
        cases k with
        | read => simp
        | write => simp
      · rw [setThread_of_ne _ _ hu, record_thread]
        simp [hu]
    rw [hpassed, hold, hcurrent, List.append_assoc]
    rfl

theorem begin_of_ne (s : Pipe) (k : Side) (size : ℕ) (data : List UInt8) (hu : u ≠ t) :
    (s.begin k t size data).thread u = s.thread u :=
  setThread_of_ne s _ hu

theorem begin_self (s : Pipe) (k : Side) (t size : ℕ) (data : List UInt8) : (s.begin k t size data).thread t =
    { s.thread t with state := .running, side := k, size := size, data := data, moved := [] } :=
  setThread_self _ _ _

theorem Sound.clear_begin (hs : s.Sound f) (ht : (s.thread t).state = .outside) {s' : Pipe}
    (hother : ∀ u ≠ t, s'.thread u = s.thread u) {k : Side} {left : ℕ}
    (hclear : ∀ u ∈ s.reached (s.queue k) left, (s.thread u).interrupted = false) :
    ∀ u ∈ s'.reached (s.queue k) left, (s'.thread u).interrupted = false := by
  have hsame : ∀ u ∈ s.queue k, s'.thread u = s.thread u := by
    intro u hu
    refine hother u ?_
    rintro rfl
    exact hs.free (.inr ht) k hu
  intro u hu
  rw [reached_congr hsame] at hu
  rw [hsame u (reached_subset s _ _ hu)]
  exact hclear u hu

theorem Sound.pipefsRead (hs : s.Sound []) (ht : (s.thread t).state = .outside) {size : ℕ} (hsize : size < 2 ^ 31)
    {nonblock signals : Bool} (hclear : ∀ w ∈ s.reached (s.queue .write) size, (s.thread w).interrupted = false) :
    (s.pipefsRead t size nonblock signals).Sound [] := by
  have hbegin := hs.begin ht .read size []
  have hself := begin_self s .read t size []
  have hfree := hs.free (.inr ht) .write
  have hempty {rc : ℤ} (hrc : rc = 0 ∨ rc < 0) : ((s.begin .read t size []).leave t rc).Sound [] := by
    refine hbegin.leave (by rw [hself]) ?_
    rw [hself]
    exact hrc.imp (fun hzero => ⟨hzero, by simp⟩) fun hneg => ⟨hneg, rfl⟩
  obtain ⟨hloop, hlen, hframe, hnone⟩ := hbegin.readLoop (s.queue .write) size rfl
    (hs.clear_begin ht (fun _ => begin_of_ne s _ _ _) hclear)
  rw [Pipe.pipefsRead]
  dsimp only
  split
  · exact hempty (.inl rfl)
  · next hne =>
    split
    · exact hempty (.inl rfl)
    · split
      · next hnil =>
        obtain ⟨hwrite, hsame⟩ := hnone (by omega) hnil
        have hqueue : (s.begin .read t size []).queue .write = s.queue .write := rfl
        rw [hqueue, hsame]
        split
        · exact hempty (.inr (by decide))
        · refine hbegin.wait (by rw [hself]) (by rw [hself]) (fun j hj => ?_) ?_ fun _ => by rw [hself]
          · cases j with
            | read => exact absurd rfl hj
            | write => exact hwrite
          · rw [hself]
            exact ⟨rfl, Nat.pos_of_ne_zero hne, hsize, fun _ => ⟨rfl, rfl⟩, fun h => by simp at h⟩
      · next hsome =>
        have hthread : (Pipe.readLoop (s.queue .write) size (s.begin .read t size [])).1.thread t =
            { s.thread t with state := .running, side := .read, size := size, data := [], moved := [] } :=
          (hframe t hfree).trans hself
        have hdone := hloop.deliver (by rw [hthread]) (by rw [hthread]) (by rw [hthread])
        refine hdone.leave ?_ ?_
        · rw [setThread_self, hthread]
        · rw [setThread_self, hthread]
          exact .inl ⟨toInt_eq (Nat.lt_of_le_of_lt hlen hsize), by simp⟩

theorem Sound.writeLoop (hs : s.Sound []) (rs : List ℕ) (data : List UInt8) (hqueue : s.queue .read = rs)
    (ht : (s.thread t).state = .running) (hside : (s.thread t).side = .write)
    (hclear : ∀ r ∈ s.reached rs data.length, (s.thread r).interrupted = false) :
    (writeLoop t rs data s).1.Sound [] ∧
      (∃ given, given ++ (writeLoop t rs data s).2 = data ∧ (writeLoop t rs data s).1.thread t =
        { s.thread t with moved := (s.thread t).moved ++ given }) ∧
      (0 < (writeLoop t rs data s).2.length → (writeLoop t rs data s).1.queue .read = [] ∧
        (rs.map fun r => (s.thread r).req.size).sum < data.length) ∧
      (rs = [] → (writeLoop t rs data s).1 = s) := by
  induction rs generalizing s data with
  | nil =>
    rw [Pipe.writeLoop]
    refine ⟨hs, ⟨[], rfl, ?_⟩, fun hpos => ⟨hqueue, hpos⟩, fun _ => rfl⟩
    rw [List.append_nil]
  | cons r rs ih =>
    rw [Pipe.writeLoop]
    split
    · next hnone =>
      refine ⟨hs, ⟨[], rfl, ?_⟩, fun hpos => absurd hnone (Nat.ne_of_gt hpos), fun hnil => by simp at hnil⟩
      rw [List.append_nil]
    · next hsome =>
      have hmem : r ∈ s.queue .read := by
        rw [hqueue]
        exact List.mem_cons_self
      have hreq := hs.requests hmem
      have hpos := hreq.pos
      have hne : t ≠ r := by
        rintro rfl
        exact hs.free (.inl ht) _ hmem
      have hnodup := hs.nodup .read
      rw [hqueue, List.nodup_cons] at hnodup
      rw [reached, if_neg hsome] at hclear
      generalize hn : min (s.thread r).req.size data.length = n
      have hlen : (data.take n).length = n := by
        rw [List.length_take]
        omega
      have hgive := hs.give (data.take n) ht hside hqueue (hclear r List.mem_cons_self) (by omega) (by omega)
      have hself : ((s.setQueue .read rs).give r t (data.take n)).thread t =
          { s.thread t with moved := (s.thread t).moved ++ data.take n } :=
        (setThread_of_ne _ _ hne).trans (setThread_self _ _ _)
      have htail (u : ℕ) (hu : u ∈ rs) :
          ((s.setQueue .read rs).give r t (data.take n)).thread u = s.thread u := by
        have hur : u ≠ r := by
          rintro rfl
          exact hnodup.1 hu
        have hut : u ≠ t := by
          rintro rfl
          refine hs.free (.inl ht) .read ?_
          rw [hqueue]
          exact List.mem_cons_of_mem _ hu
        exact (setThread_of_ne _ _ hur).trans (setThread_of_ne _ _ hut)
      have hrest : ((s.setQueue .read rs).give r t (data.take n)).queue .read = rs := setQueue_self s .read rs
      have hsizes : (rs.map fun r' => (((s.setQueue .read rs).give r t (data.take n)).thread r').req.size) =
          rs.map fun r' => (s.thread r').req.size := by
        refine List.map_congr_left fun u hu => ?_
        rw [htail u hu]
      obtain ⟨hsound, ⟨given, hgiven, hthread⟩, hleft, -⟩ := ih hgive (data.drop n) hrest
        (by rw [hself]; exact ht) (by rw [hself]; exact hside) fun u hu => by
          rw [reached_congr htail] at hu
          rw [htail u (reached_subset s rs _ hu)]
          refine hclear u (List.mem_cons_of_mem _ ?_)
          have hdrop : (data.drop n).length = data.length - (s.thread r).req.size := by
            rw [List.length_drop]
            omega
          rw [← hdrop]
          exact hu
      refine ⟨hsound, ⟨data.take n ++ given, ?_, ?_⟩, fun hpos' => ?_, fun hnil => by simp at hnil⟩
      · rw [List.append_assoc, hgiven, List.take_append_drop]
      · rw [hthread, hself, List.append_assoc]
      · obtain ⟨hempty, hsum⟩ := hleft hpos'
        refine ⟨hempty, ?_⟩
        rw [hsizes, List.length_drop] at hsum
        rw [List.map_cons, List.sum_cons]
        omega

theorem Sound.beginWrite (hs : s.Sound []) (ht : (s.thread t).state = .outside) (data : List UInt8) :
    (s.beginWrite t data).Sound [] := by
  have hbegin := hs.begin ht .write data.length data
  exact ⟨hbegin.linked, hbegin.alternate, hbegin.nodup, hbegin.fits, hbegin.results, hbegin.streams,
    hbegin.threads⟩

theorem beginWrite_self (s : Pipe) (t : ℕ) (data : List UInt8) : (s.beginWrite t data).thread t =
    { s.thread t with state := .running, side := .write, size := data.length, data := data, moved := [] } :=
  begin_self s .write t data.length data

theorem beginWrite_of_ne (s : Pipe) (data : List UInt8) (hu : u ≠ t) :
    (s.beginWrite t data).thread u = s.thread u :=
  begin_of_ne s .write data.length data hu

theorem Sound.pipefsWrite (hs : s.Sound []) (ht : (s.thread t).state = .outside) {data : List UInt8}
    (hsize : data.length < 2 ^ 31) {nonblock signals : Bool}
    (hclear : ∀ r ∈ s.reached (s.queue .read) data.length, (s.thread r).interrupted = false)
    (hsignals : signals = true → s.queue .read = [] ∨
      data.length ≤ ((s.queue .read).map fun r => (s.thread r).req.size).sum) :
    (s.pipefsWrite t data nonblock signals).Sound [] := by
  have hbegin := hs.beginWrite ht data
  have hself := beginWrite_self s t data
  have hempty {rc : ℤ} (hrc : rc = 0 ∨ rc < 0) : ((s.beginWrite t data).leave t rc).Sound [] := by
    refine hbegin.leave (by rw [hself]) ?_
    rw [hself]
    exact hrc.imp (fun hzero => ⟨hzero, fun _ => List.nil_prefix⟩) fun hneg => ⟨hneg, rfl⟩
  obtain ⟨hloop, ⟨given, hgiven, hthread⟩, hleft, hnone⟩ := hbegin.writeLoop (s.queue .read)
    data rfl (by rw [hself]) (by rw [hself]) (hs.clear_begin ht (fun _ => beginWrite_of_ne s data) hclear)
  rw [hself] at hthread
  rw [Pipe.pipefsWrite]
  dsimp only
  have hqueue : (s.beginWrite t data).queue .read = s.queue .read := rfl
  rw [hqueue]
  -- what the loop has given is a first part of the data, which a result tells
  have hresult {rc : ℤ} (hrc : rc = given.length) :
      ((Pipe.writeLoop t (s.queue .read) data (s.beginWrite t data)).1.leave t rc).Sound [] := by
    refine hloop.leave (by rw [hthread]) ?_
    rw [hthread]
    refine .inl ⟨hrc, fun _ => ?_⟩
    exact ⟨_, hgiven⟩
  have hlen := congrArg List.length hgiven
  rw [List.length_append] at hlen
  split
  · exact hempty (.inl rfl)
  · split
    · exact hempty (.inr (by decide))
    · split
      · next hall =>
        refine hresult ?_
        rw [toInt_eq hsize]
        omega
      · next hrest =>
        split
        · refine hresult ?_
          rw [toInt_eq (by omega)]
          omega
        · obtain ⟨hread, hsum⟩ := hleft (Nat.pos_of_ne_zero hrest)
          refine hloop.wait (by rw [hthread]) (by rw [hthread]) (fun j hj => ?_) ?_ fun hyes => ?_
          · cases j with
            | read => exact hread
            | write => exact absurd rfl hj
          · rw [hthread]
            exact ⟨rfl, Nat.pos_of_ne_zero hrest, hsize, fun h => by simp at h, fun _ => ⟨rfl, hgiven, rfl⟩⟩
          · have hsizes : ((s.queue .read).map fun r => ((s.beginWrite t data).thread r).req.size) =
                (s.queue .read).map fun r => (s.thread r).req.size := by
              refine List.map_congr_left fun u hu => ?_
              have hut : u ≠ t := by
                rintro rfl
                exact hs.free (.inr ht) _ hu
              rw [beginWrite_of_ne s data hut]
            rw [hsizes] at hsum
            obtain hnil | henough := hsignals hyes
            · rw [hnone hnil, hself]
            · omega

end Pipe

end SimpleKernel.Pipefs
