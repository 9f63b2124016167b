import SimpleKernel.Pipefs.Service

/-! Reads and writes of a pipe by threads that are interrupted, and the byte stream where none is. -/
namespace SimpleKernel.Pipefs
open Transition

/-- Calls on a pipe whose ends are open, with sizes that the callers accept. -/
def PipeCall.Ordinary : PipeCall → Prop
  | .read _ size _ _ => size < 2 ^ 31
  | .write _ data _ _ => data.length < 2 ^ 31
  | .interrupt _ => True
  | .resume _ => True
  | .close _ => False

/-- A read or a write does not come to the request of an interrupted thread, a writer is interrupted only
while nothing was taken from it, and a write that will find signals ready gives all its data or none. -/
def PipeCall.Gentle (s : Pipe) : PipeCall → Prop
  | .read _ size _ _ => ∀ w ∈ s.reached (s.queue .write) size, (s.thread w).interrupted = false
  | .write _ data _ signals =>
    (∀ r ∈ s.reached (s.queue .read) data.length, (s.thread r).interrupted = false) ∧
      (signals = true → s.queue .read = [] ∨
        data.length ≤ ((s.queue .read).map fun r => (s.thread r).req.size).sum)
  | .interrupt t => (s.thread t).state = .waiting → (s.thread t).req.size = (s.thread t).size
  | _ => True

namespace Pipe
variable {s₀ s s' : Pipe} {t : ℕ}

theorem Sound.exec (hs : s.Sound []) {c : PipeCall} (hc' : c.Ordinary) (hgentle : c.Gentle s)
    (hc : c.exec s = some s') : s'.Sound [] := by
  cases c with
  | read t size nonblock signals =>
    rw [PipeCall.exec] at hc
    split at hc
    · next ht =>
      obtain rfl := Option.some.inj hc
      exact hs.pipefsRead ht hc' hgentle
    · simp at hc
  | write t data nonblock signals =>
    rw [PipeCall.exec] at hc
    split at hc
    · next ht =>
      obtain rfl := Option.some.inj hc
      exact hs.pipefsWrite ht hc' hgentle.1 hgentle.2
    · simp at hc
  | interrupt t =>
    obtain rfl := Option.some.inj hc
    exact hs.interruptThread hgentle
  | resume t => exact hs.resume hc
  | close k => exact hc'.elim

theorem Initial.sound (h : s.Initial) : s.Sound [] where
  linked := h.linked
  alternate := .inl (h.queue .read)
  nodup k := by
    rw [h.queue]
    exact List.nodup_nil
  fits t := .outside (h.outside t).1 (h.outside t).2 fun k => by simp [h.queue]
  results r hr := by
    rw [h.results] at hr
    simp at hr
  streams := by simp [h.log]
  threads k t := by
    simp [passed, returned, current, h.log, h.results, (h.outside t).2]

/-- A new pipe. -/
def fresh : Pipe where
  queue _ := []
  linked := true
  thread _ := ⟨.outside, false, .read, 0, [], ⟨[], 0, 0⟩, []⟩
  writes := []
  log _ := []
  results := []

theorem fresh_initial : fresh.Initial :=
  ⟨fun _ => rfl, rfl, fun _ => ⟨rfl, rfl⟩, rfl, fun _ => rfl, rfl⟩

/-- The thread 1 writes two bytes, of which the thread 2 reads one. -/
def halfRead : Pipe := (fresh.pipefsWrite 1 [7, 8] false false).pipefsRead 2 1 false false

theorem halfRead_reach {ok : Pipe → PipeCall → Prop} (hwrite : ok fresh (.write 1 [7, 8] false false))
    (hread : ok (fresh.pipefsWrite 1 [7, 8] false false) (.read 2 1 false false)) :
    Reach PipeCall.exec ok fresh halfRead :=
  (Reach.single hwrite rfl).tail hread rfl

theorem ordinary_write : (PipeCall.write 1 [7, 8] false false).Ordinary := by
  show 2 < 2 ^ 31
  decide

theorem ordinary_read : (PipeCall.read 2 1 false false).Ordinary := by
  show 1 < 2 ^ 31
  decide

end Pipe

/-- A call in blocking mode, without signals and interrupts. -/
def PipeCall.Blocking : PipeCall → Prop
  | .read _ _ nonblock signals => nonblock = false ∧ signals = false
  | .write _ _ nonblock signals => nonblock = false ∧ signals = false
  | .interrupt _ => False
  | _ => True

/-- A write returns its full size, and a read that asks for bytes gets some. -/
def Result.Complete (r : Result) : Prop :=
  match r.side with
  | .read => 0 ≤ r.rc ∧ (0 < r.size → 1 ≤ r.rc ∧ r.rc ≤ r.size)
  | .write => r.rc = r.size

namespace Pipe
variable {s₀ s s' : Pipe} {f data : List UInt8} {t u : ℕ}

/-- The bytes that queued writers still offer. -/
def offered (s : Pipe) (ws : List ℕ) : List UInt8 := ws.flatMap fun w => (s.thread w).req.buffer

theorem offered_congr {ws : List ℕ} (hsame : ∀ w ∈ ws, s'.thread w = s.thread w) :
    s'.offered ws = s.offered ws := by
  refine List.flatMap_congr fun w hw => ?_
  rw [hsame w hw]

/-- Queued threads wait, and what the writes have passed, still offer, and hold in a running call, `held`,
is what was written. -/
structure Quiet (s : Pipe) (held : List UInt8) : Prop where
  waits : ∀ k, ∀ u ∈ s.queue k, (s.thread u).state = .waiting
  stream : stream s.writes = stream (s.log .write) ++ s.offered (s.queue .write) ++ held
  results : ∀ r ∈ s.results, r.Complete

theorem Sound.clear_of_waiting (hs : s.Sound f) (hu : (s.thread u).state = .waiting) :
    (s.thread u).interrupted = false := by
  cases hs.fits u with
  | outside hstate => simp [hu] at hstate
  | running hstate => simp [hu] at hstate
  | waiting _ hclear => exact hclear
  | interrupted hstate => simp [hu] at hstate
  | served hstate => simp [hu] at hstate

theorem Sound.readLoop_stream (hs : s.Sound f) (ws : List ℕ) (left : ℕ) (hqueue : s.queue .write = ws)
    (hwaits : ∀ w ∈ ws, (s.thread w).state = .waiting) :
    (Pipe.readLoop ws left s).1.writes = s.writes ∧ (Pipe.readLoop ws left s).1.results = s.results ∧
      (Pipe.readLoop ws left s).1.queue .read = s.queue .read ∧
      Pipe.stream ((Pipe.readLoop ws left s).1.log .write) ++
          (Pipe.readLoop ws left s).1.offered ((Pipe.readLoop ws left s).1.queue .write) =
        Pipe.stream (s.log .write) ++ s.offered ws ∧
      ∀ w ∈ (Pipe.readLoop ws left s).1.queue .write,
        ((Pipe.readLoop ws left s).1.thread w).state = .waiting := by
  induction ws generalizing s f left with
  | nil =>
    rw [Pipe.readLoop]
    refine ⟨rfl, rfl, rfl, ?_, ?_⟩
    · rw [hqueue]
    · rw [hqueue]
      exact hwaits
  | cons w ws ih =>
    by_cases hleft : left = 0
    · rw [Pipe.readLoop, if_pos hleft]
      refine ⟨rfl, rfl, rfl, ?_, ?_⟩
      · rw [hqueue]
      · rw [hqueue]
        exact hwaits
    · have hmem : w ∈ s.queue .write := by
        rw [hqueue]
        exact List.mem_cons_self
      obtain ⟨hsize, -, -⟩ := (hs.requests hmem).writer rfl
      have hw := hwaits w List.mem_cons_self
      have hnodup := hs.nodup .write
      rw [hqueue, List.nodup_cons] at hnodup
      rw [readLoop_cons s w ws hleft]
      split
      · have htail (u : ℕ) (hu : u ∈ ws) : (s.dequeueWriter w ws).thread u = s.thread u := by
          refine dequeueWriter_of_ne s ws ?_
          rintro rfl
          exact hnodup.1 hu
        have hlog : (s.dequeueWriter w ws).log .write = s.log .write ++ [(w, (s.thread w).req.buffer)] := by
          have htake : (s.thread w).req.buffer.take (s.thread w).req.size = (s.thread w).req.buffer :=
            List.take_of_length_le (Nat.le_of_eq hsize.symm)
          rw [dequeueWriter_log, htake]
        obtain ⟨hwrites, hresults, hread, hstream, hwait⟩ := ih (hs.dequeueWriter hqueue (hs.clear_of_waiting hw))
          (left - (s.thread w).req.size) (dequeueWriter_queue s w ws) fun u hu => by
            rw [htail u hu]
            exact hwaits u (List.mem_cons_of_mem _ hu)
        refine ⟨hwrites, hresults, hread.trans (dequeueWriter_read s w ws), hstream.trans ?_, hwait⟩
        · rw [hlog, offered_congr htail, stream_append, stream_single, List.append_assoc]
          rfl
      · have hqueue' : (s.take w left).queue .write = w :: ws := hqueue
        have hself := take_self s w left
        have htail (u : ℕ) (hu : u ∈ ws) : (s.take w left).thread u = s.thread u := by
          refine setThread_of_ne _ _ ?_
          rintro rfl
          exact hnodup.1 hu
        have hlog : (s.take w left).log .write = s.log .write ++ [(w, (s.thread w).req.buffer.take left)] :=
          record_self _ _ _
        refine ⟨rfl, rfl, rfl, ?_, ?_⟩
        · rw [hqueue', hlog, stream_append, stream_single, List.append_assoc]
          congr 1
          show _ ++ (((s.take w left).thread w).req.buffer ++ (s.take w left).offered ws) =
            (s.thread w).req.buffer ++ s.offered ws
          rw [offered_congr htail, hself, ← List.append_assoc, List.take_append_drop]
        · rw [hqueue']
          intro u hu
          rcases List.mem_cons.mp hu with rfl | hu
          · rw [hself]
            exact hw
          · rw [htail u hu]
            exact hwaits u (List.mem_cons_of_mem _ hu)

theorem Sound.writeLoop_stream (hs : s.Sound []) (rs : List ℕ) (data : List UInt8) (hqueue : s.queue .read = rs)
    (ht : (s.thread t).state = .running) (hside : (s.thread t).side = .write)
    (hwaits : ∀ r ∈ rs, (s.thread r).state = .waiting) :
    (Pipe.writeLoop t rs data s).1.writes = s.writes ∧ (Pipe.writeLoop t rs data s).1.results = s.results ∧
      (Pipe.writeLoop t rs data s).1.queue .write = s.queue .write ∧
      Pipe.stream ((Pipe.writeLoop t rs data s).1.log .write) ++ (Pipe.writeLoop t rs data s).2 =
        Pipe.stream (s.log .write) ++ data ∧
      (∀ r ∈ (Pipe.writeLoop t rs data s).1.queue .read,
        ((Pipe.writeLoop t rs data s).1.thread r).state = .waiting) ∧
      ∀ u ∉ rs, u ≠ t → (Pipe.writeLoop t rs data s).1.thread u = s.thread u := by
  induction rs generalizing s data with
  | nil =>
    rw [Pipe.writeLoop]
    refine ⟨rfl, rfl, rfl, rfl, ?_, fun _ _ _ => rfl⟩
    rw [hqueue]
    exact hwaits
  | cons r rs ih =>
    rw [Pipe.writeLoop]
    split
    · refine ⟨rfl, rfl, rfl, rfl, ?_, fun _ _ _ => rfl⟩
      rw [hqueue]
      exact hwaits
    · next hsome =>
      have hmem : r ∈ s.queue .read := by
        rw [hqueue]
        exact List.mem_cons_self
      have hpos := (hs.requests hmem).pos
      have hne : t ≠ r := by
        rintro rfl
        exact hs.free (.inl ht) _ hmem
      have hnodup := hs.nodup .read
      rw [hqueue, List.nodup_cons] at hnodup
      generalize hn : min (s.thread r).req.size data.length = n
      have hlen : (data.take n).length = n := by
        rw [List.length_take]
        omega
      have hgive := hs.give (data.take n) ht hside hqueue (hs.clear_of_waiting (hwaits r List.mem_cons_self))
        (by omega) (by omega)
      have hself : ((s.setQueue .read rs).give r t (data.take n)).thread t =
          { s.thread t with moved := (s.thread t).moved ++ data.take n } :=
        (setThread_of_ne _ _ hne).trans (setThread_self _ _ _)
      have hother (u : ℕ) (hur : u ≠ r) (hut : u ≠ t) :
          ((s.setQueue .read rs).give r t (data.take n)).thread u = s.thread u :=
        (setThread_of_ne _ _ hur).trans (setThread_of_ne _ _ hut)
      have htail (u : ℕ) (hu : u ∈ rs) :
          ((s.setQueue .read rs).give r t (data.take n)).thread u = s.thread u := by
        refine hother u ?_ ?_
        · rintro rfl
          exact hnodup.1 hu
        · rintro rfl
          refine hs.free (.inl ht) .read ?_
          rw [hqueue]
          exact List.mem_cons_of_mem _ hu
      have hwriters : (s.setQueue .read rs).queue .write = s.queue .write := setQueue_of_ne s rs (by simp)
      obtain ⟨hwrites, hresults, hwrite, hstream, hwait, hframe⟩ := ih hgive (data.drop n)
        (setQueue_self s .read rs) (by rw [hself]; exact ht) (by rw [hself]; exact hside) fun u hu => by
          rw [htail u hu]
          exact hwaits u (List.mem_cons_of_mem _ hu)
      refine ⟨hwrites, hresults, hwrite.trans hwriters, hstream.trans ?_, hwait, fun u hu hut => ?_⟩
      · rw [give_log_write, stream_append, stream_single, List.append_assoc, List.take_append_drop]
        rfl
      · rw [List.mem_cons, not_or] at hu
        exact (hframe u hu.2 hut).trans (hother u hu.1 hut)

theorem Quiet.setThread {held : List UInt8} (h : s.Quiet held) (hfree : ∀ k, t ∉ s.queue k) (x : Thread) :
    (s.setThread t x).Quiet held := by
  have hother (k : Side) (u : ℕ) (hu : u ∈ s.queue k) : (s.setThread t x).thread u = s.thread u := by
    refine setThread_of_ne s x ?_
    rintro rfl
    exact hfree k hu
  refine ⟨fun k u hu => ?_, ?_, h.results⟩
  · rw [hother k u hu]
    exact h.waits k u hu
  · rw [setThread_queue, offered_congr (hother .write)]
    exact h.stream

theorem Quiet.leave {held : List UInt8} (h : s.Quiet held) (hfree : ∀ k, t ∉ s.queue k) {rc : ℤ}
    (hrc : Result.Complete ⟨t, (s.thread t).side, (s.thread t).size, (s.thread t).data, rc, (s.thread t).moved⟩) :
    (s.leave t rc).Quiet held := by
  have hset := h.setThread hfree { s.thread t with state := .outside, moved := [] }
  refine ⟨hset.waits, hset.stream, fun r hr => ?_⟩
  rcases List.mem_append.mp hr with hr | hr
  · exact h.results r hr
  · rw [List.mem_singleton.mp hr]
    exact hrc

theorem Quiet.enqueue {held : List UInt8} (h : s.Quiet held) (hfree : ∀ k, t ∉ s.queue k) {k : Side} {x : Thread}
    (hstate : x.state = .waiting) (hread : k = .read → held = []) (hwrite : k = .write → held = x.req.buffer) :
    ((s.setQueue k (s.queue k ++ [t])).setThread t x).Quiet [] := by
  have hset := h.setThread hfree x
  have hself := setThread_self s t x
  have hsame (u : ℕ) : ((s.setQueue k (s.queue k ++ [t])).setThread t x).thread u = (s.setThread t x).thread u := rfl
  refine ⟨fun j u hu => ?_, ?_, h.results⟩
  · rw [hsame]
    have hu : u ∈ (s.setQueue k (s.queue k ++ [t])).queue j := hu
    by_cases hj : j = k
    · subst hj
      rw [setQueue_self, List.mem_append, List.mem_singleton] at hu
      rcases hu with hu | rfl
      · exact hset.waits j u hu
      · rw [hself]
        exact hstate
    · rw [setQueue_of_ne s _ hj] at hu
      exact hset.waits j u hu
  · have hold := hset.stream
    show Pipe.stream s.writes = Pipe.stream (s.log .write) ++
      (s.setThread t x).offered ((s.setQueue k (s.queue k ++ [t])).queue .write) ++ []
    cases k with
    | read =>
      rw [← hread rfl]
      exact hold
    | write =>
      rw [setQueue_self, offered, List.flatMap_append, List.flatMap_singleton, hself, ← hwrite rfl,
        List.append_nil, ← List.append_assoc]
      exact hold

/-- A pipe between two calls. -/
structure Calm (s : Pipe) : Prop where
  sound : s.Sound []
  quiet : s.Quiet []

theorem Calm.gentle (h : s.Calm) {c : PipeCall} (hc : c.Ordinary) (hblock : c.Blocking) : c.Gentle s := by
  have hclear (k : Side) (left : ℕ) : ∀ u ∈ s.reached (s.queue k) left, (s.thread u).interrupted = false :=
    fun u hu => h.sound.clear_of_waiting (h.quiet.waits k u (reached_subset s _ _ hu))
  cases c with
  | read t size nonblock signals => exact hclear .write size
  | write t data nonblock signals =>
    obtain ⟨-, rfl⟩ := hblock
    exact ⟨hclear .read _, fun hyes => absurd hyes (by simp)⟩
  | interrupt t => exact hblock.elim
  | resume t => trivial
  | close k => trivial

theorem Calm.pipefsRead (h : s.Calm) (ht : (s.thread t).state = .outside) {size : ℕ} (hsize : size < 2 ^ 31) :
    (s.pipefsRead t size false false).Quiet [] := by
  have hself := begin_self s .read t size []
  have hbegin := h.sound.begin ht .read size []
  have hquiet : (s.begin .read t size []).Quiet [] := h.quiet.setThread (h.sound.free (.inr ht)) _
  have hfree := hbegin.free (.inl (by rw [hself]))
  obtain ⟨hwrites, hresults, hread, hstream, hwaits⟩ := hbegin.readLoop_stream (s.queue .write) size rfl
    (hquiet.waits .write)
  obtain ⟨hloop, hlen, hframe, hnone⟩ := hbegin.readLoop (s.queue .write) size rfl
    fun u hu => hbegin.clear_of_waiting (hquiet.waits .write u (reached_subset _ _ _ hu))
  rw [Pipe.pipefsRead]
  dsimp only
  have hlinked : (s.begin .read t size []).linked = true := hbegin.linked
  have hqueue : (s.begin .read t size []).queue .write = s.queue .write := rfl
  rw [hqueue, hlinked, if_neg (by simp : ¬(true = false))]
  split
  · next hzero =>
    refine hquiet.leave hfree ?_
    rw [hself]
    exact ⟨Int.le_refl 0, fun hpos => absurd hzero (Nat.ne_of_gt hpos)⟩
  · next hne =>
    split
    · next hnil =>
      obtain ⟨-, hsame⟩ := hnone (Nat.pos_of_ne_zero hne) hnil
      rw [hsame]
      exact hquiet.enqueue hfree rfl (fun _ => rfl) fun hk => by simp at hk
    · next hsome =>
      have hthread : (Pipe.readLoop (s.queue .write) size (s.begin .read t size [])).1.thread t =
          { s.thread t with state := .running, side := .read, size := size, data := [], moved := [] } :=
        (hframe t (hfree .write)).trans hself
      have hfree' := hloop.free (.inl (by rw [hthread]))
      have hafter : (Pipe.readLoop (s.queue .write) size (s.begin .read t size [])).1.Quiet [] := by
        refine ⟨fun k u hu => ?_, ?_, ?_⟩
        · cases k with
          | read =>
            rw [hread] at hu
            have hu' : u ∉ s.queue .write := by
              intro hmem
              have hside := (hbegin.requests hmem).side
              rw [(hbegin.requests hu).side] at hside
              simp at hside
            rw [hframe u hu']
            exact hquiet.waits .read u hu
          | write => exact hwaits u hu
        · rw [hwrites, hstream]
          exact hquiet.stream
        · rw [hresults]
          exact hquiet.results
      have hrecord : ((Pipe.readLoop (s.queue .write) size (s.begin .read t size [])).1.record .read t
          (Pipe.readLoop (s.queue .write) size (s.begin .read t size [])).2).Quiet [] := by
        refine ⟨hafter.waits, ?_, hafter.results⟩
        exact hafter.stream
      refine (hrecord.setThread hfree' _).leave hfree' ?_
      rw [setThread_self, record_thread, hthread]
      show 0 ≤ toInt _ ∧ (0 < size → 1 ≤ toInt _ ∧ toInt _ ≤ (size : ℤ))
      rw [toInt_eq (Nat.lt_of_le_of_lt hlen hsize)]
      omega

theorem Calm.pipefsWrite (h : s.Calm) (ht : (s.thread t).state = .outside) (hsize : data.length < 2 ^ 31) :
    (s.pipefsWrite t data false false).Quiet [] := by
  have hself := beginWrite_self s t data
  have hbegin := h.sound.beginWrite ht data
  have hset := h.quiet.setThread (h.sound.free (.inr ht))
    { s.thread t with state := .running, side := .write, size := data.length, data := data, moved := [] }
  have hquiet : (s.beginWrite t data).Quiet data := by
    refine ⟨hset.waits, ?_, hset.results⟩
    show stream (s.writes ++ [(t, data)]) = _
    have hold := hset.stream
    rw [List.append_nil] at hold
    rw [stream_append, stream_single]
    exact congrArg (· ++ data) hold
  have hfree := hbegin.free (.inl (by rw [hself]))
  have hclear : ∀ u ∈ (s.beginWrite t data).reached (s.queue .read) data.length,
      ((s.beginWrite t data).thread u).interrupted = false :=
    fun u hu => hbegin.clear_of_waiting (hquiet.waits .read u (reached_subset _ _ _ hu))
  obtain ⟨hwrites, hresults, hwrite, hstream, hwaits, hframe⟩ := hbegin.writeLoop_stream (s.queue .read)
    data rfl (by rw [hself]) (by rw [hself]) (hquiet.waits .read)
  obtain ⟨hloop, ⟨given, -, hthread⟩, -, -⟩ := hbegin.writeLoop (s.queue .read)
    data rfl (by rw [hself]) (by rw [hself]) hclear
  rw [hself] at hthread
  rw [Pipe.pipefsWrite]
  dsimp only
  have hlinked : (s.beginWrite t data).linked = true := hbegin.linked
  have hqueue : (s.beginWrite t data).queue .read = s.queue .read := rfl
  rw [hqueue, hlinked, if_neg (by simp : ¬(true = false))]
  have hafter : (Pipe.writeLoop t (s.queue .read) data (s.beginWrite t data)).1.Quiet
      (Pipe.writeLoop t (s.queue .read) data (s.beginWrite t data)).2 := by
    have hwriter (u : ℕ) (hu : u ∈ s.queue .write) :
        (Pipe.writeLoop t (s.queue .read) data (s.beginWrite t data)).1.thread u =
          (s.beginWrite t data).thread u := by
      refine hframe u ?_ ?_
      · intro hmem
        have hside := (hbegin.requests hu).side
        rw [(hbegin.requests hmem).side] at hside
        simp at hside
      · rintro rfl
        exact hfree .write hu
    have hqueue' : (s.beginWrite t data).queue .write = s.queue .write := rfl
    refine ⟨fun k u hu => ?_, ?_, ?_⟩
    · cases k with
      | read => exact hwaits u hu
      | write =>
        rw [hwrite] at hu
        rw [hwriter u hu]
        exact hquiet.waits .write u hu
    · rw [hwrites, hquiet.stream, hwrite, hqueue']
      obtain hnil | hnil := h.sound.alternate
      · rw [hnil, Pipe.writeLoop]
      · rw [hnil]
        show Pipe.stream _ ++ [] ++ data = Pipe.stream _ ++ [] ++ _
        rw [List.append_nil, List.append_nil, hstream]
    · rw [hresults]
      exact hquiet.results
  have hfree' := hloop.free (.inl (by rw [hthread]))
  split
  · next hzero =>
    have hnil : data = [] := List.eq_nil_of_length_eq_zero hzero
    subst hnil
    refine hquiet.leave hfree ?_
    rw [hself]
    rfl
  · split
    · next hall =>
      rw [List.eq_nil_of_length_eq_zero hall] at hafter
      refine hafter.leave hfree' ?_
      rw [hthread]
      exact toInt_eq hsize
    · exact hafter.enqueue hfree' rfl (fun hk => by simp at hk) fun _ => rfl

theorem Calm.resume (h : s.Calm) (hresume : s.resume t = some s') : s'.Quiet [] := by
  rw [Pipe.resume] at hresume
  split at hresume
  · next hready =>
    obtain rfl := Option.some.inj hresume
    cases h.sound.fits t with
    | outside hstate => simp [hready] at hstate
    | running hstate => simp [hready] at hstate
    | waiting hstate => simp [hready] at hstate
    | @interrupted k _ _ _ hq _ =>
      have hstate := h.quiet.waits k t ((hq k).mpr rfl)
      simp [hready] at hstate
    | served _ hno hq hserved =>
      have hset := h.quiet.setThread hq { s.thread t with state := .running, interrupted := false }
      rw [if_neg (by simp [hno]), finish_served]
      refine hset.leave hq ?_
      rw [setThread_self, Result.Complete]
      cases hside : (s.thread t).side with
      | read =>
        obtain ⟨hrc, hpos, hle⟩ := hserved.reader hside
        show 0 ≤ (s.thread t).req.rc ∧
          (0 < (s.thread t).size → 1 ≤ (s.thread t).req.rc ∧ (s.thread t).req.rc ≤ ((s.thread t).size : ℤ))
        omega
      | write =>
        obtain ⟨hrc, -, -⟩ := hserved.writer hside
        rw [hrc, if_neg (by decide), toInt_eq hserved.bound]
  · simp at hresume

theorem Calm.exec (h : s.Calm) {c : PipeCall} (hc' : c.Ordinary) (hblock : c.Blocking)
    (hc : c.exec s = some s') : s'.Calm := by
  refine ⟨h.sound.exec hc' (h.gentle hc' hblock) hc, ?_⟩
  cases c with
  | read t size nonblock signals =>
    obtain ⟨rfl, rfl⟩ := hblock
    rw [PipeCall.exec] at hc
    split at hc
    · next ht =>
      obtain rfl := Option.some.inj hc
      exact h.pipefsRead ht hc'
    · simp at hc
  | write t data nonblock signals =>
    obtain ⟨rfl, rfl⟩ := hblock
    rw [PipeCall.exec] at hc
    split at hc
    · next ht =>
      obtain rfl := Option.some.inj hc
      exact h.pipefsWrite ht hc'
    · simp at hc
  | interrupt t => exact hblock.elim
  | resume t => exact h.resume hc
  | close k => exact hc'.elim

theorem Initial.calm (h : s.Initial) : s.Calm where
  sound := h.sound
  quiet := by
    refine ⟨fun k u hu => ?_, ?_, fun r hr => ?_⟩
    · simp [h.queue] at hu
    · simp [h.queue, h.writes, h.log, offered]
    · simp [h.results] at hr

end Pipe

end SimpleKernel.Pipefs
