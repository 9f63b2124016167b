import SimpleKernel.Tcp.Input

/-! What the functions of TCP leave as it is. -/
namespace SimpleKernel.Tcp
open SeqNum

namespace Sender

/-- The segments that were not acknowledged, in the order of their numbers. -/
def segs (s : Sender) : List SendSeg := s.unacked ++ s.unsent

end Sender

theorem SendSeg.mark_seqno (state : TcpState) (s : SendSeg) : (s.mark state).seqno = s.seqno := by
  rw [mark]
  split <;> rfl

theorem SendSeg.mark_tcplen (state : TcpState) (s : SendSeg) : (s.mark state).tcplen = s.tcplen := by
  rw [mark]
  split <;> rfl

theorem SendSeg.mark_next (state : TcpState) (s : SendSeg) : (s.mark state).next = s.next := by
  rw [next, mark_seqno, mark_tcplen]
  rfl

namespace Pcb
variable {p q : Pcb}

/-- `q` is `p` but for the queues, `snd_nxt` and `snd_max` of the sender and the flags of acknowledgements. -/
structure SameButQueues (p q : Pcb) : Prop where
  state : q.state = p.state
  infr : q.infr = p.infr
  reset : q.reset = p.reset
  closed : q.closed = p.closed
  gotFin : q.gotFin = p.gotFin
  rcv : q.rcv = p.rcv
  snd : q.snd = { p.snd with
    unsent := q.snd.unsent, unacked := q.snd.unacked, sndNxt := q.snd.sndNxt, sndMax := q.snd.sndMax }

theorem SameButQueues.refl (p : Pcb) : SameButQueues p p := ⟨rfl, rfl, rfl, rfl, rfl, rfl, rfl⟩

theorem SameButQueues.trans {r : Pcb} (h : SameButQueues p q) (h' : SameButQueues q r) : SameButQueues p r := by
  refine ⟨h'.state.trans h.state, h'.infr.trans h.infr, h'.reset.trans h.reset, h'.closed.trans h.closed,
    h'.gotFin.trans h.gotFin, h'.rcv.trans h.rcv, h'.snd.trans ?_⟩
  rw [h.snd]

/-- What `tcp_output` sends is the first part of the unsent segments. -/
structure Sends (p q : Pcb) (sent rest : List SendSeg) : Prop where
  fits : ∀ s ss, sent = s :: ss → (s.seqno - p.snd.lastack + num s.len).toNat ≤ p.snd.sndWnd
  same : SameButQueues p q
  unsent : p.snd.unsent = sent ++ rest
  left : q.snd.unsent = rest
  unacked : q.snd.unacked = p.snd.unacked ++ (sent.filter fun s => decide (0 < s.tcplen)).map (·.mark p.state)
  sndNxt : q.snd.sndNxt = ((sent.getLast?.map SendSeg.next).getD p.snd.sndNxt)

theorem sendSegment_same (p : Pcb) (seg : SendSeg) (rest : List SendSeg) :
    SameButQueues p (p.sendSegment seg rest) := by
  rw [sendSegment]
  split
  · exact ⟨rfl, rfl, rfl, rfl, rfl, rfl, rfl⟩
  · exact ⟨rfl, rfl, rfl, rfl, rfl, rfl, rfl⟩

theorem sendSegment_snd (p : Pcb) (seg : SendSeg) (rest : List SendSeg) :
    (p.sendSegment seg rest).snd.unsent = rest ∧ (p.sendSegment seg rest).snd.sndNxt = seg.next ∧
      (p.sendSegment seg rest).snd.unacked =
        p.snd.unacked ++ (if 0 < seg.tcplen then [seg.mark p.state] else []) := by
  by_cases hstate : p.state ≠ .synSent
  · by_cases hpos : 0 < seg.tcplen
    · simp [sendSegment, hstate, hpos, SendSeg.mark_next, SendSeg.mark_tcplen]
    · simp [sendSegment, hstate, hpos, SendSeg.mark_next, SendSeg.mark_tcplen]
  · by_cases hpos : 0 < seg.tcplen
    · simp [sendSegment, hstate, hpos, SendSeg.mark_next, SendSeg.mark_tcplen]
    · simp [sendSegment, hstate, hpos, SendSeg.mark_next, SendSeg.mark_tcplen]

theorem outputLoop_sends (wnd : ℕ) (l : List SendSeg) (p : Pcb) (hl : p.snd.unsent = l) (hwnd : wnd ≤ p.snd.sndWnd) :
    ∃ sent rest, Sends p (outputLoop wnd l p) sent rest := by
  induction l generalizing p with
  | nil => exact ⟨[], [], fun _ _ h => (nomatch h), SameButQueues.refl p, hl, hl, by simp [outputLoop], rfl⟩
  | cons seg l ih =>
    rw [outputLoop]
    split
    · have hsame := sendSegment_same p seg l
      have hwnd' : (p.sendSegment seg l).snd.sndWnd = p.snd.sndWnd := by rw [hsame.snd]
      obtain ⟨hunsent, hnxt, hunacked⟩ := sendSegment_snd p seg l
      obtain ⟨sent, rest, h⟩ := ih (p.sendSegment seg l) hunsent (hwnd' ▸ hwnd)
      refine ⟨seg :: sent, rest, fun s ss hs => ?_, hsame.trans h.same, ?_, h.left, ?_, ?_⟩
      · obtain ⟨rfl, -⟩ := List.cons.inj hs
        omega
      · rw [hl, List.cons_append, ← h.unsent, hunsent]
      · rw [h.unacked, hunacked, hsame.state]
        by_cases hpos : 0 < seg.tcplen
        · simp [hpos]
        · simp [hpos]
      · rw [h.sndNxt, hnxt]
        cases sent with
        | nil => rfl
        | cons s sent => rfl
    · exact ⟨[], seg :: l, fun _ _ h => (nomatch h), SameButQueues.refl p, hl, hl, by simp, rfl⟩

theorem tcpOutput_sends (p : Pcb) : ∃ sent rest, Sends p p.tcpOutput sent rest := by
  obtain ⟨sent, rest, h⟩ :=
    outputLoop_sends (min p.snd.sndWnd p.snd.cwnd) p.snd.unsent p rfl (Nat.min_le_left _ _)
  refine ⟨sent, rest, ?_⟩
  simp only [tcpOutput]
  split
  · exact ⟨h.fits, ⟨h.same.state, h.same.infr, h.same.reset, h.same.closed, h.same.gotFin, h.same.rcv, h.same.snd⟩,
      h.unsent, h.left, h.unacked, h.sndNxt⟩
  · exact h

theorem tcpOutput_same (p : Pcb) : SameButQueues p p.tcpOutput := by
  obtain ⟨_, _, h⟩ := tcpOutput_sends p
  exact h.same

theorem tcpRexmit_same (p : Pcb) : SameButQueues p p.tcpRexmit := by
  rw [tcpRexmit]
  split
  · exact SameButQueues.refl p
  · rename_i seg segs _
    have h := tcpOutput_same { p with snd := { p.snd with
      unsent := seg :: segs ++ p.snd.unsent, unacked := [], sndNxt := seg.seqno } }
    exact ⟨h.state, h.infr, h.reset, h.closed, h.gotFin, h.rcv, h.snd⟩

/-- `q` is `p` but for the sender and the flags of acknowledgements. -/
structure SameReceiver (p q : Pcb) : Prop where
  state : q.state = p.state
  reset : q.reset = p.reset
  closed : q.closed = p.closed
  gotFin : q.gotFin = p.gotFin
  rcv : q.rcv = p.rcv

theorem SameReceiver.refl (p : Pcb) : SameReceiver p p := ⟨rfl, rfl, rfl, rfl, rfl⟩

theorem SameReceiver.trans {r : Pcb} (h : SameReceiver p q) (h' : SameReceiver q r) : SameReceiver p r :=
  ⟨h'.state.trans h.state, h'.reset.trans h.reset, h'.closed.trans h.closed, h'.gotFin.trans h.gotFin,
    h'.rcv.trans h.rcv⟩

theorem SameButQueues.receiver (h : SameButQueues p q) : SameReceiver p q :=
  ⟨h.state, h.reset, h.closed, h.gotFin, h.rcv⟩

/-- `q` is `p` but for the congestion window, the counters and the flags of acknowledgements. -/
structure SameQueues (p q : Pcb) : Prop where
  receiver : SameReceiver p q
  unacked : q.snd.unacked = p.snd.unacked
  unsent : q.snd.unsent = p.snd.unsent
  sndNxt : q.snd.sndNxt = p.snd.sndNxt
  sndMax : q.snd.sndMax = p.snd.sndMax
  sndLbb : q.snd.sndLbb = p.snd.sndLbb
  lastack : q.snd.lastack = p.snd.lastack
  mss : q.snd.mss = p.snd.mss
  sndQueuelen : q.snd.sndQueuelen = p.snd.sndQueuelen
  sndWnd : q.snd.sndWnd = p.snd.sndWnd

theorem SameQueues.refl (p : Pcb) : SameQueues p p :=
  ⟨SameReceiver.refl p, rfl, rfl, rfl, rfl, rfl, rfl, rfl, rfl, rfl⟩

theorem SameQueues.trans {r : Pcb} (h : SameQueues p q) (h' : SameQueues q r) : SameQueues p r :=
  ⟨h.receiver.trans h'.receiver, h'.unacked.trans h.unacked, h'.unsent.trans h.unsent, h'.sndNxt.trans h.sndNxt,
    h'.sndMax.trans h.sndMax, h'.sndLbb.trans h.sndLbb, h'.lastack.trans h.lastack, h'.mss.trans h.mss,
    h'.sndQueuelen.trans h.sndQueuelen, h'.sndWnd.trans h.sndWnd⟩

theorem updateWindow_eq (p : Pcb) (seg : RxSeg) : ∃ wnd wl1 wl2, (wnd = p.snd.sndWnd ∨ wnd = seg.wnd) ∧
    p.updateWindow seg = { p with snd := { p.snd with sndWnd := wnd, sndWl1 := wl1, sndWl2 := wl2 } } := by
  rw [updateWindow]
  split
  · exact ⟨seg.wnd, seg.seqno, seg.ackno, .inr rfl, rfl⟩
  · exact ⟨p.snd.sndWnd, p.snd.sndWl1, p.snd.sndWl2, .inl rfl, rfl⟩

theorem updateWindow_receiver (p : Pcb) (seg : RxSeg) : SameReceiver p (p.updateWindow seg) := by
  obtain ⟨wnd, wl1, wl2, -, h⟩ := updateWindow_eq p seg
  rw [h]
  exact ⟨rfl, rfl, rfl, rfl, rfl⟩

theorem growWindow_queues (p : Pcb) (n : ℕ) : SameQueues p (p.growWindow n) := by
  rw [growWindow]
  split
  · exact ⟨⟨rfl, rfl, rfl, rfl, rfl⟩, rfl, rfl, rfl, rfl, rfl, rfl, rfl, rfl, rfl⟩
  · exact SameQueues.refl p

theorem dupAck_cases (p : Pcb) (edge : UInt32) :
    SameQueues p (p.dupAck edge) ∨ ∃ r, SameQueues p r ∧ SameQueues r.tcpRexmit (p.dupAck edge) := by
  have hcount : SameQueues p { p with snd := { p.snd with
      acked := 0, dupacks := ushort (p.snd.dupacks + 1) } } :=
    ⟨⟨rfl, rfl, rfl, rfl, rfl⟩, rfl, rfl, rfl, rfl, rfl, rfl, rfl, rfl, rfl⟩
  rw [dupAck]
  dsimp only
  split
  · split
    · split
      · exact .inr ⟨_, hcount, ⟨rfl, rfl, rfl, rfl, rfl⟩, rfl, rfl, rfl, rfl, rfl, rfl, rfl, rfl, rfl⟩
      · exact .inl (hcount.trans (growWindow_queues _ _))
    · exact .inl hcount
  · exact .inl ⟨⟨rfl, rfl, rfl, rfl, rfl⟩, rfl, rfl, rfl, rfl, rfl, rfl, rfl, rfl, rfl⟩

theorem dupAck_receiver (p : Pcb) (edge : UInt32) : SameReceiver p (p.dupAck edge) := by
  rcases dupAck_cases p edge with h | ⟨r, hr, h⟩
  · exact h.receiver
  · exact (hr.receiver.trans (tcpRexmit_same r).receiver).trans h.receiver

/-- What an acknowledgement of new data does to the queues and their numbers. -/
structure Acknowledges (p q : Pcb) (ackno : UInt32) : Prop where
  receiver : SameReceiver p q
  unacked : q.snd.unacked = (Sender.removeAcked ackno p.snd.unacked p.snd.sndQueuelen).1
  unsent : q.snd.unsent = (Sender.removeUnsent ackno p.snd.unsent
    (Sender.removeAcked ackno p.snd.unacked p.snd.sndQueuelen).2 p.snd.sndNxt).1
  sndQueuelen : q.snd.sndQueuelen = (Sender.removeUnsent ackno p.snd.unsent
    (Sender.removeAcked ackno p.snd.unacked p.snd.sndQueuelen).2 p.snd.sndNxt).2.1
  lastack : q.snd.lastack = ackno
  sndLbb : q.snd.sndLbb = p.snd.sndLbb
  sndMax : q.snd.sndMax = p.snd.sndMax
  mss : q.snd.mss = p.snd.mss
  sndWnd : q.snd.sndWnd = p.snd.sndWnd

/-- The parts of `newAck`: the end of fast retransmission, the numbers, the congestion window and the queues. -/
def endRetransmit (p : Pcb) : Pcb :=
  if p.infr then { p with infr := false, snd := { p.snd with cwnd := p.snd.ssthresh } } else p

def countAck (p : Pcb) (ackno : UInt32) : Pcb :=
  let acked := ushort (ackno - p.snd.lastack).toNat
  { p with snd := { p.snd with
    acked := acked, sndBuf := ushort (p.snd.sndBuf + acked), dupacks := 0, lastack := ackno } }

def openWindow (p : Pcb) : Pcb :=
  if p.state = .synSent ∨ p.state = .synRcvd ∨ p.state = .listen ∨ p.state = .closed then p
  else if p.snd.cwnd < p.snd.ssthresh then p.growWindow p.snd.mss
  else
    let cwnd := ushort (p.snd.cwnd + p.snd.mss * p.snd.mss / p.snd.cwnd)
    if cwnd > p.snd.cwnd then { p with snd := { p.snd with cwnd := cwnd } } else p

def dropAcked (p : Pcb) (ackno : UInt32) : Pcb :=
  let a := Sender.removeAcked ackno p.snd.unacked p.snd.sndQueuelen
  let u := Sender.removeUnsent ackno p.snd.unsent a.2 p.snd.sndNxt
  { p with snd := { p.snd with unacked := a.1, unsent := u.1, sndQueuelen := u.2.1, sndNxt := u.2.2 } }

theorem newAck_eq (p : Pcb) (ackno : UInt32) :
    p.newAck ackno = ((p.endRetransmit.countAck ackno).openWindow).dropAcked ackno := rfl

theorem endRetransmit_queues (p : Pcb) : SameQueues p p.endRetransmit := by
  rw [endRetransmit]
  split
  · exact ⟨⟨rfl, rfl, rfl, rfl, rfl⟩, rfl, rfl, rfl, rfl, rfl, rfl, rfl, rfl, rfl⟩
  · exact SameQueues.refl p

theorem openWindow_queues (p : Pcb) : SameQueues p p.openWindow := by
  rw [openWindow]
  dsimp only
  split
  · exact SameQueues.refl p
  · split
    · exact growWindow_queues _ _
    · split
      · exact ⟨⟨rfl, rfl, rfl, rfl, rfl⟩, rfl, rfl, rfl, rfl, rfl, rfl, rfl, rfl, rfl⟩
      · exact SameQueues.refl p

theorem newAck_acknowledges (p : Pcb) (ackno : UInt32) : Acknowledges p (p.newAck ackno) ackno := by
  have h₁ := endRetransmit_queues p
  have h₂ := openWindow_queues (p.endRetransmit.countAck ackno)
  have hr : SameReceiver p (p.newAck ackno) := by
    have hcount : SameReceiver p.endRetransmit (p.endRetransmit.countAck ackno) := ⟨rfl, rfl, rfl, rfl, rfl⟩
    have h := (h₁.receiver.trans hcount).trans h₂.receiver
    exact ⟨h.state, h.reset, h.closed, h.gotFin, h.rcv⟩
  have hunacked : (p.endRetransmit.countAck ackno).openWindow.snd.unacked = p.snd.unacked :=
    h₂.unacked.trans h₁.unacked
  have hunsent : (p.endRetransmit.countAck ackno).openWindow.snd.unsent = p.snd.unsent :=
    h₂.unsent.trans h₁.unsent
  have hlen : (p.endRetransmit.countAck ackno).openWindow.snd.sndQueuelen = p.snd.sndQueuelen :=
    h₂.sndQueuelen.trans h₁.sndQueuelen
  have hnxt : (p.endRetransmit.countAck ackno).openWindow.snd.sndNxt = p.snd.sndNxt :=
    h₂.sndNxt.trans h₁.sndNxt
  refine ⟨hr, ?_, ?_, ?_, h₂.lastack, h₂.sndLbb.trans h₁.sndLbb, h₂.sndMax.trans h₁.sndMax, h₂.mss.trans h₁.mss,
    h₂.sndWnd.trans h₁.sndWnd⟩
  · rw [← hunacked, ← hlen]
    rfl
  · rw [← hunacked, ← hlen, ← hunsent, ← hnxt]
    rfl
  · rw [← hunacked, ← hlen, ← hunsent, ← hnxt]
    rfl

theorem newAck_receiver (p : Pcb) (ackno : UInt32) : SameReceiver p (p.newAck ackno) :=
  (newAck_acknowledges p ackno).receiver

theorem receiveAck_receiver (p : Pcb) (seg : RxSeg) : SameReceiver p (p.receiveAck seg) := by
  rw [receiveAck]
  dsimp only
  split
  · have h := updateWindow_receiver p seg
    split
    · exact h.trans (dupAck_receiver _ _)
    · split
      · exact h.trans (newAck_receiver _ _)
      · exact h
  · exact SameReceiver.refl p

/-- `q` is `p` but for the receiver and the flags of acknowledgements and of the FIN. -/
structure SameSender (p q : Pcb) : Prop where
  state : q.state = p.state
  infr : q.infr = p.infr
  reset : q.reset = p.reset
  closed : q.closed = p.closed
  snd : q.snd = p.snd

end Pcb

namespace Receiver

/-- The segment that is next in sequence up to the first segment of the queue. -/
def cut (r : Receiver) (seg : RxSeg) : RxSeg :=
  match r.ooseq with
  | [] => seg
  | o :: _ =>
    if seqLeq o.seqno (seg.seqno + num seg.len) then seg.trimEnd (diff o.seqno seg.seqno) else seg

/-- The data of a segment becomes the data for the application. -/
def take (r : Receiver) (seg : RxSeg) : Receiver × RxSeg :=
  match seg.p with
  | none => (r, seg)
  | some b => if 0 < b.totLen then ({ r with recvData := some b }, { seg with p := none }) else (r, seg)

theorem take_rcvNxt (r : Receiver) (seg : RxSeg) : (r.take seg).1.rcvNxt = r.rcvNxt := by
  rw [take]
  split
  · rfl
  · split <;> rfl

theorem share_rcvNxt (r : Receiver) (seg : RxSeg) : (r.share seg).rcvNxt = r.rcvNxt := by
  rw [share]
  split <;> rfl

end Receiver

namespace Pcb
variable {p q : Pcb}

/-- What a segment that is next in sequence does. -/
structure Accepts (p : Pcb) (seg : RxSeg) (q : Pcb) (rest : RxSeg) (n : ℕ) (fin : Bool) : Prop where
  dequeued : Receiver.dequeue p.rcv.ooseq ((p.rcv.advance (p.rcv.cut seg).tcplen).take (p.rcv.cut seg)).1 0 false =
    some (q.rcv, n, fin)
  rest : rest = ((p.rcv.advance (p.rcv.cut seg).tcplen).take (p.rcv.cut seg)).2
  gotFin : q.gotFin = (p.gotFin || (p.rcv.cut seg).flags.fin || fin)
  state : q.state = p.state
  infr : q.infr = p.infr
  reset : q.reset = p.reset
  closed : q.closed = p.closed
  snd : q.snd = p.snd

theorem inSequence_accepts {seg rest : RxSeg} (h : p.inSequence seg = some (q, rest)) :
    ∃ n fin, Accepts p seg q rest n fin := by
  dsimp only [inSequence] at h
  cases hdequeue : Receiver.dequeue p.rcv.ooseq
    ((p.rcv.advance (p.rcv.cut seg).tcplen).take (p.rcv.cut seg)).1 0 false with
  | none =>
    erw [hdequeue] at h
    cases h
  | some t =>
    erw [hdequeue] at h
    obtain ⟨rfl, rfl⟩ := Prod.mk.inj (Option.some.inj h)
    refine ⟨t.2.1, t.2.2, ?_⟩
    split
    · exact ⟨hdequeue, rfl, rfl, rfl, rfl, rfl, rfl, rfl⟩
    · exact ⟨hdequeue, rfl, rfl, rfl, rfl, rfl, rfl, rfl⟩

theorem inSequence_sender {seg rest : RxSeg} (h : p.inSequence seg = some (q, rest)) : SameSender p q := by
  obtain ⟨n, fin, ha⟩ := inSequence_accepts h
  exact ⟨ha.state, ha.infr, ha.reset, ha.closed, ha.snd⟩

theorem outOfSequence_rcvNxt (p : Pcb) (seg : RxSeg) : (p.outOfSequence seg).rcv.rcvNxt = p.rcv.rcvNxt := by
  rw [outOfSequence]
  split
  · exact Receiver.share_rcvNxt _ _
  · rfl

end Pcb

/-- The segment without what was received before. -/
def RxSeg.fresh (seg : RxSeg) (rcvNxt : UInt32) : RxSeg :=
  if seqLt seg.seqno rcvNxt ∧ seqLt rcvNxt (seg.seqno + num seg.tcplen) then seg.trimFront rcvNxt else seg

/-- The numbers in the receiver's window. -/
def Receiver.InWindow (r : Receiver) (seqno : UInt32) : Prop :=
  seqGeq seqno r.rcvNxt ∧ seqLt seqno (r.rcvNxt + num r.rcvWnd)

namespace Pcb
variable {p q : Pcb}

/-- What the data of a segment does: nothing, or it is next in sequence, or it waits in the queue, or it is outside
the window. -/
inductive DataStep (p : Pcb) (seg : RxSeg) : Pcb → RxSeg → Prop
  | empty (now : Bool) : seg.tcplen ≤ 0 → DataStep p seg { p with ackNow := now } seg
  | next (now : Bool) (q : Pcb) (rest : RxSeg) : 0 < seg.tcplen → p.rcv.InWindow (seg.fresh p.rcv.rcvNxt).seqno →
      (seg.fresh p.rcv.rcvNxt).seqno = p.rcv.rcvNxt →
      { p with ackNow := now }.inSequence (seg.fresh p.rcv.rcvNxt) = some (q, rest) → DataStep p seg q rest
  | wait (now : Bool) : 0 < seg.tcplen → p.rcv.InWindow (seg.fresh p.rcv.rcvNxt).seqno →
      (seg.fresh p.rcv.rcvNxt).seqno ≠ p.rcv.rcvNxt →
      DataStep p seg ({ p with ackNow := now }.outOfSequence (seg.fresh p.rcv.rcvNxt)) (seg.fresh p.rcv.rcvNxt)
  | outside (now : Bool) : 0 < seg.tcplen → ¬ p.rcv.InWindow (seg.fresh p.rcv.rcvNxt).seqno →
      DataStep p seg { p with ackNow := now } (seg.fresh p.rcv.rcvNxt)

theorem receiveData_step {seg rest : RxSeg} (h : p.receiveData seg = some (q, rest)) : DataStep p seg q rest := by
  have hnow (c : Prop) [Decidable c] : (if c then { p with ackNow := true } else p) =
      { p with ackNow := if c then true else p.ackNow } := by
    split <;> rfl
  have hfresh : (if seqLt seg.seqno p.rcv.rcvNxt ∧ seqLt p.rcv.rcvNxt (seg.seqno + num seg.tcplen)
      then seg.trimFront p.rcv.rcvNxt else seg) = seg.fresh p.rcv.rcvNxt := rfl
  rw [receiveData] at h
  simp only [hnow, hfresh] at h
  split at h
  · rename_i hpos
    split at h
    · rename_i hin
      split at h
      · rename_i hnext
        exact .next _ q rest hpos hin hnext.symm h
      · rename_i hnext
        obtain ⟨rfl, rfl⟩ := Prod.mk.inj (Option.some.inj h)
        exact .wait _ hpos hin (Ne.symm hnext)
    · rename_i hin
      obtain ⟨rfl, rfl⟩ := Prod.mk.inj (Option.some.inj h)
      exact .outside _ hpos hin
  · obtain ⟨rfl, rfl⟩ := Prod.mk.inj (Option.some.inj h)
    exact .empty _ (by omega)

theorem receiveData_sender {seg rest : RxSeg} (h : p.receiveData seg = some (q, rest)) : SameSender p q := by
  cases receiveData_step h with
  | empty now _ => exact ⟨rfl, rfl, rfl, rfl, rfl⟩
  | next now q rest _ _ _ h =>
    have hs := inSequence_sender h
    exact ⟨hs.state, hs.infr, hs.reset, hs.closed, hs.snd⟩
  | wait now _ _ _ => exact ⟨rfl, rfl, rfl, rfl, rfl⟩
  | outside now _ _ => exact ⟨rfl, rfl, rfl, rfl, rfl⟩

/-- The queue and the window of the receiver are the same. -/
structure SameSequence (r r' : Receiver) : Prop where
  rcvNxt : r'.rcvNxt = r.rcvNxt
  rcvWnd : r'.rcvWnd = r.rcvWnd
  ooseq : r'.ooseq = r.ooseq

end Pcb

/-- The receiver after the callback got the data and was told of the FIN. -/
def Receiver.passed (r : Receiver) (fin : Bool) : Receiver :=
  { r with
    delivered := r.delivered ++ (r.recvData.map Pbuf.data).getD []
    handed := r.handed ++ (r.recvData.map Pbuf.ids).getD []
    fins := r.fins + if fin then 1 else 0 }

theorem Receiver.passed_sequence (r : Receiver) (fin : Bool) : Pcb.SameSequence r (r.passed fin) := ⟨rfl, rfl, rfl⟩

namespace Pcb
variable {p q : Pcb}

/-- The callback is called with the data and for the FIN. -/
def callRecv (p : Pcb) : Pcb :=
  let p := p.handOver
  if p.gotFin then { p with rcv := { p.rcv with fins := p.rcv.fins + 1 } } else p

theorem callRecv_eq (p : Pcb) : p.callRecv = { p with rcv := p.rcv.passed p.gotFin } := by
  obtain ⟨state, ackDelay, ackNow, infr, reset, closed, gotFin, snd, rcv⟩ := p
  obtain ⟨rcvNxt, rcvWnd, ooseq, recvData, mem, delivered, -, fins⟩ := rcv
  cases recvData with
  | none => cases gotFin <;> simp [callRecv, handOver, Receiver.passed]
  | some d => cases gotFin <;> simp [callRecv, handOver, Receiver.passed]

theorem purge_rcvNxt (p : Pcb) : p.purge.rcv.rcvNxt = p.rcv.rcvNxt := by
  rw [purge]
  split <;> rfl

theorem remove_rcvNxt (p : Pcb) : p.remove.rcv.rcvNxt = p.rcv.rcvNxt := by
  rw [remove]
  split
  · rw [(tcpOutput_same _).rcv, purge_rcvNxt]
  · exact purge_rcvNxt p

/-- What the end of `tcp_input` does to the connection: it is gone, or only the data is passed on, or the FIN of
the peer closes our end too. -/
inductive Finish (p : Pcb) : Pcb → Prop
  | gone (q : Pcb) : q.state = .closed → q.rcv.rcvNxt = p.rcv.rcvNxt → Finish p q
  | kept (r : Receiver) : SameSequence p.rcv r → Finish p { p with rcv := r }
  | output (r : Receiver) : SameSequence p.rcv r → Finish p { p with rcv := r }.tcpOutput
  | close (r : Receiver) (avail : ℕ) : p.gotFin = true → SameSequence p.rcv r →
      Finish p ({ p with rcv := r }.tcpClose avail).1.tcpOutput

theorem finishInput_finish (p : Pcb) (cb : Callbacks) : Finish p (p.finishInput cb) := by
  have hremove : Finish p p.remove := .gone _ rfl (remove_rcvNxt p)
  have hfree : SameSequence p.rcv p.freeRecvData.rcv := ⟨rfl, rfl, rfl⟩
  rw [finishInput]
  split
  · exact hremove
  · split
    · exact hremove
    · split
      · exact .output p.freeRecvData.rcv hfree
      · dsimp only
        split
        · have hcalled (err : ℤ) :
              Finish p (if err = 0 then p.callRecv.tcpOutput else p.callRecv.freeRecvData) := by
            rw [callRecv_eq]
            split
            · exact .output _ (p.rcv.passed_sequence p.gotFin)
            · exact .kept { p.rcv.passed p.gotFin with mem := _ } ⟨rfl, rfl, rfl⟩
          exact hcalled _
        · split
          · rename_i hgot
            exact .close p.freeRecvData.rcv cb.avail hgot hfree
          · exact .output p.freeRecvData.rcv hfree

/-- The unsent segments after the last one was filled, with the number of bytes that went into it. -/
def filled (s : Sender) (data : List UInt8) (flags : Flags) (opt : List UInt8) : List SendSeg × ℕ :=
  if opt = [] ∧ flags = Flags.none then Sender.fillLast s.mss data s.unsent else (s.unsent, 0)

/-- The new segments of `tcp_enqueue`. -/
def newSegs (s : Sender) (data : List UInt8) (flags : Flags) (opt : List UInt8) : List SendSeg :=
  let n := (filled s data flags opt).2
  let left := data.drop n
  if left ≠ [] ∨ opt ≠ [] ∨ flags ≠ Flags.none then
    Sender.makeSegs s.mss flags opt (left.length + tcpSndQueuelen + 1) (s.sndLbb + num n) left
  else []

/-- The unsent segments after `tcp_enqueue`. -/
def enqueued (s : Sender) (data : List UInt8) (flags : Flags) (opt : List UInt8) : List SendSeg :=
  let queue := newSegs s data flags opt
  let linked := Sender.linkSegs s.mss flags (filled s data flags opt).1 queue
  let seg := if linked.2 && queue.length == 1 then none else queue.getLast?
  match seg with
  | none => linked.1
  | some seg => if 0 < seg.len then Sender.push linked.1 else linked.1

theorem tcpEnqueue_eq (p : Pcb) (data : List UInt8) (flags : Flags) (opt : List UInt8) (avail : ℕ) :
    p.tcpEnqueue data flags opt avail =
      if data.length > p.snd.sndBuf then (p, .error .enomem)
      else if p.snd.sndQueuelen ≥ tcpSndQueuelen then (p, .error .enomem)
      else if (newSegs p.snd data flags opt).length > avail ∨
          p.snd.sndQueuelen + (newSegs p.snd data flags opt).length > tcpSndQueuelen then
        ({ p with snd := { p.snd with unsent := (filled p.snd data flags opt).1 } }, .error .enomem)
      else
        ({ p with snd := { p.snd with
          unsent := enqueued p.snd data flags opt
          sndLbb := p.snd.sndLbb + num ↑(data.length + if flags.counts then 1 else 0)
          sndBuf := ushortSub p.snd.sndBuf (data.length + if flags.counts then 1 else 0)
          sndQueuelen := ushort (p.snd.sndQueuelen + (newSegs p.snd data flags opt).length) } }, .ok ()) := rfl

theorem filled_flags (s : Sender) {flags : Flags} (hflags : flags ≠ Flags.none) (data opt : List UInt8) :
    filled s data flags opt = (s.unsent, 0) := if_neg (fun h => hflags h.2)

theorem newSegs_flags (s : Sender) {flags : Flags} (hflags : flags ≠ Flags.none) (opt : List UInt8) :
    ∃ buf, newSegs s [] flags opt = [⟨s.sndLbb, flags, 0, [buf]⟩] ∧ buf.data = [] ∧
      (opt ≠ [] → buf = ⟨opt.length, opt, []⟩) := by
  simp only [newSegs, filled_flags s hflags, Int.natCast_zero,
    num_zero, UInt32.add_zero]
  rw [if_pos (.inr (.inr hflags))]
  refine ⟨_, rfl, ?_, fun hopt => ?_⟩
  · split <;> rfl
  · rw [if_pos hopt]

theorem ne_none {flags : Flags} (h : flags.counts = true) : flags ≠ Flags.none := by
  intro hnone
  rw [hnone] at h
  cases h

theorem tcpEnqueue_receiver (p : Pcb) (data : List UInt8) (flags : Flags) (opt : List UInt8) (avail : ℕ) :
    SameReceiver p (p.tcpEnqueue data flags opt avail).1 := by
  rw [tcpEnqueue_eq]
  split
  · exact SameReceiver.refl p
  · split
    · exact SameReceiver.refl p
    · split
      · exact ⟨rfl, rfl, rfl, rfl, rfl⟩
      · exact ⟨rfl, rfl, rfl, rfl, rfl⟩

theorem tcpClose_rcv (p : Pcb) (avail : ℕ) : (p.tcpClose avail).1.rcv = p.rcv := by
  have hsent := tcpEnqueue_receiver p [] { Flags.none with fin := true } [] avail
  rw [tcpClose]
  dsimp only
  split
  · split <;> rfl
  · split
    · rw [(tcpOutput_same _).rcv]
      exact hsent.rcv
    · exact hsent.rcv

theorem tcpClose_state (p : Pcb) (avail : ℕ) :
    (p.tcpClose avail).1.state = p.state ∨ (p.tcpClose avail).1.state = .closed ∨
      (p.tcpClose avail).1.state = .finWait1 ∨ (p.tcpClose avail).1.state = .lastAck := by
  have hsent := tcpEnqueue_receiver p [] { Flags.none with fin := true } [] avail
  rw [tcpClose]
  dsimp only
  split
  · split
    · exact .inr (.inl rfl)
    · exact .inl rfl
  · rename_i state hnext
    split
    · rw [(tcpOutput_same _).state]
      have hstate : state = .finWait1 ∨ state = .lastAck := by
        revert hnext
        cases p.state <;> simp +contextual [eq_comm]
      rcases hstate with rfl | rfl
      · exact .inr (.inr (.inl rfl))
      · exact .inr (.inr (.inr rfl))
    · exact .inl hsent.state

theorem Finish.rcvNxt (h : Finish p q) : q.rcv.rcvNxt = p.rcv.rcvNxt := by
  cases h with
  | gone q _ hnxt => exact hnxt
  | kept r hr => exact hr.rcvNxt
  | output r hr =>
    rw [(tcpOutput_same _).rcv]
    exact hr.rcvNxt
  | close r avail _ hr =>
    rw [(tcpOutput_same _).rcv, tcpClose_rcv]
    exact hr.rcvNxt

theorem Finish.state (h : Finish p q) :
    q.state = p.state ∨ q.state = .closed ∨ q.state = .finWait1 ∨ q.state = .lastAck := by
  cases h with
  | gone q hgone _ => exact .inr (.inl hgone)
  | kept r hr => exact .inl rfl
  | output r hr => exact .inl (tcpOutput_same _).state
  | close r avail _ hr =>
    rw [(tcpOutput_same _).state]
    exact tcpClose_state { p with rcv := r } avail

theorem parseopt_eq (p : Pcb) (seg : RxSeg) :
    ∃ mss ≤ max p.snd.mss tcpMss, p.parseopt seg = { p with snd := { p.snd with mss := mss } } := by
  rw [parseopt]
  split
  · exact ⟨p.snd.mss, by omega, rfl⟩
  · exact ⟨_, by split <;> omega, rfl⟩

theorem parseopt_receiver (p : Pcb) (seg : RxSeg) : SameReceiver p (p.parseopt seg) := by
  rw [parseopt]
  split <;> exact ⟨rfl, rfl, rfl, rfl, rfl⟩

theorem tcpReceive_frame {seg rest : RxSeg} (h : p.tcpReceive seg = some (q, rest)) :
    q.state = p.state ∧ q.reset = p.reset ∧ q.closed = p.closed := by
  have ha := receiveAck_receiver p seg
  have hd := receiveData_sender h
  exact ⟨hd.state.trans ha.state, hd.reset.trans ha.reset, hd.closed.trans ha.closed⟩

/-- What `tcp_input` forgets first. -/
def cleared (p : Pcb) : Pcb :=
  if p.state ≠ .listen ∧ p.state ≠ .timeWait then
    { p with rcv := { p.rcv with recvData := none }, snd := { p.snd with acked := 0 } }
  else p

theorem cleared_eq (h : p.state ≠ .listen ∧ p.state ≠ .timeWait) : p.cleared =
    { p with rcv := { p.rcv with recvData := none }, snd := { p.snd with acked := 0 } } := if_pos h

theorem cleared_state (p : Pcb) : p.cleared.state = p.state := by
  rw [cleared]
  split <;> rfl

theorem tcpInput_cases {seg : RxSeg} {cb : Callbacks} (h : p.tcpInput seg cb = some q) :
    ∃ r rest aborted q', p.cleared.tcpProcess seg cb = some (r, rest, aborted) ∧
      q' = (if aborted = true ∨ r.state = .listen then r else r.finishInput cb) ∧
      q = { q' with rcv := { q'.rcv with mem := q'.rcv.mem.freeOpt rest.p } } := by
  cases hprocess : p.cleared.tcpProcess seg cb with
  | none =>
    rw [cleared] at hprocess
    simp only [tcpInput, hprocess] at h
    cases h
  | some t =>
    rw [cleared] at hprocess
    simp only [tcpInput, hprocess] at h
    exact ⟨t.1, t.2.1, t.2.2, _, rfl, rfl, (Option.some.inj h).symm⟩

end Pcb

end SimpleKernel.Tcp

/-! What `tcp_slowtmr` of `net/tcp.c` does to one connection. -/
namespace SimpleKernel.Tcp

/-- What the timers of a connection say: it was silent too long or sent its segments too often, the retransmission
timer has run out, the segments out of sequence have waited too long. -/
structure Expired where
  removed : Bool
  rexmit : Bool
  ooseq : Bool

namespace Pcb
variable {p : Pcb}

/-- The retransmission timer has run out. -/
def timeout (p : Pcb) : Pcb :=
  let p := p.tcpRexmit
  let ssthresh := min p.snd.cwnd p.snd.sndWnd / 2
  { p with snd := { p.snd with
    ssthresh := if ssthresh < p.snd.mss then p.snd.mss * 2 else ssthresh
    cwnd := p.snd.mss } }

/-- The segments out of sequence are freed. -/
def dropOoseq (p : Pcb) : Pcb :=
  { p with rcv := { p.rcv with
    ooseq := [], mem := p.rcv.ooseq.foldl (fun m seg => m.freeOpt seg.p) p.rcv.mem } }

/-- `tcp_slowtmr` for an active connection. -/
def slowtmr (p : Pcb) (e : Expired) : Pcb :=
  let p := if e.rexmit ∧ p.snd.unacked ≠ [] then p.timeout else p
  if e.ooseq then p.dropOoseq else p

theorem timeout_receiver (p : Pcb) : SameReceiver p p.timeout := by
  have h := (tcpRexmit_same p).receiver
  exact ⟨h.state, h.reset, h.closed, h.gotFin, h.rcv⟩

theorem slowtmr_flags (p : Pcb) (e : Expired) :
    (p.slowtmr e).state = p.state ∧ (p.slowtmr e).closed = p.closed := by
  have h := timeout_receiver p
  simp only [slowtmr]
  split <;> split <;> simp [dropOoseq, h.state, h.closed]

end Pcb

end SimpleKernel.Tcp
