import SimpleKernel.Tcp.Output

/-! `tcp_receive` of `net/tcp_input.c`: the acknowledgement and the data of a segment. -/
namespace SimpleKernel.Tcp
open SeqNum

namespace Sender

/-- The acknowledged segments at the head of a queue are freed, with the length of the queues. -/
def removeAcked (ackno : UInt32) : List SendSeg → ℕ → List SendSeg × ℕ
  | [], n => ([], n)
  | seg :: segs, n =>
    if seqLeq seg.next ackno then removeAcked ackno segs (ushortSub n seg.bufs.length) else (seg :: segs, n)

/-- The same for segments that wait to be sent again. `snd_nxt` goes to the first one that is left. -/
def removeUnsent (ackno : UInt32) : List SendSeg → ℕ → UInt32 → List SendSeg × ℕ × UInt32
  | [], n, nxt => ([], n, nxt)
  | seg :: segs, n, nxt =>
    if seqLeq seg.next ackno then
      removeUnsent ackno segs (ushortSub n seg.bufs.length) (match segs with | [] => nxt | s :: _ => s.seqno)
    else (seg :: segs, n, nxt)

end Sender

namespace Pcb

/-- The window of the peer is updated. -/
def updateWindow (p : Pcb) (seg : RxSeg) : Pcb :=
  if seqLt p.snd.sndWl1 seg.seqno ∨ (p.snd.sndWl1 = seg.seqno ∧ seqLt p.snd.sndWl2 seg.ackno) ∨
      (p.snd.sndWl2 = seg.ackno ∧ seg.wnd > p.snd.sndWnd) then
    { p with snd := { p.snd with sndWnd := seg.wnd, sndWl1 := seg.seqno, sndWl2 := seg.ackno } }
  else p

/-- The congestion window grows by `n` unless it overflows. -/
def growWindow (p : Pcb) (n : ℕ) : Pcb :=
  if ushort (p.snd.cwnd + n) > p.snd.cwnd then { p with snd := { p.snd with cwnd := p.snd.cwnd + n } } else p

/-- An acknowledgement that was received before. -/
def dupAck (p : Pcb) (rightWndEdge : UInt32) : Pcb :=
  let p := { p with snd := { p.snd with acked := 0 } }
  if p.snd.sndWl1 + num p.snd.sndWnd = rightWndEdge then
    let p := { p with snd := { p.snd with dupacks := ushort (p.snd.dupacks + 1) } }
    if p.snd.dupacks ≥ 3 ∧ p.snd.unacked ≠ [] ∧ p.state = .established then
      if p.infr = false then
        let p := p.tcpRexmit
        let ssthresh := max ((p.snd.sndMax - p.snd.lastack).toNat / 2) (2 * p.snd.mss)
        { p with
          infr := true
          snd := { p.snd with ssthresh := ssthresh, cwnd := ssthresh + 3 * p.snd.mss } }
      else p.growWindow p.snd.mss
    else p
  else p

/-- An acknowledgement of new data. -/
def newAck (p : Pcb) (ackno : UInt32) : Pcb :=
  let p := if p.infr then { p with infr := false, snd := { p.snd with cwnd := p.snd.ssthresh } } else p
  let acked := ushort (ackno - p.snd.lastack).toNat
  let p := { p with snd := { p.snd with
    acked := acked, sndBuf := ushort (p.snd.sndBuf + acked), dupacks := 0, lastack := ackno } }
  let p :=
    if p.state = .synSent ∨ p.state = .synRcvd ∨ p.state = .listen ∨ p.state = .closed then p
    else if p.snd.cwnd < p.snd.ssthresh then p.growWindow p.snd.mss
    else
      let cwnd := ushort (p.snd.cwnd + p.snd.mss * p.snd.mss / p.snd.cwnd)
      if cwnd > p.snd.cwnd then { p with snd := { p.snd with cwnd := cwnd } } else p
  let a := Sender.removeAcked ackno p.snd.unacked p.snd.sndQueuelen
  let u := Sender.removeUnsent ackno p.snd.unsent a.2 p.snd.sndNxt
  { p with snd := { p.snd with unacked := a.1, unsent := u.1, sndQueuelen := u.2.1, sndNxt := u.2.2 } }

/-- The first half of `tcp_receive`, without the estimation of round-trip times. -/
def receiveAck (p : Pcb) (seg : RxSeg) : Pcb :=
  if seg.flags.ack then
    let rightWndEdge := num p.snd.sndWnd + p.snd.sndWl1
    let p := p.updateWindow seg
    if p.snd.lastack = seg.ackno then p.dupAck rightWndEdge
    else if seqLt p.snd.lastack seg.ackno ∧ seqLeq seg.ackno p.snd.sndMax then p.newAck seg.ackno
    else p
  else p

end Pcb

/-- A segment that begins before `rcvNxt` and ends behind it loses its first edge. -/
def RxSeg.trimFront (seg : RxSeg) (rcvNxt : UInt32) : RxSeg :=
  let off := (diff rcvNxt seg.seqno).toNat
  { seg with seqno := rcvNxt, len := seg.len - off, p := seg.p.map fun p => p.trimFront off }

namespace Receiver

/-- `rcv_nxt` and the window after `len` numbers were received. -/
def advance (r : Receiver) (len : ℤ) : Receiver :=
  { r with
    rcvNxt := r.rcvNxt + num len
    rcvWnd := if (r.rcvWnd : ℤ) < len then 0 else ushort ((r.rcvWnd : ℤ) - len).toNat }

/-- The segments at the head of the queue that are next in sequence are chained to the data, with the number of
segments and whether one was a FIN. Chaining to no buffer faults. -/
def dequeue : List RxSeg → Receiver → ℕ → Bool → Option (Receiver × ℕ × Bool)
  | [], r, n, fin => some (r, n, fin)
  | cseg :: rest, r, n, fin =>
    if cseg.seqno = r.rcvNxt then
      let r := r.advance cseg.tcplen
      match cseg.p with
      | none => dequeue rest { r with ooseq := rest } (n + 1) (fin || cseg.flags.fin)
      | some p =>
        if 0 < p.totLen then
          match r.recvData with
          | none => none
          | some d => dequeue rest { r with ooseq := rest, recvData := some (d.chain p) } (n + 1) (fin || cseg.flags.fin)
        else dequeue rest { r with ooseq := rest, mem := r.mem.free p } (n + 1) (fin || cseg.flags.fin)
    else some (r, n, fin)

/-- A copy of the segment for the queue, `tcp_seg_copy`. The copy shares the buffers. -/
def share (r : Receiver) (seg : RxSeg) : Receiver :=
  match seg.p with
  | none => r
  | some p => { r with mem := r.mem.share p }

/-- Where a segment that is out of sequence goes, from the segment `next` of the queue on. The result is the queue
and whether the segment was put into it. A queued segment that is replaced is not freed. -/
def insertAfter (seg prev : RxSeg) : List RxSeg → List RxSeg × Bool
  | [] => ([prev], false)
  | next :: rest =>
    if seg.seqno = next.seqno then
      if seg.len > next.len then (prev :: seg :: rest, true) else (prev :: next :: rest, false)
    else if seqLt prev.seqno seg.seqno ∧ seqLt seg.seqno next.seqno then
      let seg := if seqGt (seg.seqno + num seg.len) next.seqno
        then seg.trimEnd (diff next.seqno seg.seqno) else seg
      let prev := if seqGt (prev.seqno + num prev.len) seg.seqno
        then prev.trimEnd (diff seg.seqno prev.seqno) else prev
      (prev :: seg :: next :: rest, true)
    else if rest = [] ∧ seqGt seg.seqno next.seqno then
      let next := if seqGt (next.seqno + num next.len) seg.seqno
        then next.trimEnd (diff seg.seqno next.seqno) else next
      ([prev, next, seg], true)
    else
      let r := insertAfter seg next rest
      (prev :: r.1, r.2)

/-- The loop over the queue that places a segment. -/
def insert (seg : RxSeg) : List RxSeg → List RxSeg × Bool
  | [] => ([seg], true)
  | next :: rest =>
    if seg.seqno = next.seqno then
      if seg.len > next.len then (seg :: rest, true) else (next :: rest, false)
    else if seqLt seg.seqno next.seqno then
      let seg := if seqGt (seg.seqno + num seg.len) next.seqno
        then seg.trimEnd (diff next.seqno seg.seqno) else seg
      (seg :: next :: rest, true)
    else if rest = [] ∧ seqGt seg.seqno next.seqno then
      let next := if seqGt (next.seqno + num next.len) seg.seqno
        then next.trimEnd (diff seg.seqno next.seqno) else next
      ([next, seg], true)
    else insertAfter seg next rest

end Receiver

namespace Pcb

/-- A segment that is next in sequence: its data is for the application, with what follows it in the queue. -/
def inSequence (p : Pcb) (seg : RxSeg) : Option (Pcb × RxSeg) :=
  let seg := match p.rcv.ooseq with
    | [] => seg
    | o :: _ =>
      if seqLeq o.seqno (seg.seqno + num seg.len) then seg.trimEnd (diff o.seqno seg.seqno) else seg
  let r := p.rcv.advance seg.tcplen
  let taken : Receiver × RxSeg := match seg.p with
    | none => (r, seg)
    | some b => if 0 < b.totLen then ({ r with recvData := some b }, { seg with p := none }) else (r, seg)
  match Receiver.dequeue r.ooseq taken.1 0 false with
  | none => none
  | some (r, n, fin) =>
    let p := { p with
      rcv := r
      gotFin := p.gotFin || seg.flags.fin || fin
      ackNow := p.ackNow || decide (0 < n) }
    some (if p.ackDelay then { p with ackNow := true } else { p with ackDelay := true }, taken.2)

/-- A segment that is out of sequence is put into the queue. -/
def outOfSequence (p : Pcb) (seg : RxSeg) : Pcb :=
  let q := Receiver.insert seg p.rcv.ooseq
  let r := { p.rcv with ooseq := q.1 }
  { p with ackNow := true, rcv := if q.2 then r.share seg else r }

/-- The second half of `tcp_receive`. -/
def receiveData (p : Pcb) (seg : RxSeg) : Option (Pcb × RxSeg) :=
  let outside := seqGt p.rcv.rcvNxt seg.seqno ∨ seqGeq seg.seqno (p.rcv.rcvNxt + num p.rcv.rcvWnd)
  if 0 < seg.tcplen then
    let late := seqLt seg.seqno p.rcv.rcvNxt
    let reaches := seqLt p.rcv.rcvNxt (seg.seqno + num seg.tcplen)
    let seg := if late ∧ reaches then seg.trimFront p.rcv.rcvNxt else seg
    let p := if late ∧ ¬ reaches then { p with ackNow := true } else p
    if seqGeq seg.seqno p.rcv.rcvNxt ∧ seqLt seg.seqno (p.rcv.rcvNxt + num p.rcv.rcvWnd) then
      if p.rcv.rcvNxt = seg.seqno then p.inSequence seg else some (p.outOfSequence seg, seg)
    else some (p, seg)
  else some (if outside then { p with ackNow := true } else p, seg)

def tcpReceive (p : Pcb) (seg : RxSeg) : Option (Pcb × RxSeg) := (p.receiveAck seg).receiveData seg

end Pcb

end SimpleKernel.Tcp
