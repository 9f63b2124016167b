import SimpleKernel.Tcp.Receive

/-! `tcp_process` and `tcp_input` of `net/tcp_input.c`, for a segment of one connection. -/
namespace SimpleKernel.Tcp
open SeqNum

/-- What the callbacks of the application return, `none` where none is registered. `recv` is called with data
and to tell that the peer has closed. `avail` segments can be allocated. -/
structure Callbacks where
  recv : Option (ℤ × ℤ)
  sent : Option ℤ
  accept : Option ℤ
  avail : ℕ

namespace Pcb

/-- `tcp_pcb_purge`. -/
def purge (p : Pcb) : Pcb :=
  if p.state ≠ .closed ∧ p.state ≠ .timeWait ∧ p.state ≠ .listen then
    { p with
      snd := { p.snd with unsent := [], unacked := [] }
      rcv := { p.rcv with
        ooseq := []
        mem := p.rcv.ooseq.foldl (fun m seg => m.freeOpt seg.p) p.rcv.mem } }
  else p

/-- `tcp_pcb_remove`. -/
def remove (p : Pcb) : Pcb :=
  let state := p.state
  let p := p.purge
  let p := if state ≠ .timeWait ∧ state ≠ .listen ∧ p.ackDelay then { p with ackNow := true }.tcpOutput else p
  { p with state := .closed }

/-- A RST that is in the window, or that answers the SYN. -/
def resets (p : Pcb) (seg : RxSeg) : Bool :=
  match p.state with
  | .listen => false
  | .synSent => decide (seg.ackno = p.snd.sndNxt)
  | _ => decide (seqGeq seg.seqno p.rcv.rcvNxt) && decide (seqLeq seg.seqno (p.rcv.rcvNxt + num p.rcv.rcvWnd))

/-- `tcp_parseopt`. -/
def parseopt (p : Pcb) (seg : RxSeg) : Pcb :=
  match seg.mss with
  | none => p
  | some mss => { p with snd := { p.snd with mss := if mss > tcpMss then tcpMss else mss } }

/-- The answer to a SYN on a listening connection: the new connection, with the initial sequence number `iss`. -/
def listenSyn (seg : RxSeg) (iss : UInt32) (avail : ℕ) : Option Pcb :=
  if seg.flags.rst = false ∧ seg.flags.ack = false ∧ seg.flags.syn then
    let n := tcpNew iss
    let n := { n with
      state := .synRcvd
      snd := { n.snd with sndWnd := seg.wnd, ssthresh := seg.wnd, sndWl1 := seg.seqno - 1 }
      rcv := { n.rcv with rcvNxt := seg.seqno + 1 } }
    let n := n.parseopt seg
    some (n.tcpEnqueue [] { Flags.none with syn := true, ack := true } (mssOption n.snd.mss) avail).1.tcpOutput
  else none

/-- `SYN_SENT`: the first segment that waits for its acknowledgement is acknowledged. -/
def processSynSent (p : Pcb) (seg : RxSeg) : Pcb :=
  match p.snd.unacked with
  | [] => p
  | rseg :: rest =>
    if (seg.flags.ack || seg.flags.syn) && decide (seg.ackno = rseg.seqno + 1) then
      let p := { p with
        state := .established
        rcv := { p.rcv with rcvNxt := seg.seqno + 1 }
        snd := { p.snd with
          lastack := seg.ackno, sndWnd := seg.wnd, sndWl1 := seg.seqno - 1, cwnd := p.snd.mss
          sndQueuelen := ushortSub p.snd.sndQueuelen 1, unacked := rest } }
      { p.parseopt seg with ackDelay := true }
    else p

/-- The connection when the acknowledgement of our SYN takes it off the queue. -/
def synAcked (p : Pcb) (seg : RxSeg) (rest : List SendSeg) : Pcb :=
  { p with
    state := .established
    rcv := { p.rcv with rcvNxt := seg.seqno + 1 }
    snd := { p.snd with
      lastack := seg.ackno, sndWnd := seg.wnd, sndWl1 := seg.seqno - 1, cwnd := p.snd.mss
      sndQueuelen := ushortSub p.snd.sndQueuelen 1, unacked := rest } }

theorem processSynSent_cases (p : Pcb) (seg : RxSeg) : p.processSynSent seg = p ∨
    ∃ syn rest, p.snd.unacked = syn :: rest ∧ (seg.flags.ack = true ∨ seg.flags.syn = true) ∧
      seg.ackno = syn.seqno + 1 ∧
      p.processSynSent seg = { (p.synAcked seg rest).parseopt seg with ackDelay := true } := by
  rw [processSynSent]
  split
  · exact .inl rfl
  · next syn rest hun =>
    split
    · next hack =>
      simp only [Bool.and_eq_true, Bool.or_eq_true, decide_eq_true_eq] at hack
      exact .inr ⟨syn, rest, hun, hack.1, hack.2, rfl⟩
    · exact .inl rfl

/-- The connection enters `TIME_WAIT`. -/
def enterTimeWait (p : Pcb) : Pcb := { { p with ackNow := true }.purge with state := .timeWait }

/-- The segment acknowledges all that was sent. -/
def acksAll (p : Pcb) (seg : RxSeg) : Bool := seg.flags.ack && decide (seg.ackno = p.snd.sndNxt)

/-- The change of state after `tcp_receive`. -/
def afterReceive (p : Pcb) (seg : RxSeg) : Pcb :=
  match p.state with
  | .established => if seg.flags.fin then { p with ackNow := true, state := .closeWait } else p
  | .closeWait => if seg.flags.fin then { p with ackNow := true, state := .closeWait } else p
  | .finWait1 =>
    if seg.flags.fin then
      if p.acksAll seg then p.enterTimeWait else { p with ackNow := true, state := .closing }
    else if p.acksAll seg then { p with state := .finWait2 } else p
  | .finWait2 => if seg.flags.fin then p.enterTimeWait else p
  | .closing => if p.acksAll seg then p.enterTimeWait else p
  | .lastAck => if p.acksAll seg then { p with state := .closed, closed := true } else p
  | _ => p

/-- `tcp_process`. The result tells if the connection was aborted. -/
def tcpProcess (p : Pcb) (seg : RxSeg) (cb : Callbacks) : Option (Pcb × RxSeg × Bool) :=
  if seg.flags.rst then
    some (if p.resets seg then { p with reset := true, ackDelay := false } else p, seg, false)
  else
    match p.state with
    | .closed => some (p, seg, false)
    | .listen => some (p, seg, false)
    | .synSent => some (p.processSynSent seg, seg, false)
    | .synRcvd =>
      if seg.flags.ack ∧ seqLt p.snd.lastack seg.ackno ∧ seqLeq seg.ackno p.snd.sndNxt then
        let p := { p with state := .established }
        match cb.accept with
        | none => some (p.remove, seg, true)
        | some rc =>
          if rc < 0 then some (p.remove, seg, true)
          else
            match p.tcpReceive seg with
            | none => none
            | some (p, seg) => some ({ p with snd := { p.snd with cwnd := p.snd.mss } }, seg, false)
      else some (p, seg, false)
    | .timeWait =>
      let next := seg.seqno + num seg.tcplen
      let p := if seqGt next p.rcv.rcvNxt then { p with rcv := { p.rcv with rcvNxt := next } } else p
      some (if 0 < seg.tcplen then { p with ackNow := true } else p, seg, false)
    | _ =>
      match p.tcpReceive seg with
      | none => none
      | some (p, rest) => some (p.afterReceive seg, rest, false)

/-- What `tcp_process` makes of a segment: nothing, the mark of a RST, or what it does in the state of the connection. -/
inductive Processed (p : Pcb) (seg : RxSeg) : Pcb → RxSeg → Bool → Prop
  | kept : Processed p seg p seg false
  | reset : Processed p seg { p with reset := true, ackDelay := false } seg false
  | synSent (hs : p.state = .synSent) (hrst : seg.flags.rst = false) : Processed p seg (p.processSynSent seg) seg false
  | refused (hs : p.state = .synRcvd) : Processed p seg { p with state := .established }.remove seg true
  | accepted {q : Pcb} {rest : RxSeg} (hs : p.state = .synRcvd) (hrst : seg.flags.rst = false)
    (hack : seg.flags.ack ∧ seqLt p.snd.lastack seg.ackno ∧ seqLeq seg.ackno p.snd.sndNxt)
    (hreceive : { p with state := .established }.tcpReceive seg = some (q, rest)) :
    Processed p seg { q with snd := { q.snd with cwnd := q.snd.mss } } rest false
  | timeWait (hs : p.state = .timeWait) (next : UInt32) (now : Bool) :
    Processed p seg { p with ackNow := now, rcv := { p.rcv with rcvNxt := next } } seg false
  | received {q : Pcb} {rest : RxSeg} (hsent : p.state ≠ .synSent) (hrcvd : p.state ≠ .synRcvd)
    (hwait : p.state ≠ .timeWait) (hrst : seg.flags.rst = false) (hreceive : p.tcpReceive seg = some (q, rest)) :
    Processed p seg (q.afterReceive seg) rest false

theorem tcpProcess_cases {p q : Pcb} {seg rest : RxSeg} {cb : Callbacks} {aborted : Bool}
    (h : p.tcpProcess seg cb = some (q, rest, aborted)) : Processed p seg q rest aborted := by
  rw [tcpProcess] at h
  split at h
  · obtain ⟨rfl, rfl, rfl⟩ := by simpa using h
    split
    · exact .reset
    · exact .kept
  next hrst =>
  have hrst : seg.flags.rst = false := by simpa using hrst
  split at h
  · obtain ⟨rfl, rfl, rfl⟩ := by simpa using h
    exact .kept
  · obtain ⟨rfl, rfl, rfl⟩ := by simpa using h
    exact .kept
  · next hs =>
    obtain ⟨rfl, rfl, rfl⟩ := by simpa using h
    exact .synSent hs hrst
  · next hs =>
    dsimp only at h
    split at h
    · next hack =>
      split at h
      · obtain ⟨rfl, rfl, rfl⟩ := by simpa using h
        exact .refused hs
      · split at h
        · obtain ⟨rfl, rfl, rfl⟩ := by simpa using h
          exact .refused hs
        · split at h
          · cases h
          · next hreceive =>
            obtain ⟨rfl, rfl, rfl⟩ := by simpa using h
            exact .accepted hs hrst hack hreceive
    · obtain ⟨rfl, rfl, rfl⟩ := by simpa using h
      exact .kept
  · next hs =>
    obtain ⟨rfl, rfl, rfl⟩ := by simpa using h
    split <;> split <;> exact .timeWait hs _ _
  · next hsent hrcvd hwait =>
    split at h
    · cases h
    · next hreceive =>
      obtain ⟨rfl, rfl, rfl⟩ := by simpa using h
      exact .received hsent hrcvd hwait hrst hreceive

/-- The callback gets the data. -/
def handOver (p : Pcb) : Pcb :=
  match p.rcv.recvData with
  | none => p
  | some d => { p with rcv := { p.rcv with
      delivered := p.rcv.delivered ++ d.data, handed := p.rcv.handed ++ d.ids } }

/-- `pbuf_free(pcb->recv_data)`. -/
def freeRecvData (p : Pcb) : Pcb := { p with rcv := { p.rcv with mem := p.rcv.mem.freeOpt p.rcv.recvData } }

/-- What `tcp_input` does with the result of `tcp_process`. -/
def finishInput (p : Pcb) (cb : Callbacks) : Pcb :=
  if p.reset then p.remove
  else if p.closed then p.remove
  else if p.state = .timeWait then p.freeRecvData.tcpOutput
  else
    let err := if 0 < p.snd.acked then cb.sent.getD 0 else 0
    match cb.recv with
    | some (data, fin) =>
      let err := if p.rcv.recvData.isSome then data else err
      let p := p.handOver
      let err := if p.gotFin then fin else err
      let p := if p.gotFin then { p with rcv := { p.rcv with fins := p.rcv.fins + 1 } } else p
      if err = 0 then p.tcpOutput else p.freeRecvData
    | none =>
      let p := p.freeRecvData
      let p := if p.gotFin then (p.tcpClose cb.avail).1 else p
      p.tcpOutput

/-- `tcp_input` from the call of `tcp_process` on. -/
def tcpInput (p : Pcb) (seg : RxSeg) (cb : Callbacks) : Option Pcb :=
  let p := if p.state ≠ .listen ∧ p.state ≠ .timeWait then
    { p with rcv := { p.rcv with recvData := none }, snd := { p.snd with acked := 0 } } else p
  match p.tcpProcess seg cb with
  | none => none
  | some (p, seg, aborted) =>
    let p := if aborted ∨ p.state = .listen then p else p.finishInput cb
    some { p with rcv := { p.rcv with mem := p.rcv.mem.freeOpt seg.p } }

def tcpRecved (p : Pcb) (len : ℕ) : Pcb :=
  { p with
    ackDelay := true
    rcv := { p.rcv with rcvWnd := min (ushort (p.rcv.rcvWnd + len)) tcpWnd } }

end Pcb

end SimpleKernel.Tcp
