import SimpleKernel.Lib.SeqNum
import Mathlib.Logic.Function.Basic

/-! Packet buffers (`net/pbuf.c`), segments and the protocol control block (`net/tcp.h`), and the sending side of
`net/tcp_output.c`. -/
namespace SimpleKernel.Tcp
open SeqNum

structure Flags where
  fin : Bool
  syn : Bool
  rst : Bool
  psh : Bool
  ack : Bool
  deriving DecidableEq

/-- A received chain of `struct pbuf`: the payload of each buffer, whose length is its `len`, and the `tot_len` of
the first one. `ids` names the packets whose buffers are in the chain. -/
structure Pbuf where
  ids : List ℕ
  bufs : List (List UInt8)
  totLen : ℤ
  deriving DecidableEq

/-- The loop of `pbuf_realloc`. A buffer whose length gets negative has no payload. -/
def cutBufs : List (List UInt8) → ℤ → List (List UInt8)
  | [], _ => []
  | q :: qs, rsize => if q.length < rsize then q :: cutBufs qs (rsize - q.length) else [q.take rsize.toNat]

/-- The loop of `tcp_receive` that drops the first `off` bytes of a chain, with the number of bytes in the
buffers that it leaves empty. -/
def skipBufs : List (List UInt8) → ℕ → List (List UInt8) × ℕ
  | [], _ => ([], 0)
  | q :: qs, off =>
    if q.length < off then
      let r := skipBufs qs (off - q.length)
      ([] :: r.1, q.length + r.2)
    else (q.drop off :: qs, 0)

namespace Pbuf

def data (p : Pbuf) : List UInt8 := p.bufs.flatten

/-- `pbuf_realloc` of buffers in memory. -/
def realloc (p : Pbuf) (size : ℤ) : Pbuf :=
  if p.totLen ≤ size then p else { p with bufs := cutBufs p.bufs size, totLen := size }

/-- The trimming of the first edge in `tcp_receive`. `pbuf_header` on a later buffer of the chain does not
change the `tot_len` of the first one. -/
def trimFront (p : Pbuf) (off : ℕ) : Pbuf :=
  match p.bufs with
  | [] => p
  | q :: qs =>
    if q.length < off then
      let r := skipBufs (q :: qs) off
      { p with bufs := r.1, totLen := p.totLen - r.2 }
    else { p with bufs := q.drop off :: qs, totLen := p.totLen - off }

/-- `pbuf_chain`. -/
def chain (h t : Pbuf) : Pbuf := ⟨h.ids ++ t.ids, h.bufs ++ t.bufs, h.totLen + t.totLen⟩

end Pbuf

/-- The reference counts of received packets, and the packets that were freed, each time they were. -/
structure Mem where
  ref : ℕ → ℤ
  released : List ℕ

/-- `pbuf_free`. -/
def Mem.free (m : Mem) (p : Pbuf) : Mem :=
  match p.ids with
  | [] => m
  | i :: _ =>
    let ref := m.ref i - 1
    { ref := Function.update m.ref i ref, released := if ref ≤ 0 then m.released ++ p.ids else m.released }

/-- `pbuf_free` of a pointer that may be `NULL`. -/
def Mem.freeOpt (m : Mem) : Option Pbuf → Mem
  | none => m
  | some p => m.free p

/-- `pbuf_ref`. -/
def Mem.share (m : Mem) (p : Pbuf) : Mem :=
  match p.ids with
  | [] => m
  | i :: _ => { m with ref := Function.update m.ref i (m.ref i + 1) }

/-- `struct tcp_seg` of a received segment, with the fields of its header and the MSS that its options give. -/
structure RxSeg where
  seqno : UInt32
  ackno : UInt32
  wnd : ℕ
  flags : Flags
  mss : Option ℕ
  len : ℤ
  p : Option Pbuf

/-- `TCP_TCPLEN`. -/
def RxSeg.tcplen (s : RxSeg) : ℤ := s.len + if s.flags.fin || s.flags.syn then 1 else 0

/-- `s.len = size; pbuf_realloc(s.p, s.len)`. -/
def RxSeg.trimEnd (s : RxSeg) (size : ℤ) : RxSeg :=
  { s with len := size, p := s.p.map fun p => p.realloc size }

/-- A `struct pbuf` to send: the size it was allocated with, its options and its data. -/
structure SendBuf where
  size : ℕ
  opt : List UInt8
  data : List UInt8

/-- The offset of the data in a `PBUF_TRANSPORT` buffer. -/
def transportOffset : ℕ := 20 + 20 + 14

/-- `pbuf_spare`. The size does not count the offset. -/
def SendBuf.spare (b : SendBuf) : ℤ := b.size - (transportOffset + b.opt.length + b.data.length)

/-- `struct tcp_seg` of a segment to send. -/
structure SendSeg where
  seqno : UInt32
  flags : Flags
  len : ℕ
  bufs : List SendBuf

def SendSeg.tcplen (s : SendSeg) : ℕ := s.len + if s.flags.fin || s.flags.syn then 1 else 0

/-- The number behind the last byte or flag. -/
def SendSeg.next (s : SendSeg) : UInt32 := s.seqno + num s.tcplen

inductive TcpState
  | closed | listen | synSent | synRcvd | established | finWait1 | finWait2 | closeWait | closing | lastAck
  | timeWait
  deriving DecidableEq

def tcpMss : ℕ := 1460
def tcpWnd : ℕ := 12 * tcpMss
def tcpSndBuf : ℕ := 32 * 1024
def tcpMinSeglen : ℕ := 1460
def tcpSndQueuelen : ℕ := 2 * tcpSndBuf / tcpMinSeglen

/-- The sender variables of `struct tcp_pcb`, without the round-trip times and the timers. -/
structure Sender where
  unsent : List SendSeg
  unacked : List SendSeg
  sndNxt : UInt32
  sndMax : UInt32
  sndLbb : UInt32
  lastack : UInt32
  sndWl1 : UInt32
  sndWl2 : UInt32
  sndWnd : ℕ
  cwnd : ℕ
  ssthresh : ℕ
  mss : ℕ
  sndBuf : ℕ
  sndQueuelen : ℕ
  acked : ℕ
  dupacks : ℕ

/-- The receiver variables. `delivered` records the data that the recv callback got, `handed` the packets, and
`fins` how often it was told that the peer has closed its end. -/
structure Receiver where
  rcvNxt : UInt32
  rcvWnd : ℕ
  ooseq : List RxSeg
  recvData : Option Pbuf
  mem : Mem
  delivered : List UInt8
  handed : List ℕ
  fins : ℕ

/-- `struct tcp_pcb`. The flags have fields of their own. -/
structure Pcb where
  state : TcpState
  ackDelay : Bool
  ackNow : Bool
  infr : Bool
  reset : Bool
  closed : Bool
  gotFin : Bool
  snd : Sender
  rcv : Receiver

/-- A value of 16 bits. -/
def ushort (n : ℕ) : ℕ := n % 2 ^ 16

/-- A subtraction of values of 16 bits. -/
def ushortSub (n m : ℕ) : ℕ := (n + (2 ^ 16 - m % 2 ^ 16)) % 2 ^ 16

inductive SendError
  | enomem | enotconn | eaddrnotavail
  deriving DecidableEq

def Flags.none : Flags := ⟨false, false, false, false, false⟩

/-- `TCP_SYN` or `TCP_FIN`. -/
def Flags.counts (f : Flags) : Bool := f.syn || f.fin

namespace SendSeg

/-- Data goes into the spare room of the last buffer. The result tells how much. -/
def fill (useg : SendSeg) (mss : ℕ) (data : List UInt8) : SendSeg × ℕ :=
  match useg.bufs.getLast? with
  | none => (useg, 0)
  | some b =>
    let buflen := min b.spare data.length
    let buflen := if useg.len + buflen > mss then (mss : ℤ) - useg.len else buflen
    let n := buflen.toNat
    if buflen > 0 then
      ({ useg with
          len := useg.len + n
          bufs := useg.bufs.dropLast ++ [{ b with data := b.data ++ data.take n }] }, n)
    else (useg, 0)

/-- There is room to chain the first new segment to this one. -/
def chains (useg q : SendSeg) (mss : ℕ) (flags : Flags) : Bool :=
  decide (useg.tcplen ≠ 0) && !useg.flags.counts && !flags.counts && decide (useg.len + q.len ≤ mss)

/-- A segment gets its acknowledgement, except before the connection is established. -/
def mark (state : TcpState) (s : SendSeg) : SendSeg :=
  if state ≠ .synSent then { s with flags := { s.flags with ack := true } } else s

end SendSeg

namespace Sender

/-- Data goes into the last unsent segment. -/
def fillLast (mss : ℕ) (data : List UInt8) : List SendSeg → List SendSeg × ℕ
  | [] => ([], 0)
  | [useg] => ([(useg.fill mss data).1], (useg.fill mss data).2)
  | s :: ss => (s :: (fillLast mss data ss).1, (fillLast mss data ss).2)

/-- The segments that `tcp_enqueue` makes, at most `turns` of them. With an `mss` of 0 it makes them until the queue is
too long. -/
def makeSegs (mss : ℕ) (flags : Flags) (opt : List UInt8) : ℕ → UInt32 → List UInt8 → List SendSeg
  | 0, _, _ => []
  | turns + 1, seqno, left =>
    let seglen := min left.length mss
    let size := if seglen < tcpMinSeglen then min mss tcpMinSeglen else seglen
    let buf : SendBuf := if opt ≠ [] then ⟨opt.length, opt, []⟩ else ⟨size, [], left.take seglen⟩
    let rest := left.drop seglen
    ⟨seqno, flags, seglen, [buf]⟩ ::
      if rest = [] then [] else makeSegs mss flags opt turns (seqno + num seglen) rest

/-- The new segments are put behind the unsent ones. The result tells if the first was chained. -/
def linkSegs (mss : ℕ) (flags : Flags) : List SendSeg → List SendSeg → List SendSeg × Bool
  | [], queue => (queue, false)
  | [useg], [] => ([useg], false)
  | [useg], q :: qs =>
    if useg.chains q mss flags then
      ({ useg with len := useg.len + q.len, bufs := useg.bufs ++ q.bufs } :: qs, true)
    else (useg :: q :: qs, false)
  | s :: ss, queue => (s :: (linkSegs mss flags ss queue).1, (linkSegs mss flags ss queue).2)

/-- The last segment gets `TCP_PSH`. -/
def push : List SendSeg → List SendSeg
  | [] => []
  | [s] => [{ s with flags := { s.flags with psh := true } }]
  | s :: ss => s :: push ss

end Sender

namespace Pcb

/-- `tcp_enqueue`; `avail` segments can be allocated. What went into the last unsent segment stays there also
when the call fails. -/
def tcpEnqueue (p : Pcb) (data : List UInt8) (flags : Flags) (opt : List UInt8) (avail : ℕ) :
    Pcb × Except SendError Unit :=
  let s := p.snd
  if data.length > s.sndBuf then (p, .error .enomem)
  else if s.sndQueuelen ≥ tcpSndQueuelen then (p, .error .enomem)
  else
    let filled := if opt = [] ∧ flags = Flags.none then Sender.fillLast s.mss data s.unsent else (s.unsent, 0)
    let left := data.drop filled.2
    let queue := if left ≠ [] ∨ opt ≠ [] ∨ flags ≠ Flags.none then
      Sender.makeSegs s.mss flags opt (left.length + tcpSndQueuelen + 1) (s.sndLbb + num filled.2) left else []
    if queue.length > avail ∨ s.sndQueuelen + queue.length > tcpSndQueuelen then
      ({ p with snd := { s with unsent := filled.1 } }, .error .enomem)
    else
      let linked := Sender.linkSegs s.mss flags filled.1 queue
      let seg := if linked.2 && queue.length == 1 then none else queue.getLast?
      let unsent := match seg with
        | none => linked.1
        | some seg => if 0 < seg.len then Sender.push linked.1 else linked.1
      let len := data.length + if flags.counts then 1 else 0
      ({ p with snd := { s with
          unsent := unsent
          sndLbb := s.sndLbb + num len
          sndBuf := ushortSub s.sndBuf len
          sndQueuelen := ushort (s.sndQueuelen + queue.length) } }, .ok ())

def tcpSendCtrl (p : Pcb) (flags : Flags) (avail : ℕ) : Pcb × Except SendError Unit := p.tcpEnqueue [] flags [] avail

/-- The first unsent segment is sent. What is put on the wire is left out. -/
def sendSegment (p : Pcb) (seg : SendSeg) (rest : List SendSeg) : Pcb :=
  let seg := seg.mark p.state
  let p := if p.state ≠ .synSent then { p with ackDelay := false, ackNow := false } else p
  { p with snd := { p.snd with
    unsent := rest
    sndNxt := seg.next
    sndMax := if seqLt p.snd.sndMax seg.next then seg.next else p.snd.sndMax
    unacked := if 0 < seg.tcplen then p.snd.unacked ++ [seg] else p.snd.unacked } }

/-- The loop of `tcp_output` over the unsent segments. -/
def outputLoop (wnd : ℕ) : List SendSeg → Pcb → Pcb
  | [], p => p
  | seg :: rest, p =>
    if (seg.seqno - p.snd.lastack + num seg.len).toNat ≤ wnd then outputLoop wnd rest (p.sendSegment seg rest)
    else p

def tcpOutput (p : Pcb) : Pcb :=
  let p := outputLoop (min p.snd.sndWnd p.snd.cwnd) p.snd.unsent p
  if p.ackNow then { p with ackDelay := false, ackNow := false } else p

def tcpRexmit (p : Pcb) : Pcb :=
  match p.snd.unacked with
  | [] => p
  | seg :: segs =>
    tcpOutput { p with snd := { p.snd with
      unsent := seg :: segs ++ p.snd.unsent, unacked := [], sndNxt := seg.seqno } }

/-- `opt` of `tcp_write`. -/
inductive WriteOpt
  | noflush | flush | nagle
  deriving DecidableEq

def tcpWrite (p : Pcb) (data : List UInt8) (opt : WriteOpt) (avail : ℕ) : Pcb × Except SendError Unit :=
  if p.state = .synSent ∨ p.state = .synRcvd ∨ p.state = .established ∨ p.state = .closeWait then
    let r := if data = [] then (p, .ok ()) else p.tcpEnqueue data Flags.none [] avail
    match r.2 with
    | .error e => (r.1, .error e)
    | .ok () =>
      match opt with
      | .noflush => (r.1, .ok ())
      | .flush => (r.1.tcpOutput, .ok ())
      | .nagle => (if r.1.snd.unacked = [] then r.1.tcpOutput else r.1, .ok ())
  else (p, .error .enotconn)

/-- What `tcp_enqueue` of the data and `tcp_output` keep is kept by `tcp_write`. -/
theorem tcpWrite_keeps {P : Pcb → Prop} {p : Pcb} {data : List UInt8} {avail : ℕ} (hp : P p)
    (hqueue : data ≠ [] → P (p.tcpEnqueue data Flags.none [] avail).1) (hout : ∀ q, P q → P q.tcpOutput)
    (opt : WriteOpt) : P (p.tcpWrite data opt avail).1 := by
  rw [tcpWrite]
  split
  · have hqueued : P (if data = [] then (p, Except.ok ()) else p.tcpEnqueue data Flags.none [] avail).1 := by
      split
      · exact hp
      · next hdata => exact hqueue hdata
    generalize (if data = [] then (p, Except.ok ()) else p.tcpEnqueue data Flags.none [] avail) = r at hqueued
    dsimp only
    split
    · exact hqueued
    · split
      · exact hqueued
      · exact hout _ hqueued
      · split
        · exact hout _ hqueued
        · exact hqueued
  · exact hp

/-- `tcp_new`, with the initial sequence number `iss`. -/
def tcpNew (iss : UInt32) : Pcb where
  state := .closed
  ackDelay := false
  ackNow := false
  infr := false
  reset := false
  closed := false
  gotFin := false
  snd :=
    { unsent := [], unacked := [], sndNxt := iss, sndMax := iss, sndLbb := iss, lastack := iss, sndWl1 := 0
      sndWl2 := iss, sndWnd := 0, cwnd := 1, ssthresh := 0, mss := tcpMss, sndBuf := tcpSndBuf
      sndQueuelen := 0, acked := 0, dupacks := 0 }
  rcv :=
    { rcvNxt := 0, rcvWnd := tcpWnd, ooseq := [], recvData := none, mem := ⟨fun _ => 0, []⟩, delivered := []
      handed := [], fins := 0 }

/-- The maximum segment size as an option. -/
def mssOption (mss : ℕ) : List UInt8 := [2, 4, UInt8.ofNat (mss / 256), UInt8.ofNat mss]

/-- `tcp_connect` with a second initial sequence number. -/
def tcpConnect (p : Pcb) (iss : UInt32) (avail : ℕ) : Pcb × Except SendError Unit :=
  let p := { p with
    state := .synSent
    snd := { p.snd with
      sndNxt := iss, lastack := iss - 1, sndLbb := iss - 1, sndWnd := tcpWnd, mss := tcpMss, cwnd := 1
      ssthresh := tcpMss * 10 }
    rcv := { p.rcv with rcvNxt := 0, rcvWnd := tcpWnd } }
  let r := p.tcpEnqueue [] { Flags.none with syn := true } (mssOption tcpMss) avail
  match r.2 with
  | .ok () => (r.1.tcpOutput, .ok ())
  | .error e => (r.1, .error e)

/-- `tcp_close` of a connection that is not listening. -/
def tcpClose (p : Pcb) (avail : ℕ) : Pcb × Except SendError Unit :=
  let next : Option TcpState := match p.state with
    | .synRcvd => some .finWait1
    | .established => some .finWait1
    | .closeWait => some .lastAck
    | _ => none
  match next with
  | none => (if p.state = .synSent then { p with state := .closed } else p, .ok ())
  | some state =>
    let r := p.tcpSendCtrl { Flags.none with fin := true } avail
    match r.2 with
    | .ok () => ({ r.1 with state := state }.tcpOutput, .ok ())
    | .error e => (r.1, .error e)

end Pcb

end SimpleKernel.Tcp
