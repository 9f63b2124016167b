import SimpleKernel.Lib.Chain
import SimpleKernel.Tcp.Frames
import Mathlib.Data.Finset.Card

/-! The lists of control blocks of `net/tcp.h`, and the calls that move control blocks between them. -/
namespace SimpleKernel.Tcp
open LinkedList

/-- `tcp_listen_pcbs`, `tcp_active_pcbs` and `tcp_tw_pcbs`. -/
inductive PcbList
  | listen | active | tw
  deriving DecidableEq

/-- The list of the control blocks in a state. -/
def TcpState.list : TcpState → Option PcbList
  | .closed => none
  | .listen => some .listen
  | .timeWait => some .tw
  | _ => some .active

/-- The addresses and ports of a connection. -/
structure Endpoints where
  localIp : UInt32
  localPort : UInt16
  remoteIp : UInt32
  remotePort : UInt16

/-- A segment that was received, with the addresses and ports of its headers. -/
structure Datagram where
  srcIp : UInt32
  srcPort : UInt16
  destIp : UInt32
  destPort : UInt16
  seg : RxSeg

/-- The control blocks in memory, with the lists they are on. -/
structure PcbTable (β : Type*) where
  allocated : Finset β
  next : β → Option β
  head : PcbList → Option β
  pcb : β → Pcb
  ends : β → Endpoints

/-- Why a call does not return: it uses a pointer that is `NULL`, or it follows a list that does not end. -/
inductive Stuck
  | fault | endless
  deriving DecidableEq

/-- A loop over a list. -/
def ended {α : Type*} : Option α → Except Stuck α
  | none => .error .endless
  | some x => .ok x

namespace PcbTable
variable {β : Type*} [DecidableEq β]

/-- The rounds a loop over a list can take before it meets a control block twice. -/
def rounds (t : PcbTable β) : ℕ := t.allocated.card

def setPcb (t : PcbTable β) (a : β) (p : Pcb) : PcbTable β := { t with pcb := Function.update t.pcb a p }

def setEnds (t : PcbTable β) (a : β) (e : Endpoints) : PcbTable β := { t with ends := Function.update t.ends a e }

/-- The links of a list are changed. -/
def setLinks (t : PcbTable β) (k : PcbList) (links : (β → Option β) × Option β) : PcbTable β :=
  { t with next := links.1, head := Function.update t.head k links.2 }

def kfree (t : PcbTable β) (a : β) : PcbTable β := { t with allocated := t.allocated.erase a }

def tcpReg (t : PcbTable β) (k : PcbList) (a : β) : PcbTable β :=
  t.setLinks k (Function.update t.next a (t.head k), some a)

def tcpRmv (t : PcbTable β) (k : PcbList) (a : β) : Except Stuck (PcbTable β) :=
  match unlink t.next (t.head k) t.rounds a with
  | none => .error .endless
  | some links => .ok (t.setLinks k links)

/-- `tcp_pcb_remove`, after which the control block is freed. What happens to its fields is left out. -/
def pcbRemove (t : PcbTable β) (k : PcbList) (a : β) : Except Stuck (PcbTable β) := do
  let t ← t.tcpRmv k a
  return t.kfree a

/-- `tcp_new`; `a` is what `kmalloc` returns. -/
def tcpNew (t : PcbTable β) (a : β) (iss : UInt32) : PcbTable β :=
  { t with
    allocated := insert a t.allocated
    next := Function.update t.next a none
    pcb := Function.update t.pcb a (Tcp.Pcb.tcpNew iss)
    ends := Function.update t.ends a ⟨0, 0, 0, 0⟩ }

/-- The port is in use at the address. -/
def clashes (t : PcbTable β) (ip : UInt32) (port : UInt16) (a : β) : Bool :=
  decide ((t.ends a).localPort = port) &&
    (decide ((t.ends a).localIp = 0) || decide (ip = 0) || decide ((t.ends a).localIp = ip))

/-- `tcp_bind`; `newPort` is what `tcp_new_port` returns, and `own` tells if the address is one of ours. -/
def tcpBind (t : PcbTable β) (a : β) (ip : UInt32) (port newPort : UInt16) (own : Bool) :
    Except Stuck (PcbTable β) := do
  let port := if port = 0 then newPort else port
  let listening ← ended (search t.next (t.clashes ip port) t.rounds none (t.head .listen))
  if listening.isSome then return t
  let active ← ended (search t.next (t.clashes ip port) t.rounds none (t.head .active))
  if active.isSome then return t
  if ip ≠ 0 ∧ own = false then return t
  return t.setEnds a { t.ends a with
    localIp := if ip ≠ 0 then ip else (t.ends a).localIp, localPort := port }

def tcpListen (t : PcbTable β) (a : β) : PcbTable β :=
  if (t.pcb a).state = .listen then t
  else (t.setPcb a { t.pcb a with state := .listen }).tcpReg .listen a

/-- `tcp_connect`; `newPort` is what `tcp_new_port` returns. -/
def tcpConnect (t : PcbTable β) (a : β) (ip : UInt32) (port newPort : UInt16) (iss : UInt32) (avail : ℕ) :
    PcbTable β :=
  if ip = 0 ∨ port = 0 then t
  else
    let e := t.ends a
    let t := t.setEnds a { e with
      remoteIp := ip, remotePort := port, localPort := if e.localPort = 0 then newPort else e.localPort }
    (t.setPcb a ((t.pcb a).tcpConnect iss avail).1).tcpReg .active a

def tcpClose (t : PcbTable β) (a : β) (avail : ℕ) : Except Stuck (PcbTable β) :=
  match (t.pcb a).state with
  | .listen => t.pcbRemove .listen a
  | .synSent => t.pcbRemove .active a
  | _ => .ok (t.setPcb a ((t.pcb a).tcpClose avail).1)

def tcpAbort (t : PcbTable β) (a : β) : Except Stuck (PcbTable β) :=
  if (t.pcb a).state = .timeWait then t.pcbRemove .tw a else t.pcbRemove .active a

/-- The segment is for the connection. -/
def connects (t : PcbTable β) (d : Datagram) (a : β) : Bool :=
  decide ((t.ends a).remotePort = d.srcPort ∧ (t.ends a).localPort = d.destPort ∧
    (t.ends a).remoteIp = d.srcIp ∧ (t.ends a).localIp = d.destIp)

/-- The segment is for the listener. -/
def listens (t : PcbTable β) (d : Datagram) (a : β) : Bool :=
  decide (((t.ends a).localIp = 0 ∨ (t.ends a).localIp = d.destIp) ∧ (t.ends a).localPort = d.destPort)

/-- The control block behind `prev` moves to the front of its list. -/
def moveToFront (t : PcbTable β) (k : PcbList) (prev : Option β) (a : β) : PcbTable β :=
  t.setLinks k (toFront t.next (t.head k) prev a)

/-- `tcp_input` looks for the control block that a segment is for. -/
def lookup (t : PcbTable β) (d : Datagram) : Except Stuck (PcbTable β × Option β) := do
  match ← ended (search t.next (t.connects d) t.rounds none (t.head .active)) with
  | some (prev, a) => return (t.moveToFront .active prev a, some a)
  | none =>
    match ← ended (search t.next (t.connects d) t.rounds none (t.head .tw)) with
    | some (_, a) => return (t, some a)
    | none =>
      match ← ended (search t.next (t.listens d) t.rounds none (t.head .listen)) with
      | some (prev, a) => return (t.moveToFront .listen prev a, some a)
      | none => return (t, none)

/-- A SYN for the listener `a` makes a connection; `fresh` is what `kmalloc` returns. -/
def listenInput (t : PcbTable β) (a : β) (d : Datagram) (fresh : Option β) (iss : UInt32) (avail : ℕ) : PcbTable β :=
  match fresh, Tcp.Pcb.listenSyn d.seg iss avail with
  | some b, some n =>
    let t' := t.tcpNew b iss
    let t' := t'.setEnds b ⟨d.destIp, (t.ends a).localPort, d.srcIp, d.srcPort⟩
    (t'.setPcb b n).tcpReg .active b
  | _, _ => t

/-- `tcp_process` moves a connection that enters `TIME_WAIT` to its list. -/
def setProcessed (t : PcbTable β) (a : β) (q : Pcb) : Except Stuck (PcbTable β) :=
  if (t.pcb a).state ≠ .timeWait ∧ q.state = .timeWait then do
    let t ← t.tcpRmv .active a
    return (t.setPcb a q).tcpReg .tw a
  else .ok (t.setPcb a q)

/-- A segment for the connection `a`. A connection that is closed for want of a callback in `SYN_SENT` is gone like
a reset one. Writes to a control block after it was freed are left out. -/
def connInput (t : PcbTable β) (a : β) (seg : RxSeg) (cb : Callbacks) : Except Stuck (PcbTable β) :=
  match (t.pcb a).cleared.tcpProcess seg cb with
  | none => .error .fault
  | some (q, rest, aborted) =>
    if aborted then t.pcbRemove .active a
    else do
      let t ← t.setProcessed a q
      if q.reset then t.pcbRemove (if q.state = .timeWait then .tw else .active) a
      else if q.closed then t.pcbRemove .active a
      else if q.state = .synSent ∧ q.gotFin ∧ cb.recv = none then t.pcbRemove .active a
      else
        let q := q.finishInput cb
        return t.setPcb a { q with rcv := { q.rcv with mem := q.rcv.mem.freeOpt rest.p } }

def tcpInput (t : PcbTable β) (d : Datagram) (cb : Callbacks) (fresh : Option β) (iss : UInt32) :
    Except Stuck (PcbTable β) := do
  let (t, found) ← t.lookup d
  match found with
  | none => return t
  | some a =>
    if (t.pcb a).state = .listen then return t.listenInput a d fresh iss cb.avail
    else t.connInput a d.seg cb

/-- A loop of `tcp_slowtmr` over a list, from the control block behind `prev` on. -/
def slowLoop (k : PcbList) (tick : Pcb → Expired → Pcb) (e : β → Expired) :
    ℕ → Option β → Option β → PcbTable β → Option (PcbTable β)
  | _, _, none, t => some t
  | 0, _, some _, _ => none
  | n + 1, prev, some a, t =>
    let t := t.setPcb a (tick (t.pcb a) (e a))
    if (e a).removed then
      let t := t.setLinks k (bypass t.next (t.head k) prev a)
      slowLoop k tick e n prev (t.next a) (t.kfree a)
    else slowLoop k tick e n (some a) (t.next a) t

def tcpSlowtmr (t : PcbTable β) (e : β → Expired) : Except Stuck (PcbTable β) := do
  let t ← ended (slowLoop .active Pcb.slowtmr e t.rounds none (t.head .active) t)
  ended (slowLoop .tw (fun p _ => p) e t.rounds none (t.head .tw) t)

/-- The calls, with what `kmalloc`, the clock and the callbacks of the application answer. -/
inductive Call (β : Type*)
  | new (a : β) (iss : UInt32)
  | bind (a : β) (ip : UInt32) (port newPort : UInt16) (own : Bool)
  | listen (a : β)
  | connect (a : β) (ip : UInt32) (port newPort : UInt16) (iss : UInt32) (avail : ℕ)
  | write (a : β) (data : List UInt8) (opt : Tcp.Pcb.WriteOpt) (avail : ℕ)
  | recved (a : β) (len : ℕ)
  | close (a : β) (avail : ℕ)
  | abort (a : β)
  | input (d : Datagram) (cb : Callbacks) (fresh : Option β) (iss : UInt32)
  | slowtmr (e : β → Expired)

/-- The conditions of a call: allocated memory is not in use, the caller has not closed the control block, and it is
in a state the call is for. -/
def Call.Legal (t : PcbTable β) : Call β → Prop
  | .new a _ => a ∉ t.allocated
  | .bind a _ _ _ _ => a ∈ t.allocated
  | .listen a => a ∈ t.allocated ∧ (t.pcb a).state = .closed
  | .connect a _ _ _ _ _ => a ∈ t.allocated ∧ (t.pcb a).state = .closed
  | .write a _ _ _ => a ∈ t.allocated
  | .recved a _ => a ∈ t.allocated
  | .close a _ => a ∈ t.allocated
  | .abort a => a ∈ t.allocated ∧ (t.pcb a).state ≠ .listen
  | .input _ _ fresh _ => ∀ b ∈ fresh, b ∉ t.allocated
  | .slowtmr _ => True

def exec (t : PcbTable β) : Call β → Except Stuck (PcbTable β)
  | .new a iss => .ok (t.tcpNew a iss)
  | .bind a ip port newPort own => t.tcpBind a ip port newPort own
  | .listen a => .ok (t.tcpListen a)
  | .connect a ip port newPort iss avail => .ok (t.tcpConnect a ip port newPort iss avail)
  | .write a data opt avail => .ok (t.setPcb a ((t.pcb a).tcpWrite data opt avail).1)
  | .recved a len => .ok (t.setPcb a ((t.pcb a).tcpRecved len))
  | .close a avail => t.tcpClose a avail
  | .abort a => t.tcpAbort a
  | .input d cb fresh iss => t.tcpInput d cb fresh iss
  | .slowtmr e => t.tcpSlowtmr e

/-- No control block was made yet. -/
def Empty (t : PcbTable β) : Prop := t.allocated = ∅ ∧ ∀ k, t.head k = none

inductive Reachable : PcbTable β → Prop
  | start {t} : t.Empty → Reachable t
  | call {t t'} (c : Call β) : Reachable t → c.Legal t → t.exec c = .ok t' → Reachable t'

end PcbTable

end SimpleKernel.Tcp
