import SimpleKernel.Lib.Chain
import SimpleKernel.Lib.Int32
import SimpleKernel.Lib.Transition
import Mathlib.Algebra.BigOperators.Group.List.Basic
import Mathlib.Algebra.Order.BigOperators.Group.List

/-! How a TCP socket receives (`net/tcpsock.c`): `recv_tcp`, `fetch_rcvbuf` and the requests of the receivers. -/
namespace SimpleKernel.Tcp
open LinkedList
open Function (update)

variable {β : Type} [DecidableEq β]

/-- The receive side of a socket. `alloc` are the pbufs that are not freed; a pbuf that arrives has one reference.
A request is given by the room in its buffers. `arrived` and `returned` are the bytes so far, in order. -/
structure RecvSocket (β : Type) where
  next : β → Option β
  payload : β → List UInt8
  totLen : β → ℤ
  alloc : List β
  recvhead : Option β
  recvtail : Option β
  closing : Bool
  serving : Bool
  waiting : List (List ℕ)
  arrived : List UInt8
  returned : List UInt8

/-- A socket whose connection was just established. -/
def RecvSocket.init (β : Type) : RecvSocket β where
  next _ := none
  payload _ := []
  totLen _ := 0
  alloc := []
  recvhead := none
  recvtail := none
  closing := false
  serving := false
  waiting := []
  arrived := []
  returned := []

/-- `get_iovec_size`, as the `int` that its callers keep. -/
def roomOf (iov : List ℕ) : ℤ := int32 (iov.sum % 2 ^ 32 : ℕ)

/-- `write_iovec`: the buffers afterwards, and the bytes that were written. -/
def writeIovec : List ℕ → List UInt8 → List ℕ × List UInt8
  | [], _ => ([], [])
  | n :: iov, buf =>
    if buf = [] then (n :: iov, [])
    else
      let len := min n buf.length
      let r := writeIovec iov (buf.drop len)
      ((n - len) :: r.1, buf.take len ++ r.2)

/-- `pbuf_dechain` of the pbuf `p`. -/
def RecvSocket.dechain (s : RecvSocket β) (p : β) : RecvSocket β :=
  { s with
    totLen :=
      match s.next p with
      | none => update s.totLen p (s.payload p).length
      | some q => update (update s.totLen q (s.totLen p - (s.payload p).length)) p
          (s.payload p).length
    next := update s.next p none }

/-- The loop of `fetch_rcvbuf`, which returns the bytes that it wrote. Access to a pbuf that is freed is a fault. -/
def fetchLoop : ℕ → RecvSocket β → List ℕ → ℤ → List UInt8 → Option (RecvSocket β × List UInt8)
  | fuel, s, iov, left, recved =>
    match s.recvhead with
    | none => some (s, recved)
    | some p =>
      if left ≤ 0 then some (s, recved)
      else
        match fuel with
        | 0 => none
        | fuel + 1 =>
          if p ∉ s.alloc then none
          else if left < (s.payload p).length then
            let r := writeIovec iov ((s.payload p).take left.toNat)
            fetchLoop fuel
              { s with
                payload := update s.payload p ((s.payload p).drop r.2.length)
                totLen := update s.totLen p (s.totLen p - r.2.length) }
              r.1 (left - r.2.length) (recved ++ r.2)
          else
            let r := writeIovec iov (s.payload p)
            -- `p` leaves the chain, and `pbuf_free` finds no pbuf behind it
            fetchLoop fuel
              { s.dechain p with
                recvhead := s.next p
                recvtail := if s.next p = none then none else s.recvtail
                alloc := s.alloc.erase p }
              r.1 (left - r.2.length) (recved ++ r.2)

def fetchRcvbuf (s : RecvSocket β) (iov : List ℕ) : Option (RecvSocket β × List UInt8) :=
  fetchLoop s.alloc.length s iov (roomOf iov) []

/-- `pbuf_chain`. -/
def RecvSocket.chain (s : RecvSocket β) (h t : β) : Option (RecvSocket β) :=
  if h ∈ s.alloc then
    match lastFrom s.next s.alloc.length h with
    | none => none
    | some p =>
      some { s with
        next := update s.next p (some t)
        totLen := update s.totLen h (s.totLen h + s.totLen t) }
  else none

/-- A chain of pbufs as the driver hands it over: the payloads and the links. -/
def RecvSocket.load (s : RecvSocket β) : List (β × List UInt8) → RecvSocket β
  | [] => s
  | (p, data) :: c =>
    let s := s.load c
    { s with
      next := update s.next p (c.head?.map Prod.fst)
      payload := update s.payload p data
      totLen := update s.totLen p (data.length + (c.map fun x => (x.2.length : ℤ)).sum)
      alloc := p :: s.alloc }

/-- The start of `recv_tcp` for a chain: it is appended, and the loop over the waiting requests is next. -/
def RecvSocket.recvTcp (s : RecvSocket β) (p : β) (data : List UInt8) (c : List (β × List UInt8)) :
    Option (RecvSocket β) :=
  let s := { s.load ((p, data) :: c) with
    arrived := s.arrived ++ (data ++ c.flatMap Prod.snd), serving := true }
  match s.recvtail with
  | none => some { s with recvhead := some p, recvtail := some p }
  | some t =>
    match s.chain t p with
    | none => none
    | some s => some { s with recvtail := some p }

/-- The start of `recv_tcp` for the end of the stream. -/
def RecvSocket.recvFin (s : RecvSocket β) : RecvSocket β :=
  if s.recvhead = none then { s with closing := true, waiting := [] }
  else { s with closing := true, serving := true }

/-- A round of the loop of `recv_tcp`. -/
def RecvSocket.serve (s : RecvSocket β) : Option (RecvSocket β) :=
  match s.recvhead, s.waiting with
  | none, _ => some { s with serving := false }
  | some _, [] => some { s with serving := false }
  | some _, iov :: rest =>
    match fetchRcvbuf s iov with
    | none => none
    | some (s, bytes) =>
      if bytes = [] then some s
      else some { s with waiting := rest, returned := s.returned ++ bytes }

/-- `tcpsock_recvmsg`, for a socket that is non-blocking or not. -/
def RecvSocket.recvmsg (s : RecvSocket β) (nbio : Bool) (iov : List ℕ) : Option (RecvSocket β) :=
  if roomOf iov ≤ 0 then some s
  else
    match fetchRcvbuf s iov with
    | none => none
    | some (s, bytes) =>
      if bytes = [] then
        if s.closing ∨ nbio then some s else some { s with waiting := s.waiting ++ [iov] }
      else some { s with returned := s.returned ++ bytes }

inductive RecvAct (β : Type)
  | arrive (p : β) (data : List UInt8) (c : List (β × List UInt8))
  | fin
  | serve
  | recvmsg (nbio : Bool) (iov : List ℕ)
  | withdraw (i : ℕ)

/-- One step. The pbufs that arrive are fresh ones; nothing comes between the rounds of `recv_tcp`. A request that
times out is withdrawn. -/
def RecvSocket.step (s : RecvSocket β) : RecvAct β → Option (RecvSocket β)
  | .arrive p data c =>
    if s.serving ∨ ¬ (p :: c.map Prod.fst).Nodup ∨ ∃ a ∈ p :: c.map Prod.fst, a ∈ s.alloc then some s
    else s.recvTcp p data c
  | .fin => if s.serving then some s else some s.recvFin
  | .serve => if s.serving then s.serve else some s
  | .recvmsg nbio iov => if s.serving then some s else s.recvmsg nbio iov
  | .withdraw i => if s.serving then some s else some { s with waiting := s.waiting.eraseIdx i }

/-- The bytes that were returned and those in the chain at `recvhead` are the ones that arrived; `recvtail` is a pbuf
of this chain; and no pbuf of it is freed. -/
def RecvSocket.Sound (s : RecvSocket β) : Prop :=
  ∃ ps, Chain s.next s.recvhead ps ∧ (∀ p ∈ ps, p ∈ s.alloc) ∧
    s.arrived = s.returned ++ ps.flatMap s.payload ∧
    (s.recvhead = none ↔ s.recvtail = none) ∧ ∀ t, s.recvtail = some t → t ∈ ps

end SimpleKernel.Tcp
