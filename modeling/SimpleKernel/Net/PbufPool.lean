import Mathlib.Algebra.GroupWithZero.Nat
import Mathlib.Algebra.Ring.Int.Defs
import SimpleKernel.Lib.Chain
import Mathlib.Algebra.BigOperators.Group.List.Basic
import Mathlib.Data.Fintype.Card

/-! The pool of packet buffers (`net/pbuf.c`). -/
namespace SimpleKernel.Net
open LinkedList
open Function (update)

def poolSize : ℕ := 128
def bufSize : ℤ := 128

/-- The buffers that `pbuf_init` makes. -/
abbrev Buf := Fin poolSize

inductive Flag
  | rw
  | ro
  | pool
  deriving DecidableEq

/-- The fields of the buffers, the heads of the three lists, the locks and `stats.pbuf.used`. -/
structure Pool where
  next : Buf → Option Buf
  totLen : Buf → ℤ
  len : Buf → ℤ
  ref : Buf → ℕ
  flags : Buf → Flag
  pool : Option Buf
  allocCache : Option Buf
  freeCache : Option Buf
  allocLock : ℤ
  freeLock : ℤ
  used : ℤ

/-- `pbuf_init`. The flags and the reference counts are those of cleared memory. -/
def pbufInit : Pool where
  next b := if h : b.val + 1 < poolSize then some ⟨b.val + 1, h⟩ else none
  totLen _ := bufSize
  len _ := bufSize
  ref _ := 0
  flags _ := .rw
  pool := some ⟨0, by decide⟩
  allocCache := none
  freeCache := none
  allocLock := 0
  freeLock := 0
  used := 0

/-- `pbuf_pool_alloc`. No interrupt comes between its tests of the lock. -/
def poolAlloc (m : Pool) : Pool × Option Buf :=
  match m.allocCache with
  | some p => ({ m with allocCache := m.next p, used := m.used + 1 }, some p)
  | none =>
    if m.freeLock ≠ 0 then (m, none)
    else
      match m.pool with
      | some p => ({ m with pool := m.next p, used := m.used + 1 }, some p)
      | none => (m, none)

/-- The loop of `pbuf_pool_free` over the chain that it takes back. -/
def countDown (next : Buf → Option Buf) : ℕ → Option Buf → ℤ → Option ℤ
  | _, none, used => some used
  | 0, some _, _ => none
  | n + 1, some p, used => countDown next n (next p) (used - 1)

/-- `pbuf_pool_free`. A loop ends within `poolSize` rounds, or it does not end. -/
def poolFree (m : Pool) (p : Buf) : Option Pool :=
  match countDown m.next poolSize (some p) m.used with
  | none => none
  | some used =>
    match m.allocCache with
    | none => some { m with used := used, allocCache := some p }
    | some c =>
      match lastFrom m.next poolSize c with
      | none => none
      | some q => some { m with used := used, next := update m.next q (some p) }

/-- The loop of `pbuf_alloc` that allocates the tail of the chain of `p`; `r` is its last buffer. -/
def allocTail (p : Buf) (rsize : ℤ) (r : Buf) (m : Pool) : Option (Pool × Option Buf) :=
  if 0 < rsize then
    match poolAlloc m with
    | (m, none) =>
      match poolFree m p with
      | none => none
      | some m => some (m, none)
    | (m, some q) =>
      allocTail p (rsize - bufSize) q
        { m with
          next := update (update m.next q none) r (some q)
          len := update m.len q (if rsize > bufSize then bufSize else rsize)
          flags := update m.flags q .pool
          ref := update m.ref q 1 }
  else
    some ({ m with next := update m.next r none, ref := update m.ref p 1 }, some p)
  termination_by rsize.toNat
  decreasing_by
    simp only [bufSize]
    omega

inductive Layer
  | transport
  | ip
  | link
  | raw

def Layer.offset : Layer → ℤ
  | .transport => 20 + 20 + 14
  | .ip => 20 + 14
  | .link => 14
  | .raw => 0

/-- `pbuf_alloc` for buffers of the pool. -/
def pbufAlloc (layer : Layer) (size : ℤ) (m : Pool) : Option (Pool × Option Buf) :=
  match poolAlloc m with
  | (m, none) => some (m, none)
  | (m, some p) =>
    let len := if size > bufSize - layer.offset then bufSize - layer.offset else size
    allocTail p (size - len) p
      { m with
        next := update m.next p none
        totLen := update m.totLen p size
        len := update m.len p len
        flags := update m.flags p .pool }

def pbufRefresh (m : Pool) : Option Pool :=
  match m.freeCache with
  | none => some m
  | some f =>
    if m.allocLock = 0 then
      match m.pool with
      | none => some { m with pool := some f, freeCache := none }
      | some p =>
        match lastFrom m.next poolSize p with
        | none => none
        | some q => some { m with next := update m.next q (some f), freeCache := none }
    else some m

/-- A buffer goes to the free cache. -/
def Pool.release (m : Pool) (p : Buf) : Pool :=
  { m with next := update m.next p m.freeCache, freeCache := some p, used := m.used - 1 }

/-- The loops over the buffers of a chain from `p` on, with the number of rounds. -/
def forEach (act : Buf → Pool → Option Pool) : ℕ → Option Buf → Pool → Option (Pool × ℕ)
  | _, none, m => some (m, 0)
  | 0, some _, _ => none
  | n + 1, some p, m =>
    match act p m with
    | none => none
    | some m' =>
      match forEach act n (m.next p) m' with
      | none => none
      | some (m'', count) => some (m'', count + 1)

/-- The loop of `pbuf_realloc` that steps over the buffers that stay in the chain. -/
def cutPoint (m : Pool) : ℕ → ℤ → Buf → Option (ℤ × Buf)
  | 0, rsize, q => if rsize > m.len q then none else some (rsize, q)
  | n + 1, rsize, q =>
    if rsize > m.len q then
      match m.next q with
      | none => none
      | some r => cutPoint m n (rsize - m.len q) r
    else some (rsize, q)

/-- `pbuf_realloc` for a chain of pool buffers. -/
def pbufRealloc (p : Buf) (size : ℤ) (m : Pool) : Option Pool :=
  if m.totLen p ≤ size then some m
  else if m.flags p ≠ .pool then none
  else
    match cutPoint m poolSize size p with
    | none => none
    | some (rsize, q) =>
      match forEach (fun b m => some (m.release b)) poolSize (m.next q)
          { m with len := update m.len q rsize, next := update m.next q none } with
      | none => none
      | some (m, _) => pbufRefresh { m with totLen := update m.totLen p size }

/-- `pbuf_ref`: the count is an unsigned short. -/
def pbufRef (p : Buf) (m : Pool) : Pool := { m with ref := update m.ref p ((m.ref p + 1) % 2 ^ 16) }

/-- What the loop of `pbuf_free` does to a buffer of the pool. The others are not on any list. -/
def freeBuf (p : Buf) (m : Pool) : Option Pool :=
  if m.flags p = .pool then
    some ({ m with
      len := update m.len p bufSize
      totLen := update m.totLen p bufSize }.release p)
  else none

/-- `pbuf_free`, which returns the number of buffers that it deallocated. -/
def pbufFree (p : Buf) (m : Pool) : Option (Pool × ℕ) :=
  let m := { m with ref := update m.ref p ((m.ref p + (2 ^ 16 - 1)) % 2 ^ 16) }
  match if m.ref p = 0 then forEach freeBuf poolSize (some p) m else some (m, 0) with
  | none => none
  | some (m, count) =>
    match pbufRefresh m with
    | none => none
    | some m => some (m, count)

/-- The pool with the chains that were handed out and not deallocated since: the first buffer of each, and the size it
was requested with or truncated to. -/
structure System where
  mem : Pool
  live : Buf → Option ℤ

/-- A call of a user of the pool. -/
inductive Call
  | alloc (layer : Layer) (size : ℤ)
  | realloc (p : Buf) (size : ℤ)
  | ref (p : Buf)
  | free (p : Buf)

/-- One call. The last three are for the first buffer of a chain. -/
def System.step (s : System) : Call → Option System
  | .alloc layer size =>
    match pbufAlloc layer size s.mem with
    | none => none
    | some (m, none) => some ⟨m, s.live⟩
    | some (m, some p) => some ⟨m, update s.live p (some size)⟩
  | .realloc p size =>
    match s.live p with
    | none => some s
    | some old =>
      match pbufRealloc p size s.mem with
      | none => none
      | some m => some ⟨m, update s.live p (some (if size < old then size else old))⟩
  | .ref p =>
    match s.live p with
    | none => some s
    | some _ => some ⟨pbufRef p s.mem, s.live⟩
  | .free p =>
    match s.live p with
    | none => some s
    | some _ =>
      match pbufFree p s.mem with
      | none => none
      | some (m, count) => some ⟨m, if count = 0 then s.live else update s.live p none⟩

/-- Where a buffer can be. -/
inductive Place
  | pool
  | allocCache
  | freeCache
  | live (p : Buf)
  deriving DecidableEq

def System.head (s : System) : Place → Option Buf
  | .pool => s.mem.pool
  | .allocCache => s.mem.allocCache
  | .freeCache => s.mem.freeCache
  | .live p => if (s.live p).isSome then some p else none

/-- Every buffer is in one place only, `used` counts those in the chains, and the lengths of each chain add up to its
`tot_len`, the size it was requested with or truncated to. -/
def System.Conserved (s : System) : Prop :=
  ∃ q : Place → List Buf,
    (∀ k, Chain s.mem.next (s.head k) (q k)) ∧ (∀ b, ∃! k, b ∈ q k) ∧
    s.mem.used = Fintype.card {b // ∃ p, b ∈ q (.live p)} ∧
    ∀ p size, s.live p = some size → s.mem.totLen p = size ∧ ((q (.live p)).map s.mem.len).sum = size

end SimpleKernel.Net
