import Mathlib.Data.Nat.Init
import Mathlib.Logic.Function.Basic

/-! Resource maps (`lib/rmap.c`). A map is an array of slots in memory. The first slot is the
header: its `size` is the number of slots that follow, its `offset` the number in use. -/
namespace SimpleKernel.Mem

/-- `struct rmap`. -/
structure Slot where
  offset : UInt32
  size : UInt32
deriving DecidableEq, Repr

/-- A map together with the counter of the units that were lost to fragmentation. -/
structure Rmap where
  slot : ℕ → Slot
  lostElems : UInt32

namespace Rmap

/-- The index of the last slot in use (`rlim`). -/
def rlim (m : Rmap) : ℕ := (m.slot 0).offset.toNat

def setSlot (m : Rmap) (r : ℕ) (x : Slot) : Rmap :=
  { m with slot := Function.update m.slot r x }

def setCount (m : Rmap) (n : UInt32) : Rmap :=
  m.setSlot 0 { m.slot 0 with offset := n }

/-- `memmove` of `n` slots. -/
def memmove (m : Rmap) (dst src n : ℕ) : Rmap :=
  { m with slot := fun i => if dst ≤ i ∧ i < dst + n then m.slot (src + (i - dst)) else m.slot i }

def lose (m : Rmap) (n : UInt32) : Rmap := { m with lostElems := m.lostElems + n }

def rmapInit (m : Rmap) (size : UInt32) : Rmap :=
  m.setSlot 0 ⟨0, size - 1⟩

/-- Room for a new slot at `r`; `none` when the table is full. -/
def makespace (m : Rmap) (r : ℕ) : Option Rmap :=
  if (m.slot 0).size = (m.slot 0).offset then none
  else
    let m' := m.setCount ((m.slot 0).offset + 1)
    some (if r ≤ m.rlim then m'.memmove (r + 1) r (m.rlim - r + 1) else m')

/-- The slot `r` has been emptied and disappears. -/
def collapse (m : Rmap) (r : ℕ) : Rmap :=
  let m' := m.setCount ((m.slot 0).offset - 1)
  if r < m.rlim then m'.memmove r (r + 1) (m.rlim - r) else m'

/-- The first of the `n` slots from `r` on that meets `p`, or the index behind them. -/
def scan (m : Rmap) (p : Slot → Bool) : ℕ → ℕ → ℕ
  | r, 0 => r
  | r, n + 1 => if p (m.slot r) then r else scan m p (r + 1) n

/-- The new map and the index of the range, 0 on failure. -/
def rmapAlloc (m : Rmap) (size : UInt32) : Rmap × UInt32 :=
  let r := m.scan (fun x => size ≤ x.size) 1 m.rlim
  if m.rlim < r then (m, 0)
  else
    let x := m.slot r
    if size < x.size then (m.setSlot r ⟨x.offset + size, x.size - size⟩, x.offset)
    else (m.collapse r, x.offset)

/-- `rmap_reserve` on the `n` slots from `r` on: the new map and the return code. -/
def reserveLoop (m : Rmap) (offset size : UInt32) : ℕ → ℕ → Rmap × ℤ
  | _, 0 => (m, 1)
  | r, n + 1 =>
    let x := m.slot r
    if offset < x.offset then (m, 1)
    else
      let top := x.offset + x.size
      if ¬(x.offset ≤ offset ∧ offset < top) then reserveLoop m offset size (r + 1) n
      else
        let rtop := offset + size
        if top < rtop then (m, 1)
        else if offset = x.offset then
          let m' := m.setSlot r ⟨x.offset + size, x.size - size⟩
          (if x.size - size = 0 then m'.collapse r else m', 0)
        else if rtop = top then (m.setSlot r ⟨x.offset, x.size - size⟩, 0)
        else
          match m.makespace r with
          -- no room for a further fragment: what lies below the range is given up
          | none => ((m.setSlot r ⟨rtop, top - rtop⟩).lose (x.size - (top - rtop) - size), 0)
          | some m' =>
            ((m'.setSlot r ⟨x.offset, offset - x.offset⟩).setSlot (r + 1) ⟨rtop, top - rtop⟩, 0)

def rmapReserve (m : Rmap) (offset size : UInt32) : Rmap × ℤ :=
  m.reserveLoop offset size 1 m.rlim

/-- The distance from `offset` to the next multiple of `align`. -/
def gap (offset align : UInt32) : UInt32 :=
  if offset % align = 0 then 0 else align - offset % align

/-- The new map and the index of the range, 0 on failure. The remainder by an alignment of 0
traps on the first slot. -/
def rmapAllocAlign (m : Rmap) (size align : UInt32) : Option (Rmap × UInt32) :=
  if align = 0 ∧ 0 < m.rlim then none
  else
    let r := m.scan (fun x => size + gap x.offset align ≤ x.size) 1 m.rlim
    if m.rlim < r then some (m, 0)
    else
      let idx := (m.slot r).offset + gap (m.slot r).offset align
      let (m', rc) := m.rmapReserve idx size
      some (m', if rc ≠ 0 then 0 else idx)

/-- A new slot for the freed range at `r`; without room the range is lost. -/
def insertAt (m : Rmap) (r : ℕ) (offset size : UInt32) : Rmap :=
  match m.makespace r with
  | none => m.lose size
  | some m' => m'.setSlot r ⟨offset, size⟩

/-- `rmap_free` on the `n` slots from `r` on. -/
def freeLoop (m : Rmap) (offset size : UInt32) : ℕ → ℕ → Rmap
  | r, 0 => m.insertAt r offset size
  | r, n + 1 =>
    let x := m.slot r
    if x.offset + x.size = offset then
      let m' := m.setSlot r ⟨x.offset, x.size + size⟩
      let y := m'.slot (r + 1)
      if r < m.rlim ∧ x.offset + (x.size + size) = y.offset then
        let m'' := (m'.setSlot r ⟨x.offset, x.size + size + y.size⟩).setCount
          ((m.slot 0).offset - 1)
        if r + 1 < m.rlim then m''.memmove (r + 1) (r + 2) (m.rlim - (r + 1)) else m''
      else m'
    else if offset + size = x.offset then m.setSlot r ⟨offset, x.size + size⟩
    else if offset < x.offset then m.insertAt r offset size
    else freeLoop m offset size (r + 1) n

def rmapFree (m : Rmap) (offset size : UInt32) : Rmap :=
  m.freeLoop offset size 1 m.rlim

/-- `rmap_status` on the `n` slots from `r` on. -/
def statusLoop (m : Rmap) (offset size : UInt32) : ℕ → ℕ → ℤ
  | _, 0 => 1
  | r, n + 1 =>
    let x := m.slot r
    if offset < x.offset then (if x.offset < offset + size then -1 else 1)
    else
      let top := x.offset + x.size
      if ¬(x.offset ≤ offset ∧ offset < top) then statusLoop m offset size (r + 1) n
      else if offset + size < top then 0 else -1

/-- 0 when the range is free, 1 when it is allocated, -1 when partly allocated. -/
def rmapStatus (m : Rmap) (offset size : UInt32) : ℤ :=
  m.statusLoop offset size 1 m.rlim

end Rmap

end SimpleKernel.Mem
