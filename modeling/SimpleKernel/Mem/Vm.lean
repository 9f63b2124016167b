import SimpleKernel.Mem.Rmap
import SimpleKernel.Mem.Access

/-! The virtual memory manager (`vmm.c`) over page tables and page frames (`pframe.c`). What `vmfree` does with
pages of mapped files is left open. -/
namespace SimpleKernel.Mem

def memCommit : UInt32 := 0x1000
def memReserve : UInt32 := 0x2000
def memDecommit : UInt32 := 0x4000
def memRelease : UInt32 := 0x8000
def memAlign64k : UInt32 := 0x10000000

/-- The value of `pte_flags_from_protect` for a protection that it does not know. -/
def noFlags : UInt32 := 0xFFFFFFFF

def pteFlagsFromProtect (protect : UInt32) : UInt32 :=
  if protect = 0x01 then 0
  else if protect = 0x02 ∨ protect = 0x10 ∨ protect = 0x20 then ptUser
  else if protect = 0x04 ∨ protect = 0x40 then ptUser ||| ptWritable
  else if protect = 0x102 ∨ protect = 0x110 ∨ protect = 0x120 then ptGuard
  else if protect = 0x104 ∨ protect = 0x140 then ptGuard ||| ptWritable
  else noFlags

/-- The tags `'FREE'`, `'PTAB'` and `'VM'`. -/
def tagFree : UInt32 := 0x46524545
def tagPtab : UInt32 := 0x50544142
def tagVm : UInt32 := 0x564D

/-- The address space map, the page tables and the page frame database with its free list. -/
structure Vm where
  vmap : Rmap
  pt : PageTables
  tag : UInt32 → UInt32
  next : UInt32 → Option UInt32
  freelist : Option UInt32
  freemem : UInt32

def vmapEntries : UInt32 := 1024

/-- `init_vmm` on the memory `m` of the map. -/
def initVmap (m : Rmap) : Rmap :=
  (m.rmapInit vmapEntries).rmapFree (btop vmemStart) (btop (osBase - vmemStart))

def validRange (vmap : Rmap) (addr size : UInt32) : Bool :=
  ¬(addr < vmemStart) && !kernelSpace (addr + pages size * pageSize) &&
    vmap.rmapStatus (btop addr) (pages size) = 1

/-- The addresses that a loop over `n` pages from `addr` on goes through. -/
def pageRange (addr n : UInt32) : List UInt32 := (List.range n.toNat).map (ahead addr)

namespace Vm

/-- `none` when the kernel panics for lack of memory. -/
def allocPageframe (m : Vm) (tag : UInt32) : Option (Vm × UInt32) :=
  if m.freemem = 0 then none
  else m.freelist.map fun pf =>
    ({ m with
        freelist := m.next pf
        freemem := m.freemem - 1
        tag := Function.update m.tag pf tag
        next := Function.update m.next pf none }, pf)

def freePageframe (m : Vm) (pfn : UInt32) : Vm :=
  { m with
    tag := Function.update m.tag pfn tagFree
    next := Function.update m.next pfn m.freelist
    freelist := some pfn
    freemem := m.freemem + 1 }

/-- A page table for `vaddr`, unless there is one. -/
def needTable (m : Vm) (vaddr : UInt32) : Option Vm :=
  if m.pt.getPde vaddr &&& ptPresent = 0 then
    (m.allocPageframe tagPtab).map fun p =>
      { p.1 with
        pt := (p.1.pt.setPde vaddr (ptob p.2 ||| ptPresent ||| ptWritable ||| ptUser)).clearTable
          vaddr }
  else some m

def mapPage (m : Vm) (vaddr pfn flags : UInt32) : Option Vm :=
  (m.needTable vaddr).map fun m' => { m' with pt := m'.pt.setPte vaddr (ptob pfn ||| flags) }

/-- The address space for `vmalloc` with `MEM_RESERVE`; the address is 0 on failure. -/
def reserveRange (m : Vm) (addr npages type : UInt32) : Vm × UInt32 :=
  if addr = 0 then
    let p := if type &&& memAlign64k ≠ 0 then
        (m.vmap.rmapAllocAlign npages (64 * 1024 / pageSize)).getD (m.vmap, 0)
      else m.vmap.rmapAlloc npages
    ({ m with vmap := p.1 }, ptob p.2)
  else
    let p := m.vmap.rmapReserve (btop addr) npages
    ({ m with vmap := p.1 }, if p.2 ≠ 0 then 0 else addr)

/-- One page of a range that is committed. -/
def commitPage (tag flags : UInt32) (m : Vm) (vaddr : UInt32) : Option Vm :=
  if m.pt.pageMapped vaddr then
    some { m with pt := m.pt.setPageFlags vaddr (flags ||| ptPresent) }
  else (m.allocPageframe tag).bind fun p => p.1.mapPage vaddr p.2 (flags ||| ptPresent)

/-- The state, the address (0 on failure) and the error code; `none` when memory runs out. -/
def vmalloc (m : Vm) (addr size type protect tag : UInt32) : Option (Vm × UInt32 × ℤ) :=
  let flags := pteFlagsFromProtect protect
  if size = 0 then some (m, 0, -EINVAL)
  else if type &&& memCommit ≠ 0 ∧ flags = noFlags then some (m, 0, -EINVAL)
  else
    let addr := pageAddr addr
    let type := if addr = 0 ∧ type &&& memCommit ≠ 0 then type ||| memReserve else type
    let tag := if tag = 0 then tagVm else tag
    let p := if type &&& memReserve ≠ 0 then m.reserveRange addr (pages size) type
      else (m, if validRange m.vmap addr size then addr else 0)
    if p.2 = 0 then
      some (p.1, 0, if type &&& memReserve ≠ 0 then -ENOMEM else -EFAULT)
    else if type &&& memCommit ≠ 0 then
      ((pageRange p.2 (pages size)).foldlM (commitPage tag flags) p.1).map fun m' => (m', p.2, 0)
    else some (p.1, p.2, 0)

section free

/- A page of a mapped file, given the file map that is locked at the moment: the file map that is
locked afterwards, or the code with which `vmfree` gives up. -/
variable (filePage : Vm → Option UInt32 → UInt32 → Except (Vm × ℤ) (Vm × Option UInt32))

/- The file map that is locked at the end. -/
variable (fileEnd : Vm → UInt32 → Vm × ℤ)

/-- One page of a range that is decommitted. -/
def decommitPage (p : Vm × Option UInt32) (vaddr : UInt32) :
    Except (Vm × ℤ) (Vm × Option UInt32) :=
  if p.1.pt.pageDirectoryMapped vaddr then
    if p.1.pt.getPageFlags vaddr &&& ptFile ≠ 0 then filePage p.1 p.2 vaddr
    else if p.1.pt.getPageFlags vaddr &&& ptPresent ≠ 0 then
      .ok ({ p.1 with pt := p.1.pt.unmapPage vaddr }.freePageframe (p.1.pt.virt2pfn vaddr), p.2)
    else .ok p
  else .ok p

def vmfree (m : Vm) (addr size type : UInt32) : Vm × ℤ :=
  let addr := pageAddr addr
  if size = 0 then (m, 0)
  else if !validRange m.vmap addr size then (m, -EINVAL)
  else
    let loop := if type &&& (memDecommit ||| memRelease) ≠ 0 then
        (pageRange addr (pages size)).foldlM (decommitPage filePage) (m, none)
      else .ok (m, none)
    match loop with
    | .error e => e
    | .ok (m', some fm) => fileEnd m' fm
    | .ok (m', none) =>
      (if type &&& memRelease ≠ 0 then
          { m' with vmap := m'.vmap.rmapFree (btop addr) (pages size) }
        else m', 0)

end free

/-- One page of a range that gets a new protection. -/
def protectPage (flags : UInt32) (m : Vm) (vaddr : UInt32) : Vm :=
  if m.pt.pageMapped vaddr then
    { m with
      pt := m.pt.setPageFlags vaddr ((m.pt.getPageFlags vaddr &&& ~~~ptProtectmask) ||| flags) }
  else m

def vmprotect (m : Vm) (addr size protect : UInt32) : Vm × ℤ :=
  let addr := pageAddr addr
  if size = 0 then (m, 0)
  else if !validRange m.vmap addr size then (m, -EINVAL)
  else if pteFlagsFromProtect protect = noFlags then (m, -EINVAL)
  else ((pageRange addr (pages size)).foldl (protectPage (pteFlagsFromProtect protect)) m, 0)

end Vm

end SimpleKernel.Mem
