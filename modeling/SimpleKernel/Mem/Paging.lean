import Mathlib.Algebra.Group.Nat.Defs
import Mathlib.Algebra.Group.Int.Defs
import Mathlib.Logic.Function.Basic
import Mathlib.Data.Int.Init
import Mathlib.Tactic.Common

/-! The page directory and the page tables (`pdir.h`, `pdir.c`). -/
namespace SimpleKernel.Mem

def ENOMEM : ℤ := 12
def EFAULT : ℤ := 14
def EINVAL : ℤ := 22

def pageSize : UInt32 := 4096
def osBase : UInt32 := 0x80000000
def vmemStart : UInt32 := 64 * 1024

def ptPresent : UInt32 := 0x001
def ptWritable : UInt32 := 0x002
def ptUser : UInt32 := 0x004
def ptAccessed : UInt32 := 0x020
def ptDirty : UInt32 := 0x040
def ptGuard : UInt32 := 0x200
def ptFile : UInt32 := 0x400

def ptUserRead : UInt32 := ptPresent ||| ptUser
def ptUserWrite : UInt32 := ptPresent ||| ptUser ||| ptWritable

def ptFlagmask : UInt32 :=
  ptPresent ||| ptWritable ||| ptUser ||| ptAccessed ||| ptDirty ||| ptGuard ||| ptFile
def ptProtectmask : UInt32 := ptWritable ||| ptUser ||| ptGuard
def ptPfnmask : UInt32 := 0xFFFFF000

def pdeIdx (vaddr : UInt32) : UInt32 := vaddr >>> 22
def ptabIdx (vaddr : UInt32) : UInt32 := vaddr >>> 12

def pages (x : UInt32) : UInt32 := (x + (pageSize - 1)) >>> 12
def pageAddr (x : UInt32) : UInt32 := x &&& ~~~(pageSize - 1)
def ptob (x : UInt32) : UInt32 := x <<< 12
def btop (x : UInt32) : UInt32 := x >>> 12
def kernelSpace (addr : UInt32) : Bool := osBase ≤ addr

/-- The directory and, as the kernel sees them at `PTBASE`, all page tables in one array. -/
structure PageTables where
  pdir : UInt32 → UInt32
  ptab : UInt32 → UInt32

namespace PageTables

def getPde (pt : PageTables) (vaddr : UInt32) : UInt32 := pt.pdir (pdeIdx vaddr)

def getPte (pt : PageTables) (vaddr : UInt32) : UInt32 := pt.ptab (ptabIdx vaddr)

def setPde (pt : PageTables) (vaddr val : UInt32) : PageTables :=
  { pt with pdir := Function.update pt.pdir (pdeIdx vaddr) val }

def setPte (pt : PageTables) (vaddr val : UInt32) : PageTables :=
  { pt with ptab := Function.update pt.ptab (ptabIdx vaddr) val }

/-- `virt2phys(vaddr) >> PAGESHIFT`: the frame or, for a page of a file that is not present, the
handle that the entry holds. -/
def virt2pfn (pt : PageTables) (vaddr : UInt32) : UInt32 := btop (pt.getPte vaddr &&& ptPfnmask)

def getPageFlags (pt : PageTables) (vaddr : UInt32) : UInt32 := pt.getPte vaddr &&& ptFlagmask

def setPageFlags (pt : PageTables) (vaddr flags : UInt32) : PageTables :=
  pt.setPte vaddr ((pt.getPte vaddr &&& ptPfnmask) ||| flags)

def pageDirectoryMapped (pt : PageTables) (vaddr : UInt32) : Bool :=
  pt.getPde vaddr &&& ptPresent != 0

def pageMapped (pt : PageTables) (vaddr : UInt32) : Bool :=
  pt.pageDirectoryMapped vaddr && pt.getPte vaddr &&& ptPresent != 0

def unmapPage (pt : PageTables) (vaddr : UInt32) : PageTables := pt.setPte vaddr 0

/-- `memset` of the page table that holds the entry of `vaddr`. -/
def clearTable (pt : PageTables) (vaddr : UInt32) : PageTables :=
  { pt with ptab := fun i => if i >>> 10 = pdeIdx vaddr then 0 else pt.ptab i }

end PageTables

/-! Machine arithmetic on addresses. -/

theorem toNat_ptabIdx (v : UInt32) : (ptabIdx v).toNat = v.toNat / 4096 := by
  rw [ptabIdx, UInt32.toNat_shiftRight, Nat.shiftRight_eq_div_pow]
  rfl

theorem toNat_pdeIdx (v : UInt32) : (pdeIdx v).toNat = v.toNat / 4194304 := by
  rw [pdeIdx, UInt32.toNat_shiftRight, Nat.shiftRight_eq_div_pow]
  rfl

theorem toNat_btop (v : UInt32) : (btop v).toNat = v.toNat / 4096 := toNat_ptabIdx v

theorem idx_of_page {v w : UInt32} (h : v.toNat / 4096 = w.toNat / 4096) :
    ptabIdx v = ptabIdx w ∧ pdeIdx v = pdeIdx w := by
  constructor
  · exact UInt32.toNat.inj (by rw [toNat_ptabIdx, toNat_ptabIdx, h])
  · refine UInt32.toNat.inj ?_
    rw [toNat_pdeIdx, toNat_pdeIdx]
    omega

theorem and_add_and_not (x m : BitVec 32) : (x &&& m) + (x &&& ~~~m) = x := by
  rw [BitVec.add_eq_or_of_and_eq_zero]
  · ext i hi
    simp only [BitVec.getElem_or, BitVec.getElem_and, BitVec.getElem_not]
    cases x[i] <;> cases m[i] <;> rfl
  · ext i hi
    simp only [BitVec.getElem_and, BitVec.getElem_not, BitVec.getElem_zero]
    cases x[i] <;> cases m[i] <;> rfl

theorem toNat_pageAddr (v : UInt32) : (pageAddr v).toNat = v.toNat - v.toNat % 4096 := by
  have hmask : (v &&& (pageSize - 1)).toNat = v.toNat % 4096 := by
    exact Nat.and_two_pow_sub_one_eq_mod v.toNat 12
  have hsum : (v &&& (pageSize - 1)) + pageAddr v = v := by
    apply UInt32.toBitVec_inj.mp
    exact and_add_and_not v.toBitVec (pageSize - 1).toBitVec
  have hsub : pageAddr v = v - (v &&& (pageSize - 1)) := by
    have hcancel := UInt32.add_sub_cancel (pageAddr v) (v &&& (pageSize - 1))
    rw [UInt32.add_comm, hsum] at hcancel
    exact hcancel.symm
  rw [hsub, UInt32.toNat_sub_of_le, hmask]
  rw [UInt32.le_iff_toNat_le, hmask]
  exact Nat.mod_le _ _

theorem toNat_pages (x : UInt32) : (pages x).toNat = (x.toNat + 4095) % 2 ^ 32 / 4096 := by
  rw [pages, UInt32.toNat_shiftRight, Nat.shiftRight_eq_div_pow, UInt32.toNat_add]
  rfl

theorem toNat_pages_mul (n : UInt32) : (n * pageSize).toNat = 4096 * n.toNat % 2 ^ 32 := by
  rw [UInt32.toNat_mul, Nat.mul_comm]
  rfl

theorem toNat_ptob {f : UInt32} (h : f.toNat < 2 ^ 20) : (ptob f).toNat = 4096 * f.toNat := by
  rw [ptob, UInt32.toNat_shiftLeft, Nat.shiftLeft_eq]
  change f.toNat * 2 ^ 12 % 2 ^ 32 = _
  omega

theorem toNat_or_flags {a b : UInt32} (ha : a.toNat % 4096 = 0) (hb : b.toNat < 4096) :
    (a ||| b).toNat = a.toNat + b.toNat := by
  obtain ⟨k, hk⟩ := Nat.dvd_of_mod_eq_zero ha
  rw [UInt32.toNat_or, hk]
  exact (Nat.two_pow_add_eq_or_of_lt (i := 12) hb k).symm

theorem or_and_self (a p : UInt32) : (a ||| p) &&& p = p := by
  apply UInt32.toBitVec_inj.mp
  ext i -
  simp only [UInt32.toBitVec_and, UInt32.toBitVec_or, BitVec.getElem_and, BitVec.getElem_or]
  cases a.toBitVec[i] <;> cases p.toBitVec[i] <;> rfl

theorem or_and_distrib (a b c : UInt32) : (a ||| b) &&& c = (a &&& c) ||| (b &&& c) := by
  apply UInt32.toBitVec_inj.mp
  ext i -
  simp only [UInt32.toBitVec_and, UInt32.toBitVec_or, BitVec.getElem_and, BitVec.getElem_or]
  cases a.toBitVec[i] <;> cases b.toBitVec[i] <;> cases c.toBitVec[i] <;> rfl

theorem and_eq_self {x m : UInt32} (h : x &&& ~~~m = 0) : x &&& m = x := by
  apply UInt32.toBitVec_inj.mp
  have hsum := and_add_and_not x.toBitVec m.toBitVec
  have hzero : x.toBitVec &&& ~~~m.toBitVec = 0#32 := UInt32.toBitVec_inj.mpr h
  rwa [hzero, BitVec.add_zero] at hsum

end SimpleKernel.Mem
