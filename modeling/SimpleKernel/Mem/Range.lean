import SimpleKernel.Mem.VmSteps
import SimpleKernel.Mem.RmapSpec

/-! The check of user address ranges (`valid_range`) and the pages that the operations behind it
touch. -/
namespace SimpleKernel.Mem

open Intervals Entries

/-- A page of user space that is allocated in the map. -/
def Owned (vmap : Rmap) (v : UInt32) : Prop :=
  vmemStart ≤ v ∧ v < osBase ∧ (btop v).toNat ∉ freeUnits vmap.entries

variable {vmap : Rmap} {a n v w addr size : UInt32} {m m' : Vm}

theorem owned_iff : Owned vmap v ↔
    65536 ≤ v.toNat ∧ v.toNat < 2147483648 ∧ v.toNat / 4096 ∉ freeUnits vmap.entries := by
  rw [Owned, UInt32.le_iff_toNat_le, UInt32.lt_iff_toNat_lt, toNat_btop]
  rfl

theorem Owned.of_page (h : v.toNat / 4096 = w.toNat / 4096) (hv : Owned vmap v) : Owned vmap w := by
  obtain ⟨hlo, hhi, hnot⟩ := owned_iff.mp hv
  refine owned_iff.mpr ⟨by omega, by omega, ?_⟩
  rwa [← h]

theorem mem_pageRange : v ∈ pageRange a n ↔ ∃ i, i < n.toNat ∧ ahead a i = v := by
  simp [pageRange]

theorem validRange_iff : validRange vmap a size = true ↔
    vmemStart ≤ a ∧ a + pages size * pageSize < osBase ∧
      vmap.rmapStatus (btop a) (pages size) = 1 := by
  simp [validRange, kernelSpace, and_assoc]

theorem toNat_pages_lt (x : UInt32) : (pages x).toNat < 2 ^ 20 := by
  rw [toNat_pages]
  omega

theorem owned_of_validRange (hgood : Good vmap.entries)
    (hend : a.toNat + 4096 * (pages size).toNat < 2 ^ 32)
    (h : validRange vmap a size = true) (hv : v ∈ pageRange a (pages size)) : Owned vmap v := by
  obtain ⟨hlo, hhi, hstat⟩ := validRange_iff.mp h
  obtain ⟨i, hi, rfl⟩ := mem_pageRange.mp hv
  rw [UInt32.le_iff_toNat_le] at hlo
  rw [UInt32.lt_iff_toNat_lt, UInt32.toNat_add, toNat_pages_mul] at hhi
  have hpage : (ahead a i).toNat = a.toNat + 4096 * i := toNat_ahead (by omega)
  have hb : (btop a).toNat = a.toNat / 4096 := toNat_btop a
  refine ⟨?_, ?_, ?_⟩
  · rw [UInt32.le_iff_toNat_le]
    omega
  · rw [UInt32.lt_iff_toNat_lt]
    omega
  · rw [Rmap.rmapStatus_eq] at hstat
    have hdis := status_eq_one hgood (by omega) hstat
    refine Set.disjoint_left.mp hdis ?_
    rw [mem_span, toNat_btop (ahead a i)]
    omega

/-- A map from which all of user space is allocated. -/
def emptyMap : Rmap := (⟨fun _ => ⟨0, 0⟩, 0⟩ : Rmap).rmapInit vmapEntries

theorem last_page_touched
    (hwrap : 2 ^ 32 ≤ a.toNat + 4096 * n.toNat) (halign : a.toNat % 4096 = 0) :
    0xFFFFF000 ∈ pageRange a n := by
  have ha := a.toNat_lt
  refine mem_pageRange.mpr ⟨2 ^ 20 - 1 - a.toNat / 4096, by omega, UInt32.toNat.inj ?_⟩
  rw [toNat_ahead (by omega)]
  change _ = 4294963200
  omega

/-- What the check of a range is for: the pages that the operations go through are allocated user
pages, and the mapping of every other page stays as it is. -/
structure RangeSafe (addr size : UInt32) : Prop where
  touched : ∀ vmap : Rmap, Good vmap.entries → validRange vmap (pageAddr addr) size = true →
    ∀ v ∈ pageRange (pageAddr addr) (pages size), Owned vmap v
  vmfree : ∀ filePage fileEnd (m : Vm) (type : UInt32), Good m.vmap.entries →
    m.AnonPages (pageRange (pageAddr addr) (pages size)) → ∀ v, ¬ Owned m.vmap v →
    (m.vmfree filePage fileEnd addr size type).1.pt.mapping v = m.pt.mapping v
  vmprotect : ∀ (m : Vm) (protect : UInt32), Good m.vmap.entries → ∀ v, ¬ Owned m.vmap v →
    (m.vmprotect addr size protect).1.pt.mapping v = m.pt.mapping v
  vmalloc : ∀ (m m' : Vm) (type protect tag : UInt32) (r : UInt32 × ℤ), Good m.vmap.entries →
    pageAddr addr ≠ 0 → type &&& memReserve = 0 →
    m.vmalloc addr size type protect tag = some (m', r) → ∀ v, ¬ Owned m.vmap v →
    m'.pt.mapping v = m.pt.mapping v

theorem idx_ne_of_owned {l : List UInt32} (hl : ∀ w ∈ l, Owned vmap w) (hv : ¬ Owned vmap v) :
    ∀ w ∈ l, ptabIdx v ≠ ptabIdx w := by
  intro w hw heq
  refine hv ((hl w hw).of_page ?_)
  rw [← toNat_ptabIdx, ← toNat_ptabIdx, heq]

theorem pageAddr_aligned (addr : UInt32) : (pageAddr addr).toNat % 4096 = 0 := by
  rw [toNat_pageAddr]
  omega

theorem vmfree_mapping {filePage fileEnd} {type : UInt32}
    (htouched : validRange m.vmap (pageAddr addr) size = true →
      ∀ v ∈ pageRange (pageAddr addr) (pages size), Owned m.vmap v)
    (hanon : m.AnonPages (pageRange (pageAddr addr) (pages size))) (hv : ¬ Owned m.vmap v) :
    (m.vmfree filePage fileEnd addr size type).1.pt.mapping v = m.pt.mapping v := by
  simp only [Vm.vmfree]
  split
  · rfl
  split
  · rfl
  next hvalid =>
  have hne := idx_ne_of_owned (htouched (by simpa using hvalid)) hv
  rw [Vm.decommit_loop none hanon]
  by_cases htype : type &&& (memDecommit ||| memRelease) = 0
  · simp only [htype, ne_eq, not_true_eq_false, if_false]
    split <;> rfl
  · simp only [htype, ne_eq, not_false_eq_true, if_true]
    have hkeep := Vm.mapping_decommit (m := m) hne
    split <;> exact hkeep

theorem vmalloc_mapping {type protect tag : UInt32} {r : UInt32 × ℤ}
    (htouched : validRange m.vmap (pageAddr addr) size = true →
      ∀ v ∈ pageRange (pageAddr addr) (pages size), Owned m.vmap v)
    (haddr : pageAddr addr ≠ 0) (htype : type &&& memReserve = 0)
    (h : m.vmalloc addr size type protect tag = some (m', r)) (hv : ¬ Owned m.vmap v) :
    m'.pt.mapping v = m.pt.mapping v := by
  simp only [Vm.vmalloc, haddr, false_and, if_false, htype, ne_eq, not_true_eq_false] at h
  split at h
  · obtain ⟨rfl, -⟩ := Prod.mk.inj (Option.some.inj h)
    rfl
  split at h
  · obtain ⟨rfl, -⟩ := Prod.mk.inj (Option.some.inj h)
    rfl
  by_cases hok : validRange m.vmap (pageAddr addr) size = true
  swap
  · simp only [hok] at h
    obtain ⟨rfl, -⟩ := Prod.mk.inj (Option.some.inj h)
    rfl
  simp only [hok, if_true, haddr, if_false] at h
  split at h
  · obtain ⟨m₁, hm₁, heq⟩ := Option.map_eq_some_iff.mp h
    obtain ⟨rfl, -⟩ := Prod.mk.inj heq
    exact Vm.mapping_commit (idx_ne_of_owned (htouched hok) hv) hm₁
  · obtain ⟨rfl, -⟩ := Prod.mk.inj (Option.some.inj h)
    rfl

/-- The operations keep to allocated user pages if and only if the end of the range does not wrap,
or the range is rejected because it starts below `VMEM_START` or its wrapped end lies in kernel
space. -/
theorem rangeSafe_iff (addr size : UInt32) :
    RangeSafe addr size ↔
      pageAddr addr < vmemStart ∨
        kernelSpace (pageAddr addr + pages size * pageSize) = true ∨
        (pageAddr addr).toNat + 4096 * (pages size).toNat < 2 ^ 32 := by
  constructor
  · intro h
    by_contra hnot
    simp only [not_or, UInt32.not_lt, Nat.not_lt] at hnot
    obtain ⟨hlo, hhi, hwrap⟩ := hnot
    have hgood : Good emptyMap.entries := by
      exact Good.nil
    have hvalid : validRange emptyMap (pageAddr addr) size = true := by
      rw [validRange_iff]
      exact ⟨hlo, by simpa [kernelSpace] using hhi, rfl⟩
    have hlast := last_page_touched hwrap (pageAddr_aligned addr)
    have howned := h.touched emptyMap hgood hvalid _ hlast
    exact absurd howned.2.1 (by decide)
  · intro h
    have htouched : ∀ vmap : Rmap, Good vmap.entries →
        validRange vmap (pageAddr addr) size = true →
        ∀ v ∈ pageRange (pageAddr addr) (pages size), Owned vmap v := by
      intro vmap hgood hvalid v hv
      obtain ⟨hlo, hhi, -⟩ := validRange_iff.mp hvalid
      rcases h with h | h | h
      · exact absurd hlo (UInt32.not_le.mpr h)
      · exact absurd hhi (by simpa [kernelSpace] using h)
      · exact owned_of_validRange hgood h hvalid hv
    refine ⟨htouched, fun filePage fileEnd m type hgood hanon v hv => ?_,
      fun m protect hgood v hv => ?_, fun m m' type protect tag r hgood haddr htype hm v hv => ?_⟩
    · exact vmfree_mapping (htouched _ hgood) hanon hv
    · simp only [Vm.vmprotect]
      split
      · rfl
      split
      · rfl
      next hvalid =>
      split
      · rfl
      · exact Vm.mapping_protect
          (idx_ne_of_owned (htouched _ hgood (by simpa using hvalid)) hv)
    · exact vmalloc_mapping (htouched _ hgood) haddr htype hm hv

/-- `vmfree(0xFFFFF000, 4096, ...)` passes the check and goes for the last kernel page. -/
theorem range_wraps :
    ¬ ∀ addr size : UInt32, RangeSafe addr size := by
  intro h
  have hgood : Good emptyMap.entries := by
    exact Good.nil
  have hmem : 0xFFFFF000 ∈ pageRange (pageAddr 0xFFFFF000) (pages 4096) := by decide
  have howned := (h 0xFFFFF000 4096).touched emptyMap hgood (by decide) _ hmem
  exact absurd howned.2.1 (by decide)

end SimpleKernel.Mem
