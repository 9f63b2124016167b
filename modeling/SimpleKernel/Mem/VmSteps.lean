import SimpleKernel.Mem.Vm

/-! What the operations on one page do to the mapping of every page. -/
namespace SimpleKernel.Mem

namespace PageTables

variable {pt : PageTables} {v w x : UInt32}

/-- The entry of a page that is mapped. -/
def mapping (pt : PageTables) (v : UInt32) : Option UInt32 :=
  if pt.pageMapped v then some (pt.getPte v) else none

/-- The directory entry of a page whose page table is there. -/
def table (pt : PageTables) (v : UInt32) : Option UInt32 :=
  if pt.pageDirectoryMapped v then some (pt.getPde v) else none

theorem getPte_setPte_ne (h : ptabIdx v ≠ ptabIdx w) : (pt.setPte w x).getPte v = pt.getPte v :=
  Function.update_of_ne h _ _

theorem getPte_setPte_self : (pt.setPte v x).getPte v = x := Function.update_self _ _ _

theorem pageDirectoryMapped_setPte :
    (pt.setPte w x).pageDirectoryMapped v = pt.pageDirectoryMapped v := rfl

theorem mapping_setPte_ne (h : ptabIdx v ≠ ptabIdx w) : (pt.setPte w x).mapping v = pt.mapping v := by
  have hm : (pt.setPte w x).pageMapped v = pt.pageMapped v := by
    rw [pageMapped, pageMapped, pageDirectoryMapped_setPte, getPte_setPte_ne h]
  rw [mapping, mapping, hm, getPte_setPte_ne h]

theorem mapping_setPte_self (hpde : pt.pageDirectoryMapped v = true) (hx : x &&& ptPresent ≠ 0) :
    (pt.setPte v x).mapping v = some x := by
  simp [mapping, pageMapped, pageDirectoryMapped_setPte, getPte_setPte_self, hpde, hx]

theorem mapping_unmapPage_self : (pt.unmapPage v).mapping v = none := by
  simp [mapping, pageMapped, unmapPage, getPte_setPte_self]

theorem mapping_eq_some : pt.mapping v = some x ↔
    pt.pageDirectoryMapped v = true ∧ x &&& ptPresent ≠ 0 ∧ pt.getPte v = x := by
  simp only [mapping, pageMapped, Bool.and_eq_true, bne_iff_ne]
  constructor
  · intro h
    split at h
    · next hm =>
      obtain rfl := Option.some.inj h
      exact ⟨hm.1, hm.2, rfl⟩
    · simp at h
  · rintro ⟨h1, h2, rfl⟩
    exact if_pos ⟨h1, h2⟩

theorem mapping_eq_none : pt.mapping v = none ↔ pt.pageMapped v = false := by
  simp [mapping]

theorem mapping_congr (h : v.toNat / 4096 = w.toNat / 4096) : pt.mapping v = pt.mapping w := by
  obtain ⟨hpte, hpde⟩ := idx_of_page h
  have hm : pt.pageMapped v = pt.pageMapped w := by
    simp only [pageMapped, pageDirectoryMapped, getPde, getPte, hpte, hpde]
  rw [mapping, mapping, hm, getPte, getPte, hpte]

theorem shiftRight_ptabIdx (v : UInt32) : ptabIdx v >>> 10 = pdeIdx v := by
  refine UInt32.toNat.inj ?_
  rw [UInt32.toNat_shiftRight, toNat_ptabIdx, toNat_pdeIdx, Nat.shiftRight_eq_div_pow]
  change v.toNat / 4096 / 2 ^ 10 = _
  omega

/-- The tables with a new, empty page table for `w` in the frame `g`. -/
def addTable (pt : PageTables) (w g : UInt32) : PageTables :=
  (pt.setPde w (ptob g ||| ptPresent ||| ptWritable ||| ptUser)).clearTable w

theorem present_tableEntry (g : UInt32) :
    (ptob g ||| ptPresent ||| ptWritable ||| ptUser) &&& ptPresent ≠ 0 := by
  have hself : (ptob g ||| ptPresent ||| ptWritable ||| ptUser) &&& ptPresent = ptPresent := by
    have horder : ptob g ||| ptPresent ||| ptWritable ||| ptUser =
        (ptob g ||| ptWritable ||| ptUser) ||| ptPresent := by
      simp only [UInt32.or_assoc]
      congr 1
    rw [horder, or_and_self]
  rw [hself]
  decide

theorem table_addTable (g : UInt32) :
    (pt.addTable w g).table v =
      if pdeIdx v = pdeIdx w then some (ptob g ||| ptPresent ||| ptWritable ||| ptUser)
      else pt.table v := by
  by_cases h : pdeIdx v = pdeIdx w
  · have hp := present_tableEntry g
    simp [addTable, table, pageDirectoryMapped, clearTable, getPde, setPde, h, hp]
  · simp [addTable, table, pageDirectoryMapped, clearTable, getPde, setPde, h]

theorem mapping_addTable (hnone : pt.table w = none) (g : UInt32) :
    (pt.addTable w g).mapping v = pt.mapping v := by
  by_cases h : pdeIdx v = pdeIdx w
  · have hbefore : pt.mapping v = none := by
      have hpde : pt.pageDirectoryMapped w = false := by
        simpa [table] using hnone
      have hpde' : pt.pageDirectoryMapped v = false := by
        rw [← hpde]
        simp only [pageDirectoryMapped, getPde, h]
      simp [mapping, pageMapped, hpde']
    have hafter : (pt.addTable w g).getPte v = 0 := by
      simp [addTable, clearTable, getPte, shiftRight_ptabIdx, h]
    rw [hbefore, mapping_eq_none, pageMapped, hafter]
    simp
  · have hpte : (pt.addTable w g).getPte v = pt.getPte v := by
      simp [addTable, clearTable, getPte, setPde, shiftRight_ptabIdx, h]
    have hpde : (pt.addTable w g).pageDirectoryMapped v = pt.pageDirectoryMapped v := by
      simp [addTable, pageDirectoryMapped, clearTable, getPde, setPde, h]
    have hm : (pt.addTable w g).pageMapped v = pt.pageMapped v := by
      rw [pageMapped, pageMapped, hpte, hpde]
    rw [mapping, mapping, hm, hpte]

end PageTables

namespace Vm

open PageTables

variable {m m' : Vm} {v w pfn flags tag : UInt32}

theorem pt_allocPageframe {p : Vm × UInt32} (h : m.allocPageframe tag = some p) :
    p.1.pt = m.pt ∧ p.1.vmap = m.vmap := by
  rw [allocPageframe] at h
  split at h
  · simp at h
  · obtain ⟨pf, -, rfl⟩ := Option.map_eq_some_iff.mp h
    exact ⟨rfl, rfl⟩

theorem needTable_cases (h : m.needTable v = some m') :
    m.pt.pageDirectoryMapped v = true ∧ m' = m ∨
      m.pt.table v = none ∧ ∃ p, m.allocPageframe tagPtab = some p ∧
        m' = { p.1 with pt := m.pt.addTable v p.2 } := by
  rw [needTable] at h
  split at h
  · next hpde =>
    obtain ⟨p, hp, rfl⟩ := Option.map_eq_some_iff.mp h
    refine .inr ⟨by simp [table, pageDirectoryMapped, hpde], p, hp, ?_⟩
    rw [(pt_allocPageframe hp).1]
    rfl
  · next hpde => exact .inl ⟨by simp [pageDirectoryMapped, hpde], (Option.some.inj h).symm⟩

theorem mapping_needTable (h : m.needTable w = some m') : m'.pt.mapping v = m.pt.mapping v := by
  rcases needTable_cases h with ⟨-, rfl⟩ | ⟨hnone, p, -, rfl⟩
  · rfl
  · exact mapping_addTable hnone p.2

theorem vmap_needTable (h : m.needTable w = some m') : m'.vmap = m.vmap := by
  rcases needTable_cases h with ⟨-, rfl⟩ | ⟨-, p, hp, rfl⟩
  · rfl
  · exact (pt_allocPageframe hp).2

theorem mapping_mapPage_ne (hne : ptabIdx v ≠ ptabIdx w) (h : m.mapPage w pfn flags = some m') :
    m'.pt.mapping v = m.pt.mapping v := by
  obtain ⟨m₁, hm₁, rfl⟩ := Option.map_eq_some_iff.mp h
  rw [← mapping_needTable hm₁]
  exact mapping_setPte_ne hne

theorem mapping_commitPage_ne (hne : ptabIdx v ≠ ptabIdx w)
    (h : commitPage tag flags m w = some m') : m'.pt.mapping v = m.pt.mapping v := by
  rw [commitPage] at h
  split at h
  · obtain rfl := Option.some.inj h
    exact mapping_setPte_ne hne
  · obtain ⟨p, hp, hmap⟩ := Option.bind_eq_some_iff.mp h
    rw [mapping_mapPage_ne hne hmap, (pt_allocPageframe hp).1]

theorem mapping_protectPage_ne (hne : ptabIdx v ≠ ptabIdx w) :
    (protectPage flags m w).pt.mapping v = m.pt.mapping v := by
  rw [protectPage]
  split
  · exact mapping_setPte_ne hne
  · rfl

theorem mapping_commit {l : List UInt32} (hl : ∀ w ∈ l, ptabIdx v ≠ ptabIdx w)
    (h : l.foldlM (commitPage tag flags) m = some m') : m'.pt.mapping v = m.pt.mapping v := by
  induction l generalizing m with
  | nil =>
    obtain rfl := Option.some.inj h
    rfl
  | cons w l ih =>
    obtain ⟨m₁, hw, hrest⟩ := Option.bind_eq_some_iff.mp h
    rw [ih (fun u hu => hl u (List.mem_cons_of_mem _ hu)) hrest]
    exact mapping_commitPage_ne (hl w List.mem_cons_self) hw

theorem mapping_protect {l : List UInt32} (hl : ∀ w ∈ l, ptabIdx v ≠ ptabIdx w) :
    (l.foldl (protectPage flags) m).pt.mapping v = m.pt.mapping v := by
  induction l generalizing m with
  | nil => rfl
  | cons w l ih =>
    rw [List.foldl_cons, ih fun u hu => hl u (List.mem_cons_of_mem _ hu)]
    exact mapping_protectPage_ne (hl w List.mem_cons_self)

section free

variable {filePage : Vm → Option UInt32 → UInt32 → Except (Vm × ℤ) (Vm × Option UInt32)}

/-- No page of the list belongs to a mapped file. -/
def AnonPages (m : Vm) (l : List UInt32) : Prop :=
  ∀ w ∈ l, m.pt.pageDirectoryMapped w = true → m.pt.getPte w &&& ptFile = 0

/-- A page of anonymous memory is decommitted. -/
def decommit (m : Vm) (w : UInt32) : Vm :=
  if m.pt.pageMapped w then
    { m with pt := m.pt.unmapPage w }.freePageframe (m.pt.virt2pfn w)
  else m

theorem flag_getPageFlags {b : UInt32} (hb : ptFlagmask &&& b = b) :
    m.pt.getPageFlags w &&& b = m.pt.getPte w &&& b := by
  rw [getPageFlags, UInt32.and_assoc, hb]

theorem decommitPage_eq (fm : Option UInt32)
    (hanon : m.pt.pageDirectoryMapped w = true → m.pt.getPte w &&& ptFile = 0) :
    decommitPage filePage (m, fm) w = .ok (m.decommit w, fm) := by
  have hfile : m.pt.getPageFlags w &&& ptFile = m.pt.getPte w &&& ptFile :=
    flag_getPageFlags (by decide)
  have hpres : m.pt.getPageFlags w &&& ptPresent = m.pt.getPte w &&& ptPresent :=
    flag_getPageFlags (by decide)
  simp only [decommitPage, decommit, hfile, hpres, pageMapped]
  by_cases hpde : m.pt.pageDirectoryMapped w = true
  · by_cases hp : m.pt.getPte w &&& ptPresent = 0
    · simp [hanon hpde, hp]
    · simp [hanon hpde, hpde, hp]
  · simp [hpde]

theorem mapping_decommit_ne (hne : ptabIdx v ≠ ptabIdx w) :
    (m.decommit w).pt.mapping v = m.pt.mapping v := by
  rw [decommit]
  split
  · exact mapping_setPte_ne hne
  · rfl

theorem file_decommit (w u : UInt32) (h : m.pt.pageDirectoryMapped u = true →
    m.pt.getPte u &&& ptFile = 0) : (m.decommit w).pt.pageDirectoryMapped u = true →
    (m.decommit w).pt.getPte u &&& ptFile = 0 := by
  rw [decommit]
  split
  · intro hu
    change (m.pt.setPte w 0).getPte u &&& ptFile = 0
    by_cases hne : ptabIdx u = ptabIdx w
    · have : (m.pt.setPte w 0).getPte u = 0 := by
        simp [getPte, setPte, hne]
      rw [this]
      rfl
    · rw [getPte_setPte_ne hne]
      exact h hu
  · exact h

theorem decommit_loop {l : List UInt32} (fm : Option UInt32) (hanon : AnonPages m l) :
    l.foldlM (decommitPage filePage) (m, fm) = .ok (l.foldl decommit m, fm) := by
  induction l generalizing m with
  | nil => rfl
  | cons w l ih =>
    rw [List.foldlM_cons, decommitPage_eq fm (hanon w List.mem_cons_self)]
    exact ih fun u hu => file_decommit w u (hanon u (List.mem_cons_of_mem _ hu))

theorem mapping_decommit {l : List UInt32} (hl : ∀ w ∈ l, ptabIdx v ≠ ptabIdx w) :
    (l.foldl decommit m).pt.mapping v = m.pt.mapping v := by
  induction l generalizing m with
  | nil => rfl
  | cons w l ih =>
    rw [List.foldl_cons, ih fun u hu => hl u (List.mem_cons_of_mem _ hu)]
    exact mapping_decommit_ne (hl w List.mem_cons_self)

end free

end Vm

end SimpleKernel.Mem
