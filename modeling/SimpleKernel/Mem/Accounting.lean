import SimpleKernel.Mem.Range
import SimpleKernel.Lib.Holdings
import SimpleKernel.Lib.Transition

/-! Every frame is on the free list, is a page table of user space, or is mapped at one user page;
no operation on anonymous memory changes the number of frames. -/
namespace SimpleKernel.Mem
open Function (update update_comm update_eq_self update_of_ne update_self)

open Intervals Entries PageTables Vm Holdings

variable {pt : PageTables} {m m' : Vm} {v w x y fl c tag : UInt32} {frames : List UInt32} {u : ℕ}

/-! Entries of pages. -/

/-- The entry with the frame of `y` and the flags `fl`. -/
def entryOf (y fl : UInt32) : UInt32 := (y &&& ptPfnmask) ||| fl

theorem toNat_entryOf (hfl : fl.toNat < 4096) :
    (entryOf y fl).toNat = y.toNat - y.toNat % 4096 + fl.toNat := by
  have hy : (y &&& ptPfnmask).toNat = y.toNat - y.toNat % 4096 := by
    exact toNat_pageAddr y
  rw [entryOf, toNat_or_flags (by omega) hfl, hy]

theorem btop_entryOf (hfl : fl.toNat < 4096) : btop (entryOf y fl) = btop y := by
  refine UInt32.toNat.inj ?_
  rw [toNat_btop, toNat_btop, toNat_entryOf hfl]
  omega

theorem entryOf_and (hc : ptPfnmask &&& c = 0) : entryOf y fl &&& c = fl &&& c := by
  apply UInt32.toBitVec_inj.mp
  have hc' := UInt32.toBitVec_inj.mpr hc
  ext i -
  have hbit := congrArg (fun b : BitVec 32 => b[i]) hc'
  simp only [UInt32.toBitVec_and, BitVec.getElem_and] at hbit
  simp only [entryOf, UInt32.toBitVec_and, UInt32.toBitVec_or, BitVec.getElem_and,
    BitVec.getElem_or]
  revert hbit
  cases y.toBitVec[i] <;> cases fl.toBitVec[i] <;> cases c.toBitVec[i] <;>
    cases ptPfnmask.toBitVec[i] <;> simp

theorem ptob_or {f : UInt32} (hf : f.toNat < 2 ^ 20) : ptob f ||| fl = entryOf (ptob f) fl := by
  have hmask : ptob f &&& ptPfnmask = ptob f := by
    refine UInt32.toNat.inj ?_
    change (pageAddr (ptob f)).toNat = _
    rw [toNat_pageAddr, toNat_ptob hf]
    omega
  rw [entryOf, hmask]

theorem btop_ptob {f : UInt32} (hf : f.toNat < 2 ^ 20) : btop (ptob f) = f := by
  refine UInt32.toNat.inj ?_
  rw [toNat_btop, toNat_ptob hf]
  omega

theorem btop_lt (x : UInt32) : (btop x).toNat < 2 ^ 20 := by
  have := x.toNat_lt
  rw [toNat_btop]
  omega

/-- An entry of anonymous memory: no file and no bits outside the known flags. -/
def PlainEntry (x : UInt32) : Prop := x &&& ptFile = 0 ∧ x &&& ~~~(ptPfnmask ||| ptFlagmask) = 0

theorem PlainEntry.entryOf (hfl : PlainEntry fl) : PlainEntry (entryOf y fl) := by
  refine ⟨?_, ?_⟩
  · rw [entryOf_and (by decide)]
    exact hfl.1
  · rw [entryOf_and (by decide)]
    exact hfl.2

theorem pteFlags_cases {protect : UInt32} (h : pteFlagsFromProtect protect ≠ noFlags) :
    pteFlagsFromProtect protect ∈ [0, ptUser, ptUser ||| ptWritable, ptGuard,
      ptGuard ||| ptWritable] := by
  revert h
  rw [pteFlagsFromProtect]
  split_ifs <;> simp

theorem commit_flags {fl : UInt32}
    (h : fl ∈ [0, ptUser, ptUser ||| ptWritable, ptGuard, ptGuard ||| ptWritable]) :
    (fl ||| ptPresent).toNat < 4096 ∧ PlainEntry (fl ||| ptPresent) ∧
      fl &&& ~~~ptProtectmask = 0 ∧ PlainEntry fl := by
  simp only [List.mem_cons, List.not_mem_nil, or_false] at h
  rcases h with rfl | rfl | rfl | rfl | rfl <;>
    exact ⟨by decide, ⟨by decide, by decide⟩, by decide, ⟨by decide, by decide⟩⟩

/-! Who holds which frame. -/

/-- The first address of a page. -/
def addrOf (p : ℕ) : UInt32 := UInt32.ofNat (4096 * p)

/-- The pages and the page tables of user space. -/
abbrev Holder := Fin (2 ^ 19) ⊕ Fin 512

/-- The frame of a committed page or of a page table. -/
def hold (pt : PageTables) : Holder → Option UInt32
  | .inl p => (pt.mapping (addrOf p)).map btop
  | .inr t => (pt.table (addrOf (1024 * t))).map btop

theorem toNat_addrOf {p : ℕ} (hp : p < 2 ^ 20) : (addrOf p).toNat = 4096 * p :=
  toNat_ofNat (by omega)

theorem mapping_addrOf (v : UInt32) : pt.mapping (addrOf (v.toNat / 4096)) = pt.mapping v := by
  have := v.toNat_lt
  apply mapping_congr
  rw [toNat_addrOf (by omega)]
  omega

theorem pdeIdx_addrOf (v : UInt32) : pdeIdx (addrOf (1024 * (v.toNat / 4194304))) = pdeIdx v := by
  have := v.toNat_lt
  refine UInt32.toNat.inj ?_
  rw [toNat_pdeIdx, toNat_pdeIdx, toNat_addrOf (by omega)]
  omega

theorem table_congr (h : pdeIdx v = pdeIdx w) : pt.table v = pt.table w := by
  have hm : pt.pageDirectoryMapped v = pt.pageDirectoryMapped w := by
    simp only [pageDirectoryMapped, getPde, h]
  rw [table, table, hm, getPde, getPde, h]

/-- The page of `v` as a holder. -/
def pageOf (v : UInt32) (hv : v < osBase) : Holder :=
  .inl ⟨v.toNat / 4096, by
    have : v.toNat < 2147483648 := UInt32.lt_iff_toNat_lt.mp hv
    omega⟩

/-- The page table of `v` as a holder. -/
def tableOf (v : UInt32) (hv : v < osBase) : Holder :=
  .inr ⟨v.toNat / 4194304, by
    have : v.toNat < 2147483648 := UInt32.lt_iff_toNat_lt.mp hv
    omega⟩

theorem hold_pageOf (hv : v < osBase) : hold pt (pageOf v hv) = (pt.mapping v).map btop := by
  simp only [hold, pageOf, mapping_addrOf]

theorem hold_tableOf (hv : v < osBase) : hold pt (tableOf v hv) = (pt.table v).map btop := by
  simp only [hold, tableOf, table_congr (pdeIdx_addrOf v)]

theorem hold_update_page {pt' : PageTables} {e : Option UInt32} (hv : v < osBase)
    (hmap : ∀ w, ptabIdx w ≠ ptabIdx v → pt'.mapping w = pt.mapping w)
    (htab : ∀ w, pt'.table w = pt.table w) (hself : (pt'.mapping v).map btop = e) :
    hold pt' = update (hold pt) (pageOf v hv) e := by
  funext k
  by_cases hk : k = pageOf v hv
  · rw [hk, update_self, hold_pageOf, hself]
  · rw [update_of_ne hk]
    cases k with
    | inr t => simp only [hold, htab]
    | inl p =>
      have hne : ptabIdx (addrOf p) ≠ ptabIdx v := by
        intro heq
        refine hk (congrArg Sum.inl (Fin.ext ?_))
        have := congrArg UInt32.toNat heq
        rw [toNat_ptabIdx, toNat_ptabIdx, toNat_addrOf (by omega)] at this
        simp only
        omega
      simp only [hold, hmap _ hne]

theorem hold_addTable {g : UInt32} (hv : v < osBase) (hnone : pt.table v = none)
    (hg : g.toNat < 2 ^ 20) :
    hold (pt.addTable v g) = update (hold pt) (tableOf v hv) (some g) := by
  have hentry : btop (ptob g ||| ptPresent ||| ptWritable ||| ptUser) = g := by
    have hflags : ptob g ||| ptPresent ||| ptWritable ||| ptUser =
        ptob g ||| (ptPresent ||| ptWritable ||| ptUser) := by
      simp only [UInt32.or_assoc]
    rw [hflags, ptob_or hg, btop_entryOf (by decide), btop_ptob hg]
  funext k
  cases k with
  | inl p =>
    rw [update_of_ne (by simp [tableOf])]
    simp only [hold, mapping_addTable hnone]
  | inr t =>
    by_cases hk : (.inr t : Holder) = tableOf v hv
    · rw [hk, update_self, hold_tableOf, table_addTable, if_pos rfl, Option.map_some, hentry]
    · have hne : pdeIdx (addrOf (1024 * t)) ≠ pdeIdx v := by
        intro heq
        refine hk (congrArg Sum.inr (Fin.ext ?_))
        have := congrArg UInt32.toNat heq
        rw [toNat_pdeIdx, toNat_pdeIdx, toNat_addrOf (by omega)] at this
        simp only
        omega
      rw [update_of_ne hk]
      simp only [hold, table_addTable, if_neg hne]

/-- The free list is in order and no frame is in two places. -/
structure FramesOk (m : Vm) (frames : List UInt32) : Prop where
  stack : IsStack m.next m.freelist frames
  count : m.freemem.toNat = frames.length
  small : ∀ f ∈ frames, f.toNat < 2 ^ 20
  sound : Holdings.Sound (hold m.pt) frames

theorem length_le_of_small (hnodup : frames.Nodup) (h : ∀ f ∈ frames, f.toNat < 2 ^ 20) :
    frames.length ≤ 2 ^ 20 := by
  have hmap : (frames.map UInt32.toNat).Nodup :=
    hnodup.map fun a b hab => UInt32.toNat.inj hab
  have hsub : (frames.map UInt32.toNat).toFinset ⊆ Finset.range (2 ^ 20) := by
    intro n hn
    obtain ⟨f, hf, rfl⟩ := List.mem_map.mp (List.mem_toFinset.mp hn)
    exact Finset.mem_range.mpr (h f hf)
  have hcard := Finset.card_le_card hsub
  rwa [List.toFinset_card_of_nodup hmap, List.length_map, Finset.card_range] at hcard

theorem alloc_stack (hstack : IsStack m.next m.freelist frames)
    (hcount : m.freemem.toNat = frames.length) (hnodup : frames.Nodup) {p : Vm × UInt32}
    (hp : m.allocPageframe tag = some p) :
    ∃ rest, frames = p.2 :: rest ∧ IsStack p.1.next p.1.freelist rest ∧
      p.1.freemem.toNat = rest.length := by
  rw [allocPageframe] at hp
  split at hp
  · simp at hp
  obtain ⟨pf, hpf, rfl⟩ := Option.map_eq_some_iff.mp hp
  rw [hpf] at hstack
  obtain ⟨rest, rfl, hrest⟩ := hstack.pop hnodup
  refine ⟨rest, rfl, hrest, ?_⟩
  rw [List.length_cons] at hcount
  rw [Rmap.toNat_pred (by omega), hcount, Nat.add_sub_cancel]

theorem FramesOk.giveBack (h : FramesOk m frames) {k : Holder} {f : UInt32} (hf : f.toNat < 2 ^ 20)
    (hk : hold m.pt k = some f) {pt' : PageTables}
    (hpt : hold pt' = update (hold m.pt) k none) :
    FramesOk ({ m with pt := pt' }.freePageframe f) (f :: frames) := by
  have hlen := length_le_of_small h.sound.nodup h.small
  refine ⟨h.stack.push (h.sound.apart k f hk), ?_, ?_, ?_⟩
  · change (m.freemem + 1).toNat = _
    have hcount := h.count
    rw [UInt32.toNat_add, List.length_cons, UInt32.toNat_one]
    omega
  · intro g hg
    rcases List.mem_cons.mp hg with rfl | hg
    · exact hf
    · exact h.small g hg
  · change Holdings.Sound (hold pt') (f :: frames)
    rw [hpt]
    exact h.sound.giveBack hk

theorem FramesOk.mapPage (hv : v < osBase) {f : UInt32} {rest : List UInt32}
    (hfl : fl.toNat < 4096) (hpres : fl &&& ptPresent ≠ 0)
    (hstack : IsStack m.next m.freelist rest) (hcount : m.freemem.toNat = rest.length)
    (hsmall : ∀ g ∈ f :: rest, g.toNat < 2 ^ 20)
    (hsound : Holdings.Sound (hold m.pt) (f :: rest))
    (hnone : m.pt.mapping v = none) (hm : m.mapPage v f fl = some m') :
    ∃ rest', FramesOk m' rest' ∧
      total (hold m'.pt) rest' = total (hold m.pt) (f :: rest) := by
  have hf : f.toNat < 2 ^ 20 := hsmall f List.mem_cons_self
  have hrest : ∀ g ∈ rest, g.toNat < 2 ^ 20 := fun g hg => hsmall g (List.mem_cons_of_mem _ hg)
  obtain ⟨m₁, hm₁, rfl⟩ := Option.map_eq_some_iff.mp hm
  have hentry : (ptob f ||| fl) &&& ptPresent ≠ 0 := by
    rwa [ptob_or hf, entryOf_and (by decide)]
  have hbtop : btop (ptob f ||| fl) = f := by
    rw [ptob_or hf, btop_entryOf hfl, btop_ptob hf]
  have hset : ∀ pt₁ : PageTables, pt₁.pageDirectoryMapped v = true →
      hold (pt₁.setPte v (ptob f ||| fl)) = update (hold pt₁) (pageOf v hv) (some f) := by
    intro pt₁ hpde
    refine hold_update_page hv (fun w hw => mapping_setPte_ne hw) (fun w => rfl) ?_
    rw [mapping_setPte_self hpde hentry, Option.map_some, hbtop]
  have hpage : hold m.pt (pageOf v hv) = none := by
    rw [hold_pageOf, hnone, Option.map_none]
  rcases needTable_cases hm₁ with ⟨hpde, rfl⟩ | ⟨htab, p, hp, rfl⟩
  · refine ⟨rest, ⟨hstack, hcount, hrest, ?_⟩, ?_⟩
    · simp only [hset _ hpde]
      exact hsound.grant
    · simp only [hset _ hpde]
      exact total_grant hpage
  · -- the page is given `f` first, the table the next frame
    have hsound₁ := hsound.grant (k := pageOf v hv)
    obtain ⟨rest', rfl, hstack', hcount'⟩ := alloc_stack hstack hcount hsound₁.nodup hp
    have hg : p.2.toNat < 2 ^ 20 := hrest p.2 List.mem_cons_self
    have htable : (m.pt.addTable v p.2).pageDirectoryMapped v = true := by
      have htab' : (m.pt.addTable v p.2).table v = _ := table_addTable p.2
      by_contra hno
      simp [table, hno] at htab'
    have hne : pageOf v hv ≠ tableOf v hv := by simp [pageOf, tableOf]
    have hhold : hold ((m.pt.addTable v p.2).setPte v (ptob f ||| fl)) =
        update (update (hold m.pt) (pageOf v hv) (some f)) (tableOf v hv)
          (some p.2) := by
      rw [hset _ htable, hold_addTable hv htab hg, update_comm hne]
    have hfree : update (hold m.pt) (pageOf v hv) (some f) (tableOf v hv) = none := by
      rw [update_of_ne hne.symm, hold_tableOf, htab, Option.map_none]
    refine ⟨rest', ⟨hstack', hcount', fun g hg => hrest g (List.mem_cons_of_mem _ hg), ?_⟩, ?_⟩
    · simp only [hhold]
      exact hsound₁.grant
    · simp only [hhold]
      rw [total_grant hfree, total_grant hpage]

/-- All entries of the page tables of user space are those of anonymous memory. -/
def Plain (pt : PageTables) : Prop :=
  ∀ w, w < osBase → pt.pageDirectoryMapped w = true → PlainEntry (pt.getPte w)

theorem Plain.setPte (h : Plain pt) (hx : PlainEntry x) : Plain (pt.setPte v x) := by
  intro w hw hpde
  by_cases hidx : ptabIdx w = ptabIdx v
  · have : (pt.setPte v x).getPte w = x := by
      simp [getPte, PageTables.setPte, hidx]
    rwa [this]
  · rw [getPte_setPte_ne hidx]
    exact h w hw hpde

theorem Plain.addTable (h : Plain pt) (g : UInt32) : Plain (pt.addTable v g) := by
  intro w hw hpde
  by_cases hidx : pdeIdx w = pdeIdx v
  · have : (pt.addTable v g).getPte w = 0 := by
      simp [PageTables.addTable, clearTable, getPte, shiftRight_ptabIdx, hidx]
    rw [this]
    exact ⟨by decide, by decide⟩
  · have hpte : (pt.addTable v g).getPte w = pt.getPte w := by
      simp [PageTables.addTable, clearTable, getPte, setPde, shiftRight_ptabIdx, hidx]
    have hpde' : (pt.addTable v g).pageDirectoryMapped w = pt.pageDirectoryMapped w := by
      simp [PageTables.addTable, pageDirectoryMapped, clearTable, getPde, setPde, hidx]
    rw [hpte]
    exact h w hw (hpde'.symm.trans hpde)

theorem Plain.needTable (h : Plain m.pt) (hm : m.needTable v = some m') : Plain m'.pt := by
  rcases needTable_cases hm with ⟨-, rfl⟩ | ⟨-, p, -, rfl⟩
  · exact h
  · exact h.addTable p.2

theorem hold_setPte_entryOf (hv : v < osBase) (hmapped : pt.pageMapped v = true)
    (hfl : fl.toNat < 4096) (hpres : fl &&& ptPresent ≠ 0) :
    hold (pt.setPte v (entryOf (pt.getPte v) fl)) = hold pt := by
  have hpde : pt.pageDirectoryMapped v = true := by
    rw [pageMapped, Bool.and_eq_true] at hmapped
    exact hmapped.1
  have hentry : entryOf (pt.getPte v) fl &&& ptPresent ≠ 0 := by
    rwa [entryOf_and (by decide)]
  have hsame : hold pt (pageOf v hv) = some (btop (pt.getPte v)) := by
    rw [hold_pageOf, mapping, if_pos hmapped, Option.map_some]
  have hupd : hold (pt.setPte v (entryOf (pt.getPte v) fl)) =
      update (hold pt) (pageOf v hv) _ :=
    hold_update_page hv (fun w hw => mapping_setPte_ne hw) (fun w => rfl) rfl
  rw [hupd, mapping_setPte_self hpde hentry, Option.map_some, btop_entryOf hfl, ← hsame,
    update_eq_self]

theorem commitPage_ok (h : FramesOk m frames) (hplain : Plain m.pt) (hv : v < osBase)
    (hfl : (fl ||| ptPresent).toNat < 4096) (hflp : PlainEntry (fl ||| ptPresent))
    (hm : commitPage tag fl m v = some m') :
    m'.vmap = m.vmap ∧ Plain m'.pt ∧
      ∃ frames', FramesOk m' frames' ∧ total (hold m'.pt) frames' = total (hold m.pt) frames := by
  have hpres : (fl ||| ptPresent) &&& ptPresent ≠ 0 := by
    rw [or_and_self]
    decide
  rw [commitPage] at hm
  split at hm
  · next hmapped =>
    obtain rfl := Option.some.inj hm
    have hhold := hold_setPte_entryOf hv hmapped hfl hpres
    refine ⟨rfl, hplain.setPte hflp.entryOf, frames, ⟨h.stack, h.count, h.small, ?_⟩, ?_⟩
    · change Holdings.Sound (hold (m.pt.setPte v (entryOf (m.pt.getPte v) _))) frames
      rw [hhold]
      exact h.sound
    · change total (hold (m.pt.setPte v (entryOf (m.pt.getPte v) _))) frames = _
      rw [hhold]
  · next hmapped =>
    obtain ⟨p, hp, hmap⟩ := Option.bind_eq_some_iff.mp hm
    obtain ⟨hpt, hvmap⟩ := pt_allocPageframe hp
    obtain ⟨rest, rfl, hstack, hcount⟩ := alloc_stack h.stack h.count h.sound.nodup hp
    have hnone : p.1.pt.mapping v = none := by
      rw [hpt, mapping_eq_none]
      simpa using hmapped
    have hf : p.2.toNat < 2 ^ 20 := h.small p.2 List.mem_cons_self
    refine ⟨?_, ?_, ?_⟩
    · obtain ⟨m₁, hm₁, rfl⟩ := Option.map_eq_some_iff.mp hmap
      exact (vmap_needTable hm₁).trans hvmap
    · obtain ⟨m₁, hm₁, rfl⟩ := Option.map_eq_some_iff.mp hmap
      rw [← hpt] at hplain
      refine (hplain.needTable hm₁).setPte ?_
      rw [ptob_or hf]
      exact hflp.entryOf
    · rw [← hpt]
      have hsound := h.sound
      rw [← hpt] at hsound
      exact FramesOk.mapPage hv hfl hpres hstack hcount h.small hsound hnone hmap

theorem btop_and_pfnmask (x : UInt32) : btop (x &&& ptPfnmask) = btop x := by
  have hzero : btop (entryOf x 0) = btop x := btop_entryOf (by decide)
  rwa [entryOf, UInt32.or_zero] at hzero

theorem decommit_ok (h : FramesOk m frames) (hplain : Plain m.pt) (hv : v < osBase) :
    (m.decommit v).vmap = m.vmap ∧ Plain (m.decommit v).pt ∧
      (m.decommit v).pt.mapping v = none ∧
      ∃ frames', FramesOk (m.decommit v) frames' ∧
        total (hold (m.decommit v).pt) frames' = total (hold m.pt) frames := by
  rw [Vm.decommit]
  split
  · next hmapped =>
    have hk : hold m.pt (pageOf v hv) = some (btop (m.pt.getPte v)) := by
      rw [hold_pageOf, mapping, if_pos hmapped, Option.map_some]
    have hhold : hold (m.pt.unmapPage v) = update (hold m.pt) (pageOf v hv) none := by
      refine hold_update_page hv (fun w hw => mapping_setPte_ne hw) (fun w => rfl) ?_
      rw [mapping_unmapPage_self, Option.map_none]
    have hpfn : m.pt.virt2pfn v = btop (m.pt.getPte v) := btop_and_pfnmask _
    rw [hpfn]
    refine ⟨rfl, hplain.setPte ⟨by decide, by decide⟩, mapping_unmapPage_self, _,
      h.giveBack (btop_lt _) hk hhold, ?_⟩
    change total (hold (m.pt.unmapPage v)) _ = _
    rw [hhold]
    exact total_giveBack hk
  · next hmapped =>
    exact ⟨rfl, hplain, mapping_eq_none.mpr (by simpa using hmapped), frames, h, rfl⟩

/-- The new flags of a page whose protection changes. -/
def protectFlags (x fl : UInt32) : UInt32 := ((x &&& ptFlagmask) &&& ~~~ptProtectmask) ||| fl

theorem protectFlags_lt (hfl : fl.toNat < 4096) : (protectFlags x fl).toNat < 4096 := by
  apply Nat.or_lt_two_pow (n := 12)
  · calc _ ≤ x.toNat &&& ptFlagmask.toNat := Nat.and_le_left
      _ ≤ ptFlagmask.toNat := Nat.and_le_right
      _ < 2 ^ 12 := by decide
  · exact hfl

theorem protectFlags_and (hc : ptFlagmask &&& ~~~ptProtectmask &&& c = c) :
    protectFlags x fl &&& c = (x &&& c) ||| (fl &&& c) := by
  rw [protectFlags, or_and_distrib, UInt32.and_assoc x, UInt32.and_assoc x, hc]

theorem protectFlags_present (hx : x &&& ptPresent ≠ 0) : protectFlags x fl &&& ptPresent ≠ 0 := by
  rw [protectFlags_and (by decide)]
  intro hzero
  have habsorb := or_and_self (fl &&& ptPresent) (x &&& ptPresent)
  rw [UInt32.or_comm, hzero, UInt32.zero_and] at habsorb
  exact hx habsorb.symm

theorem protectFlags_plain (hx : PlainEntry x) (hfl : PlainEntry fl) :
    PlainEntry (protectFlags x fl) := by
  refine ⟨?_, ?_⟩
  · rw [protectFlags_and (by decide), hx.1, hfl.1]
    rfl
  · have hnone : ptFlagmask &&& ~~~ptProtectmask &&& ~~~(ptPfnmask ||| ptFlagmask) = 0 := by decide
    rw [protectFlags, or_and_distrib, UInt32.and_assoc x, UInt32.and_assoc x, hnone, hfl.2,
      UInt32.and_zero]
    rfl

theorem protect_entry (hx : PlainEntry x) (hfl : fl &&& ~~~ptProtectmask = 0) :
    entryOf x (protectFlags x fl) &&& ~~~ptProtectmask = x &&& ~~~ptProtectmask := by
  have hx' : x &&& (ptPfnmask ||| ptFlagmask) = x := and_eq_self hx.2
  have hflags : ptFlagmask &&& ~~~ptProtectmask &&& ~~~ptProtectmask =
      ptFlagmask &&& ~~~ptProtectmask := by decide
  calc entryOf x (protectFlags x fl) &&& ~~~ptProtectmask
      = (x &&& (ptPfnmask &&& ~~~ptProtectmask)) |||
          (x &&& (ptFlagmask &&& ~~~ptProtectmask)) := by
        rw [entryOf, or_and_distrib, protectFlags, or_and_distrib, hfl, UInt32.or_zero,
          UInt32.and_assoc x, UInt32.and_assoc x, UInt32.and_assoc x, hflags]
    _ = x &&& (ptPfnmask ||| ptFlagmask) &&& ~~~ptProtectmask := by
        rw [UInt32.and_assoc x, or_and_distrib, UInt32.and_comm x (_ ||| _), or_and_distrib,
          UInt32.and_comm x, UInt32.and_comm x]
    _ = x &&& ~~~ptProtectmask := by rw [hx']

theorem protectPage_ok (h : FramesOk m frames) (hplain : Plain m.pt) (hv : v < osBase)
    (hfl : fl.toNat < 4096) (hflp : PlainEntry fl) :
    (protectPage fl m v).vmap = m.vmap ∧ Plain (protectPage fl m v).pt ∧
      FramesOk (protectPage fl m v) frames ∧ hold (protectPage fl m v).pt = hold m.pt ∧
      (protectPage fl m v).pt.mapping v =
        (m.pt.mapping v).map fun x => entryOf x (protectFlags x fl) := by
  rw [protectPage]
  split
  · next hmapped =>
    have hpte : m.pt.pageDirectoryMapped v = true ∧ m.pt.getPte v &&& ptPresent ≠ 0 := by
      simpa [pageMapped] using hmapped
    have hpres : protectFlags (m.pt.getPte v) fl &&& ptPresent ≠ 0 := protectFlags_present hpte.2
    have hentry : entryOf (m.pt.getPte v) (protectFlags (m.pt.getPte v) fl) &&& ptPresent ≠ 0 := by
      rwa [entryOf_and (by decide)]
    have hhold := hold_setPte_entryOf hv hmapped (protectFlags_lt hfl) hpres
    have hflp' := (protectFlags_plain (hplain v hv hpte.1) hflp).entryOf (y := m.pt.getPte v)
    refine ⟨rfl, hplain.setPte hflp', ⟨h.stack, h.count, h.small, ?_⟩, hhold, ?_⟩
    · change Holdings.Sound
        (hold (m.pt.setPte v (entryOf (m.pt.getPte v) (protectFlags (m.pt.getPte v) fl)))) frames
      rw [hhold]
      exact h.sound
    · have hself : m.pt.mapping v = some (m.pt.getPte v) := by
        rw [mapping, if_pos hmapped]
      rw [hself]
      exact mapping_setPte_self hpte.1 hentry
  · next hmapped =>
    have hnone : m.pt.mapping v = none := mapping_eq_none.mpr (by simpa using hmapped)
    exact ⟨rfl, hplain, h, rfl, by rw [hnone, Option.map_none]⟩

end SimpleKernel.Mem
