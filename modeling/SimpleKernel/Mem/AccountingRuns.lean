import SimpleKernel.Mem.Accounting
import SimpleKernel.Mem.Reserving

/-! Runs of `vmalloc`, `vmfree` and `vmprotect` on anonymous memory. -/
namespace SimpleKernel.Mem

open Intervals Entries PageTables Vm Holdings

variable {m m' : Vm} {v w a n fl tag addr size : UInt32} {frames : List UInt32}

/-- The map, the page tables and the frames agree: free address space lies in user space and
nothing is mapped there. -/
structure Accounted (m : Vm) (frames : List UInt32) : Prop extends FramesOk m frames where
  plain : Plain m.pt
  good : Good m.vmap.entries
  fits : m.vmap.Fits
  user : ∀ u ∈ freeUnits m.vmap.entries, 16 ≤ u ∧ u < 2 ^ 19
  unmapped : ∀ v, v < osBase → v.toNat / 4096 ∈ freeUnits m.vmap.entries → m.pt.mapping v = none

/-- The number of frames that user space holds. -/
def inUse (pt : PageTables) : ℕ := (Finset.univ.filter fun k => (hold pt k).isSome).card

theorem total_eq (h : FramesOk m frames) : total (hold m.pt) frames = m.freemem.toNat + inUse m.pt := by
  rw [total, inUse, h.count]

theorem Owned.idx_ne (hw : Owned m.vmap w) (hv : v.toNat / 4096 ∈ freeUnits m.vmap.entries) :
    ptabIdx v ≠ ptabIdx w := by
  intro heq
  refine hw.2.2 ?_
  rw [toNat_btop, ← toNat_ptabIdx, ← heq, toNat_ptabIdx]
  exact hv

theorem Accounted.of_owned {frames' : List UInt32} (h : Accounted m frames) (hw : Owned m.vmap w)
    (hvmap : m'.vmap = m.vmap) (hframes : FramesOk m' frames') (hplain : Plain m'.pt)
    (hmap : ∀ v, ptabIdx v ≠ ptabIdx w → m'.pt.mapping v = m.pt.mapping v) :
    Accounted m' frames' := by
  refine ⟨hframes, hplain, hvmap ▸ h.good, hvmap ▸ h.fits, hvmap ▸ h.user, fun v hv hfree => ?_⟩
  rw [hvmap] at hfree
  rw [hmap v (hw.idx_ne hfree)]
  exact h.unmapped v hv hfree

theorem Accounted.commit {l : List UInt32} (h : Accounted m frames)
    (hl : ∀ w ∈ l, Owned m.vmap w) (hfl : (fl ||| ptPresent).toNat < 4096)
    (hflp : PlainEntry (fl ||| ptPresent)) (hm : l.foldlM (commitPage tag fl) m = some m') :
    ∃ frames', Accounted m' frames' ∧
      total (hold m'.pt) frames' = total (hold m.pt) frames := by
  induction l generalizing m frames with
  | nil =>
    obtain rfl := Option.some.inj hm
    exact ⟨frames, h, rfl⟩
  | cons w l ih =>
    obtain ⟨m₁, hw, hrest⟩ := Option.bind_eq_some_iff.mp hm
    have howned := hl w List.mem_cons_self
    obtain ⟨hvmap, hplain, frames₁, hframes, htotal⟩ :=
      commitPage_ok h.toFramesOk h.plain howned.2.1 hfl hflp hw
    have h₁ := h.of_owned howned hvmap hframes hplain
      fun v hv => mapping_commitPage_ne hv hw
    obtain ⟨frames', h', htotal'⟩ := ih h₁
      (fun u hu => by rw [hvmap]; exact hl u (List.mem_cons_of_mem _ hu)) hrest
    exact ⟨frames', h', htotal'.trans htotal⟩

theorem Accounted.decommit {l : List UInt32} (h : Accounted m frames)
    (hl : ∀ w ∈ l, Owned m.vmap w) :
    (l.foldl Vm.decommit m).vmap = m.vmap ∧
      ∃ frames', Accounted (l.foldl Vm.decommit m) frames' ∧
        total (hold (l.foldl Vm.decommit m).pt) frames' = total (hold m.pt) frames := by
  induction l generalizing m frames with
  | nil => exact ⟨rfl, frames, h, rfl⟩
  | cons w l ih =>
    have howned := hl w List.mem_cons_self
    obtain ⟨hvmap, hplain, -, frames₁, hframes, htotal⟩ :=
      decommit_ok h.toFramesOk h.plain howned.2.1
    have h₁ := h.of_owned howned hvmap hframes hplain fun v hv => mapping_decommit_ne hv
    obtain ⟨hvmap', frames', h', htotal'⟩ := ih h₁
      fun u hu => by rw [hvmap]; exact hl u (List.mem_cons_of_mem _ hu)
    exact ⟨hvmap'.trans hvmap, frames', h', htotal'.trans htotal⟩

theorem mapping_decommit_mem {l : List UInt32} (hw : w ∈ l) :
    (l.foldl Vm.decommit m).pt.mapping w = none := by
  have hkeep : ∀ (l : List UInt32) (m : Vm), m.pt.mapping w = none →
      (l.foldl Vm.decommit m).pt.mapping w = none := by
    intro l
    induction l with
    | nil => exact fun m h => h
    | cons u l ih =>
      intro m h
      refine ih _ ?_
      by_cases hidx : ptabIdx w = ptabIdx u
      · rw [Vm.decommit]
        split
        · have hpage : w.toNat / 4096 = u.toNat / 4096 := by
            rw [← toNat_ptabIdx, ← toNat_ptabIdx, hidx]
          rw [mapping_congr hpage]
          exact mapping_unmapPage_self
        · exact h
      · rw [mapping_decommit_ne hidx, h]
  induction l generalizing m with
  | nil => simp at hw
  | cons u l ih =>
    rcases List.mem_cons.mp hw with rfl | hw
    · refine hkeep l _ ?_
      rw [Vm.decommit]
      split
      · exact mapping_unmapPage_self
      · next hmapped => exact mapping_eq_none.mpr (by simpa using hmapped)
    · exact ih hw

theorem Accounted.protect {l : List UInt32} (h : Accounted m frames)
    (hl : ∀ w ∈ l, Owned m.vmap w) (hfl : fl.toNat < 4096) (hflp : PlainEntry fl) :
    (l.foldl (protectPage fl) m).vmap = m.vmap ∧
      Accounted (l.foldl (protectPage fl) m) frames ∧
      hold (l.foldl (protectPage fl) m).pt = hold m.pt := by
  induction l generalizing m with
  | nil => exact ⟨rfl, h, rfl⟩
  | cons w l ih =>
    have howned := hl w List.mem_cons_self
    obtain ⟨hvmap, hplain, hframes, hhold, -⟩ :=
      protectPage_ok h.toFramesOk h.plain howned.2.1 hfl hflp
    have h₁ := h.of_owned howned hvmap hframes hplain fun v hv => mapping_protectPage_ne hv
    obtain ⟨hvmap', h', hhold'⟩ := ih h₁
      fun u hu => by rw [hvmap]; exact hl u (List.mem_cons_of_mem _ hu)
    exact ⟨hvmap'.trans hvmap, h', hhold'.trans hhold⟩

theorem Accounted.userMap (h : Accounted m frames) : UserMap m.vmap := ⟨h.good, h.fits, h.user⟩

theorem Accounted.shrink {vmap' : Rmap} (h : Accounted m frames) (hgood : Good vmap'.entries)
    (hfits : vmap'.Fits) (hsub : freeUnits vmap'.entries ⊆ freeUnits m.vmap.entries) :
    Accounted { m with vmap := vmap' } frames :=
  ⟨⟨h.stack, h.count, h.small, h.sound⟩, h.plain, hgood, hfits, fun u hu => h.user u (hsub hu),
    fun v hv hfree => h.unmapped v hv (hsub hfree)⟩

theorem owned_of_taken {vmap vmap' : Rmap}
    (huser : ∀ u ∈ freeUnits vmap.entries, 16 ≤ u ∧ u < 2 ^ 19)
    (halign : a.toNat % 4096 = 0) (hsub : span (a.toNat / 4096) n.toNat ⊆ freeUnits vmap.entries)
    (hgone : Disjoint (span (a.toNat / 4096) n.toNat) (freeUnits vmap'.entries)) :
    ∀ w ∈ pageRange a n, Owned vmap' w := by
  intro w hw
  obtain ⟨i, hi, rfl⟩ := mem_pageRange.mp hw
  have hmem : a.toNat / 4096 + i ∈ span (a.toNat / 4096) n.toNat := by
    rw [mem_span]
    omega
  have hrange := huser _ (hsub hmem)
  have hpage : (ahead a i).toNat = a.toNat + 4096 * i := toNat_ahead (by omega)
  have heq : (ahead a i).toNat / 4096 = a.toNat / 4096 + i := by omega
  refine owned_iff.mpr ⟨by omega, by omega, ?_⟩
  rw [heq]
  exact Set.disjoint_left.mp hgone hmem

theorem Accounted.reserveRange (h : Accounted m frames) (type : UInt32) (hpos : 0 < n.toNat)
    (hn : n.toNat < 2 ^ 20) (halign : a.toNat % 4096 = 0) :
    Accounted (m.reserveRange a n type).1 frames ∧ (m.reserveRange a n type).1.pt = m.pt ∧
      ((m.reserveRange a n type).2 ≠ 0 →
        ∀ w ∈ pageRange (m.reserveRange a n type).2 n, Owned (m.reserveRange a n type).1.vmap w) := by
  obtain ⟨vmap', heq, hmap, hsub, htaken⟩ := reserveRange_taken h.userMap type hpos hn halign
  rw [heq] at htaken ⊢
  refine ⟨h.shrink hmap.good hmap.fits hsub, rfl, fun hne => ?_⟩
  obtain ⟨haligned, hfree, hgone⟩ := htaken hne
  exact owned_of_taken h.user haligned hfree hgone

/-- A call of the interface on anonymous memory. -/
inductive VmCall
  | alloc (addr size type protect tag : UInt32)
  | free (addr size type : UInt32)
  | protect (addr size protect : UInt32)

/-- The range of a call neither wraps in the count of its pages nor at the end of the address
space. -/
def NoWrap (addr size : UInt32) : Prop :=
  size.toNat + 4095 < 2 ^ 32 ∧ (pageAddr addr).toNat + 4096 * (pages size).toNat < 2 ^ 32

def VmCall.Ok (_ : Vm) : VmCall → Prop
  | .alloc addr size _ _ _ => NoWrap addr size
  | .free addr size _ => NoWrap addr size
  | .protect addr size _ => NoWrap addr size

theorem pages_pos (hsize : size ≠ 0) (h : NoWrap addr size) : 0 < (pages size).toNat := by
  have hne : size.toNat ≠ 0 := fun h0 => hsize (UInt32.toNat.inj h0)
  have hlt := h.1
  rw [toNat_pages]
  omega

theorem Accounted.vmalloc (h : Accounted m frames) (hwrap : NoWrap addr size)
    {type protect : UInt32} {r : UInt32 × ℤ}
    (hm : m.vmalloc addr size type protect tag = some (m', r)) :
    ∃ frames', Accounted m' frames' ∧
      total (hold m'.pt) frames' = total (hold m.pt) frames := by
  simp only [Vm.vmalloc] at hm
  split at hm
  · obtain ⟨rfl, -⟩ := Prod.mk.inj (Option.some.inj hm)
    exact ⟨frames, h, rfl⟩
  next hsize =>
  split at hm
  · obtain ⟨rfl, -⟩ := Prod.mk.inj (Option.some.inj hm)
    exact ⟨frames, h, rfl⟩
  next hflags =>
  set type' := if pageAddr addr = 0 ∧ type &&& memCommit ≠ 0 then type ||| memReserve else type
  -- the address space first
  obtain ⟨p, hp, hacc, hpt, howned⟩ : ∃ p : Vm × UInt32,
      (if type' &&& memReserve ≠ 0 then m.reserveRange (pageAddr addr) (pages size) type'
        else (m, if validRange m.vmap (pageAddr addr) size then pageAddr addr else 0)) = p ∧
      Accounted p.1 frames ∧ p.1.pt = m.pt ∧
      (p.2 ≠ 0 → ∀ w ∈ pageRange p.2 (pages size), Owned p.1.vmap w) := by
    refine ⟨_, rfl, ?_⟩
    split
    · exact h.reserveRange type' (pages_pos hsize hwrap) (toNat_pages_lt size)
        (pageAddr_aligned addr)
    · refine ⟨h, rfl, fun hne w hw => ?_⟩
      have hvalid : validRange m.vmap (pageAddr addr) size = true := by
        by_contra hno
        simp [hno] at hne
      simp only [hvalid] at hw
      exact owned_of_validRange h.good hwrap.2 hvalid hw
  simp only [hp] at hm
  rw [← hpt]
  split at hm
  · obtain ⟨rfl, -⟩ := Prod.mk.inj (Option.some.inj hm)
    exact ⟨frames, hacc, rfl⟩
  next hne =>
  split at hm
  · next hcommit =>
    obtain ⟨m₁, hm₁, heq⟩ := Option.map_eq_some_iff.mp hm
    obtain ⟨rfl, -⟩ := Prod.mk.inj heq
    have hknown : pteFlagsFromProtect protect ≠ noFlags := by
      intro hno
      refine hflags ⟨fun hzero => hcommit ?_, hno⟩
      have hsame : type' = type := if_neg (by simp [hzero])
      rw [hsame, hzero]
    obtain ⟨hlt, hplain, -, -⟩ := commit_flags (pteFlags_cases hknown)
    exact hacc.commit (howned hne) hlt hplain hm₁
  · obtain ⟨rfl, -⟩ := Prod.mk.inj (Option.some.inj hm)
    exact ⟨frames, hacc, rfl⟩

section calls

variable (filePage : Vm → Option UInt32 → UInt32 → Except (Vm × ℤ) (Vm × Option UInt32))
  (fileEnd : Vm → UInt32 → Vm × ℤ)

theorem Accounted.accepted (h : Accounted m frames) (hwrap : NoWrap addr size)
    (hvalid : validRange m.vmap (pageAddr addr) size = true) :
    (∀ w ∈ pageRange (pageAddr addr) (pages size), Owned m.vmap w) ∧
      m.AnonPages (pageRange (pageAddr addr) (pages size)) := by
  have howned : ∀ w ∈ pageRange (pageAddr addr) (pages size), Owned m.vmap w :=
    fun w hw => owned_of_validRange h.good hwrap.2 hvalid hw
  exact ⟨howned, fun w hw hpde => (h.plain w (howned w hw).2.1 hpde).1⟩

theorem Accounted.vmfree_eq (h : Accounted m frames) (hwrap : NoWrap addr size) (type : UInt32)
    (hsize : size ≠ 0) (hvalid : validRange m.vmap (pageAddr addr) size = true) :
    m.vmfree filePage fileEnd addr size type =
      (if type &&& memRelease ≠ 0 then
          { (pageRange (pageAddr addr) (pages size)).foldl Vm.decommit m with
            vmap := m.vmap.rmapFree (btop (pageAddr addr)) (pages size) }
        else if type &&& memDecommit ≠ 0 then
          (pageRange (pageAddr addr) (pages size)).foldl Vm.decommit m
        else m, 0) := by
  obtain ⟨howned, hanon⟩ := h.accepted hwrap hvalid
  obtain ⟨hvmap, -⟩ := h.decommit howned
  simp only [Vm.vmfree, hsize, hvalid]
  rw [decommit_loop none hanon, UInt32.and_comm type (_ ||| _), or_and_distrib,
    UInt32.and_comm memDecommit, UInt32.and_comm memRelease]
  by_cases hrel : type &&& memRelease = 0
  · by_cases hdec : type &&& memDecommit = 0
    · simp [hrel, hdec]
    · simp [hrel, hdec]
  · simp [hrel, hvmap]

theorem exists_page {vmap : Rmap} {u : ℕ} (ha : a.toNat % 4096 = 0)
    (hend : a.toNat + 4096 * n.toNat < 2 ^ 32) (howned : ∀ w ∈ pageRange a n, Owned vmap w)
    (hu : u ∈ span (btop a).toNat n.toNat) :
    16 ≤ u ∧ u < 2 ^ 19 ∧ u ∉ freeUnits vmap.entries ∧
      ∃ w ∈ pageRange a n, w.toNat / 4096 = u := by
  have hs : vmemStart.toNat = 65536 := rfl
  have ho : osBase.toNat = 2147483648 := rfl
  rw [mem_span, toNat_btop] at hu
  have hmem : ahead a (u - a.toNat / 4096) ∈ pageRange a n :=
    mem_pageRange.mpr ⟨u - a.toNat / 4096, by omega, rfl⟩
  have hval : (ahead a (u - a.toNat / 4096)).toNat = a.toNat + 4096 * (u - a.toNat / 4096) :=
    toNat_ahead (by omega)
  obtain ⟨hlo, hhi, hfree⟩ := howned _ hmem
  rw [UInt32.le_iff_toNat_le] at hlo
  rw [UInt32.lt_iff_toNat_lt] at hhi
  have hpage : (btop (ahead a (u - a.toNat / 4096))).toNat = u := by
    rw [toNat_btop]
    omega
  exact ⟨by omega, by omega, by rwa [hpage] at hfree, _, hmem, by omega⟩

open Tracked in
theorem used_of_owned {vmap : Rmap} (ha : a.toNat % 4096 = 0) (hpos : 0 < n.toNat)
    (hend : a.toNat + 4096 * n.toNat < 2 ^ 32) (howned : ∀ w ∈ pageRange a n, Owned vmap w) :
    Used ⟨vmap, ∅⟩ (.free (btop a) n) := by
  have hb := toNat_btop a
  have hstart := exists_page ha hend howned (u := (btop a).toNat) (by rw [mem_span]; omega)
  refine ⟨hpos, by omega, by omega, ?_⟩
  rw [Set.disjoint_left]
  exact fun u hu => (exists_page ha hend howned hu).2.2.1

open Tracked in
theorem Accounted.release (h : Accounted m frames) (ha : a.toNat % 4096 = 0) (hpos : 0 < n.toNat)
    (hend : a.toNat + 4096 * n.toNat < 2 ^ 32)
    (howned : ∀ w ∈ pageRange a n, Owned m.vmap w)
    (hnone : ∀ w ∈ pageRange a n, m.pt.mapping w = none) :
    Accounted { m with vmap := m.vmap.rmapFree (btop a) n } frames := by
  obtain ⟨hc, hgood, hfits⟩ := free_sound h.userMap.tracked (used_of_owned ha hpos hend howned)
  obtain ⟨b, k, -, -, -, hunits⟩ := hc.units
  have hsub : freeUnits (m.vmap.rmapFree (btop a) n).entries ⊆
      freeUnits m.vmap.entries ∪ span (btop a).toNat n.toNat := by
    rw [hunits]
    exact Set.sdiff_subset
  refine ⟨⟨h.stack, h.count, h.small, h.sound⟩, h.plain, hgood, hfits, fun u hu => ?_,
    fun v hv hfree => ?_⟩
  · rcases hsub hu with hu | hu
    · exact h.user u hu
    · obtain ⟨hlo, hhi, -⟩ := exists_page ha hend howned hu
      exact ⟨hlo, hhi⟩
  · rcases hsub hfree with hfree | hfree
    · exact h.unmapped v hv hfree
    · obtain ⟨-, -, -, w, hw, hpage⟩ := exists_page ha hend howned hfree
      rw [← hnone w hw]
      exact mapping_congr hpage.symm

/-- The state after a call; `none` when memory runs out. -/
def VmCall.exec (m : Vm) : VmCall → Option Vm
  | .alloc addr size type prot tag => (m.vmalloc addr size type prot tag).map fun p => p.1
  | .free addr size type => some (m.vmfree filePage fileEnd addr size type).1
  | .protect addr size prot => some (m.vmprotect addr size prot).1

theorem Accounted.vmfree (h : Accounted m frames) (hwrap : NoWrap addr size) (type : UInt32) :
    ∃ frames', Accounted (m.vmfree filePage fileEnd addr size type).1 frames' ∧
      total (hold (m.vmfree filePage fileEnd addr size type).1.pt) frames' =
        total (hold m.pt) frames := by
  by_cases hsize : size = 0
  · exact ⟨frames, by simpa [Vm.vmfree, hsize] using h, by simp [Vm.vmfree, hsize]⟩
  by_cases hvalid : validRange m.vmap (pageAddr addr) size = true
  swap
  · exact ⟨frames, by simpa [Vm.vmfree, hsize, hvalid] using h,
      by simp [Vm.vmfree, hsize, hvalid]⟩
  obtain ⟨howned, -⟩ := h.accepted hwrap hvalid
  obtain ⟨hvmap, frames', h', htotal⟩ := h.decommit howned
  rw [h.vmfree_eq filePage fileEnd hwrap type hsize hvalid]
  by_cases hrel : type &&& memRelease = 0
  · by_cases hdec : type &&& memDecommit = 0
    · simp only [hrel, hdec]
      exact ⟨frames, h, rfl⟩
    · simp only [hrel, hdec, ne_eq]
      exact ⟨frames', h', htotal⟩
  · simp only [hrel, ne_eq]
    have hrelease := h'.release (pageAddr_aligned addr) (pages_pos hsize hwrap) hwrap.2
      (by rwa [hvmap]) fun w hw => mapping_decommit_mem hw
    rw [hvmap] at hrelease
    exact ⟨frames', hrelease, htotal⟩

theorem protect_flags {protect : UInt32} (hknown : pteFlagsFromProtect protect ≠ noFlags) :
    (pteFlagsFromProtect protect).toNat < 4096 ∧
      pteFlagsFromProtect protect &&& ~~~ptProtectmask = 0 ∧
      PlainEntry (pteFlagsFromProtect protect) := by
  obtain ⟨hlt, -, hbits, hplain⟩ := commit_flags (pteFlags_cases hknown)
  refine ⟨lt_of_le_of_lt ?_ hlt, hbits, hplain⟩
  exact Nat.left_le_or

theorem Accounted.vmprotect (h : Accounted m frames) (hwrap : NoWrap addr size)
    (protect : UInt32) :
    Accounted (m.vmprotect addr size protect).1 frames ∧
      hold (m.vmprotect addr size protect).1.pt = hold m.pt := by
  simp only [Vm.vmprotect]
  split
  · exact ⟨h, rfl⟩
  split
  · exact ⟨h, rfl⟩
  next hvalid =>
  split
  · exact ⟨h, rfl⟩
  next hknown =>
  obtain ⟨howned, -⟩ := h.accepted hwrap (by simpa using hvalid)
  obtain ⟨hlt, -, hplain⟩ := protect_flags hknown
  exact (h.protect howned hlt hplain).2

theorem Accounted.exec {c : VmCall} (h : Accounted m frames) (hok : c.Ok m)
    (hc : c.exec filePage fileEnd m = some m') :
    ∃ frames', Accounted m' frames' ∧
      total (hold m'.pt) frames' = total (hold m.pt) frames := by
  cases c with
  | alloc addr size type protect tag =>
    obtain ⟨⟨m₁, r⟩, hm, rfl⟩ := Option.map_eq_some_iff.mp hc
    exact h.vmalloc hok hm
  | free addr size type =>
    obtain rfl := Option.some.inj hc
    exact h.vmfree filePage fileEnd hok type
  | protect addr size protect =>
    obtain rfl := Option.some.inj hc
    obtain ⟨h', hhold⟩ := h.vmprotect hok protect
    exact ⟨frames, h', by rw [hhold]⟩

end calls

/-- What an accepted `vmfree` leaves: decommitted or released pages of the range are not mapped, all others keep
their mapping; the reservation stays unless the range is released, and then it can be reserved again, or is lost
because the map's table is full. -/
structure FreeEffect (m : Vm) (addr size type : UInt32) (m' : Vm) : Prop where
  gone : type &&& (memDecommit ||| memRelease) ≠ 0 →
    ∀ w ∈ pageRange (pageAddr addr) (pages size), m'.pt.mapping w = none
  others : ∀ v, (∀ w ∈ pageRange (pageAddr addr) (pages size), ptabIdx v ≠ ptabIdx w) →
    m'.pt.mapping v = m.pt.mapping v
  kept : type &&& memRelease = 0 → m'.vmap = m.vmap
  released : type &&& memRelease ≠ 0 →
    (∀ protect tag, ∃ m'', m'.vmalloc addr size memReserve protect tag =
      some (m'', pageAddr addr, 0)) ∨
    m.vmap.rlim = (m.vmap.slot 0).size.toNat ∧ m'.vmap.entries = m.vmap.entries ∧
      m'.vmap.lostElems = m.vmap.lostElems + pages size

/-- What an accepted `vmprotect` leaves: only protection bits of mapped pages of the range may
differ. -/
structure ProtectEffect (m : Vm) (addr size : UInt32) (m' : Vm) : Prop where
  bits : ∀ v, v < osBase → (m'.pt.mapping v).map (fun x => x &&& ~~~ptProtectmask) =
    (m.pt.mapping v).map fun x => x &&& ~~~ptProtectmask
  others : ∀ v, (∀ w ∈ pageRange (pageAddr addr) (pages size), ptabIdx v ≠ ptabIdx w) →
    m'.pt.mapping v = m.pt.mapping v
  rest : m' = { m with pt := m'.pt } ∧ m'.pt.pdir = m.pt.pdir

open Tracked in
theorem rmapFree_cases {t : Tracked} {o k : UInt32} (h : Sound t) (hu : Used t (.free o k)) :
    freeUnits (t.map.rmapFree o k).entries = t.freeSet ∪ span o.toNat k.toNat ∨
      t.map.rlim = (t.map.slot 0).size.toNat ∧
        (t.map.rmapFree o k).entries = t.map.entries ∧
        (t.map.rmapFree o k).lostElems = t.map.lostElems + k := by
  obtain ⟨hk, ho, hok, hdis⟩ := hu
  have hview := Rmap.rmapFree_view (o := o) (s := k) h.fits
  have hent : (t.map.rmapFree o k).entries = (free t.map.view.full o k t.map.entries).1 :=
    congrArg View.entries hview
  have hlost : (t.map.rmapFree o k).lostElems =
      t.map.lostElems + (free t.map.view.full o k t.map.entries).2 :=
    congrArg View.lostElems hview
  rcases (free_spec t.map.view.full h.good hk ho hok hdis).units with
    ⟨-, hunits⟩ | ⟨hfull, hcount, hsame⟩
  · left
    rw [hent, hunits]
    rfl
  · right
    exact ⟨rlim_of_full hfull, by rw [hent, hsame], by rw [hlost, hcount]⟩

theorem Accounted.vmalloc_reserve (h : Accounted m frames) (hwrap : NoWrap addr size)
    (hsize : size ≠ 0) (haddr : pageAddr addr ≠ 0)
    (hfree : span (btop (pageAddr addr)).toNat (pages size).toNat ⊆ freeUnits m.vmap.entries)
    (protect tag : UInt32) :
    m.vmalloc addr size memReserve protect tag =
      some ({ m with vmap := (m.vmap.rmapReserve (btop (pageAddr addr)) (pages size)).1 },
        pageAddr addr, 0) := by
  have hn := toNat_pages_lt size
  have hb := btop_lt (pageAddr addr)
  have hrc : (m.vmap.rmapReserve (btop (pageAddr addr)) (pages size)).2 = 0 := by
    have hsome := reserve_isSome m.vmap.view.full h.good (pages_pos hsize hwrap) (by omega) hfree
    rcases Rmap.rmapReserve_view h.fits with
      ⟨-, hnone⟩ | ⟨l, k, -, hrc, -⟩
    · rw [hnone] at hsome
      simp at hsome
    · exact hrc
  have hcommit : memReserve &&& memCommit = 0 := by decide
  have hreserve : memReserve ≠ 0 := by decide
  simp [Vm.vmalloc, Vm.reserveRange, hsize, haddr, hcommit, hreserve, hrc]

theorem Accounted.freeEffect {filePage fileEnd} (h : Accounted m frames) (hwrap : NoWrap addr size)
    (type : UInt32) (hsize : size ≠ 0)
    (hrc : (m.vmfree filePage fileEnd addr size type).2 = 0) :
    FreeEffect m addr size type (m.vmfree filePage fileEnd addr size type).1 := by
  have hvalid : validRange m.vmap (pageAddr addr) size = true := by
    by_contra hno
    rw [Bool.not_eq_true] at hno
    simp only [Vm.vmfree, hsize, hno, if_false, Bool.not_false, if_true] at hrc
    exact absurd hrc (by decide)
  obtain ⟨howned, -⟩ := h.accepted hwrap hvalid
  obtain ⟨hvmap, frames', h', -⟩ := h.decommit howned
  have hnone : ∀ w ∈ pageRange (pageAddr addr) (pages size),
      ((pageRange (pageAddr addr) (pages size)).foldl Vm.decommit m).pt.mapping w = none :=
    fun w hw => mapping_decommit_mem hw
  rw [h.vmfree_eq filePage fileEnd hwrap type hsize hvalid]
  by_cases hrel : type &&& memRelease = 0
  · by_cases hdec : type &&& memDecommit = 0
    · have hneither : type &&& (memDecommit ||| memRelease) = 0 := by
        rw [UInt32.and_comm, or_and_distrib, UInt32.and_comm memDecommit,
          UInt32.and_comm memRelease, hrel, hdec]
        rfl
      simp only [hrel, hdec]
      exact ⟨fun hne => absurd hneither hne, fun v _ => rfl, fun _ => rfl,
        fun hne => absurd hrel hne⟩
    · simp only [hrel, hdec, ne_eq]
      exact ⟨fun _ => hnone, fun v hv => mapping_decommit hv, fun _ => hvmap,
        fun hne => absurd hrel hne⟩
  · simp only [hrel, ne_eq]
    refine ⟨fun _ => hnone, fun v hv => mapping_decommit hv, fun hzero => absurd hzero hrel,
      fun _ => ?_⟩
    have hrelease := h'.release (pageAddr_aligned addr) (pages_pos hsize hwrap) hwrap.2
      (by rwa [hvmap]) hnone
    rw [hvmap] at hrelease
    have hused := used_of_owned (pageAddr_aligned addr) (pages_pos hsize hwrap) hwrap.2 howned
    rcases rmapFree_cases h.userMap.tracked hused with hunits | hlost
    · refine Or.inl fun protect tag =>
        ⟨_, hrelease.vmalloc_reserve hwrap hsize ?_ ?_ protect tag⟩
      · intro hzero
        rw [validRange, hzero] at hvalid
        simp [vmemStart] at hvalid
      · simp only [hunits]
        exact Set.subset_union_right
    · exact Or.inr hlost

theorem protectPage_bits (h : FramesOk m frames) (hplain : Plain m.pt) (hw : w < osBase)
    (hfl : fl.toNat < 4096) (hflp : PlainEntry fl) (hbits : fl &&& ~~~ptProtectmask = 0)
    (v : UInt32) : ((protectPage fl m w).pt.mapping v).map (fun x => x &&& ~~~ptProtectmask) =
      (m.pt.mapping v).map fun x => x &&& ~~~ptProtectmask := by
  by_cases hidx : ptabIdx v = ptabIdx w
  swap
  · rw [mapping_protectPage_ne hidx]
  have hpage : v.toNat / 4096 = w.toNat / 4096 := by
    rw [← toNat_ptabIdx, ← toNat_ptabIdx, hidx]
  obtain ⟨-, -, -, -, hself⟩ := protectPage_ok h hplain hw hfl hflp
  rw [mapping_congr hpage, mapping_congr hpage, hself]
  cases hx : m.pt.mapping w with
  | none => rfl
  | some x =>
    obtain ⟨hpde, -, hpte⟩ := mapping_eq_some.mp hx
    have hx' : PlainEntry x := by
      rw [← hpte]
      exact hplain w hw hpde
    simp only [Option.map_some, protect_entry hx' hbits]

theorem Accounted.protect_bits {l : List UInt32} (h : Accounted m frames)
    (hl : ∀ w ∈ l, Owned m.vmap w) (hfl : fl.toNat < 4096) (hflp : PlainEntry fl)
    (hbits : fl &&& ~~~ptProtectmask = 0) (v : UInt32) :
    ((l.foldl (protectPage fl) m).pt.mapping v).map (fun x => x &&& ~~~ptProtectmask) =
      (m.pt.mapping v).map fun x => x &&& ~~~ptProtectmask := by
  induction l generalizing m with
  | nil => rfl
  | cons w l ih =>
    have howned := hl w List.mem_cons_self
    obtain ⟨hvmap, h₁, -⟩ := h.protect (l := [w]) (by simpa using howned) hfl hflp
    have hrest : ∀ u ∈ l, Owned (protectPage fl m w).vmap u := by
      intro u hu
      rw [show (protectPage fl m w).vmap = m.vmap from hvmap]
      exact hl u (List.mem_cons_of_mem _ hu)
    exact (ih h₁ hrest).trans
      (protectPage_bits h.toFramesOk h.plain howned.2.1 hfl hflp hbits v)

theorem protect_rest (l : List UInt32) :
    l.foldl (protectPage fl) m = { m with pt := (l.foldl (protectPage fl) m).pt } ∧
      (l.foldl (protectPage fl) m).pt.pdir = m.pt.pdir := by
  induction l generalizing m with
  | nil => exact ⟨rfl, rfl⟩
  | cons w l ih =>
    have hone : ∀ pt, { protectPage fl m w with pt := pt } = { m with pt := pt } := by
      intro pt
      rw [protectPage]
      split <;> rfl
    have hpdir : (protectPage fl m w).pt.pdir = m.pt.pdir := by
      rw [protectPage]
      split <;> rfl
    obtain ⟨hrest, hpdir'⟩ := ih
    exact ⟨hrest.trans (hone _), hpdir'.trans hpdir⟩

theorem ProtectEffect.refl : ProtectEffect m addr size m :=
  ⟨fun _ _ => rfl, fun _ _ => rfl, rfl, rfl⟩

theorem Accounted.protectEffect (h : Accounted m frames) (hwrap : NoWrap addr size)
    (protect : UInt32) : ProtectEffect m addr size (m.vmprotect addr size protect).1 := by
  simp only [Vm.vmprotect]
  split
  · exact .refl
  split
  · exact .refl
  next hvalid =>
  split
  · exact .refl
  next hknown =>
  obtain ⟨howned, -⟩ := h.accepted hwrap (by simpa using hvalid)
  obtain ⟨hlt, hbits, hplain⟩ := protect_flags hknown
  exact ⟨fun v _ => h.protect_bits howned hlt hplain hbits v, fun v hv => mapping_protect hv,
    protect_rest _⟩

end SimpleKernel.Mem
