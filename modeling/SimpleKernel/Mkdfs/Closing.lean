import SimpleKernel.Mkdfs.Reserving

/-! The root directory of a new file system, and what is on the device once it is closed. -/
namespace SimpleKernel.Mkdfs
open Splice

variable {l : Layout} {Z : ℕ → Prop} {fs fs' : Filsys} {base : ℕ → ℕ → UInt8} {i now : ℕ}

theorem Filsys.Reserved.reserveInodes (h : fs.Reserved l Z base 0) (hl : l.Sound)
    (hcall : fs.reserveInodes = some fs') : fs'.Reserved l Z base reservedInodes := by
  refine foldlM_range (P := fun i fs' => Filsys.Reserved fs' l Z base i) hcall h ?_
  intro i fs₁ fs₂ hi h₁ hround
  obtain ⟨⟨fs₃, num⟩, hnew, hnum⟩ := Option.bind_eq_some_iff.mp hround
  split at hnum
  · next heq =>
    obtain rfl := Option.some.inj hnum
    subst heq
    exact h₁.step hl hi hnew
  · simp at hnum

theorem Filsys.Prepared.reserved {quick : Bool} {sector : ℕ → ℕ → UInt8} (h : fs.Prepared l quick Z sector)
    (hl : l.Sound) (hpos : 0 < l.inodeBlocksPerGroup) : fs.Reserved l Z fs.cache.shown 0 := by
  have hblocks := h.caches.descs_le
  have hcaches : l.Caches l.Cached Z [] fs.cache := by
    refine ⟨h.caches.ok.weaken (fun _ hb => hb.cached) fun b hb => ?_, h.caches.spb⟩
    rw [h.caches.spb]
    exact hl.meta_small hblocks (hl.cached_meta hb)
  refine ⟨h.layout, hcaches, fun g hg => ?_, fun g hg => ?_, fun g hg => ?_, fun g _ => ?_,
    fun hi => absurd hi (Nat.lt_irrefl 0), fun _ _ _ _ _ => rfl, fun g _ n _ => ?_⟩
  · rw [h.desc g hg]
    exact (hl.newDesc_blocks hblocks hg hpos).2.1
  · rw [h.desc g hg]
    exact (hl.newDesc_blocks hblocks hg hpos).2.2
  · rw [h.desc g hg, Layout.usedInodes_zero]
    rfl
  · rw [h.fresh, Layout.usedInodes_zero]
  · rw [Layout.usedInodes_zero]
    simp

theorem Filsys.Reserved.createRoot (h : fs.Reserved l Z base i) (hl : l.Sound)
    (hpos : 0 < l.inodeBlocksPerGroup) (hcall : fs.createRoot now = some fs') :
    fs'.layout = l ∧ fs'.superDirty = fs.superDirty ∧ l.Caches l.Cached Z [] fs'.cache ∧
      (∀ s o, o < sectorSize → s / l.spb ≠ l.first 0 + 2 → fs'.cache.shown s o = fs.cache.shown s o) ∧
      ∀ k, inodedescSize ≤ k → k < l.blocksize →
        l.block fs'.cache.shown (l.first 0 + 2) k = l.block fs.cache.shown (l.first 0 + 2) k := by
  have hblocks := h.caches.descs_le
  have hdesc : ¬ l.IsDesc (l.first 0 + 2) := hl.not_isDesc hblocks 0 2
  have hheld : l.first 0 + 2 ∉ l.descList := fun hmem => hdesc (Layout.mem_descList.mp hmem)
  have hcached : l.Cached (l.first 0 + 2) := .inr ⟨0, 2, hl.groups, by omega, rfl⟩
  rw [Filsys.createRoot, h.inodeTable 0 hl.groups] at hcall
  obtain ⟨p, hp, hcall⟩ := Option.bind_eq_some_iff.mp hcall
  obtain ⟨hok₁, hspb₁, hshown₁⟩ := h.caches.ok.getBuffer hheld hcached hp
  rw [h.caches.spb] at hspb₁
  dsimp only at hcall
  generalize hbytes : patch (patch (patch (p.data (l.first 0 + 2)) 0 (littleEndian 2 rootMode)) 12
    (littleEndian 4 now ++ littleEndian 4 now)) 32 (littleEndian 4 1) = bytes at hcall
  have hrest (k : ℕ) (hk : inodedescSize ≤ k) : bytes k = p.data (l.first 0 + 2) k := by
    have hsize : inodedescSize = 128 := rfl
    have hlen (n k : ℕ) : (littleEndian k n).length = k := by simp [littleEndian]
    rw [← hbytes, patch_of_ge _ (by rw [hlen]; omega),
      patch_of_ge _ (by rw [List.length_append, hlen]; omega), patch_of_ge _ (by rw [hlen]; omega)]
  obtain ⟨p₂, hp₂, hok₂, -, hspb₂, hshown₂⟩ := hok₁.rewrite hheld bytes
  rw [hspb₁] at hshown₂
  obtain ⟨p₂', hp₂', rfl⟩ := Option.map_eq_some_iff.mp hcall
  obtain rfl : p₂' = p₂ := Option.some.inj (hp₂'.symm.trans hp₂)
  refine ⟨h.layout, rfl, ⟨hok₂, hspb₂.trans hspb₁⟩, fun s o ho hs => ?_, fun k hk hlt => ?_⟩
  · rw [hshown₂, if_neg hs, hshown₁ s o ho]
  · have hnew : l.block p₂'.shown (l.first 0 + 2) k = bytes k := by
      refine Layout.block_eq hl hlt fun s o _ hs => ?_
      rw [hshown₂, if_pos hs]
    have hold : l.block fs.cache.shown (l.first 0 + 2) k = p.data (l.first 0 + 2) k := by
      refine Layout.block_eq hl hlt fun s o ho hs => ?_
      rw [← hshown₁ s o ho, ← hspb₁]
      exact hok₁.shown_held List.mem_cons_self (by rwa [hspb₁]) o
    rw [hold, ← hrest k hk]
    exact hnew

theorem Bufpool.Draining.super {p : Bufpool} {M G : ℕ → Prop} (h : p.Draining M Z G [])
    (buffer : ℕ → UInt8) :
    Bufpool.Draining { p with dev := p.dev.write buffer sectorSize 1 } M (fun s => s = 1 ∨ Z s) G [] ∧
      ∀ s o, s ≠ 1 → Bufpool.shown { p with dev := p.dev.write buffer sectorSize 1 } s o = p.shown s o := by
  have hcount : sectorSize / sectorSize = 1 := rfl
  refine ⟨⟨h.bufsize, h.pos, h.small, h.nodup, h.dirty, h.held, h.rest, h.only, fun s hs => ?_,
    fun s hs => ?_⟩, fun s o hs => ?_⟩
  · rw [Device.write, List.mem_append, List.mem_range'_1] at hs
    rcases hs with hin | hold
    · exact .inl (.inl (by omega))
    · exact (h.writes s hold).imp_left .inr
  · rw [Device.write, List.mem_append, List.mem_range'_1]
    exact hs.imp (fun heq => by omega) (h.zeros s)
  · cases hbuf : p.bufs (s / p.blksPerBuffer) with
    | none =>
      rw [Bufpool.shown_none hbuf]
      refine (Bufpool.shown_none (p := { p with dev := p.dev.write buffer sectorSize 1 }) hbuf).trans ?_
      rw [Device.write]
      dsimp only
      rw [if_neg (by omega)]
    | some buf =>
      rw [Bufpool.shown_some hbuf]
      exact Bufpool.shown_some hbuf

theorem Layout.Caches.closeFilesystem (fs : Filsys) (h : l.Caches l.Cached Z [] fs.cache)
    (hlayout : fs.layout = l) (hdirty : fs.superDirty = true) :
    ∃ dev, fs.closeFilesystem = some dev ∧
      (∀ s o, s ≠ 1 → ¬ l.IsDesc (s / l.spb) → dev.sector s o = fs.cache.shown s o) ∧
      (∀ s, s ∈ dev.written → (s = 1 ∨ Z s) ∨ l.Cached (s / l.spb)) ∧
      ∀ s, s = 1 ∨ Z s → s ∈ dev.written := by
  have hrelease : ∃ p, (List.range l.groupdescBlocks).foldlM
      (fun (p : Bufpool) i => p.releaseBuffer (l.groupdescTableBlock + i)) fs.cache = some p ∧
      p.Draining l.Cached Z l.IsDesc [] ∧ p.blksPerBuffer = l.spb ∧
      ∀ s o, p.shown s o = fs.cache.shown s o := by
    have hrounds := foldlM_range_some (n := l.groupdescBlocks)
      (P := fun i (p : Bufpool) => p.Draining l.Cached Z l.IsDesc
        (List.range' (l.groupdescTableBlock + i) (l.groupdescBlocks - i)) ∧ p.blksPerBuffer = l.spb ∧
        ∀ s o, p.shown s o = fs.cache.shown s o)
      ⟨h.ok.draining fun b hb => Layout.mem_descList.mp hb, h.spb, fun _ _ => rfl⟩
      (fun i p hi ⟨hp, hspb, hshown⟩ => by
        rw [show l.groupdescBlocks - i = l.groupdescBlocks - (i + 1) + 1 by omega] at hp
        have hfresh : l.groupdescTableBlock + i ∉
            List.range' (l.groupdescTableBlock + i + 1) (l.groupdescBlocks - (i + 1)) := by
          rw [List.mem_range'_1]
          omega
        obtain ⟨p', hcall, hp', -, hspb', hshown'⟩ := hp.release hfresh ⟨Nat.le_add_right _ _, by omega⟩
        exact ⟨p', hcall, hp', hspb'.trans hspb, fun s o => (hshown' s o).trans (hshown s o)⟩)
    rw [Nat.sub_self] at hrounds
    exact hrounds
  obtain ⟨p, hrun, hp, hspb, hshown⟩ := hrelease
  obtain ⟨hp', hshown'⟩ := hp.super fun o => fs.superImage[o]?.getD 0
  obtain ⟨hsector, hwritten, hzeros⟩ := hp'.flushing.flushLoop le_rfl
  refine ⟨_, by rw [Filsys.closeFilesystem, hlayout, hrun, hdirty]; rfl, fun s o hs hdesc => ?_,
    fun s hs => ?_, hzeros⟩
  · rw [← hshown, ← hshown' s o hs]
    exact hsector s o (by rwa [hspb])
  · have := hwritten s hs
    rwa [hspb] at this

end SimpleKernel.Mkdfs
