import SimpleKernel.Mkdfs.Closing

/-! Whether a new file system depends on what the device held before. -/
namespace SimpleKernel.Mkdfs

variable {l : Layout} {sector : ℕ → ℕ → UInt8} {devsize blocksize ratio now k : ℕ} {quick : Bool}
  {fs fs' : Filsys} {dev : Device}

theorem Filsys.createFilesystem_cases
    (h : Filsys.createFilesystem sector devsize blocksize ratio quick now = some fs)
    (hl : Mkdfs.layout devsize blocksize ratio = some l) :
    ∃ fs₀ fs₁ fs₂ fs₃ : Filsys, Bufpool.init ⟨sector, []⟩ cacheBuffers blocksize = some fs₀.cache ∧
      fs₀.layout = l ∧ (if quick = true then fs₀ else fs₀.zero fs₀.zeroAll).allocDescs = some fs₁ ∧
      (List.range l.groupCount).foldlM Filsys.initGroup fs₁ = some fs₂ ∧
      (if quick = true then fs₂.zero fs₂.zeroQuick else fs₂).reserveInodes = some fs₃ ∧
      fs₃.createRoot now = some fs := by
  rw [Filsys.createFilesystem, hl] at h
  obtain ⟨cache, hinit, h⟩ := Option.bind_eq_some_iff.mp h
  obtain ⟨l', hl', h⟩ := Option.bind_eq_some_iff.mp h
  obtain rfl := Option.some.inj hl'
  obtain ⟨fs₁, hdescs, h⟩ := Option.bind_eq_some_iff.mp h
  obtain ⟨fs₂, hgroups, h⟩ := Option.bind_eq_some_iff.mp h
  obtain ⟨fs₃, hreserve, hroot⟩ := Option.bind_eq_some_iff.mp h
  exact ⟨_, fs₁, fs₂, fs₃, hinit, rfl, hdescs, hgroups, hreserve, hroot⟩

theorem Filsys.initGroup_layout {g : ℕ} (h : fs.initGroup g = some fs') : fs'.layout = fs.layout := by
  rw [Filsys.initGroup] at h
  split at h
  · simp at h
  · split at h
    · simp at h
    · obtain ⟨p, -, rfl⟩ := Option.map_eq_some_iff.mp h
      rfl

theorem Filsys.allocDescs_layout (h : fs.allocDescs = some fs') :
    fs'.layout = fs.layout ∧ fs.layout.groupCount ≤ fs.layout.groupdescBlocks * fs.layout.groupdescsPerBlock := by
  rw [Filsys.allocDescs] at h
  split at h
  · simp at h
  · next hle =>
    obtain ⟨p, -, rfl⟩ := Option.map_eq_some_iff.mp h
    exact ⟨rfl, Nat.le_of_not_lt hle⟩

theorem Filsys.reserveInodes_pos (h : fs.reserveInodes = some fs') : 0 < fs.layout.inodesPerGroup := by
  obtain ⟨fs₁, hround, -⟩ := Option.bind_eq_some_iff.mp h
  obtain ⟨r, hnew, -⟩ := Option.bind_eq_some_iff.mp hround
  rw [Filsys.newInode] at hnew
  split at hnew
  · simp at hnew
  · omega

/-- What is on the device, in terms of what it held before. The buffers of the block bitmaps of the groups
`evicted` were needed for other blocks. -/
structure Made (l : Layout) (quick : Bool) (sector : ℕ → ℕ → UInt8) (dev : Device) (evicted : ℕ → Prop) :
    Prop where
  blocks : l.groupdescBlocks ≤ 1024
  inodes : ∀ g, g < l.groupCount → ∀ n, n < 8 * l.blocksize →
    (testBit (l.block dev.sector (l.first g + 1)) n = true ↔ n < l.usedInodes g reservedInodes ∨
      ¬ l.Zeroed quick ((l.first g + 1) * l.spb + n / 8 / sectorSize) ∧
        testBit (l.block sector (l.first g + 1)) n = true)
  table : ∀ g, g < l.groupCount → ∀ j, j < l.inodeBlocksPerGroup → ∀ k, k < l.blocksize →
    ¬ (g = 0 ∧ j = 0 ∧ k < inodedescSize) → l.block dev.sector (l.first g + 2 + j) k =
      if l.Zeroed quick ((l.first g + 2 + j) * l.spb + k / sectorSize) then 0
      else l.block sector (l.first g + 2 + j) k
  bitmap : ∀ g, g < l.groupCount → ∀ s o, o < sectorSize → s / l.spb = l.first g →
    (quick = true ∧ evicted g ∧ l.Zeroed quick s ∧ dev.sector s o = 0) ∨
      (¬ (quick = true ∧ evicted g ∧ l.Zeroed quick s) ∧
        dev.sector s o = setBits (fun _ => 0) 0 (l.taken g) (s % l.spb * sectorSize + o))
  rest : ∀ s o, o < sectorSize → s ≠ 1 → ¬ l.Cached (s / l.spb) → l.Zeroed quick s → dev.sector s o = 0
  writes : ∀ s, s ∈ dev.written → s = 1 ∨ l.Zeroed quick s ∨ l.Cached (s / l.spb)
  zeros : ∀ s, l.Zeroed quick s → s ∈ dev.written
  roomy : l.groupdescBlocks + l.groupCount ≤ cacheBuffers → ∀ g, g < l.groupCount → ¬ evicted g
  crowded : cacheBuffers < l.groupdescBlocks + l.groupCount → ∃ g, g < l.groupCount ∧ evicted g

theorem Layout.Sound.ne_super {s : ℕ} (hl : l.Sound) (g x : ℕ) (hs : s / l.spb = l.first g + x) :
    s ≠ 1 := by
  rintro rfl
  have hdiv := Nat.div_le_self 1 l.spb
  have hgroup := hl.group_ge
  have htable := hl.descTable
  rw [hs, Layout.first, Layout.front] at hdiv
  split at hdiv
  · omega
  · have := Nat.mul_le_mul_left l.blocksPerGroup (Nat.pos_of_ne_zero ‹_›)
    omega

theorem Filsys.Prepared.made {Z : ℕ → Prop} {fs₂ fs₃ : Filsys} (h : fs₂.Prepared l quick Z sector)
    (hl : l.Sound) (hpos : 0 < l.inodeBlocksPerGroup) (hreserve : fs₂.reserveInodes = some fs₃)
    (hroot : fs₃.createRoot now = some fs) :
    ∃ dev, fs.closeFilesystem = some dev ∧
      Made l quick sector dev fun g => fs₂.cache.bufs (l.first g) = none := by
  have hblocks := h.caches.descs_le
  have h₃ := (h.reserved hl hpos).reserveInodes hl hreserve
  obtain ⟨hlayout, hsuper, hcaches, hother, htable⟩ := h₃.createRoot hl hpos hroot
  rw [h₃.super (by decide)] at hsuper
  obtain ⟨dev, hclose, hsector, hwritten, hzeros⟩ :=
    Layout.Caches.closeFilesystem fs hcaches hlayout hsuper
  have hdesc (g x : ℕ) : ¬ l.IsDesc (l.first g + x) := hl.not_isDesc hblocks g x
  have hclosed (g x : ℕ) {k : ℕ} (hk : k < l.blocksize) :
      l.block dev.sector (l.first g + x) k = l.block fs.cache.shown (l.first g + x) k :=
    Layout.block_congr hl hk fun s o _ hs => hsector s o (hl.ne_super g x hs) (by rw [hs]; exact hdesc g x)
  have hfirst {g g' x x' : ℕ} (hx : x < 2 + l.inodeBlocksPerGroup) (hx' : x' < 2 + l.inodeBlocksPerGroup)
      (hne : ¬ (g = g' ∧ x = x')) : l.first g + x ≠ l.first g' + x' :=
    fun heq => hne (hl.first_unique hblocks hx hx' heq)
  refine ⟨dev, hclose, hblocks, fun g hg n hn => ?_, fun g hg j hj k hk hno => ?_,
    fun g hg s o ho hs => ?_, fun s o ho hs hno hz => ?_, fun s hs => ?_, fun s hs => ?_, h.roomy,
    h.crowded⟩
  · have hsame (k : ℕ) (hk : k < l.blocksize) :
        l.block dev.sector (l.first g + 1) k = l.block fs₃.cache.shown (l.first g + 1) k := by
      rw [hclosed g 1 hk]
      refine Layout.block_congr hl hk fun s o ho hs => hother s o ho ?_
      rw [hs]
      exact hfirst (by omega) (by omega) (by omega)
    rw [testBit_congr hsame hn, h₃.bitmap g hg n hn]
    have hdiv := (Layout.block_sector (b := l.first g + 1) (k := n / 8) hl (by omega)).1
    have hold (g' : ℕ) : l.first g + 1 ≠ l.first g' + 0 := hfirst (by omega) (by omega) (by omega)
    rw [testBit, testBit, Layout.block, Layout.block, h.other _ _ (by rw [hdiv]; exact hdesc g 1)
      (fun g' _ => by rw [hdiv]; exact hold g')]
    split
    · next hz => simp [hz]
    · next hz => simp [hz]
  · have hroot' : l.block fs.cache.shown (l.first g + (2 + j)) k =
        l.block fs₃.cache.shown (l.first g + (2 + j)) k := by
      by_cases hfst : g = 0 ∧ j = 0
      · obtain ⟨rfl, rfl⟩ := hfst
        exact htable k (by omega) hk
      · refine Layout.block_congr hl hk fun s o ho hs => hother s o ho ?_
        rw [hs]
        exact hfirst (by omega) (by omega) (by omega)
    have hdiv := (Layout.block_sector (b := l.first g + (2 + j)) hl hk).1
    have hold (g' x' : ℕ) (hx' : x' < 2) : (l.first g + (2 + j)) ≠ l.first g' + x' :=
      hfirst (by omega) (by omega) (by omega)
    rw [Nat.add_assoc, hclosed g (2 + j) hk, hroot', Layout.block, Layout.block,
      h₃.other _ _ (Nat.mod_lt k (by decide)) (by rw [hdiv]; exact hdesc g (2 + j))
        (fun g' _ => by rw [hdiv]; exact hold g' 1 (by omega)),
      h.other _ _ (by rw [hdiv]; exact hdesc g (2 + j))
        (fun g' _ => by rw [hdiv]; exact hold g' 0 (by omega))]
  · have hshown : dev.sector s o = fs₂.cache.shown s o := by
      rw [hsector s o (hl.ne_super g 0 hs) (by rw [hs]; exact hdesc g 0),
        hother s o ho (by rw [hs]; exact hfirst (x := 0) (by omega) (by omega) (by omega)),
        h₃.other s o ho (by rw [hs]; exact hdesc g 0)
          (fun g' _ => by rw [hs]; exact hfirst (x := 0) (by omega) (by omega) (by omega))]
    rw [hshown, h.bitmap g hg s o hs]
    split
    · next hz => exact .inl ⟨hz.1, hz.2.1, hz.2.2, rfl⟩
    · next hz => exact .inr ⟨hz, rfl⟩
  · have hout (g x : ℕ) (hg : g < l.groupCount) (hx : x < 2 + l.inodeBlocksPerGroup) :
        s / l.spb ≠ l.first g + x := fun heq => hno (.inr ⟨g, x, hg, hx, heq⟩)
    have hdesc' : ¬ l.IsDesc (s / l.spb) := fun hd => hno (.inl hd)
    rw [hsector s o hs hdesc', hother s o ho (hout 0 2 hl.groups (by omega)),
      h₃.other s o ho hdesc' (fun g hg => hout g 1 hg (by omega)),
      h.other s o hdesc' (fun g hg => hout g 0 hg (by omega)), if_pos hz]
  · rcases hwritten s hs with (heq | hz) | hcached
    · exact .inl heq
    · exact .inr (.inl ((h.zeros s).mp hz))
    · exact .inr (.inr hcached)
  · exact hzeros s (.inr ((h.zeros s).mpr hs))

theorem made_of_create (hbs : blocksize = 2 ^ k) (hk : 9 ≤ k) (hdev : devsize < 2 ^ 32)
    (hl : layout devsize blocksize ratio = some l)
    (hcreate : Filsys.createFilesystem sector devsize blocksize ratio quick now = some fs) :
    l.Sound ∧ ∃ dev evicted, fs.closeFilesystem = some dev ∧ Made l quick sector dev evicted := by
  obtain ⟨fs₀, fs₁, fs₂, fs₃, hinit, hlayout₀, hdescs, hgroups, hreserve, hroot⟩ :=
    Filsys.createFilesystem_cases hcreate hl
  have hsmall : cacheBuffers * blocksize < 2 ^ 31 := by
    rw [Bufpool.init] at hinit
    split at hinit
    · simp at hinit
    · omega
  have hstart : (if quick = true then fs₀ else fs₀.zero fs₀.zeroAll).layout = l := by
    split
    · exact hlayout₀
    · exact hlayout₀
  obtain ⟨hlayout₁, hdescs_le⟩ := Filsys.allocDescs_layout hdescs
  rw [hstart] at hlayout₁ hdescs_le
  obtain ⟨hsound, hblocksize⟩ := layout_sound hl hbs hk hsmall hdev hdescs_le
  have hlayout₂ : fs₂.layout = l :=
    foldlM_range hgroups hlayout₁
      fun i fs fs' _ h hround => (Filsys.initGroup_layout hround).trans h
  have hinodes := Filsys.reserveInodes_pos hreserve
  have hzeroed : (if quick = true then fs₂.zero fs₂.zeroQuick else fs₂).layout = l := by
    split
    · exact hlayout₂
    · exact hlayout₂
  rw [hzeroed] at hinodes
  have hpos := hsound.table_pos hinodes
  rw [← hblocksize] at hinit
  obtain ⟨Z, hprepared⟩ := Filsys.prepared hsound hpos hinit hlayout₀ hdescs hgroups
  obtain ⟨dev, hclose, hmade⟩ := hprepared.made hsound hpos hreserve hroot
  exact ⟨hsound, dev, _, hclose, hmade⟩

/-- The file system that the tool is meant to make. -/
structure Formatted (l : Layout) (quick : Bool) (dev : Device) : Prop where
  inodes : ∀ g, g < l.groupCount → ∀ n, n < l.inodesPerGroup →
    (testBit (l.block dev.sector (l.first g + 1)) n = true ↔ l.inodesPerGroup * g + n < reservedInodes)
  table : ∀ g, g < l.groupCount → ∀ j, j < l.inodeBlocksPerGroup → ∀ k, k < l.blocksize →
    ¬ (g = 0 ∧ j = 0 ∧ k < inodedescSize) → l.block dev.sector (l.first g + 2 + j) k = 0
  blocks : ∀ g, g < l.groupCount → ∀ n, n < l.blocksPerGroup →
    (testBit (l.block dev.sector (l.first g)) n = true ↔ l.Meta (l.blocksPerGroup * g + n))
  writes : ∀ s, s ∈ dev.written → l.Meta (s / l.spb) ∨
    quick = false ∧ s / l.spb < l.blockCount ∧ ∀ o, o < sectorSize → dev.sector s o = 0

/-- The metadata that is not zeroed was zero before, and a quick format zeroes metadata only, before any
of it is written. -/
structure Unused (l : Layout) (quick : Bool) (sector : ℕ → ℕ → UInt8) : Prop where
  inodes : ∀ g, g < l.groupCount → ∀ n, n < l.inodesPerGroup →
    reservedInodes ≤ l.inodesPerGroup * g + n →
    ¬ l.Zeroed quick ((l.first g + 1) * l.spb + n / 8 / sectorSize) →
    testBit (l.block sector (l.first g + 1)) n = false
  table : ∀ g, g < l.groupCount → ∀ j, j < l.inodeBlocksPerGroup → ∀ k, k < l.blocksize →
    ¬ (g = 0 ∧ j = 0 ∧ k < inodedescSize) →
    ¬ l.Zeroed quick ((l.first g + 2 + j) * l.spb + k / sectorSize) →
    l.block sector (l.first g + 2 + j) k = 0
  aligned : quick = true → l.spb = 1 ∨ l.groupCount = 1
  roomy : quick = true → l.groupdescBlocks + l.groupCount ≤ cacheBuffers

namespace Layout.Sound
variable {b g n s : ℕ}

/-- The blocks that the tool needs: the super block and the reserved blocks, the descriptors, the bitmaps
and the inode tables. -/
theorem meta_iff (hl : l.Sound) : l.Meta b ↔ b < l.groupdescTableBlock ∨ l.Cached b := by
  constructor
  · rintro ⟨g, hg, hle, hlt⟩
    by_cases hfront : l.first g ≤ b
    · exact .inr (.inr ⟨g, b - l.first g, hg, by omega, by omega⟩)
    · rw [Layout.first, Layout.front] at hfront
      split at hfront
      · next h0 =>
        subst h0
        by_cases hdesc : b < l.groupdescTableBlock
        · exact .inl hdesc
        · exact .inr (.inl ⟨by omega, by omega⟩)
      · omega
  · rintro (hlt | hb)
    · refine ⟨0, hl.groups, by omega, ?_⟩
      rw [Layout.first, Layout.front, if_pos rfl]
      omega
    · exact hl.cached_meta hb

theorem meta_group (hl : l.Sound) (hblocks : l.groupdescBlocks ≤ 1024) (hg : g < l.groupCount)
    (hn : n < l.blocksPerGroup) : l.Meta (l.blocksPerGroup * g + n) ↔ n < l.taken g := by
  constructor
  · rintro ⟨g', -, hle, hlt⟩
    have hmeta := hl.meta_lt hblocks g'
    have hsize := hl.group_ge
    rw [Layout.first] at hlt
    have heq : g = g' := by
      rcases Nat.lt_trichotomy g g' with h | h | h
      · have := Nat.mul_le_mul_left l.blocksPerGroup (Nat.succ_le_of_lt h)
        rw [Nat.mul_succ] at this
        omega
      · exact h
      · have := Nat.mul_le_mul_left l.blocksPerGroup (Nat.succ_le_of_lt h)
        rw [Nat.mul_succ] at this
        omega
    subst heq
    rw [Layout.taken]
    omega
  · intro h
    exact meta_of_le hg h

end Layout.Sound

theorem Layout.usedInodes_iff {g n : ℕ} (hn : n < l.inodesPerGroup) (i : ℕ) :
    n < l.usedInodes g i ↔ l.inodesPerGroup * g + n < i := by
  rw [Layout.usedInodes]
  omega

namespace Made
variable {evicted : ℕ → Prop} {s : ℕ}

theorem zeroed_lt (hl : l.Sound) (hz : l.Zeroed false s) : s / l.spb < l.blockCount := by
  rw [Layout.Zeroed, if_neg (by simp)] at hz
  have hpos := hl.pos
  obtain ⟨c, hc⟩ : ∃ c, l.blockCount = c + 1 := ⟨l.blockCount - 1, by omega⟩
  rw [Nat.div_lt_iff_lt_mul hpos, hc, Nat.succ_mul]
  have := Nat.le_mul_of_pos_right c hpos
  omega

theorem zeroed_meta (hl : l.Sound) (hz : l.Zeroed true s) (h : l.spb = 1 ∨ l.groupCount = 1) :
    l.Meta (s / l.spb) := by
  obtain ⟨g, hg, hle, hlt⟩ := hz
  have hfirst : l.first g = l.blocksPerGroup * g + l.front g := rfl
  rcases h with hspb | hcount
  · rw [hspb] at hlt ⊢
    rw [Nat.div_one]
    exact ⟨g, hg, by omega, by omega⟩
  · obtain rfl : g = 0 := by omega
    refine ⟨0, hg, Nat.zero_le _, ?_⟩
    have hpos := hl.pos
    rw [Nat.div_lt_iff_lt_mul hpos, show l.first 0 + 2 + l.inodeBlocksPerGroup =
      l.first 0 + 1 + l.inodeBlocksPerGroup + 1 by omega, Nat.succ_mul]
    have := Nat.le_mul_of_pos_right (l.first 0 + 1 + l.inodeBlocksPerGroup) hpos
    omega

theorem formatted (h : Made l quick sector dev evicted) (hl : l.Sound) (hu : Unused l quick sector) :
    Formatted l quick dev := by
  refine ⟨fun g hg n hn => ?_, fun g hg j hj k hk hno => ?_, fun g hg n hn => ?_, fun s hs => ?_⟩
  · have hbits := hl.inodes
    rw [h.inodes g hg n (by omega), Layout.usedInodes_iff hn]
    refine or_iff_left_of_imp fun ⟨hz, hbit⟩ => ?_
    by_contra hno
    rw [hu.inodes g hg n hn (Nat.le_of_not_lt hno) hz] at hbit
    simp at hbit
  · rw [h.table g hg j hj k hk hno]
    split
    · rfl
    · next hz => exact hu.table g hg j hj k hk hno hz
  · rw [hl.meta_group h.blocks hg hn]
    have hkept (s : ℕ) : ¬ (quick = true ∧ evicted g ∧ l.Zeroed quick s) :=
      fun ⟨hquick, hout, _⟩ => h.roomy (hu.roomy hquick) g hg hout
    have hbytes (k : ℕ) (hk : k < l.blocksize) :
        l.block dev.sector (l.first g) k = setBits (fun _ => 0) 0 (l.taken g) k := by
      refine Layout.block_eq hl hk fun s o ho hs => ?_
      exact ((h.bitmap g hg s o ho hs).resolve_left fun hz => hkept s ⟨hz.1, hz.2.1, hz.2.2.1⟩).2
    rw [testBit_congr hbytes (by rw [← hl.group]; exact hn), testBit_setBits, testBit_zero, Bool.or_false,
      decide_eq_true_eq]
    omega
  · have hsuper : l.Meta (1 / l.spb) := by
      have hdiv := Nat.div_le_self 1 l.spb
      have htable := hl.descTable
      exact hl.meta_iff.mpr (.inl (by omega))
    rcases h.writes s hs with rfl | hz | hcached
    · exact .inl hsuper
    · cases quick with
      | true => exact .inl (zeroed_meta hl hz (hu.aligned rfl))
      | false =>
        by_cases hmeta : l.Meta (s / l.spb)
        · exact .inl hmeta
        · refine .inr ⟨rfl, zeroed_lt hl hz, fun o ho => h.rest s o ho ?_ ?_ hz⟩
          · rintro rfl
            exact hmeta hsuper
          · exact fun hcached => hmeta (hl.meta_iff.mpr (.inr hcached))
    · exact .inl (hl.meta_iff.mpr (.inr hcached))

theorem aligned (h : Made l true sector dev evicted) (hl : l.Sound) (hf : Formatted l true dev) :
    l.spb = 1 ∨ l.groupCount = 1 := by
  by_contra hno
  have hpos := hl.pos
  have hgroups := hl.groups
  have hfirst : l.first 1 = l.blocksPerGroup := by
    rw [Layout.first, Layout.front, if_neg (by decide), Nat.mul_one, Nat.add_zero]
  have hz : l.Zeroed true l.blocksPerGroup := by
    exact ⟨1, by omega, hfirst.le, by omega⟩
  have hsize : l.blocksPerGroup = 4096 * l.spb := by
    have hsector : sectorSize = 512 := rfl
    rw [hl.group, hl.blocksize, hsector]
    omega
  rcases hf.writes _ (h.zeros _ hz) with hmeta | hfull
  · rw [hsize, Nat.mul_div_cancel _ hpos] at hmeta
    obtain ⟨g, -, hle, hlt⟩ := hmeta
    have hmeta := hl.meta_lt h.blocks g
    rw [Layout.first] at hlt
    rcases Nat.eq_zero_or_pos g with rfl | hgpos
    · omega
    · have := Nat.mul_le_mul_left l.blocksPerGroup hgpos
      omega
  · simp at hfull

theorem roomy_of_formatted (h : Made l true sector dev evicted) (hl : l.Sound) (hf : Formatted l true dev) :
    l.groupdescBlocks + l.groupCount ≤ cacheBuffers := by
  by_contra hcrowded
  obtain ⟨g, hg, hout⟩ := h.crowded (Nat.lt_of_not_le hcrowded)
  have hbuffers : cacheBuffers = 1024 := rfl
  rcases h.aligned hl hf with hspb | hcount
  · have hz : l.Zeroed true (l.first g) := by
      exact ⟨g, hg, le_rfl, by omega⟩
    have hzero : l.block dev.sector (l.first g) 0 = 0 := by
      rw [Layout.block, hspb, Nat.mul_one]
      rcases h.bitmap g hg (l.first g) 0 (by decide) (by rw [hspb, Nat.div_one]) with hlost | hkept
      · exact hlost.2.2.2
      · exact absurd ⟨rfl, hout, hz⟩ hkept.1
    have hsize := hl.group_ge
    have hbit := (hf.blocks g hg 0 (by omega)).mpr (Layout.Sound.meta_of_le hg (by omega))
    rw [testBit, hzero] at hbit
    simp at hbit
  · have hle := hl.descBlocks_le
    omega

theorem unused (h : Made l quick sector dev evicted) (hl : l.Sound) (hf : Formatted l quick dev) :
    Unused l quick sector := by
  refine ⟨fun g hg n hn hfree hz => ?_, fun g hg j hj k hk hno hz => ?_, fun hquick => ?_,
    fun hquick => ?_⟩
  · have hbits := hl.inodes
    by_contra hbit
    have hset := (h.inodes g hg n (by omega)).mpr (.inr ⟨hz, by simpa using hbit⟩)
    exact absurd ((hf.inodes g hg n hn).mp hset) (Nat.not_lt.mpr hfree)
  · rw [← hf.table g hg j hj k hk hno, h.table g hg j hj k hk hno, if_neg hz]
  · subst hquick
    exact h.aligned hl hf
  · subst hquick
    exact h.roomy_of_formatted hl hf

end Made

/-- The new file system is as it is meant to be exactly when the device was not in use where it is not
zeroed. -/
theorem format_iff_unused (hbs : blocksize = 2 ^ k) (hk : 9 ≤ k) (hdev : devsize < 2 ^ 32)
    (hl : layout devsize blocksize ratio = some l)
    (hcreate : Filsys.createFilesystem sector devsize blocksize ratio quick now = some fs) :
    ∃ dev, fs.closeFilesystem = some dev ∧ (Formatted l quick dev ↔ Unused l quick sector) := by
  obtain ⟨hsound, dev, evicted, hclose, hmade⟩ := made_of_create hbs hk hdev hl hcreate
  exact ⟨dev, hclose, fun hf => hmade.unused hsound hf, fun hu => hmade.formatted hsound hu⟩

/-- A full format of 64 sectors that were in use. -/
theorem format_iff_unused_full : ∃ l fs dev, layout 64 512 1024 = some l ∧
    Filsys.createFilesystem (fun _ _ => 7) 64 512 1024 false 0 = some fs ∧
    fs.closeFilesystem = some dev ∧ (Formatted l false dev ↔ Unused l false fun _ _ => 7) := by
  have hl : (layout 64 512 1024).isSome = true := by decide +kernel
  have hcreate : (Filsys.createFilesystem (fun _ _ => 7) 64 512 1024 false 0).isSome = true := by
    decide +kernel
  obtain ⟨dev, hclose, hiff⟩ := format_iff_unused (show 512 = 2 ^ 9 from rfl) (by decide) (by decide)
    (Option.some_get hl).symm (Option.some_get hcreate).symm
  exact ⟨_, _, dev, (Option.some_get hl).symm, (Option.some_get hcreate).symm, hclose, hiff⟩

/-- With blocks of two sectors the full format zeroes half of the device, and the inode table ends behind
that: its old bytes stay. -/
theorem old_inodes_kept : ∃ l fs dev, layout 80 1024 1024 = some l ∧
    Filsys.createFilesystem (fun _ _ => 7) 80 1024 1024 false 0 = some fs ∧
    fs.closeFilesystem = some dev ∧ ¬ Formatted l false dev := by
  have hbyte : ((layout 80 1024 1024).bind fun l =>
      (Filsys.createFilesystem (fun _ _ => 7) 80 1024 1024 false 0).bind fun fs =>
        fs.closeFilesystem.map fun dev => (decide (0 < l.groupCount ∧ 1 < l.inodeBlocksPerGroup ∧
          512 < l.blocksize), l.block dev.sector (l.first 0 + 2 + 1) 512)) = some (true, 7) := by
    decide +kernel
  obtain ⟨l, hl, hrest⟩ := Option.bind_eq_some_iff.mp hbyte
  obtain ⟨fs, hcreate, hrest⟩ := Option.bind_eq_some_iff.mp hrest
  obtain ⟨dev, hclose, heq⟩ := Option.map_eq_some_iff.mp hrest
  obtain ⟨hsmall, hkept⟩ := Prod.mk.inj heq
  obtain ⟨hgroup, htable, hblock⟩ := of_decide_eq_true hsmall
  refine ⟨l, fs, dev, hl, hcreate, hclose, fun hf => ?_⟩
  rw [hf.table 0 hgroup 1 htable 512 hblock (by simp)] at hkept
  simp at hkept

end SimpleKernel.Mkdfs
