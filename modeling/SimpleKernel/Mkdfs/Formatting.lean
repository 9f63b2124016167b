import Mathlib.Data.List.Nodup
import Mathlib.Data.List.Perm.Subperm
import SimpleKernel.Lib.EarlyExit
import SimpleKernel.Mkdfs.Geometry

/-! What the cache shows while a file system is made. -/
namespace SimpleKernel.Mkdfs
open Dfs (word minus word_of_lt minus_of_le)

/-- The buffers of the descriptors stay locked. -/
def Layout.descList (l : Layout) : List ℕ := List.range' l.groupdescTableBlock l.groupdescBlocks

/-- The blocks that are written through the cache before the inodes. -/
def Layout.Bitmap (l : Layout) (b : ℕ) : Prop := l.IsDesc b ∨ ∃ g, g < l.groupCount ∧ b = l.first g

/-- The blocks that are read or written through the cache. -/
def Layout.Cached (l : Layout) (b : ℕ) : Prop :=
  l.IsDesc b ∨ ∃ g x, g < l.groupCount ∧ x < 2 + l.inodeBlocksPerGroup ∧ b = l.first g + x

variable {l : Layout} {M Z : ℕ → Prop} {p p' : Bufpool} {fs fs' : Filsys} {g i b s o x : ℕ}
  {base : ℕ → ℕ → UInt8} {opened : List ℕ}

theorem Layout.mem_descList : b ∈ l.descList ↔ l.IsDesc b := by
  rw [Layout.descList, List.mem_range'_1, Layout.IsDesc]

theorem Layout.Sound.cached_meta (h : l.Sound) (hb : l.Cached b) : l.Meta b := by
  rcases hb with hb | ⟨g, x, hg, hx, rfl⟩
  · exact h.meta_desc hb
  · exact Layout.Sound.meta_first hg hx

theorem Layout.Bitmap.cached (hb : l.Bitmap b) : l.Cached b := by
  rcases hb with hb | ⟨g, hg, rfl⟩
  · exact .inl hb
  · exact .inr ⟨g, 0, hg, by omega, rfl⟩

/-- The cache while a file system with the layout `l` is made. The blocks of `opened` are locked
besides the descriptors. -/
structure Layout.Caches (l : Layout) (M Z : ℕ → Prop) (opened : List ℕ) (p : Bufpool) : Prop where
  ok : p.Ok M Z cacheBuffers (opened ++ l.descList)
  spb : p.blksPerBuffer = l.spb

theorem Layout.Caches.descs_le (h : l.Caches M Z opened p) : l.groupdescBlocks ≤ 1024 := by
  have hcount := h.ok.count
  rw [List.length_append, Layout.descList, List.length_range', cacheBuffers] at hcount
  omega

theorem init_ok {dev : Device} {bufsize : ℕ}
    (hinit : Bufpool.init dev cacheBuffers bufsize = some p) (hsize : bufsize = sectorSize * (bufsize / sectorSize))
    (hpos : 0 < bufsize / sectorSize) (hM : ∀ b, M b → (b + 1) * (bufsize / sectorSize) ≤ 2 ^ 32) :
    p.Ok M (fun s => s ∈ dev.written) cacheBuffers [] ∧ p.blksPerBuffer = bufsize / sectorSize ∧
      p.dirty = [] ∧ ∀ s o, p.shown s o = dev.sector s o := by
  rw [Bufpool.init] at hinit
  split at hinit
  · simp at hinit
  · obtain rfl := Option.some.inj hinit
    refine ⟨⟨hsize, hpos, hM, rfl, rfl, List.nodup_nil, fun b => ?_, fun b hb => ?_, fun b hb => ?_,
      fun b hb => absurd rfl hb, fun s hs => .inl hs, fun s hs => hs⟩, rfl, rfl, fun s o => rfl⟩
    · simp
    · simp at hb
    · simp at hb

theorem Bufpool.Ok.zero {size blocksize spb : ℕ} {held : List ℕ} (h : p.Ok M Z size held)
    (hsize : p.bufsize = blocksize) (hspb : p.blksPerBuffer = spb) (blknos : List ℕ) :
    Bufpool.Ok { p with dev := p.dev.zero blocksize blknos } M (fun s => Hit spb blknos s ∨ Z s) size
      held ∧
    ∀ s o, Bufpool.shown { p with dev := p.dev.zero blocksize blknos } s o =
      if p.bufs (s / spb) = none ∧ Hit spb blknos s then 0 else p.shown s o := by
  subst hsize hspb
  obtain ⟨hsector, hwritten⟩ := p.dev.zero_spec p.bufsize blknos
  rw [h.sectors] at hsector hwritten
  refine ⟨⟨h.bufsize, h.pos, h.small, h.count, h.clean, h.nodup, h.none_iff, h.dirty, h.held, h.only,
    fun s hs => ?_, fun s hs => ?_⟩, fun s o => ?_⟩
  · rcases (hwritten s).mp hs with hhit | hold
    · exact .inl (.inl hhit)
    · exact (h.writes s hold).imp_left .inr
  · exact (hwritten s).mpr (hs.imp_right (h.zeros s))
  · cases hbuf : p.bufs (s / p.blksPerBuffer) with
    | none =>
      rw [Bufpool.shown_none hbuf]
      refine (Bufpool.shown_none (p := { p with dev := p.dev.zero p.bufsize blknos }) hbuf).trans
        ((hsector s o).trans ?_)
      simp only [true_and]
    | some buf =>
      rw [Bufpool.shown_some hbuf]
      exact Bufpool.shown_some hbuf

theorem allocDescs_spec (hok : fs.cache.Ok M Z cacheBuffers []) (hM : ∀ b, l.IsDesc b → M b)
    (hspb : fs.cache.blksPerBuffer = l.spb)
    (hdirty : fs.cache.dirty = []) (hlayout : fs.layout = l) (hcall : fs.allocDescs = some fs') :
    fs'.layout = l ∧ l.Caches M Z [] fs'.cache ∧ fs'.cache.dirty = [] ∧
      (∀ g, (fs'.groups g).firstFreeInode = 0) ∧
      ∀ s o, ¬ l.IsDesc (s / l.spb) → fs'.cache.shown s o = fs.cache.shown s o := by
  rw [Filsys.allocDescs, hlayout] at hcall
  split at hcall
  · simp at hcall
  obtain ⟨p, hrun, rfl⟩ := Option.map_eq_some_iff.mp hcall
  have hrounds : p.Ok M Z cacheBuffers (List.range' l.groupdescTableBlock l.groupdescBlocks) ∧
      p.blksPerBuffer = l.spb ∧ p.dirty = [] ∧
      ∀ s o, ¬ l.IsDesc (s / l.spb) → p.shown s o = fs.cache.shown s o := by
    refine foldlM_range (P := fun i (p : Bufpool) =>
      p.Ok M Z cacheBuffers (List.range' l.groupdescTableBlock i) ∧ p.blksPerBuffer = l.spb ∧
        p.dirty = [] ∧ ∀ s o, ¬ l.IsDesc (s / l.spb) → p.shown s o = fs.cache.shown s o) hrun
      ⟨hok, hspb, hdirty, fun _ _ _ => rfl⟩ ?_
    rintro i p p' hi ⟨hok, hspb, hdirty, hshown⟩ hcall
    have hdesc : l.IsDesc (l.groupdescTableBlock + i) := ⟨Nat.le_add_right _ _, by omega⟩
    have hfresh : l.groupdescTableBlock + i ∉ List.range' l.groupdescTableBlock i := by
      rw [List.mem_range'_1]
      omega
    obtain ⟨hok', hspb', hshown', -, hdirty'⟩ := hok.allocBuffer hfresh (hM _ hdesc) hcall
    refine ⟨hok'.congr (fun b => ?_) ?_, hspb'.trans hspb, ?_, fun s o hs => ?_⟩
    · rw [List.mem_cons, List.mem_range'_1, List.mem_range'_1]
      omega
    · simp
    · rw [hdirty' (by simp [hdirty]) (.inr hdirty), hdirty]
    · rw [hshown', if_neg, hshown s o hs]
      rw [hspb]
      rintro heq
      rw [heq] at hs
      exact hs hdesc
  obtain ⟨hok', hspb', hdirty', hshown'⟩ := hrounds
  exact ⟨rfl, ⟨hok', hspb'⟩, hdirty', fun _ => rfl, hshown'⟩

theorem Layout.Sound.descBlock_mem (hl : l.Sound) (hlayout : fs.layout = l) (hg : g < l.groupCount) :
    fs.layout.descBlock g ∈ opened ++ l.descList := by
  rw [hlayout, List.mem_append, Layout.mem_descList]
  exact .inr (hl.isDesc_descBlock hg)

theorem Layout.Caches.putDesc (fs : Filsys) (h : l.Caches M Z opened fs.cache) (hl : l.Sound)
    (hlayout : fs.layout = l) (hg : g < l.groupCount) (gd : Groupdesc) :
    l.Caches M Z opened (fs.putDesc g gd).cache ∧ (fs.putDesc g gd).cache.dirty = fs.cache.dirty ∧
      (∀ s o, ¬ l.IsDesc (s / l.spb) → (fs.putDesc g gd).cache.shown s o = fs.cache.shown s o) ∧
      ∀ b, fs.cache.Updated b → (fs.putDesc g gd).cache.Updated b := by
  obtain ⟨hok, hdirty, hspb, hshown, hupdated⟩ := h.ok.setData (hl.descBlock_mem hlayout hg)
    (Splice.patch (fs.cache.data (fs.layout.descBlock g))
      (g % fs.layout.groupdescsPerBlock * groupdescSize) gd.image)
  refine ⟨⟨hok, hspb.trans h.spb⟩, hdirty, fun s o hs => (hshown s o).trans (if_neg ?_), hupdated⟩
  rw [h.spb]
  intro heq
  rw [heq, hlayout] at hs
  exact hs (hl.isDesc_descBlock hg)

theorem Layout.Caches.markGroupDescDirty (fs : Filsys) (h : l.Caches M Z opened fs.cache)
    (hl : l.Sound) (hlayout : fs.layout = l) (hg : g < l.groupCount) :
    l.Caches M Z opened (fs.markGroupDescDirty g).cache ∧
      (fs.markGroupDescDirty g).cache.dirty = fs.cache.dirty ∧
      (∀ s o, (fs.markGroupDescDirty g).cache.shown s o = fs.cache.shown s o) ∧
      ∀ b, fs.cache.Updated b → (fs.markGroupDescDirty g).cache.Updated b := by
  obtain ⟨hok, hdirty, hspb, hshown, -, hupdated⟩ := h.ok.markUpdated (hl.descBlock_mem hlayout hg)
  exact ⟨⟨hok, hspb.trans h.spb⟩, hdirty, hshown, hupdated⟩

/-- The blocks that a group needs for itself. -/
def Layout.taken (l : Layout) (g : ℕ) : ℕ := l.front g + 2 + l.inodeBlocksPerGroup

/-- The block bitmaps of the groups below `i` are made; all else is as in `base`. -/
structure Filsys.Grouped (fs : Filsys) (l : Layout) (Z : ℕ → Prop) (base : ℕ → ℕ → UInt8) (i : ℕ) :
    Prop where
  layout : fs.layout = l
  caches : l.Caches l.Bitmap Z [] fs.cache
  desc : ∀ g, g < i → (fs.groups g).desc = l.newDesc g
  fresh : ∀ g, (fs.groups g).firstFreeInode = 0
  dirty : l.groupdescBlocks + l.groupCount ≤ cacheBuffers →
    fs.cache.dirty = (List.range i).map l.first
  other : ∀ s o, ¬ l.IsDesc (s / l.spb) → (∀ g, g < i → s / l.spb ≠ l.first g) →
    fs.cache.shown s o = base s o
  bitmap : ∀ g, g < i → ∀ s o, s / l.spb = l.first g →
    fs.cache.shown s o = setBits (fun _ => 0) 0 (l.taken g) (s % l.spb * sectorSize + o)

theorem Filsys.Grouped.step (h : fs.Grouped l Z base i) (hl : l.Sound) (hpos : 0 < l.inodeBlocksPerGroup)
    (hi : i < l.groupCount) (hcall : fs.initGroup i = some fs') : fs'.Grouped l Z base (i + 1) := by
  have hblocks := h.caches.descs_le
  have hlayout := h.layout
  obtain ⟨hb, -, -⟩ := hl.newDesc_blocks hblocks hi hpos
  have hdesc : ¬ l.IsDesc (l.first i) := hl.not_isDesc hblocks i 0
  have hheld : l.first i ∉ l.descList := fun hmem => hdesc (Layout.mem_descList.mp hmem)
  obtain ⟨hcaches₁, hdirty₁, hshown₁, -⟩ := Layout.Caches.putDesc fs h.caches hl hlayout hi (l.newDesc i)
  rw [Filsys.initGroup, hlayout] at hcall
  rw [hb] at hcall
  split at hcall
  · simp at hcall
  next p₂ hp₂ =>
  split at hcall
  · simp at hcall
  obtain ⟨hok₂, hspb₂, hshown₂, hdata₂, hdirty₂⟩ :=
    hcaches₁.ok.allocBuffer hheld (.inr ⟨i, hi, rfl⟩) hp₂
  obtain ⟨p₃, hp₃, hok₃, hdirty₃, hspb₃, hshown₃⟩ :=
    hok₂.rewrite hheld (setBits (fun _ => 0) 0 (l.taken i))
  rw [hdata₂] at hcall
  obtain ⟨p₃', hp₃', rfl⟩ := Option.map_eq_some_iff.mp hcall
  obtain rfl : p₃' = p₃ := Option.some.inj (hp₃'.symm.trans hp₃)
  rw [hspb₂, hcaches₁.spb] at hshown₃
  rw [hcaches₁.spb] at hshown₂
  have hcaches₃ : l.Caches l.Bitmap Z [] p₃' := ⟨hok₃, hspb₃.trans (hspb₂.trans hcaches₁.spb)⟩
  let fs₃ : Filsys := { (fs.putDesc i (l.newDesc i)) with
    cache := p₃'
    freeBlockCount := minus (fs.putDesc i (l.newDesc i)).freeBlockCount (l.taken i) }
  obtain ⟨hcaches₄, hdirty₄, hshown₄, -⟩ :=
    Layout.Caches.markGroupDescDirty fs₃ hcaches₃ hl hlayout hi
  refine ⟨hlayout, hcaches₄, fun g hg => ?_, fun g => ?_, fun hroom => ?_, fun s o hs hno => ?_,
    fun g hg s o hs => ?_⟩
  · show (Function.update fs.groups i _ g).desc = _
    rcases Nat.lt_succ_iff_lt_or_eq.mp hg with hlt | rfl
    · rw [Function.update_of_ne hlt.ne]
      exact h.desc g hlt
    · rw [Function.update_self]
  · show (Function.update fs.groups i _ g).firstFreeInode = 0
    rcases eq_or_ne g i with rfl | hne
    · rw [Function.update_self]
      exact h.fresh g
    · rw [Function.update_of_ne hne]
      exact h.fresh g
  · -- no buffer had to be written for a new one
    have hold := h.dirty hroom
    have hcount := hcaches₁.ok.count
    rw [List.nil_append, Layout.descList, List.length_range', hdirty₁, hold, List.length_map,
      List.length_range] at hcount
    have hnew : l.first i ∉ (fs.putDesc i (l.newDesc i)).cache.dirty := by
      rw [hdirty₁, hold, List.mem_map]
      rintro ⟨g, hg, heq⟩
      rw [List.mem_range] at hg
      obtain rfl := hl.first_inj hblocks heq
      omega
    refine hdirty₄.trans ?_
    rw [hdirty₃, hdirty₂ hnew (.inl (by omega)), hdirty₁, hold, List.range_succ, List.map_append]
    rfl
  · refine (hshown₄ s o).trans ?_
    rw [hshown₃, if_neg (hno i (Nat.lt_succ_self i)), hshown₂, if_neg (hno i (Nat.lt_succ_self i)),
      hshown₁ s o hs]
    exact h.other s o hs fun g hg => hno g (Nat.lt_succ_of_lt hg)
  · refine (hshown₄ s o).trans ?_
    rw [hshown₃]
    rcases Nat.lt_succ_iff_lt_or_eq.mp hg with hlt | rfl
    · have hne : s / l.spb ≠ l.first i := by
        rw [hs]
        intro heq
        have := hl.first_inj hblocks heq
        omega
      rw [if_neg hne, hshown₂, if_neg hne, hshown₁ s o (by rw [hs]; exact hl.not_isDesc hblocks g 0)]
      exact h.bitmap g hlt s o hs
    · rw [if_pos hs]

/-- The sectors that are zeroed: those of all metadata except the descriptors in a quick format, with block numbers
taken for sector numbers, and those of as many blocks as the device has otherwise. -/
def Layout.Zeroed (l : Layout) (quick : Bool) (s : ℕ) : Prop :=
  if quick = true then
    ∃ g, g < l.groupCount ∧ l.first g ≤ s ∧ s < l.first g + (1 + l.inodeBlocksPerGroup) + l.spb
  else l.front 0 < l.blockCount ∧ l.front 0 ≤ s ∧ s < l.blockCount - 1 + l.spb

instance (l : Layout) (quick : Bool) (s : ℕ) : Decidable (l.Zeroed quick s) := by
  unfold Layout.Zeroed
  infer_instance

theorem hit_zeroAll (hl : l.Sound) (hlayout : fs.layout = l) :
    Hit l.spb fs.zeroAll s ↔ l.Zeroed false s := by
  rw [Filsys.zeroAll, hlayout, hit_range hl.pos, Layout.Zeroed, if_neg (by simp), Layout.front, if_pos rfl]
  omega

theorem hit_zeroQuick (hl : l.Sound) (hpos : 0 < l.inodeBlocksPerGroup) (hlayout : fs.layout = l)
    (hblocks : l.groupdescBlocks ≤ 1024)
    (hdesc : ∀ g, g < l.groupCount → (fs.groups g).desc = l.newDesc g) :
    Hit l.spb fs.zeroQuick s ↔ l.Zeroed true s := by
  have hmem (b : ℕ) : b ∈ fs.zeroQuick ↔
      ∃ g, g < l.groupCount ∧ b ∈ List.range' (l.first g) (2 + l.inodeBlocksPerGroup) := by
    rw [Filsys.zeroQuick, hlayout, List.mem_flatMap]
    refine exists_congr fun g => ?_
    rw [List.mem_range]
    refine and_congr_right fun hg => ?_
    obtain ⟨hbitmap, hinodes, htable⟩ := hl.newDesc_blocks hblocks hg hpos
    have hword {x : ℕ} (hx : x < 2 + l.inodeBlocksPerGroup) : word (l.first g + x) = l.first g + x :=
      word_of_lt (hl.meta_lt_word hblocks (Layout.Sound.meta_first hg hx))
    rw [hdesc g hg]
    dsimp only
    rw [htable, List.mem_range'_1, List.mem_cons, List.mem_cons,
      List.mem_map]
    constructor
    · rintro (rfl | rfl | ⟨j, hj, rfl⟩)
      · omega
      · omega
      · rw [List.mem_range] at hj
        rw [Nat.add_assoc, hword (by omega)]
        omega
    · intro hb
      rcases Nat.lt_or_ge b (l.first g + 2) with hlt | hge
      · omega
      · refine .inr (.inr ⟨b - (l.first g + 2), ?_, ?_⟩)
        · rw [List.mem_range]
          omega
        · rw [Nat.add_assoc, hword (by omega)]
          omega
  constructor
  · rintro ⟨b, hb, hle, hlt⟩
    obtain ⟨g, hg, hb⟩ := (hmem b).mp hb
    rw [List.mem_range'_1] at hb
    exact ⟨g, hg, by omega, by omega⟩
  · rintro ⟨g, hg, hle, hlt⟩
    obtain ⟨b, hb, hle, hlt⟩ := (hit_range (n := 2 + l.inodeBlocksPerGroup) hl.pos).mpr
      ⟨by omega, hle, by omega⟩
    exact ⟨b, (hmem b).mpr ⟨g, hg, hb⟩, hle, hlt⟩

/-- Nothing but the inodes is missing. -/
structure Filsys.Prepared (fs : Filsys) (l : Layout) (quick : Bool) (Z : ℕ → Prop)
    (sector : ℕ → ℕ → UInt8) : Prop where
  layout : fs.layout = l
  caches : l.Caches l.Bitmap Z [] fs.cache
  desc : ∀ g, g < l.groupCount → (fs.groups g).desc = l.newDesc g
  fresh : ∀ g, (fs.groups g).firstFreeInode = 0
  zeros : ∀ s, Z s ↔ l.Zeroed quick s
  bitmap : ∀ g, g < l.groupCount → ∀ s o, s / l.spb = l.first g → fs.cache.shown s o =
    if quick = true ∧ fs.cache.bufs (l.first g) = none ∧ l.Zeroed quick s then 0
    else setBits (fun _ => 0) 0 (l.taken g) (s % l.spb * sectorSize + o)
  other : ∀ s o, ¬ l.IsDesc (s / l.spb) → (∀ g, g < l.groupCount → s / l.spb ≠ l.first g) →
    fs.cache.shown s o = if l.Zeroed quick s then 0 else sector s o
  roomy : l.groupdescBlocks + l.groupCount ≤ cacheBuffers →
    ∀ g, g < l.groupCount → fs.cache.bufs (l.first g) ≠ none
  crowded : cacheBuffers < l.groupdescBlocks + l.groupCount →
    ∃ g, g < l.groupCount ∧ fs.cache.bufs (l.first g) = none

theorem Layout.Caches.crowded (h : l.Caches M Z [] p) (hl : l.Sound)
    (hlt : cacheBuffers < l.groupdescBlocks + l.groupCount) :
    ∃ g, g < l.groupCount ∧ p.bufs (l.first g) = none := by
  have hblocks := h.descs_le
  have hcount := h.ok.count
  by_contra hno
  have hdirty : ∀ b ∈ (List.range l.groupCount).map l.first, b ∈ p.dirty := by
    intro b hb
    obtain ⟨g, hg, rfl⟩ := List.mem_map.mp hb
    rw [List.mem_range] at hg
    by_contra hclean
    refine hno ⟨g, hg, (h.ok.none_iff _).mpr ⟨hclean, fun hmem => ?_⟩⟩
    exact hl.not_isDesc hblocks g 0 (Layout.mem_descList.mp hmem)
  have hnodup : ((List.range l.groupCount).map l.first).Nodup := by
    refine List.Nodup.map (fun g g' heq => ?_) List.nodup_range
    exact hl.first_inj hblocks heq
  have hlen := (hnodup.subperm hdirty).length_le
  rw [List.length_map, List.length_range] at hlen
  rw [List.nil_append, Layout.descList, List.length_range'] at hcount
  omega

theorem Filsys.Grouped.roomy (h : fs.Grouped l Z base l.groupCount)
    (hroom : l.groupdescBlocks + l.groupCount ≤ cacheBuffers) (hg : g < l.groupCount) :
    fs.cache.bufs (l.first g) ≠ none := by
  intro hnone
  apply ((h.caches.ok.none_iff _).mp hnone).1
  rw [h.dirty hroom, List.mem_map]
  exact ⟨g, List.mem_range.mpr hg, rfl⟩

theorem Filsys.Grouped.prepared_full {sector : ℕ → ℕ → UInt8} (h : fs.Grouped l Z base l.groupCount)
    (hl : l.Sound) (hzeros : ∀ s, Z s ↔ l.Zeroed false s)
    (hbase : ∀ s o, base s o = if l.Zeroed false s then 0 else sector s o) :
    fs.Prepared l false Z sector := by
  refine ⟨h.layout, h.caches, h.desc, h.fresh, hzeros, fun g hg s o hs => ?_, fun s o hs hno => ?_,
    fun hroom g hg => h.roomy hroom hg, h.caches.crowded hl⟩
  · exact h.bitmap g hg s o hs
  · rw [← hbase]
    exact h.other s o hs hno

theorem Filsys.Grouped.prepared_quick (h : fs.Grouped l Z base l.groupCount) (hl : l.Sound)
    (hpos : 0 < l.inodeBlocksPerGroup) (hzeros : ∀ s, ¬ Z s) :
    (fs.zero fs.zeroQuick).Prepared l true (fun s => Hit l.spb fs.zeroQuick s ∨ Z s) base := by
  have hblocks := h.caches.descs_le
  have hhit (s : ℕ) : Hit l.spb fs.zeroQuick s ↔ l.Zeroed true s :=
    hit_zeroQuick hl hpos h.layout hblocks h.desc
  have hsize : fs.cache.bufsize = fs.layout.blocksize := by
    rw [h.layout, hl.blocksize, h.caches.ok.bufsize, h.caches.spb]
  obtain ⟨hok, hshown⟩ := h.caches.ok.zero hsize h.caches.spb fs.zeroQuick
  have hcaches : l.Caches l.Bitmap (fun s => Hit l.spb fs.zeroQuick s ∨ Z s) []
      (fs.zero fs.zeroQuick).cache := ⟨hok, h.caches.spb⟩
  refine ⟨h.layout, hcaches, h.desc, h.fresh, fun s => ?_, fun g hg s o hs => ?_, fun s o hs hno => ?_,
    fun hroom g hg => h.roomy hroom hg, hcaches.crowded hl⟩
  · rw [hhit]
    simp [hzeros s]
  · refine (hshown s o).trans ?_
    rw [hs, h.bitmap g hg s o hs]
    simp only [hhit, true_and]
    rfl
  · refine (hshown s o).trans ?_
    have hnone : fs.cache.bufs (s / l.spb) = none := by
      by_contra hsome
      rcases h.caches.ok.only _ hsome with hdesc | ⟨g, hg, heq⟩
      · exact hs hdesc
      · exact hno g hg heq
    rw [hnone, h.other s o hs hno]
    simp only [hhit, true_and]

theorem Filsys.Grouped.of_descs (fs : Filsys) {fs₁ : Filsys} (hl : l.Sound) (hpos : 0 < l.inodeBlocksPerGroup)
    (hok : fs.cache.Ok l.IsDesc Z cacheBuffers []) (hspb : fs.cache.blksPerBuffer = l.spb)
    (hdirty : fs.cache.dirty = []) (hlayout : fs.layout = l) (hdescs : fs.allocDescs = some fs₁)
    (hgroups : (List.range l.groupCount).foldlM Filsys.initGroup fs₁ = some fs') :
    fs'.Grouped l Z fs.cache.shown l.groupCount := by
  obtain ⟨hlayout₁, hcaches₁, hdirty₁, hfresh₁, hshown₁⟩ :=
    allocDescs_spec hok (fun _ hb => hb) hspb hdirty hlayout hdescs
  have hblocks := hcaches₁.descs_le
  have hcaches : l.Caches l.Bitmap Z [] fs₁.cache := by
    refine ⟨hcaches₁.ok.weaken (fun _ hb => .inl hb) fun b hb => ?_, hcaches₁.spb⟩
    rw [hcaches₁.spb]
    exact hl.meta_small hblocks (hl.cached_meta hb.cached)
  have hstart : fs₁.Grouped l Z fs.cache.shown 0 :=
    ⟨hlayout₁, hcaches, fun _ hg => absurd hg (Nat.not_lt_zero _), hfresh₁, fun _ => hdirty₁,
      fun s o hs _ => hshown₁ s o hs, fun _ hg => absurd hg (Nat.not_lt_zero _)⟩
  exact foldlM_range (P := fun i fs' => fs'.Grouped l Z fs.cache.shown i) hgroups hstart
    fun i fs fs' hi h hcall => h.step hl hpos hi hcall

theorem Filsys.prepared {sector : ℕ → ℕ → UInt8} {quick : Bool} {fs₁ fs₂ : Filsys} (hl : l.Sound)
    (hpos : 0 < l.inodeBlocksPerGroup)
    (hinit : Bufpool.init ⟨sector, []⟩ cacheBuffers l.blocksize = some fs.cache) (hlayout : fs.layout = l)
    (hdescs : (if quick = true then fs else fs.zero fs.zeroAll).allocDescs = some fs₁)
    (hgroups : (List.range l.groupCount).foldlM Filsys.initGroup fs₁ = some fs₂) :
    ∃ Z, (if quick = true then fs₂.zero fs₂.zeroQuick else fs₂).Prepared l quick Z sector := by
  obtain ⟨hok, hspb, hdirty, hshown⟩ :=
    init_ok hinit hl.blocksize hl.pos fun b hb => hl.desc_small hb
  rw [← Layout.spb] at hspb
  cases quick with
  | true =>
    have hgrouped := Filsys.Grouped.of_descs fs hl hpos hok hspb hdirty hlayout hdescs hgroups
    rw [show fs.cache.shown = sector from funext fun s => funext (hshown s)] at hgrouped
    exact ⟨_, hgrouped.prepared_quick hl hpos fun s => List.not_mem_nil⟩
  | false =>
    have hsize : fs.cache.bufsize = fs.layout.blocksize := by
      rw [hlayout, hl.blocksize, hok.bufsize, hspb]
    obtain ⟨hok', hshown'⟩ := hok.zero hsize hspb fs.zeroAll
    have hgrouped := Filsys.Grouped.of_descs (fs.zero fs.zeroAll) hl hpos hok' hspb hdirty hlayout
      hdescs hgroups
    refine ⟨_, hgrouped.prepared_full hl (fun s => ?_) fun s o => (hshown' s o).trans ?_⟩
    · rw [← hit_zeroAll hl hlayout]
      simp
    · have hnone : fs.cache.bufs (s / l.spb) = none := (hok.none_iff _).mpr ⟨by simp [hdirty], by simp⟩
      rw [hshown, hnone]
      simp only [hit_zeroAll hl hlayout, true_and]

end SimpleKernel.Mkdfs
