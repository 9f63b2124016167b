import SimpleKernel.Dfs.Group
import SimpleKernel.Lib.Bitmaps

/-! What `new_block` and `free_blocks` do to the bitmaps. -/
namespace SimpleKernel.Dfs

variable {bit : ℕ → Bool} {len start : ℕ}

theorem scanZero_spec (bit : ℕ → Bool) (n i : ℕ) : i ≤ scanZero bit n i ∧ scanZero bit n i ≤ i + n ∧
    (∀ k, i ≤ k → k < scanZero bit n i → bit k = true) ∧
    (scanZero bit n i < i + n → bit (scanZero bit n i) = false) := by
  induction n generalizing i with
  | zero => exact ⟨le_rfl, le_rfl, fun k hk hlt => absurd hlt (not_lt.mpr hk), fun h => absurd h (lt_irrefl _)⟩
  | succ n ih =>
    rw [scanZero]
    split
    · next hbit =>
      obtain ⟨hge, hle, hones, hzero⟩ := ih (i + 1)
      refine ⟨by omega, by omega, fun k hk hlt => ?_, fun hlt => hzero (by omega)⟩
      rcases hk.eq_or_lt with rfl | hlt'
      · exact hbit
      · exact hones k hlt' hlt
    · next hbit =>
      refine ⟨le_rfl, by omega, fun k hk hlt => absurd hlt (not_lt.mpr hk), fun _ => ?_⟩
      simpa using hbit

/-- The bit after the last one is clear where the last word is not full. -/
def TailClear (bit : ℕ → Bool) (len : ℕ) : Prop := len % 32 ≠ 0 → bit len = false

instance (bit : ℕ → Bool) (len : ℕ) : Decidable (TailClear bit len) :=
  inferInstanceAs (Decidable (_ → _))

/-- A clear bit of the bitmap, or its length if there is none. -/
def Found (bit : ℕ → Bool) (len r : ℕ) : Prop := r = len ∨ r < len ∧ bit r = false

theorem findFirstZeroBit_spec (ht : TailClear bit len) :
    Found bit len (findFirstZeroBit bit len) := by
  rw [findFirstZeroBit]
  split
  · next h0 => exact .inl h0.symm
  · obtain ⟨-, hle, hones, hzero⟩ := scanZero_spec bit (32 * ((len + 31) / 32)) 0
    set r := scanZero bit (32 * ((len + 31) / 32)) 0
    rcases Nat.lt_trichotomy r len with hlt | heq | hgt
    · exact .inr ⟨hlt, hzero (by omega)⟩
    · exact .inl heq
    · have hset := hones len (Nat.zero_le _) hgt
      have hmod : len % 32 = 0 := by
        by_contra hne
        simp [ht hne] at hset
      omega

theorem findNextZeroBit_spec (ht : TailClear bit len) (start : ℕ) :
    Found bit len (findNextZeroBit bit len start) := by
  -- the words from a boundary on
  have hwords (i : ℕ) (hi : i % 32 = 0) (hlen : i ≤ len) :
      Found bit len (i + findFirstZeroBit (fun k => bit (i + k)) (len - i)) := by
    have ht' : TailClear (fun k => bit (i + k)) (len - i) := by
      intro hne
      dsimp only
      rw [Nat.add_sub_cancel' hlen]
      exact ht (by omega)
    rcases findFirstZeroBit_spec ht' with heq | ⟨hlt, hbit⟩
    · left
      omega
    · exact .inr ⟨by omega, hbit⟩
  rw [findNextZeroBit]
  split
  · exact .inl rfl
  next hlt =>
    split
    · next hmod =>
      dsimp only
      obtain ⟨hge, -, hones, hzero⟩ := scanZero_spec bit (32 - start % 32) start
      set r := scanZero bit (32 - start % 32) start
      -- no word ends inside the rest of this one
      have hnot : r ≤ len ∨ start + (32 - start % 32) ≤ len := by
        by_contra hno
        have hset := hones len (by omega) (by omega)
        have hmod' : len % 32 = 0 := by
          by_contra hne
          simp [ht hne] at hset
        omega
      split
      · next hr =>
        rw [Nat.sub_add_cancel hge]
        rcases (show r ≤ len by omega).eq_or_lt with heq | hlt'
        · exact .inl heq
        · exact .inr ⟨hlt', hzero (by omega)⟩
      · next hr => exact hwords _ (by omega) (by omega)
    · next hmod => exact hwords start (by omega) (by omega)

namespace Filsys

/-- `b` is a block of one of the groups. -/
def InGroup (fs : Filsys) (b : ℕ) : Prop :=
  b / fs.blocksPerGroup < fs.groupCount ∧
    b % fs.blocksPerGroup < (fs.groups (b / fs.blocksPerGroup)).blockCount

/-- `b` is free in the bitmap of its group. -/
def Free (fs : Filsys) (b : ℕ) : Prop := fs.InGroup b ∧ fs.used b = false

/-- The groups are those of `create_filesystem`; block 0 is in use. A directory page has room for the
top directory. -/
structure Ok (fs : Filsys) : Prop where
  log : 4 ≤ fs.logBlkptrsPerBlock
  size : 0 < fs.blocksPerGroup
  small : fs.blockCount < 2 ^ 32
  count : ∀ g, g < fs.groupCount → (fs.groups g).blockCount =
    min fs.blocksPerGroup (fs.blockCount - g * fs.blocksPerGroup)
  tail : ∀ g, g < fs.groupCount → TailClear (fs.groups g).bitmap (fs.groups g).blockCount
  reserved : fs.used 0 = true

/-- The groups are cut out of the disk one after the other. -/
structure Grouped (fs : Filsys) : Prop where
  size : 0 < fs.blocksPerGroup
  small : fs.blockCount < 2 ^ 32
  count : ∀ g, g < fs.groupCount → (fs.groups g).blockCount =
    min fs.blocksPerGroup (fs.blockCount - g * fs.blocksPerGroup)
  tail : ∀ g, g < fs.groupCount → TailClear (fs.groups g).bitmap (fs.groups g).blockCount

theorem Ok.grouped {fs : Filsys} (h : fs.Ok) : fs.Grouped := ⟨h.size, h.small, h.count, h.tail⟩

/-- What the allocation of blocks does not change. -/
structure SameLayout (fs fs' : Filsys) : Prop where
  log : fs'.logBlkptrsPerBlock = fs.logBlkptrsPerBlock
  blockCount : fs'.blockCount = fs.blockCount
  blocksPerGroup : fs'.blocksPerGroup = fs.blocksPerGroup
  inodesPerGroup : fs'.inodesPerGroup = fs.inodesPerGroup
  groupCount : fs'.groupCount = fs.groupCount
  counts : ∀ g, (fs'.groups g).blockCount = (fs.groups g).blockCount

variable {fs fs' fs'' : Filsys} {b goal group block : ℕ}

theorem SameLayout.refl (fs : Filsys) : SameLayout fs fs := ⟨rfl, rfl, rfl, rfl, rfl, fun _ => rfl⟩

theorem SameLayout.trans (h : SameLayout fs fs') (h' : SameLayout fs' fs'') :
    SameLayout fs fs'' :=
  ⟨h'.log.trans h.log, h'.blockCount.trans h.blockCount, h'.blocksPerGroup.trans h.blocksPerGroup,
    h'.inodesPerGroup.trans h.inodesPerGroup, h'.groupCount.trans h.groupCount,
    fun g => (h'.counts g).trans (h.counts g)⟩

theorem SameLayout.inGroup (h : SameLayout fs fs') : fs'.InGroup b ↔ fs.InGroup b := by
  rw [InGroup, InGroup, h.blocksPerGroup, h.groupCount, h.counts]

theorem InGroup.lt_of_grouped (h : fs.InGroup b) (hgr : fs.Grouped) : b < fs.blockCount := by
  obtain ⟨hg, hb⟩ := h
  rw [hgr.count _ hg] at hb
  have hdiv := Nat.div_add_mod' b fs.blocksPerGroup
  omega

theorem InGroup.lt (h : fs.InGroup b) (hok : fs.Ok) : b < fs.blockCount :=
  h.lt_of_grouped hok.grouped

theorem InGroup.ne_noBlock (h : fs.InGroup b) (hok : fs.Ok) : b ≠ noBlock := by
  have hlt := h.lt hok
  have hsmall := hok.small
  rw [noBlock]
  omega

/-- The bit `block` of one group becomes `v`. -/
structure Flips (fs fs' : Filsys) (group block : ℕ) (v : Bool) : Prop where
  log : fs'.logBlkptrsPerBlock = fs.logBlkptrsPerBlock
  blockCount : fs'.blockCount = fs.blockCount
  blocksPerGroup : fs'.blocksPerGroup = fs.blocksPerGroup
  inodesPerGroup : fs'.inodesPerGroup = fs.inodesPerGroup
  groupCount : fs'.groupCount = fs.groupCount
  other : ∀ g, g ≠ group → fs'.groups g = fs.groups g
  count : (fs'.groups group).blockCount = (fs.groups group).blockCount
  bitmap : (fs'.groups group).bitmap = Function.update (fs.groups group).bitmap block v

namespace Flips
variable {v : Bool}

theorem layout (h : Flips fs fs' group block v) : SameLayout fs fs' := by
  refine ⟨h.log, h.blockCount, h.blocksPerGroup, h.inodesPerGroup, h.groupCount, fun g => ?_⟩
  rcases eq_or_ne g group with rfl | hne
  · exact h.count
  · rw [h.other g hne]

theorem used (h : Flips fs fs' group block v) (hblock : block < fs.blocksPerGroup) (x : ℕ) :
    fs'.used x = if x = block + group * fs.blocksPerGroup then v else fs.used x := by
  rw [Filsys.used, h.blocksPerGroup]
  refine Bitmaps.bit_of_update (fun g => (fs.groups g).bitmap)
    (fun g => (fs'.groups g).bitmap) hblock h.bitmap fun g hne => ?_
  rw [h.other g hne]

theorem grouped (h : Flips fs fs' group block v) (hgr : fs.Grouped)
    (hb : block < (fs.groups group).blockCount) : fs'.Grouped := by
  refine ⟨?_, ?_, fun g hg => ?_, fun g hg => ?_⟩
  · rw [h.blocksPerGroup]
    exact hgr.size
  · rw [h.blockCount]
    exact hgr.small
  · rw [h.groupCount] at hg
    rw [h.layout.counts, h.blocksPerGroup, h.blockCount]
    exact hgr.count g hg
  · rw [h.groupCount] at hg
    rw [h.layout.counts]
    rcases eq_or_ne g group with rfl | hne
    · intro hlen
      rw [h.bitmap, Function.update_of_ne hb.ne']
      exact hgr.tail g hg hlen
    · rw [h.other g hne]
      exact hgr.tail g hg

end Flips

/-- The free block `b` is taken. -/
structure Takes (fs fs' : Filsys) (b : ℕ) : Prop where
  ok : fs'.Ok
  free : fs.Free b
  used : ∀ x, fs'.used x = if x = b then true else fs.used x
  layout : SameLayout fs fs'
  page : fs'.page = fs.page
  freed : fs'.freed = fs.freed

theorem Takes.ne_zero (h : Takes fs fs' b) (hok : fs.Ok) : b ≠ 0 := by
  rintro rfl
  have hfree := h.free.2
  rw [hok.reserved] at hfree
  simp at hfree

theorem blockFound_flips (fs : Filsys) (group block : ℕ) :
    Flips fs (fs.blockFound group block).1 group block true := by
  refine ⟨rfl, rfl, rfl, rfl, rfl, fun g hne => ?_, ?_, ?_⟩
  · exact Function.update_of_ne hne _ _
  · simp [blockFound]
  · simp [blockFound]

theorem blockFound_free (hgr : fs.Grouped) (hg : group < fs.groupCount)
    (hb : block < (fs.groups group).blockCount) (hbit : (fs.groups group).bitmap block = false) :
    block < fs.blocksPerGroup ∧ fs.Free (fs.blockFound group block).2 ∧
      (fs.blockFound group block).2 = block + group * fs.blocksPerGroup := by
  have hcount := hgr.count group hg
  have hblock : block < fs.blocksPerGroup := hb.trans_le (hcount ▸ min_le_left _ _)
  have hdiv : (block + group * fs.blocksPerGroup) / fs.blocksPerGroup = group := by
    rw [Nat.add_mul_div_right _ _ hgr.size, Nat.div_eq_of_lt hblock, Nat.zero_add]
  have hmod : (block + group * fs.blocksPerGroup) % fs.blocksPerGroup = block := by
    rw [Nat.add_mul_mod_self_right, Nat.mod_eq_of_lt hblock]
  have hfree : fs.Free (block + group * fs.blocksPerGroup) := by
    refine ⟨?_, ?_⟩
    · rw [InGroup, hdiv, hmod]
      exact ⟨hg, hb⟩
    · rw [Filsys.used, hdiv, hmod]
      exact hbit
  have hres : (fs.blockFound group block).2 = block + group * fs.blocksPerGroup := by
    have hlt := hfree.1.lt_of_grouped hgr
    have hsmall := hgr.small
    exact word_of_lt (by omega)
  rw [hres]
  exact ⟨hblock, hfree, rfl⟩

theorem blockFound_takes (hok : fs.Ok) (hg : group < fs.groupCount)
    (hb : block < (fs.groups group).blockCount) (hbit : (fs.groups group).bitmap block = false) :
    Takes fs (fs.blockFound group block).1 (fs.blockFound group block).2 := by
  have hflips := blockFound_flips fs group block
  have hgr := hflips.grouped hok.grouped hb
  obtain ⟨hblock, hfree, hres⟩ := blockFound_free hok.grouped hg hb hbit
  have hused (x : ℕ) : (fs.blockFound group block).1.used x =
      if x = (fs.blockFound group block).2 then true else fs.used x := by
    rw [hres]
    exact hflips.used hblock x
  refine ⟨⟨hok.log, hgr.size, hgr.small, hgr.count, hgr.tail, ?_⟩, hfree, hused, hflips.layout, rfl,
    rfl⟩
  rw [hused]
  split
  · rfl
  · exact hok.reserved

theorem firstFree_spec {g : BlkGroup} (ht : TailClear g.bitmap g.blockCount) :
    (firstFree g).1.bitmap = g.bitmap ∧ (firstFree g).1.blockCount = g.blockCount ∧
      Found g.bitmap g.blockCount (firstFree g).2 := by
  rw [firstFree]
  split
  · exact ⟨rfl, rfl, findNextZeroBit_spec ht _⟩
  · exact ⟨rfl, rfl, findFirstZeroBit_spec ht⟩

/-- Only the hints differ. -/
structure Hinted (fs fs' : Filsys) : Prop where
  rest : fs' = { fs with groups := fs'.groups }
  group : ∀ g, fs'.groups g =
    { fs.groups g with firstFreeBlock := (fs'.groups g).firstFreeBlock }

theorem Hinted.refl (fs : Filsys) : Hinted fs fs := ⟨rfl, fun _ => rfl⟩

section
variable (h : Hinted fs fs')
include h

theorem Hinted.trans (h' : Hinted fs' fs'') : Hinted fs fs'' := by
  refine ⟨?_, fun g => ?_⟩
  · rw [h'.rest, h.rest]
  · rw [h'.group, h.group]

theorem Hinted.bitmap (g : ℕ) :
    (fs'.groups g).bitmap = (fs.groups g).bitmap := by
  rw [h.group]

theorem Hinted.layout : SameLayout fs fs' := by
  refine ⟨?_, ?_, ?_, ?_, ?_, fun g => ?_⟩
  · rw [h.rest]
  · rw [h.rest]
  · rw [h.rest]
  · rw [h.rest]
  · rw [h.rest]
  · rw [h.group]

theorem Hinted.used (x : ℕ) : fs'.used x = fs.used x := by
  rw [Filsys.used, h.layout.blocksPerGroup, h.bitmap]
  rfl

theorem Hinted.grouped (hgr : fs.Grouped) : fs'.Grouped := by
  have hl := h.layout
  refine ⟨?_, ?_, fun g hg => ?_, fun g hg => ?_⟩
  · rw [hl.blocksPerGroup]
    exact hgr.size
  · rw [hl.blockCount]
    exact hgr.small
  · rw [hl.groupCount] at hg
    rw [hl.counts, hl.blocksPerGroup, hl.blockCount]
    exact hgr.count g hg
  · rw [hl.groupCount] at hg
    rw [hl.counts, h.bitmap]
    exact hgr.tail g hg

theorem Hinted.ok (hok : fs.Ok) : fs'.Ok := by
  have hgr := h.grouped hok.grouped
  refine ⟨?_, hgr.size, hgr.small, hgr.count, hgr.tail, ?_⟩
  · rw [h.layout.log]
    exact hok.log
  · rw [h.used]
    exact hok.reserved

theorem Hinted.takes (ht : Takes fs' fs'' b) : Takes fs fs'' b := by
  refine ⟨ht.ok, ⟨h.layout.inGroup.mp ht.free.1, ?_⟩, fun x => ?_, h.layout.trans ht.layout, ?_, ?_⟩
  · rw [← h.used]
    exact ht.free.2
  · rw [ht.used, h.used]
  · rw [ht.page, h.rest]
  · rw [ht.freed, h.rest]

end

/-- What `new_block` can do. -/
inductive Allots (fs : Filsys) : Filsys × ℕ → Prop
  | full {fs' : Filsys} (h : Hinted fs fs') : Allots fs (fs', noBlock)
  | found {fs' : Filsys} {group block : ℕ} (h : Hinted fs fs') (hg : group < fs.groupCount)
      (hb : block < (fs.groups group).blockCount) (hbit : (fs.groups group).bitmap block = false) :
      Allots fs (fs'.blockFound group block)

theorem Hinted.allots {r : Filsys × ℕ} (h : Hinted fs fs') (ha : Allots fs' r) : Allots fs r := by
  cases ha with
  | full h' => exact .full (h.trans h')
  | found h' hg hb hbit =>
    refine .found (h.trans h') ?_ ?_ ?_
    · rwa [← h.layout.groupCount]
    · rwa [← h.layout.counts]
    · rwa [← h.bitmap]

theorem searchGroups_allots (n : ℕ) (hgr : fs.Grouped) (hg : group < fs.groupCount) :
    Allots fs (fs.searchGroups n group) := by
  induction n generalizing fs group with
  | zero => exact .full (.refl fs)
  | succ n ih =>
    have hnext : (if fs.groupCount ≤ group + 1 then 0 else group + 1) < fs.groupCount := by
      split <;> omega
    rw [searchGroups]
    dsimp only
    split
    · obtain ⟨-, -, hfound⟩ := firstFree_spec (hgr.tail group hg)
      have hhint : Hinted fs
          { fs with groups := Function.update fs.groups group (firstFree (fs.groups group)).1 } := by
        refine ⟨rfl, fun g => ?_⟩
        dsimp only
        rcases eq_or_ne g group with rfl | hne
        · rw [Function.update_self, firstFree]
          split <;> rfl
        · rw [Function.update_of_ne hne]
      split
      · next hne =>
        obtain ⟨hlt, hclear⟩ := hfound.resolve_left hne
        exact .found hhint hg hlt hclear
      · exact hhint.allots (ih (hhint.grouped hgr) hnext)
    · exact ih hgr hnext

theorem newBlock_defined :
    fs.newBlock goal ≠ none ↔
      (goal < fs.blockCount → goal / fs.blocksPerGroup < fs.groupCount) := by
  rw [newBlock]
  split
  · next hgoal =>
    dsimp only
    split
    · next hg => simp [hgoal, hg]
    · next hg =>
      constructor
      · exact fun _ _ => not_le.mp hg
      · split
        · simp
        · split <;> simp
  · next hgoal => simp [hgoal]

theorem newBlock_allots {r : Filsys × ℕ} (hgr : fs.Grouped) (h : fs.newBlock goal = some r) :
    Allots fs r := by
  rw [newBlock] at h
  split at h
  · next hgoal =>
    dsimp only at h
    split at h
    · simp at h
    next hg =>
      have hg : goal / fs.blocksPerGroup < fs.groupCount := not_le.mp hg
      have hcount := hgr.count _ hg
      have hin : goal % fs.blocksPerGroup < (fs.groups (goal / fs.blocksPerGroup)).blockCount := by
        rw [hcount]
        refine lt_min (Nat.mod_lt _ hgr.size) ?_
        have := Nat.div_add_mod' goal fs.blocksPerGroup
        omega
      split at h
      · next hclear =>
        obtain rfl := Option.some.inj h
        exact .found (.refl fs) hg hin hclear
      · split at h
        · next hne =>
          obtain ⟨hlt, hclear⟩ := (findNextZeroBit_spec (hgr.tail _ hg) _).resolve_left hne
          obtain rfl := Option.some.inj h
          exact .found (.refl fs) hg hlt hclear
        · obtain rfl := Option.some.inj h
          exact searchGroups_allots _ hgr hg
  · obtain rfl := Option.some.inj h
    rcases Nat.eq_zero_or_pos fs.groupCount with h0 | hpos
    · rw [h0]
      exact .full (.refl fs)
    · exact searchGroups_allots _ hgr hpos

theorem newBlock_takes (hok : fs.Ok) (h : fs.newBlock goal = some (fs', b)) (hb : b ≠ noBlock) :
    Takes fs fs' b := by
  generalize hr : (fs', b) = r at h
  have hallots := newBlock_allots hok.grouped h
  cases hallots with
  | full _ => exact absurd (Prod.mk.inj hr).2 hb
  | @found fs₁ group block hhint hg hlt hbit =>
    have htakes : Takes fs₁ (fs₁.blockFound group block).1 (fs₁.blockFound group block).2 := by
      refine blockFound_takes (hhint.ok hok) ?_ ?_ ?_
      · rwa [hhint.layout.groupCount]
      · rwa [hhint.layout.counts]
      · rwa [hhint.bitmap]
    rw [← hr] at htakes
    exact hhint.takes htakes

/-- Exactly the blocks `bs` are freed, one after the other. -/
structure Frees (fs fs' : Filsys) (bs : List ℕ) : Prop where
  ok : fs'.Ok
  used : ∀ x, fs'.used x = if x ∈ bs then false else fs.used x
  layout : SameLayout fs fs'
  page : fs'.page = fs.page
  freed : fs'.freed = bs.reverse ++ fs.freed

theorem Frees.refl (hok : fs.Ok) : Frees fs fs [] :=
  ⟨hok, fun _ => by simp, SameLayout.refl fs, rfl, rfl⟩

theorem Frees.trans {bs bs' : List ℕ} (h : Frees fs fs' bs) (h' : Frees fs' fs'' bs') :
    Frees fs fs'' (bs ++ bs') := by
  refine ⟨h'.ok, fun x => ?_, h.layout.trans h'.layout, h'.page.trans h.page, ?_⟩
  · rw [h'.used, h.used]
    by_cases hx : x ∈ bs'
    · simp [hx]
    · simp [hx]
  · rw [h'.freed, h.freed, List.reverse_append, List.append_assoc]

theorem freeBlock_flips (hg : b / fs.blocksPerGroup < fs.groupCount) :
    ∃ fs', fs.freeBlock b = some fs' ∧
      Flips fs fs' (b / fs.blocksPerGroup) (b % fs.blocksPerGroup) false ∧ fs'.page = fs.page ∧
      fs'.freed = b :: fs.freed ∧ fs'.freeBlockCount = word (fs.freeBlockCount + 1) ∧
      (fs'.groups (b / fs.blocksPerGroup)).freeBlockCount =
        word ((fs.groups (b / fs.blocksPerGroup)).freeBlockCount + 1) := by
  rw [freeBlock, if_neg (not_le.mpr hg)]
  refine ⟨_, rfl, ⟨rfl, rfl, rfl, rfl, rfl, fun g hne => ?_, ?_, ?_⟩, rfl, rfl, rfl, ?_⟩
  · exact Function.update_of_ne hne _ _
  · simp
  · simp
  · simp

theorem freeBlock_frees (hok : fs.Ok) (hb : fs.InGroup b) (h0 : b ≠ 0) :
    ∃ fs', fs.freeBlock b = some fs' ∧ Frees fs fs' [b] := by
  obtain ⟨hg, hlt⟩ := hb
  obtain ⟨fs', hfs', hflips, hpage, hfreed, -⟩ := freeBlock_flips hg
  have hself : b = b % fs.blocksPerGroup + b / fs.blocksPerGroup * fs.blocksPerGroup := by
    rw [Nat.add_comm, Nat.div_add_mod']
  have hgr := hflips.grouped hok.grouped hlt
  have hused (x : ℕ) : fs'.used x = if x ∈ [b] then false else fs.used x := by
    have := hflips.used (Nat.mod_lt _ hok.size) x
    rw [← hself] at this
    simpa using this
  refine ⟨fs', hfs', ⟨?_, hgr.size, hgr.small, hgr.count, hgr.tail, ?_⟩, hused, hflips.layout, hpage,
    hfreed⟩
  · rw [hflips.log]
    exact hok.log
  · rw [hused]
    simp [h0.symm, hok.reserved]

theorem freeBlocks_frees (bs : List ℕ) (hok : fs.Ok) (hbs : ∀ b ∈ bs, fs.InGroup b ∧ b ≠ 0) :
    ∃ fs', fs.freeBlocks bs = some fs' ∧ Frees fs fs' bs := by
  induction bs generalizing fs with
  | nil => exact ⟨fs, rfl, Frees.refl hok⟩
  | cons b bs ih =>
    obtain ⟨hin, h0⟩ := hbs b (List.mem_cons_self ..)
    obtain ⟨fs₁, hfs₁, hfree⟩ := freeBlock_frees hok hin h0
    have hrest : ∀ b' ∈ bs, fs₁.InGroup b' ∧ b' ≠ 0 := fun b' hb' => by
      rw [hfree.layout.inGroup]
      exact hbs b' (List.mem_cons_of_mem b hb')
    obtain ⟨fs₂, hfs₂, hfree'⟩ := ih hfree.ok hrest
    refine ⟨fs₂, ?_, hfree.trans hfree'⟩
    rw [freeBlocks, List.foldlM_cons, hfs₁]
    exact hfs₂

end Filsys

end SimpleKernel.Dfs
