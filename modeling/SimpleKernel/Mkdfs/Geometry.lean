import SimpleKernel.Mkdfs.Format

/-! Where the blocks of a new file system lie, and bitmaps of bytes. -/
namespace SimpleKernel.Mkdfs
open Dfs (word minus word_of_lt minus_of_le)

section Bits
variable {bitmap : ℕ → UInt8} {pos n len : ℕ}

theorem toNat_or_pow (x : UInt8) {k : ℕ} (hk : k < 8) :
    (UInt8.ofNat (x.toNat ||| 2 ^ k)).toNat = x.toNat ||| 2 ^ k := by
  apply Nat.mod_eq_of_lt
  exact Nat.or_lt_two_pow x.toNat_lt (Nat.pow_lt_pow_right (by decide) hk)

theorem testBit_setBit (bitmap : ℕ → UInt8) (pos n : ℕ) :
    testBit (setBit bitmap pos) n = (decide (n = pos) || testBit bitmap n) := by
  rw [testBit, testBit, setBit]
  by_cases hbyte : n / 8 = pos / 8
  · rw [hbyte, Function.update_self, toNat_or_pow _ (Nat.mod_lt _ (by decide)), Nat.testBit_or,
      Nat.testBit_two_pow, Bool.or_comm]
    congr 1
    rw [decide_eq_decide]
    omega
  · rw [Function.update_of_ne hbyte, decide_eq_false (by rintro rfl; exact hbyte rfl), Bool.false_or]

theorem testBit_setBits (bitmap : ℕ → UInt8) (pos len n : ℕ) :
    testBit (setBits bitmap pos len) n = (decide (pos ≤ n ∧ n < pos + len) || testBit bitmap n) := by
  rw [setBits]
  induction len generalizing pos bitmap with
  | zero =>
    rw [List.range'_zero, List.foldl_nil, decide_eq_false (by omega), Bool.false_or]
  | succ len ih =>
    rw [List.range'_succ, List.foldl_cons, ih, testBit_setBit, ← Bool.or_assoc]
    congr 1
    rw [← Bool.decide_or, decide_eq_decide]
    omega

theorem testBit_zero (n : ℕ) : testBit (fun _ => 0) n = false := by simp [testBit]

theorem testBit_congr {data data' : ℕ → UInt8} {size : ℕ} (h : ∀ k, k < size → data k = data' k)
    (hn : n < 8 * size) : testBit data n = testBit data' n := by
  rw [testBit, testBit, h _ (by omega)]

end Bits

namespace Layout

/-- The sectors of a block. -/
def spb (l : Layout) : ℕ := l.blocksize / sectorSize

/-- The bytes of block `b`, when the sectors have the bytes `sector`. -/
def block (l : Layout) (sector : ℕ → ℕ → UInt8) (b k : ℕ) : UInt8 :=
  sector (b * l.spb + k / sectorSize) (k % sectorSize)

/-- What holds of the numbers that are computed first. -/
structure Sound (l : Layout) : Prop where
  pos : 0 < l.spb
  blocksize : l.blocksize = sectorSize * l.spb
  small : l.blocksize < 2 ^ 21
  group : l.blocksPerGroup = 8 * l.blocksize
  sectors : l.blockCount * l.spb < 2 ^ 32
  inodes : l.inodesPerGroup ≤ 8 * l.blocksize
  table : l.inodeBlocksPerGroup ≤ 1024
  table_pos : 0 < l.inodesPerGroup → 0 < l.inodeBlocksPerGroup
  groups : 0 < l.groupCount
  fits : ∀ g, g < l.groupCount →
    l.blocksPerGroup * g + 2 + l.inodeBlocksPerGroup ≤ l.blockCount
  descs : ∀ g, g < l.groupCount → g / l.groupdescsPerBlock < l.groupdescBlocks
  descBlocks : l.groupdescBlocks < 2 ^ 17
  descBlocks_le : l.groupdescBlocks ≤ l.groupCount + 1
  descTable : 17 ≤ l.groupdescTableBlock ∧ l.groupdescTableBlock ≤ 18

end Layout

theorem groups_fit {blocks size tail g : ℕ} (hsize : tail + 2 ≤ size)
    (hg : g < if 0 < blocks % size ∧ blocks % size < tail + 2 then (blocks + size - 1) / size - 1
      else (blocks + size - 1) / size) : size * g + 2 + tail ≤ blocks := by
  have hpos : 0 < size := by omega
  have hdiv := Nat.div_add_mod blocks size
  have hmod := Nat.mod_lt blocks hpos
  have hgroups : (blocks + size - 1) / size = blocks / size + if blocks % size = 0 then 0 else 1 := by
    generalize hq : blocks / size = q at hdiv ⊢
    generalize hr : blocks % size = r at hdiv hmod ⊢
    rw [← hdiv]
    split
    · next hzero =>
      subst hzero
      rw [show size * q + 0 + size - 1 = size - 1 + size * q by omega, Nat.add_mul_div_left _ _ hpos,
        Nat.div_eq_of_lt (by omega)]
      omega
    · next hne =>
      rw [show size * q + r + size - 1 = r - 1 + size * (q + 1) by rw [Nat.mul_succ]; omega,
        Nat.add_mul_div_left _ _ hpos, Nat.div_eq_of_lt (by omega)]
      omega
  rw [hgroups] at hg
  -- a group below the last full one
  have hfull (h : g < blocks / size) : size * g + 2 + tail ≤ blocks := by
    have := Nat.mul_le_mul_left size (Nat.succ_le_of_lt h)
    rw [Nat.mul_succ] at this
    omega
  by_cases hlt : g < blocks / size
  · exact hfull hlt
  · have heq : g = blocks / size := by
      split at hg <;> split at hg <;> omega
    have hlast : ¬ (blocks % size < tail + 2) := by
      intro hsmall
      split at hg
      · split at hg <;> omega
      · next hno =>
        split at hg
        · omega
        · next hne => exact hno ⟨by omega, hsmall⟩
    rw [heq]
    omega

theorem layout_sound {devsize blocksize ratio k : ℕ} {l : Layout}
    (hl : layout devsize blocksize ratio = some l) (hbs : blocksize = 2 ^ k) (hk : 9 ≤ k)
    (hsmall : cacheBuffers * blocksize < 2 ^ 31) (hdev : devsize < 2 ^ 32)
    (hdescs : l.groupCount ≤ l.groupdescBlocks * l.groupdescsPerBlock) :
    l.Sound ∧ l.blocksize = blocksize := by
  have hbuffers : cacheBuffers = 1024 := rfl
  rw [hbuffers] at hsmall
  obtain ⟨S, hS, hspos⟩ : ∃ S, blocksize = sectorSize * S ∧ 0 < S := by
    refine ⟨2 ^ (k - 9), ?_, Nat.pow_pos (by decide)⟩
    rw [hbs, show sectorSize = 2 ^ 9 from rfl, ← Nat.pow_add]
    congr 1
    omega
  have hdiv : blocksize / sectorSize = S := by
    rw [hS, Nat.mul_div_cancel_left _ (by decide)]
  have hsector : sectorSize = 512 := rfl
  have hbpg : word (blocksize * 8) = 8 * blocksize := by
    rw [word_of_lt (by omega), Nat.mul_comm]
  have hcount : devsize / S * S ≤ devsize := Nat.div_mul_le_self devsize S
  have hcount_le : devsize / S ≤ devsize := Nat.div_le_self devsize S
  rw [layout, hbpg, hdiv] at hl
  generalize word (blocksize * if 8 * blocksize < devsize / S then 8 * blocksize else devsize / S) /
    ratio = quota at hl
  generalize hinodes : (if blocksize * 8 < quota then blocksize * 8 else quota) = inodes at hl
  have hinodes_le : inodes ≤ 8 * blocksize := by
    rw [← hinodes]
    split
    · omega
    · omega
  have hlow : 512 ≤ blocksize := by
    rw [hS, hsector]
    omega
  have hbpos : 0 < blocksize := by omega
  generalize htable : (inodes * inodedescSize + blocksize - 1) / blocksize = table at hl
  have hsize : inodedescSize = 128 := rfl
  have htable_le : table ≤ 1024 := by
    rw [← htable]
    apply Nat.le_of_lt_succ
    rw [Nat.div_lt_iff_lt_mul hbpos, hsize]
    omega
  have htable_pos (hpos : 0 < inodes) : 0 < table := by
    rw [← htable]
    apply Nat.div_pos _ hbpos
    rw [hsize]
    omega
  generalize hgroups : word (devsize / S + 8 * blocksize - 1) / (8 * blocksize) = groups at hl
  generalize hcountEq : (if 0 < devsize / S % (8 * blocksize) ∧ devsize / S % (8 * blocksize) < table + 2
    then minus groups 1 else groups) = count at hl
  by_cases hok : ratio = 0 ∨ count = 0
  · rw [if_pos hok] at hl
    simp at hl
  rw [if_neg hok] at hl
  obtain rfl := Option.some.inj hl
  obtain ⟨-, hgc⟩ := not_or.mp hok
  have hper : 0 < blocksize / groupdescSize := by
    apply Nat.div_pos _ (by decide)
    show 32 ≤ blocksize
    omega
  have hpos : groups ≠ 0 := by
    rintro rfl
    have hnone : (0 * groupdescSize + blocksize - 1) / blocksize = 0 :=
      Nat.div_eq_of_lt (by omega)
    rw [hnone, Nat.zero_mul] at hdescs
    exact hgc (Nat.le_zero.mp hdescs)
  -- the sum does not overflow: otherwise there were no groups
  have hroom : devsize / S + 8 * blocksize - 1 < 2 ^ 32 := by
    by_contra hover
    have hword : word (devsize / S + 8 * blocksize - 1) = devsize / S + 8 * blocksize - 1 - 2 ^ 32 := by
      rw [word, if_neg hover]
      omega
    rw [Nat.div_eq_of_lt (by omega)] at hgroups
    exact hpos hgroups.symm
  rw [word_of_lt hroom] at hgroups
  rw [minus_of_le (Nat.pos_of_ne_zero hpos)] at hcountEq
  have hgroups_le : groups ≤ 2 ^ 20 := by
    rw [← hgroups]
    apply Nat.div_le_of_le_mul
    calc devsize / S + 8 * blocksize - 1 ≤ 8 * 512 * 2 ^ 20 := by omega
      _ ≤ 8 * blocksize * 2 ^ 20 := by gcongr
  refine ⟨⟨?_, ?_, ?_, rfl, ?_, hinodes_le, htable_le, htable_pos, Nat.pos_of_ne_zero hgc, ?_, ?_, ?_,
    ?_, ?_⟩, rfl⟩
  · show 0 < blocksize / sectorSize
    rwa [hdiv]
  · show blocksize = sectorSize * (blocksize / sectorSize)
    rwa [hdiv]
  · show blocksize < 2 ^ 21
    omega
  · show devsize / S * (blocksize / sectorSize) < 2 ^ 32
    rw [hdiv]
    omega
  · intro g hg
    dsimp only at hg ⊢
    rw [← hcountEq, ← hgroups] at hg
    exact groups_fit (by omega) hg
  · intro g hg
    exact (Nat.div_lt_iff_lt_mul hper).mpr (hg.trans_le hdescs)
  · have hdesc : groupdescSize = 32 := rfl
    rw [Nat.div_lt_iff_lt_mul hbpos, hdesc]
    omega
  · have hdesc : groupdescSize = 32 := rfl
    have hle : (groups * groupdescSize + blocksize - 1) / blocksize ≤ groups := by
      apply Nat.le_of_lt_succ
      rw [Nat.div_lt_iff_lt_mul hbpos, hdesc, Nat.succ_mul]
      have := Nat.mul_le_mul_left groups (show 32 ≤ blocksize by omega)
      omega
    dsimp only
    rw [← hcountEq]
    split
    · omega
    · omega
  · have hreserved : reservedBlocks = 16 := rfl
    dsimp only
    split
    · omega
    · omega

/-- The sector `s` is in one of the blocks of `count` sectors that start at the sectors `blknos`. -/
def Hit (count : ℕ) (blknos : List ℕ) (s : ℕ) : Prop := ∃ b ∈ blknos, b ≤ s ∧ s < b + count

instance (count : ℕ) (blknos : List ℕ) (s : ℕ) : Decidable (Hit count blknos s) := by
  unfold Hit
  infer_instance

theorem hit_range {count start n s : ℕ} (hcount : 0 < count) :
    Hit count (List.range' start n) s ↔ 0 < n ∧ start ≤ s ∧ s < start + n - 1 + count := by
  constructor
  · rintro ⟨b, hb, hle, hlt⟩
    rw [List.mem_range'_1] at hb
    omega
  · rintro ⟨hn, hle, hlt⟩
    refine ⟨min s (start + n - 1), ?_, by omega, by omega⟩
    rw [List.mem_range'_1]
    omega

theorem Device.zero_spec (d : Device) (blocksize : ℕ) (blknos : List ℕ) :
    (∀ s o, (d.zero blocksize blknos).sector s o =
      if Hit (blocksize / sectorSize) blknos s then 0 else d.sector s o) ∧
    ∀ s, s ∈ (d.zero blocksize blknos).written ↔
      Hit (blocksize / sectorSize) blknos s ∨ s ∈ d.written := by
  induction blknos generalizing d with
  | nil =>
    refine ⟨fun s o => ?_, fun s => ?_⟩
    · rfl
    · constructor
      · exact .inr
      · rintro (⟨b, hb, -⟩ | h)
        · simp at hb
        · exact h
  | cons b bs ih =>
    obtain ⟨hsector, hwritten⟩ := ih (d.write (fun _ => 0) blocksize b)
    have hcons (s : ℕ) : Hit (blocksize / sectorSize) (b :: bs) s ↔
        (b ≤ s ∧ s < b + blocksize / sectorSize) ∨ Hit (blocksize / sectorSize) bs s := by
      rw [Hit, Hit, List.exists_mem_cons_iff]
    refine ⟨fun s o => (hsector s o).trans ?_, fun s => (hwritten s).trans ?_⟩
    · simp only [hcons, Device.write]
      by_cases hbs : Hit (blocksize / sectorSize) bs s
      · rw [if_pos hbs, if_pos (.inr hbs)]
      · rw [if_neg hbs]
        by_cases hb : b ≤ s ∧ s < b + blocksize / sectorSize
        · rw [if_pos hb, if_pos (.inl hb)]
        · rw [if_neg hb, if_neg (not_or.mpr ⟨hb, hbs⟩)]
    · rw [hcons, Device.write, List.mem_append, List.mem_range'_1]
      constructor
      · rintro (h | h | h)
        · exact .inl (.inr h)
        · exact .inl (.inl h)
        · exact .inr h
      · rintro ((h | h) | h)
        · exact .inr (.inl h)
        · exact .inl h
        · exact .inr (.inr h)

namespace Layout

/-- The block bitmap of a group; the inode bitmap and the inode table follow. -/
def first (l : Layout) (g : ℕ) : ℕ := l.blocksPerGroup * g + l.front g

/-- The blocks in front of the data of each group: the super block, the reserved blocks and the
descriptors in the first one, the bitmaps and the inode table in all. -/
def Meta (l : Layout) (b : ℕ) : Prop :=
  ∃ g, g < l.groupCount ∧ l.blocksPerGroup * g ≤ b ∧ b < l.first g + 2 + l.inodeBlocksPerGroup

/-- The block holds descriptors. -/
def IsDesc (l : Layout) (b : ℕ) : Prop :=
  l.groupdescTableBlock ≤ b ∧ b < l.groupdescTableBlock + l.groupdescBlocks

end Layout

namespace Layout.Sound
variable {l : Layout} {g g' b x x' : ℕ}

theorem meta_lt (h : l.Sound) (hblocks : l.groupdescBlocks ≤ 1024) (g : ℕ) :
    l.front g + 2 + l.inodeBlocksPerGroup < 4096 := by
  have htable := h.table
  have hdesc := h.descTable
  rw [Layout.front]
  split
  · omega
  · omega

theorem group_ge (h : l.Sound) : 4096 ≤ l.blocksPerGroup := by
  have hpos := h.pos
  have hsector : sectorSize = 512 := rfl
  rw [h.group, h.blocksize, hsector]
  omega

theorem offset_unique (h : l.Sound) (hx : x < 4096) (hx' : x' < 4096)
    (heq : l.blocksPerGroup * g + x = l.blocksPerGroup * g' + x') : g = g' ∧ x = x' := by
  have hsize := h.group_ge
  have hdiv (g x : ℕ) (hx : x < 4096) : (l.blocksPerGroup * g + x) / l.blocksPerGroup = g := by
    rw [Nat.mul_add_div (by omega), Nat.div_eq_of_lt (by omega), Nat.add_zero]
  have hg : g = g' := by
    rw [← hdiv g x hx, heq, hdiv g' x' hx']
  subst hg
  exact ⟨rfl, by omega⟩

theorem spb_le (h : l.Sound) : l.spb < 4096 := by
  have hsmall := h.small
  have hblocksize := h.blocksize
  have hsector : sectorSize = 512 := rfl
  rw [hsector] at hblocksize
  omega

theorem desc_small (h : l.Sound) (hb : l.IsDesc b) : (b + 1) * l.spb ≤ 2 ^ 32 := by
  have hblocks := h.descBlocks
  have htable := h.descTable
  obtain ⟨-, hlt⟩ := hb
  calc (b + 1) * l.spb ≤ 2 ^ 18 * 4096 := Nat.mul_le_mul (by omega) h.spb_le.le
    _ ≤ 2 ^ 32 := by decide

theorem meta_small (h : l.Sound) (hblocks : l.groupdescBlocks ≤ 1024) (hb : l.Meta b) :
    (b + 1) * l.spb ≤ 2 ^ 32 := by
  obtain ⟨g, hg, -, hlt⟩ := hb
  have hspb := h.spb_le
  have hmeta := h.meta_lt hblocks g
  rw [Layout.first] at hlt
  rcases Nat.eq_zero_or_pos g with rfl | hpos
  · calc (b + 1) * l.spb ≤ 4096 * 4096 := Nat.mul_le_mul (by omega) hspb.le
      _ ≤ 2 ^ 32 := by decide
  · have hfits := h.fits g hg
    rw [Layout.front, if_neg hpos.ne'] at hlt
    calc (b + 1) * l.spb ≤ l.blockCount * l.spb := Nat.mul_le_mul_right _ (by omega)
      _ ≤ 2 ^ 32 := h.sectors.le

theorem meta_lt_word (h : l.Sound) (hblocks : l.groupdescBlocks ≤ 1024) (hb : l.Meta b) : b < 2 ^ 32 := by
  have hsmall := h.meta_small hblocks hb
  have hle := Nat.mul_le_mul_left (b + 1) h.pos
  omega

theorem meta_of_le (hg : g < l.groupCount) (hx : x < l.front g + 2 + l.inodeBlocksPerGroup) :
    l.Meta (l.blocksPerGroup * g + x) := by
  refine ⟨g, hg, Nat.le_add_right _ _, ?_⟩
  rw [Layout.first]
  omega

theorem meta_first (hg : g < l.groupCount) (hx : x < 2 + l.inodeBlocksPerGroup) :
    l.Meta (l.first g + x) := by
  rw [Layout.first, Nat.add_assoc]
  exact meta_of_le hg (by omega)

theorem meta_desc (h : l.Sound) (hb : l.IsDesc b) : l.Meta b := by
  obtain ⟨-, hlt⟩ := hb
  have hmeta := meta_of_le (x := b) h.groups (by rw [Layout.front, if_pos rfl]; omega)
  rwa [Nat.mul_zero, Nat.zero_add] at hmeta

theorem isDesc_descBlock (h : l.Sound) (hg : g < l.groupCount) : l.IsDesc (l.descBlock g) := by
  have hdesc := h.descs g hg
  rw [Layout.descBlock]
  exact ⟨Nat.le_add_right _ _, by omega⟩

theorem first_unique (h : l.Sound) (hblocks : l.groupdescBlocks ≤ 1024)
    (hx : x < 2 + l.inodeBlocksPerGroup) (hx' : x' < 2 + l.inodeBlocksPerGroup)
    (heq : l.first g + x = l.first g' + x') : g = g' ∧ x = x' := by
  have hmeta := h.meta_lt hblocks g
  have hmeta' := h.meta_lt hblocks g'
  rw [Layout.first, Layout.first, Nat.add_assoc, Nat.add_assoc] at heq
  obtain ⟨rfl, -⟩ := h.offset_unique (by omega) (by omega) heq
  exact ⟨rfl, by omega⟩

theorem first_inj (h : l.Sound) (hblocks : l.groupdescBlocks ≤ 1024) (heq : l.first g = l.first g') :
    g = g' :=
  (h.first_unique hblocks (Nat.add_pos_left (by decide) _) (Nat.add_pos_left (by decide) _) heq).1

theorem not_isDesc (h : l.Sound) (hblocks : l.groupdescBlocks ≤ 1024) (g x : ℕ) :
    ¬ l.IsDesc (l.first g + x) := by
  rintro ⟨-, hlt⟩
  have hdesc := h.descTable
  rw [Layout.first] at hlt
  rcases Nat.eq_zero_or_pos g with rfl | hpos
  · rw [Layout.front, if_pos rfl] at hlt
    omega
  · have hsize := h.group_ge
    have := Nat.mul_le_mul_left l.blocksPerGroup hpos
    omega

theorem newDesc_blocks (h : l.Sound) (hblocks : l.groupdescBlocks ≤ 1024) (hg : g < l.groupCount)
    (hpos : 0 < l.inodeBlocksPerGroup) :
    (l.newDesc g).blockBitmapBlock = l.first g ∧ (l.newDesc g).inodeBitmapBlock = l.first g + 1 ∧
      (l.newDesc g).inodeTableBlock = l.first g + 2 := by
  have hlt {x : ℕ} (hx : x < 2 + l.inodeBlocksPerGroup) : l.first g + x < 2 ^ 32 :=
    h.meta_lt_word hblocks (meta_first hg hx)
  have hfirst : word (l.blocksPerGroup * g) = l.blocksPerGroup * g := by
    apply word_of_lt
    have := hlt (x := 0) (by omega)
    rw [Layout.first] at this
    omega
  dsimp only [Layout.newDesc]
  rw [hfirst, ← Nat.add_assoc, ← Nat.add_assoc]
  exact ⟨word_of_lt (hlt (x := 0) (by omega)), word_of_lt (hlt (by omega)), word_of_lt (hlt (by omega))⟩

end Layout.Sound

end SimpleKernel.Mkdfs
