import SimpleKernel.Dfs.Blocks
import SimpleKernel.Mkdfs.Formatting

/-! The first inodes of a file system are reserved in the inode bitmaps, which are read from the device. -/
namespace SimpleKernel.Mkdfs
open Dfs (word minus word_of_lt minus_of_le findNextZeroBit findFirstZeroBit)

theorem findNextZeroBit_le (bit : ℕ → Bool) (len start : ℕ) : findNextZeroBit bit len start ≤ len + 31 := by
  have hfirst (bit : ℕ → Bool) (len : ℕ) : findFirstZeroBit bit len ≤ len + 31 := by
    rw [findFirstZeroBit]
    split
    · omega
    · obtain ⟨-, hle, -⟩ := Dfs.scanZero_spec bit (32 * ((len + 31) / 32)) 0
      omega
  rw [findNextZeroBit]
  split
  · omega
  · split
    · dsimp only
      split
      · omega
      · have := hfirst (fun i => bit (start + (32 - start % 32) + i)) (len - (start + (32 - start % 32)))
        by_cases hlen : start + (32 - start % 32) ≤ len
        · omega
        · rw [show len - (start + (32 - start % 32)) = 0 by omega, findFirstZeroBit, if_pos rfl]
          omega
    · have := hfirst (fun i => bit (start + i)) (len - start)
      omega

namespace Layout
variable {l : Layout} {g i : ℕ}

/-- The number of inodes in use in a group, when there are `i` altogether. -/
def usedInodes (l : Layout) (g i : ℕ) : ℕ := min l.inodesPerGroup (i - l.inodesPerGroup * g)

theorem usedInodes_le (g i : ℕ) : l.usedInodes g i ≤ l.inodesPerGroup := Nat.min_le_left _ _

theorem usedInodes_zero (g : ℕ) : l.usedInodes g 0 = 0 := by
  rw [usedInodes, Nat.zero_sub, Nat.min_zero]

theorem usedInodes_of_lt (hg : g < i / l.inodesPerGroup) : l.usedInodes g i = l.inodesPerGroup := by
  have hle := Nat.mul_le_mul_left l.inodesPerGroup (Nat.succ_le_of_lt hg)
  rw [Nat.mul_succ] at hle
  have hdiv := Nat.mul_div_le i l.inodesPerGroup
  rw [usedInodes]
  omega

theorem usedInodes_div (hpos : 0 < l.inodesPerGroup) :
    l.usedInodes (i / l.inodesPerGroup) i = i - l.inodesPerGroup * (i / l.inodesPerGroup) ∧
      l.usedInodes (i / l.inodesPerGroup) i < l.inodesPerGroup := by
  have hdiv := Nat.div_add_mod i l.inodesPerGroup
  have hmod := Nat.mod_lt i hpos
  rw [usedInodes]
  omega

theorem usedInodes_succ (hpos : 0 < l.inodesPerGroup) (g i : ℕ) : l.usedInodes g (i + 1) =
    if g = i / l.inodesPerGroup then l.usedInodes g i + 1 else l.usedInodes g i := by
  have hdiv := Nat.div_add_mod i l.inodesPerGroup
  have hmod := Nat.mod_lt i hpos
  rw [usedInodes, usedInodes]
  rcases Nat.lt_trichotomy g (i / l.inodesPerGroup) with hlt | rfl | hgt
  · have hle := Nat.mul_le_mul_left l.inodesPerGroup (Nat.succ_le_of_lt hlt)
    rw [Nat.mul_succ] at hle
    rw [if_neg hlt.ne]
    omega
  · rw [if_pos rfl]
    omega
  · have hle := Nat.mul_le_mul_left l.inodesPerGroup (Nat.succ_le_of_lt hgt)
    rw [Nat.mul_succ] at hle
    rw [if_neg hgt.ne']
    omega

end Layout

section Blocks
variable {l : Layout} {sector : ℕ → ℕ → UInt8} {bytes : ℕ → UInt8} {b k n : ℕ}

theorem Layout.block_sector (hl : l.Sound) (hk : k < l.blocksize) :
    (b * l.spb + k / sectorSize) / l.spb = b ∧ (b * l.spb + k / sectorSize) % l.spb = k / sectorSize := by
  have hlt : k / sectorSize < l.spb := by
    rw [Nat.div_lt_iff_lt_mul (by decide), Nat.mul_comm, ← hl.blocksize]
    exact hk
  rw [Nat.add_comm, Nat.add_mul_div_right _ _ hl.pos, Nat.div_eq_of_lt hlt, Nat.zero_add,
    Nat.add_mul_mod_self_right, Nat.mod_eq_of_lt hlt]
  exact ⟨rfl, rfl⟩

theorem Layout.block_eq (hl : l.Sound) (hk : k < l.blocksize)
    (h : ∀ s o, o < sectorSize → s / l.spb = b → sector s o = bytes (s % l.spb * sectorSize + o)) :
    l.block sector b k = bytes k := by
  obtain ⟨hdiv, hmod⟩ := Layout.block_sector hl hk
  rw [Layout.block, h _ _ (Nat.mod_lt k (by decide)) hdiv, hmod, Nat.div_add_mod']

theorem Layout.block_congr {sector' : ℕ → ℕ → UInt8} (hl : l.Sound) (hk : k < l.blocksize)
    (h : ∀ s o, o < sectorSize → s / l.spb = b → sector s o = sector' s o) :
    l.block sector b k = l.block sector' b k :=
  h _ _ (Nat.mod_lt k (by decide)) (Layout.block_sector hl hk).1

end Blocks

/-- The first `i` inodes are in use; all else but the descriptors is as in `base`. -/
structure Filsys.Reserved (fs : Filsys) (l : Layout) (Z : ℕ → Prop) (base : ℕ → ℕ → UInt8) (i : ℕ) :
    Prop where
  layout : fs.layout = l
  caches : l.Caches l.Cached Z [] fs.cache
  inodeBitmap : ∀ g, g < l.groupCount → (fs.groups g).desc.inodeBitmapBlock = l.first g + 1
  inodeTable : ∀ g, g < l.groupCount → (fs.groups g).desc.inodeTableBlock = l.first g + 2
  free : ∀ g, g < l.groupCount →
    (fs.groups g).desc.freeInodeCount = l.inodesPerGroup - l.usedInodes g i
  next : ∀ g, g < l.groupCount → (fs.groups g).firstFreeInode = l.usedInodes g i
  super : 0 < i → fs.superDirty = true
  other : ∀ s o, o < sectorSize → ¬ l.IsDesc (s / l.spb) →
    (∀ g, g < l.groupCount → s / l.spb ≠ l.first g + 1) → fs.cache.shown s o = base s o
  bitmap : ∀ g, g < l.groupCount → ∀ n, n < 8 * l.blocksize →
    testBit (l.block fs.cache.shown (l.first g + 1)) n =
      (decide (n < l.usedInodes g i) || testBit (l.block base (l.first g + 1)) n)

section Search
variable {fs : Filsys} {q n group : ℕ}

theorem Filsys.findGroup_lt (n : ℕ) (hgroup : group < fs.layout.groupCount) :
    fs.findGroup n group < fs.layout.groupCount := by
  induction n generalizing group with
  | zero => exact hgroup
  | succ n ih =>
    rw [Filsys.findGroup]
    split
    · exact hgroup
    · apply ih
      split
      · omega
      · omega

theorem Filsys.findGroup_eq (hq : q < fs.layout.groupCount)
    (hfull : ∀ g, g < q → (fs.groups g).desc.freeInodeCount = 0)
    (hfree : (fs.groups q).desc.freeInodeCount ≠ 0) (hle : group ≤ q) (hn : q < group + n) :
    fs.findGroup n group = q := by
  induction n generalizing group with
  | zero => omega
  | succ n ih =>
    rw [Filsys.findGroup]
    rcases hle.lt_or_eq with hlt | rfl
    · rw [if_neg (not_not.mpr (hfull group hlt)), if_neg (by omega)]
      exact ih (by omega) (by omega)
    · rw [if_pos hfree]

end Search

theorem Filsys.useInode_spec {l : Layout} {M Z : ℕ → Prop} {fs : Filsys} {p : Bufpool} {b q : ℕ}
    (hl : l.Sound) (hlayout : fs.layout = l) (hq : q < l.groupCount)
    (hb : (fs.groups q).desc.inodeBitmapBlock = b) (hok : p.Ok M Z cacheBuffers (b :: l.descList))
    (hspb : p.blksPerBuffer = l.spb) (ino first : ℕ) :
    (fs.useInode p q ino first).layout = l ∧ l.Caches M Z [b] (fs.useInode p q ino first).cache ∧
      (fs.useInode p q ino first).cache.Updated b ∧
      ∀ s o, ¬ l.IsDesc (s / l.spb) → (fs.useInode p q ino first).cache.shown s o =
        if s / l.spb = b then setBit (p.data b) ino (s % l.spb * sectorSize + o) else p.shown s o := by
  have hmem : b ∈ b :: l.descList := List.mem_cons_self
  obtain ⟨hok₁, -, hspb₁, hshown₁, -⟩ := hok.setData hmem (setBit (p.data b) ino)
  obtain ⟨hok₂, -, hspb₂, hshown₂, hupdated₂, -⟩ := hok₁.markUpdated hmem
  rw [hspb] at hshown₁
  rw [Filsys.useInode, hb]
  generalize hfs₂ : ({ fs with
    cache := (p.setData b (setBit (p.data b) ino)).markUpdated b
    freeInodeCount := minus fs.freeInodeCount 1
    superDirty := true
    groups := Function.update fs.groups q { fs.groups q with
      firstFreeInode := if first = ino then word (ino + 1) else first } } : Filsys) = fs₂
  have hcache₂ : fs₂.cache = (p.setData b (setBit (p.data b) ino)).markUpdated b := by rw [← hfs₂]
  have hlayout₂ : fs₂.layout = l := by rw [← hfs₂, ← hlayout]
  rw [← hcache₂] at hok₂ hspb₂ hshown₂ hupdated₂
  have hcaches₂ : l.Caches M Z [b] fs₂.cache := ⟨hok₂, hspb₂.trans (hspb₁.trans hspb)⟩
  -- the descriptor is in another buffer
  have hput (gd : Groupdesc) := Layout.Caches.putDesc fs₂ hcaches₂ hl hlayout₂ hq gd
  have hmark (gd : Groupdesc) :=
    Layout.Caches.markGroupDescDirty (fs₂.putDesc q gd) (hput gd).1 hl hlayout₂ hq
  refine ⟨hlayout₂, (hmark _).1, (hmark _).2.2.2 b ((hput _).2.2.2 b hupdated₂), fun s o hs => ?_⟩
  rw [(hmark _).2.2.1, (hput _).2.2.1 s o hs, hshown₂, hshown₁]

theorem Filsys.useInode_groups (fs : Filsys) (p : Bufpool) (q ino first g : ℕ) :
    (fs.useInode p q ino first).groups g = if g = q then
      ⟨{ (fs.groups q).desc with freeInodeCount := minus (fs.groups q).desc.freeInodeCount 1 },
        (fs.groups q).firstFreeBlock, if first = ino then word (ino + 1) else first⟩ else fs.groups g := by
  show Function.update (Function.update fs.groups q _) q _ g = _
  rcases eq_or_ne g q with rfl | hne
  · rw [Function.update_self, if_pos rfl]
    dsimp only
    rw [Function.update_self]
  · rw [Function.update_of_ne hne, Function.update_of_ne hne, if_neg hne]

namespace Filsys.Reserved
variable {l : Layout} {Z : ℕ → Prop} {fs fs' : Filsys} {base : ℕ → ℕ → UInt8} {i : ℕ}

theorem findGroup_eq (h : fs.Reserved l Z base i) (hpos : 0 < l.inodesPerGroup)
    (hq : i / l.inodesPerGroup < l.groupCount) :
    fs.findGroup l.groupCount 0 = i / l.inodesPerGroup := by
  have hlayout := h.layout
  refine Filsys.findGroup_eq (by rwa [hlayout]) (fun g hg => ?_) ?_ (Nat.zero_le _) (by omega)
  · rw [h.free g (hg.trans hq), Layout.usedInodes_of_lt hg, Nat.sub_self]
  · rw [h.free _ hq]
    have hlt := (Layout.usedInodes_div (i := i) hpos).2
    omega

theorem lt_of_newInode (h : fs.Reserved l Z base i) (hl : l.Sound) {num : ℕ}
    (hcall : fs.newInode 0 = some (fs', num)) : i / l.inodesPerGroup < l.groupCount := by
  have hlayout := h.layout
  by_contra hfull
  have hgroup : fs.findGroup l.groupCount 0 < l.groupCount := by
    have hlt := Filsys.findGroup_lt l.groupCount (show 0 < fs.layout.groupCount by rw [hlayout]; exact hl.groups)
    rwa [hlayout] at hlt
  have hused := Layout.usedInodes_of_lt (hgroup.trans_le (Nat.le_of_not_lt hfull))
  have hnext := h.next _ hgroup
  rw [hused] at hnext
  have hsmall := hl.inodes
  have hblocksize := hl.small
  have hknown : l.inodesPerGroup ≠ Dfs.noBlock := by
    rw [Dfs.noBlock]
    omega
  rw [Filsys.newInode, hlayout] at hcall
  split at hcall
  · simp at hcall
  dsimp only at hcall
  rw [Nat.zero_div] at hcall
  split at hcall
  · simp at hcall
  · rw [Group.freeInode, hnext, if_pos hknown, findNextZeroBit] at hcall
    simp at hcall

theorem place (h : fs.Reserved l Z base i) (hl : l.Sound) {num : ℕ}
    (hcall : fs.newInode 0 = some (fs', num)) :
    0 < l.inodesPerGroup ∧ i / l.inodesPerGroup < l.groupCount ∧
      (fs.groups (i / l.inodesPerGroup)).firstFreeInode ≠ Dfs.noBlock := by
  have hq := h.lt_of_newInode hl hcall
  refine ⟨?_, hq, ?_⟩
  · rw [Filsys.newInode, h.layout] at hcall
    split at hcall
    · simp at hcall
    · omega
  · rw [h.next _ hq, Dfs.noBlock]
    have hle := Layout.usedInodes_le (l := l) (i / l.inodesPerGroup) i
    have hsmall := hl.inodes
    have hblocksize := hl.small
    omega

theorem step (h : fs.Reserved l Z base i) (hl : l.Sound) (hi : i < reservedInodes)
    (hcall : fs.newInode 0 = some (fs', i)) : fs'.Reserved l Z base (i + 1) := by
  have hlayout := h.layout
  have hblocks := h.caches.descs_le
  obtain ⟨hpos, hq, hknown⟩ := h.place hl hcall
  have hgroup := h.findGroup_eq hpos hq
  obtain ⟨hused, hused_lt⟩ := Layout.usedInodes_div hpos
  have hsucc := fun g => Layout.usedInodes_succ hpos g i
  have hqle := Nat.mul_div_le i l.inodesPerGroup
  generalize i / l.inodesPerGroup = q at hq hknown hgroup hused hused_lt hsucc hqle
  have hdesc : ¬ l.IsDesc (l.first q + 1) := hl.not_isDesc hblocks q 1
  have hheld : l.first q + 1 ∉ l.descList := fun hmem => hdesc (Layout.mem_descList.mp hmem)
  have hmem : l.first q + 1 ∈ (l.first q + 1) :: l.descList := List.mem_cons_self
  have hcached : l.Cached (l.first q + 1) := .inr ⟨q, 1, hq, by omega, rfl⟩
  rw [Filsys.newInode, hlayout, if_neg hpos.ne'] at hcall
  dsimp only at hcall
  rw [Nat.zero_div, hgroup, h.inodeBitmap q hq] at hcall
  split at hcall
  · simp at hcall
  next p hp =>
  obtain ⟨hok₁, hspb₁, hshown₁⟩ := h.caches.ok.getBuffer hheld hcached hp
  rw [h.caches.spb] at hspb₁
  rw [Group.freeInode, if_pos hknown, h.next q hq] at hcall
  have hle := findNextZeroBit_le (testBit (p.data (l.first q + 1))) l.inodesPerGroup (l.usedInodes q i)
  generalize findNextZeroBit (testBit (p.data (l.first q + 1))) l.inodesPerGroup (l.usedInodes q i) = ino
    at hcall hle
  split at hcall
  · simp at hcall
  obtain ⟨p₅, hp₅, heq⟩ := Option.map_eq_some_iff.mp hcall
  obtain ⟨rfl, hnum⟩ := Prod.mk.inj heq
  -- the number tells which bit was found
  have hino : ino = l.usedInodes q i := by
    have hsmall := hl.inodes
    have hblocksize := hl.small
    have hreserved : reservedInodes = 16 := rfl
    have hsame : (fs.useInode p q ino (l.usedInodes q i)).layout = l := hlayout
    rw [hsame, Nat.mul_comm, word_of_lt (by omega)] at hnum
    omega
  subst hino
  obtain ⟨hlayout₄, hcaches₄, hupdated₄, hshown₄⟩ := Filsys.useInode_spec hl hlayout hq
    (h.inodeBitmap q hq) hok₁ hspb₁ (l.usedInodes q i) (l.usedInodes q i)
  obtain ⟨p₅', hp₅', hok₅, -, hspb₅, hshown₅⟩ := hcaches₄.ok.releaseBuffer hheld hupdated₄
  obtain rfl : p₅' = p₅ := Option.some.inj (hp₅'.symm.trans hp₅)
  have hgroups := Filsys.useInode_groups fs p q (l.usedInodes q i) (l.usedInodes q i)
  refine ⟨hlayout₄, ⟨hok₅, hspb₅.trans hcaches₄.spb⟩, fun g hg => ?_, fun g hg => ?_, fun g hg => ?_,
    fun g hg => ?_, fun _ => rfl, fun s o ho hs hno => ?_, fun g hg n hn => ?_⟩
  · rw [hgroups]
    split
    · next heq =>
      rw [heq]
      exact h.inodeBitmap q hq
    · exact h.inodeBitmap g hg
  · rw [hgroups]
    split
    · next heq =>
      rw [heq]
      exact h.inodeTable q hq
    · exact h.inodeTable g hg
  · rw [hgroups, hsucc]
    split
    · next heq =>
      rw [h.free q hq, heq, minus_of_le (by omega), Nat.sub_sub]
    · exact h.free g hg
  · rw [hgroups, hsucc]
    split
    · next heq =>
      have hsmall := hl.inodes
      have hblocksize := hl.small
      rw [heq, if_pos rfl, word_of_lt (by omega)]
    · exact h.next g hg
  · rw [hshown₅, hshown₄ s o hs, if_neg (hno q hq), hshown₁ s o ho]
    exact h.other s o ho hs hno
  · have hclear : ¬ l.IsDesc (l.first g + 1) := hl.not_isDesc hblocks g 1
    rw [hsucc]
    split
    · next heq =>
      subst heq
      -- the block was read, and then its bit was set
      have hdata (k : ℕ) (hk : k < l.blocksize) :
          p.data (l.first g + 1) k = l.block fs.cache.shown (l.first g + 1) k := by
        refine (Layout.block_eq hl hk fun s o ho hs => ?_).symm
        rw [← hshown₁ s o ho, ← hspb₁]
        exact hok₁.shown_held hmem (by rwa [hspb₁]) o
      have hset (k : ℕ) (hk : k < l.blocksize) : l.block p₅'.shown (l.first g + 1) k =
          setBit (p.data (l.first g + 1)) (l.usedInodes g i) k := by
        refine Layout.block_eq hl hk fun s o _ hs => ?_
        rw [hshown₅, hshown₄ s o (by rwa [hs]), if_pos hs]
      rw [testBit_congr hset hn, testBit_setBit, testBit_congr hdata hn, h.bitmap g hg n hn, ← Bool.or_assoc,
        ← Bool.decide_or]
      congr 2
      exact propext (by omega)
    · next hne =>
      rw [← h.bitmap g hg n hn]
      refine testBit_congr (fun k hk => Layout.block_congr hl hk fun s o ho hs => ?_) hn
      have hother : s / l.spb ≠ l.first q + 1 := by
        rw [hs]
        intro heq
        exact hne (hl.first_unique hblocks (by omega) (by omega) heq).1
      rw [hshown₅, hshown₄ s o (by rwa [hs]), if_neg hother, hshown₁ s o ho]

end Filsys.Reserved

end SimpleKernel.Mkdfs
