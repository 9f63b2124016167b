import SimpleKernel.Dfs.Blocks
import SimpleKernel.Lib.Transition

/-! The inode bitmaps, `new_inode` and `free_inode` of `fs/dfs/group.c`, and the agreement of all
bitmaps with all counters. -/
namespace SimpleKernel.Dfs
open Bitmaps Transition Filsys
open Function (update update_of_ne update_self)

/-- `NOINODE`, and `first_free_inode` when it is not known. -/
def noInode : ℕ := 2 ^ 32 - 1

/-- The inodes of a group. -/
structure InodeGroup where
  bitmap : ℕ → Bool
  freeInodeCount : ℕ
  firstFreeInode : ℕ

/-- A file system with its inode bitmaps. -/
structure Volume where
  fs : Filsys
  freeInodeCount : ℕ
  inodes : ℕ → InodeGroup

namespace Volume

/-- The bit of inode `ino`. -/
def inodeUsed (v : Volume) (ino : ℕ) : Bool :=
  (v.inodes (ino / v.fs.inodesPerGroup)).bitmap (ino % v.fs.inodesPerGroup)

/-- The group for a new directory among the first `n`: of those with at least `avefreei` free inodes
the one with most free blocks. -/
def pickGroup (v : Volume) (avefreei : ℕ) : ℕ → Option ℕ
  | 0 => none
  | i + 1 =>
    let free := (v.inodes i).freeInodeCount
    if free ≠ 0 ∧ avefreei ≤ free then
      match v.pickGroup avefreei i with
      | none => some i
      | some g =>
        if (v.fs.groups g).freeBlockCount < (v.fs.groups i).freeBlockCount then some i else some g
    else v.pickGroup avefreei i

/-- The first of `n` groups from `group` on with a free inode. -/
def nextGroup (v : Volume) : ℕ → ℕ → ℕ
  | 0, group => group
  | n + 1, group =>
    if (v.inodes group).freeInodeCount ≠ 0 then group
    else v.nextGroup n (if v.fs.groupCount ≤ group + 1 then 0 else group + 1)

/-- The free inode that `new_inode` tries in a group with `len` inodes, and the group then. -/
def firstFreeInode (g : InodeGroup) (len : ℕ) : InodeGroup × ℕ :=
  if g.firstFreeInode ≠ noInode then (g, findNextZeroBit g.bitmap len g.firstFreeInode)
  else
    let ino := findFirstZeroBit g.bitmap len
    ({ g with firstFreeInode := ino }, ino)

/-- The end of `new_inode`. -/
def inodeFound (v : Volume) (group ino : ℕ) : Volume × ℕ :=
  let g := v.inodes group
  ({ v with
      freeInodeCount := minus v.freeInodeCount 1
      inodes := update v.inodes group
        { bitmap := update g.bitmap ino true
          freeInodeCount := minus g.freeInodeCount 1
          firstFreeInode := if g.firstFreeInode = ino then word (ino + 1) else g.firstFreeInode } },
    word (ino + group * v.fs.inodesPerGroup))

/-- `new_inode` in a group. -/
def newInodeIn (v : Volume) (group : ℕ) : Volume × ℕ :=
  let r := firstFreeInode (v.inodes group) v.fs.inodesPerGroup
  let v' := { v with inodes := update v.inodes group r.1 }
  if r.2 = v.fs.inodesPerGroup then (v', noInode) else v'.inodeFound group r.2

def newInode (v : Volume) (parent : ℕ) (dir : Bool) : Option (Volume × ℕ) :=
  if v.fs.groupCount = 0 then none
  else if dir then
    some (v.newInodeIn ((v.pickGroup (v.freeInodeCount / v.fs.groupCount) v.fs.groupCount).getD 0))
  else if v.fs.groupCount ≤ parent / v.fs.inodesPerGroup then none
  else some (v.newInodeIn (v.nextGroup v.fs.groupCount (parent / v.fs.inodesPerGroup)))

def freeInode (v : Volume) (ino : ℕ) : Option Volume :=
  let group := ino / v.fs.inodesPerGroup
  let ino := ino % v.fs.inodesPerGroup
  let g := v.inodes group
  if v.fs.groupCount ≤ group then none
  else
    some { v with
      freeInodeCount := word (v.freeInodeCount + 1)
      inodes := update v.inodes group
        { bitmap := update g.bitmap ino false
          freeInodeCount := word (g.freeInodeCount + 1)
          firstFreeInode := if ino < g.firstFreeInode then ino else g.firstFreeInode } }

def newBlock (v : Volume) (goal : ℕ) : Option (Volume × ℕ) :=
  (v.fs.newBlock goal).map fun r => ({ v with fs := r.1 }, r.2)

def freeBlocks (v : Volume) (blocks : List ℕ) : Option Volume :=
  (v.fs.freeBlocks blocks).map fun fs => { v with fs := fs }

end Volume

/-- A call of the allocator. -/
inductive AllocCall
  | newBlock (goal : ℕ)
  | freeBlocks (blocks : List ℕ)
  | newInode (parent : ℕ) (dir : Bool)
  | freeInode (ino : ℕ)

/-- `b` is a block that is in use. -/
def Filsys.Taken (fs : Filsys) (b : ℕ) : Prop := fs.InGroup b ∧ fs.used b = true

/-- Only what is in use is freed, and a parent is an inode of the file system. -/
def AllocCall.Ok (v : Volume) : AllocCall → Prop
  | .newBlock _ => True
  | .freeBlocks blocks => blocks.Nodup ∧ ∀ b ∈ blocks, v.fs.Taken b
  | .newInode parent dir => dir = false → parent / v.fs.inodesPerGroup < v.fs.groupCount
  | .freeInode ino => ino / v.fs.inodesPerGroup < v.fs.groupCount ∧ v.inodeUsed ino = true

def AllocCall.exec (v : Volume) : AllocCall → Option Volume
  | .newBlock goal => (v.newBlock goal).map Prod.fst
  | .freeBlocks blocks => v.freeBlocks blocks
  | .newInode parent dir => (v.newInode parent dir).map Prod.fst
  | .freeInode ino => v.freeInode ino

/-- The block bitmaps agree with their counters. -/
def Filsys.BlocksCounted (fs : Filsys) : Prop :=
  Counted fs.groupCount (fun g => (fs.groups g).bitmap) (fun g => (fs.groups g).blockCount)
    (fun g => (fs.groups g).freeBlockCount) fs.freeBlockCount

/-- The groups cover the disk, and all bitmaps agree with their counters. -/
structure Volume.Consistent (v : Volume) : Prop where
  grouped : v.fs.Grouped
  groups : 0 < v.fs.groupCount
  covers : v.fs.blockCount ≤ v.fs.groupCount * v.fs.blocksPerGroup
  inodes : 0 < v.fs.inodesPerGroup
  numbers : v.fs.groupCount * v.fs.inodesPerGroup < 2 ^ 32
  inodeTail : ∀ g, g < v.fs.groupCount → TailClear (v.inodes g).bitmap v.fs.inodesPerGroup
  blocks : v.fs.BlocksCounted
  counted : Counted v.fs.groupCount (fun g => (v.inodes g).bitmap) (fun _ => v.fs.inodesPerGroup)
    (fun g => (v.inodes g).freeInodeCount) v.freeInodeCount

/-! Blocks. -/

namespace Filsys
variable {fs fs' : Filsys} {group block b : ℕ}

theorem Hinted.counted (h : Hinted fs fs') (hc : fs.BlocksCounted) : fs'.BlocksCounted := by
  have hbits : (fun g => (fs'.groups g).bitmap) = fun g => (fs.groups g).bitmap :=
    funext fun g => h.bitmap g
  have hlen : (fun g => (fs'.groups g).blockCount) = fun g => (fs.groups g).blockCount :=
    funext fun g => h.layout.counts g
  have hcount : (fun g => (fs'.groups g).freeBlockCount) = fun g => (fs.groups g).freeBlockCount :=
    funext fun g => by rw [h.group]
  have htotal : fs'.freeBlockCount = fs.freeBlockCount := by rw [h.rest]
  rw [BlocksCounted, hbits, hlen, hcount, htotal, h.layout.groupCount]
  exact hc

theorem blockFound_counted (hc : fs.BlocksCounted) (hg : group < fs.groupCount)
    (hb : block < (fs.groups group).blockCount) (hbit : (fs.groups group).bitmap block = false) :
    (fs.blockFound group block).1.BlocksCounted := by
  have hflips := blockFound_flips fs group block
  have hlen : (fun g => ((fs.blockFound group block).1.groups g).blockCount) =
      fun g => (fs.groups g).blockCount := funext fun g => hflips.layout.counts g
  obtain ⟨hpos, htotal⟩ := hc.pos hg hb hbit
  rw [BlocksCounted, hlen, show (fs.blockFound group block).1.freeBlockCount =
    fs.freeBlockCount - 1 from minus_of_le htotal]
  refine hc.set hg hb hbit hflips.bitmap (fun g hne => ?_) ?_
  · rw [hflips.other g hne]
    exact ⟨rfl, rfl⟩
  · simp [blockFound, minus_of_le hpos]

theorem Grouped.sum_blocks (h : fs.Grouped) {k : ℕ} (hk : k ≤ fs.groupCount) :
    ∑ g ∈ Finset.range k, (fs.groups g).blockCount = min fs.blockCount (k * fs.blocksPerGroup) := by
  induction k with
  | zero => simp
  | succ k ih =>
    rw [Finset.sum_range_succ, h.count k (by omega), Nat.succ_mul]
    omega

theorem Grouped.sum_lt (h : fs.Grouped) :
    ∑ g ∈ Finset.range fs.groupCount, (fs.groups g).blockCount < 2 ^ 32 := by
  rw [h.sum_blocks le_rfl]
  exact (min_le_left _ _).trans_lt h.small

theorem freeBlock_counted (hgr : fs.Grouped) (hc : fs.BlocksCounted) (hb : fs.Taken b) :
    ∃ fs', fs.freeBlock b = some fs' ∧ fs'.Grouped ∧ fs'.BlocksCounted ∧ SameLayout fs fs' ∧
      ∀ x, fs'.used x = if x = b then false else fs.used x := by
  obtain ⟨⟨hg, hlt⟩, huse⟩ := hb
  obtain ⟨fs', hfs', hflips, -, -, htotal, hcount⟩ := freeBlock_flips hg
  have hself : b = b % fs.blocksPerGroup + b / fs.blocksPerGroup * fs.blocksPerGroup := by
    rw [Nat.add_comm, Nat.div_add_mod']
  have hused := hflips.used (Nat.mod_lt b hgr.size)
  rw [← hself] at hused
  obtain ⟨hroom, hroom'⟩ := hc.room hg hlt huse
  have hsum := hgr.sum_lt
  have hle : (fs.groups (b / fs.blocksPerGroup)).blockCount ≤ fs.blockCount := by
    rw [hgr.count _ hg]
    omega
  have hsmall := hgr.small
  refine ⟨fs', hfs', hflips.grouped hgr hlt, ?_, hflips.layout, hused⟩
  have hlen : (fun g => (fs'.groups g).blockCount) = fun g => (fs.groups g).blockCount :=
    funext fun g => hflips.layout.counts g
  rw [BlocksCounted, hlen, hflips.groupCount, htotal, word_of_lt (by omega)]
  refine hc.unset hg hlt huse hflips.bitmap (fun g hne => ?_) ?_
  · rw [hflips.other g hne]
    exact ⟨rfl, rfl⟩
  · rw [hcount, word_of_lt (by omega)]

theorem freeBlocks_counted (bs : List ℕ) (hgr : fs.Grouped) (hc : fs.BlocksCounted)
    (hnodup : bs.Nodup) (hbs : ∀ b ∈ bs, fs.Taken b) :
    ∃ fs', fs.freeBlocks bs = some fs' ∧ fs'.Grouped ∧ fs'.BlocksCounted ∧ SameLayout fs fs' ∧
      ∀ x, fs'.used x = if x ∈ bs then false else fs.used x := by
  induction bs generalizing fs with
  | nil => exact ⟨fs, rfl, hgr, hc, SameLayout.refl fs, fun _ => rfl⟩
  | cons b bs ih =>
    obtain ⟨hnot, hnodup⟩ := List.nodup_cons.mp hnodup
    obtain ⟨fs₁, hfs₁, hgr₁, hc₁, hlayout, hused⟩ :=
      freeBlock_counted hgr hc (hbs b List.mem_cons_self)
    have hrest : ∀ b' ∈ bs, fs₁.Taken b' := by
      intro b' hb'
      obtain ⟨hin, huse⟩ := hbs b' (List.mem_cons_of_mem b hb')
      have hne : b' ≠ b := fun he => hnot (he ▸ hb')
      refine ⟨hlayout.inGroup.mpr hin, ?_⟩
      rw [hused, if_neg hne, huse]
    obtain ⟨fs₂, hfs₂, hgr₂, hc₂, hlayout₂, hused₂⟩ := ih hgr₁ hc₁ hnodup hrest
    refine ⟨fs₂, ?_, hgr₂, hc₂, hlayout.trans hlayout₂, fun x => ?_⟩
    · rw [freeBlocks, List.foldlM_cons, hfs₁]
      exact hfs₂
    · rw [hused₂, hused]
      by_cases hx : x ∈ bs
      · simp [hx]
      · simp [hx]

end Filsys

/-! Inodes. -/

namespace Volume
variable {v v' : Volume} {group ino parent : ℕ}

/-- `ino` is free in the bitmap of its group. -/
def FreeInode (v : Volume) (ino : ℕ) : Prop :=
  ino / v.fs.inodesPerGroup < v.fs.groupCount ∧ v.inodeUsed ino = false

theorem pickGroup_lt {avefreei n g : ℕ} (h : v.pickGroup avefreei n = some g) : g < n := by
  induction n generalizing g with
  | zero => simp [pickGroup] at h
  | succ i ih =>
    rw [pickGroup] at h
    split at h
    · split at h
      · obtain rfl := Option.some.inj h
        exact Nat.lt_succ_self _
      · next g' hg' =>
        have hlt := ih hg'
        split at h
        · obtain rfl := Option.some.inj h
          exact Nat.lt_succ_self _
        · obtain rfl := Option.some.inj h
          exact hlt.trans (Nat.lt_succ_self i)
    · exact (ih h).trans (Nat.lt_succ_self i)

theorem nextGroup_lt (n : ℕ) (hg : group < v.fs.groupCount) :
    v.nextGroup n group < v.fs.groupCount := by
  induction n generalizing group with
  | zero => exact hg
  | succ n ih =>
    rw [nextGroup]
    split
    · exact hg
    · apply ih
      split <;> omega

theorem firstFreeInode_spec {g : InodeGroup} {len : ℕ} (ht : TailClear g.bitmap len) :
    (firstFreeInode g len).1 = { g with firstFreeInode := (firstFreeInode g len).1.firstFreeInode } ∧
      Found g.bitmap len (firstFreeInode g len).2 := by
  rw [firstFreeInode]
  split
  · exact ⟨rfl, findNextZeroBit_spec ht _⟩
  · exact ⟨rfl, findFirstZeroBit_spec ht⟩

theorem Consistent.hinted (v' : Volume) (h : v.Consistent) {first : ℕ → ℕ} (hfs : v'.fs = v.fs)
    (hfree : v'.freeInodeCount = v.freeInodeCount)
    (hinodes : ∀ g, v'.inodes g = { v.inodes g with firstFreeInode := first g }) :
    v'.Consistent ∧ ∀ x, v'.inodeUsed x = v.inodeUsed x := by
  have heq : v'.inodes = fun g => { v.inodes g with firstFreeInode := first g } := funext hinodes
  obtain ⟨fs', free', inodes'⟩ := v'
  obtain rfl : fs' = v.fs := hfs
  obtain rfl : free' = v.freeInodeCount := hfree
  obtain rfl := heq
  exact ⟨⟨h.grouped, h.groups, h.covers, h.inodes, h.numbers, h.inodeTail, h.blocks, h.counted⟩,
    fun _ => rfl⟩

theorem Consistent.flip (h : v.Consistent) {b : Bool} (hino : ino < v.fs.inodesPerGroup)
    (hfs : v'.fs = v.fs) (hother : ∀ g, g ≠ group → v'.inodes g = v.inodes g)
    (hbits : (v'.inodes group).bitmap = update (v.inodes group).bitmap ino b)
    (hcounted : Counted v.fs.groupCount (fun g => (v'.inodes g).bitmap)
      (fun _ => v.fs.inodesPerGroup) (fun g => (v'.inodes g).freeInodeCount) v'.freeInodeCount) :
    v'.Consistent ∧ ∀ x, v'.inodeUsed x =
      if x = ino + group * v.fs.inodesPerGroup then b else v.inodeUsed x := by
  refine ⟨⟨?_, ?_, ?_, ?_, ?_, fun g hg => ?_, ?_, ?_⟩, fun x => ?_⟩
  · rw [hfs]
    exact h.grouped
  · rw [hfs]
    exact h.groups
  · rw [hfs]
    exact h.covers
  · rw [hfs]
    exact h.inodes
  · rw [hfs]
    exact h.numbers
  · rw [hfs] at hg ⊢
    rcases eq_or_ne g group with rfl | hne
    · intro hlen
      rw [hbits, update_of_ne hino.ne']
      exact h.inodeTail g hg hlen
    · rw [hother g hne]
      exact h.inodeTail g hg
  · rw [hfs]
    exact h.blocks
  · rw [hfs]
    exact hcounted
  · rw [inodeUsed, hfs]
    refine bit_of_update (fun g => (v.inodes g).bitmap) (fun g => (v'.inodes g).bitmap) hino hbits
      fun g hne => ?_
    rw [hother g hne]

theorem Consistent.inode_number (h : v.Consistent) (hg : group < v.fs.groupCount)
    (hino : ino < v.fs.inodesPerGroup) :
    (ino + group * v.fs.inodesPerGroup) / v.fs.inodesPerGroup = group ∧
      (ino + group * v.fs.inodesPerGroup) % v.fs.inodesPerGroup = ino ∧
      ino + group * v.fs.inodesPerGroup < noInode := by
  refine ⟨?_, ?_, ?_⟩
  · rw [Nat.add_mul_div_right _ _ h.inodes, Nat.div_eq_of_lt hino, Nat.zero_add]
  · rw [Nat.add_mul_mod_self_right, Nat.mod_eq_of_lt hino]
  · have hle : (group + 1) * v.fs.inodesPerGroup ≤ v.fs.groupCount * v.fs.inodesPerGroup :=
      Nat.mul_le_mul_right _ hg
    have hnum := h.numbers
    rw [Nat.succ_mul] at hle
    rw [noInode]
    omega

/-- What `new_inode` can do. -/
structure AllotsInode (v : Volume) (r : Volume × ℕ) : Prop where
  fs : r.1.fs = v.fs
  full : r.2 = noInode → ∀ x, r.1.inodeUsed x = v.inodeUsed x
  found : r.2 ≠ noInode →
    v.FreeInode r.2 ∧ ∀ x, r.1.inodeUsed x = if x = r.2 then true else v.inodeUsed x

theorem inodeFound_consistent (h : v.Consistent) (hg : group < v.fs.groupCount)
    (hino : ino < v.fs.inodesPerGroup) (hbit : (v.inodes group).bitmap ino = false) :
    (v.inodeFound group ino).1.Consistent ∧ v.AllotsInode (v.inodeFound group ino) := by
  obtain ⟨hdiv, hmod, hnum⟩ := h.inode_number hg hino
  obtain ⟨hpos, htotal⟩ := h.counted.pos hg hino hbit
  have hres : (v.inodeFound group ino).2 = ino + group * v.fs.inodesPerGroup :=
    word_of_lt (hnum.trans (by simp [noInode]))
  have hother (g : ℕ) (hne : g ≠ group) : (v.inodeFound group ino).1.inodes g = v.inodes g :=
    update_of_ne hne _ _
  have hbits : ((v.inodeFound group ino).1.inodes group).bitmap =
      update (v.inodes group).bitmap ino true := by
    simp [inodeFound]
  have hcounted : Counted v.fs.groupCount (fun g => ((v.inodeFound group ino).1.inodes g).bitmap)
      (fun _ => v.fs.inodesPerGroup) (fun g => ((v.inodeFound group ino).1.inodes g).freeInodeCount)
      (v.inodeFound group ino).1.freeInodeCount := by
    rw [show (v.inodeFound group ino).1.freeInodeCount = v.freeInodeCount - 1 from
      minus_of_le htotal]
    refine h.counted.set hg hino hbit hbits (fun g hne => ?_) ?_
    · rw [hother g hne]
      exact ⟨rfl, rfl⟩
    · simp [inodeFound, minus_of_le hpos]
  have hfs : (v.inodeFound group ino).1.fs = v.fs := rfl
  obtain ⟨hcons, hused⟩ := h.flip hino hfs hother hbits hcounted
  refine ⟨hcons, hfs, fun hno => ?_, fun _ => ⟨⟨?_, ?_⟩, fun x => ?_⟩⟩
  · omega
  · rwa [hres, hdiv]
  · rw [hres, inodeUsed, hdiv, hmod]
    exact hbit
  · rw [hres]
    exact hused x

theorem newInodeIn_consistent (h : v.Consistent) (hg : group < v.fs.groupCount) :
    (v.newInodeIn group).1.Consistent ∧ v.AllotsInode (v.newInodeIn group) := by
  obtain ⟨hgroup, hfound⟩ := firstFreeInode_spec (h.inodeTail group hg)
  set r := firstFreeInode (v.inodes group) v.fs.inodesPerGroup with hr
  -- the hint alone is written first
  have hinodes (g : ℕ) : update v.inodes group r.1 g =
      { v.inodes g with firstFreeInode := (update v.inodes group r.1 g).firstFreeInode } := by
    rcases eq_or_ne g group with rfl | hne
    · rw [update_self, hgroup]
    · rw [update_of_ne hne]
  obtain ⟨hcons, hused⟩ := h.hinted { v with inodes := update v.inodes group r.1 } rfl rfl
    hinodes
  rw [newInodeIn]
  split
  · exact ⟨hcons, rfl, fun _ => hused, fun hno => absurd rfl hno⟩
  · next hne =>
    obtain ⟨hlt, hbit⟩ := hfound.resolve_left hne
    have hbit' : (update v.inodes group r.1 group).bitmap r.2 = false := by
      rw [update_self, hgroup]
      exact hbit
    obtain ⟨hcons', hallots⟩ := inodeFound_consistent hcons hg hlt hbit'
    refine ⟨hcons', hallots.fs, fun hno x => ?_, fun hyes => ?_⟩
    · rw [hallots.full hno, hused]
    · obtain ⟨⟨hin, hfree⟩, hset⟩ := hallots.found hyes
      refine ⟨⟨hin, ?_⟩, fun x => ?_⟩
      · rwa [hused] at hfree
      · rw [hset, hused]

theorem newInode_consistent (h : v.Consistent) {dir : Bool}
    (hparent : dir = false → parent / v.fs.inodesPerGroup < v.fs.groupCount) :
    ∃ r, v.newInode parent dir = some r ∧ r.1.Consistent ∧ v.AllotsInode r := by
  rw [newInode, if_neg h.groups.ne']
  cases dir with
  | true =>
    refine ⟨_, if_pos rfl, newInodeIn_consistent h ?_⟩
    cases hpick : v.pickGroup (v.freeInodeCount / v.fs.groupCount) v.fs.groupCount with
    | none => exact h.groups
    | some g => exact pickGroup_lt hpick
  | false =>
    have hg := hparent rfl
    rw [if_neg (not_le.mpr hg)]
    exact ⟨_, rfl, newInodeIn_consistent h (nextGroup_lt _ hg)⟩

theorem freeInode_flips (hg : ino / v.fs.inodesPerGroup < v.fs.groupCount) :
    ∃ v', v.freeInode ino = some v' ∧ v'.fs = v.fs ∧
      (∀ g, g ≠ ino / v.fs.inodesPerGroup → v'.inodes g = v.inodes g) ∧
      (v'.inodes (ino / v.fs.inodesPerGroup)).bitmap = update
        (v.inodes (ino / v.fs.inodesPerGroup)).bitmap (ino % v.fs.inodesPerGroup) false ∧
      (v'.inodes (ino / v.fs.inodesPerGroup)).freeInodeCount =
        word ((v.inodes (ino / v.fs.inodesPerGroup)).freeInodeCount + 1) ∧
      v'.freeInodeCount = word (v.freeInodeCount + 1) := by
  rw [freeInode, if_neg (not_le.mpr hg)]
  refine ⟨_, rfl, rfl, fun g hne => ?_, ?_, ?_, rfl⟩
  · exact update_of_ne hne _ _
  · simp
  · simp

theorem freeInode_consistent (h : v.Consistent) (hg : ino / v.fs.inodesPerGroup < v.fs.groupCount)
    (huse : v.inodeUsed ino = true) :
    ∃ v', v.freeInode ino = some v' ∧ v'.Consistent ∧ v'.fs = v.fs ∧
      ∀ x, v'.inodeUsed x = if x = ino then false else v.inodeUsed x := by
  have hino := Nat.mod_lt ino h.inodes
  obtain ⟨hroom, hroom'⟩ := h.counted.room hg hino huse
  rw [Finset.sum_const, Finset.card_range, nsmul_eq_mul, Nat.cast_id] at hroom'
  have hnum := h.numbers
  have hsize : v.fs.inodesPerGroup ≤ v.fs.groupCount * v.fs.inodesPerGroup :=
    Nat.le_mul_of_pos_left _ h.groups
  have hself : ino = ino % v.fs.inodesPerGroup + ino / v.fs.inodesPerGroup * v.fs.inodesPerGroup := by
    rw [Nat.add_comm, Nat.div_add_mod']
  obtain ⟨v', hv', hfs, hother, hbits, hcount, htotal⟩ := freeInode_flips hg
  have hcounted : Counted v.fs.groupCount (fun g => (v'.inodes g).bitmap)
      (fun _ => v.fs.inodesPerGroup) (fun g => (v'.inodes g).freeInodeCount) v'.freeInodeCount := by
    rw [htotal, word_of_lt (by omega)]
    refine h.counted.unset hg hino huse hbits (fun g hne => ?_) ?_
    · rw [hother g hne]
      exact ⟨rfl, rfl⟩
    · rw [hcount, word_of_lt (by omega)]
  obtain ⟨hcons, hused⟩ := h.flip hino hfs hother hbits hcounted
  refine ⟨v', hv', hcons, hfs, fun x => ?_⟩
  rw [hused x, ← hself]

/-! Runs. -/

theorem Consistent.withFs {fs : Filsys} (h : v.Consistent) (hgr : fs.Grouped) (hc : fs.BlocksCounted)
    (hl : SameLayout v.fs fs) : Consistent { v with fs := fs } ∧
      ∀ x, inodeUsed { v with fs := fs } x = v.inodeUsed x := by
  refine ⟨⟨hgr, ?_, ?_, ?_, ?_, fun g hg => ?_, hc, ?_⟩, fun x => ?_⟩
  · rw [hl.groupCount]
    exact h.groups
  · rw [hl.blockCount, hl.groupCount, hl.blocksPerGroup]
    exact h.covers
  · rw [hl.inodesPerGroup]
    exact h.inodes
  · rw [hl.groupCount, hl.inodesPerGroup]
    exact h.numbers
  · rw [hl.groupCount] at hg
    rw [hl.inodesPerGroup]
    exact h.inodeTail g hg
  · rw [hl.groupCount, hl.inodesPerGroup]
    exact h.counted
  · rw [inodeUsed, hl.inodesPerGroup]
    rfl

/-- What `new_block` can do. -/
structure AllotsBlock (v : Volume) (r : Volume × ℕ) : Prop where
  inodes : ∀ x, r.1.inodeUsed x = v.inodeUsed x
  full : r.2 = noBlock → ∀ x, r.1.fs.used x = v.fs.used x
  found : r.2 ≠ noBlock →
    v.fs.Free r.2 ∧ ∀ x, r.1.fs.used x = if x = r.2 then true else v.fs.used x

theorem newBlock_consistent (h : v.Consistent) (goal : ℕ) :
    ∃ r, v.newBlock goal = some r ∧ r.1.Consistent ∧ v.AllotsBlock r := by
  have hdef : v.fs.newBlock goal ≠ none := by
    rw [newBlock_defined]
    intro hgoal
    exact Nat.div_lt_of_lt_mul (by rw [Nat.mul_comm]; exact hgoal.trans_le h.covers)
  obtain ⟨r, hr⟩ := Option.ne_none_iff_exists'.mp hdef
  refine ⟨({ v with fs := r.1 }, r.2), by rw [Volume.newBlock, hr]; rfl, ?_⟩
  have hallots := newBlock_allots h.grouped hr
  cases hallots with
  | full hhint =>
    obtain ⟨hcons, hsame⟩ := h.withFs (hhint.grouped h.grouped) (hhint.counted h.blocks) hhint.layout
    exact ⟨hcons, hsame, fun _ => hhint.used, fun hno => absurd rfl hno⟩
  | @found fs₁ group block hhint hg hlt hbit =>
    have hg₁ : group < fs₁.groupCount := by rwa [hhint.layout.groupCount]
    have hlt₁ : block < (fs₁.groups group).blockCount := by rwa [hhint.layout.counts]
    have hbit₁ : (fs₁.groups group).bitmap block = false := by rwa [hhint.bitmap]
    have hgr₁ := hhint.grouped h.grouped
    have hflips := blockFound_flips fs₁ group block
    obtain ⟨hblock, hfree, hres⟩ := blockFound_free hgr₁ hg₁ hlt₁ hbit₁
    have hin := hhint.layout.inGroup.mp hfree.1
    obtain ⟨hcons, hsame⟩ := h.withFs (hflips.grouped hgr₁ hlt₁)
      (blockFound_counted (hhint.counted h.blocks) hg₁ hlt₁ hbit₁) (hhint.layout.trans hflips.layout)
    refine ⟨hcons, hsame, fun hno => ?_, fun _ => ⟨⟨hin, ?_⟩, fun x => ?_⟩⟩
    · have hlt := hin.lt_of_grouped h.grouped
      have hsmall := h.grouped.small
      rw [hno, noBlock] at hlt
      omega
    · rw [← hhint.used]
      exact hfree.2
    · have hused := hflips.used hblock x
      rw [← hres, hhint.used] at hused
      exact hused

theorem freeBlocks_consistent (h : v.Consistent) {blocks : List ℕ} (hnodup : blocks.Nodup)
    (hblocks : ∀ b ∈ blocks, v.fs.Taken b) :
    ∃ v', v.freeBlocks blocks = some v' ∧ v'.Consistent ∧ (∀ x, v'.inodeUsed x = v.inodeUsed x) ∧
      ∀ x, v'.fs.used x = if x ∈ blocks then false else v.fs.used x := by
  obtain ⟨fs, hfs, hgr, hc, hl, hused⟩ := freeBlocks_counted blocks h.grouped h.blocks hnodup hblocks
  obtain ⟨hcons, hsame⟩ := h.withFs hgr hc hl
  exact ⟨{ v with fs := fs }, by rw [Volume.freeBlocks, hfs]; rfl, hcons, hsame, hused⟩

end Volume

theorem AllocCall.exec_consistent {v v' : Volume} {call : AllocCall} (h : v.Consistent)
    (hok : call.Ok v) (hcall : call.exec v = some v') : v'.Consistent := by
  cases call with
  | newBlock goal =>
    obtain ⟨r, hr, hcons, -⟩ := Volume.newBlock_consistent h goal
    rw [exec, hr] at hcall
    obtain rfl := Option.some.inj hcall
    exact hcons
  | freeBlocks blocks =>
    obtain ⟨w, hw, hcons, -⟩ := Volume.freeBlocks_consistent h hok.1 hok.2
    rw [exec, hw] at hcall
    obtain rfl := Option.some.inj hcall
    exact hcons
  | newInode parent dir =>
    obtain ⟨r, hr, hcons, -⟩ := Volume.newInode_consistent h hok
    rw [exec, hr] at hcall
    obtain rfl := Option.some.inj hcall
    exact hcons
  | freeInode ino =>
    obtain ⟨w, hw, hcons, -⟩ := Volume.freeInode_consistent h hok.1 hok.2
    rw [exec, hw] at hcall
    obtain rfl := Option.some.inj hcall
    exact hcons

/-- The bitmaps and the counters agree after any calls, and every further call returns and changes the
bits of its own items only. -/
theorem allocation_agrees {v₀ v : Volume} (h₀ : v₀.Consistent)
    (hrun : Reach AllocCall.exec AllocCall.Ok v₀ v) :
    v.Consistent ∧
      (∀ goal, ∃ r, v.newBlock goal = some r ∧ v.AllotsBlock r) ∧
      (∀ blocks : List ℕ, blocks.Nodup → (∀ b ∈ blocks, v.fs.Taken b) →
        ∃ v', v.freeBlocks blocks = some v' ∧ (∀ x, v'.inodeUsed x = v.inodeUsed x) ∧
          ∀ x, v'.fs.used x = if x ∈ blocks then false else v.fs.used x) ∧
      (∀ parent dir, (dir = false → parent / v.fs.inodesPerGroup < v.fs.groupCount) →
        ∃ r, v.newInode parent dir = some r ∧ v.AllotsInode r) ∧
      ∀ ino, ino / v.fs.inodesPerGroup < v.fs.groupCount → v.inodeUsed ino = true →
        ∃ v', v.freeInode ino = some v' ∧ v'.fs = v.fs ∧
          ∀ x, v'.inodeUsed x = if x = ino then false else v.inodeUsed x := by
  have h : v.Consistent :=
    hrun.invariant h₀ fun _ _ _ hcons hok hcall => AllocCall.exec_consistent hcons hok hcall
  refine ⟨h, fun goal => ?_, fun blocks hnodup hblocks => ?_, fun parent dir hparent => ?_,
    fun ino hg huse => ?_⟩
  · obtain ⟨r, hr, -, hallots⟩ := Volume.newBlock_consistent h goal
    exact ⟨r, hr, hallots⟩
  · obtain ⟨v', hv', -, heffect⟩ := Volume.freeBlocks_consistent h hnodup hblocks
    exact ⟨v', hv', heffect⟩
  · obtain ⟨r, hr, -, hallots⟩ := Volume.newInode_consistent h hparent
    exact ⟨r, hr, hallots⟩
  · obtain ⟨v', hv', -, heffect⟩ := Volume.freeInode_consistent h hg huse
    exact ⟨v', hv', heffect⟩

/-- Six blocks in two groups, with two inodes each. Block 0 and inode 0 are in use. -/
def sixBlocks : Volume where
  fs :=
    { logBlkptrsPerBlock := 7, blockCount := 6, blocksPerGroup := 4, inodesPerGroup := 2,
      groupCount := 2, freeBlockCount := 5, page := fun _ _ => 0, freed := [],
      groups := fun g =>
        if g = 0 then ⟨4, fun i => i == 0, 3, noBlock⟩ else ⟨2, fun _ => false, 2, noBlock⟩ }
  freeInodeCount := 3
  inodes := fun g => if g = 0 then ⟨fun i => i == 0, 1, noInode⟩ else ⟨fun _ => false, 2, noInode⟩

theorem sixBlocks_consistent : sixBlocks.Consistent := by
  refine ⟨⟨by decide, by decide, ?_, ?_⟩, by decide, by decide, by decide, by decide, ?_, ⟨?_, by decide⟩,
    ⟨?_, by decide⟩⟩
  all_goals
    intro g hg
    obtain rfl | rfl : g = 0 ∨ g = 1 := by
      have : g < 2 := hg
      omega
    · decide
    · decide

theorem allocation_agrees_six_blocks :
    sixBlocks.Consistent ∧ ∃ r, sixBlocks.newBlock 0 = some r ∧ r.1.Consistent := by
  obtain ⟨h, hblock, -⟩ := allocation_agrees sixBlocks_consistent (Reach.refl _)
  obtain ⟨r, hr, -⟩ := hblock 0
  have hstep : AllocCall.exec sixBlocks (.newBlock 0) = some r.1 := by rw [AllocCall.exec, hr]; rfl
  exact ⟨h, r, hr, (allocation_agrees h (Reach.single (l := .newBlock 0) trivial hstep)).1⟩

end SimpleKernel.Dfs
