import SimpleKernel.Lib.Splice
import SimpleKernel.Mkdfs.Cache

/-! Formatting of a device by the host tool, `create_filesystem` and `close_filesystem` of
`utils/dfs/super.c`. -/
namespace SimpleKernel.Mkdfs
open Dfs (word minus findFirstZeroBit findNextZeroBit)
open Splice

def cacheBuffers : ℕ := 1024

def reservedBlocks : ℕ := 16

def reservedInodes : ℕ := 16

/-- `sizeof(struct groupdesc)`. -/
def groupdescSize : ℕ := 32

/-- `sizeof(struct inodedesc)`. -/
def inodedescSize : ℕ := 128

/-- `n` in `k` bytes, the lowest one first. -/
def littleEndian (k n : ℕ) : List UInt8 := (List.range k).map fun i => UInt8.ofNat (n / 256 ^ i)

/-! `utils/dfs/bitops.h`. -/

def testBit (bitmap : ℕ → UInt8) (pos : ℕ) : Bool := (bitmap (pos / 8)).toNat.testBit (pos % 8)

def setBit (bitmap : ℕ → UInt8) (pos : ℕ) : ℕ → UInt8 :=
  Function.update bitmap (pos / 8) (UInt8.ofNat ((bitmap (pos / 8)).toNat ||| 2 ^ (pos % 8)))

def setBits (bitmap : ℕ → UInt8) (pos len : ℕ) : ℕ → UInt8 := (List.range' pos len).foldl setBit bitmap

/-- The fields of `struct filsys` and its super block that are computed first and do not change. -/
structure Layout where
  blocksize : ℕ
  logBlockSize : ℕ
  blocksPerGroup : ℕ
  blockCount : ℕ
  cacheSize : ℕ
  inodesPerBlock : ℕ
  inodesPerGroup : ℕ
  inodeBlocksPerGroup : ℕ
  logBlkptrsPerBlock : ℕ
  groupCount : ℕ
  groupdescsPerBlock : ℕ
  groupdescBlocks : ℕ
  firstReservedBlock : ℕ
  groupdescTableBlock : ℕ

/-- The first part of `create_filesystem`. A division by zero has no result. -/
def layout (devsize blocksize inodeRatio : ℕ) : Option Layout :=
  let blocksPerGroup := word (blocksize * 8)
  let blockCount := devsize / (blocksize / sectorSize)
  let groupBlocks := if blocksPerGroup < blockCount then blocksPerGroup else blockCount
  let inodes := word (blocksize * groupBlocks) / inodeRatio
  let inodesPerGroup := if blocksize * 8 < inodes then blocksize * 8 else inodes
  let inodeBlocksPerGroup := (inodesPerGroup * inodedescSize + blocksize - 1) / blocksize
  let groups := word (blockCount + blocksPerGroup - 1) / blocksPerGroup
  let firstReservedBlock := if blocksize ≤ sectorSize then 2 else 1
  -- a last group that is too small is left out
  let blocks := blockCount % blocksPerGroup
  let groupCount := if 0 < blocks ∧ blocks < inodeBlocksPerGroup + 2 then minus groups 1 else groups
  if inodeRatio = 0 ∨ groupCount = 0 then none
  else
    some {
      blocksize := blocksize
      logBlockSize := blocksize.log2
      blocksPerGroup := blocksPerGroup
      blockCount := blockCount
      cacheSize := if blockCount < cacheBuffers then 64 else cacheBuffers
      inodesPerBlock := blocksize / inodedescSize
      inodesPerGroup := inodesPerGroup
      inodeBlocksPerGroup := inodeBlocksPerGroup
      logBlkptrsPerBlock := blocksize.log2 - 2
      groupCount := groupCount
      groupdescsPerBlock := blocksize / groupdescSize
      groupdescBlocks := (groups * groupdescSize + blocksize - 1) / blocksize
      firstReservedBlock := firstReservedBlock
      groupdescTableBlock := firstReservedBlock + reservedBlocks }

/-- `struct groupdesc`. -/
structure Groupdesc where
  blockCount : ℕ
  blockBitmapBlock : ℕ
  inodeBitmapBlock : ℕ
  inodeTableBlock : ℕ
  freeBlockCount : ℕ
  freeInodeCount : ℕ

def Groupdesc.image (d : Groupdesc) : List UInt8 :=
  [d.blockCount, d.blockBitmapBlock, d.inodeBitmapBlock, d.inodeTableBlock, d.freeBlockCount,
    d.freeInodeCount].flatMap (littleEndian 4)

/-- `struct group`. -/
structure Group where
  desc : Groupdesc
  firstFreeBlock : ℕ
  firstFreeInode : ℕ

/-- The inode that `new_inode` finds in a group, and `first_free_inode` then. -/
def Group.freeInode (gr : Group) (bitmap : ℕ → Bool) (len : ℕ) : ℕ × ℕ :=
  if gr.firstFreeInode ≠ Dfs.noBlock then (findNextZeroBit bitmap len gr.firstFreeInode, gr.firstFreeInode)
  else (findFirstZeroBit bitmap len, findFirstZeroBit bitmap len)

/-- `struct filsys`. -/
structure Filsys where
  layout : Layout
  inodeCount : ℕ
  freeInodeCount : ℕ
  freeBlockCount : ℕ
  superDirty : Bool
  cache : Bufpool
  groups : ℕ → Group

namespace Layout

/-- The blocks in front of the bitmaps of a group. -/
def front (l : Layout) (g : ℕ) : ℕ := if g = 0 then l.groupdescTableBlock + l.groupdescBlocks else 0

/-- The descriptor of a new group. -/
def newDesc (l : Layout) (g : ℕ) : Groupdesc :=
  let first := word (l.blocksPerGroup * g)
  let blocks := l.front g + 2 + l.inodeBlocksPerGroup
  let blockCount := if l.blockCount < word (l.blocksPerGroup * (g + 1)) then
    minus l.blockCount (word (l.blocksPerGroup * g)) else l.blocksPerGroup
  { blockCount := blockCount
    blockBitmapBlock := word (first + l.front g)
    inodeBitmapBlock := word (first + (l.front g + 1))
    inodeTableBlock := word (first + (l.front g + 2))
    freeBlockCount := minus blockCount blocks
    freeInodeCount := l.inodesPerGroup }

/-- The block with the descriptor of a group. -/
def descBlock (l : Layout) (g : ℕ) : ℕ := l.groupdescTableBlock + g / l.groupdescsPerBlock

end Layout

/-- `dev_write` of a block of zeros to each of `blknos`. -/
def Device.zero (d : Device) (blocksize : ℕ) (blknos : List ℕ) : Device :=
  blknos.foldl (fun d blkno => d.write (fun _ => 0) blocksize blkno) d

namespace Filsys

/-- What is written to the block numbers that the full format zeroes. -/
def zeroAll (fs : Filsys) : List ℕ :=
  let start := fs.layout.groupdescTableBlock + fs.layout.groupdescBlocks
  List.range' start (fs.layout.blockCount - start)

/-- The block numbers that the quick format zeroes. -/
def zeroQuick (fs : Filsys) : List ℕ :=
  (List.range fs.layout.groupCount).flatMap fun g =>
    let gd := (fs.groups g).desc
    gd.blockBitmapBlock :: gd.inodeBitmapBlock ::
      (List.range fs.layout.inodeBlocksPerGroup).map fun j => word (gd.inodeTableBlock + j)

def zero (fs : Filsys) (blknos : List ℕ) : Filsys :=
  { fs with cache := { fs.cache with dev := fs.cache.dev.zero fs.layout.blocksize blknos } }

/-- The buffers of the descriptors, and the groups with empty descriptors in them. -/
def allocDescs (fs : Filsys) : Option Filsys :=
  if fs.layout.groupdescBlocks * fs.layout.groupdescsPerBlock < fs.layout.groupCount then none
  else
    ((List.range fs.layout.groupdescBlocks).foldlM
      (fun (p : Bufpool) i => p.allocBuffer (fs.layout.groupdescTableBlock + i)) fs.cache).map fun p =>
        { fs with
          cache := p
          groups := fun _ => ⟨⟨0, 0, 0, 0, 0, 0⟩, 0, 0⟩
          inodeCount := word (fs.layout.inodesPerGroup * fs.layout.groupCount)
          freeInodeCount := word (fs.layout.inodesPerGroup * fs.layout.groupCount)
          freeBlockCount := fs.layout.blockCount }

/-- A descriptor is changed, in the buffer that holds it. -/
def putDesc (fs : Filsys) (g : ℕ) (gd : Groupdesc) : Filsys :=
  let b := fs.layout.descBlock g
  let slot := g % fs.layout.groupdescsPerBlock * groupdescSize
  { fs with
    groups := Function.update fs.groups g { fs.groups g with desc := gd }
    cache := fs.cache.setData b (patch (fs.cache.data b) slot gd.image) }

def markGroupDescDirty (fs : Filsys) (g : ℕ) : Filsys :=
  { fs with cache := fs.cache.markUpdated (fs.layout.descBlock g) }

/-- A round of the loop that initializes the block bitmaps. -/
def initGroup (fs : Filsys) (g : ℕ) : Option Filsys :=
  let gd := fs.layout.newDesc g
  let blocks := fs.layout.front g + 2 + fs.layout.inodeBlocksPerGroup
  let fs := fs.putDesc g gd
  let b := gd.blockBitmapBlock
  match fs.cache.allocBuffer b with
  | none => none
  | some p =>
    if 8 * fs.layout.blocksize < blocks then none
    else
      ((p.setData b (setBits (p.data b) 0 blocks)).markUpdated b |>.releaseBuffer b).map fun p =>
        { fs with cache := p, freeBlockCount := minus fs.freeBlockCount blocks }.markGroupDescDirty g

/-- The group of the new inode: the next one with free inodes. -/
def findGroup (fs : Filsys) : ℕ → ℕ → ℕ
  | 0, group => group
  | n + 1, group =>
    if (fs.groups group).desc.freeInodeCount ≠ 0 then group
    else fs.findGroup n (if fs.layout.groupCount ≤ group + 1 then 0 else group + 1)

/-- `new_inode` marks inode `ino` of a group as used; `p` is the cache with the inode bitmap in it. -/
def useInode (fs : Filsys) (p : Bufpool) (group ino first : ℕ) : Filsys :=
  let gr := fs.groups group
  let b := gr.desc.inodeBitmapBlock
  let fs := { fs with
    cache := (p.setData b (setBit (p.data b) ino)).markUpdated b
    freeInodeCount := minus fs.freeInodeCount 1
    superDirty := true
    groups := Function.update fs.groups group
      { gr with firstFreeInode := if first = ino then word (ino + 1) else first } }
  (fs.putDesc group { gr.desc with freeInodeCount := minus gr.desc.freeInodeCount 1 }).markGroupDescDirty
    group

/-- `new_inode` for a file. -/
def newInode (fs : Filsys) (parent : ℕ) : Option (Filsys × ℕ) :=
  if fs.layout.inodesPerGroup = 0 then none
  else
    let group := fs.findGroup fs.layout.groupCount (parent / fs.layout.inodesPerGroup)
    let b := (fs.groups group).desc.inodeBitmapBlock
    match fs.cache.getBuffer b with
    | none => none
    | some p =>
      let (ino, first) := (fs.groups group).freeInode (testBit (p.data b)) fs.layout.inodesPerGroup
      if ino = fs.layout.inodesPerGroup then none
      else
        let fs := fs.useInode p group ino first
        (fs.cache.releaseBuffer b).map fun p =>
          ({ fs with cache := p }, word (ino + group * fs.layout.inodesPerGroup))

/-- The reserved inodes get the first numbers. -/
def reserveInodes (fs : Filsys) : Option Filsys :=
  (List.range reservedInodes).foldlM
    (fun fs i => (fs.newInode 0).bind fun r => if r.2 = i then some r.1 else none) fs

/-- `VFS_S_IFDIR | VFS_S_IRWXU | VFS_S_IRWXG | VFS_S_IRWXO`. -/
def rootMode : ℕ := 0o40777

/-- The root directory, which is inode 0, is created at the time `now`. -/
def createRoot (fs : Filsys) (now : ℕ) : Option Filsys :=
  let b := (fs.groups 0).desc.inodeTableBlock
  (fs.cache.getBuffer b).bind fun p =>
    let desc := patch (p.data b) 0 (littleEndian 2 rootMode)
    let desc := patch desc 12 (littleEndian 4 now ++ littleEndian 4 now)
    let desc := patch desc 32 (littleEndian 4 1)
    (((p.setData b desc).markUpdated b).releaseBuffer b).map fun p => { fs with cache := p }

/-- A new file system on a device of `devsize` sectors with the bytes `sector`. -/
def createFilesystem (sector : ℕ → ℕ → UInt8) (devsize blocksize inodeRatio : ℕ) (quick : Bool)
    (now : ℕ) : Option Filsys := do
  let cache ← Bufpool.init ⟨sector, []⟩ cacheBuffers blocksize
  let l ← Mkdfs.layout devsize blocksize inodeRatio
  let fs : Filsys := ⟨l, 0, 0, 0, true, cache, fun _ => ⟨⟨0, 0, 0, 0, 0, 0⟩, 0, 0⟩⟩
  let fs := if quick then fs else fs.zero fs.zeroAll
  let fs ← fs.allocDescs
  let fs ← (List.range l.groupCount).foldlM initGroup fs
  let fs := if quick then fs.zero fs.zeroQuick else fs
  let fs ← fs.reserveInodes
  fs.createRoot now

/-- The super block. -/
def superImage (fs : Filsys) : List UInt8 :=
  [0x00534644, 2, fs.layout.logBlockSize, fs.layout.groupdescTableBlock, reservedInodes,
    fs.layout.groupCount, fs.inodeCount, fs.layout.blockCount, fs.freeInodeCount, fs.freeBlockCount,
    fs.layout.blocksPerGroup, fs.layout.inodesPerGroup, fs.layout.firstReservedBlock, reservedBlocks,
    fs.layout.cacheSize].flatMap (littleEndian 4)

/-- `close_filesystem`, and the device then. -/
def closeFilesystem (fs : Filsys) : Option Device :=
  ((List.range fs.layout.groupdescBlocks).foldlM
    (fun (p : Bufpool) i => p.releaseBuffer (fs.layout.groupdescTableBlock + i)) fs.cache).map fun p =>
      let dev := if fs.superDirty then
        p.dev.write (fun o => fs.superImage[o]?.getD 0) sectorSize 1 else p.dev
      (Bufpool.flushBuffers { p with dev := dev }).dev

end Filsys

end SimpleKernel.Mkdfs
