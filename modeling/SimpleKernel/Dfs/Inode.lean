import SimpleKernel.Dfs.Group

/-! The block directory of an inode, `fs/dfs/inode.c`: a tree of pages of block pointers, of which
the top one is in the inode itself. -/
namespace SimpleKernel.Dfs
open Function (update)

/-- `DFS_TOPBLOCKDIR_SIZE`. -/
def topBlockdirSize : ℕ := 16

def EINVAL : ℤ := 22

/-- `struct inode` and its descriptor. -/
structure Inode where
  fs : Filsys
  ino : ℕ
  blocks : ℕ
  depth : ℕ
  blockdir : ℕ → ℕ

/-- The loop of `split_levels` with `d` levels below the current one. -/
def splitFrom (log : ℕ) : ℕ → ℕ → List ℕ
  | 0, iblock => [iblock]
  | d + 1, iblock =>
    iblock >>> ((d + 1) * log) :: splitFrom log d (iblock &&& (1 <<< ((d + 1) * log) - 1))

namespace Inode

/-- `split_levels`. A shift by 32 bits or more is not defined. -/
def splitLevels (inode : Inode) (iblock : ℕ) : Option (List ℕ) :=
  if inode.depth * inode.fs.logBlkptrsPerBlock < 32 then
    some (splitFrom inode.fs.logBlkptrsPerBlock inode.depth iblock)
  else none

/-- The loop of `get_inode_block`. -/
def lookup (page : ℕ → ℕ → ℕ) : ℕ → List ℕ → ℕ
  | block, [] => block
  | block, o :: os => if page block o = 0 then noBlock else lookup page (page block o) os

def getInodeBlock (inode : Inode) (iblock : ℕ) : Option ℕ :=
  match inode.splitLevels iblock with
  | some (o :: os) =>
    if o < topBlockdirSize then some (lookup inode.fs.page (inode.blockdir o) os) else none
  | _ => none

/-- Slot `o` of the top directory is set. -/
def putTop (inode : Inode) (o block : ℕ) : Inode :=
  { inode with blockdir := update inode.blockdir o block }

/-- Slot `o` of directory page `p` is set. -/
def putPage (inode : Inode) (p o block : ℕ) : Inode :=
  { inode with fs := { inode.fs with
      page := update inode.fs.page p (update (inode.fs.page p) o block) } }

/-- `alloc_buffer` and `memset` for a new directory page. -/
def clearPage (inode : Inode) (p : ℕ) : Inode :=
  { inode with fs := { inode.fs with page := update inode.fs.page p fun _ => 0 } }

/-- `new_block`, and what follows unless it fails. -/
def withNewBlock (inode : Inode) (goal : ℕ) (k : Inode → ℕ → Option (Inode × ℕ)) :
    Option (Inode × ℕ) :=
  match inode.fs.newBlock goal with
  | none => none
  | some (fs, b) =>
    if b = noBlock then some ({ inode with fs := fs }, noBlock) else k { inode with fs := fs } b

/-- The new data block is counted. -/
def countBlock (inode : Inode) : Inode := { inode with blocks := word (inode.blocks + 1) }

/-- The end of `set_inode_block`: slot `o` of the leaf `dirblock`. -/
def setLeaf (inode : Inode) (dirblock o block : ℕ) : Option (Inode × ℕ) :=
  if block = noBlock then
    inode.withNewBlock (word ((if o = 0 then dirblock else inode.fs.page dirblock (o - 1)) + 1))
      fun inode block => some (inode.countBlock.putPage dirblock o block, block)
  else some (inode.putPage dirblock o block, block)

/-- `set_inode_block` from the page `dirblock` down. -/
def setBelow (inode : Inode) (dirblock block : ℕ) : List ℕ → Option (Inode × ℕ)
  | [] => none
  | [o] => inode.setLeaf dirblock o block
  | o :: o' :: os =>
    if inode.fs.page dirblock o = 0 then
      inode.withNewBlock (word (dirblock + 1)) fun inode next =>
        setBelow ((inode.putPage dirblock o next).clearPage next) next block (o' :: os)
    else setBelow inode (inode.fs.page dirblock o) block (o' :: os)

def setInodeBlock (inode : Inode) (iblock block : ℕ) : Option (Inode × ℕ) :=
  let goal := inode.ino / inode.fs.inodesPerGroup * inode.fs.blocksPerGroup
  if inode.depth = 0 then
    if topBlockdirSize ≤ iblock then none
    else if block = noBlock then
      inode.withNewBlock goal fun inode block =>
        some (inode.countBlock.putTop iblock block, block)
    else some (inode.putTop iblock block, block)
  else
    match inode.splitLevels iblock with
    | some (o :: os) =>
      if topBlockdirSize ≤ o then none
      else if inode.blockdir o = 0 then
        inode.withNewBlock goal fun inode dirblock =>
          setBelow ((inode.putTop o dirblock).clearPage dirblock) dirblock block os
      else inode.setBelow (inode.blockdir o) block os
    | _ => none

/-- The top directory is moved to the new page `dirblock`. -/
def pushDown (inode : Inode) (dirblock : ℕ) : Inode :=
  { inode with
    fs := { inode.fs with
      page := update inode.fs.page dirblock
        (fun i => if i < topBlockdirSize then inode.blockdir i else 0) }
    blockdir := update (fun _ => 0) 0 dirblock
    depth := inode.depth + 1 }

/-- `maxblocks` in `expand_inode`, when the shift is defined. -/
def maxBlocks (inode : Inode) : ℕ :=
  word (topBlockdirSize * 2 ^ (inode.depth * inode.fs.logBlkptrsPerBlock))

def expandInode (inode : Inode) : Option (Inode × ℕ) :=
  if 32 ≤ inode.depth * inode.fs.logBlkptrsPerBlock then none
  else if inode.blocks = inode.maxBlocks then
    inode.withNewBlock (minus (inode.blockdir 0) 1) fun inode dirblock =>
      let inode := inode.pushDown dirblock
      inode.setInodeBlock inode.blocks noBlock
  else inode.setInodeBlock inode.blocks noBlock

/-- The slots from `start` on, `count` of them, of a page or of the top directory are freed;
`remove_blocks` for them. -/
def removeBlocks (fs : Filsys) (slots : ℕ → ℕ) (start count : ℕ) : Option (Filsys × (ℕ → ℕ)) :=
  (fs.freeBlocks ((List.range' start count).map slots)).map fun fs =>
    (fs, fun i => if start ≤ i ∧ i < start + count then 0 else slots i)

/-- `remove_blocks` for slots of the page `p`. -/
def removeFromPage (fs : Filsys) (p start count : ℕ) : Option Filsys :=
  (removeBlocks fs (fs.page p) start count).map fun r =>
    { r.1 with page := update r.1.page p r.2 }

/-- The buffers of the pages on the way down, from level `d` on: one that was kept is used again if it has the right
block. Also the pages and the slots in them. -/
def loadLevels (page : ℕ → ℕ → ℕ) :
    (ℕ → Option ℕ) → ℕ → ℕ → List ℕ → (ℕ → Option ℕ) × List (ℕ × ℕ)
  | buf, _, _, [] => (buf, [])
  | buf, d, blk, o :: os =>
    let buf := if buf d = some blk then buf else update buf d (some blk)
    let p := (buf d).getD 0
    let r := loadLevels page buf (d + 1) (page p o) os
    (r.1, (p, o) :: r.2)

/-- The internal pages are removed from the leaf up, as long as their first slot was the last one in
use. Also whether all of them were. -/
def removeUp (fs : Filsys) : List (ℕ × ℕ) → Option (Filsys × Bool)
  | [] => some (fs, true)
  | (p, o) :: up =>
    let fs := { fs with page := update fs.page p (update (fs.page p) o 0) }
    if o = 0 then (fs.freeBlocks [p]).bind fun fs => removeUp fs up else some (fs, false)

/-- The state of the loop of `truncate_inode`. -/
structure Truncating where
  inode : Inode
  buf : ℕ → Option ℕ
  iblock : ℕ
  blocksleft : ℕ

/-- The leaf page, its last slot in use and the pages above it are known: all blocks of the leaf are
removed. -/
def removeLeaf (s : Truncating) (o₀ leaf o : ℕ) (up : List (ℕ × ℕ)) : Option Truncating :=
  (removeFromPage s.inode.fs leaf 0 (o + 1)).bind fun fs =>
  (fs.freeBlocks [leaf]).bind fun fs =>
  (removeUp fs up).map fun r =>
    -- the slot of the first level was 0, or there is one level only and it was cleared
    let blockdir :=
      if r.2 ∧ (up.getLast?.map Prod.snd).getD 0 = 0 then update s.inode.blockdir o₀ 0
      else s.inode.blockdir
    { s with
      inode := { s.inode with fs := r.1, blockdir := blockdir }
      iblock := minus s.iblock (o + 1)
      blocksleft := s.blocksleft - (o + 1) }

/-- One round of the loop of `truncate_inode`. -/
def truncateStep (s : Truncating) : Option Truncating :=
  match s.inode.splitLevels s.iblock with
  | some (o₀ :: os) =>
    if topBlockdirSize ≤ o₀ then none
    else
      let r := loadLevels s.inode.fs.page s.buf 1 (s.inode.blockdir o₀) os
      match r.2.reverse with
      | [] => none
      | (leaf, o) :: up =>
        if o < s.blocksleft then removeLeaf { s with buf := r.1 } o₀ leaf o up
        else
          (removeFromPage s.inode.fs leaf (o + 1 - s.blocksleft) s.blocksleft).map fun fs =>
            { inode := { s.inode with fs := fs }
              buf := r.1
              iblock := minus s.iblock s.blocksleft
              blocksleft := 0 }
  | _ => none

/-- The loop of `truncate_inode`; every round removes at least one block. -/
def truncateLoop : ℕ → Truncating → Option Inode
  | 0, s => some s.inode
  | n + 1, s => if s.blocksleft = 0 then some s.inode else (truncateStep s).bind (truncateLoop n)

def truncateInode (inode : Inode) (blocks : ℕ) : Option (Inode × ℤ) :=
  if inode.blocks < blocks then some (inode, -EINVAL)
  else if blocks = inode.blocks then some (inode, 0)
  else if inode.blocks = 0 then some (inode, 0)
  else if inode.depth = 0 then
    (removeBlocks inode.fs inode.blockdir blocks (inode.blocks - blocks)).map fun r =>
      ({ inode with fs := r.1, blockdir := r.2, blocks := blocks }, 0)
  else
    let left := inode.blocks - blocks
    (truncateLoop left ⟨inode, fun _ => none, inode.blocks - 1, left⟩).map fun inode =>
      ({ inode with blocks := blocks, depth := if blocks = 0 then 0 else inode.depth }, 0)

end Inode

end SimpleKernel.Dfs
