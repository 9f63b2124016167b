import Mathlib.Data.List.Basic
import Mathlib.Data.Nat.ModEq
import Mathlib.Logic.Function.Basic

/-! The block groups of a disk file system, `fs/dfs/group.c`, each with a bitmap of its blocks. The buffers are the
blocks they hold; there are no I/O errors. `none` is an access outside an array or other undefined behaviour. -/
namespace SimpleKernel.Dfs

/-- The first bit among `n` from bit `i` on that is clear, or the bit after them. -/
def scanZero (bit : ℕ → Bool) : ℕ → ℕ → ℕ
  | 0, i => i
  | n + 1, i => if bit i then scanZero bit n (i + 1) else i

/-- `find_first_zero_bit`. Words of 32 bits are scanned to the end. -/
def findFirstZeroBit (bit : ℕ → Bool) (len : ℕ) : ℕ :=
  if len = 0 then 0 else scanZero bit (32 * ((len + 31) / 32)) 0

/-- `find_next_zero_bit`: the rest of the first word, then all other words. -/
def findNextZeroBit (bit : ℕ → Bool) (len start : ℕ) : ℕ :=
  if len ≤ start then len
  else if start % 32 ≠ 0 then
    let rest := 32 - start % 32
    let set := scanZero bit rest start - start
    if set < rest then set + start
    else start + rest + findFirstZeroBit (fun i => bit (start + rest + i)) (len - (start + rest))
  else start + findFirstZeroBit (fun i => bit (start + i)) (len - start)

/-- `NOBLOCK`, and `first_free_block` when it is not known. -/
def noBlock : ℕ := 2 ^ 32 - 1

/-- `x` as an `unsigned int`. -/
@[irreducible] def word (x : ℕ) : ℕ := if x < 2 ^ 32 then x else x % 2 ^ 32

/-- `x - y` for an `unsigned int`. -/
@[irreducible] def minus (x y : ℕ) : ℕ := if y ≤ x then x - y else x + 2 ^ 32 - y

theorem word_of_lt {x : ℕ} (h : x < 2 ^ 32) : word x = x := by
  rw [word, if_pos h]

theorem minus_of_le {x y : ℕ} (h : y ≤ x) : minus x y = x - y := by
  rw [minus, if_pos h]

/-- `struct blkgroup`, its descriptor and its block bitmap. -/
structure BlkGroup where
  blockCount : ℕ
  bitmap : ℕ → Bool
  freeBlockCount : ℕ
  firstFreeBlock : ℕ

/-- `struct filsys` and its super block. `page b` are the block pointers in block `b`; `freed` lists
the blocks that were freed so far, the last one first. -/
structure Filsys where
  logBlkptrsPerBlock : ℕ
  blockCount : ℕ
  blocksPerGroup : ℕ
  inodesPerGroup : ℕ
  groupCount : ℕ
  freeBlockCount : ℕ
  groups : ℕ → BlkGroup
  page : ℕ → ℕ → ℕ
  freed : List ℕ

namespace Filsys

/-- The bit of block `b`. -/
def used (fs : Filsys) (b : ℕ) : Bool :=
  (fs.groups (b / fs.blocksPerGroup)).bitmap (b % fs.blocksPerGroup)

/-- The end of `new_block`. -/
def blockFound (fs : Filsys) (group block : ℕ) : Filsys × ℕ :=
  let g := fs.groups group
  ({ fs with
      freeBlockCount := minus fs.freeBlockCount 1
      groups := Function.update fs.groups group
        { g with
          bitmap := Function.update g.bitmap block true
          freeBlockCount := minus g.freeBlockCount 1
          firstFreeBlock := if g.firstFreeBlock = block then word (block + 1) else g.firstFreeBlock } },
    word (block + group * fs.blocksPerGroup))

/-- The free block that `new_block` tries in a group, and the group then. -/
def firstFree (g : BlkGroup) : BlkGroup × ℕ :=
  if g.firstFreeBlock ≠ noBlock then (g, findNextZeroBit g.bitmap g.blockCount g.firstFreeBlock)
  else
    let block := findFirstZeroBit g.bitmap g.blockCount
    ({ g with firstFreeBlock := block }, block)

/-- The loop of `new_block` over all groups. -/
def searchGroups (fs : Filsys) : ℕ → ℕ → Filsys × ℕ
  | 0, _ => (fs, noBlock)
  | n + 1, group =>
    let next := if fs.groupCount ≤ group + 1 then 0 else group + 1
    if 0 < (fs.groups group).freeBlockCount then
      let r := firstFree (fs.groups group)
      let fs' := { fs with groups := Function.update fs.groups group r.1 }
      if r.2 ≠ (fs.groups group).blockCount then fs'.blockFound group r.2
      else searchGroups fs' n next
    else searchGroups fs n next

def newBlock (fs : Filsys) (goal : ℕ) : Option (Filsys × ℕ) :=
  if goal < fs.blockCount then
    let group := goal / fs.blocksPerGroup
    let block := goal % fs.blocksPerGroup
    let g := fs.groups group
    if fs.groupCount ≤ group then none
    else if g.bitmap block = false then some (fs.blockFound group block)
    else
      let block := findNextZeroBit g.bitmap g.blockCount (block + 1)
      if block ≠ g.blockCount then some (fs.blockFound group block)
      else some (fs.searchGroups fs.groupCount group)
  else some (fs.searchGroups fs.groupCount 0)

/-- One round of the loop of `free_blocks`. -/
def freeBlock (fs : Filsys) (b : ℕ) : Option Filsys :=
  let group := b / fs.blocksPerGroup
  let block := b % fs.blocksPerGroup
  let g := fs.groups group
  if fs.groupCount ≤ group then none
  else
    some { fs with
      freeBlockCount := word (fs.freeBlockCount + 1)
      groups := Function.update fs.groups group
        { g with
          bitmap := Function.update g.bitmap block false
          freeBlockCount := word (g.freeBlockCount + 1)
          firstFreeBlock := if block < g.firstFreeBlock then block else g.firstFreeBlock }
      freed := b :: fs.freed }

def freeBlocks (fs : Filsys) (blocks : List ℕ) : Option Filsys := blocks.foldlM freeBlock fs

end Filsys

end SimpleKernel.Dfs
