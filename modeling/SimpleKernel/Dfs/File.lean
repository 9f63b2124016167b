import SimpleKernel.Dfs.Inode
import SimpleKernel.Lib.Splice

/-! Reading and writing a file, `fs/dfs/file.c`. A file system block is read and written through the
buffer cache, or directly on the device. -/
namespace SimpleKernel.Dfs
open Splice

/-- `DFS_MAXFILESIZE`. -/
def maxFileSize : ℕ := 2 ^ 31 - 1

inductive FileError
  | eintr | eio | enospc | efbig | eisdir | einval
  deriving DecidableEq, Repr

/-- A device with blocks of `blksize` bytes, and the buffers of its cache by block number. A buffer
holds `blksPerBuffer` blocks of the device. -/
structure Storage where
  blksize : ℕ
  blksPerBuffer : ℕ
  dev : ℕ → ℕ → UInt8
  cache : ℕ → Option (ℕ → UInt8)

namespace Storage

/-- Byte `k` from device block `blkno` on. -/
def devByte (s : Storage) (blkno k : ℕ) : UInt8 := s.dev (blkno + k / s.blksize) (k % s.blksize)

def devRead (s : Storage) (blkno count : ℕ) : List UInt8 := (List.range count).map (s.devByte blkno)

def devWrite (s : Storage) (blkno : ℕ) (bytes : List UInt8) : Storage :=
  { s with dev := fun x o =>
      if blkno ≤ x ∧ o < s.blksize then bytes[(x - blkno) * s.blksize + o]?.getD (s.dev x o)
      else s.dev x o }

/-- What `get_buffer` finds in block `blk` of the file system. -/
def view (s : Storage) (blk : ℕ) : ℕ → UInt8 :=
  match s.cache blk with
  | some data => data
  | none => fun o =>
    if o < s.blksPerBuffer * s.blksize then s.devByte (blk * s.blksPerBuffer) o else 0

/-- The buffer of block `blk` holds `data`. -/
def putBuffer (s : Storage) (blk : ℕ) (data : ℕ → UInt8) : Storage :=
  { s with cache := Function.update s.cache blk (some data) }

def getBuffer (s : Storage) (blk : ℕ) : Storage := s.putBuffer blk (s.view blk)

end Storage

/-- `filp->flags`. -/
structure Flags where
  append : Bool
  direct : Bool
  closed : Bool

/-- An open file with its inode, file system and device. -/
structure File where
  inode : Inode
  blocksize : ℕ
  size : ℕ
  isDir : Bool
  store : Storage

namespace File

/-- The loop of `dfs_read`; every round reads at least one byte. -/
def readLoop (f : File) (flags : Flags) :
    ℕ → Storage → ℕ → ℕ → List UInt8 → Option (Storage × Except FileError (List UInt8))
  | 0, s, _, _, read => some (s, .ok read)
  | n + 1, s, pos, size, read =>
    if pos < f.size ∧ 0 < size then
      if flags.closed then some (s, .error .eintr)
      else
        let iblock := word (pos / f.blocksize)
        let start := word (pos % f.blocksize)
        let count := min (min (f.blocksize - start) size) (f.size - word pos)
        if count = 0 then some (s, .ok read)
        else
          match f.inode.getInodeBlock iblock with
          | none => none
          | some blk =>
            if blk = noBlock then some (s, .error .eio)
            else if flags.direct then
              if start ≠ 0 ∨ count ≠ f.blocksize then some (s, .ok read)
              else f.readLoop flags n s (pos + count) (size - count) (read ++ s.devRead blk count)
            else
              f.readLoop flags n (s.getBuffer blk) (pos + count) (size - count)
                (read ++ (List.range count).map fun k => s.view blk (start + k))
    else some (s, .ok read)

/-- The bytes that are read; their number is the return value. -/
def dfsRead (f : File) (flags : Flags) (size pos : ℕ) :
    Option (Storage × Except FileError (List UInt8)) :=
  f.readLoop flags size f.store pos size []

/-- The block for block `iblock` of the file, a new one at its end. `none` as a result stands for
`return written`. -/
def blockFor (f : File) (iblock : ℕ) : Option (File × Except (Option FileError) ℕ) :=
  if iblock < f.inode.blocks then
    (f.inode.getInodeBlock iblock).map fun blk =>
      (f, if blk = noBlock then .error (some .eio) else .ok blk)
  else if iblock = f.inode.blocks then
    f.inode.expandInode.map fun r =>
      ({ f with inode := r.1 }, if r.2 = noBlock then .error (some .enospc) else .ok r.2)
  else some (f, .error none)

/-- The bytes `p` are copied into the buffer of block `blk`. -/
def writeBuffer (f : File) (blk start : ℕ) (p : List UInt8) : Storage :=
  let data := if p.length = f.blocksize then fun _ => 0 else f.store.view blk
  f.store.putBuffer blk (patch data start p)

/-- The file after a round of `dfs_write` that ended at `pos`. -/
def wrote (f : File) (store : Storage) (pos : ℕ) : File :=
  { f with store := store, size := if f.size < pos then pos else f.size }

/-- The loop of `dfs_write`; every round writes at least one byte. -/
def writeLoop (flags : Flags) :
    ℕ → File → ℕ → List UInt8 → ℕ → Option (File × Except FileError ℕ)
  | 0, f, _, _, written => some (f, .ok written)
  | n + 1, f, pos, p, written =>
    if 0 < p.length then
      if flags.closed then some (f, .error .eintr)
      else
        let iblock := word pos / f.blocksize
        let start := word pos % f.blocksize
        let count := min (f.blocksize - start) p.length
        match f.blockFor iblock with
        | none => none
        | some (f, .error (some e)) => some (f, .error e)
        | some (f, .error none) => some (f, .ok written)
        | some (f, .ok blk) =>
          if flags.direct then
            if start ≠ 0 ∨ count ≠ f.blocksize then some (f, .ok written)
            else
              writeLoop flags n (f.wrote (f.store.devWrite blk (p.take count)) (pos + count))
                (pos + count) (p.drop count) (written + count)
          else
            writeLoop flags n (f.wrote (f.writeBuffer blk start (p.take count)) (pos + count))
              (pos + count) (p.drop count) (written + count)
    else some (f, .ok written)

/-- The loop of `dfs_ftruncate` that adds cleared blocks, at most `n` of them. -/
def clearBlocks (blocks : ℕ) : ℕ → File → Option (File × Except FileError Unit)
  | 0, f => some (f, .ok ())
  | n + 1, f =>
    if f.inode.blocks < blocks then
      match f.inode.expandInode with
      | none => none
      | some (inode, blk) =>
        if blk = noBlock then some ({ f with inode := inode }, .error .enospc)
        else
          clearBlocks blocks n
            { f with inode := inode, store := f.store.putBuffer blk fun _ => 0 }
    else some (f, .ok ())

def dfsFtruncate (f : File) (size : ℕ) : Option (File × Except FileError Unit) :=
  if maxFileSize < size then some (f, .error .efbig)
  else if f.isDir then some (f, .error .eisdir)
  else if size = f.size then some (f, .ok ())
  else
    let blocks := word (size + f.blocksize - 1) / f.blocksize
    if f.size < size then
      (clearBlocks blocks blocks f).map fun r =>
        match r with
        | (f, .error e) => (f, .error e)
        | (f, .ok ()) => ({ f with size := size }, .ok ())
    else
      (f.inode.truncateInode blocks).map fun r =>
        if r.2 < 0 then ({ f with inode := r.1 }, .error .einval)
        else ({ f with inode := r.1, size := size }, .ok ())

def dfsWrite (f : File) (flags : Flags) (p : List UInt8) (pos : ℕ) :
    Option (File × Except FileError ℕ) :=
  let pos := if flags.append then f.size else pos
  if maxFileSize < pos + p.length then some (f, .error .efbig)
  else if f.isDir then some (f, .error .eisdir)
  else if f.size < pos then
    match f.dfsFtruncate pos with
    | none => none
    | some (f, .error e) => some (f, .error e)
    | some (f, .ok ()) => writeLoop flags p.length f pos p 0
  else writeLoop flags p.length f pos p 0

end File

end SimpleKernel.Dfs
