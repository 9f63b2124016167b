import SimpleKernel.Dfs.Inode
import SimpleKernel.Lib.Records
import SimpleKernel.Vfs.Mounts

/-! Directories, `fs/dfs/dir.c`. The blocks of a directory hold records of different lengths. -/
namespace SimpleKernel.Dfs
open Records Splice
open Vfs (Path Cred check fnmatch maxPath sIexec)

def sIwrite : ℕ := 128

def sIfmt : ℕ := 61440

def sIfdir : ℕ := 16384

inductive DirError
  | einval | enametoolong | enotdir | eacces | eio | enoent | enospc
  deriving DecidableEq, Repr

/-- The inode of a directory. `data b` are the bytes in the buffer of block `b`. -/
structure Directory where
  inode : Inode
  blocksize : ℕ
  size : ℕ
  mode : ℕ
  uid : ℕ
  gid : ℕ
  data : ℕ → ℕ → UInt8

/-- `sizeof(struct dentry)`. -/
def dentrySize : ℕ := 12

def nameAlignLen (l : ℕ) : ℕ := (l + 3) / 4 * 4

/-! The fields of the record at `p`. -/

def deIno (d : ℕ → UInt8) (p : ℕ) : UInt32 := UInt32.ofNat (get32 d p)

def deReclen (d : ℕ → UInt8) (p : ℕ) : ℕ := get32 d (p + 4)

def deNamelen (d : ℕ → UInt8) (p : ℕ) : ℕ := get32 d (p + 8)

def deName (d : ℕ → UInt8) (p : ℕ) : Path :=
  (List.range (deNamelen d p)).map fun k => d (p + dentrySize + k)

/-- All fields of the record at `p` are set. -/
def putDentry (d : ℕ → UInt8) (p : ℕ) (ino : UInt32) (reclen : ℕ) (name : Path) : ℕ → UInt8 :=
  patch (put32 (put32 (put32 d p ino.toNat) (p + 4) reclen) (p + 8) name.length) (p + dentrySize) name

/-- The test of the loops for a name. -/
def hasName (name : Path) (d : ℕ → UInt8) (p : ℕ) : Bool :=
  fnmatch name name.length (deName d p) (deNamelen d p)

def minLen (namelen : ℕ) : ℕ := dentrySize + nameAlignLen namelen

/-- The test of the loop of `add_dir_entry`. -/
def hasRoom (name : Path) (d : ℕ → UInt8) (p : ℕ) : Bool :=
  decide (minLen (deNamelen d p) + minLen name.length ≤ deReclen d p)

/-- The new record behind the name of the one at `p`. -/
def addAfter (d : ℕ → UInt8) (p : ℕ) (ino : UInt32) (name : Path) : ℕ → UInt8 :=
  let minlen := minLen (deNamelen d p)
  put32 (putDentry d (p + minlen) ino (minus (deReclen d p) minlen) name) (p + 4) minlen

/-- The record at `p` is merged with the one before it. -/
def mergePrev (d : ℕ → UInt8) (prev p : ℕ) : ℕ → UInt8 :=
  patch (put32 d (prev + 4) (deReclen d prev + deReclen d p)) p (List.replicate (deReclen d p) 0)

/-- The record after the first one is moved down. -/
def mergeNext (d : ℕ → UInt8) (p : ℕ) : ℕ → UInt8 :=
  let next := p + deReclen d p
  putDentry d p (deIno d next) (deReclen d p + deReclen d next) (deName d next)

/-- Where a loop over all records stopped: the number of the block in the directory, its block, the
record before the one that was found, and the record. -/
structure Place where
  block : ℕ
  blk : ℕ
  prev : Option ℕ
  p : ℕ

namespace Directory

def checki (dir : Directory) (t : Cred) (access : ℕ) : Bool :=
  check t dir.mode dir.uid dir.gid access

def isDir (dir : Directory) : Bool := decide (dir.mode &&& sIfmt = sIfdir)

/-- The loops over the records of `count` blocks from `block` on. -/
def search (dir : Directory) (test : (ℕ → UInt8) → ℕ → Bool) :
    ℕ → ℕ → Option (Except DirError (Option Place))
  | 0, _ => some (.ok none)
  | count + 1, block =>
    match dir.inode.getInodeBlock block with
    | none => none
    | some blk =>
      if blk = noBlock then some (.error .eio)
      else
        match walk (deReclen (dir.data blk)) (test (dir.data blk)) dir.blocksize dir.blocksize none 0 with
        | none => none
        | some none => dir.search test count (block + 1)
        | some (some (prev, p)) => some (.ok (some ⟨block, blk, prev, p⟩))

/-- The tests before the loops. -/
def refused (dir : Directory) (t : Cred) (access : ℕ) (name : Path) : Option DirError :=
  if name.length = 0 then some .einval
  else if maxPath ≤ name.length then some .enametoolong
  else if dir.isDir = false then some .enotdir
  else if dir.checki t access = false then some .eacces
  else none

/-- Block `blk` holds `d`. -/
def put (dir : Directory) (blk : ℕ) (d : ℕ → UInt8) : Directory :=
  { dir with data := Function.update dir.data blk d }

def findDirEntry (dir : Directory) (t : Cred) (name : Path) : Option (Except DirError UInt32) :=
  match dir.refused t sIexec name with
  | some e => some (.error e)
  | none =>
    (dir.search (hasName name) dir.inode.blocks 0).map fun
      | .error e => .error e
      | .ok none => .error .enoent
      | .ok (some l) => .ok (deIno (dir.data l.blk) l.p)

/-- The end of `add_dir_entry`: a block of its own for the new record. `alloc_buffer` clears the
buffer. -/
def addBlock (dir : Directory) (name : Path) (ino : UInt32) :
    Option (Directory × Except DirError Unit) :=
  dir.inode.expandInode.map fun r =>
    if r.2 = noBlock then ({ dir with inode := r.1 }, .error .enospc)
    else
      (Directory.put { dir with inode := r.1, size := dir.size + dir.blocksize } r.2
        (putDentry (fun _ => 0) 0 ino dir.blocksize name), .ok ())

def addDirEntry (dir : Directory) (t : Cred) (name : Path) (ino : UInt32) :
    Option (Directory × Except DirError Unit) :=
  match dir.refused t sIwrite name with
  | some e => some (dir, .error e)
  | none =>
    match dir.search (hasRoom name) dir.inode.blocks 0 with
    | none => none
    | some (.error e) => some (dir, .error e)
    | some (.ok (some l)) => some (dir.put l.blk (addAfter (dir.data l.blk) l.p ino name), .ok ())
    | some (.ok none) => dir.addBlock name ino

/-- The old inode number is returned. -/
def modifyDirEntry (dir : Directory) (t : Cred) (name : Path) (ino : UInt32) :
    Option (Directory × Except DirError UInt32) :=
  match dir.refused t sIwrite name with
  | some e => some (dir, .error e)
  | none =>
    (dir.search (hasName name) dir.inode.blocks 0).map fun
      | .error e => (dir, .error e)
      | .ok none => (dir, .error .enoent)
      | .ok (some l) =>
        (dir.put l.blk (put32 (dir.data l.blk) l.p ino.toNat), .ok (deIno (dir.data l.blk) l.p))

/-- The last block takes the place of block `block`, which is `blk`. -/
def swapLast (dir : Directory) (block blk : ℕ) : Option (Except DirError Inode) :=
  let last := minus dir.inode.blocks 1
  if block = last then some (.ok dir.inode)
  else
    match dir.inode.getInodeBlock last with
    | none => none
    | some lastblk =>
      if lastblk = noBlock then some (.error .eio)
      else
        (dir.inode.setInodeBlock block lastblk).bind fun r =>
          (r.1.setInodeBlock last blk).map fun r => .ok r.1

/-- The block is empty. -/
def deleteBlock (dir : Directory) (block blk : ℕ) : Option (Directory × Except DirError Unit) :=
  match dir.swapLast block blk with
  | none => none
  | some (.error e) => some (dir, .error e)
  | some (.ok inode) =>
    (inode.truncateInode (minus inode.blocks 1)).map fun r =>
      ({ dir with inode := r.1, size := dir.size - dir.blocksize }, .ok ())

def deleteDirEntry (dir : Directory) (t : Cred) (name : Path) :
    Option (Directory × Except DirError Unit) :=
  if name.length = 0 ∨ maxPath ≤ name.length then some (dir, .error .enametoolong)
  else if dir.isDir = false then some (dir, .error .enotdir)
  else if dir.checki t sIwrite = false then some (dir, .error .eacces)
  else
    match dir.search (hasName name) dir.inode.blocks 0 with
    | none => none
    | some (.error e) => some (dir, .error e)
    | some (.ok none) => some (dir, .error .enoent)
    | some (.ok (some l)) =>
      let d := dir.data l.blk
      match l.prev with
      | some prev => some (dir.put l.blk (mergePrev d prev l.p), .ok ())
      | none =>
        if deReclen d l.p = dir.blocksize then dir.deleteBlock l.block l.blk
        else some (dir.put l.blk (mergeNext d l.p), .ok ())

/-- `dfs_readdir` for one entry at `pos`: the new position, and the entry unless there is none. -/
def dfsReaddir (dir : Directory) (pos count : ℕ) :
    Option (ℕ × Except DirError (Option (Path × UInt32))) :=
  if count ≠ 1 then some (pos, .error .einval)
  else if dir.size ≤ pos then some (pos, .ok none)
  else
    let iblock := word pos / dir.blocksize
    let start := word pos % dir.blocksize
    match dir.inode.getInodeBlock iblock with
    | none => none
    | some blk =>
      if blk = noBlock then some (pos, .error .eio)
      else
        let d := dir.data blk
        if dir.blocksize < word (deReclen d start + start) ∨ deNamelen d start = 0 ∨
            maxPath ≤ deNamelen d start then some (pos, .ok none)
        else some (pos + deReclen d start, .ok (some (deName d start, deIno d start)))

end Directory

end SimpleKernel.Dfs
