import SimpleKernel.Dfs.Directory

/-! The names of a file system, `fs/dfs/dfs.c` and the open routines of `fs/dfs/file.c`. A directory is the list of
its entries, a file the list of its bytes; their blocks are in other modules. There are no I/O errors, and `kmalloc`
never lacks memory. -/
namespace SimpleKernel.Dfs
open Vfs (Path Cred check maxPath isSep sIexec)

inductive FsError
  | einval | enametoolong | enotdir | eacces | enoent | enospc | eexist | eisdir | eperm | enotempty
  deriving DecidableEq, Repr

/-- `struct inodedesc`. The size of a directory is not 0 if it has entries. -/
structure Desc where
  mode : ℕ
  uid : ℕ
  gid : ℕ
  linkcount : ℤ
  content : List UInt8
  entries : List (Path × ℕ)
  deriving DecidableEq

/-- A descriptor after `memset`. -/
def Desc.zero : Desc := ⟨0, 0, 0, 0, [], []⟩

def Desc.isDir (d : Desc) : Bool := decide (d.mode &&& sIfmt = sIfdir)

/-- The descriptors and the bitmap of the inodes. -/
structure Names where
  inodeCount : ℕ
  reservedInodes : ℕ
  desc : ℕ → Desc
  allocated : ℕ → Bool

/-- A mounted file system with the lock counts of its buffers. `table i` is the block of the inode table
with the descriptor of `i`. -/
structure Disk extends Names where
  table : ℕ → ℕ
  locks : ℕ → ℤ

/-- What the allocators answer during a call: the inode that `new_inode` finds, and whether
`add_dir_entry` finds room. -/
structure Space where
  newInode : Option ℕ
  room : Bool

/-- `DFS_INODE_ROOT`. -/
def rootInode : ℕ := 0

def sIfreg : ℕ := 32768

def sIrwxugo : ℕ := 511

namespace Names

def setDesc (v : Names) (i : ℕ) (d : Desc) : Names := { v with desc := Function.update v.desc i d }

def checki (v : Names) (t : Cred) (i access : ℕ) : Bool :=
  check t (v.desc i).mode (v.desc i).uid (v.desc i).gid access

/-- The tests that the directory operations begin with. -/
def refused (v : Names) (t : Cred) (dir access : ℕ) (name : Path) : Option FsError :=
  if name.length = 0 then some .einval
  else if maxPath ≤ name.length then some .enametoolong
  else if (v.desc dir).isDir = false then some .enotdir
  else if v.checki t dir access = false then some .eacces
  else none

def findDirEntry (v : Names) (t : Cred) (dir : ℕ) (name : Path) : Except FsError ℕ :=
  match v.refused t dir sIexec name with
  | some e => .error e
  | none =>
    match (v.desc dir).entries.lookup name with
    | some i => .ok i
    | none => .error .enoent

def setEntries (v : Names) (dir : ℕ) (es : List (Path × ℕ)) : Names :=
  v.setDesc dir { v.desc dir with entries := es }

def addDirEntry (v : Names) (t : Cred) (space : Space) (dir : ℕ) (name : Path) (i : ℕ) :
    Except FsError Names :=
  match v.refused t dir sIwrite name with
  | some e => .error e
  | none =>
    if space.room then .ok (v.setEntries dir ((v.desc dir).entries ++ [(name, i)])) else .error .enospc

/-- The first entry with this name gets another inode. -/
def replaceEntry (name : Path) (i : ℕ) : List (Path × ℕ) → List (Path × ℕ)
  | [] => []
  | e :: es => if e.1 = name then (name, i) :: es else e :: replaceEntry name i es

def modifyDirEntry (v : Names) (t : Cred) (dir : ℕ) (name : Path) (i : ℕ) : Except FsError Names :=
  match v.refused t dir sIwrite name with
  | some e => .error e
  | none =>
    if ((v.desc dir).entries.lookup name).isSome then
      .ok (v.setEntries dir (replaceEntry name i (v.desc dir).entries))
    else .error .enoent

/-- The first entry with this name is removed. -/
def removeEntry (name : Path) (es : List (Path × ℕ)) : List (Path × ℕ) :=
  es.eraseP fun e => e.1 == name

def deleteDirEntry (v : Names) (t : Cred) (dir : ℕ) (name : Path) : Except FsError Names :=
  if name.length = 0 ∨ maxPath ≤ name.length then .error .enametoolong
  else if (v.desc dir).isDir = false then .error .enotdir
  else if v.checki t dir sIwrite = false then .error .eacces
  else if ((v.desc dir).entries.lookup name).isSome then
    .ok (v.setEntries dir (removeEntry name (v.desc dir).entries))
  else .error .enoent

/-! Paths. The inodes on the way are released again. -/

/-- The loop of `lookup_name`; every round that goes on takes at least one character. -/
def lookupLoop (v : Names) (t : Cred) : ℕ → ℕ → Path → Except FsError ℕ
  | 0, i, _ => .ok i
  | n + 1, i, name =>
    let name := Vfs.skipSep name
    if name.length = 0 then .ok i
    else if v.inodeCount ≤ i then .error .einval
    else
      match v.findDirEntry t i (name.takeWhile fun c => !isSep c) with
      | .error e => .error e
      | .ok i =>
        let rest := name.dropWhile fun c => !isSep c
        if rest.length = 0 then .ok i else v.lookupLoop t n i rest

def lookupName (v : Names) (t : Cred) (i : ℕ) (name : Path) : Except FsError ℕ :=
  v.lookupLoop t (name.length + 1) i name

/-- `while (p > start && *p != PS1 && *p != PS2) p--` from `p` on. -/
def lastSep (name : Path) : ℕ → ℕ
  | 0 => 0
  | p + 1 => if (name[p + 1]?.map isSep).getD false then p + 1 else lastSep name p

/-- The test of `get_inode`. -/
def getInode (v : Names) (i : ℕ) : Except FsError ℕ :=
  if v.inodeCount ≤ i then .error .einval else .ok i

/-- The directory of a path and the name in it. -/
def diri (v : Names) (t : Cred) (name : Path) : Except FsError (ℕ × Path) :=
  if name.length = 0 then (v.getInode rootInode).map fun i => (i, name)
  else
    let p := lastSep name (name.length - 1)
    if p = 0 then (v.getInode rootInode).map fun i => (i, Vfs.skipSep name)
    else
      match v.lookupName t rootInode (name.take p) with
      | .error e => .error e
      | .ok i =>
        match v.getInode i with
        | .error e => .error e
        | .ok i => if (v.desc i).isDir = false then .error .enotdir else .ok (i, name.drop (p + 1))

def namei (v : Names) (t : Cred) (name : Path) : Except FsError ℕ :=
  match v.lookupName t rootInode name with
  | .error e => .error e
  | .ok i => v.getInode i

/-- `alloc_inode` with the number that `new_inode` found. -/
def allocInode (v : Names) (t : Cred) (i mode : ℕ) : Names :=
  { v with
    allocated := Function.update v.allocated i true
    desc := Function.update v.desc i ⟨mode, t.euid, t.egid, 1, [], []⟩ }

def unlinkInode (v : Names) (i : ℕ) : Names :=
  let d := { v.desc i with linkcount := (v.desc i).linkcount - 1 }
  if 0 < d.linkcount then v.setDesc i d
  else
    let v := v.setDesc i .zero
    if v.reservedInodes ≤ i then { v with allocated := Function.update v.allocated i false } else v

/-- `linkcount++`. -/
def linkInode (v : Names) (i : ℕ) : Names :=
  v.setDesc i { v.desc i with linkcount := (v.desc i).linkcount + 1 }

/-- A special inode becomes a file of the super user with one more link. -/
def takeSpecial (v : Names) (i : ℕ) : Names :=
  v.setDesc i
    { v.desc i with
      mode := sIfreg ||| 448
      uid := 0
      gid := 0
      linkcount := (v.desc i).linkcount + 1 }

end Names

namespace Disk

/-- The names change, the locks do not. -/
def withNames (v : Disk) (n : Names) : Disk := { v with toNames := n }

/-- A reference to an inode locks the buffer with its descriptor. -/
def lockInode (v : Disk) (i : ℕ) : Disk :=
  { v with locks := Function.update v.locks (v.table i) (v.locks (v.table i) + 1) }

def releaseInode (v : Disk) (i : ℕ) : Disk :=
  { v with locks := Function.update v.locks (v.table i) (v.locks (v.table i) - 1) }

def getInode (v : Disk) (i : ℕ) : Disk × Except FsError ℕ :=
  match v.toNames.getInode i with
  | .error e => (v, .error e)
  | .ok i => (v.lockInode i, .ok i)

def diri (v : Disk) (t : Cred) (name : Path) : Disk × Except FsError (ℕ × Path) :=
  match v.toNames.diri t name with
  | .error e => (v, .error e)
  | .ok r => (v.lockInode r.1, .ok r)

def namei (v : Disk) (t : Cred) (name : Path) : Disk × Except FsError ℕ :=
  match v.toNames.namei t name with
  | .error e => (v, .error e)
  | .ok i => (v.lockInode i, .ok i)

/-- The new inode is locked. -/
def allocInode (v : Disk) (t : Cred) (space : Space) (mode : ℕ) : Option (Disk × ℕ) :=
  space.newInode.map fun i => ((v.withNames (v.toNames.allocInode t i mode)).lockInode i, i)

def unlinkInode (v : Disk) (i : ℕ) : Disk := v.withNames (v.toNames.unlinkInode i)

/-- The end of the functions that add an inode to the locked directory `dir`: the inode is given back
if the entry cannot be made. -/
def enter (v : Disk) (t : Cred) (space : Space) (dir : ℕ) (name : Path) (i : ℕ) :
    Disk × Except FsError ℕ :=
  match v.toNames.addDirEntry t space dir name i with
  | .error e => (((v.unlinkInode i).releaseInode i).releaseInode dir, .error e)
  | .ok n => ((v.withNames n).releaseInode dir, .ok i)

/-! `fs/dfs/file.c`. -/

def openExisting (v : Disk) (t : Cred) (name : Path) : Disk × Except FsError ℕ := v.namei t name

def openAlways (v : Disk) (t : Cred) (space : Space) (name : Path) (mode : ℕ) :
    Disk × Except FsError ℕ :=
  match v.diri t name with
  | (v, .error e) => (v, .error e)
  | (v, .ok (dir, name)) =>
    match v.findDirEntry t dir name with
    | .ok i =>
      match v.getInode i with
      | (v, .error e) => (v.releaseInode dir, .error e)
      | (v, .ok i) => (v.releaseInode dir, .ok i)
    | .error e =>
      if e ≠ .enoent then (v.releaseInode dir, .error e)
      else
        match v.allocInode t space (sIfreg ||| (mode &&& sIrwxugo)) with
        | none => (v.releaseInode dir, .error .enospc)
        | some (v, i) => v.enter t space dir name i

/-- An existing entry gets a new inode. The errors of this branch do not release the old one. -/
def replaceExisting (v : Disk) (t : Cred) (space : Space) (dir : ℕ) (name : Path) (old mode : ℕ) :
    Disk × Except FsError ℕ :=
  if (v.desc old).isDir = true ∧ (v.desc old).linkcount = 1 then (v.releaseInode dir, .error .eisdir)
  else
    match v.allocInode t space (sIfreg ||| (mode &&& sIrwxugo)) with
    | none => (v.releaseInode dir, .error .enospc)
    | some (v, i) =>
      match v.toNames.modifyDirEntry t dir name i with
      | .error e => (((v.unlinkInode i).releaseInode i).releaseInode dir, .error e)
      | .ok n => ((((v.withNames n).unlinkInode old).releaseInode old).releaseInode dir, .ok i)

def createAlways (v : Disk) (t : Cred) (space : Space) (name : Path) (mode : ℕ) :
    Disk × Except FsError ℕ :=
  match v.diri t name with
  | (v, .error e) => (v, .error e)
  | (v, .ok (dir, name)) =>
    match v.findDirEntry t dir name with
    | .ok old =>
      match v.getInode old with
      | (v, .error e) => (v.releaseInode dir, .error e)
      | (v, .ok old) => v.replaceExisting t space dir name old mode
    | .error e =>
      if e ≠ .enoent then (v.releaseInode dir, .error e)
      else
        match v.allocInode t space (sIfreg ||| (mode &&& sIrwxugo)) with
        | none => (v.releaseInode dir, .error .enospc)
        | some (v, i) => v.enter t space dir name i

def truncateExisting (v : Disk) (t : Cred) (name : Path) : Disk × Except FsError ℕ :=
  match v.namei t name with
  | (v, .error e) => (v, .error e)
  | (v, .ok i) =>
    if (v.desc i).isDir then (v.releaseInode i, .error .eisdir)
    else (v.withNames (v.toNames.setDesc i { v.desc i with content := [] }), .ok i)

def noInode : ℕ := 2 ^ 32 - 1

def createNew (v : Disk) (t : Cred) (space : Space) (name : Path) (ino mode : ℕ) :
    Disk × Except FsError ℕ :=
  match v.diri t name with
  | (v, .error e) => (v, .error e)
  | (v, .ok (dir, name)) =>
    match v.findDirEntry t dir name with
    | .ok _ => (v.releaseInode dir, .error .eexist)
    | .error e =>
      if e ≠ .enoent then (v.releaseInode dir, .error e)
      else if ino = noInode then
        match v.allocInode t space (sIfreg ||| (mode &&& sIrwxugo)) with
        | none => (v.releaseInode dir, .error .enospc)
        | some (v, i) => v.enter t space dir name i
      else
        match v.getInode ino with
        | (v, .error e) => (v.releaseInode dir, .error e)
        | (v, .ok ino) =>
          (v.withNames (v.toNames.takeSpecial ino)).enter t space dir name ino

/-! Flags of `open`. -/

def oWronly : ℕ := 1
def oRdwr : ℕ := 2
def oSpecial : ℕ := 4
def oCreat : ℕ := 256
def oTrunc : ℕ := 512
def oExcl : ℕ := 1024

/-- `filp->flags >> 24` of an `int` as an inode number. -/
def specialInode (flags : ℕ) : ℕ :=
  let b := flags / 2 ^ 24 % 2 ^ 8
  if b < 2 ^ 7 then b else 2 ^ 32 - 2 ^ 8 + b

/-- What `dfs_open` does for the flags. -/
inductive OpenKind
  | openExisting | openAlways | createNew | truncateExisting | createAlways | special | invalid
  deriving DecidableEq

def openKind (flags : ℕ) : OpenKind :=
  let f := flags &&& (oCreat ||| oExcl ||| oTrunc ||| oSpecial)
  if f = 0 ∨ f = oExcl then .openExisting
  else if f = oCreat then .openAlways
  else if f = oCreat ||| oExcl ∨ f = oCreat ||| oTrunc ||| oExcl then .createNew
  else if f = oTrunc ∨ f = oTrunc ||| oExcl then .truncateExisting
  else if f = oCreat ||| oTrunc then .createAlways
  else if f = oSpecial then .special
  else .invalid

def dfsOpen (v : Disk) (t : Cred) (space : Space) (name : Path) (flags mode : ℕ) :
    Disk × Except FsError ℕ :=
  match openKind flags with
  | .openExisting => v.openExisting t name
  | .openAlways => v.openAlways t space name mode
  | .createNew => v.createNew t space name noInode mode
  | .truncateExisting => v.truncateExisting t name
  | .createAlways => v.createAlways t space name mode
  | .special => v.createNew t space name (specialInode flags) mode
  | .invalid => (v, .error .einval)

/-! `fs/dfs/dfs.c`. -/

def dfsMkdir (v : Disk) (t : Cred) (space : Space) (name : Path) (mode : ℕ) :
    Disk × Except FsError Unit :=
  if name.length = 0 then (v, .error .eexist)
  else
    match v.diri t name with
    | (v, .error e) => (v, .error e)
    | (v, .ok (parent, name)) =>
      match v.findDirEntry t parent name with
      | .ok _ => (v.releaseInode parent, .error .eexist)
      | .error e =>
        if e ≠ .enoent then (v.releaseInode parent, .error e)
        else
          match v.allocInode t space (sIfdir ||| (mode &&& sIrwxugo)) with
          | none => (v.releaseInode parent, .error .enospc)
          | some (v, i) =>
            match v.enter t space parent name i with
            | (v, .error e) => (v, .error e)
            | (v, .ok i) => (v.releaseInode i, .ok ())

def dfsRmdir (v : Disk) (t : Cred) (name : Path) : Disk × Except FsError Unit :=
  match v.diri t name with
  | (v, .error e) => (v, .error e)
  | (v, .ok (parent, name)) =>
    match v.findDirEntry t parent name with
    | .error e => (v.releaseInode parent, .error e)
    | .ok i =>
      if i = rootInode then (v.releaseInode parent, .error .eperm)
      else
        match v.getInode i with
        | (v, .error e) => (v.releaseInode parent, .error e)
        | (v, .ok i) =>
          if (v.desc i).isDir = false then ((v.releaseInode i).releaseInode parent, .error .enotdir)
          else if (v.desc i).linkcount = 1 then
            if (v.desc i).entries ≠ [] then
              ((v.releaseInode i).releaseInode parent, .error .enotempty)
            else
              match v.toNames.deleteDirEntry t parent name with
              | .error e => ((v.releaseInode i).releaseInode parent, .error e)
              | .ok n => ((((v.withNames n).unlinkInode i).releaseInode i).releaseInode parent, .ok ())
          else (((v.unlinkInode i).releaseInode i).releaseInode parent, .ok ())

def dfsRename (v : Disk) (t : Cred) (space : Space) (oldname newname : Path) :
    Disk × Except FsError Unit :=
  match v.diri t oldname with
  | (v, .error e) => (v, .error e)
  | (v, .ok (oldparent, oldname)) =>
    match v.findDirEntry t oldparent oldname with
    | .error e => (v.releaseInode oldparent, .error e)
    | .ok i =>
      match v.diri t newname with
      | (v, .error e) => (v.releaseInode oldparent, .error e)
      | (v, .ok (newparent, newname)) =>
        let quit (v : Disk) (r : Except FsError Unit) :=
          ((v.releaseInode oldparent).releaseInode newparent, r)
        let found := v.findDirEntry t newparent newname
        if found ≠ .error .enoent then
          if oldname = newname then quit v (.ok ())
          else
            match found with
            | .ok _ => quit v (.error .eexist)
            | .error e => quit v (.error e)
        else if v.checki t oldparent sIwrite = false ∨ v.checki t newparent sIwrite = false then
          quit v (.error .eacces)
        else
          match v.toNames.addDirEntry t space newparent newname i with
          | .error e => quit v (.error e)
          | .ok n =>
            let v := v.withNames n
            match v.toNames.deleteDirEntry t oldparent oldname with
            | .error e => quit v (.error e)
            | .ok n => quit (v.withNames n) (.ok ())

def dfsLink (v : Disk) (t : Cred) (space : Space) (oldname newname : Path) :
    Disk × Except FsError Unit :=
  match v.namei t oldname with
  | (v, .error e) => (v, .error e)
  | (v, .ok i) =>
    match v.diri t newname with
    | (v, .error e) => (v.releaseInode i, .error e)
    | (v, .ok (parent, newname)) =>
      match v.findDirEntry t parent newname with
      | .ok _ => ((v.releaseInode i).releaseInode parent, .error .eexist)
      | .error e =>
        if e ≠ .enoent then ((v.releaseInode i).releaseInode parent, .error e)
        else
          match (v.withNames (v.toNames.linkInode i)).enter t space parent newname i with
          | (v, .error e) => (v, .error e)
          | (v, .ok i) => (v.releaseInode i, .ok ())

def dfsUnlink (v : Disk) (t : Cred) (name : Path) : Disk × Except FsError Unit :=
  match v.diri t name with
  | (v, .error e) => (v, .error e)
  | (v, .ok (dir, name)) =>
    match v.findDirEntry t dir name with
    | .error e => (v.releaseInode dir, .error e)
    | .ok i =>
      match v.getInode i with
      | (v, .error e) => (v.releaseInode dir, .error e)
      | (v, .ok i) =>
        if (v.desc i).isDir then ((v.releaseInode i).releaseInode dir, .error .eisdir)
        else
          match v.toNames.deleteDirEntry t dir name with
          | .error e => ((v.releaseInode i).releaseInode dir, .error e)
          | .ok n => ((((v.withNames n).unlinkInode i).releaseInode i).releaseInode dir, .ok ())

end Disk

end SimpleKernel.Dfs
