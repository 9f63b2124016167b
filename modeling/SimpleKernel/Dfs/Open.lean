import SimpleKernel.Dfs.NameRuns

/-! `open` of `krnl/vfs.c` on the disk file system. -/
namespace SimpleKernel.Dfs
open Vfs (Path Cred Mounts Errno check canonicalize)

def sIread : ℕ := 256

/-- `O_TEXT | O_BINARY`. -/
def oTranslation : ℕ := 16384 ||| 32768

/-- What `open` fills in of a `struct file`. -/
structure OpenFile where
  fs : ℕ
  path : Path
  flags : ℕ
  inode : ℕ
  mode : ℕ
  owner : ℕ
  group : ℕ
  deriving DecidableEq

inductive OpenError
  | vfs (e : Errno)
  | emfile | etimeout
  | dfs (e : FsError)
  | eacces
  deriving DecidableEq

/-- The mount table, and the volume of every file system in it. -/
structure Mounted where
  mounts : Mounts
  volume : ℕ → Disk

/-- What `open` gets from the process environment block, from `kmalloc` and from the lock of the file
system, and what the allocators of the file system answer. -/
structure OpenEnv where
  umaskval : ℕ
  fmodeval : ℕ
  newfile : Bool
  locked : Bool
  space : Space

/-- The flags of a new file. -/
def OpenEnv.flags (env : OpenEnv) (flags : ℕ) : ℕ :=
  if flags &&& oTranslation = 0 then flags ||| env.fmodeval else flags

/-- `mode & ~umaskval`. -/
def OpenEnv.mode (env : OpenEnv) (mode : ℕ) : ℕ := mode ^^^ (mode &&& env.umaskval)

def fModified : ℕ := 2 ^ 20

/-- The flags after `dfs_open`. -/
def openedFlags (flags : ℕ) : ℕ :=
  match Disk.openKind flags with
  | .createNew | .truncateExisting | .createAlways | .special => flags ||| fModified
  | _ => flags

/-- The access that the flags ask for. -/
def accessOf (flags : ℕ) : ℕ :=
  if flags &&& Disk.oRdwr ≠ 0 then sIread ||| sIwrite
  else if flags &&& Disk.oWronly ≠ 0 then sIwrite
  else sIread

namespace Mounted

/-- `fs->locks` changes by `k`. -/
def addLocks (s : Mounted) (a : ℕ) (k : ℤ) : Mounted :=
  { s with
    mounts :=
      { s.mounts with
        fs := Function.update s.mounts.fs a { s.mounts.fs a with locks := (s.mounts.fs a).locks + k } } }

def withVolume (s : Mounted) (a : ℕ) (v : Disk) : Mounted :=
  { s with volume := Function.update s.volume a v }

/-- `open` after the path was looked up. -/
def openOn (s : Mounted) (t : Cred) (env : OpenEnv) (a : ℕ) (path rest : Path) (flags mode : ℕ) :
    Mounted × Except OpenError OpenFile :=
  if env.newfile = false then (s, .error .emfile)
  else
    let flags := env.flags flags
    let s := s.addLocks a 1
    if env.locked = false then (s.addLocks a (-1), .error .etimeout)
    else
      match (s.volume a).dfsOpen t env.space rest flags (env.mode mode) with
      | (v, .error e) => ((s.withVolume a v).addLocks a (-1), .error (.dfs e))
      | (v, .ok i) =>
        let flags := openedFlags flags
        if v.checki t i (accessOf flags) then
          (s.withVolume a v, .ok ⟨a, path, flags, i, (v.desc i).mode, (v.desc i).uid, (v.desc i).gid⟩)
        else ((s.withVolume a v).addLocks a (-1), .error .eacces)

/-- `open` by the thread `thread`; the mount list is searched within `n` rounds. -/
def vfsOpen (s : Mounted) (thread : ℕ) (t : Cred) (n : ℕ) (env : OpenEnv) (name : Path)
    (flags mode : ℕ) : Option (Mounted × Except OpenError OpenFile) :=
  match canonicalize (s.mounts.curdir thread) name with
  | .error e => some (s, .error (.vfs e))
  | .ok path =>
    (s.mounts.fslookup t n (some path) false).map fun
      | .error e => (s, .error (.vfs e))
      | .ok (a, rest) => s.openOn t env a path rest flags mode

end Mounted

/-- The same files and directory entries. -/
structure Names.SameFiles (v w : Names) : Prop where
  allocated : ∀ i, w.allocated i = v.allocated i
  content : ∀ i, v.allocated i = true → (w.desc i).content = (v.desc i).content
  entries : ∀ d e, e ∈ w.entriesOf d ↔ e ∈ v.entriesOf d

/-- The same files, entries and buffer locks. -/
structure Disk.Same (v w : Disk) : Prop where
  files : v.toNames.SameFiles w.toNames
  locks : ∀ b, w.locks b = v.locks b

/-- The same volumes, and the same locks on the file systems. -/
structure Mounted.Same (s s' : Mounted) : Prop where
  volume : ∀ a, (s.volume a).Same (s'.volume a)
  locks : ∀ a, (s'.mounts.fs a).locks = (s.mounts.fs a).locks

namespace Names
variable {v w u : Names} {t : Cred} {i x old dir mode : ℕ} {name : Path}

theorem SameFiles.refl (v : Names) : v.SameFiles v := ⟨fun _ => rfl, fun _ _ => rfl, fun _ _ => .rfl⟩

theorem sameFiles_of_live (halloc : ∀ x, w.allocated x = v.allocated x)
    (hdesc : ∀ x, v.allocated x = true → w.desc x = v.desc x) : v.SameFiles w := by
  refine ⟨halloc, fun x hx => by rw [hdesc x hx], fun d e => ?_⟩
  cases hd : v.allocated d with
  | false => rw [entriesOf_of_free hd, entriesOf_of_free ((halloc d).trans hd)]
  | true => simp only [entriesOf, halloc, hdesc d hd]

theorem isDir_regular (mode : ℕ) (δ : Desc) (h : δ.mode = sIfreg ||| (mode &&& sIrwxugo)) :
    δ.isDir = false := by
  have hbits : (sIfreg ||| (mode &&& sIrwxugo)) &&& sIfmt = sIfreg := by
    rw [Nat.and_or_distrib_right, Nat.and_assoc]
    simp [sIfreg, sIrwxugo, sIfmt]
  rw [Desc.isDir, h, hbits]
  decide

theorem sameFiles_discard (hfree : v.allocated i = false) (hres : v.reservedInodes ≤ i) (t : Cred)
    (mode : ℕ) : v.SameFiles ((v.allocInode t i mode).unlinkInode i) := by
  have hcount : ((v.allocInode t i mode).desc i).linkcount ≤ 1 := by
    rw [allocInode_desc_self]
  refine sameFiles_of_live (fun x => ?_) fun x hx => ?_
  · by_cases hx : x = i
    · subst hx
      rw [unlinkInode_free hcount hres, hfree]
      exact Function.update_self _ _ _
    · rw [(unlinkInode_other hx).1, allocInode_allocated_of_ne hx]
  · have hne : x ≠ i := by
      rintro rfl
      simp [hfree] at hx
    rw [(unlinkInode_other hne).2, allocInode_desc_of_ne hne]

/-- What `unlink_inode` may take from a special inode that could not be entered. -/
def Keeps (v : Names) (i : ℕ) : Prop :=
  ((v.desc i).isDir = true → (v.desc i).entries = []) ∧
    (0 < (v.desc i).linkcount ∨ (v.desc i).content = [] ∧ i < v.reservedInodes)

/-- A special inode as a regular file of the super user. -/
def special (v : Names) (i : ℕ) : Desc :=
  { v.desc i with
    mode := sIfreg ||| 448
    uid := 0
    gid := 0
    linkcount := (v.desc i).linkcount + 1 }

theorem special_isDir (v : Names) (i : ℕ) : (v.special i).isDir = false :=
  isDir_regular 448 _ rfl

theorem takeSpecial_eq (v : Names) (i : ℕ) : v.takeSpecial i = v.setDesc i (v.special i) := rfl

theorem leaf_entries (hleaf : w.entriesOf i = []) :
    (∀ e, e ∈ w.entriesOf i ↔ e ∈ v.entriesOf i) ↔
      (v.allocated i = true → (v.desc i).isDir = true → (v.desc i).entries = []) := by
  rw [hleaf]
  constructor
  · intro h hi hdir
    rw [entriesOf_of_live hi hdir] at h
    exact List.eq_nil_iff_forall_not_mem.mpr fun e he => List.not_mem_nil ((h e).mpr he)
  · intro h e
    cases hi : v.allocated i with
    | false => rw [entriesOf_of_free hi]
    | true =>
      cases hdir : (v.desc i).isDir with
      | false => rw [entriesOf_of_not_dir hdir]
      | true => rw [entriesOf_of_live hi hdir, h hi hdir]

theorem sameFiles_special_linked (hlinks : 0 < (v.desc i).linkcount) :
    v.SameFiles ((v.takeSpecial i).unlinkInode i) ↔
      (v.allocated i = true → (v.desc i).isDir = true → (v.desc i).entries = []) := by
  have hdesc := setDesc_desc_self v i (v.special i)
  have hkeep := unlinkInode_keep (by
    rw [hdesc]
    exact Int.lt_add_of_pos_left 1 hlinks)
  rw [hdesc] at hkeep
  rw [takeSpecial_eq, hkeep]
  set δ : Desc := { v.special i with linkcount := (v.special i).linkcount - 1 }
  have hδ : δ.isDir = false := special_isDir v i
  have hself : ((v.setDesc i (v.special i)).setDesc i δ).desc i = δ := setDesc_desc_self _ _ _
  have hother {x : ℕ} (hx : x ≠ i) : ((v.setDesc i (v.special i)).setDesc i δ).desc x = v.desc x := by
    rw [setDesc_desc_of_ne hx, setDesc_desc_of_ne hx]
  have hleaf : ((v.setDesc i (v.special i)).setDesc i δ).entriesOf i = [] := by
    apply entriesOf_of_not_dir
    rw [hself]
    exact hδ
  constructor
  · intro h
    exact (leaf_entries hleaf).mp (h.entries i)
  · intro h
    refine ⟨fun _ => rfl, fun x _ => ?_, fun d e => ?_⟩
    · by_cases hx : x = i
      · rw [hx, hself]
        rfl
      · rw [hother hx]
    · by_cases hd : d = i
      · subst hd
        exact (leaf_entries hleaf).mpr h e
      · rw [entriesOf_setDesc_of_ne hd, entriesOf_setDesc_of_ne hd]

theorem sameFiles_special_unlinked (hlinks : (v.desc i).linkcount ≤ 0) :
    v.SameFiles ((v.takeSpecial i).unlinkInode i) ↔
      (v.allocated i = true → ((v.desc i).isDir = true → (v.desc i).entries = []) ∧
        (v.desc i).content = [] ∧ i < v.reservedInodes) := by
  have hdesc := setDesc_desc_self v i (v.special i)
  have hle : ((v.setDesc i (v.special i)).desc i).linkcount ≤ 1 := by
    rw [hdesc]
    exact Int.add_le_add_right hlinks 1
  set w := (v.takeSpecial i).unlinkInode i with hw
  have hself : w.desc i = .zero := by
    rcases Nat.lt_or_ge i v.reservedInodes with hlt | hge
    · rw [hw, takeSpecial_eq, unlinkInode_reserved hle hlt, setDesc_desc_self]
    · rw [hw, takeSpecial_eq, unlinkInode_free hle hge]
      exact setDesc_desc_self _ _ _
  have hother {x : ℕ} (hx : x ≠ i) : w.allocated x = v.allocated x ∧ w.desc x = v.desc x := by
    obtain ⟨h₁, h₂⟩ := unlinkInode_other hx
    exact ⟨h₁, h₂.trans (setDesc_desc_of_ne hx)⟩
  have hzero : Desc.zero.isDir = false := by decide
  have hempty : w.entriesOf i = [] := entriesOf_of_not_dir (hself ▸ hzero)
  constructor
  · intro h hi
    refine ⟨(leaf_entries hempty).mp (h.entries i) hi, ?_, ?_⟩
    · rw [← h.content i hi, hself]
      rfl
    · by_contra hge
      have hfree : w.allocated i = false := by
        rw [hw, takeSpecial_eq, unlinkInode_free hle (not_lt.mp hge)]
        exact Function.update_self _ _ _
      rw [h.allocated i, hi] at hfree
      simp at hfree
  · intro h
    have halloc : w.allocated i = v.allocated i := by
      rcases Nat.lt_or_ge i v.reservedInodes with hlt | hge
      · rw [hw, takeSpecial_eq, unlinkInode_reserved hle hlt]
        rfl
      · cases hi : v.allocated i with
        | true => exact absurd (h hi).2.2 (not_lt.mpr hge)
        | false =>
          rw [hw, takeSpecial_eq, unlinkInode_free hle hge]
          exact Function.update_self _ _ _
    refine ⟨fun x => ?_, fun x hx => ?_, fun d e => ?_⟩
    · by_cases hxi : x = i
      · rw [hxi, halloc]
      · exact (hother hxi).1
    · by_cases hxi : x = i
      · subst hxi
        rw [hself, (h hx).2.1]
        rfl
      · rw [(hother hxi).2]
    · by_cases hd : d = i
      · subst hd
        exact (leaf_entries hempty).mpr (fun hi => (h hi).1) e
      · simp only [entriesOf, (hother hd).1, (hother hd).2]

theorem sameFiles_special :
    v.SameFiles ((v.takeSpecial i).unlinkInode i) ↔ (v.allocated i = true → v.Keeps i) := by
  rcases lt_or_ge 0 (v.desc i).linkcount with hlt | hle
  · rw [sameFiles_special_linked hlt]
    exact forall_congr' fun _ => ⟨fun h => ⟨h, .inl hlt⟩, And.left⟩
  · rw [sameFiles_special_unlinked hle]
    refine forall_congr' fun _ => ⟨fun h => ⟨h.1, .inr h.2⟩, fun h => ⟨h.1, ?_⟩⟩
    rcases h.2 with hlt | hrest
    · omega
    · exact hrest

end Names

/-! When an open is harmless. -/

/-- The descriptor of a new file. -/
def newFile (t : Cred) (mode : ℕ) : Desc :=
  ⟨sIfreg ||| (mode &&& sIrwxugo), t.euid, t.egid, 1, [], []⟩

/-- The caller has the access to a file with this descriptor. -/
def Desc.Grants (δ : Desc) (t : Cred) (access : ℕ) : Prop := check t δ.mode δ.uid δ.gid access = true

instance (δ : Desc) (t : Cred) (access : ℕ) : Decidable (δ.Grants t access) :=
  inferInstanceAs (Decidable (_ = true))

namespace Names
variable {v w : Names} {t : Cred} {space : Space} {i dir : ℕ} {name : Path}

/-- The caller can enter the inode `i`, which is not the directory itself. -/
def Enters (v : Names) (t : Cred) (space : Space) (dir : ℕ) (name : Path) (i : ℕ) : Prop :=
  i ≠ dir ∧ v.refused t dir sIwrite name = none ∧ space.room = true

/-- If a new file can be entered, then the caller has the access to it. -/
def NewHarmless (v : Names) (t : Cred) (space : Space) (dir : ℕ) (name : Path) (mode access : ℕ) : Prop :=
  ∀ i, space.newInode = some i → v.Enters t space dir name i → (newFile t mode).Grants t access

/-- A new file takes the place of `old`, and the caller has the access to it. -/
def Replaces (v : Names) (t : Cred) (space : Space) (dir : ℕ) (name : Path) (old mode access : ℕ) : Prop :=
  ¬ ((v.desc old).isDir = true ∧ (v.desc old).linkcount = 1) ∧
    ∃ i, space.newInode = some i ∧ i ≠ dir ∧ v.refused t dir sIwrite name = none ∧
      (if i = old then Desc.zero else newFile t mode).Grants t access

/-- The special inode can be entered and the caller has the access to it, or it loses nothing. -/
def SpecialHarmless (v : Names) (t : Cred) (space : Space) (dir : ℕ) (name : Path) (i access : ℕ) : Prop :=
  (v.Enters t space dir name i → (v.special i).Grants t access) ∧
    (¬ v.Enters t space dir name i → v.allocated i = true → v.Keeps i)

/-- The access is granted to what the flags select or make, and nothing is lost where it cannot be
made. -/
def Harmless (v : Names) (t : Cred) (space : Space) (name : Path) (flags mode access : ℕ) : Prop :=
  match Disk.openKind flags with
  | .openExisting => ∀ i, v.namei t name = .ok i → (v.desc i).Grants t access
  | .truncateExisting =>
    ∀ i, v.namei t name = .ok i → (v.desc i).isDir = false → (v.desc i).Grants t access
  | .openAlways =>
    ∀ dir rest, v.diri t name = .ok (dir, rest) →
      (∀ i, v.findDirEntry t dir rest = .ok i → i < v.inodeCount → (v.desc i).Grants t access) ∧
      (v.findDirEntry t dir rest = .error .enoent → v.NewHarmless t space dir rest mode access)
  | .createNew =>
    ∀ dir rest, v.diri t name = .ok (dir, rest) → v.findDirEntry t dir rest = .error .enoent →
      v.NewHarmless t space dir rest mode access
  | .createAlways =>
    ∀ dir rest, v.diri t name = .ok (dir, rest) →
      (∀ old, v.findDirEntry t dir rest = .ok old → old < v.inodeCount →
        v.Replaces t space dir rest old mode access) ∧
      (v.findDirEntry t dir rest = .error .enoent → v.NewHarmless t space dir rest mode access)
  | .special =>
    ∀ dir rest, v.diri t name = .ok (dir, rest) → v.findDirEntry t dir rest = .error .enoent →
      if Disk.specialInode flags = Disk.noInode then v.NewHarmless t space dir rest mode access
      else Disk.specialInode flags < v.inodeCount →
        v.SpecialHarmless t space dir rest (Disk.specialInode flags) access
  | .invalid => True

theorem refused_leaf {access : ℕ} (hsame : ∀ x, x ≠ i → w.desc x = v.desc x)
    (hleaf : (w.desc i).isDir = false) :
    w.refused t dir access name = none ↔ i ≠ dir ∧ v.refused t dir access name = none := by
  have hrefused (hi : i ≠ dir) : w.refused t dir access name = v.refused t dir access name := by
    rw [refused, refused, checki, checki, hsame dir hi.symm]
  constructor
  · intro hnone
    have hi : i ≠ dir := by
      rintro rfl
      rw [isDir_of_not_refused hnone] at hleaf
      simp at hleaf
    exact ⟨hi, hrefused hi ▸ hnone⟩
  · rintro ⟨hi, hnone⟩
    rw [hrefused hi, hnone]

theorem addDirEntry_leaf (hsame : ∀ x, x ≠ i → w.desc x = v.desc x) (hleaf : (w.desc i).isDir = false) :
    (∃ n, w.addDirEntry t space dir name i = .ok n) ↔ v.Enters t space dir name i := by
  rw [Enters, ← and_assoc, ← refused_leaf hsame hleaf, addDirEntry]
  cases w.refused t dir sIwrite name with
  | some e => simp
  | none =>
    cases space.room with
    | true => simp
    | false => simp

theorem modifyDirEntry_leaf (hsame : ∀ x, x ≠ i → w.desc x = v.desc x) (hleaf : (w.desc i).isDir = false)
    {j : ℕ} (hlook : (v.desc dir).entries.lookup name = some j) :
    (∃ n, w.modifyDirEntry t dir name i = .ok n) ↔ i ≠ dir ∧ v.refused t dir sIwrite name = none := by
  rw [← refused_leaf hsame hleaf, modifyDirEntry]
  cases hrefused : w.refused t dir sIwrite name with
  | some e => simp
  | none =>
    have hi := ((refused_leaf hsame hleaf).mp hrefused).1
    simp [hsame dir hi.symm, hlook]

end Names

namespace Disk
variable {v v' w : Disk} {t : Cred} {space : Space} {i old dir mode access : ℕ} {name rest : Path}

/-- The open that gives `r` has changed no files, entries or locks of `v`, or it has succeeded and the caller has
the access to the file. -/
def Fine (v : Disk) (t : Cred) (access : ℕ) (r : Disk × Except FsError ℕ) : Prop :=
  match r.2 with
  | .error _ => v.Same r.1
  | .ok i => (r.1.desc i).Grants t access

/-- The number of locks on the block `b` that references to `i` add. -/
def holds (v : Disk) (i b : ℕ) : ℤ := if v.table i = b then 1 else 0

theorem lockInode_locks (v : Disk) (i b : ℕ) : (v.lockInode i).locks b = v.locks b + v.holds i b := by
  rw [lockInode, holds]
  dsimp only
  rw [Function.update_apply]
  split_ifs with h h' h'
  · rw [h]
  · exact absurd h.symm h'
  · exact absurd h'.symm h
  · exact (add_zero _).symm

theorem releaseInode_locks (v : Disk) (i b : ℕ) :
    (v.releaseInode i).locks b = v.locks b - v.holds i b := by
  rw [releaseInode, holds]
  dsimp only
  rw [Function.update_apply]
  split_ifs with h h' h'
  · rw [h]
  · exact absurd h.symm h'
  · exact absurd h'.symm h
  · exact (sub_zero _).symm

@[simp] theorem withNames_locks (v : Disk) (n : Names) : (v.withNames n).locks = v.locks := rfl

@[simp] theorem unlinkInode_locks (v : Disk) (i : ℕ) : (v.unlinkInode i).locks = v.locks := rfl

@[simp] theorem lockInode_holds (v : Disk) (j : ℕ) : (v.lockInode j).holds = v.holds := rfl

@[simp] theorem releaseInode_holds (v : Disk) (j : ℕ) : (v.releaseInode j).holds = v.holds := rfl

@[simp] theorem withNames_holds (v : Disk) (n : Names) : (v.withNames n).holds = v.holds := rfl

@[simp] theorem unlinkInode_holds (v : Disk) (j : ℕ) : (v.unlinkInode j).holds = v.holds := rfl

theorem diri_lock (h : v.diri t name = (v', .ok (dir, rest))) : v' = v.lockInode dir := by
  rw [diri] at h
  split at h
  · simp at h
  · obtain ⟨rfl, hr⟩ := Prod.mk.inj h
    rw [Except.ok.inj hr]

theorem namei_lock (h : v.namei t name = (v', .ok i)) : v' = v.lockInode i := by
  rw [namei] at h
  split at h
  · simp at h
  · obtain ⟨rfl, hr⟩ := Prod.mk.inj h
    rw [Except.ok.inj hr]

theorem getInode_lock (h : v.getInode i = (v', .ok old)) : v' = v.lockInode old := by
  rw [getInode] at h
  split at h
  · simp at h
  · obtain ⟨rfl, hr⟩ := Prod.mk.inj h
    rw [Except.ok.inj hr]

theorem allocInode_lock (h : v.allocInode t space mode = some (v', i)) :
    v' = (v.withNames (v.toNames.allocInode t i mode)).lockInode i := by
  rw [allocInode, Option.map_eq_some_iff] at h
  obtain ⟨j, -, heq⟩ := h
  obtain ⟨rfl, rfl⟩ := Prod.mk.inj heq
  rfl

/-! A call that succeeds leaves its file locked. -/

theorem enter_locks (h : v.enter t space dir name i = (v', .ok old)) :
    old = i ∧ ∀ b, v'.locks b = v.locks b - v.holds dir b := by
  rw [enter] at h
  split at h
  · simp at h
  · obtain ⟨rfl, hi⟩ := Prod.mk.inj h
    exact ⟨(Except.ok.inj hi).symm, fun b => releaseInode_locks _ _ _⟩

theorem enter_new_locks (halloc : v.allocInode t space mode = some (w, i))
    (h : w.enter t space dir name i = (v', .ok old)) (b : ℕ) :
    v'.locks b = v.locks b - v.holds dir b + v.holds old b := by
  obtain ⟨rfl, hlocks⟩ := enter_locks h
  rw [hlocks, allocInode_lock halloc, lockInode_locks]
  simp only [withNames_locks, lockInode_holds, withNames_holds]
  omega

theorem openAlways_locks (h : v.openAlways t space name mode = (v', .ok i)) (b : ℕ) :
    v'.locks b = v.locks b + v.holds i b := by
  rw [openAlways] at h
  split at h
  · simp at h
  · next v₁ dir rest hdiri =>
    obtain rfl := diri_lock hdiri
    split at h
    · split at h
      · simp at h
      · next hget =>
        obtain ⟨rfl, hi⟩ := Prod.mk.inj h
        obtain rfl := Except.ok.inj hi
        rw [getInode_lock hget]
        simp only [releaseInode_locks, lockInode_locks, lockInode_holds]
        omega
    · split at h
      · simp at h
      · split at h
        · simp at h
        · next halloc =>
          rw [enter_new_locks halloc h, lockInode_locks, lockInode_holds]
          omega

theorem createAlways_locks (h : v.createAlways t space name mode = (v', .ok i)) (b : ℕ) :
    v'.locks b = v.locks b + v.holds i b := by
  rw [createAlways] at h
  split at h
  · simp at h
  · next v₁ dir rest hdiri =>
    obtain rfl := diri_lock hdiri
    split at h
    · split at h
      · simp at h
      · next hget =>
        obtain rfl := getInode_lock hget
        rw [replaceExisting] at h
        split at h
        · simp at h
        · split at h
          · simp at h
          · next halloc =>
            obtain rfl := allocInode_lock halloc
            split at h
            · simp at h
            · obtain ⟨rfl, hi⟩ := Prod.mk.inj h
              obtain rfl := Except.ok.inj hi
              simp only [releaseInode_locks, unlinkInode_locks, withNames_locks, lockInode_locks,
                lockInode_holds, releaseInode_holds, unlinkInode_holds, withNames_holds]
              omega
    · split at h
      · simp at h
      · split at h
        · simp at h
        · next halloc =>
          rw [enter_new_locks halloc h, lockInode_locks, lockInode_holds]
          omega

theorem truncateExisting_locks (h : v.truncateExisting t name = (v', .ok i)) (b : ℕ) :
    v'.locks b = v.locks b + v.holds i b := by
  rw [truncateExisting] at h
  split at h
  · simp at h
  · next hnamei =>
    obtain rfl := namei_lock hnamei
    split at h
    · simp at h
    · obtain ⟨rfl, hi⟩ := Prod.mk.inj h
      rw [← Except.ok.inj hi]
      exact lockInode_locks _ _ _

theorem createNew_locks {ino : ℕ} (h : v.createNew t space name ino mode = (v', .ok i)) (b : ℕ) :
    v'.locks b = v.locks b + v.holds i b := by
  rw [createNew] at h
  split at h
  · simp at h
  · next v₁ dir rest hdiri =>
    obtain rfl := diri_lock hdiri
    split at h
    · simp at h
    · split at h
      · simp at h
      · split at h
        · split at h
          · simp at h
          · next halloc =>
            rw [enter_new_locks halloc h, lockInode_locks, lockInode_holds]
            omega
        · split at h
          · simp at h
          · next hget =>
            obtain rfl := getInode_lock hget
            obtain ⟨rfl, hlocks⟩ := enter_locks h
            rw [hlocks]
            simp only [withNames_locks, lockInode_locks, lockInode_holds, withNames_holds]
            omega

theorem dfsOpen_locks {flags : ℕ} (h : v.dfsOpen t space name flags mode = (v', .ok i)) (b : ℕ) :
    v'.locks b = v.locks b + v.holds i b := by
  rw [dfsOpen] at h
  split at h
  · rw [namei_lock h, lockInode_locks]
  · exact openAlways_locks h b
  · exact createNew_locks h b
  · exact truncateExisting_locks h b
  · exact createAlways_locks h b
  · exact createNew_locks h b
  · simp at h

/-! What the functions of `fs/dfs/file.c` do when the open fails. -/

theorem same_of_names (hnames : v'.toNames = v.toNames) (hlocks : ∀ b, v'.locks b = v.locks b) :
    v.Same v' := ⟨hnames ▸ Names.SameFiles.refl _, hlocks⟩

theorem same_refl (v : Disk) : v.Same v := same_of_names rfl fun _ => rfl

theorem release_lock (v : Disk) (i : ℕ) : v.Same ((v.lockInode i).releaseInode i) := by
  refine same_of_names rfl fun b => ?_
  rw [releaseInode_locks, lockInode_locks, lockInode_holds]
  omega

theorem fine_openExisting : Fine v t access (v.openExisting t name) ↔
    ∀ i, v.toNames.namei t name = .ok i → (v.desc i).Grants t access := by
  rw [openExisting, namei]
  cases h : v.toNames.namei t name with
  | error e =>
    simp only [reduceCtorEq, false_implies, implies_true, iff_true]
    exact same_refl v
  | ok i =>
    constructor
    · intro hfine j hj
      obtain rfl := Except.ok.inj hj
      exact hfine
    · intro hgrants
      exact hgrants i rfl

theorem fine_truncateExisting : Fine v t access (v.truncateExisting t name) ↔
    ∀ i, v.toNames.namei t name = .ok i → (v.desc i).isDir = false → (v.desc i).Grants t access := by
  rw [truncateExisting, namei]
  cases h : v.toNames.namei t name with
  | error e =>
    simp only [reduceCtorEq, false_implies, implies_true, iff_true]
    exact same_refl v
  | ok i =>
    dsimp only
    cases hdir : (v.desc i).isDir with
    | true =>
      rw [if_pos (show ((v.lockInode i).desc i).isDir = true from hdir)]
      refine ⟨fun _ j hj hfile => ?_, fun _ => release_lock v i⟩
      obtain rfl := Except.ok.inj hj
      simp [hdir] at hfile
    | false =>
      rw [if_neg (by rw [lockInode_toNames, hdir]; simp)]
      have hmode : Fine v t access
          ((v.lockInode i).withNames
            ((v.lockInode i).toNames.setDesc i { (v.lockInode i).desc i with content := [] }), .ok i) ↔
          (v.desc i).Grants t access := by
        show Desc.Grants _ t access ↔ _
        rw [withNames_toNames, Names.setDesc_desc_self]
        rfl
      rw [hmode]
      refine ⟨fun hgrants j hj _ => ?_, fun hgrants => hgrants i rfl hdir⟩
      obtain rfl := Except.ok.inj hj
      exact hgrants

theorem fine_enter (hdesc : ∀ x, x ≠ i → w.desc x = v.desc x) (hleaf : (w.desc i).isDir = false)
    (hlocks : ∀ b, w.locks b = v.locks b + v.holds dir b + v.holds i b) (hholds : w.holds = v.holds) :
    Fine v t access (w.enter t space dir rest i) ↔
      (v.toNames.Enters t space dir rest i → (w.desc i).Grants t access) ∧
        (¬ v.toNames.Enters t space dir rest i → v.toNames.SameFiles (w.toNames.unlinkInode i)) := by
  have hadd : (∃ n, w.toNames.addDirEntry t space dir rest i = .ok n) ↔
      v.toNames.Enters t space dir rest i := Names.addDirEntry_leaf hdesc hleaf
  rw [enter]
  cases hresult : w.toNames.addDirEntry t space dir rest i with
  | error e =>
    have hno : ¬ v.toNames.Enters t space dir rest i := by
      intro henters
      obtain ⟨n, hn⟩ := hadd.mpr henters
      simp [hresult] at hn
    constructor
    · intro hsame
      exact ⟨fun henters => absurd henters hno, fun _ => hsame.files⟩
    · rintro ⟨-, hsame⟩
      refine ⟨hsame hno, fun b => ?_⟩
      simp only [releaseInode_locks, unlinkInode_locks, releaseInode_holds, unlinkInode_holds, hlocks,
        hholds]
      omega
  | ok n =>
    have henters := hadd.mp ⟨n, hresult⟩
    have hn := Names.addDirEntry_ok hresult
    have hsame : n.desc i = w.desc i := by
      rw [hn, Names.setEntries, Names.setDesc_desc_of_ne henters.1]
    have hfine : Fine v t access ((w.withNames n).releaseInode dir, .ok i) ↔
        (w.desc i).Grants t access := by
      rw [← hsame]
      rfl
    rw [hfine]
    exact ⟨fun h => ⟨fun _ => h, fun hno => absurd henters hno⟩, fun h => h.1 henters⟩

theorem fine_enter_new (hfits : space.Fits v.toNames)
    (hres : ∀ i, i < v.reservedInodes → v.allocated i = true)
    (halloc : (v.lockInode dir).allocInode t space (sIfreg ||| (mode &&& sIrwxugo)) = some (w, i)) :
    Fine v t access (w.enter t space dir rest i) ↔
      v.toNames.NewHarmless t space dir rest mode access := by
  obtain ⟨hnew, hnames⟩ := allocInode_eq halloc
  have hnames : w.toNames = v.toNames.allocInode t i (sIfreg ||| (mode &&& sIrwxugo)) := hnames
  have hw := allocInode_lock halloc
  obtain ⟨hfree, -⟩ := hfits i hnew
  have hge : v.reservedInodes ≤ i := by
    by_contra hlt
    rw [hres i (not_le.mp hlt)] at hfree
    simp at hfree
  have hdesc : w.desc i = newFile t mode := by
    rw [hnames, Names.allocInode_desc_self]
    rfl
  have hleaf : (w.desc i).isDir = false := by
    rw [hdesc]
    exact Names.isDir_regular mode _ rfl
  rw [fine_enter (fun x hx => by rw [hnames, Names.allocInode_desc_of_ne hx]) hleaf (fun b => ?_)
    (by rw [hw]; rfl)]
  · rw [hdesc, hnames]
    constructor
    · rintro ⟨hgrants, -⟩ j hj henters
      obtain rfl := Option.some.inj (hnew.symm.trans hj)
      exact hgrants henters
    · intro hharmless
      exact ⟨hharmless i hnew, fun _ => Names.sameFiles_discard hfree hge t _⟩
  · rw [hw]
    simp only [lockInode_locks, withNames_locks, lockInode_holds, withNames_holds]

theorem fine_enter_special (v : Disk) (t : Cred) (space : Space) (dir : ℕ) (rest : Path) (i access : ℕ) :
    Fine v t access
      ((((v.lockInode dir).lockInode i).withNames (v.toNames.takeSpecial i)).enter t space dir rest i) ↔
      v.toNames.SpecialHarmless t space dir rest i access := by
  have hdesc : (v.toNames.takeSpecial i).desc i = v.toNames.special i := Names.setDesc_desc_self _ _ _
  set w := ((v.lockInode dir).lockInode i).withNames (v.toNames.takeSpecial i) with hw
  have hleaf : (w.desc i).isDir = false := by
    rw [withNames_toNames, hdesc]
    exact Names.special_isDir v.toNames i
  have hlocks (b : ℕ) : w.locks b = v.locks b + v.holds dir b + v.holds i b := by
    simp only [hw, lockInode_locks, withNames_locks, lockInode_holds]
  have hother (x : ℕ) (hx : x ≠ i) : w.desc x = v.desc x := Names.setDesc_desc_of_ne hx
  rw [fine_enter hother hleaf hlocks rfl, withNames_toNames, hdesc, Names.sameFiles_special]
  rfl

theorem fine_replaceExisting (hfind : v.toNames.findDirEntry t dir rest = .ok old) :
    Fine v t access (((v.lockInode dir).lockInode old).replaceExisting t space dir rest old mode) ↔
      v.toNames.Replaces t space dir rest old mode access := by
  set u := (v.lockInode dir).lockInode old with hu
  have hleak {w : Disk} (hw : ∀ b, w.locks b = v.locks b + v.holds old b) : ¬ v.Same w := by
    intro hsame
    have hone := hw (v.table old)
    rw [hsame.locks, holds] at hone
    omega
  have hulocks (b : ℕ) : u.locks b = v.locks b + v.holds dir b + v.holds old b := by
    simp only [hu, lockInode_locks, lockInode_holds]
  have hlook : (v.desc dir).entries.lookup rest = some old := (Names.findDirEntry_ok hfind).2
  rw [replaceExisting]
  split
  · next hdir =>
    refine iff_of_false (hleak fun b => ?_) fun h => h.1 hdir
    rw [releaseInode_locks, hulocks]
    show _ - v.holds dir b = _
    omega
  · next hnot =>
    cases halloc : u.allocInode t space (sIfreg ||| (mode &&& sIrwxugo)) with
    | none =>
      refine iff_of_false (hleak fun b => ?_) ?_
      · rw [releaseInode_locks, hulocks]
        show _ - v.holds dir b = _
        omega
      · rintro ⟨-, i, hi, -⟩
        rw [allocInode, hi] at halloc
        simp at halloc
    | some r =>
      obtain ⟨w, i⟩ := r
      obtain ⟨hnew, hnames⟩ := allocInode_eq halloc
      have hnames : w.toNames = v.toNames.allocInode t i (sIfreg ||| (mode &&& sIrwxugo)) := hnames
      have hw := allocInode_lock halloc
      have hdesc : w.desc i = newFile t mode := by
        rw [hnames, Names.allocInode_desc_self]
        rfl
      have hleaf : (w.desc i).isDir = false := by
        rw [hdesc]
        exact Names.isDir_regular mode _ rfl
      have hother (x : ℕ) (hx : x ≠ i) : w.desc x = v.desc x := by
        rw [hnames, Names.allocInode_desc_of_ne hx]
      have hwlocks (b : ℕ) : w.locks b = v.locks b + v.holds dir b + v.holds old b + v.holds i b := by
        rw [hw, lockInode_locks, withNames_locks, hulocks]
        rfl
      have hholds : w.holds = v.holds := by
        rw [hw]
        rfl
      have hmodify : (∃ n, w.toNames.modifyDirEntry t dir rest i = .ok n) ↔
          i ≠ dir ∧ v.toNames.refused t dir sIwrite rest = none :=
        Names.modifyDirEntry_leaf hother hleaf hlook
      have hreplaces : v.toNames.Replaces t space dir rest old mode access ↔
          i ≠ dir ∧ v.toNames.refused t dir sIwrite rest = none ∧
            (if i = old then Desc.zero else newFile t mode).Grants t access := by
        constructor
        · rintro ⟨-, j, hj, h⟩
          obtain rfl := Option.some.inj (hnew.symm.trans hj)
          exact h
        · exact fun h => ⟨hnot, i, hnew, h⟩
      rw [hreplaces]
      dsimp only
      cases hresult : w.toNames.modifyDirEntry t dir rest i with
      | error e =>
        refine iff_of_false (hleak fun b => ?_) fun h => ?_
        · simp only [releaseInode_locks, unlinkInode_locks, releaseInode_holds, unlinkInode_holds, hwlocks,
            hholds]
          omega
        · obtain ⟨n, hn⟩ := hmodify.mpr ⟨h.1, h.2.1⟩
          simp [hresult] at hn
      | ok n =>
        obtain ⟨hi, hnone⟩ := hmodify.mp ⟨n, hresult⟩
        have hn : n.desc i = newFile t mode := by
          rw [Names.modifyDirEntry_ok hresult, Names.setEntries, Names.setDesc_desc_of_ne hi, hdesc]
        -- a new inode that is the old one as well is erased
        have hdone : (n.unlinkInode old).desc i = if i = old then Desc.zero else newFile t mode := by
          by_cases hold : i = old
          · subst hold
            have hle : (n.desc i).linkcount ≤ 1 := by
              rw [hn, newFile]
            rw [if_pos rfl]
            rcases Nat.lt_or_ge i n.reservedInodes with hlt | hge
            · rw [Names.unlinkInode_reserved hle hlt, Names.setDesc_desc_self]
            · rw [Names.unlinkInode_free hle hge]
              exact Names.setDesc_desc_self _ _ _
          · rw [if_neg hold, (Names.unlinkInode_other hold).2, hn]
        have hfine : Fine v t access
            ((((w.withNames n).unlinkInode old).releaseInode old).releaseInode dir, .ok i) ↔
            (if i = old then Desc.zero else newFile t mode).Grants t access := by
          rw [← hdone]
          rfl
        rw [hfine]
        exact ⟨fun h => ⟨hi, hnone, h⟩, fun h => h.2.2⟩

theorem getInode_lt (h : i < v.inodeCount) : v.getInode i = (v.lockInode i, .ok i) := by
  rw [getInode, Names.getInode, if_neg (not_le.mpr h)]

theorem getInode_ge (h : v.inodeCount ≤ i) : v.getInode i = (v, .error .einval) := by
  rw [getInode, Names.getInode, if_pos h]

theorem forall_found {P : ℕ → Path → Prop} :
    (∀ d r, (Except.ok (dir, rest) : Except FsError (ℕ × Path)) = .ok (d, r) → P d r) ↔ P dir rest := by
  constructor
  · intro hall
    exact hall dir rest rfl
  · intro hP d r h
    obtain ⟨rfl, rfl⟩ := Prod.mk.inj (Except.ok.inj h)
    exact hP

theorem fine_new (hfits : space.Fits v.toNames)
    (hres : ∀ i, i < v.reservedInodes → v.allocated i = true) :
    Fine v t access
      (match (v.lockInode dir).allocInode t space (sIfreg ||| (mode &&& sIrwxugo)) with
        | none => ((v.lockInode dir).releaseInode dir, .error .enospc)
        | some (w, i) => w.enter t space dir rest i) ↔
      v.toNames.NewHarmless t space dir rest mode access := by
  cases halloc : (v.lockInode dir).allocInode t space (sIfreg ||| (mode &&& sIrwxugo)) with
  | some r =>
    exact fine_enter_new hfits hres halloc
  | none =>
    have hnone : space.newInode = none := by
      rw [allocInode, Option.map_eq_none_iff] at halloc
      exact halloc
    refine iff_of_true (release_lock v dir) fun i hi => ?_
    rw [hnone] at hi
    simp at hi

theorem fine_existing : Fine v t access
      (match (v.lockInode dir).getInode i with
        | (w, .error e) => (w.releaseInode dir, .error e)
        | (w, .ok i) => (w.releaseInode dir, .ok i)) ↔
      (i < v.inodeCount → (v.desc i).Grants t access) := by
  rcases lt_or_ge i v.inodeCount with hlt | hge
  · rw [getInode_lt (v := v.lockInode dir) hlt]
    exact ⟨fun h _ => h, fun h => h hlt⟩
  · rw [getInode_ge (v := v.lockInode dir) hge]
    exact iff_of_true (release_lock v dir) fun hlt => absurd hlt (not_lt.mpr hge)

theorem fine_openAlways (hfits : space.Fits v.toNames)
    (hres : ∀ i, i < v.reservedInodes → v.allocated i = true) :
    Fine v t access (v.openAlways t space name mode) ↔
    ∀ dir rest, v.toNames.diri t name = .ok (dir, rest) →
      (∀ i, v.toNames.findDirEntry t dir rest = .ok i → i < v.inodeCount → (v.desc i).Grants t access) ∧
      (v.toNames.findDirEntry t dir rest = .error .enoent →
        v.toNames.NewHarmless t space dir rest mode access) := by
  rw [openAlways, diri]
  cases hdiri : v.toNames.diri t name with
  | error e =>
    simp only [reduceCtorEq, false_implies, implies_true, iff_true]
    exact same_refl v
  | ok r =>
    obtain ⟨dir, rest⟩ := r
    rw [forall_found]
    dsimp only [lockInode_toNames]
    cases hfind : v.toNames.findDirEntry t dir rest with
    | ok i =>
      refine fine_existing.trans ?_
      simp
    | error e =>
      dsimp only
      by_cases he : e = .enoent
      · subst he
        refine (fine_new hfits hres).trans ?_
        simp
      · rw [if_pos he]
        refine iff_of_true (release_lock v dir) ⟨by simp, fun h => absurd (Except.error.inj h) he⟩

theorem fine_createAlways (hfits : space.Fits v.toNames)
    (hres : ∀ i, i < v.reservedInodes → v.allocated i = true) :
    Fine v t access (v.createAlways t space name mode) ↔
    ∀ dir rest, v.toNames.diri t name = .ok (dir, rest) →
      (∀ old, v.toNames.findDirEntry t dir rest = .ok old → old < v.inodeCount →
        v.toNames.Replaces t space dir rest old mode access) ∧
      (v.toNames.findDirEntry t dir rest = .error .enoent →
        v.toNames.NewHarmless t space dir rest mode access) := by
  rw [createAlways, diri]
  cases hdiri : v.toNames.diri t name with
  | error e =>
    simp only [reduceCtorEq, false_implies, implies_true, iff_true]
    exact same_refl v
  | ok r =>
    obtain ⟨dir, rest⟩ := r
    rw [forall_found]
    dsimp only [lockInode_toNames]
    cases hfind : v.toNames.findDirEntry t dir rest with
    | ok old =>
      dsimp only
      rcases lt_or_ge old v.inodeCount with hlt | hge
      · rw [getInode_lt (v := v.lockInode dir) hlt]
        rw [fine_replaceExisting hfind]
        simp [hlt]
      · rw [getInode_ge (v := v.lockInode dir) hge]
        refine iff_of_true (release_lock v dir) ⟨fun j hj hlt => ?_, by simp⟩
        obtain rfl := Except.ok.inj hj
        exact absurd hlt (not_lt.mpr hge)
    | error e =>
      dsimp only
      by_cases he : e = .enoent
      · subst he
        refine (fine_new hfits hres).trans ?_
        simp
      · rw [if_pos he]
        refine iff_of_true (release_lock v dir) ⟨by simp, fun h => absurd (Except.error.inj h) he⟩

theorem fine_createNew (hfits : space.Fits v.toNames)
    (hres : ∀ i, i < v.reservedInodes → v.allocated i = true) (ino : ℕ) :
    Fine v t access (v.createNew t space name ino mode) ↔
    ∀ dir rest, v.toNames.diri t name = .ok (dir, rest) →
      v.toNames.findDirEntry t dir rest = .error .enoent →
      if ino = noInode then v.toNames.NewHarmless t space dir rest mode access
      else ino < v.inodeCount → v.toNames.SpecialHarmless t space dir rest ino access := by
  rw [createNew, diri]
  cases hdiri : v.toNames.diri t name with
  | error e =>
    simp only [reduceCtorEq, false_implies, implies_true, iff_true]
    exact same_refl v
  | ok r =>
    obtain ⟨dir, rest⟩ := r
    rw [forall_found]
    dsimp only [lockInode_toNames]
    cases hfind : v.toNames.findDirEntry t dir rest with
    | ok i => exact iff_of_true (release_lock v dir) (by simp)
    | error e =>
      dsimp only
      by_cases he : e = .enoent
      · subst he
        rw [if_neg (by simp)]
        by_cases hino : ino = noInode
        · rw [if_pos hino, if_pos hino]
          refine (fine_new hfits hres).trans ?_
          simp
        · rw [if_neg hino, if_neg hino]
          rcases lt_or_ge ino v.inodeCount with hlt | hge
          · rw [getInode_lt (v := v.lockInode dir) hlt]
            have hfine := fine_enter_special v t space dir rest ino access
            simp only [lockInode_toNames] at hfine ⊢
            rw [hfine]
            simp [hlt]
          · rw [getInode_ge (v := v.lockInode dir) hge]
            exact iff_of_true (release_lock v dir) fun _ hlt => absurd hlt (not_lt.mpr hge)
      · rw [if_pos he]
        exact iff_of_true (release_lock v dir) fun h => absurd (Except.error.inj h) he

theorem fine_dfsOpen (hfits : space.Fits v.toNames)
    (hres : ∀ i, i < v.reservedInodes → v.allocated i = true) (flags : ℕ) :
    Fine v t access (v.dfsOpen t space name flags mode) ↔
      v.toNames.Harmless t space name flags mode access := by
  rw [dfsOpen, Names.Harmless]
  cases openKind flags with
  | openExisting => exact fine_openExisting
  | openAlways => exact fine_openAlways hfits hres
  | createNew =>
    refine (fine_createNew hfits hres noInode).trans ?_
    simp only [if_true]
  | truncateExisting => exact fine_truncateExisting
  | createAlways => exact fine_createAlways hfits hres
  | special => exact fine_createNew hfits hres _
  | invalid => exact iff_of_true (same_refl v) trivial

end Disk

namespace Mounted
variable {s s' : Mounted} {thread n a flags mode : ℕ} {t : Cred} {env : OpenEnv} {name path rest : Path}

theorem Same.refl (s : Mounted) : s.Same s := ⟨fun a => (s.volume a).same_refl, fun _ => rfl⟩

theorem addLocks_back (s : Mounted) (a b : ℕ) :
    (((s.addLocks a 1).addLocks a (-1)).mounts.fs b).locks = (s.mounts.fs b).locks := by
  by_cases hb : b = a
  · subst hb
    simp only [addLocks, Function.update_self]
    omega
  · simp only [addLocks, Function.update_of_ne hb]

theorem same_failed {v : Disk} :
    s.Same (((s.addLocks a 1).withVolume a v).addLocks a (-1)) ↔ (s.volume a).Same v := by
  have hself : (((s.addLocks a 1).withVolume a v).addLocks a (-1)).volume a = v :=
    Function.update_self _ _ _
  constructor
  · intro h
    have := h.volume a
    rwa [hself] at this
  · intro h
    refine ⟨fun b => ?_, fun b => addLocks_back s a b⟩
    by_cases hb : b = a
    · rw [hb, hself]
      exact h
    · have hother : (((s.addLocks a 1).withVolume a v).addLocks a (-1)).volume b = s.volume b :=
        Function.update_of_ne hb _ _
      rw [hother]
      exact (s.volume b).same_refl

theorem not_same_opened {v v' : Disk} {space : Space} {i : ℕ}
    (h : v.dfsOpen t space name flags mode = (v', .ok i)) : ¬ v.Same v' := by
  intro hsame
  have hlocks := Disk.dfsOpen_locks h (v.table i)
  rw [hsame.locks, Disk.holds] at hlocks
  omega

theorem openOn_same_iff (hfits : env.space.Fits (s.volume a).toNames)
    (hres : ∀ i, i < (s.volume a).reservedInodes → (s.volume a).allocated i = true) :
    (∀ s' e, s.openOn t env a path rest flags mode = (s', .error e) → s.Same s') ↔
      (env.newfile = true → env.locked = true →
        (s.volume a).toNames.Harmless t env.space rest (env.flags flags) (env.mode mode)
          (accessOf (openedFlags (env.flags flags)))) := by
  rw [openOn]
  cases env.newfile with
  | false =>
    refine iff_of_true (fun s' e h => ?_) (by simp)
    obtain ⟨rfl, -⟩ := Prod.mk.inj h
    exact Same.refl s
  | true =>
    rw [if_neg (by simp)]
    cases env.locked with
    | false =>
      refine iff_of_true (fun s' e h => ?_) (by simp)
      obtain ⟨rfl, -⟩ := Prod.mk.inj h
      exact ⟨fun b => (s.volume b).same_refl, addLocks_back s a⟩
    | true =>
      rw [if_neg (by simp), ← Disk.fine_dfsOpen hfits hres]
      have hvolume : (s.addLocks a 1).volume a = s.volume a := rfl
      rw [hvolume]
      generalize hopen : (s.volume a).dfsOpen t env.space rest (env.flags flags) (env.mode mode) = r
      obtain ⟨v, r⟩ := r
      cases r with
      | error e =>
        refine Iff.trans ⟨fun h => h _ _ rfl, fun h s' e' heq => ?_⟩
          (same_failed.trans ⟨fun h _ _ => h, fun h => h rfl rfl⟩)
        obtain ⟨rfl, -⟩ := Prod.mk.inj heq
        exact h
      | ok i =>
        dsimp only
        split
        · next hgrants => exact iff_of_true (fun s' e h => by simp at h) fun _ _ => hgrants
        · next hrefused =>
          refine iff_of_false (fun h => ?_) fun h => hrefused (h rfl rfl)
          exact not_same_opened hopen (same_failed.mp (h _ _ rfl))

/-- The path is on the file system `a`, and `rest` is what its own open gets of it. -/
def Finds (s : Mounted) (thread : ℕ) (t : Cred) (n : ℕ) (name : Path) (a : ℕ) (rest : Path) : Prop :=
  ∃ path, canonicalize (s.mounts.curdir thread) name = .ok path ∧
    s.mounts.fslookup t n (some path) false = some (.ok (a, rest))

/-- The file `f` of the super user on the file system that is mounted at the root. Others may only read
it. -/
def readOnly : Mounted where
  mounts :=
    { links := ⟨fun _ => none, fun _ => none⟩
      mountlist := some 0
      fs := fun _ => ⟨[47], 0, 0, 0, 493⟩
      fslist := []
      curdir := fun _ => [47] }
  volume _ :=
    { inodeCount := 32
      reservedInodes := 16
      desc := fun i =>
        if i = rootInode then ⟨sIfdir ||| 511, 0, 0, 1, [], [([102], 16)]⟩
        else if i = 16 then ⟨sIfreg ||| 420, 0, 0, 1, [1, 2], []⟩
        else .zero
      allocated := fun i => decide (i < 17)
      table := fun i => i / 4
      locks := fun _ => 0 }

/-- Everything the rest of the kernel is asked for is there. -/
def ample : OpenEnv := ⟨0, 0, true, true, ⟨some 17, true⟩⟩

end Mounted

end SimpleKernel.Dfs
