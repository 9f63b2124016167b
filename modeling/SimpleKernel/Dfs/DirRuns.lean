import SimpleKernel.Dfs.Bindings

/-! Directories after any sequence of additions, modifications and deletions. -/
namespace SimpleKernel.Dfs
open PageTree Filsys Records Assoc
open Vfs (Path Cred check maxPath sIexec)
open Function (update update_eq_self update_of_ne update_self)

variable {dir dir' : Directory} {t : Cred} {m m' : Path → Option UInt32}

/-- An empty directory that the thread `t` may use. -/
structure Directory.Empty (dir : Directory) (t : Cred) : Prop where
  ok : dir.inode.fs.Ok
  inode_group : dir.inode.ino / dir.inode.fs.inodesPerGroup < dir.inode.fs.groupCount
  blocks : dir.inode.blocks = 0
  depth : dir.inode.depth = 0
  blockdir : ∀ j, j < topBlockdirSize → dir.inode.blockdir j = 0
  blocksize : dir.blocksize = 4 * dir.inode.fs.ptrs
  large : 512 ≤ dir.blocksize
  blocksize_lt : dir.blocksize < 2 ^ 32
  size : dir.size = 0
  directory : dir.isDir = true
  exec : dir.checki t sIexec = true
  write : dir.checki t sIwrite = true

/-- The block after every free block is in a group, if there is one. -/
def Filsys.Covered (fs : Filsys) : Prop :=
  ∀ x, fs.Free x → x + 1 < fs.blockCount → (x + 1) / fs.blocksPerGroup < fs.groupCount

theorem Directory.Empty.holds (h : dir.Empty t) (node : ℕ → ℕ → ℕ) : dir.Holds t 0 node [] := by
  refine ⟨.empty h.ok h.inode_group h.blocks h.blockdir, ?_, h.blocksize, h.large, h.blocksize_lt,
    h.directory, h.exec, h.write, rfl, ?_, ?_, fun i rs hrs => ?_⟩
  · rw [h.depth, Nat.pow_zero]
    decide
  · rw [h.size, Nat.zero_mul]
  · rw [h.size]
    exact Nat.zero_le _
  · simp at hrs

theorem Directory.Empty.represents (h : dir.Empty t) (hcov : dir.inode.fs.Covered) :
    dir.Represents t fun _ => none := by
  refine ⟨0, fun _ _ => 0, [], h.holds _, fun x hx => ?_, .nil⟩
  rcases hx with hfree | ⟨r, j, hl, -⟩
  · exact hcov x hfree
  · exact absurd hl (not_upTo_zero _ _ _ _)

/-- `add_dir_entry` needs no new block in a directory of `2 ^ 32` bytes. -/
def Directory.Room (dir : Directory) (name : Path) : Prop :=
  dir.search (hasRoom name) dir.inode.blocks 0 = some (.ok none) → dir.size < 2 ^ 32

/-- A name of `find_dir_entry` and the others. -/
def IsEntryName (name : Path) : Prop := 0 < name.length ∧ name.length < maxPath

instance (name : Path) : Decidable (IsEntryName name) := inferInstanceAs (Decidable (_ ∧ _))

/-- Calls that succeed, one after the other. The maps are the bindings before and after. -/
inductive DirRun (t : Cred) :
    Directory → (Path → Option UInt32) → Directory → (Path → Option UInt32) → Prop
  | done (dir : Directory) (m : Path → Option UInt32) : DirRun t dir m dir m
  | add {dir dir₁ dir' : Directory} {m m' : Path → Option UInt32} {name : Path} {ino : UInt32}
      (hname : IsEntryName name) (hm : m name = none) (hroom : dir.Room name)
      (hcall : dir.addDirEntry t name ino = some (dir₁, .ok ()))
      (hrest : DirRun t dir₁ (update m name (some ino)) dir' m') : DirRun t dir m dir' m'
  | modify {dir dir₁ dir' : Directory} {m m' : Path → Option UInt32} {name : Path} {ino old : UInt32}
      (hname : IsEntryName name) (hcall : dir.modifyDirEntry t name ino = some (dir₁, .ok old))
      (hrest : DirRun t dir₁ (update m name (some ino)) dir' m') : DirRun t dir m dir' m'
  | delete {dir dir₁ dir' : Directory} {m m' : Path → Option UInt32} {name : Path}
      (hname : IsEntryName name) (hcall : dir.deleteDirEntry t name = some (dir₁, .ok ()))
      (hrest : DirRun t dir₁ (update m name none) dir' m') : DirRun t dir m dir' m'

theorem DirRun.represents (hrun : DirRun t dir m dir' m') (h : dir.Represents t m) :
    dir'.Represents t m' := by
  induction hrun with
  | done => exact h
  | add hname hm hroom hcall hrest ih =>
    rename_i ino
    rcases h.addDirEntry hm hname.1 hname.2 hroom ino with ⟨dir₁, hfull⟩ | ⟨dir₁, hok, h₁⟩
    · rw [hcall] at hfull
      simp at hfull
    · rw [hcall] at hok
      obtain ⟨rfl, -⟩ := Prod.mk.inj (Option.some.inj hok)
      exact ih h₁
  | modify hname hcall hrest ih =>
    rename_i ino old
    rcases h.modifyDirEntry hname.1 hname.2 ino with ⟨-, hno⟩ | ⟨dir₁, old', -, hok, h₁⟩
    · rw [hcall] at hno
      simp at hno
    · rw [hcall] at hok
      obtain ⟨rfl, -⟩ := Prod.mk.inj (Option.some.inj hok)
      exact ih h₁
  | delete hname hcall hrest ih =>
    rcases h.deleteDirEntry hname.1 hname.2 with ⟨-, hno⟩ | ⟨dir₁, old, -, hok, h₁⟩
    · rw [hcall] at hno
      simp at hno
    · rw [hcall] at hok
      obtain ⟨rfl, -⟩ := Prod.mk.inj (Option.some.inj hok)
      exact ih h₁

/-- After any calls the directory holds exactly the bindings that were made. Its records fill its
blocks; lookups, further calls and `dfs_readdir` agree with the bindings. -/
theorem directory_is_map (h : dir.Empty t) (hcov : dir.inode.fs.Covered)
    (hrun : DirRun t dir (fun _ => none) dir' m') :
    (∃ n node bs, dir'.Holds t n node bs ∧ Maps m' (bindings bs) ∧ dir'.Lists 0 (bindings bs) ∧
      dir'.size = dir'.inode.blocks * dir'.blocksize) ∧
    ∀ name, IsEntryName name →
      (dir'.findDirEntry t name = some (match m' name with
        | some ino => .ok ino
        | none => .error .enoent)) ∧
      (∀ ino, m' name = none → dir'.Room name →
        (∃ next, dir'.addDirEntry t name ino = some (next, .error .enospc)) ∨
        ∃ next, dir'.addDirEntry t name ino = some (next, .ok ()) ∧
          next.Represents t (update m' name (some ino))) ∧
      (∀ ino, (m' name = none ∧ dir'.modifyDirEntry t name ino = some (dir', .error .enoent)) ∨
        ∃ next old, m' name = some old ∧ dir'.modifyDirEntry t name ino = some (next, .ok old) ∧
          next.Represents t (update m' name (some ino))) ∧
      ((m' name = none ∧ dir'.deleteDirEntry t name = some (dir', .error .enoent)) ∨
        ∃ next old, m' name = some old ∧ dir'.deleteDirEntry t name = some (next, .ok ()) ∧
          next.Represents t (update m' name none)) := by
  have hrep := hrun.represents (h.represents hcov)
  refine ⟨?_, fun name hname => ⟨hrep.findDirEntry hname.1 hname.2, fun ino hm hroom => ?_,
    fun ino => hrep.modifyDirEntry hname.1 hname.2 ino, hrep.deleteDirEntry hname.1 hname.2⟩⟩
  · obtain ⟨n, node, bs, hholds, -, hmaps⟩ := hrep
    refine ⟨n, node, bs, hholds, hmaps, hholds.lists, ?_⟩
    rw [hholds.wf.blocks]
    exact hholds.size
  · exact hrep.addDirEntry hm hname.1 hname.2 hroom ino

/-- The super user. -/
def superUser : Cred := ⟨0, 0⟩

/-- An empty directory of the super user on a disk with blocks of 1 KB. -/
def emptyDir : Directory := ⟨emptyFile, 1024, 0, sIfdir, 0, 0, fun _ _ => 0⟩

theorem emptyDir_empty : emptyDir.Empty superUser :=
  ⟨emptyFile_wellFormed.ok, by decide, rfl, rfl, fun _ _ => rfl, by decide, by decide, by decide, rfl,
    by decide, rfl, rfl⟩

theorem emptyDir_covered : emptyDir.inode.fs.Covered :=
  fun x hx => emptyFile_safe x (.inl hx)

theorem emptyDir_add : ∃ dir, emptyDir.addDirEntry superUser [97] 9 = some (dir, .ok ()) := by
  obtain ⟨next, hrun⟩ := emptyFile_expands
  cases hrun with
  | call hfit hcall hb hrest =>
    have hexpand : emptyDir.inode.expandInode = _ := hcall
    rw [Directory.addDirEntry]
    rw [Directory.addBlock, hexpand]
    exact ⟨_, rfl⟩

theorem directory_is_map_one : ∃ dir, DirRun superUser emptyDir (fun _ => none) dir
      (update (fun _ => none) [97] (some 9)) ∧
    dir.findDirEntry superUser [97] = some (.ok 9) := by
  obtain ⟨dir, hcall⟩ := emptyDir_add
  have hrun : DirRun superUser emptyDir (fun _ => none) dir
      (update (fun _ => none) [97] (some 9)) :=
    .add (by decide) rfl (fun _ => by decide) hcall (.done _ _)
  have hfind := ((directory_is_map emptyDir_empty emptyDir_covered hrun).2 [97] (by decide)).1
  exact ⟨dir, hrun, by simpa using hfind⟩

/-! A disk of 150 blocks of 512 bytes with two groups of 64: the last 22 blocks are in no group. A
directory in the second group gets its last 16 blocks. -/

/-- Names of 255 characters: a block has room for one of them. -/
def longName (k : ℕ) : Path := UInt8.ofNat k :: List.replicate 254 97

def longEntry (k : ℕ) : Entry := ⟨7, 512, longName k⟩

/-- The directory with `k` names. -/
def longDir (k : ℕ) : Directory where
  inode :=
    { fs :=
        { logBlkptrsPerBlock := 7
          blockCount := 150
          blocksPerGroup := 64
          inodesPerGroup := 16
          groupCount := 2
          freeBlockCount := 48 - k
          groups := fun g =>
            if g = 1 then ⟨64, fun b => decide (b < 48 + k), 16 - k, 48 + k⟩
            else ⟨64, fun b => decide (b < 32), 32, 32⟩
          page := fun _ _ => 0
          freed := [] }
      ino := 20
      blocks := k
      depth := 0
      blockdir := fun i => if i < k then 112 + i else 0 }
  blocksize := 512
  size := k * 512
  mode := sIfdir
  uid := 0
  gid := 0
  data := fun b =>
    if 112 ≤ b ∧ b < 112 + k then putDentry (fun _ => 0) 0 7 512 (longName (b - 112)) else fun _ => 0

theorem longName_isEntryName (k : ℕ) : IsEntryName (longName k) := by
  rw [IsEntryName, longName, List.length_cons, List.length_replicate]
  decide

theorem longName_inj {i j : ℕ} (hi : i < 256) (hj : j < 256) (h : longName i = longName j) : i = j := by
  have hhead := (List.cons.inj h).1
  have := congrArg UInt8.toNat hhead
  rw [UInt8.toNat_ofNat', UInt8.toNat_ofNat', Nat.mod_eq_of_lt hi, Nat.mod_eq_of_lt hj] at this
  exact this

theorem longDir_live {k r j : ℕ}
    (hl : upTo (longDir k).inode.fs.ptrs (longDir k).inode.depth k r j) : r = 0 ∧ j < k := by
  obtain ⟨hr, hj⟩ := hl
  obtain rfl : r = 0 := Nat.le_zero.mp hr
  exact ⟨rfl, by simpa using hj⟩

theorem longDir_wellFormed {k : ℕ} (hk : k ≤ 16) :
    (longDir k).inode.WellFormed k fun _ j => 112 + j := by
  have hlog : 4 ≤ 7 := by decide
  have hsize : 0 < 64 := by decide
  have hsmall : 150 < 2 ^ 32 := by decide
  have hgroup : 20 / 16 < 2 := by decide
  have hres : (longDir k).inode.fs.used 0 = true := by simp [Filsys.used, longDir]
  refine ⟨⟨⟨fun r j hl => hl.1, ?_, ?_, ?_, ?_, ?_, ?_, ?_⟩, rfl⟩, ⟨hlog, hsize, hsmall, ?_, ?_, hres⟩,
    hgroup, ?_, ?_⟩
  · intro j hl
    obtain ⟨-, hj⟩ := longDir_live hl
    exact ⟨hj.trans_le hk, if_pos hj⟩
  · intro j _ hnot
    exact if_neg fun hj => hnot (upTo_zero_iff.mpr hj)
  · intro r j _ hr
    exact absurd hr (Nat.not_lt_zero r)
  · intro r j o hl
    exact absurd (longDir_live hl).1 (Nat.succ_ne_zero r)
  · intro r j _ hr
    exact absurd hr (Nat.not_lt_zero r)
  · intro r j r' j' hl
    exact absurd (longDir_live hl).1 (Nat.succ_ne_zero r)
  · omega
  · intro g hg
    obtain rfl | rfl := Nat.le_one_iff_eq_zero_or_eq_one.mp (Nat.lt_succ_iff.mp hg)
    · rfl
    · rfl
  · intro g hg hne
    obtain rfl | rfl := Nat.le_one_iff_eq_zero_or_eq_one.mp (Nat.lt_succ_iff.mp hg)
    · exact absurd (show 64 % 32 = 0 by decide) hne
    · exact absurd (show 64 % 32 = 0 by decide) hne
  · intro r j hl
    obtain ⟨-, hj⟩ := longDir_live hl
    have hdiv : (112 + j) / 64 = 1 := by omega
    have hmod : (112 + j) % 64 = 48 + j := by omega
    have hused : (longDir k).inode.fs.used (112 + j) = decide (48 + j < 48 + k) := by
      show ((longDir k).inode.fs.groups ((112 + j) / 64)).bitmap ((112 + j) % 64) = _
      rw [hdiv, hmod]
      rfl
    refine ⟨?_, ?_⟩
    · show (112 + j) / 64 < 2 ∧ (112 + j) % 64 < ((longDir k).inode.fs.groups ((112 + j) / 64)).blockCount
      rw [hdiv, hmod]
      show 1 < 2 ∧ 48 + j < 64
      omega
    · rw [hused, decide_eq_true_iff]
      omega
  · intro r j r' j' hl hl' heq
    obtain ⟨rfl, -⟩ := longDir_live hl
    obtain ⟨rfl, -⟩ := longDir_live hl'
    exact ⟨rfl, by omega⟩

theorem longDir_holds {k : ℕ} (hk : k ≤ 16) :
    (longDir k).Holds superUser k (fun _ j => 112 + j)
      ((List.range k).map fun i => [longEntry i]) := by
  have hshallow : 64 * (2 ^ 7) ^ 0 < 2 ^ 32 := by decide
  have hlarge : 512 ≤ 512 := le_rfl
  have hlt : 512 < 2 ^ 32 := by decide
  have hdir : decide (sIfdir &&& sIfmt = sIfdir) = true := by decide
  refine ⟨longDir_wellFormed hk, hshallow, rfl, hlarge, hlt, hdir, rfl, rfl, by simp, rfl, ?_,
    fun i rs hrs => ?_⟩
  · show k * 512 ≤ 2 ^ 32
    omega
  · obtain ⟨i', hi', rfl⟩ : ∃ i', (List.range k)[i]? = some i' ∧ [longEntry i'] = rs := by
      simpa using hrs
    obtain ⟨hlt, rfl⟩ : i < k ∧ i = i' := by
      simpa [List.getElem?_eq_some_iff] using hi'
    have hdata : (longDir k).data (112 + i) = putDentry (fun _ => 0) 0 7 512 (longName i) := by
      show (if 112 ≤ 112 + i ∧ 112 + i < 112 + k then
        putDentry (fun _ => 0) 0 7 512 (longName (112 + i - 112)) else fun _ => 0) = _
      rw [if_pos (by omega), Nat.add_sub_cancel_left]
    rw [hdata]
    have hname := longName_isEntryName i
    exact ⟨putDentry_at _ 0 7 hname.1 hname.2 ((minLen_lt hname.2).trans (by decide)) (by decide), rfl⟩

theorem longDir_full {k : ℕ} (hk : k ≤ 16) (i : ℕ) :
    (longDir k).search (hasRoom (longName i)) (longDir k).inode.blocks 0 = some (.ok none) := by
  rcases (longDir_holds hk).search
      (fun _ _ _ hr => hr.hasRoom : ∀ d q r, EntryAt d q r → hasRoom (longName i) d q = _) with
    ⟨hsearch, -⟩ | ⟨A, pre, r, post, B, q, hbs, -, hr, -⟩
  · exact hsearch
  · -- every record is one of those above
    have hmem : (pre ++ r :: post) ∈ (List.range k).map fun i => [longEntry i] := by
      rw [hbs]
      simp
    obtain ⟨j, -, hj⟩ := List.mem_map.mp hmem
    have hr' : r ∈ [longEntry j] := by
      rw [hj]
      simp
    obtain rfl := List.mem_singleton.mp hr'
    have hroom := of_decide_eq_true hr
    have hfull : ¬ (minLen (longName j).length + minLen (longName i).length ≤ 512) := by
      simp only [longName, List.length_cons, List.length_replicate]
      decide
    exact absurd hroom hfull

theorem longDir_findNext : ∀ k, k < 16 →
    findNextZeroBit (fun b => decide (b < 48 + k)) 64 1 = 48 + k := by
  decide

theorem longDir_newBlock {k : ℕ} (hk : k < 16) :
    (longDir k).inode.fs.newBlock 64 = some ((longDir k).inode.fs.blockFound 1 (48 + k)) := by
  have hlt : 64 < (longDir k).inode.fs.blockCount := show 64 < 150 by decide
  have hgroup : 64 / (longDir k).inode.fs.blocksPerGroup = 1 := show 64 / 64 = 1 by decide
  have hblock : 64 % (longDir k).inode.fs.blocksPerGroup = 0 := show 64 % 64 = 0 by decide
  have hcount : ¬ (longDir k).inode.fs.groupCount ≤ 1 := show ¬ 2 ≤ 1 by decide
  have hsecond : (longDir k).inode.fs.groups 1 = ⟨64, fun b => decide (b < 48 + k), 16 - k, 48 + k⟩ := rfl
  rw [newBlock, if_pos hlt, hgroup, hblock]
  rw [if_neg hcount, hsecond]
  dsimp only
  rw [if_neg (by simp), longDir_findNext k hk, if_pos (by omega)]

theorem longDir_expand {k : ℕ} (hk : k < 16) :
    (longDir k).inode.expandInode = some ((longDir (k + 1)).inode, 112 + k) := by
  have hmax : ¬ (longDir k).inode.blocks = (longDir k).inode.maxBlocks := by
    show ¬ k = word (topBlockdirSize * 2 ^ (0 * 7))
    rw [word_of_lt (by decide), topBlockdirSize]
    omega
  have hblock : word (48 + k + 1 * 64) = 112 + k := by
    rw [word_of_lt (by omega)]
    omega
  have hshift : ¬ 32 ≤ (longDir k).inode.depth * (longDir k).inode.fs.logBlkptrsPerBlock :=
    show ¬ 32 ≤ 0 * 7 by decide
  have hroom : ¬ topBlockdirSize ≤ k := by
    rw [topBlockdirSize]
    omega
  have hfound : ((longDir k).inode.fs.blockFound 1 (48 + k)).2 = 112 + k := hblock
  have hnot : 112 + k ≠ noBlock := by
    rw [noBlock]
    omega
  have hgoal : (longDir k).inode.ino / (longDir k).inode.fs.inodesPerGroup *
      (longDir k).inode.fs.blocksPerGroup = 64 := show 20 / 16 * 64 = 64 by decide
  have hdepth : (longDir k).inode.depth = 0 := rfl
  have hlen : (longDir k).inode.blocks = k := rfl
  rw [Inode.expandInode, if_neg hmax, Inode.setInodeBlock, hlen,
    if_neg hroom, hgoal, Inode.withNewBlock, longDir_newBlock hk]
  dsimp only
  rw [hfound, if_neg hnot]
  refine congrArg (fun inode => some (inode, 112 + k)) ?_
  -- the counters, the bitmap and the slot in the top directory
  have hgroups : update (longDir k).inode.fs.groups 1
      { (longDir k).inode.fs.groups 1 with
        bitmap := update ((longDir k).inode.fs.groups 1).bitmap (48 + k) true
        freeBlockCount := minus ((longDir k).inode.fs.groups 1).freeBlockCount 1
        firstFreeBlock :=
          if ((longDir k).inode.fs.groups 1).firstFreeBlock = 48 + k then word (48 + k + 1)
          else ((longDir k).inode.fs.groups 1).firstFreeBlock } =
      (longDir (k + 1)).inode.fs.groups := by
    funext g
    rcases eq_or_ne g 1 with rfl | hg
    · show BlkGroup.mk 64 (update (fun b => decide (b < 48 + k)) (48 + k) true) (minus (16 - k) 1)
        (if 48 + k = 48 + k then word (48 + k + 1) else _) = ⟨64, fun b => decide (b < 48 + (k + 1)), _, _⟩
      rw [if_pos rfl, word_of_lt (by omega), minus_of_le (by omega)]
      congr 1
      funext b
      rcases eq_or_ne b (48 + k) with rfl | hb
      · simp
      · rw [update_of_ne hb]
        exact decide_eq_decide.mpr (by omega)
    · simp [longDir, hg]
  have hcount : minus (longDir k).inode.fs.freeBlockCount 1 = (longDir (k + 1)).inode.fs.freeBlockCount := by
    show minus (48 - k) 1 = 48 - (k + 1)
    rw [minus_of_le (by omega)]
    omega
  have hdir : update (longDir k).inode.blockdir k (112 + k) =
      (longDir (k + 1)).inode.blockdir := by
    funext i
    rcases eq_or_ne i k with rfl | hi
    · simp [longDir]
    · rw [update_of_ne hi]
      exact if_congr (by omega) rfl rfl
  have hblocks : word (k + 1) = k + 1 := word_of_lt (by omega)
  rw [Inode.putTop, Inode.countBlock, blockFound]
  rw [hgroups, hcount, hdir, hlen, hblocks]
  rfl

theorem longDir_add {k : ℕ} (hk : k < 16) :
    (longDir k).addDirEntry superUser (longName k) 7 = some (longDir (k + 1), .ok ()) := by
  have hname := longName_isEntryName k
  have hnot : 112 + k ≠ noBlock := by
    rw [noBlock]
    omega
  rw [Directory.addDirEntry, (longDir_holds hk.le).refused hname.1 hname.2 rfl]
  rw [longDir_full hk.le]
  rw [Directory.addBlock, longDir_expand hk, Option.map_some, if_neg hnot]
  refine congrArg (fun dir => some (dir, Except.ok ())) ?_
  have hdata : update (longDir k).data (112 + k)
      (putDentry (fun _ => 0) 0 7 512 (longName k)) = (longDir (k + 1)).data := by
    funext b
    rcases eq_or_ne b (112 + k) with rfl | hb
    · simp [longDir]
    · rw [update_of_ne hb]
      exact if_congr (by omega) rfl rfl
  have hsize : (longDir k).size + 512 = (longDir (k + 1)).size := (Nat.succ_mul k 512).symm
  show Directory.mk (longDir (k + 1)).inode 512 ((longDir k).size + 512) sIfdir 0 0
    (update (longDir k).data (112 + k) (putDentry (fun _ => 0) 0 7 512 (longName k))) = _
  rw [hdata, hsize]
  rfl

theorem longDir_run {k i : ℕ} (hk : i + k ≤ 16) {m : Path → Option UInt32}
    (hm : ∀ j, i ≤ j → j ≤ 16 → m (longName j) = none) :
    ∃ m', DirRun superUser (longDir i) m (longDir (i + k)) m' ∧
      ∀ j, i + k ≤ j → j ≤ 16 → m' (longName j) = none := by
  induction k generalizing i m with
  | zero => exact ⟨m, .done _ _, hm⟩
  | succ k ih =>
    have hnext : ∀ j, i + 1 ≤ j → j ≤ 16 →
        update m (longName i) (some 7) (longName j) = none := by
      intro j hj hle
      have hne : longName j ≠ longName i := fun he => by
        have := longName_inj (by omega) (by omega) he
        omega
      rw [update_of_ne hne]
      exact hm j (by omega) hle
    obtain ⟨m', hrun, hm'⟩ := ih (by omega : i + 1 + k ≤ 16) hnext
    have hsum : i + 1 + k = i + (k + 1) := by omega
    rw [hsum] at hrun hm'
    have hroom : (longDir i).Room (longName i) := fun _ => by
      show i * 512 < 2 ^ 32
      omega
    exact ⟨m', .add (longName_isEntryName i) (hm i le_rfl (by omega)) hroom (longDir_add (by omega)) hrun,
      hm'⟩

theorem longDir_not_expanded : (longDir 16).inode.expandInode = none := by
  have hmax : (longDir 16).inode.blocks = (longDir 16).inode.maxBlocks := by
    rw [Inode.maxBlocks, word_of_lt (by decide)]
    rfl
  have hgoal : minus ((longDir 16).inode.blockdir 0) 1 = 111 := by
    rw [minus_of_le (by decide)]
    rfl
  -- the second group is full, the first one is not
  have hfirst : firstFree ((longDir 16).inode.fs.groups 0) = ((longDir 16).inode.fs.groups 0, 32) := by
    exact congrArg (Prod.mk _) (by decide)
  have hsearch : (longDir 16).inode.fs.searchGroups 2 1 = (longDir 16).inode.fs.blockFound 0 32 := by
    rw [searchGroups]
    rw [if_neg (by decide), if_pos (by decide), searchGroups]
    rw [if_pos (by decide), hfirst]
    rw [if_pos (by decide), update_eq_self]
  have hnew : (longDir 16).inode.fs.newBlock 111 = some ((longDir 16).inode.fs.blockFound 0 32) := by
    exact congrArg some hsearch
  have hblock : ((longDir 16).inode.fs.blockFound 0 32).2 = 32 := word_of_lt (by decide)
  rw [Inode.expandInode, if_neg (by decide), if_pos hmax, Inode.withNewBlock, hgoal, hnew]
  dsimp only
  rw [hblock, if_neg (by decide)]
  set inode := Inode.pushDown { (longDir 16).inode with
    fs := ((longDir 16).inode.fs.blockFound 0 32).1 } 32 with hinode
  have hsplit : inode.splitLevels inode.blocks = some [0, 16] := by decide
  have htop : inode.blockdir 0 = 32 := rfl
  have hslot : inode.fs.page 32 (16 - 1) = 127 := rfl
  have hnext : word (127 + 1) = 128 := word_of_lt (by decide)
  have hnone : inode.fs.newBlock 128 = none := by
    rw [newBlock, if_pos (by decide)]
    rw [if_pos (by decide)]
  rw [Inode.setInodeBlock, if_neg (by decide), hsplit]
  dsimp only
  rw [if_neg (by decide), htop, if_neg (by decide), Inode.setBelow, Inode.setLeaf, if_pos rfl,
    if_neg (by decide), hslot, hnext, Inode.withNewBlock, hnone]

theorem add_after_last_group : (longDir 0).Empty superUser ∧
    ∃ dir m, DirRun superUser (longDir 0) (fun _ => none) dir m ∧ m (longName 16) = none ∧
      dir.inode.fs.Free 32 ∧ dir.addDirEntry superUser (longName 16) 7 = none := by
  have hwf := longDir_wellFormed (Nat.zero_le 16)
  refine ⟨⟨hwf.ok, by decide, rfl, rfl, fun _ _ => rfl, by decide, by decide, by decide, rfl, by decide,
    rfl, rfl⟩, ?_⟩
  obtain ⟨m, hrun, hm⟩ := longDir_run (k := 16) le_rfl (m := fun _ => none) fun _ _ _ => rfl
  have hname := longName_isEntryName 16
  refine ⟨longDir 16, m, hrun, hm 16 le_rfl le_rfl, ⟨⟨by decide, by decide⟩, by decide⟩, ?_⟩
  rw [Directory.addDirEntry, (longDir_holds le_rfl).refused hname.1 hname.2 rfl]
  rw [longDir_full le_rfl]
  rw [Directory.addBlock, longDir_not_expanded]
  rfl

end SimpleKernel.Dfs
