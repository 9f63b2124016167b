import SimpleKernel.Dfs.NameSteps

/-! Sequences of the calls that change names. -/
namespace SimpleKernel.Dfs
open Relation
open Vfs (Path Cred sIexec maxPath)

namespace Disk
variable {v v' : Disk} {t : Cred} {space : Space} {d dir i old mode : ℕ} {name rest : Path}

@[simp] theorem lockInode_toNames (v : Disk) (i : ℕ) : (v.lockInode i).toNames = v.toNames := rfl

@[simp] theorem releaseInode_toNames (v : Disk) (i : ℕ) : (v.releaseInode i).toNames = v.toNames := rfl

@[simp] theorem withNames_toNames (v : Disk) (n : Names) : (v.withNames n).toNames = n := rfl

/-! Looking up does not change names. -/

theorem diri_eq {r : Except FsError (ℕ × Path)} (h : v.diri t name = (v', r)) :
    v'.toNames = v.toNames ∧ v.toNames.diri t name = r := by
  rw [diri] at h
  split at h
  · next hr =>
    obtain ⟨rfl, rfl⟩ := Prod.mk.inj h
    exact ⟨rfl, hr⟩
  · next hr =>
    obtain ⟨rfl, rfl⟩ := Prod.mk.inj h
    exact ⟨rfl, hr⟩

theorem namei_eq {r : Except FsError ℕ} (h : v.namei t name = (v', r)) :
    v'.toNames = v.toNames ∧ v.toNames.namei t name = r := by
  rw [namei] at h
  split at h
  · next hr =>
    obtain ⟨rfl, rfl⟩ := Prod.mk.inj h
    exact ⟨rfl, hr⟩
  · next hr =>
    obtain ⟨rfl, rfl⟩ := Prod.mk.inj h
    exact ⟨rfl, hr⟩

theorem getInode_eq {r : Except FsError ℕ} (h : v.getInode i = (v', r)) :
    v'.toNames = v.toNames ∧ v.toNames.getInode i = r := by
  rw [getInode] at h
  split at h
  · next hr =>
    obtain ⟨rfl, rfl⟩ := Prod.mk.inj h
    exact ⟨rfl, hr⟩
  · next hr =>
    obtain ⟨rfl, rfl⟩ := Prod.mk.inj h
    exact ⟨rfl, hr⟩

theorem getInode_eq_ok {j : ℕ} (h : v.getInode i = (v', .ok j)) :
    v'.toNames = v.toNames ∧ j = i ∧ i < v.inodeCount := by
  obtain ⟨hsame, hget⟩ := getInode_eq h
  exact ⟨hsame, Names.getInode_ok hget⟩

theorem allocInode_eq (h : v.allocInode t space mode = some (v', i)) :
    space.newInode = some i ∧ v'.toNames = v.toNames.allocInode t i mode := by
  rw [allocInode, Option.map_eq_some_iff] at h
  obtain ⟨j, hj, heq⟩ := h
  obtain ⟨rfl, rfl⟩ := Prod.mk.inj heq
  exact ⟨hj, rfl⟩

end Disk

/-- What `new_inode` answers is an inode that is not in use. -/
def Space.Fits (space : Space) (v : Names) : Prop :=
  ∀ i, space.newInode = some i → v.allocated i = false ∧ i < v.inodeCount

namespace Names
variable {v : Names} {t : Cred} {space : Space} {dir i : ℕ} {name : Path}

theorem addDirEntry_ok {w : Names} (h : v.addDirEntry t space dir name i = .ok w) :
    w = v.setEntries dir ((v.desc dir).entries ++ [(name, i)]) := by
  rw [addDirEntry] at h
  split at h
  · simp at h
  · split at h
    · exact (Except.ok.inj h).symm
    · simp at h

theorem modifyDirEntry_ok {w : Names} (h : v.modifyDirEntry t dir name i = .ok w) :
    w = v.setEntries dir (replaceEntry name i (v.desc dir).entries) := by
  rw [modifyDirEntry] at h
  split at h
  · simp at h
  · split at h
    · exact (Except.ok.inj h).symm
    · simp at h

theorem setEntries_checki (v : Names) (t : Cred) (d : ℕ) (es : List (Path × ℕ)) (i access : ℕ) :
    (v.setEntries d es).checki t i access = v.checki t i access := by
  by_cases hi : i = d
  · subst hi
    rw [checki, checki, setEntries, setDesc_desc_self]
  · rw [checki, checki, setEntries, setDesc_desc_of_ne hi]

theorem deleteDirEntry_of_find {u : Names} (h : v.findDirEntry t dir name = .ok i)
    (hdir : (u.desc dir).isDir = true) (hwrite : u.checki t dir sIwrite = true)
    (hlook : (u.desc dir).entries.lookup name = some i) :
    u.deleteDirEntry t dir name = .ok (u.setEntries dir (removeEntry name (u.desc dir).entries)) := by
  have hlen : ¬ (name.length = 0 ∨ maxPath ≤ name.length) := by
    rintro (hzero | hlong)
    · simp [findDirEntry, refused, hzero] at h
    · have hpos : name.length ≠ 0 := by
        have : 0 < maxPath := by decide
        omega
      simp [findDirEntry, refused, hpos, hlong] at h
  rw [deleteDirEntry, if_neg hlen, if_neg (by simp [hdir]), if_neg (by simp [hwrite]), if_pos (by simp [hlook])]

theorem deleteDirEntry_ok {w : Names} (h : v.deleteDirEntry t dir name = .ok w) :
    w = v.setEntries dir (removeEntry name (v.desc dir).entries) := by
  rw [deleteDirEntry] at h
  split_ifs at h
  exact (Except.ok.inj h).symm

end Names

namespace Disk
variable {v v' : Disk} {t : Cred} {space : Space} {d dir i old mode : ℕ} {name rest : Path}

theorem enter_toNames (v : Disk) (t : Cred) (space : Space) (dir : ℕ) (name : Path) (i : ℕ) :
    (v.enter t space dir name i).1.toNames = v.toNames.unlinkInode i ∨
      (v.enter t space dir name i).1.toNames =
        v.toNames.setEntries dir ((v.desc dir).entries ++ [(name, i)]) := by
  rw [enter]
  split
  · exact .inl rfl
  · next hadd => exact .inr (Names.addDirEntry_ok hadd)

theorem consistent_of_new (hv : v.toNames.Consistent) (hi : v.allocated dir = true)
    (hfind : v.findDirEntry t dir name = .error .enoent) (hfits : space.Fits v.toNames)
    (halloc : v.allocInode t space mode = some (v', i)) :
    (v'.enter t space dir name i).1.toNames.Consistent := by
  obtain ⟨hdir, hlook⟩ := Names.findDirEntry_enoent hfind
  obtain ⟨hnew, hv'⟩ := allocInode_eq halloc
  obtain ⟨hfree, hbound⟩ := hfits i hnew
  have hne : dir ≠ i := by
    rintro rfl
    simp [hfree] at hi
  rcases enter_toNames v' t space dir name i with h | h
  · rw [h, hv']
    exact hv.discard hfree t mode
  · rw [h, hv', Names.allocInode_desc_of_ne hne]
    exact hv.create hi hdir hlook hfree hbound t mode

/-! One lemma for each function. -/

section
variable (hv : v.toNames.Consistent)
include hv

theorem consistent_openExisting (t : Cred) (name : Path) :
    (v.openExisting t name).1.toNames.Consistent := by
  obtain ⟨hsame, -⟩ := namei_eq (Prod.mk.eta).symm
  rw [openExisting, hsame]
  exact hv

theorem consistent_openAlways (hfits : space.Fits v.toNames) (t : Cred)
    (name : Path) (mode : ℕ) : (v.openAlways t space name mode).1.toNames.Consistent := by
  rw [openAlways]
  split
  · next hdiri =>
    rw [(diri_eq hdiri).1]
    exact hv
  · next v₁ dir rest hdiri =>
    obtain ⟨hsame, hdiri⟩ := diri_eq hdiri
    rw [← hsame] at hv hfits hdiri
    have hlive := (hv.diri hdiri).1
    split
    · split
      · next hget =>
        rw [releaseInode_toNames, (getInode_eq hget).1]
        exact hv
      · next hget =>
        rw [releaseInode_toNames, (getInode_eq hget).1]
        exact hv
    · next e hfind =>
      split
      · exact hv
      · next he =>
        obtain rfl : e = .enoent := by simpa using he
        split
        · exact hv
        · next halloc => exact consistent_of_new hv hlive hfind hfits halloc

theorem consistent_replaceExisting (hfits : space.Fits v.toNames)
    (hi : v.allocated dir = true) (hfind : v.findDirEntry t dir name = .ok old) (mode : ℕ) :
    (v.replaceExisting t space dir name old mode).1.toNames.Consistent := by
  obtain ⟨hdir, hlook⟩ := Names.findDirEntry_ok hfind
  have hchild : v.toNames.Child dir old :=
    ⟨name, by rw [Names.entriesOf_of_live hi hdir]; exact Names.mem_of_lookup hlook⟩
  rw [replaceExisting]
  split
  · exact hv
  · next hnot =>
    have hfile : (v.desc old).isDir = false := by
      -- a directory has one link
      by_contra hno
      have hisdir : (v.desc old).isDir = true := by simpa using hno
      have hroot : old ≠ rootInode := by
        rintro rfl
        exact hv.root_unnamed dir hchild
      exact hnot ⟨hisdir, (hv.dirs old (hv.named dir old hchild) hisdir hroot).2⟩
    split
    · exact hv
    · next v₁ i halloc =>
      obtain ⟨hnew, hv₁⟩ := allocInode_eq halloc
      obtain ⟨hfree, hbound⟩ := hfits i hnew
      have hne : dir ≠ i := by
        rintro rfl
        simp [hfree] at hi
      split
      · change (v₁.toNames.unlinkInode i).Consistent
        rw [hv₁]
        exact hv.discard hfree t _
      · next n hmodify =>
        have hn := Names.modifyDirEntry_ok hmodify
        rw [hn, hv₁, Names.allocInode_desc_of_ne hne]
        exact hv.replace hi hdir hlook hfile hfree hbound t _

theorem consistent_createAlways (hfits : space.Fits v.toNames) (t : Cred)
    (name : Path) (mode : ℕ) : (v.createAlways t space name mode).1.toNames.Consistent := by
  rw [createAlways]
  split
  · next hdiri =>
    rw [(diri_eq hdiri).1]
    exact hv
  · next v₁ dir rest hdiri =>
    obtain ⟨hsame, hdiri⟩ := diri_eq hdiri
    rw [← hsame] at hv hfits hdiri
    have hlive := (hv.diri hdiri).1
    split
    · next old hfind =>
      split
      · next hget =>
        rw [releaseInode_toNames, (getInode_eq hget).1]
        exact hv
      · next v₂ old' hget =>
        obtain ⟨hsame', rfl, -⟩ := getInode_eq_ok hget
        rw [← hsame'] at hv hfits hlive hfind
        exact consistent_replaceExisting hv hfits hlive hfind mode
    · next e hfind =>
      split
      · exact hv
      · next he =>
        obtain rfl : e = .enoent := by simpa using he
        split
        · exact hv
        · next halloc => exact consistent_of_new hv hlive hfind hfits halloc

theorem consistent_truncateExisting (t : Cred) (name : Path) :
    (v.truncateExisting t name).1.toNames.Consistent := by
  rw [truncateExisting]
  split
  · next hnamei =>
    rw [(namei_eq hnamei).1]
    exact hv
  · next v₁ i hnamei =>
    rw [← (namei_eq hnamei).1] at hv
    split
    · exact hv
    · exact hv.truncate i

end

/-- The special inodes: the reserved ones but the root. -/
def Special (v : Names) (ino : ℕ) : Prop := ino = noInode ∨ v.inodeCount ≤ ino ∨ ino ≠ rootInode ∧ ino < v.reservedInodes

theorem consistent_createNew {ino : ℕ} (hv : v.toNames.Consistent) (hfits : space.Fits v.toNames)
    (hino : Special v.toNames ino) (t : Cred) (name : Path) (mode : ℕ) :
    (v.createNew t space name ino mode).1.toNames.Consistent := by
  rw [createNew]
  split
  · next hdiri =>
    rw [(diri_eq hdiri).1]
    exact hv
  · next v₁ dir rest hdiri =>
    obtain ⟨hsame, hdiri⟩ := diri_eq hdiri
    rw [← hsame] at hv hfits hdiri hino
    have hlive := (hv.diri hdiri).1
    split
    · exact hv
    · next e hfind =>
      split
      · exact hv
      · next he =>
        obtain rfl : e = .enoent := by simpa using he
        split
        · split
          · exact hv
          · next halloc => exact consistent_of_new hv hlive hfind hfits halloc
        · next hno =>
          split
          · next hget =>
            rw [releaseInode_toNames, (getInode_eq hget).1]
            exact hv
          · next v₂ ino' hget =>
            obtain ⟨hsame', rfl, hlt⟩ := getInode_eq_ok hget
            rw [← hsame'] at hv hlive hfind hino
            have hres : ino' ≠ rootInode ∧ ino' < v₂.reservedInodes := by
              rcases hino with h | h | h
              · exact absurd h hno
              · rw [hsame'] at h
                omega
              · exact h
            have hin := hv.reserved ino' hres.2
            have hfile : (v₂.desc ino').isDir = false := by
              by_contra hdir
              have := (hv.dirs ino' hin (by simpa using hdir) hres.1).1
              omega
            have hdec : Desc.isDir { v₂.desc ino' with
                mode := sIfreg ||| 448
                uid := 0
                gid := 0
                linkcount := (v₂.desc ino').linkcount + 1 } = false := by
              show decide ((sIfreg ||| 448) &&& sIfmt = sIfdir) = false
              decide
            obtain ⟨hdir, hlook⟩ := Names.findDirEntry_enoent hfind
            have hne : dir ≠ ino' := by
              rintro rfl
              simp [hfile] at hdir
            rcases enter_toNames (v₂.withNames (v₂.toNames.takeSpecial ino')) t space dir rest ino' with
              h | h
            · rw [h]
              exact hv.unlinkAgain hin hfile hdec rfl
            · rw [h, withNames_toNames, Names.takeSpecial, Names.setDesc_desc_of_ne hne]
              exact hv.link hlive hdir hlook hin hfile hdec fun _ => rfl

theorem consistent_dfsOpen {flags : ℕ} (hv : v.toNames.Consistent) (hfits : space.Fits v.toNames)
    (hino : openKind flags = .special → Special v.toNames (specialInode flags)) (t : Cred) (name : Path)
    (mode : ℕ) : (v.dfsOpen t space name flags mode).1.toNames.Consistent := by
  rw [dfsOpen]
  cases hkind : openKind flags with
  | openExisting => exact consistent_openExisting hv t name
  | openAlways => exact consistent_openAlways hv hfits t name mode
  | createNew => exact consistent_createNew hv hfits (.inl rfl) t name mode
  | truncateExisting => exact consistent_truncateExisting hv t name
  | createAlways => exact consistent_createAlways hv hfits t name mode
  | special => exact consistent_createNew hv hfits (hino hkind) t name mode
  | invalid => exact hv

theorem consistent_dfsMkdir (hv : v.toNames.Consistent) (hfits : space.Fits v.toNames) (t : Cred)
    (name : Path) (mode : ℕ) : (v.dfsMkdir t space name mode).1.toNames.Consistent := by
  rw [dfsMkdir]
  split
  · exact hv
  · split
    · next hdiri =>
      rw [(diri_eq hdiri).1]
      exact hv
    · next v₁ dir rest hdiri =>
      obtain ⟨hsame, hdiri⟩ := diri_eq hdiri
      rw [← hsame] at hv hfits hdiri
      have hlive := (hv.diri hdiri).1
      split
      · exact hv
      · next e hfind =>
        split
        · exact hv
        · next he =>
          obtain rfl : e = .enoent := by simpa using he
          split
          · exact hv
          · next halloc =>
            have hnew := consistent_of_new hv hlive hfind hfits halloc
            split
            · next henter =>
              rw [henter] at hnew
              exact hnew
            · next henter =>
              rw [henter] at hnew
              exact hnew

theorem consistent_dfsRmdir (hv : v.toNames.Consistent) (t : Cred) (name : Path) :
    (v.dfsRmdir t name).1.toNames.Consistent := by
  rw [dfsRmdir]
  split
  · next hdiri =>
    rw [(diri_eq hdiri).1]
    exact hv
  · next v₁ dir rest hdiri =>
    obtain ⟨hsame, hdiri⟩ := diri_eq hdiri
    rw [← hsame] at hv hdiri
    have hlive := (hv.diri hdiri).1
    split
    · exact hv
    · next i hfind =>
      split
      · exact hv
      · next hroot =>
        split
        · next hget =>
          rw [releaseInode_toNames, (getInode_eq hget).1]
          exact hv
        · next v₂ i' hget =>
          obtain ⟨hsame', rfl, -⟩ := getInode_eq_ok hget
          rw [← hsame'] at hv hlive hfind
          obtain ⟨hdir, hlook⟩ := Names.findDirEntry_ok hfind
          have hchild : v₂.toNames.Child dir i' :=
            ⟨rest, by rw [Names.entriesOf_of_live hlive hdir]; exact Names.mem_of_lookup hlook⟩
          have hin := hv.named dir i' hchild
          split
          · exact hv
          · next hisdir =>
            have hisdir : (v₂.desc i').isDir = true := by simpa using hisdir
            split
            · split
              · exact hv
              · next hempty =>
                split
                · exact hv
                · next n hdelete =>
                  rw [Names.deleteDirEntry_ok hdelete]
                  refine hv.unlink hlive hdir hlook ?_
                  rw [Names.entriesOf_of_live hin hisdir]
                  simpa using hempty
            · next hmany => exact absurd (hv.dirs i' hin hisdir hroot).2 hmany

theorem consistent_dfsUnlink (hv : v.toNames.Consistent) (t : Cred) (name : Path) :
    (v.dfsUnlink t name).1.toNames.Consistent := by
  rw [dfsUnlink]
  split
  · next hdiri =>
    rw [(diri_eq hdiri).1]
    exact hv
  · next v₁ dir rest hdiri =>
    obtain ⟨hsame, hdiri⟩ := diri_eq hdiri
    rw [← hsame] at hv hdiri
    have hlive := (hv.diri hdiri).1
    split
    · exact hv
    · next i hfind =>
      split
      · next hget =>
        rw [releaseInode_toNames, (getInode_eq hget).1]
        exact hv
      · next v₂ i' hget =>
        obtain ⟨hsame', rfl, -⟩ := getInode_eq_ok hget
        rw [← hsame'] at hv hlive hfind
        obtain ⟨hdir, hlook⟩ := Names.findDirEntry_ok hfind
        split
        · exact hv
        · next hfile =>
          split
          · exact hv
          · next n hdelete =>
            rw [Names.deleteDirEntry_ok hdelete]
            exact hv.unlink hlive hdir hlook (Names.entriesOf_of_not_dir (by simpa using hfile))

theorem consistent_dfsLink {oldname newname : Path} (hv : v.toNames.Consistent)
    (hfile : ∀ i, v.toNames.namei t oldname = .ok i → (v.desc i).isDir = false) (space : Space) :
    (v.dfsLink t space oldname newname).1.toNames.Consistent := by
  rw [dfsLink]
  split
  · next hnamei =>
    rw [(namei_eq hnamei).1]
    exact hv
  · next v₁ i hnamei =>
    obtain ⟨hsame, hnamei⟩ := namei_eq hnamei
    have hfile := hfile i hnamei
    have hin := hv.namei hnamei
    rw [← hsame] at hv hfile hin
    split
    · next hdiri =>
      rw [releaseInode_toNames, (diri_eq hdiri).1]
      exact hv
    · next v₂ dir rest hdiri =>
      obtain ⟨hsame', hdiri⟩ := diri_eq hdiri
      rw [← hsame'] at hv hfile hin hdiri
      have hlive := (hv.diri hdiri).1
      split
      · exact hv
      · next e hfind =>
        split
        · exact hv
        · next he =>
          obtain rfl : e = .enoent := by simpa using he
          obtain ⟨hdir, hlook⟩ := Names.findDirEntry_enoent hfind
          have hne : dir ≠ i := by
            rintro rfl
            simp [hfile] at hdir
          have hdone : ((v₂.withNames (v₂.toNames.linkInode i)).enter t space dir rest
              i).1.toNames.Consistent := by
            rcases enter_toNames (v₂.withNames (v₂.toNames.linkInode i)) t space dir rest i with h | h
            · rw [h]
              exact hv.unlinkAgain hin hfile hfile rfl
            · rw [h, withNames_toNames, Names.linkInode, Names.setDesc_desc_of_ne hne]
              exact hv.link hlive hdir hlook hin hfile hfile fun _ => rfl
          split
          · next henter =>
            rw [henter] at hdone
            exact hdone
          · next henter =>
            rw [henter] at hdone
            exact hdone

/-- The directory that gets the new name is not the renamed one or below it. -/
def Outside (v : Names) (t : Cred) (oldname newname : Path) : Prop :=
  ∀ dir rest i newdir newrest, v.diri t oldname = .ok (dir, rest) → v.findDirEntry t dir rest = .ok i →
    v.diri t newname = .ok (newdir, newrest) → ¬ ReflTransGen v.Child i newdir

theorem consistent_dfsRename {oldname newname : Path} (hv : v.toNames.Consistent)
    (hout : Outside v.toNames t oldname newname) (space : Space) :
    (v.dfsRename t space oldname newname).1.toNames.Consistent := by
  rw [dfsRename]
  split
  · next hdiri =>
    rw [(diri_eq hdiri).1]
    exact hv
  · next v₁ dir rest hdiri =>
    obtain ⟨hsame, hdiri⟩ := diri_eq hdiri
    rw [← hsame] at hv hdiri hout
    split
    · exact hv
    · next i hfind =>
      split
      · next hdiri' =>
        rw [releaseInode_toNames, (diri_eq hdiri').1]
        exact hv
      · next v₂ newdir newrest hdiri' =>
        obtain ⟨hsame', hdiri'⟩ := diri_eq hdiri'
        rw [← hsame'] at hv hdiri hout hfind hdiri'
        have hbelow := hout dir rest i newdir newrest hdiri hfind hdiri'
        have hlive := (hv.diri hdiri).1
        obtain ⟨hdir, hlook⟩ := Names.findDirEntry_ok hfind
        dsimp only
        split
        · split
          · exact hv
          · split
            · exact hv
            · exact hv
        · next hfound =>
          have hfound : v₂.findDirEntry t newdir newrest = .error .enoent := by simpa using hfound
          obtain ⟨hdir', hlook'⟩ := Names.findDirEntry_enoent hfound
          split
          · exact hv
          · next hwrite =>
            have hwrite : v₂.checki t dir sIwrite = true := by
              by_contra hno
              exact hwrite (.inl (by simpa using hno))
            split
            · exact hv
            · next n hadd =>
              have hn := Names.addDirEntry_ok hadd
              obtain ⟨hstill, hdone⟩ := hv.rename hlive hdir hlook (hv.diri hdiri').1 hdir' hlook' hbelow hn
              have hwrite' : n.checki t dir sIwrite = true := by
                rw [hn, Names.setEntries_checki]
                exact hwrite
              have hisdir : (n.desc dir).isDir = true := by
                rw [hn, (Names.setEntries_same v₂.toNames newdir _ dir).2.1]
                exact hdir
              rw [withNames_toNames, Names.deleteDirEntry_of_find hfind hisdir hwrite' hstill]
              exact hdone

end Disk

/-- The calls that change names. -/
inductive NameCall
  | openFile (t : Cred) (space : Space) (name : Path) (flags mode : ℕ)
  | mkdir (t : Cred) (space : Space) (name : Path) (mode : ℕ)
  | rmdir (t : Cred) (name : Path)
  | rename (t : Cred) (space : Space) (oldname newname : Path)
  | link (t : Cred) (space : Space) (oldname newname : Path)
  | unlink (t : Cred) (name : Path)

namespace NameCall
variable {v w : Disk} {c : NameCall}

/-- The file system after the call, whether it fails or not. -/
def perform (v : Disk) : NameCall → Disk
  | .openFile t space name flags mode => (v.dfsOpen t space name flags mode).1
  | .mkdir t space name mode => (v.dfsMkdir t space name mode).1
  | .rmdir t name => (v.dfsRmdir t name).1
  | .rename t space oldname newname => (v.dfsRename t space oldname newname).1
  | .link t space oldname newname => (v.dfsLink t space oldname newname).1
  | .unlink t name => (v.dfsUnlink t name).1

/-- The inode allocator answers the truth. -/
def Served (v : Disk) : NameCall → Prop
  | .openFile _ space _ _ _ => space.Fits v.toNames
  | .mkdir _ space _ _ => space.Fits v.toNames
  | _ => True

/-- The calls that the code does not guard itself against. -/
def Guarded (v : Disk) : NameCall → Prop
  | .openFile _ _ _ flags _ =>
    Disk.openKind flags = .special → Disk.Special v.toNames (Disk.specialInode flags)
  | .rename t _ oldname newname => Disk.Outside v.toNames t oldname newname
  | .link t _ oldname _ => ∀ i, v.toNames.namei t oldname = .ok i → (v.desc i).isDir = false
  | _ => True

theorem consistent (hv : v.toNames.Consistent) (hserved : c.Served v) (hguarded : c.Guarded v) :
    (c.perform v).toNames.Consistent := by
  cases c with
  | openFile t space name flags mode => exact Disk.consistent_dfsOpen hv hserved hguarded t name mode
  | mkdir t space name mode => exact Disk.consistent_dfsMkdir hv hserved t name mode
  | rmdir t name => exact Disk.consistent_dfsRmdir hv t name
  | rename t space oldname newname => exact Disk.consistent_dfsRename hv hguarded space
  | link t space oldname newname => exact Disk.consistent_dfsLink hv hguarded space
  | unlink t name => exact Disk.consistent_dfsUnlink hv t name

def step (v : Disk) (c : NameCall) : Option Disk := some (c.perform v)

end NameCall

namespace Names

/-- A file system that has just been made: the reserved inodes are in use, and among them is the root, an
empty directory. -/
structure Fresh (v : Names) : Prop where
  root : (v.desc rootInode).isDir = true ∧ (v.desc rootInode).entries = []
  root_reserved : rootInode < v.reservedInodes
  count : v.reservedInodes ≤ v.inodeCount
  allocated : ∀ i, v.allocated i = true ↔ i < v.reservedInodes
  files : ∀ i, i < v.reservedInodes → i ≠ rootInode → (v.desc i).isDir = false

theorem Fresh.entriesOf {v : Names} (h : v.Fresh) (d : ℕ) : v.entriesOf d = [] := by
  by_cases hroot : d = rootInode
  · subst hroot
    rw [entriesOf_of_live ((h.allocated _).mpr h.root_reserved) h.root.1]
    exact h.root.2
  · by_cases hd : d < v.reservedInodes
    · exact entriesOf_of_not_dir (h.files d hd hroot)
    · refine entriesOf_of_free ?_
      by_contra hno
      exact hd ((h.allocated d).mp (by simpa using hno))

theorem Fresh.no_child {v : Names} (h : v.Fresh) (d i : ℕ) : ¬ v.Child d i := by
  rintro ⟨name, hmem⟩
  rw [h.entriesOf d] at hmem
  exact absurd hmem List.not_mem_nil

theorem Fresh.consistent {v : Names} (h : v.Fresh) : v.Consistent where
  root := ⟨(h.allocated _).mpr h.root_reserved, h.root.1⟩
  bound i hi := ((h.allocated i).mp hi).trans_le h.count
  reserved i := (h.allocated i).mpr
  root_reserved := h.root_reserved
  distinct d := by
    rw [h.entriesOf d]
    exact List.nodup_nil
  named d i hchild := absurd hchild (h.no_child d i)
  root_unnamed d := h.no_child d rootInode
  links i hi hres := absurd ((h.allocated i).mp hi) (not_lt.mpr hres)
  dirs i hi hdir hroot := by
    have := h.files i ((h.allocated i).mp hi) hroot
    simp [hdir] at this
  reached i hi hres := absurd ((h.allocated i).mp hi) (not_lt.mpr hres)

/-- Entries name inodes in use, link counts count entries, and the directories form a tree from which
every inode in use is reached. -/
structure Sound (v : Names) : Prop where
  named : ∀ d i, v.Child d i → v.allocated i = true
  links : ∀ i, v.allocated i = true → v.reservedInodes ≤ i → (v.desc i).linkcount = v.linksTo i
  reached : ∀ i, v.allocated i = true → v.reservedInodes ≤ i → v.Reached i
  tree : ∀ i, ¬ TransGen v.Child i i

theorem Consistent.sound {v : Names} (h : v.Consistent) : v.Sound :=
  ⟨h.named, h.links, h.reached, h.no_cycle⟩

end Names

namespace NameCall

/-- A file system with 32 inodes of which 16 are reserved. -/
def smallVolume : Disk where
  inodeCount := 32
  reservedInodes := 16
  desc i := if i = rootInode then ⟨sIfdir ||| 511, 0, 0, 1, [], []⟩ else .zero
  allocated i := decide (i < 16)
  table i := i / 4
  locks _ := 0

theorem smallVolume_fresh : smallVolume.toNames.Fresh where
  root := ⟨by decide, rfl⟩
  root_reserved := by decide
  count := by decide
  allocated i := by simp [smallVolume]
  files i _ hi := by
    have hdesc : smallVolume.desc i = .zero := if_neg hi
    rw [hdesc]
    decide

/-- `mkdir a` by the super user. -/
def mkdirA : NameCall := .mkdir ⟨0, 0⟩ ⟨some 16, true⟩ [97] 511

/-- `rename a a/b` by the super user. -/
def renameBelow : NameCall := .rename ⟨0, 0⟩ ⟨none, true⟩ [97] [97, 47, 98]

theorem mkdirA_served : mkdirA.Served smallVolume := by
  intro i hi
  obtain rfl : 16 = i := Option.some.inj hi
  exact ⟨by decide, by decide⟩

end NameCall

end SimpleKernel.Dfs
