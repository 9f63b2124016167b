import SimpleKernel.Dfs.NameRuns
import SimpleKernel.Lib.Naming
import SimpleKernel.Vfs.Normalize

/-! `dfs_rename` with I/O errors, and when it does what its return value says. Success is also returned when the new
name cannot be used but ends like the old one, and the new name may lie below the old one. -/
namespace SimpleKernel.Dfs
open Naming
open Vfs (Path Cred components isSep maxPath sIexec)

inductive Failure
  | eio
  | fs (e : FsError)
  deriving DecidableEq

/-- Which of the steps of the call meet an I/O error. -/
structure Faults where
  oldDir : Bool
  oldEntry : Bool
  newDir : Bool
  newEntry : Bool
  add : Bool
  delete : Bool

/-- The names of a path. -/
def parts (path : Path) : List Path := (components path).filter fun c => c ≠ []

namespace Names

/-- A step that looks at blocks; they cannot be read if `fault`. -/
def orFault {α : Type} (fault : Bool) (r : Except FsError α) : Except Failure α :=
  if fault then .error .eio else r.mapError .fs

/-- A directory operation. Its arguments are checked before it looks at blocks. -/
def onDirectory {α : Type} (fault : Bool) (refused : Option FsError) (r : Except FsError α) : Except Failure α :=
  match refused with
  | some e => .error (.fs e)
  | none => orFault fault r

/-- The end of `dfs_rename`, with both directories and the inode `i` of the old name. Where
`delete_dir_entry` fails, the new entry stays. -/
def renameEntry (v : Names) (t : Cred) (space : Space) (io : Faults) (oldparent : ℕ) (oldname : Path)
    (i newparent : ℕ) (newname : Path) : Names × Except Failure Unit :=
  let found := onDirectory io.newEntry (v.refused t newparent sIexec newname) (v.findDirEntry t newparent newname)
  if found ≠ .error (.fs .enoent) then
    if oldname = newname then (v, .ok ())
    else
      match found with
      | .ok _ => (v, .error (.fs .eexist))
      | .error e => (v, .error e)
  else if v.checki t oldparent sIwrite = false ∨ v.checki t newparent sIwrite = false then (v, .error (.fs .eacces))
  else
    match onDirectory io.add (v.refused t newparent sIwrite newname) (v.addDirEntry t space newparent newname i) with
    | .error e => (v, .error e)
    | .ok w =>
      match orFault io.delete (w.deleteDirEntry t oldparent oldname) with
      | .error e => (w, .error e)
      | .ok u => (u, .ok ())

def dfsRenameIo (v : Names) (t : Cred) (space : Space) (io : Faults) (oldname newname : Path) :
    Names × Except Failure Unit :=
  match orFault io.oldDir (v.diri t oldname) with
  | .error e => (v, .error e)
  | .ok (oldparent, oldname) =>
    match onDirectory io.oldEntry (v.refused t oldparent sIexec oldname) (v.findDirEntry t oldparent oldname) with
    | .error e => (v, .error e)
    | .ok i =>
      match orFault io.newDir (v.diri t newname) with
      | .error e => (v, .error e)
      | .ok (newparent, newname) => v.renameEntry t space io oldparent oldname i newparent newname

/-- The inode that the entry `c` of directory `i` names. -/
def entry (v : Names) (i : ℕ) (c : Path) : Option ℕ :=
  if (v.desc i).isDir then (v.desc i).entries.lookup c else none

/-- The inode that a path names. -/
def named (v : Names) (path : Path) : Option ℕ := walk v.entry rootInode (parts path)

end Names

variable {v w : Names} {t : Cred} {space : Space} {dir i j n : ℕ} {name rest path : Path} {io : Faults}

/-! Paths. -/

theorem parts_of_no_sep (h : ∀ c ∈ name, isSep c = false) (hne : name ≠ []) : parts name = [name] := by
  rw [parts, components, List.splitOnP_eq_singleton h]
  simp [hne]

theorem parts_sep (name rest : Path) {c : UInt8} (hc : isSep c = true) :
    parts (name ++ c :: rest) = parts name ++ parts rest := by
  rw [parts, parts, parts, components, components, components, List.splitOnP_append_cons name rest hc,
    List.filter_append]

theorem parts_sep_cons {c : UInt8} (hc : isSep c = true) : parts (c :: rest) = parts rest :=
  parts_sep [] rest hc

theorem parts_skipSep (path : Path) : parts (Vfs.skipSep path) = parts path := by
  cases path with
  | nil => rfl
  | cons c path =>
    rw [Vfs.skipSep]
    split
    · next hc => exact (parts_sep_cons hc).symm
    · rfl

theorem parts_eq_cons (h : path.takeWhile (fun c => !isSep c) ≠ []) :
    parts path = path.takeWhile (fun c => !isSep c) :: parts (path.dropWhile fun c => !isSep c) := by
  have hname : ∀ c ∈ path.takeWhile (fun c => !isSep c), isSep c = false := by
    intro c hc
    simpa using List.mem_takeWhile_imp hc
  have hsplit := List.takeWhile_append_dropWhile (p := fun c => !isSep c) (l := path)
  cases hrest : path.dropWhile fun c => !isSep c with
  | nil =>
    rw [hrest, List.append_nil] at hsplit
    rw [hsplit] at hname h ⊢
    rw [parts_of_no_sep hname h]
    rfl
  | cons c rest =>
    have hc : isSep c = true := by
      have := List.head?_dropWhile_not (fun c => !isSep c) path
      rw [hrest] at this
      simpa using this
    have hparts := parts_sep (path.takeWhile fun c => !isSep c) rest hc
    rw [parts_of_no_sep hname h, ← hrest, hsplit] at hparts
    rw [hparts, parts_sep_cons hc]
    rfl

namespace Names

theorem entry_of_find (h : v.findDirEntry t dir name = .ok i) : v.entry dir name = some i := by
  obtain ⟨hdir, hlook⟩ := findDirEntry_ok h
  rw [entry, if_pos hdir, hlook]

theorem findDirEntry_ne_nil {r : Except FsError ℕ} (h : v.findDirEntry t dir name = r) (hr : r ≠ .error .einval) :
    name ≠ [] := by
  rintro rfl
  apply hr
  rw [← h]
  simp [findDirEntry, refused]

theorem lookupLoop_walk (hn : path.length < n) (h : v.lookupLoop t n i path = .ok j) :
    walk v.entry i (parts path) = some j := by
  induction n generalizing i path with
  | zero => omega
  | succ n ih =>
    rw [← parts_skipSep path]
    have hskip : (Vfs.skipSep path).length ≤ path.length := by
      cases path with
      | nil => exact le_rfl
      | cons c path =>
        rw [Vfs.skipSep]
        split <;> simp
    rw [lookupLoop] at h
    dsimp only at h
    split at h
    · next hzero =>
      obtain rfl := Except.ok.inj h
      rw [List.eq_nil_of_length_eq_zero hzero]
      rfl
    · split at h
      · simp at h
      · split at h
        · simp at h
        · next k hfind =>
          have hne := findDirEntry_ne_nil hfind (by simp)
          rw [parts_eq_cons hne, walk, entry_of_find hfind]
          have hpos : 0 < ((Vfs.skipSep path).takeWhile fun c => !isSep c).length := List.length_pos_of_ne_nil hne
          have hlen := congrArg List.length
            (List.takeWhile_append_dropWhile (p := fun c => !isSep c) (l := Vfs.skipSep path))
          rw [List.length_append] at hlen
          split at h
          · next hrest =>
            obtain rfl := Except.ok.inj h
            rw [List.eq_nil_of_length_eq_zero hrest]
            rfl
          · exact ih (by omega) h

theorem lookupName_walk (h : v.lookupName t i path = .ok j) : walk v.entry i (parts path) = some j :=
  lookupLoop_walk (Nat.lt_succ_self _) h

theorem lastSep_spec (path : Path) (p : ℕ) : lastSep path p ≤ p ∧
    (lastSep path p ≠ 0 → ∃ c, path[lastSep path p]? = some c ∧ isSep c = true) ∧
    ∀ k c, lastSep path p < k → k ≤ p → path[k]? = some c → isSep c = false := by
  induction p with
  | zero => exact ⟨le_rfl, by simp [lastSep], fun k c hk hle => by omega⟩
  | succ p ih =>
    rw [lastSep]
    split
    · next hsep =>
      refine ⟨le_rfl, fun _ => ?_, fun k c hk hle => by omega⟩
      cases hc : path[p + 1]? with
      | none => simp [hc] at hsep
      | some c => exact ⟨c, rfl, by simpa [hc] using hsep⟩
    · next hsep =>
      obtain ⟨hle, hat, hbehind⟩ := ih
      refine ⟨by omega, hat, fun k c hk hkp hc => ?_⟩
      rcases hkp.eq_or_lt with rfl | hlt
      · simpa [hc] using hsep
      · exact hbehind k c hk (by omega) hc

theorem diri_parts (h : v.diri t path = .ok (dir, name)) (hne : name ≠ []) :
    ∃ pre, parts path = pre ++ [name] ∧ walk v.entry rootInode pre = some dir := by
  rw [diri] at h
  split at h
  · -- an empty path
    next hzero =>
    have hnil := List.eq_nil_of_length_eq_zero hzero
    cases hget : v.getInode rootInode with
    | error e =>
      rw [hget] at h
      simp [Except.map] at h
    | ok k =>
      rw [hget] at h
      obtain ⟨-, rfl⟩ := Prod.mk.inj (Except.ok.inj h)
      exact absurd hnil hne
  next hpos =>
    obtain ⟨-, hat, hbehind⟩ := lastSep_spec path (path.length - 1)
    dsimp only at h
    split at h
    · -- a name in the root
      next hp =>
      cases hget : v.getInode rootInode with
      | error e =>
        rw [hget] at h
        simp [Except.map] at h
      | ok k =>
        obtain ⟨rfl, -⟩ := getInode_ok hget
        rw [hget] at h
        obtain ⟨rfl, rfl⟩ := Prod.mk.inj (Except.ok.inj h)
        refine ⟨[], ?_, rfl⟩
        rw [← parts_skipSep]
        refine parts_of_no_sep (fun x hx => ?_) hne
        cases path with
        | nil => exact absurd rfl hne
        | cons c path =>
          have htail : ∀ y ∈ path, isSep y = false := by
            intro y hy
            obtain ⟨k, hk, rfl⟩ := List.getElem_of_mem hy
            refine hbehind (k + 1) _ (by omega) ?_ (by simp [hk])
            simp only [List.length_cons]
            omega
          rw [Vfs.skipSep] at hx
          split at hx
          · exact htail x hx
          · next hc =>
            rcases List.mem_cons.mp hx with rfl | hx
            · simpa using hc
            · exact htail x hx
    · next hp =>
      split at h
      · simp at h
      · next k hk =>
        split at h
        · simp at h
        · next k' hget =>
          obtain ⟨rfl, -⟩ := getInode_ok hget
          split at h
          · simp at h
          · obtain ⟨rfl, rfl⟩ := Prod.mk.inj (Except.ok.inj h)
            obtain ⟨c, hc, hsep⟩ := hat hp
            refine ⟨_, ?_, lookupName_walk hk⟩
            obtain ⟨hlt, hget⟩ := List.getElem?_eq_some_iff.mp hc
            have hsplit : path = path.take (lastSep path (path.length - 1)) ++
                c :: path.drop (lastSep path (path.length - 1) + 1) := by
              rw [← hget, ← List.drop_eq_getElem_cons hlt, List.take_append_drop]
            have hlast : ∀ x ∈ path.drop (lastSep path (path.length - 1) + 1), isSep x = false := by
              intro x hx
              obtain ⟨m, hm, rfl⟩ := List.getElem_of_mem hx
              rw [List.length_drop] at hm
              rw [List.getElem_drop]
              exact hbehind _ _ (by omega) (by omega) (List.getElem?_eq_getElem _)
            conv_lhs => rw [hsplit]
            rw [parts_sep _ _ hsep, parts_of_no_sep hlast hne]

end Names

/-! Entries. -/

theorem lookup_append_new {es : List (Path × ℕ)} (hnew : es.lookup name = none) (c : Path) :
    (es ++ [(name, i)]).lookup c = if c = name then some i else es.lookup c := by
  induction es with
  | nil =>
    by_cases hc : c = name
    · simp [hc]
    · simp [hc]
  | cons e es ih =>
    rw [List.lookup_cons] at hnew
    rw [List.cons_append, List.lookup_cons, List.lookup_cons]
    by_cases he : c = e.1
    · subst he
      have hne : e.1 ≠ name := by
        rintro rfl
        simp at hnew
      simp [hne]
    · have hrest : es.lookup name = none := by
        by_cases hname : name == e.1
        · simp [hname] at hnew
        · simpa [hname] using hnew
      have hce : (c == e.1) = false := by simpa using he
      rw [hce]
      exact ih hrest

theorem lookup_removeEntry {es : List (Path × ℕ)} (hnodup : (es.map Prod.fst).Nodup) (c : Path) :
    (Names.removeEntry name es).lookup c = if c = name then none else es.lookup c := by
  induction es with
  | nil => simp [Names.removeEntry]
  | cons e es ih =>
    obtain ⟨hout, hnodup⟩ := List.nodup_cons.mp hnodup
    rw [Names.removeEntry]
    by_cases he : e.1 = name
    · subst he
      rw [List.eraseP_cons_of_pos (by simp), List.lookup_cons]
      by_cases hc : c = e.1
      · subst hc
        rw [if_pos rfl]
        exact Names.lookup_eq_none_of_not_mem hout
      · have hce : (c == e.1) = false := by simpa using hc
        rw [if_neg hc, hce]
    · rw [List.eraseP_cons_of_neg (by simpa using he), List.lookup_cons, List.lookup_cons]
      by_cases hc : c = e.1
      · subst hc
        simp [he]
      · have hce : (c == e.1) = false := by simpa using hc
        rw [hce]
        exact ih hnodup

namespace Names

/-- Every directory holds a name once. -/
def Distinct (v : Names) : Prop := ∀ d, ((v.desc d).entries.map Prod.fst).Nodup

theorem entry_setEntries (v : Names) (dir : ℕ) (es : List (Path × ℕ)) (j : ℕ) (c : Path) :
    (v.setEntries dir es).entry j c =
      if j = dir then if (v.desc dir).isDir then es.lookup c else none else v.entry j c := by
  by_cases hj : j = dir
  · subst hj
    rw [entry, setEntries, setDesc_desc_self, if_pos rfl]
    rfl
  · rw [entry, setEntries, setDesc_desc_of_ne hj, if_neg hj, entry]

variable {old new : Path} {d d' : ℕ}

theorem entry_add (hdir : (v.desc d').isDir = true) (hnew : v.entry d' new = none) (j : ℕ) (c : Path) :
    (v.setEntries d' ((v.desc d').entries ++ [(new, i)])).entry j c =
      if j = d' ∧ c = new then some i else v.entry j c := by
  rw [entry, if_pos hdir] at hnew
  rw [entry_setEntries]
  by_cases hj : j = d'
  · subst hj
    rw [if_pos hdir, lookup_append_new hnew, entry, if_pos hdir]
    simp
  · simp [hj]

theorem Distinct.add (hv : v.Distinct) (hdir : (v.desc d').isDir = true) (hnew : v.entry d' new = none) :
    (v.setEntries d' ((v.desc d').entries ++ [(new, i)])).Distinct := by
  intro j
  rw [entry, if_pos hdir] at hnew
  by_cases hj : j = d'
  · subst hj
    rw [setEntries, setDesc_desc_self, List.map_append, List.nodup_append]
    refine ⟨hv j, by simp, ?_⟩
    rintro x hx y hy rfl
    obtain rfl : x = new := by simpa using hy
    exact lookup_eq_none hnew hx
  · rw [setEntries, setDesc_desc_of_ne hj]
    exact hv j

theorem entry_delete (hv : v.Distinct) (hdir : (v.desc d).isDir = true) (j : ℕ) (c : Path) :
    (v.setEntries d (removeEntry old (v.desc d).entries)).entry j c =
      if j = d ∧ c = old then none else v.entry j c := by
  rw [entry_setEntries]
  by_cases hj : j = d
  · subst hj
    rw [if_pos hdir, lookup_removeEntry (hv j), entry, if_pos hdir]
    simp
  · simp [hj]

/-! The call. -/

variable {oldname newname : Path} {r : Names × Except Failure Unit}

/-- Both directories and the old entry are found: the new name is to be `new` in `d'`. -/
structure Looked (v : Names) (t : Cred) (io : Faults) (oldname newname : Path) (d : ℕ) (old : Path) (i d' : ℕ)
    (new : Path) : Prop where
  oldDir : orFault io.oldDir (v.diri t oldname) = .ok (d, old)
  oldEntry : onDirectory io.oldEntry (v.refused t d sIexec old) (v.findDirEntry t d old) = .ok i
  newDir : orFault io.newDir (v.diri t newname) = .ok (d', new)

/-- The new name is known to be unused. -/
def Unused (v : Names) (t : Cred) (io : Faults) (d' : ℕ) (new : Path) : Prop :=
  onDirectory io.newEntry (v.refused t d' sIexec new) (v.findDirEntry t d' new) = .error (.fs .enoent)

/-- The new entry can be made. -/
structure GoesIn (v : Names) (t : Cred) (space : Space) (io : Faults) (d d' : ℕ) : Prop where
  oldWrite : v.checki t d sIwrite = true
  newWrite : v.checki t d' sIwrite = true
  room : space.room = true
  read : io.add = false

/-- Another path ends like the old one but is not unused, or the new entry is made and lies below the
old one or the old one cannot be removed. -/
def Misled (v : Names) (t : Cred) (space : Space) (io : Faults) (oldname newname : Path) : Prop :=
  ∃ d old i d' new, Looked v t io oldname newname d old i d' new ∧
    (¬Unused v t io d' new ∧ old = new ∧ parts oldname ≠ parts newname ∨
      Unused v t io d' new ∧ GoesIn v t space io d d' ∧
        (Through v.entry d old rootInode (parts newname).dropLast ∨ io.delete = true))

/-- What the caller may conclude from the return value. -/
structure Renamed (v : Names) (oldname newname : Path) (r : Names × Except Failure Unit) : Prop where
  done : r.2 = .ok () → parts oldname ≠ parts newname →
    ∃ i, v.named oldname = some i ∧ r.1.named newname = some i ∧ r.1.named oldname = none
  failed : ∀ e, r.2 = .error e → ∀ path, r.1.named path = v.named path

theorem renamed_of_error {e : Failure} : Renamed v oldname newname (v, .error e) :=
  ⟨nofun, fun _ _ _ => rfl⟩

theorem orFault_ok {α : Type} {fault : Bool} {r : Except FsError α} {x : α} (h : orFault fault r = .ok x) :
    r = .ok x := by
  rw [orFault] at h
  split at h
  · simp at h
  · cases r with
    | error e => simp [Except.mapError] at h
    | ok y => exact congrArg Except.ok (Except.ok.inj h)

theorem onDirectory_ok {α : Type} {fault : Bool} {refused : Option FsError} {r : Except FsError α} {x : α}
    (h : onDirectory fault refused r = .ok x) : r = .ok x := by
  unfold onDirectory at h
  split at h
  · simp at h
  · exact orFault_ok h

theorem Unused.find {d' : ℕ} (h : Unused v t io d' new) : v.findDirEntry t d' new = .error .enoent := by
  unfold Unused onDirectory at h
  split at h
  · next e he =>
    obtain rfl := Failure.fs.inj (Except.error.inj h)
    rw [findDirEntry, he]
  · rw [orFault] at h
    split at h
    · simp at h
    · cases hfind : v.findDirEntry t d' new with
      | ok i =>
        rw [hfind] at h
        simp [Except.mapError] at h
      | error e =>
        rw [hfind] at h
        rw [Failure.fs.inj (Except.error.inj h)]

namespace Looked

variable (h : Looked v t io oldname newname d old i d' new)
include h

theorem old_parts : ∃ pre, parts oldname = pre ++ [old] ∧ walk v.entry rootInode pre = some d ∧
    v.entry d old = some i := by
  have hfind := onDirectory_ok h.oldEntry
  obtain ⟨pre, hparts, hwalk⟩ := diri_parts (orFault_ok h.oldDir) (findDirEntry_ne_nil hfind (by simp))
  exact ⟨pre, hparts, hwalk, entry_of_find hfind⟩

theorem named_old : v.named oldname = some i := by
  obtain ⟨pre, hparts, hwalk, hentry⟩ := h.old_parts
  rw [named, hparts, walk_concat hwalk, hentry]

theorem new_parts (hunused : Unused v t io d' new) : parts newname = (parts newname).dropLast ++ [new] ∧
    walk v.entry rootInode (parts newname).dropLast = some d' ∧ (v.desc d').isDir = true ∧
      v.entry d' new = none := by
  have hfind := hunused.find
  obtain ⟨hdir, hlook⟩ := findDirEntry_enoent hfind
  obtain ⟨pre, hparts, hwalk⟩ := diri_parts (orFault_ok h.newDir) (findDirEntry_ne_nil hfind (by simp))
  have hpre : (parts newname).dropLast = pre := by rw [hparts, List.dropLast_concat]
  refine ⟨by rw [hpre, hparts], by rw [hpre, hwalk], hdir, ?_⟩
  rw [entry, if_pos hdir, hlook]

theorem eq : v.dfsRenameIo t space io oldname newname = v.renameEntry t space io d old i d' new := by
  rw [dfsRenameIo, h.oldDir]
  dsimp only
  rw [h.oldEntry]
  rw [h.newDir]

end Looked

theorem dfsRenameIo_cases (v : Names) (t : Cred) (space : Space) (io : Faults) (oldname newname : Path) :
    (∃ e, v.dfsRenameIo t space io oldname newname = (v, .error e) ∧
      ∀ d old i d' new, ¬Looked v t io oldname newname d old i d' new) ∨
      ∃ d old i d' new, Looked v t io oldname newname d old i d' new := by
  rw [dfsRenameIo]
  cases holdDir : orFault io.oldDir (v.diri t oldname) with
  | error e =>
    exact .inl ⟨e, rfl, fun _ _ _ _ _ h => nomatch holdDir.symm.trans h.oldDir⟩
  | ok p =>
    obtain ⟨d, old⟩ := p
    dsimp only
    cases holdEntry : onDirectory io.oldEntry (v.refused t d sIexec old) (v.findDirEntry t d old) with
    | error e =>
      refine .inl ⟨e, rfl, fun d₁ old₁ _ _ _ h => ?_⟩
      obtain ⟨rfl, rfl⟩ := Prod.mk.inj (Except.ok.inj (holdDir.symm.trans h.oldDir))
      exact nomatch holdEntry.symm.trans h.oldEntry
    | ok i =>
      cases hnewDir : orFault io.newDir (v.diri t newname) with
      | error e => exact .inl ⟨e, rfl, fun _ _ _ _ _ h => nomatch hnewDir.symm.trans h.newDir⟩
      | ok q => exact .inr ⟨d, old, i, q.1, q.2, holdDir, holdEntry, hnewDir⟩

theorem renameEntry_used (space : Space) (d : ℕ) (old : Path) (i : ℕ) (h : ¬Unused v t io d' new) :
    (old = new → v.renameEntry t space io d old i d' new = (v, .ok ())) ∧
      (old ≠ new → ∃ e, v.renameEntry t space io d old i d' new = (v, .error e)) := by
  unfold renameEntry
  rw [if_pos (show _ ≠ _ from h)]
  constructor
  · intro heq
    rw [if_pos heq]
  · intro hne
    rw [if_neg hne]
    split
    · exact ⟨_, rfl⟩
    · exact ⟨_, rfl⟩

theorem Unused.refused (h : Unused v t io d' new) (hwrite : v.checki t d' sIwrite = true) :
    v.refused t d' sIwrite new = none := by
  have hfind := h.find
  have hexec : v.refused t d' sIexec new = none := by
    rw [findDirEntry] at hfind
    split at hfind
    · next e he =>
      obtain rfl := Except.error.inj hfind
      exact absurd he (refused_ne_enoent _)
    · assumption
  unfold Names.refused at hexec ⊢
  split_ifs at hexec with hlen hlong hdir hmay
  rw [if_neg hlen, if_neg hlong, if_neg hdir, if_neg (by simp [hwrite])]

/-- The database with the new entry. -/
def entered (v : Names) (i d' : ℕ) (new : Path) : Names := v.setEntries d' ((v.desc d').entries ++ [(new, i)])

/-- And without the old one. -/
def moved (v : Names) (d : ℕ) (old : Path) (i d' : ℕ) (new : Path) : Names :=
  (v.entered i d' new).setEntries d (removeEntry old ((v.entered i d' new).desc d).entries)

theorem renameEntry_refused (old : Path) (i : ℕ) (h : Unused v t io d' new) (hno : ¬GoesIn v t space io d d') :
    ∃ e, v.renameEntry t space io d old i d' new = (v, .error e) := by
  have hfound : ¬onDirectory io.newEntry (v.refused t d' sIexec new) (v.findDirEntry t d' new) ≠
      .error (.fs .enoent) := not_not.mpr h
  unfold renameEntry
  rw [if_neg hfound]
  split
  · exact ⟨_, rfl⟩
  · next hmay =>
    simp only [not_or, Bool.not_eq_false] at hmay
    have hrefused := h.refused hmay.2
    rw [hrefused, onDirectory, orFault, addDirEntry, hrefused]
    by_cases hread : io.add = true
    · rw [if_pos hread]
      exact ⟨_, rfl⟩
    · have hroom : ¬space.room = true := fun hroom => hno ⟨hmay.1, hmay.2, hroom, by simpa using hread⟩
      rw [if_neg hread, if_neg hroom]
      exact ⟨_, rfl⟩

theorem renameEntry_enters (h : Unused v t io d' new) (hfind : v.findDirEntry t d old = .ok i)
    (hgoes : GoesIn v t space io d d') :
    v.renameEntry t space io d old i d' new =
      if io.delete = true then (v.entered i d' new, .error .eio) else (v.moved d old i d' new, .ok ()) := by
  obtain ⟨hdir', hlook'⟩ := findDirEntry_enoent h.find
  obtain ⟨hdir, hlook⟩ := findDirEntry_ok hfind
  have hnew : v.entry d' new = none := by rw [entry, if_pos hdir', hlook']
  have hrefused := h.refused hgoes.newWrite
  have hadd : v.addDirEntry t space d' new i = .ok (v.entered i d' new) := by
    rw [addDirEntry, hrefused]
    exact if_pos hgoes.room
  have hisdir : ((v.entered i d' new).desc d).isDir = true := by
    rw [entered, (setEntries_same v d' _ d).2.1]
    exact hdir
  have hwrite : (v.entered i d' new).checki t d sIwrite = true := by
    rw [entered, setEntries_checki]
    exact hgoes.oldWrite
  have hne : ¬(d = d' ∧ old = new) := by
    rintro ⟨rfl, rfl⟩
    rw [hlook'] at hlook
    simp at hlook
  have hstill : ((v.entered i d' new).desc d).entries.lookup old = some i := by
    have hentry := entry_add (i := i) hdir' hnew d old
    rw [if_neg hne, ← entered, entry, if_pos hisdir, entry, if_pos hdir, hlook] at hentry
    exact hentry
  have hdelete := deleteDirEntry_of_find hfind hisdir hwrite hstill
  have hfound : ¬onDirectory io.newEntry (v.refused t d' sIexec new) (v.findDirEntry t d' new) ≠
      .error (.fs .enoent) := not_not.mpr h
  unfold renameEntry
  rw [if_neg hfound, if_neg (by simp [hgoes.oldWrite, hgoes.newWrite]), hrefused, hgoes.read, hadd]
  show (match orFault io.delete ((v.entered i d' new).deleteDirEntry t d old) with
    | .error e => (v.entered i d' new, Except.error e)
    | .ok u => (u, Except.ok ())) = _
  rw [hdelete, orFault]
  by_cases hfault : io.delete = true
  · rw [if_pos hfault, if_pos hfault]
  · rw [if_neg hfault, if_neg hfault]
    rfl

theorem entered_keeps (hdir : (v.desc d').isDir = true) (hnew : v.entry d' new = none) {j k : ℕ} {c : Path}
    (h : v.entry j c = some k) : (v.entered i d' new).entry j c = some k := by
  have hne : ¬(j = d' ∧ c = new) := by
    rintro ⟨rfl, rfl⟩
    rw [hnew] at h
    simp at h
  rw [entered, entry_add hdir hnew, if_neg hne, h]

namespace Looked

variable (h : Looked v t io oldname newname d old i d' new)
include h

theorem named_entered (hunused : Unused v t io d' new) : (v.entered i d' new).named newname = some i := by
  obtain ⟨hparts, hwalk, hdir, hnew⟩ := h.new_parts hunused
  have hwalk' := walk_mono (fun _ _ _ hj => entered_keeps (i := i) hdir hnew hj) hwalk
  rw [named, hparts, walk_concat hwalk', entered, entry_add hdir hnew, if_pos ⟨rfl, rfl⟩]

theorem entry_moved (hv : v.Distinct) (hunused : Unused v t io d' new) (j : ℕ) (c : Path) :
    (v.moved d old i d' new).entry j c = if j = d ∧ c = old then none else (v.entered i d' new).entry j c := by
  obtain ⟨-, -, hdir', hnew⟩ := h.new_parts hunused
  have hdistinct : (v.entered i d' new).Distinct := hv.add hdir' hnew
  have hdir : ((v.entered i d' new).desc d).isDir = true := by
    rw [entered, (setEntries_same v d' _ d).2.1]
    exact (findDirEntry_ok (onDirectory_ok h.oldEntry)).1
  exact entry_delete hdistinct hdir j c

/-- The entry was moved: what the call says is true exactly when the new name does not lie below the
old one. -/
theorem moved_iff (hv : v.Distinct) (hunused : Unused v t io d' new) :
    ((v.moved d old i d' new).named newname = some i ∧ (v.moved d old i d' new).named oldname = none) ↔
      ¬Through v.entry d old rootInode (parts newname).dropLast := by
  obtain ⟨pre, hold, hwalk, hentry⟩ := h.old_parts
  obtain ⟨hnewParts, hwalk', hdir', hnew⟩ := h.new_parts hunused
  have hgone : (v.moved d old i d' new).entry d old = none := by
    rw [h.entry_moved hv hunused, if_pos ⟨rfl, rfl⟩]
  have hkept : ∀ j c k, v.entry j c = some k → ¬(j = d ∧ c = old) →
      (v.moved d old i d' new).entry j c = some k := by
    intro j c k hk hne
    rw [h.entry_moved hv hunused, if_neg hne]
    exact entered_keeps hdir' hnew hk
  constructor
  · rintro ⟨hthere, -⟩ hthrough
    have hbroken := walk_broken hkept hwalk' hgone hthrough
    rw [named, hnewParts, walk_append, hbroken] at hthere
    simp at hthere
  · intro hnot
    have hne : ¬(d' = d ∧ new = old) := by
      rintro ⟨rfl, rfl⟩
      rw [hnew] at hentry
      simp at hentry
    have hwalked := walk_kept hkept hwalk' hnot
    constructor
    · rw [named, hnewParts, walk_concat hwalked, h.entry_moved hv hunused, if_neg hne, entered, entry_add hdir' hnew,
        if_pos ⟨rfl, rfl⟩]
    · rw [named, hold]
      have hfull : walk v.entry rootInode (pre ++ [old]) = some i := by rw [walk_concat hwalk, hentry]
      exact walk_broken hkept hfull hgone (through_concat hwalk)

theorem parts_ne (hunused : Unused v t io d' new) : parts oldname ≠ parts newname := by
  intro heq
  obtain ⟨-, hwalk', -, hnew⟩ := h.new_parts hunused
  obtain ⟨hnewParts, -⟩ := h.new_parts hunused
  have hnamed := h.named_old
  rw [named, heq, hnewParts, walk_concat hwalk', hnew] at hnamed
  simp at hnamed

end Looked

/-- The return value is right exactly when the call is not misled. -/
theorem dfsRenameIo_renamed_iff (hv : v.Distinct) (t : Cred) (space : Space) (io : Faults) (oldname newname : Path) :
    Renamed v oldname newname (v.dfsRenameIo t space io oldname newname) ↔
      ¬Misled v t space io oldname newname := by
  rcases dfsRenameIo_cases v t space io oldname newname with ⟨e, he, hnone⟩ | ⟨d, old, i, d', new, h⟩
  · rw [he]
    refine ⟨fun _ => ?_, fun _ => renamed_of_error⟩
    rintro ⟨d, old, i, d', new, h, -⟩
    exact hnone d old i d' new h
  -- the call is misled about the names it looked up
  have hmisled : Misled v t space io oldname newname ↔
      ¬Unused v t io d' new ∧ old = new ∧ parts oldname ≠ parts newname ∨
        Unused v t io d' new ∧ GoesIn v t space io d d' ∧
          (Through v.entry d old rootInode (parts newname).dropLast ∨ io.delete = true) := by
    constructor
    · rintro ⟨d₁, old₁, i₁, d₁', new₁, h₁, hcase⟩
      obtain ⟨rfl, rfl⟩ := Prod.mk.inj (Except.ok.inj (h.oldDir.symm.trans h₁.oldDir))
      obtain ⟨rfl, rfl⟩ := Prod.mk.inj (Except.ok.inj (h.newDir.symm.trans h₁.newDir))
      exact hcase
    · exact fun hcase => ⟨d, old, i, d', new, h, hcase⟩
  rw [hmisled, h.eq]
  by_cases hunused : Unused v t io d' new
  · by_cases hgoes : GoesIn v t space io d d'
    · rw [renameEntry_enters hunused (onDirectory_ok h.oldEntry) hgoes]
      by_cases hdelete : io.delete = true
      · -- both names are there
        rw [if_pos hdelete]
        refine ⟨fun hren => ?_, fun hno => absurd (.inr ⟨hunused, hgoes, .inr hdelete⟩) hno⟩
        obtain ⟨hparts, hwalk, -, hnew⟩ := h.new_parts hunused
        have hsame := hren.failed .eio rfl newname
        rw [h.named_entered hunused, named, hparts, walk_concat hwalk, hnew] at hsame
        simp at hsame
      · rw [if_neg hdelete]
        have hmoved := h.moved_iff hv hunused
        constructor
        · intro hren
          obtain ⟨j, hj, hnamed⟩ := hren.done rfl (h.parts_ne hunused)
          obtain rfl : i = j := Option.some.inj (h.named_old.symm.trans hj)
          have hnot := hmoved.mp hnamed
          rintro (⟨hused, -⟩ | ⟨-, -, hthrough | hfault⟩)
          · exact hused hunused
          · exact hnot hthrough
          · exact hdelete hfault
        · intro hno
          have hnot : ¬Through v.entry d old rootInode (parts newname).dropLast :=
            fun hthrough => hno (.inr ⟨hunused, hgoes, .inl hthrough⟩)
          exact ⟨fun _ _ => ⟨i, h.named_old, hmoved.mpr hnot⟩, nofun⟩
    · obtain ⟨e, he⟩ := renameEntry_refused old i hunused hgoes
      rw [he]
      refine ⟨fun _ => ?_, fun _ => renamed_of_error⟩
      rintro (⟨hused, -⟩ | ⟨-, hgoes', -⟩)
      · exact hused hunused
      · exact hgoes hgoes'
  · obtain ⟨hsame, hother⟩ := renameEntry_used space d old i hunused
    by_cases heq : old = new
    · -- success is returned, and nothing was done
      rw [hsame heq]
      constructor
      · intro hren
        rintro (⟨-, -, hparts⟩ | ⟨hused, -⟩)
        · obtain ⟨j, hj, -, hgone⟩ := hren.done rfl hparts
          rw [hj] at hgone
          simp at hgone
        · exact hunused hused
      · intro hno
        exact ⟨fun _ hparts => absurd (.inl ⟨hunused, heq, hparts⟩) hno, nofun⟩
    · obtain ⟨e, he⟩ := hother heq
      rw [he]
      refine ⟨fun _ => ?_, fun _ => renamed_of_error⟩
      rintro (⟨-, heq', -⟩ | ⟨hused, -⟩)
      · exact heq heq'
      · exact hunused hused

/-! Without I/O errors. -/

def noFaults : Faults := ⟨false, false, false, false, false, false⟩

theorem onDirectory_find (v : Names) (t : Cred) (dir : ℕ) (name : Path) :
    onDirectory false (v.refused t dir sIexec name) (v.findDirEntry t dir name) =
      (v.findDirEntry t dir name).mapError .fs := by
  rw [findDirEntry]
  cases v.refused t dir sIexec name with
  | some e => rfl
  | none => rfl

theorem onDirectory_add (v : Names) (t : Cred) (space : Space) (dir : ℕ) (name : Path) (i : ℕ) :
    onDirectory false (v.refused t dir sIwrite name) (v.addDirEntry t space dir name i) =
      (v.addDirEntry t space dir name i).mapError .fs := by
  rw [addDirEntry]
  cases v.refused t dir sIwrite name with
  | some e => rfl
  | none => rfl

/-- The directories `a` and `b`, each with a file `x`. -/
def twoDirectories : Names where
  inodeCount := 5
  reservedInodes := 1
  allocated := fun i => decide (i < 5)
  desc
    | 0 => ⟨sIfdir ||| sIrwxugo, 0, 0, 1, [], [([97], 1), ([98], 2)]⟩
    | 1 => ⟨sIfdir ||| sIrwxugo, 0, 0, 1, [], [([120], 3)]⟩
    | 2 => ⟨sIfdir ||| sIrwxugo, 0, 0, 1, [], [([120], 4)]⟩
    | _ => ⟨sIfreg ||| sIrwxugo, 0, 0, 1, [], []⟩

theorem twoDirectories_distinct : twoDirectories.Distinct
  | 0 => by decide
  | 1 => by decide
  | 2 => by decide
  | _ + 3 => List.nodup_nil

/-- `/a/x` becomes `/b/y`. -/
theorem dfsRenameIo_renamed_moved : twoDirectories.Distinct ∧
    ¬Misled twoDirectories ⟨0, 0⟩ ⟨none, true⟩ noFaults [47, 97, 47, 120] [47, 98, 47, 121] := by
  refine ⟨twoDirectories_distinct, (dfsRenameIo_renamed_iff twoDirectories_distinct _ _ _ _ _).mp ?_⟩
  exact ⟨fun _ _ => ⟨3, by decide +kernel, by decide +kernel, by decide +kernel⟩, nofun⟩

/-- `/a/x` is to become `/b/x`, which exists: success is returned and nothing is done. And `/a` is to
become `/a/b`: neither can be found then. -/
theorem rename_not_done :
    ¬Renamed twoDirectories [47, 97, 47, 120] [47, 98, 47, 120]
        (twoDirectories.dfsRenameIo ⟨0, 0⟩ ⟨none, true⟩ noFaults [47, 97, 47, 120] [47, 98, 47, 120]) ∧
      ¬Renamed twoDirectories [47, 97] [47, 97, 47, 98]
        (twoDirectories.dfsRenameIo ⟨0, 0⟩ ⟨none, true⟩ noFaults [47, 97] [47, 97, 47, 98]) := by
  constructor
  · intro h
    obtain ⟨i, -, -, hold⟩ := h.done (by decide +kernel) (by decide +kernel)
    exact absurd hold (by decide +kernel)
  · intro h
    obtain ⟨i, -, hnew, -⟩ := h.done (by decide +kernel) (by decide +kernel)
    have hnone : (twoDirectories.dfsRenameIo ⟨0, 0⟩ ⟨none, true⟩ noFaults [47, 97] [47, 97, 47, 98]).1.named
        [47, 97, 47, 98] = none := by decide +kernel
    rw [hnone] at hnew
    simp at hnew

end Names

end SimpleKernel.Dfs
