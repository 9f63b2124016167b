import SimpleKernel.Vfs.Mounts

/-! The files of `krnl/vfs.c` and the pipes of `fs/pipefs/pipefs.c` as far as they count in `fs->locks`. -/
namespace SimpleKernel.Vfs
open LinkedList Transition

/-- What `close` and `destroy` read of a `struct file`. -/
structure File where
  addr : ℕ
  fs : ℕ
  closed : Bool

/-- Which operations a file system has. -/
structure FileOps where
  openOp : Bool
  closeOp : Bool
  destroyOp : Bool

inductive FileError
  | vfs (e : Errno)
  | emfile | etimeout
  | op (rc : ℤ)

/-- The mounted file systems with their operations, the file system of the pipes, and the files that
`destroy` has not freed. -/
structure Files where
  mounts : Mounts
  ops : ℕ → FileOps
  pipefs : Option ℕ
  files : List File

/-- What `open` gets from `newfile`, from the lock of the file system, from its own open and from the
permission check. -/
structure OpenAnswers where
  newfile : Option ℕ
  locked : Bool
  rc : ℤ
  access : Bool

namespace Files

/-- `fs->locks` changes by `k`. -/
def addLocks (s : Files) (a : ℕ) (k : ℤ) : Files :=
  { s with
    mounts :=
      { s.mounts with
        fs := Function.update s.mounts.fs a { s.mounts.fs a with locks := (s.mounts.fs a).locks + k } } }

def addFile (s : Files) (f a : ℕ) : Files := { s with files := ⟨f, a, false⟩ :: s.files }

def find (s : Files) (f : ℕ) : Option File := s.files.find? fun file => file.addr == f

/-- `open` once the file system is found. -/
def openOn (s : Files) (r : OpenAnswers) (a : ℕ) : Files × Except FileError ℕ :=
  match r.newfile with
  | none => (s, .error .emfile)
  | some f =>
    if (s.ops a).openOp then
      let s := s.addLocks a 1
      if r.locked = false then (s.addLocks a (-1), .error .etimeout)
      else if r.rc ≠ 0 then (s.addLocks a (-1), .error (.op r.rc))
      else if r.access = false then (s.addLocks a (-1), .error (.vfs .eacces))
      else (s.addFile f a, .ok f)
    else (s.addFile f a, .ok f)

def openFile (s : Files) (thread : ℕ) (t : Cred) (n : ℕ) (r : OpenAnswers) (name : Path) :
    Option (Files × Except FileError ℕ) :=
  match canonicalize (s.mounts.curdir thread) name with
  | .error e => some (s, .error (.vfs e))
  | .ok path =>
    (s.mounts.fslookup t n (some path) false).map fun
      | .error e => (s, .error (.vfs e))
      | .ok (a, _) => s.openOn r a

/-- The four allocations are of two files and of the two ends of the pipe. -/
def pipe (s : Files) (rd wr rdp wrp : Option ℕ) : Files × Except FileError (ℕ × ℕ) :=
  match s.pipefs with
  | none => (s, .error (.vfs .enoent))
  | some a =>
    match rd, wr, rdp, wrp with
    | some rd, some wr, some _, some _ => ((s.addFile rd a).addFile wr a, .ok (rd, wr))
    | _, _, _, _ => (s, .error .emfile)

/-- `F_CLOSED`. -/
def markClosed (s : Files) (f : ℕ) : Files :=
  { s with files := s.files.map fun file => if file.addr = f then { file with closed := true } else file }

/-- The second half of `close`, with the result of the file system's own close. -/
def closeWith (s : Files) (file : File) (rc : ℤ) : Files × Except FileError Unit :=
  let s := if rc = 0 then s.addLocks file.fs (-1) else s
  (s.markClosed file.addr, if rc = 0 then .ok () else .error (.op rc))

/-- `none` if there is no such file. -/
def close (s : Files) (filp : Option ℕ) (locked : Bool) (rc : ℤ) : Option (Files × Except FileError Unit) :=
  match filp with
  | none => some (s, .error (.vfs .einval))
  | some f =>
    (s.find f).map fun file =>
      if (s.ops file.fs).closeOp then
        if locked = false then (s, .error .etimeout) else s.closeWith file rc
      else s.closeWith file 0

def destroy (s : Files) (filp : Option ℕ) (rc : ℤ) : Option (Files × Except FileError Unit) :=
  match filp with
  | none => some (s, .error (.vfs .einval))
  | some f =>
    (s.find f).map fun file =>
      let rc := if (s.ops file.fs).destroyOp then rc else 0
      ({ s with files := s.files.filter fun file => file.addr != f },
        if rc = 0 then .ok () else .error (.op rc))

end Files

inductive FileCall
  | openFile (thread : ℕ) (t : Cred) (n : ℕ) (r : OpenAnswers) (name : Path)
  | pipe (rd wr rdp wrp : Option ℕ)
  | close (filp : Option ℕ) (locked : Bool) (rc : ℤ)
  | destroy (filp : Option ℕ) (rc : ℤ)

/-- The state after a call, whether it fails or not. -/
def FileCall.exec (s : Files) : FileCall → Option Files
  | .openFile thread t n r name => (s.openFile thread t n r name).map Prod.fst
  | .pipe rd wr rdp wrp => some (s.pipe rd wr rdp wrp).1
  | .close filp locked rc => (s.close filp locked rc).map Prod.fst
  | .destroy filp rc => (s.destroy filp rc).map Prod.fst

/-- `kmalloc` does not return a file that is there, or one address twice. -/
def FileCall.Fresh (s : Files) : FileCall → Prop
  | .openFile _ _ _ r _ => ∀ f, r.newfile = some f → s.find f = none
  | .pipe rd wr _ _ =>
    (∀ f, rd = some f → s.find f = none) ∧ (∀ f, wr = some f → s.find f = none) ∧
      ∀ f g, rd = some f → wr = some g → f ≠ g
  | _ => True

/-- A file is closed once, and before it is destroyed. -/
def FileCall.Ordered (s : Files) : FileCall → Prop
  | .close filp _ _ => ∀ f file, filp = some f → s.find f = some file → file.closed = false
  | .destroy filp _ => ∀ f file, filp = some f → s.find f = some file → file.closed = true
  | _ => True

/-- The calls that count what they do: no pipe is made, no file opened on a file system without an open of
its own, and no file system's own close fails. -/
def FileCall.Counted (s : Files) : FileCall → Prop
  | .openFile thread t n r name =>
    ∀ path a rest, canonicalize (s.mounts.curdir thread) name = .ok path →
      s.mounts.fslookup t n (some path) false = some (.ok (a, rest)) → r.newfile.isSome = true →
      (s.ops a).openOp = true
  | .pipe rd wr rdp wrp =>
    s.pipefs.isSome = true → rd.isSome = true → wr.isSome = true → rdp.isSome = true → wrp = none
  | .close filp locked rc =>
    ∀ f file, filp = some f → s.find f = some file → (s.ops file.fs).closeOp = true → locked = true → rc = 0
  | .destroy _ _ => True

namespace Files
variable {s s' : Files} {a f : ℕ} {file : File}

def isOpenOn (a : ℕ) (file : File) : Bool := file.fs == a && !file.closed

/-- The number of files of the file system `a` that are open. -/
def openCount (s : Files) (a : ℕ) : ℕ := s.files.countP (isOpenOn a)

/-- The files have different addresses, and every file system counts its open ones. -/
structure Balanced (s : Files) : Prop where
  nodup : (s.files.map File.addr).Nodup
  locks : ∀ a, (s.mounts.fs a).locks = s.openCount a

theorem addLocks_self (s : Files) (a : ℕ) (k : ℤ) :
    ((s.addLocks a k).mounts.fs a).locks = (s.mounts.fs a).locks + k := by
  simp only [addLocks, Function.update_self]

theorem addLocks_other {b : ℕ} (h : b ≠ a) (k : ℤ) :
    ((s.addLocks a k).mounts.fs b).locks = (s.mounts.fs b).locks := by
  simp only [addLocks, Function.update_of_ne h]

theorem addLocks_locks (s : Files) (a : ℕ) (k : ℤ) (b : ℕ) :
    ((s.addLocks a k).mounts.fs b).locks = (s.mounts.fs b).locks + if b = a then k else 0 := by
  by_cases hb : b = a
  · rw [hb, if_pos rfl, addLocks_self]
  · rw [if_neg hb, addLocks_other hb, add_zero]

theorem Balanced.addLocks_back (h : s.Balanced) (a : ℕ) : ((s.addLocks a 1).addLocks a (-1)).Balanced := by
  refine ⟨h.nodup, fun b => ?_⟩
  rw [addLocks_locks, addLocks_locks, h.locks]
  show _ = (s.openCount b : ℤ)
  split <;> omega

theorem find_mem (h : s.find f = some file) : file ∈ s.files ∧ file.addr = f := by
  refine ⟨List.mem_of_find?_eq_some h, ?_⟩
  have := List.find?_some h
  simpa using this

theorem not_mem_of_find (h : s.find f = none) : f ∉ s.files.map File.addr := by
  intro hf
  obtain ⟨file, hfile, rfl⟩ := List.mem_map.mp hf
  have := List.find?_eq_none.mp h file hfile
  simp at this

theorem Balanced.addFile (h : s.Balanced) (hf : s.find f = none) :
    ((s.addLocks a 1).addFile f a).Balanced := by
  refine ⟨List.nodup_cons.mpr ⟨not_mem_of_find hf, h.nodup⟩, fun b => ?_⟩
  have hcount : ((s.addLocks a 1).addFile f a).openCount b = s.openCount b + if b = a then 1 else 0 := by
    rw [Files.addFile]
    by_cases hb : b = a
    · subst hb
      simp [isOpenOn, openCount, addLocks]
    · simp [isOpenOn, openCount, addLocks, hb, Ne.symm hb]
  have hlocks := addLocks_locks s a 1 b
  rw [hcount]
  show ((s.addLocks a 1).mounts.fs b).locks = _
  rw [hlocks, h.locks]
  split <;> push_cast <;> rfl

theorem countP_markClosed {files : List File} (hnodup : (files.map File.addr).Nodup) (hmem : file ∈ files)
    (hopen : file.closed = false) (a : ℕ) :
    (files.map fun x => if x.addr = file.addr then { x with closed := true } else x).countP (isOpenOn a) +
      (if a = file.fs then 1 else 0) = files.countP (isOpenOn a) := by
  induction files with
  | nil => simp at hmem
  | cons x files ih =>
    rw [List.map_cons, List.nodup_cons] at hnodup
    obtain ⟨hx, hnodup⟩ := hnodup
    rw [List.map_cons, List.countP_cons, List.countP_cons]
    rcases List.mem_cons.mp hmem with rfl | hmem'
    · have hrest : (files.map fun x => if x.addr = file.addr then { x with closed := true } else x) =
          files := by
        conv_rhs => rw [← List.map_id files]
        refine List.map_congr_left fun y hy => if_neg fun heq => ?_
        exact hx (heq ▸ List.mem_map_of_mem hy)
      rw [hrest, if_pos rfl]
      have hnow : isOpenOn a { file with closed := true } = false := by simp [isOpenOn]
      have hwas : isOpenOn a file = true ↔ a = file.fs := by
        rw [isOpenOn, hopen, Bool.not_false, Bool.and_true, beq_iff_eq, eq_comm]
      rw [hnow]
      by_cases ha : a = file.fs
      · rw [if_neg Bool.false_ne_true, if_pos ha, if_pos (hwas.mpr ha)]
      · rw [if_neg Bool.false_ne_true, if_neg ha, if_neg (mt hwas.mp ha)]
    · have hne : x.addr ≠ file.addr := fun heq => hx (heq ▸ List.mem_map_of_mem hmem')
      rw [if_neg hne, ← ih hnodup hmem']
      omega

theorem markClosed_addrs (s : Files) (f : ℕ) :
    (s.markClosed f).files.map File.addr = s.files.map File.addr := by
  rw [markClosed, List.map_map]
  refine List.map_congr_left fun x _ => ?_
  simp only [Function.comp_apply]
  split <;> rfl

theorem Balanced.close (h : s.Balanced) (hfile : s.find f = some file) (hopen : file.closed = false) :
    (s.closeWith file 0).1.Balanced := by
  obtain ⟨hmem, -⟩ := find_mem hfile
  have haddrs := markClosed_addrs (s.addLocks file.fs (-1)) file.addr
  refine ⟨?_, fun b => ?_⟩
  · show (((s.addLocks file.fs (-1)).markClosed file.addr).files.map File.addr).Nodup
    rw [haddrs]
    exact h.nodup
  · have hcount := countP_markClosed h.nodup hmem hopen b
    have hlocks := addLocks_locks s file.fs (-1) b
    have hb := h.locks b
    show ((s.addLocks file.fs (-1)).mounts.fs b).locks =
      (((s.files.map fun x => if x.addr = file.addr then { x with closed := true } else x).countP
        (isOpenOn b) : ℕ) : ℤ)
    rw [openCount] at hb
    split at hcount
    · next heq =>
      omega
    · next hne =>
      omega

theorem Balanced.find_of_mem (h : s.Balanced) (hmem : file ∈ s.files) : s.find file.addr = some file := by
  cases hfind : s.find file.addr with
  | none => exact absurd (List.mem_map_of_mem hmem) (not_mem_of_find hfind)
  | some file' =>
    obtain ⟨hmem', haddr⟩ := find_mem hfind
    rw [List.inj_on_of_nodup_map h.nodup hmem' hmem haddr]

theorem Balanced.destroy (h : s.Balanced) (hclosed : ∀ file, s.find f = some file → file.closed = true) :
    Balanced { s with files := s.files.filter fun file => file.addr != f } := by
  refine ⟨h.nodup.sublist (List.filter_sublist.map _), fun b => ?_⟩
  rw [h.locks, openCount, openCount, List.countP_filter]
  congr 1
  refine List.countP_congr fun x hx => ?_
  by_cases haddr : x.addr = f
  · have hx' := hclosed x (haddr ▸ h.find_of_mem hx)
    simp [isOpenOn, hx']
  · simp [haddr]

theorem Balanced.openOn (h : s.Balanced) {r : OpenAnswers} (hf : ∀ f, r.newfile = some f → s.find f = none)
    (hop : r.newfile.isSome = true → (s.ops a).openOp = true) : (s.openOn r a).1.Balanced := by
  rw [Files.openOn]
  cases hnew : r.newfile with
  | none => exact h
  | some f =>
    rw [hnew] at hop
    dsimp only
    rw [if_pos (hop rfl)]
    split
    · exact h.addLocks_back a
    · split
      · exact h.addLocks_back a
      · split
        · exact h.addLocks_back a
        · exact h.addFile (hf f hnew)

theorem pipe_failed {rd wr rdp wrp : Option ℕ}
    (h : s.pipefs.isSome = true → rd.isSome = true → wr.isSome = true → rdp.isSome = true → wrp = none) :
    (s.pipe rd wr rdp wrp).1 = s := by
  rw [pipe]
  split
  · rfl
  · next hpipefs =>
    split
    · rw [hpipefs] at h
      exact absurd (h rfl rfl rfl rfl) (by simp)
    · rfl

theorem Balanced.exec (h : s.Balanced) {c : FileCall} (hfresh : c.Fresh s) (hordered : c.Ordered s)
    (hcounted : c.Counted s) (hs : c.exec s = some s') : s'.Balanced := by
  cases c with
  | openFile thread t n r name =>
    rw [FileCall.exec, openFile] at hs
    split at hs
    · obtain rfl := Option.some.inj hs
      exact h
    · next path hpath =>
      rw [Option.map_map, Option.map_eq_some_iff] at hs
      obtain ⟨found, hfound, rfl⟩ := hs
      cases found with
      | error e => exact h
      | ok found =>
        obtain ⟨a, rest⟩ := found
        exact h.openOn hfresh (hcounted path a rest hpath hfound)
  | pipe rd wr rdp wrp =>
    obtain rfl := Option.some.inj hs
    rw [pipe_failed hcounted]
    exact h
  | close filp locked rc =>
    cases filp with
    | none =>
      obtain rfl := Option.some.inj hs
      exact h
    | some f =>
      rw [FileCall.exec, Files.close, Option.map_map, Option.map_eq_some_iff] at hs
      obtain ⟨file, hfile, rfl⟩ := hs
      have hopen := hordered f file rfl hfile
      simp only [Function.comp_apply]
      split
      · next hop =>
        split
        · exact h
        · next hlocked =>
          rw [hcounted f file rfl hfile hop (by simpa using hlocked)]
          exact h.close hfile hopen
      · exact h.close hfile hopen
  | destroy filp rc =>
    cases filp with
    | none =>
      obtain rfl := Option.some.inj hs
      exact h
    | some f =>
      rw [FileCall.exec, Files.destroy, Option.map_map, Option.map_eq_some_iff] at hs
      obtain ⟨file, hfile, rfl⟩ := hs
      exact h.destroy fun file' hfile' => hordered f file' rfl hfile'

theorem umount_busy_iff {m : Mounts} {thread n : ℕ} {rc : ℤ} {name path : Path}
    (hpath : canonicalize (m.curdir thread) name = .ok path)
    (hfound : m.links.search (fun a => if fnmatch path path.length (m.fs a).mntto (m.fs a).mntto.length
      then some a else none) n m.mountlist = some (some a)) :
    (m.umount thread n rc (some name)).map Prod.snd = some (.error .ebusy) ↔ 0 < (m.fs a).locks := by
  rw [Mounts.umount, hpath]
  dsimp only
  rw [hfound]
  simp only [Option.map_some]
  split
  · next hpos => simp [hpos]
  · next hpos =>
    split
    · simp [hpos]
    · simp [hpos]

/-- A file system at the root, and the one of the pipes. -/
def noFiles : Files where
  mounts := noMounts.insert none 1 ⟨[47], 0, 0, 0, 493⟩
  ops _ := ⟨true, true, true⟩
  pipefs := some 2
  files := []

theorem noFiles_locks (a : ℕ) : (noFiles.mounts.fs a).locks = 0 := by
  by_cases ha : a = 1
  · subst ha
    rfl
  · simp [noFiles, Mounts.insert, noMounts, ha]

/-- `/f` is opened. -/
def openF : FileCall := .openFile 0 ⟨0, 0⟩ 1 ⟨some 7, true, 0, true⟩ [47, 102]

end Files

end SimpleKernel.Vfs
