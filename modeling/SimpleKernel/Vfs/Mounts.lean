import SimpleKernel.Lib.Scan
import SimpleKernel.Lib.Transition
import SimpleKernel.Vfs.Paths

/-! The mount table of `krnl/vfs.c`: `mount`, `umount` and `fslookup`. -/
namespace SimpleKernel.Vfs
open LinkedList Transition
open Function (update update_of_ne update_self)

/-- `struct fs` without its links. -/
structure Fs where
  mntto : Path
  locks : ℤ
  uid : ℕ
  gid : ℕ
  mode : ℕ

/-- What `mount` reads of `struct stat64`. -/
structure Stat where
  uid : ℕ
  gid : ℕ
  mode : ℕ

/-- The effective user and group of a thread. -/
structure Cred where
  euid : ℕ
  egid : ℕ

/-- The mount list, the registered file system types and the current directories of all threads. -/
structure Mounts where
  links : Links ℕ
  mountlist : Option ℕ
  fs : ℕ → Fs
  fslist : List Path
  curdir : ℕ → Path

/-- What the rest of the kernel answers during a `mount`: `stat` on the mount point, `kmalloc`, and the file
system's own `mount`, 0 if there is none. -/
structure MountEnv where
  stat : Except Errno Stat
  kmalloc : Option ℕ
  mountOp : ℤ

def sIexec : ℕ := 64

def check (t : Cred) (mode uid gid access : ℕ) : Bool :=
  if t.euid = 0 then true
  else
    let access :=
      if t.euid ≠ uid then if t.egid ≠ gid then access >>> 3 >>> 3 else access >>> 3 else access
    mode &&& access == access

def fnmatch (fn1 : Path) (len1 : ℕ) (fn2 : Path) (len2 : ℕ) : Bool :=
  len1 == len2 && fn1.take len1 == fn2.take len2

/-- `if (*p == PS1 || *p == PS2) p++`. -/
def skipSep : Path → Path
  | [] => []
  | c :: p => if isSep c then p else c :: p

/-- The test of `fslookup` for one file system: the rest of the path `p` if it matches. -/
def mountRest (full : Bool) (p mntto : Path) : Option Path :=
  if mntto = [] then none
  else
    let q := skipSep mntto
    if q = [] then some p
    else if q.length ≤ p.length ∧ fnmatch p q.length q q.length = true ∧
        (p[q.length]?.any isSep = true ∨ full = true ∧ p[q.length]? = none) then
      some (p.drop q.length)
    else none

namespace Mounts

/-- The permission check on the file system that was found. -/
def enter (m : Mounts) (t : Cred) (a : ℕ) (rest : Path) : Except Errno (ℕ × Path) :=
  if check t (m.fs a).mode (m.fs a).uid (m.fs a).gid sIexec then .ok (a, rest) else .error .eacces

def fslookup (m : Mounts) (t : Cred) (n : ℕ) (name : Option Path) (full : Bool) :
    Option (Except Errno (ℕ × Path)) :=
  match name with
  | none => some (.error .einval)
  | some name =>
    (m.links.search (fun a => (mountRest full (skipSep name) (m.fs a).mntto).map (m.enter t a)) n
      m.mountlist).map fun r => r.getD (.error .enoent)

/-- The loop of `mount`: no file system is mounted there, and the last one with a longer path. -/
def findPrev (m : Mounts) (path : Path) (prev : Option ℕ) (a : ℕ) : Except Errno (Option ℕ) :=
  if fnmatch path path.length (m.fs a).mntto (m.fs a).mntto.length then .error .eexist
  else .ok (if path.length < (m.fs a).mntto.length then some a else prev)

/-- The new file system is put into the list. -/
def insert (m : Mounts) (prev : Option ℕ) (a : ℕ) (fs : Fs) : Mounts :=
  match prev with
  | some p => { m with links := m.links.insertAfter p a, fs := update m.fs a fs }
  | none =>
    { m with
      links := m.links.prepend m.mountlist a
      mountlist := some a
      fs := update m.fs a fs }

/-- The second half of `mount`. -/
def mountAt (m : Mounts) (env : MountEnv) (type path : Path) (prev : Option ℕ) :
    Mounts × Except Errno ℕ :=
  match if skipSep path = [] then .ok ⟨0, 0, 493⟩ else env.stat with
  | .error e => (m, .error e)
  | .ok st =>
    if type ∉ m.fslist then (m, .error .einval)
    else
      match env.kmalloc with
      | none => (m, .error .enomem)
      | some a =>
        if env.mountOp ≠ 0 then (m, .error (.other env.mountOp))
        else (m.insert prev a ⟨path, 0, st.uid, st.gid, st.mode⟩, .ok a)

def mount (m : Mounts) (t n : ℕ) (env : MountEnv) (type mntto : Option Path) :
    Option (Mounts × Except Errno ℕ) :=
  match type, mntto with
  | some type, some mntto =>
    match if mntto = [] then .ok [] else canonicalize (m.curdir t) mntto with
    | .error e => some (m, .error e)
    | .ok path =>
      (m.links.scan (m.findPrev path) n m.mountlist none).map fun
        | .error e => (m, .error e)
        | .ok prev => m.mountAt env type path prev
  | _, _ => some (m, .error .einval)

/-- The file system `a` is taken off the list. -/
def remove (m : Mounts) (a : ℕ) : Mounts :=
  { m with
    links := m.links.bypass a
    mountlist := if m.mountlist = some a then m.links.next a else m.mountlist }

/-- `rc` is what the file system's own `umount` returns, 0 if there is none. -/
def umount (m : Mounts) (t n : ℕ) (rc : ℤ) (name : Option Path) : Option (Mounts × Except Errno Unit) :=
  match name with
  | none => some (m, .error .einval)
  | some name =>
    match canonicalize (m.curdir t) name with
    | .error e => some (m, .error e)
    | .ok path =>
      (m.links.search (fun a =>
          if fnmatch path path.length (m.fs a).mntto (m.fs a).mntto.length then some a else none) n
        m.mountlist).map fun
        | none => (m, .error .enoent)
        | some a =>
          if 0 < (m.fs a).locks then (m, .error .ebusy)
          else if rc ≠ 0 then (m, .error (.other rc))
          else (m.remove a, .ok ())

/-- `chdir`; `rc` is what `fslookup` and `stat` on the new directory give. -/
def chdir (m : Mounts) (t : ℕ) (rc : Except Errno Unit) (name : Path) : Mounts × Except Errno Unit :=
  match canonicalize (m.curdir t) name with
  | .error e => (m, .error e)
  | .ok path =>
    match rc with
    | .error e => (m, .error e)
    | .ok () => ({ m with curdir := update m.curdir t path }, .ok ())

end Mounts

/-- A call, by thread `t`. Between mounts and unmounts threads change their directories, new threads
take over the directory of their creator, and open files lock file systems. -/
inductive MountCall
  | mount (t : ℕ) (env : MountEnv) (type mntto : Option Path)
  | umount (t : ℕ) (rc : ℤ) (name : Option Path)
  | chdir (t : ℕ) (rc : Except Errno Unit) (name : Path)
  | inherit (t creator : ℕ)
  | lock (a : ℕ) (locks : ℤ)

/-- A call whose loops end within `n` rounds. -/
def MountCall.exec (m : Mounts) : MountCall × ℕ → Option Mounts
  | (.mount t env type mntto, n) => (m.mount t n env type mntto).map Prod.fst
  | (.umount t rc name, n) => (m.umount t n rc name).map Prod.fst
  | (.chdir t rc name, _) => some (m.chdir t rc name).1
  | (.inherit t creator, _) =>
    some { m with curdir := update m.curdir t (m.curdir creator) }
  | (.lock a locks, _) =>
    some { m with fs := update m.fs a { m.fs a with locks := locks } }

/-- `kmalloc` does not return a file system that is mounted. -/
def MountCall.Ok (m : Mounts) : MountCall × ℕ → Prop
  | (.mount _ env _ _, _) => ∀ a ∈ env.kmalloc, ∀ k, m.links.follow m.mountlist k ≠ some a
  | _ => True

/-! The lookup of one path. -/

section Lookup
variable {full : Bool} {ms ms' ps : List Path} {rest : Path}

/-- The mount point `ms` covers the path `ps`: it is the root, or its names are the first of the path,
and not all of them unless `full`. -/
def Covers (full : Bool) (ms ps : List Path) : Prop :=
  ms = [] ∨ ms <+: ps ∧ (full = true ∨ ms ≠ ps)

/-- What is left of the path `ps` behind the mount point `ms`. -/
def remainder (ms ps : List Path) : Path :=
  if ms = [] then (flat ps).tail else flat (ps.drop ms.length)

theorem skipSep_join (ps : List Path) : skipSep (join ps) = (flat ps).tail := by
  cases ps with
  | nil => decide
  | cons c ps => rfl

theorem flat_eq_cons_tail (h : ms ≠ []) : flat ms = ps1 :: (flat ms).tail := by
  cases ms with
  | nil => exact absurd rfl h
  | cons c ms => rfl

theorem flat_tail_ne_nil (hms : ∀ c ∈ ms, IsName c) (h : ms ≠ []) : (flat ms).tail ≠ [] := by
  cases ms with
  | nil => exact absurd rfl h
  | cons c ms =>
    have := (hms c List.mem_cons_self).ne_nil
    simp [flat_cons, this]

theorem isPrefix_of_fnmatch {p q : Path}
    (h : fnmatch p q.length q q.length = true) : p = q ++ p.drop q.length := by
  rw [fnmatch, Bool.and_eq_true, beq_iff_eq, beq_iff_eq, List.take_length] at h
  calc p = p.take q.length ++ p.drop q.length := (List.take_append_drop ..).symm
    _ = q ++ p.drop q.length := by rw [h.2]

theorem fnmatch_append (q rest : Path) : fnmatch (q ++ rest) q.length q q.length = true := by
  simp [fnmatch]

theorem fnmatch_full {p q : Path} : fnmatch p p.length q q.length = true ↔ p = q := by
  constructor
  · intro h
    rw [fnmatch, Bool.and_eq_true, beq_iff_eq, beq_iff_eq, List.take_length, List.take_length] at h
    exact h.2
  · rintro rfl
    simp [fnmatch]

theorem mountRest_join (hms : ∀ c ∈ ms, IsName c) (hps : ∀ c ∈ ps, IsName c) :
    mountRest full (skipSep (join ps)) (join ms) = some rest ↔
      Covers full ms ps ∧ rest = remainder ms ps := by
  rw [mountRest, skipSep_join, skipSep_join]
  rcases eq_or_ne ms [] with rfl | hne
  · have hroot : join [] ≠ [] := by simp [join]
    rw [if_neg hroot]
    simp [flat, Covers, remainder, eq_comm]
  have hq := flat_tail_ne_nil hms hne
  have hjoin : join ms ≠ [] := by
    rw [join, if_neg hne, flat_eq_cons_tail hne]
    simp
  rw [if_neg hjoin, if_neg hq, remainder, if_neg hne]
  constructor
  · intro h
    split at h
    · next hcond =>
      obtain ⟨hle, hmatch, hend⟩ := hcond
      obtain rfl := Option.some.inj h
      have hp := isPrefix_of_fnmatch hmatch
      have hpsne : ps ≠ [] := by
        rintro rfl
        exact hq (List.length_eq_zero_iff.mp (Nat.le_zero.mp hle))
      have hflat : flat ms ++ ((flat ps).tail).drop (flat ms).tail.length = flat ps := by
        conv_rhs => rw [flat_eq_cons_tail hpsne, hp]
        rw [flat_eq_cons_tail hne]
        rfl
      have hsep : ∀ x ∈ (((flat ps).tail).drop (flat ms).tail.length).head?, isSep x = true := by
        intro x hx
        rw [List.head?_drop] at hx
        rcases hend with hany | ⟨-, hnone⟩
        · rw [hx] at hany
          simpa using hany
        · rw [hnone] at hx
          simp at hx
      obtain ⟨es, hes, hrest⟩ := flat_prefix hms hps hsep hflat
      refine ⟨.inr ⟨⟨es, hes.symm⟩, ?_⟩, ?_⟩
      · rcases hend with hany | ⟨hfull, -⟩
        · right
          rintro rfl
          simp [flat] at hany
        · exact .inl hfull
      · rw [hrest, hes, List.drop_left]
    · simp at h
  · rintro ⟨hcov, rfl⟩
    obtain ⟨⟨es, rfl⟩, hproper⟩ := hcov.resolve_left hne
    have hp : (flat (ms ++ es)).tail = (flat ms).tail ++ flat es := by
      cases ms with
      | nil => exact absurd rfl hne
      | cons c ms => simp [flat]
    rw [hp, List.drop_left, List.drop_left, if_pos]
    refine ⟨by simp, fnmatch_append _ _, ?_⟩
    rw [List.getElem?_append_right le_rfl, Nat.sub_self]
    cases es with
    | nil => exact .inr ⟨hproper.resolve_right (by simp), rfl⟩
    | cons e es => exact .inl (flat_head (e :: es) ps1 rfl)

theorem covers_unique (hms : ∀ c ∈ ms, IsName c) (hms' : ∀ c ∈ ms', IsName c)
    (h : Covers full ms ps) (h' : Covers full ms' ps) (hlen : (join ms).length = (join ms').length) :
    join ms = join ms' := by
  have hlong {ns : List Path} (hns : ∀ c ∈ ns, IsName c) (hne : ns ≠ []) : 1 < (join ns).length := by
    rw [join, if_neg hne, flat_eq_cons_tail hne, List.length_cons]
    have := List.length_pos_of_ne_nil (flat_tail_ne_nil hns hne)
    omega
  rcases eq_or_ne ms [] with rfl | hne
  · rcases eq_or_ne ms' [] with rfl | hne'
    · rfl
    · have := hlong hms' hne'
      simp [join] at hlen this
      omega
  · rcases eq_or_ne ms' [] with rfl | hne'
    · have := hlong hms hne
      simp [join] at hlen this
      omega
    · rw [join, join, if_neg hne, if_neg hne'] at hlen ⊢
      obtain ⟨es, rfl⟩ := (h.resolve_left hne).1
      obtain ⟨es', hes'⟩ := (h'.resolve_left hne').1
      have hflat : flat ms' ++ flat es' = flat ms ++ flat es := by
        rw [flat, flat, flat, flat, ← List.flatMap_append, ← List.flatMap_append, hes']
      exact (List.append_inj_left hflat hlen.symm).symm

end Lookup

/-! The mount list. -/

namespace Mounts
variable {m m' : Mounts} {xs ys zs : List ℕ} {a p : ℕ} {path : Path} {fs : Fs}

/-- The list `xs` of mounted file systems, the longest mount points first. -/
structure Lists (m : Mounts) (xs : List ℕ) : Prop where
  list : IsBucket m.links m.mountlist xs
  named : ∀ a ∈ xs, (m.fs a).mntto = [] ∨ Canonical (m.fs a).mntto
  distinct : ∀ a ∈ xs, ∀ b ∈ xs, (m.fs a).mntto = (m.fs b).mntto → a = b
  sorted : xs.Pairwise fun a b => (m.fs b).mntto.length ≤ (m.fs a).mntto.length
  curdir : ∀ t, Canonical (m.curdir t)

theorem findPrev_spec {prev r : Option ℕ} (h : xs.foldlM (m.findPrev path) prev = .ok r) :
    (∀ a ∈ xs, (m.fs a).mntto ≠ path) ∧
      (r = prev ∧ (∀ a ∈ xs, (m.fs a).mntto.length ≤ path.length) ∨
        ∃ p ys zs, r = some p ∧ xs = ys ++ p :: zs ∧ path.length < (m.fs p).mntto.length ∧
          ∀ b ∈ zs, (m.fs b).mntto.length ≤ path.length) := by
  induction xs generalizing prev with
  | nil =>
    obtain rfl := Except.ok.inj h
    exact ⟨by simp, .inl ⟨rfl, by simp⟩⟩
  | cons a xs ih =>
    rw [List.foldlM_cons, findPrev] at h
    split at h
    · cases h
    next hne =>
      rw [fnmatch_full] at hne
      obtain ⟨hnew, hplace⟩ := ih h
      refine ⟨fun b hb => ?_, ?_⟩
      · rcases List.mem_cons.mp hb with rfl | hb
        · exact fun he => hne he.symm
        · exact hnew b hb
      · rcases hplace with ⟨rfl, hshort⟩ | ⟨p, ys, zs, rfl, rfl, hp, hzs⟩
        · split
          · next hlt => exact .inr ⟨a, [], xs, rfl, rfl, hlt, hshort⟩
          · next hlt =>
            refine .inl ⟨rfl, fun b hb => ?_⟩
            rcases List.mem_cons.mp hb with rfl | hb
            · exact not_lt.mp hlt
            · exact hshort b hb
        · exact .inr ⟨p, a :: ys, zs, rfl, rfl, hp, hzs⟩

theorem Lists.between (h : m.Lists (ys ++ zs)) (ha : a ∉ ys ++ zs)
    (hlist : IsBucket m'.links m'.mountlist (ys ++ a :: zs))
    (hfs : m'.fs = update m.fs a fs) (hcur : m'.curdir = m.curdir)
    (hname : fs.mntto = [] ∨ Canonical fs.mntto) (hnew : ∀ b ∈ ys ++ zs, (m.fs b).mntto ≠ fs.mntto)
    (hys : ∀ b ∈ ys, fs.mntto.length ≤ (m.fs b).mntto.length)
    (hzs : ∀ b ∈ zs, (m.fs b).mntto.length ≤ fs.mntto.length) : m'.Lists (ys ++ a :: zs) := by
  have hself : m'.fs a = fs := by rw [hfs, update_self]
  have hother : ∀ b ∈ ys ++ zs, m'.fs b = m.fs b := by
    intro b hb
    have hne : b ≠ a := fun he => ha (he ▸ hb)
    rw [hfs, update_of_ne hne]
  have hmem {b : ℕ} (hb : b ∈ ys ++ a :: zs) : b = a ∨ b ∈ ys ++ zs := by
    simp only [List.mem_append, List.mem_cons] at hb ⊢
    tauto
  refine ⟨hlist, fun b hb => ?_, fun b hb b' hb' he => ?_, ?_, fun t => ?_⟩
  · rcases hmem hb with rfl | hb
    · rw [hself]
      exact hname
    · rw [hother b hb]
      exact h.named b hb
  · rcases hmem hb with rfl | hold
    · rcases hmem hb' with rfl | hold'
      · rfl
      · rw [hself, hother b' hold'] at he
        exact absurd he.symm (hnew b' hold')
    · rcases hmem hb' with rfl | hold'
      · rw [hself, hother b hold] at he
        exact absurd he (hnew b hold)
      · rw [hother b hold, hother b' hold'] at he
        exact h.distinct b hold b' hold' he
  · have hsorted : (ys ++ zs).Pairwise fun b b' => (m'.fs b').mntto.length ≤ (m'.fs b).mntto.length := by
      refine h.sorted.imp_of_mem fun hb hb' hle => ?_
      rw [hother _ hb, hother _ hb']
      exact hle
    obtain ⟨hsy, hsz, hcross⟩ := List.pairwise_append.mp hsorted
    refine List.pairwise_append.mpr ⟨hsy, List.pairwise_cons.mpr ⟨fun b hb => ?_, hsz⟩, ?_⟩
    · rw [hself, hother b (List.mem_append_right ys hb)]
      exact hzs b hb
    · intro b hb b' hb'
      rcases List.mem_cons.mp hb' with rfl | hb'
      · rw [hself, hother b (List.mem_append_left zs hb)]
        exact hys b hb
      · exact hcross b hb b' hb'
  · rw [hcur]
    exact h.curdir t

theorem Lists.insert {prev : Option ℕ} (fs : Fs) (h : m.Lists xs) (ha : a ∉ xs)
    (hname : fs.mntto = [] ∨ Canonical fs.mntto)
    (hprev : xs.foldlM (m.findPrev fs.mntto) none = .ok prev) :
    ∃ ys zs, xs = ys ++ zs ∧ (m.insert prev a fs).Lists (ys ++ a :: zs) := by
  obtain ⟨hnew, ⟨rfl, hshort⟩ | ⟨p, ys, zs, rfl, rfl, hp, hzs⟩⟩ := findPrev_spec hprev
  · have h' : m.Lists ([] ++ xs) := h
    exact ⟨[], xs, rfl, h'.between ha (h.list.prepend ha) rfl rfl hname hnew (by simp) hshort⟩
  · have happ : ys ++ p :: zs = (ys ++ [p]) ++ zs := by simp
    have hlist := h.list.insertAfter ha
    rw [show ys ++ p :: a :: zs = (ys ++ [p]) ++ a :: zs by simp] at hlist
    have hsorted := h.sorted
    rw [happ] at h ha hnew
    refine ⟨ys ++ [p], zs, happ, h.between ha hlist rfl rfl hname hnew (fun b hb => ?_) hzs⟩
    rcases List.mem_append.mp hb with hb | hb
    · have hle := (List.pairwise_append.mp hsorted).2.2 b hb p List.mem_cons_self
      omega
    · obtain rfl := List.mem_singleton.mp hb
      exact hp.le

theorem Lists.remove (h : m.Lists xs) (ha : a ∈ xs) : ∃ ys, (m.remove a).Lists ys := by
  obtain ⟨ys, zs, rfl⟩ := List.append_of_mem ha
  have hsub : (ys ++ zs).Sublist (ys ++ a :: zs) := (List.sublist_cons_self a zs).append_left ys
  refine ⟨ys ++ zs, h.list.bypass, fun b hb => ?_, fun b hb b' hb' => ?_, ?_, h.curdir⟩
  · exact h.named b (hsub.subset hb)
  · exact h.distinct b (hsub.subset hb) b' (hsub.subset hb')
  · exact h.sorted.sublist hsub

theorem Lists.congr (h : m.Lists xs) (hlinks : m'.links = m.links)
    (hmounts : m'.mountlist = m.mountlist) (hfs : ∀ b, (m'.fs b).mntto = (m.fs b).mntto)
    (hcur : ∀ t, Canonical (m'.curdir t)) : m'.Lists xs := by
  refine ⟨?_, fun b hb => ?_, fun b hb b' hb' he => ?_, ?_, hcur⟩
  · rw [hlinks, hmounts]
    exact h.list
  · rw [hfs]
    exact h.named b hb
  · rw [hfs, hfs] at he
    exact h.distinct b hb b' hb' he
  · refine h.sorted.imp fun {b b'} hle => ?_
    rw [hfs, hfs]
    exact hle

theorem Lists.mountPath (h : m.Lists xs) {t : ℕ} {mntto : Path}
    (hpath : (if mntto = [] then .ok [] else canonicalize (m.curdir t) mntto) = .ok path) :
    path = [] ∨ Canonical path := by
  split at hpath
  · exact .inl (Except.ok.inj hpath).symm
  · rcases canonicalize_spec (h.curdir t) mntto with ⟨e, he, -⟩ | ⟨path', hok, hcan⟩
    · rw [he] at hpath
      cases hpath
    · rw [hok] at hpath
      obtain rfl := Except.ok.inj hpath
      exact .inr hcan

theorem mount_cases {t n : ℕ} {env : MountEnv} {type mntto : Option Path} {r : Mounts × Except Errno ℕ}
    (h : m.Lists xs) (hr : m.mount t n env type mntto = some r) :
    r.1 = m ∧ (∀ a, r.2 ≠ .ok a) ∨ ∃ a prev fs, r = (m.insert prev a fs, .ok a) ∧ a ∈ env.kmalloc ∧ fs.locks = 0 ∧
      xs.foldlM (m.findPrev fs.mntto) none = .ok prev ∧ ∃ path, mntto = some path ∧
        (if path = [] then .ok [] else canonicalize (m.curdir t) path) = .ok fs.mntto := by
  unfold mount at hr
  split at hr
  · split at hr
    · obtain rfl := Option.some.inj hr
      exact .inl ⟨rfl, nofun⟩
    next hpath =>
    obtain ⟨found, hscan, rfl⟩ := Option.map_eq_some_iff.mp hr
    cases found with
    | error e => exact .inl ⟨rfl, nofun⟩
    | ok prev =>
      dsimp only
      rw [mountAt]
      split
      · exact .inl ⟨rfl, nofun⟩
      split
      · exact .inl ⟨rfl, nofun⟩
      split
      · exact .inl ⟨rfl, nofun⟩
      next a ha =>
      split
      · exact .inl ⟨rfl, nofun⟩
      · exact .inr ⟨a, prev, _, rfl, ha, rfl, (h.list.scan_eq hscan).symm, _, rfl, hpath⟩
  · obtain rfl := Option.some.inj hr
    exact .inl ⟨rfl, nofun⟩

theorem mount_lists {t n : ℕ} {env : MountEnv} {type mntto : Option Path} {r : Mounts × Except Errno ℕ}
    (h : m.Lists xs) (hfresh : ∀ a ∈ env.kmalloc, a ∉ xs)
    (hr : m.mount t n env type mntto = some r) : ∃ ys, r.1.Lists ys := by
  rcases mount_cases h hr with ⟨heq, -⟩ | ⟨a, prev, fs, rfl, ha, -, hprev, path, -, hpath⟩
  · exact ⟨xs, heq ▸ h⟩
  · obtain ⟨ys, zs, -, hlists⟩ := h.insert fs (hfresh a ha) (h.mountPath hpath) hprev
    exact ⟨_, hlists⟩

theorem umount_lists {t n : ℕ} {rc : ℤ} {name : Option Path} {r : Mounts × Except Errno Unit}
    (h : m.Lists xs) (hr : m.umount t n rc name = some r) : ∃ ys, r.1.Lists ys := by
  unfold umount at hr
  split at hr
  · obtain rfl := Option.some.inj hr
    exact ⟨xs, h⟩
  · split at hr
    · obtain rfl := Option.some.inj hr
      exact ⟨xs, h⟩
    · obtain ⟨found, hsearch, rfl⟩ := Option.map_eq_some_iff.mp hr
      have hfind := h.list.search_eq hsearch
      split
      · exact ⟨xs, h⟩
      · next a =>
        obtain ⟨b, hb, hba⟩ := List.exists_of_findSome?_eq_some hfind.symm
        have hab : b = a := by
          split at hba
          · exact Option.some.inj hba
          · simp at hba
        split
        · exact ⟨xs, h⟩
        · split
          · exact ⟨xs, h⟩
          · exact h.remove (hab ▸ hb)

theorem chdir_lists {t : ℕ} {rc : Except Errno Unit} {name : Path} (h : m.Lists xs) :
    (m.chdir t rc name).1.Lists xs := by
  rw [chdir]
  rcases canonicalize_spec (h.curdir t) name with ⟨e, he, -⟩ | ⟨path, hok, hcan⟩
  · rw [he]
    exact h
  · rw [hok]
    cases rc with
    | error e => exact h
    | ok u =>
      refine h.congr rfl rfl (fun _ => rfl) fun t' => ?_
      dsimp only
      rcases eq_or_ne t' t with rfl | hne
      · rw [update_self]
        exact hcan
      · rw [update_of_ne hne]
        exact h.curdir t'

end Mounts

theorem MountCall.exec_lists {m m' : Mounts} {xs : List ℕ} {call : MountCall × ℕ} (h : m.Lists xs)
    (hok : MountCall.Ok m call) (hcall : MountCall.exec m call = some m') : ∃ ys, m'.Lists ys := by
  obtain ⟨call, n⟩ := call
  cases call with
  | mount t env type mntto =>
    obtain ⟨r, hr, rfl⟩ := Option.map_eq_some_iff.mp hcall
    refine Mounts.mount_lists h (fun a ha hmem => ?_) hr
    obtain ⟨k, hk⟩ := List.mem_iff_getElem?.mp hmem
    exact hok a ha k ((h.list.follow k).trans hk)
  | umount t rc name =>
    obtain ⟨r, hr, rfl⟩ := Option.map_eq_some_iff.mp hcall
    exact Mounts.umount_lists h hr
  | chdir t rc name =>
    obtain rfl := Option.some.inj hcall
    exact ⟨xs, Mounts.chdir_lists h⟩
  | inherit t creator =>
    obtain rfl := Option.some.inj hcall
    refine ⟨xs, h.congr rfl rfl (fun _ => rfl) fun t' => ?_⟩
    dsimp only
    rcases eq_or_ne t' t with rfl | hne
    · rw [update_self]
      exact h.curdir creator
    · rw [update_of_ne hne]
      exact h.curdir t'
  | lock a locks =>
    obtain rfl := Option.some.inj hcall
    refine ⟨xs, h.congr rfl rfl (fun b => ?_) h.curdir⟩
    dsimp only
    rcases eq_or_ne b a with rfl | hne
    · rw [update_self]
    · rw [update_of_ne hne]

theorem Mounts.Lists.mount_ends {m : Mounts} {xs : List ℕ} (h : m.Lists xs) (t : ℕ) (env : MountEnv)
    (type mntto : Option Path) : ∃ r, m.mount t xs.length env type mntto = some r := by
  unfold Mounts.mount
  split
  · split
    · exact ⟨_, rfl⟩
    · rw [h.list.scan le_rfl]
      exact ⟨_, rfl⟩
  · exact ⟨_, rfl⟩

theorem Mounts.Lists.umount_ends {m : Mounts} {xs : List ℕ} (h : m.Lists xs) (t : ℕ) (rc : ℤ)
    (name : Option Path) : ∃ r, m.umount t xs.length rc name = some r := by
  unfold Mounts.umount
  split
  · exact ⟨_, rfl⟩
  · split
    · exact ⟨_, rfl⟩
    · rw [h.list.search le_rfl]
      exact ⟨_, rfl⟩

theorem MountCall.exec_ends {m : Mounts} {xs : List ℕ} (h : m.Lists xs) (call : MountCall) :
    ∃ m', MountCall.exec m (call, xs.length) = some m' := by
  cases call with
  | mount t env type mntto =>
    obtain ⟨r, hr⟩ := h.mount_ends t env type mntto
    exact ⟨r.1, by rw [exec, hr]; rfl⟩
  | umount t rc name =>
    obtain ⟨r, hr⟩ := h.umount_ends t rc name
    exact ⟨r.1, by rw [exec, hr]; rfl⟩
  | chdir t rc name => exact ⟨_, rfl⟩
  | inherit t creator => exact ⟨_, rfl⟩
  | lock a locks => exact ⟨_, rfl⟩

/-- Of the mounted file systems `xs`, `a` with the mount point `ms` is the one for the path `ps`. -/
structure Mounts.Selects (m : Mounts) (xs : List ℕ) (full : Bool) (ps : List Path) (a : ℕ)
    (ms : List Path) : Prop where
  mem : a ∈ xs
  names : ∀ c ∈ ms, IsName c
  mntto : (m.fs a).mntto = join ms
  covers : Covers full ms ps
  longest : ∀ b ∈ xs, ∀ ms', (∀ c ∈ ms', IsName c) → (m.fs b).mntto = join ms' → Covers full ms' ps →
    b = a ∨ (m.fs b).mntto.length < (m.fs a).mntto.length

theorem Mounts.Lists.fslookup {m : Mounts} {xs : List ℕ} {ps : List Path} {n : ℕ} (h : m.Lists xs)
    (hps : ∀ c ∈ ps, IsName c) (hn : xs.length ≤ n) (t : Cred) (full : Bool) :
    (∃ a ms, m.Selects xs full ps a ms ∧
      m.fslookup t n (some (join ps)) full = some (m.enter t a (remainder ms ps))) ∨
    (∀ a ∈ xs, ∀ ms, (∀ c ∈ ms, IsName c) → (m.fs a).mntto = join ms → ¬ Covers full ms ps) ∧
      m.fslookup t n (some (join ps)) full = some (.error .enoent) := by
  unfold Mounts.fslookup
  dsimp only
  rw [h.list.search hn]
  cases hfind : xs.findSome? fun a =>
      (mountRest full (skipSep (join ps)) (m.fs a).mntto).map (m.enter t a) with
  | none =>
    right
    have hnone : ∀ a ∈ xs, ∀ ms, (∀ c ∈ ms, IsName c) → (m.fs a).mntto = join ms →
        ¬ Covers full ms ps := by
      intro a ha ms hms hmntto hcov
      have hno := List.findSome?_eq_none_iff.mp hfind a ha
      rw [hmntto, (mountRest_join hms hps).mpr ⟨hcov, rfl⟩] at hno
      simp at hno
    exact ⟨hnone, rfl⟩
  | some r =>
    left
    obtain ⟨ys, a, zs, rfl, hmatch, hbefore⟩ := List.findSome?_eq_some_iff.mp hfind
    obtain ⟨rest, hrest, rfl⟩ := Option.map_eq_some_iff.mp hmatch
    rcases h.named a (by simp) with hempty | ⟨ms, hms, hmntto⟩
    · rw [hempty] at hrest
      simp [mountRest] at hrest
    rw [hmntto] at hrest
    obtain ⟨hcov, rfl⟩ := (mountRest_join hms hps).mp hrest
    refine ⟨a, ms, ⟨by simp, hms, hmntto, hcov, fun b hb ms' hms' hmntto' hcov' => ?_⟩, rfl⟩
    rcases List.mem_append.mp hb with hb' | hb'
    · -- what comes before does not match
      have hno := hbefore b hb'
      rw [hmntto', (mountRest_join hms' hps).mpr ⟨hcov', rfl⟩] at hno
      simp at hno
    · rcases List.mem_cons.mp hb' with rfl | hb'
      · exact .inl rfl
      · have hle := (List.pairwise_cons.mp (List.pairwise_append.mp h.sorted).2.1).1 b hb'
        rcases hle.eq_or_lt with heq | hlt
        · left
          refine h.distinct b hb a (by simp) ?_
          rw [hmntto, hmntto'] at heq ⊢
          exact covers_unique hms' hms hcov' hcov heq
        · exact .inr hlt

/-- After any mounts and unmounts the list is sorted and has no mount point twice, and every canonical
path is looked up in the file system with the longest mount point that covers it. -/
theorem mount_table_lookup {m₀ m : Mounts} (hempty : m₀.mountlist = none)
    (hcur : ∀ t, Canonical (m₀.curdir t)) (hrun : Reach MountCall.exec MountCall.Ok m₀ m) :
    ∃ xs, IsBucket m.links m.mountlist xs ∧
      (xs.map fun a => (m.fs a).mntto).Nodup ∧
      (xs.Pairwise fun a b => (m.fs b).mntto.length ≤ (m.fs a).mntto.length) ∧
      (∀ call, ∃ m', MountCall.exec m (call, xs.length) = some m') ∧
      ∀ ps t full n, (∀ c ∈ ps, IsName c) → xs.length ≤ n →
        (∃ a ms, m.Selects xs full ps a ms ∧
          m.fslookup t n (some (join ps)) full = some (m.enter t a (remainder ms ps))) ∨
        (∀ a ∈ xs, ∀ ms, (∀ c ∈ ms, IsName c) → (m.fs a).mntto = join ms → ¬ Covers full ms ps) ∧
          m.fslookup t n (some (join ps)) full = some (.error .enoent) := by
  have h₀ : m₀.Lists [] := by
    refine ⟨?_, by simp, by simp, List.Pairwise.nil, hcur⟩
    rw [hempty]
    exact isBucket_nil _
  obtain ⟨xs, h⟩ : ∃ xs, m.Lists xs :=
    hrun.invariant (P := fun m => ∃ xs, m.Lists xs) ⟨[], h₀⟩ fun _ _ _ ⟨_, hl⟩ hok hcall =>
      MountCall.exec_lists hl hok hcall
  refine ⟨xs, h.list, ?_, h.sorted, MountCall.exec_ends h, fun ps t full n hps hn => ?_⟩
  · exact List.Nodup.map_on (fun a ha b hb => h.distinct a ha b hb) h.list.nodup
  · exact h.fslookup hps hn t full

/-- Nothing is mounted; there is one file system type. -/
def noMounts : Mounts where
  links := ⟨fun _ => none, fun _ => none⟩
  mountlist := none
  fs _ := ⟨[], 0, 0, 0, 0⟩
  fslist := [[100]]
  curdir _ := [47]

/-- A mount at `/` and one at `/d`. -/
def mountRoot : MountCall := .mount 0 ⟨.error .enoent, some 1, 0⟩ (some [100]) (some [47])
def mountDev : MountCall := .mount 0 ⟨.ok ⟨0, 0, 493⟩, some 2, 0⟩ (some [100]) (some [47, 100])

theorem mount_table_lookup_two : ∃ m, Reach MountCall.exec MountCall.Ok noMounts m ∧
    m.mountlist = some 2 ∧ m.links.next 2 = some 1 ∧
    ∃ xs, IsBucket m.links m.mountlist xs ∧ (xs.map fun a => (m.fs a).mntto).Nodup := by
  have hlist₀ : IsBucket noMounts.links noMounts.mountlist [] := isBucket_nil _
  have hroot : MountCall.exec noMounts (mountRoot, 0) =
      some (noMounts.insert none 1 ⟨[47], 0, 0, 0, 493⟩) := rfl
  have hlist₁ := hlist₀.prepend (a := 1) (by simp)
  have hdev : MountCall.exec (noMounts.insert none 1 ⟨[47], 0, 0, 0, 493⟩) (mountDev, 1) =
      some ((noMounts.insert none 1 ⟨[47], 0, 0, 0, 493⟩).insert none 2 ⟨[47, 100], 0, 0, 0, 493⟩) := rfl
  have hok₀ : MountCall.Ok noMounts (mountRoot, 0) := by
    intro a _ k hk
    have hmem := hlist₀.follow_mem hk
    simp at hmem
  have hok₁ : MountCall.Ok (noMounts.insert none 1 ⟨[47], 0, 0, 0, 493⟩) (mountDev, 1) := by
    intro a ha k hk
    obtain rfl : 2 = a := Option.some.inj ha
    have hmem := hlist₁.follow_mem hk
    simp at hmem
  have hstart : Reach MountCall.exec MountCall.Ok noMounts noMounts := Reach.refl noMounts
  have hrun := (hstart.tail hok₀ hroot).tail hok₁ hdev
  obtain ⟨xs, hxs, hnodup, -⟩ := mount_table_lookup rfl (fun _ => ⟨[], by simp, rfl⟩) hrun
  exact ⟨_, hrun, rfl, rfl, xs, hxs, hnodup⟩

/-- `umount` takes a `mount` back: afterwards every path is looked up as before. -/
theorem mount_umount {m₀ m m₁ : Mounts} {t n a : ℕ} {env : MountEnv} {type mntto : Path}
    (hempty : m₀.mountlist = none) (hcur : ∀ t, Canonical (m₀.curdir t))
    (hrun : Reach MountCall.exec MountCall.Ok m₀ m) (hok : MountCall.Ok m (.mount t env type mntto, n))
    (hne : mntto ≠ []) (hmount : m.mount t n env type mntto = some (m₁, .ok a)) :
    ∃ m₂ n₀, ∀ k, n₀ ≤ k → m₁.umount t k 0 mntto = some (m₂, .ok ()) ∧
      ∀ cred name full, m₂.fslookup cred k name full = m.fslookup cred k name full := by
  have h₀ : m₀.Lists [] := ⟨hempty ▸ isBucket_nil _, by simp, by simp, List.Pairwise.nil, hcur⟩
  obtain ⟨xs, h⟩ : ∃ xs, m.Lists xs :=
    hrun.invariant (P := fun m => ∃ xs, m.Lists xs) ⟨[], h₀⟩ fun _ _ _ ⟨_, hl⟩ => MountCall.exec_lists hl
  obtain ⟨-, hno⟩ | ⟨b, prev, fs, heq, hb, hlocks, hprev, path, hname, hpath⟩ := Mounts.mount_cases h hmount
  · exact absurd rfl (hno a)
  obtain ⟨hm₁, -⟩ := Prod.mk.inj heq
  obtain rfl := Option.some.inj hname
  have hfresh : b ∉ xs := by
    intro hmem
    obtain ⟨i, hi⟩ := List.mem_iff_getElem?.mp hmem
    exact hok b hb i ((h.list.follow i).trans hi)
  obtain ⟨ys, zs, rfl, h₁⟩ := h.insert fs hfresh (h.mountPath hpath) hprev
  have hsame : m₁.fs = update m.fs b fs ∧ m₁.curdir = m.curdir := by
    rw [hm₁]
    cases prev <;> exact ⟨rfl, rfl⟩
  obtain ⟨hfs, hcurdir⟩ := hsame
  rw [← hm₁] at h₁
  rw [if_neg hne, ← hcurdir] at hpath
  have hself : m₁.fs b = fs := by rw [hfs, update_self]
  have hother : ∀ c ∈ ys ++ zs, m₁.fs c = m.fs c := by
    intro c hc
    rw [hfs, update_of_ne (fun heq : c = b => hfresh (heq ▸ hc))]
  refine ⟨m₁.remove b, (ys ++ b :: zs).length, fun k hk => ⟨?_, fun cred name full => ?_⟩⟩
  · have hfind : (ys ++ b :: zs).findSome? (fun c => if fnmatch fs.mntto fs.mntto.length (m₁.fs c).mntto
        (m₁.fs c).mntto.length then some c else none) = some b := by
      refine List.findSome?_eq_some_iff.mpr ⟨ys, b, zs, rfl, ?_, fun c hc => ?_⟩
      · rw [hself]
        exact if_pos (fnmatch_full.mpr rfl)
      · have hmem : c ∈ ys ++ zs := List.mem_append_left zs hc
        rw [hother c hmem, if_neg (mt fnmatch_full.mp (Ne.symm ((Mounts.findPrev_spec hprev).1 c hmem)))]
    simp [Mounts.umount, hpath, h₁.list.search hk, hfind, hself, hlocks]
  · cases name with
    | none => rfl
    | some name =>
      have hlen : (ys ++ zs).length ≤ k := by
        simp only [List.length_append, List.length_cons] at hk ⊢
        omega
      have hlist : IsBucket (m₁.remove b).links (m₁.remove b).mountlist (ys ++ zs) := h₁.list.bypass
      have hkept : ∀ c ∈ ys ++ zs, (m₁.remove b).fs c = m.fs c := hother
      have hentered : ∀ c ∈ ys ++ zs, (m₁.remove b).enter cred c = m.enter cred c := by
        intro c hc
        funext rest
        rw [Mounts.enter, Mounts.enter, hkept c hc]
      simp only [Mounts.fslookup, hlist.search hlen, h.list.search hlen, ← List.head?_filterMap]
      rw [List.filterMap_congr fun c hc => by rw [hkept c hc, hentered c hc]]

theorem mount_umount_root : ∃ m₁ m₂ n₀, ∀ k, n₀ ≤ k → Mounts.umount m₁ 0 k 0 (some [47]) = some (m₂, .ok ()) ∧
    ∀ cred name full, m₂.fslookup cred k name full = noMounts.fslookup cred k name full := by
  have hok : MountCall.Ok noMounts (mountRoot, 0) := by
    intro a _ k
    cases k <;> simp [noMounts, Links.follow]
  exact ⟨_, mount_umount (m := noMounts) rfl (fun _ => ⟨[], by simp, rfl⟩) (.refl _) hok (by decide) rfl⟩

end SimpleKernel.Vfs
