import Mathlib.Data.List.Basic
import Mathlib.Data.UInt

/-! File names and `canonicalize` of `krnl/vfs.c`. -/
namespace SimpleKernel.Vfs

/-- The characters of a string before its terminating zero. -/
abbrev Path := List UInt8

def ps1 : UInt8 := 47
def ps2 : UInt8 := 92
def dot : UInt8 := 46
def maxPath : ℕ := 256

/-- Errors. `undefined` stands for an access outside the buffer. -/
inductive Errno
  | einval | enametoolong | eexist | enoent | enomem | ebusy | eacces
  | other (rc : ℤ)
  | undefined
  deriving DecidableEq, Repr

def isSep (c : UInt8) : Bool := c == ps1 || c == ps2

/-- The inner loop of `canonicalize`: a name part is copied behind `buf`. The rest of the path, the
buffer and the part. -/
def copyName : Path → Path → Path → Except Errno (Path × Path × Path)
  | [], buf, name => .ok ([], buf, name)
  | c :: path, buf, name =>
    if isSep c then .ok (c :: path, buf, name)
    else if 0 < c ∧ c < 32 then .error .einval
    else if buf.length = maxPath then .error .enametoolong
    else copyName path (buf ++ [c]) (name ++ [c])

/-- `while (*p != pathsep) p--` from `i` on. -/
def lastSep (buf : Path) : ℕ → Except Errno ℕ
  | 0 => if buf[0]? = some ps1 then .ok 0 else .error .undefined
  | i + 1 => if buf[i + 1]? = some ps1 then .ok (i + 1) else lastSep buf i

/-- Empty parts, `.` and `..` at the end of `buf`. -/
def dropName (buf name : Path) : Except Errno Path :=
  if name = [] then .ok (buf.take (buf.length - 1))
  else if name = [dot] then .ok (buf.take (buf.length - 2))
  else if name = [dot, dot] then
    if buf.length < 4 then .error .einval
    else do
      let p ← lastSep buf (buf.length - 4)
      pure (buf.take p)
  else .ok buf

/-- The loop of `canonicalize` over the name parts, for at most so many of them. -/
def parts : ℕ → Path → Path → Except Errno Path
  | _, [], buf => .ok buf
  | 0, _ :: _, _ => .error .undefined
  | n + 1, c :: path, buf => do
    let path := if isSep c then path else c :: path
    if buf.length = maxPath then .error .enametoolong
    else
      let r ← copyName path (buf ++ [ps1]) []
      let buf ← dropName r.2.1 r.2.2
      parts n r.1 buf

/-- `path` without a drive letter. -/
def withoutDrive : Path → Path
  | _ :: 58 :: path => path
  | path => path

/-- What stands in the buffer first: the current directory for a relative path. -/
def startDir (curdir path : Path) : Path :=
  if path.head?.any isSep then [] else if 1 < curdir.length then curdir else []

/-- The end of `canonicalize`: an empty name becomes the root. -/
def terminate (buf : Path) : Except Errno Path :=
  let buf := if buf = [] then [ps1] else buf
  if buf.length = maxPath then .error .enametoolong else .ok buf

def canonicalize (curdir path : Path) : Except Errno Path := do
  let path := withoutDrive path
  let buf ← parts path.length path (startDir curdir path)
  terminate buf

/-- A name part of a canonical path. -/
structure IsName (c : Path) : Prop where
  ne_nil : c ≠ []
  noSep : ∀ x ∈ c, isSep x = false
  ne_dot : c ≠ [dot]
  ne_dots : c ≠ [dot, dot]

theorem noSep_of_all {c : Path} (h : c.all (fun x => !isSep x) = true) : ∀ x ∈ c, isSep x = false := by
  simpa using h

/-- Every name with a separator before it. -/
def flat (cs : List Path) : Path := cs.flatMap fun c => ps1 :: c

/-- The canonical path with the names `cs`. -/
def join (cs : List Path) : Path := if cs = [] then [ps1] else flat cs

/-- A path in canonical form. -/
def Canonical (path : Path) : Prop := ∃ cs, (∀ c ∈ cs, IsName c) ∧ path = join cs

variable {buf name path curdir : Path} {cs ds : List Path} {c : Path}

theorem flat_cons (c : Path) (cs : List Path) : flat (c :: cs) = ps1 :: (c ++ flat cs) := rfl

theorem flat_eq_nil : flat cs = [] ↔ cs = [] := by
  cases cs with
  | nil => simp [flat]
  | cons c cs => simp [flat_cons]

theorem names_split {c d : Path} {xs ys : Path} (hc : ∀ x ∈ c, isSep x = false)
    (hd : ∀ x ∈ d, isSep x = false) (hx : ∀ x ∈ xs.head?, isSep x = true)
    (hy : ∀ x ∈ ys.head?, isSep x = true) (h : c ++ xs = d ++ ys) : c = d ∧ xs = ys := by
  induction c generalizing d with
  | nil =>
    cases d with
    | nil => exact ⟨rfl, h⟩
    | cons b d =>
      have hb := hd b List.mem_cons_self
      rw [List.nil_append] at h
      rw [hx b (by simp [h])] at hb
      simp at hb
  | cons a c ih =>
    cases d with
    | nil =>
      have ha := hc a List.mem_cons_self
      rw [List.nil_append] at h
      rw [hy a (by simp [← h])] at ha
      simp at ha
    | cons b d =>
      obtain ⟨rfl, htail⟩ := List.cons.inj h
      obtain ⟨rfl, hxs⟩ := ih (fun x hx => hc x (List.mem_cons_of_mem a hx))
        (fun x hx => hd x (List.mem_cons_of_mem a hx)) htail
      exact ⟨rfl, hxs⟩

theorem flat_head (cs : List Path) : ∀ x ∈ (flat cs).head?, isSep x = true := by
  intro x hx
  cases cs with
  | nil => simp [flat] at hx
  | cons c cs =>
    obtain rfl : ps1 = x := by simpa [flat_cons] using hx
    decide

theorem flat_prefix {xs : Path} (hcs : ∀ c ∈ cs, IsName c) (hds : ∀ d ∈ ds, IsName d)
    (hx : ∀ x ∈ xs.head?, isSep x = true) (h : flat cs ++ xs = flat ds) :
    ∃ es, ds = cs ++ es ∧ xs = flat es := by
  induction cs generalizing ds with
  | nil => exact ⟨ds, rfl, h⟩
  | cons c cs ih =>
    cases ds with
    | nil => simp [flat] at h
    | cons d ds =>
      rw [flat_cons, List.cons_append, List.append_assoc] at h
      have hends : ∀ x ∈ (flat cs ++ xs).head?, isSep x = true := by
        intro x hx'
        cases cs with
        | nil => exact hx x hx'
        | cons b cs => exact flat_head (b :: cs) x (by simpa [flat_cons] using hx')
      obtain ⟨rfl, htail⟩ := names_split (hcs c List.mem_cons_self).noSep
        (hds d List.mem_cons_self).noSep hends (flat_head ds) (List.cons.inj h).2
      obtain ⟨es, rfl, hes⟩ := ih (fun c hc => hcs c (List.mem_cons_of_mem _ hc))
        (fun d hd => hds d (List.mem_cons_of_mem _ hd)) htail
      exact ⟨es, rfl, hes⟩

/-! `canonicalize`. -/

theorem copyName_spec {r : Path × Path × Path} (h : copyName path buf name = .ok r)
    (hname : ∀ x ∈ name, isSep x = false) :
    (∃ part, path = part ++ r.1 ∧ r.2.1 = buf ++ part ∧ r.2.2 = name ++ part) ∧
      (∀ x ∈ r.2.2, isSep x = false) ∧ ∀ x ∈ r.1.head?, isSep x = true := by
  induction path generalizing buf name with
  | nil =>
    obtain rfl := Except.ok.inj h
    exact ⟨⟨[], by simp, by simp, by simp⟩, hname, by simp⟩
  | cons c path ih =>
    rw [copyName] at h
    split at h
    · next hsep =>
      obtain rfl := Except.ok.inj h
      refine ⟨⟨[], by simp, by simp, by simp⟩, hname, fun x hx => ?_⟩
      obtain rfl : c = x := by simpa using hx
      exact hsep
    next hsep =>
      split at h
      · simp at h
      split at h
      · simp at h
      have hname' : ∀ x ∈ name ++ [c], isSep x = false := by
        intro x hx
        rcases List.mem_append.mp hx with hx | hx
        · exact hname x hx
        · obtain rfl := List.mem_singleton.mp hx
          simpa using hsep
      obtain ⟨⟨part, hpath, hbuf, hpart⟩, hclean, hhead⟩ := ih h hname'
      exact ⟨⟨c :: part, by rw [hpath]; rfl, by simp [hbuf], by simp [hpart]⟩, hclean, hhead⟩

theorem copyName_defined (path buf name : Path) : copyName path buf name ≠ .error .undefined := by
  induction path generalizing buf name with
  | nil => simp [copyName]
  | cons c path ih =>
    rw [copyName]
    split
    · simp
    · split
      · simp
      · split
        · simp
        · exact ih _ _

theorem lastSep_spec (hc : IsName c) {i : ℕ} (hlo : (flat cs).length ≤ i)
    (hhi : i < (flat cs).length + 1 + c.length) (rest : Path) :
    lastSep (flat cs ++ ps1 :: (c ++ rest)) i = .ok (flat cs).length := by
  have hsep : (flat cs ++ ps1 :: (c ++ rest))[(flat cs).length]? = some ps1 := by
    rw [List.getElem?_append_right le_rfl, Nat.sub_self]
    rfl
  induction i with
  | zero =>
    have h0 : (flat cs).length = 0 := by omega
    rw [h0] at hsep ⊢
    rw [lastSep, if_pos hsep]
  | succ i ih =>
    rw [lastSep]
    rcases hlo.eq_or_lt with heq | hlt
    · rw [← heq, if_pos hsep]
    · rw [if_neg, ih (by omega) (by omega)]
      -- inside the name
      intro hat
      rw [List.getElem?_append_right (by omega),
        show i + 1 - (flat cs).length = (i - (flat cs).length) + 1 by omega, List.getElem?_cons_succ,
        List.getElem?_append_left (by omega)] at hat
      have hno := hc.noSep ps1 (List.mem_of_getElem? hat)
      simp [isSep] at hno

/-- One part more behind the names `ks`: an empty one and `.` are dropped, `..` removes the name
before it. -/
def addName (ks : List Path) (c : Path) : Option (List Path) :=
  if c = [] ∨ c = [dot] then some ks
  else if c = [dot, dot] then (if ks = [] then none else some ks.dropLast)
  else some (ks ++ [c])

theorem addName_names (hcs : ∀ c ∈ cs, IsName c) (hname : ∀ x ∈ name, isSep x = false)
    (h : addName cs name = some ds) : ∀ d ∈ ds, IsName d := by
  rw [addName] at h
  split at h
  · obtain rfl := Option.some.inj h
    exact hcs
  next hdrop =>
  rw [not_or] at hdrop
  split at h
  · split at h
    · simp at h
    · obtain rfl := Option.some.inj h
      exact fun d hd => hcs d (List.dropLast_subset _ hd)
  next hdots =>
  obtain rfl := Option.some.inj h
  intro d hd
  rcases List.mem_append.mp hd with hd | hd
  · exact hcs d hd
  · obtain rfl := List.mem_singleton.mp hd
    exact ⟨hdrop.1, hname, hdrop.2, hdots⟩

theorem dropName_eq (hcs : ∀ c ∈ cs, IsName c) (name : Path) :
    dropName (flat cs ++ ps1 :: name) name =
      match addName cs name with
      | none => .error .einval
      | some ds => .ok (flat ds) := by
  rw [dropName, addName]
  split
  · next hnil =>
    subst hnil
    simp
  next hnil =>
    split
    · next hdot =>
      subst hdot
      simp
    next hdot =>
      rw [if_neg (not_or.mpr ⟨hnil, hdot⟩)]
      split
      · next hdots =>
        subst hdots
        rcases List.eq_nil_or_concat cs with rfl | ⟨ds, d, rfl⟩
        · rfl
        have hd : IsName d := hcs d (by simp)
        have hflat : flat (ds.concat d) ++ ps1 :: [dot, dot] =
            flat ds ++ ps1 :: (d ++ ps1 :: [dot, dot]) := by
          simp [flat]
        have hlen : (flat ds ++ ps1 :: (d ++ ps1 :: [dot, dot])).length =
            (flat ds).length + d.length + 4 := by
          simp
          omega
        have hne : ds.concat d ≠ [] := by simp
        have hlast : (ds.concat d).dropLast = ds := by simp
        rw [hflat, hlen, lastSep_spec hd (by omega) (by omega), if_neg hne, hlast]
        change Except.ok (List.take (flat ds).length _) = _
        rw [List.take_left]
      · next hdots => simp [flat]

theorem parts_spec {n : ℕ} (hcs : ∀ c ∈ cs, IsName c) (hn : path.length ≤ n) :
    (∃ e, parts n path (flat cs) = .error e ∧ e ≠ .undefined) ∨
      ∃ ds, (∀ d ∈ ds, IsName d) ∧ parts n path (flat cs) = .ok (flat ds) := by
  induction n generalizing path cs with
  | zero =>
    obtain rfl := List.length_eq_zero_iff.mp (Nat.le_zero.mp hn)
    exact .inr ⟨cs, hcs, rfl⟩
  | succ n ih =>
    cases path with
    | nil => exact .inr ⟨cs, hcs, rfl⟩
    | cons c path =>
      rw [parts]
      split
      · exact .inl ⟨_, rfl, by simp⟩
      cases hcopy : copyName (if isSep c then path else c :: path) (flat cs ++ [ps1]) [] with
      | error e =>
        refine .inl ⟨e, rfl, ?_⟩
        rintro rfl
        exact copyName_defined _ _ _ hcopy
      | ok r =>
        obtain ⟨⟨part, hpath, hbuf, hpart⟩, hclean, hhead⟩ := copyName_spec hcopy (by simp)
        rw [List.nil_append] at hpart
        rw [hpart] at hclean
        have hlen : r.1.length ≤ n := by
          have hn' : path.length ≤ n := by simpa using hn
          split at hpath
          · have := congrArg List.length hpath
            simp only [List.length_append] at this
            omega
          · next hsep =>
            cases part with
            | nil =>
              rw [List.nil_append] at hpath
              exact absurd (hhead c (by simp [← hpath])) hsep
            | cons x part =>
              have := congrArg List.length hpath
              simp only [List.length_append, List.length_cons] at this
              omega
        change (∃ e, (dropName r.2.1 r.2.2 >>= parts n r.1) = .error e ∧ _) ∨
          ∃ ds, _ ∧ (dropName r.2.1 r.2.2 >>= parts n r.1) = _
        rw [hbuf, hpart, List.append_assoc]
        rw [List.singleton_append, dropName_eq hcs]
        cases hadd : addName cs part with
        | none => exact .inl ⟨.einval, rfl, by simp⟩
        | some ds => exact ih (addName_names hcs hclean hadd) hlen

theorem startDir_spec (hcur : Canonical curdir) (path : Path) :
    ∃ cs, (∀ c ∈ cs, IsName c) ∧ startDir curdir path = flat cs := by
  obtain ⟨cs, hcs, rfl⟩ := hcur
  rw [startDir]
  split
  · exact ⟨[], by simp, rfl⟩
  · split
    · next hlen =>
      refine ⟨cs, hcs, ?_⟩
      rw [join, if_neg]
      rintro rfl
      simp [join] at hlen
    · exact ⟨[], by simp, rfl⟩

theorem terminate_flat (ds : List Path) :
    terminate (flat ds) = .error .enametoolong ∨ terminate (flat ds) = .ok (join ds) := by
  have hjoin : (if flat ds = [] then [ps1] else flat ds) = join ds := by
    rw [join]
    simp only [flat_eq_nil]
  rw [terminate, hjoin]
  split
  · exact .inl rfl
  · exact .inr rfl

theorem canonicalize_spec (hcur : Canonical curdir) (path : Path) :
    (∃ e, canonicalize curdir path = .error e ∧ e ≠ .undefined) ∨
      ∃ path', canonicalize curdir path = .ok path' ∧ Canonical path' := by
  obtain ⟨cs, hcs, hstart⟩ := startDir_spec hcur (withoutDrive path)
  rw [canonicalize, hstart]
  rcases parts_spec hcs le_rfl with ⟨e, hparts, he⟩ | ⟨ds, hds, hparts⟩
  · exact .inl ⟨e, by rw [hparts]; rfl, he⟩
  · rw [hparts]
    rcases terminate_flat ds with hend | hend
    · exact .inl ⟨_, hend, by simp⟩
    · exact .inr ⟨join ds, hend, ds, hds, rfl⟩

example : canonicalize [47, 97] [46, 46, 92, 98, 47, 46, 47, 99] = .ok [47, 98, 47, 99] := by decide

end SimpleKernel.Vfs
