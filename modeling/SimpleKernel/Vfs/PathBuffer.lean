import SimpleKernel.Lib.Lockstep
import SimpleKernel.Vfs.Normalize

/-! `canonicalize` on the caller's buffer, with every access checked: the pointer `p` is an offset
from `buffer`, and an access outside its `MAXPATH` bytes is `undefined`. -/
namespace SimpleKernel.Vfs

/-- The bytes from `buffer` on. -/
abbrev Mem := ℕ → UInt8

/-- `*p = c`. -/
def store (m : Mem) (p : ℤ) (c : UInt8) : Except Errno Mem :=
  if 0 ≤ p ∧ p < maxPath then .ok (Function.update m p.toNat c) else .error .undefined

/-- `*p`. -/
def load (m : Mem) (p : ℤ) : Except Errno UInt8 :=
  if 0 ≤ p ∧ p < maxPath then .ok (m p.toNat) else .error .undefined

/-- `memcpy(buffer, src, strlen(src))`. -/
def copyIn (m : Mem) (src : Path) : Except Errno Mem :=
  if src.length ≤ maxPath then .ok fun i => src[i]?.getD (m i) else .error .undefined

/-- The inner loop: the rest of the path, the buffer, the pointer and the part that was copied. -/
def copyPart : Path → Mem → ℤ → Path → Except Errno (Path × Mem × ℤ × Path)
  | [], m, p, name => .ok ([], m, p, name)
  | c :: path, m, p, name =>
    if isSep c then .ok (c :: path, m, p, name)
    else if 0 < c ∧ c < 32 then .error .einval
    else if p = maxPath then .error .enametoolong
    else do
      let m ← store m p c
      copyPart path m (p + 1) (name ++ [c])

/-- `while (*p != pathsep) p--`, for at most `n` rounds. -/
def scanBack (m : Mem) : ℕ → ℤ → Except Errno ℤ
  | 0, _ => .error .undefined
  | n + 1, p => do
    let c ← load m p
    if c = ps1 then .ok p else scanBack m n (p - 1)

/-- Empty parts, `.` and `..`: the pointer goes back. -/
def stepBack (m : Mem) (p : ℤ) (name : Path) : Except Errno ℤ :=
  if name = [] then .ok (p - 1)
  else if name = [dot] then .ok (p - 2)
  else if name = [dot, dot] then
    if p - 4 < 0 then .error .einval else scanBack m ((p - 4).toNat + 1) (p - 4)
  else .ok p

/-- The outer loop, for at most so many rounds. -/
def copyParts : ℕ → Path → Mem → ℤ → Except Errno (Mem × ℤ)
  | _, [], m, p => .ok (m, p)
  | 0, _ :: _, _, _ => .error .undefined
  | n + 1, c :: path, m, p => do
    let path := if isSep c then path else c :: path
    if p = maxPath then .error .enametoolong
    else
      let m ← store m p ps1
      let r ← copyPart path m (p + 1) []
      let p ← stepBack r.2.1 r.2.2.1 r.2.2.2
      copyParts n r.1 r.2.1 p

/-- An empty name becomes the root. -/
def closeEmpty (m : Mem) (p : ℤ) : Except Errno (Mem × ℤ) :=
  if p = 0 then (store m p ps1).map fun m => (m, p + 1) else .ok (m, p)

/-- A zero is written behind the name. -/
def closeName (m : Mem) (p : ℤ) : Except Errno (Mem × ℤ) :=
  if p = maxPath then .error .enametoolong else (store m p 0).map fun m => (m, p)

/-- The current directory stands first for a relative path, unless it is the root. -/
def copyDir (m : Mem) (curdir path : Path) : Except Errno (Mem × ℤ) :=
  if path.head?.any isSep then .ok (m, 0)
  else if 1 < curdir.length then (copyIn m curdir).map fun m => (m, curdir.length)
  else .ok (m, 0)

/-- The buffer and the length that is returned, or an error. -/
def canonicalizeAt (m : Mem) (curdir path : Path) : Except Errno (Mem × ℤ) := do
  let path := withoutDrive path
  let r ← copyDir m curdir path
  let r ← copyParts path.length path r.1 r.2
  let r ← closeEmpty r.1 r.2
  closeName r.1 r.2

variable {m m' : Mem} {p : ℤ} {buf name path rest curdir : Path} {c : UInt8} {i k n : ℕ}

/-- The buffer has the characters `buf` before the pointer. -/
structure Shows (m : Mem) (p : ℤ) (buf : Path) : Prop where
  pointer : p = buf.length
  room : buf.length ≤ maxPath
  chars : ∀ i c, buf[i]? = some c → m i = c

section
variable (h : Shows m p buf)
include h

theorem Shows.store (hroom : buf.length ≠ maxPath) (c : UInt8) :
    ∃ m', Vfs.store m p c = .ok m' ∧ Shows m' (p + 1) (buf ++ [c]) := by
  obtain ⟨rfl, hle, hchars⟩ := h
  refine ⟨_, if_pos ⟨by omega, by omega⟩, ?_, ?_, fun i d hd => ?_⟩
  · simp
  · simp only [List.length_append, List.length_singleton]
    omega
  · rw [Int.toNat_natCast]
    by_cases hi : i = buf.length
    · subst hi
      simp only [List.getElem?_concat_length, Option.some.injEq] at hd
      rw [Function.update_self, hd]
    · rw [Function.update_of_ne hi]
      obtain ⟨hlt, -⟩ := List.getElem?_eq_some_iff.mp hd
      rw [List.length_append, List.length_singleton] at hlt
      rw [List.getElem?_append_left (by omega)] at hd
      exact hchars i d hd

theorem Shows.back (hk : k ≤ buf.length) : Shows m k (buf.take k) := by
  refine ⟨?_, ?_, fun i c hc => ?_⟩
  · rw [List.length_take, Nat.min_eq_left hk]
  · rw [List.length_take]
    have := h.room
    omega
  · rw [List.getElem?_take] at hc
    split at hc
    · exact h.chars i c hc
    · simp at hc

theorem Shows.load (hi : i < buf.length) :
    Vfs.load m i = .ok (m i) ∧ (m i = ps1 ↔ buf[i]? = some ps1) := by
  have hroom := h.room
  refine ⟨?_, ?_⟩
  · rw [Vfs.load, if_pos ⟨by omega, by omega⟩, Int.toNat_natCast]
  · have hat := List.getElem?_eq_getElem hi
    rw [h.chars i _ hat, hat, Option.some.injEq]

theorem copyPart_lockstep :
    Lockstep (fun r q => r.1 = q.1 ∧ Shows r.2.1 r.2.2.1 q.2.1 ∧ r.2.2.2 = q.2.2)
      (copyPart path m p name) (copyName path buf name) := by
  induction path generalizing m p buf name with
  | nil => exact .ok ⟨rfl, h, rfl⟩
  | cons c path ih =>
    have hfull : p = maxPath ↔ buf.length = maxPath := by
      rw [h.pointer]
      exact Int.natCast_inj
    rw [copyPart, copyName]
    simp only [hfull]
    split
    · exact .ok ⟨rfl, h, rfl⟩
    split
    · exact .error _
    split
    · exact .error _
    next hroom =>
    obtain ⟨m', hstore, h'⟩ := h.store hroom c
    rw [hstore]
    exact ih h'

theorem scanBack_lockstep (hi : i < buf.length) :
    Lockstep (fun (q : ℤ) (k : ℕ) => q = k ∧ k ≤ i) (scanBack m (i + 1) i) (lastSep buf i) := by
  induction i with
  | zero =>
    obtain ⟨hload, hsep⟩ := h.load hi
    rw [lastSep]
    simp only [← hsep]
    change Lockstep _ (if m 0 = ps1 then _ else _) _
    split
    · exact .ok ⟨rfl, le_rfl⟩
    -- one step more would be before the buffer
    · exact .error _
  | succ i ih =>
    obtain ⟨hload, hsep⟩ := h.load hi
    rw [scanBack, lastSep, hload]
    simp only [← hsep]
    change Lockstep _ (if m (i + 1) = ps1 then _ else _) _
    split
    · exact .ok ⟨rfl, le_rfl⟩
    · rw [show ((i + 1 : ℕ) : ℤ) - 1 = (i : ℤ) by omega]
      exact (ih (by omega)).mono fun q k hqk => ⟨hqk.1, by omega⟩

theorem stepBack_lockstep (hname : name.length < buf.length) :
    Lockstep (Shows m) (stepBack m p name) (dropName buf name) := by
  have hp := h.pointer
  rw [stepBack, dropName]
  split
  · have hback := h.back (k := buf.length - 1) (by omega)
    rw [show ((buf.length - 1 : ℕ) : ℤ) = p - 1 by omega] at hback
    exact .ok hback
  split
  · next hdot =>
    have hlen : name.length = 1 := by rw [hdot]; rfl
    have hback := h.back (k := buf.length - 2) (by omega)
    rw [show ((buf.length - 2 : ℕ) : ℤ) = p - 2 by omega] at hback
    exact .ok hback
  split
  · have hsmall : p - 4 < 0 ↔ buf.length < 4 := by omega
    simp only [hsmall]
    split
    · exact .error _
    · have hscan := scanBack_lockstep (i := buf.length - 4) h (by omega)
      rw [show p - 4 = ((buf.length - 4 : ℕ) : ℤ) by omega]
      apply hscan.bind_right
      rintro q k ⟨rfl, hk⟩
      exact h.back (by omega)
  · exact .ok h

theorem copyParts_lockstep :
    Lockstep (fun r q => Shows r.1 r.2 q) (copyParts n path m p) (parts n path buf) := by
  induction n generalizing path m p buf with
  | zero =>
    cases path with
    | nil => exact .ok h
    | cons c path => exact .error _
  | succ n ih =>
    cases path with
    | nil => exact .ok h
    | cons c path =>
      have hfull : p = maxPath ↔ buf.length = maxPath := by
        rw [h.pointer]
        exact Int.natCast_inj
      rw [copyParts, parts]
      simp only [hfull]
      split
      · exact .error _
      next hroom =>
      obtain ⟨m', hstore, h'⟩ := h.store hroom ps1
      rw [hstore]
      refine (copyPart_lockstep h').bind fun r q _ hq hr => ?_
      obtain ⟨hpath, hshows, hname⟩ := hr
      obtain ⟨⟨part, -, hbuf, hpart⟩, -, -⟩ := copyName_spec hq (by simp)
      have hlen : q.2.2.length < q.2.1.length := by
        rw [hbuf, hpart]
        simp only [List.nil_append, List.length_append, List.length_singleton]
        omega
      rw [hname]
      refine (stepBack_lockstep hshows hlen).bind fun p' buf' _ _ hback => ?_
      rw [hpath]
      exact ih hback

end

/-- The buffer holds the string `path`. -/
structure Holds (m : Mem) (path : Path) : Prop where
  chars : ∀ i c, path[i]? = some c → m i = c
  zero : m path.length = 0

/-- What is returned for the string `path`. -/
def Returns (r : Mem × ℤ) (path : Path) : Prop := r.2 = path.length ∧ Holds r.1 path

theorem Shows.close (h : Shows m p buf) (hfull : buf.length ≠ maxPath) :
    ∃ m', Vfs.store m p 0 = .ok m' ∧ Returns (m', p) buf := by
  obtain ⟨m', hstore, h'⟩ := h.store hfull 0
  refine ⟨m', hstore, h.pointer, fun i c hc => ?_, ?_⟩
  · obtain ⟨hlt, -⟩ := List.getElem?_eq_some_iff.mp hc
    apply h'.chars
    rw [List.getElem?_append_left hlt]
    exact hc
  · apply h'.chars
    simp

theorem closeName_lockstep (h : Shows m p buf) :
    Lockstep Returns (closeEmpty m p >>= fun r => closeName r.1 r.2) (terminate buf) := by
  have hclose {m : Mem} {p : ℤ} {buf : Path} (h : Shows m p buf) : Lockstep Returns
      (closeName m p) (if buf.length = maxPath then .error .enametoolong else .ok buf) := by
    have hfull : p = maxPath ↔ buf.length = maxPath := by
      rw [h.pointer]
      exact Int.natCast_inj
    simp only [closeName, hfull]
    split
    · exact .error _
    · next hroom =>
      obtain ⟨m', hstore, hret⟩ := h.close hroom
      rw [hstore]
      exact .ok hret
  have hempty : p = 0 ↔ buf = [] := by
    rw [h.pointer, ← List.length_eq_zero_iff]
    exact Int.natCast_eq_zero
  rw [terminate]
  simp only [closeEmpty, hempty]
  split
  · next hnil =>
    subst hnil
    obtain ⟨m', hstore, h'⟩ := h.store (by decide) ps1
    rw [hstore]
    exact hclose h'
  · exact hclose h

theorem copyDir_shows (m : Mem) (path : Path) (hlen : curdir.length < maxPath) :
    ∃ m' p', copyDir m curdir path = .ok (m', p') ∧ Shows m' p' (startDir curdir path) := by
  have hempty : Shows m 0 [] := ⟨rfl, Nat.zero_le _, by simp⟩
  rw [copyDir, startDir]
  split
  · exact ⟨m, 0, rfl, hempty⟩
  split
  · rw [copyIn, if_pos hlen.le]
    refine ⟨_, _, rfl, rfl, hlen.le, fun i c hc => ?_⟩
    rw [hc]
    rfl
  · exact ⟨m, 0, rfl, hempty⟩

theorem canonicalizeAt_lockstep (m : Mem) (path : Path) (hlen : curdir.length < maxPath) :
    Lockstep Returns (canonicalizeAt m curdir path) (canonicalize curdir path) := by
  obtain ⟨m', p', hrun, hshows⟩ := copyDir_shows m (withoutDrive path) hlen
  rw [canonicalizeAt, hrun]
  exact (copyParts_lockstep hshows).bind fun r buf _ _ hr => closeName_lockstep hr

theorem Returns.unique {r : Mem × ℤ} (h : Returns r path) (h' : Returns r rest) : path = rest := by
  have hlen : path.length = rest.length := by
    have := h.1.symm.trans h'.1
    omega
  apply List.ext_getElem hlen
  intro i hi hi'
  rw [← h.2.chars i _ (List.getElem?_eq_getElem hi), h'.2.chars i _ (List.getElem?_eq_getElem hi')]

theorem canonicalizeAt_ok (hlen : curdir.length < maxPath) {r : Path} :
    (∃ x, canonicalizeAt m curdir path = .ok x ∧ Returns x r) ↔ canonicalize curdir path = .ok r := by
  have hrun := canonicalizeAt_lockstep m path hlen
  constructor
  · rintro ⟨x, hx, hret⟩
    rw [hx] at hrun
    generalize canonicalize curdir path = y at hrun
    cases hrun with
    | ok h => rw [h.unique hret]
  · intro hok
    rw [hok] at hrun
    exact hrun.of_ok

/-- `canonicalize` of a path without a drive letter returns its normal form. The error is that of the first part
that is too long or not allowed, or says that the result does not fit; and no access is outside the buffer. -/
theorem canonicalize_normalizes (m : Mem) (hcur : Canonical curdir) (hlen : curdir.length < maxPath)
    (hdrive : path[1]? ≠ some 58) :
    (∀ r, (∃ x, canonicalizeAt m curdir path = .ok x ∧ Returns x r) ↔
      ∃ ks, Untroubled (startNames curdir path) (components path) ∧
        normalForm (wholePath curdir path) = some ks ∧ (join ks).length < maxPath ∧ r = join ks) ∧
    (canonicalizeAt m curdir path = .error .einval ↔ ∃ pre c post ks,
      components path = pre ++ c :: post ∧ Untroubled (startNames curdir path) pre ∧
        kept (startNames curdir path) pre = some ks ∧ ¬TooLong ks c ∧ NotAllowed ks c) ∧
    (canonicalizeAt m curdir path = .error .enametoolong ↔
      (∃ pre c post ks, components path = pre ++ c :: post ∧
        Untroubled (startNames curdir path) pre ∧ kept (startNames curdir path) pre = some ks ∧
        TooLong ks c) ∨
      ∃ ks, Untroubled (startNames curdir path) (components path) ∧
        normalForm (wholePath curdir path) = some ks ∧ maxPath ≤ (join ks).length) ∧
    canonicalizeAt m curdir path ≠ .error .undefined := by
  have herror (e : Errno) := (canonicalizeAt_lockstep m path hlen).error_iff (e := e)
  rw [normalForm_wholePath hcur]
  simp only [canonicalizeAt_ok hlen, herror, ne_eq, canonicalize_ok hcur hlen,
    canonicalize_error hcur hlen, withoutDrive_eq hdrive, resolve_ok, resolve_error, Trouble, reduceCtorEq,
    false_and, true_and, or_false, false_or, and_assoc, and_false, exists_false,
    not_false_eq_true, implies_true]

/-- The path `../b/./c`, with a backslash for its second separator, in the directory `/a`. -/
theorem canonicalize_normalizes_dots :
    ∃ x, canonicalizeAt (fun _ => 0) [47, 97] [46, 46, 47, 98, 92, 46, 47, 99] = .ok x ∧
      Returns x [47, 98, 47, 99] := by
  have hcur : Canonical [47, 97] :=
    ⟨[[97]], by simpa using ⟨by decide, noSep_of_all (by decide), by decide, by decide⟩, rfl⟩
  have hres : resolve (startNames [47, 97] [46, 46, 47, 98, 92, 46, 47, 99])
      (components [46, 46, 47, 98, 92, 46, 47, 99]) = .ok [[98], [99]] := by decide
  apply ((canonicalize_normalizes _ hcur (by decide) (by decide)).1 _).mpr
  exact ⟨[[98], [99]], (resolve_ok.mp hres).1, by decide, by decide, rfl⟩

end SimpleKernel.Vfs
