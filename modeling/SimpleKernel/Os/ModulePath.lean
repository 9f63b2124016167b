import SimpleKernel.Vfs.PathBuffer

/-! The path of a module (`lib/moddb.c`). An access outside the `MAXPATH` bytes of `path` is `undefined`. -/
namespace SimpleKernel.Os.ModulePath

open Vfs (Path Mem Errno Shows load isSep ps1 dot maxPath)

/-- The characters of a string before its NUL. -/
abbrev Str := {s : Path // 0 ∉ s}

structure ModAlias where
  name : Str
  aliasName : Str

structure ModDb where
  modpaths : List Str
  aliases : List ModAlias

/-- A loop that copies a string as `f` while there is room for the zero, and notes of every character with the
pointer behind it what `note` says. -/
def copyLoop {β : Type} (f : UInt8 → UInt8) (note : β → UInt8 → ℤ → β) :
    Path → Mem → ℤ → β → Except Errno (Mem × ℤ × β)
  | [], m, p, b => .ok (m, p, b)
  | c :: s, m, p, b =>
    if p < maxPath - 1 then do
      let m ← Vfs.store m p (f c)
      copyLoop f note s m (p + 1) (note b c (p + 1))
    else .ok (m, p, b)

/-- The loop of `get_basename`. The base name is an offset in `buffer`, and `none` while it is `filename`. -/
def copyBase : Path → Mem → ℤ → Option ℤ → Except Errno (Mem × ℤ × Option ℤ) :=
  copyLoop id fun base c p => if isSep c then some p else base

/-- `get_basename` with the `MAXPATH` bytes of `path`; the end of the string too. -/
def getBasename (filename : Path) (m : Mem) : Except Errno (Mem × Option ℤ) := do
  let r ← copyBase filename m 0 none
  let m ← Vfs.store r.1 r.2.1 0
  .ok (m, r.2.2)

def lower (c : UInt8) : UInt8 := if 65 ≤ c ∧ c ≤ 90 then c + 32 else c

/-- A letter in the buffer becomes a small one. -/
def lowerAt (m : Mem) (p : ℤ) (c : UInt8) : Except Errno Mem :=
  if 65 ≤ c ∧ c ≤ 90 then Vfs.store m p (c + 32) else .ok m

/-- The loop that converts the base name, for at most so many rounds: the end and whether there is a dot. -/
def lowerFrom : ℕ → Mem → ℤ → Bool → Except Errno (Mem × ℤ × Bool)
  | 0, _, _, _ => .error .undefined
  | n + 1, m, s, dotted => do
    let c ← load m s
    if c = 0 then .ok (m, s, dotted)
    else
      let m ← lowerAt m s c
      lowerFrom n m (s + 1) (dotted || c == dot)

/-- The loop that copies the name in lower case. -/
def copyLower : Path → Mem → ℤ → Bool → Except Errno (Mem × ℤ × Bool) :=
  copyLoop lower fun dotted c _ => dotted || c == dot

/-- `memcpy` and `strcpy` into the buffer. -/
def copyTo : Path → Mem → ℤ → Except Errno (Mem × ℤ)
  | [], m, p => .ok (m, p)
  | c :: s, m, p => do
    let m ← Vfs.store m p c
    copyTo s m (p + 1)

/-- The string at `p`, of less than so many bytes. -/
def readFrom : ℕ → Mem → ℤ → Except Errno Path
  | 0, _, _ => .error .undefined
  | n + 1, m, p => do
    let c ← load m p
    if c = 0 then .ok [] else (readFrom n m (p + 1)).map (c :: ·)

def modtypeDll : UInt32 := 1
def modtypeExe : UInt32 := 2

def isImage (type : UInt32) : Bool := type &&& (modtypeExe ||| modtypeDll) != 0

/-- `.exe` or `.dll`. -/
def extension (type : UInt32) : Path :=
  if type &&& modtypeExe ≠ 0 then [dot, 101, 120, 101] else [dot, 100, 108, 108]

/-- What a name without a dot gets, if `room` says so. -/
def suffix (room : Bool) (type : UInt32) (dotted : Bool) : Path :=
  if !dotted && isImage type && room then extension type else []

/-- The extension, if any, and the zero are written behind a name. -/
def addExtension (room : ℤ → Bool) (type : UInt32) (r : Mem × ℤ × Bool) : Except Errno Mem := do
  let (m, p, dotted) := r
  let r ← copyTo (suffix (room p) type dotted) m p
  Vfs.store r.1 r.2 0

/-- The first alias for `base` that the test of the length lets pass. -/
def findAlias (aliases : List ModAlias) (base : Path) (p : ℤ) : Option ModAlias :=
  aliases.find? fun ma => base = ma.name ∧ p + ma.name.1.length < maxPath - 1

/-- The path that is built with `dir`. -/
def buildPath (aliases : List ModAlias) (name : Path) (type : UInt32) (dir : Path) (m : Mem) : Except Errno Mem := do
  let m ← Vfs.copyIn m dir
  let m ← Vfs.store m dir.length ps1
  let basename : ℤ := dir.length + 1
  let r ← copyLower name m basename false
  let m ← addExtension (fun p => p + 4 < maxPath - 1) type r
  let base ← readFrom maxPath m basename
  match findAlias aliases base basename with
  | some ma => (copyTo (ma.aliasName.1 ++ [0]) m basename).map Prod.fst
  | none => .ok m

/-- `find_in_modpaths` from the path number `i` on; `access i` says which files the test in that round finds. -/
def findInModpaths (access : ℕ → Path → Bool) (aliases : List ModAlias) (name : Path) (type : UInt32) :
    ℕ → List Str → Mem → Except Errno (Mem × Option ℤ)
  | _, [], m => .ok (m, none)
  | i, dir :: dirs, m =>
    if maxPath - 2 < dir.1.length then findInModpaths access aliases name type (i + 1) dirs m
    else do
      let m ← buildPath aliases name type dir m
      let path ← readFrom maxPath m 0
      if access i path then .ok (m, some (dir.1.length + 1))
      else findInModpaths access aliases name type (i + 1) dirs m

/-- `get_module_name`: the buffer and the offset of the base name. -/
def getModuleName (access : ℕ → Path → Bool) (db : ModDb) (m : Mem) (name : Path) (type : UInt32) :
    Except Errno (Mem × Option ℤ) :=
  if name.any isSep then do
    let (m, basename) ← getBasename name m
    match basename with
    -- the base name is `name` itself, and the zero is written behind that
    | none => .error .undefined
    | some basename =>
      let r ← lowerFrom maxPath m basename false
      let m ← addExtension (fun _ => true) type r
      let path ← readFrom maxPath m 0
      .ok (m, if access 0 path then some basename else none)
  else findInModpaths access db.aliases name type 0 db.modpaths m

/-- `base` is the last component of `dir ++ base`. -/
structure LastPart (dir base : Path) : Prop where
  sep : dir.getLast?.any isSep
  base : ∀ c ∈ base, isSep c = false

/-- No access is outside the buffer, and a base name that is returned is the last component of the string in
the buffer, which is the path of a file that was found. -/
def Sound (access : ℕ → Path → Bool) (r : Except Errno (Mem × Option ℤ)) : Prop :=
  ∃ m b, r = .ok (m, b) ∧ ∀ p, b = some p → ∃ i dir base,
    readFrom maxPath m 0 = .ok (dir ++ base) ∧ p = dir.length ∧ access i (dir ++ base) ∧ LastPart dir base

/-- The base name under which a name is looked up when there are `room` bytes for it and its zero. -/
def lookupName (room : ℕ) (name : Path) (type : UInt32) : Path :=
  let base := name.take room
  base.map lower ++ suffix (base.length + 4 < room) type (dot ∈ base)

/-- An alias that is put in the place of `name` behind `dir` fits, and is no path. -/
def AliasFits (aliases : List ModAlias) (name : Path) (type : UInt32) (dir : Path) : Prop :=
  ∀ ma, findAlias aliases (lookupName (maxPath - 2 - dir.length) name type) (dir.length + 1) = some ma →
    dir.length + 1 + ma.aliasName.1.length < maxPath ∧ ∀ c ∈ ma.aliasName.1, isSep c = false

/-- A name with a separator has one in the bytes that are copied and leaves room for the extension that its last
component needs. For another name every alias that is put in its place fits, and is no path. -/
def Fits (db : ModDb) (name : Path) (type : UInt32) : Prop :=
  if name.any isSep then ∃ dir base, name.take (maxPath - 1) = dir ++ base ∧ LastPart dir base ∧
    (dot ∈ base ∨ isImage type = false ∨ name.length + 4 < maxPath)
  else ∀ dir ∈ db.modpaths, dir.1.length ≤ maxPath - 2 → AliasFits db.aliases name type dir

variable {m m' : Mem} {p : ℤ} {b : Option ℤ} {buf l r s name dir base : Path} {c : UInt8} {n : ℕ} {d : Bool}
  {db : ModDb} {t : UInt32} {access : ℕ → Path → Bool}

theorem store_full (h : Shows m p buf) (hfull : buf.length = maxPath) (c : UInt8) :
    Vfs.store m p c = .error .undefined := by
  have hp := h.pointer
  exact if_neg (by omega)

theorem copyTo_shows (h : Shows m p buf) (hfit : buf.length + s.length ≤ maxPath) :
    ∃ m', copyTo s m p = .ok (m', p + s.length) ∧ Shows m' (p + s.length) (buf ++ s) := by
  induction s generalizing m p buf with
  | nil => exact ⟨m, by simp [copyTo], by simpa using h⟩
  | cons c s ih =>
    rw [List.length_cons] at hfit
    obtain ⟨m₁, hstore, h₁⟩ := h.store (by omega) c
    obtain ⟨m', hrun, h'⟩ := ih h₁ (by rw [List.length_append, List.length_singleton]; omega)
    rw [add_assoc, add_comm 1] at hrun h'
    rw [List.append_assoc] at h'
    refine ⟨m', ?_, h'⟩
    rw [copyTo, hstore]
    exact hrun

theorem copyTo_undefined (h : Shows m p buf) (hfit : maxPath < buf.length + s.length) :
    copyTo s m p = .error .undefined := by
  induction s generalizing m p buf with
  | nil =>
    have := h.room
    simp only [List.length_nil] at hfit
    omega
  | cons c s ih =>
    rw [List.length_cons] at hfit
    rw [copyTo]
    by_cases hfull : buf.length = maxPath
    · rw [store_full h hfull]
      rfl
    · obtain ⟨m₁, hstore, h₁⟩ := h.store hfull c
      rw [hstore]
      exact ih h₁ (by rw [List.length_append, List.length_singleton]; omega)

theorem copyLoop_shows {β : Type} {f : UInt8 → UInt8} {g : β → UInt8 → ℤ → β} {b : β} {x : Path} {k : ℕ}
    (Q : Path → β → Prop) (h : Shows m p (buf ++ x.map f)) (hk : buf.length + x.length + k = maxPath - 1) (hb : Q x b)
    (hnote : ∀ x c b, Q x b → Q (x ++ [c]) (g b c (buf.length + x.length + 1))) :
    ∃ m' p' b', copyLoop f g s m p b = .ok (m', p', b') ∧ Shows m' p' (buf ++ (x ++ s.take k).map f) ∧
      Q (x ++ s.take k) b' := by
  have hp := h.pointer
  rw [List.length_append, List.length_map] at hp
  induction s generalizing m p x b k with
  | nil => exact ⟨m, p, b, rfl, by simpa using h, by simpa using hb⟩
  | cons c s ih =>
    rw [copyLoop]
    cases k with
    | zero =>
      rw [if_neg (by omega)]
      exact ⟨m, p, b, rfl, by simpa using h, by simpa using hb⟩
    | succ k =>
      obtain ⟨m₁, hstore, h₁⟩ := h.store (by rw [List.length_append, List.length_map]; omega) (f c)
      have hb₁ := hnote x c b hb
      rw [← Nat.cast_add, ← hp] at hb₁
      obtain ⟨m', p', b', hrun, h', hb'⟩ := ih (x := x ++ [c]) (k := k) (by simpa using h₁) (by simp; omega) hb₁
        (by simp; omega)
      rw [List.append_assoc] at h' hb'
      rw [if_pos (by omega), hstore]
      exact ⟨m', p', b', hrun, h', hb'⟩

theorem copyLower_shows {k : ℕ} (h : Shows m p buf) (hk : buf.length + k = maxPath - 1) :
    ∃ m' p', copyLower s m p false = .ok (m', p', decide (dot ∈ s.take k)) ∧
      Shows m' p' (buf ++ (s.take k).map lower) := by
  obtain ⟨m', p', b', hrun, h', rfl⟩ := copyLoop_shows (s := s) (g := fun d c _ => d || c == dot)
    (fun x d => d = decide (dot ∈ x)) (x := []) (by simpa using h) hk rfl fun x c d hd => by
      rw [hd]
      simp [eq_comm, beq_eq_decide]
  exact ⟨m', p', hrun, h'⟩

/-- `b` is the offset of the last component of `buf`, or `none` where that is all of it. -/
def Based (buf : Path) : Option ℤ → Prop
  | none => ∀ c ∈ buf, isSep c = false
  | some b => ∃ dir base, buf = dir ++ base ∧ b = dir.length ∧ LastPart dir base

theorem Based.snoc (h : Based buf b) (hp : p = buf.length) :
    Based (buf ++ [c]) (if isSep c then some (p + 1) else b) := by
  split
  · next hc => exact ⟨buf ++ [c], [], by simp, by simp [hp], by simp [hc], by simp⟩
  next hc =>
  cases b with
  | none => simpa [Based, hc, or_imp, forall_and] using h
  | some b =>
    obtain ⟨dir, base, rfl, hb, hsep, hbase⟩ := h
    refine ⟨dir, base ++ [c], by simp, hb, hsep, ?_⟩
    simpa [hc, or_imp, forall_and] using hbase

theorem copyBase_shows (m : Mem) (s : Path) : ∃ m' p' b', copyBase s m 0 none = .ok (m', p', b') ∧
    Shows m' p' (s.take (maxPath - 1)) ∧ Based (s.take (maxPath - 1)) b' := by
  have hnil : Shows m 0 ([] ++ [].map id) := ⟨rfl, Nat.zero_le _, by simp⟩
  have hnone : Based [] none := by simp [Based]
  obtain ⟨m', p', b', hrun, h', hb'⟩ := copyLoop_shows (s := s) (b := none)
    (g := fun base c p => if isSep c then some p else base) Based hnil (Nat.zero_add _) hnone
    fun x c b hb => hb.snoc (p := ([] : Path).length + x.length) (by simp)
  exact ⟨m', p', b', hrun, by simpa using h', hb'⟩

theorem Shows.overwrite (h : Shows m p (l ++ c :: r)) (d : UInt8) :
    ∃ m', Vfs.store m l.length d = .ok m' ∧ Shows m' p (l ++ d :: r) := by
  obtain ⟨hp, hle, hchars⟩ := h
  rw [List.length_append, List.length_cons] at hp hle
  refine ⟨_, if_pos ⟨by omega, by omega⟩, by simp [hp], by simpa using hle, fun i e he => ?_⟩
  rw [Int.toNat_natCast]
  by_cases hi : i = l.length
  · subst hi
    rw [List.getElem?_append_right le_rfl, Nat.sub_self, List.getElem?_cons_zero, Option.some.injEq] at he
    rw [Function.update_self, he]
  · rw [Function.update_of_ne hi]
    apply hchars
    by_cases hlt : i < l.length
    · rw [List.getElem?_append_left hlt] at he ⊢
      exact he
    · rw [List.getElem?_append_right (by omega), List.getElem?_cons, if_neg (by omega)] at he ⊢
      exact he

theorem load_at (h : Shows m p (l ++ c :: r)) : load m l.length = .ok c := by
  have hlt : l.length < (l ++ c :: r).length := by simp
  rw [(h.load hlt).1, h.chars _ c (by simp)]

theorem readFrom_shows (h : Shows m p (l ++ s ++ 0 :: r)) (hs : 0 ∉ s) (hn : s.length < n) :
    readFrom n m l.length = .ok s := by
  induction s generalizing l n with
  | nil =>
    obtain ⟨n, rfl⟩ : ∃ k, n = k + 1 := ⟨n - 1, by omega⟩
    rw [List.append_nil] at h
    rw [readFrom, load_at h]
    rfl
  | cons c s ih =>
    obtain ⟨n, rfl⟩ : ∃ k, n = k + 1 := ⟨n - 1, by omega⟩
    rw [List.mem_cons, not_or] at hs
    rw [List.append_assoc] at h
    rw [readFrom, load_at h]
    have hrest := ih (l := l ++ [c]) (by simpa using h) hs.2 (Nat.lt_of_succ_lt_succ hn)
    rw [List.length_append, List.length_singleton] at hrest
    change (if c = 0 then _ else _) = _
    rw [if_neg (Ne.symm hs.1), ← Nat.cast_succ, hrest]
    rfl

theorem lowerFrom_shows (h : Shows m p (l ++ s ++ 0 :: r)) (hs : 0 ∉ s) (hn : s.length < n) :
    ∃ m', lowerFrom n m l.length d = .ok (m', l.length + s.length, d || decide (dot ∈ s)) ∧
      Shows m' p (l ++ s.map lower ++ 0 :: r) := by
  induction s generalizing m l n d with
  | nil =>
    obtain ⟨n, rfl⟩ : ∃ k, n = k + 1 := ⟨n - 1, by omega⟩
    refine ⟨m, ?_, h⟩
    rw [List.append_nil] at h
    rw [lowerFrom, load_at h]
    simp
    rfl
  | cons c s ih =>
    obtain ⟨n, rfl⟩ : ∃ k, n = k + 1 := ⟨n - 1, by omega⟩
    rw [List.mem_cons, not_or] at hs
    rw [List.append_assoc] at h
    rw [lowerFrom, load_at h]
    -- the byte in lower case stands there after this turn
    obtain ⟨m₁, hstore, h₁⟩ : ∃ m₁, lowerAt m l.length c = .ok m₁ ∧
        Shows m₁ p (l ++ lower c :: (s ++ 0 :: r)) := by
      rw [lowerAt, lower]
      split
      · exact Shows.overwrite h _
      · exact ⟨m, rfl, h⟩
    obtain ⟨m', hrun, h'⟩ := ih (l := l ++ [lower c]) (by simpa using h₁) hs.2
      (Nat.lt_of_succ_lt_succ hn)
    rw [List.length_append, List.length_singleton] at hrun
    refine ⟨m', ?_, by simpa using h'⟩
    change (if c = 0 then _ else _) = _
    rw [if_neg (Ne.symm hs.1), hstore]
    refine hrun.trans ?_
    have hdot : (d || c == dot || decide (dot ∈ s)) = (d || decide (dot ∈ c :: s)) := by
      simp [eq_comm, beq_eq_decide, Bool.or_assoc]
    rw [hdot, List.length_cons, Nat.cast_succ, Nat.cast_succ, add_assoc, add_comm 1]

theorem length_extension : (extension t).length = 4 := by
  rw [extension]
  split <;> rfl

theorem addExtension_shows (h : Shows m p buf) {f : ℤ → Bool}
    (hfit : buf.length + (suffix (f p) t d).length < maxPath) :
    ∃ m' p', addExtension f t (m, p, d) = .ok m' ∧ Shows m' p' (buf ++ suffix (f p) t d ++ [0]) := by
  obtain ⟨m₁, hcopy, h₁⟩ := copyTo_shows h hfit.le
  obtain ⟨m', hstore, h'⟩ := h₁.store (by rw [List.length_append]; omega) 0
  refine ⟨m', _, ?_, h'⟩
  rw [addExtension, hcopy]
  exact hstore

theorem addExtension_undefined (h : Shows m p buf) {f : ℤ → Bool}
    (hfit : maxPath ≤ buf.length + (suffix (f p) t d).length) :
    addExtension f t (m, p, d) = .error .undefined := by
  rw [addExtension]
  rcases hfit.lt_or_eq with hfit | hfit
  · rw [copyTo_undefined h hfit]
    rfl
  · obtain ⟨m', hcopy, h'⟩ := copyTo_shows h hfit.ge
    rw [hcopy]
    exact store_full h' (by rw [List.length_append]; exact hfit.symm) 0

theorem zero_notMem_suffix {f : Bool} : 0 ∉ suffix f t d := by
  unfold suffix extension
  split_ifs <;> decide

theorem suffix_no_sep {f : Bool} : ∀ c ∈ suffix f t d, isSep c = false := by
  unfold suffix extension
  split_ifs <;> simp [isSep, ps1, Vfs.ps2, dot]

theorem lower_eq_iff {x : UInt8} (hx : x < 97) (hletter : ¬(65 ≤ x ∧ x ≤ 90)) : lower c = x ↔ c = x := by
  rw [lower]
  split
  · next hc =>
    simp only [UInt8.le_iff_toNat_le, UInt8.lt_iff_toNat_lt, ← UInt8.toNat_inj, UInt8.toNat_add] at *
    simp at *
    omega
  · rfl

theorem mem_map_lower {x : UInt8} (hx : x < 97) (hletter : ¬(65 ≤ x ∧ x ≤ 90)) : x ∈ s.map lower ↔ x ∈ s := by
  simp [lower_eq_iff hx hletter]

theorem lower_no_sep (hs : ∀ c ∈ s, isSep c = false) : ∀ c ∈ s.map lower, isSep c = false := by
  intro d hd
  obtain ⟨c, hc, rfl⟩ := List.mem_map.mp hd
  have hsep := hs c hc
  simp only [isSep, Bool.or_eq_false_iff, beq_eq_false_iff_ne] at hsep ⊢
  rwa [Ne, Ne, lower_eq_iff (by decide) (by decide), lower_eq_iff (by decide) (by decide)]

theorem LastPart.eq_nil {u : Path} (h : LastPart dir (u ++ base)) (h' : LastPart (dir ++ u) base) : u = [] := by
  rcases List.eq_nil_or_concat u with rfl | ⟨u, c, rfl⟩
  · rfl
  · have hc := h.base c (by simp)
    have hsep := h'.sep
    rw [List.concat_eq_append, ← List.append_assoc, List.getLast?_concat, Option.any_some, hc] at hsep
    cases hsep

theorem LastPart.unique {dir' base' : Path} (h : LastPart dir base) (h' : LastPart dir' base')
    (heq : dir ++ base = dir' ++ base') : dir = dir' ∧ base = base' := by
  rcases List.append_eq_append_iff.mp heq with ⟨u, rfl, rfl⟩ | ⟨u, rfl, rfl⟩
  · rw [h.eq_nil h']
    simp
  · rw [h'.eq_nil h]
    simp

section paths

/-- What stands behind `dir` in the end. -/
def target (aliases : List ModAlias) (name : Path) (t : UInt32) (dir : Path) : Path :=
  let base := lookupName (maxPath - 2 - dir.length) name t
  (findAlias aliases base (dir.length + 1)).elim base fun ma => ma.aliasName

theorem length_lookupName_le {k : ℕ} : (lookupName k s t).length ≤ k := by
  have htake : (s.take k).length ≤ k := List.length_take_le k s
  rw [lookupName, List.length_append, List.length_map, suffix]
  split
  · next hneeds =>
    simp only [Bool.and_eq_true, decide_eq_true_eq] at hneeds
    rw [length_extension]
    omega
  · exact htake

theorem zero_notMem_lookupName {k : ℕ} (hname : 0 ∉ name) : 0 ∉ lookupName k name t := by
  rw [lookupName, List.mem_append, not_or, mem_map_lower (by decide) (by decide)]
  exact ⟨fun h => hname (List.mem_of_mem_take h), zero_notMem_suffix⟩

theorem name_shows (m : Mem) (hname : 0 ∉ name) (hdir : dir.length ≤ maxPath - 2) :
    let base := lookupName (maxPath - 2 - dir.length) name t
    ∃ m' p', Shows m' p' (dir ++ [ps1] ++ base ++ [0]) ∧ ∀ aliases, buildPath aliases name t dir m =
      match findAlias aliases base (dir.length + 1) with
      | some ma => (copyTo (ma.aliasName.1 ++ [0]) m' (dir.length + 1)).map Prod.fst
      | none => .ok m' := by
  have hmax : maxPath = 256 := rfl
  have hcopied : Shows (fun i => dir[i]?.getD (m i)) dir.length dir := ⟨rfl, by omega, fun i c hc => by simp [hc]⟩
  obtain ⟨m₁, hsep, h₁⟩ := hcopied.store (by omega) ps1
  have hlen : (dir ++ [ps1]).length = dir.length + 1 := by simp
  obtain ⟨m₂, p₂, hlower, h₂⟩ := copyLower_shows (s := name) (k := maxPath - 2 - dir.length) h₁ (by omega)
  have hle := length_lookupName_le (k := maxPath - 2 - dir.length) (s := name) (t := t)
  have hzero := zero_notMem_lookupName (k := maxPath - 2 - dir.length) (t := t) hname
  -- the test of the room is that of `lookupName`
  have hroom : decide (p₂ + 4 < maxPath - 1) =
      decide ((name.take (maxPath - 2 - dir.length)).length + 4 < maxPath - 2 - dir.length) := by
    have hp₂ := h₂.pointer
    rw [List.length_append, hlen, List.length_map] at hp₂
    rw [decide_eq_decide]
    omega
  rw [lookupName] at hle hzero ⊢
  rw [← hroom] at hle hzero ⊢
  obtain ⟨m₃, p₃, hext, h₃⟩ := addExtension_shows (f := fun p => p + 4 < maxPath - 1) (t := t)
    (d := decide (dot ∈ name.take (maxPath - 2 - dir.length))) h₂ (by
    rw [List.length_append] at hle
    rw [List.length_append]
    omega)
  rw [List.append_assoc (dir ++ [ps1])] at h₃
  have hread := readFrom_shows h₃ hzero (show _ < maxPath by omega)
  rw [hlen, Nat.cast_succ] at hread
  refine ⟨m₃, p₃, h₃, fun aliases => ?_⟩
  have hcopy : Vfs.copyIn m dir = .ok fun i => dir[i]?.getD (m i) := if_pos (by omega)
  simp only [buildPath, hcopy, hsep, hlower, hext, hread, bind, Except.bind]

theorem buildPath_shows (m : Mem) {aliases : List ModAlias} (hname : 0 ∉ name) (hzero : 0 ∉ dir)
    (hdir : dir.length ≤ maxPath - 2) :
    let found := target aliases name t dir
    (dir.length + 1 + found.length < maxPath → ∃ m', buildPath aliases name t dir m = .ok m' ∧
      readFrom maxPath m' 0 = .ok (dir ++ [ps1] ++ found)) ∧
    (maxPath ≤ dir.length + 1 + found.length → buildPath aliases name t dir m = .error .undefined) := by
  have hmax : maxPath = 256 := rfl
  obtain ⟨m', p', h, hbuild⟩ := name_shows m hname hdir
  have hread {m : Mem} {p : ℤ} {base : Path} (h : Shows m p (dir ++ [ps1] ++ base ++ [0])) (hbase : 0 ∉ base) :
      readFrom maxPath m 0 = .ok (dir ++ [ps1] ++ base) := by
    have hroom := h.room
    rw [List.length_append, List.length_singleton] at hroom
    refine readFrom_shows (l := []) h ?_ (by omega)
    simp [hzero, hbase, ps1]
  rw [hbuild, target]
  cases hfind : findAlias aliases (lookupName (maxPath - 2 - dir.length) name t) (dir.length + 1) with
  | none =>
    have hle := length_lookupName_le (k := maxPath - 2 - dir.length) (s := name) (t := t)
    refine ⟨fun _ => ⟨m', rfl, hread h (zero_notMem_lookupName hname)⟩, fun hfit => ?_⟩
    dsimp only [Option.elim] at hfit
    omega
  | some ma =>
    have hback := h.back (k := (dir ++ [ps1]).length) (by simp)
    rw [List.append_assoc (dir ++ [ps1]), List.take_left, List.length_append, List.length_singleton, Nat.cast_succ]
      at hback
    have hlen : (dir ++ [ps1]).length + (ma.aliasName.1 ++ [0]).length = dir.length + 1 + ma.aliasName.1.length + 1 := by
      simp
      omega
    dsimp only [Option.elim]
    constructor
    · intro hfit
      obtain ⟨m'', hcopy, h''⟩ := copyTo_shows (s := ma.aliasName.1 ++ [0]) hback (by omega)
      rw [hcopy]
      exact ⟨m'', rfl, hread (by rwa [← List.append_assoc] at h'') ma.aliasName.2⟩
    · intro hfit
      rw [copyTo_undefined hback (by omega)]
      rfl

variable {aliases : List ModAlias} {dirs : List Str} {i : ℕ}

theorem target_fits (hname : ∀ c ∈ name, isSep c = false) (hdir : dir.length ≤ maxPath - 2) :
    AliasFits aliases name t dir ↔ dir.length + 1 + (target aliases name t dir).length < maxPath ∧
      ∀ c ∈ target aliases name t dir, isSep c = false := by
  have hmax : maxPath = 256 := rfl
  rw [AliasFits, target]
  cases findAlias aliases (lookupName (maxPath - 2 - dir.length) name t) (dir.length + 1) with
  | some ma => simp
  | none =>
    have hle := length_lookupName_le (k := maxPath - 2 - dir.length) (s := name) (t := t)
    refine iff_of_true (by simp) ⟨by dsimp only [Option.elim]; omega, fun c hc => ?_⟩
    rw [Option.elim, lookupName, List.mem_append] at hc
    rcases hc with hc | hc
    · exact lower_no_sep (fun c hc => hname c (List.mem_of_mem_take hc)) c hc
    · exact suffix_no_sep c hc

theorem findInModpaths_cons (dirs : List Str) (i : ℕ) (m : Mem) {dir : Str} (hname : 0 ∉ name)
    (hdir : dir.1.length ≤ maxPath - 2)
    (hfit : dir.1.length + 1 + (target aliases name t dir).length < maxPath) :
    ∃ m', readFrom maxPath m' 0 = .ok (dir.1 ++ [ps1] ++ target aliases name t dir) ∧
      ∀ access, findInModpaths access aliases name t i (dir :: dirs) m =
        if access i (dir.1 ++ [ps1] ++ target aliases name t dir) then .ok (m', some (dir.1.length + 1))
        else findInModpaths access aliases name t (i + 1) dirs m' := by
  obtain ⟨m', hbuild, hread⟩ := (buildPath_shows m hname dir.2 hdir).1 hfit
  refine ⟨m', hread, fun access => ?_⟩
  rw [findInModpaths, if_neg (by omega), hbuild]
  simp only [bind, Except.bind, hread]

theorem findInModpaths_sound (hzero : 0 ∉ name) (hname : ∀ c ∈ name, isSep c = false)
    (h : ∀ dir ∈ dirs, dir.1.length ≤ maxPath - 2 → AliasFits aliases name t dir) :
    Sound access (findInModpaths access aliases name t i dirs m) := by
  induction dirs generalizing i m with
  | nil => exact ⟨m, none, rfl, by simp⟩
  | cons dir dirs ih =>
    have hrest {m : Mem} : Sound access (findInModpaths access aliases name t (i + 1) dirs m) :=
      ih fun d hd => h d (List.mem_cons_of_mem _ hd)
    by_cases hdir : dir.1.length ≤ maxPath - 2
    · obtain ⟨hfit, hsep⟩ := (target_fits hname hdir).mp (h dir List.mem_cons_self hdir)
      obtain ⟨m', hread, hrun⟩ := findInModpaths_cons dirs i m hzero hdir hfit
      rw [hrun]
      split
      · next hfound =>
        refine ⟨m', _, rfl, fun p hp => ⟨i, dir.1 ++ [ps1], _, hread, ?_, hfound, by simp [isSep], hsep⟩⟩
        rw [← Option.some.inj hp, List.length_append]
        rfl
      · exact hrest
    · rw [findInModpaths, if_pos (by omega)]
      exact hrest

theorem findInModpaths_fits (hzero : 0 ∉ name) (hname : ∀ c ∈ name, isSep c = false)
    (h : ∀ k, i ≤ k → Sound (fun j _ => j = k) (findInModpaths (fun j _ => j = k) aliases name t i dirs m)) :
    ∀ dir ∈ dirs, dir.1.length ≤ maxPath - 2 → AliasFits aliases name t dir := by
  induction dirs generalizing i m with
  | nil => simp
  | cons dir dirs ih =>
    by_cases hdir : dir.1.length ≤ maxPath - 2
    · have hfit : dir.1.length + 1 + (target aliases name t dir).length < maxPath := by
        by_contra hover
        obtain ⟨m', b, hrun, -⟩ := h i le_rfl
        rw [findInModpaths, if_neg (by omega), (buildPath_shows _ hzero dir.2 hdir).2 (by omega)] at hrun
        cases hrun
      obtain ⟨m', hread, hrun⟩ := findInModpaths_cons dirs i m hzero hdir hfit
      simp only [hrun] at h
      rintro d (_ | ⟨_, hd⟩)
      · intro _
        refine (target_fits hname hdir).mpr ⟨hfit, ?_⟩
        -- the file is found in this turn
        obtain ⟨m₁, b, hok, hsound⟩ := h i le_rfl
        rw [if_pos (by simp)] at hok
        cases hok
        obtain ⟨_, dir', base', hread', hlen, -, hlast⟩ := hsound _ rfl
        rw [hread, Except.ok.injEq] at hread'
        have hsame := List.append_inj_right hread' (by simp; omega)
        exact hsame ▸ hlast.base
      · refine ih (i := i + 1) (m := m') (fun k hk => ?_) d hd
        have hk' := h k (by omega)
        rwa [if_neg (by simp; omega)] at hk'
    · simp only [findInModpaths, if_pos (show maxPath - 2 < dir.1.length by omega)] at h
      rintro d (_ | ⟨_, hd⟩)
      · exact fun hle => absurd hle hdir
      · exact ih (fun k hk => h k (by omega)) d hd

end paths

theorem getModuleName_sep (db : ModDb) (t : UInt32) (hsep : name.any isSep) (hzero : 0 ∉ name) (m : Mem) :
    (∃ dir base, name.take (maxPath - 1) = dir ++ base ∧ LastPart dir base ∧
      let ext := suffix true t (decide (dot ∈ base))
      ((dir ++ base).length + ext.length < maxPath →
        ∃ m', readFrom maxPath m' 0 = .ok (dir ++ (base.map lower ++ ext)) ∧ ∀ access, getModuleName access db m name t =
          .ok (m', if access 0 (dir ++ (base.map lower ++ ext)) then some (dir.length : ℤ) else none)) ∧
      (maxPath ≤ (dir ++ base).length + ext.length →
        ∀ access, getModuleName access db m name t = .error .undefined)) ∨
    (∀ c ∈ name.take (maxPath - 1), isSep c = false) ∧
      ∀ access, getModuleName access db m name t = .error .undefined := by
  have hmax : maxPath = 256 := rfl
  obtain ⟨m₁, p₁, b, hcopy, h₁, hbased⟩ := copyBase_shows m name
  have hcut : (name.take (maxPath - 1)).length ≤ maxPath - 1 := List.length_take_le _ _
  obtain ⟨m₂, hstore, h₂⟩ := h₁.store (by omega) 0
  have hbase : getBasename name m = .ok (m₂, b) := by
    simp only [getBasename, hcopy, hstore, bind, Except.bind]
  cases b with
  | none =>
    refine .inr ⟨hbased, fun access => ?_⟩
    rw [getModuleName, if_pos hsep, hbase]
    rfl
  | some b =>
    obtain ⟨dir, base, heq, rfl, hlast⟩ := hbased
    have hzero' : 0 ∉ dir ++ base := heq ▸ fun h => hzero (List.mem_of_mem_take h)
    rw [List.mem_append, not_or] at hzero'
    rw [heq] at h₂ hcut
    rw [List.length_append] at hcut
    obtain ⟨m₃, hlower, h₃⟩ := lowerFrom_shows (n := maxPath) h₂ hzero'.2 (by omega)
    have h₄ := h₃.back (k := (dir ++ base.map lower).length) (by simp)
    rw [List.take_left] at h₄
    have hend : ((dir ++ base.map lower).length : ℤ) = dir.length + base.length := by simp
    rw [hend] at h₄
    rw [Bool.false_or] at hlower
    refine .inl ⟨dir, base, heq, hlast, fun hfit => ?_, fun hfit access => ?_⟩
    · obtain ⟨m₅, p₅, hext, h₅⟩ := addExtension_shows (f := fun _ => true)
        h₄ (by rwa [List.length_append, List.length_map, ← List.length_append])
      have hpath : 0 ∉ dir ++ (base.map lower ++ suffix true t (decide (dot ∈ base))) := by
        simp only [List.mem_append, not_or, mem_map_lower (x := 0) (by decide) (by decide)]
        exact ⟨hzero'.1, hzero'.2, zero_notMem_suffix⟩
      have hread := readFrom_shows (l := []) (by rwa [List.append_assoc dir] at h₅) hpath
        (by simpa [add_assoc] using hfit)
      refine ⟨m₅, hread, fun access => ?_⟩
      rw [List.length_nil, Nat.cast_zero] at hread
      simp only [getModuleName, if_pos hsep, hbase, hlower, hext, hread, bind, Except.bind]
    · have hext := addExtension_undefined (f := fun _ => true) h₄
        (by rwa [List.length_append, List.length_map, ← List.length_append])
      simp only [getModuleName, if_pos hsep, hbase, hlower, hext, bind, Except.bind]

theorem extension_fits_iff (heq : name.take (maxPath - 1) = dir ++ base) :
    (dir ++ base).length + (suffix true t (decide (dot ∈ base))).length < maxPath ↔
      dot ∈ base ∨ isImage t = false ∨ name.length + 4 < maxPath := by
  have hmax : maxPath = 256 := rfl
  have hlen : (dir ++ base).length = min (maxPath - 1) name.length := by rw [← heq, List.length_take]
  rw [hlen, suffix]
  by_cases hdot : dot ∈ base
  · simp [hdot]
    omega
  · cases isImage t with
    | false =>
      simp
      omega
    | true =>
      simp [hdot, length_extension]
      omega

/-- With every outcome of the tests for the file, the path stays inside its buffer and the base name is its last
component, if and only if the name and the aliases fit. -/
theorem getModuleName_sound_iff (db : ModDb) (name : Str) (t : UInt32) :
    (∀ access m, Sound access (getModuleName access db m name t)) ↔ Fits db name t := by
  rw [Fits]
  split
  · next hsep =>
    constructor
    · intro h
      obtain ⟨m', b, hok, -⟩ := h (fun _ _ => false) fun _ => 0
      rcases getModuleName_sep db t hsep name.2 fun _ => 0 with
        ⟨dir, base, heq, hlast, -, hover⟩ | ⟨-, hundefined⟩
      · refine ⟨dir, base, heq, hlast, (extension_fits_iff heq).mp (not_le.mp fun hle => ?_)⟩
        rw [hover hle] at hok
        cases hok
      · rw [hundefined] at hok
        cases hok
    · rintro ⟨dir, base, heq, hlast, hfits⟩ access m
      rcases getModuleName_sep db t hsep name.2 m with
        ⟨dir', base', heq', hlast', hin, -⟩ | ⟨hnone, -⟩
      · obtain ⟨rfl, rfl⟩ := hlast.unique hlast' (heq.symm.trans heq')
        obtain ⟨m', hread, hrun⟩ := hin ((extension_fits_iff heq).mpr hfits)
        refine ⟨m', _, hrun access, fun p hp => ?_⟩
        split at hp
        · next hfound =>
          refine ⟨0, dir, _, hread, (Option.some.inj hp).symm, hfound, hlast.sep, fun c hc => ?_⟩
          rcases List.mem_append.mp hc with hc | hc
          · exact lower_no_sep hlast.base c hc
          · exact suffix_no_sep c hc
        · cases hp
      · obtain ⟨c, hc, hsep⟩ := (Option.any_eq_true _ _).mp hlast.sep
        have hmem : c ∈ name.1.take (maxPath - 1) := by
          rw [heq]
          exact List.mem_append_left _ (List.mem_of_getLast? hc)
        rw [hnone c hmem] at hsep
        cases hsep
  · next hsep =>
    have hname : ∀ c ∈ name.1, isSep c = false := by simpa using hsep
    have hrun (access : ℕ → Path → Bool) (m : Mem) :
        getModuleName access db m name t = findInModpaths access db.aliases name t 0 db.modpaths m := if_neg hsep
    simp only [hrun]
    constructor
    · intro h
      exact findInModpaths_fits name.2 hname fun k _ => h _ fun _ => 0
    · intro h access m
      exact findInModpaths_sound name.2 hname h

/-- A path of 252 bytes without an extension. -/
theorem extension_behind_path : ∃ (name : Str) (db : ModDb), name.1.length ≤ maxPath - 1 ∧
    ¬∀ access m, Sound access (getModuleName access db m name modtypeDll) := by
  obtain ⟨base, hlen, hall⟩ : ∃ base : Path, base.length = 251 ∧ ∀ c ∈ base, c = 97 :=
    ⟨List.replicate 251 97, List.length_replicate, fun c => List.eq_of_mem_replicate⟩
  have hnot {x : UInt8} (hx : x ≠ 97) : x ∉ base := fun hmem => hx (hall x hmem)
  have hbase : LastPart [ps1] base := ⟨rfl, fun c hc => by rw [hall c hc]; rfl⟩
  have hzero : 0 ∉ ps1 :: base := by simp [hnot, ps1]
  have htake : (ps1 :: base).take (maxPath - 1) = [ps1] ++ base := List.take_of_length_le (by simp [hlen, maxPath])
  refine ⟨⟨ps1 :: base, hzero⟩, ⟨[], []⟩, by simp [hlen, maxPath], fun h => ?_⟩
  obtain ⟨m', b, hok, -⟩ := h (fun _ _ => false) fun _ => 0
  rcases getModuleName_sep ⟨[], []⟩ modtypeDll (show (ps1 :: base).any isSep by simp [isSep]) hzero
    fun _ => 0 with ⟨dir, base', heq, hlast, -, hover⟩ | ⟨-, hundefined⟩
  · obtain ⟨rfl, rfl⟩ := hbase.unique hlast (htake.symm.trans heq)
    have himage : isImage modtypeDll = true := by decide
    have hfit := (extension_fits_iff (t := modtypeDll) htake).not.mpr
      (by simp [hnot, dot, himage, hlen, maxPath])
    rw [hover (not_lt.mp hfit)] at hok
    cases hok
  · rw [hundefined] at hok
    cases hok

end SimpleKernel.Os.ModulePath
