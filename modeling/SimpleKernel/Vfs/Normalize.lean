import Mathlib.Data.List.Flatten
import Mathlib.Data.List.TakeWhile
import SimpleKernel.Vfs.Paths

/-! `canonicalize` as component normalisation: the parts between separators are taken one by one,
and the first part that does not fit or is not allowed decides about the error. -/
namespace SimpleKernel.Vfs

variable {buf name path rest curdir : Path} {ks ks' cs ds pre post : List Path} {c : Path} {e : Errno}
  {n : ℕ}

def isControl (c : UInt8) : Bool := 0 < c ∧ c < 32

/-- The parts of a path between its separators, the empty ones too. -/
def components (path : Path) : List Path := path.splitOnP isSep

/-- What is kept of the parts `cs` behind the names `ks`. -/
def kept (ks cs : List Path) : Option (List Path) := cs.foldlM addName ks

/-- The part up to its first control character. -/
def printable (c : Path) : Path := c.takeWhile fun x => !isControl x

/-- The part, up to its first control character, does not fit behind the names. -/
def TooLong (ks : List Path) (c : Path) : Prop :=
  maxPath < (flat ks).length + 1 + (printable c).length

instance : Decidable (TooLong ks c) := by
  unfold TooLong
  infer_instance

/-- The part has a control character, or is a `..` that has no name to remove. -/
def NotAllowed (ks : List Path) (c : Path) : Prop :=
  (∃ x ∈ c, isControl x = true) ∨ c = [dot, dot] ∧ ks = []

/-- All parts fit and are allowed. -/
structure Untroubled (ks cs : List Path) : Prop where
  noControl : ∀ c ∈ cs, ∀ x ∈ c, isControl x = false
  room : ∀ pre c post ks', cs = pre ++ c :: post → kept ks pre = some ks' → ¬TooLong ks' c
  removable : kept ks cs ≠ none

@[simp] theorem kept_nil : kept ks [] = some ks := rfl

theorem kept_cons : kept ks (c :: cs) = (addName ks c).bind (kept · cs) := List.foldlM_cons

theorem addName_eq_none : addName ks c = none ↔ c = [dot, dot] ∧ ks = [] := by
  rw [addName]
  split
  · next hdrop =>
    have hne : c ≠ [dot, dot] := by
      rintro rfl
      simp at hdrop
    simp [hne]
  · split
    · next hdots =>
      simp [hdots]
    · next hdots => simp [hdots]

theorem printable_eq_self : printable c = c ↔ ∀ x ∈ c, isControl x = false := by
  rw [printable]
  simp

theorem printable_ne_self : printable c ≠ c ↔ ∃ x ∈ c, isControl x = true := by
  rw [Ne, printable_eq_self]
  simp

/-! One part after the other. -/

/-- The parts are taken one by one behind the names `ks`. -/
def resolve : List Path → List Path → Except Errno (List Path)
  | ks, [] => .ok ks
  | ks, c :: cs =>
    if TooLong ks c then .error .enametoolong
    else if printable c ≠ c then .error .einval
    else
      match addName ks c with
      | none => .error .einval
      | some ks' => resolve ks' cs

/-- The trouble that the part `c` makes behind the names `ks`. -/
def Trouble (ks : List Path) (c : Path) (e : Errno) : Prop :=
  e = .enametoolong ∧ TooLong ks c ∨ e = .einval ∧ ¬TooLong ks c ∧ NotAllowed ks c

theorem untroubled_nil : Untroubled ks [] :=
  ⟨by simp, by simp, by simp⟩

theorem untroubled_cons :
    Untroubled ks (c :: cs) ↔ (∀ x ∈ c, isControl x = false) ∧ ¬TooLong ks c ∧
      ∃ ks', addName ks c = some ks' ∧ Untroubled ks' cs := by
  constructor
  · rintro ⟨hcontrol, hroom, hremove⟩
    rw [kept_cons] at hremove
    cases hadd : addName ks c with
    | none =>
      rw [hadd] at hremove
      exact absurd rfl hremove
    | some ks' =>
      rw [hadd] at hremove
      refine ⟨hcontrol c List.mem_cons_self, hroom [] c cs ks rfl rfl, ks', rfl,
        fun d hd => hcontrol d (List.mem_cons_of_mem _ hd), ?_, hremove⟩
      intro pre d post ks'' hcs hpre
      apply hroom (c :: pre) d post ks'' (by rw [hcs]; rfl)
      rw [kept_cons, hadd]
      exact hpre
  · rintro ⟨hcontrol, hroom, ks', hadd, hrest⟩
    refine ⟨?_, ?_, ?_⟩
    · intro d hd
      rcases List.mem_cons.mp hd with rfl | hd
      · exact hcontrol
      · exact hrest.noControl d hd
    · intro pre d post ks'' hcs hpre
      cases pre with
      | nil =>
        obtain ⟨rfl, rfl⟩ := List.cons.inj hcs
        obtain rfl := Option.some.inj hpre
        exact hroom
      | cons p pre =>
        obtain ⟨rfl, rfl⟩ := List.cons.inj hcs
        rw [kept_cons, hadd] at hpre
        exact hrest.room pre d post ks'' rfl hpre
    · rw [kept_cons, hadd]
      exact hrest.removable

theorem resolve_ok : resolve ks cs = .ok ks' ↔ Untroubled ks cs ∧ kept ks cs = some ks' := by
  induction cs generalizing ks with
  | nil => simp [resolve, untroubled_nil]
  | cons c cs ih =>
    rw [resolve, untroubled_cons, kept_cons]
    split
    · next hlong => simp [hlong]
    next hroom =>
    split
    · next hcontrol =>
      rw [Ne, printable_eq_self] at hcontrol
      simp [hcontrol]
    next hcontrol =>
    rw [not_not, printable_eq_self] at hcontrol
    cases hadd : addName ks c with
    | none => simp
    | some ks₁ =>
      simp only [Option.bind_some, Option.some.injEq, exists_eq_left', hroom, not_false_eq_true,
        true_and]
      rw [ih, and_iff_right hcontrol]

theorem resolve_error : resolve ks cs = .error e ↔
    ∃ pre c post ks', cs = pre ++ c :: post ∧ Untroubled ks pre ∧ kept ks pre = some ks' ∧
      Trouble ks' c e := by
  induction cs generalizing ks with
  | nil => simp [resolve]
  | cons c cs ih =>
    -- the first part is in trouble, or one of the others behind what it leaves
    have hsplit : (∃ pre d post ks', c :: cs = pre ++ d :: post ∧ Untroubled ks pre ∧
        kept ks pre = some ks' ∧ Trouble ks' d e) ↔ Trouble ks c e ∨
        (∀ x ∈ c, isControl x = false) ∧ ¬TooLong ks c ∧ ∃ ks₁, addName ks c = some ks₁ ∧
          resolve ks₁ cs = .error e := by
      constructor
      · rintro ⟨pre, d, post, ks', hcs, hpre, hkept, htrouble⟩
        cases pre with
        | nil =>
          obtain ⟨rfl, rfl⟩ := List.cons.inj hcs
          obtain rfl := Option.some.inj hkept
          exact .inl htrouble
        | cons p pre =>
          obtain ⟨rfl, rfl⟩ := List.cons.inj hcs
          obtain ⟨hcontrol, hroom, ks₁, hadd, hrest⟩ := untroubled_cons.mp hpre
          rw [kept_cons, hadd] at hkept
          exact .inr ⟨hcontrol, hroom, ks₁, hadd, ih.mpr ⟨pre, d, post, ks', rfl, hrest, hkept,
            htrouble⟩⟩
      · rintro (htrouble | ⟨hcontrol, hroom, ks₁, hadd, hrest⟩)
        · exact ⟨[], c, cs, ks, rfl, untroubled_nil, rfl, htrouble⟩
        · obtain ⟨pre, d, post, ks', rfl, hpre, hkept, htrouble⟩ := ih.mp hrest
          refine ⟨c :: pre, d, post, ks', rfl, ?_, ?_, htrouble⟩
          · exact untroubled_cons.mpr ⟨hcontrol, hroom, ks₁, hadd, hpre⟩
          · rw [kept_cons, hadd]
            exact hkept
    rw [hsplit, resolve, Trouble, NotAllowed, ← addName_eq_none, ← printable_ne_self,
      ← printable_eq_self]
    split
    · next hlong => simp [hlong, eq_comm]
    next hroom =>
    split
    · next hcontrol => simp [hroom, hcontrol, eq_comm]
    next hcontrol =>
    rw [not_not] at hcontrol
    cases hadd : addName ks c with
    | none => simp [hroom, eq_comm]
    | some ks₁ => simp [hroom, hcontrol]

/-! The loops of `canonicalize`. -/

theorem copyName_eq (hname : ∀ x ∈ c, isSep x = false) (hrest : ∀ x ∈ rest.head?, isSep x = true)
    (hbuf : buf.length ≤ maxPath) :
    copyName (c ++ rest) buf name =
      if maxPath < buf.length + (printable c).length then .error .enametoolong
      else if printable c ≠ c then .error .einval
      else .ok (rest, buf ++ c, name ++ c) := by
  induction c generalizing buf name with
  | nil =>
    have hroom : ¬maxPath < buf.length + (printable []).length := by simpa [printable] using hbuf
    rw [if_neg hroom, if_neg (by simp [printable])]
    cases rest with
    | nil => simp [copyName]
    | cons s rest =>
      have hs : isSep s = true := hrest s rfl
      simp [copyName, hs]
  | cons x c ih =>
    have hx : isSep x = false := hname x List.mem_cons_self
    rw [List.cons_append, copyName]
    simp only [hx, Bool.false_eq_true, if_false]
    split
    · next hcontrol =>
      have hp : printable (x :: c) = [] := by simp [printable, isControl, hcontrol]
      have hroom : ¬maxPath < buf.length + (printable (x :: c)).length := by simpa [hp] using hbuf
      rw [if_neg hroom, if_pos (by simp [hp])]
    next hcontrol =>
    have hp : printable (x :: c) = x :: printable c := by
      simp only [printable, List.takeWhile_cons]
      rw [if_pos (by simp [isControl, hcontrol])]
    split
    · next hfull =>
      rw [if_pos]
      simp only [hp, List.length_cons]
      omega
    next hfull =>
    rw [ih (fun y hy => hname y (List.mem_cons_of_mem _ hy)) (by
      simp only [List.length_append, List.length_singleton]
      omega)]
    simp only [hp, List.length_append, List.length_cons, List.length_nil, ne_eq, List.cons.injEq,
      true_and, List.append_assoc, List.singleton_append, Nat.add_assoc, Nat.add_comm 1]

/-- The parts that the rounds of the outer loop take. -/
def rounds : Path → List Path
  | [] => []
  | s :: path => components (if isSep s then path else s :: path)

theorem components_append (hname : ∀ x ∈ c, isSep x = false)
    (hrest : ∀ x ∈ rest.head?, isSep x = true) : components (c ++ rest) = c :: rounds rest := by
  cases rest with
  | nil =>
    rw [List.append_nil]
    exact List.splitOnP_eq_singleton hname
  | cons s rest =>
    have hs : isSep s = true := hrest s rfl
    rw [rounds, if_pos hs]
    exact List.splitOnP_append_cons_of_forall_mem hname s hs rest

theorem exists_part (path : Path) : ∃ c rest, path = c ++ rest ∧ (∀ x ∈ c, isSep x = false) ∧
    ∀ x ∈ rest.head?, isSep x = true := by
  refine ⟨path.takeWhile fun x => !isSep x, path.dropWhile fun x => !isSep x,
    List.takeWhile_append_dropWhile.symm, ?_, ?_⟩
  · intro x hx
    simpa using List.mem_takeWhile_imp hx
  · intro x hx
    have hnot := List.head?_dropWhile_not (fun x => !isSep x) path
    rw [hx] at hnot
    simpa using hnot

theorem length_addName (hroom : ¬TooLong ks c) (hprint : printable c = c)
    (hadd : addName ks c = some ks') : (flat ks').length ≤ maxPath := by
  rw [TooLong, hprint] at hroom
  rw [addName] at hadd
  split at hadd
  · obtain rfl := Option.some.inj hadd
    omega
  split at hadd
  · split at hadd
    · simp at hadd
    · obtain rfl := Option.some.inj hadd
      have hsub : (flat ks.dropLast).length ≤ (flat ks).length :=
        ((List.dropLast_sublist ks).flatMap _).length_le
      omega
  · obtain rfl := Option.some.inj hadd
    simp only [flat, List.flatMap_append, List.flatMap_singleton, List.length_append,
      List.length_cons] at hroom ⊢
    omega

theorem parts_eq (hks : ∀ k ∈ ks, IsName k) (hfit : (flat ks).length ≤ maxPath)
    (hn : path.length ≤ n) : parts n path (flat ks) = (resolve ks (rounds path)).map flat := by
  induction n generalizing path ks with
  | zero =>
    obtain rfl := List.length_eq_zero_iff.mp (Nat.le_zero.mp hn)
    rfl
  | succ n ih =>
    cases path with
    | nil => rfl
    | cons s path =>
      obtain ⟨c, rest, hpath, hname, hrest⟩ := exists_part (if isSep s then path else s :: path)
      have hlen : rest.length ≤ n := by
        have hlength := congrArg List.length hpath
        rw [List.length_cons] at hn
        rw [List.length_append] at hlength
        split at hlength
        · omega
        · next hs =>
          cases c with
          | nil =>
            rw [if_neg hs, List.nil_append] at hpath
            exact absurd (hrest s (by simp [← hpath])) hs
          | cons x c =>
            simp only [List.length_cons] at hlength
            omega
      rw [parts, rounds]
      simp only [hpath]
      rw [components_append hname hrest, resolve]
      split
      · next hfull =>
        rw [if_pos (by rw [TooLong]; omega)]
        rfl
      next hfull =>
      have hbuf : (flat ks ++ [ps1]).length = (flat ks).length + 1 := by simp
      rw [copyName_eq hname hrest (by omega), hbuf]
      by_cases hlong : TooLong ks c
      · rw [if_pos hlong, if_pos (by rw [TooLong] at hlong; omega)]
        rfl
      rw [if_neg hlong, if_neg (by rw [TooLong] at hlong; omega)]
      by_cases hprint : printable c = c
      · simp only [ne_eq, hprint, List.append_assoc]
        change (dropName (flat ks ++ ps1 :: c) c >>= parts n rest) = _
        rw [dropName_eq hks]
        cases hadd : addName ks c with
        | none => rfl
        | some ks' => exact ih (addName_names hks hname hadd) (length_addName hlong hprint hadd) hlen
      · rw [if_pos hprint, if_pos hprint]
        rfl

/-! The current directory. -/

/-- The names of the directory where a path starts. -/
def startNames (curdir path : Path) : List Path :=
  if path.head?.any isSep then [] else (components curdir).filter (· ≠ [])

theorem components_rounds (h : ∀ x ∈ path.head?, isSep x = true) :
    components path = [] :: rounds path := components_append (c := []) (by simp) h

theorem rounds_flat (hds : ∀ d ∈ ds, IsName d) : rounds (flat ds) = ds := by
  induction ds with
  | nil => rfl
  | cons d ds ih =>
    have hsep : isSep ps1 = true := by decide
    rw [flat_cons, rounds, if_pos hsep, components_append (hds d List.mem_cons_self).noSep
      (flat_head ds), ih fun d hd => hds d (List.mem_cons_of_mem _ hd)]

theorem components_join (hds : ∀ d ∈ ds, IsName d) :
    (components (join ds)).filter (· ≠ []) = ds := by
  rw [join]
  split
  · next hnil =>
    subst hnil
    rfl
  · rw [components_rounds (flat_head ds), rounds_flat hds]
    simpa using fun d hd => (hds d hd).ne_nil

theorem length_flat_le_join (ds : List Path) : (flat ds).length ≤ (join ds).length := by
  rw [join]
  split
  · next hnil => simp [hnil, flat]
  · exact le_rfl

theorem startDir_names (hcur : Canonical curdir) (path : Path) :
    (∀ k ∈ startNames curdir path, IsName k) ∧
      startDir curdir path = flat (startNames curdir path) ∧
      (flat (startNames curdir path)).length ≤ curdir.length := by
  obtain ⟨ds, hds, rfl⟩ := hcur
  rw [startDir, startNames]
  split
  · exact ⟨by simp, rfl, by simp [flat]⟩
  rw [components_join hds]
  refine ⟨hds, ?_, length_flat_le_join ds⟩
  rw [join]
  split
  · next hnil => simp [hnil, flat]
  · next hne =>
    obtain ⟨d, ds, rfl⟩ := List.exists_cons_of_ne_nil hne
    have hpos := List.length_pos_of_ne_nil (hds d List.mem_cons_self).ne_nil
    rw [if_pos]
    rw [flat_cons, List.length_cons, List.length_append]
    omega

theorem resolve_components (hroom : (flat ks).length < maxPath) :
    resolve ks (components path) = resolve ks (rounds path) := by
  cases path with
  | nil =>
    have hparts : components [] = [[]] := rfl
    have hlong : ¬TooLong ks [] := by
      simp only [TooLong, printable, List.takeWhile_nil, List.length_nil]
      omega
    simp [hparts, resolve, rounds, hlong, printable, addName]
  | cons s path =>
    rw [rounds]
    split
    · next hs =>
      have hlong : ¬TooLong ks [] := by
        simp only [TooLong, printable, List.takeWhile_nil, List.length_nil]
        omega
      rw [components_rounds (by simpa using hs), rounds, if_pos hs]
      simp [resolve, hlong, printable, addName]
    · rfl

/-- The path with the current directory in front when it is relative. -/
def wholePath (curdir path : Path) : Path :=
  if path.head?.any isSep then path else curdir ++ ps1 :: path

/-- The names that are left of a path. -/
def normalForm (path : Path) : Option (List Path) := kept [] (components path)

theorem addName_nil : addName ks [] = some ks := if_pos (.inl rfl)

theorem IsName.addName (h : IsName c) : addName ks c = some (ks ++ [c]) := by
  rw [Vfs.addName, if_neg (not_or.mpr ⟨h.ne_nil, h.ne_dot⟩), if_neg h.ne_dots]

theorem kept_flat (hds : ∀ d ∈ ds, IsName d) :
    kept ks (components (flat ds ++ ps1 :: path)) = kept (ks ++ ds) (components path) := by
  have hsep : isSep ps1 = true := by decide
  induction ds generalizing ks with
  | nil =>
    have hhead : ∀ x ∈ (ps1 :: path).head?, isSep x = true := by simpa using hsep
    rw [List.append_nil]
    rfl
  | cons d ds ih =>
    have hd := hds d List.mem_cons_self
    have hhead : ∀ x ∈ (flat ds ++ ps1 :: path).head?, isSep x = true := by
      cases ds with
      | nil => simpa [flat] using hsep
      | cons b ds => simpa [flat_cons] using hsep
    have hih : kept (ks ++ [d]) (components (flat ds ++ ps1 :: path)) =
        kept (ks ++ [d] ++ ds) (components path) := ih fun b hb => hds b (List.mem_cons_of_mem _ hb)
    rw [components_rounds hhead] at hih
    have hfirst : ∀ x ∈ (flat (d :: ds) ++ ps1 :: path).head?, isSep x = true := by
      simpa [flat_cons] using hsep
    rw [components_rounds hfirst, flat_cons, List.cons_append, rounds, if_pos hsep,
      List.append_assoc, components_append hd.noSep hhead]
    have happ : ks ++ d :: ds = ks ++ [d] ++ ds := List.append_cons ks d ds
    change kept ks (d :: rounds (flat ds ++ ps1 :: path)) = _
    rw [kept_cons, hd.addName, happ]
    exact hih

theorem normalForm_wholePath (hcur : Canonical curdir) (path : Path) :
    normalForm (wholePath curdir path) = kept (startNames curdir path) (components path) := by
  obtain ⟨ds, hds, rfl⟩ := hcur
  rw [wholePath, startNames]
  split
  · rfl
  rw [components_join hds, join]
  split
  · next hnil =>
    subst hnil
    have hnone : ∀ d ∈ ([] : List Path), IsName d := by simp
    exact (kept_flat hnone).trans (kept_flat hnone)
  · exact kept_flat hds

theorem terminate_eq (ds : List Path) : terminate (flat ds) =
    if (join ds).length = maxPath then .error .enametoolong else .ok (join ds) := by
  have hjoin : (if flat ds = [] then [ps1] else flat ds) = join ds := by
    rw [join]
    simp only [flat_eq_nil]
  rw [terminate, hjoin]

theorem resolve_length (hfit : (flat ks).length ≤ maxPath) (h : resolve ks cs = .ok ks') :
    (flat ks').length ≤ maxPath := by
  induction cs generalizing ks with
  | nil =>
    obtain rfl := Except.ok.inj h
    exact hfit
  | cons c cs ih =>
    rw [resolve] at h
    split at h
    · simp at h
    next hroom =>
    split at h
    · simp at h
    next hprint =>
    split at h
    · simp at h
    · next ks₁ hadd => exact ih (length_addName hroom (not_not.mp hprint) hadd) h

theorem withoutDrive_eq (hdrive : path[1]? ≠ some 58) : withoutDrive path = path := by
  rw [withoutDrive.eq_def]
  split
  · simp at hdrive
  · rfl

section canonicalize

variable (hcur : Canonical curdir) (hlen : curdir.length < maxPath)

include hcur hlen

theorem canonicalize_eq : canonicalize curdir path =
    (resolve (startNames curdir (withoutDrive path)) (components (withoutDrive path))).bind fun ks =>
      if maxPath ≤ (join ks).length then .error .enametoolong else .ok (join ks) := by
  obtain ⟨hnames, hstart, hle⟩ := startDir_names hcur (withoutDrive path)
  rw [canonicalize, hstart, resolve_components (by omega), parts_eq hnames (by omega) le_rfl]
  cases hres : resolve (startNames curdir (withoutDrive path)) (rounds (withoutDrive path)) with
  | error e => rfl
  | ok ks =>
    have hfit := resolve_length (by omega) hres
    have hjoin : (join ks).length = maxPath ↔ maxPath ≤ (join ks).length := by
      rw [join]
      split
      · decide
      · omega
    change terminate (flat ks) = if maxPath ≤ (join ks).length then _ else _
    rw [terminate_eq]
    simp only [hjoin]

theorem canonicalize_ok {r : Path} : canonicalize curdir path = .ok r ↔
    ∃ ks, resolve (startNames curdir (withoutDrive path)) (components (withoutDrive path)) = .ok ks ∧
      (join ks).length < maxPath ∧ r = join ks := by
  rw [canonicalize_eq hcur hlen]
  cases resolve (startNames curdir (withoutDrive path)) (components (withoutDrive path)) with
  | error e => simp [Except.bind]
  | ok ks =>
    simp only [Except.bind, Except.ok.injEq]
    split
    · next hlong => simp [not_lt.mpr hlong]
    · next hroom => simp [not_le.mp hroom, eq_comm]

theorem canonicalize_error : canonicalize curdir path = .error e ↔
    resolve (startNames curdir (withoutDrive path)) (components (withoutDrive path)) = .error e ∨
      e = .enametoolong ∧ ∃ ks,
        resolve (startNames curdir (withoutDrive path)) (components (withoutDrive path)) = .ok ks ∧
          maxPath ≤ (join ks).length := by
  rw [canonicalize_eq hcur hlen]
  cases resolve (startNames curdir (withoutDrive path)) (components (withoutDrive path)) with
  | error e' => simp [Except.bind]
  | ok ks =>
    simp only [Except.bind, Except.ok.injEq]
    split
    · next hlong => simp [hlong, eq_comm]
    · next hroom => simp [hroom]

end canonicalize

end SimpleKernel.Vfs
