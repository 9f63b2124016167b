import SimpleKernel.Vfs.PathBuffer

/-! `canonicalize` on its own result. A canonical path whose first name begins with a colon looks
as if it began with a drive letter: the second run takes two characters off. -/
namespace SimpleKernel.Vfs

variable {path curdir r : Path} {ks ks' cs ds es : List Path} {c k : Path}

def colon : UInt8 := 58

/-- Names without control characters. -/
def Clean (ks : List Path) : Prop := ∀ k ∈ ks, IsName k ∧ ∀ x ∈ k, isControl x = false

/-- A directory that `chdir` may leave: a canonical path without control characters that fits the
buffer. -/
def CurDir (curdir : Path) : Prop := ∃ ds, Clean ds ∧ curdir = join ds ∧ curdir.length < maxPath

theorem Clean.names (h : Clean ks) : ∀ k ∈ ks, IsName k := fun k hk => (h k hk).1

theorem Clean.tail (h : Clean (k :: ks)) : Clean ks :=
  fun c hc => h c (List.mem_cons_of_mem _ hc)

theorem CurDir.canonical (h : CurDir curdir) : Canonical curdir := by
  obtain ⟨ds, hds, rfl, -⟩ := h
  exact ⟨ds, hds.names, rfl⟩

theorem CurDir.short (h : CurDir curdir) : curdir.length < maxPath := by
  obtain ⟨ds, -, -, hlen⟩ := h
  exact hlen

/-! What is kept of a path. -/

theorem mem_components (hc : c ∈ components path) : ∀ x ∈ c, isSep x = false := by
  induction hlen : path.length using Nat.strong_induction_on generalizing path with
  | _ n ih =>
    obtain ⟨d, rest, rfl, hd, hrest⟩ := exists_part path
    rw [components_append hd hrest] at hc
    rcases List.mem_cons.mp hc with rfl | hc
    · exact hd
    cases rest with
    | nil => cases hc
    | cons s rest =>
      rw [rounds, if_pos (hrest s rfl)] at hc
      rw [List.length_append, List.length_cons] at hlen
      exact ih rest.length (by omega) hc rfl

theorem kept_names (hks : ∀ k ∈ ks, IsName k) (hcs : ∀ c ∈ cs, ∀ x ∈ c, isSep x = false)
    (h : kept ks cs = some ks') : ∀ k ∈ ks', IsName k := by
  induction cs generalizing ks with
  | nil =>
    obtain rfl := Option.some.inj h
    exact hks
  | cons c cs ih =>
    obtain ⟨ks₁, hadd, hrest⟩ := Option.bind_eq_some_iff.mp h
    exact ih (addName_names hks (hcs c List.mem_cons_self) hadd)
      (fun d hd => hcs d (List.mem_cons_of_mem _ hd)) hrest

theorem kept_subset (h : kept ks cs = some ks') : ∀ k ∈ ks', k ∈ ks ∨ k ∈ cs := by
  induction cs generalizing ks with
  | nil =>
    obtain rfl := Option.some.inj h
    exact fun k hk => .inl hk
  | cons c cs ih =>
    obtain ⟨ks₁, hadd, hrest⟩ := Option.bind_eq_some_iff.mp h
    have hstep : ∀ k ∈ ks₁, k ∈ ks ∨ k = c := by
      intro k hk
      rw [addName] at hadd
      split at hadd
      · obtain rfl := Option.some.inj hadd
        exact .inl hk
      split at hadd
      · split at hadd
        · simp at hadd
        · obtain rfl := Option.some.inj hadd
          exact .inl (List.dropLast_subset _ hk)
      · obtain rfl := Option.some.inj hadd
        simpa using hk
    intro k hk
    rcases ih hrest k hk with hk | hk
    · rcases hstep k hk with hk | rfl
      · exact .inl hk
      · exact .inr List.mem_cons_self
    · exact .inr (List.mem_cons_of_mem _ hk)

theorem clean_startNames (hcur : CurDir curdir) (path : Path) : Clean (startNames curdir path) := by
  obtain ⟨ds, hds, rfl, -⟩ := hcur
  rw [startNames]
  split
  · exact fun k hk => by simp at hk
  · rw [components_join hds.names]
    exact hds

theorem canonicalize_names (hcur : CurDir curdir) (h : canonicalize curdir path = .ok r) :
    ∃ ks, Clean ks ∧ normalForm (wholePath curdir (withoutDrive path)) = some ks ∧ r = join ks ∧
      r.length < maxPath := by
  obtain ⟨ks, hres, hlen, rfl⟩ := (canonicalize_ok hcur.canonical hcur.short).mp h
  obtain ⟨hun, hkept⟩ := resolve_ok.mp hres
  have hstart := clean_startNames hcur (withoutDrive path)
  refine ⟨ks, fun k hk => ⟨?_, ?_⟩, ?_, rfl, hlen⟩
  · exact kept_names hstart.names (fun c hc => mem_components hc) hkept k hk
  · rcases kept_subset hkept k hk with hk | hk
    · exact (hstart k hk).2
    · exact hun.noControl k hk
  · rw [normalForm_wholePath hcur.canonical]
    exact hkept

/-! The second run. -/

theorem join_injective (hds : ∀ d ∈ ds, IsName d) (hes : ∀ d ∈ es, IsName d)
    (h : join ds = join es) : ds = es := by
  rw [← components_join hds, h, components_join hes]

theorem resolve_cons : resolve ks (c :: cs) = .ok ks' ↔
    ¬TooLong ks c ∧ printable c = c ∧ ∃ ks₁, addName ks c = some ks₁ ∧ resolve ks₁ cs = .ok ks' := by
  rw [resolve]
  split
  · next hlong => simp [hlong]
  next hroom =>
  split
  · next hprint => simp [hprint]
  next hprint =>
  cases hadd : addName ks c with
  | none => simp
  | some ks₁ => simp [hroom, not_not.mp hprint]

theorem eq_append_of_resolve (hes : Clean es) (h : resolve ds es = .ok ks) : ks = ds ++ es := by
  induction es generalizing ds with
  | nil =>
    obtain rfl := Except.ok.inj h
    rw [List.append_nil]
  | cons e es ih =>
    obtain ⟨-, -, ks₁, hadd, hrest⟩ := resolve_cons.mp h
    rw [(hes e List.mem_cons_self).1.addName] at hadd
    obtain rfl := Option.some.inj hadd
    rw [ih hes.tail hrest, List.append_assoc, List.singleton_append]

theorem resolve_append (hes : Clean es) (hfit : (flat (ds ++ es)).length ≤ maxPath) :
    resolve ds es = .ok (ds ++ es) := by
  induction es generalizing ds with
  | nil => rw [List.append_nil, resolve]
  | cons e es ih =>
    have he := hes e List.mem_cons_self
    have happ : ds ++ e :: es = ds ++ [e] ++ es := List.append_cons ds e es
    have hprint : printable e = e := printable_eq_self.mpr he.2
    refine resolve_cons.mpr ⟨?_, hprint, ds ++ [e], he.1.addName, ?_⟩
    · rw [TooLong, hprint]
      simp only [flat, List.flatMap_append, List.flatMap_cons, List.length_append,
        List.length_cons] at hfit ⊢
      omega
    · rw [happ] at hfit ⊢
      exact ih hes.tail hfit

theorem resolve_empty : resolve [] ([] :: cs) = .ok ks ↔ resolve [] cs = .ok ks := by
  have hroom : ¬TooLong [] [] := by decide
  rw [resolve_cons]
  simp [hroom, printable, addName_nil]

/-- The cases in which the second run comes to the same path although it takes a name's colon for
that of a drive: the rest of the name is empty or is made of dots, and the current directory has
the right name. -/
def Stays (curdir k : Path) (ks : List Path) : Prop :=
  k = [] ∧ ks = [] ∧ curdir = join [[colon]] ∨
  k = [dot] ∧ curdir = join [[colon, dot]] ∨
  k = [dot, dot] ∧ (∃ x, IsName x ∧ curdir = join [[colon, dot, dot], x]) ∧
    curdir.length + 3 ≤ maxPath

section second

variable (hds : Clean ds) (hcur : (join ds).length < maxPath)

include hds hcur

theorem second_empty (hks : Clean ks) :
    resolve (startNames (join ds) (flat ks)) (components (flat ks)) = .ok ([colon] :: ks) ↔
      Stays (join ds) [] ks := by
  cases ks with
  | nil =>
    have hstart : startNames (join ds) (flat []) = ds := by
      rw [startNames, if_neg (by decide), components_join hds.names]
    have hparts : components (flat []) = [[]] := rfl
    have hroom : ¬TooLong ds [] := by
      have := length_flat_le_join ds
      simp only [TooLong, printable, List.takeWhile_nil, List.length_nil]
      omega
    have hcolon : ∀ d ∈ [[colon]], IsName d := by
      simpa using ⟨by decide, noSep_of_all (by decide), by decide, by decide⟩
    rw [hstart, hparts, resolve_cons]
    simp only [hroom, printable, List.takeWhile_nil, addName_nil, Option.some.injEq,
      exists_eq_left', resolve, Except.ok.injEq, not_false_eq_true, true_and, Stays,
      reduceCtorEq, false_and, or_false]
    constructor
    · rintro rfl
      rfl
    · exact join_injective hds.names hcolon
  | cons b ks =>
    have hhead : (flat (b :: ks)).head?.any isSep = true := by
      rfl
    rw [startNames, if_pos hhead, components_rounds (flat_head _), rounds_flat hks.names,
      resolve_empty]
    constructor
    · intro hres
      have := congrArg List.length (eq_append_of_resolve hks hres)
      simp at this
    · rintro (⟨-, hnil, -⟩ | ⟨hnil, -⟩ | ⟨hnil, -⟩) <;> simp at hnil

theorem second_part (hks : Clean ks) (hk : k ≠ []) (hsep : ∀ x ∈ k, isSep x = false)
    (hcontrol : ∀ x ∈ k, isControl x = false)
    (hfit : (flat ((colon :: k) :: ks)).length ≤ maxPath) :
    resolve (startNames (join ds) (k ++ flat ks)) (components (k ++ flat ks)) =
      .ok ((colon :: k) :: ks) ↔ Stays (join ds) k ks := by
  have hstart : startNames (join ds) (k ++ flat ks) = ds := by
    obtain ⟨x, k, rfl⟩ := List.exists_cons_of_ne_nil hk
    have hx := hsep x List.mem_cons_self
    rw [startNames, if_neg (by simpa using hx), components_join hds.names]
  have hprint : printable k = k := printable_eq_self.mpr hcontrol
  have hname : IsName [colon, dot] := ⟨by decide, noSep_of_all (by decide), by decide, by decide⟩
  have hnames : IsName [colon, dot, dot] :=
    ⟨by decide, noSep_of_all (by decide), by decide, by decide⟩
  have hcancel {es : List Path} {c : Path} (h : c :: ks = es ++ ks) : es = [c] :=
    (List.append_cancel_right (show [c] ++ ks = es ++ ks from h)).symm
  rw [hstart, components_append hsep (flat_head ks), rounds_flat hks.names, resolve_cons]
  simp only [hprint, true_and, Stays, hk, false_and, false_or]
  by_cases hdot : k = [dot]
  · subst hdot
    have hadd : addName ds [dot] = some ds := if_pos (.inr rfl)
    have hother : ([dot] : Path) ≠ [dot, dot] := by decide
    simp only [hadd, Option.some.injEq, exists_eq_left', true_and, hother, false_and, or_false]
    constructor
    · rintro ⟨-, hres⟩
      rw [hcancel (eq_append_of_resolve hks hres)]
    · intro hjoin
      obtain rfl := join_injective hds.names (by simpa using hname) hjoin
      exact ⟨by decide, resolve_append hks hfit⟩
  by_cases hdots : k = [dot, dot]
  · subst hdots
    simp only [hdot, false_and, false_or, true_and]
    constructor
    · rintro ⟨hroom, ks₁, hadd, hres⟩
      rw [addName, if_neg (by decide), if_pos rfl] at hadd
      split at hadd
      · simp at hadd
      next hne =>
      obtain rfl := Option.some.inj hadd
      have hdrop := hcancel (eq_append_of_resolve hks hres)
      have hwhole := List.dropLast_append_getLast hne
      rw [hdrop] at hwhole
      refine ⟨⟨ds.getLast hne, hds.names _ (List.getLast_mem hne), ?_⟩, ?_⟩
      · conv_lhs => rw [← hwhole]
        rfl
      · rw [join, if_neg hne]
        rw [TooLong, hprint] at hroom
        simp only [List.length_cons] at hroom
        omega
    · rintro ⟨⟨x, hx, hjoin⟩, hroom⟩
      have htwo : ∀ d ∈ [[colon, dot, dot], x], IsName d := by
        intro d hd
        simp only [List.mem_cons, List.not_mem_nil, or_false] at hd
        rcases hd with rfl | rfl
        · exact hnames
        · exact hx
      obtain rfl := join_injective hds.names htwo hjoin
      refine ⟨?_, [[colon, dot, dot]], ?_, resolve_append hks hfit⟩
      · rw [TooLong, hprint]
        rw [join, if_neg (by simp)] at hroom
        simp only [List.length_cons, List.length_nil]
        omega
      · rfl
  · have hnew : IsName k := ⟨hk, hsep, hdot, hdots⟩
    simp only [hdot, hdots, false_and, or_self, iff_false, hnew.addName, Option.some.injEq,
      exists_eq_left', not_and]
    intro _ hres
    -- the new name would have to be the old one, less its colon
    have heq := hcancel (eq_append_of_resolve hks hres)
    rcases List.append_eq_singleton_iff.mp heq with ⟨-, hk'⟩ | ⟨-, hk'⟩
    · have := congrArg List.length (List.cons.inj hk').1
      simp at this
    · simp at hk'

end second

theorem canonicalize_join (hcur : CurDir curdir) (hks : Clean ks) (hlen : (join ks).length < maxPath) :
    canonicalize curdir (join ks) = .ok (join ks) ↔
      ∀ k' ks', ks = (colon :: k') :: ks' → Stays curdir k' ks' := by
  have hself : canonicalize curdir (join ks) = .ok (join ks) ↔
      resolve (startNames curdir (withoutDrive (join ks))) (components (withoutDrive (join ks))) =
        .ok ks := by
    rw [canonicalize_ok hcur.canonical hcur.short]
    constructor
    · rintro ⟨ks₂, hres, -, hjoin⟩
      have hstart := clean_startNames hcur (withoutDrive (join ks))
      have hnames := kept_names hstart.names (fun c hc => mem_components hc) (resolve_ok.mp hres).2
      obtain rfl := join_injective hks.names hnames hjoin
      exact hres
    · intro hres
      exact ⟨ks, hres, hlen, rfl⟩
  rw [hself]
  obtain ⟨ds, hds, rfl, hshort⟩ := hcur
  cases ks with
  | nil =>
    have hroot : resolve (startNames (join ds) (withoutDrive (join [])))
        (components (withoutDrive (join []))) = .ok [] := rfl
    simp [hroot]
  | cons k ks =>
    have hk := hks k List.mem_cons_self
    obtain ⟨x, k, rfl⟩ := List.exists_cons_of_ne_nil hk.1.ne_nil
    have hjoin : join ((x :: k) :: ks) = ps1 :: x :: (k ++ flat ks) := rfl
    have hfit : (flat ((x :: k) :: ks)).length ≤ maxPath :=
      (length_flat_le_join _).trans hlen.le
    by_cases hx : x = colon
    · subst hx
      simp only [List.cons.injEq, true_and, and_imp]
      have hself : (∀ k' ks', k = k' → ks = ks' → Stays (join ds) k' ks') ↔
          Stays (join ds) k ks := by
        constructor
        · intro h
          exact h k ks rfl rfl
        · rintro h k' ks' rfl rfl
          exact h
      rw [hself]
      by_cases hnil : k = []
      · subst hnil
        exact second_empty hds hshort hks.tail
      · exact second_part hds hshort hks.tail hnil
          (fun y hy => hk.1.noSep y (List.mem_cons_of_mem _ hy))
          (fun y hy => hk.2 y (List.mem_cons_of_mem _ hy)) hfit
    · have hdrive : withoutDrive (join ((x :: k) :: ks)) = join ((x :: k) :: ks) := by
        apply withoutDrive_eq
        rw [hjoin]
        simpa [colon] using hx
      have hstart : startNames (join ds) (join ((x :: k) :: ks)) = [] := rfl
      have hparts : components (join ((x :: k) :: ks)) = [] :: (x :: k) :: ks := by
        have hflat : join ((x :: k) :: ks) = flat ((x :: k) :: ks) := rfl
        rw [hflat, components_rounds (flat_head _), rounds_flat hks.names]
      rw [hdrive, hstart, hparts, resolve_empty]
      have hres : resolve [] ((x :: k) :: ks) = .ok ((x :: k) :: ks) := resolve_append hks hfit
      simp [hres, hx]

/-- The result of `canonicalize` is its own result if and only if the first name that is left does not begin with a
colon, or one of the cases of `Stays` is given. -/
theorem canonicalize_idempotent_iff (hcur : CurDir curdir) (hok : canonicalize curdir path = .ok r) :
    canonicalize curdir r = .ok r ↔
      ∀ k ks, normalForm (wholePath curdir (withoutDrive path)) = some ((colon :: k) :: ks) →
        Stays curdir k ks := by
  obtain ⟨ks, hclean, hnormal, rfl, hlen⟩ := canonicalize_names hcur hok
  rw [canonicalize_join hcur hclean hlen, hnormal]
  simp only [Option.some.injEq]

/-- The path `a/../b` in the root. -/
theorem canonicalize_idempotent_dots :
    canonicalize [47] [97, 47, 46, 46, 47, 98] = .ok [47, 98] ∧
      canonicalize [47] [47, 98] = .ok [47, 98] := by
  have hcur : CurDir [47] := ⟨[], by simp [Clean], rfl, by decide⟩
  have hok : canonicalize [47] [97, 47, 46, 46, 47, 98] = .ok [47, 98] := by decide
  refine ⟨hok, (canonicalize_idempotent_iff hcur hok).mpr ?_⟩
  intro k ks hnormal
  have hform : normalForm (wholePath [47] (withoutDrive [97, 47, 46, 46, 47, 98])) =
      some [[98]] := by decide
  rw [hform] at hnormal
  simp [colon] at hnormal

/-- The path `//:x` in the root gives `/:x`, and this gives `/x`. -/
theorem canonicalize_not_idempotent :
    CurDir [47] ∧ canonicalize [47] [47, 47, 58, 120] = .ok [47, 58, 120] ∧
      canonicalize [47] [47, 58, 120] = .ok [47, 120] :=
  ⟨⟨[], by simp [Clean], rfl, by decide⟩, by decide, by decide⟩

end SimpleKernel.Vfs
