import SimpleKernel.Vfs.Idempotent
import SimpleKernel.Vfs.Mounts

/-! Paths that are looked up after `chdir`. -/
namespace SimpleKernel.Vfs

variable {curdir p q r : Path} {ks cs ds : List Path} {t : ℕ}

theorem resolve_concat : resolve ks (cs ++ ds) = (resolve ks cs).bind (resolve · ds) := by
  induction cs generalizing ks with
  | nil => rfl
  | cons c cs ih =>
    rw [List.cons_append, resolve, resolve]
    split
    · rfl
    split
    · rfl
    cases addName ks c with
    | none => rfl
    | some ks₁ => exact ih

theorem withoutDrive_sep (hp : withoutDrive p ≠ []) :
    withoutDrive (p ++ ps1 :: q) = withoutDrive p ++ ps1 :: q := by
  cases p with
  | nil => exact absurd rfl hp
  | cons x p =>
    cases p with
    | nil => rfl
    | cons y p =>
      by_cases hy : y = 58
      · subst hy
        rfl
      · rw [withoutDrive_eq (by simpa using hy), withoutDrive_eq (by simpa using hy)]

/-- A path without a drive letter that does not begin with a separator. -/
def Relative (path : Path) : Prop := withoutDrive path = path ∧ path.head?.any isSep = false

theorem Relative.sep (h : Relative p) (hne : p ≠ []) : Relative (p ++ ps1 :: q) := by
  constructor
  · rw [withoutDrive_sep (h.1.symm ▸ hne), h.1]
  · rw [List.head?_append_of_ne_nil _ hne]
    exact h.2

theorem canonicalize_sep (hcur : CurDir curdir) (hdir : canonicalize curdir p = .ok r)
    (hp : withoutDrive p ≠ []) (hq : Relative q) :
    CurDir r ∧ canonicalize r q = canonicalize curdir (p ++ ps1 :: q) := by
  obtain ⟨ks, hclean, -, rfl, hlen⟩ := canonicalize_names hcur hdir
  have hnew : CurDir (join ks) := ⟨ks, hclean, rfl, hlen⟩
  obtain ⟨ks', hres, -, hjoin⟩ := (canonicalize_ok hcur.canonical hcur.short).mp hdir
  have hnames := kept_names (clean_startNames hcur _).names (fun c hc => mem_components hc) (resolve_ok.mp hres).2
  obtain rfl := join_injective hclean.names hnames hjoin
  have hstart : startNames curdir (withoutDrive p ++ ps1 :: q) = startNames curdir (withoutDrive p) := by
    rw [startNames, startNames, List.head?_append_of_ne_nil _ hp]
  have hparts : components (withoutDrive p ++ ps1 :: q) = components (withoutDrive p) ++ components q :=
    List.splitOnP_append_cons _ _ rfl
  refine ⟨hnew, ?_⟩
  rw [canonicalize_eq hnew.canonical hnew.short, canonicalize_eq hcur.canonical hcur.short, withoutDrive_sep hp,
    hstart, hparts, resolve_concat, hres, hq.1, startNames, if_neg (by simp [hq.2]), components_join hclean.names]
  rfl

/-- Thread `t` changes its directory along the paths. Between these calls there may be any others that leave its
directory. -/
inductive Along (t : ℕ) : Mounts → List Path → Mounts → Prop
  | refl (m : Mounts) : Along t m [] m
  | chdir {m m₁ m' : Mounts} {rc : Except Errno Unit} {p : Path} {ps : List Path}
    (hcall : m.chdir t rc p = (m₁, .ok ())) (hrest : Along t m₁ ps m') : Along t m (p :: ps) m'
  | other {m m₁ m' : Mounts} {call : MountCall × ℕ} {ps : List Path} (hcall : MountCall.exec m call = some m₁)
    (hsame : m₁.curdir t = m.curdir t) (hrest : Along t m₁ ps m') : Along t m ps m'

/-- The path `q` behind the paths. -/
def behind (ps : List Path) (q : Path) : Path := ps.foldr (fun p q => p ++ ps1 :: q) q

theorem relative_behind {ps : List Path} (hps : ∀ p ∈ ps, p ≠ [] ∧ Relative p) (hq : Relative q) :
    Relative (behind ps q) := by
  cases ps with
  | nil => exact hq
  | cons p ps =>
    obtain ⟨hne, hp⟩ := hps p List.mem_cons_self
    exact hp.sep hne

/-- A relative path leads where it led behind all directories before the thread changed to them, errors included. -/
theorem chdir_composes {m m' : Mounts} {ps : List Path} (hcur : CurDir (m.curdir t)) (hrun : Along t m ps m')
    (hps : ∀ p ∈ ps, p ≠ [] ∧ Relative p) (hq : Relative q) :
    canonicalize (m'.curdir t) q = canonicalize (m.curdir t) (behind ps q) := by
  induction hrun with
  | refl m => rfl
  | @chdir m m₁ _ rc p ps hcall _ ih =>
    have hrest : ∀ p ∈ ps, p ≠ [] ∧ Relative p := fun p hp => hps p (List.mem_cons_of_mem _ hp)
    have hdir : canonicalize (m.curdir t) p = .ok (m₁.curdir t) := by
      rw [Mounts.chdir] at hcall
      split at hcall
      · cases hcall
      · next path hok =>
        cases rc with
        | error e => cases hcall
        | ok u =>
          obtain ⟨rfl, -⟩ := Prod.mk.inj hcall
          simp [hok]
    obtain ⟨hne, hp⟩ := hps p List.mem_cons_self
    obtain ⟨hnew, hstep⟩ := canonicalize_sep hcur hdir (hp.1.symm ▸ hne) (relative_behind hrest hq)
    rw [ih hnew hrest, hstep]
    rfl
  | other _ hsame _ ih => rw [ih (hsame ▸ hcur) hps, hsame]

/-- From the root to `a/..` and, after a mount, to `b`: the path `../c`. -/
theorem chdir_composes_two : canonicalize [47, 98] [46, 46, 47, 99] =
    canonicalize [47] [97, 47, 46, 46, 47, 98, 47, 46, 46, 47, 99] := by
  have hroot : CurDir (noMounts.curdir 0) := ⟨[], by simp [Clean], rfl, by decide⟩
  have hrun : Along 0 noMounts [[97, 47, 46, 46], [98]] _ :=
    .chdir (show noMounts.chdir 0 (.ok ()) _ = _ from rfl) <|
      .other (show MountCall.exec _ (mountRoot, 0) = _ from rfl) rfl <|
        .chdir (show Mounts.chdir _ 0 (.ok ()) _ = _ from rfl) (.refl _)
  exact chdir_composes hroot hrun (by simp [Relative, withoutDrive]; decide) ⟨rfl, rfl⟩

end SimpleKernel.Vfs
