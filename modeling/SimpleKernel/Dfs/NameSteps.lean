import SimpleKernel.Dfs.Hierarchy

/-! What the functions on names do to a consistent file system. -/
namespace SimpleKernel.Dfs
open Relation
open Vfs (Path Cred sIexec)
open Function (update update_eq_self update_idem update_of_ne update_self)

namespace Names
variable {v w : Names} {d dir i j x old mode : ℕ} {name : Path} {es : List (Path × ℕ)} {t : Cred}

/-! Entries of a directory. -/

theorem mem_of_lookup (h : es.lookup name = some i) : (name, i) ∈ es := by
  obtain ⟨l₁, l₂, rfl, -⟩ := List.lookup_eq_some_iff.mp h
  simp

theorem lookup_eq_none (h : es.lookup name = none) : name ∉ es.map Prod.fst := by
  intro hname
  obtain ⟨⟨k, j⟩, hmem, rfl⟩ := List.mem_map.mp hname
  have := List.lookup_eq_none_iff.mp h (k, j) hmem
  simp at this

theorem lookup_eq_none_of_not_mem (h : name ∉ es.map Prod.fst) : es.lookup name = none := by
  rw [List.lookup_eq_none_iff]
  intro e he
  have hne : name ≠ e.1 := by
    rintro rfl
    exact h (List.mem_map_of_mem he)
  simpa using hne

theorem removeEntry_perm (h : es.lookup name = some i) :
    es.Perm ((name, i) :: removeEntry name es) := by
  induction es with
  | nil => simp at h
  | cons e es ih =>
    obtain ⟨k, j⟩ := e
    rw [List.lookup_cons] at h
    by_cases hk : name = k
    · subst hk
      obtain rfl : j = i := by simpa using h
      simp [removeEntry]
    · have hne : (name == k) = false := by simpa using hk
      rw [hne] at h
      have hrest : removeEntry name ((k, j) :: es) = (k, j) :: removeEntry name es := by
        simp [removeEntry, Ne.symm hk]
      rw [hrest]
      exact ((ih h).cons (k, j)).trans (List.Perm.swap _ _ _)

theorem replaceEntry_perm (h : es.lookup name = some old) (i : ℕ) :
    (replaceEntry name i es).Perm ((name, i) :: removeEntry name es) := by
  induction es with
  | nil => simp at h
  | cons e es ih =>
    obtain ⟨k, j⟩ := e
    rw [List.lookup_cons] at h
    by_cases hk : k = name
    · subst hk
      simp [replaceEntry, removeEntry]
    · have hne : (name == k) = false := by simpa using Ne.symm hk
      rw [hne] at h
      have hrest : removeEntry name ((k, j) :: es) = (k, j) :: removeEntry name es := by
        simp [removeEntry, hk]
      rw [hrest, replaceEntry, if_neg hk]
      exact ((ih h).cons (k, j)).trans (List.Perm.swap _ _ _)

/-! Looking up names. -/

theorem refused_ne_enoent (access : ℕ) : v.refused t dir access name ≠ some .enoent := by
  rw [refused]
  split
  · simp
  · split
    · simp
    · split
      · simp
      · split
        · simp
        · simp

theorem isDir_of_not_refused {access : ℕ} (h : v.refused t dir access name = none) :
    (v.desc dir).isDir = true := by
  by_contra hno
  rw [refused] at h
  simp [hno] at h
  split at h
  · simp at h
  · split at h
    · simp at h
    · simp at h

theorem findDirEntry_ok (h : v.findDirEntry t dir name = .ok i) :
    (v.desc dir).isDir = true ∧ (v.desc dir).entries.lookup name = some i := by
  rw [findDirEntry] at h
  split at h
  · simp at h
  · next hnone =>
    refine ⟨isDir_of_not_refused hnone, ?_⟩
    split at h
    · next hlook =>
      rw [hlook]
      exact congrArg some (Except.ok.inj h)
    · simp at h

theorem findDirEntry_enoent (h : v.findDirEntry t dir name = .error .enoent) :
    (v.desc dir).isDir = true ∧ (v.desc dir).entries.lookup name = none := by
  rw [findDirEntry] at h
  split at h
  · next e he =>
    obtain rfl := Except.error.inj h
    exact absurd he (refused_ne_enoent _)
  · next hnone =>
    refine ⟨isDir_of_not_refused hnone, ?_⟩
    split at h
    · simp at h
    · next hlook => exact hlook

theorem getInode_ok (h : v.getInode i = .ok j) : j = i ∧ i < v.inodeCount := by
  rw [getInode] at h
  split at h
  · simp at h
  · next hlt => exact ⟨(Except.ok.inj h).symm, not_le.mp hlt⟩

namespace Consistent

theorem lookupLoop (hv : v.Consistent) {n : ℕ} (hi : v.Reached i)
    (h : v.lookupLoop t n i name = .ok j) : v.Reached j := by
  induction n generalizing i name with
  | zero =>
    obtain rfl := Except.ok.inj h
    exact hi
  | succ n ih =>
    rw [Names.lookupLoop] at h
    dsimp only at h
    split at h
    · obtain rfl := Except.ok.inj h
      exact hi
    · split at h
      · simp at h
      · split at h
        · simp at h
        · next k hfind =>
          obtain ⟨hdir, hlook⟩ := findDirEntry_ok hfind
          have hk : v.Reached k := hi.tail ⟨_, by
            rw [entriesOf_of_live (hv.allocated_of_reached hi) hdir]
            exact mem_of_lookup hlook⟩
          split at h
          · obtain rfl := Except.ok.inj h
            exact hk
          · exact ih hk h

theorem namei (hv : v.Consistent) (h : v.namei t name = .ok i) : v.allocated i = true := by
  rw [Names.namei] at h
  split at h
  · simp at h
  · next k hk =>
    obtain ⟨rfl, -⟩ := getInode_ok h
    exact hv.allocated_of_reached (hv.lookupLoop .refl hk)

theorem diri_root (hv : v.Consistent) {rest : Path}
    (h : (v.getInode rootInode).map (fun i => (i, rest)) = .ok (dir, name)) :
    v.allocated dir = true ∧ (v.desc dir).isDir = true := by
  cases hget : v.getInode rootInode with
  | error e =>
    rw [hget] at h
    simp [Except.map] at h
  | ok k =>
    obtain ⟨rfl, -⟩ := getInode_ok hget
    rw [hget] at h
    obtain ⟨rfl, -⟩ := Prod.mk.inj (Except.ok.inj h)
    exact hv.root

theorem diri (hv : v.Consistent) {rest : Path} (h : v.diri t name = .ok (dir, rest)) :
    v.allocated dir = true ∧ (v.desc dir).isDir = true := by
  rw [Names.diri] at h
  split at h
  · exact hv.diri_root h
  · dsimp only at h
    split at h
    · exact hv.diri_root h
    · split at h
      · simp at h
      · next k hk =>
        split at h
        · simp at h
        · next k' hget =>
          obtain ⟨rfl, -⟩ := getInode_ok hget
          split at h
          · simp at h
          · next hdir =>
            obtain ⟨rfl, -⟩ := Prod.mk.inj (Except.ok.inj h)
            exact ⟨hv.allocated_of_reached (hv.lookupLoop .refl hk), by simpa using hdir⟩

end Consistent

/-! New descriptors. -/

@[simp] theorem setDesc_allocated (v : Names) (i : ℕ) (d : Desc) :
    (v.setDesc i d).allocated = v.allocated := rfl

@[simp] theorem setDesc_reservedInodes (v : Names) (i : ℕ) (d : Desc) :
    (v.setDesc i d).reservedInodes = v.reservedInodes := rfl

theorem setDesc_desc_of_ne {δ : Desc} (h : x ≠ i) : (v.setDesc i δ).desc x = v.desc x :=
  update_of_ne h _ _

theorem setDesc_desc_self (v : Names) (i : ℕ) (δ : Desc) : (v.setDesc i δ).desc i = δ :=
  update_self _ _ _

theorem entriesOf_setDesc_of_ne {δ : Desc} (h : x ≠ i) :
    (v.setDesc i δ).entriesOf x = v.entriesOf x := by
  rw [entriesOf, entriesOf, setDesc_allocated, setDesc_desc_of_ne h]

theorem entriesOf_setEntries (hi : v.allocated dir = true) (hdir : (v.desc dir).isDir = true)
    (es : List (Path × ℕ)) : (v.setEntries dir es).entriesOf dir = es := by
  have hdesc : (v.setEntries dir es).desc dir = { v.desc dir with entries := es } :=
    setDesc_desc_self _ _ _
  have hlive : ((v.setEntries dir es).desc dir).isDir = true := by
    rw [hdesc]
    exact hdir
  rw [entriesOf_of_live (v := v.setEntries dir es) hi hlive, hdesc]

theorem setEntries_same (v : Names) (dir : ℕ) (es : List (Path × ℕ)) (x : ℕ) :
    (v.setEntries dir es).allocated x = v.allocated x ∧
      ((v.setEntries dir es).desc x).isDir = (v.desc x).isDir ∧
      ((v.setEntries dir es).desc x).linkcount = (v.desc x).linkcount := by
  refine ⟨rfl, ?_⟩
  by_cases hx : x = dir
  · subst hx
    rw [setEntries, setDesc_desc_self]
    exact ⟨rfl, rfl⟩
  · rw [setEntries, setDesc_desc_of_ne hx]
    exact ⟨rfl, rfl⟩

theorem entriesOf_setDesc {δ : Desc} (hv : v.entriesOf i = []) (hδ : δ.isDir = false) :
    ∀ x, (v.setDesc i δ).entriesOf x = v.entriesOf x := by
  intro x
  by_cases hx : x = i
  · subst hx
    rw [hv]
    refine entriesOf_of_not_dir ?_
    rw [setDesc_desc_self]
    exact hδ
  · exact entriesOf_setDesc_of_ne hx

theorem Extra.of_setEntries {u : Names} (hcount : u.inodeCount = v.inodeCount)
    (hreserved : u.reservedInodes = v.reservedInodes) (hi : u.allocated dir = true)
    (hdir : (u.desc dir).isDir = true) (hent : ∀ x, u.entriesOf x = v.entriesOf x)
    (hes : es.Perm ((name, i) :: v.entriesOf dir)) : Extra v (u.setEntries dir es) dir name i := by
  refine ⟨hcount, hreserved, ?_, fun d hd => ?_⟩
  · rw [entriesOf_setEntries hi hdir]
    exact hes
  · rw [setEntries, entriesOf_setDesc_of_ne hd]
    exact hent d

theorem allocInode_desc_of_ne (h : x ≠ i) : (v.allocInode t i mode).desc x = v.desc x :=
  update_of_ne h _ _

theorem allocInode_desc_self (v : Names) (t : Cred) (i mode : ℕ) :
    (v.allocInode t i mode).desc i = ⟨mode, t.euid, t.egid, 1, [], []⟩ := update_self _ _ _

theorem allocInode_allocated_of_ne (h : x ≠ i) :
    (v.allocInode t i mode).allocated x = v.allocated x := update_of_ne h _ _

theorem allocInode_allocated_self (v : Names) (t : Cred) (i mode : ℕ) :
    (v.allocInode t i mode).allocated i = true := update_self _ _ _

/-! The three cases of `unlink_inode`. -/

theorem unlinkInode_keep (h : 1 < (v.desc i).linkcount) :
    v.unlinkInode i = v.setDesc i { v.desc i with linkcount := (v.desc i).linkcount - 1 } :=
  if_pos (by dsimp only; omega)

theorem unlinkInode_reserved (h : (v.desc i).linkcount ≤ 1) (hres : i < v.reservedInodes) :
    v.unlinkInode i = v.setDesc i .zero := by
  rw [unlinkInode, if_neg (by dsimp only; omega)]
  exact if_neg (by rw [setDesc_reservedInodes]; omega)

theorem unlinkInode_free (h : (v.desc i).linkcount ≤ 1) (hres : v.reservedInodes ≤ i) :
    v.unlinkInode i =
      { v.setDesc i .zero with allocated := update v.allocated i false } := by
  rw [unlinkInode, if_neg (by dsimp only; omega)]
  exact if_pos hres

theorem unlinkInode_cases (v : Names) (i : ℕ) :
    (∃ δ, v.unlinkInode i = v.setDesc i δ) ∨
      v.unlinkInode i = { v.setDesc i .zero with allocated := update v.allocated i false } := by
  rcases lt_or_ge 1 (v.desc i).linkcount with hlt | hle
  · exact .inl ⟨_, unlinkInode_keep hlt⟩
  · rcases Nat.lt_or_ge i v.reservedInodes with hlt | hge
    · exact .inl ⟨_, unlinkInode_reserved hle hlt⟩
    · exact .inr (unlinkInode_free hle hge)

@[simp] theorem unlinkInode_inodeCount (v : Names) (i : ℕ) :
    (v.unlinkInode i).inodeCount = v.inodeCount := by
  rcases v.unlinkInode_cases i with ⟨δ, h⟩ | h <;> rw [h] <;> rfl

@[simp] theorem unlinkInode_reservedInodes (v : Names) (i : ℕ) :
    (v.unlinkInode i).reservedInodes = v.reservedInodes := by
  rcases v.unlinkInode_cases i with ⟨δ, h⟩ | h <;> rw [h] <;> rfl

theorem unlinkInode_other (hx : x ≠ i) :
    (v.unlinkInode i).allocated x = v.allocated x ∧ (v.unlinkInode i).desc x = v.desc x := by
  rcases v.unlinkInode_cases i with ⟨δ, h⟩ | h
  · rw [h]
    exact ⟨rfl, setDesc_desc_of_ne hx⟩
  · rw [h]
    exact ⟨update_of_ne hx _ _, setDesc_desc_of_ne hx⟩

theorem unlinkInode_same (hdesc : w.desc i = v.desc i) (halloc : w.allocated i = v.allocated i)
    (hres : w.reservedInodes = v.reservedInodes) :
    (w.unlinkInode i).allocated i = (v.unlinkInode i).allocated i ∧
      (w.unlinkInode i).desc i = (v.unlinkInode i).desc i := by
  rcases lt_or_ge 1 (v.desc i).linkcount with hlt | hle
  · rw [unlinkInode_keep hlt, unlinkInode_keep (by rw [hdesc]; exact hlt),
      setDesc_desc_self, setDesc_desc_self, hdesc]
    exact ⟨halloc, rfl⟩
  · have hle' : (w.desc i).linkcount ≤ 1 := by
      rw [hdesc]
      exact hle
    rcases Nat.lt_or_ge i v.reservedInodes with hlt | hge
    · rw [unlinkInode_reserved hle hlt, unlinkInode_reserved hle' (hres ▸ hlt), setDesc_desc_self,
        setDesc_desc_self]
      exact ⟨halloc, rfl⟩
    · rw [unlinkInode_free hle hge, unlinkInode_free hle' (hres ▸ hge)]
      dsimp only
      rw [setDesc_desc_self, setDesc_desc_self, update_self, update_self]
      exact ⟨rfl, rfl⟩

namespace Consistent

section
variable (hv : v.Consistent)
include hv

theorem create (hi : v.allocated dir = true) (hdir : (v.desc dir).isDir = true)
    (hlook : (v.desc dir).entries.lookup name = none) (hfree : v.allocated i = false)
    (hbound : i < v.inodeCount) (t : Cred) (mode : ℕ) :
    ((v.allocInode t i mode).setEntries dir ((v.desc dir).entries ++ [(name, i)])).Consistent := by
  have hne : dir ≠ i := by
    rintro rfl
    simp [hfree] at hi
  have hres : v.reservedInodes ≤ i := by
    by_contra hlt
    have := hv.reserved i (not_le.mp hlt)
    simp [hfree] at this
  set u := v.allocInode t i mode with hu
  have hdesc {x : ℕ} (hx : x ≠ i) : u.desc x = v.desc x := allocInode_desc_of_ne hx
  have halloc {x : ℕ} (hx : x ≠ i) : u.allocated x = v.allocated x := allocInode_allocated_of_ne hx
  have hnew : u.desc i = ⟨mode, t.euid, t.egid, 1, [], []⟩ := allocInode_desc_self v t i mode
  have hent (x : ℕ) : u.entriesOf x = v.entriesOf x := by
    by_cases hx : x = i
    · subst hx
      rw [entriesOf_of_free hfree, entriesOf, hnew]
      split
      · rfl
      · rfl
    · rw [entriesOf, entriesOf, hdesc hx, halloc hx]
  have hold := entriesOf_of_live hi hdir
  have hextra : Extra v (u.setEntries dir ((v.desc dir).entries ++ [(name, i)])) dir name i := by
    refine .of_setEntries rfl rfl ((halloc hne).trans hi) ((congrArg Desc.isDir (hdesc hne)).trans hdir)
      hent ?_
    rw [hold]
    exact List.perm_append_singleton _ _
  have hcount : ((u.setEntries dir ((v.desc dir).entries ++ [(name, i)])).desc i).linkcount = 1 := by
    rw [(setEntries_same u dir _ i).2.2, hnew]
  refine hextra.enter hv ⟨hi, hdir⟩ ?_ (fun x hx => ?_) ?_ hbound ?_ (fun _ => ?_) fun _ => ⟨hres, hcount⟩
  · rw [hold]
    exact lookup_eq_none hlook
  · obtain ⟨h₁, h₂, h₃⟩ := setEntries_same u dir ((v.desc dir).entries ++ [(name, i)]) x
    rw [h₁, h₂, h₃, halloc hx, hdesc hx]
    exact ⟨rfl, rfl, rfl⟩
  · exact allocInode_allocated_self v t i mode
  · rintro rfl
    simp [hv.root.1] at hfree
  · rw [hcount, hv.linksTo_of_free hfree]
    rfl

theorem discard (hfree : v.allocated i = false) (t : Cred) (mode : ℕ) :
    ((v.allocInode t i mode).unlinkInode i).Consistent := by
  have hres : v.reservedInodes ≤ i := by
    by_contra hlt
    have := hv.reserved i (not_le.mp hlt)
    simp [hfree] at this
  have hcount : ((v.allocInode t i mode).desc i).linkcount = 1 := by
    simp [allocInode]
  have halloc : update (update v.allocated i true) i false = v.allocated := by
    rw [update_idem, ← hfree, update_eq_self]
  rw [unlinkInode_free hcount.le hres]
  refine hv.congr rfl rfl (fun x => congrFun halloc x) fun x hx => ?_
  have hne : x ≠ i := by
    rintro rfl
    simp [hfree] at hx
  have hdesc : ((v.allocInode t i mode).setDesc i .zero).desc x = v.desc x := by
    rw [setDesc_desc_of_ne hne]
    exact allocInode_desc_of_ne hne
  rw [hdesc]
  exact ⟨rfl, fun _ => rfl, fun _ => .refl _⟩

/-- An entry for a file that has one already, or for a special inode. The descriptor of the inode
becomes `δ`. -/
theorem link (hi : v.allocated dir = true) (hdir : (v.desc dir).isDir = true)
    (hlook : (v.desc dir).entries.lookup name = none) (hin : v.allocated i = true)
    (hfile : (v.desc i).isDir = false) {δ : Desc} (hδ : δ.isDir = false)
    (hlinks : v.reservedInodes ≤ i → δ.linkcount = (v.desc i).linkcount + 1) :
    ((v.setDesc i δ).setEntries dir ((v.desc dir).entries ++ [(name, i)])).Consistent := by
  have hne : dir ≠ i := by
    rintro rfl
    simp [hfile] at hdir
  have hold := entriesOf_of_live hi hdir
  have hroot : i ≠ rootInode := by
    rintro rfl
    simp [hv.root.2] at hfile
  have hextra : Extra v ((v.setDesc i δ).setEntries dir ((v.desc dir).entries ++ [(name, i)])) dir name i := by
    refine .of_setEntries rfl rfl hi ?_ (entriesOf_setDesc (entriesOf_of_not_dir hfile) hδ) ?_
    · rw [setDesc_desc_of_ne hne]
      exact hdir
    · rw [hold]
      exact List.perm_append_singleton _ _
  obtain ⟨-, hkind, hcount⟩ :=
    setEntries_same (v.setDesc i δ) dir ((v.desc dir).entries ++ [(name, i)]) i
  rw [setDesc_desc_self] at hkind hcount
  refine hextra.enter hv ⟨hi, hdir⟩ ?_ (fun x hx => ?_) hin (hv.bound i hin) hroot (fun hres => ?_)
    fun hisdir => ?_
  · rw [hold]
    exact lookup_eq_none hlook
  · obtain ⟨-, h₂, h₃⟩ :=
      setEntries_same (v.setDesc i δ) dir ((v.desc dir).entries ++ [(name, i)]) x
    rw [h₂, h₃, setDesc_desc_of_ne hx]
    exact ⟨rfl, rfl, rfl⟩
  · rw [hcount, hlinks hres, hv.links i hin hres]
  · rw [hkind, hδ] at hisdir
    simp at hisdir

theorem linkcount_pos (hin : v.allocated i = true) (hres : v.reservedInodes ≤ i) :
    1 ≤ (v.desc i).linkcount := by
  rw [hv.links i hin hres]
  have hroot := hv.root_reserved
  cases hv.reached i hin hres with
  | refl => omega
  | tail _ hedge =>
    have := linksTo_pos_of_child (hv.bound _ hedge.live.1) hedge
    omega

theorem unlinkAgain (hin : v.allocated i = true) (hfile : (v.desc i).isDir = false)
    {δ : Desc} (hδ : δ.isDir = false) (hlinks : δ.linkcount = (v.desc i).linkcount + 1) :
    ((v.setDesc i δ).unlinkInode i).Consistent := by
  have hdesc := setDesc_desc_self v i δ
  have hother {δ' : Desc} {x : ℕ} (hx : x ≠ i) : ((v.setDesc i δ).setDesc i δ').desc x = v.desc x := by
    rw [setDesc_desc_of_ne hx, setDesc_desc_of_ne hx]
  rcases lt_or_ge 1 δ.linkcount with hlt | hle
  · rw [unlinkInode_keep (by rw [hdesc]; exact hlt)]
    refine hv.congr rfl rfl (fun _ => rfl) fun x hx => ?_
    by_cases hxi : x = i
    · subst hxi
      rw [setDesc_desc_self, hdesc]
      refine ⟨hδ.trans hfile.symm, fun _ => ?_, fun hdir => ?_⟩
      · dsimp only
        omega
      · simp [hfile] at hdir
    · rw [hother hxi]
      exact ⟨rfl, fun _ => rfl, fun _ => .refl _⟩
  · have hres : i < v.reservedInodes := by
      by_contra hno
      have := hv.linkcount_pos hin (not_lt.mp hno)
      omega
    rw [unlinkInode_reserved (v := v.setDesc i δ) (by rw [hdesc]; exact hle) hres]
    refine hv.congr rfl rfl (fun _ => rfl) fun x hx => ?_
    by_cases hxi : x = i
    · subst hxi
      rw [setDesc_desc_self]
      refine ⟨hfile.symm, fun hge => ?_, fun hdir => ?_⟩
      · omega
      · simp [hfile] at hdir
    · rw [hother hxi]
      exact ⟨rfl, fun _ => rfl, fun _ => .refl _⟩

theorem unlink (hi : v.allocated dir = true) (hdir : (v.desc dir).isDir = true)
    (hlook : (v.desc dir).entries.lookup name = some i) (hleaf : v.entriesOf i = []) :
    ((v.setEntries dir (removeEntry name (v.desc dir).entries)).unlinkInode i).Consistent := by
  have hold := entriesOf_of_live hi hdir
  have hchild : v.Child dir i := ⟨name, by rw [hold]; exact mem_of_lookup hlook⟩
  have hin := hv.named dir i hchild
  have hroot : i ≠ rootInode := by
    rintro rfl
    exact hv.root_unnamed dir hchild
  have hne : i ≠ dir := by
    rintro rfl
    obtain ⟨k, hk⟩ := hchild
    rw [hleaf] at hk
    exact absurd hk List.not_mem_nil
  set u := v.setEntries dir (removeEntry name (v.desc dir).entries) with hu
  have hdesc : u.desc i = v.desc i := setDesc_desc_of_ne hne
  have huleaf : u.entriesOf i = [] := by
    rw [hu, setEntries, entriesOf_setDesc_of_ne hne]
    exact hleaf
  -- the entries without the one that is removed, whatever becomes of the inode
  have hextra {w : Names} (hent : ∀ x, w.entriesOf x = u.entriesOf x)
      (hcount : w.inodeCount = v.inodeCount) (hreserved : w.reservedInodes = v.reservedInodes) :
      Extra w v dir name i := by
    refine ⟨hcount.symm, hreserved.symm, ?_, fun d hd => ?_⟩
    · rw [hent, entriesOf_setEntries hi hdir, hold]
      exact removeEntry_perm hlook
    · rw [hent, hu, setEntries, entriesOf_setDesc_of_ne hd]
  have hsame {δ : Desc} {x : ℕ} (hx : x ≠ i) :
      ((u.setDesc i δ).desc x).isDir = (v.desc x).isDir ∧
        ((u.setDesc i δ).desc x).linkcount = (v.desc x).linkcount := by
    rw [setDesc_desc_of_ne hx]
    exact (setEntries_same v dir _ x).2
  rcases lt_or_ge 1 (v.desc i).linkcount with hlt | hle
  · have hfile : (v.desc i).isDir = false := by
      by_contra hno
      have := (hv.dirs i hin (by simpa using hno) hroot).2
      omega
    have hdec : Desc.isDir { v.desc i with linkcount := (v.desc i).linkcount - 1 } = false := hfile
    rw [unlinkInode_keep (by rw [hdesc]; exact hlt), hdesc]
    refine (hextra (entriesOf_setDesc huleaf hdec) rfl rfl).leave hv hleaf hroot
      (fun x hx => ⟨rfl, hsame hx⟩) (fun _ => ?_) fun hfree => ?_
    · rw [setDesc_desc_self]
      refine ⟨hfile, fun _ => ⟨rfl, ?_⟩⟩
      dsimp only
      omega
    · simp [show (u.setDesc i _).allocated i = v.allocated i from rfl, hin] at hfree
  · have hzero : Desc.zero.isDir = false := by decide
    rcases Nat.lt_or_ge i v.reservedInodes with hres | hres
    · rw [unlinkInode_reserved (v := u) (by rw [hdesc]; exact hle) hres]
      refine (hextra (entriesOf_setDesc huleaf hzero) rfl rfl).leave hv hleaf hroot
        (fun x hx => ⟨rfl, hsame hx⟩) (fun _ => ?_) fun hfree => ?_
      · rw [setDesc_desc_self]
        exact ⟨hzero, fun hge => absurd hge (not_le.mpr hres)⟩
      · simp [show (u.setDesc i _).allocated i = v.allocated i from rfl, hin] at hfree
    · have hone : (v.desc i).linkcount = 1 := le_antisymm hle (hv.linkcount_pos hin hres)
      rw [unlinkInode_free (v := u) (by rw [hdesc]; exact hle) hres]
      have hent (x : ℕ) : Names.entriesOf { u.setDesc i .zero with
          allocated := update u.allocated i false } x = u.entriesOf x := by
        by_cases hx : x = i
        · subst hx
          rw [huleaf]
          exact entriesOf_of_free (update_self _ _ _)
        · simp only [entriesOf, update_of_ne hx, setDesc_desc_of_ne hx]
      refine (hextra hent rfl rfl).leave hv hleaf hroot (fun x hx => ⟨?_, hsame hx⟩) (fun hkept => ?_)
        fun _ => ⟨hres, hone⟩
      · exact update_of_ne hx _ _
      · simp at hkept

theorem replace (hi : v.allocated dir = true) (hdir : (v.desc dir).isDir = true)
    (hlook : (v.desc dir).entries.lookup name = some old) (hfile : (v.desc old).isDir = false)
    (hfree : v.allocated i = false) (hbound : i < v.inodeCount) (t : Cred) (mode : ℕ) :
    (((v.allocInode t i mode).setEntries dir (replaceEntry name i (v.desc dir).entries)).unlinkInode
      old).Consistent := by
  have hold := entriesOf_of_live hi hdir
  have hin : v.allocated old = true :=
    hv.named dir old ⟨name, by rw [hold]; exact mem_of_lookup hlook⟩
  have hold_i : old ≠ i := by
    rintro rfl
    simp [hfree] at hin
  have hold_dir : old ≠ dir := by
    rintro rfl
    simp [hfile] at hdir
  have hdir_i : dir ≠ i := by
    rintro rfl
    simp [hfree] at hi
  -- first the old file is removed, then the new one is made
  set es := removeEntry name (v.desc dir).entries with hes
  have hnodup : (((name, old) :: es).map Prod.fst).Nodup := by
    rw [← ((removeEntry_perm hlook).map Prod.fst).nodup_iff, ← hold]
    exact hv.distinct dir
  have hu := hv.unlink hi hdir hlook (entriesOf_of_not_dir hfile)
  set u := (v.setEntries dir es).unlinkInode old with hudef
  have hudir : u.desc dir = { v.desc dir with entries := es } := by
    rw [(unlinkInode_other hold_dir.symm).2]
    exact setDesc_desc_self _ _ _
  have huother {x : ℕ} (hx : x ≠ old) (hx' : x ≠ dir) : u.desc x = v.desc x := by
    rw [(unlinkInode_other hx).2]
    exact setDesc_desc_of_ne hx'
  have hualloc {x : ℕ} (hx : x ≠ old) : u.allocated x = v.allocated x := (unlinkInode_other hx).1
  have hlook' : (u.desc dir).entries.lookup name = none := by
    rw [hudir]
    exact lookup_eq_none_of_not_mem (List.nodup_cons.mp hnodup).1
  have hcreate := hu.create ((hualloc hold_dir.symm).trans hi) (by rw [hudir]; exact hdir) hlook'
    ((hualloc hold_i.symm).trans hfree) (by rw [unlinkInode_inodeCount]; exact hbound) t mode
  -- the order of the two does not matter
  set w := (v.allocInode t i mode).setEntries dir (replaceEntry name i (v.desc dir).entries) with hw
  have hwi : w.desc i = ⟨mode, t.euid, t.egid, 1, [], []⟩ := by
    rw [hw, setEntries, setDesc_desc_of_ne hdir_i.symm, allocInode_desc_self]
  have hwother {x : ℕ} (hx : x ≠ i) (hx' : x ≠ dir) : w.desc x = v.desc x := by
    rw [hw, setEntries, setDesc_desc_of_ne hx', allocInode_desc_of_ne hx]
  have hwdir : w.desc dir = { v.desc dir with entries := replaceEntry name i (v.desc dir).entries } := by
    rw [hw, setEntries, setDesc_desc_self, allocInode_desc_of_ne hdir_i]
  have hwalloc {x : ℕ} (hx : x ≠ i) : w.allocated x = v.allocated x := by
    rw [(setEntries_same _ _ _ x).1, allocInode_allocated_of_ne hx]
  obtain ⟨hsame₁, hsame₂⟩ := unlinkInode_same (v := v.setEntries dir es)
    ((hwother hold_i hold_dir).trans (setDesc_desc_of_ne hold_dir).symm) (hwalloc hold_i) rfl
  refine hcreate.congr ?_ ?_ (fun x => ?_) fun x hx => ?_
  · rw [unlinkInode_inodeCount]
    exact (unlinkInode_inodeCount (v.setEntries dir es) old).symm
  · rw [unlinkInode_reservedInodes]
    exact (unlinkInode_reservedInodes (v.setEntries dir es) old).symm
  · rw [(setEntries_same _ _ _ x).1]
    by_cases hxi : x = i
    · subst hxi
      rw [(unlinkInode_other hold_i.symm).1, allocInode_allocated_self]
      exact allocInode_allocated_self v t x mode
    · rw [allocInode_allocated_of_ne hxi]
      by_cases hxo : x = old
      · subst hxo
        exact hsame₁
      · rw [(unlinkInode_other hxo).1, hualloc hxo]
        exact hwalloc hxi
  · by_cases hxd : x = dir
    · subst hxd
      rw [(unlinkInode_other hold_dir.symm).2, hwdir, setEntries, setDesc_desc_self,
        allocInode_desc_of_ne hdir_i, hudir]
      refine ⟨rfl, fun _ => rfl, fun _ => ?_⟩
      exact (replaceEntry_perm hlook i).trans (List.perm_append_singleton _ _).symm
    · have hdesc : (w.unlinkInode old).desc x = ((u.allocInode t i mode).setEntries dir
          ((u.desc dir).entries ++ [(name, i)])).desc x := by
        rw [setEntries, setDesc_desc_of_ne hxd]
        by_cases hxi : x = i
        · subst hxi
          rw [(unlinkInode_other hold_i.symm).2, hwi, allocInode_desc_self]
        · rw [allocInode_desc_of_ne hxi]
          by_cases hxo : x = old
          · subst hxo
            exact hsame₂
          · rw [(unlinkInode_other hxo).2, hwother hxi hxd, huother hxo hxd]
      rw [hdesc]
      exact ⟨rfl, fun _ => rfl, fun _ => .refl _⟩

end

theorem rename {newdir : ℕ} {newname : Path} (hv : v.Consistent) (hi : v.allocated dir = true)
    (hdir : (v.desc dir).isDir = true) (hlook : (v.desc dir).entries.lookup name = some i)
    (hi' : v.allocated newdir = true) (hdir' : (v.desc newdir).isDir = true)
    (hlook' : (v.desc newdir).entries.lookup newname = none)
    (hbelow : ¬ ReflTransGen v.Child i newdir) {u : Names}
    (hu : u = v.setEntries newdir ((v.desc newdir).entries ++ [(newname, i)])) :
    (u.desc dir).entries.lookup name = some i ∧
      (u.setEntries dir (removeEntry name (u.desc dir).entries)).Consistent := by
  have hold := entriesOf_of_live hi hdir
  have hold' := entriesOf_of_live hi' hdir'
  have hsame (x : ℕ) := setEntries_same v newdir ((v.desc newdir).entries ++ [(newname, i)]) x
  rw [← hu] at hsame
  have hulook : (u.desc dir).entries.lookup name = some i := by
    by_cases hd : dir = newdir
    · subst hd
      rw [hu, setEntries, setDesc_desc_self, List.lookup_append, hlook]
      rfl
    · rw [hu, setEntries, setDesc_desc_of_ne hd]
      exact hlook
  have hui : u.allocated dir = true := (hsame dir).1.trans hi
  have hudir : (u.desc dir).isDir = true := (hsame dir).2.1.trans hdir
  have hadd : Extra v u newdir newname i := by
    rw [hu]
    refine .of_setEntries rfl rfl hi' hdir' (fun _ => rfl) ?_
    rw [hold']
    exact List.perm_append_singleton _ _
  have hdel : Extra (u.setEntries dir (removeEntry name (u.desc dir).entries)) u dir name i := by
    refine ⟨rfl, rfl, ?_, fun d hd => ?_⟩
    · rw [entriesOf_setEntries hui hudir, entriesOf_of_live hui hudir]
      exact removeEntry_perm hulook
    · exact (entriesOf_setDesc_of_ne hd).symm
  refine ⟨hulook, hv.move hadd hdel ⟨hi', hdir'⟩ ?_ ?_ ?_ hbelow fun x => ?_⟩
  · rw [hold']
    exact lookup_eq_none hlook'
  · exact ⟨name, by rw [hold]; exact mem_of_lookup hlook⟩
  · -- the new entry is another one than the old entry
    have hmem : (newname, i) ∈ u.entriesOf newdir := hadd.here.mem_iff.mpr List.mem_cons_self
    refine ⟨newname, ?_⟩
    by_cases hd : newdir = dir
    · subst hd
      rcases List.mem_cons.mp (hdel.here.mem_iff.mp hmem) with heq | hmem'
      · obtain ⟨rfl, -⟩ := Prod.mk.inj heq
        simp [hlook] at hlook'
      · exact hmem'
    · rw [← hdel.other newdir hd]
      exact hmem
  · obtain ⟨h₁, h₂, h₃⟩ := setEntries_same u dir (removeEntry name (u.desc dir).entries) x
    obtain ⟨h₁', h₂', h₃'⟩ := hsame x
    exact ⟨h₁.trans h₁', h₂.trans h₂', h₃.trans h₃'⟩

theorem truncate (hv : v.Consistent) (i : ℕ) :
    (v.setDesc i { v.desc i with content := [] }).Consistent := by
  refine hv.congr rfl rfl (fun _ => rfl) fun x _ => ?_
  by_cases hx : x = i
  · subst hx
    rw [setDesc_desc_self]
    exact ⟨rfl, fun _ => rfl, fun _ => .refl _⟩
  · rw [setDesc_desc_of_ne hx]
    exact ⟨rfl, fun _ => rfl, fun _ => .refl _⟩

end Consistent

end Names

end SimpleKernel.Dfs
