import SimpleKernel.Dfs.Namespace
import SimpleKernel.Lib.Forest
import Mathlib.Algebra.BigOperators.Ring.Finset
import Mathlib.Algebra.Order.BigOperators.Group.Finset

/-! Consistent names: every entry names an inode in use, the link counts are right, and the directories
form a tree. -/
namespace SimpleKernel.Dfs
open Relation Forest
open Vfs (Path Cred)

namespace Names
variable {v w : Names} {d dir i j x : ℕ} {name : Path} {es : List (Path × ℕ)}

/-- The entries of a directory that is in use. -/
def entriesOf (v : Names) (d : ℕ) : List (Path × ℕ) :=
  if v.allocated d = true ∧ (v.desc d).isDir = true then (v.desc d).entries else []

/-- The directory `d` has an entry for `i`. -/
def Child (v : Names) (d i : ℕ) : Prop := ∃ name, (name, i) ∈ v.entriesOf d

/-- The number of entries in `es` that name `i`. -/
def refs (es : List (Path × ℕ)) (i : ℕ) : ℕ := es.countP fun e => e.2 == i

/-- The number of directory entries that name `i`. -/
def linksTo (v : Names) (i : ℕ) : ℕ := ∑ d ∈ Finset.range v.inodeCount, refs (v.entriesOf d) i

/-- There is a path from the root. -/
def Reached (v : Names) (i : ℕ) : Prop := ReflTransGen v.Child rootInode i

structure Consistent (v : Names) : Prop where
  root : v.allocated rootInode = true ∧ (v.desc rootInode).isDir = true
  bound : ∀ i, v.allocated i = true → i < v.inodeCount
  reserved : ∀ i, i < v.reservedInodes → v.allocated i = true
  root_reserved : rootInode < v.reservedInodes
  distinct : ∀ d, ((v.entriesOf d).map Prod.fst).Nodup
  named : ∀ d i, v.Child d i → v.allocated i = true
  root_unnamed : ∀ d, ¬ v.Child d rootInode
  links : ∀ i, v.allocated i = true → v.reservedInodes ≤ i → (v.desc i).linkcount = v.linksTo i
  dirs : ∀ i, v.allocated i = true → (v.desc i).isDir = true → i ≠ rootInode →
    v.reservedInodes ≤ i ∧ (v.desc i).linkcount = 1
  reached : ∀ i, v.allocated i = true → v.reservedInodes ≤ i → v.Reached i

/-! Counting. -/

theorem refs_cons (name : Path) (j : ℕ) (es : List (Path × ℕ)) (i : ℕ) :
    refs ((name, j) :: es) i = refs es i + if j = i then 1 else 0 := by
  rw [refs, List.countP_cons]
  simp [refs]

theorem refs_pos : 0 < refs es i ↔ ∃ name, (name, i) ∈ es := by
  rw [refs, List.countP_pos_iff]
  constructor
  · rintro ⟨⟨name, j⟩, hmem, heq⟩
    obtain rfl : j = i := by simpa using heq
    exact ⟨name, hmem⟩
  · rintro ⟨name, hmem⟩
    exact ⟨(name, i), hmem, by simp⟩

theorem child_iff : v.Child d i ↔ 0 < refs (v.entriesOf d) i := refs_pos.symm

theorem linksTo_congr (hcount : w.inodeCount = v.inodeCount)
    (h : ∀ d, refs (w.entriesOf d) i = refs (v.entriesOf d) i) : w.linksTo i = v.linksTo i := by
  rw [linksTo, hcount]
  exact Finset.sum_congr rfl fun d _ => h d

theorem linksTo_update (hcount : w.inodeCount = v.inodeCount) (hdir : dir < v.inodeCount)
    (h : ∀ d, d ≠ dir → refs (w.entriesOf d) i = refs (v.entriesOf d) i) :
    w.linksTo i + refs (v.entriesOf dir) i = v.linksTo i + refs (w.entriesOf dir) i := by
  have hmem : dir ∈ Finset.range v.inodeCount := Finset.mem_range.mpr hdir
  have hrest : ∑ d ∈ (Finset.range v.inodeCount).erase dir, refs (w.entriesOf d) i =
      ∑ d ∈ (Finset.range v.inodeCount).erase dir, refs (v.entriesOf d) i :=
    Finset.sum_congr rfl fun d hd => h d (Finset.ne_of_mem_erase hd)
  rw [linksTo, linksTo, hcount, ← Finset.add_sum_erase _ _ hmem, ← Finset.add_sum_erase _ _ hmem]
  omega

theorem linksTo_pos_of_child (hd : d < v.inodeCount) (h : v.Child d i) : 0 < v.linksTo i := by
  have hle := Finset.single_le_sum (f := fun d => refs (v.entriesOf d) i) (fun _ _ => Nat.zero_le _)
    (Finset.mem_range.mpr hd)
  exact (child_iff.mp h).trans_le hle

theorem child_of_linksTo_pos (h : 0 < v.linksTo i) : ∃ d, v.Child d i := by
  by_contra hno
  push Not at hno
  have hzero : v.linksTo i = 0 := by
    refine Finset.sum_eq_zero fun d _ => ?_
    by_contra hne
    exact hno d (child_iff.mpr (Nat.pos_of_ne_zero hne))
  omega

theorem parent_unique {p q : ℕ} (hp : p < v.inodeCount) (hq : q < v.inodeCount) (hlinks : v.linksTo i ≤ 1)
    (hpi : v.Child p i) (hqi : v.Child q i) : p = q := by
  by_contra hne
  have hmem : p ∈ Finset.range v.inodeCount := Finset.mem_range.mpr hp
  have hmem' : q ∈ (Finset.range v.inodeCount).erase p :=
    Finset.mem_erase.mpr ⟨Ne.symm hne, Finset.mem_range.mpr hq⟩
  have hle := Finset.single_le_sum (f := fun d => refs (v.entriesOf d) i) (fun _ _ => Nat.zero_le _) hmem'
  have hsum := Finset.add_sum_erase _ (fun d => refs (v.entriesOf d) i) hmem
  rw [linksTo] at hlinks
  have hpos := child_iff.mp hpi
  have hpos' := child_iff.mp hqi
  omega

theorem entriesOf_of_live (h : v.allocated d = true) (hdir : (v.desc d).isDir = true) :
    v.entriesOf d = (v.desc d).entries := if_pos ⟨h, hdir⟩

theorem entriesOf_of_not_dir (h : (v.desc d).isDir = false) : v.entriesOf d = [] :=
  if_neg fun hlive => by simp [h] at hlive

theorem entriesOf_of_free (h : v.allocated d = false) : v.entriesOf d = [] :=
  if_neg fun hlive => by simp [h] at hlive

theorem Child.live (h : v.Child d i) : v.allocated d = true ∧ (v.desc d).isDir = true := by
  obtain ⟨name, hmem⟩ := h
  rw [entriesOf] at hmem
  split at hmem
  · next hlive => exact hlive
  · exact absurd hmem List.not_mem_nil

namespace Consistent

theorem allocated_of_reached (h : v.Consistent) (hi : v.Reached i) : v.allocated i = true := by
  cases hi with
  | refl => exact h.root.1
  | tail _ hedge => exact h.named _ _ hedge

theorem no_cycle (h : v.Consistent) (i : ℕ) : ¬ TransGen v.Child i i := by
  intro hloop
  obtain ⟨y, hiy, -⟩ := TransGen.head'_iff.mp hloop
  obtain ⟨hi, hdir⟩ := hiy.live
  have hreach : ReflTransGen v.Child rootInode i := by
    by_cases hroot : i = rootInode
    · rw [hroot]
    · exact h.reached i hi (h.dirs i hi hdir hroot).1
  refine acyclic h.root_unnamed (fun p q x y hp hq hxy => ?_) hreach hloop
  obtain ⟨hx, hxdir⟩ := hxy.live
  have hne : x ≠ rootInode := by
    rintro rfl
    exact h.root_unnamed p hp
  obtain ⟨hres, hone⟩ := h.dirs x hx hxdir hne
  have hlinks := h.links x hx hres
  exact parent_unique (h.bound p hp.live.1) (h.bound q hq.live.1) (by omega) hp hq

theorem reached_of_dir (h : v.Consistent) (hi : v.allocated i = true) (hdir : (v.desc i).isDir = true) :
    v.Reached i := by
  by_cases hroot : i = rootInode
  · rw [hroot]
    exact .refl
  · exact h.reached i hi (h.dirs i hi hdir hroot).1

theorem dir_of_child (h : v.Consistent) (hi : v.Child d i) : v.Reached d :=
  h.reached_of_dir hi.live.1 hi.live.2

theorem linksTo_of_free (h : v.Consistent) (hi : v.allocated i = false) : v.linksTo i = 0 := by
  by_contra hne
  obtain ⟨d, hd⟩ := child_of_linksTo_pos (Nat.pos_of_ne_zero hne)
  have := h.named d i hd
  simp [hi] at this

end Consistent

/-- `w` has one entry more than `v`. -/
structure Extra (v w : Names) (dir : ℕ) (name : Path) (i : ℕ) : Prop where
  count : w.inodeCount = v.inodeCount
  reserved : w.reservedInodes = v.reservedInodes
  here : (w.entriesOf dir).Perm ((name, i) :: v.entriesOf dir)
  other : ∀ d, d ≠ dir → w.entriesOf d = v.entriesOf d

namespace Extra

section
variable (h : Extra v w dir name i)
include h

theorem refs_other (hd : d ≠ dir) :
    refs (w.entriesOf d) x = refs (v.entriesOf d) x := by
  rw [h.other d hd]

theorem refs_here :
    refs (w.entriesOf dir) x = refs (v.entriesOf dir) x + if i = x then 1 else 0 := by
  rw [refs, h.here.countP_eq, ← refs, refs_cons]

theorem child : w.Child d x ↔ v.Child d x ∨ d = dir ∧ x = i := by
  rw [child_iff, child_iff]
  by_cases hd : d = dir
  · subst hd
    rw [h.refs_here]
    by_cases hx : i = x
    · subst hx
      simp
    · simp [hx, Ne.symm hx]
  · rw [h.refs_other hd]
    simp [hd]

theorem links (hdir : dir < v.inodeCount) (x : ℕ) :
    w.linksTo x = v.linksTo x + if i = x then 1 else 0 := by
  have hsum := linksTo_update h.count hdir fun d hd => h.refs_other (x := x) hd
  rw [h.refs_here] at hsum
  omega

theorem enter (hv : v.Consistent)
    (hdir : v.allocated dir = true ∧ (v.desc dir).isDir = true)
    (hname : name ∉ (v.entriesOf dir).map Prod.fst)
    (hsame : ∀ x, x ≠ i → w.allocated x = v.allocated x ∧ (w.desc x).isDir = (v.desc x).isDir ∧
      (w.desc x).linkcount = (v.desc x).linkcount)
    (hi : w.allocated i = true) (hbound : i < v.inodeCount) (hroot : i ≠ rootInode)
    (hlinks : v.reservedInodes ≤ i → (w.desc i).linkcount = v.linksTo i + 1)
    (hisdir : (w.desc i).isDir = true → v.reservedInodes ≤ i ∧ (w.desc i).linkcount = 1) :
    w.Consistent := by
  have halloc {x : ℕ} (hx : w.allocated x = true) : x = i ∨ x ≠ i ∧ v.allocated x = true := by
    by_cases hxi : x = i
    · exact .inl hxi
    · exact .inr ⟨hxi, (hsame x hxi).1 ▸ hx⟩
  have hmono {x : ℕ} (hx : v.Reached x) : w.Reached x :=
    ReflTransGen.mono (fun _ _ hpy => h.child.mpr (.inl hpy)) _ _ hx
  obtain ⟨hr₁, hr₂, -⟩ := hsame rootInode hroot.symm
  refine ⟨⟨hr₁.trans hv.root.1, hr₂.trans hv.root.2⟩, fun x hx => ?_, fun x hx => ?_, ?_, fun d => ?_,
    fun d x hx => ?_, fun d hd => ?_, fun x hx hres => ?_, fun x hx hxdir hne => ?_, fun x hx hres => ?_⟩
  · rw [h.count]
    rcases halloc hx with rfl | ⟨-, hx'⟩
    · exact hbound
    · exact hv.bound x hx'
  · rw [h.reserved] at hx
    by_cases hxi : x = i
    · rw [hxi]
      exact hi
    · rw [(hsame x hxi).1]
      exact hv.reserved x hx
  · rw [h.reserved]
    exact hv.root_reserved
  · by_cases hd : d = dir
    · subst hd
      rw [(h.here.map Prod.fst).nodup_iff, List.map_cons, List.nodup_cons]
      exact ⟨hname, hv.distinct d⟩
    · rw [h.other d hd]
      exact hv.distinct d
  · rcases h.child.mp hx with hold | ⟨-, rfl⟩
    · by_cases hxi : x = i
      · rw [hxi]
        exact hi
      · rw [(hsame x hxi).1]
        exact hv.named d x hold
    · exact hi
  · rcases h.child.mp hd with hold | ⟨-, heq⟩
    · exact hv.root_unnamed d hold
    · exact hroot heq.symm
  · rw [h.reserved] at hres
    rw [h.links (hv.bound dir hdir.1) x]
    rcases halloc hx with rfl | ⟨hxi, hx'⟩
    · rw [if_pos rfl, hlinks hres]
      rfl
    · rw [if_neg (Ne.symm hxi), (hsame x hxi).2.2, hv.links x hx' hres]
      rfl
  · rw [h.reserved]
    rcases halloc hx with rfl | ⟨hxi, hx'⟩
    · exact hisdir hxdir
    · rw [(hsame x hxi).2.1] at hxdir
      rw [(hsame x hxi).2.2]
      exact hv.dirs x hx' hxdir hne
  · rw [h.reserved] at hres
    rcases halloc hx with rfl | ⟨-, hx'⟩
    · exact (hmono (hv.reached_of_dir hdir.1 hdir.2)).tail (h.child.mpr (.inr ⟨rfl, rfl⟩))
    · exact hmono (hv.reached x hx' hres)

end

theorem leave (h : Extra w v dir name i) (hv : v.Consistent) (hleaf : v.entriesOf i = [])
    (hroot : i ≠ rootInode)
    (hsame : ∀ x, x ≠ i → w.allocated x = v.allocated x ∧ (w.desc x).isDir = (v.desc x).isDir ∧
      (w.desc x).linkcount = (v.desc x).linkcount)
    (hkeep : w.allocated i = true → (w.desc i).isDir = false ∧
      (v.reservedInodes ≤ i → (w.desc i).linkcount = (v.desc i).linkcount - 1 ∧
        0 < (w.desc i).linkcount))
    (hfree : w.allocated i = false → v.reservedInodes ≤ i ∧ (v.desc i).linkcount = 1) :
    w.Consistent := by
  have hchild : v.Child dir i := h.child.mpr (.inr ⟨rfl, rfl⟩)
  have hi : v.allocated i = true := hv.named dir i hchild
  have hdirlt : dir < w.inodeCount := by
    rw [← h.count]
    exact hv.bound dir hchild.live.1
  have halloc {x : ℕ} (hx : w.allocated x = true) : v.allocated x = true := by
    by_cases hxi : x = i
    · rw [hxi]
      exact hi
    · exact (hsame x hxi).1 ▸ hx
  have hlinks (x : ℕ) := h.links hdirlt x
  -- a path to another inode does not lead through `i`
  have hreach {x : ℕ} (hxi : x ≠ i) (hx : v.Reached x) : w.Reached x := by
    refine reach_of_leaf (fun y hy => ?_) (fun p y hy hpy => ?_) hxi hx
    · obtain ⟨name, hmem⟩ := hy
      rw [hleaf] at hmem
      exact absurd hmem List.not_mem_nil
    · rcases h.child.mp hpy with hold | ⟨-, heq⟩
      · exact hold
      · exact absurd heq hy
  obtain ⟨hr₁, hr₂, -⟩ := hsame rootInode hroot.symm
  refine ⟨⟨hr₁.trans hv.root.1, hr₂.trans hv.root.2⟩, fun x hx => ?_, fun x hx => ?_, ?_, fun d => ?_,
    fun d x hx => ?_, fun d hd => ?_, fun x hx hres => ?_, fun x hx hxdir hne => ?_, fun x hx hres => ?_⟩
  · rw [← h.count]
    exact hv.bound x (halloc hx)
  · rw [← h.reserved] at hx
    by_cases hxi : x = i
    · rw [hxi] at hx ⊢
      by_contra hno
      have := (hfree (by simpa using hno)).1
      omega
    · rw [(hsame x hxi).1]
      exact hv.reserved x hx
  · rw [← h.reserved]
    exact hv.root_reserved
  · have hd := hv.distinct d
    by_cases hdir : d = dir
    · subst hdir
      rw [(h.here.map Prod.fst).nodup_iff, List.map_cons, List.nodup_cons] at hd
      exact hd.2
    · rwa [h.other d hdir] at hd
  · have hold := hv.named d x (h.child.mpr (.inl hx))
    by_cases hxi : x = i
    · -- the last entry of an inode that was freed is gone
      subst hxi
      by_contra hno
      obtain ⟨hres, hone⟩ := hfree (by simpa using hno)
      have hcount := hv.links x hi hres
      have hsum := hlinks x
      rw [if_pos rfl] at hsum
      have hpos := linksTo_pos_of_child (h.count ▸ hv.bound d (halloc hx.live.1)) hx
      omega
    · rw [(hsame x hxi).1]
      exact hold
  · exact hv.root_unnamed d (h.child.mpr (.inl hd))
  · rw [← h.reserved] at hres
    have hsum := hlinks x
    by_cases hxi : x = i
    · subst hxi
      rw [if_pos rfl] at hsum
      have hcount := hv.links x hi hres
      rw [((hkeep hx).2 hres).1]
      omega
    · rw [if_neg (Ne.symm hxi), Nat.add_zero] at hsum
      rw [(hsame x hxi).2.2, hv.links x (halloc hx) hres, hsum]
  · rw [← h.reserved]
    by_cases hxi : x = i
    · subst hxi
      rw [(hkeep hx).1] at hxdir
      simp at hxdir
    · rw [(hsame x hxi).2.1] at hxdir
      rw [(hsame x hxi).2.2]
      exact hv.dirs x (halloc hx) hxdir hne
  · rw [← h.reserved] at hres
    by_cases hxi : x = i
    · subst hxi
      -- another entry is left
      obtain ⟨hdec, hpos⟩ := (hkeep hx).2 hres
      have hcount := hv.links x hi hres
      have hsum := hlinks x
      rw [if_pos rfl] at hsum
      obtain ⟨d, hd⟩ := child_of_linksTo_pos (by omega : 0 < w.linksTo x)
      have hdx : d ≠ x := by
        rintro rfl
        obtain ⟨y, hy⟩ := hd
        rw [entriesOf_of_not_dir (hkeep hx).1] at hy
        exact absurd hy List.not_mem_nil
      exact (hreach hdx (hv.dir_of_child (h.child.mpr (.inl hd)))).tail hd
    · exact hreach hxi (hv.reached x (halloc hx) hres)

end Extra

theorem Consistent.move {u : Names} {newdir : ℕ} {newname : Path} (hv : v.Consistent)
    (hadd : Extra v u newdir newname i) (hdel : Extra w u dir name i)
    (hlive : v.allocated newdir = true ∧ (v.desc newdir).isDir = true)
    (hname : newname ∉ (v.entriesOf newdir).map Prod.fst) (hchild : v.Child dir i)
    (hnew : w.Child newdir i) (hbelow : ¬ ReflTransGen v.Child i newdir)
    (hsame : ∀ x, w.allocated x = v.allocated x ∧ (w.desc x).isDir = (v.desc x).isDir ∧
      (w.desc x).linkcount = (v.desc x).linkcount) : w.Consistent := by
  have hcount : w.inodeCount = v.inodeCount := hdel.count.symm.trans hadd.count
  have hreserved : w.reservedInodes = v.reservedInodes := hdel.reserved.symm.trans hadd.reserved
  have halloc (x : ℕ) : w.allocated x = v.allocated x := (hsame x).1
  have hlinks (x : ℕ) : w.linksTo x = v.linksTo x := by
    have h₁ := hadd.links (hv.bound newdir hlive.1) x
    have h₂ := hdel.links (hcount ▸ hv.bound dir hchild.live.1) x
    omega
  -- entries for other inodes stay
  have hkeep (p y : ℕ) (hy : y ≠ i) (hpy : v.Child p y) : w.Child p y := by
    rcases hdel.child.mp (hadd.child.mpr (.inl hpy)) with hold | ⟨-, heq⟩
    · exact hold
    · exact absurd heq hy
  have hback {d x : ℕ} (hx : w.Child d x) : v.Child d x ∨ d = newdir ∧ x = i :=
    hadd.child.mp (hdel.child.mpr (.inl hx))
  have hi : v.allocated i = true := hv.named dir i hchild
  refine ⟨⟨(halloc _).trans hv.root.1, (hsame _).2.1.trans hv.root.2⟩, fun x hx => ?_, fun x hx => ?_, ?_,
    fun d => ?_, fun d x hx => ?_, fun d hd => ?_, fun x hx hres => ?_, fun x hx hxdir hne => ?_,
    fun x hx hres => ?_⟩
  · rw [hcount]
    rw [halloc] at hx
    exact hv.bound x hx
  · rw [halloc]
    rw [hreserved] at hx
    exact hv.reserved x hx
  · rw [hreserved]
    exact hv.root_reserved
  · have hu : ((u.entriesOf d).map Prod.fst).Nodup := by
      by_cases hd : d = newdir
      · subst hd
        rw [(hadd.here.map Prod.fst).nodup_iff, List.map_cons, List.nodup_cons]
        exact ⟨hname, hv.distinct d⟩
      · rw [hadd.other d hd]
        exact hv.distinct d
    by_cases hd : d = dir
    · subst hd
      rw [(hdel.here.map Prod.fst).nodup_iff, List.map_cons, List.nodup_cons] at hu
      exact hu.2
    · rwa [hdel.other d hd] at hu
  · rw [halloc]
    rcases hback hx with hold | ⟨-, rfl⟩
    · exact hv.named d x hold
    · exact hi
  · rcases hback hd with hold | ⟨-, rfl⟩
    · exact hv.root_unnamed d hold
    · exact hv.root_unnamed dir hchild
  · rw [halloc] at hx
    rw [hreserved] at hres
    rw [(hsame x).2.2, hlinks]
    exact hv.links x hx hres
  · rw [halloc] at hx
    rw [(hsame x).2.1] at hxdir
    rw [hreserved, (hsame x).2.2]
    exact hv.dirs x hx hxdir hne
  · rw [halloc] at hx
    rw [hreserved] at hres
    exact reach_of_move hkeep hnew (hv.reached_of_dir hlive.1 hlive.2) hbelow (hv.reached x hx hres)

theorem Consistent.congr (hv : v.Consistent) (hcount : w.inodeCount = v.inodeCount)
    (hreserved : w.reservedInodes = v.reservedInodes) (halloc : ∀ x, w.allocated x = v.allocated x)
    (hsame : ∀ x, v.allocated x = true → (w.desc x).isDir = (v.desc x).isDir ∧
      (v.reservedInodes ≤ x → (w.desc x).linkcount = (v.desc x).linkcount) ∧
      ((v.desc x).isDir = true → (w.desc x).entries.Perm (v.desc x).entries)) : w.Consistent := by
  have hent (d : ℕ) : (w.entriesOf d).Perm (v.entriesOf d) := by
    cases hd : v.allocated d with
    | false => rw [entriesOf_of_free hd, entriesOf_of_free ((halloc d).trans hd)]
    | true =>
      obtain ⟨hkind, -, hperm⟩ := hsame d hd
      cases hdir : (v.desc d).isDir with
      | false => rw [entriesOf_of_not_dir hdir, entriesOf_of_not_dir (hkind.trans hdir)]
      | true =>
        rw [entriesOf_of_live hd hdir, entriesOf_of_live ((halloc d).trans hd) (hkind.trans hdir)]
        exact hperm hdir
  have hrefs (d x : ℕ) : refs (w.entriesOf d) x = refs (v.entriesOf d) x := (hent d).countP_eq _
  have hchild (d x : ℕ) : w.Child d x ↔ v.Child d x := by
    rw [child_iff, child_iff, hrefs]
  have hedge : w.Child = v.Child := by
    funext d x
    exact propext (hchild d x)
  have hroot := hv.root.1
  refine ⟨⟨(halloc _).trans hroot, (hsame _ hroot).1.trans hv.root.2⟩, fun x hx => ?_, fun x hx => ?_, ?_,
    fun d => ?_, fun d x hx => ?_, fun d hd => ?_, fun x hx hres => ?_, fun x hx hxdir hne => ?_,
    fun x hx hres => ?_⟩
  · rw [hcount]
    rw [halloc] at hx
    exact hv.bound x hx
  · rw [halloc]
    rw [hreserved] at hx
    exact hv.reserved x hx
  · rw [hreserved]
    exact hv.root_reserved
  · exact ((hent d).map Prod.fst).nodup_iff.mpr (hv.distinct d)
  · rw [halloc]
    exact hv.named d x ((hchild d x).mp hx)
  · exact hv.root_unnamed d ((hchild d _).mp hd)
  · rw [halloc] at hx
    rw [hreserved] at hres
    rw [(hsame x hx).2.1 hres, hv.links x hx hres, linksTo_congr hcount fun d => hrefs d x]
  · rw [halloc] at hx
    rw [(hsame x hx).1] at hxdir
    obtain ⟨hres, hone⟩ := hv.dirs x hx hxdir hne
    rw [hreserved, (hsame x hx).2.1 hres]
    exact ⟨hres, hone⟩
  · rw [halloc] at hx
    rw [hreserved] at hres
    rw [Reached, hedge]
    exact hv.reached x hx hres

end Names

end SimpleKernel.Dfs
