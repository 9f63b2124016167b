import SimpleKernel.Dfs.Blocks
import SimpleKernel.Dfs.Inode
import SimpleKernel.Lib.PageTree
import Mathlib.Data.Nat.Bitwise
import Mathlib.Order.Interval.Finset.Nat

/-! The block directory as a radix tree: which node every pointer leads to, what `get_inode_block`
reads, and what `set_inode_block` does to a block that the file has. -/
namespace SimpleKernel.Dfs
open PageTree

/-- The number of block pointers in a page. -/
def Filsys.ptrs (fs : Filsys) : ℕ := 2 ^ fs.logBlkptrsPerBlock

theorem Filsys.Ok.top_le_ptrs {fs : Filsys} (h : fs.Ok) : topBlockdirSize ≤ fs.ptrs := by
  have hpow : 2 ^ 4 ≤ 2 ^ fs.logBlkptrsPerBlock := Nat.pow_le_pow_right (by decide) h.log
  exact hpow

theorem Filsys.ptrs_pos (fs : Filsys) : 0 < fs.ptrs := Nat.two_pow_pos _

/-- The nodes on the way to the first `n` blocks of a file. -/
def upTo (B d n : ℕ) : ℕ → ℕ → Prop := fun r j => r ≤ d ∧ j * B ^ r < n

/-- The directory is a tree over `n` blocks; `node 0 i` is block `i` of the file. -/
structure Inode.Maps (inode : Inode) (n : ℕ) (node : ℕ → ℕ → ℕ) : Prop where
  tree : IsTree inode.fs.ptrs topBlockdirSize inode.depth inode.blockdir inode.fs.page
    (upTo inode.fs.ptrs inode.depth n) node
  blocks : inode.blocks = n

/-- The blocks and the directory pages are distinct and in use. -/
structure Inode.WellFormed (inode : Inode) (n : ℕ) (node : ℕ → ℕ → ℕ) : Prop
    extends Inode.Maps inode n node where
  ok : inode.fs.Ok
  inode_group : inode.ino / inode.fs.inodesPerGroup < inode.fs.groupCount
  in_use : ∀ r j, upTo inode.fs.ptrs inode.depth n r j →
    inode.fs.InGroup (node r j) ∧ inode.fs.used (node r j) = true
  distinct : ∀ r j r' j', upTo inode.fs.ptrs inode.depth n r j →
    upTo inode.fs.ptrs inode.depth n r' j' → node r j = node r' j' → r = r' ∧ j = j'

theorem not_upTo_zero (B d r j : ℕ) : ¬ upTo B d 0 r j := fun hl => absurd hl.2 (Nat.not_lt_zero _)

theorem Inode.WellFormed.empty {inode : Inode} {node : ℕ → ℕ → ℕ} (hok : inode.fs.Ok)
    (hgroup : inode.ino / inode.fs.inodesPerGroup < inode.fs.groupCount) (hblocks : inode.blocks = 0)
    (htop : ∀ j, j < topBlockdirSize → inode.blockdir j = 0) : inode.WellFormed 0 node :=
  ⟨⟨IsTree.empty (not_upTo_zero _ _) htop, hblocks⟩, hok, hgroup,
    fun r j hl => absurd hl (not_upTo_zero _ _ r j),
    fun r j _ _ hl => absurd hl (not_upTo_zero _ _ r j)⟩

/-! The path to a block. -/

theorem path_mod (B d i r : ℕ) (hr : r ≤ d) : path B r (i % B ^ d) = path B r i := by
  induction r with
  | zero => rfl
  | succ r ih =>
    have hdvd : B ^ r * B ∣ B ^ d := by
      exact Nat.pow_dvd_pow B hr
    rw [path, path, ih (by omega), ← Nat.mod_mul_right_div_self, ← Nat.mod_mul_right_div_self,
      Nat.mod_mod_of_dvd _ hdvd]

theorem splitFrom_eq (log d i : ℕ) :
    splitFrom log d i = i / (2 ^ log) ^ d :: path (2 ^ log) d i := by
  induction d generalizing i with
  | zero => simp [splitFrom, path]
  | succ d ih =>
    have hpow : 2 ^ ((d + 1) * log) = (2 ^ log) ^ (d + 1) := by
      rw [← Nat.pow_mul, Nat.mul_comm]
    have hdvd : (2 ^ log) ^ d * 2 ^ log = (2 ^ log) ^ (d + 1) := (Nat.pow_succ ..).symm
    rw [splitFrom, ih, path, Nat.shiftRight_eq_div_pow, Nat.one_shiftLeft,
      Nat.and_two_pow_sub_one_eq_mod, hpow, path_mod _ _ _ _ (Nat.le_succ d), ← hdvd,
      Nat.mod_mul_right_div_self]

variable {inode inode' : Inode} {n i r j b : ℕ} {node node' : ℕ → ℕ → ℕ}

theorem splitLevels_eq (hfit : inode.depth * inode.fs.logBlkptrsPerBlock < 32) (i : ℕ) :
    inode.splitLevels i =
      some (i / inode.fs.ptrs ^ inode.depth :: path inode.fs.ptrs inode.depth i) := by
  rw [Inode.splitLevels, if_pos hfit, splitFrom_eq]
  rfl

theorem upTo_div {B d : ℕ} (hi : i < n) (hr : r ≤ d) : upTo B d n r (i / B ^ r) :=
  ⟨hr, (Nat.div_mul_le_self i _).trans_lt hi⟩

theorem upTo_parent {B d : ℕ} (hl : upTo B d n r j) (hr : r < d) : upTo B d n (r + 1) (j / B) := by
  refine ⟨hr, lt_of_le_of_lt ?_ hl.2⟩
  calc j / B * B ^ (r + 1) = j / B * B * B ^ r := by rw [Nat.pow_succ, Nat.mul_assoc, Nat.mul_comm B]
    _ ≤ j * B ^ r := Nat.mul_le_mul_right _ (Nat.div_mul_le_self j B)

theorem Inode.Maps.slot (h : inode.Maps n node) (hi : i < n) (hr : r < inode.depth) :
    inode.fs.page (node (r + 1) (i / inode.fs.ptrs ^ (r + 1))) (i / inode.fs.ptrs ^ r % inode.fs.ptrs) =
      node r (i / inode.fs.ptrs ^ r) := by
  rw [div_pow_succ]
  exact h.tree.page_live r _ (upTo_div hi hr.le) hr

theorem Inode.Maps.top_slot (h : inode.Maps n node) (hi : i < n) :
    i / inode.fs.ptrs ^ inode.depth < topBlockdirSize ∧
      inode.blockdir (i / inode.fs.ptrs ^ inode.depth) =
        node inode.depth (i / inode.fs.ptrs ^ inode.depth) :=
  h.tree.top_live _ (upTo_div hi le_rfl)

theorem Inode.Maps.lookup (h : inode.Maps n node) (hi : i < n) (hr : r ≤ inode.depth) :
    Inode.lookup inode.fs.page (node r (i / inode.fs.ptrs ^ r)) (path inode.fs.ptrs r i) =
      node 0 i := by
  induction r with
  | zero => simp [path, Inode.lookup]
  | succ r ih =>
    have hne := h.tree.ne_zero r _ (upTo_div hi (by omega : r ≤ inode.depth))
    rw [path, Inode.lookup, h.slot hi hr, if_neg hne]
    exact ih (by omega)

theorem Inode.Maps.getInodeBlock (h : inode.Maps n node) (hi : i < n)
    (hfit : inode.depth * inode.fs.logBlkptrsPerBlock < 32) :
    inode.getInodeBlock i = some (node 0 i) := by
  obtain ⟨hlt, htop⟩ := h.top_slot hi
  rw [Inode.getInodeBlock, splitLevels_eq hfit]
  dsimp only
  rw [if_pos hlt, htop, h.lookup hi le_rfl]

/-! `set_inode_block` for a block that the file has. -/

theorem Inode.Maps.setBelow (h : inode.Maps n node) (hi : i < n) (hb : b ≠ noBlock)
    (hr : r < inode.depth) :
    inode.setBelow (node (r + 1) (i / inode.fs.ptrs ^ (r + 1))) b (path inode.fs.ptrs (r + 1) i) =
      some (inode.putPage (node 1 (i / inode.fs.ptrs)) (i % inode.fs.ptrs) b, b) := by
  induction r with
  | zero =>
    rw [path, path, Inode.setBelow, Inode.setLeaf, if_neg hb]
    simp
  | succ r ih =>
    have hne := h.tree.ne_zero (r + 1) _ (upTo_div hi (by omega : r + 1 ≤ inode.depth))
    rw [path, path, Inode.setBelow, h.slot hi hr, if_neg hne]
    exact ih (by omega)

theorem Inode.Maps.setInodeBlock (h : inode.Maps n node) (hi : i < n) (hb : b ≠ noBlock)
    (h0 : b ≠ 0) (hfit : inode.depth * inode.fs.logBlkptrsPerBlock < 32) :
    ∃ inode', inode.setInodeBlock i b = some (inode', b) ∧ inode'.Maps n (assign node 0 i b) ∧
      inode'.depth = inode.depth ∧ inode'.fs.used = inode.fs.used ∧
      inode'.fs.logBlkptrsPerBlock = inode.fs.logBlkptrsPerBlock := by
  obtain ⟨hlt, htop⟩ := h.top_slot hi
  rw [Inode.setInodeBlock]
  by_cases hd : inode.depth = 0
  · rw [hd] at hlt htop
    simp only [Nat.pow_zero, Nat.div_one] at hlt
    rw [if_pos hd, if_neg (not_le.mpr hlt), if_neg hb]
    refine ⟨_, rfl, ⟨?_, h.blocks⟩, rfl, rfl, rfl⟩
    have hlive : upTo inode.fs.ptrs inode.depth n 0 i := ⟨Nat.zero_le _, by simpa using hi⟩
    exact h.tree.replaceTop hd hlive h0 rfl
  · rw [if_neg hd, splitLevels_eq hfit]
    dsimp only
    have hne := h.tree.ne_zero _ _ (upTo_div hi (le_refl inode.depth))
    obtain ⟨r, hr⟩ := Nat.exists_eq_succ_of_ne_zero hd
    have hbelow := h.setBelow hi hb (by omega : r < inode.depth)
    rw [← Nat.succ_eq_add_one, ← hr] at hbelow
    rw [if_neg (not_le.mpr hlt), htop, if_neg hne, hbelow]
    refine ⟨_, rfl, ⟨?_, h.blocks⟩, rfl, rfl, rfl⟩
    have hlive : upTo inode.fs.ptrs inode.depth n 0 i := ⟨Nat.zero_le _, by simpa using hi⟩
    refine h.tree.replace (Nat.pos_of_ne_zero hd) hlive h0 ?_ (fun o ho => ?_) fun q hq => ?_
    · simp [Inode.putPage]
    · simp [Inode.putPage, Function.update_of_ne ho]
    · simp [Inode.putPage, Function.update_of_ne hq]

end SimpleKernel.Dfs
