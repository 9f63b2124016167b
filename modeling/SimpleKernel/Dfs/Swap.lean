import SimpleKernel.Dfs.Expansion
import SimpleKernel.Dfs.Truncation
import Mathlib.Logic.Equiv.Basic

/-! Two blocks of a file are exchanged, and the last one is dropped. -/
namespace SimpleKernel.Dfs
open PageTree Filsys

variable {inode next : Inode} {n i j : ℕ} {node node' : ℕ → ℕ → ℕ}

/-- Blocks `i` and `j` of a file are exchanged. -/
def swapNode (node : ℕ → ℕ → ℕ) (i j : ℕ) : ℕ → ℕ → ℕ :=
  fun r k => node r (if r = 0 then Equiv.swap i j k else k)

theorem swapNode_eq_assign (node : ℕ → ℕ → ℕ) (i j : ℕ) :
    assign (assign node 0 i (node 0 j)) 0 j (node 0 i) = swapNode node i j := by
  funext r k
  rw [swapNode]
  rcases eq_or_ne r 0 with rfl | hr
  · rw [if_pos rfl]
    rcases eq_or_ne k j with rfl | hkj
    · rw [assign_self, Equiv.swap_apply_right]
    · rw [assign_of_ne fun he => hkj he.2]
      rcases eq_or_ne k i with rfl | hki
      · rw [assign_self, Equiv.swap_apply_left]
      · rw [assign_of_ne fun he => hki he.2, Equiv.swap_apply_of_ne_of_ne hki hkj]
  · rw [if_neg hr, assign_of_ne fun he => hr he.1, assign_of_ne fun he => hr he.1]

theorem Inode.Maps.setInodeBlock_fs {b : ℕ} (h : inode.Maps n node) (hi : i < n) (hb : b ≠ noBlock)
    (hfit : inode.depth * inode.fs.logBlkptrsPerBlock < 32)
    (hset : inode.setInodeBlock i b = some (next, b)) :
    next.fs = { inode.fs with page := next.fs.page } ∧ next.ino = inode.ino := by
  obtain ⟨hlt, htop⟩ := h.top_slot hi
  rw [Inode.setInodeBlock] at hset
  by_cases hd : inode.depth = 0
  · rw [hd] at hlt
    simp only [Nat.pow_zero, Nat.div_one] at hlt
    rw [if_pos hd, if_neg (not_le.mpr hlt), if_neg hb] at hset
    obtain ⟨rfl, -⟩ := Prod.mk.inj (Option.some.inj hset)
    exact ⟨rfl, rfl⟩
  · rw [if_neg hd, splitLevels_eq hfit] at hset
    dsimp only at hset
    have hne := h.tree.ne_zero _ _ (upTo_div hi (le_refl inode.depth))
    obtain ⟨r, hr⟩ := Nat.exists_eq_succ_of_ne_zero hd
    have hbelow := h.setBelow hi hb (by omega : r < inode.depth)
    rw [← Nat.succ_eq_add_one, ← hr] at hbelow
    rw [if_neg (not_le.mpr hlt), htop, if_neg hne, hbelow] at hset
    obtain ⟨rfl, -⟩ := Prod.mk.inj (Option.some.inj hset)
    exact ⟨rfl, rfl⟩

/-- The blocks of the file are the same in another order. -/
structure Inode.Reorders (inode : Inode) (n : ℕ) (node : ℕ → ℕ → ℕ) (next : Inode)
    (node' : ℕ → ℕ → ℕ) : Prop where
  wf : next.WellFormed n node'
  fs : next.fs = { inode.fs with page := next.fs.page }
  depth : next.depth = inode.depth
  nodes : ∀ r j, upTo inode.fs.ptrs inode.depth n r j →
    ∃ j', upTo inode.fs.ptrs inode.depth n r j' ∧ node' r j = node r j'

theorem upTo_zero_iff {B d : ℕ} : upTo B d n 0 i ↔ i < n := by
  rw [upTo, Nat.pow_zero, Nat.mul_one]
  exact and_iff_right (Nat.zero_le d)

theorem swap_lt {k : ℕ} (hi : i < n) (hj : j < n) (hk : k < n) : Equiv.swap i j k < n := by
  rw [Equiv.swap_apply_def]
  split
  · exact hj
  · split
    · exact hi
    · exact hk

theorem upTo_swap {B d r k : ℕ} (hi : i < n) (hj : j < n) (hl : upTo B d n r k) :
    upTo B d n r (if r = 0 then Equiv.swap i j k else k) := by
  split
  · next hr =>
    subst hr
    exact upTo_zero_iff.mpr (swap_lt hi hj (upTo_zero_iff.mp hl))
  · exact hl

theorem Inode.WellFormed.ne_zero (h : inode.WellFormed n node) (hi : i < n) : node 0 i ≠ 0 :=
  h.tree.ne_zero 0 i (upTo_zero_iff.mpr hi)

theorem Inode.WellFormed.block_ne_noBlock (h : inode.WellFormed n node) (hi : i < n) :
    node 0 i ≠ noBlock :=
  (h.in_use 0 i (upTo_zero_iff.mpr hi)).1.ne_noBlock h.ok

theorem Inode.WellFormed.swap (h : inode.WellFormed n node) (hi : i < n) (hj : j < n)
    (hfit : inode.depth * inode.fs.logBlkptrsPerBlock < 32) :
    ∃ mid next, inode.setInodeBlock i (node 0 j) = some (mid, node 0 j) ∧
      mid.setInodeBlock j (node 0 i) = some (next, node 0 i) ∧
      inode.Reorders n node next (swapNode node i j) := by
  obtain ⟨mid, hset, hmaps, hdepth, hused, hlog⟩ :=
    h.setInodeBlock hi (h.block_ne_noBlock hj) (h.ne_zero hj) hfit
  obtain ⟨hfs, hino⟩ := h.setInodeBlock_fs hi (h.block_ne_noBlock hj) hfit hset
  have hfit' : mid.depth * mid.fs.logBlkptrsPerBlock < 32 := by
    rw [hdepth, hlog]
    exact hfit
  obtain ⟨next, hset', hmaps', hdepth', hused', hlog'⟩ :=
    hmaps.setInodeBlock hj (h.block_ne_noBlock hi) (h.ne_zero hi) hfit'
  obtain ⟨hfs', hino'⟩ := hmaps.setInodeBlock_fs hj (h.block_ne_noBlock hi) hfit' hset'
  rw [swapNode_eq_assign] at hmaps'
  have hfs₂ : next.fs = { inode.fs with page := next.fs.page } := by
    rw [hfs', hfs]
  have hdepth₂ : next.depth = inode.depth := hdepth'.trans hdepth
  have hptrs : next.fs.ptrs = inode.fs.ptrs := congrArg (2 ^ ·) (hlog'.trans hlog)
  refine ⟨mid, next, hset, hset', ⟨⟨hmaps', ?_, ?_, fun r k hl => ?_, fun r k r' k' hl hl' heq => ?_⟩,
    hfs₂, hdepth₂, fun r k hl => ⟨_, upTo_swap hi hj hl, rfl⟩⟩⟩
  · rw [hfs₂]
    exact h.ok.withPage _
  · rw [hino', hino, hfs₂]
    exact h.inode_group
  · rw [hptrs, hdepth₂] at hl
    rw [hused', hused, hfs₂]
    exact h.in_use r _ (upTo_swap hi hj hl)
  · rw [hptrs, hdepth₂] at hl hl'
    obtain ⟨rfl, hk⟩ := h.distinct r _ r' _ (upTo_swap hi hj hl) (upTo_swap hi hj hl') heq
    refine ⟨rfl, ?_⟩
    split at hk
    · exact (Equiv.swap i j).injective hk
    · exact hk

theorem swapNode_self (node : ℕ → ℕ → ℕ) (i : ℕ) : swapNode node i i = node := by
  funext r k
  rw [swapNode]
  simp

/-- `next` is the file without its last block; the blocks that were freed were in its tree. -/
structure Inode.Shrinks (inode : Inode) (n : ℕ) (node : ℕ → ℕ → ℕ) (next : Inode)
    (node' : ℕ → ℕ → ℕ) : Prop where
  wf : next.WellFormed (n - 1) node'
  log : next.fs.logBlkptrsPerBlock = inode.fs.logBlkptrsPerBlock
  depth : next.depth ≤ inode.depth
  safe : inode.Safe (upTo inode.fs.ptrs inode.depth n) node →
    next.Safe (upTo next.fs.ptrs next.depth (n - 1)) node'

theorem Inode.Reorders.dropLast (h : inode.Reorders n node next node') (hn : 0 < n)
    (hfit : inode.depth * inode.fs.logBlkptrsPerBlock < 32) :
    ∃ last, next.truncateInode (n - 1) = some (last, 0) ∧ inode.Shrinks n node last node' := by
  have hlog : next.fs.logBlkptrsPerBlock = inode.fs.logBlkptrsPerBlock := by rw [h.fs]
  have hptrs : next.fs.ptrs = inode.fs.ptrs := congrArg (2 ^ ·) hlog
  have hfit' : next.depth * next.fs.logBlkptrsPerBlock < 32 := by
    rw [h.depth, hlog]
    exact hfit
  obtain ⟨fs, top, gone, hcall, hcut⟩ :=
    h.wf.truncateInode_cuts (by omega : n - 1 < n) hfit'
  refine ⟨_, hcall, ⟨h.wf.cut hcut, hcut.layout.log.trans hlog, ?_, fun hsafe => ?_⟩⟩
  · rw [h.depth]
    split
    · exact Nat.zero_le _
    · exact le_rfl
  · intro x hx
    have hnode {r k : ℕ} (hl : upTo next.fs.ptrs next.depth n r k) :
        ∃ r' k', upTo inode.fs.ptrs inode.depth n r' k' ∧ node r' k' = node' r k := by
      rw [hptrs, h.depth] at hl
      obtain ⟨k', hl', hk'⟩ := h.nodes r k hl
      exact ⟨r, k', hl', hk'.symm⟩
    have hold : inode.fs.Free x ∨ ∃ r k, upTo inode.fs.ptrs inode.depth n r k ∧ node r k = x := by
      rcases hx with ⟨hin, hfree⟩ | ⟨r, k, hl, rfl⟩
      · by_cases hx : x ∈ gone.map fun a => node' a.1 a.2
        · obtain ⟨r, k, hl, -, rfl⟩ := (Inode.WellFormed.freed_iff hcut x).mp hx
          exact .inr (hnode hl)
        · left
          rw [hcut.used, if_neg hx, h.fs] at hfree
          have hin' := hcut.layout.inGroup.mp hin
          rw [h.fs] at hin'
          exact ⟨hin', hfree⟩
      · refine .inr (hnode ?_)
        have hptrs' : fs.ptrs = next.fs.ptrs := congrArg (2 ^ ·) hcut.layout.log
        rw [hptrs'] at hl
        split at hl
        · next h0 =>
          rw [h0] at hl
          exact absurd hl (not_upTo_zero _ _ _ _)
        · exact hcut.sub r k hl
    have hsafe' := hsafe x hold
    have hcount : fs.blockCount = inode.fs.blockCount := by
      rw [hcut.layout.blockCount, h.fs]
    have hper : fs.blocksPerGroup = inode.fs.blocksPerGroup := by
      rw [hcut.layout.blocksPerGroup, h.fs]
    have hgroups : fs.groupCount = inode.fs.groupCount := by
      rw [hcut.layout.groupCount, h.fs]
    rw [hcount, hper, hgroups]
    exact hsafe'

end SimpleKernel.Dfs
