import SimpleKernel.Dfs.Growth

/-! Files that grow block by block. -/
namespace SimpleKernel.Dfs
open PageTree Filsys

variable {inode next inode' : Inode} {n i b : ℕ} {node node' : ℕ → ℕ → ℕ}

/-- `next` is the file with the block `b` added at its end. The new nodes of the tree were free; all
others are as before. -/
structure Inode.Adds (inode : Inode) (n : ℕ) (node : ℕ → ℕ → ℕ) (next : Inode) (b : ℕ)
    (node' : ℕ → ℕ → ℕ) : Prop where
  wellFormed : next.WellFormed (n + 1) node'
  get_old : ∀ i, i < n → next.getInodeBlock i = inode.getInodeBlock i
  get_new : next.getInodeBlock n = some b
  keep : ∀ r j, upTo inode.fs.ptrs inode.depth n r j →
    upTo next.fs.ptrs next.depth (n + 1) r j ∧ node' r j = node r j
  free : ∀ r j, upTo next.fs.ptrs next.depth (n + 1) r j →
    ¬ upTo inode.fs.ptrs inode.depth n r j → inode.fs.Free (node' r j)
  used : ∀ x, next.fs.used x = true ↔ inode.fs.used x = true ∨
    ∃ r j, upTo next.fs.ptrs next.depth (n + 1) r j ∧ ¬ upTo inode.fs.ptrs inode.depth n r j ∧
      node' r j = x

theorem Inode.Fits.depth (h : inode.Fits) : inode.depth * inode.fs.logBlkptrsPerBlock < 32 := by
  refine lt_of_le_of_lt (Nat.mul_le_mul_right _ ?_) h
  rw [Inode.nextDepth]
  split <;> omega

theorem Extends.wellFormed (h : inode.WellFormed n node)
    (hext : Extends inode (upTo inode.fs.ptrs inode.depth n) node next
      (upTo next.fs.ptrs next.depth (n + 1)) node') (hblocks : next.blocks = word (n + 1)) :
    next.WellFormed (n + 1) node' := by
  refine ⟨⟨hext.tree, ?_⟩, hext.ok, ?_, fun r j hl => hext.in_use h.in_use hl, hext.distinct⟩
  · rw [hblocks, word_of_lt h.succ_lt]
  · rw [hext.ino, hext.layout.inodesPerGroup, hext.layout.groupCount]
    exact h.inode_group

theorem Extends.safe (hsafe : inode.Safe (upTo inode.fs.ptrs inode.depth n) node)
    (hext : Extends inode (upTo inode.fs.ptrs inode.depth n) node next
      (upTo next.fs.ptrs next.depth (n + 1)) node') :
    next.Safe (upTo next.fs.ptrs next.depth (n + 1)) node' := by
  intro x hx
  rw [hext.layout.blockCount, hext.layout.blocksPerGroup, hext.layout.groupCount]
  apply hsafe
  rcases hx with ⟨hin, hfree⟩ | ⟨r, j, hl, rfl⟩
  · left
    refine ⟨hext.layout.inGroup.mp hin, ?_⟩
    rw [Bool.eq_false_iff] at hfree ⊢
    exact fun huse => hfree ((hext.used x).mpr (.inl huse))
  · by_cases h₀ : upTo inode.fs.ptrs inode.depth n r j
    · exact .inr ⟨r, j, h₀, ((hext.keep r j h₀).2).symm⟩
    · exact .inl (hext.free r j hl h₀)

theorem Inode.WellFormed.expandInode (h : inode.WellFormed n node)
    (hsafe : inode.Safe (upTo inode.fs.ptrs inode.depth n) node) (hfit : inode.Fits) :
    ∃ next b, inode.expandInode = some (next, b) ∧ (b ≠ noBlock → ∃ node',
      inode.Adds n node next b node' ∧ node' 0 n = b ∧
        next.Safe (upTo next.fs.ptrs next.depth (n + 1)) node') := by
  obtain ⟨next, b, hcall, hnext⟩ := h.extend hsafe hfit
  refine ⟨next, b, hcall, fun hb => ?_⟩
  obtain ⟨node', hext, hnode, hdepth, hblocks⟩ := hnext hb
  have hext' : Extends inode (upTo inode.fs.ptrs inode.depth n) node next
      (upTo next.fs.ptrs next.depth (n + 1)) node' :=
    hext.congr fun r j => by rw [hext.ptrs, hdepth]
  have hwf := hext'.wellFormed h hblocks
  have hfit' : next.depth * next.fs.logBlkptrsPerBlock < 32 := by
    rw [hdepth, hext.layout.log]
    exact hfit
  refine ⟨node', ⟨hwf, fun i hi => ?_, ?_, hext'.keep, hext'.free, hext'.used⟩, hnode,
    hext'.safe hsafe⟩
  · have hl : upTo inode.fs.ptrs inode.depth n 0 i := ⟨Nat.zero_le _, by simpa using hi⟩
    rw [hwf.getInodeBlock (by omega) hfit', h.getInodeBlock hi hfit.depth, (hext.keep 0 i hl).2]
  · rw [hwf.getInodeBlock (Nat.lt_succ_self n) hfit', hnode]

theorem Inode.WellFormed.nextDepth_lt {M : ℕ} (h : inode.WellFormed n node) (hM : M ≤ 2 ^ 32)
    (hshallow : 64 * inode.fs.ptrs ^ inode.depth < M) (hroom : n * (4 * inode.fs.ptrs) < M) :
    64 * inode.fs.ptrs ^ inode.nextDepth < M := by
  have htop : topBlockdirSize = 16 := rfl
  rw [Inode.nextDepth]
  split
  · next hfull =>
    rw [h.blocks, Inode.WellFormed.maxBlocks_eq (by rw [htop]; omega)] at hfull
    rw [hfull] at hroom
    calc 64 * inode.fs.ptrs ^ (inode.depth + 1)
        = 16 * inode.fs.ptrs ^ inode.depth * (4 * inode.fs.ptrs) := by
          rw [Nat.pow_succ, Nat.mul_mul_mul_comm]
      _ < M := hroom
  · exact hshallow

theorem Filsys.shift_lt {fs : Filsys} {d k : ℕ} (h : 64 * fs.ptrs ^ d < 2 ^ k) :
    d * fs.logBlkptrsPerBlock + 6 < k := by
  rw [Filsys.ptrs, ← Nat.pow_mul, show 64 = 2 ^ 6 by decide, ← Nat.pow_add] at h
  have := (Nat.pow_lt_pow_iff_right (by decide : 1 < 2)).mp h
  rw [Nat.mul_comm]
  omega

theorem Inode.WellFormed.setInodeBlock_iff (h : inode.WellFormed n node) (hi : i < n) (h0 : b ≠ 0)
    (hb : b ≠ noBlock) :
    (∃ next, inode.setInodeBlock i b = some (next, b) ∧ next.blocks = n ∧
      ∀ k, k < n → next.getInodeBlock k = if k = i then some b else inode.getInodeBlock k) ↔
      inode.depth * inode.fs.logBlkptrsPerBlock < 32 := by
  constructor
  · rintro ⟨next, hset, -⟩
    by_contra hfit
    have hdepth : inode.depth ≠ 0 := by
      intro hd
      rw [hd] at hfit
      omega
    rw [Inode.setInodeBlock, if_neg hdepth, Inode.splitLevels, if_neg hfit] at hset
    simp at hset
  · intro hfit
    obtain ⟨next, hset, hmaps, hdepth, -, hlog⟩ := h.setInodeBlock hi hb h0 hfit
    refine ⟨next, hset, hmaps.blocks, fun k hk => ?_⟩
    rw [hmaps.getInodeBlock hk (by rw [hdepth, hlog]; exact hfit), h.getInodeBlock hk hfit]
    split
    · next hki => rw [hki, assign_self]
    · next hki => rw [assign_of_ne fun he => hki he.2]

/-- Calls of `expand_inode` one after the other that all succeed; `bs` are the blocks they return. -/
inductive Expands : Inode → List ℕ → Inode → Prop
  | done (inode : Inode) : Expands inode [] inode
  | call {inode next inode' : Inode} {b : ℕ} {bs : List ℕ} (hfit : inode.Fits)
      (hcall : inode.expandInode = some (next, b)) (hb : b ≠ noBlock)
      (hrest : Expands next bs inode') : Expands inode (b :: bs) inode'

theorem Expands.wellFormed {bs : List ℕ} (hrun : Expands inode bs inode')
    (h : inode.WellFormed n node)
    (hsafe : inode.Safe (upTo inode.fs.ptrs inode.depth n) node) :
    ∃ node', inode'.WellFormed (n + bs.length) node' ∧
      inode'.Safe (upTo inode'.fs.ptrs inode'.depth (n + bs.length)) node' ∧
      (∀ i, i < n → node' 0 i = node 0 i) ∧ ∀ k b, bs[k]? = some b → node' 0 (n + k) = b := by
  induction hrun generalizing n node with
  | done inode => exact ⟨node, h, hsafe, fun _ _ => rfl, by simp⟩
  | @call inode next inode' b bs hfit hcall hb hrest ih =>
    obtain ⟨next', b', hcall', hnext⟩ := h.expandInode hsafe hfit
    obtain ⟨rfl, rfl⟩ := Prod.mk.inj (Option.some.inj (hcall'.symm.trans hcall))
    obtain ⟨node₁, hadds, hnode, hsafe₁⟩ := hnext hb
    obtain ⟨node', hwf, hsafe', hold, hnew⟩ := ih hadds.wellFormed hsafe₁
    have hlen : n + 1 + bs.length = n + (b' :: bs).length := by
      rw [List.length_cons]
      omega
    rw [hlen] at hwf hsafe'
    refine ⟨node', hwf, hsafe', fun i hi => ?_, fun k b hk => ?_⟩
    · have hl : upTo inode.fs.ptrs inode.depth n 0 i := ⟨Nat.zero_le _, by simpa using hi⟩
      rw [hold i (by omega), (hadds.keep 0 i hl).2]
    · cases k with
      | zero =>
        obtain rfl := Option.some.inj hk
        rw [Nat.add_zero, hold n (Nat.lt_succ_self n), hnode]
      | succ k =>
        have := hnew k b hk
        rwa [Nat.add_assoc, Nat.add_comm 1] at this

/-- Growth of the block map. After any calls of `expand_inode` the file has its old blocks and those that were
returned; the next call adds one more, and `set_inode_block` changes one of them. -/
theorem block_map_growth {bs : List ℕ} (h : inode.WellFormed n node)
    (hsafe : inode.Safe (upTo inode.fs.ptrs inode.depth n) node) (hrun : Expands inode bs inode') :
    ∃ node', inode'.WellFormed (n + bs.length) node' ∧ (∀ i, i < n → node' 0 i = node 0 i) ∧
      (∀ k b, bs[k]? = some b → node' 0 (n + k) = b) ∧
      (inode'.Fits → ∃ next b, inode'.expandInode = some (next, b) ∧
        (b ≠ noBlock → ∃ node'', inode'.Adds (n + bs.length) node' next b node'')) ∧
      (¬ inode'.Fits → ∀ next b, inode'.expandInode = some (next, b) → b = noBlock) ∧
      ∀ i b, i < n + bs.length → b ≠ 0 → b ≠ noBlock →
        ((∃ next, inode'.setInodeBlock i b = some (next, b) ∧ next.blocks = n + bs.length ∧
          ∀ k, k < n + bs.length →
            next.getInodeBlock k = if k = i then some b else inode'.getInodeBlock k) ↔
          inode'.depth * inode'.fs.logBlkptrsPerBlock < 32) := by
  obtain ⟨node', hwf, hsafe', hold, hnew⟩ := hrun.wellFormed h hsafe
  refine ⟨node', hwf, hold, hnew, fun hfit => ?_, fun hfit next b hcall => ?_,
    fun i b hi h0 hb => hwf.setInodeBlock_iff hi h0 hb⟩
  · obtain ⟨next, b, hcall, hnext⟩ := hwf.expandInode hsafe' hfit
    refine ⟨next, b, hcall, fun hb => ?_⟩
    obtain ⟨node'', hadds, -⟩ := hnext hb
    exact ⟨node'', hadds⟩
  · exact hwf.not_extend hfit hcall

/-- A file system with one group of 8192 blocks, of which 32 are in use, and a file without blocks. -/
def emptyFile : Inode where
  fs :=
    { logBlkptrsPerBlock := 8
      blockCount := 8192
      blocksPerGroup := 8192
      inodesPerGroup := 1024
      groupCount := 1
      freeBlockCount := 8160
      groups := fun _ => ⟨8192, fun b => decide (b < 32), 8160, 32⟩
      page := fun _ _ => 0
      freed := [] }
  ino := 8
  blocks := 0
  depth := 0
  blockdir := fun _ => 0

theorem emptyFile_wellFormed : emptyFile.WellFormed 0 fun _ _ => 0 := by
  refine .empty ⟨by decide, by decide, by decide, fun g hg => ?_, fun g _ hne => ?_, rfl⟩ (by decide)
    rfl fun _ _ => rfl
  · obtain rfl : g = 0 := Nat.lt_one_iff.mp hg
    rfl
  · exact absurd (show 8192 % 32 = 0 by decide) hne

theorem emptyFile_safe :
    emptyFile.Safe (upTo emptyFile.fs.ptrs emptyFile.depth 0) fun _ _ => 0 := by
  rintro x - hx
  exact (Nat.div_lt_iff_lt_mul (by decide : 0 < 8192)).mpr hx

theorem emptyFile_expands : ∃ next, Expands emptyFile [32] next := by
  have hcall : (emptyFile.expandInode.map Prod.snd) = some 32 := by
    decide +kernel
  obtain ⟨⟨next, b⟩, hcall', rfl⟩ := Option.map_eq_some_iff.mp hcall
  have hfit : emptyFile.Fits := by
    rw [Inode.Fits, Inode.nextDepth, Inode.maxBlocks, word_of_lt (by decide)]
    decide
  exact ⟨next, .call hfit hcall' (by decide) (.done next)⟩

theorem block_map_growth_one : ∃ next node', Expands emptyFile [32] next ∧
    next.WellFormed 1 node' ∧ node' 0 0 = 32 := by
  obtain ⟨next, hrun⟩ := emptyFile_expands
  obtain ⟨node', hwf, -, hnew, -⟩ := block_map_growth emptyFile_wellFormed emptyFile_safe hrun
  exact ⟨next, node', hrun, hwf, hnew 0 32 rfl⟩

/-! With blocks of 1 KB a tree of depth 3 is full when the file has 256 GB. -/

/-- The nodes of that tree. -/
def fullNode (r j : ℕ) : ℕ :=
  if r = 0 then 2 ^ 29 + j else if r = 1 then 2 ^ 24 + j else if r = 2 then 2 ^ 16 + j else 2 ^ 8 + j

/-- A file of 256 GB on a disk of 1 TB. Block 255 and the last quarter of the disk are free. -/
def fullFile : Inode where
  fs :=
    { logBlkptrsPerBlock := 8
      blockCount := 2 ^ 30
      blocksPerGroup := 8192
      inodesPerGroup := 1024
      groupCount := 2 ^ 17
      freeBlockCount := 2 ^ 28 + 1
      groups := fun g =>
        { blockCount := 8192
          bitmap := fun b => decide (g * 8192 + b ≠ 255 ∧ g * 8192 + b < 3 * 2 ^ 28)
          freeBlockCount := if g = 0 then 1 else if g < 3 * 2 ^ 15 then 0 else 8192
          firstFreeBlock := if g = 0 then 255 else 0 }
      page := fun p o =>
        if 2 ^ 8 ≤ p ∧ p < 2 ^ 8 + 2 ^ 4 then 2 ^ 16 + ((p - 2 ^ 8) * 2 ^ 8 + o)
        else if 2 ^ 16 ≤ p ∧ p < 2 ^ 16 + 2 ^ 12 then 2 ^ 24 + ((p - 2 ^ 16) * 2 ^ 8 + o)
        else if 2 ^ 24 ≤ p ∧ p < 2 ^ 24 + 2 ^ 20 then 2 ^ 29 + ((p - 2 ^ 24) * 2 ^ 8 + o)
        else 0
      freed := [] }
  ino := 8
  blocks := 2 ^ 28
  depth := 3
  blockdir := fun i => 2 ^ 8 + i

theorem fullFile_used (x : ℕ) :
    fullFile.fs.used x = decide (x ≠ 255 ∧ x < 3 * 2 ^ 28) := by
  show decide (x / 8192 * 8192 + x % 8192 ≠ 255 ∧ x / 8192 * 8192 + x % 8192 < 3 * 2 ^ 28) = _
  rw [Nat.div_add_mod']

theorem fullFile_inGroup {x : ℕ} (hx : x < 2 ^ 30) : fullFile.fs.InGroup x := by
  constructor
  · exact (Nat.div_lt_iff_lt_mul (by decide : 0 < 8192)).mpr hx
  · exact Nat.mod_lt x (by decide : 0 < 8192)

theorem fullFile_live {r j : ℕ} (hl : upTo fullFile.fs.ptrs fullFile.depth (2 ^ 28) r j) :
    r = 0 ∧ j < 2 ^ 28 ∧ fullNode r j = 2 ^ 29 + j ∨
      r = 1 ∧ j < 2 ^ 20 ∧ fullNode r j = 2 ^ 24 + j ∨
      r = 2 ∧ j < 2 ^ 12 ∧ fullNode r j = 2 ^ 16 + j ∨
      r = 3 ∧ j < 2 ^ 4 ∧ fullNode r j = 2 ^ 8 + j := by
  obtain ⟨hr, hlt⟩ : r ≤ 3 ∧ j * (2 ^ 8) ^ r < 2 ^ 28 := hl
  have hcases : r = 0 ∨ r = 1 ∨ r = 2 ∨ r = 3 := by omega
  rcases hcases with rfl | rfl | rfl | rfl <;> simp [fullNode] at hlt ⊢ <;> omega

theorem fullFile_page {r j o : ℕ}
    (hl : upTo fullFile.fs.ptrs fullFile.depth (2 ^ 28) (r + 1) j) :
    fullFile.fs.page (fullNode (r + 1) j) o = fullNode r (j * 2 ^ 8 + o) := by
  have hpage : fullFile.fs.page = fun p o =>
      if 2 ^ 8 ≤ p ∧ p < 2 ^ 8 + 2 ^ 4 then 2 ^ 16 + ((p - 2 ^ 8) * 2 ^ 8 + o)
      else if 2 ^ 16 ≤ p ∧ p < 2 ^ 16 + 2 ^ 12 then 2 ^ 24 + ((p - 2 ^ 16) * 2 ^ 8 + o)
      else if 2 ^ 24 ≤ p ∧ p < 2 ^ 24 + 2 ^ 20 then 2 ^ 29 + ((p - 2 ^ 24) * 2 ^ 8 + o)
      else 0 := rfl
  rcases fullFile_live hl with ⟨hr, -⟩ | ⟨hr, hj, hnode⟩ | ⟨hr, hj, hnode⟩ | ⟨hr, hj, hnode⟩
  · omega
  · obtain rfl : r = 0 := by omega
    rw [hnode, hpage]
    dsimp only [fullNode]
    rw [if_neg (by omega), if_neg (by omega), if_pos (by omega), if_pos rfl, Nat.add_sub_cancel_left]
  · obtain rfl : r = 1 := by omega
    rw [hnode, hpage]
    dsimp only [fullNode]
    rw [if_neg (by omega), if_pos (by omega), if_neg (by omega), if_pos rfl, Nat.add_sub_cancel_left]
  · obtain rfl : r = 2 := by omega
    rw [hnode, hpage]
    dsimp only [fullNode]
    rw [if_pos (by omega), if_neg (by omega), if_neg (by omega), if_pos rfl, Nat.add_sub_cancel_left]

theorem fullFile_distinct {r j r' j' : ℕ}
    (hl : upTo fullFile.fs.ptrs fullFile.depth (2 ^ 28) r j)
    (hl' : upTo fullFile.fs.ptrs fullFile.depth (2 ^ 28) r' j')
    (heq : fullNode r j = fullNode r' j') : r = r' ∧ j = j' := by
  have h := fullFile_live hl
  have h' := fullFile_live hl'
  omega

theorem fullFile_in_use {r j : ℕ} (hl : upTo fullFile.fs.ptrs fullFile.depth (2 ^ 28) r j) :
    fullFile.fs.InGroup (fullNode r j) ∧ fullFile.fs.used (fullNode r j) = true := by
  have h := fullFile_live hl
  rw [fullFile_used, decide_eq_true_iff]
  exact ⟨fullFile_inGroup (by omega), by omega, by omega⟩

theorem fullFile_wellFormed : fullFile.WellFormed (2 ^ 28) fullNode := by
  have hsize : fullFile.fs.ptrs = 2 ^ 8 := rfl
  refine ⟨⟨⟨fun r j hl => hl.1, ?_, ?_, ?_, ?_, ?_, ?_, ?_⟩, rfl⟩, ⟨?_, ?_, ?_, ?_, ?_, ?_⟩, ?_,
    fun r j => fullFile_in_use, fun r j r' j' => fullFile_distinct⟩
  · intro j hl
    rcases fullFile_live hl with ⟨hr, -⟩ | ⟨hr, -⟩ | ⟨hr, -⟩ | ⟨-, hj, hnode⟩
    · exact absurd hr (by decide)
    · exact absurd hr (by decide)
    · exact absurd hr (by decide)
    · exact ⟨hj, hnode.symm⟩
  · intro j hj hnot
    refine absurd ⟨le_rfl, ?_⟩ hnot
    have hj : j < 16 := hj
    show j * (2 ^ 8) ^ 3 < 2 ^ 28
    omega
  · intro r j hl hr
    rw [fullFile_page (upTo_parent hl hr), hsize, Nat.div_add_mod']
  · intro r j o hl ho hnot
    -- a full tree has no free slot
    have hlt := fullFile_live hl
    have hr : r = 0 ∨ r = 1 ∨ r = 2 := by omega
    refine absurd ⟨show r ≤ 3 by omega, ?_⟩ hnot
    show (j * 2 ^ 8 + o) * (2 ^ 8) ^ r < 2 ^ 28
    rcases hr with rfl | rfl | rfl <;> omega
  · exact fun r j hl hr => upTo_parent hl hr
  · intro r j r' j' hl hl' heq
    obtain ⟨hr, hj⟩ := fullFile_distinct hl hl' heq
    exact ⟨Nat.succ.inj hr, hj⟩
  · intro r j hl
    have h := fullFile_live hl
    omega
  · decide
  · decide
  · decide
  · intro g hg
    have hg : g < 2 ^ 17 := hg
    show 8192 = min 8192 (2 ^ 30 - g * 8192)
    omega
  · intro g _ hne
    exact absurd (show 8192 % 32 = 0 by decide) hne
  · decide
  · decide

theorem fullFile_newBlock : fullFile.fs.newBlock (minus (fullFile.blockdir 0) 1) =
    some (fullFile.fs.blockFound 0 255) := by
  have hgoal : minus (fullFile.blockdir 0) 1 = 255 := by
    rw [minus_of_le (by decide)]
    rfl
  rw [hgoal]
  rfl

/-- There are free blocks, but the tree would need a fourth level and the shifts of `split_levels`
are not defined for it. -/
theorem full_tree_not_expanded : fullFile.WellFormed (2 ^ 28) fullNode ∧
    fullFile.Safe (upTo fullFile.fs.ptrs fullFile.depth (2 ^ 28)) fullNode ∧
    fullFile.fs.Free 255 ∧ (∀ x, 3 * 2 ^ 28 ≤ x → x < 2 ^ 30 → fullFile.fs.Free x) ∧
    fullFile.expandInode = none := by
  refine ⟨fullFile_wellFormed, ?_, ⟨fullFile_inGroup (by decide), ?_⟩, fun x hx hlt => ?_, ?_⟩
  · rintro x - hx
    exact (fullFile_inGroup hx).1
  · decide
  · refine ⟨fullFile_inGroup hlt, ?_⟩
    rw [fullFile_used, decide_eq_false_iff_not]
    omega
  · have hmax : fullFile.blocks = fullFile.maxBlocks := by
      rw [Inode.maxBlocks, word_of_lt (by decide)]
      rfl
    rw [Inode.expandInode, if_neg (by decide), if_pos hmax, Inode.withNewBlock, fullFile_newBlock]
    have hblock : (fullFile.fs.blockFound 0 255).2 = 255 := word_of_lt (by decide)
    have hdepth : ((Inode.pushDown { fullFile with fs := (fullFile.fs.blockFound 0 255).1 }
        (fullFile.fs.blockFound 0 255).2).depth) ≠ 0 := Nat.succ_ne_zero _
    dsimp only
    rw [if_neg (by rw [hblock]; decide), Inode.setInodeBlock, if_neg hdepth, Inode.splitLevels,
      if_neg (by decide)]

end SimpleKernel.Dfs
