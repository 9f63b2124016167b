import SimpleKernel.Dfs.Content
import SimpleKernel.Dfs.Truncation

/-! Files that get longer past their end, and shorter. `dfs_ftruncate` clears the blocks that it adds,
but no part of a block that the file has already. -/
namespace SimpleKernel.Dfs
open PageTree Filsys Splice

variable {f f' : File} {n n' pos i size k : ℕ} {node node' : ℕ → ℕ → ℕ} {c p : List UInt8}
  {written : ℕ → Bool}

/-- The bytes that the blocks of the file have between the end of file and `pos` are zero. -/
def File.ClearTo (f : File) (pos : ℕ) : Prop :=
  ∀ i, f.size ≤ i → i < pos → i / f.blocksize < f.inode.blocks →
    ∀ blk, f.inode.getInodeBlock (i / f.blocksize) = some blk →
      f.store.view blk (i % f.blocksize) = 0

/-- What is in the place of byte `i` when the file gets long enough for it. -/
def File.behind (f : File) (n : ℕ) (node : ℕ → ℕ → ℕ) (i : ℕ) : UInt8 :=
  if i / f.blocksize < n then f.store.view (node 0 (i / f.blocksize)) (i % f.blocksize) else 0

/-- The content of the file when it has grown to `size`. -/
def File.grown (f : File) (n : ℕ) (node : ℕ → ℕ → ℕ) (c : List UInt8) (size : ℕ) : List UInt8 :=
  c ++ (List.range' c.length (size - c.length)).map (f.behind n node)

theorem File.length_grown (f : File) (n : ℕ) (node : ℕ → ℕ → ℕ) (h : c.length ≤ size) :
    (f.grown n node c size).length = size := by
  rw [File.grown, List.length_append, List.length_map, List.length_range']
  omega

theorem File.grown_of_le (f : File) (n : ℕ) (node : ℕ → ℕ → ℕ) (h : size ≤ c.length) :
    f.grown n node c size = c := by
  rw [File.grown, Nat.sub_eq_zero_of_le h, List.range'_zero, List.map_nil, List.append_nil]

theorem File.Holds.blocksize_le (h : f.Holds n node c) (hword : f.blocksize < 2 ^ 32) :
    f.blocksize ≤ 2 ^ 31 := by
  rw [h.blocksize, Filsys.ptrs, show 4 = 2 ^ 2 by decide, ← Nat.pow_add] at hword ⊢
  have hlog := (Nat.pow_lt_pow_iff_right (by decide : 1 < 2)).mp hword
  exact Nat.pow_le_pow_right (by decide) (by omega)

namespace File.Holds

theorem clearTo_iff (h : f.Holds n node c) (pos : ℕ) :
    f.ClearTo pos ↔ ∀ i, c.length ≤ i → i < c.length + (pos - c.length) → f.behind n node i = 0 := by
  constructor
  · intro hclear i hle hlt
    rw [File.behind]
    split
    · next hi =>
      refine hclear i (h.size.trans_le hle) (by omega) ?_ _ (h.getInodeBlock hi)
      rw [h.wf.blocks]
      exact hi
    · rfl
  · intro hbehind i hle hlt hi blk hblk
    rw [h.wf.blocks] at hi
    rw [h.getInodeBlock hi] at hblk
    obtain rfl := Option.some.inj hblk
    have hzero := hbehind i (by rw [← h.size]; exact hle) (by omega)
    rw [File.behind, if_pos hi] at hzero
    exact hzero

theorem lengthen (h : f.Holds n node c) (hle : c.length ≤ size) (hmax : size ≤ maxFileSize)
    (hroom : size ≤ n * f.blocksize) :
    File.Holds { f with size := size } n node (f.grown n node c size) := by
  have hlen := f.length_grown n node hle
  refine ⟨h.wf, h.shallow, h.blocksize, h.regular, hlen.symm, hlen.trans_le hmax,
    hlen.trans_le hroom, fun i hi => ?_⟩
  rw [hlen] at hi
  rcases Nat.lt_or_ge i c.length with hold | hnew
  · rw [File.grown, List.getElem?_append_left hold]
    exact h.bytes i hold
  · have hblk : i / f.blocksize < n := block_lt h.blocksize_pos (hi.trans_le hroom)
    rw [File.grown, List.getElem?_append_right hnew, List.getElem?_map,
      List.getElem?_range' (by omega), Option.map_some, Nat.one_mul,
      Nat.add_sub_cancel' hnew, File.behind, if_pos hblk]

theorem clear (h : f.Holds (n + 1) node c) (hroom : c.length ≤ n * f.blocksize) :
    File.Holds { f with store := f.store.putBuffer (node 0 n) fun _ => 0 } (n + 1) node c ∧
      ∀ i, i < n → (f.store.putBuffer (node 0 n) fun _ => 0).view (node 0 i) =
        f.store.view (node 0 i) := by
  have hlive {i : ℕ} (hi : i < n + 1) : upTo f.inode.fs.ptrs f.inode.depth (n + 1) 0 i :=
    ⟨Nat.zero_le _, by simpa using hi⟩
  have hkeep (i : ℕ) (hi : i < n) : (f.store.putBuffer (node 0 n) fun _ => 0).view (node 0 i) =
      f.store.view (node 0 i) := by
    refine Storage.view_putBuffer_of_ne _ _ fun heq => ?_
    have := (h.wf.distinct 0 i 0 n (hlive (by omega)) (hlive (Nat.lt_succ_self n)) heq).2
    omega
  refine ⟨⟨h.wf, h.shallow, h.blocksize, h.regular, h.size, h.small, h.room, fun i hi => ?_⟩, hkeep⟩
  rw [hkeep _ (block_lt h.blocksize_pos (hi.trans_le hroom))]
  exact h.bytes i hi

theorem clearBlocks {blocks : ℕ} (h : f.Holds n node c)
    (hsafe : f.inode.Safe (upTo f.inode.fs.ptrs f.inode.depth n) node)
    (hblocks : ∀ i, i < blocks → i * f.blocksize < maxFileSize) (hfuel : blocks - n ≤ k) :
    (∃ f', File.clearBlocks blocks k f = some (f', .error .enospc)) ∨
      ∃ f' n' node', File.clearBlocks blocks k f = some (f', .ok ()) ∧ f'.Holds n' node' c ∧
        f'.inode.Safe (upTo f'.inode.fs.ptrs f'.inode.depth n') node' ∧ n ≤ n' ∧ blocks ≤ n' ∧
        f'.blocksize = f.blocksize ∧ f'.behind n' node' = f.behind n node := by
  induction k generalizing f n node with
  | zero => exact .inr ⟨f, n, node, rfl, h, hsafe, le_rfl, by omega, rfl, rfl⟩
  | succ k ih =>
    rw [File.clearBlocks, h.wf.blocks]
    split
    · next hlt =>
      have hfuel₂ : blocks - (n + 1) ≤ k := by omega
      obtain ⟨next, b, hcall, hnext⟩ := h.expand hsafe (hblocks n hlt)
      rw [hcall]
      dsimp only
      by_cases hb : b = noBlock
      · rw [if_pos hb]
        exact .inl ⟨_, rfl⟩
      rw [if_neg hb]
      obtain ⟨node₁, h₁, hnode, htakes⟩ := hnext hb
      obtain ⟨h₂, hkeep⟩ := h₁.clear h.room
      rw [hnode] at h₂ hkeep
      rcases ih h₂ htakes.safe hblocks hfuel₂ with hfull |
          ⟨f', n', node', hloop, hholds, hsafe', -, hle, hsize, hbehind⟩
      · exact .inl hfull
      refine .inr ⟨f', n', node', hloop, hholds, hsafe', by omega, hle, hsize, ?_⟩
      rw [hbehind]
      funext i
      -- the new block is as zero as what lies behind all blocks
      rw [File.behind, File.behind]
      dsimp only
      rcases Nat.lt_trichotomy (i / f.blocksize) n with hi | hi | hi
      · rw [if_pos (by omega), if_pos hi, htakes.old _ hi]
        have := hkeep _ hi
        rw [htakes.old _ hi] at this
        rw [this]
      · rw [if_pos (by omega), if_neg (by omega), hi, hnode, Storage.view_putBuffer_self]
      · rw [if_neg (by omega), if_neg (by omega)]
    · next hge =>
      exact .inr ⟨f, n, node, rfl, h, hsafe, le_rfl, by omega, rfl, rfl⟩

theorem blocks_for (h : f.Holds n node c) (hword : f.blocksize < 2 ^ 32) (hmax : size ≤ maxFileSize) :
    ∃ blocks, word (size + f.blocksize - 1) / f.blocksize = blocks ∧ size ≤ blocks * f.blocksize ∧
      (∀ i, i < blocks → i * f.blocksize < size) ∧ ∀ m, size ≤ m * f.blocksize → blocks ≤ m := by
  have hB := h.blocksize_pos
  have hle := h.blocksize_le hword
  have hmaxsize : maxFileSize = 2 ^ 31 - 1 := rfl
  refine ⟨_, rfl, ?_⟩
  rw [word_of_lt (by omega)]
  set blocks := (size + f.blocksize - 1) / f.blocksize with hblocks
  have hdiv := Nat.div_add_mod' (size + f.blocksize - 1) f.blocksize
  have hmod := Nat.mod_lt (size + f.blocksize - 1) hB
  rw [← hblocks] at hdiv
  refine ⟨by omega, fun i hi => ?_, fun m hm => ?_⟩
  · have := Nat.mul_le_mul_right f.blocksize (Nat.succ_le_of_lt hi)
    rw [Nat.succ_mul] at this
    omega
  · by_contra hlt
    have := Nat.mul_le_mul_right f.blocksize (Nat.succ_le_of_lt (not_le.mp hlt))
    rw [Nat.succ_mul] at this
    omega

theorem grow (h : f.Holds n node c)
    (hsafe : f.inode.Safe (upTo f.inode.fs.ptrs f.inode.depth n) node) (hword : f.blocksize < 2 ^ 32)
    (hlt : f.size < size) (hmax : size ≤ maxFileSize) :
    (∃ f', f.dfsFtruncate size = some (f', .error .enospc)) ∨
      ∃ f' n' node', f.dfsFtruncate size = some (f', .ok ()) ∧
        f'.Holds n' node' (f.grown n node c size) ∧
        f'.inode.Safe (upTo f'.inode.fs.ptrs f'.inode.depth n') node' ∧
        f'.blocksize = f.blocksize := by
  obtain ⟨blocks, hblocks, hfit, hmin, -⟩ := h.blocks_for hword hmax
  rw [File.dfsFtruncate, if_neg (not_lt.mpr hmax), if_neg (by simp [h.regular]), if_neg (by omega)]
  rw [hblocks, if_pos hlt]
  rcases h.clearBlocks hsafe (fun i hi => (hmin i hi).trans_le hmax) (Nat.sub_le blocks n) with
      ⟨f', hfull⟩ | ⟨f', n', node', hloop, hholds, hsafe', -, hle, hsize, hbehind⟩
  · rw [hfull]
    exact .inl ⟨f', rfl⟩
  · rw [hloop]
    refine .inr ⟨_, n', node', rfl, ?_, hsafe', hsize⟩
    have hgrown : f'.grown n' node' c size = f.grown n node c size := by
      rw [File.grown, File.grown, hbehind]
    rw [← hgrown]
    apply hholds.lengthen
    · rw [← h.size]
      exact hlt.le
    · exact hmax
    · rw [hsize]
      exact hfit.trans (Nat.mul_le_mul_right _ hle)

theorem keep {m : ℕ} {next : Inode} (h : f.Holds n node c) (hwf : next.WellFormed m node)
    (hdepth : next.depth ≤ f.inode.depth) (hptrs : next.fs.ptrs = f.inode.fs.ptrs)
    (hle : size ≤ c.length) (hroom : size ≤ m * f.blocksize) :
    File.Holds { f with inode := next, size := size } m node (c.take size) := by
  have hlen : (c.take size).length = size := List.length_take_of_le hle
  refine ⟨hwf, ?_, ?_, h.regular, hlen.symm, hlen.trans_le (hle.trans h.small), hlen.trans_le hroom,
    fun i hi => ?_⟩
  · refine lt_of_le_of_lt ?_ h.shallow
    rw [hptrs]
    exact Nat.mul_le_mul_left _ (Nat.pow_le_pow_right f.inode.fs.ptrs_pos hdepth)
  · rw [hptrs]
    exact h.blocksize
  · rw [hlen] at hi
    rw [List.getElem?_take_of_lt hi]
    exact h.bytes i (hi.trans_le hle)

theorem shrink (h : f.Holds n node c)
    (hsafe : f.inode.Safe (upTo f.inode.fs.ptrs f.inode.depth n) node) (hword : f.blocksize < 2 ^ 32)
    (hlt : size < f.size) :
    ∃ f' m, f.dfsFtruncate size = some (f', .ok ()) ∧ f'.Holds m node (c.take size) ∧
      f'.inode.Safe (upTo f'.inode.fs.ptrs f'.inode.depth m) node ∧ f'.blocksize = f.blocksize := by
  have hle : size ≤ c.length := by
    rw [← h.size]
    exact hlt.le
  have hmax : size ≤ maxFileSize := hle.trans h.small
  obtain ⟨blocks, hblocks, hfit, -, hmin⟩ := h.blocks_for hword hmax
  have hn : blocks ≤ n := hmin n (hle.trans h.room)
  rw [File.dfsFtruncate, if_neg (not_lt.mpr hmax), if_neg (by simp [h.regular]), if_neg (by omega)]
  rw [hblocks, if_neg (by omega)]
  rcases hn.eq_or_lt with rfl | hn
  · -- the blocks are all needed
    have hsame : f.inode.truncateInode blocks = some (f.inode, 0) := by
      rw [Inode.truncateInode, h.wf.blocks, if_neg (lt_irrefl _), if_pos rfl]
    rw [hsame]
    exact ⟨_, blocks, rfl, h.keep h.wf le_rfl rfl hle hfit, hsafe, rfl⟩
  · have hshift : f.inode.depth * f.inode.fs.logBlkptrsPerBlock < 32 := h.depth_lt.trans (by decide)
    obtain ⟨fs, top, gone, hcall, hcut⟩ := h.wf.truncateInode_cuts hn hshift
    have hptrs : fs.ptrs = f.inode.fs.ptrs := congrArg (2 ^ ·) hcut.layout.log
    have hdepth : (if blocks = 0 then 0 else f.inode.depth) ≤ f.inode.depth := by
      split
      · exact Nat.zero_le _
      · exact le_rfl
    rw [hcall]
    refine ⟨_, blocks, rfl, h.keep (h.wf.cut hcut) hdepth hptrs hle hfit, ?_, rfl⟩
    -- a block that is free now was free before or in the file
    intro x hx
    rw [hcut.layout.blockCount, hcut.layout.blocksPerGroup, hcut.layout.groupCount]
    apply hsafe
    rcases hx with ⟨hin, hfree⟩ | ⟨r, j, ⟨hr, hj⟩, rfl⟩
    · rw [hcut.used] at hfree
      split at hfree
      · next hgone =>
        obtain ⟨r, j, hl, -, hnode⟩ := (Inode.WellFormed.freed_iff hcut x).mp hgone
        exact .inr ⟨r, j, hl, hnode⟩
      · exact .inl ⟨hcut.layout.inGroup.mp hin, hfree⟩
    · rw [hptrs] at hj
      exact .inr ⟨r, j, ⟨hr.trans hdepth, hj.trans hn⟩, rfl⟩

end File.Holds

theorem File.blockFor_blocksize {iblock : ℕ} {r : Except (Option FileError) ℕ}
    (h : f.blockFor iblock = some (f', r)) : f'.blocksize = f.blocksize := by
  rw [File.blockFor] at h
  split at h
  · obtain ⟨_, -, heq⟩ := Option.map_eq_some_iff.mp h
    rw [← (Prod.mk.inj heq).1]
  · split at h
    · obtain ⟨_, -, heq⟩ := Option.map_eq_some_iff.mp h
      rw [← (Prod.mk.inj heq).1]
    · rw [← (Prod.mk.inj (Option.some.inj h)).1]

theorem File.writeLoop_blocksize {flags : Flags} {w : ℕ} {r : Except FileError ℕ}
    (h : File.writeLoop flags k f pos p w = some (f', r)) : f'.blocksize = f.blocksize := by
  induction k generalizing f pos p w with
  | zero => rw [← (Prod.mk.inj (Option.some.inj h)).1]
  | succ k ih =>
    rw [File.writeLoop] at h
    split at h
    · split at h
      · rw [← (Prod.mk.inj (Option.some.inj h)).1]
      · dsimp only at h
        split at h
        · simp at h
        · next hfor =>
          rw [← File.blockFor_blocksize hfor, ← (Prod.mk.inj (Option.some.inj h)).1]
        · next hfor =>
          rw [← File.blockFor_blocksize hfor, ← (Prod.mk.inj (Option.some.inj h)).1]
        · next hfor =>
          rw [← File.blockFor_blocksize hfor]
          split at h
          · split at h
            · rw [← (Prod.mk.inj (Option.some.inj h)).1]
            · have hrest := ih h
              exact hrest
          · have hrest := ih h
            exact hrest
    · rw [← (Prod.mk.inj (Option.some.inj h)).1]

namespace File.Holds

theorem truncated (h : f.Holds n node c)
    (hsafe : f.inode.Safe (upTo f.inode.fs.ptrs f.inode.depth n) node) (hword : f.blocksize < 2 ^ 32)
    (hcall : f.dfsFtruncate size = some (f', .ok ())) :
    ∃ n' node', f'.Holds n' node' ((f.grown n node c size).take size) ∧
      f'.inode.Safe (upTo f'.inode.fs.ptrs f'.inode.depth n') node' ∧
      f'.blocksize = f.blocksize := by
  have hmax : size ≤ maxFileSize := by
    by_contra hgt
    rw [File.dfsFtruncate, if_pos (not_le.mp hgt)] at hcall
    simp at hcall
  rcases Nat.lt_trichotomy f.size size with hlt | heq | hgt
  · rcases h.grow hsafe hword hlt hmax with ⟨f₁, hfull⟩ | ⟨f₁, n', node', hok, hholds, hrest⟩
    · rw [hfull] at hcall
      simp at hcall
    · rw [hok] at hcall
      obtain ⟨rfl, -⟩ := Prod.mk.inj (Option.some.inj hcall)
      have hle : c.length ≤ size := by
        rw [← h.size]
        exact hlt.le
      rw [List.take_of_length_le (f.length_grown n node hle).le]
      exact ⟨n', node', hholds, hrest⟩
  · rw [File.dfsFtruncate, if_neg (not_lt.mpr hmax), if_neg (by simp [h.regular]), if_pos heq.symm]
      at hcall
    obtain ⟨rfl, -⟩ := Prod.mk.inj (Option.some.inj hcall)
    rw [h.size] at heq
    rw [f.grown_of_le n node heq.ge, List.take_of_length_le heq.le]
    exact ⟨n, node, h, hsafe, rfl⟩
  · obtain ⟨f₁, m, hok, hholds, hrest⟩ := h.shrink hsafe hword hgt
    rw [hok] at hcall
    obtain ⟨rfl, -⟩ := Prod.mk.inj (Option.some.inj hcall)
    rw [h.size] at hgt
    rw [f.grown_of_le n node hgt.le]
    exact ⟨m, node, hholds, hrest⟩

theorem wroteBytes (h : f.Holds n node c)
    (hsafe : f.inode.Safe (upTo f.inode.fs.ptrs f.inode.depth n) node) (hword : f.blocksize < 2 ^ 32)
    {append : Bool} {start w : ℕ} (hstart : (if append then f.size else pos) = start)
    (hcall : f.dfsWrite (buffered append) p pos = some (f', .ok w)) :
    ∃ n' node', f'.Holds n' node' (splice (f.grown n node c start) start p) ∧
      f'.inode.Safe (upTo f'.inode.fs.ptrs f'.inode.depth n') node' ∧
      f'.blocksize = f.blocksize := by
  rw [File.dfsWrite, buffered] at hcall
  rw [hstart] at hcall
  have hmax : start + p.length ≤ maxFileSize := by
    by_contra hgt
    rw [if_pos (not_le.mp hgt)] at hcall
    simp at hcall
  rw [if_neg (not_lt.mpr hmax), if_neg (by simp [h.regular])] at hcall
  -- the loop of `dfs_write`, on a file that is long enough
  have hloop {g : File} {m : ℕ} {node₁ : ℕ → ℕ → ℕ} {d : List UInt8} (hg : g.Holds m node₁ d)
      (hgsafe : g.inode.Safe (upTo g.inode.fs.ptrs g.inode.depth m) node₁) (hle : start ≤ d.length)
      (hcall : File.writeLoop ⟨append, false, false⟩ p.length g start p 0 = some (f', .ok w)) :
      ∃ n' node', f'.Holds n' node' (splice d start p) ∧
        f'.inode.Safe (upTo f'.inode.fs.ptrs f'.inode.depth n') node' ∧
        f'.blocksize = g.blocksize := by
    rcases hg.writeLoop (show (⟨append, false, false⟩ : Flags).direct = false from rfl) rfl 0 hgsafe
        hle hmax le_rfl with ⟨f₁, hfull⟩ | ⟨f₁, n', node', hok, hholds, hsafe', -⟩
    · rw [hfull] at hcall
      simp at hcall
    · have hsize := File.writeLoop_blocksize hcall
      rw [hok] at hcall
      obtain ⟨rfl, -⟩ := Prod.mk.inj (Option.some.inj hcall)
      exact ⟨n', node', hholds, hsafe', hsize⟩
  split at hcall
  · next hlt =>
    rcases h.grow hsafe hword hlt (by omega) with ⟨f₁, hfull⟩ | ⟨f₁, m, node₁, hok, hg, hgsafe, hsize⟩
    · rw [hfull] at hcall
      simp at hcall
    · rw [hok] at hcall
      have hle : c.length ≤ start := by
        rw [← h.size]
        exact hlt.le
      obtain ⟨n', node', hholds, hsafe', hsize'⟩ := hloop hg hgsafe (f.length_grown n node hle).ge hcall
      exact ⟨n', node', hholds, hsafe', hsize'.trans hsize⟩
  · next hge =>
    have hle : start ≤ c.length := by
      rw [← h.size]
      exact not_lt.mp hge
    rw [f.grown_of_le n node hle]
    exact hloop h hsafe hle hcall

end File.Holds

/-- What `dfs_read` returns is zero where nothing was written. -/
def File.HolesRead (f : File) (written : ℕ → Bool) : Prop :=
  ∀ append size pos, ∃ s bytes, f.dfsRead (buffered append) size pos = some (s, .ok bytes) ∧
    bytes.length = min size (f.size - pos) ∧
    ∀ k b, (bytes)[k]? = some b → written (pos + k) = false → b = 0

theorem File.Holds.holesRead_iff (h : f.Holds n node c) :
    f.HolesRead written ↔ Blank 0 c written := by
  constructor
  · intro hread i b hb hw
    obtain ⟨s, bytes, hcall, -, hzero⟩ := hread false 1 i
    obtain ⟨s', hcall', -⟩ := h.dfsRead false 1 i
    rw [hcall] at hcall'
    obtain ⟨-, hbytes⟩ := Prod.mk.inj (Option.some.inj hcall')
    refine hzero 0 b ?_ hw
    rw [Except.ok.inj hbytes, List.getElem?_take_of_lt (by decide), List.getElem?_drop]
    exact hb
  · intro hblank append size pos
    obtain ⟨s, hcall, -⟩ := h.dfsRead append size pos
    refine ⟨s, _, hcall, ?_, fun k b hb hw => ?_⟩
    · rw [List.length_take, List.length_drop, h.size]
    · rw [List.getElem?_take] at hb
      split at hb
      · rw [List.getElem?_drop] at hb
        exact hblank _ b hb hw
      · simp at hb

/-- The bytes that are written since the file is long enough for them, after `dfs_ftruncate`. -/
def File.afterTruncate (f : File) (written : ℕ → Bool) (size : ℕ) : ℕ → Bool :=
  mark written f.size size false

/-- After `dfs_write` of `len` bytes from `start` on. -/
def File.afterWrite (f : File) (written : ℕ → Bool) (start len : ℕ) : ℕ → Bool :=
  mark (f.afterTruncate written start) start (start + len) true

namespace File.Holds

section
variable (h : f.Holds n node c)
include h

theorem grown_blank_iff (hblank : Blank 0 c written) (hle : c.length ≤ size) :
    Blank 0 (f.grown n node c size) (f.afterTruncate written size) ↔ f.ClearTo size := by
  have hadd : c.length + (size - c.length) = size := by omega
  have happend := blank_append_iff hblank (size - c.length) (f.behind n node)
  rw [hadd] at happend
  rw [File.afterTruncate, h.size, h.clearTo_iff, hadd]
  exact happend

theorem clearTo_of_le (hle : size ≤ c.length) : f.ClearTo size := by
  intro i hge hlt
  rw [h.size] at hge
  omega

theorem afterTruncate_of_le (hle : size ≤ c.length) :
    f.afterTruncate written size = written := by
  rw [← h.size] at hle
  exact mark_empty written false hle

theorem truncate_blank_iff (hblank : Blank 0 c written) (size : ℕ) :
    Blank 0 ((f.grown n node c size).take size) (f.afterTruncate written size) ↔ f.ClearTo size := by
  rcases Nat.le_total size c.length with hle | hle
  · rw [h.afterTruncate_of_le hle, f.grown_of_le n node hle]
    exact iff_of_true (hblank.take size) (h.clearTo_of_le hle)
  · rw [List.take_of_length_le (f.length_grown n node hle).le]
    exact h.grown_blank_iff hblank hle

theorem write_blank_iff (hblank : Blank 0 c written) (start : ℕ)
    (p : List UInt8) :
    Blank 0 (splice (f.grown n node c start) start p) (f.afterWrite written start p.length) ↔
      f.ClearTo start := by
  rw [File.afterWrite]
  rcases Nat.le_total start c.length with hle | hle
  · rw [h.afterTruncate_of_le hle, f.grown_of_le n node hle,
      blank_splice_iff hle p fun i x hx hw _ _ => hblank i x hx hw]
    exact iff_of_true hblank (h.clearTo_of_le hle)
  · have hlen := f.length_grown n node hle
    rw [blank_splice_iff hlen.ge p fun i x hx _ hge _ => ?_]
    · exact h.grown_blank_iff hblank hle
    · have := (List.getElem?_eq_some_iff.mp hx).1
      omega

theorem truncate_holes_iff
    (hsafe : f.inode.Safe (upTo f.inode.fs.ptrs f.inode.depth n) node) (hword : f.blocksize < 2 ^ 32)
    (hblank : Blank 0 c written) (hcall : f.dfsFtruncate size = some (f', .ok ())) :
    f'.HolesRead (f.afterTruncate written size) ↔ f.ClearTo size := by
  obtain ⟨n', node', hholds, -⟩ := h.truncated hsafe hword hcall
  rw [hholds.holesRead_iff]
  exact h.truncate_blank_iff hblank size

theorem write_holes_iff
    (hsafe : f.inode.Safe (upTo f.inode.fs.ptrs f.inode.depth n) node) (hword : f.blocksize < 2 ^ 32)
    (hblank : Blank 0 c written) {append : Bool}
    (hcall : f.dfsWrite (buffered append) p pos = some (f', .ok k)) :
    f'.HolesRead (f.afterWrite written (if append then f.size else pos) p.length) ↔
      f.ClearTo (if append then f.size else pos) := by
  obtain ⟨n', node', hholds, -⟩ := h.wroteBytes hsafe hword rfl hcall
  rw [hholds.holesRead_iff]
  exact h.write_blank_iff hblank _ p

end

end File.Holds

/-- Calls that succeed, one after the other, and activity of the cache between them. Where a call
makes the file longer, no old bytes lie behind its end. -/
inductive HoleRun : File → (ℕ → Bool) → File → (ℕ → Bool) → Prop
  | done (f : File) (w : ℕ → Bool) : HoleRun f w f w
  | write {f f₁ f' : File} {w w' : ℕ → Bool} {p : List UInt8} {pos k : ℕ} (append : Bool)
      (hclear : f.ClearTo (if append then f.size else pos))
      (hcall : f.dfsWrite (buffered append) p pos = some (f₁, .ok k))
      (hrest : HoleRun f₁ (f.afterWrite w (if append then f.size else pos) p.length) f' w') :
      HoleRun f w f' w'
  | truncate {f f₁ f' : File} {w w' : ℕ → Bool} {size : ℕ} (hclear : f.ClearTo size)
      (hcall : f.dfsFtruncate size = some (f₁, .ok ()))
      (hrest : HoleRun f₁ (f.afterTruncate w size) f' w') : HoleRun f w f' w'
  | read {f f' : File} {w w' : ℕ → Bool} {bytes : List UInt8} {size pos : ℕ} {s : Storage}
      (append : Bool) (hcall : f.dfsRead (buffered append) size pos = some (s, .ok bytes))
      (hrest : HoleRun { f with store := s } w f' w') : HoleRun f w f' w'
  | cache {f f' : File} {w w' : ℕ → Bool} {s : Storage} (hview : ∀ b, s.view b = f.store.view b)
      (hrest : HoleRun { f with store := s } w f' w') : HoleRun f w f' w'

theorem HoleRun.holds {written' : ℕ → Bool} (hrun : HoleRun f written f' written')
    (h : f.Holds n node c) (hsafe : f.inode.Safe (upTo f.inode.fs.ptrs f.inode.depth n) node)
    (hword : f.blocksize < 2 ^ 32) (hblank : Blank 0 c written) :
    ∃ n' node' c', f'.Holds n' node' c' ∧
      f'.inode.Safe (upTo f'.inode.fs.ptrs f'.inode.depth n') node' ∧ f'.blocksize < 2 ^ 32 ∧
      Blank 0 c' written' := by
  induction hrun generalizing n node c with
  | done f w => exact ⟨n, node, c, h, hsafe, hword, hblank⟩
  | write append hclear hcall hrest ih =>
    obtain ⟨n₁, node₁, h₁, hsafe₁, hsize⟩ := h.wroteBytes hsafe hword rfl hcall
    exact ih h₁ hsafe₁ (hsize.trans_lt hword) ((h.write_blank_iff hblank _ _).mpr hclear)
  | truncate hclear hcall hrest ih =>
    obtain ⟨n₁, node₁, h₁, hsafe₁, hsize⟩ := h.truncated hsafe hword hcall
    exact ih h₁ hsafe₁ (hsize.trans_lt hword) ((h.truncate_blank_iff hblank _).mpr hclear)
  | read append hcall hrest ih =>
    rename_i size pos s
    obtain ⟨s', hok, hview⟩ := h.dfsRead append size pos
    rw [hcall] at hok
    obtain ⟨rfl, -⟩ := Prod.mk.inj (Option.some.inj hok)
    exact ih (h.withStore hview) hsafe hword hblank
  | cache hview hrest ih => exact ih (h.withStore hview) hsafe hword hblank

/-- Holes read as zero as long as no call makes the file longer over old bytes of its blocks; the
first that does shows them. -/
theorem holes_read_zero {written' : ℕ → Bool} (h : f.Holds n node c)
    (hsafe : f.inode.Safe (upTo f.inode.fs.ptrs f.inode.depth n) node) (hword : f.blocksize < 2 ^ 32)
    (hzero : f.HolesRead written) (hrun : HoleRun f written f' written') :
    f'.HolesRead written' ∧
      (∀ size f₁, f'.dfsFtruncate size = some (f₁, .ok ()) →
        (f₁.HolesRead (f'.afterTruncate written' size) ↔ f'.ClearTo size)) ∧
      ∀ append p pos k f₁, f'.dfsWrite (buffered append) p pos = some (f₁, .ok k) →
        (f₁.HolesRead (f'.afterWrite written' (if append then f'.size else pos) p.length) ↔
          f'.ClearTo (if append then f'.size else pos)) := by
  obtain ⟨n', node', c', h', hsafe', hword', hblank⟩ :=
    hrun.holds h hsafe hword (h.holesRead_iff.mp hzero)
  refine ⟨h'.holesRead_iff.mpr hblank, fun size f₁ hcall => ?_, fun append p pos k f₁ hcall => ?_⟩
  · exact h'.truncate_holes_iff hsafe' hword' hblank hcall
  · exact h'.write_holes_iff hsafe' hword' hblank hcall

theorem emptyDoc_holds : emptyDoc.Holds 0 (fun _ _ => 0) [] :=
  ⟨emptyFile_wellFormed, by decide, by decide, rfl, rfl, by decide, by decide, by simp⟩

theorem emptyDoc_grows : ∃ f, emptyDoc.dfsFtruncate 3000 = some (f, .ok ()) := by
  have hlt : emptyDoc.size < 3000 := by decide
  rcases emptyDoc_holds.grow emptyFile_safe (by decide) hlt (by decide) with
    ⟨f', hfull⟩ | ⟨f', n', node', hok, -⟩
  · have hroom : (emptyDoc.dfsFtruncate 3000).all (fun r => r.2.toBool) = true := by decide +kernel
    rw [hfull] at hroom
    simp [Except.toBool] at hroom
  · exact ⟨f', hok⟩

/-- An empty file that becomes 3000 bytes long. -/
theorem holes_read_zero_doc : ∃ f, emptyDoc.dfsFtruncate 3000 = some (f, .ok ()) ∧
    f.HolesRead (emptyDoc.afterTruncate (fun _ => true) 3000) := by
  obtain ⟨f, hcall⟩ := emptyDoc_grows
  have hclear : emptyDoc.ClearTo 3000 := by
    intro i _ _ hblk
    exact absurd hblk (Nat.not_lt_zero _)
  have hzero : emptyDoc.HolesRead fun _ => true := by
    rw [emptyDoc_holds.holesRead_iff]
    intro i x hx
    simp at hx
  refine ⟨f, hcall, ?_⟩
  exact (holes_read_zero emptyDoc_holds emptyFile_safe (by decide) hzero
    (.truncate hclear hcall (.done _ _))).1

/-- The same file on a disk that was used before. -/
def usedDoc : File := { emptyDoc with store := { zeroDisk with dev := fun _ _ => 7 } }

/-- One byte is written, the file is made longer by one, and its bytes are read. -/
def usedDocBytes : Option (Except FileError (List UInt8)) :=
  (usedDoc.dfsWrite (buffered false) [1] 0).bind fun r => (r.1.dfsFtruncate 2).bind fun r =>
    (r.1.dfsRead (buffered false) 2 0).map fun r => r.2

theorem used_doc_bytes : usedDocBytes = some (.ok [1, 7]) := by decide +kernel

/-- The byte behind the one that was written is what the disk held before. -/
theorem old_bytes_read : ∃ f₁ k f₂, usedDoc.dfsWrite (buffered false) [1] 0 = some (f₁, .ok k) ∧
    f₁.dfsFtruncate 2 = some (f₂, .ok ()) ∧
    ¬ f₂.HolesRead (f₁.afterTruncate (usedDoc.afterWrite (fun _ => false) 0 1) 2) := by
  have hbytes := used_doc_bytes
  obtain ⟨⟨f₁, r₁⟩, hwrite, hbytes⟩ := Option.bind_eq_some_iff.mp hbytes
  obtain ⟨⟨f₂, r₂⟩, htruncate, hbytes⟩ := Option.bind_eq_some_iff.mp hbytes
  obtain ⟨⟨s, r⟩, hread, hr⟩ := Option.map_eq_some_iff.mp hbytes
  have hok : (usedDoc.dfsWrite (buffered false) [1] 0).all (fun r => r.2.toBool) = true ∧
      ((usedDoc.dfsWrite (buffered false) [1] 0).bind fun r => r.1.dfsFtruncate 2).all
        (fun r => r.2.toBool) = true := by
    decide +kernel
  rw [hwrite, Option.bind_some, htruncate] at hok
  have hnever : f₁.afterTruncate (usedDoc.afterWrite (fun _ => false) 0 1) 2 1 = false := by
    rw [File.afterTruncate, mark]
    split
    · rfl
    · rfl
  cases r₁ with
  | error e => simp [Except.toBool] at hok
  | ok k =>
    cases r₂ with
    | error e => simp [Except.toBool] at hok
    | ok u =>
      refine ⟨f₁, k, f₂, hwrite, htruncate, fun hzero => ?_⟩
      obtain ⟨s', bytes, hread', -, hholes⟩ := hzero false 2 0
      rw [hread] at hread'
      obtain ⟨-, rfl⟩ := Prod.mk.inj (Option.some.inj hread')
      obtain rfl := Except.ok.inj hr
      exact absurd (hholes 1 7 rfl hnever) (by decide)

end SimpleKernel.Dfs
