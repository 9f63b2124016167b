import SimpleKernel.Dfs.Expansion
import SimpleKernel.Dfs.File

/-! The content of a file as a sequence of bytes, and what `dfs_read` and `dfs_write` do to it through
the buffer cache. -/
namespace SimpleKernel.Dfs
open PageTree Filsys Splice

variable {f f' : File} {n n' pos i b : ℕ} {node node' : ℕ → ℕ → ℕ} {c p : List UInt8}

/-- `f` is a regular file with the content `c`; `node` numbers its blocks. The block directory is not deeper than a
file of `DFS_MAXFILESIZE` bytes needs. -/
structure File.Holds (f : File) (n : ℕ) (node : ℕ → ℕ → ℕ) (c : List UInt8) : Prop where
  wf : f.inode.WellFormed n node
  shallow : 64 * f.inode.fs.ptrs ^ f.inode.depth < 2 ^ 31
  blocksize : f.blocksize = 4 * f.inode.fs.ptrs
  regular : f.isDir = false
  size : f.size = c.length
  small : c.length ≤ maxFileSize
  room : c.length ≤ n * f.blocksize
  bytes : ∀ i, i < c.length →
    (c)[i]? = some (f.store.view (node 0 (i / f.blocksize)) (i % f.blocksize))

/-- `b` is in use, but it is no data block of the file. -/
def File.Foreign (f : File) (n : ℕ) (node : ℕ → ℕ → ℕ) (b : ℕ) : Prop :=
  f.inode.fs.used b = true ∧ ∀ i, i < n → node 0 i ≠ b

/-- Blocks that are in use for something else stay as they are. -/
def File.Spares (f : File) (n : ℕ) (node : ℕ → ℕ → ℕ) (f' : File) (n' : ℕ) (node' : ℕ → ℕ → ℕ) :
    Prop :=
  ∀ b, f.Foreign n node b → f'.Foreign n' node' b ∧ f'.store.view b = f.store.view b

/-- The file has got blocks that were free. -/
structure File.Takes (f : File) (n : ℕ) (node : ℕ → ℕ → ℕ) (next : Inode) (n' : ℕ)
    (node' : ℕ → ℕ → ℕ) : Prop where
  le : n ≤ n'
  old : ∀ i, i < n → node' 0 i = node 0 i
  new : ∀ i, n ≤ i → i < n' → f.inode.fs.Free (node' 0 i)
  free : ∀ x, next.fs.Free x → f.inode.fs.Free x
  safe : next.Safe (upTo next.fs.ptrs next.depth n') node'
  spares : f.Spares n node { f with inode := next } n' node'

theorem File.Takes.refl (hsafe : f.inode.Safe (upTo f.inode.fs.ptrs f.inode.depth n) node) :
    f.Takes n node f.inode n node :=
  ⟨le_rfl, fun _ _ => rfl, fun _ hle hlt => absurd hlt (not_lt.mpr hle), fun _ hx => hx, hsafe,
    fun _ hb => ⟨hb, rfl⟩⟩

theorem File.Spares.trans {f'' : File} {n'' : ℕ} {node'' : ℕ → ℕ → ℕ}
    (h : f.Spares n node f' n' node') (h' : f'.Spares n' node' f'' n'' node'') :
    f.Spares n node f'' n'' node'' := by
  intro b hb
  obtain ⟨hb', hview⟩ := h b hb
  obtain ⟨hb'', hview'⟩ := h' b hb'
  exact ⟨hb'', hview'.trans hview⟩

namespace Storage
variable {s : Storage} {data : ℕ → UInt8}

theorem view_putBuffer_self (s : Storage) (b : ℕ) (data : ℕ → UInt8) :
    (s.putBuffer b data).view b = data := by
  simp [view, putBuffer]

theorem view_putBuffer_of_ne (s : Storage) (data : ℕ → UInt8) {b x : ℕ} (h : x ≠ b) :
    (s.putBuffer b data).view x = s.view x := by
  simp only [view, putBuffer, Function.update_of_ne h]
  rfl

theorem view_getBuffer (s : Storage) (b x : ℕ) : (s.getBuffer b).view x = s.view x := by
  rcases eq_or_ne x b with rfl | hne
  · exact view_putBuffer_self s x _
  · exact view_putBuffer_of_ne s _ hne

end Storage

/-! Positions in blocks. -/

theorem block_add {B k : ℕ} (pos : ℕ) (h : pos % B + k < B) :
    (pos + k) / B = pos / B ∧ (pos + k) % B = pos % B + k := by
  have hB : 0 < B := by omega
  have hdiv := Nat.div_add_mod' pos B
  have heq : pos + k = (pos % B + k) + pos / B * B := by omega
  constructor
  · rw [heq, Nat.add_mul_div_right _ _ hB, Nat.div_eq_of_lt h, Nat.zero_add]
  · rw [heq, Nat.add_mul_mod_self_right, Nat.mod_eq_of_lt h]

theorem block_lt {B : ℕ} (hB : 0 < B) (h : pos < n * B) : pos / B < n :=
  (Nat.div_lt_iff_lt_mul hB).mpr h

namespace File.Holds

section
variable (h : f.Holds n node c)
include h

theorem blocksize_pos : 0 < f.blocksize := by
  rw [h.blocksize]
  have := f.inode.fs.ptrs_pos
  omega

theorem depth_lt : f.inode.depth * f.inode.fs.logBlkptrsPerBlock < 25 := by
  have := shift_lt h.shallow
  omega

theorem getInodeBlock (hi : i < n) :
    f.inode.getInodeBlock i = some (node 0 i) :=
  h.wf.getInodeBlock hi (h.depth_lt.trans (by decide))

theorem ne_noBlock (hi : i < n) : node 0 i ≠ noBlock :=
  (h.wf.in_use 0 i ⟨Nat.zero_le _, by simpa using hi⟩).1.ne_noBlock h.wf.ok

theorem slice {count : ℕ} (hcount : pos % f.blocksize + count ≤ f.blocksize)
    (hlen : pos + count ≤ c.length) :
    ((List.range count).map fun k =>
      f.store.view (node 0 (pos / f.blocksize)) (pos % f.blocksize + k)) = (c.drop pos).take count := by
  apply List.ext_getElem?
  intro k
  rw [List.getElem?_take]
  split
  · next hk =>
    obtain ⟨hdiv, hmod⟩ := block_add pos (by omega : pos % f.blocksize + k < f.blocksize)
    have hbyte := h.bytes (pos + k) (by omega)
    rw [hdiv, hmod] at hbyte
    rw [List.getElem?_drop, hbyte]
    simp [hk]
  · next hk => simp [not_lt.mp hk]

theorem readLoop {flags : Flags} (hdirect : flags.direct = false)
    (hclosed : flags.closed = false) {fuel size : ℕ} {s : Storage} {read : List UInt8}
    (hs : ∀ b, s.view b = f.store.view b) (hfuel : size ≤ fuel) :
    ∃ s', f.readLoop flags fuel s pos size read = some (s', .ok (read ++ (c.drop pos).take size)) ∧
      ∀ b, s'.view b = f.store.view b := by
  induction fuel generalizing s pos size read with
  | zero =>
    obtain rfl : size = 0 := by omega
    exact ⟨s, by simp [File.readLoop], hs⟩
  | succ fuel ih =>
    rw [File.readLoop]
    split
    · next hcond =>
      obtain ⟨hpos, hsize⟩ := hcond
      have hB := h.blocksize_pos
      have hmod := Nat.mod_lt pos hB
      have hsmall := h.small
      rw [h.size] at hpos
      have hmax : maxFileSize < 2 ^ 32 := by decide
      have hblk : pos / f.blocksize < n := block_lt hB (hpos.trans_le h.room)
      have hpos' : word pos = pos := word_of_lt (by omega)
      have hmod' : word (pos % f.blocksize) = pos % f.blocksize :=
        word_of_lt ((Nat.mod_le pos _).trans_lt (by omega))
      have hdiv' : word (pos / f.blocksize) = pos / f.blocksize :=
        word_of_lt ((Nat.div_le_self pos _).trans_lt (by omega))
      rw [if_neg (by simp [hclosed]), hpos', hmod', hdiv', h.size]
      set count := min (min (f.blocksize - pos % f.blocksize) size) (c.length - pos) with hcount
      have hpos_count : 0 < count := by omega
      rw [if_neg hpos_count.ne', h.getInodeBlock hblk]
      dsimp only
      rw [if_neg (h.ne_noBlock hblk), if_neg (by simp [hdirect])]
      have hs' (b : ℕ) : (s.getBuffer (node 0 (pos / f.blocksize))).view b = f.store.view b :=
        (Storage.view_getBuffer _ _ _).trans (hs b)
      have hrest : size - count ≤ fuel := by omega
      have hsplit : (c.drop pos).take size =
          (c.drop pos).take count ++ (c.drop (pos + count)).take (size - count) := by
        rw [← List.drop_drop, ← List.take_add]
        congr 1
        omega
      rw [hs, h.slice (by omega) (by omega), hsplit, ← List.append_assoc]
      exact ih hs' hrest
    · next hcond =>
      refine ⟨s, ?_, hs⟩
      have hnil : (c.drop pos).take size = [] := by
        rw [h.size] at hcond
        rcases not_and_or.mp hcond with hle | h0
        · rw [List.drop_eq_nil_of_le (not_lt.mp hle), List.take_nil]
        · rw [Nat.le_zero.mp (not_lt.mp h0), List.take_zero]
      rw [hnil, List.append_nil]

theorem wrote {store : Storage} (hblk : pos / f.blocksize < n)
    (hpos : pos ≤ c.length) (hfit : pos % f.blocksize + p.length ≤ f.blocksize)
    (hmax : pos + p.length ≤ maxFileSize)
    (hother : ∀ b, b ≠ node 0 (pos / f.blocksize) → store.view b = f.store.view b)
    (hself : ∀ o, o < f.blocksize → store.view (node 0 (pos / f.blocksize)) o =
      patch (f.store.view (node 0 (pos / f.blocksize))) (pos % f.blocksize) p o) :
    (f.wrote store (pos + p.length)).Holds n node (splice c pos p) ∧
      f.Spares n node (f.wrote store (pos + p.length)) n node := by
  have hB := h.blocksize_pos
  have hlen := length_splice (a := p) hpos
  have hsmall := h.small
  have hroom := h.room
  have hend : pos + p.length ≤ n * f.blocksize := by
    have hdiv := Nat.div_add_mod' pos f.blocksize
    have hle := Nat.mul_le_mul_right f.blocksize hblk
    rw [Nat.succ_mul] at hle
    omega
  have hsize := h.size
  refine ⟨⟨h.wf, h.shallow, h.blocksize, h.regular, ?_, by omega, ?_, fun i hi => ?_⟩, fun b hb => ?_⟩
  · dsimp only [File.wrote]
    split
    · omega
    · omega
  · rw [hlen]
    exact max_le hroom hend
  · dsimp only [File.wrote]
    have hlive {k : ℕ} (hk : k < n) : upTo f.inode.fs.ptrs f.inode.depth n 0 k :=
      ⟨Nat.zero_le _, by simpa using hk⟩
    have hin : i / f.blocksize < n := block_lt hB (by omega)
    have hposdiv := Nat.div_add_mod' pos f.blocksize
    have hidiv := Nat.div_add_mod' i f.blocksize
    have himod := Nat.mod_lt i hB
    by_cases heq : i / f.blocksize = pos / f.blocksize
    · -- the block that is written
      rw [heq] at hidiv ⊢
      rw [hself _ himod]
      rcases Nat.lt_or_ge i pos with hlt | hge
      · rw [patch_of_lt _ (by omega), getElem?_splice_of_lt hpos hlt, h.bytes i (by omega), heq]
      · rcases Nat.lt_or_ge i (pos + p.length) with hlt | hge'
        · rw [patch_mem _ (by omega) (by omega), getElem?_splice_mem hpos hge hlt]
          congr 1
          omega
        · rw [patch_of_ge _ (by omega), getElem?_splice_of_ge hpos hge', h.bytes i (by omega), heq]
    · have hne : node 0 (i / f.blocksize) ≠ node 0 (pos / f.blocksize) := fun he =>
        heq (h.wf.distinct 0 _ 0 _ (hlive hin) (hlive hblk) he).2
      rw [hother _ hne]
      -- positions in other blocks are outside the range
      have hout : i < pos ∨ pos + p.length ≤ i := by
        rcases Nat.lt_or_ge i pos with hlt | hge
        · exact .inl hlt
        · by_contra hlt
          have hstart : pos / f.blocksize ≤ i / f.blocksize := Nat.div_le_div_right hge
          have hlt' : i / f.blocksize < pos / f.blocksize + 1 := by
            apply block_lt hB
            rw [Nat.succ_mul]
            omega
          omega
      rcases hout with hlt | hge
      · rw [getElem?_splice_of_lt hpos hlt, h.bytes i (by omega)]
      · rw [getElem?_splice_of_ge hpos hge, h.bytes i (by omega)]
  · obtain ⟨huse, hno⟩ := hb
    exact ⟨⟨huse, hno⟩, hother b (hno _ hblk).symm⟩

end

theorem writeBuffer_self (f : File) (blk : ℕ) {start : ℕ} (hfit : start + p.length ≤ f.blocksize)
    {o : ℕ} (ho : o < f.blocksize) :
    (f.writeBuffer blk start p).view blk o = patch (f.store.view blk) start p o := by
  rw [File.writeBuffer, Storage.view_putBuffer_self]
  split
  · next hfull =>
    -- the whole block is written
    have hmem (data : ℕ → UInt8) : some (patch data start p o) = p[o - start]? :=
      patch_mem data (by omega) (by omega)
    exact Option.some.inj ((hmem _).trans (hmem _).symm)
  · rfl

theorem wroteBuffer (h : f.Holds n node c) (hblk : pos / f.blocksize < n) (hpos : pos ≤ c.length)
    (hfit : pos % f.blocksize + p.length ≤ f.blocksize) (hmax : pos + p.length ≤ maxFileSize) :
    ∃ f', f.wrote (f.writeBuffer (node 0 (pos / f.blocksize)) (pos % f.blocksize) p)
        (pos + p.length) = f' ∧ f'.Holds n node (splice c pos p) ∧ f'.inode = f.inode ∧
      f.Spares n node f' n node := by
  obtain ⟨hholds, hspares⟩ := h.wrote hblk hpos hfit hmax
    (fun b hb => Storage.view_putBuffer_of_ne _ _ hb) fun o ho => writeBuffer_self f _ hfit ho
  exact ⟨_, rfl, hholds, rfl, hspares⟩

theorem expand (h : f.Holds n node c)
    (hsafe : f.inode.Safe (upTo f.inode.fs.ptrs f.inode.depth n) node)
    (hroom : n * f.blocksize < maxFileSize) :
    ∃ next b, f.inode.expandInode = some (next, b) ∧ (b ≠ noBlock → ∃ node',
      File.Holds { f with inode := next } (n + 1) node' c ∧ node' 0 n = b ∧
      f.Takes n node next (n + 1) node') := by
  have hmaxsize : maxFileSize < 2 ^ 31 := by decide
  -- the directory stays shallow: a full one holds less than the largest file
  have hdepth : 64 * f.inode.fs.ptrs ^ f.inode.nextDepth < 2 ^ 31 :=
    h.wf.nextDepth_lt (by decide) h.shallow (by rw [← h.blocksize]; omega)
  have hfit : f.inode.Fits := (Nat.lt_of_add_right_lt (shift_lt hdepth)).trans (by decide)
  obtain ⟨next, b, hcall, hnext⟩ := h.wf.expandInode hsafe hfit
  obtain ⟨next', b', hcall', hext⟩ := h.wf.extend hsafe hfit
  obtain ⟨rfl, rfl⟩ := Prod.mk.inj (Option.some.inj (hcall'.symm.trans hcall))
  refine ⟨next', b', hcall, fun hb => ?_⟩
  obtain ⟨node', hadds, hnode, hsafe'⟩ := hnext hb
  obtain ⟨node'', hext, -, hnextDepth, -⟩ := hext hb
  have hptrs : next'.fs.ptrs = f.inode.fs.ptrs := hext.ptrs
  have hold {i : ℕ} (hi : i < n) : node' 0 i = node 0 i :=
    (hadds.keep 0 i ⟨Nat.zero_le _, by simpa using hi⟩).2
  have hB := h.blocksize_pos
  have hnew : f.inode.fs.Free (node' 0 n) :=
    hadds.free 0 n ⟨Nat.zero_le _, by simp⟩ fun hl => by simpa using hl.2
  refine ⟨node', ⟨hadds.wellFormed, ?_, ?_, h.regular, h.size, h.small, ?_, fun i hi => ?_⟩, hnode,
    ⟨Nat.le_succ n, fun i hi => hold hi, fun i hle hlt => ?_, fun x hx => ?_, hsafe', fun x hx => ?_⟩⟩
  · rw [hptrs, hnextDepth]
    exact hdepth
  · rw [hptrs]
    exact h.blocksize
  · exact h.room.trans (Nat.mul_le_mul_right _ (Nat.le_succ n))
  · have hin : i / f.blocksize < n := block_lt hB (hi.trans_le h.room)
    rw [hold hin]
    exact h.bytes i hi
  · obtain rfl : i = n := by omega
    exact hnew
  · obtain ⟨hin, hfree⟩ := hx
    refine ⟨hext.layout.inGroup.mp hin, ?_⟩
    rw [Bool.eq_false_iff] at hfree ⊢
    exact fun huse => hfree ((hadds.used x).mpr (.inl huse))
  · obtain ⟨huse, hno⟩ := hx
    refine ⟨⟨(hadds.used x).mpr (.inl huse), fun i hi he => ?_⟩, rfl⟩
    rcases Nat.lt_succ_iff_lt_or_eq.mp hi with hlt | rfl
    · exact hno i hlt ((hold hlt).symm.trans he)
    · -- the new block was free
      have hfree := hnew.2
      rw [he, huse] at hfree
      simp at hfree

theorem blockFor (h : f.Holds n node c)
    (hsafe : f.inode.Safe (upTo f.inode.fs.ptrs f.inode.depth n) node) (hpos : pos ≤ c.length)
    (hlt : pos < maxFileSize) :
    (∃ f', f.blockFor (pos / f.blocksize) = some (f', .error (some .enospc))) ∨
      ∃ next n' node', f.blockFor (pos / f.blocksize) =
          some ({ f with inode := next }, .ok (node' 0 (pos / f.blocksize))) ∧
        File.Holds { f with inode := next } n' node' c ∧ pos / f.blocksize < n' ∧
        f.Takes n node next n' node' := by
  rw [File.blockFor, h.wf.blocks]
  rcases Nat.lt_or_ge (pos / f.blocksize) n with hblk | hblk
  · rw [if_pos hblk, h.getInodeBlock hblk]
    right
    refine ⟨f.inode, n, node, ?_, h, hblk, .refl hsafe⟩
    rw [Option.map_some, if_neg (h.ne_noBlock hblk)]
  · -- only a write at the end of a file with full blocks needs a new one
    have hroom := h.room
    have hle := Nat.div_mul_le_self pos f.blocksize
    have hge := Nat.mul_le_mul_right f.blocksize hblk
    have heq : pos / f.blocksize = n := by
      refine le_antisymm ?_ hblk
      exact Nat.div_le_of_le_mul (by rw [Nat.mul_comm]; omega)
    rw [heq, if_neg (lt_irrefl n), if_pos rfl]
    obtain ⟨next, b, hcall, hnext⟩ := h.expand hsafe (by omega)
    rw [hcall, Option.map_some]
    by_cases hb : b = noBlock
    · left
      rw [if_pos hb]
      exact ⟨_, rfl⟩
    · right
      obtain ⟨node', hholds, hnode, htakes⟩ := hnext hb
      rw [if_neg hb]
      exact ⟨next, n + 1, node', by rw [hnode], hholds, Nat.lt_succ_self n, htakes⟩

theorem writeLoop {flags : Flags} (hdirect : flags.direct = false) (hclosed : flags.closed = false)
    {fuel : ℕ} (written : ℕ) (h : f.Holds n node c)
    (hsafe : f.inode.Safe (upTo f.inode.fs.ptrs f.inode.depth n) node) (hpos : pos ≤ c.length)
    (hmax : pos + p.length ≤ maxFileSize) (hfuel : p.length ≤ fuel) :
    (∃ f', File.writeLoop flags fuel f pos p written = some (f', .error .enospc)) ∨
      ∃ f' n' node', File.writeLoop flags fuel f pos p written =
          some (f', .ok (written + p.length)) ∧ f'.Holds n' node' (splice c pos p) ∧
        f'.inode.Safe (upTo f'.inode.fs.ptrs f'.inode.depth n') node' ∧ f.Spares n node f' n' node' := by
  induction fuel generalizing f n node c pos p written with
  | zero =>
    obtain rfl := List.length_eq_zero_iff.mp (Nat.le_zero.mp hfuel)
    rw [splice_nil]
    exact .inr ⟨f, n, node, rfl, h, hsafe, fun b hb => ⟨hb, rfl⟩⟩
  | succ fuel ih =>
    rw [File.writeLoop]
    split
    · next hlen =>
      have hB := h.blocksize_pos
      have hmod := Nat.mod_lt pos hB
      have hmaxsize : maxFileSize < 2 ^ 32 := by decide
      have hpos' : word pos = pos := word_of_lt (by omega)
      rw [if_neg (by simp [hclosed]), hpos']
      dsimp only
      set count := min (f.blocksize - pos % f.blocksize) p.length with hcount
      rcases h.blockFor hsafe hpos (by omega) with ⟨f', hfull⟩ | ⟨next, n₁, node₁, hfor, h₁, hblk, htakes⟩
      · rw [hfull]
        exact .inl ⟨f', rfl⟩
      rw [hfor]
      dsimp only
      rw [if_neg (by simp [hdirect])]
      have htake : (p.take count).length = count := by
        rw [List.length_take]
        omega
      have hchunk : pos + (p.take count).length ≤ maxFileSize := by
        omega
      have hfit : pos % f.blocksize + (p.take count).length ≤ f.blocksize := by
        omega
      obtain ⟨f₂, hf₂, h₂, hinode, hspares₂⟩ := h₁.wroteBuffer hblk hpos hfit hchunk
      dsimp only at hf₂ hinode
      have hsafe₁ := htakes.safe
      rw [← hinode] at hsafe₁
      have hpos₂ : pos + (p.take count).length ≤ (splice c pos (p.take count)).length := by
        rw [length_splice hpos]
        exact le_max_right _ _
      have hmax₂ : pos + (p.take count).length + (p.drop count).length ≤ maxFileSize := by
        rw [List.length_drop]
        omega
      have hfuel₂ : (p.drop count).length ≤ fuel := by
        rw [List.length_drop]
        omega
      have hrest := ih (written + count) h₂ hsafe₁ hpos₂ hmax₂ hfuel₂
      rw [htake] at hrest hf₂
      rw [hf₂]
      rcases hrest with ⟨f', hfull⟩ | ⟨f', n', node', hloop, hholds, hsafe', hspares'⟩
      · exact .inl ⟨f', hfull⟩
      · right
        refine ⟨f', n', node', ?_, ?_, hsafe', (htakes.spares.trans hspares₂).trans hspares'⟩
        · rw [List.length_drop] at hloop
          rw [show written + p.length = written + count + (p.length - count) by omega]
          exact hloop
        · have happ := splice_append hpos (p.take count) (p.drop count)
          rw [htake, List.take_append_drop] at happ
          rw [← happ]
          exact hholds
    · next hlen =>
      obtain rfl := List.length_eq_zero_iff.mp (Nat.le_zero.mp (not_lt.mp hlen))
      rw [splice_nil]
      exact .inr ⟨f, n, node, rfl, h, hsafe, fun b hb => ⟨hb, rfl⟩⟩

end File.Holds

/-- Calls without `O_DIRECT`. -/
def buffered (append : Bool) : Flags := ⟨append, false, false⟩

theorem File.Holds.dfsRead (h : f.Holds n node c) (append : Bool) (size pos : ℕ) :
    ∃ s, f.dfsRead (buffered append) size pos = some (s, .ok ((c.drop pos).take size)) ∧
      ∀ b, s.view b = f.store.view b :=
  h.readLoop rfl rfl (fun _ => rfl) le_rfl

theorem File.Holds.dfsWrite (h : f.Holds n node c)
    (hsafe : f.inode.Safe (upTo f.inode.fs.ptrs f.inode.depth n) node) (append : Bool)
    (hpos : (if append then f.size else pos) ≤ f.size)
    (hmax : (if append then f.size else pos) + p.length ≤ maxFileSize) :
    (∃ f', f.dfsWrite (buffered append) p pos = some (f', .error .enospc)) ∨
      ∃ f' n' node', f.dfsWrite (buffered append) p pos = some (f', .ok p.length) ∧
        f'.Holds n' node' (splice c (if append then f.size else pos) p) ∧
        f'.inode.Safe (upTo f'.inode.fs.ptrs f'.inode.depth n') node' ∧ f.Spares n node f' n' node' := by
  rw [File.dfsWrite, buffered]
  rw [if_neg (not_lt.mpr hmax), if_neg (by simp [h.regular]), if_neg (not_lt.mpr hpos)]
  rw [h.size] at hpos hmax ⊢
  have hloop := h.writeLoop (show (buffered append).direct = false from rfl) rfl 0 hsafe hpos hmax le_rfl
  rw [Nat.zero_add] at hloop
  exact hloop

/-- Calls that succeed, one after the other, and activity of the cache between them. The lists are the
content before and after. -/
inductive FileRun : File → List UInt8 → File → List UInt8 → Prop
  | done (f : File) (c : List UInt8) : FileRun f c f c
  | write {f f₁ f' : File} {c c' p : List UInt8} {pos w : ℕ} (append : Bool)
      (hpos : (if append then f.size else pos) ≤ f.size)
      (hmax : (if append then f.size else pos) + p.length ≤ maxFileSize)
      (hcall : f.dfsWrite (buffered append) p pos = some (f₁, .ok w))
      (hrest : FileRun f₁ (splice c (if append then f.size else pos) p) f' c') : FileRun f c f' c'
  | read {f f' : File} {c c' bytes : List UInt8} {size pos : ℕ} {s : Storage} (append : Bool)
      (hcall : f.dfsRead (buffered append) size pos = some (s, .ok bytes))
      (hrest : FileRun { f with store := s } c f' c') : FileRun f c f' c'
  | cache {f f' : File} {c c' : List UInt8} {s : Storage}
      (hview : ∀ b, s.view b = f.store.view b)
      (hrest : FileRun { f with store := s } c f' c') : FileRun f c f' c'

theorem File.Holds.withStore (h : f.Holds n node c) {s : Storage}
    (hview : ∀ b, s.view b = f.store.view b) : File.Holds { f with store := s } n node c := by
  refine ⟨h.wf, h.shallow, h.blocksize, h.regular, h.size, h.small, h.room, fun i hi => ?_⟩
  rw [hview]
  exact h.bytes i hi

theorem FileRun.holds {c' : List UInt8} (hrun : FileRun f c f' c') (h : f.Holds n node c)
    (hsafe : f.inode.Safe (upTo f.inode.fs.ptrs f.inode.depth n) node) :
    ∃ n' node', f'.Holds n' node' c' ∧
      f'.inode.Safe (upTo f'.inode.fs.ptrs f'.inode.depth n') node' := by
  induction hrun generalizing n node with
  | done f c => exact ⟨n, node, h, hsafe⟩
  | write append hpos hmax hcall hrest ih =>
    rcases h.dfsWrite hsafe append hpos hmax with ⟨f₁, hfull⟩ | ⟨f₁, n₁, node₁, hok, hholds, hsafe₁, -⟩
    · rw [hcall] at hfull
      simp at hfull
    · rw [hcall] at hok
      obtain ⟨rfl, -⟩ := Prod.mk.inj (Option.some.inj hok)
      exact ih hholds hsafe₁
  | read append hcall hrest ih =>
    rename_i size pos s
    obtain ⟨s', hok, hview⟩ := h.dfsRead append size pos
    rw [hcall] at hok
    obtain ⟨rfl, -⟩ := Prod.mk.inj (Option.some.inj hok)
    exact ih (h.withStore hview) hsafe
  | cache hview hrest ih => exact ih (h.withStore hview) hsafe

/-- A disk of zeros without buffers in the cache. -/
def zeroDisk : Storage := ⟨512, 2, fun _ _ => 0, fun _ => none⟩

theorem zeroDisk_view (b o : ℕ) : zeroDisk.view b o = 0 := by
  show (if o < 2 * 512 then 0 else 0) = (0 : UInt8)
  split
  · rfl
  · rfl

/-- An empty file on a disk with blocks of 1 KB. -/
def emptyDoc : File := ⟨emptyFile, 1024, 0, false, zeroDisk⟩

/-- A file of 16 blocks, of which the last one is the last block of the group. -/
def lastGroupFile : File where
  inode :=
    { fs :=
        { logBlkptrsPerBlock := 8
          blockCount := 100
          blocksPerGroup := 64
          inodesPerGroup := 16
          groupCount := 1
          freeBlockCount := 16
          groups := fun _ => ⟨64, fun b => decide (b < 32 ∨ 48 ≤ b ∧ b < 64), 16, 32⟩
          page := fun _ _ => 0
          freed := [] }
      ino := 8
      blocks := 16
      depth := 0
      blockdir := fun i => if i < 16 then 48 + i else 0 }
  blocksize := 1024
  size := 16384
  isDir := false
  store := zeroDisk

theorem lastGroupFile_live {r j : ℕ}
    (hl : upTo lastGroupFile.inode.fs.ptrs lastGroupFile.inode.depth 16 r j) : r = 0 ∧ j < 16 := by
  obtain ⟨hr, hj⟩ := hl
  obtain rfl : r = 0 := Nat.le_zero.mp hr
  exact ⟨rfl, by simpa using hj⟩

theorem lastGroupFile_wellFormed : lastGroupFile.inode.WellFormed 16 fun _ j => 48 + j := by
  refine ⟨⟨⟨fun r j hl => hl.1, ?_, ?_, ?_, ?_, ?_, ?_, ?_⟩, rfl⟩, ⟨by decide, by decide, by decide, ?_,
    ?_, by decide⟩, by decide, ?_, ?_⟩
  · intro j hl
    obtain ⟨-, hj⟩ := lastGroupFile_live hl
    exact ⟨hj, if_pos hj⟩
  · intro j hj hnot
    exact absurd ⟨le_rfl, by simpa [lastGroupFile, topBlockdirSize] using hj⟩ hnot
  · intro r j _ hr
    exact absurd hr (Nat.not_lt_zero r)
  · intro r j o hl
    exact absurd (lastGroupFile_live hl).1 (Nat.succ_ne_zero r)
  · intro r j _ hr
    exact absurd hr (Nat.not_lt_zero r)
  · intro r j r' j' hl
    exact absurd (lastGroupFile_live hl).1 (Nat.succ_ne_zero r)
  · omega
  · intro g hg
    obtain rfl : g = 0 := Nat.lt_one_iff.mp hg
    rfl
  · intro g _ hne
    exact absurd (show 64 % 32 = 0 by decide) hne
  · intro r j hl
    obtain ⟨-, hj⟩ := lastGroupFile_live hl
    have hmod : (48 + j) % 64 = 48 + j := by omega
    refine ⟨?_, ?_⟩
    · show (48 + j) / 64 < 1 ∧ (48 + j) % 64 < 64
      omega
    · show decide ((48 + j) % 64 < 32 ∨ 48 ≤ (48 + j) % 64 ∧ (48 + j) % 64 < 64) = true
      rw [hmod, decide_eq_true_iff]
      omega
  · intro r j r' j' hl hl' heq
    obtain ⟨rfl, -⟩ := lastGroupFile_live hl
    obtain ⟨rfl, -⟩ := lastGroupFile_live hl'
    exact ⟨rfl, by omega⟩

theorem lastGroupFile_holds :
    lastGroupFile.Holds 16 (fun _ j => 48 + j) (List.replicate 16384 0) := by
  refine ⟨lastGroupFile_wellFormed, by decide, by decide, rfl, ?_, ?_, ?_, fun i hi => ?_⟩
  · rw [List.length_replicate]
    rfl
  · rw [List.length_replicate]
    decide
  · rw [List.length_replicate]
    decide
  · rw [List.length_replicate] at hi
    rw [List.getElem?_replicate, if_pos hi]
    exact congrArg some (zeroDisk_view _ _).symm

theorem lastGroupFile_expand : lastGroupFile.inode.expandInode = none := by
  have hmax : lastGroupFile.inode.blocks = lastGroupFile.inode.maxBlocks := by
    rw [Inode.maxBlocks, word_of_lt (by decide)]
    rfl
  have hgoal : minus (lastGroupFile.inode.blockdir 0) 1 = 47 := by
    rw [minus_of_le (by decide)]
    rfl
  have hnew : lastGroupFile.inode.fs.newBlock 47 =
      some (lastGroupFile.inode.fs.blockFound 0 47) := by
    rfl
  have hblock : (lastGroupFile.inode.fs.blockFound 0 47).2 = 47 := word_of_lt (by decide)
  rw [Inode.expandInode, if_neg (by decide), if_pos hmax, Inode.withNewBlock, hgoal, hnew]
  dsimp only
  rw [hblock, if_neg (by decide)]
  set inode := Inode.pushDown { lastGroupFile.inode with
    fs := (lastGroupFile.inode.fs.blockFound 0 47).1 } 47 with hinode
  have hsplit : inode.splitLevels inode.blocks = some [0, 16] := by decide
  have htop : inode.blockdir 0 = 47 := rfl
  have hslot : inode.fs.page 47 (16 - 1) = 63 := rfl
  have hnext : word (63 + 1) = 64 := word_of_lt (by decide)
  have hnone : inode.fs.newBlock 64 = none := by
    rw [newBlock, if_pos (by decide)]
    rw [if_pos (by decide)]
  rw [Inode.setInodeBlock, if_neg (by decide), hsplit]
  dsimp only
  rw [if_neg (by decide), htop, if_neg (by decide), Inode.setBelow, Inode.setLeaf, if_pos rfl,
    if_neg (by decide), hslot, hnext, Inode.withNewBlock, hnone]

end SimpleKernel.Dfs
