import SimpleKernel.Dfs.Entries
import SimpleKernel.Dfs.Swap
import SimpleKernel.Lib.Assoc

/-! A directory as a finite map from names to inode numbers. -/
namespace SimpleKernel.Dfs
open PageTree Filsys Records Assoc
open Vfs (Path Cred maxPath sIexec)

/-- The name and the inode number of a record. -/
def Entry.binding (r : Entry) : Path × UInt32 := (r.name, r.ino)

/-- The bindings in the blocks of a directory. -/
def bindings (bs : List (List Entry)) : List (Path × UInt32) := bs.flatten.map Entry.binding

/-- The blocks of the directory hold the records `bs`. Its block `i` is `node 0 i`; the tree of blocks is not deeper
than `2 ^ 32` bytes need. The thread `t` may use it. -/
structure Directory.Holds (dir : Directory) (t : Cred) (n : ℕ) (node : ℕ → ℕ → ℕ)
    (bs : List (List Entry)) : Prop where
  wf : dir.inode.WellFormed n node
  shallow : 64 * dir.inode.fs.ptrs ^ dir.inode.depth < 2 ^ 32
  blocksize : dir.blocksize = 4 * dir.inode.fs.ptrs
  large : 512 ≤ dir.blocksize
  blocksize_lt : dir.blocksize < 2 ^ 32
  directory : dir.isDir = true
  exec : dir.checki t sIexec = true
  write : dir.checki t sIwrite = true
  length : bs.length = n
  size : dir.size = n * dir.blocksize
  small : dir.size ≤ 2 ^ 32
  records : ∀ i rs, bs[i]? = some rs → Entries (dir.data (node 0 i)) 0 rs dir.blocksize

/-- No block that is free or in the directory lies directly before a group that does not exist. -/
def Directory.Safe (dir : Directory) (n : ℕ) (node : ℕ → ℕ → ℕ) : Prop :=
  dir.inode.Safe (upTo dir.inode.fs.ptrs dir.inode.depth n) node

/-- The bindings of the directory are those of `m`. -/
def Directory.Represents (dir : Directory) (t : Cred) (m : Path → Option UInt32) : Prop :=
  ∃ n node bs, dir.Holds t n node bs ∧ dir.Safe n node ∧ Maps m (bindings bs)

variable {dir dir' : Directory} {t : Cred} {n : ℕ} {node : ℕ → ℕ → ℕ} {bs A B : List (List Entry)}
  {rs rs' pre mid post : List Entry} {r : Entry} {name : Path} {ino : UInt32} {m : Path → Option UInt32}

/-! Bindings. -/

theorem bindings_append : bindings (A ++ B) = bindings A ++ bindings B := by
  simp [bindings]

theorem bindings_cons : bindings (rs :: B) = rs.map Entry.binding ++ bindings B := by
  simp [bindings]

theorem bindings_middle (A : List (List Entry)) (pre mid post : List Entry) (B : List (List Entry)) :
    (bindings (A ++ (pre ++ mid ++ post) :: B)).Perm
      (mid.map Entry.binding ++ bindings (A ++ (pre ++ post) :: B)) := by
  simp only [bindings_append, bindings_cons, List.map_append, List.append_assoc]
  refine (List.Perm.append_left _ ?_).trans (List.perm_append_comm_assoc _ _ _)
  exact List.perm_append_comm_assoc _ _ _

theorem bindings_block (A : List (List Entry)) (rs : List Entry) (B : List (List Entry)) :
    (bindings (A ++ rs :: B)).Perm (rs.map Entry.binding ++ bindings (A ++ B)) := by
  simp only [bindings_append, bindings_cons]
  exact List.perm_append_comm_assoc _ _ _

namespace Directory.Holds

theorem depth_lt (h : dir.Holds t n node bs) :
    dir.inode.depth * dir.inode.fs.logBlkptrsPerBlock < 32 :=
  (Nat.lt_of_add_right_lt (shift_lt h.shallow)).trans_le (by decide)

theorem getInodeBlock {i : ℕ} (h : dir.Holds t n node bs) (hi : i < n) :
    dir.inode.getInodeBlock i = some (node 0 i) :=
  h.wf.getInodeBlock hi h.depth_lt

theorem searchFrom {test : (ℕ → UInt8) → ℕ → Bool} {f : Entry → Bool} {count block : ℕ}
    (h : dir.Holds t n node bs) (htest : ∀ d q r, EntryAt d q r → test d q = f r)
    (hcount : block + count = n) :
    (dir.search test count block = some (.ok none) ∧
        ∀ i rs, block ≤ i → bs[i]? = some rs → ∀ r ∈ rs, f r = false) ∨
      ∃ A pre r post B q, bs = A ++ (pre ++ r :: post) :: B ∧
        Splits (EntryAt (dir.data (node 0 A.length))) Entry.reclen 0 pre r post dir.blocksize q ∧
        f r = true ∧ dir.search test count block =
          some (.ok (some ⟨A.length, node 0 A.length, lastStart Entry.reclen none pre q, q⟩)) := by
  induction count generalizing block with
  | zero =>
    left
    refine ⟨rfl, fun i rs hi hrs => ?_⟩
    have hlt := (List.getElem?_eq_some_iff.mp hrs).1
    rw [h.length] at hlt
    omega
  | succ count ih =>
    have hblock : block < bs.length := by
      rw [h.length]
      omega
    have hget : bs[block]? = some bs[block] := List.getElem?_eq_getElem hblock
    rw [search, h.getInodeBlock (by omega)]
    dsimp only
    rw [if_neg (h.wf.block_ne_noBlock (by omega))]
    rcases (h.records block _ hget).walk (htest (dir.data (node 0 block))) with
      ⟨hwalk, hno⟩ | ⟨pre, r, post, q, hrs, hsplit, -, hr, hwalk⟩
    · rw [hwalk]
      rcases ih (by omega : block + 1 + count = n) with ⟨hsearch, hrest⟩ | hfound
      · left
        refine ⟨hsearch, fun i rs hi hirs => ?_⟩
        rcases hi.eq_or_lt with rfl | hlt
        · obtain rfl := Option.some.inj (hget.symm.trans hirs)
          exact hno
        · exact hrest i rs hlt hirs
      · exact .inr hfound
    · right
      have hlen : (bs.take block).length = block := List.length_take_of_le hblock.le
      refine ⟨bs.take block, pre, r, post, bs.drop (block + 1), q, ?_, ?_, hr, ?_⟩
      · rw [← hrs, List.getElem_cons_drop, List.take_append_drop]
      · rw [hlen]
        exact hsplit
      · rw [hwalk, hlen]

theorem search {test : (ℕ → UInt8) → ℕ → Bool} {f : Entry → Bool} (h : dir.Holds t n node bs)
    (htest : ∀ d q r, EntryAt d q r → test d q = f r) :
    (dir.search test dir.inode.blocks 0 = some (.ok none) ∧ ∀ rs ∈ bs, ∀ r ∈ rs, f r = false) ∨
      ∃ A pre r post B q, bs = A ++ (pre ++ r :: post) :: B ∧
        Splits (EntryAt (dir.data (node 0 A.length))) Entry.reclen 0 pre r post dir.blocksize q ∧
        f r = true ∧ dir.search test dir.inode.blocks 0 =
          some (.ok (some ⟨A.length, node 0 A.length, lastStart Entry.reclen none pre q, q⟩)) := by
  rw [h.wf.blocks]
  rcases h.searchFrom htest (Nat.zero_add n) with ⟨hsearch, hno⟩ | hfound
  · left
    refine ⟨hsearch, fun rs hrs => ?_⟩
    obtain ⟨i, hi⟩ := List.getElem?_of_mem hrs
    exact hno i rs (Nat.zero_le i) hi
  · exact .inr hfound

theorem length_lt (h : dir.Holds t n node (A ++ rs :: B)) : A.length < n := by
  rw [← h.length]
  simp

theorem put {d : ℕ → UInt8} (h : dir.Holds t n node (A ++ rs :: B))
    (hd : Entries d 0 rs' dir.blocksize) :
    (dir.put (node 0 A.length) d).Holds t n node (A ++ rs' :: B) := by
  have hset : (A ++ rs :: B).set A.length rs' = A ++ rs' :: B := by simp
  refine ⟨h.wf, h.shallow, h.blocksize, h.large, h.blocksize_lt, h.directory, h.exec, h.write, ?_, h.size,
    h.small, fun i xs hxs => ?_⟩
  · rw [← h.length, ← hset, List.length_set]
  · have hi : i < n := by
      rw [← h.length, ← List.length_set, hset]
      exact (List.getElem?_eq_some_iff.mp hxs).1
    rcases eq_or_ne i A.length with rfl | hne
    · obtain rfl : rs' = xs := by simpa using hxs
      simpa [Directory.put] using hd
    · rw [← hset, List.getElem?_set_ne hne.symm] at hxs
      have hblk : node 0 i ≠ node 0 A.length := fun he =>
        hne (h.wf.distinct 0 _ 0 _ (upTo_zero_iff.mpr hi) (upTo_zero_iff.mpr h.length_lt) he).2
      rw [Directory.put]
      dsimp only
      rw [Function.update_of_ne hblk]
      exact h.records i xs hxs

theorem addBlock (h : dir.Holds t n node bs) (hsafe : dir.Safe n node) (hroom : dir.size < 2 ^ 32)
    (hpos : 0 < name.length) (hshort : name.length < maxPath) (ino : UInt32) :
    (∃ dir', dir.addBlock name ino = some (dir', .error .enospc)) ∨
      ∃ dir' node', dir.addBlock name ino = some (dir', .ok ()) ∧
        dir'.Holds t (n + 1) node' (bs ++ [[⟨ino, dir.blocksize, name⟩]]) ∧ dir'.Safe (n + 1) node' := by
  have hsize := h.size
  have hdepth : 64 * dir.inode.fs.ptrs ^ dir.inode.nextDepth < 2 ^ 32 :=
    h.wf.nextDepth_lt le_rfl h.shallow (by rw [← h.blocksize]; omega)
  have hfit : dir.inode.Fits := (Nat.lt_of_add_right_lt (shift_lt hdepth)).trans_le (by decide)
  obtain ⟨next, b, hcall, hnext⟩ := h.wf.expandInode hsafe hfit
  obtain ⟨next', b', hcall', hext⟩ := h.wf.extend hsafe hfit
  obtain ⟨rfl, rfl⟩ := Prod.mk.inj (Option.some.inj (hcall'.symm.trans hcall))
  rw [Directory.addBlock, hcall, Option.map_some]
  by_cases hb : b' = noBlock
  · left
    rw [if_pos hb]
    exact ⟨_, rfl⟩
  right
  obtain ⟨node', hadds, hnode, hsafe'⟩ := hnext hb
  obtain ⟨node'', hext, -, hnextDepth, -⟩ := hext hb
  have hptrs : next'.fs.ptrs = dir.inode.fs.ptrs := hext.ptrs
  rw [if_neg hb]
  refine ⟨_, node', rfl, ⟨hadds.wellFormed, ?_, ?_, h.large, h.blocksize_lt, h.directory, h.exec, h.write, ?_, ?_,
    ?_, fun i rs hrs => ?_⟩, hsafe'⟩
  · show 64 * next'.fs.ptrs ^ next'.depth < 2 ^ 32
    rw [hptrs, hnextDepth]
    exact hdepth
  · show dir.blocksize = 4 * next'.fs.ptrs
    rw [hptrs]
    exact h.blocksize
  · rw [List.length_append, h.length]
    rfl
  · show dir.size + dir.blocksize = (n + 1) * dir.blocksize
    rw [hsize, Nat.succ_mul]
  · -- the size of a block divides `2 ^ 32`
    have hdvd : dir.blocksize ∣ 2 ^ 32 := by
      have hword := h.blocksize_lt
      rw [h.blocksize, Filsys.ptrs, show 4 = 2 ^ 2 by decide, ← Nat.pow_add] at hword ⊢
      exact Nat.pow_dvd_pow 2 ((Nat.pow_lt_pow_iff_right (by decide)).mp hword).le
    obtain ⟨k, hk⟩ := hdvd
    rw [hsize, hk, Nat.mul_comm] at hroom
    have hlt := Nat.lt_of_mul_lt_mul_left hroom
    rw [hsize, hk, Nat.mul_comm]
    exact Nat.mul_le_mul_left _ hlt
  · have hold {i : ℕ} (hi : i < n) : node' 0 i = node 0 i :=
      (hadds.keep 0 i (upTo_zero_iff.mpr hi)).2
    dsimp only [Directory.put]
    rcases Nat.lt_trichotomy i n with hlt | rfl | hgt
    · rw [List.getElem?_append_left (by rw [h.length]; exact hlt)] at hrs
      have hne : node' 0 i ≠ b' := fun he => by
        rw [← hnode] at he
        have := (hadds.wellFormed.distinct 0 _ 0 _ (upTo_zero_iff.mpr (by omega))
          (upTo_zero_iff.mpr (by omega)) he).2
        omega
      rw [Function.update_of_ne hne, hold hlt]
      exact h.records i rs hrs
    · rw [← h.length, List.getElem?_concat_length] at hrs
      obtain rfl := Option.some.inj hrs
      rw [hnode, Function.update_self]
      have hmin := minLen_lt hshort
      have hlarge := h.large
      have hat := putDentry_at (fun _ => 0) 0 ino hpos hshort (by omega : minLen name.length ≤ dir.blocksize)
        h.blocksize_lt
      exact ⟨hat, Nat.zero_add _⟩
    · rw [List.getElem?_eq_none (by simp [h.length]; omega)] at hrs
      simp at hrs

theorem swapLast (h : dir.Holds t n node (A ++ rs :: B)) :
    ∃ next, dir.swapLast A.length (node 0 A.length) = some (.ok next) ∧
      dir.inode.Reorders n node next (swapNode node A.length (n - 1)) := by
  have hi := h.length_lt
  have hlast : minus dir.inode.blocks 1 = n - 1 := by
    rw [h.wf.blocks, minus_of_le (by omega)]
  rw [Directory.swapLast, hlast]
  by_cases heq : A.length = n - 1
  · refine ⟨dir.inode, by rw [if_pos heq], ?_⟩
    rw [← heq, swapNode_self]
    exact ⟨h.wf, rfl, rfl, fun r j hl => ⟨j, hl, rfl⟩⟩
  · obtain ⟨mid, next, hset, hset', hre⟩ := h.wf.swap hi (by omega : n - 1 < n) h.depth_lt
    rw [if_neg heq, h.getInodeBlock (by omega)]
    dsimp only
    rw [if_neg (h.wf.block_ne_noBlock (by omega)), hset, Option.bind_some, hset']
    exact ⟨next, rfl, hre⟩

theorem dropBlock {next : Inode} {node' : ℕ → ℕ → ℕ} {bs' : List (List Entry)}
    (h : dir.Holds t n node bs) (hshrink : dir.inode.Shrinks n node next node')
    (hlen : bs'.length = n - 1)
    (hbs : ∀ i, i < n - 1 → ∃ k, k < n ∧ node' 0 i = node 0 k ∧ bs'[i]? = bs[k]?) :
    Directory.Holds { dir with inode := next, size := dir.size - dir.blocksize } t (n - 1) node' bs' := by
  have hptrs : next.fs.ptrs = dir.inode.fs.ptrs := congrArg (2 ^ ·) hshrink.log
  have hsmall := h.small
  refine ⟨hshrink.wf, ?_, ?_, h.large, h.blocksize_lt, h.directory, h.exec, h.write, hlen, ?_,
    (Nat.sub_le _ _).trans hsmall, fun i rs hrs => ?_⟩
  · rw [hptrs]
    exact (Nat.mul_le_mul_left 64 (Nat.pow_le_pow_right dir.inode.fs.ptrs_pos hshrink.depth)).trans_lt
      h.shallow
  · rw [hptrs]
    exact h.blocksize
  · rw [h.size, Nat.sub_mul, Nat.one_mul]
  · have hi := (List.getElem?_eq_some_iff.mp hrs).1
    obtain ⟨k, -, hnode, hget⟩ := hbs i (by omega)
    rw [hnode]
    exact h.records k rs (hget.symm.trans hrs)

theorem deleteBlock (h : dir.Holds t n node (A ++ rs :: B)) (hsafe : dir.Safe n node) :
    ∃ dir' node' bs', dir.deleteBlock A.length (node 0 A.length) = some (dir', .ok ()) ∧
      dir'.Holds t (n - 1) node' bs' ∧ dir'.Safe (n - 1) node' ∧
      (bindings (A ++ rs :: B)).Perm (rs.map Entry.binding ++ bindings bs') := by
  have hi := h.length_lt
  have hlen := h.length
  rw [List.length_append, List.length_cons] at hlen
  obtain ⟨mid, hswap, hre⟩ := h.swapLast
  obtain ⟨next, htrunc, hshrink⟩ := hre.dropLast (by omega) h.depth_lt
  have hblocks : minus mid.blocks 1 = n - 1 := by
    rw [hre.wf.blocks, minus_of_le (by omega)]
  have hcall : dir.deleteBlock A.length (node 0 A.length) =
      some ({ dir with inode := next, size := dir.size - dir.blocksize }, .ok ()) := by
    rw [Directory.deleteBlock, hswap]
    dsimp only
    rw [hblocks, htrunc, Option.map_some]
  have hnode (k : ℕ) : swapNode node A.length (n - 1) 0 k = node 0 (Equiv.swap A.length (n - 1) k) := by
    rw [swapNode, if_pos rfl]
  rcases List.eq_nil_or_concat B with rfl | ⟨C, l, rfl⟩
  · -- the last block itself
    rw [List.length_nil] at hlen
    refine ⟨_, _, A, hcall, ?_, hshrink.safe hsafe, ?_⟩
    · refine h.dropBlock hshrink (by omega) fun i hlt => ⟨i, by omega, ?_, ?_⟩
      · rw [hnode, Equiv.swap_apply_of_ne_of_ne (by omega) (by omega)]
      · rw [List.getElem?_append_left (by omega)]
    · rw [bindings_append]
      exact List.perm_append_comm.trans (by simp [bindings])
  · rw [List.length_concat] at hlen
    refine ⟨_, _, A ++ l :: C, hcall, ?_, hshrink.safe hsafe, ?_⟩
    · refine h.dropBlock hshrink (by simp; omega) fun i hlt =>
        ⟨_, swap_lt hi (by omega) (by omega), hnode i, ?_⟩
      rcases eq_or_ne i A.length with rfl | hne
      · have hlast : n - 1 = A.length + (C.length + 1) := by omega
        rw [hlast]
        simp
      · rw [Equiv.swap_apply_of_ne_of_ne hne (by omega)]
        rcases Nat.lt_or_gt_of_ne hne with hlt' | hgt
        · rw [List.getElem?_append_left hlt', List.getElem?_append_left hlt']
        · obtain ⟨k, rfl⟩ := Nat.exists_eq_add_of_lt hgt
          rw [Nat.add_assoc, List.getElem?_append_right (by omega), List.getElem?_append_right (by omega),
            Nat.add_sub_cancel_left, List.getElem?_cons_succ, List.getElem?_cons_succ,
            List.concat_eq_append, List.getElem?_append_left (by omega)]
    · refine (bindings_block A rs _).trans (List.Perm.append_left _ ?_)
      rw [List.concat_eq_append, ← List.append_assoc]
      refine (bindings_block (A ++ C) l []).trans ?_
      rw [List.append_nil]
      exact (bindings_block A l C).symm

theorem searchName (h : dir.Holds t n node bs) (hmaps : Maps m (bindings bs)) (name : Path) :
    (dir.search (hasName name) dir.inode.blocks 0 = some (.ok none) ∧ m name = none) ∨
      ∃ A pre r post B q, bs = A ++ (pre ++ r :: post) :: B ∧
        Splits (EntryAt (dir.data (node 0 A.length))) Entry.reclen 0 pre r post dir.blocksize q ∧
        r.name = name ∧ m name = some r.ino ∧ dir.search (hasName name) dir.inode.blocks 0 =
          some (.ok (some ⟨A.length, node 0 A.length, lastStart Entry.reclen none pre q, q⟩)) := by
  rcases h.search (fun _ _ _ hr => hr.hasName : ∀ d q r, EntryAt d q r → hasName name d q = _) with
    ⟨hsearch, hno⟩ | ⟨A, pre, r, post, B, q, rfl, hsplit, hr, hsearch⟩
  · left
    refine ⟨hsearch, hmaps.eq_none_iff.mpr fun hmem => ?_⟩
    simp only [bindings, List.mem_map, List.mem_flatten] at hmem
    obtain ⟨-, ⟨r, ⟨rs, hrs, hr⟩, rfl⟩, rfl⟩ := hmem
    have hne := hno rs hrs r hr
    simp [Entry.binding] at hne
  · right
    obtain rfl := of_decide_eq_true hr
    refine ⟨A, pre, r, post, B, q, rfl, hsplit, rfl, (hmaps.mem _ _).mpr ?_, hsearch⟩
    simp [bindings, Entry.binding]

theorem refused (h : dir.Holds t n node bs) (hpos : 0 < name.length) (hshort : name.length < maxPath)
    {access : ℕ} (haccess : dir.checki t access = true) : dir.refused t access name = none := by
  rw [Directory.refused, if_neg hpos.ne', if_neg (not_le.mpr hshort), if_neg (by simp [h.directory]),
    if_neg (by simp [haccess])]

end Directory.Holds

namespace Directory.Represents

theorem findDirEntry (h : dir.Represents t m) (hpos : 0 < name.length)
    (hshort : name.length < maxPath) :
    dir.findDirEntry t name = some (match m name with
      | some ino => .ok ino
      | none => .error .enoent) := by
  obtain ⟨n, node, bs, h, -, hmaps⟩ := h
  rw [Directory.findDirEntry, h.refused hpos hshort h.exec]
  rcases h.searchName hmaps name with ⟨hsearch, hm⟩ | ⟨A, pre, r, post, B, q, rfl, hsplit, -, hm, hsearch⟩
  · rw [hsearch, hm, Option.map_some]
  · rw [hsearch, hm, Option.map_some]
    dsimp only
    rw [hsplit.here.deIno]

/-- A new name is bound, unless the disk is full. Only a directory of `2 ^ 32` bytes without room in
its records is too large. -/
theorem addDirEntry (h : dir.Represents t m) (hm : m name = none) (hpos : 0 < name.length)
    (hshort : name.length < maxPath)
    (hroom : dir.search (hasRoom name) dir.inode.blocks 0 = some (.ok none) → dir.size < 2 ^ 32)
    (ino : UInt32) :
    (∃ dir', dir.addDirEntry t name ino = some (dir', .error .enospc)) ∨
      ∃ dir', dir.addDirEntry t name ino = some (dir', .ok ()) ∧
        dir'.Represents t (Function.update m name (some ino)) := by
  obtain ⟨n, node, bs, h, hsafe, hmaps⟩ := h
  have hnew := hmaps.insert hm ino
  rw [Directory.addDirEntry, h.refused hpos hshort h.write]
  rcases h.search (fun _ _ _ hr => hr.hasRoom : ∀ d q r, EntryAt d q r → hasRoom name d q = _) with
    ⟨hsearch, -⟩ | ⟨A, pre, r, post, B, q, rfl, hsplit, hr, hsearch⟩
  · rw [hsearch]
    rcases h.addBlock hsafe (hroom hsearch) hpos hshort ino with hfull | ⟨dir', node', hadd, h', hsafe'⟩
    · exact .inl hfull
    · refine .inr ⟨dir', hadd, _, node', _, h', hsafe', hnew.perm ?_⟩
      rw [bindings_append]
      exact (List.perm_append_singleton (name, ino) (bindings bs)).symm
  · right
    rw [hsearch]
    have hentries := Splits.addAfter hsplit h.blocksize_lt ino hpos hshort (of_decide_eq_true hr)
    refine ⟨_, rfl, n, node, _, h.put hentries, hsafe, hnew.perm ?_⟩
    -- the old record keeps its binding
    have hold := bindings_middle A pre [r] post B
    have hnow := bindings_middle A pre [{ r with reclen := minLen r.name.length },
      ⟨ino, r.reclen - minLen r.name.length, name⟩] post B
    rw [List.append_assoc] at hold
    refine ((hold.cons (name, ino)).trans ?_).trans hnow.symm
    exact List.Perm.swap _ _ _

theorem modifyDirEntry (h : dir.Represents t m) (hpos : 0 < name.length)
    (hshort : name.length < maxPath) (ino : UInt32) :
    (m name = none ∧ dir.modifyDirEntry t name ino = some (dir, .error .enoent)) ∨
      ∃ dir' old, m name = some old ∧ dir.modifyDirEntry t name ino = some (dir', .ok old) ∧
        dir'.Represents t (Function.update m name (some ino)) := by
  obtain ⟨n, node, bs, h, hsafe, hmaps⟩ := h
  rw [Directory.modifyDirEntry, h.refused hpos hshort h.write]
  rcases h.searchName hmaps name with
    ⟨hsearch, hm⟩ | ⟨A, pre, r, post, B, q, rfl, hsplit, rfl, hm, hsearch⟩
  · left
    rw [hsearch]
    exact ⟨hm, rfl⟩
  · right
    rw [hsearch, Option.map_some]
    dsimp only
    rw [hsplit.here.deIno]
    refine ⟨_, r.ino, hm, rfl, n, node, _, h.put (Splits.putIno hsplit ino), hsafe, ?_⟩
    have hold := bindings_middle A pre [r] post B
    have hnow := bindings_middle A pre [{ r with ino := ino }] post B
    rw [List.append_assoc] at hold
    exact ((hmaps.perm hold).replace ino).perm hnow.symm

theorem deleteDirEntry (h : dir.Represents t m) (hpos : 0 < name.length)
    (hshort : name.length < maxPath) :
    (m name = none ∧ dir.deleteDirEntry t name = some (dir, .error .enoent)) ∨
      ∃ dir' old, m name = some old ∧ dir.deleteDirEntry t name = some (dir', .ok ()) ∧
        dir'.Represents t (Function.update m name none) := by
  obtain ⟨n, node, bs, h, hsafe, hmaps⟩ := h
  rw [Directory.deleteDirEntry, if_neg (by omega), if_neg (by simp [h.directory]),
    if_neg (by simp [h.write])]
  rcases h.searchName hmaps name with
    ⟨hsearch, hm⟩ | ⟨A, pre, r, post, B, q, rfl, hsplit, rfl, hm, hsearch⟩
  · left
    rw [hsearch]
    exact ⟨hm, rfl⟩
  right
  rw [hsearch]
  dsimp only
  rcases List.eq_nil_or_concat pre with rfl | ⟨front, s, rfl⟩
  · -- the first record of its block
    obtain rfl : 0 = q := hsplit.before
    rw [hsplit.here.reclen]
    cases post with
    | nil =>
      have hend : 0 + r.reclen = dir.blocksize := hsplit.after
      rw [if_pos (by omega)]
      obtain ⟨dir', node', bs', hdelete, h', hsafe', hperm⟩ := h.deleteBlock hsafe
      exact ⟨dir', r.ino, hm, hdelete, _, node', bs', h', hsafe', (hmaps.perm hperm).erase⟩
    | cons s rest =>
      have hend := hsplit.after.2.le
      have hpos' := hsplit.after.1.reclen_pos
      rw [if_neg (by omega)]
      refine ⟨_, r.ino, hm, rfl, n, node, _, h.put (Splits.mergeNext hsplit h.blocksize_lt rfl), hsafe, ?_⟩
      have hold := bindings_middle A [] [r, s] rest B
      have hnow := bindings_middle A [] [{ s with reclen := r.reclen + s.reclen }] rest B
      exact ((hmaps.perm hold).erase).perm hnow.symm
  · rw [List.concat_eq_append] at *
    have hlast : lastStart Entry.reclen none (front ++ [s]) q = some (q - s.reclen) := by
      simp [lastStart]
    rw [hlast]
    refine ⟨_, r.ino, hm, rfl, n, node, _, h.put (Splits.mergePrev hsplit h.blocksize_lt rfl), hsafe, ?_⟩
    have hold := bindings_middle A front [s, r] post B
    have hnow := bindings_middle A front [{ s with reclen := s.reclen + r.reclen }] post B
    have hsame : front ++ [s] ++ r :: post = front ++ [s, r] ++ post := by simp
    rw [hsame] at hmaps
    exact ((hmaps.perm (hold.trans (List.Perm.swap _ _ _))).erase).perm hnow.symm

end Directory.Represents

/-- Calls of `dfs_readdir` one after the other, from `pos` on, return the entries of the list and then
no more. -/
def Directory.Lists (dir : Directory) : ℕ → List (Path × UInt32) → Prop
  | pos, [] => dir.dfsReaddir pos 1 = some (pos, .ok none)
  | pos, e :: es => ∃ pos', dir.dfsReaddir pos 1 = some (pos', .ok (some e)) ∧ dir.Lists pos' es

namespace Directory.Holds

theorem dfsReaddir {i q : ℕ} (h : dir.Holds t n node bs) (hi : i < n)
    (hr : EntryAt (dir.data (node 0 i)) q r) (hend : q + r.reclen ≤ dir.blocksize) :
    dir.dfsReaddir (i * dir.blocksize + q) 1 =
      some (i * dir.blocksize + (q + r.reclen), .ok (some r.binding)) := by
  have hrec := hr.reclen_pos
  have hword := h.blocksize_lt
  have hsmall := h.small
  have hsize := h.size
  have hle := Nat.mul_le_mul_right dir.blocksize hi
  rw [Nat.succ_mul] at hle
  have hpos : word (i * dir.blocksize + q) = i * dir.blocksize + q := word_of_lt (by omega)
  have hdiv : (i * dir.blocksize + q) / dir.blocksize = i := by
    rw [Nat.add_comm, Nat.add_mul_div_right _ _ (by omega), Nat.div_eq_of_lt (by omega), Nat.zero_add]
  have hmod : (i * dir.blocksize + q) % dir.blocksize = q := by
    rw [Nat.add_comm, Nat.add_mul_mod_self_right, Nat.mod_eq_of_lt (by omega)]
  have hnonempty := hr.nonempty
  have hshort := hr.short
  rw [Directory.dfsReaddir, if_neg (by simp), if_neg (by omega), hpos, hdiv, hmod]
  dsimp only
  rw [h.getInodeBlock hi]
  dsimp only
  rw [if_neg (h.wf.block_ne_noBlock hi), hr.reclen, hr.namelen, hr.deName, hr.deIno,
    word_of_lt (by omega), if_neg (by omega), Nat.add_assoc]
  rfl

theorem listsBlock {i q : ℕ} {es : List (Path × UInt32)} (h : dir.Holds t n node bs) (hi : i < n)
    (hrs : Entries (dir.data (node 0 i)) q rs dir.blocksize)
    (hrest : dir.Lists ((i + 1) * dir.blocksize) es) :
    dir.Lists (i * dir.blocksize + q) (rs.map Entry.binding ++ es) := by
  induction rs generalizing q with
  | nil =>
    obtain rfl : q = dir.blocksize := hrs
    rw [Nat.succ_mul] at hrest
    exact hrest
  | cons r rs ih =>
    obtain ⟨hr, hrs⟩ := hrs
    exact ⟨_, h.dfsReaddir hi hr hrs.le, ih hrs⟩

theorem listsFrom {k : ℕ} (h : dir.Holds t n node bs) (hk : k ≤ n) :
    dir.Lists ((n - k) * dir.blocksize) (bindings (bs.drop (n - k))) := by
  induction k with
  | zero =>
    have hdrop : bs.drop (n - 0) = [] := List.drop_eq_nil_of_le (by rw [h.length, Nat.sub_zero])
    rw [hdrop]
    show dir.dfsReaddir _ 1 = _
    rw [Directory.dfsReaddir, if_neg (by simp), if_pos (by rw [h.size, Nat.sub_zero])]
  | succ k ih =>
    have hlt : n - (k + 1) < bs.length := by
      rw [h.length]
      omega
    have hnext : n - (k + 1) + 1 = n - k := by omega
    rw [List.drop_eq_getElem_cons hlt, bindings_cons, hnext]
    have hlist := h.listsBlock (by omega) (h.records _ _ (List.getElem?_eq_getElem hlt)) (by
      rw [hnext]
      exact ih (by omega))
    exact hlist

theorem lists (h : dir.Holds t n node bs) : dir.Lists 0 (bindings bs) := by
  have hall := h.listsFrom le_rfl
  rw [Nat.sub_self, Nat.zero_mul] at hall
  exact hall

end Directory.Holds

end SimpleKernel.Dfs
