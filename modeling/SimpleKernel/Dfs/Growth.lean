import SimpleKernel.Dfs.BlockMap

/-! `expand_inode` adds one block to the end of a file. The directory pages on the way to it that do
not exist yet are added from the top down. -/
namespace SimpleKernel.Dfs
open PageTree Filsys
open Function (update update_of_ne update_self)

/-- The nodes on the way to the first `n` blocks, and those on the way to the next one from height
`R` up. -/
def grown (B d n R : ℕ) : ℕ → ℕ → Prop := fun r j => r ≤ d ∧ (j * B ^ r < n ∨ j * B ^ r = n ∧ R ≤ r)

section Grown
variable {B d n R r j : ℕ}

theorem grown_top : grown B d n (d + 1) r j ↔ upTo B d n r j := by
  constructor
  · rintro ⟨hr, hlt | ⟨-, hR⟩⟩
    · exact ⟨hr, hlt⟩
    · omega
  · exact fun ⟨hr, hlt⟩ => ⟨hr, .inl hlt⟩

theorem grown_zero : grown B d n 0 r j ↔ upTo B d (n + 1) r j := by
  constructor
  · rintro ⟨hr, hlt | ⟨heq, -⟩⟩ <;> exact ⟨hr, by omega⟩
  · rintro ⟨hr, hlt⟩
    rcases (Nat.lt_succ_iff.mp hlt).eq_or_lt with heq | hlt'
    · exact ⟨hr, .inr ⟨heq, Nat.zero_le r⟩⟩
    · exact ⟨hr, .inl hlt'⟩

theorem grown_here (hR : R ≤ d) : grown B d n (R + 1) R (n / B ^ R) ↔ n / B ^ R * B ^ R ≠ n := by
  have hle := Nat.div_mul_le_self n (B ^ R)
  constructor
  · rintro ⟨-, hlt | ⟨-, hlt⟩⟩ <;> omega
  · exact fun hne => ⟨hR, .inl (lt_of_le_of_ne hle hne)⟩

theorem grown_above (hR : R + 1 ≤ d) : grown B d n (R + 1) (R + 1) (n / B ^ (R + 1)) := by
  refine ⟨hR, ?_⟩
  rcases (Nat.div_mul_le_self n (B ^ (R + 1))).eq_or_lt with heq | hlt
  · exact .inr ⟨heq, le_rfl⟩
  · exact .inl hlt

theorem grown_of_ne (hne : n / B ^ R * B ^ R ≠ n) : grown B d n R r j ↔ grown B d n (R + 1) r j := by
  refine and_congr_right fun _ => or_congr_right ⟨fun ⟨heq, hR⟩ => ⟨heq, ?_⟩, fun ⟨heq, hR⟩ =>
    ⟨heq, by omega⟩⟩
  rcases hR.eq_or_lt with rfl | hlt
  · refine absurd ?_ hne
    rw [← heq, Nat.mul_div_assoc _ (dvd_refl _)]
    rcases Nat.eq_zero_or_pos (B ^ R) with h0 | hpos
    · simp [h0]
    · rw [Nat.div_self hpos, Nat.mul_one]
  · exact hlt

theorem grown_of_eq (hB : 0 < B) (hR : R ≤ d) (heq : n / B ^ R * B ^ R = n) :
    grown B d n R r j ↔ insertLive (grown B d n (R + 1)) R (n / B ^ R) r j := by
  have hpos : 0 < B ^ R := Nat.pow_pos hB
  constructor
  · rintro ⟨hr, hlt | ⟨hj, hRr⟩⟩
    · exact .inl ⟨hr, .inl hlt⟩
    · rcases hRr.eq_or_lt with rfl | hlt
      · right
        refine ⟨rfl, ?_⟩
        rw [← hj, Nat.mul_div_cancel _ hpos]
      · exact .inl ⟨hr, .inr ⟨hj, hlt⟩⟩
  · rintro (⟨hr, hlt | ⟨hj, hRr⟩⟩ | ⟨rfl, rfl⟩)
    · exact ⟨hr, .inl hlt⟩
    · exact ⟨hr, .inr ⟨hj, by omega⟩⟩
    · exact ⟨hR, .inr ⟨heq, le_rfl⟩⟩

end Grown

/-- The tree of `inode'` has all nodes of the one of `inode`; the others were free. -/
structure Extends (inode : Inode) (live₀ : ℕ → ℕ → Prop) (node₀ : ℕ → ℕ → ℕ) (inode' : Inode)
    (live : ℕ → ℕ → Prop) (node : ℕ → ℕ → ℕ) : Prop where
  tree : IsTree inode'.fs.ptrs topBlockdirSize inode'.depth inode'.blockdir inode'.fs.page live node
  ok : inode'.fs.Ok
  layout : SameLayout inode.fs inode'.fs
  ino : inode'.ino = inode.ino
  keep : ∀ r j, live₀ r j → live r j ∧ node r j = node₀ r j
  free : ∀ r j, live r j → ¬ live₀ r j → inode.fs.Free (node r j)
  used : ∀ x, inode'.fs.used x = true ↔
    inode.fs.used x = true ∨ ∃ r j, live r j ∧ ¬ live₀ r j ∧ node r j = x
  distinct : ∀ r j r' j', live r j → live r' j' → node r j = node r' j' → r = r' ∧ j = j'

/-- The block after a block that is free or in the file is in a group, if there is one. Only in
front of a last group that was left out when the file system was created this fails. -/
def Inode.Safe (inode : Inode) (live : ℕ → ℕ → Prop) (node : ℕ → ℕ → ℕ) : Prop :=
  ∀ x, (inode.fs.Free x ∨ ∃ r j, live r j ∧ node r j = x) → x + 1 < inode.fs.blockCount →
    (x + 1) / inode.fs.blocksPerGroup < inode.fs.groupCount

/-- The nodes are blocks of groups and marked as used. -/
def Inode.InUse (inode : Inode) (live : ℕ → ℕ → Prop) (node : ℕ → ℕ → ℕ) : Prop :=
  ∀ r j, live r j → inode.fs.InGroup (node r j) ∧ inode.fs.used (node r j) = true

variable {inode cur next : Inode} {live₀ live : ℕ → ℕ → Prop} {node₀ node : ℕ → ℕ → ℕ}
  {fs' : Filsys} {r c b n : ℕ}

theorem Filsys.Ok.withPage {fs : Filsys} (h : fs.Ok) (page : ℕ → ℕ → ℕ) :
    Ok { fs with page := page } :=
  ⟨h.log, h.size, h.small, h.count, h.tail, h.reserved⟩

namespace Extends

theorem in_use (h : Extends inode live₀ node₀ cur live node)
    (hbase : inode.InUse live₀ node₀) (hl : live r c) : cur.fs.InGroup (node r c) ∧ cur.fs.used (node r c) = true := by
  by_cases h₀ : live₀ r c
  · obtain ⟨-, hnode⟩ := h.keep r c h₀
    obtain ⟨hin, huse⟩ := hbase r c h₀
    rw [hnode]
    exact ⟨h.layout.inGroup.mpr hin, (h.used _).mpr (.inl huse)⟩
  · obtain ⟨hin, -⟩ := h.free r c hl h₀
    exact ⟨h.layout.inGroup.mpr hin, (h.used _).mpr (.inr ⟨r, c, hl, h₀, rfl⟩)⟩

theorem insert (h : Extends inode live₀ node₀ cur live node)
    (hbase : inode.InUse live₀ node₀) (ht : Takes cur.fs fs' b) (hdead : ¬ live r c) {page : ℕ → ℕ → ℕ}
    (hfs : next.fs = { fs' with page := page }) (hino : next.ino = cur.ino)
    (htree : IsTree next.fs.ptrs topBlockdirSize next.depth next.blockdir next.fs.page
      (insertLive live r c) (assign node r c b)) :
    Extends inode live₀ node₀ next (insertLive live r c) (assign node r c b) := by
  have hold {r' j : ℕ} (hl : live r' j) : assign node r c b r' j = node r' j := by
    apply assign_of_ne
    rintro ⟨rfl, rfl⟩
    exact hdead hl
  have hused (x : ℕ) : next.fs.used x = if x = b then true else cur.fs.used x := by
    rw [hfs]
    exact ht.used x
  have hfree : inode.fs.Free b := by
    obtain ⟨hin, hclear⟩ := ht.free
    refine ⟨h.layout.inGroup.mp hin, ?_⟩
    rw [Bool.eq_false_iff]
    intro huse
    rw [(h.used b).mpr (.inl huse)] at hclear
    simp at hclear
  have hnew {r' j : ℕ} (hl : live r' j) : node r' j ≠ b := by
    intro heq
    have huse := (h.in_use hbase hl).2
    rw [heq, ht.free.2] at huse
    simp at huse
  have hdead₀ : ¬ live₀ r c := fun h₀ => hdead (h.keep r c h₀).1
  refine ⟨htree, ?_, ?_, hino.trans h.ino, fun r' j h₀ => ?_, ?_, fun x => ?_, ?_⟩
  · rw [hfs]
    exact ht.ok.withPage page
  · have hlayout : SameLayout fs' next.fs := by
      rw [hfs]
      exact ⟨rfl, rfl, rfl, rfl, rfl, fun _ => rfl⟩
    exact (h.layout.trans ht.layout).trans hlayout
  · obtain ⟨hl, hnode⟩ := h.keep r' j h₀
    exact ⟨.inl hl, (hold hl).trans hnode⟩
  · rintro r' j (hl | ⟨rfl, rfl⟩) hnot
    · rw [hold hl]
      exact h.free r' j hl hnot
    · rw [assign_self]
      exact hfree
  · rw [hused]
    constructor
    · intro hx
      split at hx
      · next hxb => exact .inr ⟨r, c, .inr ⟨rfl, rfl⟩, hdead₀, by rw [assign_self, hxb]⟩
      · rcases (h.used x).mp hx with huse | ⟨r', j, hl, hnot, heq⟩
        · exact .inl huse
        · exact .inr ⟨r', j, .inl hl, hnot, (hold hl).trans heq⟩
    · rintro (huse | ⟨r', j, hl | ⟨rfl, rfl⟩, hnot, heq⟩)
      · rw [(h.used x).mpr (.inl huse)]
        simp
      · rw [hold hl] at heq
        rw [(h.used x).mpr (.inr ⟨r', j, hl, hnot, heq⟩)]
        simp
      · rw [assign_self] at heq
        rw [if_pos heq.symm]
  · rintro r' j r'' j' (hl | ⟨rfl, rfl⟩) (hl' | ⟨rfl, rfl⟩) heq
    · rw [hold hl, hold hl'] at heq
      exact h.distinct _ _ _ _ hl hl' heq
    · rw [hold hl, assign_self] at heq
      exact absurd heq (hnew hl)
    · rw [hold hl', assign_self] at heq
      exact absurd heq.symm (hnew hl')
    · exact ⟨rfl, rfl⟩

theorem congr {live' : ℕ → ℕ → Prop} (h : Extends inode live₀ node₀ cur live node)
    (hl : ∀ r j, live' r j ↔ live r j) : Extends inode live₀ node₀ cur live' node := by
  have heq : live' = live := funext fun r => funext fun j => propext (hl r j)
  rw [heq]
  exact h

theorem ptrs (h : Extends inode live₀ node₀ cur live node) : cur.fs.ptrs = inode.fs.ptrs := by
  rw [Filsys.ptrs, Filsys.ptrs, h.layout.log]

theorem goal_defined (h : Extends inode live₀ node₀ cur live node)
    (hbase : inode.InUse live₀ node₀) (hsafe : inode.Safe live₀ node₀) (hl : live r c) :
    cur.fs.newBlock (word (node r c + 1)) ≠ none := by
  have hlt := (h.in_use hbase hl).1.lt h.ok
  have hsmall := h.ok.small
  rw [word_of_lt (by omega), newBlock_defined, h.layout.blockCount, h.layout.blocksPerGroup,
    h.layout.groupCount]
  apply hsafe
  by_cases h₀ : live₀ r c
  · exact .inr ⟨r, c, h₀, (h.keep r c h₀).2.symm⟩
  · exact .inl (h.free r c hl h₀)

theorem fresh (h : Extends inode live₀ node₀ cur live node)
    (hbase : inode.InUse live₀ node₀) (ht : Takes cur.fs fs' b) (hl : live r c) : node r c ≠ b := by
  intro heq
  have huse := (h.in_use hbase hl).2
  rw [heq, ht.free.2] at huse
  simp at huse

end Extends

theorem withNewBlock_spec {P : Inode → ℕ → Prop} {goal : ℕ} {k : Inode → ℕ → Option (Inode × ℕ)}
    (hok : cur.fs.Ok) (hdef : cur.fs.newBlock goal ≠ none)
    (hk : ∀ fs' b, Takes cur.fs fs' b → ∃ next b', k { cur with fs := fs' } b = some (next, b') ∧
      (b' ≠ noBlock → P next b')) :
    ∃ next b', cur.withNewBlock goal k = some (next, b') ∧ (b' ≠ noBlock → P next b') := by
  obtain ⟨⟨fs', b⟩, hfs⟩ := Option.ne_none_iff_exists'.mp hdef
  rw [Inode.withNewBlock, hfs]
  dsimp only
  split
  · exact ⟨_, _, rfl, fun hne => absurd rfl hne⟩
  · next hb => exact hk fs' b (newBlock_takes hok hfs hb)

theorem pred_div_mod {B : ℕ} (hB : 0 < B) (ho : n % B ≠ 0) :
    (n - 1) / B = n / B ∧ (n - 1) % B = n % B - 1 := by
  have hn := Nat.div_add_mod n B
  have hlt := Nat.mod_lt n hB
  have heq : n - 1 = (n % B - 1) + B * (n / B) := by omega
  rw [heq, Nat.add_mul_div_left _ _ hB, Nat.add_mul_mod_self_left,
    Nat.div_eq_of_lt (by omega), Nat.mod_eq_of_lt (by omega), Nat.zero_add]
  exact ⟨rfl, rfl⟩

theorem putSlot_putPage {page : ℕ → ℕ → ℕ} (p o b : ℕ) :
    PutSlot page (update page p (update (page p) o b)) p o b := by
  refine ⟨?_, fun o' ho => ?_, fun q hq _ => ?_⟩
  · rw [update_self, update_self]
  · rw [update_self, update_of_ne ho]
  · rw [update_of_ne hq]

theorem putSlot_clearPage {page : ℕ → ℕ → ℕ} {p b : ℕ} (o : ℕ) (hpb : p ≠ b) :
    PutSlot page (update (update page p (update (page p) o b)) b
      fun _ => 0) p o b := by
  refine ⟨?_, fun o' ho => ?_, fun q hq hb => ?_⟩
  · rw [update_of_ne hpb, update_self, update_self]
  · rw [update_of_ne hpb, update_self, update_of_ne ho]
  · rw [update_of_ne hb, update_of_ne hq]

theorem setLeaf_grows
    (hbase : inode.InUse live₀ node₀) (hsafe : inode.Safe live₀ node₀) (hd : 0 < cur.depth)
    (h : Extends inode live₀ node₀ cur (grown inode.fs.ptrs cur.depth n 1) node) :
    ∃ next b, cur.setLeaf (node 1 (n / inode.fs.ptrs)) (n % inode.fs.ptrs) noBlock =
        some (next, b) ∧
      (b ≠ noBlock → ∃ node',
        Extends inode live₀ node₀ next (grown inode.fs.ptrs cur.depth n 0) node' ∧ node' 0 n = b ∧
        next.depth = cur.depth ∧ next.blocks = word (cur.blocks + 1)) := by
  have hB := inode.fs.ptrs_pos
  have habove : grown inode.fs.ptrs cur.depth n 1 1 (n / inode.fs.ptrs) := by
    have := grown_above (B := inode.fs.ptrs) (n := n) hd
    simpa using this
  have hdead : ¬ grown inode.fs.ptrs cur.depth n 1 0 n := by
    rintro ⟨-, hlt | ⟨-, hlt⟩⟩
    · simp at hlt
    · omega
  rw [Inode.setLeaf, if_pos rfl]
  refine withNewBlock_spec h.ok ?_ fun fs' b ht => ⟨_, b, rfl, fun _ => ?_⟩
  · split_ifs with ho
    · exact h.goal_defined hbase hsafe habove
    · -- the block before the next one is in the same leaf
      obtain ⟨hdiv, hmod⟩ := pred_div_mod hB ho
      have hn : n ≠ 0 := by
        rintro rfl
        simp at ho
      have hprev : grown inode.fs.ptrs cur.depth n 1 0 (n - 1) := by
        refine ⟨Nat.zero_le _, .inl ?_⟩
        rw [Nat.pow_zero]
        omega
      have hpage := h.tree.page_live 0 (n - 1) hprev hd
      rw [h.ptrs, hdiv, hmod] at hpage
      rw [hpage]
      exact h.goal_defined hbase hsafe hprev
  · refine ⟨assign node 0 n b, ?_, assign_self, rfl, rfl⟩
    have hn : n / inode.fs.ptrs ^ 0 * inode.fs.ptrs ^ 0 = n := by simp
    refine Extends.congr ?_ fun r j => grown_of_eq hB (Nat.zero_le _) hn
    simp only [Nat.pow_zero, Nat.div_one]
    refine h.insert hbase ht hdead rfl rfl ?_
    have hslot : cur.fs.ptrs = inode.fs.ptrs := h.ptrs
    have hlog : fs'.ptrs = cur.fs.ptrs := by rw [Filsys.ptrs, Filsys.ptrs, ht.layout.log]
    have hpage : fs'.page = cur.fs.page := ht.page
    show IsTree fs'.ptrs topBlockdirSize cur.depth cur.blockdir (update fs'.page _
      (update (fs'.page _) _ b)) _ _
    rw [hlog, hpage]
    refine h.tree.insert hd ?_ hdead (ht.ne_zero h.ok) (fun r' j hl => h.fresh hbase ht hl) ?_
      fun h0 => absurd rfl h0
    · rw [hslot]
      exact habove
    · rw [hslot]
      exact putSlot_putPage _ _ _

theorem addPage_grows {R : ℕ}
    (hbase : inode.InUse live₀ node₀) (hR : R + 1 < cur.depth)
    (h : Extends inode live₀ node₀ cur (grown inode.fs.ptrs cur.depth n (R + 2)) node)
    (heq : n / inode.fs.ptrs ^ (R + 1) * inode.fs.ptrs ^ (R + 1) = n)
    (ht : Takes cur.fs fs' b)
    (hnext : next = (Inode.putPage { cur with fs := fs' } (node (R + 2) (n / inode.fs.ptrs ^ (R + 2)))
      (n / inode.fs.ptrs ^ (R + 1) % inode.fs.ptrs) b).clearPage b) :
    Extends inode live₀ node₀ next (grown inode.fs.ptrs cur.depth n (R + 1))
      (assign node (R + 1) (n / inode.fs.ptrs ^ (R + 1)) b) := by
  have habove : grown inode.fs.ptrs cur.depth n (R + 2) (R + 2) (n / inode.fs.ptrs ^ (R + 2)) :=
    grown_above hR
  have hdead : ¬ grown inode.fs.ptrs cur.depth n (R + 2) (R + 1) (n / inode.fs.ptrs ^ (R + 1)) :=
    fun hl => (grown_here hR.le).mp hl heq
  have hlog : fs'.ptrs = cur.fs.ptrs := by rw [Filsys.ptrs, Filsys.ptrs, ht.layout.log]
  have hne := h.fresh hbase ht habove
  subst hnext
  refine Extends.congr ?_ fun r j => grown_of_eq inode.fs.ptrs_pos hR.le heq
  refine h.insert hbase ht hdead rfl rfl ?_
  show IsTree fs'.ptrs topBlockdirSize cur.depth cur.blockdir (update (update
    fs'.page _ (update (fs'.page _) _ b)) b fun _ => 0) _ _
  rw [hlog, ht.page]
  refine h.tree.insert hR ?_ hdead (ht.ne_zero h.ok) (fun r' j hl => h.fresh hbase ht hl) ?_
    fun _ o _ => by rw [update_self]
  · rw [h.ptrs, ← div_pow_succ]
    exact habove
  · rw [h.ptrs, ← div_pow_succ]
    exact putSlot_clearPage _ hne

theorem setBelow_grows {R : ℕ}
    (hbase : inode.InUse live₀ node₀) (hsafe : inode.Safe live₀ node₀) (hR : R < cur.depth)
    (h : Extends inode live₀ node₀ cur (grown inode.fs.ptrs cur.depth n (R + 1)) node) :
    ∃ next b, cur.setBelow (node (R + 1) (n / inode.fs.ptrs ^ (R + 1))) noBlock
        (path inode.fs.ptrs (R + 1) n) = some (next, b) ∧
      (b ≠ noBlock → ∃ node',
        Extends inode live₀ node₀ next (grown inode.fs.ptrs cur.depth n 0) node' ∧ node' 0 n = b ∧
        next.depth = cur.depth ∧ next.blocks = word (cur.blocks + 1)) := by
  induction R generalizing cur node with
  | zero =>
    have hleaf := setLeaf_grows hbase hsafe hR h
    simp only [path, Nat.zero_add, Nat.pow_one, Nat.pow_zero, Nat.div_one]
    exact hleaf
  | succ R ih =>
    have habove : grown inode.fs.ptrs cur.depth n (R + 2) (R + 2) (n / inode.fs.ptrs ^ (R + 2)) :=
      grown_above hR
    have hcut : n / inode.fs.ptrs ^ (R + 2) * inode.fs.ptrs +
        n / inode.fs.ptrs ^ (R + 1) % inode.fs.ptrs = n / inode.fs.ptrs ^ (R + 1) := by
      rw [div_pow_succ _ _ (R + 1), Nat.div_add_mod']
    rw [path, path, Inode.setBelow]
    by_cases heq : n / inode.fs.ptrs ^ (R + 1) * inode.fs.ptrs ^ (R + 1) = n
    · -- the page is missing
      have hdead : ¬ grown inode.fs.ptrs cur.depth n (R + 2) (R + 1) (n / inode.fs.ptrs ^ (R + 1)) :=
        fun hl => (grown_here hR.le).mp hl heq
      have hzero := h.tree.page_dead (R + 1) _ (n / inode.fs.ptrs ^ (R + 1) % inode.fs.ptrs) habove
        (by rw [h.ptrs]; exact Nat.mod_lt _ inode.fs.ptrs_pos) (by rw [h.ptrs, hcut]; exact hdead)
      rw [if_pos hzero]
      refine withNewBlock_spec h.ok (h.goal_defined hbase hsafe habove) fun fs' b ht => ?_
      have hadd := addPage_grows hbase hR h heq ht rfl
      obtain ⟨next, b', hset, hnext⟩ := ih (by exact (by omega : R < cur.depth)) hadd
      rw [assign_self] at hset
      exact ⟨next, b', hset, hnext⟩
    · -- the page is there
      have hlive := (grown_here hR.le).mpr heq
      have hpage := h.tree.page_live (R + 1) _ hlive hR
      rw [h.ptrs, ← div_pow_succ] at hpage
      rw [hpage, if_neg (h.tree.ne_zero _ _ hlive)]
      exact ih (by omega) (h.congr fun r j => grown_of_ne heq)

theorem setBelow_grows_top {d : ℕ}
    (hbase : inode.InUse live₀ node₀) (hsafe : inode.Safe live₀ node₀)
    (h : Extends inode live₀ node₀ cur (grown inode.fs.ptrs d n d) node) (hd : cur.depth = d)
    (h0 : d ≠ 0) :
    ∃ next b, cur.setBelow (node d (n / inode.fs.ptrs ^ d)) noBlock (path inode.fs.ptrs d n) =
        some (next, b) ∧
      (b ≠ noBlock → ∃ node', Extends inode live₀ node₀ next (upTo inode.fs.ptrs d (n + 1)) node' ∧
        node' 0 n = b ∧ next.depth = d ∧ next.blocks = word (cur.blocks + 1)) := by
  obtain ⟨R, rfl⟩ := Nat.exists_eq_succ_of_ne_zero h0
  have hlast : R < cur.depth := by omega
  rw [← hd] at h ⊢
  have h' : Extends inode live₀ node₀ cur (grown inode.fs.ptrs cur.depth n (R + 1)) node :=
    h.congr fun r j => by rw [hd]
  obtain ⟨next, b, hset, hnext⟩ := setBelow_grows hbase hsafe hlast h'
  rw [← Nat.succ_eq_add_one, ← hd] at hset
  refine ⟨next, b, hset, fun hb => ?_⟩
  obtain ⟨node', hext, hrest⟩ := hnext hb
  exact ⟨node', hext.congr fun r j => grown_zero.symm, hrest⟩

theorem insertTop_grows {d : ℕ} (next : Inode)
    (hbase : inode.InUse live₀ node₀)
    (h : Extends inode live₀ node₀ cur (grown inode.fs.ptrs cur.depth n (cur.depth + 1)) node)
    (hd : cur.depth = d) (hroom : n / inode.fs.ptrs ^ d < topBlockdirSize)
    (heq : n / inode.fs.ptrs ^ d * inode.fs.ptrs ^ d = n) (ht : Takes cur.fs fs' b)
    {page : ℕ → ℕ → ℕ} (hfs : next.fs = { fs' with page := page })
    (hother : ∀ q, q ≠ b → page q = fs'.page q) (hclear : d ≠ 0 → ∀ o, page b o = 0)
    (hdepth : next.depth = d) (hino : next.ino = cur.ino)
    (htop : next.blockdir = update cur.blockdir (n / inode.fs.ptrs ^ d) b) :
    Extends inode live₀ node₀ next (grown inode.fs.ptrs d n d)
      (assign node d (n / inode.fs.ptrs ^ d) b) := by
  subst hd
  have hdead : ¬ grown inode.fs.ptrs cur.depth n (cur.depth + 1) cur.depth
      (n / inode.fs.ptrs ^ cur.depth) := fun hl => (grown_here le_rfl).mp hl heq
  have hlog : next.fs.ptrs = cur.fs.ptrs := by
    rw [hfs]
    exact congrArg (2 ^ ·) ht.layout.log
  refine Extends.congr ?_ fun r j => grown_of_eq inode.fs.ptrs_pos le_rfl heq
  refine h.insert hbase ht hdead hfs hino ?_
  rw [hlog, hdepth]
  refine h.tree.insertTop hroom hdead (ht.ne_zero h.ok) (fun r' j hl => h.fresh hbase ht hl) htop
    (fun q hq => ?_) fun h0 o _ => ?_
  · rw [hfs]
    dsimp only
    rw [hother q hq, ht.page]
  · rw [hfs]
    exact hclear h0 o

theorem setInodeBlock_grows
    (hbase : inode.InUse live₀ node₀) (hsafe : inode.Safe live₀ node₀)
    (hgroup : inode.ino / inode.fs.inodesPerGroup < inode.fs.groupCount)
    (h : Extends inode live₀ node₀ cur (upTo inode.fs.ptrs cur.depth n) node)
    (hroom : n < topBlockdirSize * inode.fs.ptrs ^ cur.depth)
    (hfit : cur.depth * cur.fs.logBlkptrsPerBlock < 32) :
    ∃ next b, cur.setInodeBlock n noBlock = some (next, b) ∧ (b ≠ noBlock → ∃ node',
      Extends inode live₀ node₀ next (upTo inode.fs.ptrs cur.depth (n + 1)) node' ∧ node' 0 n = b ∧
      next.depth = cur.depth ∧ next.blocks = word (cur.blocks + 1)) := by
  have hgoal : cur.fs.newBlock (cur.ino / cur.fs.inodesPerGroup * cur.fs.blocksPerGroup) ≠ none := by
    rw [newBlock_defined, h.ino, h.layout.inodesPerGroup, h.layout.groupCount,
      Nat.mul_div_cancel _ h.ok.size]
    exact fun _ => hgroup
  have hslot : n / inode.fs.ptrs ^ cur.depth < topBlockdirSize :=
    Nat.div_lt_of_lt_mul (by rwa [Nat.mul_comm])
  have h₁ : Extends inode live₀ node₀ cur (grown inode.fs.ptrs cur.depth n (cur.depth + 1)) node :=
    h.congr fun r j => grown_top
  rw [Inode.setInodeBlock]
  by_cases hd : cur.depth = 0
  · have hn : n < topBlockdirSize := by simpa [hd] using hroom
    rw [if_pos hd, if_neg (not_le.mpr hn), if_pos rfl]
    refine withNewBlock_spec h.ok hgoal fun fs' b ht => ⟨_, b, rfl, fun _ => ?_⟩
    have hins := insertTop_grows ((Inode.countBlock { cur with fs := fs' }).putTop n b)
      hbase h₁ hd (by simpa using hn) (by simp) ht rfl (fun _ _ => rfl) (fun h0 => absurd rfl h0)
      hd rfl (by simp [Inode.putTop, Inode.countBlock])
    simp only [Nat.pow_zero, Nat.div_one] at hins
    refine ⟨_, hins.congr fun r j => ?_, assign_self, rfl, rfl⟩
    rw [hd, grown_zero]
  · rw [if_neg hd, splitLevels_eq hfit, h.ptrs]
    dsimp only
    rw [if_neg (not_le.mpr hslot)]
    by_cases heq : n / inode.fs.ptrs ^ cur.depth * inode.fs.ptrs ^ cur.depth = n
    · -- the first page of the way is missing
      have hdead : ¬ upTo inode.fs.ptrs cur.depth n cur.depth (n / inode.fs.ptrs ^ cur.depth) :=
        fun hl => absurd hl.2 (by omega)
      rw [if_pos (h.tree.top_dead _ hslot hdead)]
      refine withNewBlock_spec h.ok hgoal fun fs' b ht => ?_
      have hins := insertTop_grows ((Inode.putTop { cur with fs := fs' }
        (n / inode.fs.ptrs ^ cur.depth) b).clearPage b) hbase h₁ rfl hslot heq ht rfl
        (fun q hq => update_of_ne hq _ _)
        (fun _ o => by rw [update_self]) rfl rfl rfl
      have hbelow := setBelow_grows_top hbase hsafe hins rfl hd
      rw [assign_self] at hbelow
      exact hbelow
    · have hlive := (grown_here (le_refl cur.depth)).mpr heq
      obtain ⟨-, htop⟩ := h₁.tree.top_live _ hlive
      rw [htop, if_neg (h₁.tree.ne_zero _ _ hlive)]
      exact setBelow_grows_top hbase hsafe (h₁.congr fun r j => grown_of_ne heq) rfl hd

/-! `expand_inode`. -/

/-- The depth that `expand_inode` gives the tree. -/
def Inode.nextDepth (inode : Inode) : ℕ :=
  if inode.blocks = inode.maxBlocks then inode.depth + 1 else inode.depth

/-- The block numbers can be split into the levels of that tree. -/
def Inode.Fits (inode : Inode) : Prop := inode.nextDepth * inode.fs.logBlkptrsPerBlock < 32

variable {node' : ℕ → ℕ → ℕ} {inode' : Inode}

namespace Inode.WellFormed

theorem top_pos (h : inode.WellFormed n node) : n ≤ topBlockdirSize * inode.fs.ptrs ^ inode.depth := by
  by_contra hlt
  have hlive : upTo inode.fs.ptrs inode.depth n inode.depth topBlockdirSize :=
    ⟨le_rfl, not_le.mp hlt⟩
  exact absurd (h.tree.top_live _ hlive).1 (lt_irrefl _)

theorem succ_lt (h : inode.WellFormed n node) : n + 1 < 2 ^ 32 := by
  have hlive {i : ℕ} (hi : i < n) : upTo inode.fs.ptrs inode.depth n 0 i :=
    ⟨Nat.zero_le _, by simpa using hi⟩
  have hmaps : ∀ i ∈ Finset.range n, node 0 i ∈ Finset.Ico 1 inode.fs.blockCount := by
    intro i hi
    have hl := hlive (Finset.mem_range.mp hi)
    rw [Finset.mem_Ico]
    exact ⟨Nat.one_le_iff_ne_zero.mpr (h.tree.ne_zero 0 i hl), (h.in_use 0 i hl).1.lt h.ok⟩
  have hinj : Set.InjOn (node 0) (Finset.range n : Set ℕ) := by
    intro i hi i' hi' heq
    have hi : i < n := by simpa using hi
    have hi' : i' < n := by simpa using hi'
    exact (h.distinct 0 i 0 i' (hlive hi) (hlive hi') heq).2
  have hcard := Finset.card_le_card_of_injOn (node 0) hmaps hinj
  rw [Finset.card_range, Nat.card_Ico] at hcard
  have hsmall := h.ok.small
  omega

theorem extends_self (h : inode.WellFormed n node) :
    Extends inode (upTo inode.fs.ptrs inode.depth n) node inode
      (upTo inode.fs.ptrs inode.depth n) node :=
  ⟨h.tree, h.ok, SameLayout.refl _, rfl, fun _ _ hl => ⟨hl, rfl⟩, fun _ _ hl hn => absurd hl hn,
    fun _ => ⟨.inl, fun hx => hx.elim id fun ⟨_, _, hl, hn, _⟩ => absurd hl hn⟩, h.distinct⟩

theorem maxBlocks_eq (hlt : topBlockdirSize * inode.fs.ptrs ^ inode.depth < 2 ^ 32) :
    inode.maxBlocks = topBlockdirSize * inode.fs.ptrs ^ inode.depth := by
  rw [Inode.maxBlocks, Nat.mul_comm inode.depth, Nat.pow_mul]
  exact word_of_lt hlt

theorem pushDown (h : inode.WellFormed n node)
    (hfull : n = topBlockdirSize * inode.fs.ptrs ^ inode.depth) (ht : Takes inode.fs fs' b) :
    Extends inode (upTo inode.fs.ptrs inode.depth n) node
      (Inode.pushDown { inode with fs := fs' } b)
      (upTo inode.fs.ptrs (inode.depth + 1) n) (assign node (inode.depth + 1) 0 b) := by
  have hpos : 0 < inode.fs.ptrs ^ inode.depth := Nat.pow_pos inode.fs.ptrs_pos
  have hdead : ¬ upTo inode.fs.ptrs inode.depth n (inode.depth + 1) 0 :=
    fun hl => absurd hl.1 (Nat.not_succ_le_self _)
  have hlog : fs'.ptrs = inode.fs.ptrs := congrArg (2 ^ ·) ht.layout.log
  have hlive (r j : ℕ) : upTo inode.fs.ptrs (inode.depth + 1) n r j ↔
      insertLive (upTo inode.fs.ptrs inode.depth n) (inode.depth + 1) 0 r j := by
    constructor
    · rintro ⟨hr, hlt⟩
      rcases Nat.lt_succ_iff_lt_or_eq.mp (Nat.lt_succ_of_le hr) with hr' | rfl
      · exact .inl ⟨Nat.lt_succ_iff.mp hr', hlt⟩
      · right
        refine ⟨rfl, ?_⟩
        have hle := Nat.mul_le_mul_right (inode.fs.ptrs ^ inode.depth) h.ok.top_le_ptrs
        rw [Nat.pow_succ, Nat.mul_comm (inode.fs.ptrs ^ _)] at hlt
        by_contra hj
        have := Nat.mul_le_mul_right (inode.fs.ptrs * inode.fs.ptrs ^ inode.depth)
          (Nat.one_le_iff_ne_zero.mpr hj)
        omega
    · rintro (⟨hr, hlt⟩ | ⟨rfl, rfl⟩)
      · exact ⟨hr.trans (Nat.le_succ _), hlt⟩
      · refine ⟨le_rfl, ?_⟩
        rw [Nat.zero_mul, hfull]
        exact Nat.mul_pos (by decide) hpos
  refine Extends.congr ?_ hlive
  refine h.extends_self.insert h.in_use ht hdead rfl rfl ?_
  show IsTree fs'.ptrs topBlockdirSize (inode.depth + 1) (update (fun _ => 0) 0 b)
    (update fs'.page b fun i => if i < topBlockdirSize then inode.blockdir i else 0) _ _
  rw [hlog, ht.page]
  refine h.tree.grow h.ok.top_le_ptrs (by decide) (ht.ne_zero h.ok)
    (fun r' j hl => h.extends_self.fresh h.in_use ht hl) rfl
    (fun q hq => update_of_ne hq _ _) fun o _ => ?_
  rw [update_self]

theorem extend (h : inode.WellFormed n node)
    (hsafe : inode.Safe (upTo inode.fs.ptrs inode.depth n) node) (hfit : inode.Fits) :
    ∃ next b, inode.expandInode = some (next, b) ∧ (b ≠ noBlock → ∃ node',
      Extends inode (upTo inode.fs.ptrs inode.depth n) node next
        (upTo inode.fs.ptrs inode.nextDepth (n + 1)) node' ∧
      node' 0 n = b ∧ next.depth = inode.nextDepth ∧ next.blocks = word (n + 1)) := by
  have hlog := h.ok.log
  have hcap := h.top_pos
  have hsmall := h.succ_lt
  have hpow : inode.fs.ptrs ^ inode.depth = 2 ^ (inode.depth * inode.fs.logBlkptrsPerBlock) := by
    rw [Filsys.ptrs, ← Nat.pow_mul, Nat.mul_comm]
  rw [Inode.Fits, Inode.nextDepth] at hfit
  rw [Inode.expandInode, Inode.nextDepth]
  by_cases hmax : inode.blocks = inode.maxBlocks
  · rw [if_pos hmax, Nat.succ_mul] at hfit
    rw [if_neg (by omega), if_pos hmax, if_pos hmax]
    -- the product does not wrap, so the tree is full
    have hlt : topBlockdirSize * inode.fs.ptrs ^ inode.depth < 2 ^ 32 := by
      have hexp : inode.depth * inode.fs.logBlkptrsPerBlock + 4 < 32 := by omega
      have htop : topBlockdirSize = 2 ^ 4 := by decide
      rw [hpow, htop, Nat.mul_comm, ← Nat.pow_add]
      exact Nat.pow_lt_pow_right (by decide) hexp
    have hfull : n = topBlockdirSize * inode.fs.ptrs ^ inode.depth := by
      rw [← h.blocks, hmax, maxBlocks_eq hlt]
    have hpos : 0 < n := by
      rw [hfull]
      exact Nat.mul_pos (by decide) (Nat.pow_pos inode.fs.ptrs_pos)
    have hfirst : upTo inode.fs.ptrs inode.depth n inode.depth 0 := ⟨le_rfl, by simpa using hpos⟩
    obtain ⟨-, htop⟩ := h.tree.top_live 0 hfirst
    have hdef : inode.fs.newBlock (minus (inode.blockdir 0) 1) ≠ none := by
      have hne := h.tree.ne_zero _ _ hfirst
      rw [htop, minus_of_le (Nat.one_le_iff_ne_zero.mpr hne), newBlock_defined]
      exact fun _ => (Nat.div_le_div_right (Nat.sub_le _ _)).trans_lt (h.in_use _ _ hfirst).1.1
    refine withNewBlock_spec h.ok hdef fun fs' b ht => ?_
    have hpush := h.pushDown hfull ht
    have hroom : n < topBlockdirSize * inode.fs.ptrs ^ (inode.depth + 1) := by
      have hle := Nat.mul_le_mul_right (inode.fs.ptrs ^ inode.depth) h.ok.top_le_ptrs
      have htop2 : topBlockdirSize = 16 := rfl
      rw [Nat.pow_succ, Nat.mul_comm (inode.fs.ptrs ^ _), hfull]
      rw [htop2] at hle ⊢
      have := Nat.pow_pos (n := inode.depth) inode.fs.ptrs_pos
      omega
    have hset := setInodeBlock_grows h.in_use hsafe h.inode_group hpush hroom (by
      have hlog' : fs'.logBlkptrsPerBlock = inode.fs.logBlkptrsPerBlock := ht.layout.log
      show (inode.depth + 1) * fs'.logBlkptrsPerBlock < 32
      rw [hlog', Nat.succ_mul]
      exact hfit)
    have hblocks : (Inode.pushDown { inode with fs := fs' } b).blocks = n := h.blocks
    dsimp only
    rw [hblocks] at hset ⊢
    exact hset
  · rw [if_neg hmax] at hfit
    rw [if_neg (not_le.mpr hfit), if_neg hmax, if_neg hmax]
    have hroom : n < topBlockdirSize * inode.fs.ptrs ^ inode.depth := by
      refine lt_of_le_of_ne hcap fun hfull => hmax ?_
      rw [h.blocks, maxBlocks_eq (by omega), ← hfull]
    have hset := setInodeBlock_grows h.in_use hsafe h.inode_group h.extends_self hroom hfit
    rw [h.blocks] at hset ⊢
    exact hset

theorem not_extend (h : inode.WellFormed n node) (hfit : ¬ inode.Fits)
    (hcall : inode.expandInode = some (next, b)) : b = noBlock := by
  rw [Inode.Fits, Inode.nextDepth] at hfit
  rw [Inode.expandInode] at hcall
  split at hcall
  · simp at hcall
  next hdef =>
    split at hcall
    · next hmax =>
      rw [if_pos hmax] at hfit
      rw [Inode.withNewBlock] at hcall
      split at hcall
      · simp at hcall
      next fs' b' hnew =>
        split at hcall
        · exact (Prod.mk.inj (Option.some.inj hcall)).2.symm
        · next hb =>
          have hlog := (newBlock_takes h.ok hnew hb).layout.log
          have hsplit (i : ℕ) :
              (Inode.pushDown { inode with fs := fs' } b').splitLevels i = none := by
            rw [Inode.splitLevels, Inode.pushDown]
            rw [hlog, if_neg hfit]
          have hdepth : (Inode.pushDown { inode with fs := fs' } b').depth ≠ 0 :=
            Nat.succ_ne_zero _
          rw [Inode.setInodeBlock, if_neg hdepth, hsplit] at hcall
          simp at hcall
    · next hmax =>
      rw [if_neg hmax] at hfit
      omega

end Inode.WellFormed

end SimpleKernel.Dfs
