import SimpleKernel.Dfs.Allocation

/-! The hints where `new_block` and `new_inode` start to look. They are unknown after mount; a free
in such a group sets the hint to the freed item, whatever is free below it. -/
namespace SimpleKernel.Dfs
open Bitmaps Transition
open Function (update update_of_ne update_self)

variable {bit : ℕ → Bool} {len start hint i : ℕ}

/-- The hint is unknown, or nothing is free below it. -/
def HintOk (bit : ℕ → Bool) (len hint : ℕ) : Prop := hint = noBlock ∨ ∀ i < hint, i < len → bit i = true

theorem findFirstZeroBit_below (h : i < findFirstZeroBit bit len) : bit i = true := by
  rw [findFirstZeroBit] at h
  split at h
  · omega
  · exact (scanZero_spec bit _ 0).2.2.1 i (Nat.zero_le i) h

theorem findNextZeroBit_below (hi : start ≤ i) (h : i < findNextZeroBit bit len start) (hlen : i < len) :
    bit i = true := by
  -- the words from a boundary on
  have hwords (k : ℕ) (hk : k ≤ i)
      (hlt : i < k + findFirstZeroBit (fun j => bit (k + j)) (len - k)) : bit i = true := by
    have hbelow : i - k < findFirstZeroBit (fun j => bit (k + j)) (len - k) := by omega
    have := findFirstZeroBit_below hbelow
    rwa [Nat.add_sub_cancel' hk] at this
  rw [findNextZeroBit] at h
  split at h
  · omega
  · split at h
    · next hmod =>
      dsimp only at h
      obtain ⟨hge, -, hones, -⟩ := scanZero_spec bit (32 - start % 32) start
      split at h
      · rw [Nat.sub_add_cancel hge] at h
        exact hones i hi h
      · next hall =>
        by_cases hfirst : i < start + (32 - start % 32)
        · exact hones i hi (by omega)
        · exact hwords _ (by omega) h
    · exact hwords start hi h

namespace HintOk

theorem next (h : HintOk bit len hint) (hknown : hint ≠ noBlock) (hi : i < findNextZeroBit bit len hint)
    (hlen : i < len) : bit i = true := by
  by_cases hbelow : i < hint
  · exact h.resolve_left hknown i hbelow hlen
  · exact findNextZeroBit_below (not_lt.mp hbelow) hi hlen

theorem first : HintOk bit len (findFirstZeroBit bit len) := .inr fun _ hi _ => findFirstZeroBit_below hi

theorem set (h : HintOk bit len hint) (hi : i < len) (hlen : len < 2 ^ 32) :
    HintOk (update bit i true) len (if hint = i then word (i + 1) else hint) := by
  have hkeep (k : ℕ) (hk : bit k = true) : update bit i true k = true := by
    rcases eq_or_ne k i with rfl | hne
    · exact update_self _ _ _
    · rwa [update_of_ne hne]
  split_ifs with heq
  · subst heq
    rw [word_of_lt (by omega)]
    rcases h with hno | hset
    · rw [noBlock] at hno
      omega
    · right
      intro k hk hkl
      rcases (Nat.lt_succ_iff.mp hk).eq_or_lt with rfl | hlt
      · exact update_self _ _ _
      · exact hkeep k (hset k hlt hkl)
  · exact h.imp_right fun hset k hk hkl => hkeep k (hset k hk hkl)

end HintOk

theorem Counted_full {k g : ℕ} {bits : ℕ → ℕ → Bool} {lens count : ℕ → ℕ} {total : ℕ}
    (h : Counted k bits lens count total) (hg : g < k) (h0 : count g = 0) (hi : i < lens g) : bits g i = true := by
  by_contra hbit
  have hpos := (h.pos hg hi (by simpa using hbit)).1
  omega

namespace Filsys

variable {fs fs' : Filsys} {goal group block b n : ℕ}

def HintsOk (fs : Filsys) : Prop :=
  ∀ g < fs.groupCount, HintOk (fs.groups g).bitmap (fs.groups g).blockCount (fs.groups g).firstFreeBlock

/-- Nothing is free in group `g`. -/
def Full (fs : Filsys) (g : ℕ) : Prop := ∀ i < (fs.groups g).blockCount, (fs.groups g).bitmap i = true

theorem Full.not_free (h : ∀ g < fs.groupCount, fs.Full g) : ¬∃ x, fs.Free x := by
  rintro ⟨x, ⟨hg, hlt⟩, hbit⟩
  have hset := h _ hg _ hlt
  rw [used, hset] at hbit
  simp at hbit

theorem Grouped.blockCount_lt (h : fs.Grouped) (hg : group < fs.groupCount) :
    (fs.groups group).blockCount < 2 ^ 32 := by
  rw [h.count _ hg]
  have := h.small
  omega

theorem firstFree_hint {g : BlkGroup} (h : HintOk g.bitmap g.blockCount g.firstFreeBlock) :
    HintOk g.bitmap g.blockCount (firstFree g).1.firstFreeBlock ∧
      ∀ i < (firstFree g).2, i < g.blockCount → g.bitmap i = true := by
  rw [firstFree]
  split
  · next hknown => exact ⟨h, fun i hi hlen => h.next hknown hi hlen⟩
  · exact ⟨HintOk.first, fun i hi _ => findFirstZeroBit_below hi⟩

theorem blockFound_hints (h : fs.HintsOk) (hgr : fs.Grouped) (hg : group < fs.groupCount)
    (hb : block < (fs.groups group).blockCount) : (fs.blockFound group block).1.HintsOk := by
  intro g hg'
  rcases eq_or_ne g group with rfl | hne
  · simpa [blockFound] using (h g hg).set hb (hgr.blockCount_lt hg)
  · simpa [blockFound, update_of_ne hne] using h g hg'

theorem blockFound_ne (hgr : fs.Grouped) (hg : group < fs.groupCount)
    (hb : block < (fs.groups group).blockCount) (hbit : (fs.groups group).bitmap block = false) :
    (fs.blockFound group block).2 ≠ noBlock := by
  obtain ⟨-, hfree, -⟩ := blockFound_free hgr hg hb hbit
  have hlt := hfree.1.lt_of_grouped hgr
  have hsmall := hgr.small
  rw [noBlock]
  omega

theorem searchGroups_hints (n : ℕ) (h : fs.HintsOk) (hgr : fs.Grouped) (hc : fs.BlocksCounted)
    (hg : group < fs.groupCount) :
    (fs.searchGroups n group).1.HintsOk ∧
      ((fs.searchGroups n group).2 = noBlock → ∀ g < fs.groupCount,
        group ≤ g ∧ g < group + n ∨ g + fs.groupCount < group + n → fs.Full g) := by
  induction n generalizing fs group with
  | zero =>
    refine ⟨h, fun _ g hg' hreach => ?_⟩
    omega
  | succ n ih =>
    have hnext : (if fs.groupCount ≤ group + 1 then 0 else group + 1) < fs.groupCount := by
      split <;> omega
    -- the groups that are left are those from the next one on
    have hrest (g : ℕ) (hg' : g < fs.groupCount)
        (hreach : group ≤ g ∧ g < group + (n + 1) ∨ g + fs.groupCount < group + (n + 1)) (hne : g ≠ group) :
        (if fs.groupCount ≤ group + 1 then 0 else group + 1) ≤ g ∧
            g < (if fs.groupCount ≤ group + 1 then 0 else group + 1) + n ∨
          g + fs.groupCount < (if fs.groupCount ≤ group + 1 then 0 else group + 1) + n := by
      split <;> omega
    rw [searchGroups]
    dsimp only
    split
    · next hpos =>
      obtain ⟨hbits, hblocks, hfound⟩ := firstFree_spec (hgr.tail group hg)
      obtain ⟨hhint, hbelow⟩ := firstFree_hint (h group hg)
      set fs₁ : Filsys :=
        { fs with groups := update fs.groups group (firstFree (fs.groups group)).1 } with hfs₁
      have hinted : Hinted fs fs₁ := by
        refine ⟨rfl, fun g => ?_⟩
        rcases eq_or_ne g group with rfl | hne
        · simp only [hfs₁, update_self, firstFree]
          split <;> rfl
        · simp only [hfs₁, update_of_ne hne]
      have hok : fs₁.HintsOk := by
        intro g hg'
        rcases eq_or_ne g group with rfl | hne
        · simpa [hfs₁, hbits, hblocks] using hhint
        · simpa [hfs₁, update_of_ne hne] using h g hg'
      split
      · next hne =>
        obtain ⟨hlt, hclear⟩ := hfound.resolve_left hne
        have hlt₁ : (firstFree (fs.groups group)).2 < (fs₁.groups group).blockCount := by
          rwa [hinted.layout.counts]
        have hclear₁ : (fs₁.groups group).bitmap (firstFree (fs.groups group)).2 = false := by
          rwa [hinted.bitmap]
        have hgr₁ := hinted.grouped hgr
        have hne₁ := blockFound_ne hgr₁ hg hlt₁ hclear₁
        exact ⟨blockFound_hints hok hgr₁ hg hlt₁, fun hno => absurd hno hne₁⟩
      · next heq =>
        rw [not_not] at heq
        obtain ⟨hok', hfull⟩ := ih hok (hinted.grouped hgr) (hinted.counted hc) hnext
        refine ⟨hok', fun hno g hg' hreach => ?_⟩
        by_cases hgg : g = group
        · subst hgg
          intro i hi
          exact hbelow i (by rwa [heq]) hi
        · have hfull' := hfull hno g hg' (hrest g hg' hreach hgg)
          rwa [Full, hinted.layout.counts, hinted.bitmap] at hfull'
    · next hzero =>
      obtain ⟨hok', hfull⟩ := ih h hgr hc hnext
      refine ⟨hok', fun hno g hg' hreach => ?_⟩
      by_cases hgg : g = group
      · subst hgg
        exact fun i hi => Counted_full hc hg (by omega) hi
      · exact hfull hno g hg' (hrest g hg' hreach hgg)

theorem newBlock_hints {r : Filsys × ℕ} (h : fs.HintsOk) (hgr : fs.Grouped) (hc : fs.BlocksCounted)
    (hpos : 0 < fs.groupCount) (hr : fs.newBlock goal = some r) :
    r.1.HintsOk ∧ (r.2 = noBlock → ¬∃ x, fs.Free x) := by
  have hsearch (g : ℕ) (hg : g < fs.groupCount) : (fs.searchGroups fs.groupCount g).1.HintsOk ∧
      ((fs.searchGroups fs.groupCount g).2 = noBlock → ¬∃ x, fs.Free x) := by
    obtain ⟨hok, hfull⟩ := searchGroups_hints fs.groupCount h hgr hc hg
    refine ⟨hok, fun hno => Full.not_free fun k hk => hfull hno k hk ?_⟩
    omega
  have hfound (g i : ℕ) (hg : g < fs.groupCount) (hi : i < (fs.groups g).blockCount)
      (hbit : (fs.groups g).bitmap i = false) : (fs.blockFound g i).1.HintsOk ∧
      ((fs.blockFound g i).2 = noBlock → ¬∃ x, fs.Free x) :=
    ⟨blockFound_hints h hgr hg hi, fun hno => absurd hno (blockFound_ne hgr hg hi hbit)⟩
  rw [newBlock] at hr
  split at hr
  · next hgoal =>
    dsimp only at hr
    split at hr
    · simp at hr
    next hg =>
      have hg : goal / fs.blocksPerGroup < fs.groupCount := not_le.mp hg
      split at hr
      · next hclear =>
        have hin : goal % fs.blocksPerGroup < (fs.groups (goal / fs.blocksPerGroup)).blockCount := by
          rw [hgr.count _ hg]
          refine lt_min (Nat.mod_lt _ hgr.size) ?_
          have := Nat.div_add_mod' goal fs.blocksPerGroup
          omega
        obtain rfl := Option.some.inj hr
        exact hfound _ _ hg hin hclear
      · split at hr
        · next hne =>
          obtain ⟨hlt, hclear⟩ := (findNextZeroBit_spec (hgr.tail _ hg) _).resolve_left hne
          obtain rfl := Option.some.inj hr
          exact hfound _ _ hg hlt hclear
        · obtain rfl := Option.some.inj hr
          exact hsearch _ hg
  · obtain rfl := Option.some.inj hr
    exact hsearch 0 hpos

theorem freeBlock_hint (h : fs.freeBlock b = some fs') (g : ℕ) :
    fs'.blocksPerGroup = fs.blocksPerGroup ∧ (fs'.groups g).firstFreeBlock =
      if g = b / fs.blocksPerGroup ∧ b % fs.blocksPerGroup < (fs.groups g).firstFreeBlock then b % fs.blocksPerGroup
      else (fs.groups g).firstFreeBlock := by
  rw [freeBlock] at h
  split at h
  · simp at h
  · obtain rfl := Option.some.inj h
    rcases eq_or_ne g (b / fs.blocksPerGroup) with rfl | hne
    · simp
    · simp [hne]

theorem freeBlocks_hint (bs : List ℕ) (h : fs.freeBlocks bs = some fs') (g : ℕ) :
    (∀ b ∈ bs, b / fs.blocksPerGroup = g → (fs'.groups g).firstFreeBlock ≤ b % fs.blocksPerGroup) ∧
      ((fs'.groups g).firstFreeBlock = (fs.groups g).firstFreeBlock ∨
        (fs'.groups g).firstFreeBlock < (fs.groups g).firstFreeBlock ∧
          ∃ b ∈ bs, b / fs.blocksPerGroup = g ∧ (fs'.groups g).firstFreeBlock = b % fs.blocksPerGroup) := by
  induction bs generalizing fs with
  | nil =>
    obtain rfl : fs = fs' := Option.some.inj h
    exact ⟨by simp, .inl rfl⟩
  | cons b bs ih =>
    obtain ⟨fs₁, hfs₁, hrest⟩ := Option.bind_eq_some_iff.mp h
    obtain ⟨hsize, hfirst⟩ := freeBlock_hint hfs₁ g
    obtain ⟨hle, hcases⟩ := ih hrest
    rw [hsize] at hle hcases
    constructor
    · intro c hc hcg
      rcases List.mem_cons.mp hc with rfl | hc
      · rcases hcases with heq | ⟨hlt, -⟩
        · rw [heq, hfirst]
          split_ifs with hif
          · exact le_rfl
          · exact not_lt.mp fun hlt => hif ⟨hcg.symm, hlt⟩
        · rw [hfirst] at hlt
          split_ifs at hlt with hif
          · exact hlt.le
          · exact hlt.le.trans (not_lt.mp fun hlt => hif ⟨hcg.symm, hlt⟩)
      · exact hle c hc hcg
    · rcases hcases with heq | ⟨hlt, c, hc, hcg, hval⟩
      · rw [hfirst] at heq
        split_ifs at heq with hif
        · right
          exact ⟨by omega, b, List.mem_cons_self, hif.1.symm, heq⟩
        · exact .inl heq
      · right
        refine ⟨?_, c, List.mem_cons_of_mem _ hc, hcg, hval⟩
        rw [hfirst] at hlt
        split_ifs at hlt <;> omega

/-- No free block lies below all those that are freed in its group, when the hint is unknown. -/
def FreesLowest (fs : Filsys) (bs : List ℕ) : Prop :=
  ∀ b ∈ bs, (fs.groups (b / fs.blocksPerGroup)).firstFreeBlock = noBlock → ∀ x, fs.Free x →
    x / fs.blocksPerGroup = b / fs.blocksPerGroup →
    ∃ c ∈ bs, c / fs.blocksPerGroup = b / fs.blocksPerGroup ∧ c ≤ x

theorem freeBlocks_hints {bs : List ℕ} (h : fs.HintsOk) (hgr : fs.Grouped) (hlow : fs.FreesLowest bs)
    (hfs' : fs.freeBlocks bs = some fs') (hlayout : SameLayout fs fs')
    (hused : ∀ x, fs'.used x = if x ∈ bs then false else fs.used x) : fs'.HintsOk := by
  intro g hg
  obtain ⟨hle, hcases⟩ := freeBlocks_hint bs hfs' g
  rw [hlayout.groupCount] at hg
  rw [hlayout.counts]
  -- bit `i` of group `g` is that of block `x`
  have hbit (i : ℕ) (hi : i < (fs.groups g).blockCount) : ∃ x, x / fs.blocksPerGroup = g ∧
      x % fs.blocksPerGroup = i ∧ fs.used x = (fs.groups g).bitmap i ∧ fs'.used x = (fs'.groups g).bitmap i := by
    have hsmall : i < fs.blocksPerGroup := hi.trans_le (hgr.count g hg ▸ min_le_left _ _)
    have hdiv : (i + g * fs.blocksPerGroup) / fs.blocksPerGroup = g := by
      rw [Nat.add_mul_div_right _ _ hgr.size, Nat.div_eq_of_lt hsmall, Nat.zero_add]
    have hmod : (i + g * fs.blocksPerGroup) % fs.blocksPerGroup = i := by
      rw [Nat.add_mul_mod_self_right, Nat.mod_eq_of_lt hsmall]
    refine ⟨i + g * fs.blocksPerGroup, hdiv, hmod, ?_, ?_⟩
    · rw [used, hdiv, hmod]
    · rw [used, hlayout.blocksPerGroup, hdiv, hmod]
  -- a block below the new hint was not freed
  have hkept (x : ℕ) (hx : x / fs.blocksPerGroup = g) (hlt : x % fs.blocksPerGroup < (fs'.groups g).firstFreeBlock) :
      fs'.used x = fs.used x := by
    rw [hused, if_neg]
    intro hmem
    have := hle x hmem hx
    omega
  rcases hcases with heq | ⟨hlt, b, hb, hbg, -⟩
  · rw [heq]
    refine (h g hg).imp_right fun hset i hi hlen => ?_
    obtain ⟨x, hx, hxi, hold, hnew⟩ := hbit i hlen
    rw [← hnew, hkept x hx (by omega), hold]
    exact hset i hi hlen
  · right
    intro i hi hlen
    obtain ⟨x, hx, hxi, hold, hnew⟩ := hbit i hlen
    rw [← hnew, hkept x hx (by omega)]
    rcases h g hg with hno | hset
    · -- the hint was unknown
      by_contra hfree
      have hfree' : fs.Free x := by
        refine ⟨⟨by rwa [hx], ?_⟩, by simpa using hfree⟩
        rwa [hx, hxi]
      obtain ⟨c, hc, hcg, hcx⟩ := hlow b hb (by rwa [hbg]) x hfree' (by rw [hx, hbg])
      have hcmod := hle c hc (hcg.trans hbg)
      have hcdiv := Nat.div_add_mod c fs.blocksPerGroup
      have hxdiv := Nat.div_add_mod x fs.blocksPerGroup
      rw [hcg, hbg] at hcdiv
      rw [hx] at hxdiv
      omega
    · rw [hold]
      exact hset i (by omega) hlen

end Filsys

namespace Volume

variable {v v' : Volume} {group ino parent n avefreei : ℕ}

structure HintsOk (v : Volume) : Prop where
  blocks : v.fs.HintsOk
  inodes : ∀ g < v.fs.groupCount,
    HintOk (v.inodes g).bitmap v.fs.inodesPerGroup (v.inodes g).firstFreeInode

theorem pickGroup_spec (v : Volume) (avefreei n : ℕ) :
    (∃ g, v.pickGroup avefreei n = some g ∧ g < n ∧ (v.inodes g).freeInodeCount ≠ 0) ∨
      v.pickGroup avefreei n = none ∧
        ∀ g < n, (v.inodes g).freeInodeCount = 0 ∨ (v.inodes g).freeInodeCount < avefreei := by
  induction n with
  | zero => exact .inr ⟨rfl, by simp⟩
  | succ i ih =>
    rw [pickGroup]
    split_ifs with hfree
    · left
      rcases ih with ⟨g, hg, hlt, hne⟩ | ⟨hnone, -⟩
      · rw [hg]
        dsimp only
        split_ifs
        · exact ⟨i, rfl, Nat.lt_succ_self i, hfree.1⟩
        · exact ⟨g, rfl, by omega, hne⟩
      · rw [hnone]
        exact ⟨i, rfl, Nat.lt_succ_self i, hfree.1⟩
    · rcases ih with ⟨g, hg, hlt, hne⟩ | ⟨hnone, hall⟩
      · exact .inl ⟨g, hg, by omega, hne⟩
      · right
        refine ⟨hnone, fun g hg => ?_⟩
        rcases (Nat.lt_succ_iff.mp hg).eq_or_lt with rfl | hlt
        · omega
        · exact hall g hlt

theorem Consistent.pickGroup_free (h : v.Consistent) {g : ℕ} (hg : g < v.fs.groupCount)
    (hfree : (v.inodes g).freeInodeCount ≠ 0) :
    ∃ p, v.pickGroup (v.freeInodeCount / v.fs.groupCount) v.fs.groupCount = some p ∧
      p < v.fs.groupCount ∧ (v.inodes p).freeInodeCount ≠ 0 := by
  rcases pickGroup_spec v (v.freeInodeCount / v.fs.groupCount) v.fs.groupCount with
    hpick | ⟨-, hall⟩
  · exact hpick
  · have hsum := h.counted.sum
    have hlt : ∑ j ∈ Finset.range v.fs.groupCount, (v.inodes j).freeInodeCount <
        ∑ j ∈ Finset.range v.fs.groupCount, v.freeInodeCount / v.fs.groupCount := by
      have hg' := (hall g hg).resolve_left hfree
      refine Finset.sum_lt_sum (fun j hj => ?_) ⟨g, Finset.mem_range.mpr hg, hg'⟩
      have := hall j (Finset.mem_range.mp hj)
      omega
    rw [Finset.sum_const, Finset.card_range, ← hsum] at hlt
    exact absurd (Nat.mul_div_le v.freeInodeCount v.fs.groupCount) (not_le.mpr hlt)

theorem nextGroup_free (n : ℕ) (hg : group < v.fs.groupCount) {g : ℕ} (hg' : g < v.fs.groupCount)
    (hreach : group ≤ g ∧ g < group + n ∨ g + v.fs.groupCount < group + n)
    (hfree : (v.inodes g).freeInodeCount ≠ 0) : (v.inodes (v.nextGroup n group)).freeInodeCount ≠ 0 := by
  induction n generalizing group with
  | zero => omega
  | succ n ih =>
    have hnext : (if v.fs.groupCount ≤ group + 1 then 0 else group + 1) < v.fs.groupCount := by
      split <;> omega
    rw [nextGroup]
    split
    · next hhere => exact hhere
    · next hhere =>
      have hne : g ≠ group := by
        rintro rfl
        exact hhere hfree
      apply ih hnext
      split <;> omega

/-- Nothing is free in group `g`. -/
def Full (v : Volume) (g : ℕ) : Prop := ∀ i < v.fs.inodesPerGroup, (v.inodes g).bitmap i = true

theorem Consistent.full (h : v.Consistent) {g : ℕ} (hg : g < v.fs.groupCount)
    (h0 : (v.inodes g).freeInodeCount = 0) : v.Full g :=
  fun _ hi => Counted_full h.counted hg h0 hi

theorem Consistent.count_of_full (h : v.Consistent) {g : ℕ} (hg : g < v.fs.groupCount) (hfull : v.Full g) :
    (v.inodes g).freeInodeCount = 0 := by
  rw [h.counted.each g hg, clear, Finset.card_eq_zero, Finset.filter_eq_empty_iff]
  intro i hi
  simp [hfull i (Finset.mem_range.mp hi)]

theorem Full.not_free (h : v.Consistent) (hfull : ∀ g < v.fs.groupCount, v.Full g) : ¬∃ x, v.FreeInode x := by
  rintro ⟨x, hg, hbit⟩
  have hset := hfull _ hg _ (Nat.mod_lt x h.inodes)
  rw [inodeUsed, hset] at hbit
  simp at hbit

theorem firstFreeInode_hint {g : InodeGroup} (h : HintOk g.bitmap len g.firstFreeInode) :
    HintOk g.bitmap len (firstFreeInode g len).1.firstFreeInode ∧
      ∀ i < (firstFreeInode g len).2, i < len → g.bitmap i = true := by
  rw [firstFreeInode]
  split
  · next hknown => exact ⟨h, fun i hi hlen => h.next hknown hi hlen⟩
  · exact ⟨HintOk.first, fun i hi _ => findFirstZeroBit_below hi⟩

theorem newInodeIn_hints (h : v.HintsOk) (hc : v.Consistent) (hg : group < v.fs.groupCount) :
    (v.newInodeIn group).1.HintsOk ∧ ((v.newInodeIn group).2 = noInode → v.Full group) := by
  obtain ⟨hgroup, hfound⟩ := firstFreeInode_spec (hc.inodeTail group hg)
  obtain ⟨hhint, hbelow⟩ := firstFreeInode_hint (h.inodes group hg)
  have hsize : v.fs.inodesPerGroup < 2 ^ 32 := by
    have hnum := hc.numbers
    have hle : v.fs.inodesPerGroup ≤ v.fs.groupCount * v.fs.inodesPerGroup :=
      Nat.le_mul_of_pos_left _ hc.groups
    omega
  set r := firstFreeInode (v.inodes group) v.fs.inodesPerGroup with hr
  have hbitmap : r.1.bitmap = (v.inodes group).bitmap := by rw [hgroup]
  have hok (g : ℕ) (hg' : g < v.fs.groupCount) :
      HintOk (update v.inodes group r.1 g).bitmap v.fs.inodesPerGroup
        (update v.inodes group r.1 g).firstFreeInode := by
    rcases eq_or_ne g group with rfl | hne
    · rwa [update_self, hbitmap]
    · rw [update_of_ne hne]
      exact h.inodes g hg'
  rw [newInodeIn]
  split
  · next heq =>
    refine ⟨⟨h.blocks, hok⟩, fun _ i hi => hbelow i (by rwa [heq]) hi⟩
  · next hne =>
    obtain ⟨hlt, -⟩ := hfound.resolve_left hne
    refine ⟨⟨h.blocks, fun g hg' => ?_⟩, fun hno => ?_⟩
    · rcases eq_or_ne g group with rfl | hne
      · simpa [inodeFound] using (hok g hg).set hlt hsize
      · simpa [inodeFound, update_of_ne hne] using hok g hg'
    · -- the number of an inode is not `NOINODE`
      have hnum := (hc.inode_number hg hlt).2.2
      have hres : word (r.2 + group * v.fs.inodesPerGroup) = r.2 + group * v.fs.inodesPerGroup :=
        word_of_lt (hnum.trans (by simp [noInode]))
      have hval : word (r.2 + group * v.fs.inodesPerGroup) = noInode := hno
      omega

theorem newInode_hints {dir : Bool} {r : Volume × ℕ} (h : v.HintsOk) (hc : v.Consistent)
    (hparent : dir = false → parent / v.fs.inodesPerGroup < v.fs.groupCount)
    (hr : v.newInode parent dir = some r) :
    r.1.HintsOk ∧ (r.2 = noInode → ¬∃ x, v.FreeInode x) := by
  -- the group that is tried has a free inode if any has
  have htry (g : ℕ) (hg : g < v.fs.groupCount)
      (hbest : ∀ j < v.fs.groupCount, (v.inodes j).freeInodeCount ≠ 0 → (v.inodes g).freeInodeCount ≠ 0) :
      (v.newInodeIn g).1.HintsOk ∧ ((v.newInodeIn g).2 = noInode → ¬∃ x, v.FreeInode x) := by
    obtain ⟨hok, hfull⟩ := newInodeIn_hints h hc hg
    refine ⟨hok, fun hno => Full.not_free hc fun j hj => ?_⟩
    apply hc.full hj
    by_contra hne
    exact hbest j hj hne (hc.count_of_full hg (hfull hno))
  rw [newInode, if_neg hc.groups.ne'] at hr
  cases dir with
  | true =>
    obtain rfl := Option.some.inj hr
    rcases pickGroup_spec v (v.freeInodeCount / v.fs.groupCount) v.fs.groupCount with
      ⟨g, hg, hlt, hne⟩ | ⟨hnone, -⟩
    · rw [hg]
      exact htry g hlt fun _ _ _ => hne
    · rw [hnone]
      apply htry 0 hc.groups
      intro j hj hne
      obtain ⟨p, hp, -⟩ := hc.pickGroup_free hj hne
      simp [hnone] at hp
  | false =>
    have hg := hparent rfl
    rw [if_neg (not_le.mpr hg)] at hr
    obtain rfl := Option.some.inj hr
    generalize parent / v.fs.inodesPerGroup = group at hg ⊢
    apply htry _ (nextGroup_lt _ hg)
    intro j hj hne
    exact nextGroup_free _ hg hj (by omega) hne

/-- No free inode of the group lies below the one that is freed, when the hint is unknown. -/
def FreesLowest (v : Volume) (ino : ℕ) : Prop :=
  (v.inodes (ino / v.fs.inodesPerGroup)).firstFreeInode = noInode → ∀ x, v.FreeInode x →
    x / v.fs.inodesPerGroup = ino / v.fs.inodesPerGroup → ino ≤ x

theorem freeInode_hints (h : v.HintsOk) (hc : v.Consistent) (hlow : v.FreesLowest ino)
    (hv' : v.freeInode ino = some v') : v'.HintsOk := by
  rw [freeInode] at hv'
  split at hv'
  · simp at hv'
  next hg =>
    have hg : ino / v.fs.inodesPerGroup < v.fs.groupCount := not_le.mp hg
    obtain rfl := Option.some.inj hv'
    refine ⟨h.blocks, fun g hg' => ?_⟩
    rcases eq_or_ne g (ino / v.fs.inodesPerGroup) with rfl | hne
    · simp only [update_self]
      have hkeep (i : ℕ) (hi : i < ino % v.fs.inodesPerGroup)
          (hset : (v.inodes (ino / v.fs.inodesPerGroup)).bitmap i = true) :
          update (v.inodes (ino / v.fs.inodesPerGroup)).bitmap (ino % v.fs.inodesPerGroup) false i = true := by
        rwa [update_of_ne hi.ne]
      split_ifs with hlt
      · right
        intro i hi hlen
        apply hkeep i hi
        rcases h.inodes _ hg with hno | hset
        · -- the hint was unknown
          by_contra hfree
          have hdiv : (i + ino / v.fs.inodesPerGroup * v.fs.inodesPerGroup) / v.fs.inodesPerGroup =
              ino / v.fs.inodesPerGroup := by
            rw [Nat.add_mul_div_right _ _ hc.inodes, Nat.div_eq_of_lt hlen, Nat.zero_add]
          have hmod : (i + ino / v.fs.inodesPerGroup * v.fs.inodesPerGroup) % v.fs.inodesPerGroup = i := by
            rw [Nat.add_mul_mod_self_right, Nat.mod_eq_of_lt hlen]
          have hle := hlow hno (i + ino / v.fs.inodesPerGroup * v.fs.inodesPerGroup)
            ⟨by rwa [hdiv], by rw [inodeUsed, hdiv, hmod]; simpa using hfree⟩ hdiv
          have := Nat.div_add_mod' ino v.fs.inodesPerGroup
          omega
        · exact hset i (by omega) hlen
      · refine (h.inodes _ hg).imp_right fun hset i hi hlen => ?_
        exact hkeep i (by omega) (hset i hi hlen)
    · simpa only [update_of_ne hne] using h.inodes g hg'

/-- The groups behind `open_filesystem`: no hint is known. -/
def mount (v : Volume) : Volume :=
  { v with
    fs := { v.fs with groups := fun g => { v.fs.groups g with firstFreeBlock := noBlock } }
    inodes := fun g => { v.inodes g with firstFreeInode := noInode } }

theorem mount_hints (v : Volume) : v.mount.HintsOk := ⟨fun _ _ => .inl rfl, fun _ _ => .inl rfl⟩

theorem Consistent.mount (h : v.Consistent) : v.mount.Consistent := by
  obtain ⟨hgr, hgroups, hcovers, hinodes, hnumbers, htail, hblocks, hcounted⟩ := h
  obtain ⟨hsize, hsmall, hcount, hblockTail⟩ := hgr
  exact ⟨⟨hsize, hsmall, hcount, hblockTail⟩, hgroups, hcovers, hinodes, hnumbers, htail, hblocks, hcounted⟩

end Volume

/-- The call frees only what is in use, and in a group whose hint is unknown nothing above a free item. -/
def AllocCall.Lowest (v : Volume) (call : AllocCall) : Prop :=
  call.Ok v ∧ (∀ blocks, call = .freeBlocks blocks → v.fs.FreesLowest blocks) ∧
    ∀ ino, call = .freeInode ino → v.FreesLowest ino

theorem Filsys.Allots.layout {fs : Filsys} {r : Filsys × ℕ} (h : Filsys.Allots fs r) : Filsys.SameLayout fs r.1 := by
  cases h with
  | full hhint => exact hhint.layout
  | found hhint => exact hhint.layout.trans (Filsys.blockFound_flips _ _ _).layout

theorem Volume.HintsOk.withFs {v : Volume} {fs : Filsys} (h : v.HintsOk) (hfs : fs.HintsOk)
    (hl : Filsys.SameLayout v.fs fs) : Volume.HintsOk { v with fs := fs } := by
  refine ⟨hfs, fun g hg => ?_⟩
  rw [hl.groupCount] at hg
  rw [hl.inodesPerGroup]
  exact h.inodes g hg

theorem AllocCall.exec_hints {v v' : Volume} {call : AllocCall} (h : v.HintsOk) (hc : v.Consistent)
    (hok : call.Lowest v) (hcall : call.exec v = some v') : v'.HintsOk := by
  obtain ⟨hok, hblocks, hinodes⟩ := hok
  cases call with
  | newBlock goal =>
    obtain ⟨w, hw, rfl⟩ := Option.map_eq_some_iff.mp hcall
    obtain ⟨r, hr, rfl⟩ := Option.map_eq_some_iff.mp hw
    have hhints := (Filsys.newBlock_hints h.blocks hc.grouped hc.blocks hc.groups hr).1
    exact h.withFs hhints (Filsys.newBlock_allots hc.grouped hr).layout
  | freeBlocks blocks =>
    obtain ⟨fs, hfs, rfl⟩ := Option.map_eq_some_iff.mp hcall
    obtain ⟨fs', hfs', -, -, hlayout, hused⟩ :=
      Filsys.freeBlocks_counted blocks hc.grouped hc.blocks hok.1 hok.2
    obtain rfl : fs = fs' := Option.some.inj (hfs.symm.trans hfs')
    exact h.withFs (Filsys.freeBlocks_hints h.blocks hc.grouped (hblocks blocks rfl) hfs hlayout hused) hlayout
  | newInode parent dir =>
    obtain ⟨r, hr, rfl⟩ := Option.map_eq_some_iff.mp hcall
    exact (Volume.newInode_hints h hc hok hr).1
  | freeInode ino => exact Volume.freeInode_hints h hc (hinodes ino rfl) hcall

/-- While no call frees an item above a free one in a group whose hint is unknown, `NOBLOCK` and
`NOINODE` mean that nothing is free. -/
theorem allocator_finds {v₀ v : Volume} (h₀ : v₀.Consistent)
    (hrun : Reach AllocCall.exec AllocCall.Lowest v₀.mount v) :
    (∀ goal r, v.newBlock goal = some r → r.2 = noBlock → ¬∃ x, v.fs.Free x) ∧
      ∀ parent dir r, (dir = false → parent / v.fs.inodesPerGroup < v.fs.groupCount) →
        v.newInode parent dir = some r → r.2 = noInode → ¬∃ x, v.FreeInode x := by
  have hinv : v.Consistent ∧ v.HintsOk := by
    refine hrun.invariant (P := fun v => v.Consistent ∧ v.HintsOk) ⟨h₀.mount, v₀.mount_hints⟩ ?_
    rintro a call b ⟨hc, hh⟩ hok hcall
    exact ⟨AllocCall.exec_consistent hc hok.1 hcall, AllocCall.exec_hints hh hc hok hcall⟩
  obtain ⟨hc, hh⟩ := hinv
  constructor
  · intro goal r hr hno
    obtain ⟨r', hr', rfl⟩ := Option.map_eq_some_iff.mp hr
    exact (Filsys.newBlock_hints hh.blocks hc.grouped hc.blocks hc.groups hr').2 hno
  · intro parent dir r hparent hr hno
    exact (Volume.newInode_hints hh hc hparent hr).2 hno

/-- One group of four blocks and four inodes, of which number 1 is free. -/
def fourBlocks : Volume where
  fs :=
    { logBlkptrsPerBlock := 7, blockCount := 4, blocksPerGroup := 4, inodesPerGroup := 4,
      groupCount := 1, freeBlockCount := 1, page := fun _ _ => 0, freed := [],
      groups := fun _ => ⟨4, fun i => decide (i < 4) && !decide (i = 1), 1, 0⟩ }
  freeInodeCount := 1
  inodes := fun _ => ⟨fun i => decide (i < 4) && !decide (i = 1), 1, 0⟩

theorem fourBlocks_consistent : fourBlocks.Consistent := by
  refine ⟨⟨by decide, by decide, ?_, ?_⟩, by decide, by decide, by decide, by decide, ?_, ⟨?_, by decide⟩,
    ⟨?_, by decide⟩⟩
  all_goals
    intro g hg
    obtain rfl : g = 0 := by
      have : g < 1 := hg
      omega
    decide

theorem allocator_finds_four_blocks :
    ∃ v, Reach AllocCall.exec AllocCall.Lowest fourBlocks.mount v ∧
      (v.newBlock 4).map Prod.snd = some noBlock ∧ ¬∃ x, v.fs.Free x := by
  have hrun : Reach AllocCall.exec AllocCall.Lowest fourBlocks.mount _ :=
    Reach.single (l := AllocCall.newBlock 4) ⟨trivial, nofun, nofun⟩ rfl
  have hfull := (allocator_finds fourBlocks_consistent hrun).1 4 _ rfl (by decide +kernel)
  exact ⟨_, hrun, by decide +kernel, hfull⟩

/-- Block 3 is freed behind the mount and allocated again; then block 1 is out of reach. The same
with inodes. -/
theorem free_item_not_found :
    fourBlocks.Consistent ∧
      (∃ v, Reach AllocCall.exec AllocCall.Ok fourBlocks.mount v ∧ v.fs.Free 1 ∧
        (v.newBlock 4).map Prod.snd = some noBlock) ∧
      ∃ v, Reach AllocCall.exec AllocCall.Ok fourBlocks.mount v ∧ v.FreeInode 1 ∧
        (v.newInode 0 false).map Prod.snd = some noInode := by
  refine ⟨fourBlocks_consistent, ?_, ?_⟩
  · have htaken : ∀ b ∈ [3], fourBlocks.mount.fs.Taken b := by
      intro b hb
      obtain rfl := List.mem_singleton.mp hb
      exact ⟨⟨by decide +kernel, by decide +kernel⟩, by decide +kernel⟩
    have hfree : Reach AllocCall.exec AllocCall.Ok fourBlocks.mount _ :=
      Reach.single (l := AllocCall.freeBlocks [3]) ⟨by simp, htaken⟩ rfl
    have halloc := hfree.tail (l := AllocCall.newBlock 4) trivial rfl
    exact ⟨_, halloc, ⟨⟨by decide +kernel, by decide +kernel⟩, by decide +kernel⟩, by decide +kernel⟩
  · have hfree : Reach AllocCall.exec AllocCall.Ok fourBlocks.mount _ :=
      Reach.single (l := AllocCall.freeInode 3) ⟨by decide +kernel, by decide +kernel⟩ rfl
    have halloc := hfree.tail (l := AllocCall.newInode 0 false) (fun _ => by decide +kernel) rfl
    exact ⟨_, halloc, ⟨by decide +kernel, by decide +kernel⟩, by decide +kernel⟩

end SimpleKernel.Dfs
