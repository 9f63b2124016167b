import SimpleKernel.Dfs.Growth

/-! `truncate_inode` removes blocks from the end of a file, and the directory pages that lead to no
other block. -/
namespace SimpleKernel.Dfs
open PageTree Filsys
open Function (update update_of_ne update_self)

/-- The nodes on the way to the first `c'` blocks, and from height `R` up also those on the way to
the first `c` blocks. -/
def trimmed (B d c c' R : ℕ) : ℕ → ℕ → Prop :=
  fun r j => r ≤ d ∧ (j * B ^ r < c' ∨ j * B ^ r < c ∧ R ≤ r)

section Trimmed
variable {B d c c' x R r j : ℕ}

theorem trimmed_top : trimmed B d c c' (d + 1) r j ↔ upTo B d c' r j := by
  constructor
  · rintro ⟨hr, hlt | ⟨-, hR⟩⟩
    · exact ⟨hr, hlt⟩
    · omega
  · exact fun ⟨hr, hlt⟩ => ⟨hr, .inl hlt⟩

theorem trimmed_one (hle : c' ≤ c) : trimmed B d c c' 1 r j ↔ dropLive (upTo B d c) 0 c' c r j := by
  constructor
  · rintro ⟨hr, hlt | ⟨hlt, hpos⟩⟩
    · refine ⟨⟨hr, hlt.trans_le hle⟩, ?_⟩
      rintro ⟨rfl, hge, -⟩
      rw [Nat.pow_zero] at hlt
      omega
    · exact ⟨⟨hr, hlt⟩, fun hz => by omega⟩
  · rintro ⟨⟨hr, hlt⟩, hnot⟩
    refine ⟨hr, ?_⟩
    rcases Nat.eq_zero_or_pos r with rfl | hpos
    · rw [Nat.pow_zero, Nat.mul_one] at hlt ⊢
      by_contra hge
      exact hnot ⟨rfl, by omega, hlt⟩
    · exact .inr ⟨hlt, hpos⟩

theorem start_le (hB : 0 < B) (hR : R ≤ r) (hj : j * B ^ r ≤ x) : j * B ^ r ≤ x / B ^ R * B ^ R := by
  obtain ⟨k, hk⟩ : B ^ R ∣ j * B ^ r := (Nat.pow_dvd_pow B hR).mul_left j
  rw [Nat.mul_comm (B ^ R)] at hk
  rw [hk] at hj ⊢
  exact Nat.mul_le_mul_right _ ((Nat.le_div_iff_mul_le (Nat.pow_pos hB)).mpr hj)

theorem trimmed_of_lt (hB : 0 < B) (hlt : x / B ^ R * B ^ R < c') :
    trimmed B d (x + 1) c' R r j ↔ upTo B d c' r j := by
  refine and_congr_right fun _ => ⟨?_, .inl⟩
  rintro (h | ⟨h, hR⟩)
  · exact h
  · exact (start_le hB hR (Nat.lt_succ_iff.mp h)).trans_lt hlt

theorem trimmed_succ (hB : 0 < B) (heq : x / B ^ R * B ^ R = c') :
    trimmed B d (x + 1) c' (R + 1) r j ↔
      dropLive (trimmed B d (x + 1) c' R) R (x / B ^ R) (x / B ^ R + 1) r j := by
  have hpos : 0 < B ^ R := Nat.pow_pos hB
  constructor
  · rintro ⟨hr, hlt | ⟨hlt, hR⟩⟩
    · refine ⟨⟨hr, .inl hlt⟩, ?_⟩
      rintro ⟨rfl, hge, -⟩
      have := Nat.mul_le_mul_right (B ^ r) hge
      omega
    · exact ⟨⟨hr, .inr ⟨hlt, by omega⟩⟩, fun hz => by omega⟩
  · rintro ⟨⟨hr, hlt | ⟨hlt, hR⟩⟩, hnot⟩
    · exact ⟨hr, .inl hlt⟩
    · refine ⟨hr, ?_⟩
      rcases hR.eq_or_lt with rfl | hR
      · left
        have hle : j ≤ x / B ^ R :=
          (Nat.le_div_iff_mul_le hpos).mpr (Nat.lt_succ_iff.mp hlt)
        have hne : j < x / B ^ R := by
          by_contra hge
          exact hnot ⟨rfl, by omega, by omega⟩
        rw [← heq]
        exact Nat.mul_lt_mul_of_pos_right hne hpos
      · exact .inr ⟨hlt, hR⟩

theorem trimmed_here (hR : R ≤ d) : trimmed B d (x + 1) c' R R (x / B ^ R) :=
  ⟨hR, .inr ⟨Nat.lt_succ_of_le (Nat.div_mul_le_self x _), le_rfl⟩⟩

theorem trimmed_child (heq : x / B ^ R * B ^ R = c') (hl : trimmed B d (x + 1) c' R r j)
    (hr : r + 1 = R) : ¬ (x / B ^ R ≤ j / B ∧ j / B < x / B ^ R + 1) := by
  rintro ⟨hge, -⟩
  have hlt : j * B ^ r < c' := by
    rcases hl.2 with h | ⟨-, h⟩
    · exact h
    · omega
  have hup : j / B * B ^ R ≤ j * B ^ r := by
    rw [← hr, Nat.pow_succ, Nat.mul_comm (B ^ r), ← Nat.mul_assoc]
    exact Nat.mul_le_mul_right _ (Nat.div_mul_le_self j B)
  have := Nat.mul_le_mul_right (B ^ R) hge
  omega

end Trimmed

/-- Of the tree of `inode` the nodes in `live` are left; those in `gone` were freed, in this
order. -/
structure Cuts (inode : Inode) (live₀ : ℕ → ℕ → Prop) (node : ℕ → ℕ → ℕ) (fs : Filsys)
    (top : ℕ → ℕ) (live : ℕ → ℕ → Prop) (gone : List (ℕ × ℕ)) : Prop where
  tree : IsTree inode.fs.ptrs topBlockdirSize inode.depth top fs.page live node
  sub : ∀ r j, live r j → live₀ r j
  ok : fs.Ok
  layout : SameLayout inode.fs fs
  used : ∀ x, fs.used x = if x ∈ gone.map (fun a => node a.1 a.2) then false else inode.fs.used x
  freed : fs.freed = (gone.map fun a => node a.1 a.2).reverse ++ inode.fs.freed
  nodup : gone.Nodup
  mem : ∀ r j, (r, j) ∈ gone ↔ live₀ r j ∧ ¬ live r j

variable {inode : Inode} {live₀ live live' : ℕ → ℕ → Prop} {node : ℕ → ℕ → ℕ} {fs fs' : Filsys}
  {top top' : ℕ → ℕ} {gone : List (ℕ × ℕ)} {r q lo hi n : ℕ}

namespace Cuts

section
variable (h : Cuts inode live₀ node fs top live gone)
include h

theorem congr (hl : ∀ r j, live' r j ↔ live r j) :
    Cuts inode live₀ node fs top live' gone := by
  have heq : live' = live := funext fun r => funext fun j => propext (hl r j)
  rw [heq]
  exact h

theorem freeBlocks
    (hbase : ∀ r j, live₀ r j → inode.fs.InGroup (node r j)) (bs : List ℕ)
    (hbs : ∀ b ∈ bs, ∃ r j, live r j ∧ node r j = b) :
    ∃ fs', fs.freeBlocks bs = some fs' ∧ Frees fs fs' bs := by
  apply freeBlocks_frees bs h.ok
  intro b hb
  obtain ⟨r, j, hl, rfl⟩ := hbs b hb
  exact ⟨h.layout.inGroup.mpr (hbase r j (h.sub r j hl)), h.tree.ne_zero r j hl⟩

theorem removes
    (hlive : ∀ j, lo ≤ j → j < hi → live r j)
    (hf : Frees fs fs' ((List.range' lo (hi - lo)).map (node r))) {page : ℕ → ℕ → ℕ}
    (htree : IsTree inode.fs.ptrs topBlockdirSize inode.depth top' page (dropLive live r lo hi)
      node) :
    Cuts inode live₀ node { fs' with page := page } top' (dropLive live r lo hi)
      (gone ++ (List.range' lo (hi - lo)).map fun j => (r, j)) := by
  have hmap : ((List.range' lo (hi - lo)).map fun j => (r, j)).map (fun a => node a.1 a.2) =
      (List.range' lo (hi - lo)).map (node r) := by
    rw [List.map_map]
    rfl
  have hrange (j : ℕ) : j ∈ List.range' lo (hi - lo) ↔ lo ≤ j ∧ j < hi := by
    rw [List.mem_range'_1]
    omega
  have hin (r' j : ℕ) : (r', j) ∈ (List.range' lo (hi - lo)).map (fun j => (r, j)) ↔
      r' = r ∧ lo ≤ j ∧ j < hi := by
    rw [List.mem_map]
    constructor
    · rintro ⟨j', hj', he⟩
      obtain ⟨rfl, rfl⟩ := Prod.mk.inj he
      exact ⟨rfl, (hrange _).mp hj'⟩
    · rintro ⟨rfl, hj⟩
      exact ⟨j, (hrange j).mpr hj, rfl⟩
  refine ⟨htree, fun r' j hl => h.sub r' j hl.1, hf.ok.withPage page, ?_, fun x => ?_, ?_, ?_,
    fun r' j => ?_⟩
  · have := h.layout.trans hf.layout
    exact ⟨this.log, this.blockCount, this.blocksPerGroup, this.inodesPerGroup, this.groupCount,
      this.counts⟩
  · have hused := hf.used x
    rw [h.used] at hused
    rw [List.map_append, hmap]
    refine Eq.trans hused ?_
    by_cases hx : x ∈ (List.range' lo (hi - lo)).map (node r)
    · rw [if_pos hx, if_pos (List.mem_append_right _ hx)]
    · rw [if_neg hx]
      simp only [List.mem_append, hx, or_false]
  · rw [hf.freed, h.freed, List.map_append, hmap, List.reverse_append, List.append_assoc]
  · rw [List.nodup_append]
    refine ⟨h.nodup, (List.nodup_range' ..).map fun _ _ he => (Prod.mk.inj he).2, ?_⟩
    rintro ⟨r₁, j₁⟩ ha ⟨r₂, j₂⟩ hb he
    rw [he] at ha
    obtain ⟨rfl, hj⟩ := (hin r₂ j₂).mp hb
    exact ((h.mem _ _).mp ha).2 (hlive j₂ hj.1 hj.2)
  · rw [List.mem_append, h.mem, hin]
    constructor
    · rintro (⟨h₀, hnot⟩ | ⟨rfl, hj⟩)
      · exact ⟨h₀, fun hl => hnot hl.1⟩
      · exact ⟨h.sub _ _ (hlive j hj.1 hj.2), fun hl => hl.2 ⟨rfl, hj⟩⟩
    · rintro ⟨h₀, hnot⟩
      by_cases hl : live r' j
      · exact .inr (dropLive_of_not hl hnot)
      · exact .inl ⟨h₀, hl⟩

theorem clearPage (hr : r < inode.depth)
    (hq : live (r + 1) q) (hlo : q * inode.fs.ptrs ≤ lo)
    (hhi : hi ≤ q * inode.fs.ptrs + inode.fs.ptrs) (hlive : ∀ j, lo ≤ j → j < hi → live r j)
    (hchild : ∀ r' j, live r' j → r' + 1 = r →
      ¬ (lo ≤ j / inode.fs.ptrs ∧ j / inode.fs.ptrs < hi))
    (hf : Frees fs fs' ((List.range' lo (hi - lo)).map (node r))) (slots : ℕ → ℕ)
    (hin : ∀ o, lo ≤ q * inode.fs.ptrs + o → q * inode.fs.ptrs + o < hi → slots o = 0)
    (hout : ∀ o, ¬ (lo ≤ q * inode.fs.ptrs + o ∧ q * inode.fs.ptrs + o < hi) →
      slots o = fs'.page (node (r + 1) q) o) :
    Cuts inode live₀ node { fs' with page := update fs'.page (node (r + 1) q) slots } top
      (dropLive live r lo hi) (gone ++ (List.range' lo (hi - lo)).map fun j => (r, j)) := by
  refine h.removes hlive hf (h.tree.drop hr hq hlo hhi hchild (fun o h₁ h₂ => ?_) fun p o hno => ?_)
  · rw [update_self]
    exact hin o h₁ h₂
  · rcases eq_or_ne p (node (r + 1) q) with rfl | hne
    · rw [update_self, hout o fun hd => hno ⟨rfl, hd⟩, hf.page]
    · rw [update_of_ne hne, hf.page]

theorem clearTop (lo : ℕ) (top' : ℕ → ℕ)
    (hlive : ∀ j, lo ≤ j → j < hi → live inode.depth j)
    (hchild : ∀ r' j, live r' j → r' + 1 = inode.depth →
      ¬ (lo ≤ j / inode.fs.ptrs ∧ j / inode.fs.ptrs < hi))
    (hf : Frees fs fs' ((List.range' lo (hi - lo)).map (node inode.depth)))
    (hin : ∀ j, lo ≤ j → j < hi → top' j = 0)
    (hout : ∀ j, ¬ (lo ≤ j ∧ j < hi) → top' j = top j) :
    Cuts inode live₀ node fs' top' (dropLive live inode.depth lo hi)
      (gone ++ (List.range' lo (hi - lo)).map fun j => (inode.depth, j)) := by
  have htree := h.tree.dropTop hchild hin hout
  rw [← hf.page] at htree
  exact h.removes hlive hf htree

end

end Cuts

/-! The pages on the way to block `x`. -/

/-- The page at height `r + 1` above block `x`, and the slot in it. -/
def level (node : ℕ → ℕ → ℕ) (B x r : ℕ) : ℕ × ℕ :=
  (node (r + 1) (x / B ^ (r + 1)), x / B ^ r % B)

theorem loadLevels_eq {B d x : ℕ} {page : ℕ → ℕ → ℕ}
    (hslot : ∀ r, r < d → page (node (r + 1) (x / B ^ (r + 1))) (x / B ^ r % B) = node r (x / B ^ r))
    (buf : ℕ → Option ℕ) (k r : ℕ) (hr : r ≤ d) :
    (Inode.loadLevels page buf k (node r (x / B ^ r)) (path B r x)).2 =
      ((List.range' 0 r).map (level node B x)).reverse := by
  induction r generalizing buf k with
  | zero => rfl
  | succ r ih =>
    have hread (buf : ℕ → Option ℕ) (k b : ℕ) :
        ((if buf k = some b then buf else update buf k (some b)) k).getD 0 = b := by
      split
      · next hbuf => rw [hbuf, Option.getD_some]
      · rw [update_self, Option.getD_some]
    rw [path, Inode.loadLevels]
    rw [hread, hslot r (by omega), ih _ _ (by omega), List.range'_concat, List.map_append,
      List.reverse_append, Nat.one_mul, Nat.zero_add]
    rfl

theorem removeUp_all {up : List (ℕ × ℕ)} (h : Inode.removeUp fs up = some (fs', true)) :
    ∀ a ∈ up, a.2 = 0 := by
  induction up generalizing fs with
  | nil => simp
  | cons a up ih =>
    rw [Inode.removeUp] at h
    split at h
    · next ho =>
      obtain ⟨fs₁, -, h₁⟩ := Option.bind_eq_some_iff.mp h
      rintro a (_ | ⟨_, ha⟩)
      · exact ho
      · exact ih h₁ a ha
    · simp at h

/-! One round of the loop. Block `x` is the last one, and `c` the start of its leaf page. -/

section Round
variable {x c : ℕ} (hbase : ∀ r j, live₀ r j → inode.fs.InGroup (node r j))
include hbase

theorem removeUp_cuts (k R : ℕ) (hk : R + k = inode.depth)
    (heq : x / inode.fs.ptrs ^ R * inode.fs.ptrs ^ R = c)
    (h : Cuts inode live₀ node fs top (trimmed inode.fs.ptrs inode.depth (x + 1) c R) gone)
    (hf : Frees fs fs' [node R (x / inode.fs.ptrs ^ R)]) :
    ∃ fs'' all, Inode.removeUp fs' ((List.range' R k).map (level node inode.fs.ptrs x)) =
        some (fs'', all) ∧
      if all then ∃ fs₁ gone', x / inode.fs.ptrs ^ inode.depth * inode.fs.ptrs ^ inode.depth = c ∧
        Cuts inode live₀ node fs₁ top
          (trimmed inode.fs.ptrs inode.depth (x + 1) c inode.depth) gone' ∧
        Frees fs₁ fs'' [node inode.depth (x / inode.fs.ptrs ^ inode.depth)]
      else ∃ gone', Cuts inode live₀ node fs'' top (upTo inode.fs.ptrs inode.depth c) gone' := by
  have hB := inode.fs.ptrs_pos
  induction k generalizing R fs fs' gone with
  | zero =>
    obtain rfl : R = inode.depth := hk
    exact ⟨fs', true, rfl, fs, gone, heq, h, hf⟩
  | succ k ih =>
    have hdiv := div_pow_succ inode.fs.ptrs x R
    have hmod := Nat.div_add_mod' (x / inode.fs.ptrs ^ R) inode.fs.ptrs
    have hlt := Nat.mod_lt (x / inode.fs.ptrs ^ R) hB
    rw [← hdiv] at hmod
    -- the slot of the node below is cleared
    have hcut := h.clearPage (by omega)
      (by
        refine ⟨by omega, .inr ⟨?_, Nat.le_succ R⟩⟩
        exact Nat.lt_succ_of_le (Nat.div_mul_le_self x _))
      (by omega) (by omega)
      (fun j h₁ h₂ => by
        obtain rfl : j = x / inode.fs.ptrs ^ R := by omega
        exact trimmed_here (by omega))
      (fun r' j hl hr => trimmed_child heq hl hr)
      (by simpa using hf)
      (update (fs'.page (node (R + 1) (x / inode.fs.ptrs ^ (R + 1))))
        (x / inode.fs.ptrs ^ R % inode.fs.ptrs) 0)
      (fun o h₁ h₂ => by
        obtain rfl : o = x / inode.fs.ptrs ^ R % inode.fs.ptrs := by omega
        rw [update_self])
      (fun o hno => by
        rw [update_of_ne]
        omega)
    replace hcut := hcut.congr fun r j => trimmed_succ hB heq
    rw [List.range'_succ, List.map_cons, level, Inode.removeUp]
    have hpow : x / inode.fs.ptrs ^ (R + 1) * inode.fs.ptrs ^ (R + 1) =
        x / inode.fs.ptrs ^ (R + 1) * inode.fs.ptrs * inode.fs.ptrs ^ R := by
      rw [Nat.pow_succ, Nat.mul_comm (inode.fs.ptrs ^ R), Nat.mul_assoc]
    by_cases ho : x / inode.fs.ptrs ^ R % inode.fs.ptrs = 0
    · have heq' : x / inode.fs.ptrs ^ (R + 1) * inode.fs.ptrs ^ (R + 1) = c := by
        rw [hpow, ← heq]
        congr 1
        omega
      obtain ⟨fs₂, hfs₂, hf₂⟩ := hcut.freeBlocks hbase
        [node (R + 1) (x / inode.fs.ptrs ^ (R + 1))] (fun b hb => by
          rw [List.mem_singleton] at hb
          exact ⟨R + 1, _, trimmed_here (by omega), hb.symm⟩)
      rw [if_pos ho, hfs₂]
      exact ih (R + 1) (by omega) heq' hcut hf₂
    · rw [if_neg ho]
      refine ⟨_, false, rfl, _, hcut.congr fun r j => (trimmed_of_lt hB ?_).symm⟩
      rw [hpow, ← heq]
      exact Nat.mul_lt_mul_of_pos_right (by omega) (Nat.pow_pos hB)

theorem removeFromPage_cuts {start count : ℕ} (hd : 0 < inode.depth)
    (hcount : start + count = x % inode.fs.ptrs + 1)
    (h : Cuts inode live₀ node fs top (upTo inode.fs.ptrs inode.depth (x + 1)) gone) :
    ∃ fs' gone', Inode.removeFromPage fs (node 1 (x / inode.fs.ptrs)) start count = some fs' ∧
      Cuts inode live₀ node fs' top
        (trimmed inode.fs.ptrs inode.depth (x + 1) (x / inode.fs.ptrs * inode.fs.ptrs + start) 1)
        gone' := by
  have hB := inode.fs.ptrs_pos
  have hx := Nat.div_add_mod' x inode.fs.ptrs
  have hlt := Nat.mod_lt x hB
  have hleaf : upTo inode.fs.ptrs inode.depth (x + 1) 1 (x / inode.fs.ptrs) := by
    refine ⟨hd, ?_⟩
    rw [Nat.pow_one]
    omega
  have hdata (j : ℕ) (hj : j < x + 1) : upTo inode.fs.ptrs inode.depth (x + 1) 0 j :=
    ⟨Nat.zero_le _, by simpa using hj⟩
  have hblocks : (List.range' start count).map (fs.page (node 1 (x / inode.fs.ptrs))) =
      (List.range' (x / inode.fs.ptrs * inode.fs.ptrs + start)
        (x + 1 - (x / inode.fs.ptrs * inode.fs.ptrs + start))).map (node 0) := by
    have hlen : x + 1 - (x / inode.fs.ptrs * inode.fs.ptrs + start) = count := by omega
    rw [hlen, List.range'_eq_map_range, List.range'_eq_map_range, List.map_map, List.map_map]
    refine List.map_congr_left fun i hi => ?_
    have hi := List.mem_range.mp hi
    have hslot := h.tree.page_live 0 (start + i + x / inode.fs.ptrs * inode.fs.ptrs)
      (hdata _ (by omega)) hd
    rw [Nat.add_mul_div_right _ _ hB, Nat.div_eq_of_lt (by omega), Nat.zero_add,
      Nat.zero_add, Nat.add_mul_mod_self_right, Nat.mod_eq_of_lt (by omega)] at hslot
    refine hslot.trans ?_
    rw [Nat.add_comm, ← Nat.add_assoc]
    rfl
  obtain ⟨fs', hfs', hf⟩ := h.freeBlocks hbase
    ((List.range' start count).map (fs.page (node 1 (x / inode.fs.ptrs)))) (fun b hb => by
      rw [hblocks] at hb
      obtain ⟨j, hj, rfl⟩ := List.mem_map.mp hb
      rw [List.mem_range'_1] at hj
      exact ⟨0, j, hdata j (by omega), rfl⟩)
  rw [Inode.removeFromPage, Inode.removeBlocks, hfs']
  rw [hblocks] at hf
  have hcut := h.clearPage hd hleaf (Nat.le_add_right _ start) (by omega)
    (fun j _ hj => hdata j hj) (fun r' j _ hr => absurd hr (Nat.succ_ne_zero r')) hf
    (fun i => if start ≤ i ∧ i < start + count then 0 else fs.page (node 1 (x / inode.fs.ptrs)) i)
    (fun o h₁ h₂ => if_pos (by omega)) (fun o hno => by rw [if_neg (by omega), hf.page])
  exact ⟨_, _, rfl, hcut.congr fun r j => trimmed_one (by omega)⟩

theorem removeLeaf_cuts (hd : 0 < inode.depth) (s : Inode.Truncating)
    (h : Cuts inode live₀ node s.inode.fs s.inode.blockdir
      (upTo inode.fs.ptrs inode.depth (x + 1)) gone) :
    ∃ s' gone', Inode.removeLeaf s (x / inode.fs.ptrs ^ inode.depth) (node 1 (x / inode.fs.ptrs))
        (x % inode.fs.ptrs) ((List.range' 1 (inode.depth - 1)).map (level node inode.fs.ptrs x)) =
          some s' ∧
      s'.inode = { s.inode with fs := s'.inode.fs, blockdir := s'.inode.blockdir } ∧
      s'.iblock = minus s.iblock (x % inode.fs.ptrs + 1) ∧
      s'.blocksleft = s.blocksleft - (x % inode.fs.ptrs + 1) ∧
      Cuts inode live₀ node s'.inode.fs s'.inode.blockdir
        (upTo inode.fs.ptrs inode.depth (x / inode.fs.ptrs * inode.fs.ptrs)) gone' := by
  have hB := inode.fs.ptrs_pos
  obtain ⟨fs₁, gone₁, hfs₁, h₁⟩ := removeFromPage_cuts hbase hd
    (Nat.zero_add (x % inode.fs.ptrs + 1)) h
  obtain ⟨fs₂, hfs₂, hf₂⟩ := h₁.freeBlocks hbase [node 1 (x / inode.fs.ptrs ^ 1)] (fun b hb => by
    rw [List.mem_singleton] at hb
    exact ⟨1, _, trimmed_here hd, hb.symm⟩)
  obtain ⟨fs₃, all, hfs₃, h₃⟩ := removeUp_cuts hbase (inode.depth - 1) 1 (by omega)
    (by rw [Nat.pow_one, Nat.add_zero]) h₁ hf₂
  rw [Nat.pow_one] at hfs₂
  rw [Inode.removeLeaf, hfs₁, Option.bind_some, hfs₂, Option.bind_some, hfs₃, Option.map_some]
  cases all with
  | false =>
    obtain ⟨gone', h₃⟩ := h₃
    refine ⟨_, gone', rfl, rfl, rfl, rfl, ?_⟩
    simpa using h₃
  | true =>
    obtain ⟨fs₄, gone₄, heq, h₄, hf₄⟩ := h₃
    have hslot : (((List.range' 1 (inode.depth - 1)).map (level node inode.fs.ptrs x)).getLast?.map
        Prod.snd).getD 0 = 0 := by
      cases hlast : ((List.range' 1 (inode.depth - 1)).map (level node inode.fs.ptrs x)).getLast? with
      | none => rfl
      | some a => exact removeUp_all hfs₃ a (List.mem_of_getLast? hlast)
    have hcut := h₄.clearTop (x / inode.fs.ptrs ^ inode.depth)
      (update s.inode.blockdir (x / inode.fs.ptrs ^ inode.depth) 0)
      (fun j h₁ h₂ => by
        obtain rfl : j = x / inode.fs.ptrs ^ inode.depth := by omega
        exact trimmed_here le_rfl)
      (fun r' j hl hr => trimmed_child heq hl hr) (by simpa using hf₄)
      (fun j h₁ h₂ => by
        obtain rfl : j = x / inode.fs.ptrs ^ inode.depth := by omega
        rw [update_self])
      (fun j hno => by
        rw [update_of_ne]
        omega)
    replace hcut := hcut.congr fun r j => trimmed_top.symm.trans (trimmed_succ hB heq)
    rw [if_pos ⟨rfl, hslot⟩]
    exact ⟨_, _, rfl, rfl, rfl, rfl, hcut⟩

end Round

/-- The loop has the first `c` blocks left and stops at `m`. -/
structure Remaining (inode : Inode) (live₀ : ℕ → ℕ → Prop) (node : ℕ → ℕ → ℕ) (m c : ℕ)
    (s : Inode.Truncating) (gone : List (ℕ × ℕ)) : Prop where
  cuts : Cuts inode live₀ node s.inode.fs s.inode.blockdir (upTo inode.fs.ptrs inode.depth c) gone
  same : s.inode = { inode with fs := s.inode.fs, blockdir := s.inode.blockdir }
  le : m ≤ c
  blocksleft : s.blocksleft = c - m
  iblock : m < c → s.iblock + 1 = c

theorem Cuts.levels {x : ℕ}
    (h : Cuts inode live₀ node fs top (upTo inode.fs.ptrs inode.depth (x + 1)) gone)
    (hd : 0 < inode.depth) (buf : ℕ → Option ℕ) :
    x / inode.fs.ptrs ^ inode.depth < topBlockdirSize ∧
      (Inode.loadLevels fs.page buf 1 (top (x / inode.fs.ptrs ^ inode.depth))
        (path inode.fs.ptrs inode.depth x)).2.reverse =
      (node 1 (x / inode.fs.ptrs), x % inode.fs.ptrs) ::
        (List.range' 1 (inode.depth - 1)).map (level node inode.fs.ptrs x) := by
  have hlive (r : ℕ) (hr : r ≤ inode.depth) :
      upTo inode.fs.ptrs inode.depth (x + 1) r (x / inode.fs.ptrs ^ r) :=
    upTo_div (Nat.lt_succ_self x) hr
  obtain ⟨hlt, htop⟩ := h.tree.top_live _ (hlive _ le_rfl)
  refine ⟨hlt, ?_⟩
  have hslot (r : ℕ) (hr : r < inode.depth) :
      fs.page (node (r + 1) (x / inode.fs.ptrs ^ (r + 1))) (x / inode.fs.ptrs ^ r % inode.fs.ptrs) =
        node r (x / inode.fs.ptrs ^ r) := by
    rw [div_pow_succ]
    exact h.tree.page_live r _ (hlive r hr.le) hr
  obtain ⟨d, hdepth⟩ := Nat.exists_eq_succ_of_ne_zero hd.ne'
  rw [htop, loadLevels_eq hslot buf 1 _ le_rfl, hdepth, List.range'_succ,
    List.map_cons, level]
  simp

theorem Remaining.step {m c : ℕ} {s : Inode.Truncating}
    (hbase : ∀ r j, live₀ r j → inode.fs.InGroup (node r j))
    (hfit : inode.depth * inode.fs.logBlkptrsPerBlock < 32) (hd : 0 < inode.depth)
    (h : Remaining inode live₀ node m c s gone) (hm : m < c) :
    ∃ s' c' gone', Inode.truncateStep s = some s' ∧ c' < c ∧
      Remaining inode live₀ node m c' s' gone' := by
  obtain ⟨hcuts, hsame, -, hleft, hiblock⟩ := h
  obtain ⟨x, rfl⟩ : ∃ x, c = x + 1 := ⟨c - 1, by omega⟩
  obtain rfl : x = s.iblock := by omega
  have hdepth : s.inode.depth = inode.depth := by rw [hsame]
  have hlog := hcuts.layout.log
  have hptrs : s.inode.fs.ptrs = inode.fs.ptrs := congrArg (2 ^ ·) hlog
  have hfit' : s.inode.depth * s.inode.fs.logBlkptrsPerBlock < 32 := by
    rw [hdepth, hlog]
    exact hfit
  have hx := Nat.div_add_mod' s.iblock inode.fs.ptrs
  obtain ⟨hlt, hlevels⟩ := hcuts.levels hd s.buf
  rw [Inode.truncateStep, splitLevels_eq hfit' s.iblock, hptrs, hdepth]
  dsimp only
  rw [if_neg (not_le.mpr hlt), hlevels]
  dsimp only
  by_cases hwhole : s.iblock % inode.fs.ptrs < s.blocksleft
  · rw [if_pos hwhole]
    obtain ⟨s', gone', hs', hsame', hi, hl, hcut⟩ := removeLeaf_cuts hbase hd
      { s with buf := (Inode.loadLevels s.inode.fs.page s.buf 1
        (s.inode.blockdir (s.iblock / inode.fs.ptrs ^ inode.depth))
        (path inode.fs.ptrs inode.depth s.iblock)).1 } hcuts
    refine ⟨s', _, gone', hs', by omega, hcut, ?_, by omega, ?_, fun hm' => ?_⟩
    · rw [hsame', hsame]
    · rw [hl]
      dsimp only
      omega
    · rw [hi]
      dsimp only
      rw [minus_of_le (by omega)]
      omega
  · rw [if_neg hwhole]
    obtain ⟨fs', gone', hfs', hcut⟩ := removeFromPage_cuts hbase hd
      (show s.iblock % inode.fs.ptrs + 1 - s.blocksleft + s.blocksleft =
        s.iblock % inode.fs.ptrs + 1 by omega) hcuts
    rw [hfs']
    have hstart : s.iblock / inode.fs.ptrs * inode.fs.ptrs +
        (s.iblock % inode.fs.ptrs + 1 - s.blocksleft) = m := by omega
    rw [hstart] at hcut
    refine ⟨_, m, gone', rfl, by omega, ⟨?_, ?_, le_rfl, ?_, fun hm' => absurd hm' (lt_irrefl m)⟩⟩
    · refine hcut.congr fun r j => (trimmed_of_lt inode.fs.ptrs_pos ?_).symm
      rw [Nat.pow_one]
      omega
    · rw [hsame]
    · rw [Nat.sub_self]

theorem Remaining.loop {m c : ℕ} {s : Inode.Truncating}
    (hbase : ∀ r j, live₀ r j → inode.fs.InGroup (node r j))
    (hfit : inode.depth * inode.fs.logBlkptrsPerBlock < 32) (hd : 0 < inode.depth) (k : ℕ)
    (hk : c - m ≤ k) (h : Remaining inode live₀ node m c s gone) :
    ∃ inode' gone', Inode.truncateLoop k s = some inode' ∧
      inode' = { inode with fs := inode'.fs, blockdir := inode'.blockdir } ∧
      Cuts inode live₀ node inode'.fs inode'.blockdir (upTo inode.fs.ptrs inode.depth m) gone' := by
  induction k generalizing c s gone with
  | zero =>
    obtain rfl : c = m := le_antisymm (by omega) h.le
    exact ⟨s.inode, gone, rfl, h.same, h.cuts⟩
  | succ k ih =>
    rw [Inode.truncateLoop]
    by_cases hm : m < c
    · have hleft : s.blocksleft ≠ 0 := by
        rw [h.blocksleft]
        omega
      obtain ⟨s', c', gone', hs', hlt, h'⟩ := h.step hbase hfit hd hm
      rw [if_neg hleft, hs']
      exact ih (by omega) h'
    · obtain rfl : c = m := le_antisymm (by omega) h.le
      have hleft : s.blocksleft = 0 := by rw [h.blocksleft, Nat.sub_self]
      rw [if_pos hleft]
      exact ⟨s.inode, gone, rfl, h.same, h.cuts⟩

/-! The whole function. -/

/-- `next` is the file with the first `m` of its `n` blocks. The nodes that lead to none of them were
freed, each of them once. -/
structure Inode.Drops (inode : Inode) (n : ℕ) (node : ℕ → ℕ → ℕ) (next : Inode) (m : ℕ) : Prop where
  wellFormed : next.WellFormed m node
  get : ∀ i, i < m → next.getInodeBlock i = inode.getInodeBlock i
  freed : ∃ bs, next.fs.freed = bs ++ inode.fs.freed ∧ bs.Nodup ∧
    (∀ x, x ∈ bs ↔ ∃ r j, upTo inode.fs.ptrs inode.depth n r j ∧
      ¬ upTo inode.fs.ptrs inode.depth m r j ∧ node r j = x) ∧
    ∀ x, next.fs.used x = if x ∈ bs then false else inode.fs.used x
  depth : m = 0 → next.depth = 0

namespace Inode.WellFormed
variable {m : ℕ}

theorem cuts_self (h : inode.WellFormed n node) :
    Cuts inode (upTo inode.fs.ptrs inode.depth n) node inode.fs inode.blockdir
      (upTo inode.fs.ptrs inode.depth n) [] :=
  ⟨h.tree, fun _ _ hl => hl, h.ok, SameLayout.refl _, fun _ => rfl, rfl, List.nodup_nil,
    fun _ _ => ⟨fun hmem => absurd hmem List.not_mem_nil, fun hl => absurd hl.1 hl.2⟩⟩

theorem freed_iff (hcut : Cuts inode (upTo inode.fs.ptrs inode.depth n) node fs top
      (upTo inode.fs.ptrs inode.depth m) gone) (x : ℕ) :
    x ∈ gone.map (fun a => node a.1 a.2) ↔ ∃ r j, upTo inode.fs.ptrs inode.depth n r j ∧
      ¬ upTo inode.fs.ptrs inode.depth m r j ∧ node r j = x := by
  rw [List.mem_map]
  constructor
  · rintro ⟨⟨r, j⟩, hmem, hx⟩
    obtain ⟨hn, hnot⟩ := (hcut.mem r j).mp hmem
    exact ⟨r, j, hn, hnot, hx⟩
  · rintro ⟨r, j, hn, hnot, hx⟩
    exact ⟨(r, j), (hcut.mem r j).mpr ⟨hn, hnot⟩, hx⟩

section
variable (h : inode.WellFormed n node)
include h

theorem cut
    (hcut : Cuts inode (upTo inode.fs.ptrs inode.depth n) node fs top
      (upTo inode.fs.ptrs inode.depth m) gone) :
    Inode.WellFormed { inode with fs := fs, blockdir := top, blocks := m,
                                  depth := if m = 0 then 0 else inode.depth } m node := by
  have hptrs : fs.ptrs = inode.fs.ptrs := congrArg (2 ^ ·) hcut.layout.log
  have hgroup : inode.ino / fs.inodesPerGroup < fs.groupCount := by
    rw [hcut.layout.inodesPerGroup, hcut.layout.groupCount]
    exact h.inode_group
  rcases Nat.eq_zero_or_pos m with rfl | hpos
  · exact .empty hcut.ok hgroup rfl fun j hj => hcut.tree.top_dead j hj (not_upTo_zero _ _ _ _)
  · rw [if_neg hpos.ne']
    refine ⟨⟨?_, rfl⟩, hcut.ok, hgroup, ?_, ?_⟩
    · rw [hptrs]
      exact hcut.tree
    · intro r j hl
      rw [hptrs] at hl
      have hn := hcut.sub r j hl
      obtain ⟨hin, huse⟩ := h.in_use r j hn
      refine ⟨hcut.layout.inGroup.mpr hin, ?_⟩
      rw [hcut.used, if_neg, huse]
      rw [freed_iff hcut]
      rintro ⟨r', j', hn', hnot, heq⟩
      obtain ⟨rfl, rfl⟩ := h.distinct _ _ _ _ hn' hn heq
      exact hnot hl
    · intro r j r' j' hl hl' heq
      rw [hptrs] at hl hl'
      exact h.distinct _ _ _ _ (hcut.sub _ _ hl) (hcut.sub _ _ hl') heq

theorem drops (hle : m ≤ n)
    (hfit : inode.depth * inode.fs.logBlkptrsPerBlock < 32)
    (hcut : Cuts inode (upTo inode.fs.ptrs inode.depth n) node fs top
      (upTo inode.fs.ptrs inode.depth m) gone) :
    inode.Drops n node { inode with fs := fs, blockdir := top, blocks := m,
                                    depth := if m = 0 then 0 else inode.depth } m := by
  have hwf := h.cut hcut
  refine ⟨hwf, fun i hi => ?_, ⟨_, hcut.freed, ?_, fun x => ?_, fun x => ?_⟩, fun hm => if_pos hm⟩
  · rw [hwf.getInodeBlock hi, h.getInodeBlock (hi.trans_le hle) hfit]
    rw [if_neg (by omega), hcut.layout.log]
    exact hfit
  · rw [List.nodup_reverse]
    refine hcut.nodup.map_on ?_
    rintro ⟨r, j⟩ hmem ⟨r', j'⟩ hmem' heq
    obtain ⟨rfl, rfl⟩ := h.distinct _ _ _ _ ((hcut.mem _ _).mp hmem).1 ((hcut.mem _ _).mp hmem').1 heq
    rfl
  · rw [List.mem_reverse, freed_iff hcut]
  · simp only [List.mem_reverse]
    exact hcut.used x

theorem base (r j : ℕ) (hl : upTo inode.fs.ptrs inode.depth n r j) :
    inode.fs.InGroup (node r j) := (h.in_use r j hl).1

theorem removeBlocks_cuts (hle : m ≤ n) (hd : inode.depth = 0) :
    ∃ fs top gone, Inode.removeBlocks inode.fs inode.blockdir m (n - m) = some (fs, top) ∧
      Cuts inode (upTo inode.fs.ptrs inode.depth n) node fs top
        (upTo inode.fs.ptrs inode.depth m) gone := by
  have hdata (j : ℕ) (hj : j < n) : upTo inode.fs.ptrs inode.depth n inode.depth j := by
    refine ⟨le_rfl, ?_⟩
    rw [hd, Nat.pow_zero, Nat.mul_one]
    exact hj
  have hblocks : (List.range' m (n - m)).map inode.blockdir =
      (List.range' m (n - m)).map (node inode.depth) := by
    refine List.map_congr_left fun j hj => ?_
    rw [List.mem_range'_1] at hj
    exact (h.tree.top_live j (hdata j (by omega))).2
  obtain ⟨fs', hfs', hf⟩ := h.cuts_self.freeBlocks h.base ((List.range' m (n - m)).map inode.blockdir)
    (fun b hb => by
      rw [hblocks] at hb
      obtain ⟨j, hj, rfl⟩ := List.mem_map.mp hb
      rw [List.mem_range'_1] at hj
      exact ⟨inode.depth, j, hdata j (by omega), rfl⟩)
  rw [Inode.removeBlocks, hfs']
  rw [hblocks] at hf
  have hcut := h.cuts_self.clearTop m
    (fun i => if m ≤ i ∧ i < m + (n - m) then 0 else inode.blockdir i) (fun j _ hj => hdata j hj)
    (fun r' j _ hr => absurd hr (by omega)) hf
    (fun j h₁ h₂ => if_pos (by omega)) (fun j hno => if_neg (by omega))
  refine ⟨fs', _, _, rfl, hcut.congr fun r j => ?_⟩
  rw [hd]
  exact trimmed_top.symm.trans (trimmed_one hle)

theorem truncateInode_cuts (hlt : m < n)
    (hfit : inode.depth * inode.fs.logBlkptrsPerBlock < 32) :
    ∃ fs top gone, inode.truncateInode m = some ({ inode with
        fs := fs, blockdir := top, blocks := m, depth := if m = 0 then 0 else inode.depth }, 0) ∧
      Cuts inode (upTo inode.fs.ptrs inode.depth n) node fs top (upTo inode.fs.ptrs inode.depth m)
        gone := by
  rw [Inode.truncateInode, h.blocks, if_neg (by omega), if_neg (by omega), if_neg (by omega)]
  by_cases hd : inode.depth = 0
  · obtain ⟨fs, top, gone, hrem, hcut⟩ := h.removeBlocks_cuts hlt.le hd
    have hdepth : (if m = 0 then 0 else inode.depth) = inode.depth := by
      rw [hd, ite_self]
    rw [if_pos hd, hrem, hdepth]
    exact ⟨fs, top, gone, rfl, hcut⟩
  · have hstart : Remaining inode (upTo inode.fs.ptrs inode.depth n) node m n
        ⟨inode, fun _ => none, n - 1, n - m⟩ [] :=
      ⟨h.cuts_self, rfl, hlt.le, rfl, fun _ => Nat.sub_add_cancel (by omega)⟩
    obtain ⟨inode', gone, hloop, hsame, hcut⟩ :=
      hstart.loop h.base hfit (Nat.pos_of_ne_zero hd) (n - m) le_rfl
    rw [if_neg hd]
    dsimp only
    rw [hloop, Option.map_some]
    refine ⟨inode'.fs, inode'.blockdir, gone, ?_, hcut⟩
    rw [hsame]

theorem truncateInode (hlt : m < n)
    (hfit : inode.depth * inode.fs.logBlkptrsPerBlock < 32) :
    ∃ next, inode.truncateInode m = some (next, 0) ∧ inode.Drops n node next m := by
  obtain ⟨fs, top, gone, hcall, hcut⟩ := h.truncateInode_cuts hlt hfit
  exact ⟨_, hcall, h.drops hlt.le hfit hcut⟩

end

end Inode.WellFormed

def deepNode (r _ : ℕ) : ℕ := 100 + r

def deepFile (d : ℕ) : Inode where
  fs :=
    { logBlkptrsPerBlock := 8
      blockCount := 8192
      blocksPerGroup := 8192
      inodesPerGroup := 1024
      groupCount := 1
      freeBlockCount := 7992
      groups := fun _ => ⟨8192, fun b => decide (b < 200), 7992, 200⟩
      page := fun p o => if o = 0 then p - 1 else 0
      freed := [] }
  ino := 8
  blocks := 1
  depth := d
  blockdir := fun i => if i = 0 then 100 + d else 0

theorem deepFile_live {d r j : ℕ} (hl : upTo (deepFile d).fs.ptrs (deepFile d).depth 1 r j) :
    r ≤ d ∧ j = 0 := by
  obtain ⟨hr, hlt⟩ := hl
  refine ⟨hr, ?_⟩
  have hpos : 0 < (deepFile d).fs.ptrs ^ r := Nat.pow_pos (deepFile d).fs.ptrs_pos
  rcases Nat.mul_eq_zero.mp (Nat.lt_one_iff.mp hlt) with h | h
  · exact h
  · omega

theorem deepFile_wellFormed {d : ℕ} (hd : d < 100) : (deepFile d).WellFormed 1 deepNode := by
  have hzero (r : ℕ) (hr : r ≤ d) : upTo (deepFile d).fs.ptrs (deepFile d).depth 1 r 0 :=
    ⟨hr, by simp⟩
  refine ⟨⟨⟨fun r j hl => hl.1, fun j hl => ?_, fun j _ hnot => ?_, fun r j hl hr => ?_,
    fun r j o hl _ hnot => ?_, fun r j hl hr => upTo_parent hl hr, fun r j r' j' hl hl' heq => ?_,
    fun r j _ => ?_⟩, rfl⟩, ⟨show 4 ≤ 8 by decide, show 0 < 8192 by decide, show 8192 < 2 ^ 32 by decide,
    fun g hg => ?_, fun g _ hne => ?_, rfl⟩, show 8 / 1024 < 1 by decide, fun r j hl => ?_, fun r j r' j' hl hl' heq => ?_⟩
  · obtain ⟨-, rfl⟩ := deepFile_live hl
    exact ⟨by decide, rfl⟩
  · refine if_neg fun hj => hnot ?_
    subst hj
    exact hzero d le_rfl
  · obtain ⟨-, rfl⟩ := deepFile_live hl
    rfl
  · obtain ⟨hr, rfl⟩ := deepFile_live hl
    refine if_neg fun ho => hnot ?_
    subst ho
    exact hzero r (by omega)
  · obtain ⟨-, rfl⟩ := deepFile_live hl
    obtain ⟨-, rfl⟩ := deepFile_live hl'
    rw [deepNode, deepNode] at heq
    exact ⟨by omega, rfl⟩
  · rw [deepNode]
    omega
  · obtain rfl : g = 0 := Nat.lt_one_iff.mp hg
    rfl
  · exact absurd (show 8192 % 32 = 0 by decide) hne
  · obtain ⟨hr, -⟩ := deepFile_live hl
    have hlt : 100 + r < 200 := by omega
    have hmod : (100 + r) % 8192 = 100 + r := Nat.mod_eq_of_lt (by omega)
    refine ⟨⟨?_, Nat.mod_lt _ (show 0 < 8192 by decide)⟩, ?_⟩
    · show (100 + r) / 8192 < 1
      omega
    · show decide ((100 + r) % 8192 < 200) = true
      rw [hmod, decide_eq_true_iff]
      exact hlt
  · obtain ⟨-, rfl⟩ := deepFile_live hl
    obtain ⟨-, rfl⟩ := deepFile_live hl'
    rw [deepNode, deepNode] at heq
    exact ⟨by omega, rfl⟩

end SimpleKernel.Dfs
