import SimpleKernel.Mem.RmapSpec

/-! When `rmap_status` tells the truth. The comparison `rtop < top` is strict, so a free range that
ends where its entry ends is reported as partly allocated; an entry that ends at `2 ^ 32` is never
found, because its end wraps to 0. -/
namespace SimpleKernel.Mem

open Intervals

namespace Entries

variable {l : List Slot} {x : Slot} {o s : UInt32} {A F : Set ℕ} {v : ℤ}

/-- The entries are sorted, not empty, disjoint and not adjacent, and lie in the 32-bit space. -/
structure WellFormed (l : List Slot) : Prop where
  separated : Separated Slot.lo Slot.len l
  bounds : ∀ x ∈ l, x.lo + x.len ≤ 2 ^ 32

theorem WellFormed.tail (h : WellFormed (x :: l)) : WellFormed l :=
  ⟨h.separated.tail, fun y hy => h.bounds y (List.mem_cons_of_mem _ hy)⟩

/-- `v` is the true status of the units `A` when those of `F` are free. -/
structure Exact (v : ℤ) (A F : Set ℕ) : Prop where
  free : v = 0 ↔ A ⊆ F
  allocated : v = 1 ↔ Disjoint A F
  partly : v = -1 ↔ ¬A ⊆ F ∧ ¬Disjoint A F

theorem not_disjoint (hA : A.Nonempty) (h : A ⊆ F) : ¬Disjoint A F := by
  obtain ⟨u, hu⟩ := hA
  exact fun hdis => Set.disjoint_left.mp hdis hu (h hu)

theorem exact_zero (hA : A.Nonempty) : Exact 0 A F ↔ A ⊆ F := by
  constructor
  · intro h
    exact h.free.mp rfl
  · intro h
    have hdis := not_disjoint hA h
    constructor <;> simp [h, hdis]

theorem exact_one (hA : A.Nonempty) : Exact 1 A F ↔ Disjoint A F := by
  constructor
  · intro h
    exact h.allocated.mp rfl
  · intro h
    have hsub : ¬A ⊆ F := fun hsub => not_disjoint hA hsub h
    constructor <;> simp [h, hsub]

theorem exact_partly : Exact (-1) A F ↔ ¬A ⊆ F ∧ ¬Disjoint A F := by
  constructor
  · intro h
    exact h.partly.mp rfl
  · intro h
    constructor <;> simp [h.1, h.2]

/-- The range starts in an entry of which it reaches the end exactly, or which ends at `2 ^ 32`. -/
def Misjudged (o s : UInt32) (l : List Slot) : Prop :=
  ∃ x ∈ l, x.lo ≤ o.toNat ∧ o.toNat < x.lo + x.len ∧
    (o.toNat + s.toNat = x.lo + x.len ∨ x.lo + x.len = 2 ^ 32)

instance : Decidable (Misjudged o s l) := by
  unfold Misjudged
  infer_instance

theorem misjudged_cons :
    Misjudged o s (x :: l) ↔
      (x.lo ≤ o.toNat ∧ o.toNat < x.lo + x.len ∧
        (o.toNat + s.toNat = x.lo + x.len ∨ x.lo + x.len = 2 ^ 32)) ∨ Misjudged o s l := by
  simp [Misjudged]

theorem WellFormed.not_mem (h : WellFormed (x :: l)) {u : ℕ} (hu : u ≤ x.lo + x.len) :
    u ∉ freeUnits l := by
  intro hmem
  have := h.separated.lt_of_mem hmem
  omega

theorem WellFormed.not_misjudged (h : WellFormed (x :: l)) (ho : o.toNat < x.lo + x.len) :
    ¬Misjudged o s l := by
  rintro ⟨y, hy, hlo, -, -⟩
  have := (separated_cons.mp h.separated).2.1 y hy
  omega

theorem exact_beyond (ho : x.lo + x.len ≤ o.toNat) :
    Exact v (span o.toNat s.toNat) (freeUnits (x :: l)) ↔
      Exact v (span o.toNat s.toNat) (freeUnits l) := by
  have hmem {u : ℕ} (hu : u ∈ span o.toNat s.toNat) :
      u ∈ freeUnits (x :: l) ↔ u ∈ freeUnits l := by
    rw [mem_span] at hu
    rw [mem_freeUnits_cons]
    constructor
    · rintro (hx | hrest)
      · omega
      · exact hrest
    · exact .inr
  have hsub : span o.toNat s.toNat ⊆ freeUnits (x :: l) ↔ span o.toNat s.toNat ⊆ freeUnits l :=
    forall₂_congr fun _ hu => hmem hu
  have hdis : Disjoint (span o.toNat s.toNat) (freeUnits (x :: l)) ↔
      Disjoint (span o.toNat s.toNat) (freeUnits l) := by
    rw [Set.disjoint_left, Set.disjoint_left]
    exact forall₂_congr fun _ hu => not_congr (hmem hu)
  constructor
  · rintro ⟨h0, h1, h2⟩
    exact ⟨by rw [h0, hsub], by rw [h1, hdis], by rw [h2, hsub, hdis]⟩
  · rintro ⟨h0, h1, h2⟩
    exact ⟨by rw [h0, hsub], by rw [h1, hdis], by rw [h2, hsub, hdis]⟩

section cons

variable (hl : WellFormed (x :: l)) (hs : 0 < s.toNat) (hos : o.toNat + s.toNat < 2 ^ 32)

include hl hs hos

theorem exact_below (ho : o < x.offset) :
    Exact (if x.offset < o + s then -1 else 1) (span o.toNat s.toNat) (freeUnits (x :: l)) := by
  have hpos := (separated_cons.mp hl.separated).1
  have hrtop : (o + s).toNat = o.toNat + s.toNat := toNat_add hos
  rw [UInt32.lt_iff_toNat_lt] at ho
  have hne : (span o.toNat s.toNat).Nonempty := ⟨o.toNat, by simpa using hs⟩
  have hfirst : o.toNat ∉ freeUnits (x :: l) := by
    intro hmem
    rcases mem_freeUnits_cons.mp hmem with hx | hrest
    · simp only [Slot.lo] at hx
      omega
    · apply hl.not_mem _ hrest
      simp only [Slot.lo]
      omega
  split
  · next hlt =>
    rw [UInt32.lt_iff_toNat_lt] at hlt
    rw [exact_partly]
    constructor
    · intro hsub
      exact hfirst (hsub (by simpa using hs))
    · intro hdis
      have hspan : x.lo ∈ span o.toNat s.toNat := by
        simp only [mem_span, Slot.lo]
        omega
      apply Set.disjoint_left.mp hdis hspan
      exact mem_freeUnits_cons.mpr (.inl ⟨le_rfl, by omega⟩)
  · next hle =>
    rw [UInt32.lt_iff_toNat_lt] at hle
    rw [exact_one hne, Set.disjoint_left]
    intro u hu hfree
    rw [mem_span] at hu
    rcases mem_freeUnits_cons.mp hfree with hx | hrest
    · simp only [Slot.lo] at hx
      omega
    · apply hl.not_mem _ hrest
      simp only [Slot.lo]
      omega

/-- The range starts in the first entry, which does not end at `2 ^ 32`: only the strict comparison
goes wrong. -/
theorem exact_inside (hlo : x.lo ≤ o.toNat) (ho : o.toNat < x.lo + x.len)
    (htop : x.lo + x.len < 2 ^ 32) :
    Exact (if o + s < x.offset + x.size then 0 else -1) (span o.toNat s.toNat)
      (freeUnits (x :: l)) ↔ o.toNat + s.toNat ≠ x.lo + x.len := by
  have hend : (x.offset + x.size).toNat = x.lo + x.len := toNat_add htop
  have hrtop : (o + s).toNat = o.toNat + s.toNat := toNat_add hos
  have hne : (span o.toNat s.toNat).Nonempty := ⟨o.toNat, by simpa using hs⟩
  have hfits (h : o.toNat + s.toNat ≤ x.lo + x.len) :
      span o.toNat s.toNat ⊆ freeUnits (x :: l) := by
    intro u hu
    rw [mem_span] at hu
    exact mem_freeUnits_cons.mpr (.inl (by omega))
  split
  · next hlt =>
    rw [UInt32.lt_iff_toNat_lt, hend, hrtop] at hlt
    have hsub := hfits hlt.le
    simp only [exact_zero hne, hsub, true_iff]
    omega
  · next hge =>
    rw [UInt32.lt_iff_toNat_lt] at hge
    rw [exact_partly]
    constructor
    · rintro ⟨hout, -⟩ heq
      exact hout (hfits heq.le)
    · intro hover
      constructor
      -- the first unit behind the entry is allocated
      · intro hsub
        have hbehind : x.lo + x.len ∈ span o.toNat s.toNat := by
          rw [mem_span]
          omega
        rcases mem_freeUnits_cons.mp (hsub hbehind) with hx | hrest
        · omega
        · exact hl.not_mem le_rfl hrest
      -- its own first unit is free
      · intro hdis
        have hfirst : o.toNat ∈ span o.toNat s.toNat := by simpa using hs
        exact Set.disjoint_left.mp hdis hfirst (mem_freeUnits_cons.mpr (.inl ⟨hlo, ho⟩))

/-- The range starts in an entry that ends at `2 ^ 32`: nothing lies behind it, and the range is
reported as allocated. -/
theorem not_exact_last (hlo : x.lo ≤ o.toNat) (htop : x.lo + x.len = 2 ^ 32) :
    ¬Exact (status o s l) (span o.toNat s.toNat) (freeUnits (x :: l)) := by
  have hnil : l = [] := by
    cases l with
    | nil => rfl
    | cons y l =>
      have hlt := (separated_cons.mp hl.separated).2.1 y List.mem_cons_self
      have hle := hl.bounds y (by simp)
      omega
  subst hnil
  have hne : (span o.toNat s.toNat).Nonempty := ⟨o.toNat, by simpa using hs⟩
  rw [status, exact_one hne]
  apply not_disjoint hne
  intro u hu
  rw [mem_span] at hu
  exact mem_freeUnits_cons.mpr (.inl (by omega))

end cons

theorem status_exact (hl : WellFormed l) (hs : 0 < s.toNat) (hos : o.toNat + s.toNat < 2 ^ 32) :
    Exact (status o s l) (span o.toNat s.toNat) (freeUnits l) ↔ ¬Misjudged o s l := by
  induction l with
  | nil =>
    have hne : (span o.toNat s.toNat).Nonempty := ⟨o.toNat, by simpa using hs⟩
    simp [status, exact_one hne, Misjudged]
  | cons x l ih =>
    have hbound := hl.bounds x List.mem_cons_self
    have hoff : x.offset.toNat = x.lo := rfl
    rw [misjudged_cons, status]
    split
    · next hlt =>
      have hgood := exact_below hl hs hos hlt
      rw [UInt32.lt_iff_toNat_lt] at hlt
      have hrest : ¬Misjudged o s l := hl.not_misjudged (by omega)
      simp only [hgood, hrest, or_false, true_iff]
      omega
    next hge =>
    rw [UInt32.lt_iff_toNat_lt] at hge
    have hlo : x.lo ≤ o.toNat := by omega
    have hin : (x.offset ≤ o ∧ o < x.offset + x.size) ↔ o.toNat < (x.offset + x.size).toNat := by
      rw [UInt32.le_iff_toNat_le, UInt32.lt_iff_toNat_lt]
      omega
    simp only [hin]
    by_cases htop : x.lo + x.len = 2 ^ 32
    · -- the end of the entry wraps to 0
      have hwrap : (x.offset + x.size).toNat = 0 := by
        rw [UInt32.toNat_add]
        simp only [Slot.len] at htop
        omega
      rw [if_pos (by omega)]
      have hwrong := not_exact_last hl hs hos hlo htop
      simp only [hwrong, false_iff, not_not]
      exact .inl ⟨hlo, by omega, .inr htop⟩
    · have hend : (x.offset + x.size).toNat = x.lo + x.len := toNat_add (by
        simp only [Slot.len] at htop hbound
        omega)
      rw [hend]
      by_cases ho : o.toNat < x.lo + x.len
      · have hrest : ¬Misjudged o s l := hl.not_misjudged ho
        rw [if_neg (by omega), exact_inside hl hs hos hlo ho (by omega)]
        simp only [hlo, ho, htop, hrest, true_and, or_false]
      · rw [if_pos ho, exact_beyond (by omega), ih hl.tail]
        simp only [ho, false_and, and_false, false_or]

end Entries

open Entries

variable {m : Rmap} {o s : UInt32}

/-- `rmap_status` of a well-formed map is exact unless the range starts in an entry of which it
reaches the end exactly, or which ends at `2 ^ 32`. -/
theorem rmapStatus_exact_iff (hm : WellFormed m.entries) (hs : 0 < s.toNat)
    (hos : o.toNat + s.toNat < 2 ^ 32) :
    Exact (m.rmapStatus o s) (span o.toNat s.toNat) (freeUnits m.entries) ↔
      ¬Misjudged o s m.entries := by
  rw [Rmap.rmapStatus_eq]
  exact status_exact hm hs hos

/-- A map with the four free units from 16 on. -/
def fourFree : Rmap := ⟨fun r => if r = 0 then ⟨1, 4⟩ else ⟨16, 4⟩, 0⟩

theorem fourFree_entries : fourFree.entries = [⟨16, 4⟩] := rfl

theorem fourFree_wellFormed : WellFormed fourFree.entries := by
  rw [fourFree_entries]
  constructor
  · simp [Separated, Slot.len]
  · simp [Slot.lo, Slot.len]

/-- The first three of the four units. -/
theorem rmapStatus_exact_three :
    (WellFormed fourFree.entries ∧ (16 : UInt32).toNat + (3 : UInt32).toNat < 2 ^ 32) ∧
      Exact (fourFree.rmapStatus 16 3) (span (16 : UInt32).toNat (3 : UInt32).toNat)
        (freeUnits fourFree.entries) := by
  refine ⟨⟨fourFree_wellFormed, by decide⟩, ?_⟩
  apply (rmapStatus_exact_iff fourFree_wellFormed (by decide) (by decide)).mpr
  decide

/-- All four units are free, and the range that holds just these is reported as partly
allocated. -/
theorem rmapStatus_whole_entry :
    WellFormed fourFree.entries ∧ span 16 4 ⊆ freeUnits fourFree.entries ∧
      fourFree.rmapStatus 16 4 = -1 := by
  refine ⟨fourFree_wellFormed, ?_, rfl⟩
  intro u hu
  rw [fourFree_entries, mem_freeUnits_singleton]
  exact hu

end SimpleKernel.Mem
