import Mathlib.Algebra.Group.Nat.Defs
import Mathlib.Algebra.Group.Int.Defs
import SimpleKernel.Mem.RmapLists
import SimpleKernel.Lib.Intervals

/-! What each operation of a resource map does to the set of its free units. -/
namespace SimpleKernel.Mem

open Intervals

/-- The first unit of an entry. -/
def Slot.lo (x : Slot) : ℕ := x.offset.toNat

/-- The number of units of an entry. -/
def Slot.len (x : Slot) : ℕ := x.size.toNat

namespace Entries

variable {l l' : List Slot} {x y : Slot} {o s i k : UInt32} {full : Bool} {u : ℕ}

/-- The free units. -/
def freeUnits (l : List Slot) : Set ℕ := units Slot.lo Slot.len l

/-- The entries are sorted, not empty, disjoint and not adjacent; none of them starts at 0 or
reaches the end of the 32-bit space. -/
structure Good (l : List Slot) : Prop where
  separated : Separated Slot.lo Slot.len l
  bounds : ∀ x ∈ l, 0 < x.lo ∧ x.lo + x.len < 2 ^ 32

theorem Good.nil : Good [] := ⟨separated_nil, by simp⟩

theorem Good.tail (h : Good (x :: l)) : Good l :=
  ⟨h.separated.tail, fun y hy => h.bounds y (List.mem_cons_of_mem _ hy)⟩

theorem Good.head (h : Good (x :: l)) : 0 < x.len ∧ 0 < x.lo ∧ x.lo + x.len < 2 ^ 32 :=
  ⟨(separated_cons.mp h.separated).1, h.bounds x List.mem_cons_self⟩

theorem Good.lt_of_mem (h : Good (x :: l)) (hu : u ∈ freeUnits l) : x.lo + x.len < u :=
  h.separated.lt_of_mem hu

theorem Good.replace (h : Good (x :: l)) (hpos : 0 < y.len) (hlo : 0 < y.lo)
    (hend : y.lo + y.len ≤ x.lo + x.len) : Good (y :: l) := by
  refine ⟨h.separated.replace hpos hend, fun z hz => ?_⟩
  have hx := h.head
  rcases List.mem_cons.mp hz with rfl | hz
  · exact ⟨hlo, by omega⟩
  · exact h.bounds z (List.mem_cons_of_mem _ hz)

theorem Good.cons (h : Good l) (hpos : 0 < y.len) (hlo : 0 < y.lo) (hend : y.lo + y.len < 2 ^ 32)
    (hlt : ∀ x ∈ l, y.lo + y.len < x.lo) : Good (y :: l) := by
  refine ⟨separated_cons.mpr ⟨hpos, hlt, h.separated⟩, fun z hz => ?_⟩
  rcases List.mem_cons.mp hz with rfl | hz
  · exact ⟨hlo, hend⟩
  · exact h.bounds z hz

theorem Good.lt_head (h : Good (x :: l)) (hy : y ∈ l) : x.lo + x.len < y.lo :=
  (separated_cons.mp h.separated).2.1 y hy

theorem mem_freeUnits_cons :
    u ∈ freeUnits (x :: l) ↔ (x.lo ≤ u ∧ u < x.lo + x.len) ∨ u ∈ freeUnits l :=
  mem_units_cons

@[simp] theorem freeUnits_nil : freeUnits [] = ∅ := units_nil

theorem mem_freeUnits_singleton : u ∈ freeUnits [x] ↔ x.lo ≤ u ∧ u < x.lo + x.len := by
  simp [mem_freeUnits_cons]

theorem Good.lo_mem (h : Good l) (hx : x ∈ l) : x.lo ∈ freeUnits l := by
  have := h.separated.1 x hx
  exact ⟨x, hx, le_rfl, by omega⟩

/-- The free units determine the entries. -/
theorem Good.ext (h : Good l) (h' : Good l') (heq : freeUnits l = freeUnits l') : l = l' := by
  refine h.separated.ext (fun x y hlo hlen => ?_) h'.separated heq
  cases x
  cases y
  rw [Slot.mk.injEq]
  exact ⟨UInt32.toNat.inj hlo, UInt32.toNat.inj hlen⟩

theorem Good.span_bounds (h : Good l) {a n : ℕ} (hn : 0 < n) (hsub : span a n ⊆ freeUnits l) :
    0 < a ∧ a + n < 2 ^ 32 := by
  obtain ⟨x, hx, hlo, -⟩ := hsub (mem_span.mpr ⟨le_rfl, by omega⟩ : a ∈ span a n)
  obtain ⟨y, hy, -, hend⟩ := hsub (mem_span.mpr ⟨by omega, by omega⟩ : a + n - 1 ∈ span a n)
  have := (h.bounds x hx).1
  have := (h.bounds y hy).2
  simp only [Slot.lo, Slot.len] at *
  omega

/-! Machine arithmetic on the fields of an entry. -/

theorem toNat_add {a b : UInt32} (h : a.toNat + b.toNat < 2 ^ 32) :
    (a + b).toNat = a.toNat + b.toNat := by
  rw [UInt32.toNat_add]
  omega

theorem toNat_sub {a b : UInt32} (h : b.toNat ≤ a.toNat) : (a - b).toNat = a.toNat - b.toNat :=
  UInt32.toNat_sub_of_le a b (UInt32.le_iff_toNat_le.mpr h)

theorem Good.cons_of_lt (h : Good (x :: l)) (h' : Good l')
    (hlt : ∀ u ∈ freeUnits l', x.lo + x.len < u) : Good (x :: l') :=
  h'.cons h.head.1 h.head.2.1 h.head.2.2 fun _ hy => hlt _ (h'.lo_mem hy)

theorem freeUnits_head (mid : List Slot) {R : Set ℕ} (hl : Good (x :: l))
    (hR : ∀ u ∈ R, u < x.lo + x.len)
    (hmid : ∀ u, u ∈ freeUnits mid ↔ (x.lo ≤ u ∧ u < x.lo + x.len) ∧ u ∉ R) :
    freeUnits (mid ++ l) = freeUnits (x :: l) \ R := by
  have happ : ∀ u, u ∈ freeUnits (mid ++ l) ↔ u ∈ freeUnits mid ∨ u ∈ freeUnits l := by
    simp [freeUnits, units, or_and_right, exists_or]
  ext u
  rw [happ, hmid, Set.mem_sdiff, mem_freeUnits_cons]
  by_cases hu : u ∈ freeUnits l
  · have hnot : u ∉ R := fun h => by
      have := hl.lt_of_mem hu
      have := hR u h
      omega
    simp [hnot]
  · simp [hu]

theorem freeUnits_tail {R : Set ℕ} (hl : Good (x :: l)) (hR : R ⊆ freeUnits l)
    (h : freeUnits l' = freeUnits l \ R) : freeUnits (x :: l') = freeUnits (x :: l) \ R := by
  ext u
  rw [Set.mem_sdiff, mem_freeUnits_cons, mem_freeUnits_cons, h, Set.mem_sdiff]
  by_cases hu : u ∈ R
  · have := hl.lt_of_mem (hR hu)
    simp only [hu, not_true_eq_false, and_false, or_false, iff_false]
    omega
  · simp [hu]

theorem alloc_spec (hl : Good l) (hs : 0 < s.toNat) (h : alloc s l = some (i, l')) :
    Good l' ∧ 0 < i.toNat ∧ i.toNat + s.toNat < 2 ^ 32 ∧ span i.toNat s.toNat ⊆ freeUnits l ∧
      freeUnits l' = freeUnits l \ span i.toNat s.toNat ∧ l'.length ≤ l.length := by
  induction l generalizing l' with
  | nil => simp [alloc] at h
  | cons x l ih =>
    obtain ⟨hpos, hlo, hend⟩ := hl.head
    simp only [alloc] at h
    simp only [Slot.lo, Slot.len] at hpos hlo hend
    split at h
    · next hfit =>
      rw [UInt32.le_iff_toNat_le] at hfit
      obtain ⟨rfl, rfl⟩ := Prod.mk.inj (Option.some.inj h)
      have hsub : span x.offset.toNat s.toNat ⊆ freeUnits (x :: l) := by
        intro u hu
        rw [mem_span] at hu
        exact mem_freeUnits_cons.mpr (.inl ⟨hu.1, by simp only [Slot.lo, Slot.len]; omega⟩)
      have hR : ∀ u ∈ span x.offset.toNat s.toNat, u < x.lo + x.len := by
        intro u hu
        simp only [mem_span] at hu
        simp only [Slot.lo, Slot.len]
        omega
      split
      · next hlt =>
        rw [UInt32.lt_iff_toNat_lt] at hlt
        have hoff : (x.offset + s).toNat = x.offset.toNat + s.toNat := toNat_add (by omega)
        have hsize : (x.size - s).toNat = x.size.toNat - s.toNat := toNat_sub hfit
        refine ⟨hl.replace ?_ ?_ ?_, hlo, by omega, hsub, ?_, by simp⟩
        · simp only [Slot.len]
          omega
        · simp only [Slot.lo]
          omega
        · simp only [Slot.lo, Slot.len]
          omega
        · apply freeUnits_head [_] hl hR
          simp only [mem_freeUnits_singleton, Slot.lo, Slot.len, mem_span]
          omega
      · next hle =>
        rw [UInt32.lt_iff_toNat_lt] at hle
        refine ⟨hl.tail, hlo, by omega, hsub, ?_, by simp⟩
        apply freeUnits_head [] hl hR
        simp only [Slot.lo, Slot.len, mem_span, freeUnits_nil, Set.mem_empty_iff_false, false_iff]
        omega
    · cases hrest : alloc s l with
      | none => simp [hrest] at h
      | some p =>
        rw [hrest] at h
        obtain ⟨rfl, rfl⟩ := Prod.mk.inj (Option.some.inj h)
        obtain ⟨hg, hi, hie, hsub, hfree, hlen⟩ := ih hl.tail hrest
        refine ⟨hl.cons_of_lt hg fun u hu => ?_, hi, hie, ?_, freeUnits_tail hl hsub hfree,
          by simpa using hlen⟩
        · rw [hfree] at hu
          exact hl.lt_of_mem hu.1
        · intro u hu
          exact mem_freeUnits_cons.mpr (.inr (hsub hu))

/-- What a successful `reserve` gives: the range was free and is taken out, together with the
`k` units that a full table gives up. -/
structure Reserved (full : Bool) (o s : UInt32) (l l' : List Slot) (k : UInt32) : Prop where
  good : Good l'
  free : span o.toNat s.toNat ⊆ freeUnits l
  length : l'.length ≤ l.length + (if full then 0 else 1)
  kept : full = false → k = 0
  units : ∃ a, span a k.toNat ⊆ freeUnits l ∧
    Disjoint (span a k.toNat) (span o.toNat s.toNat) ∧
    freeUnits l' = freeUnits l \ (span o.toNat s.toNat ∪ span a k.toNat)

theorem Reserved.head (mid : List Slot) (hl : Good (x :: l)) (hlo : x.lo ≤ o.toNat)
    (hend : o.toNat + s.toNat ≤ x.lo + x.len) (hg : Good (mid ++ l))
    (hlen : mid.length ≤ 1 + (if full then 0 else 1))
    (hmid : ∀ u, u ∈ freeUnits mid ↔ (x.lo ≤ u ∧ u < x.lo + x.len) ∧ u ∉ span o.toNat s.toNat) :
    Reserved full o s (x :: l) (mid ++ l) 0 := by
  have hsub : span o.toNat s.toNat ⊆ freeUnits (x :: l) := by
    intro u hu
    rw [mem_span] at hu
    exact mem_freeUnits_cons.mpr (.inl (by omega))
  refine ⟨hg, hsub, ?_, fun _ => rfl, 0, by simp, by simp, ?_⟩
  · simp only [List.length_append, List.length_cons]
    omega
  · simp only [UInt32.toNat_zero, span_zero, Set.union_empty]
    refine freeUnits_head mid hl (fun u hu => ?_) hmid
    rw [mem_span] at hu
    omega

theorem Reserved.tail (hl : Good (x :: l)) (h : Reserved full o s l l' k) :
    Reserved full o s (x :: l) (x :: l') k := by
  obtain ⟨hg, hsub, hlen, hk, a, ha, hdis, hfree⟩ := h
  have hboth : span o.toNat s.toNat ∪ span a k.toNat ⊆ freeUnits l := Set.union_subset hsub ha
  refine ⟨hl.cons_of_lt hg fun u hu => ?_, fun u hu => ?_, ?_, hk, a, fun u hu => ?_, hdis,
    freeUnits_tail hl hboth hfree⟩
  · rw [hfree] at hu
    exact hl.lt_of_mem hu.1
  · exact mem_freeUnits_cons.mpr (.inr (hsub hu))
  · simp only [List.length_cons]
    omega
  · exact mem_freeUnits_cons.mpr (.inr (ha hu))

section head

variable (hl : Good (x :: l)) (hs : 0 < s.toNat) (hos : o.toNat + s.toNat < 2 ^ 32)
  (hlo : x.offset.toNat ≤ o.toNat) (hfit : o.toNat + s.toNat ≤ x.offset.toNat + x.size.toNat)

include hl hs hfit

theorem Reserved.front (ho : o = x.offset) :
    Reserved full o s (x :: l)
      (if x.size - s = 0 then l else ⟨x.offset + s, x.size - s⟩ :: l) 0 := by
  obtain ⟨hpos, hlo, hend⟩ := hl.head
  simp only [Slot.lo, Slot.len] at hpos hlo hend
  subst ho
  have hsize : (x.size - s).toNat = x.size.toNat - s.toNat := toNat_sub (by omega)
  have hoff : (x.offset + s).toNat = x.offset.toNat + s.toNat := toNat_add (by omega)
  split
  · next hzero =>
    have hz : x.size.toNat - s.toNat = 0 := by
      rw [← hsize, hzero]
      rfl
    apply Reserved.head [] hl le_rfl hfit hl.tail (by simp)
    simp only [Slot.lo, Slot.len, mem_span, freeUnits_nil, Set.mem_empty_iff_false, false_iff]
    omega
  · next hzero =>
    have hz : x.size.toNat - s.toNat ≠ 0 := by
      rw [← hsize]
      exact fun hz => hzero (UInt32.toNat.inj hz)
    apply Reserved.head [⟨x.offset + s, x.size - s⟩] hl le_rfl hfit
    · apply hl.replace <;> simp only [Slot.lo, Slot.len] <;> omega
    · simp
    · simp only [mem_freeUnits_singleton, Slot.lo, Slot.len, mem_span]
      omega

include hlo

theorem Reserved.back (ho : o.toNat ≠ x.offset.toNat)
    (hstop : o.toNat + s.toNat = x.offset.toNat + x.size.toNat) :
    Reserved full o s (x :: l) (⟨x.offset, x.size - s⟩ :: l) 0 := by
  obtain ⟨hpos, hlo0, hend⟩ := hl.head
  simp only [Slot.lo] at hpos hlo0 hend
  have hsize : (x.size - s).toNat = x.size.toNat - s.toNat := toNat_sub (by omega)
  apply Reserved.head [⟨x.offset, x.size - s⟩] hl hlo hfit
  · apply hl.replace <;> simp only [Slot.lo, Slot.len] <;> omega
  · simp
  · simp only [mem_freeUnits_singleton, Slot.lo, Slot.len, mem_span]
    omega

variable (ho : o.toNat ≠ x.offset.toNat)
  (hstop : o.toNat + s.toNat ≠ x.offset.toNat + x.size.toNat)

include hos ho hstop

omit hlo ho in
theorem good_upper : Good (⟨o + s, x.offset + x.size - (o + s)⟩ :: l) ∧
    (o + s).toNat = o.toNat + s.toNat ∧
    (x.offset + x.size - (o + s)).toNat =
      x.offset.toNat + x.size.toNat - (o.toNat + s.toNat) := by
  obtain ⟨hpos, hlo0, hend⟩ := hl.head
  simp only [Slot.lo, Slot.len] at hpos hlo0 hend
  have hrtop : (o + s).toNat = o.toNat + s.toNat := toNat_add hos
  have htop : (x.offset + x.size).toNat = x.offset.toNat + x.size.toNat := toNat_add hend
  have hhigh : (x.offset + x.size - (o + s)).toNat =
      x.offset.toNat + x.size.toNat - (o.toNat + s.toNat) := by
    rw [toNat_sub (by omega), htop, hrtop]
  refine ⟨?_, hrtop, hhigh⟩
  apply hl.replace <;> simp only [Slot.lo, Slot.len] <;> omega

omit ho in
theorem Reserved.chop :
    Reserved true o s (x :: l) (⟨o + s, x.offset + x.size - (o + s)⟩ :: l)
      (x.size - (x.offset + x.size - (o + s)) - s) := by
  obtain ⟨hpos, hlo0, hend⟩ := hl.head
  simp only [Slot.lo, Slot.len] at hpos hlo0 hend
  obtain ⟨hgood, hrtop, hhigh⟩ := good_upper hl hs hos hfit hstop
  have hk : (x.size - (x.offset + x.size - (o + s)) - s).toNat = o.toNat - x.offset.toNat := by
    rw [toNat_sub, toNat_sub, hhigh]
    · omega
    · omega
    · rw [toNat_sub] <;> omega
  refine ⟨hgood, fun u hu => ?_, by simp, by simp, x.offset.toNat, fun u hu => ?_, ?_, ?_⟩
  · rw [mem_span] at hu
    exact mem_freeUnits_cons.mpr (.inl (by simp only [Slot.lo, Slot.len]; omega))
  · rw [mem_span, hk] at hu
    exact mem_freeUnits_cons.mpr (.inl (by simp only [Slot.lo, Slot.len]; omega))
  · rw [Set.disjoint_left]
    intro u hu hu'
    rw [mem_span, hk] at hu
    rw [mem_span] at hu'
    omega
  · apply freeUnits_head [_] hl
    · intro u hu
      simp only [Set.mem_union, mem_span, hk] at hu
      simp only [Slot.lo, Slot.len]
      omega
    · intro u
      simp only [mem_freeUnits_singleton, Slot.lo, Slot.len, hrtop, hhigh, hk, Set.mem_union,
        mem_span]
      omega

theorem Reserved.split :
    Reserved false o s (x :: l)
      (⟨x.offset, o - x.offset⟩ :: ⟨o + s, x.offset + x.size - (o + s)⟩ :: l) 0 := by
  obtain ⟨-, hlo0, -⟩ := hl.head
  obtain ⟨hgood, hrtop, hhigh⟩ := good_upper hl hs hos hfit hstop
  have hlow : (o - x.offset).toNat = o.toNat - x.offset.toNat := toNat_sub hlo
  apply Reserved.head [⟨x.offset, o - x.offset⟩, ⟨o + s, x.offset + x.size - (o + s)⟩] hl hlo
    hfit
  · refine hgood.cons ?_ hlo0 ?_ fun y hy => ?_
    · simp only [Slot.len]
      omega
    · simp only [Slot.lo, Slot.len]
      omega
    · rcases List.mem_cons.mp hy with rfl | hy
      · simp only [Slot.lo, Slot.len]
        omega
      · have := hl.lt_head hy
        simp only [Slot.lo, Slot.len] at this ⊢
        omega
  · simp
  · simp only [mem_freeUnits_cons, freeUnits_nil, Set.mem_empty_iff_false, or_false, Slot.lo,
      Slot.len, mem_span]
    omega

end head

theorem reserve_spec (hl : Good l) (hs : 0 < s.toNat) (hos : o.toNat + s.toNat < 2 ^ 32)
    (h : reserve full o s l = some (l', k)) : Reserved full o s l l' k := by
  induction l generalizing l' with
  | nil => simp [reserve] at h
  | cons x l ih =>
    obtain ⟨-, -, hend⟩ := hl.head
    have htop : (x.offset + x.size).toNat = x.offset.toNat + x.size.toNat := toNat_add hend
    have hrtop : (o + s).toNat = o.toNat + s.toNat := toNat_add hos
    simp only [reserve] at h
    split at h
    · simp at h
    split at h
    · cases hrest : reserve full o s l with
      | none => simp [hrest] at h
      | some p =>
        rw [hrest] at h
        obtain ⟨rfl, rfl⟩ := Prod.mk.inj (Option.some.inj h)
        exact (ih hl.tail hrest).tail hl
    next hin =>
    rw [not_not] at hin
    split at h
    · simp at h
    next hfit =>
    rw [UInt32.lt_iff_toNat_lt, htop, hrtop, Nat.not_lt] at hfit
    split at h
    · next hstart =>
      obtain ⟨rfl, rfl⟩ := Prod.mk.inj (Option.some.inj h)
      exact Reserved.front hl hs hfit hstart
    next hstart =>
    have hne : o.toNat ≠ x.offset.toNat := fun he => hstart (UInt32.toNat.inj he)
    split at h
    · next hstop =>
      obtain ⟨rfl, rfl⟩ := Prod.mk.inj (Option.some.inj h)
      exact Reserved.back hl hs hin.1 hfit hne (by rw [← hrtop, ← htop, hstop])
    next hstop =>
    have hne' : o.toNat + s.toNat ≠ x.offset.toNat + x.size.toNat := by
      intro he
      exact hstop (UInt32.toNat.inj (by rw [hrtop, htop, he]))
    split at h
    · next hfull =>
      obtain ⟨rfl, rfl⟩ := Prod.mk.inj (Option.some.inj h)
      rw [hfull]
      exact Reserved.chop hl hs hos hin.1 hfit hne'
    · next hroom =>
      obtain ⟨rfl, rfl⟩ := Prod.mk.inj (Option.some.inj h)
      rw [Bool.not_eq_true] at hroom
      rw [hroom]
      exact Reserved.split hl hs hos hin.1 hfit hne hne'

theorem reserve_isSome (full : Bool) (hl : Good l) (hs : 0 < s.toNat)
    (hos : o.toNat + s.toNat < 2 ^ 32) (hfree : span o.toNat s.toNat ⊆ freeUnits l) :
    (reserve full o s l).isSome := by
  induction l with
  | nil =>
    have ho : o.toNat ∈ freeUnits [] := hfree (by rw [mem_span]; omega)
    simp at ho
  | cons x l ih =>
    obtain ⟨-, -, hend⟩ := hl.head
    have htop : (x.offset + x.size).toNat = x.offset.toNat + x.size.toNat := toNat_add hend
    have hrtop : (o + s).toNat = o.toNat + s.toNat := toNat_add hos
    have ho : o.toNat ∈ freeUnits (x :: l) := hfree (by rw [mem_span]; omega)
    have hcase := mem_freeUnits_cons.mp ho
    simp only [Slot.lo] at hcase
    have hge : ¬ o < x.offset := by
      rw [UInt32.lt_iff_toNat_lt]
      rcases hcase with h | h
      · omega
      · have := hl.lt_of_mem h
        simp only [Slot.lo] at this
        omega
    simp only [reserve, if_neg hge]
    split
    · next hout =>
      rw [UInt32.le_iff_toNat_le, UInt32.lt_iff_toNat_lt] at hout
      rw [UInt32.lt_iff_toNat_lt] at hge
      rw [Option.isSome_map]
      refine ih hl.tail fun u hu => ?_
      rcases mem_freeUnits_cons.mp (hfree hu) with h | h
      · rw [mem_span] at hu
        simp only [Slot.lo, Slot.len] at h
        omega
      · exact h
    next hin =>
    rw [UInt32.lt_iff_toNat_lt] at hin
    have hfit : ¬ x.offset + x.size < o + s := by
      rw [UInt32.lt_iff_toNat_lt]
      intro hlt
      -- the unit behind the entry would be free
      have hmem : x.offset.toNat + x.size.toNat ∈ freeUnits (x :: l) :=
        hfree (by rw [mem_span]; omega)
      rcases mem_freeUnits_cons.mp hmem with h | h
      · simp only [Slot.lo, Slot.len] at h
        omega
      · have := hl.lt_of_mem h
        simp only [Slot.lo, Slot.len] at this
        omega
    rw [if_neg hfit]
    split_ifs <;> rfl

/-- What `free` gives: the range is added, or all of it is lost in a full table. -/
structure Freed (full : Bool) (o s : UInt32) (l l' : List Slot) (k : UInt32) : Prop where
  good : Good l'
  length : l'.length ≤ l.length + (if full then 0 else 1)
  units : k = 0 ∧ freeUnits l' = freeUnits l ∪ span o.toNat s.toNat ∨
    full = true ∧ k = s ∧ l' = l

theorem Freed.insert (hl : Good l) (hs : 0 < s.toNat) (ho : 0 < o.toNat)
    (hos : o.toNat + s.toNat < 2 ^ 32) (hlt : ∀ x ∈ l, o.toNat + s.toNat < x.lo) :
    Freed full o s l (insert full o s l).1 (insert full o s l).2 := by
  rw [Entries.insert]
  split
  · next hfull => exact ⟨hl, by simp [hfull], .inr ⟨hfull, rfl, rfl⟩⟩
  · next hroom =>
    refine ⟨hl.cons hs ho hos hlt, by simp [hroom], .inl ⟨rfl, ?_⟩⟩
    ext u
    rw [mem_freeUnits_cons, or_comm]
    rfl

theorem Freed.extend (hl : Good (x :: l)) (ho : x.lo + x.len = o.toNat)
    (hos : o.toNat + s.toNat < 2 ^ 32)
    (hdis : Disjoint (span o.toNat s.toNat) (freeUnits (x :: l))) :
    Freed full o s (x :: l) (extend x s l) 0 := by
  obtain ⟨hpos, hlo, hend⟩ := hl.head
  simp only [Slot.lo, Slot.len] at hpos hlo hend ho
  have hsize : (x.size + s).toNat = x.size.toNat + s.toNat := toNat_add (by omega)
  have hoff : (x.offset + (x.size + s)).toNat = o.toNat + s.toNat := by
    rw [toNat_add] <;> omega
  have hstart : ∀ z ∈ l, o.toNat + s.toNat ≤ z.lo := by
    intro z hz
    by_contra hlt
    have hgt := hl.lt_head hz
    simp only [Slot.lo, Slot.len] at hgt hlt
    have hin : z.lo ∈ span o.toNat s.toNat := by
      simp only [mem_span, Slot.lo]
      omega
    exact Set.disjoint_left.mp hdis hin (hl.lo_mem (List.mem_cons_of_mem _ hz))
  -- the head with the range, when it does not reach the next entry
  have hlong : (∀ z ∈ l, z.lo ≠ o.toNat + s.toNat) →
      Freed full o s (x :: l) (⟨x.offset, x.size + s⟩ :: l) 0 := by
    intro hne
    refine ⟨hl.tail.cons ?_ hlo ?_ fun z hz => ?_, by simp, .inl ⟨rfl, ?_⟩⟩
    · simp only [Slot.len]
      omega
    · simp only [Slot.lo, Slot.len]
      omega
    · have h1 := hstart z hz
      have h2 := hne z hz
      simp only [Slot.lo, Slot.len] at h1 h2 ⊢
      omega
    · ext u
      rw [Set.mem_union, mem_span, mem_freeUnits_cons, mem_freeUnits_cons, or_right_comm]
      simp only [Slot.lo, Slot.len]
      apply or_congr_left
      omega
  cases l with
  | nil => exact hlong (by simp)
  | cons y l =>
    simp only [Entries.extend]
    split
    · next hjoin =>
      have hylo : o.toNat + s.toNat = y.offset.toNat := by rw [← hoff, hjoin]
      obtain ⟨hypos, -, hyend⟩ := hl.tail.head
      simp only [Slot.lo, Slot.len] at hypos hyend
      have hsum : (x.size + s + y.size).toNat = x.size.toNat + s.toNat + y.size.toNat := by
        rw [toNat_add] <;> omega
      refine ⟨hl.tail.tail.cons ?_ hlo ?_ fun z hz => ?_, ?_, .inl ⟨rfl, ?_⟩⟩
      · simp only [Slot.len]
        omega
      · simp only [Slot.lo, Slot.len]
        omega
      · have := hl.tail.lt_head hz
        simp only [Slot.lo, Slot.len] at this ⊢
        omega
      · simp only [List.length_cons]
        omega
      · ext u
        rw [Set.mem_union, mem_span, mem_freeUnits_cons, mem_freeUnits_cons, mem_freeUnits_cons,
          ← or_assoc, or_right_comm]
        simp only [Slot.lo, Slot.len]
        apply or_congr_left
        omega
    · next hjoin =>
      refine hlong fun z hz he => ?_
      rcases List.mem_cons.mp hz with rfl | hz
      · exact hjoin (UInt32.toNat.inj (by rw [hoff]; exact he.symm))
      · have h1 := hl.tail.lt_head hz
        have h2 := hstart y List.mem_cons_self
        omega

theorem free_spec (full : Bool) (hl : Good l) (hs : 0 < s.toNat) (ho : 0 < o.toNat)
    (hos : o.toNat + s.toNat < 2 ^ 32)
    (hdis : Disjoint (span o.toNat s.toNat) (freeUnits l)) :
    Freed full o s l (free full o s l).1 (free full o s l).2 := by
  induction l with
  | nil => exact Freed.insert Good.nil hs ho hos (by simp)
  | cons x l ih =>
    obtain ⟨hpos, hlo, hend⟩ := hl.head
    simp only [Slot.lo, Slot.len] at hpos hlo hend
    have htop : (x.offset + x.size).toNat = x.offset.toNat + x.size.toNat := toNat_add hend
    have hrtop : (o + s).toNat = o.toNat + s.toNat := toNat_add hos
    have hout : o.toNat < x.offset.toNat ∨ x.offset.toNat + x.size.toNat ≤ o.toNat := by
      by_contra hin
      have hin' : o.toNat ∈ span o.toNat s.toNat := by
        rw [mem_span]
        omega
      refine Set.disjoint_left.mp hdis hin' (mem_freeUnits_cons.mpr (.inl ?_))
      simp only [Slot.lo, Slot.len]
      omega
    have hbelow : o.toNat < x.offset.toNat → o.toNat + s.toNat ≤ x.offset.toNat := by
      by_contra hin
      have hin' : x.offset.toNat ∈ span o.toNat s.toNat := by
        rw [mem_span]
        omega
      refine Set.disjoint_left.mp hdis hin' (mem_freeUnits_cons.mpr (.inl ?_))
      simp only [Slot.lo, Slot.len]
      omega
    simp only [free]
    split
    · next hleft => exact Freed.extend hl (by rw [← hleft, htop]; rfl) hos hdis
    next hleft =>
    have hleft' : x.offset.toNat + x.size.toNat ≠ o.toNat := by
      intro he
      exact hleft (UInt32.toNat.inj (by rw [htop, he]))
    split
    · next hright =>
      have hstop : o.toNat + s.toNat = x.offset.toNat := by rw [← hrtop, hright]
      have hsize : (x.size + s).toNat = x.size.toNat + s.toNat := toNat_add (by omega)
      refine ⟨hl.replace ?_ ho ?_, by simp, .inl ⟨rfl, ?_⟩⟩
      · simp only [Slot.len]
        omega
      · simp only [Slot.lo, Slot.len]
        omega
      · ext u
        rw [Set.mem_union, mem_span, mem_freeUnits_cons, mem_freeUnits_cons, or_right_comm]
        simp only [Slot.lo, Slot.len]
        apply or_congr_left
        omega
    next hright =>
    have hright' : o.toNat + s.toNat ≠ x.offset.toNat := by
      intro he
      exact hright (UInt32.toNat.inj (by rw [hrtop, he]))
    split
    · next hlt =>
      rw [UInt32.lt_iff_toNat_lt] at hlt
      refine Freed.insert hl hs ho hos fun z hz => ?_
      rcases List.mem_cons.mp hz with rfl | hz
      · simp only [Slot.lo]
        omega
      · have := hl.lt_head hz
        simp only [Slot.lo] at this ⊢
        omega
    · next hge =>
      rw [UInt32.lt_iff_toNat_lt] at hge
      have hdis' : Disjoint (span o.toNat s.toNat) (freeUnits l) :=
        hdis.mono_right fun u hu => mem_freeUnits_cons.mpr (.inr hu)
      obtain ⟨hg, hlen, hunits⟩ := ih hl.tail hdis'
      rcases hunits with ⟨hk, hunits⟩ | ⟨hfull, hk, hsame⟩
      · refine ⟨hl.cons_of_lt hg fun u hu => ?_, ?_, .inl ⟨hk, ?_⟩⟩
        · rw [hunits] at hu
          rcases hu with hu | hu
          · exact hl.lt_of_mem hu
          · rw [mem_span] at hu
            simp only [Slot.lo, Slot.len]
            omega
        · simp only [List.length_cons]
          omega
        · ext u
          rw [Set.mem_union, mem_freeUnits_cons, mem_freeUnits_cons, hunits, Set.mem_union,
            or_assoc]
      · rw [hsame]
        exact ⟨hl, by simp, .inr ⟨hfull, hk, rfl⟩⟩

theorem status_eq_one (hl : Good l) (hos : o.toNat + s.toNat < 2 ^ 32) (h : status o s l = 1) :
    Disjoint (span o.toNat s.toNat) (freeUnits l) := by
  induction l with
  | nil => simp
  | cons x l ih =>
    obtain ⟨-, -, hend⟩ := hl.head
    have htop : (x.offset + x.size).toNat = x.offset.toNat + x.size.toNat := toNat_add hend
    have hrtop : (o + s).toNat = o.toNat + s.toNat := toNat_add hos
    rw [Set.disjoint_left]
    intro u hu hfree
    rw [mem_span] at hu
    have hcase := mem_freeUnits_cons.mp hfree
    simp only [status] at h
    split at h
    · split at h
      · simp at h
      · next hle =>
        rw [UInt32.lt_iff_toNat_lt] at hle
        rcases hcase with hcase | hcase
        · simp only [Slot.lo] at hcase
          omega
        · have := hl.lt_of_mem hcase
          simp only [Slot.lo] at this
          omega
    split at h
    · next hge hout =>
      rw [UInt32.le_iff_toNat_le, UInt32.lt_iff_toNat_lt] at hout
      rw [UInt32.lt_iff_toNat_lt] at hge
      rcases hcase with hcase | hcase
      · simp only [Slot.lo, Slot.len] at hcase
        omega
      · exact Set.disjoint_left.mp (ih hl.tail h) (by simpa using hu) hcase
    · split at h <;> simp at h

end Entries

end SimpleKernel.Mem
