import Mathlib.Data.Set.BooleanAlgebra
import Mathlib.Order.CompletePartialOrder
import Mathlib.Data.Set.Insert
import Mathlib.Data.List.Pairwise

/-! Sorted lists of intervals of natural numbers. An interval is any value with a first
element and a length. -/
namespace SimpleKernel.Intervals

variable {α : Type*} {lo len : α → ℕ} {l l' : List α} {x y : α} {u n : ℕ}

/-- The numbers that the intervals of `l` hold. -/
def units (lo len : α → ℕ) (l : List α) : Set ℕ :=
  {u | ∃ x ∈ l, lo x ≤ u ∧ u < lo x + len x}

/-- The interval of length `n` that starts at `a`. -/
def span (a n : ℕ) : Set ℕ := {u | a ≤ u ∧ u < a + n}

/-- Sorted, not empty, disjoint and not adjacent. -/
def Separated (lo len : α → ℕ) (l : List α) : Prop :=
  (∀ x ∈ l, 0 < len x) ∧ l.Pairwise fun x y => lo x + len x < lo y

@[simp] theorem mem_span {a : ℕ} : u ∈ span a n ↔ a ≤ u ∧ u < a + n := Iff.rfl

@[simp] theorem span_zero (a : ℕ) : span a 0 = ∅ := by
  ext u
  simp

@[simp] theorem units_nil : units lo len [] = ∅ := by
  simp [units]

@[simp] theorem mem_units_cons :
    u ∈ units lo len (x :: l) ↔ (lo x ≤ u ∧ u < lo x + len x) ∨ u ∈ units lo len l := by
  simp [units]

@[simp] theorem separated_nil : Separated lo len [] := by
  simp [Separated]

theorem separated_cons :
    Separated lo len (x :: l) ↔
      0 < len x ∧ (∀ y ∈ l, lo x + len x < lo y) ∧ Separated lo len l := by
  simp only [Separated, List.forall_mem_cons, List.pairwise_cons]
  constructor
  · rintro ⟨⟨hx, hpos⟩, hlt, hl⟩
    exact ⟨hx, hlt, hpos, hl⟩
  · rintro ⟨hx, hlt, hpos, hl⟩
    exact ⟨⟨hx, hpos⟩, hlt, hl⟩

theorem Separated.tail (h : Separated lo len (x :: l)) : Separated lo len l :=
  (separated_cons.mp h).2.2

theorem Separated.lt_of_mem (h : Separated lo len (x :: l)) (hu : u ∈ units lo len l) :
    lo x + len x < u := by
  obtain ⟨y, hy, hyu, -⟩ := hu
  have := (separated_cons.mp h).2.1 y hy
  omega

theorem Separated.replace (h : Separated lo len (x :: l)) (hpos : 0 < len y)
    (hend : lo y + len y ≤ lo x + len x) : Separated lo len (y :: l) := by
  obtain ⟨-, hlt, hl⟩ := separated_cons.mp h
  refine separated_cons.mpr ⟨hpos, fun z hz => ?_, hl⟩
  have := hlt z hz
  omega

theorem Separated.lo_mem (h : Separated lo len (x :: l)) : lo x ∈ units lo len (x :: l) := by
  have := (separated_cons.mp h).1
  exact mem_units_cons.mpr (.inl ⟨le_rfl, by omega⟩)

theorem Separated.lo_le (h : Separated lo len (x :: l)) (hu : u ∈ units lo len (x :: l)) :
    lo x ≤ u := by
  rcases mem_units_cons.mp hu with ⟨hle, -⟩ | hu
  · exact hle
  · have := h.lt_of_mem hu
    omega

theorem Separated.mem_tail (h : Separated lo len (x :: l)) :
    u ∈ units lo len l ↔ u ∈ units lo len (x :: l) ∧ lo x + len x < u := by
  rw [mem_units_cons]
  constructor
  · exact fun hu => ⟨.inr hu, h.lt_of_mem hu⟩
  · rintro ⟨⟨-, hlt⟩ | hu, hgt⟩
    · omega
    · exact hu

theorem Separated.end_le (h : Separated lo len (x :: l)) (hlo : lo y ≤ lo x)
    (heq : units lo len (x :: l) = units lo len (y :: l')) : lo y + len y ≤ lo x + len x := by
  by_contra hlt
  have hmem : lo x + len x ∈ units lo len (x :: l) := by
    rw [heq]
    exact mem_units_cons.mpr (.inl ⟨by omega, by omega⟩)
  rcases mem_units_cons.mp hmem with ⟨-, hend⟩ | hend
  · omega
  · exact (h.lt_of_mem hend).false

/-- The units determine the list: the first interval starts at the least one and ends at the first
gap. -/
theorem Separated.ext (hinj : ∀ x y, lo x = lo y → len x = len y → x = y)
    (h : Separated lo len l) (h' : Separated lo len l')
    (heq : units lo len l = units lo len l') : l = l' := by
  induction l generalizing l' with
  | nil =>
    cases l' with
    | nil => rfl
    | cons y l' => simpa [← heq] using h'.lo_mem
  | cons x l ih =>
    cases l' with
    | nil => simpa [heq] using h.lo_mem
    | cons y l' =>
      have hlo : lo x = lo y :=
        le_antisymm (h.lo_le (heq ▸ h'.lo_mem)) (h'.lo_le (heq ▸ h.lo_mem))
      have hle := h.end_le hlo.ge heq
      have hge := h'.end_le hlo.le heq.symm
      obtain rfl := hinj x y hlo (by omega)
      have htail : units lo len l = units lo len l' := by
        ext u
        rw [h.mem_tail, h'.mem_tail, heq]
      rw [ih h.tail h'.tail htail]

end SimpleKernel.Intervals
