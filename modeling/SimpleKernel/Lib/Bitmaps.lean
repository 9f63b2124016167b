import Mathlib.Algebra.BigOperators.Group.Finset.Basic
import Mathlib.Algebra.Order.BigOperators.Group.Finset
import Mathlib.Data.Finset.Card
import Mathlib.Logic.Function.Basic

/-! Bitmaps with a count of their clear bits, and families of them with a total. -/
namespace SimpleKernel.Bitmaps
open Function (update update_eq_self update_idem update_of_ne update_self)

variable {bit : ℕ → Bool} {i n : ℕ}

/-- The number of clear bits below `n`. -/
def clear (bit : ℕ → Bool) (n : ℕ) : ℕ := ((Finset.range n).filter fun j => bit j = false).card

theorem clear_le (bit : ℕ → Bool) (n : ℕ) : clear bit n ≤ n := by
  have h := Finset.card_filter_le (Finset.range n) fun j => bit j = false
  rwa [Finset.card_range] at h

theorem clear_set (bit : ℕ → Bool) (hi : i < n) (hbit : bit i = false) :
    clear (update bit i true) n + 1 = clear bit n := by
  have hmem : i ∈ (Finset.range n).filter fun j => bit j = false := by
    simp [hi, hbit]
  have hset : (Finset.range n).filter (fun j => update bit i true j = false) =
      ((Finset.range n).filter fun j => bit j = false).erase i := by
    ext j
    rcases eq_or_ne j i with rfl | hne
    · simp
    · simp [hne]
  rw [clear, clear, hset, Finset.card_erase_add_one hmem]

theorem clear_unset (hi : i < n) (hbit : bit i = true) :
    clear (update bit i false) n = clear bit n + 1 := by
  have h := clear_set (update bit i false) hi (update_self ..)
  have hback : update (update bit i false) i true = bit := by
    rw [update_idem, ← hbit, update_eq_self]
  rw [hback] at h
  exact h.symm

theorem bit_of_update {size g x : ℕ} {v : Bool} (bits bits' : ℕ → ℕ → Bool) (hi : i < size)
    (hbits : bits' g = update (bits g) i v) (hother : ∀ g', g' ≠ g → bits' g' = bits g') :
    bits' (x / size) (x % size) = if x = i + g * size then v else bits (x / size) (x % size) := by
  have hsize : 0 < size := (Nat.zero_le i).trans_lt hi
  by_cases hx : x = i + g * size
  · have hdiv : x / size = g := by
      rw [hx, Nat.add_mul_div_right _ _ hsize, Nat.div_eq_of_lt hi, Nat.zero_add]
    have hmod : x % size = i := by
      rw [hx, Nat.add_mul_mod_self_right, Nat.mod_eq_of_lt hi]
    rw [if_pos hx, hdiv, hmod, hbits, update_self]
  · rw [if_neg hx]
    by_cases hg : x / size = g
    · have hne : x % size ≠ i := by
        intro he
        apply hx
        rw [← Nat.div_add_mod' x size, hg, he, Nat.add_comm]
      rw [hg, hbits, update_of_ne hne]
    · rw [hother _ hg]

/-- Bitmap `g` has `count g` clear bits below `len g`; all the first `k` together have `total`. -/
structure Counted (k : ℕ) (bits : ℕ → ℕ → Bool) (len count : ℕ → ℕ) (total : ℕ) : Prop where
  each : ∀ g, g < k → count g = clear (bits g) (len g)
  sum : total = ∑ g ∈ Finset.range k, count g

variable {k g : ℕ} {bits bits' : ℕ → ℕ → Bool} {len count count' : ℕ → ℕ} {total : ℕ}

theorem Counted.count_le (h : Counted k bits len count total) (hg : g < k) : count g ≤ len g := by
  rw [h.each g hg]
  exact clear_le _ _

theorem Counted.total_le (h : Counted k bits len count total) :
    total ≤ ∑ g ∈ Finset.range k, len g := by
  rw [h.sum]
  exact Finset.sum_le_sum fun g hg => h.count_le (Finset.mem_range.mp hg)

theorem Counted.count_le_total (h : Counted k bits len count total) (hg : g < k) :
    count g ≤ total := by
  rw [h.sum]
  exact Finset.single_le_sum (fun _ _ => Nat.zero_le _) (Finset.mem_range.mpr hg)

theorem sum_rest (hg : g < k) (hother : ∀ g', g' ≠ g → count' g' = count g') :
    ∑ j ∈ Finset.range k, count' j + count g = ∑ j ∈ Finset.range k, count j + count' g := by
  have hmem := Finset.mem_range.mpr hg
  rw [← Finset.add_sum_erase _ count hmem, ← Finset.add_sum_erase _ count' hmem]
  have hrest : ∑ j ∈ (Finset.range k).erase g, count' j = ∑ j ∈ (Finset.range k).erase g, count j :=
    Finset.sum_congr rfl fun j hj => hother j (Finset.ne_of_mem_erase hj)
  omega

section
variable (h : Counted k bits len count total)
include h

theorem Counted.pos (hg : g < k) (hi : i < len g)
    (hbit : bits g i = false) : 0 < count g ∧ 0 < total := by
  have hclear := clear_set (bits g) hi hbit
  have hpos : 0 < count g := by
    rw [h.each g hg]
    omega
  exact ⟨hpos, hpos.trans_le (h.count_le_total hg)⟩

theorem Counted.set (hg : g < k) (hi : i < len g)
    (hbit : bits g i = false) (hbits : bits' g = update (bits g) i true)
    (hother : ∀ g', g' ≠ g → bits' g' = bits g' ∧ count' g' = count g')
    (hcount : count' g = count g - 1) : Counted k bits' len count' (total - 1) := by
  have hclear := clear_set (bits g) hi hbit
  have hpos := (h.pos hg hi hbit).1
  refine ⟨fun g' hg' => ?_, ?_⟩
  · rcases eq_or_ne g' g with rfl | hne
    · rw [hcount, hbits, h.each g' hg]
      omega
    · rw [(hother g' hne).1, (hother g' hne).2]
      exact h.each g' hg'
  · have hsum := sum_rest hg fun g' hne => (hother g' hne).2
    rw [← h.sum] at hsum
    omega

theorem Counted.unset (hg : g < k) (hi : i < len g)
    (hbit : bits g i = true) (hbits : bits' g = update (bits g) i false)
    (hother : ∀ g', g' ≠ g → bits' g' = bits g' ∧ count' g' = count g')
    (hcount : count' g = count g + 1) : Counted k bits' len count' (total + 1) := by
  refine ⟨fun g' hg' => ?_, ?_⟩
  · rcases eq_or_ne g' g with rfl | hne
    · rw [hcount, hbits, h.each g' hg, clear_unset hi hbit]
    · rw [(hother g' hne).1, (hother g' hne).2]
      exact h.each g' hg'
  · have hsum := sum_rest hg fun g' hne => (hother g' hne).2
    rw [← h.sum] at hsum
    omega

theorem Counted.room (hg : g < k) (hi : i < len g)
    (hbit : bits g i = true) : count g < len g ∧ total < ∑ j ∈ Finset.range k, len j := by
  have h' : Counted k (update bits g (update (bits g) i false)) len
      (update count g (count g + 1)) (total + 1) :=
    h.unset hg hi hbit (update_self ..)
      (fun g' hne => ⟨update_of_ne hne _ _, update_of_ne hne _ _⟩)
      (update_self ..)
  have hcount := h'.count_le hg
  rw [update_self] at hcount
  exact ⟨hcount, h'.total_le⟩

end

end SimpleKernel.Bitmaps
