import Mathlib.Algebra.Order.BigOperators.Group.Finset
import Mathlib.Data.Fintype.Basic

/-! Sums over a finite set of parties of which one changes at a time. -/
namespace SimpleKernel.Tally

variable {τ : Type*} [Fintype τ]

theorem sum_change {F G : τ → ℕ} (t : τ) (h : ∀ u, u ≠ t → F u = G u) :
    ∑ u, F u + G t = ∑ u, G u + F t := by
  classical
  have hF := Finset.add_sum_erase Finset.univ F (Finset.mem_univ t)
  have hG := Finset.add_sum_erase Finset.univ G (Finset.mem_univ t)
  have hrest : ∑ u ∈ Finset.univ.erase t, F u = ∑ u ∈ Finset.univ.erase t, G u :=
    Finset.sum_congr rfl fun u hu => h u (Finset.ne_of_mem_erase hu)
  omega

theorem sum_update [DecidableEq τ] {α : Type*} (f : α → ℕ) (s : τ → α) (t : τ) (x : α) :
    ∑ u, f (Function.update s t x u) + f (s t) = ∑ u, f (s u) + f x := by
  have h := sum_change (F := fun u => f (Function.update s t x u)) t
    fun u hu => by rw [Function.update_of_ne hu]
  rwa [Function.update_self] at h

theorem le_sum (F : τ → ℕ) (t : τ) : F t ≤ ∑ u, F u :=
  Finset.single_le_sum (fun _ _ => Nat.zero_le _) (Finset.mem_univ t)

theorem add_le_sum (F : τ → ℕ) {t u : τ} (h : t ≠ u) : F t + F u ≤ ∑ v, F v := by
  classical
  rw [← Finset.sum_pair h]
  exact Finset.sum_le_sum_of_subset (Finset.subset_univ _)

end SimpleKernel.Tally
