import Mathlib.Algebra.GroupWithZero.Nat
import Mathlib.Algebra.Ring.Int.Defs

/-! The `int` of a machine of 32 bits. -/
namespace SimpleKernel

/-- `int` of 32 bits. -/
def int32 (x : ℤ) : ℤ := (x + 2 ^ 31) % 2 ^ 32 - 2 ^ 31

theorem int32_eq {x : ℤ} (hlo : -2 ^ 31 ≤ x) (hhi : x < 2 ^ 31) : int32 x = x := by
  unfold int32
  omega

theorem int32_lt (x : ℤ) : int32 x < 2 ^ 31 := by
  unfold int32
  omega

theorem int32_add (x y : ℤ) : int32 (int32 x + y) = int32 (x + y) := by
  unfold int32
  omega

end SimpleKernel
