import Mathlib.Data.Nat.ModEq
import Mathlib.Algebra.BigOperators.Group.Finset.Basic
import Mathlib.Algebra.BigOperators.Intervals

/-! Sums of words of 16 bits in one's complement: a sum counts modulo `2 ^ 16 - 1`, and its two zeros are
told apart. -/
namespace SimpleKernel.OnesComplement

/-- `a` and `b` are the same sum: they agree modulo `2 ^ 16 - 1`, and one is zero if the other is. -/
structure Same (a b : ℕ) : Prop where
  mod : a ≡ b [MOD 65535]
  zero : a = 0 ↔ b = 0

variable {a b c d : ℕ}

theorem Same.refl (a : ℕ) : Same a a := ⟨Nat.ModEq.refl a, Iff.rfl⟩

theorem Same.symm (h : Same a b) : Same b a := ⟨h.mod.symm, h.zero.symm⟩

theorem Same.trans (h : Same a b) (h' : Same b c) : Same a c :=
  ⟨h.mod.trans h'.mod, h.zero.trans h'.zero⟩

theorem Same.add (h : Same a b) (h' : Same c d) : Same (a + c) (b + d) :=
  ⟨h.mod.add h'.mod, by rw [Nat.add_eq_zero_iff, Nat.add_eq_zero_iff, h.zero, h'.zero]⟩

theorem Same.mul_left (k : ℕ) (h : Same a b) : Same (k * a) (k * b) :=
  ⟨h.mod.mul_left k, by rw [Nat.mul_eq_zero, Nat.mul_eq_zero, h.zero]⟩

theorem same_shift (a : ℕ) : Same (65536 * a) a := by
  refine ⟨?_, by omega⟩
  unfold Nat.ModEq
  omega

theorem same_fold (a : ℕ) : Same (a / 65536 + a % 65536) a := by
  have h := (same_shift (a / 65536)).symm.add (Same.refl (a % 65536))
  rwa [Nat.div_add_mod] at h

theorem same_swap (a : ℕ) : Same (a % 256 * 256 + a / 256) (256 * a) := by
  have h := (Same.refl (a % 256 * 256)).add (same_shift (a / 256)).symm
  have heq : a % 256 * 256 + 65536 * (a / 256) = 256 * a := by omega
  rwa [heq] at h

theorem Same.eq (h : Same a b) (ha : a < 65536) (hb : b < 65536) : a = b := by
  have hmod : a % 65535 = b % 65535 := h.mod
  have hzero := h.zero
  omega

/-- The words of a sequence of bytes, the lower byte first; a last byte is a word of its own. -/
def wordSum : List UInt8 → ℕ
  | [] => 0
  | [b] => b.toNat
  | b :: c :: bs => b.toNat + 256 * c.toNat + wordSum bs

theorem wordSum_le (bs : List UInt8) : wordSum bs ≤ 65535 * ((bs.length + 1) / 2) := by
  induction bs using wordSum.induct with
  | case1 => simp [wordSum]
  | case2 b =>
    have := b.toNat_lt
    simp only [wordSum, List.length_singleton]
    omega
  | case3 b c bs ih =>
    have := b.toNat_lt
    have := c.toNat_lt
    simp only [wordSum, List.length_cons]
    omega

theorem wordSum_cons (b : UInt8) (bs : List UInt8) :
    Same (wordSum (b :: bs)) (b.toNat + 256 * wordSum bs) := by
  induction bs using wordSum.induct generalizing b with
  | case1 => exact Same.refl _
  | case2 c => exact Same.refl _
  | case3 c d bs ih =>
    have hshift := (same_shift d.toNat).symm.add (Same.refl (256 * wordSum bs))
    have h := (Same.refl (b.toNat + 256 * c.toNat)).add ((ih d).trans hshift)
    have heq : b.toNat + 256 * c.toNat + (65536 * d.toNat + 256 * wordSum bs) =
        b.toNat + 256 * (c.toNat + 256 * d.toNat + wordSum bs) := by omega
    rwa [heq] at h

theorem wordSum_append_even {bs : List UInt8} (h : bs.length % 2 = 0) (cs : List UInt8) :
    wordSum (bs ++ cs) = wordSum bs + wordSum cs := by
  induction bs using wordSum.induct with
  | case1 => simp [wordSum]
  | case2 b => simp at h
  | case3 b c bs ih =>
    simp only [List.length_cons] at h
    simp only [List.cons_append, wordSum]
    omega

theorem wordSum_append_odd {bs : List UInt8} (h : bs.length % 2 = 1) (cs : List UInt8) :
    Same (wordSum (bs ++ cs)) (wordSum bs + 256 * wordSum cs) := by
  induction bs using wordSum.induct with
  | case1 => simp at h
  | case2 b => exact wordSum_cons b cs
  | case3 b c bs ih =>
    simp only [List.length_cons] at h
    have h := (Same.refl (b.toNat + 256 * c.toNat)).add (ih (by omega))
    simp only [wordSum]
    rwa [Nat.add_assoc _ (wordSum bs)]

/-- The word at the offset `2 * i`. -/
def wordAt (m : ℕ → UInt8) (i : ℕ) : ℕ := (m (2 * i)).toNat + 256 * (m (2 * i + 1)).toNat

theorem wordSum_range (m : ℕ → UInt8) (n : ℕ) :
    wordSum ((List.range (2 * n)).map m) = ∑ i ∈ Finset.range n, wordAt m i := by
  induction n with
  | zero => rfl
  | succ n ih =>
    have hrange : List.range (2 * (n + 1)) = List.range (2 * n) ++ [2 * n, 2 * n + 1] := by
      rw [Nat.mul_succ, List.range_succ, List.range_succ]
      simp
    rw [hrange, List.map_append, wordSum_append_even (by simp), ih, Finset.sum_range_succ]
    rfl

end SimpleKernel.OnesComplement
