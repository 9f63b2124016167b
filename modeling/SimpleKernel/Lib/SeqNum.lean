import Mathlib.Algebra.GroupWithZero.Nat
import Mathlib.Algebra.Ring.Int.Defs
import Mathlib.Data.UInt

/-! Sequence numbers of 32 bits that wrap around. A number stands for many positions of an unbounded sequence; two
are compared by the sign of their difference, which is right for positions less than `2 ^ 31` apart. -/
namespace SimpleKernel.SeqNum

/-- The number of a position. -/
def num (x : ℤ) : UInt32 := UInt32.ofInt x

/-- The difference as a signed number of 32 bits. -/
def diff (a b : UInt32) : ℤ := (a - b).toBitVec.toInt

/-- `a` is before `b`. -/
def seqLt (a b : UInt32) : Prop := diff a b < 0

/-- `a` is not behind `b`. -/
def seqLeq (a b : UInt32) : Prop := diff a b ≤ 0

/-- `a` is behind `b`. -/
def seqGt (a b : UInt32) : Prop := 0 < diff a b

/-- `a` is not before `b`. -/
def seqGeq (a b : UInt32) : Prop := 0 ≤ diff a b

instance (a b : UInt32) : Decidable (seqLt a b) := inferInstanceAs (Decidable (diff a b < 0))
instance (a b : UInt32) : Decidable (seqLeq a b) := inferInstanceAs (Decidable (diff a b ≤ 0))
instance (a b : UInt32) : Decidable (seqGt a b) := inferInstanceAs (Decidable (0 < diff a b))
instance (a b : UInt32) : Decidable (seqGeq a b) := inferInstanceAs (Decidable (0 ≤ diff a b))

variable {x y z : ℤ} {a b : UInt32}

theorem num_add (x y : ℤ) : num (x + y) = num x + num y := UInt32.ofInt_add x y

theorem num_zero : num 0 = 0 := by decide

theorem num_toNat (a : UInt32) : num a.toNat = a := by
  apply UInt32.toNat_inj.1
  rw [num, UInt32.ofInt, UInt32.toNat_ofNat']
  have hlt : a.toNat < 2 ^ 32 := a.toNat_lt
  omega

theorem num_sub (x y : ℤ) : num (x - y) = num x - num y := by
  have h : num x = num (x - y) + num y := by
    rw [← num_add, Int.sub_add_cancel]
  rw [h, UInt32.add_sub_cancel]

theorem toBitVec_num (x : ℤ) : (num x).toBitVec = BitVec.ofInt 32 x := by
  apply BitVec.eq_of_toNat_eq
  rw [BitVec.toNat_ofInt]
  show (UInt32.ofNat _).toNat = _
  rw [UInt32.toNat_ofNat']
  omega

theorem diff_num (hlo : -2 ^ 31 ≤ x - y) (hhi : x - y < 2 ^ 31) : diff (num x) (num y) = x - y := by
  rw [diff, ← num_sub, toBitVec_num]
  exact BitVec.toInt_ofInt_eq_self (by decide) hlo hhi

theorem diff_bounds (a b : UInt32) : -2 ^ 31 ≤ diff a b ∧ diff a b < 2 ^ 31 :=
  ⟨BitVec.le_toInt _, BitVec.toInt_lt⟩

theorem num_add_diff (y : ℤ) (a : UInt32) : num (y + diff a (num y)) = a := by
  have hdiff : num (diff a (num y)) = a - num y := by
    apply UInt32.eq_of_toBitVec_eq
    rw [toBitVec_num, diff, BitVec.ofInt_toInt]
  rw [num_add, hdiff, UInt32.add_comm, UInt32.sub_add_cancel]

theorem num_inj (h : num x = num y) (hlo : -2 ^ 31 ≤ x - y) (hhi : x - y < 2 ^ 31) : x = y := by
  have hd := diff_num hlo hhi
  have hzero : diff (num y) (num y) = 0 := by
    rw [diff_num (by omega) (by omega), Int.sub_self]
  rw [h] at hd
  omega

theorem seqLt_num (hlo : -2 ^ 31 ≤ x - y) (hhi : x - y < 2 ^ 31) : seqLt (num x) (num y) ↔ x < y := by
  rw [seqLt, diff_num hlo hhi]
  omega

theorem seqLeq_num (hlo : -2 ^ 31 ≤ x - y) (hhi : x - y < 2 ^ 31) : seqLeq (num x) (num y) ↔ x ≤ y := by
  rw [seqLeq, diff_num hlo hhi]
  omega

theorem seqLt_irrefl (a : UInt32) : ¬ seqLt a a := by
  have ha := num_toNat a
  rw [← ha, seqLt_num (by omega) (by omega)]
  omega

theorem seqLeq_refl (a : UInt32) : seqLeq a a := by
  rw [seqLeq, diff, UInt32.sub_self]
  decide

theorem num_add_period (x : ℤ) : num (x + 2 ^ 32) = num x := by
  have hzero : num (2 ^ 32) = 0 := by decide
  rw [num_add, hzero, UInt32.add_zero]

theorem exists_num (a b : UInt32) : ∃ x d, a = num x ∧ b = num (x + d) ∧ d = diff b a := by
  have ha : num (0 + diff a (num 0)) = a := num_add_diff 0 a
  refine ⟨0 + diff a (num 0), diff b a, ha.symm, ?_, rfl⟩
  have hb := num_add_diff (0 + diff a (num 0)) b
  rw [ha] at hb
  exact hb.symm

theorem diff_swap (a b : UInt32) :
    diff a b = -diff b a ∨ (diff b a = -2 ^ 31 ∧ diff a b = -2 ^ 31) := by
  obtain ⟨x, d, ha, hb, hd⟩ := exists_num a b
  obtain ⟨hlo, hhi⟩ := diff_bounds b a
  by_cases hedge : d = -2 ^ 31
  · right
    refine ⟨hd ▸ hedge, ?_⟩
    have hnum : b = num (x + 2 ^ 31) := by
      rw [hb, hedge, ← num_add_period (x + -2 ^ 31)]
      congr 1
      omega
    rw [ha, hnum, diff_num (by omega) (by omega)]
    omega
  · rw [← hd, ha, hb, diff_num (by omega) (by omega)]
    omega

theorem eq_succ_of_between (hlt : seqLt a b) (hleq : seqLeq b (a + 1)) : b = a + 1 := by
  obtain ⟨x, d, ha, hb, hd⟩ := exists_num a b
  obtain ⟨-, hhi⟩ := diff_bounds b a
  have hone : a + 1 = num (x + 1) := by
    rw [num_add, ha]
    rfl
  rw [seqLt] at hlt
  rw [hone, hb, seqLeq] at hleq
  have hpos : 0 < d := by
    rcases diff_swap a b with h | ⟨h, -⟩
    · omega
    · have hnum : num (x + d) = num (x + 2 ^ 31) := by
        rw [← num_add_period (x + d)]
        congr 1
        omega
      rw [hnum, diff_num (by omega) (by omega)] at hleq
      omega
  rw [diff_num (by omega) (by omega)] at hleq
  rw [hone, hb]
  congr 1
  omega

theorem eq_half_of_between (hlt : seqLt a b) (hleq : seqLeq b a) : b = a + 2 ^ 31 := by
  obtain ⟨x, d, ha, hb, hd⟩ := exists_num a b
  rw [seqLt] at hlt
  rw [seqLeq] at hleq
  rcases diff_swap a b with h | ⟨h, -⟩
  · omega
  · have hnum : b = num (x + 2 ^ 31) := by
      rw [hb, ← num_add_period (x + d)]
      congr 1
      omega
    rw [hnum, num_add, ha]
    rfl

theorem exists_of_seqLt (h : seqLt a b) : ∃ e : ℤ, 0 < e ∧ e ≤ 2 ^ 31 ∧ b = a + num e := by
  obtain ⟨x, d, ha, hb, hd⟩ := exists_num a b
  obtain ⟨-, hhi⟩ := diff_bounds b a
  rw [seqLt] at h
  rcases diff_swap a b with hswap | ⟨hedge, -⟩
  · exact ⟨d, by omega, by omega, by rw [hb, ha, num_add]⟩
  · refine ⟨2 ^ 31, by omega, by omega, ?_⟩
    rw [hb, ha, ← num_add, ← num_add_period (x + d)]
    congr 1
    omega

theorem diff_of_between {len : ℤ} (hlen : len < 2 ^ 31) (hpos : 0 < len) (hlt : seqLt a b)
    (hbefore : seqLt b (a + num len)) : 0 < diff b a ∧ diff b a < len := by
  obtain ⟨x, d, ha, hb, hd⟩ := exists_num a b
  obtain ⟨-, hhi⟩ := diff_bounds b a
  rw [seqLt] at hlt
  rw [ha, ← num_add, hb, seqLt] at hbefore
  rcases diff_swap a b with h | ⟨h, -⟩
  · rw [diff_num (by omega) (by omega)] at hbefore
    omega
  · have hnum : num (x + d) = num (x + 2 ^ 31) := by
      rw [← num_add_period (x + d)]
      congr 1
      omega
    rw [hnum, diff_num (by omega) (by omega)] at hbefore
    omega

end SimpleKernel.SeqNum
