import SimpleKernel.Dfs.Hints
import Mathlib.Data.BitVec

/-! The search for a clear bit as `bitops.c` makes it, word by word. The model of the file system has it bit by bit. -/
namespace SimpleKernel.Dfs

namespace Words

/-- `bsf`: the lowest bit that is set. For 0 the destination stays as it is. -/
def bsf (x : BitVec 32) : Option ℕ := (List.range 32).find? fun i => x.getLsbD i

/-- `repe scasd` with -1: the first of `n` words that is not full. -/
def scasd (bitmap : ℕ → BitVec 32) (n : ℕ) : Option ℕ := (List.range n).find? fun i => bitmap i != -1

/-- `find_first_zero_bit`; the number of words has no sign. -/
def findFirstZeroBit (bitmap : ℕ → BitVec 32) (len : ℤ) : ℕ :=
  if len = 0 then 0
  else
    let n := ((len + 31) % 2 ^ 32).toNat / 32
    match scasd bitmap n with
    | none => 32 * n
    | some i => 32 * i + (bsf (-1 ^^^ bitmap i)).getD 0

def findNextZeroBit (bitmap : ℕ → BitVec 32) (len start : ℕ) : ℕ :=
  let p := start / 32
  let bit := start % 32
  if len ≤ start then len
  else if bit ≠ 0 then
    let mask := ~~~(bitmap p >>> bit)
    let set := (bsf mask).getD 32
    if set < 32 - bit then set + start
    else start + (32 - bit) + findFirstZeroBit (fun i => bitmap (p + 1 + i)) (len - 32 * (p + 1))
  else start + findFirstZeroBit (fun i => bitmap (p + i)) (len - 32 * p)

def bit (bitmap : ℕ → BitVec 32) (i : ℕ) : Bool := (bitmap (i / 32)).getLsbD (i % 32)

/-- `r` is the least clear bit from `start` to `len`, or `len` if there is none. -/
structure Least (bit : ℕ → Bool) (start len r : ℕ) : Prop where
  start_le : start ≤ r
  le_len : r ≤ len
  below : ∀ i, start ≤ i → i < r → bit i = true
  clear : r < len → bit r = false

variable {bitmap : ℕ → BitVec 32} {len start i j : ℕ}

theorem bit_add (hj : j < 32) : bit bitmap (32 * i + j) = (bitmap i).getLsbD j := by
  rw [bit, Nat.mul_add_div (by decide), Nat.div_eq_of_lt hj, Nat.mul_add_mod, Nat.mod_eq_of_lt hj, Nat.add_zero]

theorem bit_full (h : bitmap (i / 32) = -1) : bit bitmap i = true := by
  rw [bit, h]
  exact BitVec.getLsbD_allOnes.trans (decide_eq_true (Nat.mod_lt _ (by decide)))

theorem bit_shift (k : ℕ) : bit (fun i => bitmap (k + i)) = fun j => bit bitmap (32 * k + j) := by
  funext j
  rw [bit, bit, Nat.mul_add_div (by decide), Nat.mul_add_mod]

theorem bsf_not {x : BitVec 32} (hx : x ≠ -1) :
    ∃ j < 32, bsf (-1 ^^^ x) = some j ∧ x.getLsbD j = false ∧ ∀ k < j, x.getLsbD k = true := by
  have hflip (k : ℕ) (hk : k < 32) : (-1 ^^^ x).getLsbD k = !x.getLsbD k := by
    have hone : (-1 : BitVec 32).getLsbD k = true := BitVec.getLsbD_allOnes.trans (decide_eq_true hk)
    rw [BitVec.getLsbD_xor, hone, Bool.true_xor]
  cases h : bsf (-1 ^^^ x) with
  | none =>
    refine absurd (BitVec.eq_of_getLsbD_eq fun k hk => ?_) hx
    have hnone := List.find?_range_eq_none.mp h k hk
    rw [hflip k hk, Bool.not_not] at hnone
    rw [hnone]
    exact (BitVec.getLsbD_allOnes.trans (decide_eq_true hk)).symm
  | some j =>
    obtain ⟨hj, hmem, hless⟩ := List.find?_range_eq_some.mp h
    have hlt := List.mem_range.mp hmem
    rw [hflip j hlt, Bool.not_eq_true'] at hj
    refine ⟨j, hlt, rfl, hj, fun k hk => ?_⟩
    have hset := hless k hk
    rwa [hflip k (hk.trans hlt), Bool.not_not] at hset

theorem bsf_mask {x : BitVec 32} {b : ℕ} (hb : 0 < b) (hlt : b < 32) :
    ∃ j ≤ 32 - b, bsf (~~~(x >>> b)) = some j ∧ (j < 32 - b → x.getLsbD (b + j) = false) ∧
      ∀ k < j, x.getLsbD (b + k) = true := by
  have hbit (k : ℕ) (hk : k < 32) : (~~~(x >>> b)).getLsbD k = !x.getLsbD (b + k) := by
    rw [BitVec.getLsbD_not, BitVec.getLsbD_ushiftRight, decide_eq_true hk, Bool.true_and]
  have htop : x.getLsbD (b + (32 - b)) = false := BitVec.getLsbD_of_ge _ _ (by omega)
  cases h : bsf (~~~(x >>> b)) with
  | none =>
    have hnone := List.find?_range_eq_none.mp h (32 - b) (by omega)
    rw [hbit _ (by omega), htop] at hnone
    exact absurd hnone (by decide)
  | some j =>
    obtain ⟨hj, hmem, hless⟩ := List.find?_range_eq_some.mp h
    have hj32 := List.mem_range.mp hmem
    rw [hbit j hj32, Bool.not_eq_true'] at hj
    have hset (k : ℕ) (hk : k < j) : x.getLsbD (b + k) = true := by
      have hnot := hless k hk
      rwa [hbit k (hk.trans hj32), Bool.not_not] at hnot
    refine ⟨j, not_lt.mp fun hgt => ?_, rfl, fun _ => hj, hset⟩
    rw [hset _ hgt] at htop
    cases htop

theorem scanZero_eq {f : ℕ → Bool} {n i r : ℕ} (hge : i ≤ r) (hle : r ≤ i + n)
    (hones : ∀ k, i ≤ k → k < r → f k = true) (hzero : r < i + n → f r = false) : scanZero f n i = r := by
  obtain ⟨hge', hle', hones', hzero'⟩ := scanZero_spec f n i
  rcases Nat.lt_trichotomy (scanZero f n i) r with hlt | heq | hgt
  · have hset := hones _ hge' hlt
    rw [hzero' (by omega)] at hset
    cases hset
  · exact heq
  · have hset := hones' r hge hgt
    rw [hzero (by omega)] at hset
    cases hset

theorem findFirstZeroBit_eq (hlen : len < 2 ^ 31) :
    findFirstZeroBit bitmap len = Dfs.findFirstZeroBit (bit bitmap) len := by
  rw [findFirstZeroBit, Dfs.findFirstZeroBit]
  simp only [Nat.cast_eq_zero]
  split
  · rfl
  · have hn : (((len : ℤ) + 31) % 2 ^ 32).toNat / 32 = (len + 31) / 32 := by omega
    rw [hn]
    generalize (len + 31) / 32 = n
    cases h : scasd bitmap n with
    | none =>
      have hfull := List.find?_range_eq_none.mp h
      dsimp only
      refine (scanZero_eq (Nat.zero_le _) (by omega) (fun k _ hk => ?_) fun hlt => by omega).symm
      exact bit_full (by simpa using hfull (k / 32) (by omega))
    | some i =>
      obtain ⟨hi, hmem, hfull⟩ := List.find?_range_eq_some.mp h
      have hin := List.mem_range.mp hmem
      obtain ⟨j, hj, hbsf, hclear, hset⟩ := bsf_not (bne_iff_ne.mp hi)
      dsimp only
      rw [hbsf]
      refine (scanZero_eq (Nat.zero_le _) (by omega) (fun k _ hk => ?_) fun _ => (bit_add hj).trans hclear).symm
      by_cases hword : k < 32 * i
      · exact bit_full (by simpa using hfull (k / 32) (by omega))
      · obtain ⟨l, rfl⟩ := Nat.exists_eq_add_of_le (not_lt.mp hword)
        exact (bit_add (by omega)).trans (hset l (by omega))

theorem findNextZeroBit_eq (hlen : len < 2 ^ 31) (ht : TailClear (bit bitmap) len) (start : ℕ) :
    findNextZeroBit bitmap len start = Dfs.findNextZeroBit (bit bitmap) len start := by
  have hword (k : ℕ) (hk : 32 * k ≤ len) : findFirstZeroBit (fun i => bitmap (k + i)) (len - 32 * k) =
      Dfs.findFirstZeroBit (fun j => bit bitmap (32 * k + j)) (len - 32 * k) := by
    have hcast : (len : ℤ) - 32 * k = (len - 32 * k : ℕ) := by omega
    rw [hcast, findFirstZeroBit_eq (by omega), bit_shift]
  have hsplit := Nat.div_add_mod start 32
  rw [findNextZeroBit, Dfs.findNextZeroBit]
  dsimp only
  split
  · rfl
  next hlt =>
  split
  · next hbit =>
    obtain ⟨j, hj, hbsf, hclear, hset⟩ :=
      bsf_mask (Nat.pos_of_ne_zero hbit) (Nat.mod_lt _ (by decide))
    have hat (k : ℕ) (hk : start % 32 + k < 32) :
        bit bitmap (start + k) = (bitmap (start / 32)).getLsbD (start % 32 + k) := by
      rw [← bit_add hk, ← Nat.add_assoc, hsplit]
    have hones (k : ℕ) (hk : k < j) : bit bitmap (start + k) = true := (hat k (by omega)).trans (hset k hk)
    have hscan : scanZero (bit bitmap) (32 - start % 32) start = start + j := by
      refine scanZero_eq (Nat.le_add_right _ _) (by omega) (fun k hge hk => ?_) fun hk => ?_
      · obtain ⟨l, rfl⟩ := Nat.exists_eq_add_of_le hge
        exact hones l (by omega)
      · exact (hat j (by omega)).trans (hclear (by omega))
    rw [hbsf, Option.getD_some, hscan, Nat.add_sub_cancel_left]
    split
    · rfl
    · next hall =>
      -- the word of `start` is full from there on, so the bitmap goes on behind it
      have hend : start + (32 - start % 32) = 32 * (start / 32 + 1) := by omega
      have hle : 32 * (start / 32 + 1) ≤ len := by
        by_contra hgt
        have hlast := hones (len - start) (by omega)
        rw [Nat.add_sub_cancel' (not_le.mp hlt).le, ht (by omega)] at hlast
        cases hlast
      rw [hend, ← hword _ hle, Nat.cast_add, Nat.cast_one]
  · next hbit =>
    have hstart : start = 32 * (start / 32) := by omega
    have hfirst := hword (start / 32) (by omega)
    rw [← hstart] at hfirst
    exact congrArg (start + ·) hfirst

theorem Least.of_found {f : ℕ → Bool} {r : ℕ} (hge : start ≤ r) (h : Found f len r)
    (hbelow : ∀ i, start ≤ i → i < r → i < len → f i = true) : Least f start len r := by
  have hle : r ≤ len := by
    rcases h with rfl | ⟨hlt, -⟩
    · exact le_rfl
    · exact hlt.le
  refine ⟨hge, hle, fun i hi hir => hbelow i hi hir (hir.trans_le hle), fun hlt => ?_⟩
  exact (h.resolve_left hlt.ne).2

theorem zero_bit_search (bitmap : ℕ → BitVec 32) (hlen : len < 2 ^ 31) (hstart : start ≤ len)
    (hpad : ∀ i, len ≤ i → i < 32 * ((len + 31) / 32) → bit bitmap i = false) :
    Least (bit bitmap) start len (findNextZeroBit bitmap len start) ∧
      Least (bit bitmap) 0 len (findFirstZeroBit bitmap len) := by
  have ht : TailClear (bit bitmap) len := fun hmod => hpad len le_rfl (by omega)
  rw [findNextZeroBit_eq hlen ht, findFirstZeroBit_eq hlen]
  constructor
  · refine .of_found ?_ (findNextZeroBit_spec ht start) fun i => findNextZeroBit_below
    rw [Dfs.findNextZeroBit]
    dsimp only
    split_ifs <;> omega
  · exact .of_found (Nat.zero_le _) (findFirstZeroBit_spec ht) fun i _ hir _ => findFirstZeroBit_below hir

/-- Forty bits of which the first 35 are set. -/
def someBits : ℕ → BitVec 32 := fun i => if i = 0 then -1 else if i = 1 then 7 else 0

theorem zero_bit_search_some :
    Least (bit someBits) 33 40 (findNextZeroBit someBits 40 33) ∧
      Least (bit someBits) 0 40 (findFirstZeroBit someBits 40) := by
  refine zero_bit_search someBits (by decide) (by decide) fun i hlo hhi => ?_
  have hbits : ∀ i < 64, 40 ≤ i → bit someBits i = false := by decide
  exact hbits i hhi hlo

end Words
end SimpleKernel.Dfs
