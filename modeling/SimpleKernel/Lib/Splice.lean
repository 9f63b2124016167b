import Mathlib.Data.List.Basic

/-! Sequences in which a part is written over, what in them was never written, and byte arrays that are
written from an offset on. -/
namespace SimpleKernel.Splice

variable {α : Type*} {c a b : List α} {pos i start o : ℕ}

/-- `c` with `a` written over it from `pos` on. -/
def splice (c : List α) (pos : ℕ) (a : List α) : List α := c.take pos ++ a ++ c.drop (pos + a.length)

theorem length_splice (h : pos ≤ c.length) : (splice c pos a).length = max c.length (pos + a.length) := by
  simp only [splice, List.length_append, List.length_take, List.length_drop]
  omega

theorem getElem?_splice_mem (h : pos ≤ c.length) (hi : pos ≤ i) (hlt : i < pos + a.length) :
    (splice c pos a)[i]? = a[i - pos]? := by
  have hlen : (c.take pos).length = pos := by simp [h]
  rw [splice, List.append_assoc, List.getElem?_append_right (by omega), hlen,
    List.getElem?_append_left (by omega)]

theorem getElem?_splice_of_lt (h : pos ≤ c.length) (hi : i < pos) : (splice c pos a)[i]? = (c)[i]? := by
  have hlen : (c.take pos).length = pos := by simp [h]
  rw [splice, List.append_assoc, List.getElem?_append_left (by omega), List.getElem?_take_of_lt hi]

theorem getElem?_splice_of_ge (h : pos ≤ c.length) (hi : pos + a.length ≤ i) :
    (splice c pos a)[i]? = (c)[i]? := by
  have hlen : (c.take pos).length = pos := by simp [h]
  rw [splice, List.getElem?_append_right (by simp; omega), List.getElem?_drop]
  congr 1
  simp only [List.length_append]
  omega

theorem splice_nil (c : List α) (pos : ℕ) : splice c pos [] = c := by simp [splice]

theorem take_drop_splice (h : pos ≤ c.length) : ((splice c pos a).drop pos).take a.length = a := by
  rw [splice, List.append_assoc, List.drop_left' (by simp [h]), List.take_left' rfl]

theorem splice_append (h : pos ≤ c.length) (a b : List α) :
    splice (splice c pos a) (pos + a.length) b = splice c pos (a ++ b) := by
  have hpos : pos + a.length ≤ (splice c pos a).length := by
    rw [length_splice h]
    omega
  apply List.ext_getElem?
  intro i
  rcases Nat.lt_or_ge i pos with hi | hi
  · rw [getElem?_splice_of_lt hpos (by omega), getElem?_splice_of_lt h hi, getElem?_splice_of_lt h hi]
  rcases Nat.lt_or_ge i (pos + a.length) with hi' | hi'
  · rw [getElem?_splice_of_lt hpos hi', getElem?_splice_mem h hi hi',
      getElem?_splice_mem h hi (by simp; omega), List.getElem?_append_left (by omega)]
  rcases Nat.lt_or_ge i (pos + a.length + b.length) with hi'' | hi''
  · rw [getElem?_splice_mem hpos hi' hi'', getElem?_splice_mem h hi (by simp; omega),
      List.getElem?_append_right (by omega)]
    congr 1
    omega
  · rw [getElem?_splice_of_ge hpos hi'', getElem?_splice_of_ge h hi',
      getElem?_splice_of_ge h (by simp; omega)]

/-! Elements that were written, and the others, which are all `z`. -/

/-- The positions from `lo` on and below `hi` are marked with `v`. -/
def mark (written : ℕ → Bool) (lo hi : ℕ) (v : Bool) : ℕ → Bool := fun i =>
  if lo ≤ i ∧ i < hi then v else written i

theorem mark_mem (written : ℕ → Bool) (v : Bool) {lo hi : ℕ} (h : lo ≤ i ∧ i < hi) :
    mark written lo hi v i = v := if_pos h

theorem mark_of_not (written : ℕ → Bool) (v : Bool) {lo hi : ℕ} (h : ¬ (lo ≤ i ∧ i < hi)) :
    mark written lo hi v i = written i := if_neg h

theorem mark_empty (written : ℕ → Bool) (v : Bool) {lo hi : ℕ} (h : hi ≤ lo) :
    mark written lo hi v = written :=
  funext fun _ => mark_of_not written v (by omega)

/-- What was not written is `z`. -/
def Blank (z : α) (c : List α) (written : ℕ → Bool) : Prop :=
  ∀ i x, (c)[i]? = some x → written i = false → x = z

section Blank
variable {z : α} {written : ℕ → Bool}

theorem Blank.take (h : Blank z c written) (k : ℕ) : Blank z (c.take k) written := by
  intro i x hx hw
  rw [List.getElem?_take] at hx
  split at hx
  · exact h i x hx hw
  · simp at hx

theorem blank_append_iff (h : Blank z c written) (k : ℕ) (g : ℕ → α) :
    Blank z (c ++ (List.range' c.length k).map g) (mark written c.length (c.length + k) false) ↔
      ∀ i, c.length ≤ i → i < c.length + k → g i = z := by
  have hnew {i : ℕ} (hle : c.length ≤ i) (hlt : i < c.length + k) :
      (c ++ (List.range' c.length k).map g)[i]? = some (g i) := by
    rw [List.getElem?_append_right hle, List.getElem?_map, List.getElem?_range' (by omega),
      Option.map_some]
    congr 2
    omega
  constructor
  · intro hb i hle hlt
    exact hb i (g i) (hnew hle hlt) (mark_mem written false ⟨hle, hlt⟩)
  · intro hg i x hx hw
    rcases Nat.lt_or_ge i c.length with hi | hi
    · rw [List.getElem?_append_left hi] at hx
      rw [mark_of_not written false (by omega)] at hw
      exact h i x hx hw
    · have hlt : i < c.length + k := by
        have := (List.getElem?_eq_some_iff.mp hx).1
        simpa using this
      rw [hnew hi hlt] at hx
      exact (Option.some.inj hx).symm.trans (hg i hi hlt)

theorem blank_splice_iff (hpos : pos ≤ c.length) (a : List α)
    (hold : ∀ i x, (c)[i]? = some x → written i = false → pos ≤ i → i < pos + a.length → x = z) :
    Blank z (splice c pos a) (mark written pos (pos + a.length) true) ↔ Blank z c written := by
  constructor
  · intro hb i x hx hw
    by_cases hmem : pos ≤ i ∧ i < pos + a.length
    · exact hold i x hx hw hmem.1 hmem.2
    · apply hb i x
      · rcases Nat.lt_or_ge i pos with hi | hi
        · rwa [getElem?_splice_of_lt hpos hi]
        · rwa [getElem?_splice_of_ge hpos (by omega)]
      · rwa [mark_of_not written true hmem]
  · intro hb i x hx hw
    by_cases hmem : pos ≤ i ∧ i < pos + a.length
    · rw [mark_mem written true hmem] at hw
      simp at hw
    · rw [mark_of_not written true hmem] at hw
      rcases Nat.lt_or_ge i pos with hi | hi
      · rw [getElem?_splice_of_lt hpos hi] at hx
        exact hb i x hx hw
      · rw [getElem?_splice_of_ge hpos (by omega)] at hx
        exact hb i x hx hw

end Blank

/-- `memcpy` to `start`. -/
def patch (data : ℕ → α) (start : ℕ) (a : List α) : ℕ → α := fun o =>
  if start ≤ o then a[o - start]?.getD (data o) else data o

theorem patch_mem (data : ℕ → α) (ho : start ≤ o) (hlt : o < start + a.length) :
    some (patch data start a o) = a[o - start]? := by
  rw [patch, if_pos ho, List.getElem?_eq_getElem (by omega)]
  rfl

theorem patch_of_lt (data : ℕ → α) (ho : o < start) : patch data start a o = data o := by
  rw [patch, if_neg (by omega)]

theorem patch_of_ge (data : ℕ → α) (ho : start + a.length ≤ o) : patch data start a o = data o := by
  rw [patch]
  split
  · rw [List.getElem?_eq_none (by omega)]
    rfl
  · rfl

end SimpleKernel.Splice
