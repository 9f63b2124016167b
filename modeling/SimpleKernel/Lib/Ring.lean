import Mathlib.Data.List.Basic
import Mathlib.Data.Nat.ModEq

/-! Circular buffers: a list is stored in `size` slots from slot `out` on. -/
namespace SimpleKernel.Ring

variable {α : Type*} {elems : ℕ → α} {size out : ℕ} {x : α} {xs : List α}

/-- The slot after `i`. -/
def next (size i : ℕ) : ℕ := if i + 1 = size then 0 else i + 1

theorem next_lt {i : ℕ} (h : i < size) : next size i < size := by
  unfold next
  split_ifs <;> omega

theorem next_eq_mod {i : ℕ} (h : i < size) : next size i = (i + 1) % size := by
  unfold next
  split_ifs with hi
  · rw [hi, Nat.mod_self]
  · rw [Nat.mod_eq_of_lt (by omega)]

/-- The slots from `out` on hold the list `xs`. -/
structure IsRing (elems : ℕ → α) (size out : ℕ) (xs : List α) : Prop where
  out_lt : out < size
  length_le : xs.length ≤ size
  get : ∀ i x, xs[i]? = some x → elems ((out + i) % size) = x

theorem isRing_nil (h : out < size) : IsRing elems size out [] :=
  ⟨h, Nat.zero_le _, by simp⟩

theorem slot_ne {i j : ℕ} (hij : i < j) (hj : j < size) :
    (out + i) % size ≠ (out + j) % size := by
  intro he
  have hmod : i ≡ j [MOD size] := Nat.ModEq.add_left_cancel' out he
  rw [Nat.ModEq, Nat.mod_eq_of_lt (hij.trans hj), Nat.mod_eq_of_lt hj] at hmod
  omega

theorem IsRing.push (h : IsRing elems size out xs) (hlt : xs.length < size) (x : α) :
    IsRing (Function.update elems ((out + xs.length) % size) x) size out (xs ++ [x]) := by
  refine ⟨h.out_lt, ?_, fun i y hi => ?_⟩
  · rw [List.length_append]
    exact hlt
  · rcases Nat.lt_trichotomy i xs.length with hlt' | rfl | hgt
    · rw [List.getElem?_append_left hlt'] at hi
      rw [Function.update_of_ne (slot_ne hlt' hlt)]
      exact h.get i y hi
    · rw [List.getElem?_concat_length] at hi
      rw [Function.update_self]
      exact Option.some.inj hi
    · rw [List.getElem?_eq_none (by simp; omega)] at hi
      simp at hi

theorem IsRing.head (h : IsRing elems size out (x :: xs)) : elems out = x := by
  have := h.get 0 x rfl
  rwa [Nat.add_zero, Nat.mod_eq_of_lt h.out_lt] at this

theorem IsRing.pop (h : IsRing elems size out (x :: xs)) : IsRing elems size (next size out) xs := by
  refine ⟨next_lt h.out_lt, Nat.le_of_succ_le h.length_le, fun i y hi => ?_⟩
  have hget := h.get (i + 1) y hi
  rwa [next_eq_mod h.out_lt, Nat.mod_add_mod, Nat.add_right_comm]

theorem next_push (h : IsRing elems size out xs) :
    next size ((out + xs.length) % size) = (out + (xs ++ [x]).length) % size := by
  have hpos : 0 < size := Nat.zero_lt_of_lt h.out_lt
  rw [next_eq_mod (Nat.mod_lt _ hpos), Nat.mod_add_mod, List.length_append, List.length_singleton,
    Nat.add_assoc]

theorem next_pop (h : IsRing elems size out (x :: xs)) :
    (next size out + xs.length) % size = (out + (x :: xs).length) % size := by
  rw [next_eq_mod h.out_lt, Nat.mod_add_mod, List.length_cons, Nat.add_assoc,
    Nat.add_comm 1]

end SimpleKernel.Ring
