import Mathlib.Logic.Relation

/-! Nodes that are reached from a root through edges, and what is still reached after edges were moved
or removed. -/
namespace SimpleKernel.Forest
open Relation

variable {α : Type*} {E E' : α → α → Prop} {root i a b x : α}

theorem reach_of_leaf (hleaf : ∀ y, ¬ E i y) (hkeep : ∀ p y, y ≠ i → E p y → E' p y) (hne : x ≠ i)
    (hx : ReflTransGen E root x) : ReflTransGen E' root x := by
  induction hx with
  | refl => exact .refl
  | tail hp hedge ih =>
    rename_i p y
    have hpi : p ≠ i := by
      rintro rfl
      exact hleaf y hedge
    exact (ih hpi).tail (hkeep p y hne hedge)

theorem reach_or_below (hkeep : ∀ p y, y ≠ i → E p y → E' p y) (hx : ReflTransGen E root x) :
    ReflTransGen E' root x ∨ ReflTransGen E i x := by
  induction hx with
  | refl => exact .inl .refl
  | tail hp hedge ih =>
    rename_i p y
    rcases ih with hreach | hbelow
    · by_cases hy : y = i
      · subst hy
        exact .inr .refl
      · exact .inl (hreach.tail (hkeep p y hy hedge))
    · exact .inr (hbelow.tail hedge)

theorem reach_of_move (hkeep : ∀ p y, y ≠ i → E p y → E' p y) (hnew : E' b i)
    (hb : ReflTransGen E root b) (hbelow : ¬ ReflTransGen E i b) (hx : ReflTransGen E root x) :
    ReflTransGen E' root x := by
  have hi : ReflTransGen E' root i := by
    rcases reach_or_below hkeep hb with hreach | hno
    · exact hreach.tail hnew
    · exact absurd hno hbelow
  induction hx with
  | refl => exact .refl
  | tail hp hedge ih =>
    rename_i p y
    by_cases hy : y = i
    · subst hy
      exact hi
    · exact ih.tail (hkeep p y hy hedge)

theorem acyclic (hroot : ∀ p, ¬ E p root)
    (hunique : ∀ p q x y, E p x → E q x → E x y → p = q) (hx : ReflTransGen E root x) :
    ¬ TransGen E x x := by
  induction hx with
  | refl =>
    intro hloop
    obtain ⟨p, -, hp⟩ := TransGen.tail'_iff.mp hloop
    exact hroot p hp
  | tail hp hedge ih =>
    rename_i p y
    intro hloop
    -- the edge that closes the cycle comes from the parent
    obtain ⟨q, hyq, hqy⟩ := TransGen.tail'_iff.mp hloop
    obtain ⟨z, hyz, -⟩ := TransGen.head'_iff.mp hloop
    obtain rfl := hunique p q y z hedge hqy hyz
    exact ih (TransGen.head' hedge hyq)

end SimpleKernel.Forest
