import Mathlib.Data.Option.Basic

/-! Names as paths in a graph: from every node a label leads to one node at most. -/
namespace SimpleKernel.Naming

variable {ι κ : Type*}

/-- The node that the labels lead to. -/
def walk (next : ι → κ → Option ι) : ι → List κ → Option ι
  | i, [] => some i
  | i, c :: cs => (next i c).bind fun j => walk next j cs

/-- The walk takes the edge with label `c` out of `a`. -/
def Through (next : ι → κ → Option ι) (a : ι) (c : κ) : ι → List κ → Prop
  | _, [] => False
  | i, d :: cs => i = a ∧ d = c ∨ ∃ j, next i d = some j ∧ Through next a c j cs

variable {next next' : ι → κ → Option ι} {a i j : ι} {c d : κ} {cs ds : List κ}

theorem walk_append : walk next i (cs ++ ds) = (walk next i cs).bind fun j => walk next j ds := by
  induction cs generalizing i with
  | nil => rfl
  | cons c cs ih =>
    rw [List.cons_append, walk, walk]
    cases next i c with
    | none => rfl
    | some j => exact ih

theorem walk_concat (hw : walk next i cs = some j) : walk next i (cs ++ [c]) = next j c := by
  rw [walk_append, hw]
  exact Option.bind_fun_some _

theorem through_concat (hw : walk next i cs = some a) : Through next a c i (cs ++ [c]) := by
  induction cs generalizing i with
  | nil =>
    obtain rfl := Option.some.inj hw
    exact .inl ⟨rfl, rfl⟩
  | cons d cs ih =>
    obtain ⟨k, hk, hrest⟩ := Option.bind_eq_some_iff.mp hw
    exact .inr ⟨k, hk, ih hrest⟩

theorem walk_mono (hkept : ∀ i d j, next i d = some j → next' i d = some j) (hw : walk next i cs = some j) :
    walk next' i cs = some j := by
  induction cs generalizing i with
  | nil => exact hw
  | cons d cs ih =>
    obtain ⟨k, hk, hrest⟩ := Option.bind_eq_some_iff.mp hw
    rw [walk, hkept i d k hk]
    exact ih hrest

section edge

/-! All edges but the one with label `c` out of `a` are still there. -/

variable (hkept : ∀ i d j, next i d = some j → ¬(i = a ∧ d = c) → next' i d = some j)

include hkept

theorem walk_kept (hw : walk next i cs = some j) (hnot : ¬Through next a c i cs) : walk next' i cs = some j := by
  induction cs generalizing i with
  | nil => exact hw
  | cons d cs ih =>
    obtain ⟨k, hk, hrest⟩ := Option.bind_eq_some_iff.mp hw
    have hedge : ¬(i = a ∧ d = c) := fun h => hnot (.inl h)
    have hlater : ¬Through next a c k cs := fun h => hnot (.inr ⟨k, hk, h⟩)
    rw [walk, hkept i d k hk hedge]
    exact ih hrest hlater

theorem walk_broken (hw : walk next i cs = some j) (hgone : next' a c = none) (hthrough : Through next a c i cs) :
    walk next' i cs = none := by
  induction cs generalizing i with
  | nil => exact hthrough.elim
  | cons d cs ih =>
    obtain ⟨k, hk, hrest⟩ := Option.bind_eq_some_iff.mp hw
    by_cases hedge : i = a ∧ d = c
    · obtain ⟨rfl, rfl⟩ := hedge
      rw [walk, hgone]
      rfl
    · obtain ⟨k', hk', hlater⟩ := hthrough.resolve_left hedge
      obtain rfl : k = k' := Option.some.inj (hk.symm.trans hk')
      rw [walk, hkept i d k hk hedge]
      exact ih hrest hlater

end edge

end SimpleKernel.Naming
