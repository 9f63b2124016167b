import Mathlib.Logic.Basic

/-! Two computations that may fail, run side by side. -/
namespace SimpleKernel

universe u v

variable {ε : Type*} {α γ : Type u} {β δ : Type v} {R : α → β → Prop} {S : γ → δ → Prop}
  {x : Except ε α} {y : Except ε β} {b : β} {e : ε}

/-- Both fail with the same error, or both succeed with related results. -/
inductive Lockstep (R : α → β → Prop) : Except ε α → Except ε β → Prop
  | error (e : ε) : Lockstep R (.error e) (.error e)
  | ok {a : α} {b : β} (h : R a b) : Lockstep R (.ok a) (.ok b)

theorem Lockstep.bind {f : α → Except ε γ} {g : β → Except ε δ} (h : Lockstep R x y)
    (hf : ∀ a b, x = .ok a → y = .ok b → R a b → Lockstep S (f a) (g b)) :
    Lockstep S (x >>= f) (y >>= g) := by
  cases h with
  | error e => exact .error e
  | ok h => exact hf _ _ rfl rfl h

theorem Lockstep.bind_right {S : α → δ → Prop} {g : β → δ} (h : Lockstep R x y)
    (hR : ∀ a b, R a b → S a (g b)) : Lockstep S x (y >>= fun b => pure (g b)) := by
  cases h with
  | error e => exact .error e
  | ok h => exact .ok (hR _ _ h)

theorem Lockstep.mono {R' : α → β → Prop} (h : Lockstep R x y) (hR : ∀ a b, R a b → R' a b) :
    Lockstep R' x y := by
  cases h with
  | error e => exact .error e
  | ok h => exact .ok (hR _ _ h)

theorem Lockstep.error_iff (h : Lockstep R x y) : x = .error e ↔ y = .error e := by
  cases h with
  | error e' => simp
  | ok h => simp

theorem Lockstep.of_ok (h : Lockstep R x (.ok b)) : ∃ a, x = .ok a ∧ R a b := by
  cases h with
  | ok h => exact ⟨_, rfl, h⟩

end SimpleKernel
