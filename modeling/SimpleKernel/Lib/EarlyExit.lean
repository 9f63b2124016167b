import Mathlib.Data.List.Basic
import Mathlib.Data.Nat.Basic

/-! Counting loops that may be left early. -/
namespace SimpleKernel

variable {σ ε : Type*}

/-- `body` for the `n` indices from `i` on. -/
def countLoop (body : ℕ → σ → Except ε σ) : ℕ → ℕ → σ → Except ε σ
  | 0, _, s => .ok s
  | n + 1, i, s => (body i s).bind (countLoop body n (i + 1))

/-- What a turn may come to: it goes on with `P`, or leaves the loop with `Q`. -/
def Turn (P : σ → Prop) (Q : ε → Prop) : Except ε σ → Prop
  | .ok s => P s
  | .error e => Q e

/-- The invariant `P i` holds before the turn with index `i`; a turn that leaves the loop establishes `Q i`. -/
theorem countLoop_spec {body : ℕ → σ → Except ε σ} {P : ℕ → σ → Prop} {Q : ℕ → ε → Prop} {n i : ℕ}
    (hbody : ∀ j s, i ≤ j → j < i + n → P j s → Turn (P (j + 1)) (Q j) (body j s)) {s : σ} (h : P i s) :
    Turn (P (i + n)) (fun e => ∃ j, j < i + n ∧ Q j e) (countLoop body n i s) := by
  induction n generalizing i s with
  | zero => exact h
  | succ n ih =>
    have hturn := hbody i s (Nat.le_refl i) (by omega) h
    unfold countLoop
    cases hb : body i s with
    | error e =>
      rw [hb] at hturn
      exact ⟨i, by omega, hturn⟩
    | ok s' =>
      rw [hb] at hturn
      have hrest := ih (fun j s hj hjn => hbody j s (by omega) (by omega)) hturn
      rw [show i + (n + 1) = i + 1 + n by omega]
      exact hrest

theorem foldlM_range {body : σ → ℕ → Option σ} {P : ℕ → σ → Prop} {n : ℕ} {s s' : σ}
    (hrun : (List.range n).foldlM body s = some s') (h : P 0 s)
    (hbody : ∀ i s s', i < n → P i s → body s i = some s' → P (i + 1) s') : P n s' := by
  induction n generalizing s' with
  | zero =>
    obtain rfl := Option.some.inj hrun
    exact h
  | succ n ih =>
    rw [List.range_succ, List.foldlM_append] at hrun
    obtain ⟨s₁, hrun₁, hlast⟩ := Option.bind_eq_some_iff.mp hrun
    obtain ⟨s₂, hbody₂, hlast⟩ := Option.bind_eq_some_iff.mp hlast
    obtain rfl := Option.some.inj hlast
    exact hbody n s₁ s₂ (Nat.lt_succ_self n)
      (ih hrun₁ fun i s s' hi => hbody i s s' (Nat.lt_succ_of_lt hi)) hbody₂

theorem foldlM_range_some {body : σ → ℕ → Option σ} {P : ℕ → σ → Prop} {n : ℕ} {s : σ} (h : P 0 s)
    (hbody : ∀ i s, i < n → P i s → ∃ s', body s i = some s' ∧ P (i + 1) s') :
    ∃ s', (List.range n).foldlM body s = some s' ∧ P n s' := by
  induction n with
  | zero => exact ⟨s, rfl, h⟩
  | succ n ih =>
    obtain ⟨s₁, hrun₁, h₁⟩ := ih fun i s hi => hbody i s (Nat.lt_succ_of_lt hi)
    obtain ⟨s₂, hbody₂, h₂⟩ := hbody n s₁ (Nat.lt_succ_self n) h₁
    refine ⟨s₂, ?_, h₂⟩
    rw [List.range_succ, List.foldlM_append, hrun₁]
    simp [hbody₂]

end SimpleKernel
