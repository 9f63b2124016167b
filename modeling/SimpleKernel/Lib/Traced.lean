import Mathlib.Data.List.Basic

/-! Computations on a state that log events. A relation between the events so far and a new one
says which events are admitted. -/
namespace SimpleKernel

/-- The value, the new state and the events, oldest first. -/
def Traced (σ ε α : Type) : Type := σ → α × σ × List ε

namespace Traced

variable {σ ε α β : Type}

instance : Monad (Traced σ ε) where
  pure a := fun s => (a, s, [])
  bind m f := fun s =>
    let r := m s
    let r' := f r.1 r.2.1
    (r'.1, r'.2.1, r.2.2 ++ r'.2.2)

/-- The events of `m` in state `s`. -/
def log (m : Traced σ ε α) (s : σ) : List ε := (m s).2.2

/-- The value of `m` in state `s`. -/
def value (m : Traced σ ε α) (s : σ) : α := (m s).1

/-- The state that `m` leaves. -/
def after (m : Traced σ ε α) (s : σ) : σ := (m s).2.1

variable {m : Traced σ ε α} {f : α → Traced σ ε β} {s : σ} {a : α} {e : ε} {es known : List ε}

@[simp] theorem log_pure : (pure a : Traced σ ε α).log s = [] := rfl

@[simp] theorem value_pure : (pure a : Traced σ ε α).value s = a := rfl

@[simp] theorem after_pure : (pure a : Traced σ ε α).after s = s := rfl

@[simp] theorem log_bind : (m >>= f).log s = m.log s ++ (f (m.value s)).log (m.after s) := rfl

@[simp] theorem value_bind : (m >>= f).value s = (f (m.value s)).value (m.after s) := rfl

@[simp] theorem after_bind : (m >>= f).after s = (f (m.value s)).after (m.after s) := rfl

@[simp] theorem pure_eq : (pure a : Traced σ ε α) s = (a, s, []) := rfl

theorem bind_eq {s' : σ} (h : m s = (a, s', es)) :
    (m >>= f) s = ((f a s').1, (f a s').2.1, es ++ (f a s').2.2) := by
  change ((f (m s).1 (m s).2.1).1, (f (m s).1 (m s).2.1).2.1, (m s).2.2 ++ (f (m s).1 (m s).2.1).2.2) = _
  rw [h]

variable {R : List ε → ε → Prop}

/-- Every event is admitted by those before it; `known` came before all of them. -/
def Admitted (R : List ε → ε → Prop) : List ε → List ε → Prop
  | _, [] => True
  | known, e :: es => R known e ∧ Admitted R (e :: known) es

/-- What is known only helps. -/
def Monotone (R : List ε → ε → Prop) : Prop := ∀ l l' e, l ⊆ l' → R l e → R l' e

theorem Admitted.mono (hR : Monotone R) {known' : List ε} (h : Admitted R known es)
    (hsub : known ⊆ known') : Admitted R known' es := by
  induction es generalizing known known' with
  | nil => exact trivial
  | cons e es ih =>
    exact ⟨hR _ _ _ hsub h.1, ih h.2 (List.cons_subset_cons e hsub)⟩

theorem admitted_append {es' : List ε} :
    Admitted R known (es ++ es') ↔ Admitted R known es ∧ Admitted R (es.reverse ++ known) es' := by
  induction es generalizing known with
  | nil => simp [Admitted]
  | cons e es ih =>
    rw [List.cons_append, Admitted, Admitted, ih, and_assoc, List.reverse_cons, List.append_assoc,
      List.singleton_append]

/-- Whatever is logged when the events `known` have been, is admitted. -/
def Careful (R : List ε → ε → Prop) (known : List ε) (m : Traced σ ε α) : Prop :=
  ∀ s, Admitted R known (m.log s)

theorem careful_pure : Careful R known (pure a : Traced σ ε α) := fun _ => trivial

theorem Careful.mono (hR : Monotone R) {known' : List ε} (h : Careful R known m)
    (hsub : known ⊆ known') : Careful R known' m :=
  fun s => (h s).mono hR hsub

theorem Careful.bind_log (h : Careful R known m)
    (hf : ∀ s, Admitted R ((m.log s).reverse ++ known) ((f (m.value s)).log (m.after s))) :
    Careful R known (m >>= f) := by
  intro s
  rw [log_bind, admitted_append]
  exact ⟨h s, hf s⟩

theorem Careful.bind (hR : Monotone R) (h : Careful R known m)
    (hf : ∀ a, Careful R known (f a)) : Careful R known (m >>= f) := by
  refine h.bind_log fun s => ?_
  exact (hf _ _).mono hR (List.subset_append_right _ _)

theorem not_careful_bind (h : ¬ Admitted R known (m.log s)) :
    ¬ Admitted R known ((m >>= f).log s) := by
  rw [log_bind, admitted_append]
  exact fun hx => h hx.1

/-- A computation that logs nothing. -/
def Silent (m : Traced σ ε α) : Prop := ∀ s, m.log s = []

theorem Silent.careful (h : Silent m) : Careful R known m := by
  intro s
  rw [h s]
  exact trivial

theorem silent_pure : Silent (pure a : Traced σ ε α) := fun _ => rfl

theorem Silent.bind (h : Silent m) (hf : ∀ a, Silent (f a)) : Silent (m >>= f) := by
  intro s
  rw [log_bind, h s, hf _ _]
  rfl

/-- A computation that leaves the part `v` of the state as it is. -/
def Keeps {γ : Type} (v : σ → γ) (m : Traced σ ε α) : Prop := ∀ s, v (m.after s) = v s

theorem keeps_pure {γ : Type} {v : σ → γ} : Keeps v (pure a : Traced σ ε α) := fun _ => rfl

theorem Keeps.bind {γ : Type} {v : σ → γ} (h : Keeps v m) (hf : ∀ a, Keeps v (f a)) :
    Keeps v (m >>= f) := by
  intro s
  rw [after_bind, hf, h]

variable {P : ε → Prop} {Q : β → Prop}

/-- All events of `m` in state `s` satisfy `P`, and its value satisfies `Q`. -/
def Ends (P : ε → Prop) (Q : α → Prop) (m : Traced σ ε α) (s : σ) : Prop :=
  (∀ e ∈ m.log s, P e) ∧ Q (m.value s)

theorem ends_pure {Q : α → Prop} : Ends P Q (pure a : Traced σ ε α) s ↔ Q a := by
  simp [Ends]

theorem ends_bind {s' : σ} (h : m s = (a, s', es)) :
    Ends P Q (m >>= f) s ↔ (∀ e ∈ es, P e) ∧ Ends P Q (f a) s' := by
  rw [Ends, Ends, log_bind, List.forall_mem_append, value_bind, and_assoc, log, value, after, h]

theorem ends_ite {c : Prop} [Decidable c] {m m' : Traced σ ε β} :
    Ends P Q (if c then m else m') s ↔ (c → Ends P Q m s) ∧ (¬ c → Ends P Q m' s) := by
  split
  · next h => exact ⟨fun hm => ⟨fun _ => hm, fun hc => absurd h hc⟩, fun hm => hm.1 h⟩
  · next h => exact ⟨fun hm => ⟨fun hc => absurd hc h, fun _ => hm⟩, fun hm => hm.2 h⟩

end Traced

end SimpleKernel
