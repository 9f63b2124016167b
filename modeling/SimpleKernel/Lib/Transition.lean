import Mathlib.Logic.Relation

/-! Labelled transition systems given by a partial step function. A condition `ok` on the
state before a step and on its label restricts the runs that are looked at. -/
namespace SimpleKernel.Transition

variable {σ L : Type*} {step : σ → L → Option σ} {ok ok' : σ → L → Prop} {s s' : σ}

/-- One step whose label meets `ok` in the state before it. -/
def Step (step : σ → L → Option σ) (ok : σ → L → Prop) (s s' : σ) : Prop :=
  ∃ l, ok s l ∧ step s l = some s'

/-- The states that runs from `s` reach when every step meets `ok`. -/
def Reach (step : σ → L → Option σ) (ok : σ → L → Prop) : σ → σ → Prop :=
  Relation.ReflTransGen (Step step ok)

theorem Reach.refl (s : σ) : Reach step ok s s := Relation.ReflTransGen.refl

theorem Reach.tail {m : σ} {l : L} (h : Reach step ok s m) (hok : ok m l)
    (hl : step m l = some s') : Reach step ok s s' :=
  Relation.ReflTransGen.tail h ⟨l, hok, hl⟩

theorem Reach.single {l : L} (hok : ok s l) (hl : step s l = some s') : Reach step ok s s' :=
  (Reach.refl s).tail hok hl

theorem Reach.trans {m : σ} (h : Reach step ok s m) (h' : Reach step ok m s') :
    Reach step ok s s' :=
  Relation.ReflTransGen.trans h h'

theorem Reach.invariant {P : σ → Prop} (h : Reach step ok s s') (h0 : P s)
    (hstep : ∀ a l b, P a → ok a l → step a l = some b → P b) : P s' := by
  induction h with
  | refl => exact h0
  | tail _ hs ih =>
    obtain ⟨l, hok, hl⟩ := hs
    exact hstep _ l _ ih hok hl

theorem Reach.mono (h : Reach step ok s s') (hm : ∀ a l, ok a l → ok' a l) :
    Reach step ok' s s' := by
  refine h.invariant (Reach.refl s) fun a l b hab hok hl => ?_
  exact hab.tail (hm a l hok) hl

/-- The labels `ls` taken one after the other. -/
def run (step : σ → L → Option σ) (s : σ) (ls : List L) : Option σ := ls.foldlM step s

theorem reach_of_run (ls : List L) (h : run step s ls = some s') :
    Reach step (fun _ _ => True) s s' := by
  induction ls generalizing s with
  | nil =>
    obtain rfl : s = s' := Option.some.inj h
    exact Reach.refl s
  | cons l ls ih =>
    obtain ⟨m, hl, hm⟩ := Option.bind_eq_some_iff.mp h
    exact (Reach.single trivial hl).trans (ih hm)

/-- The labels `ls` taken one after the other as long as they meet `ok`. -/
def runOk (step : σ → L → Option σ) (ok : σ → L → Prop) [∀ s l, Decidable (ok s l)] (s : σ)
    (ls : List L) : Option σ :=
  ls.foldlM (fun s l => if ok s l then step s l else none) s

theorem reach_of_runOk [∀ s l, Decidable (ok s l)] (ls : List L)
    (h : runOk step ok s ls = some s') : Reach step ok s s' := by
  induction ls generalizing s with
  | nil =>
    obtain rfl : s = s' := Option.some.inj h
    exact Reach.refl s
  | cons l ls ih =>
    obtain ⟨m, hl, hm⟩ := Option.bind_eq_some_iff.mp h
    dsimp only at hl
    split at hl
    · next hok => exact (Reach.single hok hl).trans (ih hm)
    · simp at hl

end SimpleKernel.Transition
