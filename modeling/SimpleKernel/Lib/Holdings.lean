import Mathlib.Data.Fintype.Sum
import Mathlib.Data.Fintype.Prod
import Mathlib.Data.Fintype.Card
import Mathlib.Logic.Function.Basic

/-! Units that are either in a stack of free ones or held under a key, each in one place only. -/
namespace SimpleKernel.Holdings
open Function (update update_eq_self update_idem update_of_ne update_self)

variable {κ φ : Type*}

section stack

variable {next : φ → Option φ} {head : Option φ} {l : List φ} {f : φ}

/-- The singly linked list that starts at `head` runs through `l`. -/
def IsStack (next : φ → Option φ) : Option φ → List φ → Prop
  | head, [] => head = none
  | head, f :: l => head = some f ∧ IsStack next (next f) l

theorem IsStack.congr {next' : φ → Option φ} (h : IsStack next head l)
    (heq : ∀ g ∈ l, next' g = next g) : IsStack next' head l := by
  induction l generalizing head with
  | nil => exact h
  | cons g l ih =>
    refine ⟨h.1, ?_⟩
    rw [heq g List.mem_cons_self]
    exact ih h.2 fun x hx => heq x (List.mem_cons_of_mem _ hx)

theorem IsStack.pop [DecidableEq φ] (h : IsStack next (some f) l) (hnodup : l.Nodup) :
    ∃ l', l = f :: l' ∧ IsStack (update next f none) (next f) l' := by
  cases l with
  | nil => exact absurd h (by simp [IsStack])
  | cons g l =>
    obtain ⟨hfg, hl⟩ := h
    obtain rfl := Option.some.inj hfg
    refine ⟨l, rfl, hl.congr fun x hx => ?_⟩
    have hne : x ≠ f := fun he => (List.nodup_cons.mp hnodup).1 (he ▸ hx)
    exact update_of_ne hne _ _

theorem IsStack.push [DecidableEq φ] (h : IsStack next head l) (hf : f ∉ l) :
    IsStack (update next f head) (some f) (f :: l) := by
  refine ⟨rfl, ?_⟩
  rw [update_self]
  refine h.congr fun x hx => ?_
  have hne : x ≠ f := fun he => hf (he ▸ hx)
  exact update_of_ne hne _ _

end stack

/-- No unit is held under two keys, or is free while it is held, or free twice. -/
structure Sound (hold : κ → Option φ) (free : List φ) : Prop where
  inj : ∀ k k' f, hold k = some f → hold k' = some f → k = k'
  apart : ∀ k f, hold k = some f → f ∉ free
  nodup : free.Nodup

/-- The number of units, held and free ones. -/
def total [Fintype κ] (hold : κ → Option φ) (free : List φ) : ℕ :=
  free.length + (Finset.univ.filter fun k => (hold k).isSome).card

variable [DecidableEq κ] {hold : κ → Option φ} {free : List φ} {k : κ} {f : φ}

theorem Sound.grant (h : Sound hold (f :: free)) :
    Sound (update hold k (some f)) free := by
  obtain ⟨hnot, hnodup⟩ := List.nodup_cons.mp h.nodup
  have hother : ∀ j g, j ≠ k → hold j = some g → g ≠ f := by
    rintro j g - hj rfl
    exact h.apart j g hj List.mem_cons_self
  refine ⟨fun i j g hi hj => ?_, fun j g hj => ?_, hnodup⟩
  · by_cases hik : i = k <;> by_cases hjk : j = k
    · rw [hik, hjk]
    · rw [hik, update_self] at hi
      rw [update_of_ne hjk] at hj
      exact absurd (Option.some.inj hi).symm (hother j g hjk hj)
    · rw [hjk, update_self] at hj
      rw [update_of_ne hik] at hi
      exact absurd (Option.some.inj hj).symm (hother i g hik hi)
    · rw [update_of_ne hik] at hi
      rw [update_of_ne hjk] at hj
      exact h.inj i j g hi hj
  · by_cases hjk : j = k
    · rw [hjk, update_self] at hj
      obtain rfl := Option.some.inj hj
      exact hnot
    · rw [update_of_ne hjk] at hj
      exact fun hmem => h.apart j g hj (List.mem_cons_of_mem _ hmem)

theorem Sound.giveBack (h : Sound hold free) (hk : hold k = some f) :
    Sound (update hold k none) (f :: free) := by
  have hkeep : ∀ j g, update hold k none j = some g → j ≠ k ∧ hold j = some g := by
    intro j g hj
    by_cases hjk : j = k
    · rw [hjk] at hj
      simp at hj
    · rw [update_of_ne hjk] at hj
      exact ⟨hjk, hj⟩
  refine ⟨fun i j g hi hj => ?_, fun j g hj => ?_, ?_⟩
  · exact h.inj i j g (hkeep i g hi).2 (hkeep j g hj).2
  · obtain ⟨hjk, hj⟩ := hkeep j g hj
    rintro hmem
    rcases List.mem_cons.mp hmem with rfl | hmem
    · exact hjk (h.inj j k g hj hk)
    · exact h.apart j g hj hmem
  · exact List.nodup_cons.mpr ⟨h.apart k f hk, h.nodup⟩

theorem total_grant [Fintype κ] (hk : hold k = none) :
    total (update hold k (some f)) free = total hold (f :: free) := by
  have hset : (Finset.univ.filter fun j => (update hold k (some f) j).isSome) =
      insert k (Finset.univ.filter fun j => (hold j).isSome) := by
    ext j
    by_cases hjk : j = k
    · simp [hjk]
    · simp [hjk]
  have hnot : k ∉ Finset.univ.filter fun j => (hold j).isSome := by
    simp [hk]
  rw [total, total, hset, Finset.card_insert_of_notMem hnot, List.length_cons]
  omega

theorem total_giveBack [Fintype κ] (hk : hold k = some f) :
    total (update hold k none) (f :: free) = total hold free := by
  have hback : update (update hold k none) k (some f) = hold := by
    rw [update_idem, ← hk, update_eq_self]
  rw [← total_grant (update_self k none hold), hback]

end SimpleKernel.Holdings
