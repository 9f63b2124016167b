import Mathlib.Data.List.Nodup
import Mathlib.Data.List.Perm.Basic
import Mathlib.Logic.Function.Basic

/-! Finite maps as lists of pairs with distinct keys. -/
namespace SimpleKernel.Assoc

variable {α β : Type*} {m : α → Option β} {l l' : List (α × β)} {a : α} {b : β}

/-- The map `m` has exactly the pairs of `l`. -/
structure Maps (m : α → Option β) (l : List (α × β)) : Prop where
  nodup : (l.map Prod.fst).Nodup
  mem : ∀ a b, m a = some b ↔ (a, b) ∈ l

theorem Maps.perm (h : Maps m l) (hp : l.Perm l') : Maps m l' :=
  ⟨(hp.map Prod.fst).nodup_iff.mp h.nodup, fun a b => (h.mem a b).trans hp.mem_iff⟩

theorem Maps.nil : Maps (fun _ => none : α → Option β) [] :=
  ⟨List.nodup_nil, fun a b => by simp⟩

theorem Maps.eq_none_iff (h : Maps m l) : m a = none ↔ a ∉ l.map Prod.fst := by
  rw [← not_iff_not, not_not, ← ne_eq, Option.ne_none_iff_exists']
  simp [h.mem]

variable [DecidableEq α]

theorem Maps.insert (h : Maps m l) (ha : m a = none) (b : β) :
    Maps (Function.update m a (some b)) ((a, b) :: l) := by
  have hnot := h.eq_none_iff.mp ha
  refine ⟨?_, fun x y => ?_⟩
  · exact List.nodup_cons.mpr ⟨hnot, h.nodup⟩
  · rcases eq_or_ne x a with rfl | hne
    · rw [List.mem_cons, ← h.mem, ha]
      simp [eq_comm]
    · rw [Function.update_of_ne hne, h.mem]
      simp [hne]

theorem Maps.erase (h : Maps m ((a, b) :: l)) : Maps (Function.update m a none) l := by
  have hnodup := h.nodup
  rw [List.map_cons, List.nodup_cons] at hnodup
  refine ⟨hnodup.2, fun x y => ?_⟩
  rcases eq_or_ne x a with rfl | hne
  · refine ⟨fun h => by simp at h, fun hmem => absurd (List.mem_map_of_mem hmem) hnodup.1⟩
  · rw [Function.update_of_ne hne, h.mem]
    simp [hne]

theorem Maps.replace (h : Maps m ((a, b) :: l)) (c : β) :
    Maps (Function.update m a (some c)) ((a, c) :: l) := by
  have hnew := h.erase.insert (Function.update_self a none m) c
  rwa [Function.update_idem] at hnew

end SimpleKernel.Assoc
