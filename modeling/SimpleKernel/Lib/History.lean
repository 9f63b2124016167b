import Mathlib.Data.List.Basic

/-! Undo histories: the values before the present one, the latest first, and those that have been undone, the next one
to be redone first. -/
namespace SimpleKernel

variable {τ : Type*}

structure History (τ : Type*) where
  past : List τ
  present : τ
  future : List τ

namespace History

/-- The value that is left when everything has been undone. -/
def first (h : History τ) : τ := h.past.getLast?.getD h.present

/-- A new value; with `merge` it becomes part of the last change. What has been undone is lost. -/
def edit (h : History τ) (merge : Bool) (t : τ) : History τ :=
  if merge then ⟨h.past, t, []⟩ else ⟨h.present :: h.past, t, []⟩

def undo (h : History τ) : History τ :=
  match h.past with
  | [] => h
  | t :: ts => ⟨ts, t, h.present :: h.future⟩

def redo (h : History τ) : History τ :=
  match h.future with
  | [] => h
  | t :: ts => ⟨h.present :: h.past, t, ts⟩

theorem redo_undo {h : History τ} (hp : h.past ≠ []) : h.undo.redo = h := by
  obtain ⟨past, present, future⟩ := h
  cases past with
  | nil => exact absurd rfl hp
  | cons t ts => rfl

theorem first_undo (h : History τ) : h.undo.first = h.first := by
  obtain ⟨past, present, future⟩ := h
  cases past with
  | nil => rfl
  | cons t ts => simp [undo, first, List.getLast?_cons]

theorem first_redo (h : History τ) : h.redo.first = h.first := by
  obtain ⟨past, present, future⟩ := h
  cases future with
  | nil => rfl
  | cons t ts => simp [redo, first, List.getLast?_cons]

theorem first_edit {h : History τ} {merge : Bool} (hm : merge → h.past ≠ []) (t : τ) :
    (h.edit merge t).first = h.first := by
  obtain ⟨past, present, future⟩ := h
  cases merge with
  | false => simp [edit, first, List.getLast?_cons]
  | true =>
    obtain ⟨u, us, rfl⟩ := List.exists_cons_of_ne_nil (hm rfl)
    simp [edit, first, List.getLast?_cons]

theorem first_of_past_nil {h : History τ} (hp : h.past = []) : h.first = h.present := by
  unfold first
  rw [hp]
  rfl

end History
end SimpleKernel
