import Mathlib.Data.List.Basic

/-! A sequence with a position: items are taken and put one at a time, or several at once. -/
namespace SimpleKernel

structure Cursor (α : Type) where
  items : List α
  pos : ℕ

namespace Cursor

variable {α : Type} {c : Cursor α} {n k : ℕ} {x : α} {l : List α}

def goto (c : Cursor α) (p : ℕ) : Cursor α := { c with pos := p }

/-- At most `n` items from the position on. -/
def ahead (c : Cursor α) (n : ℕ) : List α := (c.items.drop c.pos).take n

/-- Items are taken one at a time. -/
def takes (c : Cursor α) : ℕ → List α × Cursor α
  | 0 => ([], c)
  | n + 1 =>
    match c.items[c.pos]? with
    | none => ([], c)
    | some x => (x :: ((c.goto (c.pos + 1)).takes n).1, ((c.goto (c.pos + 1)).takes n).2)

/-- An item is put at the position; a gap before it is filled. -/
def put (fill : α) (c : Cursor α) (x : α) : Cursor α where
  items := if c.pos < c.items.length then c.items.set c.pos x
    else c.items ++ List.replicate (c.pos - c.items.length) fill ++ [x]
  pos := c.pos + 1

/-- Items are put one at a time. -/
def puts (fill : α) (c : Cursor α) (l : List α) : Cursor α := l.foldl (put fill) c

@[simp] theorem goto_items (p : ℕ) : (c.goto p).items = c.items := rfl

@[simp] theorem goto_pos (p : ℕ) : (c.goto p).pos = p := rfl

@[simp] theorem goto_goto (p q : ℕ) : (c.goto p).goto q = c.goto q := rfl

@[simp] theorem goto_self : c.goto c.pos = c := rfl

@[simp] theorem ahead_zero : c.ahead 0 = [] := List.take_zero

theorem length_ahead : (c.ahead n).length = min n (c.items.length - c.pos) := by
  rw [ahead, List.length_take, List.length_drop]

theorem ahead_succ (h : c.items[c.pos]? = some x) : c.ahead (n + 1) = x :: (c.goto (c.pos + 1)).ahead n := by
  obtain ⟨hlt, rfl⟩ := List.getElem?_eq_some_iff.mp h
  rw [ahead, ahead, List.drop_eq_getElem_cons hlt, List.take_succ_cons, goto_items, goto_pos]

theorem ahead_none (h : c.items[c.pos]? = none) : c.ahead n = [] := by
  have hle := List.getElem?_eq_none_iff.mp h
  rw [ahead, List.drop_eq_nil_of_le hle, List.take_nil]

theorem take_ahead : (c.ahead n).take k = c.ahead (min k n) := by
  rw [ahead, List.take_take, ahead]

theorem ahead_split (hk : k ≤ n) :
    c.ahead n = c.ahead k ++ (c.goto (c.pos + k)).ahead (n - k) := by
  obtain ⟨d, rfl⟩ := Nat.exists_eq_add_of_le hk
  rw [ahead, ahead, ahead, List.take_add, goto_items, goto_pos, List.drop_drop, Nat.add_sub_cancel_left]

theorem getElem?_ahead {i : ℕ} (hi : i < n) : (c.ahead n)[i]? = c.items[c.pos + i]? := by
  rw [ahead, List.getElem?_take_of_lt hi, List.getElem?_drop]

theorem takes_eq : c.takes n = (c.ahead n, c.goto (c.pos + (c.ahead n).length)) := by
  induction n generalizing c with
  | zero => simp [takes]
  | succ n ih =>
    unfold takes
    cases h : c.items[c.pos]? with
    | none =>
      rw [ahead_none h]
      rfl
    | some x =>
      rw [ahead_succ h]
      have hpos : c.pos + (((c.goto (c.pos + 1)).ahead n).length + 1) =
          c.pos + 1 + ((c.goto (c.pos + 1)).ahead n).length := by omega
      rw [ih, List.length_cons, goto_goto, goto_pos, hpos]

@[simp] theorem puts_nil (fill : α) : c.puts fill [] = c := rfl

theorem puts_append (fill : α) (l l' : List α) : c.puts fill (l ++ l') = (c.puts fill l).puts fill l' :=
  List.foldl_append

theorem puts_pos (fill : α) (l : List α) : (c.puts fill l).pos = c.pos + l.length := by
  induction l generalizing c with
  | nil => rfl
  | cons x l ih =>
    have hput : (c.put fill x).pos = c.pos + 1 := rfl
    rw [List.length_cons, puts, List.foldl_cons, ← puts, ih]
    omega

theorem puts_items (fill : α) (xs l : List α) : ((⟨xs, xs.length⟩ : Cursor α).puts fill l).items = xs ++ l := by
  induction l generalizing xs with
  | nil => simp
  | cons x l ih => simpa [puts, put] using ih (xs ++ [x])

theorem getElem?_put (fill : α) : (c.put fill x).items[c.pos]? = some x := by
  rw [put]
  split
  · next hlt => exact List.getElem?_set_self hlt
  · next hge =>
    have hlen : c.pos = (c.items ++ List.replicate (c.pos - c.items.length) fill).length := by
      rw [List.length_append, List.length_replicate]
      omega
    rw [List.getElem?_append_right (Nat.le_of_eq hlen.symm), ← hlen, Nat.sub_self]
    rfl

theorem getElem?_put_of_lt (fill : α) {i : ℕ} (hpos : i < c.pos) (hi : i < c.items.length) :
    (c.put fill x).items[i]? = c.items[i]? := by
  rw [put]
  split
  · exact List.getElem?_set_ne (Nat.ne_of_gt hpos)
  · rw [List.append_assoc, List.getElem?_append_left hi]

theorem getElem?_puts_of_lt (fill : α) {i : ℕ} (hpos : i < c.pos) (hi : i < c.items.length) :
    (c.puts fill l).items[i]? = c.items[i]? := by
  induction l generalizing c with
  | nil => rfl
  | cons x l ih =>
    have hput := getElem?_put_of_lt (x := x) fill hpos hi
    have hlt : i < (c.put fill x).items.length := by
      rw [List.getElem?_eq_getElem hi] at hput
      exact (List.getElem?_eq_some_iff.mp hput).1
    rw [puts, List.foldl_cons, ← puts, ih (Nat.lt_succ_of_lt hpos) hlt, hput]

theorem ahead_puts (fill : α) (l : List α) : ((c.puts fill l).goto c.pos).ahead l.length = l := by
  induction l generalizing c with
  | nil => exact ahead_zero
  | cons x l ih =>
    have hfirst : ((c.put fill x).puts fill l).items[c.pos]? = some x := by
      have hput := getElem?_put (c := c) (x := x) fill
      rw [getElem?_puts_of_lt fill (Nat.lt_succ_self _) (List.getElem?_eq_some_iff.mp hput).1, hput]
    rw [List.length_cons, ahead_succ hfirst]
    exact congrArg (x :: ·) ih

theorem puts_injective (fill : α) {l l' : List α} (h : c.puts fill l = c.puts fill l') : l = l' := by
  have hlen : l.length = l'.length := by
    have hpos := congrArg pos h
    rw [puts_pos, puts_pos] at hpos
    exact Nat.add_left_cancel hpos
  rw [← ahead_puts fill l, h, hlen, ahead_puts]

end Cursor

end SimpleKernel
