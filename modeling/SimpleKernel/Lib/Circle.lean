import SimpleKernel.Lib.LinkedList

/-! Circular doubly linked lists, each with a head that is part of the circle and stays when the list is empty. -/
namespace SimpleKernel.LinkedList
open Function (update update_of_ne update_self)

section Circles

variable {α : Type*} {l l' : Links α} {xs ys : List α} {a b : α}

/-- The nodes `xs` form a circle. -/
def Circle (l : Links α) (xs : List α) : Prop := Seg l xs.getLast? xs xs.head?

theorem Circle.congr (h : Circle l xs) (hp : ∀ a ∈ xs, l'.prev a = l.prev a)
    (hn : ∀ a ∈ xs, l'.next a = l.next a) : Circle l' xs :=
  Seg.congr h hp hn

theorem Circle.rotate (h : Circle l (xs ++ ys)) : Circle l (ys ++ xs) := by
  unfold Circle at h ⊢
  rw [seg_append] at h ⊢
  obtain ⟨hx, hy⟩ := h
  cases xs with
  | nil => exact ⟨by simpa using hy, trivial⟩
  | cons x xs =>
    cases ys with
    | nil => exact ⟨trivial, by simpa using hx⟩
    | cons y ys => exact ⟨by simpa [List.getLast?_cons] using hy, by simpa [List.getLast?_cons] using hx⟩

theorem Circle.first (h : Circle l (a :: xs)) :
    l.prev a = xs.getLast?.or (some a) ∧ l.next a = xs.head?.or (some a) := by
  obtain ⟨hprev, hnext, -⟩ := h
  refine ⟨?_, hnext⟩
  rw [hprev]
  cases xs with
  | nil => rfl
  | cons x xs => simp [List.getLast?_cons]

theorem Circle.neighbours (h : Circle l xs) (ha : a ∈ xs) :
    ∃ b c, b ∈ xs ∧ c ∈ xs ∧ l.next a = some b ∧ l.prev a = some c := by
  obtain ⟨ys, zs, rfl⟩ := List.append_of_mem ha
  have hrotate : Circle l (a :: (zs ++ ys)) := h.rotate
  obtain ⟨hprev, hnext⟩ := hrotate.first
  rw [hprev, hnext]
  cases hzy : zs ++ ys with
  | nil => exact ⟨a, a, ha, ha, rfl, rfl⟩
  | cons z ws =>
    have hmem (b : α) (hb : b ∈ z :: ws) : b ∈ ys ++ a :: zs := by
      rw [← hzy] at hb
      rcases List.mem_append.1 hb with hb | hb
      · exact List.mem_append_right _ (List.mem_cons_of_mem _ hb)
      · exact List.mem_append_left _ hb
    refine ⟨z, (z :: ws).getLast (List.cons_ne_nil _ _), hmem z List.mem_cons_self,
      hmem _ (List.getLast_mem _), rfl, ?_⟩
    rfl

variable [DecidableEq α]

theorem Circle.bypass_first (h : Circle l (a :: xs)) (hd : xs.Nodup) : Circle (l.bypass a) xs := by
  cases xs with
  | nil => trivial
  | cons x xs =>
    obtain ⟨hprev, hnext⟩ := h.first
    have hseg : Seg l (some a) (x :: xs) (some a) := h.2.2
    have hlast : (x :: xs).getLast? = l.prev a := by
      rw [hprev]
      simp [List.getLast?_eq_some_getLast]
    have hhead : (x :: xs).head? = l.next a := hnext.symm
    have hfirst := hseg.setPrev_head hd (l.prev a)
    have hboth := hfirst.setNext_last hd (l.next a)
    unfold Circle Links.bypass
    rw [hlast, hhead] at *
    exact hboth

theorem Circle.bypass (h : Circle l (xs ++ a :: ys)) (hd : (xs ++ a :: ys).Nodup) :
    Circle (l.bypass a) (xs ++ ys) := by
  have hperm : (a :: (ys ++ xs)).Nodup := by
    exact (List.perm_append_comm.nodup_iff).1 hd
  exact (h.rotate.bypass_first (List.nodup_cons.1 hperm).2).rotate

theorem Circle.bypass_frame (h : Circle l xs) (ha : a ∈ xs) (hb : b ∉ xs) :
    (l.bypass a).next b = l.next b ∧ (l.bypass a).prev b = l.prev b := by
  obtain ⟨c, d, hc, hd, hnext, hprev⟩ := h.neighbours ha
  have hcb : ¬ some c = some b := fun e => hb (Option.some.inj e ▸ hc)
  have hdb : ¬ some d = some b := fun e => hb (Option.some.inj e ▸ hd)
  rw [bypass_next, bypass_prev, hnext, hprev, if_neg hcb, if_neg hdb]
  exact ⟨rfl, rfl⟩

/-- `a` becomes the last node before the head `h`. -/
def Links.enter (l : Links α) (h a : α) : Links α :=
  let l := (l.setNext (some a) (some h)).setPrev (some a) (l.prev h)
  (l.setNext (l.prev h) (some a)).setPrev (some h) (some a)

theorem enter_next (l : Links α) (h a x : α) :
    (l.enter h a).next x = if (l.setPrev (some a) (l.prev h)).prev h = some x then some a
      else if a = x then some h else l.next x := by
  simp [Links.enter]

theorem enter_prev (l : Links α) (h a x : α) :
    (l.enter h a).prev x = if h = x then some a else if a = x then l.prev h else l.prev x := by
  simp [Links.enter]

theorem Circle.enter {h : α} (hc : Circle l (h :: xs)) (hd : (h :: xs).Nodup) (ha : a ∉ h :: xs) :
    Circle (l.enter h a) (h :: xs ++ [a]) := by
  have hah : a ≠ h := fun e => ha (e ▸ List.mem_cons_self)
  have hlast : l.prev h = (h :: xs).getLast? := hc.1
  have hsame : (l.setPrev (some a) (l.prev h)).prev h = (h :: xs).getLast? := by simp [hlast]
  have hseg := (hc.setNext_last hd (some a)).setPrev_head hd (some a)
  have hne (b : α) (hb : b ∈ h :: xs) : a ≠ b := fun e => ha (e ▸ hb)
  unfold Circle
  rw [List.getLast?_append, seg_append]
  constructor
  · apply hseg.congr
    · intro b hb
      rw [enter_prev, if_neg (hne b hb)]
      simp
    · intro b hb
      rw [enter_next, hsame, if_neg (hne b hb)]
      simp
  · refine ⟨?_, ?_, trivial⟩
    · rw [enter_prev, if_neg hah.symm, hlast]
      simp [List.getLast?_cons]
    · have hna : (h :: xs).getLast? ≠ some a := fun e => ha (List.mem_of_getLast? e)
      rw [enter_next, hsame, if_neg hna, if_pos rfl]
      rfl

theorem Circle.enter_frame {h : α} (hc : Circle l (h :: xs)) (hb : b ∉ h :: xs) (hab : b ≠ a) :
    (l.enter h a).next b = l.next b ∧ (l.enter h a).prev b = l.prev b := by
  have hlast : l.prev h = (h :: xs).getLast? := hc.1
  have hsame : (l.setPrev (some a) (l.prev h)).prev h = (h :: xs).getLast? := by simp [hlast]
  have hne : (h :: xs).getLast? ≠ some b := fun e => hb (List.mem_of_getLast? e)
  have hhb : h ≠ b := fun e => hb (e ▸ List.mem_cons_self)
  rw [enter_next, enter_prev, hsame, if_neg hne, if_neg hab.symm, if_neg hhb, if_neg hab.symm]
  exact ⟨rfl, rfl⟩

end Circles

/-- A node is the head of a circle or an item in one. -/
inductive Node (κ α : Type*)
  | head (k : κ)
  | item (a : α)
  deriving DecidableEq

section Families

variable {κ α : Type*} {l l' : Links (Node κ α)} {q : κ → List α} {k : κ} {a b : α} {P : κ → Prop} {xs ys : List α}

/-- The circle of the head `k` with the items `xs`. -/
def ring (k : κ) (xs : List α) : List (Node κ α) := .head k :: xs.map .item

theorem item_mem_ring : Node.item a ∈ ring k xs ↔ a ∈ xs := by
  simp [ring]

theorem head_mem_ring {j : κ} : Node.head j ∈ ring k xs ↔ j = k := by
  simp [ring]

theorem ring_nodup (h : xs.Nodup) : (ring k xs).Nodup := by
  apply List.nodup_cons.2
  refine ⟨by simp, ?_⟩
  apply h.map
  intro x y hxy
  exact Node.item.inj hxy

/-- The heads that meet `P` have the items that `q` says; no item is in two places. -/
structure Rings (l : Links (Node κ α)) (q : κ → List α) (P : κ → Prop) : Prop where
  circle : ∀ k, P k → Circle l (ring k (q k))
  nodup : ∀ k, (q k).Nodup
  apart : ∀ j k a, a ∈ q j → a ∈ q k → j = k

theorem Rings.disjoint (h : Rings l q P) {j : κ} (hjk : j ≠ k) {x : Node κ α} (hx : x ∈ ring j (q j)) :
    x ∉ ring k (q k) := by
  cases x with
  | head i =>
    rw [head_mem_ring] at hx ⊢
    rw [hx]
    exact hjk
  | item a =>
    rw [item_mem_ring] at hx ⊢
    exact fun hk => hjk (h.apart j k a hx hk)

variable [DecidableEq κ] [DecidableEq α]

theorem Rings.enter (h : Rings l q P) (hk : P k) (ha : ∀ j, a ∉ q j) :
    Rings (l.enter (.head k) (.item a)) (update q k (q k ++ [a])) P := by
  have hfresh (j : κ) : Node.item a ∉ ring j (q j) := fun hm => ha j (item_mem_ring.1 hm)
  have hmem (j : κ) (b : α) : b ∈ update q k (q k ++ [a]) j ↔ b ∈ q j ∨ j = k ∧ b = a := by
    by_cases hj : j = k
    · subst hj
      simp
    · simp [hj]
  constructor
  · intro j hj
    by_cases hjk : j = k
    · subst hjk
      rw [update_self]
      have hcircle := (h.circle j hj).enter (ring_nodup (h.nodup j)) (hfresh j)
      unfold ring at hcircle ⊢
      rw [List.map_append]
      exact hcircle
    · rw [update_of_ne hjk]
      have hframe {x : Node κ α} (hx : x ∈ ring j (q j)) :=
        (h.circle k hk).enter_frame (a := .item a) (h.disjoint hjk hx) (fun e => hfresh j (e ▸ hx))
      exact (h.circle j hj).congr (fun x hx => (hframe hx).2) (fun x hx => (hframe hx).1)
  · intro j
    by_cases hj : j = k
    · subst hj
      rw [update_self]
      apply List.nodup_append.2 ⟨h.nodup j, List.nodup_singleton a, _⟩
      rintro x hx y hy rfl
      exact ha j (List.mem_singleton.1 hy ▸ hx)
    · rw [update_of_ne hj]
      exact h.nodup j
  · intro i j b hi hj
    rw [hmem] at hi hj
    rcases hi with hi | ⟨rfl, rfl⟩
    · rcases hj with hj | ⟨rfl, rfl⟩
      · exact h.apart i j b hi hj
      · exact absurd hi (ha i)
    · rcases hj with hj | ⟨rfl, -⟩
      · exact absurd hj (ha j)
      · rfl

theorem Rings.bypass (h : Rings l q P) (hk : P k) (ha : a ∈ q k) :
    Rings (l.bypass (.item a)) (update q k ((q k).erase a)) P := by
  have hmem (j : κ) (b : α) (hb : b ∈ update q k ((q k).erase a) j) : b ∈ q j := by
    by_cases hj : j = k
    · subst hj
      rw [update_self] at hb
      exact List.mem_of_mem_erase hb
    · rwa [update_of_ne hj] at hb
  constructor
  · intro j hj
    by_cases hjk : j = k
    · subst hjk
      rw [update_self]
      obtain ⟨xs, ys, -, hsplit, herase⟩ := List.exists_erase_eq ha
      have hcircle := h.circle j hj
      have hnodup := ring_nodup (k := j) (h.nodup j)
      rw [hsplit] at hcircle hnodup
      rw [herase]
      unfold ring at hcircle hnodup ⊢
      rw [List.map_append, ← List.cons_append] at hcircle hnodup
      rw [List.map_append]
      exact hcircle.bypass hnodup
    · rw [update_of_ne hjk]
      have hframe {x : Node κ α} (hx : x ∈ ring j (q j)) :=
        (h.circle k hk).bypass_frame (item_mem_ring.2 ha) (h.disjoint hjk hx)
      exact (h.circle j hj).congr (fun x hx => (hframe hx).2) (fun x hx => (hframe hx).1)
  · intro j
    by_cases hj : j = k
    · subst hj
      rw [update_self]
      exact (h.nodup j).erase a
    · rw [update_of_ne hj]
      exact h.nodup j
  · exact fun i j b hi hj => h.apart i j b (hmem i b hi) (hmem j b hj)

/-- The node at which a walk over the items `xs` of the head `k` stands. -/
def start (k : κ) : List α → Node κ α
  | [] => .head k
  | a :: _ => .item a

/-- The items `xs` are linked in one direction and end at the head `k`. -/
def Trail (l : Links (Node κ α)) (k : κ) : List α → Prop
  | [] => True
  | a :: xs => l.next (.item a) = some (start k xs) ∧ Trail l k xs

section
omit [DecidableEq κ] [DecidableEq α]

theorem Trail.congr (h : Trail l k xs) (hn : ∀ a ∈ xs, l'.next (.item a) = l.next (.item a)) : Trail l' k xs := by
  induction xs with
  | nil => trivial
  | cons a xs ih =>
    obtain ⟨hnext, hrest⟩ := h
    refine ⟨?_, ih hrest fun b hb => hn b (List.mem_cons_of_mem _ hb)⟩
    rw [hn a List.mem_cons_self, hnext]

theorem start_eq (k : κ) (xs : List α) : (xs.map Node.item).head?.or (some (.head k)) = some (start k xs) := by
  cases xs with
  | nil => rfl
  | cons a xs => rfl

theorem trail_of_seg {p : Option (Node κ α)} (h : Seg l p (xs.map .item) (some (.head k))) : Trail l k xs := by
  induction xs generalizing p with
  | nil => trivial
  | cons a xs ih =>
    obtain ⟨-, hnext, hrest⟩ := h
    rw [start_eq] at hnext
    exact ⟨hnext, ih hrest⟩

theorem Rings.trail (h : Rings l q P) (hk : P k) :
    l.next (.head k) = some (start k (q k)) ∧ Trail l k (q k) := by
  obtain ⟨-, hnext, hseg⟩ := h.circle k hk
  exact ⟨hnext.trans (start_eq k (q k)), trail_of_seg hseg⟩

theorem Rings.mono (h : Rings l q P) {Q : κ → Prop} (hq : ∀ k, Q k → P k) : Rings l q Q :=
  ⟨fun k hk => h.circle k (hq k hk), h.nodup, h.apart⟩

end

omit [DecidableEq α] in
theorem Rings.pass (h : Rings l q P) (hk : ¬ P k) (hq : q k = a :: xs) : Rings l (update q k xs) P := by
  have hnodup := h.nodup k
  rw [hq] at hnodup
  have hmem (j : κ) (b : α) (hb : b ∈ update q k xs j) : b ∈ q j := by
    by_cases hj : j = k
    · subst hj
      rw [update_self] at hb
      rw [hq]
      exact List.mem_cons_of_mem _ hb
    · rwa [update_of_ne hj] at hb
  constructor
  · intro j hj
    have hne : j ≠ k := fun e => hk (e ▸ hj)
    rw [update_of_ne hne]
    exact h.circle j hj
  · intro j
    by_cases hj : j = k
    · subst hj
      rw [update_self]
      exact (List.nodup_cons.1 hnodup).2
    · rw [update_of_ne hj]
      exact h.nodup j
  · exact fun i j b hi hj => h.apart i j b (hmem i b hi) (hmem j b hj)

theorem Trail.enter {j : κ} (ht : Trail l j xs) (h : Rings l q P) (hk : P k) (hax : a ∉ xs)
    (hx : ∀ b ∈ xs, b ∉ q k) : Trail (l.enter (.head k) (.item a)) j xs := by
  apply ht.congr
  intro b hb
  have hout : Node.item b ∉ ring k (q k) := fun hm => hx b hb (item_mem_ring.1 hm)
  have hba : (Node.item b : Node κ α) ≠ .item a := fun e => hax (Node.item.inj e ▸ hb)
  exact ((h.circle k hk).enter_frame hout hba).1

/-- `head->next = head->prev = head`. -/
def Links.empty (l : Links (Node κ α)) (k : κ) : Links (Node κ α) :=
  (l.setNext (some (.head k)) (some (.head k))).setPrev (some (.head k)) (some (.head k))

theorem Rings.empty (h : Rings l q P) (hk : q k = []) : Rings (l.empty k) q fun j => P j ∨ j = k := by
  constructor
  · intro j hj
    by_cases hjk : j = k
    · subst hjk
      rw [hk]
      simp [ring, Circle, Seg, Links.empty]
    · have hP := hj.resolve_right hjk
      have hne {x : Node κ α} (hx : x ∈ ring j (q j)) : ¬ some (Node.head k) = some x := by
        intro e
        obtain rfl := Option.some.inj e
        exact hjk (head_mem_ring.1 hx).symm
      apply (h.circle j hP).congr
      · intro x hx
        simp only [Links.empty, setPrev_prev, setNext_prev, if_neg (hne hx)]
      · intro x hx
        simp only [Links.empty, setPrev_next, setNext_next, if_neg (hne hx)]
  · exact h.nodup
  · exact h.apart

theorem Rings.clear (h : Rings l q P) (ha : ∀ k, a ∉ q k) : Rings (l.clear (.item a)) q P := by
  constructor
  · intro k hk
    have hne : Node.item a ∉ ring k (q k) := fun hm => ha k (item_mem_ring.1 hm)
    have hframe := clear_frame l hne
    exact (h.circle k hk).congr hframe.1 hframe.2
  · exact h.nodup
  · exact h.apart

end Families

end SimpleKernel.LinkedList
