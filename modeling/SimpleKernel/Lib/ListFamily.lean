import SimpleKernel.Lib.Chain
import SimpleKernel.Lib.LinkedList

/-! A family of intrusive lists that share one pair of link maps, such as the wait lists of all
objects. A node is on at most one of them. -/
namespace SimpleKernel.LinkedList
open Function (update update_of_ne update_self)

variable {α κ : Type*} [DecidableEq α] [DecidableEq κ]

/-- The ends `e` and the links `l` represent the lists `q`. -/
structure IsFamily (l : Links α) (e : κ → Ends α) (q : κ → List α) : Prop where
  lists : ∀ k, IsList l (e k) (q k)
  disjoint : ∀ k k' a, a ∈ q k → a ∈ q k' → k = k'

/-- A node that is on no list has no successor. -/
def Cleared (l : Links α) (q : κ → List α) : Prop := ∀ a, (∀ k, a ∉ q k) → l.next a = none

variable {l : Links α} {e : κ → Ends α} {q : κ → List α} {k : κ} {a : α}

omit [DecidableEq α] [DecidableEq κ] in
theorem IsFamily.next {xs ys : List α} (h : IsFamily l e q) (hk : q k = xs ++ a :: ys) :
    l.next a = ys.head? := by
  have hb := (h.lists k).isBucket
  rw [hk] at hb
  exact hb.middle.2.1

omit [DecidableEq α] in
theorem Seg.chain {p : Option α} {xs : List α} (h : Seg l p xs none) : Chain l.next xs.head? xs := by
  induction xs generalizing p with
  | nil => rfl
  | cons a xs ih =>
    obtain ⟨-, hnext, hrest⟩ := h
    rw [Option.or_none] at hnext
    refine ⟨rfl, ?_⟩
    rw [hnext]
    exact ih hrest

omit [DecidableEq α] in
theorem IsList.chain {e : Ends α} {xs : List α} (h : IsList l e xs) : Chain l.next e.head xs := by
  rw [h.head]
  exact h.seg.chain

omit [DecidableEq κ] in
theorem filter_middle {xs ys : List α} (h : (xs ++ a :: ys).Nodup) :
    (xs ++ a :: ys).filter (· ≠ a) = xs ++ ys := by
  have h' := List.nodup_middle.mp h
  obtain ⟨ha, -⟩ := List.nodup_cons.mp h'
  simp only [List.mem_append, not_or] at ha
  have hx : xs.filter (· ≠ a) = xs := by
    rw [List.filter_eq_self]
    intro b hb
    have hne : b ≠ a := fun h => ha.1 (h ▸ hb)
    simpa using hne
  have hy : ys.filter (· ≠ a) = ys := by
    rw [List.filter_eq_self]
    intro b hb
    have hne : b ≠ a := fun h => ha.2 (h ▸ hb)
    simpa using hne
  rw [List.filter_append, List.filter_cons, hx, hy]
  simp

omit [DecidableEq α] in
/-- The node `a`, which is on no list, is put into the list `k`. -/
theorem IsFamily.enter {l' : Links α} {e' : Ends α} {ys : List α} (h : IsFamily l e q) (ha : ∀ k, a ∉ q k)
    (hlist : IsList l' e' ys) (hys : ∀ b ∈ ys, b ∈ q k ∨ b = a)
    (hframe : ∀ b, b ∉ q k → a ≠ b → l'.prev b = l.prev b ∧ l'.next b = l.next b) :
    IsFamily l' (update e k e') (update q k ys) := by
  constructor
  · intro j
    rcases eq_or_ne j k with rfl | hj
    · simpa using hlist
    · rw [update_of_ne hj, update_of_ne hj]
      have hsame (b : α) (hb : b ∈ q j) : l'.prev b = l.prev b ∧ l'.next b = l.next b :=
        hframe b (fun hk => hj (h.disjoint j k b hb hk)) fun hab => ha j (hab ▸ hb)
      exact (h.lists j).congr (fun b hb => (hsame b hb).1) fun b hb => (hsame b hb).2
  · have hmem (i : κ) (b : α) (hb : b ∈ update q k ys i) : b ∈ q i ∨ b = a ∧ i = k := by
      rcases eq_or_ne i k with rfl | hi
      · simpa using hys b (by simpa using hb)
      · rw [update_of_ne hi] at hb
        exact .inl hb
    intro i j b hi hj
    rcases hmem i b hi with h1 | ⟨h1, h1'⟩ <;> rcases hmem j b hj with h2 | ⟨h2, h2'⟩
    · exact h.disjoint i j b h1 h2
    · exact absurd (h2 ▸ h1) (ha i)
    · exact absurd (h1 ▸ h2) (ha j)
    · exact h1'.trans h2'.symm

theorem IsFamily.append (h : IsFamily l e q) (ha : ∀ k, a ∉ q k) :
    IsFamily (l.append (e k) a) (update e k ((e k).append a))
      (update q k (q k ++ [a])) :=
  h.enter ha ((h.lists k).append (ha k)) (by simp) fun _ hb hab => append_frame (h.lists k) hb hab

theorem IsFamily.prepend (h : IsFamily l e q) (ha : ∀ k, a ∉ q k) (hne : q k ≠ []) :
    IsFamily (l.prepend (e k).head a) (update e k { e k with head := some a })
      (update q k (a :: q k)) := by
  have hb := (h.lists k).isBucket.prepend (ha k)
  refine h.enter ha ⟨hb.nodup, hb.seg, rfl, ?_⟩ (by simp +contextual [or_imp]) fun _ hb hab =>
    prepend_frame (h.lists k).isBucket hb hab
  rw [(h.lists k).tail]
  cases hq : q k with
  | nil => exact absurd hq hne
  | cons b ys => simp [List.getLast?_cons]

omit [DecidableEq α] [DecidableEq κ] in
theorem IsFamily.congr {l' : Links α} (h : IsFamily l e q)
    (hl : ∀ k, ∀ b ∈ q k, l'.prev b = l.prev b ∧ l'.next b = l.next b) : IsFamily l' e q :=
  ⟨fun k => (h.lists k).congr (fun b hb => (hl k b hb).1) fun b hb => (hl k b hb).2, h.disjoint⟩

theorem IsFamily.remove (h : IsFamily l e q) (ha : a ∈ q k) :
    IsFamily ((l.bypass a).clear a) (update e k ((e k).drop l a))
      (update q k ((q k).filter (· ≠ a))) := by
  constructor
  · intro j
    rcases eq_or_ne j k with rfl | hj
    · obtain ⟨xs, ys, hq⟩ := List.append_of_mem ha
      have hlist := h.lists j
      rw [hq] at hlist
      rw [update_self, update_self, hq, filter_middle hlist.nodup]
      exact hlist.remove
    · rw [update_of_ne hj, update_of_ne hj]
      have hframe (b : α) (hb : b ∈ q j) := (h.lists k).isBucket.remove_frame ha
        fun hk => hj (h.disjoint j k b hb hk)
      exact (h.lists j).congr (fun b hb => (hframe b hb).1) fun b hb => (hframe b hb).2
  · have hmem (i : κ) (b : α) (hb : b ∈ update q k ((q k).filter (· ≠ a)) i) : b ∈ q i := by
      rcases eq_or_ne i k with rfl | hi
      · rw [update_self] at hb
        exact List.mem_of_mem_filter hb
      · rwa [update_of_ne hi] at hb
    intro i j b hi hj
    exact h.disjoint i j b (hmem i b hi) (hmem j b hj)

theorem IsFamily.bypass (h : IsFamily l e q) (ha : a ∈ q k) :
    IsFamily (l.bypass a) (update e k ((e k).drop l a))
      (update q k ((q k).filter (· ≠ a))) := by
  refine (h.remove ha).congr fun j b hb => ?_
  have hne : a ≠ b := by
    rintro rfl
    rcases eq_or_ne j k with rfl | hj
    · simp at hb
    · rw [update_of_ne hj] at hb
      exact hj (h.disjoint j k a hb ha)
  simp [clear_prev, clear_next, hne]

theorem Cleared.append (hc : Cleared l q) (h : IsFamily l e q) :
    Cleared (l.append (e k) a) (update q k (q k ++ [a])) := by
  intro b hb
  have hk := hb k
  rw [update_self] at hk
  simp only [List.mem_append, List.mem_singleton, not_or] at hk
  rw [(append_frame (h.lists k) hk.1 (Ne.symm hk.2)).2]
  apply hc
  intro j hj
  rcases eq_or_ne j k with rfl | hjk
  · exact hk.1 hj
  · apply hb j
    rwa [update_of_ne hjk]

theorem Cleared.remove (hc : Cleared l q) (h : IsFamily l e q) (ha : a ∈ q k) :
    Cleared ((l.bypass a).clear a) (update q k ((q k).filter (· ≠ a))) := by
  intro b hb
  rcases eq_or_ne b a with rfl | hba
  · simp [clear_next]
  · have hk : b ∉ q k := by
      intro hk
      apply hb k
      simpa [hba] using hk
    rw [((h.lists k).isBucket.remove_frame ha hk).2]
    apply hc
    intro j hj
    rcases eq_or_ne j k with rfl | hjk
    · exact hk hj
    · apply hb j
      rwa [update_of_ne hjk]

end SimpleKernel.LinkedList
