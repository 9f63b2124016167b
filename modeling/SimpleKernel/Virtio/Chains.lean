import SimpleKernel.Virtio.Virtqueue

/-! Descriptors linked through their `next` fields: the free list, and the chains of requests. -/
namespace SimpleKernel.Virtio

variable {desc desc' : ℕ → Desc} {xs ys : List ℕ} {i a b : ℕ}

/-- The descriptors `xs` follow one another from `i` on; where the last one leads does not matter. -/
def Path (desc : ℕ → Desc) : ℕ → List ℕ → Prop
  | _, [] => True
  | i, a :: xs => i = a ∧ Path desc (desc a).next xs

theorem path_cons : Path desc i (a :: xs) ↔ i = a ∧ Path desc (desc a).next xs := Iff.rfl

/-- Where the path `xs` from `i` leads. -/
def after (desc : ℕ → Desc) (i : ℕ) (xs : List ℕ) : ℕ := (xs.getLast?.map fun a => (desc a).next).getD i

theorem after_cons (desc : ℕ → Desc) (i a : ℕ) (xs : List ℕ) :
    after desc i (a :: xs) = after desc (desc a).next xs := by
  cases xs with
  | nil => rfl
  | cons b xs => simp [after, List.getLast?_cons]

theorem path_append (i : ℕ) (xs ys : List ℕ) :
    Path desc i (xs ++ ys) ↔ Path desc i xs ∧ Path desc (after desc i xs) ys := by
  induction xs generalizing i with
  | nil => simp [Path, after]
  | cons a xs ih =>
    rw [List.cons_append, after_cons, path_cons, path_cons, ih, and_assoc]

theorem Path.congr (h : Path desc i xs) (hnext : ∀ a ∈ xs, (desc' a).next = (desc a).next) : Path desc' i xs := by
  induction xs generalizing i with
  | nil => trivial
  | cons a xs ih =>
    obtain ⟨rfl, hrest⟩ := h
    refine ⟨rfl, ?_⟩
    rw [hnext i List.mem_cons_self]
    exact ih hrest fun b hb => hnext b (List.mem_cons_of_mem _ hb)

/-- A path of which all but the last descriptor have the flag that says that it goes on. -/
def Linked (desc : ℕ → Desc) : ℕ → List ℕ → Prop
  | _, [] => False
  | i, [a] => i = a ∧ (desc a).flags.next = false
  | i, a :: b :: xs => i = a ∧ (desc a).flags.next = true ∧ Linked desc (desc a).next (b :: xs)

theorem Linked.congr (h : Linked desc i xs) (hsame : ∀ a ∈ xs, desc' a = desc a) : Linked desc' i xs := by
  induction xs generalizing i with
  | nil => exact h
  | cons a xs ih =>
    cases xs with
    | nil =>
      obtain ⟨rfl, hflag⟩ := h
      refine ⟨rfl, ?_⟩
      rw [hsame i List.mem_cons_self]
      exact hflag
    | cons b xs =>
      obtain ⟨rfl, hflag, hrest⟩ := h
      have hi := hsame i List.mem_cons_self
      refine ⟨rfl, ?_, ?_⟩
      · rw [hi]
        exact hflag
      · rw [hi]
        exact ih hrest fun c hc => hsame c (List.mem_cons_of_mem _ hc)

theorem Linked.path (h : Linked desc i xs) : Path desc i xs := by
  induction xs generalizing i with
  | nil => exact h.elim
  | cons a xs ih =>
    cases xs with
    | nil => exact ⟨h.1, trivial⟩
    | cons b xs => exact ⟨h.1, ih h.2.2⟩

theorem Linked.head (h : Linked desc i xs) : xs.head? = some i := by
  cases xs with
  | nil => exact h.elim
  | cons a xs =>
    cases xs with
    | nil => rw [h.1]; rfl
    | cons b xs => rw [h.1]; rfl

theorem linked_of_path (h : Path desc i (xs ++ [a])) (hmore : ∀ b ∈ xs, (desc b).flags.next = true)
    (hlast : (desc a).flags.next = false) : Linked desc i (xs ++ [a]) := by
  induction xs generalizing i with
  | nil => exact ⟨h.1, hlast⟩
  | cons b xs ih =>
    obtain ⟨rfl, hrest⟩ := h
    have hlinked := ih hrest fun c hc => hmore c (List.mem_cons_of_mem _ hc)
    rw [List.cons_append]
    cases hxs : xs ++ [a] with
    | nil => simp at hxs
    | cons c ys =>
      rw [hxs] at hlinked
      exact ⟨rfl, hmore i List.mem_cons_self, hlinked⟩

theorem Linked.findEnd (h : Linked desc i xs) {fuel : ℕ} (hfuel : xs.length ≤ fuel) :
    ∃ a, xs.getLast? = some a ∧ Virtio.findEnd desc fuel i = some (a, xs.length) := by
  induction xs generalizing i fuel with
  | nil => exact h.elim
  | cons b xs ih =>
    obtain ⟨fuel, rfl⟩ : ∃ n, fuel = n + 1 := by
      cases fuel with
      | zero => simp at hfuel
      | succ n => exact ⟨n, rfl⟩
    cases xs with
    | nil =>
      obtain ⟨rfl, hflag⟩ := h
      refine ⟨i, rfl, ?_⟩
      unfold Virtio.findEnd
      rw [hflag]
      rfl
    | cons c xs =>
      obtain ⟨rfl, hflag, hrest⟩ := h
      obtain ⟨a, hlast, hend⟩ := ih hrest (Nat.le_of_succ_le_succ hfuel)
      refine ⟨a, ?_, ?_⟩
      · exact hlast
      · unfold Virtio.findEnd
        rw [if_pos hflag, hend]
        rfl

theorem Linked.free (h : Linked desc i xs) (hlast : xs.getLast? = some a) (hd : xs.Nodup) {head : ℕ} {free : List ℕ}
    (hfree : Path desc head free) (hout : a ∉ free) :
    Path (Function.update desc a { desc a with next := head }) i (xs ++ free) := by
  have hpath := h.path
  obtain ⟨ys, rfl⟩ := List.getLast?_eq_some_iff.1 hlast
  have hys : a ∉ ys := fun hm => (List.nodup_append.1 hd).2.2 a hm a (List.mem_singleton.2 rfl) rfl
  have hkept (b : ℕ) (hb : b ≠ a) : ((Function.update desc a { desc a with next := head }) b).next = (desc b).next := by
    rw [Function.update_of_ne hb]
  rw [path_append] at hpath
  rw [path_append, path_append]
  refine ⟨⟨hpath.1.congr fun b hb => hkept b ?_, ?_⟩, ?_⟩
  · rintro rfl
    exact hys hb
  · refine ⟨?_, trivial⟩
    have hafter : after (Function.update desc a { desc a with next := head }) i ys = after desc i ys := by
      unfold after
      cases hlast' : ys.getLast? with
      | none => rfl
      | some c =>
        have hca : c ≠ a := by
          rintro rfl
          exact hys (List.mem_of_getLast? hlast')
        simp only [Option.map_some, hkept c hca]
    rw [hafter]
    exact hpath.2.1
  · have hafter : after (Function.update desc a { desc a with next := head }) i (ys ++ [a]) = head := by
      simp [after]
    rw [hafter]
    apply hfree.congr
    intro b hb
    apply hkept b
    rintro rfl
    exact hout hb

/-- What the loops of `virtio_enqueue` do to the descriptors `xs` that they fill. -/
structure Filled (desc desc' : ℕ → Desc) (xs : List ℕ) : Prop where
  next : ∀ a, (desc' a).next = (desc a).next
  flags : ∀ a ∈ xs, (desc' a).flags.next = true
  others : ∀ a, a ∉ xs → desc' a = desc a

theorem Filled.append {desc'' : ℕ → Desc} (h : Filled desc desc' xs) (h' : Filled desc' desc'' ys)
    (hflags : ∀ a ∈ xs, a ∉ ys) : Filled desc desc'' (xs ++ ys) := by
  constructor
  · intro a
    rw [h'.next, h.next]
  · intro a ha
    rcases List.mem_append.1 ha with ha | ha
    · rw [h'.others a (hflags a ha)]
      exact h.flags a ha
    · exact h'.flags a ha
  · intro a ha
    rw [List.mem_append, not_or] at ha
    rw [h'.others a ha.2, h.others a ha.1]

/-- The loops of `virtio_enqueue` fill as many descriptors of the free list as the scatter list has entries. -/
theorem fill_spec {sgs : List Scatter} {write : Bool} (tail : ℕ) (hpath : Path desc i xs) (hd : xs.Nodup)
    (hlen : xs.length = sgs.length) :
    ∃ desc', fill desc i tail write sgs = (desc', after desc i xs, xs.getLast?.getD tail) ∧
      Filled desc desc' xs := by
  induction sgs generalizing desc i tail xs with
  | nil =>
    obtain rfl := List.length_eq_zero_iff.1 hlen
    exact ⟨desc, rfl, fun _ => rfl, fun _ h => (nomatch h), fun _ _ => rfl⟩
  | cons sg sgs ih =>
    cases xs with
    | nil => nomatch hlen
    | cons a xs =>
      obtain ⟨rfl, hrest⟩ := hpath
      obtain ⟨hi, hdrest⟩ := List.nodup_cons.1 hd
      generalize hdesc : Function.update desc i ⟨sg.addr, sg.size, ⟨true, write⟩, (desc i).next⟩ = desc₁
      have hself : desc₁ i = ⟨sg.addr, sg.size, ⟨true, write⟩, (desc i).next⟩ := by rw [← hdesc, Function.update_self]
      have hother (b : ℕ) (hb : b ≠ i) : desc₁ b = desc b := by rw [← hdesc, Function.update_of_ne hb]
      have hne (b : ℕ) (hb : b ∈ xs) : b ≠ i := by
        rintro rfl
        exact hi hb
      have hpath₁ : Path desc₁ (desc₁ i).next xs := by
        rw [hself]
        exact hrest.congr fun b hb => by rw [hother b (hne b hb)]
      obtain ⟨desc', hfill, hfilled⟩ := ih i hpath₁ hdrest (Nat.succ.inj hlen)
      refine ⟨desc', ?_, ?_⟩
      · unfold fill
        rw [hdesc, hfill, after_cons]
        have hafter : after desc₁ (desc₁ i).next xs = after desc (desc i).next xs := by
          unfold after
          cases hlast : xs.getLast? with
          | none => rw [hself]; rfl
          | some c =>
            have hc := hother c (hne c (List.mem_of_getLast? hlast))
            simp only [Option.map_some, Option.getD_some, hc]
        rw [hafter]
        cases xs with
        | nil => rfl
        | cons b xs => simp [List.getLast?_cons]
      · constructor
        · intro b
          rw [hfilled.next]
          by_cases hb : b = i
          · rw [hb, hself]
          · rw [hother b hb]
        · intro b hb
          rcases List.mem_cons.1 hb with rfl | hb
          · rw [hfilled.others b hi, hself]
          · exact hfilled.flags b hb
        · intro b hb
          rw [List.mem_cons, not_or] at hb
          rw [hfilled.others b hb.2, hother b hb.1]

end SimpleKernel.Virtio
