import SimpleKernel.Lib.LinkedList

/-! Linked lists that are searched node by node, and insertion behind a node that was found. -/
namespace SimpleKernel.LinkedList

section Scan
variable {α σ ρ : Type*} {l : Links α} {h : Option α} {xs : List α}

/-- The loop `for (a = h; a; a = a->next)` for at most `n` rounds. The body changes the local
variables, or it leaves the loop with a result. -/
def Links.scan (l : Links α) (body : σ → α → Except ρ σ) : ℕ → Option α → σ → Option (Except ρ σ)
  | _, none, s => some (.ok s)
  | 0, some _, _ => none
  | n + 1, some a, s =>
    match body s a with
    | .error r => some (.error r)
    | .ok s' => l.scan body n (l.next a) s'

theorem Seg.scan {body : σ → α → Except ρ σ} {p : Option α} {s : σ} {n : ℕ} (hs : Seg l p xs none)
    (hn : xs.length ≤ n) : l.scan body n xs.head? s = some (xs.foldlM body s) := by
  induction xs generalizing p s n with
  | nil =>
    cases n with
    | zero => rfl
    | succ n => rfl
  | cons a xs ih =>
    obtain ⟨-, hnext, hrest⟩ := hs
    rw [Option.or_none] at hnext
    cases n with
    | zero => simp at hn
    | succ n =>
      rw [List.head?_cons, Links.scan, List.foldlM_cons]
      cases hbody : body s a with
      | error r => rfl
      | ok s' =>
        rw [hnext]
        exact ih hrest (by simpa using hn)

theorem IsBucket.scan {body : σ → α → Except ρ σ} {s : σ} {n : ℕ} (hb : IsBucket l h xs)
    (hn : xs.length ≤ n) : l.scan body n h s = some (xs.foldlM body s) := by
  rw [hb.head]
  exact hb.seg.scan hn

theorem Seg.scan_eq {body : σ → α → Except ρ σ} {p : Option α} {s : σ} {n : ℕ} {r : Except ρ σ}
    (hs : Seg l p xs none) (h : l.scan body n xs.head? s = some r) : r = xs.foldlM body s := by
  induction xs generalizing p s n with
  | nil =>
    cases n with
    | zero => exact (Option.some.inj h).symm
    | succ n => exact (Option.some.inj h).symm
  | cons a xs ih =>
    obtain ⟨-, hnext, hrest⟩ := hs
    rw [Option.or_none] at hnext
    cases n with
    | zero => simp [Links.scan] at h
    | succ n =>
      rw [List.head?_cons, Links.scan] at h
      rw [List.foldlM_cons]
      cases hbody : body s a with
      | error e =>
        rw [hbody] at h
        exact (Option.some.inj h).symm
      | ok s' =>
        rw [hbody] at h
        rw [hnext] at h
        exact ih hrest h

theorem IsBucket.scan_eq {body : σ → α → Except ρ σ} {s : σ} {n : ℕ} {r : Except ρ σ}
    (hb : IsBucket l h xs) (hr : l.scan body n h s = some r) : r = xs.foldlM body s := by
  rw [hb.head] at hr
  exact hb.seg.scan_eq hr

theorem IsBucket.next_getElem {a : α} {i : ℕ} (hb : IsBucket l h xs) (hi : xs[i]? = some a) :
    l.next a = xs[i + 1]? := by
  obtain ⟨hlt, rfl⟩ := List.getElem?_eq_some_iff.mp hi
  have hsplit : xs = xs.take i ++ xs[i] :: xs.drop (i + 1) := by
    rw [← List.drop_eq_getElem_cons hlt, List.take_append_drop]
  rw [hsplit] at hb
  rw [hb.middle.2.1, List.head?_drop]

theorem IsBucket.follow (hb : IsBucket l h xs) (i : ℕ) : l.follow h i = xs[i]? := by
  induction i with
  | zero => rw [Links.follow, hb.head, List.head?_eq_getElem?]
  | succ i ih =>
    rw [Links.follow, ih]
    cases hi : xs[i]? with
    | none =>
      rw [List.getElem?_eq_none_iff] at hi
      rw [List.getElem?_eq_none (by omega)]
      rfl
    | some a => exact hb.next_getElem hi

/-- A loop that returns the first result that `f` gives. -/
def Links.search (l : Links α) (f : α → Option ρ) (n : ℕ) (h : Option α) : Option (Option ρ) :=
  (l.scan (fun _ a => match f a with | some r => .error r | none => .ok ()) n h ()).map fun
    | .error r => some r
    | .ok () => none

theorem foldlM_search (f : α → Option ρ) (xs : List α) :
    xs.foldlM (fun _ a => match f a with | some r => .error r | none => .ok ()) () =
      match xs.findSome? f with
      | some r => Except.error r
      | none => Except.ok () := by
  induction xs with
  | nil => rfl
  | cons a xs ih =>
    rw [List.foldlM_cons, List.findSome?_cons]
    cases hf : f a with
    | some r => rfl
    | none => exact ih

theorem IsBucket.search {f : α → Option ρ} {n : ℕ} (hb : IsBucket l h xs) (hn : xs.length ≤ n) :
    l.search f n h = some (xs.findSome? f) := by
  rw [Links.search, hb.scan hn, foldlM_search]
  cases xs.findSome? f with
  | some r => rfl
  | none => rfl

theorem IsBucket.search_eq {f : α → Option ρ} {n : ℕ} {r : Option ρ} (hb : IsBucket l h xs)
    (hr : l.search f n h = some r) : r = xs.findSome? f := by
  obtain ⟨r', hscan, rfl⟩ := Option.map_eq_some_iff.mp hr
  rw [hb.scan_eq hscan, foldlM_search]
  cases xs.findSome? f with
  | some r => rfl
  | none => rfl

end Scan

section Insertion
variable {α : Type*} [DecidableEq α] {l : Links α} {h : Option α} {xs ys : List α} {a p : α}

/-- `a` becomes the node behind `p`. -/
def Links.insertAfter (l : Links α) (p a : α) : Links α :=
  (((l.setNext (some a) (l.next p)).setPrev (some a) (some p)).setPrev (l.next p) (some a)).setNext
    (some p) (some a)

theorem IsBucket.insertAfter (hb : IsBucket l h (xs ++ p :: ys)) (ha : a ∉ xs ++ p :: ys) :
    IsBucket (l.insertAfter p a) h (xs ++ p :: a :: ys) := by
  obtain ⟨hp, hn, hx, hy⟩ := hb.middle
  have hd := hb.nodup
  have hdy : (p :: ys).Nodup := (List.nodup_append.mp hd).2.1
  simp only [List.mem_append, List.mem_cons, not_or] at ha
  obtain ⟨hax, hap, hay⟩ := ha
  have hpx : p ∉ xs := fun hm => (List.nodup_append.mp hd).2.2 p hm p List.mem_cons_self rfl
  have hpy : p ∉ ys := (List.nodup_cons.mp hdy).1
  have hxy (b : α) (hbx : b ∈ xs) : b ∉ ys := fun hby =>
    (List.nodup_append.mp hd).2.2 b hbx b (List.mem_cons_of_mem p hby) rfl
  refine ⟨?_, ?_, ?_⟩
  · rw [show xs ++ p :: a :: ys = (xs ++ [p]) ++ a :: ys by simp, List.nodup_middle]
    refine List.nodup_cons.mpr ⟨by simp [hax, hap, hay], ?_⟩
    simpa using hd
  · rw [seg_append]
    refine ⟨?_, ?_, ?_, ?_, ?_, ?_⟩
    · -- before `p` nothing changes
      refine hx.congr (fun b hbx => ?_) fun b hbx => ?_
      · have h1 : a ≠ b := fun e => hax (e ▸ hbx)
        have h2 : ys.head? ≠ some b := fun e => hxy b hbx (List.mem_of_head? e)
        simp [Links.insertAfter, hn, h1, h2]
      · have h1 : a ≠ b := fun e => hax (e ▸ hbx)
        have h2 : p ≠ b := fun e => hpx (e ▸ hbx)
        simp [Links.insertAfter, h1, h2]
    · have h1 : ys.head? ≠ some p := fun e => hpy (List.mem_of_head? e)
      simp [Links.insertAfter, hn, h1, hap, hp]
    · simp [Links.insertAfter]
    · have h1 : ys.head? ≠ some a := fun e => hay (List.mem_of_head? e)
      simp [Links.insertAfter, hn, h1]
    · simp [Links.insertAfter, hn, Ne.symm hap]
    · have hys : Seg ((l.setNext (some a) ys.head?).setPrev (some a) (some p)) (some p) ys none := by
        refine hy.congr (fun b hby => ?_) fun b hby => ?_
        · have h1 : a ≠ b := fun e => hay (e ▸ hby)
          simp [h1]
        · have h1 : a ≠ b := fun e => hay (e ▸ hby)
          simp [h1]
      rw [Links.insertAfter, hn]
      refine (hys.setPrev_head (List.nodup_cons.mp hdy).2 (some a)).congr (fun _ _ => rfl)
        fun b hby => ?_
      have h1 : p ≠ b := fun e => hpy (e ▸ hby)
      simp [h1]
  · rw [hb.head]
    cases xs <;> simp

end Insertion

end SimpleKernel.LinkedList
