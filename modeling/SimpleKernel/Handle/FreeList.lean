import SimpleKernel.Handle.Invariant

/-! `hassign` to a free handle. The loop of `remove_from_freelist` looks at the link of the first free handle again
and again; it finds the handle at once or never. -/
namespace SimpleKernel.Handle

open Holdings

variable {ω τ : Type} {s s' : State ω τ} {o : ω} {t : τ} {h k n size : ℕ} {fl l : List ℕ}

namespace State

/-- At most `n` rounds of the loop of `remove_from_freelist`; `fl` does not change. -/
def removeLoop (s : State ω τ) (h fl : ℕ) (next : Option ℕ) [DecidableEq ω] :
    ℕ → Option (State ω τ × ℤ)
  | 0 => none
  | n + 1 =>
    if s.htab fl = .free (some h) then some (s.setSlot fl (.free next), 0)
    else removeLoop s h fl next n

variable [DecidableEq ω]

theorem removeLoop_succ {next : Option ℕ} (hfl : s.hfreelist = some k) (hne : h ≠ k) :
    s.removeLoop h k next (n + 1) = s.removeFromFreelist h next := by
  induction n with
  | zero => simp only [removeLoop, removeFromFreelist, hfl, if_neg hne]
  | succ n ih =>
    rw [removeLoop, ih]
    simp only [removeFromFreelist, hfl]
    split <;> rfl

end State

/-- A table as the calls leave it: whole pages, with the free list through all free slots. -/
structure WellFormed (s : State ω τ) (fl : List ℕ) : Prop where
  table : TableOk s fl
  size : s.htabsize ≤ htabLimit
  pages : handlesPerPage ∣ s.htabsize

theorem initial_wellFormed (type : ω → UInt16) : WellFormed (initial type : State ω τ) [] := by
  refine ⟨⟨rfl, List.nodup_nil, fun h => ?_⟩, Nat.zero_le _, Nat.dvd_zero _⟩
  simp [initial]

/-- The first free handle is `h`, or links to it. -/
def Near (s : State ω τ) (h : ℕ) : Prop :=
  s.hfreelist = some h ∨ ∃ k, s.hfreelist = some k ∧ s.htab k = .free (some h)

theorem TableOk.near_iff (hs : TableOk s fl) : Near s h ↔ h ∈ fl.take 2 := by
  rw [Near]
  match fl, hs with
  | [], hs =>
    have hnone : s.hfreelist = none := hs.stack
    simp [hnone]
  | [a], hs =>
    obtain ⟨ha, hnone⟩ := hs.stack
    have hlast (j : ℕ) : s.htab a ≠ .free (some j) := by
      intro hj
      simp [IsStack, hj, Slot.link] at hnone
    simp only [ha, Option.some.injEq, exists_eq_left', hlast]
    simp [eq_comm]
  | a :: b :: l, hs =>
    obtain ⟨ha, hb, -⟩ := hs.stack
    obtain ⟨-, next, hnext⟩ := (hs.free_iff a).mp List.mem_cons_self
    obtain rfl : next = some b := by simpa [hnext, Slot.link] using hb
    simp [ha, hnext, eq_comm]

section remove

variable [DecidableEq ω] {next : Option ℕ}

theorem TableOk.remove (hs : TableOk s fl) (hnext : s.htab h = .free next) (hnear : Near s h) :
    ∃ s', s.removeFromFreelist h next = some (s', 0) ∧ s'.htabsize = s.htabsize ∧
      TableOk (s'.assign o h) (fl.erase h) := by
  have hassign {s₁ : State ω τ} (hs₁ : TableOk (s₁.setSlot h (.used o false)) (fl.erase h)) :
      TableOk (s₁.assign o h) (fl.erase h) := ⟨hs₁.stack, hs₁.nodup, hs₁.free_iff⟩
  by_cases hhead : s.hfreelist = some h
  · refine ⟨{ s with hfreelist := next }, ?_, rfl, hassign (hs.pop hhead hnext)⟩
    simp [State.removeFromFreelist, hhead]
  · obtain ⟨k, hk, hlink⟩ := hnear.resolve_left hhead
    have hne : h ≠ k := by
      rintro rfl
      exact hhead hk
    refine ⟨s.setSlot k (.free next), ?_, rfl, hassign (hs.second hk hlink hnext hne)⟩
    simp [State.removeFromFreelist, hk, hne, hlink]

theorem TableOk.remove_stuck (hs : TableOk s fl) (hmem : h ∈ fl) (hfar : ¬Near s h) :
    s.removeFromFreelist h next = none := by
  rw [Near, not_or, not_exists] at hfar
  cases hk : s.hfreelist with
  | none =>
    have hstack := hs.stack
    rw [hk] at hstack
    cases fl with
    | nil => simp at hmem
    | cons a l => simp [IsStack] at hstack
  | some k =>
    have hne : h ≠ k := by
      rintro rfl
      exact hfar.1 hk
    have hlink : s.htab k ≠ .free (some h) := fun hlink => hfar.2 k ⟨hk, hlink⟩
    simp [State.removeFromFreelist, hk, hne, hlink]

end remove

/-! The table is expanded first. -/

/-- The free list `fl` of a table of the given size after at most `n` expansions for `h`. -/
def pagesTo (h : ℕ) : ℕ → ℕ → List ℕ → List ℕ
  | 0, _, fl => fl
  | n + 1, size, fl =>
    if size ≤ h then pagesTo h n (size + handlesPerPage) (List.range' size handlesPerPage ++ fl)
    else fl

theorem WellFormed.expand (hs : WellFormed s fl) (hroom : s.htabsize < htabLimit) :
    WellFormed s.expandHtab.1 (List.range' s.htabsize handlesPerPage ++ fl) ∧
      s.expandHtab.2 = 0 ∧ s.expandHtab.1.htabsize = s.htabsize + handlesPerPage := by
  have hfull : s.htabsize ≠ htabLimit := hroom.ne
  rcases hs.table.expand with ⟨-, hneg⟩ | ⟨hzero, htable, -, -, -, htab, head, heq⟩
  · simp [State.expandHtab, hfull] at hneg
  have hsize : s.expandHtab.1.htabsize = s.htabsize + handlesPerPage := by rw [heq]
  refine ⟨⟨htable, ?_, ?_⟩, hzero, hsize⟩
  · obtain ⟨q, hq⟩ := hs.pages
    simp only [htabLimit, handlesPerPage] at *
    omega
  · rw [hsize]
    exact Nat.dvd_add hs.pages (Nat.dvd_refl _)

theorem WellFormed.expandTo (hs : WellFormed s fl) (hh : h < htabLimit) (hn : h < s.htabsize + n) :
    WellFormed (State.expandTo h n s).1 (pagesTo h n s.htabsize fl) ∧
      (State.expandTo h n s).2 = 0 ∧ h < (State.expandTo h n s).1.htabsize := by
  induction n generalizing s fl with
  | zero => exact ⟨hs, rfl, hn⟩
  | succ n ih =>
    rw [State.expandTo, pagesTo]
    split
    · next hle =>
      obtain ⟨hs', hzero, hsize⟩ := hs.expand (by omega)
      have hpos : 0 < handlesPerPage := by decide
      have hnext := ih hs' (by omega)
      rw [hsize] at hnext
      have hok : ¬s.expandHtab.2 < 0 := by
        rw [hzero]
        exact lt_irrefl 0
      simpa only [if_neg hok] using hnext
    · next hgt => exact ⟨hs, rfl, not_le.mp hgt⟩

theorem pagesTo_eq (fl : List ℕ) (hdvd : handlesPerPage ∣ size) (hle : size ≤ h) (hn : h < size + n) :
    ∃ l, pagesTo h n size fl =
      List.range' (h / handlesPerPage * handlesPerPage) handlesPerPage ++ l := by
  induction n generalizing size fl with
  | zero => omega
  | succ n ih =>
    rw [pagesTo, if_pos hle]
    have hdvd' : handlesPerPage ∣ size + handlesPerPage := Nat.dvd_add hdvd (Nat.dvd_refl _)
    obtain ⟨q, rfl⟩ := hdvd
    by_cases hnext : handlesPerPage * q + handlesPerPage ≤ h
    · exact ih _ hdvd' hnext (by simp only [handlesPerPage] at *; omega)
    · have hq : h / handlesPerPage * handlesPerPage = handlesPerPage * q := by
        simp only [handlesPerPage] at *
        omega
      rw [hq]
      cases n with
      | zero => exact ⟨fl, rfl⟩
      | succ n => exact ⟨fl, by rw [pagesTo, if_neg hnext]⟩

/-- The handle is one of the first two free ones, or one of the first two of its page when that is
not in the table yet. -/
def AtFront (s : State ω τ) (fl : List ℕ) (h : ℕ) : Prop :=
  if h < s.htabsize then h ∈ fl.take 2 else h % handlesPerPage < 2

instance : Decidable (AtFront s fl h) := by
  unfold AtFront
  infer_instance

theorem WellFormed.atFront_iff (hs : WellFormed s fl) (hh : h < htabLimit) :
    AtFront s fl h ↔ Near (State.expandTo h (h + 1) s).1 h := by
  obtain ⟨hs', -, -⟩ := hs.expandTo (n := h + 1) hh (by omega)
  rw [hs'.table.near_iff, AtFront]
  split
  · next hlt => rw [pagesTo, if_neg (by omega)]
  · next hge =>
    obtain ⟨l, hl⟩ := pagesTo_eq fl hs.pages (not_lt.mp hge) (show h < s.htabsize + (h + 1) by omega)
    rw [hl, show handlesPerPage = 1022 + 1 + 1 from rfl, List.range'_succ, List.range'_succ]
    simp only [List.cons_append, List.take_succ_cons, List.take_zero, List.mem_cons,
      List.not_mem_nil, or_false]
    omega

theorem WellFormed.free_expanded (hs : WellFormed s fl)
    (hfree : h < s.htabsize → h ∈ fl) : h ∈ pagesTo h (h + 1) s.htabsize fl := by
  by_cases hlt : h < s.htabsize
  · rw [pagesTo, if_neg (by omega)]
    exact hfree hlt
  · obtain ⟨l, hl⟩ := pagesTo_eq fl hs.pages (not_lt.mp hlt) (show h < s.htabsize + (h + 1) by omega)
    rw [hl, List.mem_append, List.mem_range'_1]
    simp only [handlesPerPage]
    omega

section hassign

variable [DecidableEq ω] [DecidableEq τ]

/-- `hassign(o, h)` returns 0; then `h` refers to `o`, and the free list is that of the expanded
table less `h`. -/
def AssignsFree (s : State ω τ) (t : τ) (o : ω) (h : ℕ) : Prop :=
  ∃ fl' s', TableOk (State.expandTo h (h + 1) s).1 fl' ∧
    s.hassign t o (h : ℤ) = some (s', some 0) ∧ s'.hlookup h = some (o, false) ∧
    TableOk s' (fl'.erase h)

theorem WellFormed.hassign_eq (hs : WellFormed s fl) (hh : h < htabLimit)
    {next : Option ℕ} (hnext : (State.expandTo h (h + 1) s).1.htab h = .free next) :
    s.hassign t o (h : ℤ) =
      ((State.expandTo h (h + 1) s).1.removeFromFreelist h next).map fun q =>
        if q.2 < 0 then (q.1, some q.2) else (q.1.assign o h, some 0) := by
  obtain ⟨-, hzero, -⟩ := hs.expandTo (n := h + 1) hh (by omega)
  have hrange : ¬((h : ℤ) < 0 ∨ (htabLimit : ℤ) < (h : ℤ)) := by omega
  have hcode : ¬(State.expandTo h (h + 1) s).2 < 0 := by
    rw [hzero]
    exact lt_irrefl 0
  simp only [State.hassign, if_neg hrange, Int.toNat_natCast, if_neg hcode, hnext]

theorem hassign_stuck (hs : WellFormed s fl) (hh : h < htabLimit) (hfree : h < s.htabsize → h ∈ fl)
    (hfar : ¬AtFront s fl h) : s.hassign t o (h : ℤ) = none := by
  obtain ⟨hs', -, -⟩ := hs.expandTo (n := h + 1) hh (by omega)
  have hmem := hs.free_expanded hfree
  obtain ⟨-, next, hnext⟩ := (hs'.table.free_iff h).mp hmem
  rw [hs.atFront_iff hh] at hfar
  rw [hs.hassign_eq hh hnext, hs'.table.remove_stuck hmem hfar]
  rfl

/-- `hassign` to a free handle does its work if and only if the handle is at the front. -/
theorem hassign_free_iff (hs : WellFormed s fl) (hh : h < htabLimit)
    (hfree : h < s.htabsize → h ∈ fl) : AssignsFree s t o h ↔ AtFront s fl h := by
  constructor
  · rintro ⟨fl', s', -, hdone, -, -⟩
    by_contra hfar
    rw [hassign_stuck hs hh hfree hfar] at hdone
    exact absurd hdone (by simp)
  · intro hfront
    obtain ⟨hs', -, hlt⟩ := hs.expandTo (n := h + 1) hh (by omega)
    have hmem := hs.free_expanded hfree
    obtain ⟨-, next, hnext⟩ := (hs'.table.free_iff h).mp hmem
    have hnear := (hs.atFront_iff hh).mp hfront
    obtain ⟨s₁, hremove, hsize, htable⟩ := hs'.table.remove hnext hnear
    refine ⟨_, s₁.assign o h, hs'.table, ?_, ?_, htable⟩
    · rw [hs.hassign_eq hh hnext, hremove]
      rfl
    · have hbound : h < (s₁.assign o h).htabsize := lt_of_lt_of_eq hlt hsize.symm
      have hslot : (s₁.assign o h).htab h = .used o false := by
        simp [State.assign, State.setSlot, State.setObj]
      rw [State.hlookup, if_neg (by omega)]
      simp only [Int.toNat_natCast, hslot]

end hassign

/-- The second handle of an empty table. -/
theorem hassign_free_second :
    WellFormed (initial fun _ => 0 : State Unit Unit) [] ∧
      AssignsFree (initial fun _ => 0 : State Unit Unit) () () 1 := by
  refine ⟨initial_wellFormed _, ?_⟩
  apply (hassign_free_iff (initial_wellFormed _) (by decide) (by decide)).mpr
  decide

/-- `hassign` to the third handle of an empty table does not return. -/
theorem hassign_third_stuck :
    WellFormed (initial fun _ => 0 : State Unit Unit) [] ∧
      (initial fun _ => 0 : State Unit Unit).hassign () () 2 = none := by
  refine ⟨initial_wellFormed _, ?_⟩
  decide

end SimpleKernel.Handle
