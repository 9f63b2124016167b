import SimpleKernel.Handle.Table
import SimpleKernel.Lib.Holdings
import SimpleKernel.Lib.Transition
import Mathlib.Data.Finset.Card

/-! The invariant of the handle table: the free list, the handles of every object, its counters and
the stage of its life. -/
namespace SimpleKernel.Handle
open Function (update update_of_ne update_self)

open Holdings

variable {ω τ : Type} {s s' : State ω τ} {o oo : ω} {t : τ} {h k : ℕ} {fl : List ℕ}

/-! The free list. -/

/-- The link that a slot holds. -/
def Slot.link : Slot ω → Option ℕ
  | .free next => next
  | .used _ _ => none

/-- The free list runs through `fl`, which has all slots of the table that are not in use. -/
structure TableOk (s : State ω τ) (fl : List ℕ) : Prop where
  stack : IsStack (fun h => (s.htab h).link) s.hfreelist fl
  nodup : fl.Nodup
  free_iff : ∀ h, h ∈ fl ↔ h < s.htabsize ∧ ∃ next, s.htab h = .free next

theorem link_update (htab : ℕ → Slot ω) (h : ℕ) (x : Slot ω) :
    (fun k => (update htab h x k).link) =
      update (fun k => (htab k).link) h x.link := by
  funext k
  by_cases hk : k = h
  · rw [hk, update_self, update_self]
  · rw [update_of_ne hk, update_of_ne hk]

theorem TableOk.not_mem (hs : TableOk s fl) {p : Bool} (hh : s.htab h = .used o p) : h ∉ fl := by
  intro hmem
  obtain ⟨-, next, hnext⟩ := (hs.free_iff h).mp hmem
  simp [hh] at hnext

theorem TableOk.reuse (hs : TableOk s fl) {p : Bool} (hh : s.htab h = .used o p) (oo : ω)
    (p' : Bool) : TableOk (s.setSlot h (.used oo p')) fl := by
  have hnot := hs.not_mem hh
  refine ⟨?_, hs.nodup, fun k => ?_⟩
  · refine hs.stack.congr fun k hk => ?_
    have hne : k ≠ h := fun heq => hnot (heq ▸ hk)
    simp [State.setSlot, update_of_ne hne]
  · by_cases hk : k = h
    · simp [State.setSlot, hk, hnot]
    · simp only [State.setSlot, update_of_ne hk]
      exact hs.free_iff k

theorem TableOk.push (hs : TableOk s fl) {p : Bool} (hlt : h < s.htabsize)
    (hh : s.htab h = .used o p) : TableOk (s.pushFree h) (h :: fl) := by
  have hnot := hs.not_mem hh
  refine ⟨?_, List.nodup_cons.mpr ⟨hnot, hs.nodup⟩, fun k => ?_⟩
  · simp only [State.pushFree, State.setSlot]
    rw [link_update]
    exact hs.stack.push hnot
  · by_cases hk : k = h
    · simp [State.pushFree, State.setSlot, hk, hlt]
    · simp only [State.pushFree, State.setSlot, update_of_ne hk, List.mem_cons, hk,
        false_or]
      exact hs.free_iff k

theorem TableOk.pop (hs : TableOk s fl) {next : Option ℕ} (hfl : s.hfreelist = some h)
    (hh : s.htab h = .free next) :
    TableOk ({ s with hfreelist := next }.setSlot h (.used o false)) (fl.erase h) := by
  have hstack := hs.stack
  rw [hfl] at hstack
  obtain ⟨fl', rfl, hstack'⟩ := hstack.pop hs.nodup
  obtain ⟨hnot, hnodup⟩ := List.nodup_cons.mp hs.nodup
  rw [List.erase_cons_head]
  refine ⟨?_, hnodup, fun k => ?_⟩
  · simp only [State.setSlot]
    rw [link_update]
    simpa [hh, Slot.link] using hstack'
  · have hk := hs.free_iff k
    by_cases hkh : k = h
    · simp [State.setSlot, hkh, hnot]
    · simpa [State.setSlot, hkh] using hk

theorem TableOk.second (hs : TableOk s fl) {next : Option ℕ} (hfl : s.hfreelist = some k)
    (hk : s.htab k = .free (some h)) (hh : s.htab h = .free next) (hne : h ≠ k) :
    TableOk ((s.setSlot k (.free next)).setSlot h (.used o false)) (fl.erase h) := by
  obtain ⟨hstack, hnodup, hiff⟩ := hs
  rw [hfl] at hstack
  match fl with
  | [] => simp [IsStack] at hstack
  | [a] =>
    obtain ⟨ha, hnone⟩ := hstack
    obtain rfl := Option.some.inj ha
    simp [IsStack, hk, Slot.link] at hnone
  | a :: b :: l =>
    obtain ⟨ha, hb, hl⟩ := hstack
    obtain rfl := Option.some.inj ha
    obtain rfl : h = b := by simpa [hk, Slot.link] using hb
    simp only [List.nodup_cons, List.mem_cons, not_or] at hnodup
    obtain ⟨⟨-, hkl⟩, hhl, hnodup⟩ := hnodup
    have hrest : (k :: h :: l).erase h = k :: l := by
      rw [List.erase_cons_tail (by simpa using hne.symm), List.erase_cons_head]
    rw [hrest]
    refine ⟨⟨hfl, ?_⟩, List.nodup_cons.mpr ⟨hkl, hnodup⟩, fun j => ?_⟩
    · have hkn : ((State.setSlot s k (.free next)).setSlot h (.used o false)).htab k =
          .free next := by
        simp [State.setSlot, update_of_ne hne.symm]
      change IsStack _ (s.htab h).link l at hl
      change IsStack _ (((State.setSlot s k (.free next)).setSlot h (.used o false)).htab k).link l
      rw [hkn]
      rw [hh] at hl
      refine IsStack.congr hl fun j hj => ?_
      have hjk : j ≠ k := fun heq => hkl (heq ▸ hj)
      have hjh : j ≠ h := fun heq => hhl (heq ▸ hj)
      simp [State.setSlot, update_of_ne hjk, update_of_ne hjh]
    · have hj := hiff j
      by_cases hjh : j = h
      · simp [State.setSlot, hjh, hne, hhl]
      · by_cases hjk : j = k
        · have hlt := ((hiff k).mp (by simp)).1
          simp [State.setSlot, hjk, update_of_ne hne.symm, hlt]
        · simpa [State.setSlot, update_of_ne hjk, hjh]
            using hj

theorem pushAll_spec (l : List ℕ) (hl : l.Nodup) (hdis : ∀ h ∈ l, h ∉ fl)
    (hstack : IsStack (fun h => (s.htab h).link) s.hfreelist fl) :
    IsStack (fun h => ((l.foldr (fun h s => s.pushFree h) s).htab h).link)
        (l.foldr (fun h s => s.pushFree h) s).hfreelist (l ++ fl) ∧
      (∀ h ∈ l, ∃ next, (l.foldr (fun h s => s.pushFree h) s).htab h = .free next) ∧
      (∀ h, h ∉ l → (l.foldr (fun h s => s.pushFree h) s).htab h = s.htab h) ∧
      ∃ htab head, l.foldr (fun h s => s.pushFree h) s =
        { s with htab := htab, hfreelist := head } := by
  induction l with
  | nil => exact ⟨hstack, by simp, fun h _ => rfl, _, _, rfl⟩
  | cons a l ih =>
    obtain ⟨hnot, hnodup⟩ := List.nodup_cons.mp hl
    obtain ⟨ih₁, ih₂, ih₃, htab, head, heq⟩ :=
      ih hnodup fun h hh => hdis h (List.mem_cons_of_mem _ hh)
    have hfresh : a ∉ l ++ fl := by
      rw [List.mem_append, not_or]
      exact ⟨hnot, hdis a List.mem_cons_self⟩
    simp only [List.foldr_cons]
    set s₁ := l.foldr (fun h s => s.pushFree h) s
    refine ⟨?_, fun h hh => ?_, fun h hh => ?_, ?_⟩
    · simp only [State.pushFree, State.setSlot]
      rw [link_update]
      exact ih₁.push hfresh
    · by_cases hha : h = a
      · exact ⟨s₁.hfreelist, by simp [State.pushFree, State.setSlot, hha]⟩
      · obtain ⟨next, hnext⟩ := ih₂ h (by simpa [hha] using hh)
        exact ⟨next, by simp [State.pushFree, State.setSlot, update_of_ne hha, hnext]⟩
    · rw [List.mem_cons, not_or] at hh
      simp only [State.pushFree, State.setSlot, update_of_ne hh.1]
      exact ih₃ h hh.2
    · rw [heq]
      exact ⟨_, _, rfl⟩

theorem TableOk.expand (hs : TableOk s fl) :
    (s.expandHtab.1 = s ∧ s.expandHtab.2 < 0) ∨ s.expandHtab.2 = 0 ∧
      TableOk s.expandHtab.1 (List.range' s.htabsize handlesPerPage ++ fl) ∧
      s.expandHtab.1.hfreelist ≠ none ∧
      (∀ h, h < s.htabsize → s.expandHtab.1.htab h = s.htab h) ∧
      (∀ h, s.htabsize ≤ h → h < s.expandHtab.1.htabsize →
        ∃ next, s.expandHtab.1.htab h = .free next) ∧
      ∃ htab head, s.expandHtab.1 =
        { s with htab := htab, hfreelist := head, htabsize := s.htabsize + handlesPerPage } := by
  by_cases hfull : s.htabsize = htabLimit
  · left
    rw [State.expandHtab, if_pos hfull]
    refine ⟨rfl, ?_⟩
    change -ENFILE < 0
    decide
  right
  have hold : ∀ h ∈ fl, h < s.htabsize := fun h hh => ((hs.free_iff h).mp hh).1
  have hnew : ∀ h, h ∈ List.range' s.htabsize handlesPerPage ↔
      s.htabsize ≤ h ∧ h < s.htabsize + handlesPerPage := by
    intro h
    rw [List.mem_range'_1]
  obtain ⟨hstack, hfree, hkeep, htab, head, heq⟩ :=
    pushAll_spec (List.range' s.htabsize handlesPerPage) List.nodup_range'
      (fun h hh hmem => by have := hold h hmem; have := (hnew h).mp hh; omega) hs.stack
  simp only [State.expandHtab, if_neg hfull]
  refine ⟨trivial, ⟨hstack, ?_, fun h => ?_⟩, ?_,
    fun h hh => ?_, fun h hlo hhi => ?_, ?_⟩
  · refine List.nodup_append.mpr ⟨List.nodup_range', hs.nodup, ?_⟩
    rintro a ha b hb rfl
    have := hold a hb
    have := (hnew a).mp ha
    omega
  · simp only [List.mem_append, hnew]
    by_cases hh : h < s.htabsize
    · rw [hkeep h (by rw [hnew]; omega)]
      have := hs.free_iff h
      constructor
      · rintro (hmem | hmem)
        · omega
        · exact ⟨by omega, (this.mp hmem).2⟩
      · rintro ⟨-, hnext⟩
        exact .inr (this.mpr ⟨hh, hnext⟩)
    · constructor
      · rintro (hmem | hmem)
        · exact ⟨hmem.2, hfree h ((hnew h).mpr hmem)⟩
        · exact absurd (hold h hmem) hh
      · rintro ⟨hlt, -⟩
        exact .inl ⟨by omega, hlt⟩
  · intro hnone
    rw [hnone] at hstack
    have hpos : List.range' s.htabsize handlesPerPage = s.htabsize :: _ := List.range'_succ ..
    rw [hpos] at hstack
    simp [IsStack] at hstack
  · exact hkeep h (by rw [hnew]; omega)
  · exact hfree h ((hnew h).mpr ⟨hlo, hhi⟩)
  · rw [heq]
    exact ⟨htab, head, rfl⟩

/-! The handles of an object. -/

/-- The object whose close the thread waits for. -/
def Phase.target : Phase ω → Option ω
  | .idle => none
  | .freeing o => some o
  | .assigning _ _ oo => some oo

/-- The handle that the thread is about to assign. -/
def Phase.slot : Phase ω → Option ℕ
  | .assigning _ h _ => some h
  | _ => none

def Refers (s : State ω τ) (h : ℕ) (o : ω) : Prop := h < s.htabsize ∧ ∃ p, s.htab h = .used o p

/-- Some thread is about to assign the handle. -/
def Busy (s : State ω τ) (h : ℕ) : Prop := ∃ t, (s.phase t).slot = some h

/-- The threads that wait for the close of the object. -/
def closers (s : State ω τ) (o : ω) : Set τ := {t | (s.phase t).target = some o}

/-- `refs o` are the handles of `o`, less those that are about to be assigned anew. -/
def RefsOk (s : State ω τ) (refs : ω → Finset ℕ) : Prop :=
  ∀ o h, h ∈ refs o ↔ Refers s h o ∧ ¬ Busy s h

variable {refs : ω → Finset ℕ}

theorem RefsOk.unique (hr : RefsOk s refs) (ho : h ∈ refs o) (hoo : h ∈ refs oo) : o = oo := by
  obtain ⟨⟨-, p, hp⟩, -⟩ := (hr o h).mp ho
  obtain ⟨⟨-, q, hq⟩, -⟩ := (hr oo h).mp hoo
  rw [hp] at hq
  exact (Slot.used.inj hq).1

/-- The handle `h` goes to `o`. -/
def giveTo [DecidableEq ω] (refs : ω → Finset ℕ) (h : ℕ) (o : ω) : ω → Finset ℕ := fun x =>
  if x = o then insert h ((refs x).erase h) else (refs x).erase h

/-- The handle `h` goes away. -/
def takeOut (refs : ω → Finset ℕ) (h : ℕ) : ω → Finset ℕ := fun x => (refs x).erase h

theorem mem_giveTo [DecidableEq ω] (x : ω) :
    k ∈ giveTo refs h o x ↔ if k = h then x = o else k ∈ refs x := by
  rw [giveTo]
  by_cases hx : x = o <;> by_cases hk : k = h <;> simp [hx, hk]

theorem RefsOk.giveTo [DecidableEq ω] (hr : RefsOk s refs) {p : Bool} (hlt : h < s'.htabsize)
    (hself : s'.htab h = .used o p) (hslot : ∀ k x, k ≠ h → (Refers s' k x ↔ Refers s k x))
    (hbusy : ∀ k, k ≠ h → (Busy s' k ↔ Busy s k)) (hfree : ¬ Busy s' h) :
    RefsOk s' (giveTo refs h o) := by
  intro x k
  rw [mem_giveTo]
  split
  · next hk =>
    subst hk
    constructor
    · rintro rfl
      exact ⟨⟨hlt, p, hself⟩, hfree⟩
    · rintro ⟨⟨-, q, hq⟩, -⟩
      rw [hself] at hq
      exact (Slot.used.inj hq).1.symm
  · next hk => rw [hr x k, hbusy k hk, hslot k x hk]

theorem RefsOk.takeOut (hr : RefsOk s refs) (hself : ∀ x, Refers s' h x → Busy s' h)
    (hslot : ∀ k x, k ≠ h → (Refers s' k x ↔ Refers s k x))
    (hbusy : ∀ k, k ≠ h → (Busy s' k ↔ Busy s k)) : RefsOk s' (takeOut refs h) := by
  intro x k
  by_cases hk : k = h
  · subst hk
    simp only [Handle.takeOut, Finset.notMem_erase, false_iff, not_and, not_not]
    exact hself x
  · have hmem : k ∈ Handle.takeOut refs h x ↔ k ∈ refs x := by
      simp [Handle.takeOut, hk]
    rw [hmem, hr x k, hbusy k hk, hslot k x hk]

theorem card_giveTo [DecidableEq ω] (x : ω) :
    (giveTo refs h o x).card = ((refs x).erase h).card + if x = o then 1 else 0 := by
  rw [giveTo]
  split
  · rw [Finset.card_insert_of_notMem (Finset.notMem_erase h _)]
  · rfl

/-! The life of an object. -/

/-- How often it was closed and destroyed, whether it ever had a handle, its outstanding locks, the
threads that wait for its close and its handles. -/
inductive Stage (closed destroyed : ℕ) (given : Bool) (locked : ℕ) (closers : Set τ)
    (refs : Finset ℕ) : Prop
  | live (hc : closed = 0) (hd : destroyed = 0) (hcl : closers = ∅)
      (hg : given = true ↔ refs.Nonempty) (hl : refs.Nonempty ∨ locked = 0)
  | closing (t : τ) (hc : closed = 1) (hd : destroyed = 0) (hcl : closers = {t})
      (hg : given = true) (hr : refs = ∅)
  | shut (hc : closed = 1) (hd : destroyed = 0) (hcl : closers = ∅) (hg : given = true)
      (hr : refs = ∅) (hl : 0 < locked)
  | gone (hc : closed = 1) (hd : destroyed = 1) (hcl : closers = ∅) (hg : given = true)
      (hr : refs = ∅) (hl : locked = 0)

section stage

variable {closed destroyed locked : ℕ} {given : Bool} {cl : Set τ} {r r' : Finset ℕ}

theorem Stage.give (hst : Stage closed destroyed given locked cl r)
    (ho : given = false ∨ r.Nonempty) (hr' : r'.Nonempty) :
    Stage closed destroyed true locked cl r' := by
  cases hst with
  | live hc hd hcl hg hl => exact .live hc hd hcl (by simp [hr']) (.inl hr')
  | closing t hc hd hcl hg hr => simp [hg, hr] at ho
  | shut hc hd hcl hg hr hl => simp [hg, hr] at ho
  | gone hc hd hcl hg hr hl => simp [hg, hr] at ho

theorem Stage.shrink (hst : Stage closed destroyed given locked cl r) (hr : r.Nonempty)
    (hr' : r'.Nonempty) : Stage closed destroyed given locked cl r' := by
  cases hst with
  | live hc hd hcl hg hl => exact .live hc hd hcl (by simp [hr', hg, hr]) (.inl hr')
  | closing t hc hd hcl hg hr₀ => simp [hr₀] at hr
  | shut hc hd hcl hg hr₀ hl => simp [hr₀] at hr
  | gone hc hd hcl hg hr₀ hl => simp [hr₀] at hr

theorem Stage.close (hst : Stage closed destroyed given locked cl r) (hr : r.Nonempty) (t : τ) :
    Stage (closed + 1) destroyed given locked (insert t cl) ∅ := by
  cases hst with
  | live hc hd hcl hg hl =>
    exact .closing t (by rw [hc]) hd (by rw [hcl, insert_empty_eq]) (hg.mpr hr) rfl
  | closing t hc hd hcl hg hr₀ => simp [hr₀] at hr
  | shut hc hd hcl hg hr₀ hl => simp [hr₀] at hr
  | gone hc hd hcl hg hr₀ hl => simp [hr₀] at hr

theorem Stage.closeDone {t : τ} (hst : Stage closed destroyed given locked cl r) (ht : t ∈ cl) :
    Stage closed (if locked = 0 then destroyed + 1 else destroyed) given locked (cl \ {t}) r := by
  cases hst with
  | live hc hd hcl hg hl => simp [hcl] at ht
  | closing t' hc hd hcl hg hr =>
    have hcl' : cl \ {t} = ∅ := by
      rw [hcl] at ht
      rw [hcl, ht, sdiff_self, Set.bot_eq_empty]
    split
    · next hl => exact .gone hc (by rw [hd]) hcl' hg hr hl
    · next hl => exact .shut hc hd hcl' hg hr (by omega)
  | shut hc hd hcl hg hr hl => simp [hcl] at ht
  | gone hc hd hcl hg hr hl => simp [hcl] at ht

theorem Stage.lock (hst : Stage closed destroyed given locked cl r) (hr : r.Nonempty) :
    Stage closed destroyed given (locked + 1) cl r := by
  cases hst with
  | live hc hd hcl hg hl => exact .live hc hd hcl hg (.inl hr)
  | closing t hc hd hcl hg hr₀ => simp [hr₀] at hr
  | shut hc hd hcl hg hr₀ hl => simp [hr₀] at hr
  | gone hc hd hcl hg hr₀ hl => simp [hr₀] at hr

theorem Stage.unlock (hst : Stage closed destroyed given locked cl r) (hpos : 0 < locked)
    (hlast : locked = 1 → cl = ∅) :
    Stage closed (if locked - 1 = 0 ∧ r.card = 0 then destroyed + 1 else destroyed) given
      (locked - 1) cl r := by
  cases hst with
  | live hc hd hcl hg hl =>
    have hr : r.Nonempty := by
      rcases hl with hr | hl
      · exact hr
      · omega
    rw [if_neg (by rw [Finset.card_eq_zero]; exact fun hx => hr.ne_empty hx.2)]
    exact .live hc hd hcl hg (.inl hr)
  | closing t hc hd hcl hg hr =>
    have hne : locked ≠ 1 := by
      intro h1
      rw [hlast h1] at hcl
      exact Set.singleton_ne_empty t hcl.symm
    rw [if_neg (by omega)]
    exact .closing t hc hd hcl hg hr
  | shut hc hd hcl hg hr hl =>
    by_cases hl' : locked - 1 = 0
    · rw [if_pos ⟨hl', by rw [hr, Finset.card_empty]⟩]
      exact .gone hc (by rw [hd]) hcl hg hr hl'
    · rw [if_neg (by omega)]
      exact .shut hc hd hcl hg hr (by omega)
  | gone hc hd hcl hg hr hl => omega

end stage

structure Inv (s : State ω τ) (fl : List ℕ) (refs : ω → Finset ℕ) : Prop where
  table : TableOk s fl
  refsOk : RefsOk s refs
  count : ∀ o, (s.obj o).handleCount.toNat = (refs o).card
  locks : ∀ o, (s.obj o).lockCount.toNat = s.locked o
  busy : ∀ t o h oo, s.phase t = .assigning o h oo → Refers s h oo
  apart : ∀ t t' h, (s.phase t).slot = some h → (s.phase t').slot = some h → t = t'
  stage : ∀ o, Stage (s.closed o) (s.destroyed o) (s.given o) (s.locked o) (closers s o) (refs o)

end SimpleKernel.Handle
