import SimpleKernel.Edit.Editor
import Mathlib.Data.List.Induction
import Mathlib.Data.List.Perm.Basic

/-! What the functions of the editor do to the list of undo records. -/
namespace SimpleKernel.Edit
open SimpleKernel.LinkedList
open Function (update update_of_ne update_self)

/-- `after` is `before` with the text of the record `u` inserted and its other text erased. -/
def Between (u : Undo) (before after : Text) : Prop :=
  ∃ xs ys, before = xs ++ u.undobuf ++ ys ∧ after = xs ++ u.redobuf ++ ys ∧ xs.length = u.pos

/-- `buf` in place of the `len` bytes at `pos`. -/
def splice (t : Text) (pos len : ℕ) (buf : Text) : Text := t.take pos ++ buf ++ t.drop (pos + len)

variable {u u' : Undo} {t before after : Text} {pos len a : ℕ} {buf : Text} {ed ed' : Editor}

theorem splice_append (xs old new ys : Text) : splice (xs ++ old ++ ys) xs.length old.length new = xs ++ new ++ ys := by
  unfold splice
  have htake : (xs ++ old ++ ys).take xs.length = xs := by rw [List.append_assoc, List.take_left]
  have hdrop : (xs ++ old ++ ys).drop (xs.length + old.length) = ys := by rw [← List.length_append, List.drop_left]
  rw [htake, hdrop]

theorem Between.undo (h : Between u before after) :
    u.pos + u.inserted ≤ after.length ∧ splice after u.pos u.inserted u.undobuf = before := by
  obtain ⟨xs, ys, rfl, rfl, hpos⟩ := h
  constructor
  · unfold Undo.inserted
    simp only [List.length_append]
    omega
  · rw [← hpos]
    exact splice_append xs u.redobuf u.undobuf ys

theorem Between.redo (h : Between u before after) :
    u.pos + u.erased ≤ before.length ∧ splice before u.pos u.erased u.redobuf = after := by
  obtain ⟨xs, ys, rfl, rfl, hpos⟩ := h
  constructor
  · unfold Undo.erased
    simp only [List.length_append]
    omega
  · rw [← hpos]
    exact splice_append xs u.undobuf u.redobuf ys

theorem between_new (hlen : pos + len ≤ t.length) (next prev : Option ℕ) :
    Between ⟨pos, (t.drop pos).take len, buf, next, prev⟩ t (splice t pos len buf) := by
  refine ⟨t.take pos, t.drop (pos + len), ?_, rfl, ?_⟩
  · rw [← List.drop_drop, List.append_assoc, List.take_append_drop, List.take_append_drop]
  · dsimp only
    rw [List.length_take]
    omega

/-- Two records with the same texts at the same position. -/
def Alike (u u' : Undo) : Prop := u'.pos = u.pos ∧ u'.undobuf = u.undobuf ∧ u'.redobuf = u.redobuf

theorem Between.alike (h : Between u before after) (hu : Alike u u') : Between u' before after := by
  obtain ⟨hpos, hundo, hredo⟩ := hu
  unfold Between
  rw [hpos, hundo, hredo]
  exact h

theorem merge_spec {g : GapBuffer} (hg : g.Ordered) (h : Between u before g.text) (hlen : pos + len ≤ g.textLength)
    (hm : u.merge g pos len buf = some u') :
    Between u' before (splice g.text pos len buf) ∧ u'.next = u.next ∧ u'.prev = u.prev := by
  obtain ⟨xs, ys, hbefore, htext, hpos⟩ := h
  unfold Undo.merge at hm
  split_ifs at hm with hinsert hend hfront
  · -- a character after the text of the record
    obtain ⟨rfl, hbuf, -, rfl⟩ := hinsert
    obtain rfl := Option.some.inj hm
    refine ⟨⟨xs, ys, hbefore, ?_, hpos⟩, rfl, rfl⟩
    have hsplice := splice_append (xs ++ u.redobuf) [] buf ys
    rw [List.append_nil, List.length_append, hpos] at hsplice
    rw [htext]
    rw [← List.append_assoc]
    exact hsplice
  · -- the character after the erased text
    obtain ⟨rfl, hbuf, hins, rfl⟩ := hend
    obtain rfl := Option.some.inj hm
    obtain rfl := List.length_eq_zero_iff.1 hbuf
    have hredo : u.redobuf = [] := List.length_eq_zero_iff.1 hins
    have hget := GapBuffer.get_of_lt hg hlen
    have hbyte : (g.text)[u.pos]? = some (g.char u.pos) := GapBuffer.getElem?_text hlen
    rw [hredo, List.append_nil] at htext
    rw [htext, List.getElem?_append_right (by omega), hpos, Nat.sub_self] at hbyte
    obtain ⟨b, zs, rfl⟩ : ∃ b zs, ys = b :: zs := by
      cases ys with
      | nil => nomatch hbyte
      | cons b zs => exact ⟨b, zs, rfl⟩
    obtain rfl : b = g.char u.pos := Option.some.inj hbyte
    refine ⟨⟨xs, zs, ?_, ?_, hpos⟩, rfl, rfl⟩
    · rw [hbefore, hget]
      simp
    · have hsplice := splice_append xs [g.char u.pos] [] zs
      rw [hpos, List.append_assoc] at hsplice
      rw [htext, hredo]
      exact hsplice
  · -- the character before the erased text
    obtain ⟨rfl, hbuf, hins, hp⟩ := hfront
    obtain rfl := Option.some.inj hm
    obtain rfl := List.length_eq_zero_iff.1 hbuf
    have hredo : u.redobuf = [] := List.length_eq_zero_iff.1 hins
    have hget := GapBuffer.get_of_lt hg hlen
    have hbyte : (g.text)[pos]? = some (g.char pos) := GapBuffer.getElem?_text hlen
    rw [hredo, List.append_nil] at htext
    obtain ⟨zs, b, rfl⟩ : ∃ zs b, xs = zs ++ [b] := by
      refine ⟨xs.dropLast, xs.getLast (List.ne_nil_of_length_pos (by omega)), ?_⟩
      exact (List.dropLast_append_getLast _).symm
    rw [List.length_append, List.length_singleton] at hpos
    have hzs : zs.length = pos := by omega
    rw [htext, List.append_assoc, List.getElem?_append_right (by omega), hzs, Nat.sub_self] at hbyte
    obtain rfl : b = g.char pos := Option.some.inj hbyte
    refine ⟨⟨zs, ys, ?_, ?_, by dsimp only; omega⟩, rfl, rfl⟩
    · rw [hbefore, hget]
      simp
    · have hsplice := splice_append zs [g.char pos] [] ys
      rw [hzs] at hsplice
      rw [htext, hredo]
      exact hsplice

/-- The `next` and `prev` fields of the records. -/
def Editor.links (ed : Editor) : Links ℕ := ⟨fun a => (ed.records a).next, fun a => (ed.records a).prev⟩

/-- The list of the records `xs`, which are those that are allocated. -/
structure Listed (ed : Editor) (xs : List ℕ) : Prop where
  list : IsList ed.links ⟨ed.undohead, ed.undotail⟩ xs
  live : ed.live.Perm xs

theorem Listed.mem {xs : List ℕ} (h : Listed ed xs) : a ∈ ed.live ↔ a ∈ xs := h.live.mem_iff

theorem Listed.read {xs : List ℕ} (h : Listed ed xs) (ha : a ∈ xs) : ed.read a = some (ed.records a) :=
  if_pos (h.mem.2 ha)

theorem setNext_eq (ed : Editor) {p : Option ℕ} (hp : ∀ b, p = some b → b ∈ ed.live) (v : Option ℕ) :
    ∃ records, ed.setNext p v = some { ed with records := records } ∧ (∀ b, Alike (ed.records b) (records b)) ∧
      (∀ b, (records b).prev = (ed.records b).prev) ∧
      ∀ b, (records b).next = if p = some b then v else (ed.records b).next := by
  cases p with
  | none =>
    refine ⟨ed.records, rfl, fun b => ⟨rfl, rfl, rfl⟩, fun _ => rfl, fun b => ?_⟩
    rw [if_neg (by simp)]
  | some p =>
    refine ⟨_, if_pos (hp p rfl), ?_, ?_, ?_⟩
    · intro b
      by_cases hb : b = p
      · rw [hb, update_self]
        exact ⟨rfl, rfl, rfl⟩
      · rw [update_of_ne hb]
        exact ⟨rfl, rfl, rfl⟩
    · intro b
      by_cases hb : b = p
      · rw [hb, update_self]
      · rw [update_of_ne hb]
    · intro b
      by_cases hb : b = p
      · rw [hb, update_self, if_pos rfl]
      · rw [update_of_ne hb, if_neg]
        exact fun he => hb (Option.some.inj he).symm

/-- The loop of `reset_undo` drops the records behind the last one that is not undone, when there is one. -/
theorem dropTail_spec {xs ys : List ℕ} {fuel : ℕ} (h : Listed ed (xs ++ ys)) (hundo : ed.undo = xs.getLast?)
    (hxs : xs = [] → ys = []) (hfuel : ys.length < fuel) :
    ∃ ed', ed.dropTail fuel = some ed' ∧ Listed ed' xs ∧ ed'.undotail = xs.getLast? ∧ ed'.buf = ed.buf ∧
      ∀ b, Alike (ed.records b) (ed'.records b) := by
  induction ys using List.reverseRecOn generalizing ed fuel with
  | nil =>
    obtain ⟨fuel, rfl⟩ : ∃ n, fuel = n + 1 := ⟨fuel - 1, by omega⟩
    rw [List.append_nil] at h
    have htail : ed.undotail = xs.getLast? := h.list.tail
    refine ⟨ed, ?_, h, htail, rfl, fun b => ⟨rfl, rfl, rfl⟩⟩
    unfold Editor.dropTail
    rw [if_pos (htail.trans hundo.symm)]
  | append_singleton ys a ih =>
    obtain ⟨fuel, rfl⟩ : ∃ n, fuel = n + 1 := ⟨fuel - 1, by omega⟩
    rw [List.length_append] at hfuel
    have hne : xs ≠ [] := fun hnil => by
      have hys := hxs hnil
      simp at hys
    rw [← List.append_assoc] at h
    have hnodup := h.list.nodup
    have htail : ed.undotail = some a := by
      have htail := h.list.tail
      rw [List.getLast?_concat] at htail
      exact htail
    have hout : a ∉ xs ++ ys := fun hm => (List.nodup_append.1 hnodup).2.2 a hm a (List.mem_singleton.2 rfl) rfl
    have hundo' : ed.undo ≠ some a := by
      rw [hundo]
      intro hlast
      exact hout (List.mem_append_left _ (List.mem_of_getLast? hlast))
    have hmiddle := h.list.isBucket.middle
    have hprev : (ed.records a).prev = (xs ++ ys).getLast? := hmiddle.1
    have hnext : (ed.records a).next = none := hmiddle.2.1
    have halive : a ∈ ed.live := h.mem.2 (List.mem_append_right _ (List.mem_singleton.2 rfl))
    have hlast (b : ℕ) (hb : (ed.records a).prev = some b) : b ∈ ed.live := by
      rw [hprev] at hb
      exact h.mem.2 (List.mem_append_left _ (List.mem_of_getLast? hb))
    obtain ⟨records, hset, halike, hprevs, hnexts⟩ :=
      setNext_eq { ed with undotail := (ed.records a).prev } hlast none
    generalize hed : ({ ed with undotail := (ed.records a).prev, records := records, live := ed.live.erase a } : Editor) =
      ed₁
    have hstep : ed.dropTail (fuel + 1) = ed₁.dropTail fuel := by
      have hread := h.read (List.mem_append_right _ (List.mem_singleton.2 rfl))
      have hfree : Editor.free { ed with undotail := (ed.records a).prev, records := records } a = some ed₁ := by
        rw [← hed]
        exact if_pos halive
      rw [Editor.dropTail, if_neg (fun he => hundo' (he.symm.trans htail)), htail]
      simp only [Option.bind_eq_bind, hread, Option.bind_some, hset, hfree]
    have hlist : Listed ed₁ (xs ++ ys) := by
      have hbypass := h.list.bypass
      rw [List.append_nil] at hbypass
      have hends : (⟨ed.undohead, ed.undotail⟩ : Ends ℕ).drop ed.links a = ⟨ed₁.undohead, ed₁.undotail⟩ := by
        have hhead : ed.undohead ≠ some a := by
          have hhead := h.list.head
          dsimp only at hhead
          rw [hhead]
          intro he
          obtain ⟨x, zs, rfl⟩ := List.exists_cons_of_ne_nil hne
          apply hout
          rw [← Option.some.inj he]
          simp
        unfold Ends.drop
        rw [if_neg hhead, if_pos htail, ← hed]
        rfl
      rw [hends] at hbypass
      constructor
      · apply hbypass.congr
        · intro b _
          rw [bypass_prev]
          have hnone : ed.links.next a = none := hnext
          rw [hnone, ← hed]
          exact hprevs b
        · intro b _
          have hnone : ed.links.next a = none := hnext
          rw [bypass_next, hnone, ← hed]
          exact hnexts b
      · have hlive := h.live.erase a
        rw [List.erase_append_right _ hout, List.erase_cons_head, List.append_nil] at hlive
        rw [← hed]
        exact hlive
    have hundo₁ : ed₁.undo = xs.getLast? := by rw [← hed]; exact hundo
    obtain ⟨ed', hdrop, hlisted, htail', hbuf, halike'⟩ :=
      ih hlist hundo₁ (fun hnil => absurd hnil hne) (Nat.lt_of_succ_lt_succ hfuel)
    refine ⟨ed', hstep.trans hdrop, hlisted, htail', ?_, ?_⟩
    · rw [hbuf, ← hed]
    · intro b
      obtain ⟨hpos, hundo, hredo⟩ := halike' b
      obtain ⟨hpos', hundo', hredo'⟩ := halike b
      rw [← hed] at hpos hundo hredo
      exact ⟨hpos.trans hpos', hundo.trans hundo', hredo.trans hredo'⟩

theorem resetUndo_spec {xs ys : List ℕ} (h : Listed ed (xs ++ ys)) (hundo : ed.undo = xs.getLast?)
    (hxs : xs = [] → ys = []) :
    ∃ ed', ed.resetUndo = some ed' ∧ Listed ed' xs ∧ ed'.undo = xs.getLast? ∧ ed'.buf = ed.buf ∧
      ∀ b, Alike (ed.records b) (ed'.records b) := by
  have hlen := h.live.length_eq
  rw [List.length_append] at hlen
  have hfuel : ys.length < ed.live.length + 1 := by omega
  obtain ⟨ed', hdrop, hlisted, htail, hbuf, halike⟩ := dropTail_spec h hundo hxs hfuel
  refine ⟨{ ed' with undo := ed'.undotail }, ?_, ⟨hlisted.list, hlisted.live⟩, htail, hbuf, halike⟩
  unfold Editor.resetUndo
  rw [hdrop]
  rfl

theorem newUndo_spec {xs : List ℕ} (h : Listed ed xs) (ha : a ∉ ed.live) (pos len : ℕ) (buf : Text) :
    ∃ ed', ed.newUndo pos len buf a = some ed' ∧ Listed ed' (xs ++ [a]) ∧ ed'.undo = some a ∧ ed'.buf = ed.buf ∧
      (∀ b ∈ xs, Alike (ed.records b) (ed'.records b)) ∧
      ed'.records a = ⟨pos, ed.buf.copy pos len, buf, none, ed.undotail⟩ := by
  have hout : a ∉ xs := fun hm => ha (h.mem.2 hm)
  have htail : ed.undotail = xs.getLast? := h.list.tail
  have hlast (b : ℕ) (hb : ed.undotail = some b) : b ∈ a :: ed.live := by
    rw [htail] at hb
    exact List.mem_cons_of_mem _ (h.mem.2 (List.mem_of_getLast? hb))
  obtain ⟨records, hset, halike, hprevs, hnexts⟩ :=
    setNext_eq { ed with live := a :: ed.live } hlast (some a)
  have hne (b : ℕ) (hb : b ∈ xs) : b ≠ a := by
    rintro rfl
    exact hout hb
  have hcreate : ed.newUndo pos len buf a = some { ed with
      live := a :: ed.live
      records := update records a ⟨pos, ed.buf.copy pos len, buf, none, ed.undotail⟩
      undotail := some a
      undo := some a
      undohead := if ed.undohead = none then some a else ed.undohead } := by
    unfold Editor.newUndo
    rw [hset]
    rfl
  refine ⟨_, hcreate, ?_, rfl, rfl, ?_, update_self ..⟩
  · constructor
    · apply (h.list.append hout).congr
      · intro b _
        unfold Editor.links Links.append
        dsimp only [setNext_prev, setPrev_prev]
        by_cases hb : b = a
        · rw [hb, update_self, if_pos rfl]
        · rw [update_of_ne hb, hprevs, if_neg fun he => hb (Option.some.inj he).symm]
      · intro b _
        unfold Editor.links Links.append
        dsimp only [setNext_next, setPrev_next]
        by_cases hb : b = a
        · have hlast : ed.undotail ≠ some a := by
            rw [htail]
            exact fun hlast => hout (List.mem_of_getLast? hlast)
          rw [hb, update_self, if_neg hlast, if_pos rfl]
        · rw [update_of_ne hb, hnexts, if_neg (fun he => hb (Option.some.inj he).symm)]
    · apply List.Perm.trans (h.live.cons a)
      exact (List.perm_append_singleton a xs).symm
  · intro b hb
    dsimp only
    rw [update_of_ne (hne b hb)]
    exact halike b

theorem Listed.write {xs : List ℕ} (h : Listed ed xs) (ha : a ∈ xs) (hnext : u.next = (ed.records a).next)
    (hprev : u.prev = (ed.records a).prev) :
    ed.write a (fun _ => u) = some { ed with records := update ed.records a u } ∧
      Listed { ed with records := update ed.records a u } xs := by
  refine ⟨if_pos (h.mem.2 ha), ?_, h.live⟩
  apply h.list.congr
  · intro b _
    unfold Editor.links
    dsimp only
    by_cases hb : b = a
    · rw [hb, update_self, hprev]
    · rw [update_of_ne hb]
  · intro b _
    unfold Editor.links
    dsimp only
    by_cases hb : b = a
    · rw [hb, update_self, hnext]
    · rw [update_of_ne hb]

theorem freeFrom_spec {xs : List ℕ} {p : Option ℕ} (hseg : Seg ed.links p xs none) (hlive : ed.live.Perm xs) :
    ed.freeFrom xs.length xs.head? = some { ed with live := [] } := by
  induction xs generalizing ed p with
  | nil =>
    have hsame : ({ ed with live := [] } : Editor) = ed := by rw [← hlive.eq_nil]
    rw [hsame, List.head?_nil, Editor.freeFrom]
  | cons a xs ih =>
    obtain ⟨-, hnext, hrest⟩ := hseg
    have ha : a ∈ ed.live := hlive.mem_iff.2 List.mem_cons_self
    have hread : ed.read a = some (ed.records a) := if_pos ha
    have hfree : ed.free a = some { ed with live := ed.live.erase a } := if_pos ha
    have hlive' : (ed.live.erase a).Perm xs := by
      have herase := hlive.erase a
      rwa [List.erase_cons_head] at herase
    have hnext' : (ed.records a).next = xs.head? := by
      rw [Option.or_none] at hnext
      exact hnext
    have hloop := @ih { ed with live := ed.live.erase a } (some a) hrest hlive'
    rw [List.length_cons, List.head?_cons, Editor.freeFrom]
    simp only [Option.bind_eq_bind, hread, hfree, Option.bind_some, hnext', hloop]

theorem clearUndo_spec {xs : List ℕ} (h : Listed ed xs) :
    ed.clearUndo = some { ed with live := [], undohead := none, undotail := none, undo := none } := by
  have hloop := freeFrom_spec h.list.seg h.live
  have hhead : ed.undohead = xs.head? := h.list.head
  unfold Editor.clearUndo
  rw [hhead, h.live.length_eq, hloop]
  rfl

end SimpleKernel.Edit
