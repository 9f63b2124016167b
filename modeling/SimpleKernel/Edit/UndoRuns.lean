import SimpleKernel.Edit.Records

/-! Undo and redo in every run of edits. -/
namespace SimpleKernel.Edit
open SimpleKernel.LinkedList Transition

/-- The records `as` lead from the text `t` through the texts `ts`. -/
def Walk (R : ℕ → Text → Text → Prop) : List ℕ → Text → List Text → Prop
  | [], _, [] => True
  | a :: as, t, t' :: ts => R a t t' ∧ Walk R as t' ts
  | _, _, _ => False

variable {R R' : ℕ → Text → Text → Prop} {as : List ℕ} {t : Text} {ts : List Text}

theorem Walk.mono (h : Walk R as t ts) (hR : ∀ a ∈ as, ∀ t t', R a t t' → R' a t t') : Walk R' as t ts := by
  induction as generalizing t ts with
  | nil =>
    cases ts with
    | nil => trivial
    | cons t' ts => exact h.elim
  | cons a as ih =>
    cases ts with
    | nil => exact h.elim
    | cons t' ts => exact ⟨hR a List.mem_cons_self t t' h.1, ih h.2 fun b hb => hR b (List.mem_cons_of_mem _ hb)⟩

theorem Walk.length_eq (h : Walk R as t ts) : as.length = ts.length := by
  induction as generalizing t ts with
  | nil =>
    cases ts with
    | nil => rfl
    | cons t' ts => exact h.elim
  | cons a as ih =>
    cases ts with
    | nil => exact h.elim
    | cons t' ts => rw [List.length_cons, List.length_cons, ih h.2]

/-- The record at `a` was made for the step from `before` to `after`. -/
def Editor.Made (ed : Editor) (a : ℕ) (before after : Text) : Prop := Between (ed.records a) before after

/-- The records `done`, the latest first, have been made for the past, and the records `undone` for the future. -/
structure Inv (s : State) (done undone : List ℕ) : Prop where
  listed : Listed s.ed (done.reverse ++ undone)
  undo : s.ed.undo = done.head?
  ordered : s.ed.buf.Ordered
  text : s.ed.buf.text = s.history.present
  past : Walk (fun a t t' => s.ed.Made a t' t) done s.history.present s.history.past
  future : Walk (fun a t t' => s.ed.Made a t t') undone s.history.present s.history.future
  dirty : s.ed.dirty = false → s.history.past = []
  first : s.history.first = s.origin

variable {s s' : State} {done undone : List ℕ} {pos len a : ℕ} {buf : Text}

theorem Inv.opened {g : GapBuffer} (h : g.Ordered) : Inv (State.opened g) [] [] :=
  ⟨⟨isList_nil _, List.Perm.nil⟩, rfl, h, rfl, trivial, trivial, fun _ => rfl, rfl⟩

theorem Inv.past_nil (h : Inv s [] undone) : s.history.past = [] :=
  List.length_eq_zero_iff.1 h.past.length_eq.symm

theorem Inv.future_nil (h : Inv s done []) : s.history.future = [] :=
  List.length_eq_zero_iff.1 h.future.length_eq.symm

theorem step_undo {ed : Editor} (h : s.ed.undoEdit = some ed) :
    step s .undo = some ⟨ed, s.history.undo, s.origin⟩ := by
  simp only [step, Option.bind_eq_bind, h, Option.bind_some]

theorem step_redo {ed : Editor} (h : s.ed.redo = some ed) : step s .redo = some ⟨ed, s.history.redo, s.origin⟩ := by
  simp only [step, Option.bind_eq_bind, h, Option.bind_some]

theorem step_save {ed : Editor} (h : s.ed.saveFile = some ed) :
    step s .save = some ⟨ed, ⟨[], s.history.present, []⟩, s.history.present⟩ := by
  simp only [step, Option.bind_eq_bind, h, Option.bind_some]

theorem Inv.undo_none (h : Inv s [] undone) : step s .undo = some s := by
  have hundo : s.ed.undoEdit = some s.ed := by
    unfold Editor.undoEdit
    rw [h.undo]
    rfl
  have hhistory : s.history.undo = s.history := by
    unfold History.undo
    rw [h.past_nil]
  rw [step_undo hundo, hhistory]

theorem Inv.undo_some (h : Inv s (a :: done) undone) :
    ∃ s', step s .undo = some s' ∧ Inv s' done (a :: undone) ∧ s'.history = s.history.undo := by
  have hread := h.listed.read (a := a) (by simp)
  have hprev : (s.ed.records a).prev = done.head? := by
    have hlist := h.listed.list
    rw [List.reverse_cons, List.append_assoc] at hlist
    have hmiddle := hlist.isBucket.middle.1
    rwa [List.getLast?_reverse] at hmiddle
  generalize hh : s.history = history
  obtain ⟨past, present, future⟩ := history
  have hpast := h.past
  have hfuture := h.future
  have htext := h.text
  have hfirst := h.first
  rw [hh] at hpast hfuture htext hfirst
  cases past with
  | nil => exact hpast.elim
  | cons t past =>
    obtain ⟨hmade, hpast⟩ := hpast
    obtain ⟨hlen, hsplice⟩ := Between.undo hmade
    have hlen' : (s.ed.records a).pos + (s.ed.records a).inserted ≤ s.ed.buf.textLength := by
      rw [← GapBuffer.length_text, htext]
      exact hlen
    have hundo : s.ed.undoEdit = some { s.ed with
        buf := s.ed.buf.replace (s.ed.records a).pos (s.ed.records a).inserted (s.ed.records a).undobuf
        undo := done.head?
        dirty := done.head?.isSome } := by
      unfold Editor.undoEdit
      rw [h.undo]
      simp only [List.head?_cons, Option.bind_eq_bind, hread, Option.bind_some, hprev]
    refine ⟨_, step_undo hundo, ?_, by rw [hh]⟩
    rw [hh]
    constructor
    · have hlisted := h.listed
      rw [List.reverse_cons, List.append_assoc] at hlisted
      exact ⟨hlisted.list, hlisted.live⟩
    · rfl
    · exact (GapBuffer.replace_spec h.ordered hlen' _).ordered
    · dsimp only
      rw [GapBuffer.replace_text h.ordered hlen', htext]
      exact hsplice
    · exact hpast
    · exact ⟨hmade, hfuture⟩
    · intro hclean
      have hnil : done = [] := by
        cases done with
        | nil => rfl
        | cons b done => nomatch hclean
      rw [hnil] at hpast
      exact List.length_eq_zero_iff.1 hpast.length_eq.symm
    · exact (History.first_undo _).trans hfirst

theorem Inv.redo_none (h : Inv s done []) : step s .redo = some s := by
  have hlist := h.listed.list
  rw [List.append_nil] at hlist
  have hredo : s.ed.redo = some s.ed := by
    unfold Editor.redo
    rw [h.undo]
    cases done with
    | nil =>
      have hhead : s.ed.undohead = none := hlist.head
      simp only [List.head?_nil, hhead]
    | cons a done =>
      have hread := h.listed.read (a := a) (by simp)
      have hnext : (s.ed.records a).next = none := by
        rw [List.reverse_cons] at hlist
        exact hlist.isBucket.middle.2.1
      simp only [List.head?_cons, Option.bind_eq_bind, hread, Option.bind_some, hnext]
  have hhistory : s.history.redo = s.history := by
    unfold History.redo
    rw [h.future_nil]
  rw [step_redo hredo, hhistory]

theorem Inv.redo_some (h : Inv s done (a :: undone)) :
    ∃ s', step s .redo = some s' ∧ Inv s' (a :: done) undone ∧ s'.history = s.history.redo := by
  have hread := h.listed.read (a := a) (by simp)
  have hlist := h.listed.list
  have hchoice : s.ed.redo = s.ed.redoEdit a := by
    unfold Editor.redo
    rw [h.undo]
    cases done with
    | nil =>
      have hhead : s.ed.undohead = some a := hlist.head
      simp only [List.head?_nil, hhead]
    | cons b done =>
      have hread := h.listed.read (a := b) (by simp)
      have hnext : (s.ed.records b).next = some a := by
        rw [List.reverse_cons, List.append_assoc] at hlist
        exact hlist.isBucket.middle.2.1
      simp only [List.head?_cons, Option.bind_eq_bind, hread, Option.bind_some, hnext]
  generalize hh : s.history = history
  obtain ⟨past, present, future⟩ := history
  have hpast := h.past
  have hfuture := h.future
  have htext := h.text
  have hfirst := h.first
  rw [hh] at hpast hfuture htext hfirst
  cases future with
  | nil => exact hfuture.elim
  | cons t future =>
    obtain ⟨hmade, hfuture⟩ := hfuture
    obtain ⟨hlen, hsplice⟩ := Between.redo hmade
    have hlen' : (s.ed.records a).pos + (s.ed.records a).erased ≤ s.ed.buf.textLength := by
      rw [← GapBuffer.length_text, htext]
      exact hlen
    have hredo : s.ed.redo = some { s.ed with
        buf := s.ed.buf.replace (s.ed.records a).pos (s.ed.records a).erased (s.ed.records a).redobuf
        undo := some a
        dirty := true } := by
      rw [hchoice]
      unfold Editor.redoEdit
      simp only [Option.bind_eq_bind, hread, Option.bind_some]
    refine ⟨_, step_redo hredo, ?_, by rw [hh]⟩
    rw [hh]
    constructor
    · have hlisted := h.listed
      rw [← List.singleton_append, ← List.append_assoc, ← List.reverse_cons] at hlisted
      exact ⟨hlisted.list, hlisted.live⟩
    · rfl
    · exact (GapBuffer.replace_spec h.ordered hlen' _).ordered
    · dsimp only
      rw [GapBuffer.replace_text h.ordered hlen', htext]
      exact hsplice
    · exact ⟨hmade, hpast⟩
    · exact hfuture
    · intro hclean
      nomatch hclean
    · exact (History.first_redo _).trans hfirst

theorem Inv.save (h : Inv s done undone) : ∃ s', step s .save = some s' ∧ Inv s' [] [] := by
  have hlisted : Listed { s.ed with dirty := false } (done.reverse ++ undone) := ⟨h.listed.list, h.listed.live⟩
  have hclear := clearUndo_spec hlisted
  have hsave : s.ed.saveFile = _ := hclear
  refine ⟨_, step_save hsave, ?_⟩
  constructor
  · exact ⟨isList_nil _, List.Perm.nil⟩
  · rfl
  · exact h.ordered
  · exact h.text
  · trivial
  · trivial
  · intro _
    rfl
  · rfl

theorem merge_isSome {u u' : Undo} {g : GapBuffer} (hu : Alike u u') :
    (u'.merge g pos len buf).isSome = (u.merge g pos len buf).isSome := by
  obtain ⟨hpos, hundo, hredo⟩ := hu
  unfold Undo.merge Undo.erased Undo.inserted
  rw [hpos, hundo, hredo]
  split_ifs <;> rfl

theorem step_replace {ed : Editor} (h : s.ed.storeUndo pos len buf a = some ed) :
    step s (.replace pos len buf a) = some ⟨{ ed with buf := ed.buf.replace pos len buf, dirty := true },
      s.history.edit (s.ed.merges pos len buf) (splice s.history.present pos len buf), s.origin⟩ := by
  simp only [step, Editor.replace, Option.bind_eq_bind, h, Option.bind_some]
  rfl

theorem inv_new {ed : Editor} {history : History Text} {origin : Text} (hlisted : Listed ed done.reverse)
    (ha : a ∉ ed.live) (hordered : ed.buf.Ordered) (htext : ed.buf.text = history.present)
    (hpast : Walk (fun a t t' => ed.Made a t' t) done history.present history.past) (hfirst : history.first = origin)
    (hlen : pos + len ≤ ed.buf.textLength) (buf : Text) :
    ∃ ed', ed.newUndo pos len buf a = some ed' ∧
      Inv ⟨{ ed' with buf := ed'.buf.replace pos len buf, dirty := true },
        history.edit false (splice history.present pos len buf), origin⟩ (a :: done) [] := by
  obtain ⟨ed', hnew, hlisted', hundo, hbuf, halike, hrecord⟩ :=
    newUndo_spec hlisted ha pos len buf
  refine ⟨ed', hnew, ?_⟩
  have hlength : pos + len ≤ history.present.length := by
    rw [← htext, GapBuffer.length_text]
    exact hlen
  constructor
  · rw [List.append_nil, List.reverse_cons]
    exact ⟨hlisted'.list, hlisted'.live⟩
  · exact hundo
  · dsimp only
    rw [hbuf]
    exact (GapBuffer.replace_spec hordered hlen buf).ordered
  · dsimp only
    rw [hbuf, GapBuffer.replace_text hordered hlen, htext]
    rfl
  · have hold : Walk (fun a t t' => ed'.Made a t' t) done history.present history.past := by
      apply hpast.mono
      intro b hb t t' hmade
      exact hmade.alike (halike b (List.mem_reverse.2 hb))
    refine ⟨?_, hold⟩
    unfold Editor.Made
    dsimp only
    rw [hrecord, GapBuffer.copy_eq hordered (Nat.le_of_add_right_le hlen), htext]
    exact between_new hlength none ed.undotail
  · trivial
  · intro hclean
    nomatch hclean
  · have hedit : (history.edit false (splice history.present pos len buf)).first = history.first :=
      History.first_edit (fun hm => absurd hm Bool.false_ne_true) _
    exact hedit.trans hfirst

/-- `replace`: the undone records are dropped, and the edit becomes part of the last record or gets one of its own. -/
theorem Inv.replace (h : Inv s done undone) (hlen : pos + len ≤ s.ed.buf.textLength) (ha : a ∉ s.ed.live)
    (hkept : s.ed.undo = none → s.ed.undohead = none) (buf : Text) :
    ∃ s' done', step s (.replace pos len buf a) = some s' ∧ Inv s' done' [] ∧
      done' = (if s.ed.merges pos len buf then done else a :: done) ∧
      s'.history = s.history.edit (s.ed.merges pos len buf) (splice s.history.present pos len buf) := by
  have hundo := h.undo
  have hdone : done.reverse = [] → undone = [] := by
    intro hnil
    have hhead : s.ed.undohead = (done.reverse ++ undone).head? := h.listed.list.head
    rw [List.reverse_eq_nil_iff.1 hnil] at hhead hundo
    rw [hkept hundo] at hhead
    exact List.head?_eq_none_iff.1 hhead.symm
  obtain ⟨ed, hreset, hlisted, hundo₁, hbuf, halike⟩ :=
    resetUndo_spec h.listed (by rw [List.getLast?_reverse, hundo]) hdone
  have htail : ed.undotail = done.head? := by
    rw [← List.getLast?_reverse]
    exact hlisted.list.tail
  have ha₁ : a ∉ ed.live := by
    intro hm
    apply ha
    exact h.listed.mem.2 (List.mem_append_left _ (hlisted.mem.1 hm))
  have hordered : ed.buf.Ordered := by rw [hbuf]; exact h.ordered
  have htext : ed.buf.text = s.history.present := by rw [hbuf]; exact h.text
  have hlen₁ : pos + len ≤ ed.buf.textLength := by rw [hbuf]; exact hlen
  have hpast : Walk (fun a t t' => ed.Made a t' t) done s.history.present s.history.past :=
    h.past.mono fun b _ t t' hmade => hmade.alike (halike b)
  obtain ⟨ed', hnew, hinv⟩ := inv_new hlisted ha₁ hordered htext hpast h.first hlen₁ buf
  cases done with
  | nil =>
    have hmerges : s.ed.merges pos len buf = false := by
      unfold Editor.merges
      rw [hundo]
      rfl
    have hstore : s.ed.storeUndo pos len buf a = some ed' := by
      unfold Editor.storeUndo
      simp only [Option.bind_eq_bind, hreset, Option.bind_some, htail, List.head?_nil, hnew]
    refine ⟨_, [a], step_replace hstore, ?_, by rw [hmerges]; rfl, rfl⟩
    rw [hmerges]
    exact hinv
  | cons t done =>
    have ht : t ∈ (t :: done).reverse := List.mem_reverse.2 List.mem_cons_self
    have hread := hlisted.read ht
    have hmerges : s.ed.merges pos len buf = ((ed.records t).merge ed.buf pos len buf).isSome := by
      unfold Editor.merges
      rw [hundo, hbuf]
      exact (merge_isSome (halike t)).symm
    cases hm : (ed.records t).merge ed.buf pos len buf with
    | none =>
      have hstore : s.ed.storeUndo pos len buf a = some ed' := by
        unfold Editor.storeUndo
        simp only [Option.bind_eq_bind, hreset, Option.bind_some, htail, List.head?_cons, hread, hm, hnew]
      rw [hm] at hmerges
      refine ⟨_, a :: t :: done, step_replace hstore, ?_, by rw [hmerges]; rfl, rfl⟩
      rw [hmerges]
      exact hinv
    | some u =>
      rw [hm] at hmerges
      generalize hh : s.history = history at hpast htext
      obtain ⟨past, present, future⟩ := history
      cases past with
      | nil => exact hpast.elim
      | cons before past =>
        obtain ⟨hmade, hrest⟩ := hpast
        have hbetween : Between (ed.records t) before ed.buf.text := by
          rw [htext]
          exact hmade
        obtain ⟨hnow, hnext, hprev⟩ := merge_spec hordered hbetween hlen₁ hm
        obtain ⟨hwrite, hlisted'⟩ := hlisted.write ht hnext hprev
        have hstore : s.ed.storeUndo pos len buf a = some { ed with records := Function.update ed.records t u } := by
          unfold Editor.storeUndo
          simp only [Option.bind_eq_bind, hreset, Option.bind_some, htail, List.head?_cons, hread, hm, hwrite]
        refine ⟨_, t :: done, step_replace hstore, ?_, by rw [hmerges]; rfl, by rw [hh]⟩
        rw [hmerges, hh]
        constructor
        · rw [List.append_nil]
          exact ⟨hlisted'.list, hlisted'.live⟩
        · dsimp only
          rw [hundo₁, List.getLast?_reverse]
        · exact (GapBuffer.replace_spec hordered hlen₁ buf).ordered
        · dsimp only
          rw [GapBuffer.replace_text hordered hlen₁, htext]
          rfl
        · constructor
          · unfold Editor.Made
            dsimp only
            rw [Function.update_self]
            rw [htext] at hnow
            exact hnow
          · apply hrest.mono
            intro b hb x y hmade
            have hne : b ≠ t := by
              rintro rfl
              have hnodup := hlisted.list.nodup
              rw [List.nodup_reverse] at hnodup
              exact (List.nodup_cons.1 hnodup).1 hb
            unfold Editor.Made
            dsimp only
            rw [Function.update_of_ne hne]
            exact hmade
        · trivial
        · intro hclean
          nomatch hclean
        · have hfirst := h.first
          rw [hh] at hfirst
          refine (History.first_edit (fun _ => ?_) _).trans hfirst
          simp

theorem Inv.exec {l : Act} (h : Inv s done undone) (hlegal : Legal s l) (hkept : Kept s l) :
    ∃ s' done' undone', step s l = some s' ∧ Inv s' done' undone' := by
  cases l with
  | replace pos len buf a =>
    obtain ⟨s', done', hs', hinv, -⟩ := h.replace hlegal.1 hlegal.2 hkept buf
    exact ⟨s', done', [], hs', hinv⟩
  | undo =>
    cases done with
    | nil => exact ⟨s, [], undone, h.undo_none, h⟩
    | cons a done =>
      obtain ⟨s', hs', hinv, -⟩ := h.undo_some
      exact ⟨s', done, a :: undone, hs', hinv⟩
  | redo =>
    cases undone with
    | nil => exact ⟨s, done, [], h.redo_none, h⟩
    | cons a undone =>
      obtain ⟨s', hs', hinv, -⟩ := h.redo_some
      exact ⟨s', a :: done, undone, hs', hinv⟩
  | save =>
    obtain ⟨s', hs', hinv⟩ := h.save
    exact ⟨s', [], [], hs', hinv⟩

/-- In a run in which no edit is made while everything is undone, there are records for the past and the future. -/
theorem reach_inv {g : GapBuffer} (hg : g.Ordered)
    (hr : Reach step (fun s l => Legal s l ∧ Kept s l) (State.opened g) s) : ∃ done undone, Inv s done undone := by
  apply hr.invariant ⟨[], [], Inv.opened hg⟩
  rintro s l s' ⟨done, undone, h⟩ ⟨hlegal, hkept⟩ hl
  obtain ⟨s₁, done', undone', hs₁, hinv⟩ := h.exec hlegal hkept
  obtain rfl := Option.some.inj (hs₁.symm.trans hl)
  exact ⟨done', undone', hinv⟩

theorem Inv.undo_all (h : Inv s done undone) :
    ∃ s', run step s (List.replicate done.length .undo) = some s' ∧ s'.ed.undo = none ∧ s'.ed.buf.text = s.origin := by
  induction done generalizing s undone with
  | nil =>
    refine ⟨s, rfl, h.undo, ?_⟩
    rw [h.text, ← h.first, History.first_of_past_nil h.past_nil]
  | cons a done ih =>
    obtain ⟨s₁, hs₁, hinv, -⟩ := h.undo_some
    obtain ⟨s', hrun, hundo, htext⟩ := ih hinv
    have horigin : s₁.origin = s.origin := by
      simp only [step, Option.bind_eq_bind, Option.bind_eq_some_iff] at hs₁
      obtain ⟨ed, -, hs₁⟩ := hs₁
      rw [← Option.some.inj hs₁]
    refine ⟨s', ?_, hundo, htext.trans horigin⟩
    rw [List.length_cons, List.replicate_succ]
    unfold run at hrun ⊢
    rw [List.foldlM_cons, hs₁]
    exact hrun

/-- What undo and redo do in a state of the editor: `done` are the addresses of the records to be undone, the latest
first, and `undone` those of the records to be redone. -/
structure UndoRedo (s : State) (done undone : List ℕ) : Prop where
  /-- The records are a doubly linked list, and they are the ones that are allocated. -/
  list : IsList s.ed.links ⟨s.ed.undohead, s.ed.undotail⟩ (done.reverse ++ undone)
  live : s.ed.live.Perm (done.reverse ++ undone)
  boundary : s.ed.undo = done.head?
  text : s.ed.buf.text = s.history.present
  /-- No function reads, changes or frees a record that is not allocated. -/
  defined : ∀ l, Legal s l → Kept s l → ∃ s', step s l = some s'
  /-- `undo` restores the text before the last record. -/
  undo : ∀ t ts, s.history.past = t :: ts → ∃ s', step s .undo = some s' ∧ s'.ed.buf.text = t
  /-- `redo` restores the text before the `undo`. -/
  redo : s.ed.undo ≠ none → ∃ s' s'', step s .undo = some s' ∧ step s' .redo = some s'' ∧
    s''.ed.buf.text = s.ed.buf.text
  all : ∃ s', run step s (List.replicate done.length .undo) = some s' ∧ s'.ed.undo = none ∧
    s'.ed.buf.text = s.origin
  clean : s.ed.dirty = false → s.ed.buf.text = s.origin
  /-- An edit discards the records that are undone, and no others. -/
  edit : ∀ pos len buf a, Legal s (.replace pos len buf a) → Kept s (.replace pos len buf a) →
    ∃ s', step s (.replace pos len buf a) = some s' ∧
      s'.ed.buf.text = splice s.ed.buf.text pos len buf ∧
      ∀ b, b ∈ s'.ed.live ↔ b ∈ done ∨ (s.ed.merges pos len buf = false ∧ b = a)

/-- As long as no edit is made when everything has been undone and there are records, undo and redo are right. -/
theorem undo_redo {g : GapBuffer} (hg : g.Ordered)
    (hr : Reach step (fun s l => Legal s l ∧ Kept s l) (State.opened g) s) : ∃ done undone, UndoRedo s done undone := by
  obtain ⟨done, undone, h⟩ := reach_inv hg hr
  refine ⟨done, undone, h.listed.list, h.listed.live, h.undo, h.text, ?_, ?_, ?_, h.undo_all, ?_, ?_⟩
  · intro l hlegal hkept
    obtain ⟨s', -, -, hs', -⟩ := h.exec hlegal hkept
    exact ⟨s', hs'⟩
  · intro t ts hpast
    cases done with
    | nil =>
      rw [h.past_nil] at hpast
      nomatch hpast
    | cons a done =>
      obtain ⟨s', hs', hinv, hhistory⟩ := h.undo_some
      refine ⟨s', hs', ?_⟩
      rw [hinv.text, hhistory]
      unfold History.undo
      rw [hpast]
  · intro hne
    cases done with
    | nil => exact absurd h.undo hne
    | cons a done =>
      obtain ⟨s', hs', hinv, hhistory⟩ := h.undo_some
      obtain ⟨s'', hs'', hinv', hhistory'⟩ := hinv.redo_some
      refine ⟨s', s'', hs', hs'', ?_⟩
      have hpast : s.history.past ≠ [] := by
        intro hnil
        have hlen := h.past.length_eq
        rw [hnil] at hlen
        nomatch hlen
      rw [hinv'.text, hhistory', hhistory, History.redo_undo hpast, h.text]
  · intro hclean
    rw [h.text, ← h.first, History.first_of_past_nil (h.dirty hclean)]
  · intro pos len buf a hlegal hkept
    obtain ⟨s', done', hs', hinv, hdone, hhistory⟩ := h.replace hlegal.1 hlegal.2 hkept buf
    refine ⟨s', hs', ?_, ?_⟩
    · rw [hinv.text, hhistory, h.text]
      unfold History.edit
      split <;> rfl
    · intro b
      rw [hinv.listed.mem, hdone]
      split
      · rename_i hm
        simp [hm]
      · rename_i hm
        simp [hm, or_comm]

instance (s : State) (l : Act) : Decidable (Legal s l) := by
  unfold Legal
  split <;> infer_instance

instance (s : State) (l : Act) : Decidable (Kept s l) := by
  unfold Kept
  split <;> infer_instance

theorem ordered_newFile (junk : ℕ → UInt8) : (newFile junk).Ordered := ⟨Nat.zero_le _, Nat.le_refl _⟩

/-- Two characters that are merged, an erased one, undo, and a new edit. -/
def editRun : List Act :=
  [.replace 0 0 [97] 1, .replace 1 0 [98] 2, .replace 0 1 [] 3, .undo, .replace 2 0 [99, 100] 4, .undo, .redo]

def edited : State :=
  (runOk step (fun s l => Legal s l ∧ Kept s l) (State.opened (newFile fun _ => 0)) editRun).get (by decide +kernel)

theorem undo_redo_edited :
    edited.ed.buf.text = [97, 98, 99, 100] ∧ ∃ done undone, UndoRedo edited done undone := by
  have hreach : Reach step (fun s l => Legal s l ∧ Kept s l) (State.opened (newFile fun _ => 0)) edited :=
    reach_of_runOk editRun (Option.some_get _).symm
  exact ⟨by decide +kernel, undo_redo (ordered_newFile _) hreach⟩

/-- Two insertions are undone, and a third one is made. -/
def lostRun : List Act :=
  [.replace 0 0 [97, 98] 1, .replace 2 0 [99, 100] 2, .undo, .undo, .replace 0 0 [101, 102] 3]

def lost : State := (runOk step Legal (State.opened (newFile fun _ => 0)) lostRun).get (by decide +kernel)

/-- `undohead` is left at the first record, which has been freed; `redo` after `undo` reads it. -/
theorem undo_redo_lost :
    Reach step Legal (State.opened (newFile fun _ => 0)) lost ∧ lost.ed.undohead = some 1 ∧ 1 ∉ lost.ed.live ∧
      (run step lost [.undo, .redo]).isNone ∧ ¬ ∃ done undone, UndoRedo lost done undone := by
  have hhead : lost.ed.undohead = some 1 := by decide +kernel
  have hlive : 1 ∉ lost.ed.live := by decide +kernel
  refine ⟨reach_of_runOk lostRun (Option.some_get _).symm, hhead, hlive, by decide +kernel, ?_⟩
  rintro ⟨done, undone, h⟩
  have hfirst : lost.ed.undohead = (done.reverse ++ undone).head? := h.list.head
  rw [hhead] at hfirst
  exact hlive (h.live.mem_iff.2 (List.mem_of_head? hfirst.symm))

end SimpleKernel.Edit
