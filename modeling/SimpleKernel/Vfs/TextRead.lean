import SimpleKernel.Lib.Cursor
import Mathlib.Algebra.Order.Group.Int

/-! `read_translated` (`krnl/vfs.c`): files in text mode, where CR LF in the file is read as LF. -/
namespace SimpleKernel.Vfs

def cr : UInt8 := 13

def lf : UInt8 := 10

/-- What a text means to a program: every CR LF is LF. -/
def translate : List UInt8 → List UInt8
  | [] => []
  | [b] => [b]
  | b :: c :: bs => if b = cr ∧ c = lf then lf :: translate bs else b :: translate (c :: bs)

/-- A `struct file` in text mode. A `chbuf` of LF is empty. -/
structure TextFile where
  file : Cursor UInt8
  chbuf : UInt8

namespace TextFile

/-- `newfile` leaves `chbuf` empty. -/
def opened (content : List UInt8) : TextFile := ⟨⟨content, 0⟩, lf⟩

/-- `filp->pos += rc`. -/
def advance (f : TextFile) (n : ℕ) : TextFile := { f with file := f.file.goto (f.file.pos + n) }

/-- The part of the file that no call has returned yet. -/
def pending (f : TextFile) : List UInt8 :=
  (if f.chbuf = lf then [] else [f.chbuf]) ++ f.file.items.drop f.file.pos

/- `filp->fs->ops->read`. -/
variable (ops : Cursor UInt8 → ℕ → Except ℤ (List UInt8))

/-- The byte after the buffer. A read that fails or is at the end of the file gives none. -/
def peek (f : TextFile) : Option UInt8 × TextFile :=
  match ops f.file 1 with
  | .ok (c :: _) => (some c, f.advance 1)
  | _ => (none, f)

/-- The loop over the buffer. -/
def translateBuf : List UInt8 → TextFile → List UInt8 × TextFile
  | [], f => ([], f)
  | [b], f =>
    if b ≠ cr then ([b], f)
    else
      -- a CR at the end of the buffer needs the next byte
      match f.peek ops with
      | (none, f) => ([cr], f)
      | (some c, f) => if c = lf then ([lf], f) else ([cr], { f with chbuf := c })
  | b :: c :: bs, f =>
    if b ≠ cr then
      let r := translateBuf (c :: bs) f
      (b :: r.1, r.2)
    else if c = lf then
      let r := translateBuf bs f
      (lf :: r.1, r.2)
    else
      let r := translateBuf (c :: bs) f
      (b :: r.1, r.2)

def readTranslated (f : TextFile) (size : ℕ) : Except ℤ (List UInt8) × TextFile :=
  if size = 0 then (.ok [], f)
  else if f.chbuf ≠ lf then
    let carried := f.chbuf
    let f := { f with chbuf := lf }
    if size = 1 then (.ok [carried], f)
    else
      match ops f.file (size - 1) with
      | .error e => (.error e, f)
      | .ok data =>
        let r := translateBuf ops (carried :: data) (f.advance data.length)
        (.ok r.1, r.2)
  else
    match ops f.file size with
    | .error e => (.error e, f)
    | .ok data =>
      let r := translateBuf ops data (f.advance data.length)
      (.ok r.1, r.2)

/-- The calls with these sizes, one after another, each with the file before it. -/
def calls : TextFile → List ℕ → List (TextFile × ℕ)
  | _, [] => []
  | f, size :: sizes => (f, size) :: calls (f.readTranslated ops size).2 sizes

/-- What the calls return. -/
def returned (f : TextFile) (sizes : List ℕ) : List (Except ℤ (List UInt8)) :=
  (f.calls ops sizes).map fun call => (call.1.readTranslated ops call.2).1

/-- The file after the calls. -/
def after (f : TextFile) (sizes : List ℕ) : TextFile :=
  sizes.foldl (fun f size => (f.readTranslated ops size).2) f

/-- A read that delivers all bytes there are. -/
def deliver (file : Cursor UInt8) (size : ℕ) : Except ℤ (List UInt8) := .ok (file.ahead size)

/-- A call for one byte finds a CR in `chbuf` and returns it at once, although an LF follows. -/
def Slips (f : TextFile) (size : ℕ) : Prop :=
  f.chbuf = cr ∧ size = 1 ∧ f.file.items[f.file.pos]? = some lf

instance (f : TextFile) (size : ℕ) : Decidable (f.Slips size) := inferInstanceAs (Decidable (_ ∧ _ ∧ _))

end TextFile

theorem translate_cons_ne {b : UInt8} (h : b ≠ cr) (bs : List UInt8) : translate (b :: bs) = b :: translate bs := by
  cases bs with
  | nil => rfl
  | cons c bs => rw [translate, if_neg fun hboth => h hboth.1]

theorem translate_cons_cons_ne {b c : UInt8} (h : c ≠ lf) (bs : List UInt8) :
    translate (b :: c :: bs) = b :: translate (c :: bs) := by
  rw [translate, if_neg fun hboth => h hboth.2]

@[simp] theorem translate_crlf (bs : List UInt8) : translate (cr :: lf :: bs) = lf :: translate bs := by
  rw [translate, if_pos ⟨rfl, rfl⟩]

@[simp] theorem translate_lf (bs : List UInt8) : translate (lf :: bs) = lf :: translate bs :=
  translate_cons_ne (by decide) bs

namespace TextFile
variable {f : TextFile} {size : ℕ}

theorem pending_of_lf (h : f.chbuf = lf) : f.pending = f.file.items.drop f.file.pos := by
  rw [pending, if_pos h, List.nil_append]

theorem pending_of_ne (h : f.chbuf ≠ lf) : f.pending = f.chbuf :: f.file.items.drop f.file.pos := by
  rw [pending, if_neg h, List.singleton_append]

theorem peek_deliver (f : TextFile) :
    (f.file.items.drop f.file.pos = [] ∧ f.peek deliver = (none, f)) ∨
      ∃ c bs, f.file.items.drop f.file.pos = c :: bs ∧ f.peek deliver = (some c, f.advance 1) ∧
        (f.advance 1).file.items.drop (f.advance 1).file.pos = bs := by
  rw [peek, deliver, Cursor.ahead]
  cases hrest : f.file.items.drop f.file.pos with
  | nil => exact .inl ⟨rfl, rfl⟩
  | cons c bs =>
    refine .inr ⟨c, bs, rfl, rfl, ?_⟩
    rw [advance, Cursor.goto_items, Cursor.goto_pos, ← List.drop_drop, hrest]
    rfl

theorem translateBuf_deliver (buf : List UInt8) (f : TextFile) (hempty : f.chbuf = lf) :
    (translateBuf deliver buf f).1 ++ translate (translateBuf deliver buf f).2.pending =
        translate (buf ++ f.file.items.drop f.file.pos) ∧
      ((translateBuf deliver buf f).1 = [] → buf = []) := by
  induction buf using translate.induct with
  | case1 =>
    rw [translateBuf, pending_of_lf hempty]
    exact ⟨rfl, fun _ => rfl⟩
  | case2 b =>
    rw [translateBuf]
    split
    · next hb =>
      rw [pending_of_lf hempty]
      exact ⟨(translate_cons_ne hb _).symm, fun hnil => by cases hnil⟩
    next hb =>
    rw [not_not] at hb
    subst hb
    obtain ⟨hrest, hpeek⟩ | ⟨c, bs, hrest, hpeek, hnext⟩ := peek_deliver f
    · rw [hpeek]
      rw [pending_of_lf hempty, hrest]
      exact ⟨rfl, fun hnil => by cases hnil⟩
    · rw [hpeek, hrest]
      dsimp only
      split
      · next hc =>
        subst hc
        have hcarry : (f.advance 1).chbuf = lf := hempty
        rw [pending_of_lf hcarry, hnext]
        exact ⟨(translate_crlf bs).symm, fun hnil => by cases hnil⟩
      · next hc =>
        have hcarry : ({ f.advance 1 with chbuf := c } : TextFile).pending = c :: bs := by
          rw [pending_of_ne hc]
          exact congrArg (c :: ·) hnext
        rw [hcarry]
        exact ⟨(translate_cons_cons_ne hc bs).symm, fun hnil => by cases hnil⟩
  | case3 b c bs hboth ih =>
    obtain ⟨rfl, rfl⟩ := hboth
    rw [translateBuf]
    exact ⟨by simpa using ih.1, fun hnil => by cases hnil⟩
  | case4 b c bs hnot ih =>
    have hstep : translateBuf deliver (b :: c :: bs) f =
        (b :: (translateBuf deliver (c :: bs) f).1, (translateBuf deliver (c :: bs) f).2) := by
      rw [translateBuf]
      split
      · rfl
      · next hb => rw [if_neg fun hc => hnot ⟨not_not.mp hb, hc⟩]
    rw [hstep]
    have hcons : translate (b :: c :: (bs ++ f.file.items.drop f.file.pos)) =
        b :: translate (c :: (bs ++ f.file.items.drop f.file.pos)) := by rw [translate, if_neg hnot]
    exact ⟨(congrArg (b :: ·) ih.1).trans hcons.symm, fun hnil => by cases hnil⟩

theorem ahead_append (f : TextFile) (n : ℕ) :
    f.file.ahead n ++ (f.advance (f.file.ahead n).length).file.items.drop
      (f.advance (f.file.ahead n).length).file.pos = f.file.items.drop f.file.pos := by
  rw [advance, Cursor.goto_items, Cursor.goto_pos, ← List.drop_drop, Cursor.ahead, List.length_take]
  obtain hle | hle := le_total n (f.file.items.drop f.file.pos).length
  · rw [min_eq_left hle, List.take_append_drop]
  · rw [min_eq_right hle, List.take_of_length_le hle, List.drop_length, List.append_nil]

theorem readTranslated_deliver (hsize : 0 < size) :
    ∃ out, (f.readTranslated deliver size).1 = .ok out ∧ (out = [] → f.pending = []) ∧
      (¬ f.Slips size → out ++ translate (f.readTranslated deliver size).2.pending = translate f.pending) ∧
      (f.Slips size → out.length + (translate (f.readTranslated deliver size).2.pending).length =
        (translate f.pending).length + 1) := by
  rw [readTranslated, if_neg hsize.ne']
  split
  · next hcarry =>
    rw [pending_of_ne hcarry]
    split
    · next hone =>
      refine ⟨[f.chbuf], rfl, fun hnil => absurd hnil (List.cons_ne_nil _ _), fun hslip => ?_, fun hslip => ?_⟩
      · -- what follows does not make a CR LF of the carried byte
        rw [pending_of_lf rfl, List.singleton_append]
        by_cases hcr : f.chbuf = cr
        · cases hrest : f.file.items.drop f.file.pos with
          | nil => rfl
          | cons c bs =>
            rw [translate_cons_cons_ne]
            rintro rfl
            exact hslip ⟨hcr, hone, by rw [← List.head?_drop, hrest]; rfl⟩
        · rw [translate_cons_ne hcr]
      · rw [pending_of_lf rfl, hslip.1]
        have hhead := hslip.2.2
        rw [← List.head?_drop] at hhead
        obtain ⟨bs, hrest⟩ := List.head?_eq_some_iff.mp hhead
        rw [hrest, translate_lf]
        exact Nat.add_comm _ _
    · next hmany =>
      have hslip : ¬ f.Slips size := fun hslip => hmany hslip.2.1
      obtain ⟨htext, hnil⟩ := translateBuf_deliver (f.chbuf :: f.file.ahead (size - 1))
        (({ f with chbuf := lf } : TextFile).advance (f.file.ahead (size - 1)).length) rfl
      have hrest := ahead_append { f with chbuf := lf } (size - 1)
      rw [List.cons_append, hrest] at htext
      exact ⟨_, rfl, fun hout => absurd (hnil hout) (List.cons_ne_nil _ _), fun _ => htext, fun h => absurd h hslip⟩
  · next hcarry =>
    have hempty : f.chbuf = lf := not_not.mp hcarry
    have hslip : ¬ f.Slips size := fun hslip => absurd (hempty.symm.trans hslip.1) (by decide)
    obtain ⟨htext, hnil⟩ := translateBuf_deliver (f.file.ahead size) (f.advance (f.file.ahead size).length) hempty
    rw [ahead_append] at htext
    rw [pending_of_lf hempty]
    refine ⟨_, rfl, fun hout => ?_, fun _ => htext, fun h => absurd h hslip⟩
    have hahead := hnil hout
    rw [Cursor.ahead, List.take_eq_nil_iff] at hahead
    exact hahead.resolve_left hsize.ne'

theorem returned_deliver (f : TextFile) {sizes : List ℕ} (hsizes : ∀ size ∈ sizes, 0 < size) :
    ∃ outs : List (List UInt8), f.returned deliver sizes = outs.map .ok ∧
      ((∀ call ∈ f.calls deliver sizes, ¬ call.1.Slips call.2) →
        outs.flatten ++ translate (f.after deliver sizes).pending = translate f.pending) ∧
      outs.flatten.length + (translate (f.after deliver sizes).pending).length =
        (translate f.pending).length + (f.calls deliver sizes).countP fun call => call.1.Slips call.2 := by
  induction sizes generalizing f with
  | nil => exact ⟨[], rfl, fun _ => rfl, (Nat.zero_add _).trans (Nat.add_zero _).symm⟩
  | cons size sizes ih =>
    rw [List.forall_mem_cons] at hsizes
    obtain ⟨out, hok, -, hplain, hslip⟩ := f.readTranslated_deliver hsizes.1
    obtain ⟨outs, hoks, htext, hcount⟩ := ih (f.readTranslated deliver size).2 hsizes.2
    refine ⟨out :: outs, ?_, fun hnone => ?_, ?_⟩
    · rw [returned, calls, List.map_cons, List.map_cons, ← hoks, ← hok]
      rfl
    · rw [calls, List.forall_mem_cons] at hnone
      rw [List.flatten_cons, List.append_assoc, after, List.foldl_cons, ← after, htext hnone.2, hplain hnone.1]
    · rw [List.flatten_cons, List.length_append, after, List.foldl_cons, ← after, calls, List.countP_cons]
      by_cases h : f.Slips size
      · have := hslip h
        simp only [h, decide_true, if_true]
        omega
      · have := congrArg List.length (hplain h)
        rw [List.length_append] at this
        simp only [h, decide_false, Bool.false_eq_true, if_false]
        omega

/-- The calls return the translation of the file in parts, and no bytes only at its end. -/
structure ReadsText (content : List UInt8) (sizes : List ℕ) : Prop where
  text : ∃ outs : List (List UInt8), (opened content).returned deliver sizes = outs.map .ok ∧ outs.flatten = translate content
  atEnd : ∀ call ∈ (opened content).calls deliver sizes,
    (call.1.readTranslated deliver call.2).1 = .ok [] → call.1.pending = []

theorem mem_calls_size {f : TextFile} {sizes : List ℕ} {call : TextFile × ℕ} (h : call ∈ f.calls deliver sizes) :
    call.2 ∈ sizes := by
  induction sizes generalizing f with
  | nil => cases h
  | cons size sizes ih =>
    rw [calls, List.mem_cons] at h
    obtain rfl | h := h
    · exact List.mem_cons_self
    · exact List.mem_cons_of_mem _ (ih h)

/-- The sizes with which a text file is read to its end make a difference only where a call for one byte returns the
CR of a CR LF. -/
theorem readsText_iff (content : List UInt8) (sizes : List ℕ) (hsizes : ∀ size ∈ sizes, 0 < size)
    (hend : ((opened content).after deliver sizes).pending = []) :
    ReadsText content sizes ↔ ∀ call ∈ (opened content).calls deliver sizes, ¬ call.1.Slips call.2 := by
  obtain ⟨outs, houts, htext, hcount⟩ := (opened content).returned_deliver hsizes
  have hcontent : (opened content).pending = content := pending_of_lf rfl
  rw [hend, hcontent] at htext hcount
  constructor
  · intro h
    obtain ⟨outs', houts', heq⟩ := h.text
    have hsame : outs' = outs := List.map_injective_iff.mpr (fun _ _ => Except.ok.inj) (houts'.symm.trans houts)
    rw [← hsame, heq, translate, List.length_nil] at hcount
    have hzero : (((opened content).calls deliver sizes).countP fun call => call.1.Slips call.2) = 0 := by omega
    simpa using List.countP_eq_zero.mp hzero
  · intro h
    refine ⟨⟨outs, houts, by simpa [translate] using htext h⟩, fun call hcall hnil => ?_⟩
    obtain ⟨out, hok, hempty, -⟩ := call.1.readTranslated_deliver (hsizes _ (mem_calls_size hcall))
    exact hempty (Except.ok.inj (hok.symm.trans hnil))

theorem readsText_pairs : ReadsText [cr, cr, lf] [2, 1] :=
  (readsText_iff [cr, cr, lf] [2, 1] (by decide) (by decide)).mpr (by decide)

/-- One byte at a time, the CR of the CR LF is returned too. -/
theorem bytewise_text : ¬ ∀ (content : List UInt8) (sizes : List ℕ), (∀ size ∈ sizes, 0 < size) →
    ((opened content).after deliver sizes).pending = [] → ReadsText content sizes := by
  intro h
  obtain ⟨outs, houts, htext⟩ := (h [cr, cr, lf] [1, 1, 1] (by decide) (by decide)).text
  have hsame : [[cr], [cr], [lf]] = outs := List.map_injective_iff.mpr (fun _ _ => Except.ok.inj) houts
  rw [← hsame] at htext
  exact absurd htext (by decide)

end TextFile

end SimpleKernel.Vfs
