import SimpleKernel.Edit.GapBuffer
import SimpleKernel.Lib.History
import SimpleKernel.Lib.LinkedList
import SimpleKernel.Lib.Transition

/-! Undo records of the editor (`utils/edit/edit.c`). Memory that is not allocated is not accessed: a function that would
do so has no result. -/
namespace SimpleKernel.Edit

/-- `struct undo`; `erased` and `inserted` are the lengths of the buffers. -/
structure Undo where
  pos : ℕ
  undobuf : Text
  redobuf : Text
  next : Option ℕ
  prev : Option ℕ

def Undo.erased (u : Undo) : ℕ := u.undobuf.length

def Undo.inserted (u : Undo) : ℕ := u.redobuf.length

/-- `struct editor`, with the undo records in memory and the addresses of those that are allocated. -/
structure Editor where
  buf : GapBuffer
  undohead : Option ℕ
  undotail : Option ℕ
  undo : Option ℕ
  dirty : Bool
  records : ℕ → Undo
  live : List ℕ

/-- After `new_file` and `load_file`. -/
def Editor.opened (buf : GapBuffer) : Editor := ⟨buf, none, none, none, false, fun _ => ⟨0, [], [], none, none⟩, []⟩

/-- The record at `a` is read. -/
def Editor.read (ed : Editor) (a : ℕ) : Option Undo := if a ∈ ed.live then some (ed.records a) else none

/-- The record at `a` is changed. -/
def Editor.write (ed : Editor) (a : ℕ) (f : Undo → Undo) : Option Editor :=
  if a ∈ ed.live then some { ed with records := Function.update ed.records a (f (ed.records a)) } else none

/-- `free`, of a record and its buffers. -/
def Editor.free (ed : Editor) (a : ℕ) : Option Editor :=
  if a ∈ ed.live then some { ed with live := ed.live.erase a } else none

/-- `if (p) p->next = v`. -/
def Editor.setNext (ed : Editor) (p v : Option ℕ) : Option Editor :=
  match p with
  | none => some ed
  | some p => ed.write p fun u => { u with next := v }

/-- The loop of `clear_undo`. `fuel` bounds it. -/
def Editor.freeFrom (ed : Editor) : ℕ → Option ℕ → Option Editor
  | _, none => some ed
  | 0, some _ => none
  | fuel + 1, some a => do
    let u ← ed.read a
    let ed ← ed.free a
    ed.freeFrom fuel u.next

def Editor.clearUndo (ed : Editor) : Option Editor := do
  let ed ← ed.freeFrom ed.live.length ed.undohead
  some { ed with undohead := none, undotail := none, undo := none }

/-- The loop of `reset_undo`. `fuel` bounds it. -/
def Editor.dropTail : ℕ → Editor → Option Editor
  | 0, _ => none
  | fuel + 1, ed =>
    if ed.undotail = ed.undo then some ed
    else
      match ed.undotail with
      | none => some { ed with undohead := none, undotail := none }
      | some a => do
        let u ← ed.read a
        let ed ← { ed with undotail := u.prev }.setNext u.prev none
        let ed ← ed.free a
        ed.dropTail fuel

def Editor.resetUndo (ed : Editor) : Option Editor := do
  let ed ← ed.dropTail (ed.live.length + 1)
  some { ed with undo := ed.undotail }

/-- The three ways in which `replace` makes an edit part of the last record, and the changed record. -/
def Undo.merge (u : Undo) (ed : GapBuffer) (pos len : ℕ) (buf : Text) : Option Undo :=
  if len = 0 ∧ buf.length = 1 ∧ u.erased = 0 ∧ pos = u.pos + u.inserted then
    some { u with redobuf := u.redobuf ++ buf }
  else if len = 1 ∧ buf.length = 0 ∧ u.inserted = 0 ∧ pos = u.pos then
    some { u with undobuf := u.undobuf ++ [(ed.get pos).getD 255] }
  else if len = 1 ∧ buf.length = 0 ∧ u.inserted = 0 ∧ pos + 1 = u.pos then
    some { u with pos := u.pos - 1, undobuf := (ed.get pos).getD 255 :: u.undobuf }
  else none

/-- `replace` makes a record, for which `malloc` returns `a`. -/
def Editor.newUndo (ed : Editor) (pos len : ℕ) (buf : Text) (a : ℕ) : Option Editor := do
  let ed' ← { ed with live := a :: ed.live }.setNext ed.undotail (some a)
  let u : Undo := ⟨pos, ed.buf.copy pos len, buf, none, ed.undotail⟩
  some { ed' with
    records := Function.update ed'.records a u
    undotail := some a
    undo := some a
    undohead := if ed.undohead = none then some a else ed.undohead }

/-- What `replace` does to the records when `doundo` is set. -/
def Editor.storeUndo (ed : Editor) (pos len : ℕ) (buf : Text) (a : ℕ) : Option Editor := do
  let ed ← ed.resetUndo
  match ed.undotail with
  | none => ed.newUndo pos len buf a
  | some t => do
    let u ← ed.read t
    match u.merge ed.buf pos len buf with
    | some u' => ed.write t fun _ => u'
    | none => ed.newUndo pos len buf a

/-- `replace` with `doundo` set, as `insert` and `erase` call it. -/
def Editor.replace (ed : Editor) (pos len : ℕ) (buf : Text) (a : ℕ) : Option Editor := do
  let ed ← ed.storeUndo pos len buf a
  some { ed with buf := ed.buf.replace pos len buf, dirty := true }

/-- `undo`. -/
def Editor.undoEdit (ed : Editor) : Option Editor :=
  match ed.undo with
  | none => some ed
  | some a => do
    let u ← ed.read a
    some { ed with
      buf := ed.buf.replace u.pos u.inserted u.undobuf
      undo := u.prev
      dirty := u.prev.isSome }

/-- The second part of `redo`. -/
def Editor.redoEdit (ed : Editor) (a : ℕ) : Option Editor := do
  let u ← ed.read a
  some { ed with buf := ed.buf.replace u.pos u.erased u.redobuf, undo := some a, dirty := true }

def Editor.redo (ed : Editor) : Option Editor :=
  match ed.undo with
  | some a => do
    let u ← ed.read a
    match u.next with
    | none => some ed
    | some b => ed.redoEdit b
  | none =>
    match ed.undohead with
    | none => some ed
    | some b => ed.redoEdit b

/-- What a successful `save_file` does to the editor. -/
def Editor.saveFile (ed : Editor) : Option Editor := { ed with dirty := false }.clearUndo

/-- Whether `replace` makes the edit part of the last record. -/
def Editor.merges (ed : Editor) (pos len : ℕ) (buf : Text) : Bool :=
  (ed.undo.bind fun t => (ed.records t).merge ed.buf pos len buf).isSome

/-- The editor, the history that its text should have, and the text when the file was last opened or saved. -/
structure State where
  ed : Editor
  history : History Text
  origin : Text

def State.opened (buf : GapBuffer) : State := ⟨.opened buf, ⟨[], buf.text, []⟩, buf.text⟩

/-- In an edit, `a` is what `malloc` returns for a new record. -/
inductive Act
  | replace (pos len : ℕ) (buf : Text) (a : ℕ)
  | undo
  | redo
  | save

def step (s : State) : Act → Option State
  | .replace pos len buf a => do
    let ed ← s.ed.replace pos len buf a
    let text := s.history.present.take pos ++ buf ++ s.history.present.drop (pos + len)
    some ⟨ed, s.history.edit (s.ed.merges pos len buf) text, s.origin⟩
  | .undo => do
    let ed ← s.ed.undoEdit
    some ⟨ed, s.history.undo, s.origin⟩
  | .redo => do
    let ed ← s.ed.redo
    some ⟨ed, s.history.redo, s.origin⟩
  | .save => do
    let ed ← s.ed.saveFile
    some ⟨ed, ⟨[], s.history.present, []⟩, s.history.present⟩

/-- Positions are in the text, and `malloc` returns memory that is not allocated. -/
def Legal (s : State) : Act → Prop
  | .replace pos len _ a => pos + len ≤ s.ed.buf.textLength ∧ a ∉ s.ed.live
  | _ => True

/-- No edit is made when everything has been undone and there are records. -/
def Kept (s : State) : Act → Prop
  | .replace .. => s.ed.undo = none → s.ed.undohead = none
  | _ => True

end SimpleKernel.Edit
