import Mathlib.Data.Int.Init
import Mathlib.Data.Nat.Init
import Mathlib.Logic.Function.Basic

/-! The handle table (`krnl/hndl.c`) and the two counters of an object. `close_object` may block:
`hfree` and `hassign` are split where they call it. -/
namespace SimpleKernel.Handle

variable {ω τ : Type} [DecidableEq ω] [DecidableEq τ]

def EBADF : ℤ := 9
def EACCES : ℤ := 13
def ENFILE : ℤ := 23

def handlesPerPage : ℕ := 1024

/-- `HTABSIZE / sizeof(handle_t)`. -/
def htabLimit : ℕ := 0x400000

def objectAny : ℤ := -1

/-- An entry of `htab`: the next free handle (`none` for `HEND`), or an object with the bit
`HPROTECT`. -/
inductive Slot (ω : Type) where
  | free (next : Option ℕ)
  | used (o : ω) (prot : Bool)
  deriving DecidableEq

/-- The fields of `struct object` that the handle manager reads. -/
structure Counts where
  type : UInt16
  handleCount : UInt16
  lockCount : UInt16

/-- Where a thread stands: outside, or in `close_object` called by `hfree` or by
`hassign(o, h)`. -/
inductive Phase (ω : Type) where
  | idle
  | freeing (o : ω)
  | assigning (o : ω) (h : ℕ) (oo : ω)

/-- The table, the objects and the threads. The last four fields are history: how often `close_object` and
`destroy_object` were called, how many `olock` calls await their `orel`, and whether the object ever had a handle.
-/
structure State (ω τ : Type) where
  htab : ℕ → Slot ω
  hfreelist : Option ℕ
  htabsize : ℕ
  obj : ω → Counts
  phase : τ → Phase ω
  closed : ω → ℕ
  destroyed : ω → ℕ
  locked : ω → ℕ
  given : ω → Bool

namespace State

def setSlot (s : State ω τ) (h : ℕ) (x : Slot ω) : State ω τ :=
  { s with htab := Function.update s.htab h x }

def setObj (s : State ω τ) (o : ω) (c : Counts) : State ω τ :=
  { s with obj := Function.update s.obj o c }

def setPhase (s : State ω τ) (t : τ) (p : Phase ω) : State ω τ :=
  { s with phase := Function.update s.phase t p }

/-- The handle becomes the first free one. -/
def pushFree (s : State ω τ) (h : ℕ) : State ω τ :=
  { s.setSlot h (.free s.hfreelist) with hfreelist := some h }

/-- The new state and 0 or an error code. -/
def expandHtab (s : State ω τ) : State ω τ × ℤ :=
  if s.htabsize = htabLimit then (s, -ENFILE)
  else
    -- from the last new handle down to the first
    let s' := (List.range' s.htabsize handlesPerPage).foldr (fun h s => s.pushFree h) s
    ({ s' with htabsize := s.htabsize + handlesPerPage }, 0)

/-- The handle `h`, whose slot links to `next`, is taken out of the free list. `none`: the loop stays at the first
free handle and never ends. -/
def removeFromFreelist (s : State ω τ) (h : ℕ) (next : Option ℕ) : Option (State ω τ × ℤ) :=
  match s.hfreelist with
  | none => some (s, -EBADF)
  | some fl =>
    if h = fl then some ({ s with hfreelist := next }, 0)
    else if s.htab fl = .free (some h) then some (s.setSlot fl (.free next), 0)
    else none

def hlookup (s : State ω τ) (h : ℤ) : Option (ω × Bool) :=
  if h < 0 ∨ s.htabsize ≤ h then none
  else
    match s.htab h.toNat with
    | .free _ => none
    | .used o p => some (o, p)

/-- `htab[h] = o` and one handle more. -/
def assign (s : State ω τ) (o : ω) (h : ℕ) : State ω τ :=
  { (s.setSlot h (.used o false)).setObj o
      { s.obj o with handleCount := (s.obj o).handleCount + 1 } with
    given := Function.update s.given o true }

def dropHandle (s : State ω τ) (o : ω) : State ω τ :=
  s.setObj o { s.obj o with handleCount := (s.obj o).handleCount - 1 }

/-- The call of `close_object` by thread `t`. -/
def closeObject (s : State ω τ) (t : τ) (o : ω) (p : Phase ω) : State ω τ :=
  { s.setPhase t p with closed := Function.update s.closed o (s.closed o + 1) }

def destroyObject (s : State ω τ) (o : ω) : State ω τ :=
  { s with destroyed := Function.update s.destroyed o (s.destroyed o + 1) }

/-- The handle or an error code; `none` when the free list leads to a handle in use. -/
def halloc (s : State ω τ) (o : ω) : Option (State ω τ × ℤ) :=
  let r := if s.hfreelist = none then s.expandHtab else (s, 0)
  if r.2 < 0 then some r
  else r.1.hfreelist.bind fun h =>
    match r.1.htab h with
    | .free next => some ({ r.1 with hfreelist := next }.assign o h, h)
    | .used _ _ => none

/-- The loop that expands the table, at most `n` times. -/
def expandTo (h : ℕ) : ℕ → State ω τ → State ω τ × ℤ
  | 0, s => (s, 0)
  | n + 1, s =>
    if s.htabsize ≤ h then
      let r := s.expandHtab
      if r.2 < 0 then r else expandTo h n r.1
    else (s, 0)

/-- `hassign` up to the call of `close_object`; the code is missing when it is called. -/
def hassign (s : State ω τ) (t : τ) (o : ω) (h : ℤ) : Option (State ω τ × Option ℤ) :=
  if h < 0 ∨ htabLimit < h then some (s, some (-EBADF))
  else
    let k := h.toNat
    let r := expandTo k (k + 1) s
    if r.2 < 0 then some (r.1, some r.2)
    else
      match r.1.htab k with
      | .free next => (r.1.removeFromFreelist k next).map fun q =>
          if q.2 < 0 then (q.1, some q.2) else (q.1.assign o k, some 0)
      | .used oo prot =>
        if prot then some (r.1, some (-EACCES))
        else
          let s' := r.1.dropHandle oo
          if (s'.obj oo).handleCount = 0 then
            some (s'.closeObject t oo (.assigning o k oo), none)
          else some (s'.assign o k, some 0)

/-- `hfree` up to the call of `close_object`; the code is missing when it is called. -/
def hfree (s : State ω τ) (t : τ) (h : ℤ) : State ω τ × Option ℤ :=
  match s.hlookup h with
  | none => (s, some (-EBADF))
  | some (o, prot) =>
    if prot then (s, some (-EACCES))
    else
      let s' := (s.pushFree h.toNat).dropHandle o
      if 0 < (s'.obj o).handleCount then (s', some 0)
      else (s'.closeObject t o (.freeing o), none)

/-- `destroy_object` unless the object is locked. -/
def destroyUnlocked (s : State ω τ) (o : ω) : State ω τ :=
  if (s.obj o).lockCount = 0 then s.destroyObject o else s

/-- What `hfree` and `hassign` do when `close_object` has returned `rc`. -/
def closeReturns (s : State ω τ) (t : τ) (rc : ℤ) : Option (State ω τ × ℤ) :=
  match s.phase t with
  | .idle => none
  | .freeing o => some ((s.setPhase t .idle).destroyUnlocked o, rc)
  | .assigning o h oo =>
    let s' := (s.setPhase t .idle).destroyUnlocked oo
    if rc < 0 then some (s', rc) else some (s'.assign o h, 0)

def olock (s : State ω τ) (h type : ℤ) : State ω τ × Option ω :=
  match s.hlookup h with
  | none => (s, none)
  | some (o, _) =>
    if ((s.obj o).type.toNat : ℤ) ≠ type ∧ type ≠ objectAny then (s, none)
    else if (s.obj o).handleCount = 0 then (s, none)
    else
      ({ s.setObj o { s.obj o with lockCount := (s.obj o).lockCount + 1 } with
          locked := Function.update s.locked o (s.locked o + 1) }, some o)

def orel (s : State ω τ) (o : ω) : State ω τ :=
  let s' := { s.setObj o { s.obj o with lockCount := (s.obj o).lockCount - 1 } with
    locked := Function.update s.locked o (s.locked o - 1) }
  if (s'.obj o).lockCount = 0 ∧ (s'.obj o).handleCount = 0 then s'.destroyObject o else s'

/-- `hprotect` and `hunprotect`. -/
def setProtect (s : State ω τ) (h : ℤ) (prot : Bool) : State ω τ × ℤ :=
  match s.hlookup h with
  | none => (s, -EBADF)
  | some (o, _) => (s.setSlot h.toNat (.used o prot), 0)

def hprotect (s : State ω τ) (h : ℤ) : State ω τ × ℤ := s.setProtect h true

def hunprotect (s : State ω τ) (h : ℤ) : State ω τ × ℤ := s.setProtect h false

end State

/-- What a thread does next. -/
inductive Call (ω : Type) where
  | halloc (o : ω)
  | hassign (o : ω) (h : ℤ)
  | hfree (h : ℤ)
  | olock (h type : ℤ)
  | orel (o : ω)
  | hprotect (h : ℤ)
  | hunprotect (h : ℤ)
  | closeReturns (rc : ℤ)

/-- The call of a thread that is not in `close_object`, or the return from there. -/
def step (s : State ω τ) (l : τ × Call ω) : Option (State ω τ) :=
  match s.phase l.1, l.2 with
  | .idle, .halloc o => (s.halloc o).map Prod.fst
  | .idle, .hassign o h => (s.hassign l.1 o h).map Prod.fst
  | .idle, .hfree h => some (s.hfree l.1 h).1
  | .idle, .olock h type => some (s.olock h type).1
  | .idle, .orel o => some (s.orel o)
  | .idle, .hprotect h => some (s.hprotect h).1
  | .idle, .hunprotect h => some (s.hunprotect h).1
  | .idle, .closeReturns _ => none
  | _, .closeReturns rc => (s.closeReturns l.1 rc).map Prod.fst
  | _, _ => none

/-- No page of the table is in use and no object has a handle. -/
def initial (type : ω → UInt16) : State ω τ where
  htab := fun _ => .free none
  hfreelist := none
  htabsize := 0
  obj := fun o => ⟨type o, 0, 0⟩
  phase := fun _ => .idle
  closed := fun _ => 0
  destroyed := fun _ => 0
  locked := fun _ => 0
  given := fun _ => false

end SimpleKernel.Handle
