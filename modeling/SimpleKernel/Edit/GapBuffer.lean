import Mathlib.Data.List.Basic
import Mathlib.Logic.Function.Basic
import Mathlib.Order.Nat

/-! The text of the editor (`utils/edit/edit.c`): a buffer with a gap. -/
namespace SimpleKernel.Edit

abbrev Text := List UInt8

/-- The block of memory that `start` points to, and the offsets of the other pointers from `start`. -/
structure GapBuffer where
  mem : ℕ → UInt8
  gap : ℕ
  rest : ℕ
  stop : ℕ

/-- `memmove` and `memcpy` of `n` bytes. -/
def memmove (block : ℕ → UInt8) (dst : ℕ) (mem : ℕ → UInt8) (src n : ℕ) : ℕ → UInt8 := fun i =>
  if dst ≤ i ∧ i < dst + n then mem (src + (i - dst)) else block i

def minExtend : ℕ := 32768

/-- The buffer of `new_file`. -/
def newFile (junk : ℕ → UInt8) : GapBuffer := ⟨junk, 0, minExtend, minExtend⟩

/-- The buffer of `load_file`. -/
def loadFile (file : Text) : GapBuffer :=
  let length := file.length
  ⟨fun i => file.getD i 0, length, length + minExtend, length + minExtend⟩

namespace GapBuffer

def textLength (ed : GapBuffer) : ℕ := ed.gap + (ed.stop - ed.rest)

def textPtr (ed : GapBuffer) (pos : ℕ) : ℕ := if ed.gap ≤ pos then pos + (ed.rest - ed.gap) else pos

/-- `get`; `none` is `-1`. -/
def get (ed : GapBuffer) (pos : ℕ) : Option UInt8 :=
  if ed.stop ≤ ed.textPtr pos then none else some (ed.mem (ed.textPtr pos))

/-- The loop of `copy`. -/
def copyFrom (ed : GapBuffer) (p : ℕ) : ℕ → Text
  | 0 => []
  | len + 1 => if p = ed.stop then [] else ed.mem p :: ed.copyFrom (if p + 1 = ed.gap then ed.rest else p + 1) len

def copy (ed : GapBuffer) (pos len : ℕ) : Text := ed.copyFrom (ed.textPtr pos) len

/-- The loop of `compare`. -/
def compareFrom (ed : GapBuffer) : Text → ℕ → Bool
  | [], _ => true
  | b :: buf, p =>
    if p = ed.stop then false
    else if b ≠ ed.mem p then false
    else ed.compareFrom buf (if p + 1 = ed.gap then ed.rest else p + 1)

/-- `compare`; `len` is the length of `buf`. -/
def compare (ed : GapBuffer) (buf : Text) (pos : ℕ) : Bool := ed.compareFrom buf (ed.textPtr pos)

/-- `move_gap`; a negative `minsize` is 0. The bytes of a new block that are not written are 0 here. -/
def moveGap (ed : GapBuffer) (pos minsize : ℕ) : GapBuffer :=
  let gapsize := ed.rest - ed.gap
  let p := ed.textPtr pos
  if minsize ≤ gapsize then
    if p ≠ ed.rest then
      let mem := if p < ed.gap then memmove ed.mem (p + gapsize) ed.mem p (ed.gap - p)
        else memmove ed.mem ed.gap ed.mem ed.rest (p - ed.rest)
      { ed with mem := mem, gap := pos, rest := pos + gapsize }
    else ed
  else
    let minsize := if minsize < gapsize + minExtend then gapsize + minExtend else minsize
    let newsize := ed.stop - gapsize + minsize
    let rest := pos + minsize
    if p < ed.gap then
      let mem := memmove (fun _ => 0) 0 ed.mem 0 pos
      let mem := memmove mem rest ed.mem p (ed.gap - p)
      ⟨memmove mem (newsize - (ed.stop - ed.rest)) ed.mem ed.rest (ed.stop - ed.rest), pos, rest, newsize⟩
    else
      let mem := memmove (fun _ => 0) 0 ed.mem 0 ed.gap
      let mem := memmove mem ed.gap ed.mem ed.rest (p - ed.rest)
      ⟨memmove mem rest ed.mem p (ed.stop - p), pos, rest, newsize⟩

/-- The second part of `replace`. -/
def replace (ed : GapBuffer) (pos len : ℕ) (buf : Text) : GapBuffer :=
  if buf.length = 0 ∧ pos ≤ ed.gap ∧ ed.gap ≤ pos + len then
    { ed with rest := ed.rest + (len - (ed.gap - pos)), gap := pos }
  else
    let ed := ed.moveGap (pos + len) (buf.length - len)
    { ed with mem := memmove ed.mem pos (fun i => buf.getD i 0) 0 buf.length, gap := pos + buf.length }

/-- The pointers are in order. -/
structure Ordered (ed : GapBuffer) : Prop where
  gap : ed.gap ≤ ed.rest
  rest : ed.rest ≤ ed.stop

/-- The byte of the text at a position. -/
def char (ed : GapBuffer) (i : ℕ) : UInt8 := ed.mem (ed.textPtr i)

/-- What the buffer holds. -/
def text (ed : GapBuffer) : Text := (List.range ed.textLength).map ed.char

variable {ed ed' : GapBuffer} {pos len minsize : ℕ} {buf : Text}

theorem length_text (ed : GapBuffer) : ed.text.length = ed.textLength := by
  unfold text
  rw [List.length_map, List.length_range]

theorem getElem?_text {i : ℕ} (hi : i < ed.textLength) : (ed.text)[i]? = some (ed.char i) := by
  unfold text
  rw [List.getElem?_map, List.getElem?_range hi]
  rfl

/-- `ed'` holds the text of `ed` with the gap at `pos`. -/
structure Moved (ed ed' : GapBuffer) (pos : ℕ) : Prop where
  ordered : ed'.Ordered
  gap : ed'.gap = pos
  length : ed'.textLength = ed.textLength
  char : ∀ i < ed.textLength, ed'.char i = ed.char i

theorem moved_back {mem : ℕ → UInt8} {rest stop : ℕ} (h : ed.Ordered) (hpos : pos < ed.gap) (hrest : pos ≤ rest)
    (hstop : stop = rest + (ed.gap - pos) + (ed.stop - ed.rest)) (hleft : ∀ i < pos, mem i = ed.mem i)
    (hmid : ∀ i < ed.gap - pos, mem (rest + i) = ed.mem (pos + i))
    (hright : ∀ i < ed.stop - ed.rest, mem (rest + (ed.gap - pos) + i) = ed.mem (ed.rest + i)) :
    Moved ed ⟨mem, pos, rest, stop⟩ pos := by
  obtain ⟨hgap, -⟩ := h
  constructor
  · exact ⟨hrest, by dsimp only; omega⟩
  · rfl
  · unfold textLength
    dsimp only
    omega
  · intro i hi
    unfold textLength at hi
    unfold GapBuffer.char textPtr
    dsimp only
    by_cases hleft' : i < pos
    · rw [if_neg (by omega), if_neg (by omega), hleft i hleft']
    · rw [if_pos (by omega)]
      by_cases hmid' : i < ed.gap
      · have hbyte := hmid (i - pos) (by omega)
        rw [if_neg (by omega)]
        rwa [show rest + (i - pos) = i + (rest - pos) by omega, show pos + (i - pos) = i by omega] at hbyte
      · have hbyte := hright (i - ed.gap) (by omega)
        rw [if_pos (by omega)]
        rwa [show rest + (ed.gap - pos) + (i - ed.gap) = i + (rest - pos) by omega,
          show ed.rest + (i - ed.gap) = i + (ed.rest - ed.gap) by omega] at hbyte

theorem moved_forward {mem : ℕ → UInt8} {rest stop : ℕ} (h : ed.Ordered) (hpos : ed.gap ≤ pos)
    (hlen : pos ≤ ed.textLength) (hrest : pos ≤ rest) (hstop : stop = rest + (ed.textLength - pos))
    (hleft : ∀ i < ed.gap, mem i = ed.mem i)
    (hmid : ∀ i < pos - ed.gap, mem (ed.gap + i) = ed.mem (ed.rest + i))
    (hright : ∀ i < ed.textLength - pos, mem (rest + i) = ed.mem (pos + (ed.rest - ed.gap) + i)) :
    Moved ed ⟨mem, pos, rest, stop⟩ pos := by
  obtain ⟨hgap, -⟩ := h
  constructor
  · exact ⟨hrest, by dsimp only; omega⟩
  · rfl
  · unfold textLength at hlen hstop ⊢
    dsimp only
    omega
  · intro i hi
    unfold GapBuffer.char textPtr
    dsimp only
    by_cases hleft' : i < ed.gap
    · rw [if_neg (by omega), if_neg (by omega), hleft i hleft']
    · rw [if_pos (show ed.gap ≤ i by omega)]
      by_cases hmid' : i < pos
      · have hbyte := hmid (i - ed.gap) (by omega)
        rw [if_neg (by omega)]
        rwa [show ed.gap + (i - ed.gap) = i by omega,
          show ed.rest + (i - ed.gap) = i + (ed.rest - ed.gap) by omega] at hbyte
      · have hbyte := hright (i - pos) (by omega)
        rw [if_pos (by omega)]
        rwa [show rest + (i - pos) = i + (rest - pos) by omega,
          show pos + (ed.rest - ed.gap) + (i - pos) = i + (ed.rest - ed.gap) by omega] at hbyte

theorem memmove_of_mem {block mem : ℕ → UInt8} {dst src n i : ℕ} (hi : i < n) :
    memmove block dst mem src n (dst + i) = mem (src + i) := by
  unfold memmove
  rw [if_pos (by omega), Nat.add_sub_cancel_left]

theorem memmove_of_lt {block mem : ℕ → UInt8} {dst src n i : ℕ} (hi : i < dst) :
    memmove block dst mem src n i = block i := by
  unfold memmove
  rw [if_neg (by omega)]

theorem memmove_of_le {block mem : ℕ → UInt8} {dst src n i : ℕ} (hi : dst + n ≤ i) :
    memmove block dst mem src n i = block i := by
  unfold memmove
  rw [if_neg (by omega)]

theorem memmove_zero {block mem : ℕ → UInt8} {src n i : ℕ} (hi : i < n) :
    memmove block 0 mem src n i = mem (src + i) := by
  have hmem : memmove block 0 mem src n (0 + i) = mem (src + i) := memmove_of_mem hi
  rwa [Nat.zero_add] at hmem

theorem moveGap_spec (h : ed.Ordered) (hpos : pos ≤ ed.textLength) (minsize : ℕ) :
    Moved ed (ed.moveGap pos minsize) pos ∧ minsize ≤ (ed.moveGap pos minsize).rest - pos := by
  have hgap := h.gap
  have hrest := h.rest
  have hlen := hpos
  unfold textLength at hpos
  unfold moveGap
  by_cases hp : ed.gap ≤ pos
  · have hptr : ed.textPtr pos = pos + (ed.rest - ed.gap) := if_pos hp
    have hlt : ¬ pos + (ed.rest - ed.gap) < ed.gap := by omega
    rw [hptr]
    dsimp only
    rw [if_neg hlt, if_neg hlt]
    by_cases hmin : minsize ≤ ed.rest - ed.gap
    · rw [if_pos hmin]
      by_cases hne : pos + (ed.rest - ed.gap) ≠ ed.rest
      · rw [if_pos hne]
        refine ⟨?_, by dsimp only; omega⟩
        apply moved_forward h hp hlen (Nat.le_add_right _ _)
        · unfold textLength
          omega
        · intro i hi
          exact memmove_of_lt hi
        · intro i hi
          exact memmove_of_mem (by omega)
        · intro i hi
          rw [memmove_of_le (by omega)]
      · rw [if_neg hne]
        have hgp : ed.gap = pos := by omega
        exact ⟨⟨h, hgp, rfl, fun _ _ => rfl⟩, by omega⟩
    · rw [if_neg hmin]
      generalize hsize : (if minsize < ed.rest - ed.gap + minExtend then ed.rest - ed.gap + minExtend else minsize) = size
      have hle : minsize ≤ size := by split at hsize <;> omega
      refine ⟨?_, by dsimp only; omega⟩
      apply moved_forward h hp hlen (Nat.le_add_right _ _)
      · unfold textLength
        omega
      · intro i hi
        rw [memmove_of_lt (by omega), memmove_of_lt hi, memmove_zero hi, Nat.zero_add]
      · intro i hi
        rw [memmove_of_lt (by omega)]
        exact memmove_of_mem (by omega)
      · intro i hi
        unfold textLength at hi
        exact memmove_of_mem (by omega)
  · have hptr : ed.textPtr pos = pos := if_neg hp
    have hlt : pos < ed.gap := by omega
    have hne : pos ≠ ed.rest := by omega
    rw [hptr]
    dsimp only
    rw [if_pos hlt, if_pos hlt, if_pos hne]
    by_cases hmin : minsize ≤ ed.rest - ed.gap
    · rw [if_pos hmin]
      refine ⟨?_, by dsimp only; omega⟩
      apply moved_back h hlt (Nat.le_add_right _ _)
      · omega
      · intro i hi
        exact memmove_of_lt (by omega)
      · intro i hi
        exact memmove_of_mem hi
      · intro i hi
        rw [memmove_of_le (by omega)]
        congr 1
        omega
    · rw [if_neg hmin]
      generalize hsize : (if minsize < ed.rest - ed.gap + minExtend then ed.rest - ed.gap + minExtend else minsize) = size
      have hle : minsize ≤ size := by split at hsize <;> omega
      refine ⟨?_, by dsimp only; omega⟩
      apply moved_back h hlt (Nat.le_add_right _ _)
      · omega
      · intro i hi
        rw [memmove_of_lt (by omega), memmove_of_lt (by omega), memmove_zero hi, Nat.zero_add]
      · intro i hi
        rw [memmove_of_lt (by omega)]
        exact memmove_of_mem hi
      · intro i hi
        have hslot : pos + size + (ed.gap - pos) + i =
            ed.stop - (ed.rest - ed.gap) + size - (ed.stop - ed.rest) + i := by omega
        rw [hslot]
        exact memmove_of_mem hi

/-- `ed'` holds the text of `ed` with `buf` in place of the `len` bytes at `pos`. -/
structure Spliced (ed ed' : GapBuffer) (pos len : ℕ) (buf : Text) : Prop where
  ordered : ed'.Ordered
  length : ed'.textLength = ed.textLength - len + buf.length
  before : ∀ i < pos, ed'.char i = ed.char i
  inside : ∀ i < buf.length, ed'.char (pos + i) = buf.getD i 0
  behind : ∀ i < ed.textLength - (pos + len), ed'.char (pos + buf.length + i) = ed.char (pos + len + i)

theorem Spliced.text (h : Spliced ed ed' pos len buf) (hlen : pos + len ≤ ed.textLength) :
    ed'.text = ed.text.take pos ++ buf ++ ed.text.drop (pos + len) := by
  have htake : (ed.text.take pos).length = pos := by
    rw [List.length_take, length_text]
    omega
  apply List.ext_getElem?
  intro i
  by_cases hi : i < ed'.textLength
  · have hlength := h.length
    rw [getElem?_text hi]
    by_cases hbefore : i < pos
    · rw [List.append_assoc, List.getElem?_append_left (by omega), List.getElem?_take_of_lt hbefore,
        getElem?_text (by omega), h.before i hbefore]
    · by_cases hinside : i < pos + buf.length
      · have hbyte := h.inside (i - pos) (by omega)
        rw [List.append_assoc, List.getElem?_append_right (by omega), htake, List.getElem?_append_left (by omega)]
        rw [Nat.add_sub_cancel' (by omega)] at hbyte
        rw [hbyte, List.getD_eq_getElem?_getD, List.getElem?_eq_getElem (by omega)]
        rfl
      · have hbyte := h.behind (i - (pos + buf.length)) (by omega)
        rw [List.getElem?_append_right (by rw [List.length_append]; omega), List.length_append, htake,
          List.getElem?_drop, getElem?_text (by omega)]
        rw [Nat.add_sub_cancel' (by omega)] at hbyte
        rw [hbyte]
  · have hlength := h.length
    rw [List.getElem?_eq_none (by rw [length_text]; omega), List.getElem?_eq_none]
    rw [List.length_append, List.length_append, List.length_drop, length_text]
    omega

theorem replace_spec (h : ed.Ordered) (hlen : pos + len ≤ ed.textLength) (buf : Text) :
    Spliced ed (ed.replace pos len buf) pos len buf := by
  unfold replace
  by_cases hedge : buf.length = 0 ∧ pos ≤ ed.gap ∧ ed.gap ≤ pos + len
  · -- the gap takes up the bytes on both sides of it
    rw [if_pos hedge]
    obtain ⟨hbuf, hleft, hright⟩ := hedge
    obtain ⟨hgap, hrest⟩ := h
    unfold textLength at hlen
    constructor
    · constructor <;> dsimp only <;> omega
    · unfold textLength
      dsimp only
      omega
    · intro i hi
      unfold char textPtr
      dsimp only
      rw [if_neg (by omega), if_neg (by omega)]
    · intro i hi
      omega
    · intro i _
      unfold char textPtr
      dsimp only
      rw [if_pos (by omega), if_pos (by omega)]
      congr 1
      omega
  · rw [if_neg hedge]
    obtain ⟨hmoved, hroom⟩ := moveGap_spec h hlen (buf.length - len)
    generalize ed.moveGap (pos + len) (buf.length - len) = ed₁ at hmoved hroom
    obtain ⟨⟨hgap, hrest⟩, hat, hlength, hchar⟩ := hmoved
    have hlength₁ : pos + len + (ed₁.stop - ed₁.rest) = ed.textLength := by
      rw [← hlength, ← hat]
      rfl
    constructor
    · constructor <;> dsimp only <;> omega
    · unfold textLength at hlength₁ ⊢
      dsimp only
      omega
    · intro i hi
      rw [← hchar i (by omega)]
      unfold char textPtr
      dsimp only
      rw [if_neg (by omega), if_neg (by omega), memmove_of_lt hi]
    · intro i hi
      unfold char textPtr
      dsimp only
      rw [if_neg (by omega), memmove_of_mem hi, Nat.zero_add]
    · intro i hi
      rw [← hchar _ (by omega)]
      unfold char textPtr
      dsimp only
      rw [if_pos (by omega), if_pos (by omega), memmove_of_le (by omega)]
      congr 1
      omega

theorem replace_text (h : ed.Ordered) (hlen : pos + len ≤ ed.textLength) (buf : Text) :
    (ed.replace pos len buf).text = ed.text.take pos ++ buf ++ ed.text.drop (pos + len) :=
  (replace_spec h hlen buf).text hlen

theorem get_of_lt (h : ed.Ordered) (hpos : pos < ed.textLength) : ed.get pos = some (ed.char pos) := by
  obtain ⟨hgap, hrest⟩ := h
  unfold textLength at hpos
  unfold get char
  rw [if_neg]
  unfold textPtr
  split <;> omega

theorem textPtr_eq_stop (h : ed.Ordered) (hpos : pos ≤ ed.textLength) :
    ed.textPtr pos = ed.stop ↔ pos = ed.textLength := by
  obtain ⟨hgap, hrest⟩ := h
  unfold textLength at hpos ⊢
  unfold textPtr
  split <;> omega

theorem textPtr_succ (h : ed.Ordered) :
    (if ed.textPtr pos + 1 = ed.gap then ed.rest else ed.textPtr pos + 1) = ed.textPtr (pos + 1) := by
  obtain ⟨hgap, -⟩ := h
  unfold textPtr
  split_ifs <;> omega

theorem drop_text (hpos : pos < ed.textLength) : ed.text.drop pos = ed.char pos :: ed.text.drop (pos + 1) := by
  obtain ⟨hlt, hbyte⟩ := List.getElem?_eq_some_iff.1 (getElem?_text hpos)
  rw [List.drop_eq_getElem_cons hlt, hbyte]

theorem drop_text_end (hpos : ed.textLength ≤ pos) : ed.text.drop pos = [] :=
  List.drop_of_length_le ((length_text ed).trans_le hpos)

theorem get_eq (h : ed.Ordered) (pos : ℕ) : ed.get pos = ed.text[pos]? := by
  by_cases hpos : pos < ed.textLength
  · rw [get_of_lt h hpos, getElem?_text hpos]
  · rw [List.getElem?_eq_none ((length_text ed).trans_le (not_lt.mp hpos))]
    unfold textLength at hpos
    unfold get
    rw [if_pos]
    unfold textPtr
    split <;> omega

theorem copy_eq (h : ed.Ordered) (hpos : pos ≤ ed.textLength) (len : ℕ) : ed.copy pos len = (ed.text.drop pos).take len := by
  unfold copy
  induction len generalizing pos with
  | zero => rfl
  | succ len ih =>
    unfold copyFrom
    rcases hpos.eq_or_lt with hend | hlt
    · rw [if_pos ((textPtr_eq_stop h hpos).mpr hend), drop_text_end hend.ge, List.take_nil]
    · rw [if_neg fun hstop => hlt.ne ((textPtr_eq_stop h hpos).mp hstop), textPtr_succ h, ih hlt, drop_text hlt]
      rfl

theorem compare_iff (h : ed.Ordered) (hpos : pos ≤ ed.textLength) (buf : Text) :
    ed.compare buf pos = true ↔ (ed.text.drop pos).take buf.length = buf := by
  unfold compare
  induction buf generalizing pos with
  | nil => simp [compareFrom]
  | cons b buf ih =>
    unfold compareFrom
    rcases hpos.eq_or_lt with hend | hlt
    · rw [if_pos ((textPtr_eq_stop h hpos).mpr hend), drop_text_end hend.ge]
      simp
    · rw [if_neg fun hstop => hlt.ne ((textPtr_eq_stop h hpos).mp hstop), textPtr_succ h, drop_text hlt,
        List.length_cons, List.take_succ_cons, List.cons.injEq, ← ih hlt]
      by_cases hb : b = ed.mem (ed.textPtr pos)
      · rw [if_neg (not_not.mpr hb)]
        exact ⟨fun hrest => ⟨hb.symm, hrest⟩, fun hrest => hrest.2⟩
      · rw [if_pos hb]
        exact iff_of_false Bool.false_ne_true fun hrest => hb hrest.1.symm

/-- The buffer is in the block that it was in and nothing behind the block is written, or it is in a new block. -/
def Inside (ed ed' : GapBuffer) : Prop :=
  (ed'.stop = ed.stop ∧ ∀ i, ed.stop ≤ i → ed'.mem i = ed.mem i) ∨ ∀ i, ed'.stop ≤ i → ed'.mem i = 0

theorem moveGap_inside (h : ed.Ordered) (hpos : pos ≤ ed.textLength) (minsize : ℕ) :
    Inside ed (ed.moveGap pos minsize) := by
  obtain ⟨hgap, hrest⟩ := h
  unfold textLength at hpos
  unfold moveGap
  dsimp only
  have hptr : ed.textPtr pos = if ed.gap ≤ pos then pos + (ed.rest - ed.gap) else pos := rfl
  by_cases hmin : minsize ≤ ed.rest - ed.gap
  · rw [if_pos hmin]
    left
    split
    · refine ⟨rfl, fun i hi => ?_⟩
      dsimp only
      split <;> rw [memmove_of_le] <;> split at hptr <;> omega
    · exact ⟨rfl, fun i _ => rfl⟩
  · rw [if_neg hmin]
    right
    generalize hsize : (if minsize < ed.rest - ed.gap + minExtend then ed.rest - ed.gap + minExtend else minsize) = size
    have hle : minsize ≤ size := by split at hsize <;> omega
    split
    · intro i hi
      dsimp only at hi ⊢
      split at hptr
      · omega
      rw [memmove_of_le (by omega), memmove_of_le (by omega), memmove_of_le (by omega)]
    · intro i hi
      dsimp only at hi ⊢
      split at hptr
      swap
      · omega
      rw [memmove_of_le (by omega), memmove_of_le (by omega), memmove_of_le (by omega)]

theorem replace_inside (h : ed.Ordered) (hlen : pos + len ≤ ed.textLength) (buf : Text) :
    Inside ed (ed.replace pos len buf) := by
  unfold replace
  split
  · exact .inl ⟨rfl, fun i _ => rfl⟩
  · obtain ⟨⟨⟨hgap, hrest⟩, hat, -, -⟩, hroom⟩ := moveGap_spec h hlen (buf.length - len)
    have hput (i : ℕ) (hi : (ed.moveGap (pos + len) (buf.length - len)).stop ≤ i) :
        memmove (ed.moveGap (pos + len) (buf.length - len)).mem pos (fun i => buf.getD i 0) 0 buf.length i =
          (ed.moveGap (pos + len) (buf.length - len)).mem i := memmove_of_le (by omega)
    rcases moveGap_inside h hlen (buf.length - len) with ⟨hstop, hmem⟩ | hnew
    · exact .inl ⟨hstop, fun i hi => (hput i (hstop.trans_le hi)).trans (hmem i hi)⟩
    · exact .inr fun i hi => (hput i hi).trans (hnew i hi)

end GapBuffer
end SimpleKernel.Edit
