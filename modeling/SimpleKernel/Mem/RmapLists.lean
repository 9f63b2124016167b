import SimpleKernel.Mem.Rmap
import Mathlib.Data.List.Basic

/-! The array of a resource map as the list of its entries, and the operations of the map as
functions on that list. -/
namespace SimpleKernel.Mem
open Function (update_of_ne)

namespace Rmap

variable {m m' : Rmap} {r n j : ℕ} {x y : Slot} {o s : UInt32}

/-- The `n` slots from `r` on. -/
def seg (m : Rmap) (r n : ℕ) : List Slot := (List.range' r n).map m.slot

/-- The slots in use. -/
def entries (m : Rmap) : List Slot := m.seg 1 m.rlim

@[simp] theorem seg_zero : m.seg r 0 = [] := rfl

theorem seg_succ : m.seg r (n + 1) = m.slot r :: m.seg (r + 1) n := by
  simp [seg, List.range'_succ]

theorem seg_add (a b : ℕ) : m.seg r (a + b) = m.seg r a ++ m.seg (r + a) b := by
  rw [seg, ← List.range'_append_1, List.map_append, seg, seg]

@[simp] theorem length_seg : (m.seg r n).length = n := by
  simp [seg]

@[simp] theorem length_entries : m.entries.length = m.rlim := length_seg

theorem seg_shift {a : ℕ} (h : ∀ i, i < n → m'.slot (a + i) = m.slot (r + i)) :
    m'.seg a n = m.seg r n := by
  apply List.ext_getElem
  · simp
  · intro i hi _
    simp only [length_seg] at hi
    simpa [seg] using h i hi

theorem seg_init (hr : 1 ≤ r) : m.seg 1 (r - 1) ++ [m.slot r] = m.seg 1 r := by
  obtain ⟨k, rfl⟩ := Nat.exists_eq_add_of_le' hr
  rw [seg_add, Nat.add_comm 1 k]
  simp [seg_succ]

theorem entries_splice (mid : List Slot) (hr : 1 ≤ r)
    (hlim : m'.rlim = r - 1 + (mid.length + n))
    (hlow : ∀ i, 1 ≤ i → i < r → m'.slot i = m.slot i) (hmid : m'.seg r mid.length = mid)
    (hhigh : ∀ i, i < n → m'.slot (r + mid.length + i) = m.slot (r + j + i)) :
    m'.entries = m.seg 1 (r - 1) ++ (mid ++ m.seg (r + j) n) := by
  have hpre : m'.seg 1 (r - 1) = m.seg 1 (r - 1) := by
    apply seg_shift
    intro i hi
    exact hlow _ (by omega) (by omega)
  have hr' : 1 + (r - 1) = r := by omega
  rw [entries, hlim, seg_add, hr', hpre, seg_add, hmid, seg_shift hhigh]

/-- The table holds no more entries than it has slots. -/
def Fits (m : Rmap) : Prop := m.rlim ≤ (m.slot 0).size.toNat

theorem rlim_setSlot (hr : 1 ≤ r) : (m.setSlot r x).rlim = m.rlim := by
  have : (0 : ℕ) ≠ r := by omega
  simp [rlim, setSlot, update_of_ne this]

theorem header_setSlot (hr : 1 ≤ r) : (m.setSlot r x).slot 0 = m.slot 0 := by
  have : (0 : ℕ) ≠ r := by omega
  simp [setSlot, update_of_ne this]

theorem entries_setSlot (hr : 1 ≤ r) (hlim : r ≤ m.rlim) :
    (m.setSlot r x).entries = m.seg 1 (r - 1) ++ x :: m.seg (r + 1) (m.rlim - r) := by
  apply entries_splice [x] hr
  · simp only [rlim_setSlot hr, List.length_singleton]
    omega
  · intro i _ hi
    simp [setSlot, update_of_ne (Nat.ne_of_lt hi)]
  · simp [seg_succ, setSlot]
  · intro i _
    have : r + 1 + i ≠ r := by omega
    simp [setSlot, update_of_ne this]

theorem toNat_pred {c : UInt32} (h : 1 ≤ c.toNat) : (c - 1).toNat = c.toNat - 1 := by
  rw [UInt32.toNat_sub_of_le]
  · simp
  · rw [UInt32.le_iff_toNat_le]
    simpa using h

theorem toNat_succ {c d : UInt32} (h : c.toNat < d.toNat) : (c + 1).toNat = c.toNat + 1 := by
  have := d.toNat_lt
  rw [UInt32.toNat_add]
  simp only [UInt32.toNat_one]
  omega

theorem size_setCount (c : UInt32) : ((m.setCount c).slot 0).size = (m.slot 0).size := by
  simp [setCount, setSlot]

theorem slot_setCount (c : UInt32) (hr : 1 ≤ r) : (m.setCount c).slot r = m.slot r := by
  simp [setCount, setSlot, update_of_ne (Nat.ne_of_gt hr)]

theorem header_memmove {d b : ℕ} (hd : 1 ≤ d) : (m.memmove d b n).slot 0 = m.slot 0 := by
  have : ¬(d ≤ 0 ∧ 0 < d + n) := by omega
  simp only [memmove]
  rw [if_neg this]

theorem rlim_memmove {d b : ℕ} (hd : 1 ≤ d) : (m.memmove d b n).rlim = m.rlim := by
  rw [rlim, header_memmove hd, rlim]

theorem slot_memmove_of_lt {d b i : ℕ} (hi : i < d) : (m.memmove d b n).slot i = m.slot i := by
  have : ¬(d ≤ i ∧ i < d + n) := by omega
  simp only [memmove]
  rw [if_neg this]

theorem slot_memmove {d b i : ℕ} (hi : i < n) :
    (m.memmove d b n).slot (d + i) = m.slot (b + i) := by
  have : d ≤ d + i ∧ d + i < d + n := by omega
  simp only [memmove]
  rw [if_pos this, Nat.add_sub_cancel_left]

theorem header_collapse (hr : 1 ≤ r) :
    (m.collapse r).slot 0 = { m.slot 0 with offset := (m.slot 0).offset - 1 } := by
  have h0 : (m.setCount ((m.slot 0).offset - 1)).slot 0 =
      { m.slot 0 with offset := (m.slot 0).offset - 1 } := by
    simp [setCount, setSlot]
  rw [collapse]
  split
  · rw [header_memmove hr, h0]
  · exact h0

theorem entries_collapse (hr : 1 ≤ r) (hlim : r ≤ m.rlim) :
    (m.collapse r).entries = m.seg 1 (r - 1) ++ m.seg (r + 1) (m.rlim - r) := by
  have hcount : (m.collapse r).rlim = m.rlim - 1 := by
    rw [rlim, header_collapse hr]
    exact toNat_pred (by rw [← rlim]; omega)
  apply entries_splice [] hr
  · simp only [List.length_nil]
    omega
  · intro i h1 hi
    rw [collapse]
    split
    · rw [slot_memmove_of_lt hi, slot_setCount _ h1]
    · rw [slot_setCount _ h1]
  · rfl
  · intro i hi
    have hlt : r < m.rlim := by omega
    simp only [collapse, if_pos hlt, List.length_nil, Nat.add_zero]
    rw [slot_memmove hi, slot_setCount _ (by omega)]

theorem makespace_eq_none : m.makespace r = none ↔ (m.slot 0).size = (m.slot 0).offset := by
  simp [makespace]

theorem makespace_spec (hfits : m.Fits) (hr : 1 ≤ r) (h : m.makespace r = some m') :
    m'.slot 0 = { m.slot 0 with offset := (m.slot 0).offset + 1 } ∧ m'.rlim = m.rlim + 1 ∧
      m'.lostElems = m.lostElems ∧ (∀ i, 1 ≤ i → i < r → m'.slot i = m.slot i) ∧
      ∀ i, i < m.rlim + 1 - r → m'.slot (r + 1 + i) = m.slot (r + i) := by
  have hne : (m.slot 0).size ≠ (m.slot 0).offset := by
    intro heq
    rw [makespace_eq_none.mpr heq] at h
    simp at h
  have hlt : (m.slot 0).offset.toNat < (m.slot 0).size.toNat := by
    have h1 : m.rlim ≤ (m.slot 0).size.toNat := hfits
    have h2 : (m.slot 0).size.toNat ≠ (m.slot 0).offset.toNat := fun he => hne (UInt32.toNat.inj he)
    rw [rlim] at h1
    omega
  rw [makespace, if_neg hne] at h
  obtain rfl := Option.some.inj h
  have h0 : (m.setCount ((m.slot 0).offset + 1)).slot 0 =
      { m.slot 0 with offset := (m.slot 0).offset + 1 } := by
    simp [setCount, setSlot]
  have hhead : (if r ≤ m.rlim then
      (m.setCount ((m.slot 0).offset + 1)).memmove (r + 1) r (m.rlim - r + 1)
      else m.setCount ((m.slot 0).offset + 1)).slot 0 =
      { m.slot 0 with offset := (m.slot 0).offset + 1 } := by
    split
    · rw [header_memmove (by omega), h0]
    · exact h0
  refine ⟨hhead, ?_, ?_, ?_, ?_⟩
  · rw [rlim, hhead]
    exact toNat_succ hlt
  · split <;> rfl
  · intro i h1 hi
    split
    · rw [slot_memmove_of_lt (by omega), slot_setCount _ h1]
    · rw [slot_setCount _ h1]
  · intro i hi
    have hle : r ≤ m.rlim := by omega
    rw [if_pos hle, slot_memmove (by omega), slot_setCount _ (by omega)]

end Rmap

/-- What a resource map holds: its entries, the number of its slots, the lost units. -/
@[ext] structure View where
  entries : List Slot
  size : UInt32
  lostElems : UInt32

def Rmap.view (m : Rmap) : View := ⟨m.entries, (m.slot 0).size, m.lostElems⟩

/-- No slot is left. -/
def View.full (v : View) : Bool := v.entries.length = v.size.toNat

namespace Entries

/-- The first entry that is large enough gives the range. -/
def alloc (size : UInt32) : List Slot → Option (UInt32 × List Slot)
  | [] => none
  | x :: l =>
    if size ≤ x.size then
      some (x.offset, if size < x.size then ⟨x.offset + size, x.size - size⟩ :: l else l)
    else (alloc size l).map fun p => (p.1, x :: p.2)

/-- The entries without the range and the number of units that were lost. -/
def reserve (full : Bool) (o s : UInt32) : List Slot → Option (List Slot × UInt32)
  | [] => none
  | x :: l =>
    if o < x.offset then none
    else if ¬(x.offset ≤ o ∧ o < x.offset + x.size) then
      (reserve full o s l).map fun p => (x :: p.1, p.2)
    else if x.offset + x.size < o + s then none
    else if o = x.offset then
      some (if x.size - s = 0 then l else ⟨x.offset + s, x.size - s⟩ :: l, 0)
    else if o + s = x.offset + x.size then some (⟨x.offset, x.size - s⟩ :: l, 0)
    else if full then
      some (⟨o + s, x.offset + x.size - (o + s)⟩ :: l,
        x.size - (x.offset + x.size - (o + s)) - s)
    else
      some (⟨x.offset, o - x.offset⟩ :: ⟨o + s, x.offset + x.size - (o + s)⟩ :: l, 0)

/-- A new entry in front of `l`, unless there is no room. -/
def insert (full : Bool) (o s : UInt32) (l : List Slot) : List Slot × UInt32 :=
  if full then (l, s) else (⟨o, s⟩ :: l, 0)

/-- The entry `x`, extended by a range of size `s` and joined with the next when they meet. -/
def extend (x : Slot) (s : UInt32) : List Slot → List Slot
  | [] => [⟨x.offset, x.size + s⟩]
  | y :: l =>
    if x.offset + (x.size + s) = y.offset then ⟨x.offset, x.size + s + y.size⟩ :: l
    else ⟨x.offset, x.size + s⟩ :: y :: l

/-- The entries with the range and the number of units that were lost. -/
def free (full : Bool) (o s : UInt32) : List Slot → List Slot × UInt32
  | [] => insert full o s []
  | x :: l =>
    if x.offset + x.size = o then (extend x s l, 0)
    else if o + s = x.offset then (⟨o, x.size + s⟩ :: l, 0)
    else if o < x.offset then insert full o s (x :: l)
    else (x :: (free full o s l).1, (free full o s l).2)

/-- The entries are not changed by `status`. -/
def status (o s : UInt32) : List Slot → ℤ
  | [] => 1
  | x :: l =>
    if o < x.offset then (if x.offset < o + s then -1 else 1)
    else if ¬(x.offset ≤ o ∧ o < x.offset + x.size) then status o s l
    else if o + s < x.offset + x.size then 0 else -1

end Entries

namespace Rmap

variable {m m' : Rmap} {r n : ℕ} {x y : Slot} {o s : UInt32}

theorem view_full : m.view.full = decide ((m.slot 0).size = (m.slot 0).offset) := by
  rw [View.full, decide_eq_decide]
  simp only [view, length_entries, rlim]
  exact ⟨fun h => (UInt32.toNat.inj h).symm, fun h => by rw [h]⟩

theorem view_lose (k : UInt32) :
    (m.lose k).view = { m.view with lostElems := m.lostElems + k } := rfl

theorem view_setSlot (hr : 1 ≤ r) (hlim : r ≤ m.rlim) :
    (m.setSlot r x).view =
      { m.view with entries := m.seg 1 (r - 1) ++ x :: m.seg (r + 1) (m.rlim - r) } := by
  ext1
  · exact entries_setSlot hr hlim
  · simp only [view, header_setSlot hr]
  · rfl

theorem view_collapse (hr : 1 ≤ r) (hlim : r ≤ m.rlim) :
    (m.collapse r).view =
      { m.view with entries := m.seg 1 (r - 1) ++ m.seg (r + 1) (m.rlim - r) } := by
  ext1
  · exact entries_collapse hr hlim
  · simp only [view, header_collapse hr]
  · simp only [collapse]
    split <;> rfl

theorem view_collapse_setSlot (hr : 1 ≤ r) (hlim : r ≤ m.rlim) :
    ((m.setSlot r x).collapse r).view =
      { m.view with entries := m.seg 1 (r - 1) ++ m.seg (r + 1) (m.rlim - r) } := by
  have hlim' : r ≤ (m.setSlot r x).rlim := by rwa [rlim_setSlot hr]
  have hlow : (m.setSlot r x).seg 1 (r - 1) = m.seg 1 (r - 1) := by
    apply seg_shift
    intro i hi
    have : 1 + i ≠ r := by omega
    simp [setSlot, update_of_ne this]
  have hhigh : (m.setSlot r x).seg (r + 1) (m.rlim - r) = m.seg (r + 1) (m.rlim - r) := by
    apply seg_shift
    intro i hi
    have : r + 1 + i ≠ r := by omega
    simp [setSlot, update_of_ne this]
  rw [view_collapse hr hlim', rlim_setSlot hr, hlow, hhigh]
  simp only [view, header_setSlot hr]
  rfl

theorem view_insert (hfits : m.Fits) (hr : 1 ≤ r) (hlim : r ≤ m.rlim + 1)
    (h : m.makespace r = some m') :
    (m'.setSlot r x).view =
      { m.view with entries := m.seg 1 (r - 1) ++ x :: m.seg r (m.rlim + 1 - r) } := by
  obtain ⟨hhead, hcount, hlost, hlow, hhigh⟩ := makespace_spec hfits hr h
  ext1
  · apply entries_splice (j := 0) [x] hr
    · simp only [rlim_setSlot hr, List.length_singleton]
      omega
    · intro i h1 hi
      simp only [setSlot, update_of_ne (Nat.ne_of_lt hi)]
      exact hlow i h1 hi
    · simp [seg_succ, setSlot]
    · intro i hi
      have : r + 1 + i ≠ r := by omega
      simp only [setSlot, List.length_singleton, update_of_ne this]
      exact hhigh i hi
  · simp only [view, header_setSlot hr, hhead]
  · exact hlost

theorem view_split (hfits : m.Fits) (hr : 1 ≤ r) (hlim : r ≤ m.rlim)
    (h : m.makespace r = some m') :
    ((m'.setSlot r x).setSlot (r + 1) y).view =
      { m.view with entries := m.seg 1 (r - 1) ++ x :: y :: m.seg (r + 1) (m.rlim - r) } := by
  obtain ⟨hhead, hcount, hlost, hlow, hhigh⟩ := makespace_spec hfits hr h
  ext1
  · apply entries_splice [x, y] hr
    · rw [rlim_setSlot (by omega), rlim_setSlot hr]
      simp only [List.length_cons, List.length_nil]
      omega
    · intro i h1 hi
      have h2 : i ≠ r + 1 := by omega
      simp only [setSlot, update_of_ne h2, update_of_ne (Nat.ne_of_lt hi)]
      exact hlow i h1 hi
    · simp [seg_succ, setSlot]
    · intro i hi
      have h1 : r + 2 + i ≠ r + 1 := by omega
      have h2 : r + 2 + i ≠ r := by omega
      simp only [setSlot, List.length_cons, List.length_nil, update_of_ne h1,
        update_of_ne h2]
      have := hhigh (i + 1) (by omega)
      rwa [show r + 1 + (i + 1) = r + 2 + i by omega, show r + (i + 1) = r + 1 + i by omega] at this
  · simp only [view]
    rw [header_setSlot (by omega), header_setSlot hr, hhead]
  · exact hlost

theorem view_insertAt (hfits : m.Fits) (hr : 1 ≤ r) (hlim : r ≤ m.rlim + 1) :
    (m.insertAt r o s).view =
      ⟨m.seg 1 (r - 1) ++ (Entries.insert m.view.full o s (m.seg r (m.rlim + 1 - r))).1,
        (m.slot 0).size,
        m.lostElems + (Entries.insert m.view.full o s (m.seg r (m.rlim + 1 - r))).2⟩ := by
  rw [insertAt]
  cases hsp : m.makespace r with
  | none =>
    have hfull : m.view.full = true := by
      rw [view_full, decide_eq_true_eq]
      exact makespace_eq_none.mp hsp
    have hall : m.seg 1 (r - 1) ++ m.seg r (m.rlim + 1 - r) = m.entries := by
      have := seg_add (m := m) (r := 1) (r - 1) (m.rlim + 1 - r)
      rw [show 1 + (r - 1) = r by omega, show r - 1 + (m.rlim + 1 - r) = m.rlim by omega] at this
      exact this.symm
    simp only [Entries.insert, hfull, if_true, hall]
    rfl
  | some m' =>
    have hfull : m.view.full = false := by
      rw [view_full, decide_eq_false_iff_not, ← makespace_eq_none, hsp]
      simp
    simp only [Entries.insert, hfull]
    rw [view_insert hfits hr hlim hsp]
    simp [view]

theorem view_join {x' : Slot} (hr : 1 ≤ r) (hlim : r < m.rlim) :
    (if r + 1 < m.rlim then
        (((m.setSlot r x).setSlot r x').setCount ((m.slot 0).offset - 1)).memmove (r + 1) (r + 2)
          (m.rlim - (r + 1))
      else ((m.setSlot r x).setSlot r x').setCount ((m.slot 0).offset - 1)).view =
      { m.view with entries := m.seg 1 (r - 1) ++ x' :: m.seg (r + 2) (m.rlim - (r + 1)) } := by
  have hslot : ∀ i, 1 ≤ i → i ≠ r →
      (((m.setSlot r x).setSlot r x').setCount ((m.slot 0).offset - 1)).slot i = m.slot i := by
    intro i hi hne
    rw [slot_setCount _ hi]
    simp [setSlot, update_of_ne hne]
  have hat : (((m.setSlot r x).setSlot r x').setCount ((m.slot 0).offset - 1)).slot r = x' := by
    rw [slot_setCount _ hr]
    simp [setSlot]
  have hcount : (((m.setSlot r x).setSlot r x').setCount ((m.slot 0).offset - 1)).rlim =
      m.rlim - 1 := by
    exact toNat_pred (by rw [← rlim]; omega)
  have hsize : ((((m.setSlot r x).setSlot r x').setCount
      ((m.slot 0).offset - 1)).slot 0).size = (m.slot 0).size := by
    rw [size_setCount, header_setSlot hr, header_setSlot hr]
  ext1
  · apply entries_splice [x'] hr
    · simp only [List.length_singleton]
      split
      · rw [rlim_memmove (by omega)]
        omega
      · omega
    · intro i h1 hi
      split
      · rw [slot_memmove_of_lt (by omega), hslot i h1 (by omega)]
      · exact hslot i h1 (by omega)
    · simp only [List.length_singleton, seg_succ, seg_zero]
      split
      · rw [slot_memmove_of_lt (by omega), hat]
      · rw [hat]
    · intro i hi
      have hmore : r + 1 < m.rlim := by omega
      simp only [if_pos hmore, List.length_singleton]
      rw [slot_memmove hi, hslot _ (by omega) (by omega)]
  · simp only [view]
    split
    · rw [header_memmove (by omega), hsize]
    · exact hsize
  · split <;> rfl

theorem seg_snoc (hr : 1 ≤ r) (l : List Slot) :
    m.seg 1 (r + 1 - 1) ++ l = m.seg 1 (r - 1) ++ m.slot r :: l := by
  rw [Nat.add_sub_cancel, ← seg_init hr]
  simp

theorem reserveLoop_view (hfits : m.Fits) (hr : 1 ≤ r) (hn : r + n = m.rlim + 1) :
    m.reserveLoop o s r n = (m, 1) ∧ Entries.reserve m.view.full o s (m.seg r n) = none ∨
      ∃ l k, Entries.reserve m.view.full o s (m.seg r n) = some (l, k) ∧
        (m.reserveLoop o s r n).2 = 0 ∧
        (m.reserveLoop o s r n).1.view =
          ⟨m.seg 1 (r - 1) ++ l, (m.slot 0).size, m.lostElems + k⟩ := by
  induction n generalizing r with
  | zero => exact .inl ⟨rfl, rfl⟩
  | succ n ih =>
    have hlim : r ≤ m.rlim := by omega
    have hrest : m.rlim - r = n := by omega
    simp only [reserveLoop, seg_succ, Entries.reserve]
    by_cases hbeyond : o < (m.slot r).offset
    · simp [hbeyond]
    by_cases hin : (m.slot r).offset ≤ o ∧ o < (m.slot r).offset + (m.slot r).size
    swap
    · simp only [hbeyond, hin, if_false, not_false_eq_true, if_true]
      rcases ih (r := r + 1) (by omega) (by omega) with ⟨h1, h2⟩ | ⟨l, k, h1, h2, h3⟩
      · exact .inl ⟨h1, by rw [h2]; rfl⟩
      · refine .inr ⟨m.slot r :: l, k, by rw [h1]; rfl, h2, ?_⟩
        rw [h3, seg_snoc hr]
    simp only [hbeyond, hin, and_self, not_true_eq_false]
    by_cases htop : (m.slot r).offset + (m.slot r).size < o + s
    · simp [htop]
    simp only [htop, if_false]
    by_cases hstart : o = (m.slot r).offset
    · simp only [hstart, if_true]
      refine .inr ⟨_, _, rfl, by trivial, ?_⟩
      split
      · rw [view_collapse_setSlot hr hlim, hrest]
        simp [view]
      · rw [view_setSlot hr hlim, hrest]
        simp [view]
    simp only [hstart, if_false]
    by_cases hend : o + s = (m.slot r).offset + (m.slot r).size
    · simp only [hend, if_true]
      rw [view_setSlot hr hlim, hrest]
      simp [view]
    simp only [hend, if_false]
    cases hsp : m.makespace r with
    | none =>
      have hfull : m.view.full = true := by
        rw [view_full, decide_eq_true_eq]
        exact makespace_eq_none.mp hsp
      simp only [hfull]
      rw [view_lose, view_setSlot hr hlim, hrest]
      simp [view, setSlot]
    | some m' =>
      have hfull : m.view.full = false := by
        rw [view_full, decide_eq_false_iff_not, ← makespace_eq_none, hsp]
        simp
      simp only [hfull]
      rw [view_split hfits hr hlim hsp, hrest]
      simp [view]

theorem freeLoop_view (hfits : m.Fits) (hr : 1 ≤ r) (hn : r + n = m.rlim + 1) :
    (m.freeLoop o s r n).view =
      ⟨m.seg 1 (r - 1) ++ (Entries.free m.view.full o s (m.seg r n)).1, (m.slot 0).size,
        m.lostElems + (Entries.free m.view.full o s (m.seg r n)).2⟩ := by
  induction n generalizing r with
  | zero =>
    have := view_insertAt (o := o) (s := s) hfits hr (by omega)
    rwa [show m.rlim + 1 - r = 0 by omega] at this
  | succ n ih =>
    have hlim : r ≤ m.rlim := by omega
    have hrest : m.rlim - r = n := by omega
    simp only [freeLoop, seg_succ, Entries.free]
    by_cases hleft : (m.slot r).offset + (m.slot r).size = o
    · simp only [hleft, if_true]
      cases n with
      | zero =>
        have hlast : ¬ r < m.rlim := by omega
        simp only [hlast, false_and, if_false, Entries.extend]
        rw [view_setSlot hr hlim, hrest]
        simp [view]
      | succ n =>
        have hmore : r < m.rlim := by omega
        have hnext : (m.setSlot r ⟨(m.slot r).offset, (m.slot r).size + s⟩).slot (r + 1) =
            m.slot (r + 1) := by
          simp [setSlot]
        simp only [hmore, hnext, true_and, seg_succ, Entries.extend]
        by_cases hjoin : (m.slot r).offset + ((m.slot r).size + s) = (m.slot (r + 1)).offset
        · simp only [hjoin, if_true]
          rw [view_join hr hmore, show m.rlim - (r + 1) = n by omega]
          simp [view]
        · simp only [hjoin, if_false]
          rw [view_setSlot hr hlim, hrest, seg_succ]
          simp [view]
    simp only [hleft, if_false]
    by_cases hright : o + s = (m.slot r).offset
    · simp only [hright, if_true]
      rw [view_setSlot hr hlim, hrest]
      simp [view]
    simp only [hright]
    by_cases hbefore : o < (m.slot r).offset
    · simp only [hbefore]
      have := view_insertAt (o := o) (s := s) hfits hr (by omega)
      rwa [show m.rlim + 1 - r = n + 1 by omega] at this
    · simp only [hbefore, if_false]
      rw [ih (by omega) (by omega), seg_snoc hr]

/-- The map and the index that `rmap_alloc` leaves once its scan has stopped at `r`. -/
def take (m : Rmap) (size : UInt32) (r : ℕ) : Rmap × UInt32 :=
  if m.rlim < r then (m, 0)
  else if size < (m.slot r).size then
    (m.setSlot r ⟨(m.slot r).offset + size, (m.slot r).size - size⟩, (m.slot r).offset)
  else (m.collapse r, (m.slot r).offset)

theorem take_view (hr : 1 ≤ r) (hn : r + n = m.rlim + 1) :
    m.take s (m.scan (fun x => s ≤ x.size) r n) = (m, 0) ∧ Entries.alloc s (m.seg r n) = none ∨
      ∃ i l, Entries.alloc s (m.seg r n) = some (i, l) ∧
        (m.take s (m.scan (fun x => s ≤ x.size) r n)).2 = i ∧
        (m.take s (m.scan (fun x => s ≤ x.size) r n)).1.view =
          { m.view with entries := m.seg 1 (r - 1) ++ l } := by
  induction n generalizing r with
  | zero =>
    have hend : m.rlim < r := by omega
    exact .inl ⟨by simp [scan, take, hend], rfl⟩
  | succ n ih =>
    have hlim : r ≤ m.rlim := by omega
    have hrest : m.rlim - r = n := by omega
    simp only [scan, seg_succ, Entries.alloc, decide_eq_true_eq]
    by_cases hfit : s ≤ (m.slot r).size
    · simp only [hfit, if_true, take, if_neg (Nat.not_lt.mpr hlim)]
      refine .inr ⟨_, _, rfl, ?_⟩
      split
      · refine ⟨rfl, ?_⟩
        rw [view_setSlot hr hlim, hrest]
      · refine ⟨rfl, ?_⟩
        rw [view_collapse hr hlim, hrest]
    · simp only [hfit, if_false]
      rcases ih (r := r + 1) (by omega) (by omega) with ⟨h1, h2⟩ | ⟨i, l, h1, h2, h3⟩
      · exact .inl ⟨h1, by rw [h2]; rfl⟩
      · refine .inr ⟨i, m.slot r :: l, by rw [h1]; rfl, h2, ?_⟩
        rw [h3, seg_snoc hr]

theorem scan_find (p : Slot → Bool) (hr : 1 ≤ r) (hn : r + n = m.rlim + 1) :
    (m.seg r n).find? p =
      if m.rlim < m.scan p r n then none else some (m.slot (m.scan p r n)) := by
  induction n generalizing r with
  | zero =>
    have hend : m.rlim < r := by omega
    simp [scan, hend]
  | succ n ih =>
    have hlim : ¬ m.rlim < r := by omega
    simp only [scan, seg_succ]
    by_cases hp : p (m.slot r) = true
    · simp [hp, hlim]
    · simpa [hp] using ih (by omega) (by omega)

theorem statusLoop_eq : m.statusLoop o s r n = Entries.status o s (m.seg r n) := by
  induction n generalizing r with
  | zero => rfl
  | succ n ih => simp only [statusLoop, seg_succ, Entries.status, ih]

/-! The operations of the map on its entries. -/

theorem rmapAlloc_view :
    m.rmapAlloc s = (m, 0) ∧ Entries.alloc s m.entries = none ∨
      ∃ i l, Entries.alloc s m.entries = some (i, l) ∧ (m.rmapAlloc s).2 = i ∧
        (m.rmapAlloc s).1.view = { m.view with entries := l } := by
  simpa [take, rmapAlloc, entries] using
    take_view (Nat.le_refl 1) (Nat.add_comm _ _)

theorem rmapReserve_view (hfits : m.Fits) :
    m.rmapReserve o s = (m, 1) ∧ Entries.reserve m.view.full o s m.entries = none ∨
      ∃ l k, Entries.reserve m.view.full o s m.entries = some (l, k) ∧
        (m.rmapReserve o s).2 = 0 ∧
        (m.rmapReserve o s).1.view = ⟨l, (m.slot 0).size, m.lostElems + k⟩ := by
  simpa [rmapReserve, entries] using
    reserveLoop_view hfits (Nat.le_refl 1) (Nat.add_comm _ _)

theorem rmapFree_view (hfits : m.Fits) :
    (m.rmapFree o s).view =
      ⟨(Entries.free m.view.full o s m.entries).1, (m.slot 0).size,
        m.lostElems + (Entries.free m.view.full o s m.entries).2⟩ := by
  simpa [rmapFree, entries] using
    freeLoop_view hfits (Nat.le_refl 1) (Nat.add_comm _ _)

theorem rmapStatus_eq : m.rmapStatus o s = Entries.status o s m.entries := statusLoop_eq

theorem rmapAllocAlign_eq {align : UInt32} (halign : align ≠ 0) :
    m.rmapAllocAlign s align =
      match m.entries.find? fun x => s + gap x.offset align ≤ x.size with
      | none => some (m, 0)
      | some x =>
        some ((m.rmapReserve (x.offset + gap x.offset align) s).1,
          if (m.rmapReserve (x.offset + gap x.offset align) s).2 ≠ 0 then 0
          else x.offset + gap x.offset align) := by
  rw [entries, scan_find _ (Nat.le_refl 1) (Nat.add_comm _ _), rmapAllocAlign]
  simp only [halign, false_and, if_false]
  split <;> rfl

end Rmap

end SimpleKernel.Mem
