import Mathlib.Data.Finset.Card
import Mathlib.Algebra.BigOperators.Group.Finset.Piecewise
import Mathlib.Data.Nat.Bitwise
import SimpleKernel.Handle.Table
import SimpleKernel.Lib.Chain
import SimpleKernel.Lib.Transition
import SimpleKernel.Mem.Paging

/-! The words of the handle table. An entry of `htab` is a link of the free list or the address of
an object; the highest bit tells the two apart, and the lowest bit of an address is the protection
of the handle. -/
namespace SimpleKernel.Handle
open LinkedList Transition
open Mem (osBase or_and_distrib or_and_self and_eq_self)
open Function (update update_of_ne update_self)

def hprotectBit : UInt32 := 1

def hend : UInt32 := 0x7FFFFFFF

def hused (x : UInt32) : Bool := x &&& osBase ≠ 0

def hobj (x : UInt32) : UInt32 := x &&& ~~~hprotectBit

def hprot (x : UInt32) : Bool := x &&& hprotectBit ≠ 0

/-- A `struct object` in the kernel's part of the address space. -/
def KernelObject (o : UInt32) : Prop := o.toNat % 4 = 0 ∧ osBase ≤ o

/-- The table as it is in memory, and `handle_count` of the objects by address. `owner` and `guarded` are history:
the object that a handle was allocated for, until it is freed, and whether it is protected. -/
structure Words where
  htab : ℕ → UInt32
  hfreelist : UInt32
  htabsize : ℕ
  handleCount : UInt32 → UInt16
  owner : ℤ → Option UInt32
  guarded : ℤ → Bool

namespace Words

/-- One round of the loop of `expand_htab`. -/
def thread (s : Words) (h : ℤ) : Words :=
  { s with htab := update s.htab h.toNat s.hfreelist, hfreelist := UInt32.ofNat h.toNat }

/-- The loop of `expand_htab` from `h` down to `lo`. -/
def threadDown (s : Words) (lo h : ℤ) : Words :=
  if lo ≤ h then threadDown (s.thread h) lo (h - 1) else s
termination_by (h + 1 - lo).toNat
decreasing_by omega

def expandHtab (s : Words) : Words × ℤ :=
  if s.htabsize = htabLimit then (s, -ENFILE)
  else
    let s' := s.threadDown s.htabsize (s.htabsize + handlesPerPage - 1)
    ({ s' with htabsize := s'.htabsize + handlesPerPage }, 0)

def hlookup (s : Words) (h : ℤ) : Option UInt32 :=
  if h < 0 ∨ s.htabsize ≤ h then none
  else if hused (s.htab h.toNat) then some (hobj (s.htab h.toNat))
  else none

def halloc (s : Words) (o : UInt32) : Words × ℤ :=
  let r := if s.hfreelist = hend then s.expandHtab else (s, 0)
  if r.2 < 0 then r
  else
    let s := r.1
    let h := s.hfreelist.toNat
    ({ s with
      hfreelist := s.htab h
      htab := update s.htab h o
      handleCount := update s.handleCount o (s.handleCount o + 1)
      owner := update s.owner h (some o) }, h)

/-- `hfree`; the flag says that the last handle of the object is gone, so that `close_object` is
called. -/
def hfree (s : Words) (h : ℤ) : Words × ℤ × Bool :=
  match s.hlookup h with
  | none => (s, -EBADF, false)
  | some o =>
    if hprot (s.htab h.toNat) then (s, -EACCES, false)
    else
      let s' := { s with
        htab := update s.htab h.toNat s.hfreelist
        hfreelist := UInt32.ofNat h.toNat
        handleCount := update s.handleCount o (s.handleCount o - 1)
        owner := update s.owner h none }
      (s', 0, s'.handleCount o = 0)

def hprotect (s : Words) (h : ℤ) : Words × ℤ :=
  match s.hlookup h with
  | none => (s, -EBADF)
  | some _ =>
    ({ s with
      htab := update s.htab h.toNat (s.htab h.toNat ||| hprotectBit)
      guarded := update s.guarded h true }, 0)

def hunprotect (s : Words) (h : ℤ) : Words × ℤ :=
  match s.hlookup h with
  | none => (s, -EBADF)
  | some _ =>
    ({ s with
      htab := update s.htab h.toNat (s.htab h.toNat &&& ~~~hprotectBit)
      guarded := update s.guarded h false }, 0)

end Words

inductive WordCall where
  | halloc (o : UInt32)
  | hfree (h : ℤ)
  | hprotect (h : ℤ)
  | hunprotect (h : ℤ)
  | expandHtab

def Words.step (s : Words) : WordCall → Option Words
  | .halloc o => some (s.halloc o).1
  | .hfree h => some (s.hfree h).1
  | .hprotect h => some (s.hprotect h).1
  | .hunprotect h => some (s.hunprotect h).1
  | .expandHtab => some s.expandHtab.1

/-- Handles are allocated for objects of the kernel. -/
def Words.Kernel (_ : Words) : WordCall → Prop
  | .halloc o => KernelObject o
  | _ => True

/-- The table before its first expansion; nothing is known about its memory. -/
def emptyTable (htab : ℕ → UInt32) : Words where
  htab := htab
  hfreelist := hend
  htabsize := 0
  handleCount := fun _ => 0
  owner := fun _ => none
  guarded := fun _ => false

/-! The encoding. -/

theorem hused_iff {x : UInt32} : hused x = true ↔ osBase ≤ x := by
  have hx := x.toNat_lt
  have hbit : (x &&& osBase).toNat = (x.toNat.testBit 31).toNat * 2 ^ 31 := by
    rw [← Nat.and_two_pow]
    rfl
  have hzero : x &&& osBase = 0 ↔ (x &&& osBase).toNat = 0 := by
    rw [← UInt32.toNat_inj]
    rfl
  have hle : osBase ≤ x ↔ 2 ^ 31 ≤ x.toNat := UInt32.le_iff_toNat_le
  have htest : x.toNat.testBit 31 = true ↔ x.toNat / 2 ^ 31 % 2 = 1 := by
    rw [Nat.testBit_eq_decide_div_mod_eq, decide_eq_true_iff]
  rw [hused, decide_eq_true_iff, ne_eq, hzero, hbit, hle]
  cases ht : x.toNat.testBit 31 with
  | false =>
    have : ¬x.toNat / 2 ^ 31 % 2 = 1 := fun h => by simp [htest.mpr h] at ht
    simp only [Bool.toNat_false, not_true, false_iff]
    omega
  | true =>
    have := htest.mp ht
    simp only [Bool.toNat_true]
    omega

theorem hused_eq_false {x : UInt32} (h : x.toNat < 2 ^ 31) : hused x = false := by
  rw [Bool.eq_false_iff, ne_eq, hused_iff]
  exact Nat.not_le.mpr h

@[simp] theorem hused_protect (x : UInt32) : hused (x ||| hprotectBit) = hused x := by
  have h0 : hprotectBit &&& osBase = 0 := by decide
  rw [hused, or_and_distrib, h0, UInt32.or_zero, hused]

@[simp] theorem hobj_protect (x : UInt32) : hobj (x ||| hprotectBit) = hobj x := by
  have h0 : hprotectBit &&& ~~~hprotectBit = 0 := by decide
  rw [hobj, or_and_distrib, h0, UInt32.or_zero, hobj]

theorem hprot_protect (x : UInt32) : hprot (x ||| hprotectBit) = true := by
  rw [hprot, or_and_self]
  decide

@[simp] theorem hused_unprotect (x : UInt32) : hused (x &&& ~~~hprotectBit) = hused x := by
  have h0 : ~~~hprotectBit &&& osBase = osBase := by decide
  rw [hused, UInt32.and_assoc, h0, hused]

@[simp] theorem hobj_unprotect (x : UInt32) : hobj (x &&& ~~~hprotectBit) = hobj x := by
  have h0 : ~~~hprotectBit &&& ~~~hprotectBit = ~~~hprotectBit := by decide
  rw [hobj, UInt32.and_assoc, h0, hobj]

theorem KernelObject.word {o : UInt32} (ho : KernelObject o) :
    hused o = true ∧ hobj o = o ∧ hprot o = false := by
  have hlow : o &&& hprotectBit = 0 := by
    apply UInt32.toNat_inj.mp
    change o.toNat &&& 1 = 0
    rw [Nat.and_one_is_mod]
    have := ho.1
    omega
  refine ⟨hused_iff.mpr ho.2, ?_, by simp [hprot, hlow]⟩
  apply and_eq_self
  rwa [UInt32.not_not]

/-! The free list. -/

/-- The handle that a link names. -/
def link (x : UInt32) : Option ℕ := if x = hend then none else some x.toNat

theorem link_ofNat {k : ℕ} (hk : k < htabLimit) : link (UInt32.ofNat k) = some k := by
  have hlt : k < 2 ^ 32 := Nat.lt_trans hk (by decide)
  have hnat : (UInt32.ofNat k).toNat = k := UInt32.toNat_ofNat_of_lt' hlt
  have hne : UInt32.ofNat k ≠ hend := by
    intro he
    have : k = hend.toNat := by rw [← he, hnat]
    rw [this] at hk
    exact absurd hk (by decide)
  rw [link, if_neg hne, hnat]

namespace Words
variable {s s' : Words} {fl : List ℕ} {h : ℤ} {k : ℕ} {o : UInt32}

/-- The free handles are `fl`, in this order. -/
structure Free (s : Words) (fl : List ℕ) : Prop where
  chain : Chain (fun k => link (s.htab k)) (link s.hfreelist) fl
  word : hused s.hfreelist = false
  unused : ∀ k ∈ fl, hused (s.htab k) = false

theorem link_update (htab : ℕ → UInt32) (k : ℕ) (x : UInt32) :
    (fun j => link (update htab k x j)) =
      update (fun j => link (htab j)) k (link x) := by
  funext j
  rcases eq_or_ne j k with rfl | hj
  · simp
  · simp [hj]

theorem Free.thread (hs : s.Free fl) (hk : k < htabLimit) (hnew : k ∉ fl) :
    (s.thread k).Free (k :: fl) := by
  refine ⟨?_, ?_, fun j hj => ?_⟩
  · simp only [Words.thread, Int.toNat_natCast, link_ofNat hk, link_update]
    exact hs.chain.push hnew
  · apply hused_eq_false
    rw [Words.thread, Int.toNat_natCast, UInt32.toNat_ofNat_of_lt' (Nat.lt_trans hk (by decide))]
    exact Nat.lt_trans hk (by decide)
  · rcases eq_or_ne j k with rfl | hjk
    · simpa [Words.thread] using hs.word
    · simpa [Words.thread, hjk] using hs.unused j (by simpa [hjk] using hj)

theorem threadDown_zero (lo : ℕ) : s.threadDown lo ((lo + 0 : ℕ) - 1) = s := by
  rw [threadDown, if_neg (by omega)]

theorem threadDown_succ (lo n : ℕ) : s.threadDown lo ((lo + (n + 1) : ℕ) - 1) =
    (s.thread (lo + n : ℕ)).threadDown lo ((lo + n : ℕ) - 1) := by
  rw [threadDown, if_pos (by omega)]
  congr 2 <;> omega

theorem Free.threadDown {lo n : ℕ} (hs : s.Free fl) (hlim : lo + n ≤ htabLimit)
    (hnew : ∀ k ∈ fl, k < lo ∨ lo + n ≤ k) :
    (s.threadDown lo ((lo + n : ℕ) - 1)).Free (List.range' lo n ++ fl) := by
  induction n generalizing s fl with
  | zero =>
    rw [threadDown_zero]
    exact hs
  | succ n ih =>
    have hnot : lo + n ∉ fl := fun hm => by
      have := hnew _ hm
      omega
    rw [threadDown_succ, List.range'_concat, List.append_assoc, Nat.one_mul]
    refine ih (hs.thread (by omega) hnot) (by omega) fun k hk => ?_
    rcases List.mem_cons.mp hk with rfl | hk
    · exact Or.inr (Nat.le_refl _)
    · have := hnew k hk
      omega

theorem threadDown_frame (lo n : ℕ) (s : Words) :
    (∀ k, k < lo ∨ lo + n ≤ k → (s.threadDown lo ((lo + n : ℕ) - 1)).htab k = s.htab k) ∧
      ∃ htab hfreelist, s.threadDown lo ((lo + n : ℕ) - 1) =
        { s with htab := htab, hfreelist := hfreelist } := by
  induction n generalizing s with
  | zero =>
    rw [threadDown_zero]
    exact ⟨fun _ _ => rfl, s.htab, s.hfreelist, rfl⟩
  | succ n ih =>
    obtain ⟨hframe, htab, hfreelist, heq⟩ := ih (s.thread (lo + n : ℕ))
    rw [threadDown_succ]
    refine ⟨fun k hk => ?_, htab, hfreelist, heq⟩
    have hne : k ≠ lo + n := by omega
    rw [hframe k (by omega)]
    exact update_of_ne hne _ _

/-- The object that a word refers to. -/
def object (x : UInt32) : Option UInt32 := if hused x then some (hobj x) else none

theorem object_eq_none {x : UInt32} : object x = none ↔ hused x = false := by
  unfold object
  split_ifs with hx
  · simp [hx]
  · simpa using hx

theorem hused_of_object {x : UInt32} (hx : object x = some o) : hused x = true := by
  by_contra hu
  rw [object_eq_none.mpr (by simpa using hu)] at hx
  simp at hx

@[simp] theorem object_protect (x : UInt32) : object (x ||| hprotectBit) = object x := by
  simp [object]

@[simp] theorem object_unprotect (x : UInt32) : object (x &&& ~~~hprotectBit) = object x := by
  simp [object]

theorem object_self (ho : KernelObject o) : object o = some o := by
  obtain ⟨hu, hobj, -⟩ := ho.word
  rw [Words.object, if_pos hu, hobj]

theorem hlookup_eq (s : Words) (h : ℤ) :
    s.hlookup h = if h < 0 ∨ s.htabsize ≤ h then none else object (s.htab h.toNat) := rfl

theorem hlookup_natCast (hk : k < s.htabsize) : s.hlookup k = object (s.htab k) := by
  rw [hlookup_eq, if_neg (by omega), Int.toNat_natCast]

theorem hlookup_some (ho : s.hlookup h = some o) :
    ∃ k : ℕ, h = k ∧ k < s.htabsize ∧ object (s.htab k) = some o := by
  rw [hlookup_eq] at ho
  split_ifs at ho with hr
  refine ⟨h.toNat, by omega, by omega, ho⟩

/-- The number of entries that refer to `o`. -/
def references (htab : ℕ → UInt32) (htabsize : ℕ) (o : UInt32) : ℕ :=
  ((Finset.range htabsize).filter fun k => object (htab k) = some o).card

theorem references_update (htab : ℕ → UInt32) {n : ℕ} (hk : k < n) (x o : UInt32) :
    references (update htab k x) n o + (if object (htab k) = some o then 1 else 0) =
      references htab n o + if object x = some o then 1 else 0 := by
  have hm : k ∈ Finset.range n := Finset.mem_range.mpr hk
  have hrest : ∑ j ∈ (Finset.range n).erase k,
      (if object (update htab k x j) = some o then 1 else 0) =
      ∑ j ∈ (Finset.range n).erase k, if object (htab j) = some o then 1 else 0 := by
    refine Finset.sum_congr rfl fun j hj => ?_
    rw [update_of_ne (Finset.ne_of_mem_erase hj)]
  rw [references, references, Finset.card_filter, Finset.card_filter,
    ← Finset.add_sum_erase _ _ hm, ← Finset.add_sum_erase (Finset.range n)
      (fun k => if object (htab k) = some o then 1 else 0) hm, update_self]
  omega

theorem references_grow {htab htab' : ℕ → UInt32} {n m : ℕ} (hnm : n ≤ m)
    (hold : ∀ k, k < n → htab' k = htab k) (hnew : ∀ k, n ≤ k → k < m → hused (htab' k) = false)
    (o : UInt32) : references htab' m o = references htab n o := by
  unfold references
  congr 1
  ext k
  simp only [Finset.mem_filter, Finset.mem_range]
  constructor
  · rintro ⟨hk, ho⟩
    by_cases hlt : k < n
    · exact ⟨hlt, hold k hlt ▸ ho⟩
    · rw [object_eq_none.mpr (hnew k (by omega) hk)] at ho
      simp at ho
  · rintro ⟨hk, ho⟩
    exact ⟨by omega, by rwa [hold k hk]⟩

/-- The free list, the history and the counts. -/
structure Inv (s : Words) (fl : List ℕ) : Prop where
  free : s.Free fl
  free_iff : ∀ k, k ∈ fl ↔ k < s.htabsize ∧ hused (s.htab k) = false
  size : ∃ n, s.htabsize = handlesPerPage * n ∧ s.htabsize ≤ htabLimit
  owner : ∀ h, s.owner h = s.hlookup h
  guarded : ∀ h, s.guarded h = true → s.hlookup h ≠ none ∧ hprot (s.htab h.toNat) = true
  count : ∀ o, (s.handleCount o).toNat = references s.htab s.htabsize o % 2 ^ 16

theorem inv_emptyTable (htab : ℕ → UInt32) : (emptyTable htab).Inv [] := by
  refine ⟨⟨rfl, ?_, by simp⟩, by simp [emptyTable], ⟨0, rfl, Nat.zero_le _⟩, fun h => ?_,
    by simp [emptyTable], fun o => rfl⟩
  · change hused hend = false
    decide
  · rw [hlookup_eq, if_pos]
    · rfl
    · change h < 0 ∨ ((0 : ℕ) : ℤ) ≤ h
      omega

theorem hlookup_grow {t : Words} (hnm : s.htabsize ≤ t.htabsize)
    (hold : ∀ k, k < s.htabsize → t.htab k = s.htab k)
    (hnew : ∀ k, s.htabsize ≤ k → k < t.htabsize → hused (t.htab k) = false) (h : ℤ) :
    t.hlookup h = s.hlookup h := by
  rw [hlookup_eq, hlookup_eq]
  by_cases hr : h < 0 ∨ t.htabsize ≤ h
  · rw [if_pos hr, if_pos (by omega)]
  · rw [if_neg hr]
    by_cases hlt : s.htabsize ≤ h
    · rw [if_pos (Or.inr hlt), object_eq_none.mpr (hnew h.toNat (by omega) (by omega))]
    · rw [if_neg (by omega), hold h.toNat (by omega)]

theorem Inv.expandHtab (hs : s.Inv fl) :
    s.expandHtab.1 = s ∧ s.expandHtab.2 < 0 ∨
      s.expandHtab.2 = 0 ∧ ∃ k fl', s.expandHtab.1.Inv (k :: fl') := by
  unfold Words.expandHtab
  split_ifs with hfull
  · refine Or.inl ⟨rfl, ?_⟩
    change -ENFILE < 0
    decide
  right
  obtain ⟨n, hn, hlim⟩ := hs.size
  have hroom : s.htabsize + handlesPerPage ≤ htabLimit := by
    simp only [handlesPerPage, htabLimit] at hn hlim hfull ⊢
    omega
  have hcast : (s.htabsize : ℤ) + (handlesPerPage : ℕ) - 1 = (s.htabsize + handlesPerPage : ℕ) - 1 := by
    omega
  have hfree := hs.free.threadDown hroom fun k hk => Or.inl ((hs.free_iff k).mp hk).1
  obtain ⟨hframe, htab, hfreelist, heq⟩ := threadDown_frame s.htabsize handlesPerPage s
  rw [hcast]
  rw [heq] at hfree hframe ⊢
  have hrange : List.range' s.htabsize handlesPerPage =
    s.htabsize :: List.range' (s.htabsize + 1) (handlesPerPage - 1) := List.range'_succ ..
  refine ⟨rfl, s.htabsize, List.range' (s.htabsize + 1) (handlesPerPage - 1) ++ fl, ?_⟩
  rw [← List.cons_append, ← hrange]
  have hold (k : ℕ) (hk : k < s.htabsize) : htab k = s.htab k := hframe k (Or.inl hk)
  have hnew (k : ℕ) (hk : s.htabsize ≤ k) (hk' : k < s.htabsize + handlesPerPage) :
      hused (htab k) = false :=
    hfree.unused k (List.mem_append_left _ (List.mem_range'_1.mpr ⟨hk, hk'⟩))
  have hlookup (h : ℤ) := hlookup_grow (t := { s with
    htab := htab, hfreelist := hfreelist, htabsize := s.htabsize + handlesPerPage })
    (Nat.le_add_right _ _) hold hnew h
  refine ⟨⟨hfree.chain, hfree.word, hfree.unused⟩, fun k => ?_, ⟨n + 1, ?_, hroom⟩, fun h => ?_,
    fun h hg => ?_, fun o => ?_⟩
  · rw [List.mem_append, List.mem_range'_1]
    constructor
    · rintro (hk | hk)
      · exact ⟨hk.2, hnew k hk.1 hk.2⟩
      · obtain ⟨hlt, hu⟩ := (hs.free_iff k).mp hk
        rw [← hold k hlt] at hu
        exact ⟨Nat.lt_add_right _ hlt, hu⟩
    · rintro ⟨hlt, hu⟩
      by_cases hk : k < s.htabsize
      · exact Or.inr ((hs.free_iff k).mpr ⟨hk, hold k hk ▸ hu⟩)
      · exact Or.inl ⟨by omega, hlt⟩
  · rw [hn, Nat.mul_succ]
  · rw [hlookup]
    exact hs.owner h
  · rw [hlookup]
    obtain ⟨hfound, hprot⟩ := hs.guarded h hg
    obtain ⟨o, ho⟩ := Option.ne_none_iff_exists'.mp hfound
    obtain ⟨k, rfl, hk, -⟩ := hlookup_some ho
    rw [Int.toNat_natCast, ← hold k hk] at hprot
    exact ⟨hfound, hprot⟩
  · rw [references_grow (Nat.le_add_right _ _) hold hnew]
    exact hs.count o

theorem hlookup_update {t : Words} {x : UInt32} (hk : k < s.htabsize)
    (htab : t.htab = update s.htab k x) (hsize : t.htabsize = s.htabsize) (h : ℤ) :
    t.hlookup h = if h = k then object x else s.hlookup h := by
  rw [hlookup_eq, hlookup_eq, htab, hsize]
  rcases eq_or_ne h k with rfl | hne
  · rw [if_neg (by omega), if_pos rfl, Int.toNat_natCast, update_self]
  · rw [if_neg hne]
    by_cases hr : h < 0 ∨ s.htabsize ≤ h
    · rw [if_pos hr, if_pos hr]
    · rw [if_neg hr, if_neg hr, update_of_ne (by omega)]

theorem Inv.take (hs : s.Inv (k :: fl)) (ho : KernelObject o) : Inv { s with
    hfreelist := s.htab k
    htab := update s.htab k o
    handleCount := update s.handleCount o (s.handleCount o + 1)
    owner := update s.owner k (some o) } fl := by
  obtain ⟨hused, -, -⟩ := ho.word
  obtain ⟨hk, hfree⟩ := (hs.free_iff k).mp List.mem_cons_self
  obtain ⟨hnot, -⟩ := List.nodup_cons.mp hs.free.chain.nodup
  have hne (j : ℕ) (hj : j ∈ fl) : j ≠ k := fun e => hnot (e ▸ hj)
  have hlookup := hlookup_update (t := { s with
    hfreelist := s.htab k
    htab := update s.htab k o
    handleCount := update s.handleCount o (s.handleCount o + 1)
    owner := update s.owner k (some o) }) hk rfl rfl
  refine ⟨⟨?_, hfree, fun j hj => ?_⟩, fun j => ?_, hs.size, fun h => ?_, fun h hg => ?_, fun p => ?_⟩
  · refine hs.free.chain.2.congr fun j hj => ?_
    simp [hne j hj]
  · simpa [hne j hj] using hs.free.unused j (List.mem_cons_of_mem _ hj)
  · have := hs.free_iff j
    rcases eq_or_ne j k with rfl | hjk
    · simp [hnot, hused]
    · simpa [hjk] using this
  · rw [hlookup]
    rcases eq_or_ne h k with rfl | hhk
    · simp [object_self ho]
    · simpa [hhk] using hs.owner h
  · obtain ⟨hfound, hp⟩ := hs.guarded h hg
    have hhk : h ≠ k := by
      rintro rfl
      rw [hlookup_natCast hk, object_eq_none.mpr hfree] at hfound
      exact hfound rfl
    rw [hlookup, if_neg hhk]
    obtain ⟨p, hp'⟩ := Option.ne_none_iff_exists'.mp hfound
    obtain ⟨j, rfl, -, -⟩ := hlookup_some hp'
    have hjk : j ≠ k := fun e => hhk (by rw [e])
    exact ⟨hfound, by simpa [hjk] using hp⟩
  · have hcount := hs.count p
    have href := references_update s.htab hk o p
    rw [object_eq_none.mpr hfree, object_self ho] at href
    rcases eq_or_ne p o with rfl | hpo
    · simp only [reduceCtorEq, if_false, if_true] at href
      simp only [update_self, UInt16.toNat_add, UInt16.toNat_one]
      omega
    · simp only [reduceCtorEq, if_false, Nat.add_zero, Option.some.injEq, hpo.symm] at href
      simp only [update_of_ne hpo, href, hcount]

theorem Inv.halloc (hs : s.Inv fl) (ho : KernelObject o) : ∃ fl', (s.halloc o).1.Inv fl' := by
  have htake {t : Words} {k : ℕ} {fl' : List ℕ} (ht : t.Inv (k :: fl')) : ∃ fl', Inv { t with
      hfreelist := t.htab t.hfreelist.toNat
      htab := update t.htab t.hfreelist.toNat o
      handleCount := update t.handleCount o (t.handleCount o + 1)
      owner := update t.owner t.hfreelist.toNat (some o) } fl' := by
    have hhead : link t.hfreelist = some k := ht.free.chain.1
    have hk : t.hfreelist.toNat = k := by
      unfold link at hhead
      split_ifs at hhead
      exact Option.some.inj hhead
    rw [hk]
    exact ⟨fl', ht.take ho⟩
  unfold Words.halloc
  by_cases hend : s.hfreelist = hend
  · simp only [hend, if_true]
    rcases hs.expandHtab with ⟨hsame, hneg⟩ | ⟨hzero, k, fl', hgrown⟩
    · rw [if_pos hneg, hsame]
      exact ⟨fl, hs⟩
    · rw [if_neg (by omega)]
      exact htake hgrown
  · simp only [hend]
    cases fl with
    | nil =>
      have hnone : link s.hfreelist = none := hs.free.chain
      simp [link, hend] at hnone
    | cons k fl' => exact htake hs

theorem Inv.hfree (hs : s.Inv fl) (h : ℤ) : ∃ fl', (s.hfree h).1.Inv fl' := by
  unfold Words.hfree
  split
  · exact ⟨fl, hs⟩
  · rename_i o ho
    split_ifs with hp
    · exact ⟨fl, hs⟩
    obtain ⟨k, rfl, hk, hobj⟩ := hlookup_some ho
    have hused := hused_of_object hobj
    have hnot : k ∉ fl := fun hm => by simp [((hs.free_iff k).mp hm).2] at hused
    have hlim : k < htabLimit := Nat.lt_of_lt_of_le hk hs.size.choose_spec.2
    have hfree := hs.free.thread hlim hnot
    have hlast := object_eq_none.mpr hs.free.word
    have hlookup := hlookup_update (t := { s with
      htab := update s.htab k s.hfreelist
      hfreelist := UInt32.ofNat k
      handleCount := update s.handleCount o (s.handleCount o - 1)
      owner := update s.owner k none }) hk rfl rfl
    refine ⟨k :: fl, ⟨hfree.chain, hfree.word, hfree.unused⟩, fun j => ?_, hs.size, fun h => ?_,
      fun h hg => ?_, fun p => ?_⟩
    · have := hs.free_iff j
      rcases eq_or_ne j k with rfl | hjk
      · simpa [hk] using hs.free.word
      · simpa [hjk] using this
    · refine Eq.trans ?_ (hlookup h).symm
      rcases eq_or_ne h k with rfl | hhk
      · simp [hlast]
      · simpa [hhk] using hs.owner h
    · obtain ⟨hfound, hprot⟩ := hs.guarded h hg
      have hhk : h ≠ k := by
        rintro rfl
        exact hp hprot
      have hfound' := hlookup h
      rw [if_neg hhk] at hfound'
      obtain ⟨p, hp'⟩ := Option.ne_none_iff_exists'.mp hfound
      obtain ⟨j, rfl, -, -⟩ := hlookup_some hp'
      have hjk : j ≠ k := fun e => hhk (by rw [e])
      exact ⟨fun e => hfound (hfound'.symm.trans e), by simpa [hjk] using hprot⟩
    · have hcount := hs.count p
      have href := references_update s.htab hk s.hfreelist p
      rw [hobj, hlast] at href
      rcases eq_or_ne p o with rfl | hpo
      · simp only [reduceCtorEq, if_false, if_true] at href
        simp only [Int.toNat_natCast, update_self, UInt16.toNat_sub, UInt16.toNat_one]
        omega
      · simp only [reduceCtorEq, if_false, Nat.add_zero, Option.some.injEq, hpo.symm] at href
        simp only [Int.toNat_natCast, update_of_ne hpo, href, hcount]

theorem Inv.reword (hs : s.Inv fl) (hk : k < s.htabsize) {x : UInt32}
    (hx : object x = object (s.htab k)) (ho : object (s.htab k) = some o) {b : Bool}
    (hb : b = true → hprot x = true) :
    Inv { s with
      htab := update s.htab k x
      guarded := update s.guarded k b } fl := by
  have hused := hused_of_object ho
  have hxused := hused_of_object (hx.trans ho)
  have hnot : k ∉ fl := fun hm => by simp [((hs.free_iff k).mp hm).2] at hused
  have hne (j : ℕ) (hj : j ∈ fl) : j ≠ k := fun e => hnot (e ▸ hj)
  have hlookup (h : ℤ) : hlookup { s with
      htab := update s.htab k x
      guarded := update s.guarded k b } h = s.hlookup h := by
    rw [hlookup_update (t := { s with
      htab := update s.htab k x
      guarded := update s.guarded k b }) hk rfl rfl]
    split_ifs with hh
    · rw [hh, hlookup_natCast hk, hx]
    · rfl
  refine ⟨⟨?_, hs.free.word, fun j hj => ?_⟩, fun j => ?_, hs.size, fun h => ?_, fun h hg => ?_,
    fun p => ?_⟩
  · refine hs.free.chain.congr fun j hj => ?_
    simp [hne j hj]
  · simpa [hne j hj] using hs.free.unused j hj
  · have := hs.free_iff j
    rcases eq_or_ne j k with rfl | hjk
    · simp [hnot, hxused]
    · simpa [hjk] using this
  · rw [hlookup]
    exact hs.owner h
  · rw [hlookup]
    rcases eq_or_ne h k with rfl | hhk
    · refine ⟨?_, by simpa using hb (by simpa using hg)⟩
      rw [hlookup_natCast hk, ho]
      simp
    · obtain ⟨hfound, hprot⟩ := hs.guarded h (by simpa [hhk] using hg)
      obtain ⟨p, hp'⟩ := Option.ne_none_iff_exists'.mp hfound
      obtain ⟨j, rfl, -, -⟩ := hlookup_some hp'
      have hjk : j ≠ k := fun e => hhk (by rw [e])
      exact ⟨hfound, by simpa [hjk] using hprot⟩
  · have href := references_update s.htab hk x p
    rw [hx] at href
    rw [hs.count p, Nat.add_right_cancel href]

theorem Inv.step {l : WordCall} (hs : s.Inv fl) (hok : s.Kernel l) (hl : s.step l = some s') :
    ∃ fl', s'.Inv fl' := by
  cases l with
  | halloc o =>
    obtain rfl := Option.some.inj hl
    exact hs.halloc hok
  | hfree h =>
    obtain rfl := Option.some.inj hl
    exact hs.hfree h
  | hprotect h =>
    obtain rfl := Option.some.inj hl
    unfold Words.hprotect
    split
    · exact ⟨fl, hs⟩
    · rename_i o ho
      obtain ⟨k, rfl, hk, hobj⟩ := hlookup_some ho
      exact ⟨fl, hs.reword hk (object_protect _) hobj fun _ => hprot_protect _⟩
  | hunprotect h =>
    obtain rfl := Option.some.inj hl
    unfold Words.hunprotect
    split
    · exact ⟨fl, hs⟩
    · rename_i o ho
      obtain ⟨k, rfl, hk, hobj⟩ := hlookup_some ho
      exact ⟨fl, hs.reword hk (object_unprotect _) hobj (by simp)⟩
  | expandHtab =>
    obtain rfl := Option.some.inj hl
    rcases hs.expandHtab with ⟨hsame, -⟩ | ⟨-, k, fl', hgrown⟩
    · rw [hsame]
      exact ⟨fl, hs⟩
    · exact ⟨k :: fl', hgrown⟩

end Words

end SimpleKernel.Handle
