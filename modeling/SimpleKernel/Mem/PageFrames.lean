import Mathlib.Data.List.Perm.Subperm
import SimpleKernel.Lib.Chain
import SimpleKernel.Lib.Transition
import SimpleKernel.Mem.Vm

/-! The page frame database of `pframe.c`: the free frames are on a singly linked list, and the
allocator of consecutive frames looks for a run that the list passes through in order. -/
namespace SimpleKernel.Mem.PageFrames
open Function (update update_of_ne update_self)

open LinkedList Transition

/-- The database: tag and link of each frame, the head of the free list, the number of free frames
and the first frame there is not. -/
structure Frames where
  tag : ℕ → UInt32
  next : ℕ → Option ℕ
  freelist : Option ℕ
  freemem : ℕ
  maxmem : ℕ

/-- `none` stands for the panic and for a fault at an empty list. -/
def allocPageframe (f : Frames) (tag : UInt32) : Option (ℕ × Frames) :=
  if f.freemem = 0 then none
  else
    match f.freelist with
    | none => none
    | some pf =>
      some (pf, { f with
        freelist := f.next pf
        freemem := f.freemem - 1
        tag := update f.tag pf tag
        next := update f.next pf none })

/-- `pages` frames from `pf` on are tagged as free, and each links to the one behind it. -/
def isRun (f : Frames) (pages pf : ℕ) : Bool :=
  (List.range pages).all fun n => f.tag (pf + n) == tagFree && (n == 0 || f.next (pf + n - 1) == some (pf + n))

/-- The test on a frame of the free list. The loop over the frames does not run for `pages < 0`. -/
def startsRun (f : Frames) (pages : ℤ) (pf : ℕ) : Bool :=
  decide (pf + pages < f.maxmem) && (isRun f pages.toNat pf && decide (pages.toNat = pages))

/-- The frames `pf` to `pf + pages - 1` leave the list behind `prev`. -/
def cut (f : Frames) (prev : Option ℕ) (pf pages : ℕ) (tag : UInt32) : Frames :=
  let rest := f.next (pf + pages - 1)
  let next := match prev with
    | none => f.next
    | some p => update f.next p rest
  { f with
    freelist := if prev = none then rest else f.freelist
    freemem := f.freemem - pages
    tag := fun i => if pf ≤ i ∧ i < pf + pages then tag else f.tag i
    next := fun i => if pf ≤ i ∧ i < pf + pages then none else next i }

/-- The answer `none` inside stands for `0xFFFFFFFF`. For `pages = 0` the code reads the link in front
of frame `pf`. -/
def allocLinearPageframes (f : Frames) (pages : ℤ) (tag : UInt32) : Option (Option ℕ × Frames) :=
  if pages = 1 then (allocPageframe f tag).map fun r => (some r.1, r.2)
  else if f.freemem < pages then some (none, f)
  else
    match search f.next (startsRun f pages) f.maxmem none f.freelist with
    | none => none
    | some none => some (none, f)
    | some (some (prev, pf)) => if pf + pages.toNat = 0 then none else some (some pf, cut f prev pf pages.toNat tag)

def freePageframe (f : Frames) (pfn : ℕ) : Frames :=
  { f with
    tag := update f.tag pfn tagFree
    next := update f.next pfn f.freelist
    freelist := some pfn
    freemem := f.freemem + 1 }

/-- The last loop of `init_pfdb`, for the frames below `n`. -/
def insertFree (f : Frames) : ℕ → Frames
  | 0 => f
  | n + 1 =>
    insertFree (if f.tag n = tagFree then
      { f with next := update f.next n f.freelist, freelist := some n, freemem := f.freemem + 1 } else f) n

/-- The database behind `init_pfdb`, with the tags that the frames got from the memory map. -/
def initPfdb (maxmem : ℕ) (tag : ℕ → UInt32) : Frames :=
  insertFree { tag, next := fun _ => none, freelist := none, freemem := 0, maxmem } maxmem

/-- What happened to the frames, the latest event first. -/
inductive Event where
  | out (pf pages : ℕ) (tag : UInt32)
  | back (pfn : ℕ)
deriving DecidableEq

/-- The tag that was asked for when frame `i` was handed out, or the one it has from the start;
`none` when the frame is not in use. -/
def held (maxmem : ℕ) (tag : ℕ → UInt32) : List Event → ℕ → Option UInt32
  | [], i => if i < maxmem ∧ tag i ≠ tagFree then some (tag i) else none
  | .out pf pages t :: log, i => if pf ≤ i ∧ i < pf + pages then some t else held maxmem tag log i
  | .back pfn :: log, i => if i = pfn then none else held maxmem tag log i

inductive Call where
  | alloc (tag : UInt32)
  | linear (pages : ℤ) (tag : UInt32)
  | free (pfn : ℕ)

structure Logged where
  frames : Frames
  log : List Event

def record (s : Logged) (pages : ℕ) (tag : UInt32) : Option ℕ × Frames → Logged
  | (none, f) => ⟨f, s.log⟩
  | (some pf, f) => ⟨f, .out pf pages tag :: s.log⟩

def step (s : Logged) : Call → Option Logged
  | .alloc tag => (allocPageframe s.frames tag).map fun r => record s 1 tag (some r.1, r.2)
  | .linear pages tag => (allocLinearPageframes s.frames pages tag).map (record s pages.toNat tag)
  | .free pfn => some ⟨freePageframe s.frames pfn, .back pfn :: s.log⟩

/-- Every `out` event concerns frames that are not in use before it. -/
def SoundLog (maxmem : ℕ) (tag : ℕ → UInt32) : List Event → Prop
  | [] => True
  | .out pf pages _ :: log =>
    (∀ i, pf ≤ i → i < pf + pages → held maxmem tag log i = none) ∧ SoundLog maxmem tag log
  | .back _ :: log => SoundLog maxmem tag log

/-- The list `l` is the free list, and it holds the frames that are not in use. -/
structure Listed (maxmem : ℕ) (tag : ℕ → UInt32) (s : Logged) (l : List ℕ) : Prop where
  top : s.frames.maxmem = maxmem
  chain : Chain s.frames.next s.frames.freelist l
  size : l.length = s.frames.freemem
  mem : ∀ i, i ∈ l ↔ i < maxmem ∧ held maxmem tag s.log i = none
  free : ∀ i ∈ l, s.frames.tag i = tagFree
  inUse : ∀ i t, held maxmem tag s.log i = some t → i < maxmem ∧ s.frames.tag i = t
  sound : SoundLog maxmem tag s.log

/-- The frames `pf` to `pf + pages - 1` are taken out of the list `l`, which leaves `l'`. -/
structure Taken (f f' : Frames) (pf pages : ℕ) (tag : UInt32) (l l' : List ℕ) : Prop where
  below : pf + pages ≤ f.maxmem
  parts : ∃ ys zs, l = ys ++ List.range' pf pages ++ zs ∧ l' = ys ++ zs
  chain : Chain f'.next f'.freelist l'
  freemem : f'.freemem + pages = f.freemem
  tags : f'.tag = fun i => if pf ≤ i ∧ i < pf + pages then tag else f.tag i
  maxmem : f'.maxmem = f.maxmem

variable {f f' : Frames} {maxmem pf pages n : ℕ} {tag : ℕ → UInt32} {t : UInt32} {l l' zs : List ℕ} {s : Logged}

theorem run_prefix (hc : Chain f.next (some pf) (pf :: zs))
    (hlinks : ∀ n, 0 < n → n < pages → f.next (pf + n - 1) = some (pf + n)) (hpos : 0 < pages) :
    ∃ ws, pf :: zs = List.range' pf pages ++ ws ∧ f.next (pf + pages - 1) = ws.head? := by
  induction pages generalizing pf zs with
  | zero => omega
  | succ k ih =>
    cases k with
    | zero =>
      refine ⟨zs, rfl, ?_⟩
      exact hc.2.head
    | succ k =>
      have hfirst : f.next pf = some (pf + 1) := hlinks 1 (by omega) (by omega)
      have hrest := hc.2
      rw [hfirst] at hrest
      cases zs with
      | nil => exact absurd hrest (by simp [Chain])
      | cons a zs =>
        obtain rfl : pf + 1 = a := Option.some.inj hrest.1
        have hnext : ∀ n, 0 < n → n < k + 1 → f.next (pf + 1 + n - 1) = some (pf + 1 + n) := by
          intro n h0 hn
          have := hlinks (n + 1) (by omega) (by omega)
          rwa [show pf + (n + 1) = pf + 1 + n by omega] at this
        obtain ⟨ws, hws, hlast⟩ := ih hrest hnext (by omega)
        refine ⟨ws, ?_, ?_⟩
        · rw [hws]
          rfl
        · rwa [show pf + (k + 1 + 1) - 1 = pf + 1 + (k + 1) - 1 by omega]

theorem isRun_spec (h : isRun f pages pf = true) :
    (∀ n < pages, f.tag (pf + n) = tagFree) ∧
      ∀ n, 0 < n → n < pages → f.next (pf + n - 1) = some (pf + n) := by
  have hall : ∀ n < pages, f.tag (pf + n) = tagFree ∧ (n = 0 ∨ f.next (pf + n - 1) = some (pf + n)) := by
    simpa [isRun] using h
  constructor
  · intro n hn
    exact (hall n hn).1
  · intro n h0 hn
    exact (hall n hn).2.resolve_left (by omega)

theorem cut_taken {ys ws : List ℕ} (hc : Chain f.next f.freelist (ys ++ (List.range' pf pages ++ ws)))
    (hlast : f.next (pf + pages - 1) = ws.head?) (hbelow : pf + pages ≤ f.maxmem)
    (hmem : (ys ++ (List.range' pf pages ++ ws)).length = f.freemem) :
    Taken f (cut f ys.getLast? pf pages t) pf pages t (ys ++ (List.range' pf pages ++ ws)) (ys ++ ws) where
  below := hbelow
  parts := ⟨ys, ws, by simp, rfl⟩
  freemem := by
    simp only [List.length_append, List.length_range'] at hmem
    simp only [cut]
    omega
  tags := rfl
  maxmem := rfl
  chain := by
    have hnodup := hc.nodup
    have hout : ∀ i ∈ ys ++ ws, ¬(pf ≤ i ∧ i < pf + pages) := by
      intro i hi hrun
      have hin : i ∈ List.range' pf pages := List.mem_range'_1.mpr hrun
      rw [List.nodup_append, List.nodup_append] at hnodup
      rcases List.mem_append.mp hi with hy | hw
      · exact hnodup.2.2 i hy i (List.mem_append_left _ hin) rfl
      · exact hnodup.2.1.2.2 i hin i hw rfl
    have hws : Chain f.next ws.head? ws := by
      rw [← List.append_assoc] at hc
      exact hc.suffix
    rcases ys.eq_nil_or_concat with rfl | ⟨xs, b, rfl⟩
    · have hcut : Chain f.next (cut f none pf pages t).freelist ws := by simpa [cut, hlast] using hws
      apply hcut.congr
      intro i hi
      exact if_neg (hout i hi)
    · have hb : b ∉ ws := by
        intro hb
        rw [List.nodup_append] at hnodup
        exact hnodup.2.2 b (by simp) b (by simp [hb]) rfl
      have hc' : Chain f.next f.freelist (xs ++ b :: (List.range' pf pages ++ ws)) := by simpa using hc
      have hback := hc'.redirect hws hb
      have hcut : Chain (update f.next b ws.head?)
          (cut f (xs.concat b).getLast? pf pages t).freelist (xs.concat b ++ ws) := by
        simpa [cut] using hback
      apply hcut.congr
      intro i hi
      simp only [cut, List.concat_eq_append, List.getLast?_append_cons, hlast]
      exact if_neg (hout i hi)

theorem Taken.mem (h : Taken f f' pf pages t l l') (hnodup : l.Nodup) (i : ℕ) :
    i ∈ l' ↔ i ∈ l ∧ ¬(pf ≤ i ∧ i < pf + pages) := by
  obtain ⟨ys, zs, rfl, rfl⟩ := h.parts
  rw [List.append_assoc, List.nodup_append, List.nodup_append] at hnodup
  have hmem : i ∈ List.range' pf pages ↔ pf ≤ i ∧ i < pf + pages := List.mem_range'_1
  simp only [List.mem_append, ← hmem]
  constructor
  · rintro (hy | hz)
    · exact ⟨.inl (.inl hy), fun hin => hnodup.2.2 i hy i (List.mem_append_left _ hin) rfl⟩
    · exact ⟨.inr hz, fun hin => hnodup.2.1.2.2 i hin i hz rfl⟩
  · rintro ⟨(hy | hin) | hz, hout⟩
    · exact .inl hy
    · exact absurd hin hout
    · exact .inr hz

theorem Taken.length (h : Taken f f' pf pages t l l') : l'.length + pages = l.length := by
  obtain ⟨ys, zs, rfl, rfl⟩ := h.parts
  simp
  omega

theorem Taken.run_mem (h : Taken f f' pf pages t l l') {i : ℕ} (hi : pf ≤ i) (hi' : i < pf + pages) : i ∈ l := by
  obtain ⟨ys, zs, rfl, -⟩ := h.parts
  have hin : i ∈ List.range' pf pages := List.mem_range'_1.mpr ⟨hi, hi'⟩
  simp [hin]

namespace Listed

theorem below (h : Listed maxmem tag s l) {i : ℕ} (hi : i ∈ l) : i < s.frames.maxmem := by
  rw [h.top]
  exact ((h.mem i).mp hi).1

theorem take (h : Listed maxmem tag s l) (ht : Taken s.frames f' pf pages t l l') :
    Listed maxmem tag ⟨f', .out pf pages t :: s.log⟩ l' where
  top := ht.maxmem.trans h.top
  chain := ht.chain
  size := by
    have hlen := ht.length
    have hfree := ht.freemem
    have hsize := h.size
    show l'.length = f'.freemem
    omega
  mem i := by
    rw [ht.mem h.chain.nodup, h.mem, held]
    by_cases hin : pf ≤ i ∧ i < pf + pages <;> simp [hin]
  free i hi := by
    have hold := (ht.mem h.chain.nodup i).mp hi
    rw [ht.tags]
    exact (if_neg hold.2).trans (h.free i hold.1)
  inUse i u hu := by
    rw [held] at hu
    rw [ht.tags]
    split_ifs at hu with hin
    · have hi := ht.run_mem hin.1 hin.2
      exact ⟨((h.mem i).mp hi).1, (if_pos hin).trans (Option.some.inj hu)⟩
    · obtain ⟨hlt, htag⟩ := h.inUse i u hu
      exact ⟨hlt, (if_neg hin).trans htag⟩
  sound := by
    refine ⟨fun i hi hi' => ?_, h.sound⟩
    exact ((h.mem i).mp (ht.run_mem hi hi')).2

theorem give (h : Listed maxmem tag s l) {pfn : ℕ} (hheld : (held maxmem tag s.log pfn).isSome) :
    Listed maxmem tag ⟨freePageframe s.frames pfn, .back pfn :: s.log⟩ (pfn :: l) := by
  obtain ⟨u, hu⟩ := Option.isSome_iff_exists.mp hheld
  have hout : pfn ∉ l := by
    intro hmem
    rw [h.mem, hu] at hmem
    simp at hmem
  refine ⟨h.top, h.chain.push hout, ?_, fun i => ?_, fun i hi => ?_, fun i v hv => ?_, h.sound⟩
  · show l.length + 1 = s.frames.freemem + 1
    rw [h.size]
  · rw [List.mem_cons, h.mem, held]
    by_cases heq : i = pfn
    · have hlt := (h.inUse pfn u hu).1
      simp [heq, hlt]
    · simp [heq]
  · show update s.frames.tag pfn tagFree i = tagFree
    rcases List.mem_cons.mp hi with rfl | hi
    · exact update_self _ _ _
    · have hne : i ≠ pfn := ne_of_mem_of_not_mem hi hout
      rw [update_of_ne hne]
      exact h.free i hi
  · rw [held] at hv
    split_ifs at hv with heq
    show i < maxmem ∧ update s.frames.tag pfn tagFree i = v
    rw [update_of_ne heq]
    exact h.inUse i v hv

end Listed

theorem allocPageframe_spec (hc : Chain f.next f.freelist l) (hsize : l.length = f.freemem)
    (hbelow : ∀ i ∈ l, i < f.maxmem) (t : UInt32) :
    (l = [] ∧ allocPageframe f t = none) ∨
      ∃ pf f' l', allocPageframe f t = some (pf, f') ∧ Taken f f' pf 1 t l l' := by
  cases l with
  | nil =>
    left
    refine ⟨rfl, ?_⟩
    exact if_pos hsize.symm
  | cons pf l =>
    right
    obtain ⟨hhead, hrest⟩ := hc
    have hpos : f.freemem ≠ 0 := by
      simp only [List.length_cons] at hsize
      omega
    have hout := (List.nodup_cons.mp (Chain.nodup ⟨rfl, hrest⟩)).1
    refine ⟨pf, _, l, by rw [allocPageframe, if_neg hpos, hhead], ?_⟩
    refine ⟨hbelow pf (by simp), ⟨[], l, rfl, rfl⟩, ?_, by simp; omega, ?_, rfl⟩
    · apply hrest.congr
      intro i hi
      have hne : i ≠ pf := ne_of_mem_of_not_mem hi hout
      exact update_of_ne hne _ _
    · funext i
      by_cases heq : i = pf
      · subst heq
        simp
      · have hrun : ¬(pf ≤ i ∧ i < pf + 1) := by omega
        rw [if_neg hrun]
        exact update_of_ne heq _ _

theorem allocLinear_spec (hc : Chain f.next f.freelist l) (hsize : l.length = f.freemem)
    (hbelow : ∀ i ∈ l, i < f.maxmem) {pages : ℤ} (hpages : pages ≠ 0) (t : UInt32) :
    (pages = 1 ∧ l = [] ∧ allocLinearPageframes f pages t = none) ∨
      (pages ≠ 1 ∧ allocLinearPageframes f pages t = some (none, f)) ∨
      ∃ pf f' l', 0 < pages ∧ allocLinearPageframes f pages t = some (some pf, f') ∧
        Taken f f' pf pages.toNat t l l' := by
  rw [allocLinearPageframes]
  by_cases hone : pages = 1
  · subst hone
    rcases allocPageframe_spec hc hsize hbelow t with ⟨hnil, hnone⟩ | ⟨pf, f', l', hsome, htaken⟩
    · exact .inl ⟨rfl, hnil, by simp [hnone]⟩
    · exact .inr (.inr ⟨pf, f', l', by omega, by simp [hsome], htaken⟩)
  · rw [if_neg hone]
    right
    by_cases hfew : f.freemem < pages
    · rw [if_pos hfew]
      exact .inl ⟨hone, rfl⟩
    · rw [if_neg hfew]
      have hfuel : l.length ≤ f.maxmem := by
        have hsub : l ⊆ List.range f.maxmem := fun i hi => List.mem_range.mpr (hbelow i hi)
        simpa using (List.subperm_of_subset hc.nodup hsub).length_le
      have hsearch : (search f.next (startsRun f pages) f.maxmem none f.freelist = some none ∧ _) ∨ _ :=
        hc.search hfuel none
      rcases hsearch with ⟨hnone, -⟩ | ⟨ys, pf, zs, rfl, hfound, hsome⟩
      · rw [hnone]
        exact .inl ⟨hone, rfl⟩
      · right
        simp only [startsRun, Bool.and_eq_true, decide_eq_true_eq] at hfound
        obtain ⟨hlt, hrun, hnat⟩ := hfound
        have hpos : 0 < pages.toNat := by omega
        have hlinks := (isRun_spec hrun).2
        obtain ⟨ws, hws, hlast⟩ := run_prefix hc.suffix hlinks hpos
        rw [hws] at hc hsize ⊢
        rw [hsome, Option.or_none]
        dsimp only
        rw [if_neg (by omega)]
        refine ⟨pf, _, ys ++ ws, by omega, rfl, ?_⟩
        exact cut_taken hc hlast (by omega) hsize

theorem insertFree_spec (hc : Chain f.next f.freelist l) (hsize : l.length = f.freemem)
    (hmem : ∀ i, i ∈ l ↔ n ≤ i ∧ i < f.maxmem ∧ f.tag i = tagFree) (hn : n ≤ f.maxmem) :
    ∃ l', Chain (insertFree f n).next (insertFree f n).freelist l' ∧ l'.length = (insertFree f n).freemem ∧
      (∀ i, i ∈ l' ↔ i < f.maxmem ∧ f.tag i = tagFree) ∧
      (insertFree f n).tag = f.tag ∧ (insertFree f n).maxmem = f.maxmem := by
  induction n generalizing f l with
  | zero => exact ⟨l, hc, hsize, by simpa using hmem, rfl, rfl⟩
  | succ n ih =>
    rw [insertFree]
    have hout : n ∉ l := by
      rw [hmem]
      omega
    split_ifs with hfree
    · refine ih (hc.push hout) (by simp [hsize]) (fun i => ?_) (by show n ≤ f.maxmem; omega)
      show i ∈ n :: l ↔ n ≤ i ∧ i < f.maxmem ∧ f.tag i = tagFree
      rw [List.mem_cons, hmem]
      constructor
      · rintro (rfl | ⟨hi, hi', htag⟩)
        · exact ⟨Nat.le_refl _, by omega, hfree⟩
        · exact ⟨by omega, hi', htag⟩
      · rintro ⟨hi, hi', htag⟩
        by_cases heq : i = n
        · exact .inl heq
        · exact .inr ⟨by omega, hi', htag⟩
    · refine ih hc hsize (fun i => ?_) (by omega)
      rw [hmem]
      constructor
      · rintro ⟨hi, hrest⟩
        exact ⟨by omega, hrest⟩
      · rintro ⟨hi, hi', htag⟩
        have hne : i ≠ n := by
          rintro rfl
          exact hfree htag
        exact ⟨by omega, hi', htag⟩

theorem listed_init (maxmem : ℕ) (tag : ℕ → UInt32) : ∃ l, Listed maxmem tag ⟨initPfdb maxmem tag, []⟩ l := by
  have hstart : Chain (fun _ : ℕ => (none : Option ℕ)) none [] := rfl
  obtain ⟨l, hc, hsize, hmem, htag, hmax⟩ :=
    insertFree_spec (f := { tag, next := fun _ => none, freelist := none, freemem := 0, maxmem }) hstart rfl
      (fun i => by simp; omega) (Nat.le_refl _)
  refine ⟨l, hmax, hc, hsize, fun i => ?_, fun i hi => ?_, fun i t ht => ?_, trivial⟩
  · rw [hmem, held]
    by_cases hin : i < maxmem <;> simp [hin]
  · exact (congrFun htag i).trans ((hmem i).mp hi).2
  · simp only [held] at ht
    split_ifs at ht with hin
    exact ⟨hin.1, (congrFun htag i).trans (Option.some.inj ht)⟩

/-- Only frames in use are freed. -/
def Owned (maxmem : ℕ) (tag : ℕ → UInt32) (s : Logged) : Call → Prop
  | .free pfn => (held maxmem tag s.log pfn).isSome
  | _ => True

/-- And no run of length 0 is asked for. -/
def Sensible (maxmem : ℕ) (tag : ℕ → UInt32) (s : Logged) (c : Call) : Prop :=
  Owned maxmem tag s c ∧ ∀ t, c ≠ .linear 0 t

theorem Listed.step {c : Call} {s' : Logged} (h : Listed maxmem tag s l) (hok : Sensible maxmem tag s c)
    (hs : PageFrames.step s c = some s') : ∃ l', Listed maxmem tag s' l' := by
  have hbelow : ∀ i ∈ l, i < s.frames.maxmem := fun i hi => h.below hi
  cases c with
  | alloc t =>
    rw [PageFrames.step] at hs
    rcases allocPageframe_spec h.chain h.size hbelow t with ⟨-, hnone⟩ | ⟨pf, f', l', hsome, htaken⟩
    · simp [hnone] at hs
    · rw [hsome] at hs
      obtain rfl := Option.some.inj hs
      exact ⟨l', h.take htaken⟩
  | linear pages t =>
    have hpages : pages ≠ 0 := fun e => hok.2 t (by rw [e])
    rw [PageFrames.step] at hs
    rcases allocLinear_spec h.chain h.size hbelow hpages t with
      ⟨-, -, hnone⟩ | ⟨-, hsame⟩ | ⟨pf, f', l', -, hsome, htaken⟩
    · simp [hnone] at hs
    · rw [hsame] at hs
      obtain rfl := Option.some.inj hs
      exact ⟨l, h⟩
    · rw [hsome] at hs
      obtain rfl := Option.some.inj hs
      exact ⟨l', h.take htaken⟩
  | free pfn =>
    obtain rfl := Option.some.inj hs
    exact ⟨pfn :: l, h.give hok.1⟩

theorem Listed.runs {s' : Logged} (h : Listed maxmem tag s l)
    (hrun : Reach PageFrames.step (Sensible maxmem tag) s s') : ∃ l', Listed maxmem tag s' l' := by
  refine hrun.invariant (P := fun s => ∃ l, Listed maxmem tag s l) ⟨l, h⟩ ?_
  rintro a c b ⟨l, ha⟩ hok hs
  exact ha.step hok hs

theorem freed_of_unused {mid log : List Event} {i : ℕ} (hi : pf ≤ i) (hi' : i < pf + pages)
    (h : held maxmem tag (mid ++ .out pf pages t :: log) i = none) : .back i ∈ mid := by
  induction mid with
  | nil => simp [held, hi, hi'] at h
  | cons e mid ih =>
    cases e with
    | out pf' pages' t' =>
      simp only [List.cons_append, held] at h
      split_ifs at h
      exact List.mem_cons_of_mem _ (ih h)
    | back pfn =>
      simp only [List.cons_append, held] at h
      split_ifs at h with heq
      · simp [heq]
      · exact List.mem_cons_of_mem _ (ih h)

theorem SoundLog.suffix {later log : List Event} (h : SoundLog maxmem tag (later ++ log)) :
    SoundLog maxmem tag log := by
  induction later with
  | nil => exact h
  | cons e later ih =>
    cases e with
    | out pf pages t => exact ih h.2
    | back pfn => exact ih h

theorem SoundLog.freed {later mid log : List Event} {pf' pages' i : ℕ} {t' : UInt32}
    (h : SoundLog maxmem tag (later ++ .out pf' pages' t' :: (mid ++ .out pf pages t :: log)))
    (hi : pf ≤ i ∧ i < pf + pages) (hi' : pf' ≤ i ∧ i < pf' + pages') : .back i ∈ mid := by
  have hout := h.suffix
  exact freed_of_unused hi.1 hi.2 (hout.1 i hi'.1 hi'.2)

/-- What a call of `alloc_linear_pageframes` for `pages` frames does when `l` is the free list. -/
def LinearOutcome (f : Frames) (pages : ℕ) (t : UInt32) (l : List ℕ) : Prop :=
  match allocLinearPageframes f pages t with
  | none => pages = 1 ∧ l = []
  | some (none, f') => 1 < pages ∧ f' = f
  | some (some pf, f') => ∃ l', Taken f f' pf pages t l l'

theorem Listed.linear (h : Listed maxmem tag s l) (hpages : 1 ≤ pages) (t : UInt32) :
    LinearOutcome s.frames pages t l := by
  rw [LinearOutcome]
  have hpos : (pages : ℤ) ≠ 0 := by omega
  rcases allocLinear_spec h.chain h.size (fun i hi => h.below hi) hpos t with
    ⟨hone, hnil, hnone⟩ | ⟨hone, hsame⟩ | ⟨pf, f', l', -, hsome, htaken⟩
  · rw [hnone]
    exact ⟨by omega, hnil⟩
  · rw [hsame]
    exact ⟨by omega, rfl⟩
  · rw [hsome]
    exact ⟨l', htaken⟩

/-- The free list holds the frames that are not in use, each once; the tag `'FREE'` marks these and
the frames that were asked for under this tag. -/
theorem freelist_runs (h : Reach PageFrames.step (Sensible maxmem tag) ⟨initPfdb maxmem tag, []⟩ s) :
    (∃ l, Chain s.frames.next s.frames.freelist l ∧ l.Nodup ∧ l.length = s.frames.freemem ∧
      (∀ i, i ∈ l ↔ i < maxmem ∧ held maxmem tag s.log i = none) ∧
      (∀ i < maxmem, s.frames.tag i = tagFree ↔ i ∈ l ∨ held maxmem tag s.log i = some tagFree) ∧
      ∀ pages t, 1 ≤ pages → LinearOutcome s.frames pages t l) ∧
    ∀ later mid earlier pf pages t pf' pages' t' i,
      s.log = later ++ .out pf' pages' t' :: (mid ++ .out pf pages t :: earlier) →
      pf ≤ i ∧ i < pf + pages → pf' ≤ i ∧ i < pf' + pages' → .back i ∈ mid := by
  obtain ⟨l0, h0⟩ := listed_init maxmem tag
  obtain ⟨l, hl⟩ := h0.runs h
  constructor
  · refine ⟨l, hl.chain, hl.chain.nodup, hl.size, hl.mem, fun i hi => ?_, fun pages t hp => hl.linear hp t⟩
    constructor
    · intro htag
      cases hheld : held maxmem tag s.log i with
      | none => exact .inl ((hl.mem i).mpr ⟨hi, hheld⟩)
      | some u =>
        have hu := (hl.inUse i u hheld).2
        exact .inr (by rw [← hu, htag])
    · rintro (hmem | hheld)
      · exact hl.free i hmem
      · exact (hl.inUse i tagFree hheld).2
  · intro later mid earlier pf pages t pf' pages' t' i hlog hi hi'
    have hsound := hl.sound
    rw [hlog] at hsound
    exact hsound.freed hi hi'

/-- Frame 0 belongs to the BIOS (`'RESV'`), the others are free. -/
def bootTag (i : ℕ) : UInt32 := if i = 0 then 0x52455356 else tagFree

theorem freelist_runs_boot :
    ∃ s, Reach PageFrames.step (Sensible 4 bootTag) ⟨initPfdb 4 bootTag, []⟩ s ∧
      s.log = [.back 1, .out 1 2 tagVm] ∧ s.frames.freemem = 2 ∧
      ∃ l, Chain s.frames.next s.frames.freelist l ∧ l.Nodup ∧ l.length = s.frames.freemem := by
  have htaken : Reach PageFrames.step (Sensible 4 bootTag) ⟨initPfdb 4 bootTag, []⟩ _ :=
    Reach.single (l := .linear 2 tagVm) ⟨trivial, by simp⟩ rfl
  have howned : held 4 bootTag [.out 1 2 tagVm] 1 = some tagVm := rfl
  have hrun := htaken.tail (l := Call.free 1) ⟨Option.isSome_of_eq_some howned, by simp⟩ rfl
  obtain ⟨⟨l, hchain, hnodup, hsize, -⟩, -⟩ := freelist_runs hrun
  exact ⟨_, hrun, rfl, rfl, l, hchain, hnodup, hsize⟩

/-- A frame that is asked for under the tag `'FREE'` looks free, and a run of length 0 loses the list. -/
theorem free_tag_off_list :
    (∃ s, Reach PageFrames.step (Owned 2 bootTag) ⟨initPfdb 2 bootTag, []⟩ s ∧ s.frames.tag 1 = tagFree ∧
      ∀ l, Chain s.frames.next s.frames.freelist l → 1 ∉ l) ∧
    ∃ s, Reach PageFrames.step (Owned 2 bootTag) ⟨initPfdb 2 bootTag, []⟩ s ∧
      ∀ l, Chain s.frames.next s.frames.freelist l → l.length ≠ s.frames.freemem := by
  constructor
  · refine ⟨_, Reach.single (l := .alloc tagFree) trivial rfl, rfl, fun l hc => ?_⟩
    have hnil : l = [] := List.head?_eq_none_iff.mp hc.head.symm
    simp [hnil]
  · refine ⟨_, Reach.single (l := .linear 0 tagVm) trivial rfl, fun l hc => ?_⟩
    have hnil : l = [] := List.head?_eq_none_iff.mp hc.head.symm
    rw [hnil]
    decide

end SimpleKernel.Mem.PageFrames
