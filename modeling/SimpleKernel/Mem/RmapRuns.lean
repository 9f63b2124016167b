import SimpleKernel.Mem.RmapSpec
import SimpleKernel.Lib.Transition
import Mathlib.Order.BooleanAlgebra.Set
import Mathlib.Tactic.Common

/-! Runs of calls of a resource map. Beside the map stands the set of the units that are handed
out at the moment. -/
namespace SimpleKernel.Mem

open Intervals Entries

/-- A call of the interface. -/
inductive RmapCall
  | init (size : UInt32)
  | alloc (size : UInt32)
  | allocAlign (size align : UInt32)
  | reserve (offset size : UInt32)
  | free (offset size : UInt32)

/-- The range at a returned index, none when the index is 0. -/
def rangeAt (idx size : UInt32) : Option (ℕ × ℕ) :=
  if idx = 0 then none else some (idx.toNat, size.toNat)

/-- The map after the call and the range that the call hands out. -/
def RmapCall.exec (m : Rmap) : RmapCall → Option (Rmap × Option (ℕ × ℕ))
  | .init size => some (m.rmapInit size, none)
  | .alloc size => some ((m.rmapAlloc size).1, rangeAt (m.rmapAlloc size).2 size)
  | .allocAlign size align =>
    (m.rmapAllocAlign size align).map fun p => (p.1, rangeAt p.2 size)
  | .reserve offset size =>
    some ((m.rmapReserve offset size).1,
      if (m.rmapReserve offset size).2 = 0 then some (offset.toNat, size.toNat) else none)
  | .free offset size => some (m.rmapFree offset size, none)

/-- A map and the units that are handed out. -/
structure Tracked where
  map : Rmap
  live : Set ℕ

namespace Tracked

/-- The units that the map has free. -/
def freeSet (t : Tracked) : Set ℕ := freeUnits t.map.entries

/-- The units of a range that was handed out. -/
def unitsOf : Option (ℕ × ℕ) → Set ℕ
  | none => ∅
  | some (a, n) => span a n

/-- The units handed out after a call that hands out `g`. -/
def liveAfter (live : Set ℕ) (g : Option (ℕ × ℕ)) : RmapCall → Set ℕ
  | .init _ => ∅
  | .free offset size => live \ span offset.toNat size.toNat
  | _ => live ∪ unitsOf g

def step (t : Tracked) (c : RmapCall) : Option Tracked :=
  (c.exec t.map).map fun p => ⟨p.1, liveAfter t.live p.2 c⟩

/-- How a call is used: sizes are at least 1, offsets are not 0, no range leaves the 32-bit
space, and a freed range has no unit that is free already. -/
def Used (t : Tracked) : RmapCall → Prop
  | .init size => 0 < size.toNat
  | .alloc size => 0 < size.toNat
  | .allocAlign size _ => 0 < size.toNat
  | .reserve offset size =>
    0 < size.toNat ∧ 0 < offset.toNat ∧ offset.toNat + size.toNat < 2 ^ 32
  | .free offset size =>
    0 < size.toNat ∧ 0 < offset.toNat ∧ offset.toNat + size.toNat < 2 ^ 32 ∧
      Disjoint (span offset.toNat size.toNat) t.freeSet

/-- The sum of size and gap that `rmap_alloc_align` compares with the size of an entry has not
wrapped when the entry passes the test. -/
def AlignFits (t : Tracked) : RmapCall → Prop
  | .allocAlign size align =>
    ∀ x ∈ t.map.entries, size + Rmap.gap x.offset align ≤ x.size →
      size.toNat + (Rmap.gap x.offset align).toNat < 2 ^ 32
  | _ => True

/-- The range that a call asks for. -/
def Asked (a n : ℕ) : RmapCall → Prop
  | .alloc size => n = size.toNat
  | .allocAlign size align => n = size.toNat ∧ align.toNat ∣ a
  | .reserve offset size => a = offset.toNat ∧ n = size.toNat
  | _ => False

/-- The free units after a call that hands out `g`, as far as none are lost. -/
def freeAfter (free : Set ℕ) (g : Option (ℕ × ℕ)) : RmapCall → Set ℕ
  | .init _ => ∅
  | .free offset size => free ∪ span offset.toNat size.toNat
  | _ => free \ unitsOf g

/-- The number of slots that the table has after a call. -/
def sizeAfter (m : Rmap) : RmapCall → UInt32
  | .init size => size - 1
  | _ => (m.slot 0).size

/-- The entries are in order and fit into the table; nothing is both free and handed out. -/
structure Sound (t : Tracked) : Prop where
  good : Good t.map.entries
  fits : t.map.Fits
  apart : Disjoint t.live t.freeSet

/-- What a call does: a range that it hands out is the one asked for, was free and is apart from the others; the
free units change by the range of the call, except that a full table may lose units, which are counted. -/
structure CallSound (t : Tracked) (c : RmapCall) (m' : Rmap) (g : Option (ℕ × ℕ)) : Prop where
  granted : ∀ a n, g = some (a, n) →
    span a n ⊆ t.freeSet ∧ Disjoint (span a n) t.live ∧ Asked a n c
  header : (m'.slot 0).size = sizeAfter t.map c
  units : ∃ a k, (k ≠ 0 → t.map.rlim = (t.map.slot 0).size.toNat) ∧
    m'.lostElems = t.map.lostElems + k ∧ span a k.toNat ⊆ freeAfter t.freeSet g c ∧
    freeUnits m'.entries = freeAfter t.freeSet g c \ span a k.toNat

variable {t t' : Tracked} {c : RmapCall} {m m' : Rmap} {g : Option (ℕ × ℕ)} {o s align : UInt32}

theorem fits_of_view (hfits : m.Fits) (hsize : (m'.slot 0).size = (m.slot 0).size)
    (hlen : m'.entries.length ≤ m.entries.length + (if m.view.full then 0 else 1)) :
    m'.Fits := by
  have h1 : m.rlim ≤ (m.slot 0).size.toNat := hfits
  rw [Rmap.Fits, hsize]
  rw [Rmap.length_entries, Rmap.length_entries] at hlen
  by_cases hfull : m.view.full = true
  · rw [if_pos hfull] at hlen
    omega
  · have hne : m.rlim ≠ (m.slot 0).size.toNat := by
      simpa [View.full, Rmap.view] using hfull
    rw [if_neg hfull] at hlen
    omega

theorem rlim_of_full (hfull : m.view.full = true) : m.rlim = (m.slot 0).size.toNat := by
  simpa [View.full, Rmap.view] using hfull

theorem CallSound.unchanged (hfree : freeAfter t.freeSet none c = t.freeSet)
    (hhead : sizeAfter t.map c = (t.map.slot 0).size) : CallSound t c t.map none := by
  refine ⟨by simp, hhead.symm, 0, 0, by simp, by simp, by simp, ?_⟩
  rw [hfree]
  simp [freeSet]

theorem init_sound (size : UInt32) :
    CallSound t (.init size) (t.map.rmapInit size) none ∧ Good (t.map.rmapInit size).entries ∧
      (t.map.rmapInit size).Fits := by
  have hlim : (t.map.rmapInit size).rlim = 0 := by
    simp [Rmap.rmapInit, Rmap.rlim, Rmap.setSlot]
  have hnil : (t.map.rmapInit size).entries = [] := by
    rw [Rmap.entries, hlim, Rmap.seg_zero]
  refine ⟨⟨by simp, ?_, 0, 0, by simp, ?_, by simp, ?_⟩, ?_, ?_⟩
  · simp [Rmap.rmapInit, Rmap.setSlot, sizeAfter]
  · simp [Rmap.rmapInit, Rmap.setSlot]
  · simp [hnil, freeAfter]
  · exact Good.nil
  · exact Nat.zero_le _

theorem alloc_sound (h : Sound t) (hs : 0 < s.toNat) :
    CallSound t (.alloc s) (t.map.rmapAlloc s).1 (rangeAt (t.map.rmapAlloc s).2 s) ∧
      Good (t.map.rmapAlloc s).1.entries ∧ (t.map.rmapAlloc s).1.Fits := by
  rcases Rmap.rmapAlloc_view with ⟨hfail, -⟩ | ⟨i, l, hl, hi, hview⟩
  · rw [hfail]
    exact ⟨CallSound.unchanged (by simp [freeAfter, unitsOf]) rfl, h.good, h.fits⟩
  · obtain ⟨hgood, hpos, -, hsub, hunits, hlen⟩ := alloc_spec h.good hs hl
    have hent : (t.map.rmapAlloc s).1.entries = l := congrArg View.entries hview
    have hlost : (t.map.rmapAlloc s).1.lostElems = t.map.lostElems :=
      congrArg View.lostElems hview
    have hrange : rangeAt (t.map.rmapAlloc s).2 s = some (i.toNat, s.toNat) := by
      have hne : i ≠ 0 := by
        rintro rfl
        simp at hpos
      rw [hi, rangeAt, if_neg hne]
    rw [hrange]
    refine ⟨⟨?_, congrArg View.size hview, 0, 0, by simp, by simp [hlost], by simp, ?_⟩, ?_, ?_⟩
    · intro a n heq
      obtain ⟨rfl, rfl⟩ := Prod.mk.inj (Option.some.inj heq)
      exact ⟨hsub, h.apart.symm.mono_left hsub, rfl⟩
    · rw [hent, hunits]
      simp [freeAfter, unitsOf, freeSet]
    · rwa [hent]
    · apply fits_of_view h.fits (congrArg View.size hview)
      rw [hent]
      omega

/-- The range that a reservation hands out. -/
def reserved (m : Rmap) (o s : UInt32) : Option (ℕ × ℕ) :=
  if (m.rmapReserve o s).2 = 0 then some (o.toNat, s.toNat) else none

theorem reserve_sound (h : Sound t) (hs : 0 < s.toNat) (hos : o.toNat + s.toNat < 2 ^ 32)
    (hask : Asked o.toNat s.toNat c)
    (hfree : ∀ g, freeAfter t.freeSet g c = t.freeSet \ unitsOf g)
    (hhead : sizeAfter t.map c = (t.map.slot 0).size) :
    CallSound t c (t.map.rmapReserve o s).1 (reserved t.map o s) ∧
      Good (t.map.rmapReserve o s).1.entries ∧ (t.map.rmapReserve o s).1.Fits := by
  rcases Rmap.rmapReserve_view (o := o) (s := s) h.fits with ⟨hfail, -⟩ | ⟨l, k, hl, hrc, hview⟩
  · have hnone : reserved t.map o s = none := by
      simp [reserved, hfail]
    rw [hnone, hfail]
    exact ⟨CallSound.unchanged (by simp [hfree, unitsOf]) hhead, h.good, h.fits⟩
  · obtain ⟨hgood, hsub, hlen, hkept, a, ha, hdis, hunits⟩ := reserve_spec h.good hs hos hl
    have hent : (t.map.rmapReserve o s).1.entries = l := congrArg View.entries hview
    have hrange : reserved t.map o s = some (o.toNat, s.toNat) := by
      simp [reserved, hrc]
    rw [hrange]
    refine ⟨⟨?_, ?_, a, k, ?_, congrArg View.lostElems hview, ?_, ?_⟩, ?_, ?_⟩
    · intro b n heq
      obtain ⟨rfl, rfl⟩ := Prod.mk.inj (Option.some.inj heq)
      exact ⟨hsub, h.apart.symm.mono_left hsub, hask⟩
    · rw [hhead]
      exact congrArg View.size hview
    · intro hk
      apply rlim_of_full
      by_contra hroom
      exact hk (hkept (Bool.eq_false_of_not_eq_true hroom))
    · rw [hfree]
      exact Set.subset_sdiff.mpr ⟨ha, hdis⟩
    · rw [hent, hunits, hfree, Set.sdiff_sdiff]
      rfl
    · rwa [hent]
    · apply fits_of_view h.fits (congrArg View.size hview)
      rwa [hent]

theorem free_sound (h : Sound t) (hu : Used t (.free o s)) :
    CallSound t (.free o s) (t.map.rmapFree o s) none ∧ Good (t.map.rmapFree o s).entries ∧
      (t.map.rmapFree o s).Fits := by
  obtain ⟨hs, ho, hos, hdis⟩ := hu
  have hview := Rmap.rmapFree_view (o := o) (s := s) h.fits
  obtain ⟨hgood, hlen, hunits⟩ := free_spec t.map.view.full h.good hs ho hos hdis
  have hent : (t.map.rmapFree o s).entries = (free t.map.view.full o s t.map.entries).1 :=
    congrArg View.entries hview
  have hlost : (t.map.rmapFree o s).lostElems =
      t.map.lostElems + (free t.map.view.full o s t.map.entries).2 :=
    congrArg View.lostElems hview
  refine ⟨⟨by simp, congrArg View.size hview, ?_⟩, ?_, ?_⟩
  · rcases hunits with ⟨hk, hunits⟩ | ⟨hfull, hk, hsame⟩
    · refine ⟨0, 0, by simp, ?_, by simp, ?_⟩
      · rw [hlost, hk]
      · rw [hent, hunits]
        simp [freeAfter, freeSet]
    · refine ⟨o.toNat, s, fun _ => rlim_of_full hfull, ?_, ?_, ?_⟩
      · rw [hlost, hk]
      · exact Set.subset_union_right
      · rw [hent, hsame, freeAfter, Set.union_sdiff_right]
        exact (hdis.symm.sdiff_eq_left).symm
  · rwa [hent]
  · apply fits_of_view h.fits (congrArg View.size hview)
    rwa [hent]

theorem gap_dvd (halign : align ≠ 0) (h : o.toNat + (Rmap.gap o align).toNat < 2 ^ 32) :
    align.toNat ∣ (o + Rmap.gap o align).toNat := by
  rw [toNat_add h, Rmap.gap]
  have hpos : 0 < align.toNat := by
    apply Nat.pos_of_ne_zero
    exact fun h0 => halign (UInt32.toNat.inj h0)
  split
  · next hzero =>
    have : o.toNat % align.toNat = 0 := by
      rw [← UInt32.toNat_mod, hzero]
      rfl
    simpa using Nat.dvd_of_mod_eq_zero this
  · have hlt : o.toNat % align.toNat < align.toNat := Nat.mod_lt _ hpos
    have hmod : (o % align).toNat = o.toNat % align.toNat := UInt32.toNat_mod o align
    rw [toNat_sub (by omega)]
    refine ⟨o.toNat / align.toNat + 1, ?_⟩
    have := Nat.div_add_mod o.toNat align.toNat
    rw [Nat.mul_add]
    omega

theorem allocAlign_sound (h : Sound t) (hs : 0 < s.toNat) (hwrap : AlignFits t (.allocAlign s align))
    {p : Rmap × UInt32} (hp : t.map.rmapAllocAlign s align = some p) :
    CallSound t (.allocAlign s align) p.1 (rangeAt p.2 s) ∧ Good p.1.entries ∧ p.1.Fits := by
  have hsame : CallSound t (.allocAlign s align) t.map (rangeAt 0 s) :=
    CallSound.unchanged (by simp [freeAfter, unitsOf]) rfl
  by_cases halign : align = 0
  · -- without a trap there was no entry to look at
    subst halign
    have hlim : ¬ 0 < t.map.rlim := by
      intro hlim
      simp [Rmap.rmapAllocAlign, hlim] at hp
    have hnil : t.map.rlim = 0 := by omega
    have heq : t.map.rmapAllocAlign s 0 = some (t.map, 0) := by
      simp [Rmap.rmapAllocAlign, hnil, Rmap.scan]
    rw [heq] at hp
    obtain rfl := Option.some.inj hp
    exact ⟨hsame, h.good, h.fits⟩
  rw [Rmap.rmapAllocAlign_eq halign] at hp
  split at hp
  · obtain rfl := Option.some.inj hp
    exact ⟨hsame, h.good, h.fits⟩
  · next x hx =>
    obtain rfl := Option.some.inj hp
    have hmem : x ∈ t.map.entries := List.mem_of_find?_eq_some hx
    have htest : s + Rmap.gap x.offset align ≤ x.size := by
      simpa using List.find?_some hx
    have hsum := hwrap x hmem htest
    rw [UInt32.le_iff_toNat_le, toNat_add hsum] at htest
    obtain ⟨hlo, hend⟩ := h.good.bounds x hmem
    simp only [Slot.lo, Slot.len] at hlo hend
    have hidx : (x.offset + Rmap.gap x.offset align).toNat =
        x.offset.toNat + (Rmap.gap x.offset align).toNat := toNat_add (by omega)
    have hne : x.offset + Rmap.gap x.offset align ≠ 0 := by
      intro h0
      rw [h0, UInt32.toNat_zero] at hidx
      omega
    have hrange : rangeAt (if (t.map.rmapReserve (x.offset + Rmap.gap x.offset align) s).2 ≠ 0 then 0
        else x.offset + Rmap.gap x.offset align) s =
        reserved t.map (x.offset + Rmap.gap x.offset align) s := by
      by_cases hrc : (t.map.rmapReserve (x.offset + Rmap.gap x.offset align) s).2 = 0
      · simp [reserved, rangeAt, hrc, hne]
      · simp [reserved, rangeAt, hrc]
    simp only [hrange]
    exact reserve_sound h hs (by omega) ⟨rfl, gap_dvd halign (by omega)⟩ (fun _ => rfl) rfl

theorem call_sound (h : Sound t) (hu : Used t c) (hw : AlignFits t c)
    (he : c.exec t.map = some (m', g)) : CallSound t c m' g ∧ Good m'.entries ∧ m'.Fits := by
  cases c with
  | init size =>
    obtain ⟨rfl, rfl⟩ := Prod.mk.inj (Option.some.inj he)
    exact init_sound size
  | alloc size =>
    obtain ⟨rfl, rfl⟩ := Prod.mk.inj (Option.some.inj he)
    exact alloc_sound h hu
  | allocAlign size align =>
    obtain ⟨p, hp, hpg⟩ := Option.map_eq_some_iff.mp he
    obtain ⟨rfl, rfl⟩ := Prod.mk.inj hpg
    exact allocAlign_sound h hu hw hp
  | reserve offset size =>
    obtain ⟨rfl, rfl⟩ := Prod.mk.inj (Option.some.inj he)
    exact reserve_sound h hu.1 hu.2.2 ⟨rfl, rfl⟩ (fun _ => rfl) rfl
  | free offset size =>
    obtain ⟨rfl, rfl⟩ := Prod.mk.inj (Option.some.inj he)
    exact free_sound h hu

theorem disjoint_after (h : Disjoint t.live t.freeSet) :
    Disjoint (liveAfter t.live g c) (freeAfter t.freeSet g c) := by
  have htake : Disjoint (t.live ∪ unitsOf g) (t.freeSet \ unitsOf g) :=
    Set.disjoint_union_left.mpr ⟨h.mono_right Set.sdiff_subset, Set.disjoint_sdiff_right⟩
  cases c with
  | init => exact Set.empty_disjoint _
  | free o s =>
    exact Set.disjoint_union_right.mpr ⟨h.mono_left Set.sdiff_subset, Set.disjoint_sdiff_left⟩
  | alloc => exact htake
  | allocAlign => exact htake
  | reserve => exact htake

theorem step_sound (h : Sound t) (hu : Used t c) (hw : AlignFits t c) (hs : t.step c = some t') :
    Sound t' := by
  obtain ⟨⟨m', g⟩, he, rfl⟩ := Option.map_eq_some_iff.mp hs
  obtain ⟨hcall, hgood, hfits⟩ := call_sound h hu hw he
  refine ⟨hgood, hfits, ?_⟩
  obtain ⟨a, k, -, -, -, hunits⟩ := hcall.units
  rw [freeSet, hunits]
  exact (disjoint_after h.apart).mono_right Set.sdiff_subset

open Transition

/-- A map that was just initialised. -/
def fresh (m : Rmap) (size : UInt32) : Tracked := ⟨m.rmapInit size, ∅⟩

/-- As long as no sum of size and gap wraps into a spurious fit, the entries stay in order and
within the table, and every call does to the free units what it should. -/
theorem rmap_sound {size : UInt32}
    (h : Reach step (fun t c => Used t c ∧ AlignFits t c) (fresh m size) t) :
    Sound t ∧ ∀ c m' g, Used t c → AlignFits t c → c.exec t.map = some (m', g) →
      CallSound t c m' g := by
  have hsound : Sound t := by
    refine h.invariant ?_ fun a l b ha hok hl => step_sound ha hok.1 hok.2 hl
    have hinit := init_sound (t := ⟨m, ∅⟩) size
    exact ⟨hinit.2.1, hinit.2.2, Set.empty_disjoint _⟩
  exact ⟨hsound, fun c m' g hu hw he => (call_sound hsound hu hw he).1⟩

/-- Memory that holds no map yet. -/
def blank : Rmap := ⟨fun _ => ⟨0, 0⟩, 0⟩

/-- A map of three slots that was given the units 1 to 100. -/
def stocked : Rmap := (blank.rmapInit 4).rmapFree 1 100

theorem reach_stocked {ok : Tracked → RmapCall → Prop}
    (h : Used (fresh blank 4) (.free 1 100) → ok (fresh blank 4) (.free 1 100)) :
    Reach step ok (fresh blank 4) ⟨stocked, ∅ \ span 1 100⟩ := by
  have hfree : (fresh blank 4).freeSet = ∅ := by
    have : (fresh blank 4).map.entries = [] := by decide
    rw [freeSet, this, freeUnits_nil]
  refine Reach.single (h ⟨by decide, by decide, by decide, ?_⟩) rfl
  rw [hfree]
  exact Set.disjoint_empty _

theorem rmap_sound_stocked :
    Sound ⟨stocked, ∅ \ span 1 100⟩ ∧
      ∀ c m' g, Used ⟨stocked, ∅ \ span 1 100⟩ c → AlignFits ⟨stocked, ∅ \ span 1 100⟩ c →
        c.exec stocked = some (m', g) → CallSound ⟨stocked, ∅ \ span 1 100⟩ c m' g :=
  rmap_sound (reach_stocked fun h => ⟨h, trivial⟩)

/-- A size whose sum with the gap wraps is taken to fit: after
`rmap_alloc_align(map, 0xFFFFFFFF, 16)` two entries overlap. -/
theorem rmap_align_overlap :
    ¬ ∀ (m : Rmap) (size : UInt32) (t : Tracked), Reach step Used (fresh m size) t → Sound t := by
  intro h
  have hentries : (stocked.rmapAllocAlign 0xFFFFFFFF 16).map (fun p => p.1.entries) =
      some [⟨1, 15⟩, ⟨15, 86⟩] := by decide +kernel
  obtain ⟨p, hp, hent⟩ := Option.map_eq_some_iff.mp hentries
  have hstart : Reach step Used (fresh blank 4) ⟨stocked, ∅ \ span 1 100⟩ := reach_stocked id
  have hstep : step ⟨stocked, ∅ \ span 1 100⟩ (.allocAlign 0xFFFFFFFF 16) =
      some ⟨p.1, (∅ \ span 1 100) ∪ unitsOf (rangeAt p.2 0xFFFFFFFF)⟩ := by
    simp [step, RmapCall.exec, hp, liveAfter]
  have hused : Used ⟨stocked, ∅ \ span 1 100⟩ (.allocAlign 0xFFFFFFFF 16) := by
    simp only [Used]
    decide
  have hgood := (h _ _ _ (hstart.tail hused hstep)).good
  simp only [hent] at hgood
  have hlt := hgood.lt_head (y := ⟨15, 86⟩) (by simp)
  simp [Slot.lo, Slot.len] at hlt

theorem sound_of_reach {size : UInt32}
    (h : Reach step (fun t c => Used t c ∧ AlignFits t c) (fresh m size) t) : Sound t := by
  have hinit := init_sound (t := ⟨m, ∅⟩) size
  exact h.invariant ⟨hinit.2.1, hinit.2.2, Set.empty_disjoint _⟩
    fun _ _ _ ha hok hl => step_sound ha hok.1 hok.2 hl

theorem CallSound.units_of_room (h : CallSound t c m' g)
    (hroom : t.map.rlim < (t.map.slot 0).size.toNat) :
    freeUnits m'.entries = freeAfter t.freeSet g c := by
  obtain ⟨a, k, hk, -, -, hunits⟩ := h.units
  have h0 : k = 0 := by
    by_contra hne
    exact hroom.ne (hk hne)
  simpa [h0] using hunits

/-- With a free slot before either call, to free the range that a call has just handed out brings
the entries back, however the call cut them. -/
theorem rmap_restored {n : UInt32}
    (h : Reach step (fun t c => Used t c ∧ AlignFits t c) (fresh m n) t) (hu : Used t c)
    (hw : AlignFits t c) (he : c.exec t.map = some (m', some (o.toNat, s.toNat)))
    (hroom : t.map.rlim < (t.map.slot 0).size.toNat)
    (hroom' : m'.rlim < (m'.slot 0).size.toNat) :
    (m'.rmapFree o s).entries = t.map.entries := by
  have hsound := sound_of_reach h
  have hcall := (call_sound hsound hu hw he).1
  obtain ⟨hsub, -, hask⟩ := hcall.granted _ _ rfl
  have htaken : freeUnits m'.entries = t.freeSet \ span o.toNat s.toNat := by
    rw [hcall.units_of_room hroom]
    cases c with
    | init | free => exact hask.elim
    | _ => rfl
  have hs : 0 < s.toNat := by
    cases c with
    | init | free => exact hask.elim
    | alloc => exact hask ▸ hu
    | allocAlign => exact hask.1 ▸ hu
    | reserve => exact hask.2 ▸ hu.1
  have hback : Used ⟨m', liveAfter t.live (some (o.toNat, s.toNat)) c⟩ (.free o s) := by
    obtain ⟨ho, hos⟩ := hsound.good.span_bounds hs hsub
    refine ⟨hs, ho, hos, ?_⟩
    rw [freeSet, htaken]
    exact Set.disjoint_sdiff_right
  have hmid : Sound ⟨m', liveAfter t.live (some (o.toNat, s.toNat)) c⟩ :=
    step_sound hsound hu hw (by simp [step, he])
  obtain ⟨hfree, hgood, -⟩ := free_sound hmid hback
  apply hgood.ext hsound.good
  rw [hfree.units_of_room hroom', freeAfter, freeSet, htaken, Set.sdiff_union_of_subset hsub]
  rfl

theorem rmap_restored_stocked :
    ((stocked.rmapReserve 10 5).1.rmapFree 10 5).entries = stocked.entries :=
  rmap_restored (c := .reserve 10 5) (reach_stocked fun h => ⟨h, trivial⟩)
    ⟨by decide, by decide, by decide⟩ trivial rfl (by decide) (by decide)

end Tracked

end SimpleKernel.Mem
