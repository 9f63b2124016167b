import SimpleKernel.Mem.Vm
import SimpleKernel.Mem.RmapRuns

/-! The address space that `vmalloc` takes. -/
namespace SimpleKernel.Mem
open Intervals Entries

/-- The map of the address space: its free units lie in user space. -/
structure UserMap (vmap : Rmap) : Prop where
  good : Good vmap.entries
  fits : vmap.Fits
  user : ∀ u ∈ freeUnits vmap.entries, 16 ≤ u ∧ u < 2 ^ 19

variable {vmap vmap' : Rmap} {m : Vm} {a n o s i : UInt32} {l l' : List Slot} {c : RmapCall} {g : Option (ℕ × ℕ)}

theorem UserMap.tracked (h : UserMap vmap) : Tracked.Sound ⟨vmap, ∅⟩ := ⟨h.good, h.fits, Set.empty_disjoint _⟩

open Tracked in
theorem Tracked.CallSound.taken (hc : CallSound ⟨vmap, ∅⟩ c vmap' g)
    (hafter : ∀ free, freeAfter free g c = free \ unitsOf g) :
    freeUnits vmap'.entries ⊆ freeUnits vmap.entries ∧ ∀ o k, g = some (o, k) →
      span o k ⊆ freeUnits vmap.entries ∧ Disjoint (span o k) (freeUnits vmap'.entries) := by
  obtain ⟨b, k, -, -, -, hunits⟩ := hc.units
  rw [hafter] at hunits
  constructor
  · rw [hunits]
    exact Set.sdiff_subset.trans Set.sdiff_subset
  · rintro o k rfl
    refine ⟨(hc.granted o k rfl).1, ?_⟩
    rw [hunits]
    exact Set.disjoint_sdiff_right.mono_right Set.sdiff_subset

theorem alloc_offset (h : alloc s l = some (i, l')) : ∃ x ∈ l, i = x.offset := by
  induction l generalizing l' with
  | nil => nomatch h
  | cons x l ih =>
    unfold alloc at h
    split at h
    · obtain ⟨rfl, -⟩ := Prod.mk.inj (Option.some.inj h)
      exact ⟨x, List.mem_cons_self, rfl⟩
    · obtain ⟨p, hp, heq⟩ := Option.map_eq_some_iff.mp h
      obtain ⟨rfl, -⟩ := Prod.mk.inj heq
      obtain ⟨y, hy, hi⟩ := ih hp
      exact ⟨y, List.mem_cons_of_mem _ hy, hi⟩

theorem reserve_mem {full : Bool} {p : List Slot × UInt32} (hl : Good l) (h : reserve full o s l = some p) :
    o.toNat ∈ freeUnits l := by
  induction l generalizing p with
  | nil => cases h
  | cons x l ih =>
    unfold reserve at h
    split at h
    · cases h
    split at h
    · obtain ⟨p, hp, -⟩ := Option.map_eq_some_iff.mp h
      rw [mem_freeUnits_cons]
      exact Or.inr (ih hl.tail hp)
    · rename_i hin
      obtain ⟨hlo, hhi⟩ := not_not.mp hin
      obtain ⟨-, -, hend⟩ := hl.head
      rw [UInt32.lt_iff_toNat_lt, toNat_add hend] at hhi
      rw [mem_freeUnits_cons]
      exact Or.inl ⟨hlo, hhi⟩

theorem ptob_ne_zero (h : UserMap vmap) (hi : i.toNat ∈ freeUnits vmap.entries) : ptob i ≠ 0 := by
  obtain ⟨hlo, hhi⟩ := h.user _ hi
  have hptob : (ptob i).toNat = 4096 * i.toNat := toNat_ptob (by omega)
  intro hzero
  rw [hzero, UInt32.toNat_zero] at hptob
  omega

theorem rmapReserve_cases (h : UserMap vmap) (o s : UInt32) :
    vmap.rmapReserve o s = (vmap, 1) ∨ (vmap.rmapReserve o s).2 = 0 ∧ o.toNat ∈ freeUnits vmap.entries := by
  rcases Rmap.rmapReserve_view h.fits with ⟨hfail, -⟩ | ⟨l, k, hl, hrc, -⟩
  · exact Or.inl hfail
  · exact Or.inr ⟨hrc, reserve_mem h.good hl⟩

theorem reserveRange_zero (h : UserMap m.vmap) {type : UInt32} (hzero : (m.reserveRange a n type).2 = 0) :
    (m.reserveRange a n type).1 = m := by
  unfold Vm.reserveRange at hzero ⊢
  by_cases ha : a = 0
  · rw [if_pos ha] at hzero ⊢
    by_cases h64 : type &&& memAlign64k ≠ 0
    · have halign : (64 * 1024 / pageSize : UInt32) ≠ 0 := by decide
      simp only [if_pos h64, Rmap.rmapAllocAlign_eq halign] at hzero ⊢
      cases hfind : m.vmap.entries.find? fun x => n + Rmap.gap x.offset (64 * 1024 / pageSize) ≤ x.size with
      | none => rfl
      | some x =>
        simp only [hfind, Option.getD_some] at hzero ⊢
        rcases rmapReserve_cases h (x.offset + Rmap.gap x.offset (64 * 1024 / pageSize)) n with hfail | ⟨hrc, hmem⟩
        · rw [hfail]
        · rw [hrc] at hzero
          exact absurd hzero (ptob_ne_zero h hmem)
    · simp only [if_neg h64] at hzero ⊢
      rcases Rmap.rmapAlloc_view with ⟨hfail, -⟩ | ⟨i, l, hl, hi, -⟩
      · rw [hfail]
      · obtain ⟨x, hx, rfl⟩ := alloc_offset hl
        rw [hi] at hzero
        exact absurd hzero (ptob_ne_zero h (h.good.lo_mem hx))
  · rw [if_neg ha] at hzero ⊢
    rcases rmapReserve_cases h (btop a) n with hfail | ⟨hrc, -⟩
    · simp only [hfail]
    · simp only [hrc] at hzero
      exact absurd hzero ha

/-- What `vmalloc` takes was free before and is not free afterwards. -/
structure Taken (m m' : Vm) (start n : UInt32) : Prop where
  aligned : start.toNat % 4096 = 0
  free : span (start.toNat / 4096) n.toNat ⊆ freeUnits m.vmap.entries
  gone : Disjoint (span (start.toNat / 4096) n.toNat) (freeUnits m'.vmap.entries)

theorem gap_le {align : UInt32} (o : UInt32) (halign : 0 < align.toNat) :
    (Rmap.gap o align).toNat ≤ align.toNat := by
  have hmod : (o % align).toNat = o.toNat % align.toNat := UInt32.toNat_mod o align
  have hlt := Nat.mod_lt o.toNat halign
  rw [Rmap.gap]
  split
  · simp
  · rw [toNat_sub (by omega)]
    omega

open Tracked in
theorem reserveRange_taken (h : UserMap m.vmap) (type : UInt32) (hpos : 0 < n.toNat) (hn : n.toNat < 2 ^ 20)
    (halign : a.toNat % 4096 = 0) :
    ∃ vmap', (m.reserveRange a n type).1 = { m with vmap := vmap' } ∧ UserMap vmap' ∧
      freeUnits vmap'.entries ⊆ freeUnits m.vmap.entries ∧
      ((m.reserveRange a n type).2 ≠ 0 →
        Taken m (m.reserveRange a n type).1 (m.reserveRange a n type).2 n) := by
  -- an index that the map hands out
  have hindex (c : RmapCall) (q : Rmap × UInt32) (hc : CallSound ⟨m.vmap, ∅⟩ c q.1 (rangeAt q.2 n))
      (hgood : Good q.1.entries) (hfits : q.1.Fits)
      (hafter : ∀ free, freeAfter free (rangeAt q.2 n) c = free \ unitsOf (rangeAt q.2 n))
      (heq : m.reserveRange a n type = ({ m with vmap := q.1 }, ptob q.2)) :
      ∃ vmap', (m.reserveRange a n type).1 = { m with vmap := vmap' } ∧ UserMap vmap' ∧
        freeUnits vmap'.entries ⊆ freeUnits m.vmap.entries ∧
        ((m.reserveRange a n type).2 ≠ 0 →
          Taken m (m.reserveRange a n type).1 (m.reserveRange a n type).2 n) := by
    obtain ⟨hsub, htake⟩ := hc.taken hafter
    rw [heq]
    refine ⟨q.1, rfl, ⟨hgood, hfits, fun u hu => h.user u (hsub hu)⟩, hsub, fun hne => ?_⟩
    dsimp only at hne ⊢
    have hidx : q.2 ≠ 0 := by
      intro h0
      rw [h0] at hne
      exact hne (by decide)
    obtain ⟨hfree, hgone⟩ := htake q.2.toNat n.toNat (by rw [rangeAt, if_neg hidx])
    have hlt : q.2.toNat < 2 ^ 19 := (h.user _ (hfree (by rw [mem_span]; omega))).2
    have hptob : (ptob q.2).toNat = 4096 * q.2.toNat := toNat_ptob (by omega)
    have hpage : (ptob q.2).toNat / 4096 = q.2.toNat := by omega
    exact ⟨by omega, by rwa [hpage], by rwa [hpage]⟩
  by_cases ha : a = 0
  · by_cases h64 : type &&& memAlign64k = 0
    · have heq : m.reserveRange a n type =
          ({ m with vmap := (m.vmap.rmapAlloc n).1 }, ptob (m.vmap.rmapAlloc n).2) := by
        simp [Vm.reserveRange, ha, h64]
      obtain ⟨hc, hgood, hfits⟩ := alloc_sound h.tracked hpos
      exact hindex _ (m.vmap.rmapAlloc n) hc hgood hfits (fun _ => rfl) heq
    · have halign16 : (64 * 1024 / pageSize : UInt32) ≠ 0 := by decide
      obtain ⟨q, hq⟩ : ∃ q, m.vmap.rmapAllocAlign n (64 * 1024 / pageSize) = some q := by
        rw [Rmap.rmapAllocAlign_eq halign16]
        split <;> exact ⟨_, rfl⟩
      have heq : m.reserveRange a n type = ({ m with vmap := q.1 }, ptob q.2) := by
        simp only [Vm.reserveRange, ha, if_true, h64, ne_eq, not_false_eq_true, hq, Option.getD_some]
      have hfit : AlignFits ⟨m.vmap, ∅⟩ (.allocAlign n (64 * 1024 / pageSize)) := by
        intro x _ _
        have hgap := gap_le x.offset (by decide : 0 < (64 * 1024 / pageSize : UInt32).toNat)
        have h16 : (64 * 1024 / pageSize : UInt32).toNat = 16 := by decide
        omega
      obtain ⟨hc, hgood, hfits⟩ := allocAlign_sound h.tracked hpos hfit hq
      exact hindex _ q hc hgood hfits (fun _ => rfl) heq
  · have hb : (btop a).toNat = a.toNat / 4096 := toNat_btop a
    have hlt := a.toNat_lt
    obtain ⟨hc, hgood, hfits⟩ := reserve_sound (c := .reserve (btop a) n) h.tracked hpos (by omega) ⟨rfl, rfl⟩
      (fun _ => rfl) rfl
    obtain ⟨hsub, htake⟩ := hc.taken fun _ => rfl
    have heq : m.reserveRange a n type = ({ m with vmap := (m.vmap.rmapReserve (btop a) n).1 },
        if (m.vmap.rmapReserve (btop a) n).2 ≠ 0 then 0 else a) := by
      simp [Vm.reserveRange, ha]
    rw [heq]
    refine ⟨_, rfl, ⟨hgood, hfits, fun u hu => h.user u (hsub hu)⟩, hsub, fun hne => ?_⟩
    have hrc : (m.vmap.rmapReserve (btop a) n).2 = 0 := by
      by_contra hrc
      simp [hrc] at hne
    obtain ⟨hfree, hgone⟩ := htake (btop a).toNat n.toNat (by simp [reserved, hrc])
    rw [hb] at hfree hgone
    simp only [hrc, ne_eq, not_true_eq_false, if_false]
    exact ⟨halign, hfree, hgone⟩

/-! A range of no pages, which the map never refuses as long as it has a place for it. -/

/-- The map knows a place where a range of no pages could begin. -/
def HasPlace (vmap : Rmap) (a type : UInt32) : Prop :=
  if a ≠ 0 then (btop a).toNat ∈ freeUnits vmap.entries
  else if type &&& memAlign64k ≠ 0 then
    ∃ x, (vmap.entries.find? fun x => Rmap.gap x.offset (64 * 1024 / pageSize) ≤ x.size) = some x ∧
      (x.offset + Rmap.gap x.offset (64 * 1024 / pageSize)).toNat ∈ freeUnits vmap.entries
  else vmap.entries ≠ []

theorem reserve_empty (full : Bool) (hl : Good l) (h : o.toNat ∈ freeUnits l) :
    ∃ p, reserve full o 0 l = some p := by
  induction l with
  | nil => simp at h
  | cons x l ih =>
    obtain ⟨-, -, hend⟩ := hl.head
    have htop : (x.offset + x.size).toNat = x.offset.toNat + x.size.toNat := toNat_add hend
    unfold reserve
    by_cases hin : x.offset ≤ o ∧ o < x.offset + x.size
    · rw [if_neg (UInt32.not_lt.mpr hin.1), if_neg (not_not.mpr hin), UInt32.add_zero,
        if_neg (UInt32.not_lt.mpr (UInt32.le_of_lt hin.2))]
      split
      · exact ⟨_, rfl⟩
      split
      · exact ⟨_, rfl⟩
      split <;> exact ⟨_, rfl⟩
    · have hmem : o.toNat ∈ freeUnits l := by
        rcases mem_freeUnits_cons.mp h with ⟨hlo, hhi⟩ | hmem
        · refine absurd ⟨UInt32.le_iff_toNat_le.mpr hlo, UInt32.lt_iff_toNat_lt.mpr ?_⟩ hin
          rwa [htop]
        · exact hmem
      have hlo : ¬ o < x.offset := by
        have hlt := hl.lt_of_mem hmem
        unfold Slot.lo Slot.len at hlt
        rw [UInt32.lt_iff_toNat_lt]
        omega
      obtain ⟨p, hp⟩ := ih hl.tail hmem
      rw [if_neg hlo, if_pos hin, hp]
      exact ⟨_, rfl⟩

theorem rmapReserve_empty (h : UserMap vmap) : (vmap.rmapReserve o 0).2 = 0 ↔ o.toNat ∈ freeUnits vmap.entries := by
  constructor
  · intro hrc
    rcases rmapReserve_cases h o 0 with hfail | ⟨-, hmem⟩
    · rw [hfail] at hrc
      exact absurd hrc Int.one_ne_zero
    · exact hmem
  · intro hmem
    rcases Rmap.rmapReserve_view h.fits with ⟨-, hnone⟩ | ⟨l, k, -, hrc, -⟩
    · obtain ⟨p, hp⟩ := reserve_empty vmap.view.full h.good hmem
      rw [hnone] at hp
      exact nomatch hp
    · exact hrc

theorem reserveRange_empty (h : UserMap m.vmap) {type : UInt32} :
    (m.reserveRange a 0 type).2 ≠ 0 ↔ HasPlace m.vmap a type := by
  unfold Vm.reserveRange HasPlace
  by_cases ha : a = 0
  · rw [if_pos ha, if_neg (not_not.mpr ha)]
    by_cases h64 : type &&& memAlign64k ≠ 0
    · have halign : (64 * 1024 / pageSize : UInt32) ≠ 0 := by decide
      simp only [if_pos h64, Rmap.rmapAllocAlign_eq halign, UInt32.zero_add]
      cases m.vmap.entries.find? fun x => Rmap.gap x.offset (64 * 1024 / pageSize) ≤ x.size with
      | none => simp [ptob]
      | some x =>
        simp only [Option.getD_some, Option.some.injEq, exists_eq_left']
        rw [← rmapReserve_empty h]
        constructor
        · intro hne
          by_contra hrc
          rw [if_pos hrc] at hne
          exact hne (by decide)
        · intro hrc
          rw [if_neg (not_not.mpr hrc)]
          exact ptob_ne_zero h ((rmapReserve_empty h).mp hrc)
    · simp only [if_neg h64]
      rcases Rmap.rmapAlloc_view (s := 0) with ⟨hfail, hnone⟩ | ⟨i, l, hl, hi, -⟩
      · have hnil : m.vmap.entries = [] := by
          cases hent : m.vmap.entries with
          | nil => rfl
          | cons x l =>
            rw [hent] at hnone
            cases hnone
        simp [hfail, hnil, ptob]
      · obtain ⟨x, hx, rfl⟩ := alloc_offset hl
        rw [hi]
        exact iff_of_true (ptob_ne_zero h (h.good.lo_mem hx)) (List.ne_nil_of_mem hx)
  · rw [if_neg ha, if_pos ha, ← rmapReserve_empty h]
    dsimp only
    by_cases hrc : (m.vmap.rmapReserve (btop a) 0).2 = 0
    · rw [if_neg (not_not.mpr hrc)]
      exact iff_of_true ha hrc
    · rw [if_pos hrc]
      exact iff_of_false (fun hne => hne rfl) hrc

end SimpleKernel.Mem
