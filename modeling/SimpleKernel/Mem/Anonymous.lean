import SimpleKernel.Mem.AccountingRuns

/-! Anonymous memory from boot on: what every run of `vmalloc`, `vmfree` and `vmprotect` keeps, and
what each call leaves. -/
namespace SimpleKernel.Mem

open Intervals Entries PageTables Vm Holdings Transition

variable {m m₀ m' : Vm} {v w a n fl tag addr size : UInt32} {frames : List UInt32}

/-- The state after `init_vmm`: all of user space is free and nothing is mapped there. -/
structure Booted (m : Vm) (frames : List UInt32) : Prop extends FramesOk m frames where
  plain : Plain m.pt
  vmap : ∃ r, m.vmap = initVmap r
  empty : ∀ v, v < osBase → m.pt.mapping v = none

theorem view_initVmap (r : Rmap) :
    (initVmap r).view = ⟨[⟨16, 0x7FFF0⟩], 1023, r.lostElems⟩ := by
  have hfits : (r.rmapInit vmapEntries).Fits := by
    simp [Rmap.Fits, Rmap.rlim, Rmap.rmapInit, Rmap.setSlot]
  have hsize : ((r.rmapInit vmapEntries).slot 0).size = 1023 := by
    simp [Rmap.rmapInit, Rmap.setSlot, vmapEntries]
  have hnil : (r.rmapInit vmapEntries).entries = [] := by
    simp [Rmap.entries, Rmap.rlim, Rmap.rmapInit, Rmap.setSlot]
  have hview : (r.rmapInit vmapEntries).view = ⟨[], 1023, r.lostElems⟩ := by
    rfl
  have hfull : (⟨[], 1023, r.lostElems⟩ : View).full = false := rfl
  rw [initVmap, Rmap.rmapFree_view hfits, hview, hfull, hnil]
  simp only [Entries.free, Entries.insert, Bool.false_eq_true, if_false]
  rw [UInt32.add_zero]
  rfl

theorem entries_initVmap (r : Rmap) : (initVmap r).entries = [⟨16, 0x7FFF0⟩] :=
  congrArg View.entries (view_initVmap r)

theorem Booted.accounted (h : Booted m frames) : Accounted m frames := by
  obtain ⟨r, hr⟩ := h.vmap
  have hent : m.vmap.entries = [⟨16, 0x7FFF0⟩] := by rw [hr, entries_initVmap]
  have hsize : (m.vmap.slot 0).size = 1023 := by
    rw [hr]
    exact congrArg View.size (view_initVmap r)
  have hlim : m.vmap.rlim = 1 := by
    rw [← Rmap.length_entries, hent]
    rfl
  refine ⟨h.toFramesOk, h.plain, ?_, ?_, ?_, fun v hv _ => h.empty v hv⟩
  · rw [hent]
    exact Good.nil.cons (by decide) (by decide) (by decide) (by simp)
  · rw [Rmap.Fits, hlim, hsize]
    decide
  · intro u hu
    rw [hent, mem_freeUnits_singleton] at hu
    simp only [Slot.lo, Slot.len] at hu
    have h1 : (16 : UInt32).toNat = 16 := rfl
    have h2 : (0x7FFF0 : UInt32).toNat = 0x7FFF0 := rfl
    omega

/-- What a successful `vmalloc` leaves: with `MEM_COMMIT` every page of the range is mapped, no page
outside the range has changed. -/
structure AllocEffect (m : Vm) (start size type : UInt32) (m' : Vm) : Prop where
  committed : type &&& memCommit ≠ 0 →
    ∀ w ∈ pageRange start (pages size), (m'.pt.mapping w).isSome
  others : ∀ v, (∀ w ∈ pageRange start (pages size), ptabIdx v ≠ ptabIdx w) →
    m'.pt.mapping v = m.pt.mapping v
  kept : type &&& memCommit = 0 → m'.pt = m.pt

theorem needTable_mapped (h : m.needTable v = some m') : m'.pt.pageDirectoryMapped v = true := by
  rcases needTable_cases h with ⟨hpde, rfl⟩ | ⟨-, p, -, rfl⟩
  · exact hpde
  · have htab : (m.pt.addTable v p.2).table v = _ := table_addTable p.2
    by_contra hno
    simp [table, hno] at htab

theorem mapping_commitPage_self (h : commitPage tag fl m w = some m') :
    (m'.pt.mapping w).isSome := by
  have hpres : ∀ x : UInt32, (x ||| (fl ||| ptPresent)) &&& ptPresent ≠ 0 := by
    intro x
    rw [← UInt32.or_assoc, or_and_self]
    decide
  rw [commitPage] at h
  split at h
  · next hmapped =>
    obtain rfl := Option.some.inj h
    have hpde : m.pt.pageDirectoryMapped w = true := by
      rw [pageMapped, Bool.and_eq_true] at hmapped
      exact hmapped.1
    simp only [setPageFlags, mapping_setPte_self hpde (hpres _), Option.isSome_some]
  · obtain ⟨p, -, hmap⟩ := Option.bind_eq_some_iff.mp h
    obtain ⟨m₁, hm₁, rfl⟩ := Option.map_eq_some_iff.mp hmap
    simp only [mapping_setPte_self (needTable_mapped hm₁) (hpres _), Option.isSome_some]

theorem isSome_commitPage (h : commitPage tag fl m w = some m') (hv : (m.pt.mapping v).isSome) :
    (m'.pt.mapping v).isSome := by
  by_cases hidx : ptabIdx v = ptabIdx w
  · have hpage : v.toNat / 4096 = w.toNat / 4096 := by
      rw [← toNat_ptabIdx, ← toNat_ptabIdx, hidx]
    rw [mapping_congr hpage]
    exact mapping_commitPage_self h
  · rwa [mapping_commitPage_ne hidx h]

theorem isSome_commit {l : List UInt32} (hm : l.foldlM (commitPage tag fl) m = some m')
    (hv : (m.pt.mapping v).isSome ∨ v ∈ l) : (m'.pt.mapping v).isSome := by
  induction l generalizing m with
  | nil =>
    obtain rfl := Option.some.inj hm
    simpa using hv
  | cons w l ih =>
    obtain ⟨m₁, hw, hrest⟩ := Option.bind_eq_some_iff.mp hm
    refine ih hrest ?_
    rcases hv with hv | hv
    · exact Or.inl (isSome_commitPage hw hv)
    rcases List.mem_cons.mp hv with rfl | hv
    · exact Or.inl (mapping_commitPage_self hw)
    · exact Or.inr hv

theorem pt_reserveRange (type : UInt32) : (m.reserveRange a n type).1.pt = m.pt := by
  rw [Vm.reserveRange]
  split <;> rfl

theorem allocEffect {type protect start : UInt32} {rc : ℤ} (hstart : start ≠ 0)
    (hm : m.vmalloc addr size type protect tag = some (m', start, rc)) :
    AllocEffect m start size type m' := by
  simp only [Vm.vmalloc] at hm
  split at hm
  · obtain ⟨-, heq⟩ := Prod.mk.inj (Option.some.inj hm)
    exact absurd (Prod.mk.inj heq).1.symm hstart
  split at hm
  · obtain ⟨-, heq⟩ := Prod.mk.inj (Option.some.inj hm)
    exact absurd (Prod.mk.inj heq).1.symm hstart
  set type' := if pageAddr addr = 0 ∧ type &&& memCommit ≠ 0 then type ||| memReserve else type
    with htype
  have hcommit : type' &&& memCommit = type &&& memCommit := by
    rw [htype]
    split
    · rw [or_and_distrib, show memReserve &&& memCommit = 0 by decide, UInt32.or_zero]
    · rfl
  rw [hcommit] at hm
  set p := if type' &&& memReserve ≠ 0 then m.reserveRange (pageAddr addr) (pages size) type'
    else (m, if validRange m.vmap (pageAddr addr) size then pageAddr addr else 0) with hp
  have hpt : p.1.pt = m.pt := by
    rw [hp]
    split
    · exact pt_reserveRange _
    · rfl
  split at hm
  · obtain ⟨-, heq⟩ := Prod.mk.inj (Option.some.inj hm)
    exact absurd (Prod.mk.inj heq).1.symm hstart
  split at hm
  · next hc =>
    obtain ⟨m₁, hm₁, hout⟩ := Option.map_eq_some_iff.mp hm
    obtain ⟨rfl, hrest⟩ := Prod.mk.inj hout
    obtain ⟨rfl, -⟩ := Prod.mk.inj hrest
    exact ⟨fun _ w hw => isSome_commit hm₁ (Or.inr hw),
      fun v hv => by rw [mapping_commit hv hm₁, hpt], fun hno => absurd hno hc⟩
  · next hc =>
    obtain ⟨rfl, -⟩ := Prod.mk.inj (Option.some.inj hm)
    exact ⟨fun hno => absurd hno hc, fun v _ => by rw [hpt], fun _ => hpt⟩

section runs

variable (filePage : Vm → Option UInt32 → UInt32 → Except (Vm × ℤ) (Vm × Option UInt32))
  (fileEnd : Vm → UInt32 → Vm × ℤ)

theorem Booted.reach (hb : Booted m₀ frames)
    (h : Reach (VmCall.exec filePage fileEnd) VmCall.Ok m₀ m) :
    ∃ frames', Accounted m frames' ∧
      total (hold m.pt) frames' = total (hold m₀.pt) frames := by
  refine h.invariant (P := fun m => ∃ frames', Accounted m frames' ∧
    total (hold m.pt) frames' = total (hold m₀.pt) frames) ⟨frames, hb.accounted, rfl⟩
    fun m₁ c m₂ hinv hok hc => ?_
  obtain ⟨frames₁, h₁, htotal⟩ := hinv
  obtain ⟨frames₂, h₂, htotal'⟩ := h₁.exec filePage fileEnd hok hc
  exact ⟨frames₂, h₂, htotal'.trans htotal⟩

/-- In every run from boot the frames are in order, none is lost or made, and each call has the
effect on mappings and reservations that it should. -/
theorem anonymous_memory (hb : Booted m₀ frames)
    (h : Reach (VmCall.exec filePage fileEnd) VmCall.Ok m₀ m) :
    (∃ frames', FramesOk m frames') ∧
      m.freemem.toNat + inUse m.pt = m₀.freemem.toNat + inUse m₀.pt ∧
      (∀ addr size type protect tag start rc m', start ≠ 0 →
        m.vmalloc addr size type protect tag = some (m', start, rc) →
          AllocEffect m start size type m') ∧
      (∀ addr size type, NoWrap addr size → size ≠ 0 →
        (m.vmfree filePage fileEnd addr size type).2 = 0 →
          FreeEffect m addr size type (m.vmfree filePage fileEnd addr size type).1) ∧
      ∀ addr size protect, NoWrap addr size →
        ProtectEffect m addr size (m.vmprotect addr size protect).1 := by
  obtain ⟨frames', h', htotal⟩ := hb.reach filePage fileEnd h
  refine ⟨⟨frames', h'.toFramesOk⟩, ?_, ?_, ?_, ?_⟩
  · rw [← total_eq h'.toFramesOk, ← total_eq hb.toFramesOk, htotal]
  · intro addr size type protect tag start rc m' hstart hm
    exact allocEffect hstart hm
  · intro addr size type hwrap hsize hrc
    exact h'.freeEffect hwrap type hsize hrc
  · intro addr size protect hwrap
    exact h'.protectEffect hwrap protect

end runs

/-- A machine with the free frames 5 and 6. -/
def smallBoot : Vm where
  vmap := initVmap Tracked.blank
  pt := ⟨fun _ => 0, fun _ => 0⟩
  tag := fun _ => 0
  next := Function.update (fun _ => none) 5 (some 6)
  freelist := some 5
  freemem := 2

theorem booted_smallBoot : Booted smallBoot [5, 6] := by
  have hpde : ∀ v, smallBoot.pt.pageDirectoryMapped v = false := by
    simp [smallBoot, pageDirectoryMapped, getPde]
  have hmap : ∀ v, smallBoot.pt.mapping v = none := by
    intro v
    rw [mapping_eq_none, pageMapped, hpde, Bool.false_and]
  have hhold : ∀ k, hold smallBoot.pt k = none := by
    intro k
    cases k with
    | inl p => rw [hold, hmap, Option.map_none]
    | inr t => simp [hold, table, hpde]
  refine ⟨⟨⟨rfl, rfl, rfl⟩, rfl, ?_, ⟨?_, ?_, by decide⟩⟩, ?_, ⟨_, rfl⟩, fun v _ => hmap v⟩
  · intro f hf
    rw [List.mem_pair] at hf
    rcases hf with rfl | rfl <;> decide
  · intro k k' f hk
    rw [hhold k] at hk
    simp at hk
  · intro k f hk
    rw [hhold k] at hk
    simp at hk
  · intro w _ hw
    rw [hpde w] at hw
    exact absurd hw (by decide)

/-- Memory without mapped files. -/
def noFilePage (m : Vm) (fm : Option UInt32) (_ : UInt32) : Except (Vm × ℤ) (Vm × Option UInt32) :=
  .ok (m, fm)

def noFileEnd (m : Vm) (_ : UInt32) : Vm × ℤ := (m, 0)

theorem anonymous_memory_page :
    ∃ m, VmCall.exec noFilePage noFileEnd smallBoot (.alloc 0x10000 4096 0x3000 4 0) = some m ∧
      (∃ frames', FramesOk m frames') ∧
      m.freemem.toNat + inUse m.pt = smallBoot.freemem.toNat + inUse smallBoot.pt := by
  have hsome : (VmCall.exec noFilePage noFileEnd smallBoot
      (.alloc 0x10000 4096 0x3000 4 0)).isSome = true := by decide +kernel
  obtain ⟨m, hm⟩ := Option.isSome_iff_exists.mp hsome
  have hok : VmCall.Ok smallBoot (.alloc 0x10000 4096 0x3000 4 0) := by
    simp only [VmCall.Ok, NoWrap]
    decide
  obtain ⟨hframes, hsum, -⟩ := anonymous_memory noFilePage noFileEnd booted_smallBoot
    (Reach.single hok hm)
  exact ⟨m, hm, hframes, hsum⟩

/-! A run that fills the table of the map: three pages are reserved out of every four. -/

theorem reserve_skip {full : Bool} {o s : UInt32} {pre l : List Slot}
    (h : ∀ x ∈ pre, x.offset ≤ o ∧ x.offset + x.size ≤ o) :
    reserve full o s (pre ++ l) = (reserve full o s l).map fun p => (pre ++ p.1, p.2) := by
  induction pre with
  | nil => simp
  | cons x pre ih =>
    obtain ⟨hlo, hhi⟩ := h x List.mem_cons_self
    have hin : ¬(x.offset ≤ o ∧ o < x.offset + x.size) := fun hx => UInt32.not_lt.mpr hhi hx.2
    rw [List.cons_append, reserve, if_neg (UInt32.not_lt.mpr hlo), if_pos hin,
      ih fun y hy => h y (List.mem_cons_of_mem _ hy), Option.map_map]
    rfl

/-- The first address of the `k`th group of three pages. -/
def group (k : ℕ) : UInt32 := addrOf (17 + 4 * k)

/-- Single free pages between the first `k` groups. -/
def comb (k : ℕ) : List Slot := (List.range k).map fun i => ⟨UInt32.ofNat (16 + 4 * i), 1⟩

/-- What is free behind the first `k` groups. -/
def behind (k : ℕ) : Slot := ⟨UInt32.ofNat (16 + 4 * k), UInt32.ofNat (0x7FFF0 - 4 * k)⟩

theorem comb_succ (k : ℕ) : comb (k + 1) = comb k ++ [⟨UInt32.ofNat (16 + 4 * k), 1⟩] := by
  simp [comb, List.range_succ]

theorem comb_two (k : ℕ) : ∃ l, comb (k + 2) = ⟨16, 1⟩ :: ⟨20, 1⟩ :: l := by
  simp only [comb, List.range_succ_eq_map]
  exact ⟨_, rfl⟩

theorem pages_group : pages 12288 = 3 := by decide

theorem group_eq {k : ℕ} (hk : k ≤ 1022) :
    (group k).toNat = 4096 * (17 + 4 * k) ∧ pageAddr (group k) = group k ∧
      btop (group k) = UInt32.ofNat (17 + 4 * k) := by
  have hval : (group k).toNat = 4096 * (17 + 4 * k) := toNat_addrOf (by omega)
  refine ⟨hval, UInt32.toNat.inj ?_, UInt32.toNat.inj ?_⟩
  · rw [toNat_pageAddr]
    omega
  · rw [toNat_btop, toNat_ofNat (by omega)]
    omega

theorem reserve_behind {k : ℕ} (hk : k ≤ 1022) :
    reserve false (UInt32.ofNat (17 + 4 * k)) 3 [behind k] =
      some ([⟨UInt32.ofNat (16 + 4 * k), 1⟩, behind (k + 1)], 0) := by
  have h3 : (3 : UInt32).toNat = 3 := rfl
  have ho : (UInt32.ofNat (17 + 4 * k)).toNat = 17 + 4 * k := toNat_ofNat (by omega)
  have hx : (behind k).offset.toNat = 16 + 4 * k := toNat_ofNat (by omega)
  have hs : (behind k).size.toNat = 0x7FFF0 - 4 * k := toNat_ofNat (by omega)
  have htop : ((behind k).offset + (behind k).size).toNat = 0x80000 := by
    rw [toNat_add (by omega)]
    omega
  have hrtop : (UInt32.ofNat (17 + 4 * k) + 3).toNat = 20 + 4 * k := by
    rw [toNat_add (by omega)]
    omega
  have hbelow : UInt32.ofNat (17 + 4 * k) - (behind k).offset = 1 := by
    refine UInt32.toNat.inj ?_
    rw [toNat_sub (by omega), UInt32.toNat_one]
    omega
  have habove : (⟨UInt32.ofNat (17 + 4 * k) + 3, (behind k).offset + (behind k).size -
      (UInt32.ofNat (17 + 4 * k) + 3)⟩ : Slot) = behind (k + 1) := by
    have h1 : UInt32.ofNat (17 + 4 * k) + 3 = UInt32.ofNat (16 + 4 * (k + 1)) := by
      refine UInt32.toNat.inj ?_
      rw [toNat_ofNat (by omega)]
      omega
    have h2 : (behind k).offset + (behind k).size - (UInt32.ofNat (17 + 4 * k) + 3) =
        UInt32.ofNat (0x7FFF0 - 4 * (k + 1)) := by
      refine UInt32.toNat.inj ?_
      rw [toNat_sub (by omega), toNat_ofNat (by omega)]
      omega
    rw [h2, h1]
    rfl
  rw [reserve, if_neg, if_neg, if_neg, if_neg, if_neg, hbelow, habove]
  · rfl
  · intro heq
    have := congrArg UInt32.toNat heq
    omega
  · intro heq
    have := congrArg UInt32.toNat heq
    omega
  · rw [UInt32.lt_iff_toNat_lt]
    omega
  · rw [UInt32.le_iff_toNat_le, UInt32.lt_iff_toNat_lt]
    omega
  · rw [UInt32.lt_iff_toNat_lt]
    omega

theorem reserve_group {k : ℕ} (hk : k ≤ 1022) :
    reserve false (UInt32.ofNat (17 + 4 * k)) 3 (comb k ++ [behind k]) =
      some (comb (k + 1) ++ [behind (k + 1)], 0) := by
  have hbelow : ∀ x ∈ comb k, x.offset ≤ UInt32.ofNat (17 + 4 * k) ∧
      x.offset + x.size ≤ UInt32.ofNat (17 + 4 * k) := by
    intro x hx
    obtain ⟨i, hi, rfl⟩ := List.mem_map.mp hx
    rw [List.mem_range] at hi
    have ho : (UInt32.ofNat (17 + 4 * k)).toNat = 17 + 4 * k := toNat_ofNat (by omega)
    have hi' : (UInt32.ofNat (16 + 4 * i)).toNat = 16 + 4 * i := toNat_ofNat (by omega)
    have h1 : (UInt32.ofNat (16 + 4 * i) + 1).toNat = 17 + 4 * i := by
      rw [toNat_add (by rw [UInt32.toNat_one]; omega), UInt32.toNat_one]
      omega
    simp only [UInt32.le_iff_toNat_le]
    omega
  rw [reserve_skip hbelow, reserve_behind hk, comb_succ]
  simp

theorem span_group {k : ℕ} (hk : k ≤ 1022) :
    span (17 + 4 * k) 3 ⊆ freeUnits (comb k ++ [behind k]) := by
  intro u hu
  rw [mem_span] at hu
  have hx : (behind k).offset.toNat = 16 + 4 * k := toNat_ofNat (by omega)
  have hs : (behind k).size.toNat = 0x7FFF0 - 4 * k := toNat_ofNat (by omega)
  refine ⟨behind k, by simp, ?_⟩
  simp only [Slot.lo, Slot.len]
  omega

theorem reach_comb {k : ℕ} (hk : k ≤ 1022) :
    ∃ m, Reach (VmCall.exec noFilePage noFileEnd) VmCall.Ok smallBoot m ∧
      m.vmap.view = ⟨comb k ++ [behind k], 1023, 0⟩ := by
  induction k with
  | zero => exact ⟨smallBoot, Reach.refl _, view_initVmap _⟩
  | succ k ih =>
    obtain ⟨m, hreach, hview⟩ := ih (by omega)
    obtain ⟨frames, hacc, -⟩ := booted_smallBoot.reach noFilePage noFileEnd hreach
    obtain ⟨hval, hpage, hb⟩ := group_eq (k := k) (by omega)
    have hent : m.vmap.entries = comb k ++ [behind k] := congrArg View.entries hview
    have h3 : (3 : UInt32).toNat = 3 := rfl
    have hwrap : NoWrap (group k) 12288 := by
      refine ⟨by decide, ?_⟩
      rw [hpage, pages_group]
      omega
    have hfree : span (btop (pageAddr (group k))).toNat (pages 12288).toNat ⊆
        freeUnits m.vmap.entries := by
      rw [hpage, hb, hent, toNat_ofNat (by omega)]
      exact span_group (by omega)
    have hcall := hacc.vmalloc_reserve hwrap (by decide)
      (by rw [hpage]; intro h0; rw [h0, UInt32.toNat_zero] at hval; omega) hfree 0 0
    refine ⟨_, hreach.tail (l := .alloc (group k) 12288 memReserve 0 0) hwrap
      (by rw [VmCall.exec, hcall]; rfl), ?_⟩
    have hfull : m.vmap.view.full = false := by
      rw [hview]
      simp [View.full, comb]
      omega
    rcases Rmap.rmapReserve_view (o := btop (pageAddr (group k))) (s := pages 12288) hacc.fits with
      ⟨-, hnone⟩ | ⟨l, c, hsome, -, hnew⟩
    · rw [hfull, hent, hpage, hb, pages_group, reserve_group (by omega)] at hnone
      simp at hnone
    · rw [hfull, hent, hpage, hb, pages_group, reserve_group (by omega)] at hsome
      obtain ⟨rfl, rfl⟩ := Prod.mk.inj (Option.some.inj hsome)
      have hsize : (m.vmap.slot 0).size = 1023 := congrArg View.size hview
      have hlost : m.vmap.lostElems = 0 := congrArg View.lostElems hview
      rw [hnew, hsize, hlost, UInt32.add_zero]

/-- The page 18, in the middle of the first group, when the table of the map is full: it is released
and cannot be reserved again. -/
theorem release_lost :
    ¬ ∀ (m₀ m : Vm) (frames : List UInt32) (addr size type : UInt32), Booted m₀ frames →
      Reach (VmCall.exec noFilePage noFileEnd) VmCall.Ok m₀ m → NoWrap addr size → size ≠ 0 →
      (m.vmfree noFilePage noFileEnd addr size type).2 = 0 → type &&& memRelease ≠ 0 →
        ∃ m'', (m.vmfree noFilePage noFileEnd addr size type).1.vmalloc addr size memReserve 0 0 =
          some (m'', pageAddr addr, 0) := by
  intro hclaim
  obtain ⟨m, hreach, hview⟩ := reach_comb (Nat.le_refl 1022)
  obtain ⟨frames, hacc, -⟩ := booted_smallBoot.reach noFilePage noFileEnd hreach
  obtain ⟨pre, hpre⟩ := comb_two 1020
  obtain ⟨l, hl⟩ : ∃ l, comb 1022 ++ [behind 1022] = ⟨16, 1⟩ :: ⟨20, 1⟩ :: l :=
    ⟨pre ++ [behind 1022], congrArg (· ++ [behind 1022]) hpre⟩
  have hent : m.vmap.entries = ⟨16, 1⟩ :: ⟨20, 1⟩ :: l := by
    rw [← hl]
    exact congrArg View.entries hview
  have hfull : m.vmap.view.full = true := by
    rw [hview]
    simp [View.full, comb]
  have hwrap : NoWrap 0x12000 4096 := by
    simp only [NoWrap]
    decide
  have hvalid : validRange m.vmap (pageAddr 0x12000) 4096 = true := by
    have hstatus : m.vmap.rmapStatus (btop (pageAddr 0x12000)) (pages 4096) = 1 := by
      rw [Rmap.rmapStatus_eq, hent]
      rfl
    rw [validRange, hstatus]
    decide
  have hfreed := hacc.vmfree_eq noFilePage noFileEnd hwrap memRelease (by decide) hvalid
  have hmap : (m.vmap.rmapFree (btop (pageAddr 0x12000)) (pages 4096)).entries =
      ⟨16, 1⟩ :: ⟨20, 1⟩ :: l := by
    have := congrArg View.entries (Rmap.rmapFree_view (o := btop (pageAddr 0x12000))
      (s := pages 4096) hacc.fits)
    rw [hfull, hent] at this
    exact this
  obtain ⟨m'', hm''⟩ := hclaim smallBoot m [5, 6] 0x12000 4096 memRelease booted_smallBoot hreach
    hwrap (by decide) (by rw [hfreed]) (by decide)
  obtain ⟨frames', hacc', -⟩ := hacc.vmfree noFilePage noFileEnd hwrap memRelease
  -- nothing below page 20 holds page 18
  have hreserve : ∀ m₁ : Vm, m₁.vmap.Fits → m₁.vmap.entries = ⟨16, 1⟩ :: ⟨20, 1⟩ :: l →
      (m₁.vmap.rmapReserve 18 1).2 = 1 := by
    intro m₁ hfits hent₁
    rcases Rmap.rmapReserve_view hfits with ⟨heq, -⟩ | ⟨l', k, hsome, -, -⟩
    · rw [heq]
    · rw [hent₁] at hsome
      simp [reserve] at hsome
  have hrc := hreserve _ hacc'.fits (by rw [hfreed]; exact hmap)
  have hpage : pageAddr 0x12000 = 0x12000 ∧ btop 0x12000 = 18 ∧ pages 4096 = 1 := by decide
  have hflags : memReserve &&& memCommit = 0 ∧ memReserve ≠ 0 := by decide
  rw [Vm.vmalloc] at hm''
  simp [Vm.reserveRange, hpage, hrc, hflags] at hm''

end SimpleKernel.Mem
