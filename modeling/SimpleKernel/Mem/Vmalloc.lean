import SimpleKernel.Mem.Anonymous

/-! `vmalloc` as a whole: it grants the range that it was asked for or changes nothing. -/
namespace SimpleKernel.Mem
open Intervals Entries PageTables Vm Holdings

variable {m m' : Vm} {v w a n fl tag addr size type protect : UInt32} {frames : List UInt32}

/-! Frames for the pages and their tables. -/

/-- The free list and its count. -/
structure FreeFrames (m : Vm) (frames : List UInt32) : Prop where
  stack : IsStack m.next m.freelist frames
  count : m.freemem.toNat = frames.length
  small : ∀ f ∈ frames, f.toNat < 2 ^ 20
  nodup : frames.Nodup

theorem FreeFrames.alloc {p : Vm × UInt32} (h : FreeFrames m frames) (hp : m.allocPageframe tag = some p) :
    ∃ rest, frames = p.2 :: rest ∧ FreeFrames p.1 rest := by
  obtain ⟨rest, rfl, hstack, hcount⟩ := alloc_stack h.stack h.count h.nodup hp
  have hsmall : ∀ f ∈ rest, f.toNat < 2 ^ 20 := fun f hf => h.small f (List.mem_cons_of_mem _ hf)
  exact ⟨rest, rfl, hstack, hcount, hsmall, (List.nodup_cons.mp h.nodup).2⟩

section
variable (h : FreeFrames m frames)
include h

theorem FreeFrames.alloc_isSome (hpos : 1 ≤ frames.length) (tag : UInt32) :
    (m.allocPageframe tag).isSome := by
  obtain ⟨f, rest, rfl⟩ := List.exists_cons_of_length_pos hpos
  have hcount := h.count
  have hne : m.freemem ≠ 0 := by
    intro hzero
    rw [hzero, UInt32.toNat_zero] at hcount
    omega
  rw [allocPageframe, if_neg hne, h.stack.1, Option.map_some, Option.isSome_some]

theorem FreeFrames.needTable (hm : m.needTable v = some m') :
    ∃ frames', FreeFrames m' frames' ∧ frames.length ≤ frames'.length + 1 := by
  rcases needTable_cases hm with ⟨-, rfl⟩ | ⟨-, p, hp, rfl⟩
  · exact ⟨frames, h, Nat.le_succ _⟩
  · obtain ⟨rest, rfl, hrest⟩ := h.alloc hp
    exact ⟨rest, ⟨hrest.stack, hrest.count, hrest.small, hrest.nodup⟩, by rw [List.length_cons]⟩

theorem FreeFrames.needTable_isSome (hpos : 1 ≤ frames.length) :
    (m.needTable v).isSome := by
  unfold Vm.needTable
  split
  · rw [Option.isSome_map]
    exact h.alloc_isSome hpos tagPtab
  · rfl

theorem FreeFrames.commitPage (hm : commitPage tag fl m v = some m') :
    m'.vmap = m.vmap ∧ ∃ frames', FreeFrames m' frames' ∧ frames.length ≤ frames'.length + 2 := by
  unfold Vm.commitPage at hm
  split at hm
  · obtain rfl := Option.some.inj hm
    exact ⟨rfl, frames, ⟨h.stack, h.count, h.small, h.nodup⟩, by omega⟩
  · obtain ⟨p, hp, hmap⟩ := Option.bind_eq_some_iff.mp hm
    obtain ⟨m₁, hm₁, rfl⟩ := Option.map_eq_some_iff.mp hmap
    obtain ⟨rest, rfl, hrest⟩ := h.alloc hp
    obtain ⟨frames', hframes, hlen⟩ := hrest.needTable hm₁
    have hvmap : m₁.vmap = m.vmap := (vmap_needTable hm₁).trans (pt_allocPageframe hp).2
    exact ⟨hvmap, frames', ⟨hframes.stack, hframes.count, hframes.small, hframes.nodup⟩,
      by rw [List.length_cons]; omega⟩

theorem FreeFrames.commitPage_isSome (htwo : 2 ≤ frames.length) (tag fl v : UInt32) :
    (Vm.commitPage tag fl m v).isSome := by
  unfold Vm.commitPage
  split
  · rfl
  · obtain ⟨p, hp⟩ := Option.isSome_iff_exists.mp (h.alloc_isSome (by omega) tag)
    obtain ⟨rest, rfl, hrest⟩ := h.alloc hp
    rw [List.length_cons] at htwo
    rw [hp, Option.bind_some, Vm.mapPage, Option.isSome_map]
    exact hrest.needTable_isSome (by omega)

end

theorem FreeFrames.commit_isSome {l : List UInt32} (h : FreeFrames m frames)
    (hlen : 2 * l.length ≤ frames.length) : (l.foldlM (Vm.commitPage tag fl) m).isSome := by
  induction l generalizing m frames with
  | nil => rfl
  | cons w l ih =>
    rw [List.length_cons] at hlen
    obtain ⟨m₁, hw⟩ := Option.isSome_iff_exists.mp (h.commitPage_isSome (by omega) tag fl w)
    obtain ⟨-, frames₁, h₁, hleft⟩ := h.commitPage hw
    rw [List.foldlM_cons, hw]
    exact ih h₁ (by omega)

/-! Protections of the pages. -/

/-- The page of `v` is mapped with the protection `fl`. -/
def MappedWith (pt : PageTables) (v fl : UInt32) : Prop :=
  pt.pageMapped v = true ∧ pt.getPageFlags v = fl ||| ptPresent

theorem mappedWith_iff {pt : PageTables} :
    MappedWith pt v fl ↔ ∃ x, pt.mapping v = some x ∧ x &&& ptFlagmask = fl ||| ptPresent := by
  constructor
  · rintro ⟨hmapped, hflags⟩
    exact ⟨_, if_pos hmapped, hflags⟩
  · rintro ⟨x, hx, hflags⟩
    obtain ⟨hpde, hpres, rfl⟩ := mapping_eq_some.mp hx
    refine ⟨?_, hflags⟩
    rw [pageMapped, hpde, Bool.true_and, bne_iff_ne]
    exact hpres

theorem MappedWith.of_page {pt : PageTables} (h : v.toNat / 4096 = w.toNat / 4096) (hv : MappedWith pt v fl) :
    MappedWith pt w fl := by
  rw [mappedWith_iff] at hv ⊢
  rwa [← mapping_congr h]

theorem flags_kept (h : fl ∈ [0, ptUser, ptUser ||| ptWritable, ptGuard, ptGuard ||| ptWritable]) :
    (fl ||| ptPresent) &&& ptFlagmask = fl ||| ptPresent := by
  simp only [List.mem_cons, List.not_mem_nil, or_false] at h
  rcases h with rfl | rfl | rfl | rfl | rfl <;> decide

theorem mappedWith_commitPage_self (h : FreeFrames m frames)
    (hkept : (fl ||| ptPresent) &&& ptFlagmask = fl ||| ptPresent)
    (hm : commitPage tag fl m w = some m') : MappedWith m'.pt w fl := by
  have hset (pt : PageTables) (y : UInt32) (hpde : pt.pageDirectoryMapped w = true) :
      MappedWith (pt.setPte w (entryOf y (fl ||| ptPresent))) w fl := by
    have hpres : entryOf y (fl ||| ptPresent) &&& ptPresent ≠ 0 := by
      rw [entryOf_and (by decide), or_and_self]
      decide
    rw [mappedWith_iff]
    refine ⟨_, mapping_setPte_self hpde hpres, ?_⟩
    rw [entryOf_and (by decide), hkept]
  unfold Vm.commitPage at hm
  split at hm
  · next hmapped =>
    obtain rfl := Option.some.inj hm
    rw [pageMapped, Bool.and_eq_true] at hmapped
    exact hset m.pt (m.pt.getPte w) hmapped.1
  · obtain ⟨p, hp, hmap⟩ := Option.bind_eq_some_iff.mp hm
    obtain ⟨m₁, hm₁, rfl⟩ := Option.map_eq_some_iff.mp hmap
    obtain ⟨rest, rfl, -⟩ := h.alloc hp
    rw [ptob_or (h.small p.2 List.mem_cons_self)]
    exact hset m₁.pt (ptob p.2) (needTable_mapped hm₁)

theorem mappedWith_commitPage (h : FreeFrames m frames)
    (hkept : (fl ||| ptPresent) &&& ptFlagmask = fl ||| ptPresent)
    (hm : commitPage tag fl m w = some m') (hv : MappedWith m.pt v fl) : MappedWith m'.pt v fl := by
  by_cases hidx : ptabIdx v = ptabIdx w
  · have hpage : w.toNat / 4096 = v.toNat / 4096 := by
      rw [← toNat_ptabIdx, ← toNat_ptabIdx, hidx]
    exact (mappedWith_commitPage_self h hkept hm).of_page hpage
  · rw [mappedWith_iff] at hv ⊢
    rwa [mapping_commitPage_ne hidx hm]

theorem mappedWith_commit {l : List UInt32} (h : FreeFrames m frames)
    (hkept : (fl ||| ptPresent) &&& ptFlagmask = fl ||| ptPresent)
    (hm : l.foldlM (Vm.commitPage tag fl) m = some m') :
    m'.vmap = m.vmap ∧ ∀ v, MappedWith m.pt v fl ∨ v ∈ l → MappedWith m'.pt v fl := by
  induction l generalizing m frames with
  | nil =>
    obtain rfl := Option.some.inj hm
    exact ⟨rfl, fun v hv => hv.resolve_right (List.not_mem_nil)⟩
  | cons w l ih =>
    obtain ⟨m₁, hw, hrest⟩ := Option.bind_eq_some_iff.mp hm
    obtain ⟨hvmap, frames₁, h₁, -⟩ := h.commitPage hw
    obtain ⟨hvmap', hmapped⟩ := ih h₁ hrest
    refine ⟨hvmap'.trans hvmap, fun v hv => hmapped v ?_⟩
    rcases hv with hv | hv
    · exact Or.inl (mappedWith_commitPage h hkept hw hv)
    rcases List.mem_cons.mp hv with rfl | hv
    · exact Or.inl (mappedWith_commitPage_self h hkept hw)
    · exact Or.inr hv

/-! The range. -/

/-- The type of a call: memory that is committed at no address in particular is also reserved. -/
def effective (addr type : UInt32) : UInt32 :=
  if pageAddr addr = 0 ∧ type &&& memCommit ≠ 0 then type ||| memReserve else type

/-- The call takes address space that is free. -/
def Reserving (addr type : UInt32) : Prop := effective addr type &&& memReserve ≠ 0

instance : Decidable (Reserving addr type) := by
  unfold Reserving
  infer_instance

/-- The address is inside the range. -/
def Inside (start size v : UInt32) : Prop := start.toNat ≤ v.toNat ∧ v.toNat < start.toNat + size.toNat

/-- What a caller has got with the range at `start`. -/
structure Granted (m : Vm) (addr size type protect : UInt32) (m' : Vm) (start : UInt32) : Prop where
  user : start.toNat + size.toNat ≤ osBase.toNat
  reserved : ∀ v, Inside start size v → (btop v).toNat ∉ freeUnits m'.vmap.entries
  free : Reserving addr type → ∀ v, Inside start size v → (btop v).toNat ∈ freeUnits m.vmap.entries
  mapped : type &&& memCommit ≠ 0 → ∀ v, Inside start size v →
    MappedWith m'.pt v (pteFlagsFromProtect protect)

/-- The call has changed nothing or the caller has got the range. -/
def AllOrNothing (m : Vm) (addr size type protect : UInt32) (m' : Vm) (start : UInt32) : Prop :=
  if start = 0 then m' = m else Granted m addr size type protect m' start

/-- The call names no known protection, takes a range whose number of pages does not wrap, or is refused. -/
inductive Meets (m : Vm) (addr size type protect : UInt32) : Prop
  | protection : type &&& memCommit ≠ 0 → pteFlagsFromProtect protect = noFlags → Meets m addr size type protect
  | reserving : Reserving addr type → size.toNat ≤ 2 ^ 32 - 4096 → Meets m addr size type protect
  | full : Reserving addr type → ¬ HasPlace m.vmap (pageAddr addr) (effective addr type) →
      Meets m addr size type protect
  | owned : ¬ Reserving addr type → size.toNat ≤ 2 ^ 32 - 4096 →
      (pageAddr addr).toNat + 4096 * (pages size).toNat < 2 ^ 32 → Meets m addr size type protect
  | invalid : ¬ Reserving addr type → validRange m.vmap (pageAddr addr) size = false →
      Meets m addr size type protect

/-- Where the range is to lie, 0 if nowhere. -/
def Vm.place (m : Vm) (addr size type : UInt32) : Vm × UInt32 :=
  if Reserving addr type then m.reserveRange (pageAddr addr) (pages size) (effective addr type)
  else (m, if validRange m.vmap (pageAddr addr) size then pageAddr addr else 0)

theorem vmalloc_eq (hsize : size ≠ 0) :
    m.vmalloc addr size type protect tag =
      if type &&& memCommit ≠ 0 ∧ pteFlagsFromProtect protect = noFlags then some (m, 0, -EINVAL)
      else if (m.place addr size type).2 = 0 then
        some ((m.place addr size type).1, 0, if Reserving addr type then -ENOMEM else -EFAULT)
      else if effective addr type &&& memCommit ≠ 0 then
        ((pageRange (m.place addr size type).2 (pages size)).foldlM
          (commitPage (if tag = 0 then tagVm else tag) (pteFlagsFromProtect protect))
          (m.place addr size type).1).map fun m' => (m', (m.place addr size type).2, 0)
      else some ((m.place addr size type).1, (m.place addr size type).2, 0) := by
  rw [Vm.vmalloc, if_neg hsize]
  rfl

theorem effective_commit (addr type : UInt32) : effective addr type &&& memCommit = type &&& memCommit := by
  unfold effective
  split
  · have hzero : memReserve &&& memCommit = 0 := by decide
    rw [or_and_distrib, hzero, UInt32.or_zero]
  · rfl

theorem place_zero (h : UserMap m.vmap) (hzero : (m.place addr size type).2 = 0) : (m.place addr size type).1 = m := by
  unfold Vm.place at hzero ⊢
  split
  · next hres =>
    rw [if_pos hres] at hzero
    exact reserveRange_zero h hzero
  · rfl

theorem inside_page (halign : a.toNat % 4096 = 0) (hsize : size.toNat ≤ 2 ^ 32 - 4096)
    (hend : a.toNat + 4096 * (pages size).toNat < 2 ^ 32) (hv : Inside a size v) :
    ∃ w ∈ pageRange a (pages size), w.toNat / 4096 = v.toNat / 4096 := by
  obtain ⟨hlo, hhi⟩ := hv
  have hn := toNat_pages size
  have hi : (v.toNat - a.toNat) / 4096 < (pages size).toNat := by omega
  refine ⟨_, mem_pageRange.mpr ⟨(v.toNat - a.toNat) / 4096, hi, rfl⟩, ?_⟩
  rw [toNat_ahead (by omega)]
  omega

/-- A range with its place: allocated user pages, which were free if the call takes free ones. -/
structure Placed (m : Vm) (addr type n : UInt32) (m' : Vm) (start : UInt32) : Prop where
  aligned : start.toNat % 4096 = 0
  pt : m'.pt = m.pt
  frames : m'.next = m.next ∧ m'.freelist = m.freelist ∧ m'.freemem = m.freemem
  fits : start.toNat + 4096 * n.toNat ≤ osBase.toNat
  owned : ∀ w ∈ pageRange start n, Owned m'.vmap w
  free : Reserving addr type → span (start.toNat / 4096) n.toNat ⊆ freeUnits m.vmap.entries

theorem place_reserving (h : UserMap m.vmap) (hres : Reserving addr type) (hsize : size ≠ 0)
    (hle : size.toNat ≤ 2 ^ 32 - 4096) (hne : (m.place addr size type).2 ≠ 0) :
    Placed m addr type (pages size) (m.place addr size type).1 (m.place addr size type).2 := by
  have hpos : 0 < (pages size).toNat := by
    have hn := toNat_pages size
    have hsize' : size.toNat ≠ 0 := fun h0 => hsize (UInt32.toNat.inj h0)
    omega
  obtain ⟨vmap', heq, -, -, htaken⟩ := reserveRange_taken h (effective addr type) hpos (toNat_pages_lt size)
    (pageAddr_aligned addr)
  unfold Vm.place at hne ⊢
  rw [if_pos hres] at hne ⊢
  obtain ⟨haligned, hfree, hgone⟩ := htaken hne
  rw [heq] at hgone ⊢
  have hlast := (h.user _ (hfree (by exact ⟨Nat.le_add_right _ _, Nat.add_lt_add_left
    (Nat.sub_lt hpos Nat.one_pos) _⟩))).2
  have hos : osBase.toNat = 2147483648 := rfl
  exact ⟨haligned, rfl, ⟨rfl, rfl, rfl⟩, by omega, owned_of_taken h.user haligned hfree hgone, fun _ => hfree⟩

theorem place_owned (h : UserMap m.vmap) (hres : ¬ Reserving addr type)
    (hend : (pageAddr addr).toNat + 4096 * (pages size).toNat < 2 ^ 32) (hne : (m.place addr size type).2 ≠ 0) :
    Placed m addr type (pages size) (m.place addr size type).1 (m.place addr size type).2 := by
  unfold Vm.place at hne ⊢
  rw [if_neg hres] at hne ⊢
  have hvalid : validRange m.vmap (pageAddr addr) size = true := by
    by_contra hno
    exact hne (if_neg hno)
  rw [if_pos hvalid]
  obtain ⟨-, hhi, -⟩ := validRange_iff.mp hvalid
  rw [UInt32.lt_iff_toNat_lt, UInt32.toNat_add, toNat_pages_mul] at hhi
  exact ⟨pageAddr_aligned addr, rfl, ⟨rfl, rfl, rfl⟩, by dsimp only; omega,
    fun w hw => owned_of_validRange h.good hend hvalid hw, fun hyes => absurd hyes hres⟩

variable {m₁ : Vm} {start : UInt32}

theorem Placed.inside (h : Placed m addr type (pages size) m₁ start) (hle : size.toNat ≤ 2 ^ 32 - 4096)
    (hv : Inside start size v) :
    (btop v).toNat ∉ freeUnits m₁.vmap.entries ∧
      (Reserving addr type → (btop v).toNat ∈ freeUnits m.vmap.entries) ∧
      ∃ w ∈ pageRange start (pages size), w.toNat / 4096 = v.toNat / 4096 := by
  have hos : osBase.toNat = 2147483648 := rfl
  have hfits := h.fits
  obtain ⟨w, hw, hpage⟩ := inside_page h.aligned hle (by omega) hv
  obtain ⟨hlo, hhi⟩ := hv
  have hn := toNat_pages size
  have halign := h.aligned
  refine ⟨?_, fun hres => h.free hres ?_, w, hw, hpage⟩
  · have howned := (h.owned w hw).2.2
    rwa [toNat_btop, hpage, ← toNat_btop] at howned
  · rw [mem_span, toNat_btop]
    omega

theorem Placed.granted (h : Placed m addr type (pages size) m₁ start) (hle : size.toNat ≤ 2 ^ 32 - 4096)
    (hcommit : type &&& memCommit = 0) : Granted m addr size type protect m₁ start := by
  have hn := toNat_pages size
  have hfits := h.fits
  exact ⟨by omega, fun v hv => (h.inside hle hv).1, fun hres v hv => (h.inside hle hv).2.1 hres,
    fun hyes => absurd hcommit hyes⟩

theorem Placed.granted_commit (h : Placed m addr type (pages size) m₁ start) (hle : size.toNat ≤ 2 ^ 32 - 4096)
    (hframes : FreeFrames m frames) (hknown : pteFlagsFromProtect protect ≠ noFlags)
    (hm : (pageRange start (pages size)).foldlM (commitPage tag (pteFlagsFromProtect protect)) m₁ = some m') :
    Granted m addr size type protect m' start := by
  obtain ⟨hnext, hlist, hcount⟩ := h.frames
  have hframes₁ : FreeFrames m₁ frames :=
    ⟨by rw [hnext, hlist]; exact hframes.stack, by rw [hcount]; exact hframes.count, hframes.small, hframes.nodup⟩
  obtain ⟨hvmap, hmapped⟩ := mappedWith_commit hframes₁ (flags_kept (pteFlags_cases hknown)) hm
  have hn := toNat_pages size
  have hfits := h.fits
  constructor
  · omega
  · intro v hv
    rw [hvmap]
    exact (h.inside hle hv).1
  · exact fun hres v hv => (h.inside hle hv).2.1 hres
  · intro _ v hv
    obtain ⟨-, -, w, hw, hpage⟩ := h.inside hle hv
    exact (hmapped w (Or.inr hw)).of_page hpage

theorem vmalloc_cases (hsize : size ≠ 0) {rc : ℤ}
    (hm : m.vmalloc addr size type protect tag = some (m', start, rc)) :
    type &&& memCommit ≠ 0 ∧ pteFlagsFromProtect protect = noFlags ∧ m' = m ∧ start = 0 ∨
      (type &&& memCommit ≠ 0 → pteFlagsFromProtect protect ≠ noFlags) ∧ start = (m.place addr size type).2 ∧
        ((type &&& memCommit = 0 ∨ start = 0) ∧ m' = (m.place addr size type).1 ∨
          type &&& memCommit ≠ 0 ∧ start ≠ 0 ∧ (pageRange start (pages size)).foldlM
            (commitPage (if tag = 0 then tagVm else tag) (pteFlagsFromProtect protect))
            (m.place addr size type).1 = some m') := by
  rw [vmalloc_eq hsize, effective_commit] at hm
  split at hm
  · next hflags =>
    obtain ⟨rfl, heq⟩ := Prod.mk.inj (Option.some.inj hm)
    exact Or.inl ⟨hflags.1, hflags.2, rfl, (Prod.mk.inj heq).1.symm⟩
  next hflags =>
  refine Or.inr ⟨fun hcommit hno => hflags ⟨hcommit, hno⟩, ?_⟩
  split at hm
  · next hzero =>
    obtain ⟨rfl, heq⟩ := Prod.mk.inj (Option.some.inj hm)
    obtain ⟨rfl, -⟩ := Prod.mk.inj heq
    exact ⟨hzero.symm, Or.inl ⟨Or.inr rfl, rfl⟩⟩
  next hne =>
  split at hm
  · next hcommit =>
    obtain ⟨m₂, hm₂, hpair⟩ := Option.map_eq_some_iff.mp hm
    obtain ⟨rfl, heq⟩ := Prod.mk.inj hpair
    obtain ⟨rfl, -⟩ := Prod.mk.inj heq
    exact ⟨rfl, Or.inr ⟨hcommit, hne, hm₂⟩⟩
  · next hcommit =>
    obtain ⟨rfl, heq⟩ := Prod.mk.inj (Option.some.inj hm)
    obtain ⟨rfl, -⟩ := Prod.mk.inj heq
    exact ⟨rfl, Or.inl ⟨Or.inl (not_not.mp hcommit), rfl⟩⟩

theorem pages_wrapped (h : ¬ size.toNat ≤ 2 ^ 32 - 4096) : pages size = 0 := by
  have hlt := size.toNat_lt
  refine UInt32.toNat.inj ?_
  rw [toNat_pages, UInt32.toNat_zero]
  omega

theorem Meets.placed (h : UserMap m.vmap) (hmeets : Meets m addr size type protect) (hsize : size ≠ 0)
    (hknown : type &&& memCommit ≠ 0 → pteFlagsFromProtect protect ≠ noFlags)
    (hne : (m.place addr size type).2 ≠ 0) :
    size.toNat ≤ 2 ^ 32 - 4096 ∧
      Placed m addr type (pages size) (m.place addr size type).1 (m.place addr size type).2 := by
  cases hmeets with
  | protection hcommit hno => exact absurd hno (hknown hcommit)
  | reserving hres hle => exact ⟨hle, place_reserving h hres hsize hle hne⟩
  | full hres hfull =>
    by_cases hle : size.toNat ≤ 2 ^ 32 - 4096
    · exact ⟨hle, place_reserving h hres hsize hle hne⟩
    · rw [Vm.place, if_pos hres, pages_wrapped hle, reserveRange_empty h] at hne
      exact absurd hne hfull
  | owned hres hle hend => exact ⟨hle, place_owned h hres hend hne⟩
  | invalid hres hbad =>
    rw [Vm.place, if_neg hres, hbad] at hne
    exact absurd rfl hne

theorem Meets.of_refused (h : UserMap m.vmap) (hzero : (m.place addr size type).2 = 0) :
    Meets m addr size type protect := by
  by_cases hres : Reserving addr type
  · by_cases hle : size.toNat ≤ 2 ^ 32 - 4096
    · exact Meets.reserving hres hle
    · rw [Vm.place, if_pos hres, pages_wrapped hle] at hzero
      exact Meets.full hres fun hplace => (reserveRange_empty h).mpr hplace hzero
  · by_cases hvalid : validRange m.vmap (pageAddr addr) size = true
    · rw [Vm.place, if_neg hres, if_pos hvalid] at hzero
      obtain ⟨hlo, -, -⟩ := validRange_iff.mp hvalid
      rw [show pageAddr addr = 0 from hzero] at hlo
      exact absurd hlo (by decide)
    · exact Meets.invalid hres (Bool.not_eq_true _ ▸ hvalid)

theorem Meets.of_granted (hstart : (m.place addr size type).2 = start)
    (hne : start ≠ 0) (hgranted : Granted m addr size type protect m' start) : Meets m addr size type protect := by
  have hos : osBase.toNat = 2147483648 := rfl
  have huser := hgranted.user
  by_cases hres : Reserving addr type
  · exact Meets.reserving hres (by omega)
  · have hpage : start = pageAddr addr := by
      rw [Vm.place, if_neg hres] at hstart
      by_cases hvalid : validRange m.vmap (pageAddr addr) size = true
      · rw [← hstart, if_pos hvalid]
      · exact absurd ((if_neg hvalid).symm.trans hstart).symm hne
    have hn := toNat_pages size
    rw [hpage] at huser
    exact Meets.owned hres (by omega) (by omega)

/-- With two frames for each page the call goes through; it grants the range or changes nothing as long as the range
is refused, takes free address space in a number of pages that has not wrapped, or ends below 4 GiB. -/
theorem vmalloc_all_or_nothing (hmap : UserMap m.vmap) (hframes : FreeFrames m frames) (hsize : size ≠ 0)
    (addr type protect tag : UInt32) :
    (2 * (pages size).toNat ≤ m.freemem.toNat → (m.vmalloc addr size type protect tag).isSome) ∧
      ∀ m' start rc, m.vmalloc addr size type protect tag = some (m', start, rc) →
        (AllOrNothing m addr size type protect m' start ↔ Meets m addr size type protect) := by
  constructor
  · intro henough
    have hplace : (m.place addr size type).1 = { m with vmap := (m.place addr size type).1.vmap } := by
      unfold Vm.place Vm.reserveRange
      split
      · split <;> rfl
      · rfl
    have hframes₁ : FreeFrames (m.place addr size type).1 frames := by
      rw [hplace]
      exact ⟨hframes.stack, hframes.count, hframes.small, hframes.nodup⟩
    rw [vmalloc_eq hsize]
    split
    · rfl
    split
    · rfl
    split
    · rw [Option.isSome_map]
      refine hframes₁.commit_isSome ?_
      rw [pageRange, List.length_map, List.length_range, ← hframes.count]
      exact henough
    · rfl
  · intro m' start rc hm
    rcases vmalloc_cases hsize hm with ⟨hcommit, hno, rfl, rfl⟩ | ⟨hknown, hstart, hrest⟩
    · refine iff_of_true ?_ (Meets.protection hcommit hno)
      rw [AllOrNothing, if_pos rfl]
    by_cases hzero : start = 0
    · have hplace : (m.place addr size type).2 = 0 := hstart.symm.trans hzero
      rcases hrest with ⟨-, rfl⟩ | ⟨-, hne, -⟩
      · refine iff_of_true ?_ (Meets.of_refused hmap hplace)
        rw [AllOrNothing, if_pos hzero]
        exact place_zero hmap hplace
      · exact absurd hzero hne
    · rw [AllOrNothing, if_neg hzero]
      constructor
      · exact Meets.of_granted hstart.symm hzero
      · intro hmeets
        obtain ⟨hle, hplaced⟩ := hmeets.placed hmap hsize hknown (by rwa [← hstart])
        rw [← hstart] at hplaced
        rcases hrest with ⟨hcommit, rfl⟩ | ⟨hcommit, -, hrun⟩
        · exact hplaced.granted hle (hcommit.resolve_right hzero)
        · exact hplaced.granted_commit hle hframes (hknown hcommit) hrun

theorem freeFrames_smallBoot : FreeFrames smallBoot [5, 6] := by
  have hok := booted_smallBoot.toFramesOk
  exact ⟨hok.stack, hok.count, hok.small, hok.sound.nodup⟩

/-- A page is reserved and committed. -/
theorem vmalloc_granted : ∃ m' rc, smallBoot.vmalloc 0 4096 0x1000 4 0 = some (m', 0x10000, rc) ∧
    Granted smallBoot 0 4096 0x1000 4 m' 0x10000 := by
  have hmap := booted_smallBoot.accounted.userMap
  obtain ⟨hsome, hiff⟩ :=
    vmalloc_all_or_nothing hmap freeFrames_smallBoot (by decide : (4096 : UInt32) ≠ 0) 0 0x1000 4 0
  obtain ⟨⟨m', start, rc⟩, hm⟩ := Option.isSome_iff_exists.mp (hsome (by decide))
  have hstart : (smallBoot.vmalloc 0 4096 0x1000 4 0).map (fun r => r.2.1) = some 0x10000 := by decide +kernel
  rw [hm] at hstart
  obtain rfl := Option.some.inj hstart
  refine ⟨m', rc, hm, ?_⟩
  have hall := (hiff m' _ rc hm).mpr (Meets.reserving (by decide) (by decide))
  rwa [AllOrNothing] at hall

/-- `vmalloc(NULL, 0xFFFFFFFF, MEM_RESERVE)` returns an address with nothing reserved, and
`vmalloc(0xFFFFF000, 4096, MEM_COMMIT)` goes for the last page of the kernel. -/
theorem vmalloc_wraps :
    ∃ m frames, UserMap m.vmap ∧ FreeFrames m frames ∧
      (∃ m' start rc, m.vmalloc 0 0xFFFFFFFF 0x2000 4 0 = some (m', start, rc) ∧
        ¬ AllOrNothing m 0 0xFFFFFFFF 0x2000 4 m' start) ∧
      ∃ m' start rc, m.vmalloc 0xFFFFF000 4096 0x1000 4 0 = some (m', start, rc) ∧
        ¬ AllOrNothing m 0xFFFFF000 4096 0x1000 4 m' start := by
  have hrun (addr size type start : UInt32) (hne : start ≠ 0) (hbeyond : osBase.toNat < start.toNat + size.toNat)
      (h : (smallBoot.vmalloc addr size type 4 0).map (fun r => r.2.1) = some start) :
      ∃ m' start rc, smallBoot.vmalloc addr size type 4 0 = some (m', start, rc) ∧
        ¬ AllOrNothing smallBoot addr size type 4 m' start := by
    obtain ⟨⟨m', start', rc⟩, hm, rfl⟩ := Option.map_eq_some_iff.mp h
    refine ⟨m', start', rc, hm, fun hall => ?_⟩
    rw [AllOrNothing, if_neg hne] at hall
    exact Nat.not_le.mpr hbeyond hall.user
  exact ⟨smallBoot, [5, 6], booted_smallBoot.accounted.userMap, freeFrames_smallBoot,
    hrun 0 0xFFFFFFFF 0x2000 0x10000 (by decide) (by decide) (by decide +kernel),
    hrun 0xFFFFF000 4096 0x1000 0xFFFFF000 (by decide) (by decide) (by decide +kernel)⟩

end SimpleKernel.Mem
