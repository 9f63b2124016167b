import SimpleKernel.Handle.Invariant

/-! What each call of the handle manager does to the invariant. -/
namespace SimpleKernel.Handle

open Holdings

variable {ω τ : Type} {s s' s₁ : State ω τ} {o oo x : ω} {t : τ} {h k : ℕ} {fl fl' : List ℕ}
  {refs : ω → Finset ℕ}

/-- The object is new, or it has a handle at the moment: its caller has just looked it up. -/
def Held (s : State ω τ) (o : ω) : Prop := s.given o = false ∨ (s.obj o).handleCount ≠ 0

theorem Held.nonempty (hi : Inv s fl refs) (ho : Held s o) :
    s.given o = false ∨ (refs o).Nonempty := by
  refine ho.imp_right fun hne => ?_
  rw [← Finset.card_pos, ← hi.count o]
  exact Nat.pos_of_ne_zero fun h0 => hne (UInt16.toNat.inj h0)

theorem toNat_succ16 {c : UInt16} (hc : c ≠ 65535) : (c + 1).toNat = c.toNat + 1 := by
  have hlt := c.toNat_lt
  have hne : c.toNat ≠ 65535 := fun heq => hc (UInt16.toNat.inj heq)
  change (c.toNat + 1) % 2 ^ 16 = _
  omega

theorem toNat_pred16 {c : UInt16} (hc : 0 < c.toNat) : (c - 1).toNat = c.toNat - 1 := by
  rw [UInt16.toNat_sub_of_le]
  · rfl
  · exact hc

theorem Inv.busy_refers (hi : Inv s fl refs) (hb : Busy s h) : ∃ oo, Refers s h oo := by
  obtain ⟨t, ht⟩ := hb
  cases hp : s.phase t with
  | idle => simp [hp, Phase.slot] at ht
  | freeing o => simp [hp, Phase.slot] at ht
  | assigning o k oo =>
    obtain rfl : k = h := by simpa [hp, Phase.slot] using ht
    exact ⟨oo, hi.busy t o k oo hp⟩

theorem closers_diff (ht : (s.phase t).target ≠ some x) : closers s x \ {t} = closers s x :=
  Set.sdiff_singleton_eq_self ht

theorem hlookup_some {a : ℤ} {p : Bool} (hl : s.hlookup a = some (o, p)) :
    a = a.toNat ∧ a.toNat < s.htabsize ∧ s.htab a.toNat = .used o p := by
  rw [State.hlookup] at hl
  split at hl
  · simp at hl
  next hrange =>
  rw [not_or, not_lt] at hrange
  have hnat : ((a.toNat : ℕ) : ℤ) = a := Int.toNat_of_nonneg hrange.1
  split at hl
  · simp at hl
  next o' p' hslot =>
  obtain ⟨rfl, rfl⟩ := Prod.mk.inj (Option.some.inj hl)
  exact ⟨hnat.symm, by omega, hslot⟩

/-! A page of handles. -/

theorem Inv.expand (hi : Inv s fl refs) :
    (s.expandHtab.1 = s ∧ s.expandHtab.2 < 0) ∨ s.expandHtab.2 = 0 ∧
      (∃ fl', Inv s.expandHtab.1 fl' refs) ∧ s.expandHtab.1.hfreelist ≠ none ∧
      (∀ h o p, h < s.expandHtab.1.htabsize →
        (s.expandHtab.1.htab h = .used o p ↔ h < s.htabsize ∧ s.htab h = .used o p)) ∧
      ∃ htab head, s.expandHtab.1 =
        { s with htab := htab, hfreelist := head, htabsize := s.htabsize + handlesPerPage } := by
  rcases hi.table.expand with hfail | ⟨hrc, htable, hne, hkeep, hnew, htab, head, heq⟩
  · exact .inl hfail
  have hused : ∀ h o p, h < s.expandHtab.1.htabsize →
      (s.expandHtab.1.htab h = .used o p ↔ h < s.htabsize ∧ s.htab h = .used o p) := by
    intro h o p hlt
    by_cases hh : h < s.htabsize
    · rw [hkeep h hh]
      exact ⟨fun hu => ⟨hh, hu⟩, fun hu => hu.2⟩
    · obtain ⟨next, hnext⟩ := hnew h (by omega) hlt
      simp [hnext, hh]
  have hrefers : ∀ h o, Refers s.expandHtab.1 h o ↔ Refers s h o := by
    intro h o
    constructor
    · rintro ⟨hlt, p, hp⟩
      obtain ⟨hlt', hp'⟩ := (hused h o p hlt).mp hp
      exact ⟨hlt', p, hp'⟩
    · rintro ⟨hlt, p, hp⟩
      have hlt' : h < s.expandHtab.1.htabsize := by
        rw [heq]
        exact Nat.lt_add_right _ hlt
      exact ⟨hlt', p, (hused h o p hlt').mpr ⟨hlt, hp⟩⟩
  refine .inr ⟨hrc, ⟨_, htable, fun o h => ?_, ?_, ?_, fun t o h oo hp => ?_, ?_, ?_⟩, hne, hused,
    htab, head, heq⟩
  · rw [hrefers]
    simp only [heq]
    exact hi.refsOk o h
  · rw [heq]
    exact hi.count
  · rw [heq]
    exact hi.locks
  · rw [hrefers]
    rw [heq] at hp
    exact hi.busy t o h oo hp
  · rw [heq]
    exact hi.apart
  · rw [heq]
    exact hi.stage

theorem RefsOk.erase_eq (hr : RefsOk s refs) (hh : ∀ x, ¬ Refers s h x) (x : ω) :
    (refs x).erase h = refs x :=
  Finset.erase_eq_of_notMem fun hmem => hh x ((hr x h).mp hmem).1

theorem Inv.setProtect {a : ℤ} {prot : Bool} (hi : Inv s fl refs) :
    Inv (s.setProtect a prot).1 fl refs := by
  rw [State.setProtect]
  split
  · exact hi
  next o p hl =>
  obtain ⟨-, -, hh⟩ := hlookup_some hl
  have hrefers : ∀ k x, Refers (s.setSlot a.toNat (.used o prot)) k x ↔ Refers s k x := by
    intro k x
    by_cases hk : k = a.toNat
    · simp [Refers, State.setSlot, hk, hh]
    · simp [Refers, State.setSlot, hk]
  refine ⟨hi.table.reuse hh _ _, fun x k => ?_, hi.count, hi.locks, fun t n k y hp => ?_, hi.apart,
    hi.stage⟩
  · rw [hrefers]
    exact hi.refsOk x k
  · exact (hrefers k y).mpr (hi.busy t n k y hp)

theorem Inv.expandTo {n : ℕ} (hi : Inv s fl refs) (hn : h < s.htabsize + n) :
    (∃ fl', Inv (State.expandTo h n s).1 fl' refs) ∧
      ((State.expandTo h n s).2 < 0 ∨
        (State.expandTo h n s).2 = 0 ∧ h < (State.expandTo h n s).1.htabsize) ∧
      (∀ k o p, k < (State.expandTo h n s).1.htabsize →
        ((State.expandTo h n s).1.htab k = .used o p ↔ k < s.htabsize ∧ s.htab k = .used o p)) ∧
      (State.expandTo h n s).1.obj = s.obj ∧ (State.expandTo h n s).1.phase = s.phase ∧
      (State.expandTo h n s).1.given = s.given := by
  induction n generalizing s fl with
  | zero =>
    exact ⟨⟨fl, hi⟩, .inr ⟨rfl, hn⟩, fun k o p hk => ⟨fun hp => ⟨hk, hp⟩, fun hp => hp.2⟩,
      rfl, rfl, rfl⟩
  | succ n ih =>
    by_cases hle : s.htabsize ≤ h
    swap
    · rw [State.expandTo, if_neg hle]
      exact ⟨⟨fl, hi⟩, .inr ⟨rfl, Nat.lt_of_not_le hle⟩,
        fun k o p hk => ⟨fun hp => ⟨hk, hp⟩, fun hp => hp.2⟩, rfl, rfl, rfl⟩
    have hstep : State.expandTo h (n + 1) s = if s.expandHtab.2 < 0 then s.expandHtab
        else State.expandTo h n s.expandHtab.1 := by
      simp only [State.expandTo, if_pos hle]
    rw [hstep]
    rcases hi.expand with ⟨heq, hrc⟩ | ⟨hrc, ⟨fl', hi'⟩, -, hused, htab, head, heq⟩
    · rw [if_pos hrc]
      refine ⟨⟨fl, by rw [heq]; exact hi⟩, .inl hrc, fun k o p hk => ?_, by rw [heq], by rw [heq],
        by rw [heq]⟩
      rw [heq] at hk ⊢
      exact ⟨fun hp => ⟨hk, hp⟩, fun hp => hp.2⟩
    · have hneg : ¬ s.expandHtab.2 < 0 := by
        rw [hrc]
        decide
      have hsize : s.expandHtab.1.htabsize = s.htabsize + handlesPerPage := by rw [heq]
      have hpage : handlesPerPage = 1024 := rfl
      obtain ⟨hinv, hcode, hslot, hobj, hphase, hgiven⟩ := ih hi' (by omega)
      rw [if_neg hneg]
      refine ⟨hinv, hcode, fun k o p hk => ?_, by rw [hobj, heq], by rw [hphase, heq],
        by rw [hgiven, heq]⟩
      rw [hslot k o p hk]
      constructor
      · rintro ⟨hk', hp⟩
        exact (hused k o p hk').mp hp
      · rintro ⟨hk', hp⟩
        have hk'' : k < s.expandHtab.1.htabsize := by omega
        exact ⟨hk'', (hused k o p hk'').mpr ⟨hk', hp⟩⟩

variable [DecidableEq ω]

@[simp] theorem handleCount_assign (x : ω) : ((s.assign o h).obj x).handleCount =
    if x = o then (s.obj o).handleCount + 1 else (s.obj x).handleCount := by
  by_cases hx : x = o <;> simp [State.assign, State.setObj, State.setSlot, hx]

@[simp] theorem lockCount_assign (x : ω) :
    ((s.assign o h).obj x).lockCount = (s.obj x).lockCount := by
  by_cases hx : x = o <;> simp [State.assign, State.setObj, State.setSlot, hx]

@[simp] theorem handleCount_dropHandle (x : ω) : ((s.dropHandle o).obj x).handleCount =
    if x = o then (s.obj o).handleCount - 1 else (s.obj x).handleCount := by
  by_cases hx : x = o <;> simp [State.dropHandle, State.setObj, hx]

@[simp] theorem lockCount_dropHandle (x : ω) :
    ((s.dropHandle o).obj x).lockCount = (s.obj x).lockCount := by
  by_cases hx : x = o <;> simp [State.dropHandle, State.setObj, hx]

@[simp] theorem given_assign (x : ω) :
    (s.assign o h).given x = if x = o then true else s.given x := by
  by_cases hx : x = o <;> simp [State.assign, hx]

theorem Inv.take (hi : Inv s fl refs) (hlt : h < s.htabsize) (hh : ∀ x, ¬ Refers s h x)
    (hs₁ : ∃ htab head, s₁ = { s with htab := htab, hfreelist := head })
    (hkeep : ∀ k x, k ≠ h → (Refers s₁ k x ↔ Refers s k x))
    (htable : TableOk (s₁.setSlot h (.used o false)) fl') (ho : Held s o)
    (hcount : (s.obj o).handleCount ≠ 65535) : Inv (s₁.assign o h) fl' (giveTo refs h o) := by
  have herase := hi.refsOk.erase_eq hh
  have hnotbusy : ¬ Busy s h := fun hb => by
    obtain ⟨oo, hoo⟩ := hi.busy_refers hb
    exact hh oo hoo
  obtain ⟨htab, head, rfl⟩ := hs₁
  have hrefers : ∀ k x, k ≠ h →
      (Refers (State.assign { s with htab := htab, hfreelist := head } o h) k x ↔
        Refers s k x) := by
    intro k x hk
    rw [← hkeep k x hk]
    simp [Refers, State.assign, State.setSlot, State.setObj, hk]
  refine ⟨⟨htable.stack, htable.nodup, htable.free_iff⟩, ?_, fun x => ?_, fun x => ?_,
    fun t n k oo hp => ?_, hi.apart, fun x => ?_⟩
  · exact hi.refsOk.giveTo (p := false) hlt (by simp [State.assign, State.setSlot, State.setObj])
      hrefers (fun k _ => Iff.rfl) hnotbusy
  · rw [card_giveTo, herase, handleCount_assign]
    by_cases hx : x = o
    · rw [hx, if_pos rfl, if_pos rfl, toNat_succ16 hcount, hi.count o]
    · rw [if_neg hx, if_neg hx, Nat.add_zero, ← hi.count x]
  · rw [lockCount_assign]
    exact hi.locks x
  · have hbusy := hi.busy t n k oo hp
    have hk : k ≠ h := fun hkh => hh oo (hkh ▸ hbusy)
    exact (hrefers k oo hk).mpr hbusy
  · rw [given_assign]
    by_cases hx : x = o
    · subst hx
      rw [if_pos rfl]
      exact (hi.stage x).give (ho.nonempty hi) ⟨h, by rw [mem_giveTo, if_pos rfl]⟩
    · rw [if_neg hx, giveTo, if_neg hx, herase]
      exact hi.stage x

theorem Inv.replace (hi : Inv s fl refs) (hlt : h < s.htabsize) (hh : s.htab h = .used oo false)
    (hbusy : ¬ Busy s h) (ho : Held s o) (hone : (s.obj oo).handleCount ≠ 1)
    (hcount : oo ≠ o → (s.obj o).handleCount ≠ 65535) :
    Inv ((s.dropHandle oo).assign o h) fl (giveTo refs h o) := by
  have hmem : h ∈ refs oo := (hi.refsOk oo h).mpr ⟨⟨hlt, false, hh⟩, hbusy⟩
  have hcard : 2 ≤ (refs oo).card := by
    have hpos := Finset.card_pos.mpr ⟨h, hmem⟩
    have hne : (s.obj oo).handleCount.toNat ≠ 1 := fun heq => hone (UInt16.toNat.inj heq)
    rw [hi.count] at hne
    omega
  have hother : ∀ x, x ≠ oo → (refs x).erase h = refs x := fun x hx =>
    Finset.erase_eq_of_notMem fun hm => hx (hi.refsOk.unique hm hmem)
  have hrefers : ∀ k x, k ≠ h → (Refers ((s.dropHandle oo).assign o h) k x ↔ Refers s k x) := by
    intro k x hk
    simp [Refers, State.assign, State.dropHandle, State.setSlot, State.setObj, hk]
  have htable := hi.table.reuse hh o false
  refine ⟨⟨htable.stack, htable.nodup, htable.free_iff⟩, ?_, fun x => ?_, fun x => ?_,
    fun t n k y hp => ?_, hi.apart, fun x => ?_⟩
  · exact hi.refsOk.giveTo (p := false) hlt
      (by simp [State.assign, State.setSlot, State.setObj])
      hrefers (fun k _ => Iff.rfl) hbusy
  · rw [card_giveTo, handleCount_assign, handleCount_dropHandle, handleCount_dropHandle]
    by_cases hx : x = o
    · subst hx
      rw [if_pos rfl, if_pos rfl]
      by_cases hoo : x = oo
      · subst hoo
        rw [if_pos rfl, UInt16.sub_add_cancel, hi.count, Finset.card_erase_of_mem hmem]
        omega
      · rw [if_neg hoo, toNat_succ16 (hcount fun heq => hoo heq.symm), hi.count, hother x hoo]
    · rw [if_neg hx, if_neg hx, Nat.add_zero]
      by_cases hoo : x = oo
      · subst hoo
        have hpos : 0 < (s.obj x).handleCount.toNat := by
          rw [hi.count]
          omega
        rw [if_pos rfl, toNat_pred16 hpos, hi.count, Finset.card_erase_of_mem hmem]
      · rw [if_neg hoo, hi.count, hother x hoo]
  · rw [lockCount_assign, lockCount_dropHandle]
    exact hi.locks x
  · have hk : k ≠ h := by
      rintro rfl
      exact hbusy ⟨t, by rw [show s.phase t = _ from hp]; rfl⟩
    exact (hrefers k y hk).mpr (hi.busy t n k y hp)
  · rw [given_assign]
    by_cases hx : x = o
    · subst hx
      rw [if_pos rfl]
      exact (hi.stage x).give (ho.nonempty hi) ⟨h, by rw [mem_giveTo, if_pos rfl]⟩
    · rw [if_neg hx, giveTo, if_neg hx]
      by_cases hoo : x = oo
      · subst hoo
        refine (hi.stage x).shrink ⟨h, hmem⟩ ?_
        rw [← Finset.card_pos, Finset.card_erase_of_mem hmem]
        omega
      · rw [hother x hoo]
        exact hi.stage x

theorem Inv.drop (hi : Inv s fl refs) (hlt : h < s.htabsize) (hh : s.htab h = .used o false)
    (hbusy : ¬ Busy s h) (hone : (s.obj o).handleCount ≠ 1) :
    Inv ((s.pushFree h).dropHandle o) (h :: fl) (takeOut refs h) := by
  have hmem : h ∈ refs o := (hi.refsOk o h).mpr ⟨⟨hlt, false, hh⟩, hbusy⟩
  have hpos := Finset.card_pos.mpr ⟨h, hmem⟩
  have hne : (s.obj o).handleCount.toNat ≠ 1 := fun heq => hone (UInt16.toNat.inj heq)
  rw [hi.count] at hne
  have hother : ∀ x, x ≠ o → (refs x).erase h = refs x := fun x hx =>
    Finset.erase_eq_of_notMem fun hm => hx (hi.refsOk.unique hm hmem)
  have hrefers : ∀ k x, k ≠ h → (Refers ((s.pushFree h).dropHandle o) k x ↔ Refers s k x) := by
    intro k x hk
    simp [Refers, State.pushFree, State.dropHandle, State.setSlot, State.setObj, hk]
  have htable := hi.table.push hlt hh
  refine ⟨⟨htable.stack, htable.nodup, htable.free_iff⟩, ?_, fun x => ?_, fun x => ?_,
    fun t n k y hp => ?_, hi.apart, fun x => ?_⟩
  · refine hi.refsOk.takeOut (fun x hx => ?_) hrefers fun k _ => Iff.rfl
    simp [Refers, State.pushFree, State.dropHandle, State.setSlot, State.setObj] at hx
  · rw [handleCount_dropHandle, takeOut]
    by_cases hx : x = o
    · subst hx
      change (if x = x then (s.obj x).handleCount - 1 else _).toNat = _
      rw [if_pos rfl, toNat_pred16 (by rw [hi.count]; omega), hi.count,
        Finset.card_erase_of_mem hmem]
    · rw [if_neg hx, hother x hx]
      exact hi.count x
  · rw [lockCount_dropHandle]
    exact hi.locks x
  · have hk : k ≠ h := by
      rintro rfl
      exact hbusy ⟨t, by rw [show s.phase t = _ from hp]; rfl⟩
    exact (hrefers k y hk).mpr (hi.busy t n k y hp)
  · rw [takeOut]
    by_cases hx : x = o
    · subst hx
      refine (hi.stage x).shrink ⟨h, hmem⟩ ?_
      rw [← Finset.card_pos, Finset.card_erase_of_mem hmem]
      omega
    · rw [hother x hx]
      exact hi.stage x

theorem destroyUnlocked_eq (hl : (s.obj o).lockCount.toNat = s.locked o) :
    s.destroyUnlocked o = { s with
      destroyed := fun x =>
        if x = o then if s.locked o = 0 then s.destroyed o + 1 else s.destroyed o
        else s.destroyed x } := by
  have hlock : (s.obj o).lockCount = 0 ↔ s.locked o = 0 := by
    rw [← hl]
    exact ⟨fun h0 => by rw [h0]; rfl, fun h0 => UInt16.toNat.inj h0⟩
  have hdest : (fun x => if x = o then if s.locked o = 0 then s.destroyed o + 1 else s.destroyed o
      else s.destroyed x) =
      if s.locked o = 0 then Function.update s.destroyed o (s.destroyed o + 1) else s.destroyed := by
    funext x
    by_cases hx : x = o <;> by_cases hzero : s.locked o = 0 <;> simp [hx, hzero]
  rw [State.destroyUnlocked, hdest]
  by_cases hzero : s.locked o = 0
  · rw [if_pos (hlock.mpr hzero), if_pos hzero]
    rfl
  · rw [if_neg (fun h0 => hzero (hlock.mp h0)), if_neg hzero]

theorem Inv.olock {a type : ℤ} (hi : Inv s fl refs)
    (hsafe : ∀ o p, s.hlookup a = some (o, p) → (s.obj o).lockCount ≠ 65535) :
    Inv (s.olock a type).1 fl refs := by
  rw [State.olock]
  split
  · exact hi
  next o p hl =>
  split
  · exact hi
  split
  · exact hi
  next hcount =>
  have hr : (refs o).Nonempty := by
    rw [← Finset.card_pos, ← hi.count o]
    exact Nat.pos_of_ne_zero fun h0 => hcount (UInt16.toNat.inj h0)
  refine ⟨⟨hi.table.stack, hi.table.nodup, hi.table.free_iff⟩, hi.refsOk, fun x => ?_, fun x => ?_,
    hi.busy, hi.apart, fun x => ?_⟩
  · by_cases hx : x = o <;> simp [State.setObj, hx, hi.count]
  · by_cases hx : x = o
    · simp only [State.setObj, hx, Function.update_self]
      rw [toNat_succ16 (hsafe o p hl), hi.locks]
    · simp [State.setObj, hx, hi.locks]
  · by_cases hx : x = o
    · subst hx
      simpa [State.setObj, closers] using (hi.stage x).lock hr
    · simpa [State.setObj, closers, hx] using hi.stage x

theorem Inv.orel (hi : Inv s fl refs) (hpos : 0 < s.locked o)
    (hlast : (s.obj o).lockCount = 1 → closers s o = ∅) : Inv (s.orel o) fl refs := by
  have hnat : ((s.obj o).lockCount - 1).toNat = s.locked o - 1 := by
    rw [toNat_pred16 (by rw [hi.locks]; exact hpos), hi.locks]
  have hone : s.locked o = 1 → closers s o = ∅ := by
    intro h1
    refine hlast (UInt16.toNat.inj ?_)
    rw [hi.locks, h1]
    rfl
  -- the code and the history agree on whether this was the last reference
  have hcond : ((s.obj o).lockCount - 1 = 0 ∧ (s.obj o).handleCount = 0) ↔
      s.locked o - 1 = 0 ∧ (refs o).card = 0 := by
    rw [← hnat, ← hi.count o]
    refine and_congr ⟨fun h0 => by rw [h0]; rfl, fun h0 => UInt16.toNat.inj h0⟩
      ⟨fun h0 => by rw [h0]; rfl, fun h0 => UInt16.toNat.inj h0⟩
  have hstage := (hi.stage o).unlock hpos hone
  have hobj : ∀ x, (Function.update s.obj o
      { s.obj o with lockCount := (s.obj o).lockCount - 1 } x).handleCount.toNat =
        (refs x).card := by
    intro x
    by_cases hx : x = o <;> simp [hx, hi.count]
  have hlock : ∀ x, (Function.update s.obj o
      { s.obj o with lockCount := (s.obj o).lockCount - 1 } x).lockCount.toNat =
        Function.update s.locked o (s.locked o - 1) x := by
    intro x
    by_cases hx : x = o
    · rw [hx, Function.update_self, Function.update_self, hnat]
    · rw [Function.update_of_ne hx, Function.update_of_ne hx, hi.locks]
  simp only [State.orel, State.setObj, Function.update_self]
  by_cases hc : (s.obj o).lockCount - 1 = 0 ∧ (s.obj o).handleCount = 0
  · rw [if_pos hc]
    rw [if_pos (hcond.mp hc)] at hstage
    refine ⟨⟨hi.table.stack, hi.table.nodup, hi.table.free_iff⟩, hi.refsOk, hobj, hlock, hi.busy,
      hi.apart, fun x => ?_⟩
    by_cases hx : x = o
    · subst hx
      simpa [State.destroyObject, closers] using hstage
    · simpa [State.destroyObject, closers, hx] using hi.stage x
  · rw [if_neg hc]
    rw [if_neg fun hx => hc (hcond.mpr hx)] at hstage
    refine ⟨⟨hi.table.stack, hi.table.nodup, hi.table.free_iff⟩, hi.refsOk, hobj, hlock, hi.busy,
      hi.apart, fun x => ?_⟩
    by_cases hx : x = o
    · subst hx
      simpa [closers] using hstage
    · simpa [closers, hx] using hi.stage x

theorem Inv.halloc (hi : Inv s fl refs) (ho : Held s o)
    (hcount : (s.obj o).handleCount ≠ 65535) {r : State ω τ × ℤ} (hr : s.halloc o = some r) :
    ∃ fl' refs', Inv r.1 fl' refs' := by
  -- the state once there is a free handle
  have hgrow : ∃ fl₁, Inv (if s.hfreelist = none then s.expandHtab else (s, 0)).1 fl₁ refs ∧
      Held (if s.hfreelist = none then s.expandHtab else (s, 0)).1 o ∧
      ((if s.hfreelist = none then s.expandHtab else (s, 0)).1.obj o).handleCount ≠ 65535 := by
    split
    · rcases hi.expand with ⟨heq, -⟩ | ⟨-, ⟨fl', hi'⟩, -, -, htab, head, heq⟩
      · rw [heq]
        exact ⟨fl, hi, ho, hcount⟩
      · refine ⟨fl', hi', ?_, ?_⟩
        · rw [heq]
          exact ho
        · rw [heq]
          exact hcount
    · exact ⟨fl, hi, ho, hcount⟩
  rw [State.halloc] at hr
  generalize (if s.hfreelist = none then s.expandHtab else (s, 0)) = q at hr hgrow
  obtain ⟨fl₁, hi₁, ho₁, hcount₁⟩ := hgrow
  split at hr
  · obtain rfl := Option.some.inj hr
    exact ⟨fl₁, refs, hi₁⟩
  obtain ⟨h, hfl, hr⟩ := Option.bind_eq_some_iff.mp hr
  split at hr
  · next next hnext =>
    obtain rfl := Option.some.inj hr
    have htable := hi₁.table.pop (o := o) hfl hnext
    have hnone : ∀ x, ¬ Refers q.1 h x := by
      rintro x ⟨-, p, hp⟩
      simp [hnext] at hp
    have hlt : h < q.1.htabsize := by
      have hmem : h ∈ fl₁ := by
        have hstack := hi₁.table.stack
        rw [hfl] at hstack
        cases fl₁ with
        | nil => simp [IsStack] at hstack
        | cons a l =>
          obtain rfl := Option.some.inj hstack.1
          exact List.mem_cons_self
      exact ((hi₁.table.free_iff h).mp hmem).1
    exact ⟨_, _, hi₁.take hlt hnone ⟨_, _, rfl⟩ (fun k x _ => Iff.rfl) htable ho₁ hcount₁⟩
  · simp at hr

theorem Inv.removeFromFreelist {next : Option ℕ} (hi : Inv s fl refs) (hlt : h < s.htabsize)
    (hnext : s.htab h = .free next) (ho : Held s o) (hcount : (s.obj o).handleCount ≠ 65535)
    {q : State ω τ × ℤ} (hq : s.removeFromFreelist h next = some q) :
    (q.2 < 0 ∧ q.1 = s) ∨ q.2 = 0 ∧ ∃ fl' refs', Inv (q.1.assign o h) fl' refs' := by
  have hnone : ∀ x, ¬ Refers s h x := by
    rintro x ⟨-, p, hp⟩
    simp [hnext] at hp
  rw [State.removeFromFreelist] at hq
  split at hq
  · obtain rfl := Option.some.inj hq
    refine .inl ⟨?_, rfl⟩
    change -EBADF < 0
    decide
  next k hk =>
  split at hq
  · next heq =>
    subst heq
    obtain rfl := Option.some.inj hq
    have htable := hi.table.pop (o := o) hk hnext
    exact .inr ⟨rfl, _, _, hi.take hlt hnone ⟨_, _, rfl⟩ (fun k x _ => Iff.rfl) htable ho hcount⟩
  next hne =>
  split at hq
  · next hkk =>
    obtain rfl := Option.some.inj hq
    have htable := hi.table.second (o := o) hk hkk hnext hne
    refine .inr ⟨rfl, _, _, hi.take hlt hnone ⟨_, _, rfl⟩ (fun j x _ => ?_) htable ho hcount⟩
    by_cases hj : j = k
    · simp [Refers, State.setSlot, hj, hkk]
    · simp [Refers, State.setSlot, hj]
  · simp at hq

variable [DecidableEq τ]

/-- What the callers promise. -/
def Used (s : State ω τ) (l : τ × Call ω) : Prop :=
  match l.2 with
  | .halloc o => Held s o
  | .hassign o _ => Held s o
  | .orel o => 0 < s.locked o
  | _ => True

/-- The call does not meet a defect: a counter of 16 bits that overflows, `hassign` on the last handle of the same
object, a handle or an object that changes while `hassign` waits for `close_object` or a close that fails there, the
last lock given up during the close. -/
def Safe (s : State ω τ) (l : τ × Call ω) : Prop :=
  match l.2 with
  | .halloc o => (s.obj o).handleCount ≠ 65535
  | .hassign o h =>
    match s.hlookup h with
    | none => (s.obj o).handleCount ≠ 65535
    | some (oo, prot) => prot = true ∨ ¬ Busy s h.toNat ∧
        if oo = o then (s.obj o).handleCount ≠ 1
        else (s.obj oo).handleCount ≠ 1 → (s.obj o).handleCount ≠ 65535
  | .hfree h => ∀ o, s.hlookup h = some (o, false) → ¬ Busy s h.toNat
  | .olock h _ => ∀ o p, s.hlookup h = some (o, p) → (s.obj o).lockCount ≠ 65535
  | .orel o => (s.obj o).lockCount = 1 → closers s o = ∅
  | .closeReturns rc => ∀ o h oo, s.phase l.1 = .assigning o h oo →
      0 ≤ rc ∧ Held s o ∧ (s.obj o).handleCount ≠ 65535
  | _ => True

theorem closers_setPhase (p : Phase ω) (x : ω) :
    closers (s.setPhase t p) x =
      if p.target = some x then insert t (closers s x) else closers s x \ {t} := by
  ext t'
  by_cases ht : t' = t
  · split <;> simp_all [closers, State.setPhase]
  · split <;> simp [closers, State.setPhase, ht]

theorem Inv.closeLast {p : Phase ω} (hi : Inv s fl refs) (hidle : s.phase t = .idle)
    (hmem : h ∈ refs oo) (hone : (s.obj oo).handleCount = 1)
    (hs₁ : ∃ htab head, s₁ = { s with htab := htab, hfreelist := head }) (htable : TableOk s₁ fl')
    (hkeep : ∀ k x, k ≠ h → (Refers s₁ k x ↔ Refers s k x))
    (hp : (p = .freeing oo ∧ ∀ x, ¬ Refers s₁ h x) ∨
      ∃ o, p = .assigning o h oo ∧ Refers s₁ h oo) :
    Inv ((s₁.dropHandle oo).closeObject t oo p) fl' (takeOut refs h) := by
  obtain ⟨htab, head, rfl⟩ := hs₁
  set s₁ : State ω τ := { s with htab := htab, hfreelist := head }
  have hnotbusy : ¬ Busy s h := ((hi.refsOk oo h).mp hmem).2
  have htarget : p.target = some oo := by
    rcases hp with ⟨rfl, -⟩ | ⟨o, rfl, -⟩ <;> rfl
  have hslot : ∀ k, p.slot = some k → k = h := by
    intro k hk
    rcases hp with ⟨rfl, -⟩ | ⟨o, rfl, -⟩
    · simp [Phase.slot] at hk
    · simpa [Phase.slot, eq_comm] using hk
  have hrefs : refs oo = {h} := by
    have hcard : (refs oo).card = 1 := by
      rw [← hi.count, hone]
      rfl
    obtain ⟨a, ha⟩ := Finset.card_eq_one.mp hcard
    rw [ha, Finset.mem_singleton] at hmem
    rw [ha, hmem]
  have hother : ∀ x, x ≠ oo → (refs x).erase h = refs x := fun x hx =>
    Finset.erase_eq_of_notMem fun hm => hx (hi.refsOk.unique hm hmem)
  have hphase : ∀ t', t' ≠ t → ((s₁.dropHandle oo).closeObject t oo p).phase t' = s.phase t' := by
    intro t' ht'
    simp [State.closeObject, State.setPhase, State.dropHandle, State.setObj, ht', s₁]
  have hself : ((s₁.dropHandle oo).closeObject t oo p).phase t = p := by
    simp [State.closeObject, State.setPhase]
  have hbusy : ∀ k, k ≠ h → (Busy ((s₁.dropHandle oo).closeObject t oo p) k ↔ Busy s k) := by
    intro k hk
    constructor
    · rintro ⟨t', ht'⟩
      by_cases hteq : t' = t
      · rw [hteq, hself] at ht'
        exact absurd (hslot k ht') hk
      · exact ⟨t', by rwa [hphase t' hteq] at ht'⟩
    · rintro ⟨t', ht'⟩
      have hteq : t' ≠ t := by
        rintro rfl
        simp [hidle, Phase.slot] at ht'
      exact ⟨t', by rwa [hphase t' hteq]⟩
  refine ⟨⟨htable.stack, htable.nodup, htable.free_iff⟩, ?_, fun x => ?_, fun x => ?_,
    fun t' n k y hy => ?_, fun t' t'' k ht' ht'' => ?_, fun x => ?_⟩
  · refine hi.refsOk.takeOut (fun x hx => ?_) hkeep hbusy
    rcases hp with ⟨-, hnone⟩ | ⟨o, rfl, -⟩
    · exact absurd hx (hnone x)
    · exact ⟨t, by rw [hself]; rfl⟩
  · change ((s₁.dropHandle oo).obj x).handleCount.toNat = _
    rw [handleCount_dropHandle, takeOut]
    by_cases hx : x = oo
    · subst hx
      rw [hone, hrefs]
      simp
    · rw [if_neg hx, hother x hx]
      exact hi.count x
  · change ((s₁.dropHandle oo).obj x).lockCount.toNat = _
    rw [lockCount_dropHandle]
    exact hi.locks x
  · by_cases hteq : t' = t
    · rw [hteq, hself] at hy
      rcases hp with ⟨rfl, -⟩ | ⟨o, rfl, hr⟩
      · simp at hy
      · obtain ⟨-, rfl, rfl⟩ := Phase.assigning.inj hy
        exact hr
    · rw [hphase t' hteq] at hy
      have hk : k ≠ h := by
        rintro rfl
        exact hnotbusy ⟨t', by rw [hy]; rfl⟩
      exact (hkeep k y hk).mpr (hi.busy t' n k y hy)
  · have hcase : ∀ t₀, (((s₁.dropHandle oo).closeObject t oo p).phase t₀).slot = some k →
        t₀ = t ∧ k = h ∨ t₀ ≠ t ∧ (s.phase t₀).slot = some k := by
      intro t₀ ht₀
      by_cases hteq : t₀ = t
      · rw [hteq, hself] at ht₀
        exact .inl ⟨hteq, hslot k ht₀⟩
      · rw [hphase t₀ hteq] at ht₀
        exact .inr ⟨hteq, ht₀⟩
    rcases hcase t' ht' with ⟨rfl, rfl⟩ | ⟨hne, hs'⟩ <;> rcases hcase t'' ht'' with ⟨rfl, hk⟩ | ⟨-, hs''⟩
    · rfl
    · exact absurd ⟨t'', hs''⟩ hnotbusy
    · exact absurd ⟨t', hk ▸ hs'⟩ hnotbusy
    · exact hi.apart t' t'' k hs' hs''
  · have hcl : closers ((s₁.dropHandle oo).closeObject t oo p) x = closers (s₁.setPhase t p) x := rfl
    rw [hcl, closers_setPhase, htarget, takeOut]
    by_cases hx : x = oo
    · subst hx
      have hstage := (hi.stage x).close ⟨h, hmem⟩ t
      rw [hrefs]
      simpa [State.closeObject, State.setPhase, State.dropHandle, State.setObj, closers]
        using hstage
    · have hne : some oo ≠ some x := fun heq => hx (Option.some.inj heq).symm
      have hstage := hi.stage x
      rw [if_neg hne, hother x hx]
      rw [← closers_diff (t := t) (by simp [hidle, Phase.target])] at hstage
      simpa [State.closeObject, State.setPhase, State.dropHandle, State.setObj, closers, hx]
        using hstage

theorem Inv.stage_closed (hi : Inv s fl refs) (ht : (s.phase t).target = some o) (x : ω) :
    Stage (s.closed x) (((s.setPhase t .idle).destroyUnlocked o).destroyed x) (s.given x)
      (s.locked x) (closers (s.setPhase t .idle) x) (refs x) := by
  have hl : ((s.setPhase t .idle).obj o).lockCount.toNat = (s.setPhase t .idle).locked o :=
    hi.locks o
  have hcl : closers (s.setPhase t .idle) x = closers s x \ {t} := by
    rw [closers_setPhase, if_neg (by simp [Phase.target])]
  rw [destroyUnlocked_eq hl, hcl]
  by_cases hx : x = o
  · subst hx
    have hstage := (hi.stage x).closeDone ht
    simp only [if_true]
    exact hstage
  · have hne : (s.phase t).target ≠ some x := by
      rw [ht]
      exact fun heq => hx (Option.some.inj heq).symm
    rw [closers_diff hne]
    simpa [State.setPhase, hx] using hi.stage x

theorem Inv.freed (hi : Inv s fl refs) (hp : s.phase t = .freeing o) :
    Inv ((s.setPhase t .idle).destroyUnlocked o) fl refs := by
  have hstage := hi.stage_closed (by rw [hp]; rfl)
  have hl : ((s.setPhase t .idle).obj o).lockCount.toNat = (s.setPhase t .idle).locked o :=
    hi.locks o
  have hslot : ∀ t' k, ((s.setPhase t .idle).phase t').slot = some k ↔
      (s.phase t').slot = some k := by
    intro t' k
    by_cases ht' : t' = t
    · simp [ht', State.setPhase, hp, Phase.slot]
    · simp [State.setPhase, ht']
  rw [destroyUnlocked_eq hl] at hstage ⊢
  refine ⟨⟨hi.table.stack, hi.table.nodup, hi.table.free_iff⟩, fun x k => ?_, hi.count, hi.locks,
    fun t' n k y hy => ?_, fun t' t'' k ht' ht'' => ?_, hstage⟩
  · rw [hi.refsOk x k]
    refine and_congr Iff.rfl (not_congr ?_)
    exact exists_congr fun t' => (hslot t' k).symm
  · have hne : t' ≠ t := by
      rintro rfl
      simp [State.setPhase] at hy
    refine hi.busy t' n k y ?_
    simpa [State.setPhase, hne] using hy
  · exact hi.apart t' t'' k ((hslot t' k).mp ht') ((hslot t'' k).mp ht'')

theorem Inv.assigned (hi : Inv s fl refs) (hp : s.phase t = .assigning o h oo) (ho : Held s o)
    (hcount : (s.obj o).handleCount ≠ 65535) :
    Inv (((s.setPhase t .idle).destroyUnlocked oo).assign o h) fl (giveTo refs h o) := by
  have hstage := hi.stage_closed (by rw [hp]; rfl)
  have hl : ((s.setPhase t .idle).obj oo).lockCount.toNat = (s.setPhase t .idle).locked oo :=
    hi.locks oo
  have hbusy : Busy s h := ⟨t, by rw [hp]; rfl⟩
  obtain ⟨hlt, prot, hh⟩ := hi.busy t o h oo hp
  have herase : ∀ x, (refs x).erase h = refs x := fun x =>
    Finset.erase_eq_of_notMem fun hm => ((hi.refsOk x h).mp hm).2 hbusy
  have htable := hi.table.reuse hh o false
  rw [destroyUnlocked_eq hl] at hstage ⊢
  have hslot : ∀ t' k, ((s.setPhase t .idle).phase t').slot = some k ↔
      t' ≠ t ∧ (s.phase t').slot = some k := by
    intro t' k
    by_cases ht' : t' = t
    · simp [ht', State.setPhase, Phase.slot]
    · simp [State.setPhase, ht']
  have hother : ∀ t', t' ≠ t → (s.phase t').slot ≠ some h := fun t' hne heq =>
    hne (hi.apart t' t h heq (by rw [hp]; rfl))
  refine ⟨⟨htable.stack, htable.nodup, htable.free_iff⟩, ?_, fun x => ?_, fun x => ?_,
    fun t' n k y hy => ?_, fun t' t'' k ht' ht'' => ?_, fun x => ?_⟩
  · refine hi.refsOk.giveTo (p := false) hlt ?_ (fun k x hk => ?_) (fun k hk => ?_) ?_
    · simp [State.assign, State.setSlot, State.setObj]
    · simp [Refers, State.assign, State.setSlot, State.setObj, State.setPhase, hk]
    · refine exists_congr fun t' => (hslot t' k).trans ⟨fun hx => hx.2, fun hx => ⟨?_, hx⟩⟩
      rintro rfl
      rw [hp] at hx
      exact hk (Option.some.inj hx).symm
    · rintro ⟨t', ht'⟩
      obtain ⟨hne, heq⟩ := (hslot t' h).mp ht'
      exact hother t' hne heq
  · rw [card_giveTo, herase, handleCount_assign]
    by_cases hx : x = o
    · rw [hx, if_pos rfl, if_pos rfl]
      exact (toNat_succ16 hcount).trans (by rw [hi.count])
    · rw [if_neg hx, if_neg hx]
      exact hi.count x
  · rw [lockCount_assign]
    exact hi.locks x
  · have hne : t' ≠ t := by
      rintro rfl
      simp [State.assign, State.setSlot, State.setObj, State.setPhase] at hy
    have hy' : s.phase t' = .assigning n k y := by
      simpa [State.assign, State.setSlot, State.setObj, State.setPhase, hne] using hy
    have hk : k ≠ h := by
      rintro rfl
      exact hother t' hne (by rw [hy']; rfl)
    have hr := hi.busy t' n k y hy'
    simpa [Refers, State.assign, State.setSlot, State.setObj, State.setPhase, hk] using hr
  · exact hi.apart t' t'' k ((hslot t' k).mp ht').2 ((hslot t'' k).mp ht'').2
  · rw [given_assign]
    by_cases hx : x = o
    · subst hx
      rw [if_pos rfl]
      exact (hstage x).give (ho.nonempty hi) ⟨h, by rw [mem_giveTo, if_pos rfl]⟩
    · rw [if_neg hx, giveTo, if_neg hx, herase]
      exact hstage x

theorem Inv.hfree {a : ℤ} (hi : Inv s fl refs) (hidle : s.phase t = .idle)
    (hsafe : ∀ o, s.hlookup a = some (o, false) → ¬ Busy s a.toNat) :
    ∃ fl' refs', Inv (s.hfree t a).1 fl' refs' := by
  rw [State.hfree]
  split
  · exact ⟨fl, refs, hi⟩
  next o prot hl =>
  split
  · exact ⟨fl, refs, hi⟩
  next hprot =>
  rw [Bool.not_eq_true] at hprot
  subst hprot
  obtain ⟨-, hlt, hh⟩ := hlookup_some hl
  have hbusy := hsafe o hl
  have hmem : a.toNat ∈ refs o := (hi.refsOk o _).mpr ⟨⟨hlt, false, hh⟩, hbusy⟩
  have hcount : (((s.pushFree a.toNat).dropHandle o).obj o).handleCount =
      (s.obj o).handleCount - 1 := by
    rw [handleCount_dropHandle, if_pos rfl]
    rfl
  have hpos : 0 < (s.obj o).handleCount.toNat := by
    rw [hi.count]
    exact Finset.card_pos.mpr ⟨_, hmem⟩
  have hnat := toNat_pred16 hpos
  by_cases hone : (s.obj o).handleCount = 1
  · have hzero : ¬ 0 < (((s.pushFree a.toNat).dropHandle o).obj o).handleCount := by
      rw [hcount, hone]
      decide
    simp only [hzero]
    refine ⟨_, _, hi.closeLast hidle hmem hone ⟨_, _, rfl⟩ (hi.table.push hlt hh)
      (fun k x hk => ?_) (.inl ⟨rfl, fun x hx => ?_⟩)⟩
    · simp [Refers, State.pushFree, State.setSlot, hk]
    · simp [Refers, State.pushFree, State.setSlot] at hx
  · have hmore : 0 < (((s.pushFree a.toNat).dropHandle o).obj o).handleCount := by
      rw [hcount, UInt16.lt_iff_toNat_lt]
      have hne : (s.obj o).handleCount.toNat ≠ 1 := fun heq => hone (UInt16.toNat.inj heq)
      change 0 < _
      omega
    simp only [hmore]
    exact ⟨_, _, hi.drop hlt hh hbusy hone⟩

theorem Inv.hassign {a : ℤ} (hi : Inv s fl refs) (hidle : s.phase t = .idle)
    (hused : Used s (t, .hassign o a)) (hsafe : Safe s (t, .hassign o a))
    {r : State ω τ × Option ℤ} (hr : s.hassign t o a = some r) :
    ∃ fl' refs', Inv r.1 fl' refs' := by
  rw [State.hassign] at hr
  split at hr
  · obtain rfl := Option.some.inj hr
    exact ⟨fl, refs, hi⟩
  next hrange =>
  obtain ⟨⟨fl₁, hi₁⟩, hcode, hslot, hobj, hphase, hgiven⟩ :=
    hi.expandTo (h := a.toNat) (n := a.toNat + 1) (by omega)
  simp only at hr
  generalize State.expandTo a.toNat (a.toNat + 1) s = q at hr hi₁ hcode hslot hobj hphase hgiven
  split at hr
  · obtain rfl := Option.some.inj hr
    exact ⟨fl₁, refs, hi₁⟩
  next hrc =>
  obtain ⟨-, hlt⟩ := hcode.resolve_left hrc
  have ho : Held q.1 o := by
    rw [Held, hgiven, hobj]
    exact hused
  have hbusy : Busy q.1 a.toNat ↔ Busy s a.toNat := by
    rw [Busy, Busy, hphase]
  split at hr
  · next next hnext =>
    obtain ⟨p, hp, rfl⟩ := Option.map_eq_some_iff.mp hr
    have hlook : s.hlookup a = none := by
      rw [State.hlookup]
      split
      · rfl
      next hin =>
      split
      · rfl
      next x prot hx =>
      have hin' : a.toNat < s.htabsize := by
        omega
      have := (hslot a.toNat x prot hlt).mpr ⟨hin', hx⟩
      simp [hnext] at this
    have hcount : (q.1.obj o).handleCount ≠ 65535 := by
      rw [hobj]
      simpa [Safe, hlook] using hsafe
    rcases hi₁.removeFromFreelist hlt hnext ho hcount hp with ⟨hneg, heq⟩ | ⟨hzero, fl', refs', hi'⟩
    · rw [if_pos hneg]
      exact ⟨fl₁, refs, by rw [heq]; exact hi₁⟩
    · rw [if_neg (by rw [hzero]; decide)]
      exact ⟨fl', refs', hi'⟩
  · next x prot hx =>
    split at hr
    · obtain rfl := Option.some.inj hr
      exact ⟨fl₁, refs, hi₁⟩
    next hprot =>
    rw [Bool.not_eq_true] at hprot
    subst hprot
    obtain ⟨hlt₀, hx₀⟩ := (hslot a.toNat x false hlt).mp hx
    have hlook : s.hlookup a = some (x, false) := by
      have hin : ¬ (a < 0 ∨ (s.htabsize : ℤ) ≤ a) := by omega
      rw [State.hlookup, if_neg hin, hx₀]
    simp only [Safe, hlook, Bool.false_eq_true, false_or] at hsafe
    obtain ⟨hnotbusy, hcounts⟩ := hsafe
    have hnb : ¬ Busy q.1 a.toNat := fun hb => hnotbusy (hbusy.mp hb)
    have hmem : a.toNat ∈ refs x := (hi₁.refsOk x _).mpr ⟨⟨hlt, false, hx⟩, hnb⟩
    have hpos : 0 < (q.1.obj x).handleCount.toNat := by
      rw [hi₁.count]
      exact Finset.card_pos.mpr ⟨_, hmem⟩
    have hdrop : ((q.1.dropHandle x).obj x).handleCount = 0 ↔ (q.1.obj x).handleCount = 1 := by
      rw [handleCount_dropHandle, if_pos rfl]
      constructor
      · intro h0
        have := congrArg UInt16.toNat h0
        rw [toNat_pred16 hpos] at this
        refine UInt16.toNat.inj ?_
        change _ = 1
        change _ = 0 at this
        omega
      · intro h1
        rw [h1]
        rfl
    split at hr
    · next hzero =>
      obtain rfl := Option.some.inj hr
      exact ⟨_, _, hi₁.closeLast (by rw [hphase]; exact hidle) hmem (hdrop.mp hzero) ⟨_, _, rfl⟩
        hi₁.table (fun k y _ => Iff.rfl) (.inr ⟨o, rfl, hlt, false, hx⟩)⟩
    · next hzero =>
      obtain rfl := Option.some.inj hr
      have hone : (q.1.obj x).handleCount ≠ 1 := fun h1 => hzero (hdrop.mpr h1)
      refine ⟨_, _, hi₁.replace hlt hx hnb ho hone fun hne => ?_⟩
      rw [if_neg hne] at hcounts
      rw [hobj] at hone ⊢
      exact hcounts hone

end SimpleKernel.Handle
