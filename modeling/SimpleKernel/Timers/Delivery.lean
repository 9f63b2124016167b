import SimpleKernel.Timers.Laps

/-! Every timer is called at the tick at which it is due. -/
namespace SimpleKernel.Timers
open LinkedList Transition
open Function (update update_eq_self update_idem update_of_ne update_self)

variable {τ : Type} [DecidableEq τ]

/-- 1 for a timer that is due at tick `d`. -/
def pending (due : Option ℕ) (d : ℕ) : ℕ := if due = some d then 1 else 0

@[simp] theorem pending_none (d : ℕ) : pending none d = 0 := rfl

@[simp] theorem pending_some (d e : ℕ) : pending (some d) e = if d = e then 1 else 0 := by
  simp [pending]

/-- Every time that a timer was attached it is still due then, or it was called at that tick, or taken back. -/
def Record.Accounts (r : Record τ) : Prop :=
  ∀ t d, r.made.count (t, d) = r.fired.count (t, d) + r.cancelled.count (t, d) + pending (r.due t) d

/-- The timers `q` in the slots, of which those that meet `P` are circles. -/
structure Held (w : Wheel τ) (r : Record τ) (laps : Fin 5 → ℕ) (q : Slot → List τ) (P : Slot → Prop) : Prop where
  rings : Rings w.links q P
  active : ∀ t, (w.timers t).active = true ↔ ∃ k, t ∈ q k
  fits : ∀ k t, t ∈ q k → ∃ d, r.due t = some d ∧ Fits r.now laps (w.timers t).expires k d
  idle : ∀ t, (w.timers t).active = false → r.due t = none
  expires : ∀ t, (w.timers t).expires < 2 ^ 32
  accounts : r.Accounts

variable {w : Wheel τ} {r : Record τ} {laps : Fin 5 → ℕ} {q : Slot → List τ} {P : Slot → Prop} {t u : τ} {k : Slot}
  {xs : List τ}

theorem Held.absent (h : Held w r laps q P) (ht : (w.timers t).active = false) (k : Slot) : t ∉ q k := by
  intro hm
  have hactive := (h.active t).2 ⟨k, hm⟩
  rw [ht] at hactive
  nomatch hactive

theorem Accounts.attach (h : r.Accounts) (hnone : r.due t = none) (expires : ℕ) : (r.attach t expires).Accounts := by
  intro u d
  have hu := h u d
  dsimp only [Record.attach]
  rw [List.count_append, hu]
  by_cases hut : u = t
  · subst hut
    rw [hnone]
    simp [List.count_singleton]
  · rw [update_of_ne hut]
    simp [Ne.symm hut]

theorem Accounts.settle (h : r.Accounts) {d : ℕ} (hd : r.due t = some d) {r' : Record τ} (hmade : r'.made = r.made)
    (hdue : r'.due = update r.due t none)
    (hlists : ∀ x, r'.fired.count x + r'.cancelled.count x = r.fired.count x + r.cancelled.count x + [(t, d)].count x) :
    r'.Accounts := by
  intro u e
  have hu := h u e
  rw [hmade, hdue, hlists, hu]
  by_cases hut : u = t
  · subst hut
    rw [hd]
    simp [List.count_singleton]
  · rw [update_of_ne hut]
    simp [Ne.symm hut]

theorem Accounts.cancel (h : r.Accounts) {d : ℕ} (hd : r.due t = some d) : (r.cancel t).Accounts := by
  have hcancel : r.cancel t = { r with due := update r.due t none, cancelled := r.cancelled ++ [(t, d)] } := by
    unfold Record.cancel
    rw [hd]
  rw [hcancel]
  apply Accounts.settle h hd
  · rfl
  · rfl
  · intro x
    dsimp only
    rw [List.count_append]
    omega

theorem Accounts.fire (h : r.Accounts) (hd : r.due t = some r.now) : (r.fire t).Accounts := by
  apply Accounts.settle h hd
  · rfl
  · rfl
  · intro x
    dsimp only [Record.fire]
    rw [List.count_append]
    omega

theorem Held.attach (h : Held w r laps q P) (ht : (w.timers t).active = false) (hP : P (w.slot (w.timers t).expires))
    (hfits : Fits r.now laps (w.timers t).expires (w.slot (w.timers t).expires) (r.tick (w.timers t).expires)) :
    Held (w.attachTimer t) (r.attach t (w.timers t).expires) laps
      (update q (w.slot (w.timers t).expires) (q (w.slot (w.timers t).expires) ++ [t])) P := by
  have habsent := h.absent ht
  have hmem (j : Slot) (u : τ) :
      u ∈ update q (w.slot (w.timers t).expires) (q (w.slot (w.timers t).expires) ++ [t]) j ↔
        u ∈ q j ∨ j = w.slot (w.timers t).expires ∧ u = t := by
    by_cases hj : j = w.slot (w.timers t).expires
    · rw [hj]
      simp
    · simp [hj]
  constructor
  · exact h.rings.enter hP habsent
  · intro u
    dsimp only [Wheel.attachTimer]
    by_cases hu : u = t
    · subst hu
      rw [update_self]
      exact ⟨fun _ => ⟨_, (hmem _ _).2 (.inr ⟨rfl, rfl⟩)⟩, fun _ => rfl⟩
    · rw [update_of_ne hu, h.active u]
      constructor
      · rintro ⟨j, hj⟩
        exact ⟨j, (hmem j u).2 (.inl hj)⟩
      · rintro ⟨j, hj⟩
        rcases (hmem j u).1 hj with hj | ⟨-, hut⟩
        · exact ⟨j, hj⟩
        · exact absurd hut hu
  · intro j u hj
    dsimp only [Wheel.attachTimer, Record.attach]
    by_cases hu : u = t
    · subst hu
      rw [update_self, update_self]
      rcases (hmem j u).1 hj with hj | ⟨rfl, -⟩
      · exact absurd hj (habsent j)
      · exact ⟨_, rfl, hfits⟩
    · rw [update_of_ne hu, update_of_ne hu]
      rcases (hmem j u).1 hj with hj | ⟨-, hut⟩
      · exact h.fits j u hj
      · exact absurd hut hu
  · intro u hu
    dsimp only [Wheel.attachTimer, Record.attach] at hu ⊢
    by_cases hut : u = t
    · subst hut
      rw [update_self] at hu
      nomatch hu
    · rw [update_of_ne hut] at hu ⊢
      exact h.idle u hu
  · intro u
    dsimp only [Wheel.attachTimer]
    by_cases hut : u = t
    · subst hut
      rw [update_self]
      exact h.expires u
    · rw [update_of_ne hut]
      exact h.expires u
  · exact Accounts.attach h.accounts (h.idle t ht) _

theorem Held.detach (h : Held w r laps q P) (hP : P k) (ht : t ∈ q k) {r' : Record τ} (hnow : r'.now = r.now)
    (hdue : r'.due = update r.due t none) (haccounts : r'.Accounts) :
    Held (w.detachTimer t) r' laps (update q k ((q k).erase t)) P := by
  have hactive : (w.timers t).active = true := (h.active t).2 ⟨k, ht⟩
  have hwheel : w.detachTimer t = { w with
      links := w.links.bypass (.item t)
      timers := update w.timers t { w.timers t with active := false } } := if_pos hactive
  have hmem (j : Slot) (u : τ) : u ∈ update q k ((q k).erase t) j ↔ u ∈ q j ∧ u ≠ t := by
    by_cases hj : j = k
    · subst hj
      rw [update_self, (h.rings.nodup j).mem_erase_iff]
      exact and_comm
    · rw [update_of_ne hj]
      refine ⟨fun hu => ⟨hu, ?_⟩, fun hu => hu.1⟩
      rintro rfl
      exact hj (h.rings.apart j k u hu ht)
  rw [hwheel]
  constructor
  · exact h.rings.bypass hP ht
  · intro u
    dsimp only
    by_cases hu : u = t
    · subst hu
      rw [update_self]
      refine ⟨nofun, ?_⟩
      rintro ⟨j, hj⟩
      exact absurd rfl ((hmem j u).1 hj).2
    · rw [update_of_ne hu, h.active u]
      constructor
      · rintro ⟨j, hj⟩
        exact ⟨j, (hmem j u).2 ⟨hj, hu⟩⟩
      · rintro ⟨j, hj⟩
        exact ⟨j, ((hmem j u).1 hj).1⟩
  · intro j u hj
    obtain ⟨hj, hu⟩ := (hmem j u).1 hj
    dsimp only
    rw [update_of_ne hu, hnow, hdue, update_of_ne hu]
    exact h.fits j u hj
  · intro u hu
    rw [hdue]
    by_cases hut : u = t
    · subst hut
      exact update_self ..
    · dsimp only at hu
      rw [update_of_ne hut] at hu ⊢
      exact h.idle u hu
  · intro u
    dsimp only
    by_cases hut : u = t
    · subst hut
      rw [update_self]
      exact h.expires u
    · rw [update_of_ne hut]
      exact h.expires u
  · exact haccounts

theorem Held.moveDown (h : Held w r laps q P) (hk : ¬ P k) (hq : q k = t :: xs)
    (hP : P (w.slot (w.timers t).expires)) {d : ℕ} (hdue : r.due t = some d)
    (hfits : Fits r.now laps (w.timers t).expires (w.slot (w.timers t).expires) d) :
    Held (w.attachTimer t) r laps
      (update (update q k xs) (w.slot (w.timers t).expires)
        (update q k xs (w.slot (w.timers t).expires) ++ [t])) P := by
  have ht : t ∈ q k := by
    rw [hq]
    exact List.mem_cons_self
  have hactive : (w.timers t).active = true := (h.active t).2 ⟨k, ht⟩
  have htimers : (w.attachTimer t).timers = w.timers := by
    dsimp only [Wheel.attachTimer]
    rw [← hactive]
    exact update_eq_self t w.timers
  have hpass := h.rings.pass hk hq
  have hrest (j : Slot) (u : τ) : u ∈ update q k xs j ↔ u ∈ q j ∧ u ≠ t := by
    have hnodup := h.rings.nodup k
    rw [hq] at hnodup
    by_cases hj : j = k
    · subst hj
      rw [update_self, hq, List.mem_cons]
      constructor
      · intro hu
        refine ⟨.inr hu, ?_⟩
        rintro rfl
        exact (List.nodup_cons.1 hnodup).1 hu
      · rintro ⟨hu | hu, hne⟩
        · exact absurd hu hne
        · exact hu
    · rw [update_of_ne hj]
      refine ⟨fun hu => ⟨hu, ?_⟩, fun hu => hu.1⟩
      rintro rfl
      exact hj (h.rings.apart j k u hu ht)
  have hmem (j : Slot) (u : τ) :
      u ∈ update (update q k xs) (w.slot (w.timers t).expires)
        (update q k xs (w.slot (w.timers t).expires) ++ [t]) j ↔
        u ∈ q j ∧ u ≠ t ∨ j = w.slot (w.timers t).expires ∧ u = t := by
    rw [← hrest]
    by_cases hj : j = w.slot (w.timers t).expires
    · rw [hj]
      simp
    · simp [hj]
  constructor
  · exact hpass.enter hP fun j hj => absurd rfl ((hrest j t).1 hj).2
  · intro u
    rw [htimers, h.active u]
    constructor
    · rintro ⟨j, hj⟩
      by_cases hu : u = t
      · exact ⟨_, (hmem _ u).2 (.inr ⟨rfl, hu⟩)⟩
      · exact ⟨j, (hmem j u).2 (.inl ⟨hj, hu⟩)⟩
    · rintro ⟨j, hj⟩
      rcases (hmem j u).1 hj with ⟨hj, -⟩ | ⟨-, rfl⟩
      · exact ⟨j, hj⟩
      · exact ⟨k, ht⟩
  · intro j u hj
    rw [htimers]
    rcases (hmem j u).1 hj with ⟨hj, -⟩ | ⟨rfl, rfl⟩
    · exact h.fits j u hj
    · exact ⟨d, hdue, hfits⟩
  · rw [htimers]
    exact h.idle
  · rw [htimers]
    exact h.expires
  · exact h.accounts

variable {s s' : State τ}

/-- The slot is not the one that is being taken apart. -/
def State.Whole (s : State τ) (k : Slot) : Prop := ∀ n curr, s.pc = .cascade n curr → k ≠ s.wheel.current n

def State.lap (s : State τ) (v : Fin 5) : ℕ := Timers.lap s.record.now (s.pc.taken v) v

structure Inv (s : State τ) (q : Slot → List τ) : Prop where
  ticks : s.wheel.timerTicks = s.record.now % 2 ^ 32
  index0 : s.wheel.index 0 = s.record.now % 2 ^ 8
  index : ∀ v, v ≠ 0 → s.wheel.index v = s.lap v % 2 ^ 6
  cascading : ∀ n curr, s.pc = .cascade n curr → n ≠ 0 ∧ gran n ∣ s.record.now ∧
    curr = start (s.wheel.current n) (q (s.wheel.current n)) ∧
    Trail s.wheel.links (s.wheel.current n) (q (s.wheel.current n))
  held : Held s.wheel s.record s.lap q s.Whole

theorem inv_init : Inv (State.init : State τ) fun _ => [] := by
  constructor
  · rfl
  · rfl
  · simp [State.init, State.lap, Pc.taken, Wheel.init, Timers.lap]
  · rintro n curr ⟨⟩
  · constructor
    · constructor
      · exact fun k _ => ⟨rfl, rfl, trivial⟩
      · exact fun _ => List.nodup_nil
      · rintro _ _ _ ⟨⟩
    · intro t
      constructor
      · rintro ⟨⟩
      · rintro ⟨k, ⟨⟩⟩
    · rintro k t ⟨⟩
    · exact fun _ _ => rfl
    · exact fun _ => Nat.two_pow_pos 32
    · exact fun t d => rfl

omit [DecidableEq τ] in
theorem Inv.whole (hopen : s.pc.Open) (k : Slot) : s.Whole k := by
  intro n curr hpc
  rw [hpc] at hopen
  exact hopen.elim

theorem Inv.advance (h : Inv s q) (n : ℕ) : Inv { s with ticks := n } q :=
  ⟨h.ticks, h.index0, h.index, h.cascading, h.held⟩

theorem Inv.leave (h : Inv s q) (hopen : s.pc.Open) {pc : Pc τ} (hpc : ∀ n curr, pc ≠ .cascade n curr)
    (htaken : pc.taken = s.pc.taken) : Inv { s with pc := pc } q := by
  have hlap : ({ s with pc := pc } : State τ).lap = s.lap := by
    funext v
    dsimp only [State.lap]
    rw [htaken]
  refine ⟨h.ticks, h.index0, hlap ▸ h.index, fun n curr hcascade => absurd hcascade (hpc n curr), ?_⟩
  rw [hlap]
  exact ⟨h.held.rings.mono fun k _ => Inv.whole hopen k, h.held.active, h.held.fits, h.held.idle, h.held.expires,
    h.held.accounts⟩

theorem Inv.call (h : Inv s q) (hopen : s.pc.Open) {w : Wheel τ} {r : Record τ} {q' : Slot → List τ}
    (hticks : w.timerTicks = s.wheel.timerTicks) (hindex : w.index = s.wheel.index) (hnow : r.now = s.record.now)
    (hheld : Held w r s.lap q' s.Whole) : Inv { s with wheel := w, record := r } q' := by
  have hlaps : ({ s with wheel := w, record := r } : State τ).lap = s.lap := by
    funext v
    dsimp only [State.lap]
    rw [hnow]
  constructor
  · rw [hticks, hnow, h.ticks]
  · rw [hindex, hnow, h.index0]
  · intro v hv
    rw [hlaps]
    rw [hindex]
    exact h.index v hv
  · intro n curr hpc
    rw [show s.pc = .cascade n curr from hpc] at hopen
    exact hopen.elim
  · rw [hlaps]
    have hrings : Rings w.links q' ({ s with wheel := w, record := r } : State τ).Whole := by
      apply hheld.rings.mono
      exact fun k _ => Inv.whole hopen k
    exact ⟨hrings, hheld.active, hheld.fits, hheld.idle, hheld.expires, hheld.accounts⟩

theorem Inv.attach (h : Inv s q) (hopen : s.pc.Open) (ht : (s.wheel.timers t).active = false) :
    ∃ q', Inv (s.attach t) q' := by
  have hfits := fits_slot h.ticks h.index0 (laps_lap s.record.now s.pc.taken) (h.held.expires t)
  have hheld := h.held.attach ht (Inv.whole hopen _) hfits
  exact ⟨_, h.call hopen rfl rfl rfl hheld⟩

theorem cancel_now (r : Record τ) (t : τ) : (r.cancel t).now = r.now := by
  unfold Record.cancel
  split <;> rfl

theorem cancel_due (r : Record τ) (t : τ) : (r.cancel t).due = update r.due t none := by
  unfold Record.cancel
  split
  · next hnone => rw [← hnone, update_eq_self]
  · rfl

theorem Inv.detach (h : Inv s q) (hopen : s.pc.Open) (t : τ) :
    ∃ q', Inv (s.detach t) q' ∧ ((s.detach t).wheel.timers t).active = false ∧ (s.detach t).pc = s.pc := by
  by_cases ht : (s.wheel.timers t).active = true
  · obtain ⟨k, hk⟩ := (h.held.active t).1 ht
    obtain ⟨d, hd, -⟩ := h.held.fits k t hk
    have hheld := h.held.detach (Inv.whole hopen k) hk (cancel_now s.record t) (cancel_due s.record t)
      (Accounts.cancel h.held.accounts hd)
    have hdetach : s.detach t = { s with wheel := s.wheel.detachTimer t, record := s.record.cancel t } := by
      unfold State.detach
      rw [if_pos ht]
    have hwheel : s.wheel.detachTimer t = { s.wheel with
        links := s.wheel.links.bypass (.item t)
        timers := update s.wheel.timers t { s.wheel.timers t with active := false } } := if_pos ht
    rw [hdetach]
    refine ⟨_, h.call hopen ?_ ?_ (cancel_now s.record t) hheld, ?_, rfl⟩
    · rw [hwheel]
    · rw [hwheel]
    · rw [hwheel]
      dsimp only
      rw [update_self]
  · have hdetach : s.detach t = s := by
      unfold State.detach Wheel.detachTimer
      rw [if_neg ht, if_neg ht]
    rw [hdetach]
    exact ⟨q, h, Bool.eq_false_iff.2 ht, rfl⟩

theorem Held.setIdle {P : Slot → Prop} (h : Held w r laps q P) (ht : (w.timers t).active = false)
    {l : Links (Node Slot τ)} {e : ℕ} (hl : ∀ x, x ≠ .item t → l.next x = w.links.next x ∧ l.prev x = w.links.prev x)
    (he : e < 2 ^ 32) : Held ({ w with links := l }.setTimer t ⟨e, false⟩) r laps q P := by
  have habsent := h.absent ht
  have htimers (u : τ) (hu : u ≠ t) : (({ w with links := l } : Wheel τ).setTimer t ⟨e, false⟩).timers u = w.timers u :=
    update_of_ne hu ..
  have hself : (({ w with links := l } : Wheel τ).setTimer t ⟨e, false⟩).timers t = ⟨e, false⟩ :=
    update_self ..
  constructor
  · constructor
    · intro k hk
      have hne (x : Node Slot τ) (hx : x ∈ ring k (q k)) : x ≠ .item t := by
        rintro rfl
        exact habsent k (item_mem_ring.1 hx)
      apply (h.rings.circle k hk).congr
      · exact fun x hx => (hl x (hne x hx)).2
      · exact fun x hx => (hl x (hne x hx)).1
    · exact h.rings.nodup
    · exact h.rings.apart
  · intro u
    by_cases hu : u = t
    · subst hu
      rw [hself]
      exact ⟨nofun, fun ⟨k, hk⟩ => absurd hk (habsent k)⟩
    · rw [htimers u hu]
      exact h.active u
  · intro k u hk
    have hu : u ≠ t := by
      rintro rfl
      exact habsent k hk
    rw [htimers u hu]
    exact h.fits k u hk
  · intro u hu
    by_cases hut : u = t
    · rw [hut]
      exact h.idle t ht
    · rw [htimers u hut] at hu
      exact h.idle u hu
  · intro u
    by_cases hut : u = t
    · rw [hut, hself]
      exact he
    · rw [htimers u hut]
      exact h.expires u
  · exact h.accounts

theorem Inv.setExpires (h : Inv s q) (hopen : s.pc.Open) (ht : (s.wheel.timers t).active = false) (e : ℕ) :
    Inv (s.setExpires t e) q := by
  have hheld : Held (s.wheel.setTimer t ⟨e % 2 ^ 32, false⟩) s.record s.lap q s.Whole :=
    h.held.setIdle ht (fun _ _ => ⟨rfl, rfl⟩) (Nat.mod_lt e (Nat.two_pow_pos 32))
  have hset : s.setExpires t e = { s with wheel := s.wheel.setTimer t ⟨e % 2 ^ 32, false⟩ } := by
    unfold State.setExpires
    rw [← ht]
  rw [hset]
  exact h.call hopen rfl rfl rfl hheld

theorem Inv.initTimer (h : Inv s q) (hopen : s.pc.Open) (ht : (s.wheel.timers t).active = false) :
    Inv (s.initTimer t) q := by
  have hlinks (x : Node Slot τ) (hx : x ≠ .item t) :
      (s.wheel.links.setNext (some (.item t)) none).next x = s.wheel.links.next x ∧
        (s.wheel.links.setNext (some (.item t)) none).prev x = s.wheel.links.prev x := by
    have hne : ¬ some (Node.item t) = some x := fun e => hx (Option.some.inj e).symm
    rw [setNext_next, if_neg hne]
    exact ⟨rfl, rfl⟩
  have hheld := h.held.setIdle ht hlinks (Nat.two_pow_pos 32)
  exact h.call hopen rfl rfl rfl hheld

theorem Inv.addTimer (h : Inv s q) (hopen : s.pc.Open) (t : τ) : ∃ q', Inv (s.addTimer t) q' := by
  unfold State.addTimer
  by_cases ht : (s.wheel.timers t).active = true
  · rw [if_pos ht]
    exact ⟨q, h⟩
  · rw [if_neg ht]
    exact h.attach hopen (Bool.eq_false_iff.2 ht)

theorem Inv.clear (h : Inv s q) (hopen : s.pc.Open) (ht : (s.wheel.timers t).active = false) :
    Inv { s with wheel := { s.wheel with links := s.wheel.links.clear (.item t) } } q := by
  have hheld : Held { s.wheel with links := s.wheel.links.clear (.item t) } s.record s.lap q s.Whole :=
    ⟨h.held.rings.clear (h.held.absent ht), h.held.active, h.held.fits, h.held.idle, h.held.expires, h.held.accounts⟩
  exact h.call hopen rfl rfl rfl hheld

theorem Inv.delTimer (h : Inv s q) (hopen : s.pc.Open) (t : τ) : ∃ q', Inv (s.delTimer t) q' := by
  obtain ⟨q', hdetach, hidle, hpc⟩ := h.detach hopen t
  exact ⟨q', hdetach.clear (hpc ▸ hopen) hidle⟩

theorem setExpires_detach (s : State τ) (t : τ) (e : ℕ) :
    (s.setExpires t e).detach t = (s.detach t).setExpires t e := by
  unfold State.detach State.setExpires Wheel.detachTimer Wheel.setTimer
  by_cases ht : (s.wheel.timers t).active = true
  · simp only [ht, if_true, update_self, update_idem]
  · simp only [ht, update_self, Bool.false_eq_true, if_false]

theorem Inv.modTimer (h : Inv s q) (hopen : s.pc.Open) (t : τ) (e : ℕ) : ∃ q', Inv (s.modTimer t e) q' := by
  obtain ⟨q', hdetach, hidle, hpc⟩ := h.detach hopen t
  have hset := hdetach.setExpires (hpc ▸ hopen) hidle e
  unfold State.modTimer
  rw [setExpires_detach]
  apply hset.attach
  · exact hpc ▸ hopen
  · unfold State.setExpires Wheel.setTimer
    dsimp only
    rw [update_self]
    exact hidle

/-! `run_timer_list`. -/

theorem Held.turn {P Q : Slot → Prop} (h : Held w r laps q P) {w' : Wheel τ} {r' : Record τ} {laps' : Fin 5 → ℕ}
    (hrings : Rings w'.links q Q) (htimers : w'.timers = w.timers) (hdue : r'.due = r.due)
    (haccounts : r'.Accounts)
    (hfits : ∀ k t d, t ∈ q k → Fits r.now laps (w.timers t).expires k d →
      Fits r'.now laps' (w.timers t).expires k d) : Held w' r' laps' q Q := by
  constructor
  · exact hrings
  · rw [htimers]
    exact h.active
  · intro k t hk
    obtain ⟨d, hd, hfit⟩ := h.fits k t hk
    rw [htimers, hdue]
    exact ⟨d, hd, hfits k t d hk hfit⟩
  · rw [htimers, hdue]
    exact h.idle
  · rw [htimers]
    exact h.expires
  · exact haccounts

theorem Fits.now {now expires d : ℕ} {laps : Fin 5 → ℕ} (h : Fits now laps expires ⟨0, now % 2 ^ 8⟩ d) : d = now := by
  rcases h with ⟨-, hi, hlow, hhigh⟩ | ⟨hv, -⟩
  · dsimp only at hi
    omega
  · exact absurd rfl hv

theorem Inv.fire (h : Inv s q) (hpc : s.pc = .call) {xs : List τ} (hq : q (s.wheel.current 0) = t :: xs) :
    s.record.due t = some s.record.now ∧
      ∃ q', Inv { s with
        wheel := { s.wheel.detachTimer t with links := (s.wheel.detachTimer t).links.clear (.item t) }
        pc := .handler t
        record := s.record.fire t } q' := by
  have ht : t ∈ q (s.wheel.current 0) := by
    rw [hq]
    exact List.mem_cons_self
  have hdue : s.record.due t = some s.record.now := by
    obtain ⟨d, hd, hfits⟩ := h.held.fits _ t ht
    rw [Wheel.current, h.index0] at hfits
    rw [hd, hfits.now]
  refine ⟨hdue, ?_⟩
  have hwhole : s.Whole (s.wheel.current 0) := by
    intro n curr hcascade
    rw [hpc] at hcascade
    nomatch hcascade
  have hheld : Held (s.wheel.detachTimer t) (s.record.fire t) s.lap
      (update q (s.wheel.current 0) ((q (s.wheel.current 0)).erase t)) s.Whole :=
    h.held.detach hwhole ht rfl rfl (Accounts.fire h.held.accounts hdue)
  have hactive : (s.wheel.timers t).active = true := (h.held.active t).2 ⟨_, ht⟩
  have hwheel : s.wheel.detachTimer t = { s.wheel with
      links := s.wheel.links.bypass (.item t)
      timers := update s.wheel.timers t { s.wheel.timers t with active := false } } := if_pos hactive
  have hidle : ((s.wheel.detachTimer t).timers t).active = false := by
    rw [hwheel]
    dsimp only
    rw [update_self]
  have hlap : ({ s with
      wheel := { s.wheel.detachTimer t with links := (s.wheel.detachTimer t).links.clear (.item t) }
      pc := .handler t
      record := s.record.fire t } : State τ).lap = s.lap := by
    funext v
    dsimp only [State.lap]
    rw [hpc]
    rfl
  refine ⟨update q (s.wheel.current 0) ((q (s.wheel.current 0)).erase t), ?_⟩
  constructor
  · rw [hwheel]
    exact h.ticks
  · rw [hwheel]
    exact h.index0
  · rw [hlap, hwheel]
    exact h.index
  · exact fun n curr hcascade => (nomatch hcascade)
  · rw [hlap]
    have hclear := hheld.rings.clear (hheld.absent hidle)
    refine ⟨hclear.mono ?_, hheld.active, hheld.fits, hheld.idle, hheld.expires, hheld.accounts⟩
    intro k _ n curr hcascade
    rw [hpc] at hcascade
    nomatch hcascade

theorem Inv.tickEnd (h : Inv s q) (hpc : s.pc = .call) (hq : q (s.wheel.current 0) = []) :
    Inv { s with
      wheel := { s.wheel with
        timerTicks := (s.wheel.timerTicks + 1) % 2 ^ 32
        index := update s.wheel.index 0 ((s.wheel.index 0 + 1) % 2 ^ 8) }
      pc := .test
      record := { s.record with now := s.record.now + 1 } } q := by
  have hlap (v : Fin 5) : lap (s.record.now + 1) false v = s.lap v := by
    dsimp only [State.lap]
    rw [hpc, lap_next]
    rfl
  have hticks := h.ticks
  have hindex0 := h.index0
  constructor
  · dsimp only
    omega
  · dsimp only
    rw [update_self]
    omega
  · intro v hv
    dsimp only
    rw [update_of_ne hv, h.index v hv]
    exact congrArg (· % 2 ^ 6) (hlap v).symm
  · exact fun n curr hcascade => (nomatch hcascade)
  · have hrings : Rings s.wheel.links q ({ s with
        wheel := { s.wheel with
          timerTicks := (s.wheel.timerTicks + 1) % 2 ^ 32
          index := update s.wheel.index 0 ((s.wheel.index 0 + 1) % 2 ^ 8) }
        pc := .test
        record := { s.record with now := s.record.now + 1 } } : State τ).Whole := by
      apply h.held.rings.mono
      intro k _ n curr hcascade
      rw [hpc] at hcascade
      nomatch hcascade
    refine h.held.turn hrings rfl rfl h.held.accounts fun k t d hk hfits => ?_
    rcases hfits with ⟨hv, hi, hlow, hhigh⟩ | ⟨hv, hi, hrest⟩
    · have hne : d ≠ s.record.now := by
        rintro rfl
        have hslot : k = s.wheel.current 0 := by
          cases k with
          | mk vec i =>
            dsimp only at hv hi
            rw [hv, hi, ← h.index0]
            rfl
        rw [hslot, hq] at hk
        nomatch hk
      refine .inl ⟨hv, hi, ?_, ?_⟩
      · dsimp only
        omega
      · dsimp only
        omega
    · refine .inr ⟨hv, hi, ?_⟩
      rw [← hlap k.vec] at hrest
      exact hrest

theorem Inv.testDone (h : Inv s q) (hpc : s.pc = .test) {pc : Pc τ}
    (hnext : pc = .idle ∨ pc = .call ∧ s.wheel.index 0 ≠ 0) : Inv { s with pc := pc } q := by
  have hlap (v : Fin 5) (hv : v ≠ 0) : lap s.record.now (pc.taken v) v = s.lap v := by
    dsimp only [State.lap]
    rw [hpc]
    rcases hnext with rfl | ⟨rfl, hindex⟩
    · rfl
    · have hnot : ¬ gran v ∣ s.record.now := by
        intro hdvd
        have hone : gran 1 ∣ s.record.now := dvd_of_gran_dvd (by decide) (by omega) hdvd
        rw [h.index0] at hindex
        exact hindex (Nat.mod_eq_zero_of_dvd hone)
      rw [lap_of_not_dvd hnot, lap_of_not_dvd hnot]
  have hpcs (n : Fin 5) (curr : Node Slot τ) (hcascade : pc = .cascade n curr) : False := by
    rcases hnext with rfl | ⟨rfl, -⟩
    · nomatch hcascade
    · nomatch hcascade
  constructor
  · exact h.ticks
  · exact h.index0
  · intro v hv
    rw [h.index v hv]
    exact congrArg (· % 2 ^ 6) (hlap v hv).symm
  · exact fun n curr hcascade => (hpcs n curr hcascade).elim
  · have hrings : Rings s.wheel.links q ({ s with pc := pc } : State τ).Whole := by
      apply h.held.rings.mono
      intro k _ n curr hcascade
      rw [hpc] at hcascade
      nomatch hcascade
    exact h.held.turn hrings rfl rfl h.held.accounts fun k t d _ hfits => hfits.congr hlap

theorem Inv.testCascade (h : Inv s q) (hpc : s.pc = .test) (hindex : s.wheel.index 0 = 0) {next : Node Slot τ}
    (hnext : s.wheel.first 1 = some next) : Inv { s with pc := .cascade 1 next } q := by
  have hwhole (k : Slot) : s.Whole k := by
    intro n curr hcascade
    rw [hpc] at hcascade
    nomatch hcascade
  have hdvd : gran 1 ∣ s.record.now := by
    rw [h.index0] at hindex
    exact Nat.dvd_of_mod_eq_zero hindex
  obtain ⟨hfirst, htrail⟩ := h.held.rings.trail (hwhole (s.wheel.current 1))
  obtain rfl := Option.some.inj (hnext.symm.trans hfirst)
  have hlap (v : Fin 5) (hv : v ≠ 0) :
      lap s.record.now ((Pc.cascade 1 (start (s.wheel.current 1) (q (s.wheel.current 1))) : Pc τ).taken v) v =
        s.lap v := by
    have hnot : ¬ v < 1 := by omega
    dsimp only [State.lap]
    rw [hpc]
    simp [Pc.taken, hnot]
  constructor
  · exact h.ticks
  · exact h.index0
  · intro v hv
    rw [h.index v hv]
    exact congrArg (· % 2 ^ 6) (hlap v hv).symm
  · intro n curr hcascade
    obtain ⟨rfl, rfl⟩ := Pc.cascade.inj hcascade
    exact ⟨by decide, hdvd, rfl, htrail⟩
  · have hrings : Rings s.wheel.links q ({ s with
        pc := .cascade 1 (start (s.wheel.current 1) (q (s.wheel.current 1))) } : State τ).Whole :=
      h.held.rings.mono fun k _ => hwhole k
    exact h.held.turn hrings rfl rfl h.held.accounts fun k t d _ hfits => hfits.congr hlap

omit [DecidableEq τ] in
theorem start_item {k : Slot} {xs : List τ} (h : Node.item t = start k xs) : ∃ ys, xs = t :: ys := by
  cases xs with
  | nil => nomatch h
  | cons a ys =>
    obtain rfl := Node.item.inj h
    exact ⟨ys, rfl⟩

omit [DecidableEq τ] in
theorem start_head {k j : Slot} {xs : List τ} (h : Node.head j = start k xs) : j = k ∧ xs = [] := by
  cases xs with
  | nil => exact ⟨Node.head.inj h, rfl⟩
  | cons a ys => nomatch h

/-- The timer at which `cascade_timers` stands goes into a vector below, into a slot that has not been processed. -/
theorem Inv.cascade_slot (h : Inv s q) {n : Fin 5} (hpc : s.pc = .cascade n (.item t)) :
    ∃ d, s.record.due t = some d ∧ (s.wheel.slot (s.wheel.timers t).expires).vec < n ∧
      Fits s.record.now s.lap (s.wheel.timers t).expires (s.wheel.slot (s.wheel.timers t).expires) d := by
  obtain ⟨hn, hdvd, hstart, -⟩ := h.cascading n _ hpc
  obtain ⟨xs, hq⟩ := start_item hstart
  have ht : t ∈ q (s.wheel.current n) := by
    rw [hq]
    exact List.mem_cons_self
  have hlap : s.lap n = s.record.now / gran n := by
    dsimp only [State.lap]
    rw [hpc]
    have hself : (Pc.cascade n (.item t) : Pc τ).taken n = false := decide_eq_false (Nat.lt_irrefl n)
    rw [hself, lap_of_dvd hdvd]
  obtain ⟨d, hd, hfits⟩ := h.held.fits _ t ht
  rw [Wheel.current, h.index n hn] at hfits
  obtain ⟨hlow, hhigh, hexpires⟩ := hfits.current hn hlap hdvd
  have htick : s.record.tick (s.wheel.timers t).expires = d := by
    have hgran : gran n ≤ gran 4 := gran_le (Fin.le_last n)
    have hvalue := gran_values.2.2.2
    unfold Record.tick
    rw [hexpires, tick_of_due hlow (by omega), if_pos (by omega)]
    omega
  have hslot := fits_slot h.ticks h.index0 (laps_lap s.record.now s.pc.taken) (h.held.expires t)
  rw [htick] at hslot
  refine ⟨d, hd, ?_, hslot⟩
  rw [hexpires]
  exact slot_vec_lt hn h.ticks hlow hhigh

theorem Inv.cascadeItem (h : Inv s q) {n : Fin 5} (hpc : s.pc = .cascade n (.item t)) {next : Node Slot τ}
    (hnext : s.wheel.links.next (.item t) = some next) :
    ∃ q', Inv { s with wheel := s.wheel.attachTimer t, pc := .cascade n next } q' := by
  obtain ⟨hn, hdvd, hstart, htrail⟩ := h.cascading n _ hpc
  obtain ⟨xs, hq⟩ := start_item hstart
  rw [hq] at htrail
  obtain ⟨hlink, hrest⟩ := htrail
  obtain rfl := Option.some.inj (hnext.symm.trans hlink)
  obtain ⟨d, hd, hlt, hfits⟩ := h.cascade_slot hpc
  have hnot : ¬ s.Whole (s.wheel.current n) := fun hwhole => hwhole n _ hpc rfl
  have hwhole : s.Whole (s.wheel.slot (s.wheel.timers t).expires) := by
    intro m curr hcascade heq
    rw [hpc] at hcascade
    obtain ⟨rfl, -⟩ := Pc.cascade.inj hcascade
    rw [heq] at hlt
    exact absurd hlt (Nat.lt_irrefl n)
  have hne : s.wheel.current n ≠ s.wheel.slot (s.wheel.timers t).expires := fun e => hnot (e ▸ hwhole)
  have hheld := h.held.moveDown hnot hq hwhole hd hfits
  have hcurrent : (s.wheel.attachTimer t).current n = s.wheel.current n := rfl
  have hkept : update (update q (s.wheel.current n) xs)
      (s.wheel.slot (s.wheel.timers t).expires)
      (update q (s.wheel.current n) xs (s.wheel.slot (s.wheel.timers t).expires) ++ [t])
      (s.wheel.current n) = xs := by
    rw [update_of_ne hne, update_self]
  have hlap : ({ s with wheel := s.wheel.attachTimer t, pc := .cascade n (start (s.wheel.current n) xs) } :
      State τ).lap = s.lap := by
    funext v
    dsimp only [State.lap]
    rw [hpc]
    rfl
  refine ⟨update (update q (s.wheel.current n) xs) (s.wheel.slot (s.wheel.timers t).expires)
    (update q (s.wheel.current n) xs (s.wheel.slot (s.wheel.timers t).expires) ++ [t]), ?_⟩
  constructor
  · exact h.ticks
  · exact h.index0
  · rw [hlap]
    exact h.index
  · intro m curr hcascade
    obtain ⟨rfl, rfl⟩ := Pc.cascade.inj hcascade
    rw [hcurrent, hkept]
    refine ⟨hn, hdvd, rfl, ?_⟩
    have hpass := h.held.rings.pass hnot hq
    have hnodup := h.held.rings.nodup (s.wheel.current n)
    rw [hq] at hnodup
    apply hrest.enter hpass hwhole
    · exact (List.nodup_cons.1 hnodup).1
    · intro b hb hslot
      rw [update_of_ne hne.symm] at hslot
      apply hne
      apply h.held.rings.apart _ _ b _ hslot
      rw [hq]
      exact List.mem_cons_of_mem _ hb
  · rw [hlap]
    refine ⟨hheld.rings.mono ?_, hheld.active, hheld.fits, hheld.idle, hheld.expires, hheld.accounts⟩
    intro k hk m curr hcascade
    rw [hpc] at hcascade
    obtain ⟨rfl, rfl⟩ := Pc.cascade.inj hcascade
    exact hk n _ rfl

theorem Inv.cascadeEnd (h : Inv s q) {n : Fin 5} {k : Slot} (hpc : s.pc = .cascade n (.head k)) {pc : Pc τ}
    (hpcs : pc = .call ∧ ¬ ((s.wheel.index n + 1) % 2 ^ 6 = 1 ∧ n + 1 ≠ 0) ∨
      (s.wheel.index n + 1) % 2 ^ 6 = 1 ∧ n + 1 ≠ 0 ∧
        ∃ next, ({ s.wheel with
          links := s.wheel.links.empty k
          index := update s.wheel.index n ((s.wheel.index n + 1) % 2 ^ 6) } : Wheel τ).first (n + 1) =
            some next ∧ pc = .cascade (n + 1) next) :
    k = s.wheel.current n ∧ Inv { s with
      wheel := { s.wheel with
        links := s.wheel.links.empty k
        index := update s.wheel.index n ((s.wheel.index n + 1) % 2 ^ 6) }
      pc := pc } q := by
  obtain ⟨hn, hdvd, hstart, -⟩ := h.cascading n _ hpc
  obtain ⟨rfl, hq⟩ := start_head hstart
  refine ⟨rfl, ?_⟩
  have hself : (Pc.cascade n (.head (s.wheel.current n)) : Pc τ).taken n = false := decide_eq_false (Nat.lt_irrefl n)
  have hlapn : s.lap n = s.record.now / gran n := by
    dsimp only [State.lap]
    rw [hpc, hself, lap_of_dvd hdvd]
  have hindexn := h.index n hn
  rw [hlapn] at hindexn
  -- whether the vector above turns too is whether its slot ends with this tick
  have hturn : (s.wheel.index n + 1) % 2 ^ 6 = 1 ↔ gran n * 2 ^ 6 ∣ s.record.now := by
    rw [← Nat.dvd_div_iff_mul_dvd hdvd]
    omega
  have hlap (v : Fin 5) (hv : v ≠ 0) :
      lap s.record.now (pc.taken v) v = if v = n then s.record.now / gran n + 1 else s.lap v := by
    have hbelow : v < n → pc.taken v = true := by
      intro hlt
      rcases hpcs with ⟨rfl, -⟩ | ⟨-, hlast, next, -, rfl⟩
      · rfl
      · exact decide_eq_true (by omega)
    by_cases hvn : v = n
    · subst hvn
      have htaken : pc.taken v = true := by
        rcases hpcs with ⟨rfl, -⟩ | ⟨-, hlast, next, -, rfl⟩
        · rfl
        · exact decide_eq_true (by omega)
      rw [if_pos rfl, htaken, lap_true]
    · rw [if_neg hvn]
      dsimp only [State.lap]
      rw [hpc]
      by_cases hlt : v < n
      · have hbefore : (Pc.cascade n (.head (s.wheel.current n)) : Pc τ).taken v = true := decide_eq_true hlt
        rw [hbelow hlt, hbefore]
      · have hbefore : (Pc.cascade n (.head (s.wheel.current n)) : Pc τ).taken v = false := decide_eq_false hlt
        rw [hbefore]
        have habove : n < v := by omega
        rcases hpcs with ⟨rfl, hstop⟩ | ⟨-, hlast, next, -, rfl⟩
        · have hnot : ¬ gran v ∣ s.record.now := by
            intro hgran
            exact hstop ⟨hturn.2 (Nat.dvd_trans (gran_dvd hn habove) hgran), by omega⟩
          rw [lap_of_not_dvd hnot, lap_of_not_dvd hnot]
        · have htaken : (Pc.cascade (n + 1) next : Pc τ).taken v = false := decide_eq_false (by omega)
          rw [htaken]
  have hwhole (j : Slot) : s.Whole j ∨ j = s.wheel.current n := by
    by_cases hj : j = s.wheel.current n
    · exact .inr hj
    · left
      intro m curr hcascade
      rw [hpc] at hcascade
      obtain ⟨rfl, -⟩ := Pc.cascade.inj hcascade
      exact hj
  have hrings := (h.held.rings.empty hq).mono fun j (_ : True) => hwhole j
  constructor
  · exact h.ticks
  · dsimp only
    rw [update_of_ne hn.symm]
    exact h.index0
  · intro v hv
    rw [show ({ s with
      wheel := { s.wheel with
        links := s.wheel.links.empty (s.wheel.current n)
        index := update s.wheel.index n ((s.wheel.index n + 1) % 2 ^ 6) }
      pc := pc } : State τ).lap v = lap s.record.now (pc.taken v) v from rfl, hlap v hv]
    dsimp only
    by_cases hvn : v = n
    · subst hvn
      rw [update_self, if_pos rfl, hindexn, Nat.mod_add_mod]
    · rw [update_of_ne hvn, if_neg hvn]
      exact h.index v hv
  · intro m curr hcascade
    rcases hpcs with ⟨rfl, -⟩ | ⟨hone, hlast, next, hnext, rfl⟩
    · nomatch hcascade
    · obtain ⟨rfl, rfl⟩ := Pc.cascade.inj hcascade
      have hne : n + 1 ≠ n := by omega
      obtain ⟨hfirst, htrail⟩ := hrings.trail trivial
      have hcurrent : ({ s.wheel with
          links := s.wheel.links.empty (s.wheel.current n)
          index := update s.wheel.index n ((s.wheel.index n + 1) % 2 ^ 6) } : Wheel τ).current (n + 1) =
            ⟨n + 1, s.wheel.index (n + 1)⟩ := by
        dsimp only [Wheel.current]
        rw [update_of_ne hne]
      unfold Wheel.first at hnext
      rw [hcurrent] at hnext ⊢
      obtain rfl := Option.some.inj (hnext.symm.trans hfirst)
      refine ⟨hlast, ?_, rfl, htrail⟩
      rw [gran_succ hn hlast]
      exact hturn.1 hone
  · refine h.held.turn (hrings.mono fun _ _ => trivial) rfl rfl h.held.accounts fun j t d hj hfits => ?_
    rcases hfits with hfits | ⟨hv, hi, hlow, hhigh, hexpires⟩
    · exact .inl hfits
    · refine .inr ⟨hv, hi, ?_⟩
      rw [show ({ s with
        wheel := { s.wheel with
          links := s.wheel.links.empty (s.wheel.current n)
          index := update s.wheel.index n ((s.wheel.index n + 1) % 2 ^ 6) }
        pc := pc } : State τ).lap j.vec = lap s.record.now (pc.taken j.vec) j.vec from rfl, hlap j.vec hv]
      by_cases hjn : j.vec = n
      · have hne : d / gran n ≠ s.record.now / gran n := by
          intro heq
          have hslot : j = s.wheel.current n := by
            cases j with
            | mk vec i =>
              dsimp only at hjn hi
              rw [hi, hjn, heq, ← hindexn]
              rfl
          rw [hslot, hq] at hj
          nomatch hj
        rw [hjn] at hlow hhigh ⊢
        rw [if_pos rfl]
        exact ⟨by omega, by omega, hexpires⟩
      · rw [if_neg hjn]
        exact ⟨hlow, hhigh, hexpires⟩

theorem Inv.go (h : Inv s q) (hpc : ¬ s.pc.Open) : ∃ s', Timers.go s = some s' ∧ ∃ q', Inv s' q' := by
  unfold Timers.go
  cases hcase : s.pc with
  | idle =>
    rw [hcase] at hpc
    exact absurd trivial hpc
  | handler t =>
    rw [hcase] at hpc
    exact absurd trivial hpc
  | test =>
    dsimp only
    split_ifs with hticks hindex
    · have hwhole : s.Whole (s.wheel.current 1) := by
        intro n curr hcascade
        rw [hcase] at hcascade
        nomatch hcascade
      have hfirst : s.wheel.first 1 = some (start (s.wheel.current 1) (q (s.wheel.current 1))) :=
        (h.held.rings.trail hwhole).1
      rw [hfirst]
      exact ⟨_, rfl, q, h.testCascade hcase hindex hfirst⟩
    · exact ⟨_, rfl, q, h.testDone hcase (.inr ⟨rfl, hindex⟩)⟩
    · exact ⟨_, rfl, q, h.testDone hcase (.inl rfl)⟩
  | cascade n curr =>
    obtain ⟨-, -, hstart, htrail⟩ := h.cascading n curr hcase
    unfold cascade
    cases curr with
    | item t =>
      obtain ⟨xs, hq⟩ := start_item hstart
      rw [hq] at htrail
      dsimp only
      rw [htrail.1]
      exact ⟨_, rfl, h.cascadeItem hcase htrail.1⟩
    | head k =>
      obtain ⟨rfl, hq⟩ := start_head hstart
      dsimp only
      rw [if_pos rfl]
      split_ifs with hmore
      · have hne : n + 1 ≠ n := by omega
        have hrings := (h.held.rings.empty hq).mono fun j (hj : j = ⟨n + 1, s.wheel.index (n + 1)⟩) =>
          .inl fun m curr hcascade => by
            rw [hcase] at hcascade
            obtain ⟨rfl, -⟩ := Pc.cascade.inj hcascade
            rw [hj]
            exact fun heq => hne (congrArg Slot.vec heq)
        have hfirst := (hrings.trail rfl).1
        have hcurrent : ({ s.wheel with
            links := s.wheel.links.empty (s.wheel.current n)
            index := update s.wheel.index n ((s.wheel.index n + 1) % 2 ^ 6) } : Wheel τ).first (n + 1) =
              some (start ⟨n + 1, s.wheel.index (n + 1)⟩ (q ⟨n + 1, s.wheel.index (n + 1)⟩)) := by
          dsimp only [Wheel.first, Wheel.current]
          rw [update_of_ne hne]
          exact hfirst
        rw [hcurrent]
        exact ⟨_, rfl, q, (h.cascadeEnd hcase (.inr ⟨hmore.1, hmore.2, _, hcurrent, rfl⟩)).2⟩
      · exact ⟨_, rfl, q, (h.cascadeEnd hcase (.inl ⟨rfl, hmore⟩)).2⟩
  | call =>
    have hwhole : s.Whole (s.wheel.current 0) := by
      intro n curr hcascade
      rw [hcase] at hcascade
      nomatch hcascade
    have hfirst : s.wheel.first 0 = some (start (s.wheel.current 0) (q (s.wheel.current 0))) :=
      (h.held.rings.trail hwhole).1
    rw [hfirst]
    cases hq : q (s.wheel.current 0) with
    | nil =>
      dsimp only [start]
      rw [if_pos rfl]
      exact ⟨_, rfl, q, h.tickEnd hcase hq⟩
    | cons t xs => exact ⟨_, rfl, (h.fire hcase hq).2⟩

theorem Inv.step (h : Inv s q) {a : Act τ} (hlegal : Legal s a) (hs : Timers.step s a = some s') :
    ∃ q', Inv s' q' := by
  cases a with
  | advance k =>
    obtain rfl := Option.some.inj hs
    exact ⟨q, h.advance _⟩
  | run =>
    simp only [Timers.step] at hs
    split at hs
    · next hpc =>
      obtain rfl := Option.some.inj hs
      exact ⟨q, h.leave (hpc ▸ trivial) nofun (by rw [hpc]; rfl)⟩
    · nomatch hs
  | go =>
    simp only [Timers.step] at hs
    have hpc : ¬ s.pc.Open := by
      intro hopen
      unfold Timers.go at hs
      cases hcase : s.pc with
      | idle =>
        rw [hcase] at hs
        nomatch hs
      | handler t =>
        rw [hcase] at hs
        nomatch hs
      | test | cascade n curr | call =>
        rw [hcase] at hopen
        exact hopen
    obtain ⟨s₁, hs₁, hinv⟩ := h.go hpc
    obtain rfl := Option.some.inj (hs₁.symm.trans hs)
    exact hinv
  | ret =>
    simp only [Timers.step] at hs
    split at hs
    · next t hpc =>
      obtain rfl := Option.some.inj hs
      exact ⟨q, h.leave (hpc ▸ trivial) nofun (by rw [hpc]; rfl)⟩
    · nomatch hs
  | setExpires t e =>
    simp only [Timers.step] at hs
    split at hs
    · next hopen =>
      obtain rfl := Option.some.inj hs
      exact ⟨q, h.setExpires hopen hlegal e⟩
    · nomatch hs
  | init t =>
    simp only [Timers.step] at hs
    split at hs
    · next hopen =>
      obtain rfl := Option.some.inj hs
      exact ⟨q, h.initTimer hopen hlegal⟩
    · nomatch hs
  | add t =>
    simp only [Timers.step] at hs
    split at hs
    · next hopen =>
      obtain rfl := Option.some.inj hs
      exact h.addTimer hopen t
    · nomatch hs
  | del t =>
    simp only [Timers.step] at hs
    split at hs
    · next hopen =>
      obtain rfl := Option.some.inj hs
      exact h.delTimer hopen t
    · nomatch hs
  | mod t e =>
    simp only [Timers.step] at hs
    split at hs
    · next hopen =>
      obtain rfl := Option.some.inj hs
      exact h.modTimer hopen t e
    · nomatch hs

theorem Inv.reach (h : Reach Timers.step Legal State.init s) : ∃ q, Inv s q := by
  apply h.invariant ⟨_, inv_init⟩
  rintro s₁ a s₂ ⟨q, hinv⟩ hlegal hs
  exact hinv.step hlegal hs

/-- `cascade_timers` moves a timer to a vector below, to a slot that has not been processed in its current turn. -/
theorem Inv.cascade_ahead (h : Inv s q) {n : Fin 5} (hpc : s.pc = .cascade n (.item t)) :
    (s.wheel.slot (s.wheel.timers t).expires).vec < n ∧
      s.wheel.index (s.wheel.slot (s.wheel.timers t).expires).vec ≤ (s.wheel.slot (s.wheel.timers t).expires).i := by
  obtain ⟨hn, hdvd, hstart, -⟩ := h.cascading n _ hpc
  obtain ⟨xs, hq⟩ := start_item hstart
  have ht : t ∈ q (s.wheel.current n) := by
    rw [hq]
    exact List.mem_cons_self
  obtain ⟨d, hd, hlt, hfits⟩ := h.cascade_slot hpc
  refine ⟨hlt, ?_⟩
  by_cases hv : (s.wheel.slot (s.wheel.timers t).expires).vec = 0
  · have hzero : s.record.now % 2 ^ 8 = 0 :=
      Nat.mod_eq_zero_of_dvd (dvd_of_gran_dvd (n := 1) (by decide) (by omega) hdvd)
    rw [hv, h.index0, hzero]
    exact Nat.zero_le _
  · have hlapn : s.lap n = s.record.now / gran n := by
      dsimp only [State.lap]
      rw [hpc]
      have hself : (Pc.cascade n (.item t) : Pc τ).taken n = false := decide_eq_false (Nat.lt_irrefl n)
      rw [hself, lap_of_dvd hdvd]
    obtain ⟨e, he, hold⟩ := h.held.fits _ t ht
    obtain rfl := Option.some.inj (hd.symm.trans he)
    rw [Wheel.current, h.index n hn] at hold
    obtain ⟨hlow, hhigh, hexpires⟩ := hold.current hn hlapn hdvd
    rw [hexpires] at hv hlt hfits ⊢
    have hrange := slot_range h.ticks hlow hhigh hv
    rcases hfits with ⟨hzero, -⟩ | ⟨-, hi, hlo, -⟩
    · exact absurd hzero hv
    · rw [h.index _ hv]
      generalize (s.wheel.slot (d % 2 ^ 32)).vec = v at *
      have hdvds : gran v * 2 ^ 6 ∣ s.record.now := Nat.dvd_trans (gran_dvd hv hlt) hdvd
      have hgran : gran v ∣ s.record.now := Nat.dvd_trans (Nat.dvd_mul_right _ _) hdvds
      have hlap : s.lap v = s.record.now / gran v + 1 := by
        dsimp only [State.lap]
        rw [hpc]
        have htaken : (Pc.cascade n (.item t) : Pc τ).taken v = true := decide_eq_true hlt
        rw [htaken, lap_true]
      have hturn : s.record.now / gran v % 2 ^ 6 = 0 := by
        rw [← Nat.dvd_div_iff_mul_dvd hgran] at hdvds
        exact Nat.mod_eq_zero_of_dvd hdvds
      have hnext : d / gran v < s.record.now / gran v + 2 ^ 6 := by
        rw [Nat.div_lt_iff_lt_mul (gran_pos v), Nat.add_mul, Nat.div_mul_cancel hgran]
        omega
      omega

/-- Any calls of the timer functions, with handlers that call them too: a timer that is attached is called at the
tick that its expiry time stands for, or taken back before, or still active and due at a tick to come;
`run_timer_list` never gets stuck; and `cascade_timers` moves timers to lower vectors and slots ahead. -/
theorem timer_wheel (h : Reach Timers.step Legal State.init s) :
    s.record.Accounts ∧ (∀ t, (s.wheel.timers t).active = true ↔ ∃ d, s.record.due t = some d) ∧
      (∀ t d, s.record.due t = some d → s.record.now ≤ d) ∧ s.wheel.timerTicks = s.record.now % 2 ^ 32 ∧
      (¬ s.pc.Open → ∃ s', go s = some s') ∧
      ∀ n t, s.pc = .cascade n (.item t) → (s.wheel.slot (s.wheel.timers t).expires).vec < n ∧
        s.wheel.index (s.wheel.slot (s.wheel.timers t).expires).vec ≤
          (s.wheel.slot (s.wheel.timers t).expires).i := by
  obtain ⟨q, hinv⟩ := Inv.reach h
  refine ⟨hinv.held.accounts, fun t => ⟨fun ht => ?_, ?_⟩, fun t d hd => ?_, hinv.ticks, fun hpc => ?_,
    fun n t hpc => hinv.cascade_ahead hpc⟩
  · obtain ⟨k, hk⟩ := (hinv.held.active t).1 ht
    obtain ⟨d, hd, -⟩ := hinv.held.fits k t hk
    exact ⟨d, hd⟩
  · rintro ⟨d, hd⟩
    by_contra hidle
    rw [hinv.held.idle t (Bool.eq_false_iff.2 hidle)] at hd
    nomatch hd
  · have hactive : (s.wheel.timers t).active = true := by
      by_contra hidle
      rw [hinv.held.idle t (Bool.eq_false_iff.2 hidle)] at hd
      nomatch hd
    obtain ⟨k, hk⟩ := (hinv.held.active t).1 hactive
    obtain ⟨e, he, hfits⟩ := hinv.held.fits k t hk
    obtain rfl := Option.some.inj (hd.symm.trans he)
    exact hfits.le (laps_lap s.record.now s.pc.taken)
  · obtain ⟨s', hs', -⟩ := hinv.go hpc
    exact ⟨s', hs'⟩

instance (s : State τ) (a : Act τ) : Decidable (Legal s a) := by
  unfold Legal
  split <;> infer_instance

/-- A timer is set two ticks ahead, and called there. -/
def twoTicksRun : List (Act Unit) :=
  [.setExpires () 2, .add (), .advance 2, .run, .go, .go, .go, .go, .go, .go, .go, .go, .go, .go]

theorem timer_wheel_twoTicks : ∃ s : State Unit, s.record.fired = [((), 2)] ∧ s.record.Accounts := by
  have hrun : ∃ s, runOk Timers.step Legal (State.init : State Unit) twoTicksRun = some s ∧
      s.record.fired = [((), 2)] :=
    ⟨(runOk Timers.step Legal State.init twoTicksRun).get (by decide +kernel), (Option.some_get _).symm,
      by decide +kernel⟩
  obtain ⟨s, hs, hfired⟩ := hrun
  exact ⟨s, hfired, (timer_wheel (reach_of_runOk _ hs)).1⟩

/-- The clock is one tick ahead of `run_timer_list`, and the timer `2 ^ 31 - 1` ticks ahead of the clock. -/
def lagSetup : List (Act Unit) := [.advance 1, .setExpires () (2 ^ 31), .add ()]

def lagRun : List (Act Unit) := [.run, .go, .go, .go, .go, .go, .go]

/-- An active timer is initialised, and its handler returns. -/
def initRun : List (Act Unit) := [.add (), .init (), .run, .go, .go, .go, .go, .go, .go, .ret, .go]

/-- A timer that is less than `2 ^ 31` ticks ahead of the clock is called at once when `run_timer_list` is behind the
clock, and an active timer that is initialised is called again and again. -/
theorem timer_wheel_early :
    (¬ ∀ (s s' : State Unit) (t : Unit), Reach Timers.step Legal State.init s → (s.wheel.timers t).active = true →
      sub32 (s.wheel.timers t).expires s.ticks < 2 ^ 31 →
      Reach Timers.step (fun _ a => a = .run ∨ a = .go) s s' → s'.pc = .handler t →
      s'.wheel.timerTicks = (s.wheel.timers t).expires) ∧
    ¬ ∀ s : State Unit, Reach Timers.step (fun _ _ => True) State.init s → s.record.Accounts := by
  constructor
  · intro hclaim
    have hsetup : ∃ s, runOk Timers.step Legal (State.init : State Unit) lagSetup = some s ∧
        (s.wheel.timers ()).active = true ∧ s.ticks = 1 ∧ (s.wheel.timers ()).expires = 2 ^ 31 ∧
        ∃ s', runOk Timers.step (fun _ a => a = .run ∨ a = .go) s lagRun = some s' ∧ s'.pc = .handler () ∧
          s'.wheel.timerTicks = 0 := by
      refine ⟨(runOk Timers.step Legal State.init lagSetup).get (by decide +kernel), (Option.some_get _).symm,
        by decide +kernel, by decide +kernel, by decide +kernel, ?_⟩
      exact ⟨(runOk Timers.step (fun _ a => a = .run ∨ a = .go) _ lagRun).get (by decide +kernel),
        (Option.some_get _).symm, by decide +kernel, by decide +kernel⟩
    obtain ⟨s, hs, hactive, hticks, hexpires, s', hs', hpc, hzero⟩ := hsetup
    have hahead : sub32 (s.wheel.timers ()).expires s.ticks < 2 ^ 31 := by
      rw [hticks, hexpires]
      decide
    have htimely := hclaim s s' () (reach_of_runOk _ hs) hactive hahead (reach_of_runOk _ hs') hpc
    rw [hzero, hexpires] at htimely
    nomatch htimely
  · intro hclaim
    have hrun : ∃ s, run Timers.step (State.init : State Unit) initRun = some s ∧ s.record.made = [((), 0)] ∧
        s.record.fired = [((), 0), ((), 0)] :=
      ⟨(run Timers.step State.init initRun).get (by decide +kernel), (Option.some_get _).symm, by decide +kernel,
        by decide +kernel⟩
    obtain ⟨s, hs, hmade, hfired⟩ := hrun
    have haccounts := hclaim s (reach_of_run _ hs) () 0
    rw [hmade, hfired] at haccounts
    simp at haccounts
    omega

end SimpleKernel.Timers
