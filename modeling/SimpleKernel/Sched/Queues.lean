import SimpleKernel.Lib.ListFamily
import SimpleKernel.Sched.Scheduler
import Mathlib.Algebra.Order.Group.Int
import Mathlib.Data.Nat.Bitwise

/-! The bits of the ready summary. -/
namespace SimpleKernel.Sched

variable {x : UInt32} {p q : ℤ}

/-- Bit `p` is set. -/
def Tested (x : UInt32) (p : ℤ) : Prop := x &&& Threads.bit p ≠ 0

/-- A priority. -/
def Level (p : ℤ) : Prop := 0 ≤ p ∧ p < priorityLevels

theorem Level.toNat (hp : Level p) : p.toNat < 32 ∧ (p.toNat : ℤ) = p := by
  obtain ⟨h0, h1⟩ := hp
  rw [priorityLevels] at h1
  omega

theorem level_natCast {n : ℕ} (hn : n < 32) : Level n := by
  refine ⟨by omega, ?_⟩
  rw [priorityLevels]
  omega

theorem toNat_bit (hp : Level p) : (Threads.bit p).toNat = 2 ^ p.toNat := by
  have hlt := hp.toNat.1
  have hpow : 2 ^ p.toNat < 2 ^ 32 := Nat.pow_lt_pow_right (by decide) hlt
  have hof : (UInt32.ofNat p.toNat).toNat = p.toNat := UInt32.toNat_ofNat_of_lt' (Nat.lt_trans hlt (by decide))
  rw [Threads.bit, UInt32.toNat_shiftLeft, hof, Nat.mod_eq_of_lt hlt, Nat.shiftLeft_eq,
    UInt32.toNat_one, Nat.one_mul, Nat.mod_eq_of_lt hpow]

theorem tested_iff (hp : Level p) : Tested x p ↔ x.toNat.testBit p.toNat = true := by
  have hand : (x &&& Threads.bit p).toNat = (x.toNat.testBit p.toNat).toNat * 2 ^ p.toNat := by
    rw [UInt32.toNat_and, toNat_bit hp, Nat.and_two_pow]
  have hzero : x &&& Threads.bit p = 0 ↔ (x &&& Threads.bit p).toNat = 0 :=
    ⟨fun h => by rw [h]; rfl, fun h => UInt32.toNat.inj h⟩
  rw [Tested, ne_eq, hzero, hand]
  cases x.toNat.testBit p.toNat <;> simp

theorem testBit_bit (hp : Level p) (hq : Level q) :
    (Threads.bit p).toNat.testBit q.toNat = decide (p = q) := by
  rw [toNat_bit hp, Nat.testBit_two_pow, decide_eq_decide]
  have h1 := hp.toNat.2
  have h2 := hq.toNat.2
  omega

theorem tested_or (hp : Level p) (hq : Level q) :
    Tested (x ||| Threads.bit p) q ↔ Tested x q ∨ p = q := by
  rw [tested_iff hq, tested_iff hq, UInt32.toNat_or, Nat.testBit_or, testBit_bit hp hq]
  simp

theorem tested_and_not (hp : Level p) (hq : Level q) :
    Tested (x &&& ~~~ Threads.bit p) q ↔ Tested x q ∧ p ≠ q := by
  have hlt := hq.toNat.1
  have hnot : (~~~ Threads.bit p).toNat.testBit q.toNat = !decide (p = q) := by
    rw [← testBit_bit hp hq]
    change (~~~ (Threads.bit p).toBitVec).getLsbD q.toNat = !(Threads.bit p).toBitVec.getLsbD q.toNat
    simp [hlt]
  rw [tested_iff hq, tested_iff hq, UInt32.toNat_and, Nat.testBit_and, hnot]
  simp

theorem findHighestBit_eq {n m : ℕ} (hn : n < 32) (hm : m ≤ n) (y : UInt32)
    (hy : ∀ i, i ≤ n → y.toNat.testBit (i + (31 - n)) = x.toNat.testBit i)
    (hset : x.toNat.testBit m = true) (hhigh : ∀ i, m < i → i ≤ n → x.toNat.testBit i = false) :
    findHighestBit n y = m := by
  induction n generalizing y with
  | zero =>
    obtain rfl : m = 0 := by omega
    rfl
  | succ n ih =>
    have htop : y &&& 0x80000000 = 0 ↔ y.toNat.testBit 31 = false := by
      have hbit : (0x80000000 : UInt32) = Threads.bit (31 : ℕ) := by decide
      have htest := tested_iff (x := y) (level_natCast (by decide : 31 < 32))
      rw [hbit, ← not_iff_not, ← ne_eq, ← Tested, htest, Int.toNat_natCast, Bool.not_eq_false]
    have hself := hy (n + 1) (Nat.le_refl _)
    rw [show n + 1 + (31 - (n + 1)) = 31 by omega] at hself
    rw [findHighestBit]
    by_cases hmn : m = n + 1
    · rw [if_neg]
      · exact hmn.symm
      · rw [htop, hself, ← hmn, hset]
        decide
    · rw [if_pos]
      · refine ih (by omega) (by omega) _ (fun i hi => ?_) fun i hmi hi => hhigh i hmi (by omega)
        have hbit := hy i (by omega)
        rw [← hbit, UInt32.toNat_shiftLeft, Nat.testBit_mod_two_pow, Nat.testBit_shiftLeft]
        have h1 : (1 : UInt32).toNat % 32 = 1 := rfl
        rw [h1]
        have hlt : i + (31 - n) < 32 := by omega
        have hge : 1 ≤ i + (31 - n) := by omega
        rw [show i + (31 - n) - 1 = i + (31 - (n + 1)) by omega]
        simp [hlt, hge]
      · rw [htop, hself]
        exact hhigh (n + 1) (by omega) (Nat.le_refl _)

theorem findHighestBit_spec (hp : Level p) (hset : Tested x p)
    (hhigh : ∀ q, Level q → p < q → ¬ Tested x q) : (findHighestBit 31 x : ℤ) = p := by
  obtain ⟨hlt, hcast⟩ := hp.toNat
  rw [← hcast, Int.natCast_inj]
  refine findHighestBit_eq (by decide) (by omega) x (fun i hi => rfl) ((tested_iff hp).mp hset) ?_
  intro i hmi hi
  have hlevel := level_natCast (show i < 32 by omega)
  have := hhigh i hlevel (by omega)
  rw [tested_iff hlevel, Bool.not_eq_true] at this
  exact this

end SimpleKernel.Sched

/-! The ready queues as lists, and what each operation of the scheduler does to them. -/
namespace SimpleKernel.Sched
open LinkedList
open Function (update update_of_ne update_self)

variable {τ : Type} {s s' : Threads τ} {q q' : ℤ → List τ} {early : Prop} {t u cur : τ} {p : ℤ}

/-- The links and the summary represent the queues `q`. With `early` the bit of the idle thread may
be set although its queue is empty. -/
structure Linked (s : Threads τ) (q : ℤ → List τ) (early : Prop) : Prop where
  family : IsFamily s.links s.queue q
  set : ∀ p, Level p → q p ≠ [] → Tested s.readySummary p
  nonempty : ∀ p, Level p → Tested s.readySummary p → q p ≠ [] ∨ early ∧ p = prioritySysidle

/-- The queues with `t` put into the one of priority `p`. -/
def Enqueued (q q' : ℤ → List τ) (t : τ) (p : ℤ) : Prop :=
  ∀ u r, u ∈ q' r ↔ u ∈ q r ∨ u = t ∧ r = p

theorem Linked.head_eq_none (h : Linked s q early) : (s.queue p).head = none ↔ q p = [] := by
  rw [(h.family.lists p).head, List.head?_eq_none_iff]

theorem Linked.tail_eq_none (h : Linked s q early) : (s.queue p).tail = none ↔ q p = [] := by
  rw [(h.family.lists p).tail, List.getLast?_eq_none_iff]

theorem Linked.bits {x : UInt32} (h : Linked s q early) (q' : ℤ → List τ)
    (hq : ∀ r, r ≠ p → q' r = q r) (hne : q' p ≠ [])
    (hx : ∀ r, Level r → (Tested x r ↔ Tested s.readySummary r ∨ p = r)) :
    (∀ r, Level r → q' r ≠ [] → Tested x r) ∧
      ∀ r, Level r → Tested x r → q' r ≠ [] ∨ early ∧ r = prioritySysidle := by
  constructor
  · intro r hr hne'
    rw [hx r hr]
    by_cases hrp : r = p
    · exact .inr hrp.symm
    · rw [hq r hrp] at hne'
      exact .inl (h.set r hr hne')
  · intro r hr htest
    by_cases hrp : r = p
    · exact .inl (hrp ▸ hne)
    · rw [hq r hrp]
      rcases (hx r hr).mp htest with htest | heq
      · exact h.nonempty r hr htest
      · exact absurd heq.symm hrp

theorem Linked.bits_drop {x : UInt32} (h : Linked s q early) (q' : ℤ → List τ)
    (hq : ∀ r, r ≠ p → q' r = q r) (hsub : q' p ≠ [] → q p ≠ [])
    (hx : ∀ r, Level r → (Tested x r ↔ Tested s.readySummary r ∧ (q' p = [] → p ≠ r))) :
    (∀ r, Level r → q' r ≠ [] → Tested x r) ∧
      ∀ r, Level r → Tested x r → q' r ≠ [] ∨ early ∧ r = prioritySysidle := by
  constructor
  · intro r hr hne
    rw [hx r hr]
    by_cases hrp : r = p
    · subst hrp
      exact ⟨h.set r hr (hsub hne), fun hnil => absurd hnil hne⟩
    · rw [hq r hrp] at hne
      exact ⟨h.set r hr hne, fun _ heq => hrp heq.symm⟩
  · intro r hr htest
    obtain ⟨htest, hlast⟩ := (hx r hr).mp htest
    by_cases hrp : r = p
    · subst hrp
      exact .inl fun hnil => hlast hnil rfl
    · rw [hq r hrp]
      exact h.nonempty r hr htest

theorem enqueued_update {l : List τ} (hl : ∀ u, u ∈ l ↔ u ∈ q p ∨ u = t) :
    Enqueued q (update q p l) t p := by
  intro u r
  by_cases hr : r = p
  · subst hr
    rw [update_self, hl]
    simp
  · simp [hr]

theorem Linked.congr (h : Linked s q early) (hl : s'.links = s.links) (hq : s'.queue = s.queue)
    (hr : s'.readySummary = s.readySummary) : Linked s' q early :=
  ⟨by rw [hl, hq]; exact h.family, by rw [hr]; exact h.set, by rw [hr]; exact h.nonempty⟩

variable [DecidableEq τ]

theorem Linked.insertFirst (h : Linked s q early) (ht : ∀ p, t ∉ q p) (hp : Level (s.priority t))
    (hnil : q (s.priority t) = []) :
    Linked (s.insertFirst t) (update q (s.priority t) [t]) early := by
  have hfam := h.family.append (k := s.priority t) ht
  have htail : (s.queue (s.priority t)).tail = none := h.tail_eq_none.mpr hnil
  have hhead : (s.queue (s.priority t)).head = none := h.head_eq_none.mpr hnil
  have hlinks : s.links.append (s.queue (s.priority t)) t = s.links.clear t := by
    rw [Links.append, htail]
    rfl
  rw [hnil, hlinks, Ends.append, hhead] at hfam
  obtain ⟨hset, hnon⟩ := h.bits (update q (s.priority t) [t])
    (fun r hr => update_of_ne hr _ _) (by simp) fun r hr => tested_or hp hr
  exact ⟨hfam, hset, hnon⟩

theorem Linked.insertReadyHead (h : Linked s q early) (ht : ∀ p, t ∉ q p)
    (hp : Level (s.priority t)) :
    ∃ q', Linked (s.insertReadyHead t) q' early ∧ Enqueued q q' t (s.priority t) := by
  by_cases hnil : q (s.priority t) = []
  · refine ⟨_, ?_, enqueued_update (l := [t]) (by simp [hnil])⟩
    rw [Threads.insertReadyHead, if_pos (h.head_eq_none.mpr hnil)]
    exact h.insertFirst ht hp hnil
  · refine ⟨_, ?_, enqueued_update (l := t :: q (s.priority t)) (by simp [or_comm])⟩
    rw [Threads.insertReadyHead, if_neg (fun hx => hnil (h.head_eq_none.mp hx))]
    obtain ⟨hset, hnon⟩ := h.bits (update q (s.priority t) (t :: q (s.priority t)))
      (fun r hr => update_of_ne hr _ _) (by simp) fun r hr =>
        ⟨.inl, fun hx => hx.elim id fun heq => heq ▸ h.set _ hp hnil⟩
    exact ⟨h.family.prepend ht hnil, hset, hnon⟩

theorem Linked.insertReadyTail (h : Linked s q early) (ht : ∀ p, t ∉ q p)
    (hp : Level (s.priority t)) :
    ∃ q', Linked (s.insertReadyTail t) q' early ∧ Enqueued q q' t (s.priority t) := by
  by_cases hnil : q (s.priority t) = []
  · refine ⟨_, ?_, enqueued_update (l := [t]) (by simp [hnil])⟩
    rw [Threads.insertReadyTail, if_pos (h.tail_eq_none.mpr hnil)]
    exact h.insertFirst ht hp hnil
  · refine ⟨_, ?_, enqueued_update (l := q (s.priority t) ++ [t]) (by simp)⟩
    rw [Threads.insertReadyTail, if_neg (fun hx => hnil (h.tail_eq_none.mp hx))]
    obtain ⟨hset, hnon⟩ := h.bits (update q (s.priority t) (q (s.priority t) ++ [t]))
      (fun r hr => update_of_ne hr _ _) (by simp) fun r hr =>
        ⟨.inl, fun hx => hx.elim id fun heq => heq ▸ h.set _ hp hnil⟩
    have hfam := h.family.append (k := s.priority t) ht
    have hends : (s.queue (s.priority t)).append t =
        { s.queue (s.priority t) with tail := some t } := by
      rw [Ends.append, if_neg (fun hx => hnil (h.head_eq_none.mp hx))]
    rw [hends] at hfam
    exact ⟨hfam, hset, hnon⟩

theorem Linked.removeFromReadyQueue (h : Linked s q early) (ht : t ∈ q (s.priority t))
    (hp : Level (s.priority t)) :
    Linked (s.removeFromReadyQueue t)
      (update q (s.priority t) ((q (s.priority t)).filter (· ≠ t))) early := by
  have hfam := h.family.bypass ht
  have htail : ((s.queue (s.priority t)).drop s.links t).tail = none ↔
      (q (s.priority t)).filter (· ≠ t) = [] := by
    have := (hfam.lists (s.priority t)).tail
    rw [update_self, update_self] at this
    rw [this, List.getLast?_eq_none_iff]
  have hbits : ∀ r, Level r → (Tested (s.removeFromReadyQueue t).readySummary r ↔
      Tested s.readySummary r ∧
        ((q (s.priority t)).filter (· ≠ t) = [] → s.priority t ≠ r)) := by
    intro r hr
    rw [Threads.removeFromReadyQueue]
    by_cases hnil : (q (s.priority t)).filter (· ≠ t) = []
    · rw [if_pos (htail.mpr hnil), tested_and_not hp hr]
      exact and_congr_right fun _ => ⟨fun hne _ => hne, fun hne => hne hnil⟩
    · rw [if_neg fun hx => hnil (htail.mp hx)]
      exact ⟨fun htest => ⟨htest, fun hx => absurd hx hnil⟩, fun htest => htest.1⟩
  obtain ⟨hset, hnon⟩ := h.bits_drop
    (update q (s.priority t) ((q (s.priority t)).filter (· ≠ t)))
    (fun r hr => update_of_ne hr _ _) (fun _ hnil => by simp [hnil] at ht)
    (by rwa [update_self])
  exact ⟨hfam, hset, hnon⟩

theorem Linked.findReadyThread {l : List τ} (h : Linked s q early) (hp : Level p)
    (hq : q p = t :: l) (hhigh : ∀ r, p < r → q r = []) :
    ∃ s', s.findReadyThread = some (s', t) ∧ Linked s' (update q p l) early ∧
      s'.state = s.state ∧ s'.priority = s.priority ∧ s'.basePriority = s.basePriority ∧
      s'.suspendCount = s.suspendCount := by
  have htest : Tested s.readySummary p := h.set p hp (by simp [hq])
  have hbit : (findHighestBit 31 s.readySummary : ℤ) = p := by
    refine findHighestBit_spec hp htest fun r hr hlt hset => ?_
    rcases h.nonempty r hr hset with hne | ⟨-, hzero⟩
    · exact hne (hhigh r hlt)
    · rw [prioritySysidle] at hzero
      have := hp.1
      omega
  have hsum : s.readySummary ≠ 0 := by
    intro h0
    rw [h0, Tested, UInt32.zero_and] at htest
    exact htest rfl
  have hlist := h.family.lists p
  rw [hq] at hlist
  have hhead : (s.queue p).head = some t := hlist.head
  have hbucket : IsBucket s.links (s.queue p).head ([] ++ t :: l) := hlist.isBucket
  obtain ⟨hprev, hnext, -⟩ := hbucket.middle
  obtain ⟨htl, -⟩ := List.nodup_cons.mp hlist.nodup
  have hfam := h.family.remove (k := p) (a := t) (by simp [hq])
  have hfilter : (q p).filter (· ≠ t) = l := by
    have hnodup : ([] ++ t :: l).Nodup := hlist.nodup
    have hmiddle := filter_middle hnodup
    rwa [← hq] at hmiddle
  rw [hfilter] at hfam
  -- the first thread has no predecessor
  have hlinks : s.links.bypass t = s.links.setPrev (s.links.next t) none := by
    rw [Links.bypass, hprev]
    rfl
  rw [hlinks, Ends.drop, hhead, if_pos rfl, hprev] at hfam
  by_cases hnil : l = []
  · subst hnil
    have hnone : s.links.next t = none := hnext
    have htail : (s.queue p).tail = some t := hlist.tail
    rw [hnone, htail, if_pos rfl] at hfam
    have hfind : s.findReadyThread = some ({ s with
        links := s.links.clear t
        queue := update s.queue p ⟨none, none⟩
        readySummary := s.readySummary &&& ~~~ Threads.bit p }, t) := by
      simp [Threads.findReadyThread, hsum, hbit, hhead, hnone]
    refine ⟨_, hfind, ?_, rfl, rfl, rfl, rfl⟩
    obtain ⟨hset, hnon⟩ := h.bits_drop (update q p [])
      (x := s.readySummary &&& ~~~ Threads.bit p) (fun r hr => update_of_ne hr _ _)
      (by simp) fun r hr => by
        rw [tested_and_not hp hr]
        simp
    exact ⟨hfam, hset, hnon⟩
  · obtain ⟨b, l', rfl⟩ := List.exists_cons_of_ne_nil hnil
    have hsome : s.links.next t = some b := hnext
    have htail : (s.queue p).tail ≠ some t := by
      rw [hlist.tail]
      exact fun hx => htl (List.mem_of_getLast? hx)
    rw [if_neg htail] at hfam
    have hfind : s.findReadyThread = some ({ s with
        links := (s.links.setPrev (s.links.next t) none).clear t
        queue := update s.queue p
          { s.queue p with head := s.links.next t } }, t) := by
      simp [Threads.findReadyThread, hsum, hbit, hhead, hsome]
    refine ⟨_, hfind, ?_, rfl, rfl, rfl, rfl⟩
    obtain ⟨hset, hnon⟩ := h.bits_drop (update q p (b :: l'))
      (x := s.readySummary) (fun r hr => update_of_ne hr _ _) (by simp [hq])
      fun r hr => by simp
    exact ⟨hfam, hset, hnon⟩

/-! The whole invariant. -/

/-- The ready threads are those on the queues, each on that of its priority; priorities are in range; a ready or
running thread is not suspended, and one in the state of a suspended thread is. -/
structure Queued (s : Threads τ) (q : ℤ → List τ) (early : Prop) : Prop extends
    Linked s q early where
  member : ∀ t p, t ∈ q p ↔ s.state t = .ready ∧ p = s.priority t
  prio : ∀ t, Level (s.priority t)
  base : ∀ t, Level (s.basePriority t)
  counts : ∀ t, 0 ≤ s.suspendCount t
  active : ∀ t, s.state t = .ready ∨ s.state t = .running → s.suspendCount t = 0
  suspended : ∀ t, s.state t = .suspended → 0 < s.suspendCount t

theorem Queued.enqueue (h : Queued s q early) (ht : s.state t ≠ .ready)
    (hcount : s.suspendCount t = 0) (hstate : s'.state = update s.state t .ready)
    (hprio : s'.priority = update s.priority t p) (hp : Level p)
    (hbase : s'.basePriority = s.basePriority) (hsus : s'.suspendCount = s.suspendCount)
    (hlinked : (∀ r, t ∉ q r) → ∃ q', Linked s' q' early ∧ Enqueued q q' t p) :
    ∃ q', Queued s' q' early := by
  obtain ⟨q', hl, hq'⟩ := hlinked fun r hr => ht ((h.member t r).mp hr).1
  refine ⟨q', hl, fun u r => ?_, fun u => ?_, ?_, ?_, fun u hu => ?_, fun u hu => ?_⟩
  · rw [hq' u r, h.member u r, hstate, hprio]
    by_cases hut : u = t
    · simp [hut, ht]
    · simp [hut]
  · rw [hprio]
    by_cases hut : u = t
    · rwa [hut, update_self]
    · rw [update_of_ne hut]
      exact h.prio u
  · rw [hbase]
    exact h.base
  · rw [hsus]
    exact h.counts
  · rw [hsus]
    by_cases hut : u = t
    · rwa [hut]
    · rw [hstate, update_of_ne hut] at hu
      exact h.active u hu
  · rw [hsus]
    by_cases hut : u = t
    · rw [hstate, hut] at hu
      simp at hu
    · rw [hstate, update_of_ne hut] at hu
      exact h.suspended u hu

/-- What is asked of a thread outside the queues. -/
structure Outside (s : Threads τ) (t : τ) : Prop where
  notReady : s.state t ≠ .ready
  prio : Level (s.priority t)
  base : Level (s.basePriority t)
  count : 0 ≤ s.suspendCount t
  running : s.state t = .running → s.suspendCount t = 0
  suspended : s.state t = .suspended → 0 < s.suspendCount t

/-- The two states agree on all threads but `t`. -/
structure SameOthers (s s' : Threads τ) (t : τ) : Prop where
  state : ∀ u, u ≠ t → s'.state u = s.state u
  priority : ∀ u, u ≠ t → s'.priority u = s.priority u
  basePriority : ∀ u, u ≠ t → s'.basePriority u = s.basePriority u
  suspendCount : ∀ u, u ≠ t → s'.suspendCount u = s.suspendCount u

theorem Queued.alter (h : Queued s q early) (hl : Linked s' q' early) (hs : SameOthers s s' t)
    (ht : Outside s' t) (hq : ∀ u p, u ∈ q' p ↔ u ∈ q p ∧ u ≠ t) : Queued s' q' early := by
  refine ⟨hl, fun u r => ?_, fun u => ?_, fun u => ?_, fun u => ?_, fun u hu => ?_, fun u hu => ?_⟩
  all_goals by_cases hut : u = t
  · subst hut
    rw [hq]
    simp [ht.notReady]
  · rw [hq, h.member u r, hs.state u hut, hs.priority u hut]
    simp [hut]
  · rw [hut]
    exact ht.prio
  · rw [hs.priority u hut]
    exact h.prio u
  · rw [hut]
    exact ht.base
  · rw [hs.basePriority u hut]
    exact h.base u
  · rw [hut]
    exact ht.count
  · rw [hs.suspendCount u hut]
    exact h.counts u
  · subst hut
    exact ht.running (hu.resolve_left ht.notReady)
  · rw [hs.state u hut] at hu
    rw [hs.suspendCount u hut]
    exact h.active u hu
  · subst hut
    exact ht.suspended hu
  · rw [hs.state u hut] at hu
    rw [hs.suspendCount u hut]
    exact h.suspended u hu

theorem Queued.alterIdle (h : Queued s q early) (hready : s.state t ≠ .ready)
    (hl : Linked s' q early) (hs : SameOthers s s' t) (ht : Outside s' t) : Queued s' q early := by
  refine h.alter hl hs ht fun u p => ⟨fun hu => ⟨hu, ?_⟩, fun hu => hu.1⟩
  rintro rfl
  exact hready ((h.member u p).mp hu).1

theorem Queued.alterReady (h : Queued s q early) (hready : s.state t = .ready)
    (hl : Linked s' (update q (s.priority t) ((q (s.priority t)).filter (· ≠ t))) early)
    (hs : SameOthers s s' t) (ht : Outside s' t) :
    Queued s' (update q (s.priority t) ((q (s.priority t)).filter (· ≠ t))) early := by
  refine h.alter hl hs ht fun u p => ?_
  by_cases hp : p = s.priority t
  · subst hp
    simp
  · rw [update_of_ne hp]
    refine ⟨fun hu => ⟨hu, ?_⟩, fun hu => hu.1⟩
    rintro rfl
    exact hp ((h.member u p).mp hu).2

end SimpleKernel.Sched
