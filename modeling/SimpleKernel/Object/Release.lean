import SimpleKernel.Object.WaitQueues
import SimpleKernel.Sched.Runs
import Mathlib.Data.Finset.Prod

/-! The walks along wait lists: a rule for the loop, and the threads that a release wakes. -/
namespace SimpleKernel.Object
open LinkedList Sched

section Wake
variable {τ : Type} [DecidableEq τ] {s : Threads τ} {cur t u : τ} {charge boost : ℤ}

/-- What waking a thread leaves alone. -/
structure SameFlags (s s' : Threads τ) : Prop where
  suspendCount : s'.suspendCount = s.suspendCount
  alertable : s'.alertable = s.alertable
  interrupted : s'.interrupted = s.interrupted
  panicked : s'.panicked = s.panicked

theorem sameFlags_insertReadyHead : SameFlags s (s.insertReadyHead t) := by
  rw [Threads.insertReadyHead]
  split <;> exact ⟨rfl, rfl, rfl, rfl⟩

theorem sameFlags_insertReadyTail : SameFlags s (s.insertReadyTail t) := by
  rw [Threads.insertReadyTail]
  split <;> exact ⟨rfl, rfl, rfl, rfl⟩

theorem sameFlags_insertReady : SameFlags s (s.insertReady t) := by
  rw [Threads.insertReady]
  split
  · exact sameFlags_insertReadyHead
  · obtain ⟨h₁, h₂, h₃, h₄⟩ := sameFlags_insertReadyTail (t := t)
    exact ⟨h₁, h₂, h₃, h₄⟩

theorem sameFlags_markThreadReady (ht : s.state t = .ready → s.interrupted t = true) :
    SameFlags s (s.markThreadReady cur t charge boost) := by
  rw [Threads.markThreadReady]
  split
  · exact ⟨rfl, rfl, rfl, rfl⟩
  split
  · exact ⟨rfl, rfl, rfl, rfl⟩
  · next hint =>
    have hne : s.state t ≠ .ready := fun hready => hint ⟨ht hready, hready⟩
    obtain ⟨h₁, h₂, h₃, h₄⟩ := sameFlags_insertReady (t := t)
    refine ⟨h₁, h₂, h₃, h₄.trans ?_⟩
    simp [hne]

theorem sameFlags_preemptThread : SameFlags s (s.preemptThread cur) := by
  obtain ⟨h₁, h₂, h₃, h₄⟩ := sameFlags_insertReadyTail (t := cur)
  refine ⟨h₁.trans ?_, h₂.trans ?_, h₃.trans ?_, h₄.trans ?_⟩ <;> split <;> rfl

end Wake

variable {τ ι : Type} [DecidableEq τ] [DecidableEq ι] {s s' : Sys τ ι} {q : Queues τ ι} {t u : τ}
  {o : ObjId τ ι} {grant : Sys τ ι → τ → Sys τ ι × Bool}

/-- The thread's wait key after `thread_ready_to_run`. -/
abbrev Sys.scanned (s : Sys τ ι) (t : τ) : Sys τ ι := s.setWaitkey t (s.scanWaitkey t)

/-- The states and blocks at which the walk of `releaseLoop` tests a thread. -/
def Sys.visits (grant : Sys τ ι → τ → Sys τ ι × Bool) :
    ℕ → Option (Wb τ) → Sys τ ι → List (Sys τ ι × Wb τ)
  | 0, _, _ => []
  | _ + 1, none, _ => []
  | n + 1, some wb, s =>
    (s, wb) ::
      if s.threadReadyToRun wb.1 then
        let r := grant (s.scanned wb.1) wb.1
        if r.2 then visits grant n (s.links.next wb) r.1 else []
      else visits grant n (s.links.next wb) (s.scanned wb.1)

section walk

variable {P : Sys τ ι → List (Wb τ) → Prop}
  (hnext : ∀ s wb l, P s (wb :: l) → s.links.next wb = l.head?)
  (hskip : ∀ s wb l, P s (wb :: l) → s.threadReadyToRun wb.1 = false → P (s.scanned wb.1) l)
  (hgo : ∀ s wb l, P s (wb :: l) → s.threadReadyToRun wb.1 = true →
    (grant (s.scanned wb.1) wb.1).2 = true → P (grant (s.scanned wb.1) wb.1).1 l)

include hnext hskip hgo

omit [DecidableEq ι] in
theorem releaseLoop_rule {Q : Sys τ ι → Prop}
    (hstop : ∀ s wb l, P s (wb :: l) → s.threadReadyToRun wb.1 = true →
      (grant (s.scanned wb.1) wb.1).2 = false → Q (grant (s.scanned wb.1) wb.1).1)
    (hdone : ∀ s, P s [] → Q s) {n : ℕ} {l : List (Wb τ)} (hn : l.length ≤ n) (h : P s l) :
    Q (Sys.releaseLoop grant n l.head? s) := by
  induction n generalizing s l with
  | zero =>
    obtain rfl := List.length_eq_zero_iff.mp (by omega : l.length = 0)
    exact hdone s h
  | succ n ih =>
    cases l with
    | nil => exact hdone s h
    | cons wb l =>
      have hl : l.length ≤ n := by
        rw [List.length_cons] at hn
        omega
      rw [List.head?_cons, Sys.releaseLoop, hnext s wb l h]
      dsimp only
      split
      · next hready =>
        split
        · next hr => exact ih hl (hgo s wb l h hready hr)
        · next hr => exact hstop s wb l h hready (Bool.eq_false_iff.mpr hr)
      · next hready => exact ih hl (hskip s wb l h (Bool.eq_false_iff.mpr hready))

omit [DecidableEq ι] in
theorem visits_rule {n : ℕ} {l : List (Wb τ)} (h : P s l) :
    (∀ x ∈ Sys.visits grant n l.head? s, ∃ l', P x.1 (x.2 :: l')) ∧
      ((Sys.visits grant n l.head? s).map Prod.snd) <+: l := by
  induction n generalizing s l with
  | zero => simp [Sys.visits]
  | succ n ih =>
    cases l with
    | nil => simp [Sys.visits]
    | cons wb l =>
      have hcons : ∀ {v : List (Sys τ ι × Wb τ)},
          (∀ x ∈ v, ∃ l', P x.1 (x.2 :: l')) ∧ v.map Prod.snd <+: l →
          (∀ x ∈ (s, wb) :: v, ∃ l', P x.1 (x.2 :: l')) ∧
            ((s, wb) :: v).map Prod.snd <+: wb :: l := by
        rintro v ⟨hv, hpre⟩
        refine ⟨List.forall_mem_cons.mpr ⟨⟨l, h⟩, hv⟩, ?_⟩
        rw [List.map_cons, List.cons_prefix_cons]
        exact ⟨rfl, hpre⟩
      rw [List.head?_cons, Sys.visits, hnext s wb l h]
      apply hcons
      split
      · next hready =>
        dsimp only
        split
        · next hr => exact ih (hgo s wb l h hready hr)
        · simp
      · next hready => exact ih (hskip s wb l h (Bool.eq_false_iff.mpr hready))

omit [DecidableEq ι] in
theorem visits_fuel {n m : ℕ} {l : List (Wb τ)} (hn : l.length ≤ n) (hm : l.length ≤ m) (h : P s l) :
    Sys.visits grant n l.head? s = Sys.visits grant m l.head? s := by
  induction l generalizing s n m with
  | nil => cases n <;> cases m <;> rfl
  | cons wb l ih =>
    rw [List.length_cons] at hn hm
    obtain ⟨n, rfl⟩ := Nat.exists_eq_add_one.mpr (by omega : 0 < n)
    obtain ⟨m, rfl⟩ := Nat.exists_eq_add_one.mpr (by omega : 0 < m)
    rw [List.head?_cons, Sys.visits, Sys.visits, hnext s wb l h]
    congr 1
    split
    · next hready =>
      dsimp only
      split
      · next hr => exact ih (by omega) (by omega) (hgo s wb l h hready hr)
      · rfl
    · next hready =>
      exact ih (by omega) (by omega) (hskip s wb l h (Bool.eq_false_iff.mpr hready))

end walk

/-- Thread `t` is blocked in the wait call `w`, which names no object twice. With `late` it may also
have been interrupted and not have run since. -/
structure Blocked (s : Sys τ ι) (late : Prop) (t : τ) (w : Wait ι) : Prop where
  pc : s.pc t = some w
  chain : s.waitlist t = chain w.waittype w.objs w.timed t
  nodup : w.objs.Nodup
  state : s.threads.state t = .waiting ∨ late ∧ s.threads.state t = .ready ∧
    s.threads.interrupted t = true ∧ w.alertable = true

/-- The threads with wait blocks are blocked. -/
structure Sound (s : Sys τ ι) (q : Queues τ ι) (late : Prop) : Prop extends Linked s q where
  blocked : ∀ t, s.waitlist t ≠ [] → ∃ w, Blocked s late t w
  pending : ∀ t w, s.pc t = some w → s.threads.state t = .waiting ∨ s.threads.state t = .ready
  alert : ∀ t, s.threads.alertable t = true → ∃ w, s.pc t = some w ∧ w.alertable = true
  counts : ∀ t, s.threads.suspendCount t = 0
  calm : s.threads.panicked = false

variable {late : Prop}

/-- What the operations on objects leave alone. -/
structure SameWaits (s s' : Sys τ ι) : Prop where
  links : s'.links = s.links
  waiters : s'.waiters = s.waiters
  waitlist : s'.waitlist = s.waitlist
  threads : s'.threads = s.threads
  cur : s'.cur = s.cur
  pc : s'.pc = s.pc

omit [DecidableEq τ] [DecidableEq ι] in
theorem SameWaits.refl (s : Sys τ ι) : SameWaits s s := ⟨rfl, rfl, rfl, rfl, rfl, rfl⟩

omit [DecidableEq τ] [DecidableEq ι] in
theorem SameWaits.trans {s'' : Sys τ ι} (h : SameWaits s s') (h' : SameWaits s' s'') :
    SameWaits s s'' :=
  ⟨h'.links.trans h.links, h'.waiters.trans h.waiters, h'.waitlist.trans h.waitlist,
    h'.threads.trans h.threads, h'.cur.trans h.cur, h'.pc.trans h.pc⟩

theorem Sound.congr (h : Sound s q late) (hs : SameWaits s s') : Sound s' q late := by
  refine ⟨h.toLinked.congr hs.links hs.waiters hs.waitlist, fun t ht => ?_, ?_, ?_, ?_, ?_⟩
  · rw [hs.waitlist] at ht
    obtain ⟨w, hpc, hchain, hnodup, hstate⟩ := h.blocked t ht
    refine ⟨w, hs.pc ▸ hpc, hs.waitlist ▸ hchain, hnodup, ?_⟩
    rw [hs.threads]
    exact hstate
  · rw [hs.pc, hs.threads]
    exact h.pending
  · rw [hs.pc, hs.threads]
    exact h.alert
  · rw [hs.threads]
    exact h.counts
  · rw [hs.threads]
    exact h.calm

omit [DecidableEq τ] [DecidableEq ι] in
theorem nodup_chain {ty : WaitType} {objs : List ι} {timed : Bool} (h : objs.Nodup) :
    ((chain ty objs timed t).map Waitblock.object).Nodup := by
  have hobjs : ((blocks ty objs).map Waitblock.object : List (ObjId τ ι)) = objs.map .obj := by
    rw [blocks, List.map_map, ← List.zipIdx_map_fst 0 objs, List.map_map]
    simp only [List.zipIdx_map_fst]
    rfl
  rw [chain, List.map_append, hobjs]
  refine List.Nodup.append (h.map fun _ _ e => ObjId.obj.inj e) ?_ ?_
  · cases timed <;> simp
  · cases timed <;> simp [timerBlock]

theorem Sound.distinct (h : Sound s q late) (t : τ) :
    ((s.waitlist t).map Waitblock.object).Nodup := by
  by_cases ht : s.waitlist t = []
  · simp [ht]
  · obtain ⟨w, hw⟩ := h.blocked t ht
    rw [hw.chain]
    exact nodup_chain hw.nodup

theorem Sound.eq_of_mem (h : Sound s q late) {n m : ℕ} (hn : (t, n) ∈ q o) (hm : (t, m) ∈ q o) :
    n = m := by
  obtain ⟨k, x, hk, hx, hox⟩ := (h.mem o t n).mp hn
  obtain ⟨k', y, hk', hy, hoy⟩ := (h.mem o t m).mp hm
  have hxo : ((s.waitlist t).map Waitblock.object)[k]? = some o := by simp [hx, hox]
  have hyo : ((s.waitlist t).map Waitblock.object)[k']? = some o := by simp [hy, hoy]
  obtain ⟨hlt, -⟩ := List.getElem?_eq_some_iff.mp hxo
  have heq : k = k' := (List.getElem?_inj hlt (h.distinct t)).mp (hxo.trans hyo.symm)
  omega

theorem Sound.without_middle (h : Sound s q late) {xs ys : List (Wb τ)} {wb : Wb τ}
    (hq : q o = xs ++ wb :: ys) : q.without wb.1 o = xs ++ ys := by
  have hnodup := (h.family.lists o).nodup
  rw [hq] at hnodup
  rw [← filter_middle hnodup, ← hq]
  refine List.filter_congr fun x hx => ?_
  have hwb : (wb.1, wb.2) ∈ q o := by simp [hq]
  by_cases hxt : x.1 = wb.1
  · have hxm : (wb.1, x.2) ∈ q o := hxt ▸ hx
    have heq : x = wb := Prod.ext hxt (h.eq_of_mem hxm hwb)
    simp [heq]
  · have hne : x ≠ wb := fun e => hxt (by rw [e])
    simp [hxt, hne]

theorem Sound.ready_interrupted (h : Sound s q late) (ht : s.waitlist t ≠ [])
    (hready : s.threads.state t = .ready) : s.threads.interrupted t = true := by
  obtain ⟨w, hw⟩ := h.blocked t ht
  rcases hw.state with hwait | ⟨-, -, hint, -⟩
  · simp [hready] at hwait
  · exact hint

/-- What the invariant reads of thread `u`. -/
structure SameThread (s s' : Sys τ ι) (u : τ) : Prop where
  waitlist : s'.waitlist u = s.waitlist u
  pc : s'.pc u = s.pc u
  state : s'.threads.state u = s.threads.state u
  alertable : s'.threads.alertable u = s.threads.alertable u
  interrupted : s'.threads.interrupted u = s.threads.interrupted u
  suspendCount : s'.threads.suspendCount u = s.threads.suspendCount u

theorem Sound.alter {q' : Queues τ ι} (t : τ) (h : Sound s q late) (hl : Linked s' q')
    (hothers : ∀ u, u ≠ t → SameThread s s' u)
    (hblocked : s'.waitlist t ≠ [] → ∃ w, Blocked s' late t w)
    (hpending : ∀ w, s'.pc t = some w →
      s'.threads.state t = .waiting ∨ s'.threads.state t = .ready)
    (halert : s'.threads.alertable t = true → ∃ w, s'.pc t = some w ∧ w.alertable = true)
    (hcount : s'.threads.suspendCount t = 0) (hcalm : s'.threads.panicked = false) :
    Sound s' q' late := by
  refine ⟨hl, fun u hu => ?_, fun u w hu => ?_, fun u hu => ?_, fun u => ?_, hcalm⟩ <;>
    rcases eq_or_ne u t with rfl | hut
  · exact hblocked hu
  · have hsame := hothers u hut
    rw [hsame.waitlist] at hu
    obtain ⟨w, hpc, hchain, hnodup, hst⟩ := h.blocked u hu
    refine ⟨w, hsame.pc.trans hpc, hsame.waitlist.trans hchain, hnodup, ?_⟩
    rw [hsame.state, hsame.interrupted]
    exact hst
  · exact hpending w hu
  · have hsame := hothers u hut
    rw [hsame.pc] at hu
    rw [hsame.state]
    exact h.pending u w hu
  · exact halert hu
  · have hsame := hothers u hut
    rw [hsame.alertable] at hu
    rw [hsame.pc]
    exact h.alert u hu
  · exact hcount
  · rw [(hothers u hut).suspendCount]
    exact h.counts u

theorem Sound.releaseThread (h : Sound s q late) (ht : s.waitlist t ≠ []) :
    Sound (s.releaseThread t) (q.without t) late := by
  have hl : Linked (s.releaseThread t) (q.without t) :=
    (h.toLinked.cancelWait t).congr rfl rfl rfl
  have hw : (s.releaseThread t).waitlist = Function.update s.waitlist t [] := rfl
  have hpc : (s.releaseThread t).pc = s.pc := by
    rw [Sys.releaseThread, cancelWait_eq]
  have hflags : SameFlags s.threads (s.releaseThread t).threads :=
    sameFlags_markThreadReady (h.ready_interrupted ht)
  refine h.alter t hl (fun u hut => ?_) (fun hu => ?_) (fun w hu => ?_) (fun hu => ?_) ?_ ?_
  · exact ⟨by rw [hw, Function.update_of_ne hut], by rw [hpc], state_markThreadReady hut,
      congrFun hflags.alertable u, congrFun hflags.interrupted u, congrFun hflags.suspendCount u⟩
  · simp [hw] at hu
  · refine .inr (markThreadReady_ready ?_)
    rw [h.counts]
    decide
  · rw [hflags.alertable] at hu
    rw [hpc]
    exact h.alert t hu
  · rw [hflags.suspendCount]
    exact h.counts t
  · rw [hflags.panicked]
    exact h.calm

/-- A grant takes the thread off its wait lists and wakes it, and otherwise changes objects only. -/
def Grants (grant : Sys τ ι → τ → Sys τ ι × Bool) : Prop :=
  ∀ s t, ∃ s₁, SameWaits s s₁ ∧ SameWaits (s₁.releaseThread t) (grant s t).1

theorem grants_grantEvent (e : ι) (manualReset : Bool) :
    Grants (τ := τ) (Sys.grantEvent e manualReset) := by
  intro s t
  refine ⟨s, SameWaits.refl s, ?_⟩
  rw [Sys.grantEvent]
  split <;> exact ⟨rfl, rfl, rfl, rfl, rfl, rfl⟩

theorem grants_grantSem (o : ι) : Grants (τ := τ) (Sys.grantSem o) := by
  intro s t
  refine ⟨s, SameWaits.refl s, ?_⟩
  rw [Sys.grantSem]
  split <;> exact ⟨rfl, rfl, rfl, rfl, rfl, rfl⟩

theorem grants_grantMutex (m : ι) : Grants (τ := τ) (Sys.grantMutex m) := fun s t =>
  ⟨s.setObj m ⟨false, .mutex (some t) 1⟩, ⟨rfl, rfl, rfl, rfl, rfl, rfl⟩, ⟨rfl, rfl, rfl, rfl, rfl, rfl⟩⟩

theorem grants_grantWaiter (k : ℤ) : Grants (τ := τ) (ι := ι) (Sys.grantWaiter k) := fun s t =>
  ⟨s.setWaitkey t k, ⟨rfl, rfl, rfl, rfl, rfl, rfl⟩, SameWaits.refl _⟩

/-- The invariant of a walk along the wait list of `o`, with the blocks `l` before it. -/
def Walking (o : ObjId τ ι) (late : Prop) (s : Sys τ ι) (l : List (Wb τ)) : Prop :=
  ∃ q xs, Sound s q late ∧ q o = xs ++ l

theorem Walking.next {wb : Wb τ} {l : List (Wb τ)} (h : Walking o late s (wb :: l)) :
    s.links.next wb = l.head? := by
  obtain ⟨q, xs, hs, hq⟩ := h
  exact hs.family.next hq

theorem Walking.skip {wb : Wb τ} {l : List (Wb τ)} (h : Walking o late s (wb :: l)) :
    Walking o late (s.scanned wb.1) l := by
  obtain ⟨q, xs, hs, hq⟩ := h
  refine ⟨q, xs ++ [wb], hs.congr ⟨rfl, rfl, rfl, rfl, rfl, rfl⟩, ?_⟩
  rw [hq, List.append_assoc, List.singleton_append]

theorem Walking.waits {wb : Wb τ} {l : List (Wb τ)} (h : Walking o late s (wb :: l)) :
    BlockAt (s.waitlist wb.1) 0 o wb.2 ∧ s.waitlist wb.1 ≠ [] ∧ ∃ w, Blocked s late wb.1 w := by
  obtain ⟨q, xs, hs, hq⟩ := h
  have hmem : (wb.1, wb.2) ∈ q o := by simp [hq]
  have hchain := hs.toLinked.chain_ne_nil hmem
  exact ⟨(hs.mem _ _ _).mp hmem, hchain, hs.blocked _ hchain⟩

theorem Walking.granted {wb : Wb τ} {l : List (Wb τ)} (h : Walking o late s (wb :: l))
    (hg : Grants grant) : Walking o late (grant (s.scanned wb.1) wb.1).1 l := by
  obtain ⟨-, hchain, -⟩ := h.waits
  obtain ⟨q, xs, hs, hq⟩ := h
  obtain ⟨s₁, hsame, hsame'⟩ := hg (s.scanned wb.1) wb.1
  have hscan : SameWaits s (s.scanned wb.1) := ⟨rfl, rfl, rfl, rfl, rfl, rfl⟩
  have hs₁ := (hs.congr hscan).congr hsame
  refine ⟨q.without wb.1, xs, (hs₁.releaseThread ?_).congr hsame', hs.without_middle hq⟩
  rw [hsame.waitlist]
  exact hchain

variable [Fintype τ]

theorem Linked.length_le_fuel (h : Linked s q) : (q o).length ≤ s.fuel := by
  have hsub : (q o).toFinset ⊆ Finset.univ ×ˢ Finset.range (maxWaitObjects + 1) := by
    rintro ⟨t, n⟩ hmem
    obtain ⟨wb, hwb, -⟩ := (blockAt_zero _ _ _).mp ((h.mem o t n).mp (List.mem_toFinset.mp hmem))
    obtain ⟨hlt, -⟩ := List.getElem?_eq_some_iff.mp hwb
    have := h.length t
    simp only [Finset.mem_product, Finset.mem_univ, Finset.mem_range, true_and]
    omega
  have hcard := Finset.card_le_card hsub
  rw [List.toFinset_card_of_nodup (h.family.lists o).nodup, Finset.card_product] at hcard
  rw [Sys.fuel, Nat.mul_comm]
  exact hcard

theorem Sound.releaseWith (h : Sound s q late) (hg : Grants grant) :
    ∃ q', Sound (s.releaseWith o grant) q' late := by
  have hhead : (s.waiters o).head = (q o).head? := (h.family.lists o).head
  rw [Sys.releaseWith, hhead]
  refine releaseLoop_rule (P := Walking o late) (Q := fun s => ∃ q', Sound s q' late)
    (fun _ _ _ hw => hw.next) (fun _ _ _ hw _ => hw.skip) (fun _ _ _ hw _ _ => hw.granted hg)
    (fun s wb l hw _ _ => ?_) (fun s hw => ?_) h.toLinked.length_le_fuel ⟨q, [], h, rfl⟩
  · obtain ⟨q', xs, hs, -⟩ := hw.granted hg
    exact ⟨q', hs⟩
  · obtain ⟨q', xs, hs, -⟩ := hw
    exact ⟨q', hs⟩

end SimpleKernel.Object
