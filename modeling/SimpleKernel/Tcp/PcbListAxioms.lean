import SimpleKernel.Tcp.PcbFates

/-! The axioms of `net/tcp.h` about the lists of control blocks. -/
namespace SimpleKernel.Tcp
open LinkedList
open Function (update update_of_ne update_self)

namespace PcbTable
variable {β : Type*} [DecidableEq β] {t t' : PcbTable β} {on : β → Option PcbList} {q : PcbList → List β}
  {a b : β} {k : PcbList} {l : Option PcbList}

/-- The lists `q` hold the control blocks that `on` puts on them. -/
structure Layout (t : PcbTable β) (on : β → Option PcbList) (q : PcbList → List β) : Prop where
  chains : Chains t.next t.head q
  mem_iff : ∀ k b, b ∈ q k ↔ b ∈ t.allocated ∧ on b = some k

/-- The control block is on the list of its state. -/
def Agrees (p : Pcb) (l : Option PcbList) : Prop := l = p.state.list ∧ p.closed = false

def Sound (t : PcbTable β) : Prop := ∃ on q, Layout t on q ∧ ∀ b ∈ t.allocated, Agrees (t.pcb b) (on b)

/-- The control block `a` is on the list `l` and may be in any state. -/
def SoundBut (t : PcbTable β) (a : β) (l : Option PcbList) : Prop :=
  ∃ on q, Layout t on q ∧ on a = l ∧ ∀ b ∈ t.allocated, b ≠ a → Agrees (t.pcb b) (on b)

omit [DecidableEq β] in
theorem Layout.out (h : Layout t on q) (ha : on a ≠ some k) : a ∉ q k :=
  fun hm => ha ((h.mem_iff k a).mp hm).2

theorem Layout.length_le (h : Layout t on q) (k : PcbList) : (q k).length ≤ t.rounds := by
  have hsub : (q k).toFinset ⊆ t.allocated := by
    intro b hb
    exact ((h.mem_iff k b).mp (List.mem_toFinset.mp hb)).1
  calc (q k).length = (q k).toFinset.card := (List.toFinset_card_of_nodup (h.chains.chain k).nodup).symm
    _ ≤ t.allocated.card := Finset.card_le_card hsub

section
omit [DecidableEq β]

theorem Sound.but (h : Sound t) (ha : a ∈ t.allocated) : SoundBut t a (t.pcb a).state.list := by
  obtain ⟨on, q, hl, hall⟩ := h
  exact ⟨on, q, hl, (hall a ha).1, fun b hb _ => hall b hb⟩

theorem Sound.opened (h : Sound t) (ha : a ∈ t.allocated) : (t.pcb a).closed = false := by
  obtain ⟨on, q, -, hall⟩ := h
  exact (hall a ha).2

theorem SoundBut.settle (h : SoundBut t a l) (ha : Agrees (t.pcb a) l) : Sound t := by
  obtain ⟨on, q, hl, hon, hall⟩ := h
  refine ⟨on, q, hl, fun b hb => ?_⟩
  by_cases hba : b = a
  · rw [hba, hon]
    exact ha
  · exact hall b hb hba

end

theorem SoundBut.setPcb (h : SoundBut t a l) (p : Pcb) : SoundBut (t.setPcb a p) a l := by
  obtain ⟨on, q, hl, hon, hall⟩ := h
  refine ⟨on, q, ⟨hl.chains, hl.mem_iff⟩, hon, fun b hb hba => ?_⟩
  have hsame : (t.setPcb a p).pcb b = t.pcb b := update_of_ne hba _ _
  rw [hsame]
  exact hall b hb hba

theorem Sound.setEnds (h : Sound t) (a : β) (e : Endpoints) : Sound (t.setEnds a e) := by
  obtain ⟨on, q, hl, hall⟩ := h
  exact ⟨on, q, ⟨hl.chains, hl.mem_iff⟩, hall⟩

theorem SoundBut.setEnds (h : SoundBut t a l) (b : β) (e : Endpoints) : SoundBut (t.setEnds b e) a l := by
  obtain ⟨on, q, hl, hon, hall⟩ := h
  exact ⟨on, q, ⟨hl.chains, hl.mem_iff⟩, hon, hall⟩

theorem Sound.setPcb (h : Sound t) (ha : a ∈ t.allocated) {p : Pcb} (hp : Agrees p (t.pcb a).state.list) :
    Sound (t.setPcb a p) := by
  have hself : (t.setPcb a p).pcb a = p := update_self _ _ _
  exact ((h.but ha).setPcb p).settle (hself.symm ▸ hp)

theorem SoundBut.reg (h : SoundBut t a none) (ha : a ∈ t.allocated) (k : PcbList) :
    SoundBut (t.tcpReg k a) a (some k) := by
  obtain ⟨on, q, hl, hon, hall⟩ := h
  have hout : ∀ j, a ∉ q j := fun j => hl.out (by simp [hon])
  refine ⟨update on a (some k), _, ⟨hl.chains.push hout, fun j b => ?_⟩, by simp, fun b hb hba => ?_⟩
  · show _ ↔ b ∈ t.allocated ∧ _
    by_cases hba : b = a
    · subst hba
      by_cases hj : j = k
      · subst hj
        simp [ha]
      · simp [update_of_ne hj, hout j, Ne.symm hj]
    · rw [update_of_ne hba]
      by_cases hj : j = k
      · subst hj
        simp [hba, hl.mem_iff]
      · rw [update_of_ne hj]
        exact hl.mem_iff j b
  · rw [update_of_ne hba]
    exact hall b hb hba

theorem SoundBut.rmv (h : SoundBut t a l) (hk : l = none ∨ l = some k) :
    ∃ t', t.tcpRmv k a = .ok t' ∧ SoundBut t' a none ∧ t'.allocated = t.allocated ∧ t'.pcb = t.pcb := by
  obtain ⟨on, q, hl, hon, hall⟩ := h
  have hother : ∀ j, j ≠ k → a ∉ q j := by
    intro j hj
    apply hl.out
    rcases hk with rfl | rfl
    · simp [hon]
    · simp [hon, Ne.symm hj]
  obtain ⟨next', head', hunlink, hchains⟩ := hl.chains.unlink hother (hl.length_le k)
  refine ⟨t.setLinks k (next', head'), by rw [tcpRmv, hunlink], ?_, rfl, rfl⟩
  refine ⟨update on a none, _, ⟨hchains, fun j b => ?_⟩, by simp, fun b hb hba => ?_⟩
  · show _ ↔ b ∈ t.allocated ∧ _
    have hnodup := (hl.chains.chain k).nodup
    by_cases hba : b = a
    · subst hba
      by_cases hj : j = k
      · subst hj
        simp [hnodup.mem_erase_iff]
      · simp [update_of_ne hj, hother j hj]
    · rw [update_of_ne hba]
      by_cases hj : j = k
      · subst hj
        simp [hba, hl.mem_iff]
      · rw [update_of_ne hj]
        exact hl.mem_iff j b
  · rw [update_of_ne hba]
    exact hall b hb hba

theorem SoundBut.free (h : SoundBut t a none) : Sound (t.kfree a) := by
  obtain ⟨on, q, hl, hon, hall⟩ := h
  refine ⟨on, q, ⟨hl.chains, fun k b => ?_⟩, fun b hb => ?_⟩
  · show _ ↔ b ∈ t.allocated.erase a ∧ _
    rw [hl.mem_iff, Finset.mem_erase]
    constructor
    · rintro ⟨hb, hbk⟩
      have hba : b ≠ a := by
        rintro rfl
        simp [hon] at hbk
      exact ⟨⟨hba, hb⟩, hbk⟩
    · rintro ⟨⟨-, hb⟩, hbk⟩
      exact ⟨hb, hbk⟩
  · have hb' := Finset.mem_erase.mp hb
    exact hall b hb'.2 hb'.1

theorem SoundBut.remove (h : SoundBut t a l) (hk : l = none ∨ l = some k) :
    ∃ t', t.pcbRemove k a = .ok t' ∧ Sound t' := by
  obtain ⟨t', hrmv, hbut, -⟩ := h.rmv hk
  exact ⟨t'.kfree a, by simp [pcbRemove, hrmv, bind, Except.bind, pure, Except.pure], hbut.free⟩

section
variable (h : Sound t)
include h

theorem Sound.tcpNew (ha : a ∉ t.allocated) (iss : UInt32) : SoundBut (t.tcpNew a iss) a none := by
  obtain ⟨on, q, hl, hall⟩ := h
  have hout : ∀ j, a ∉ q j := fun j hm => ha ((hl.mem_iff j a).mp hm).1
  refine ⟨update on a none, q, ⟨hl.chains.detach hout none, fun k b => ?_⟩, by simp, fun b hb hba => ?_⟩
  · show _ ↔ b ∈ insert a t.allocated ∧ _
    by_cases hba : b = a
    · subst hba
      simp [hout k]
    · rw [hl.mem_iff]
      simp [hba]
  · have hpcb : (t.tcpNew a iss).pcb b = t.pcb b := update_of_ne hba _ _
    rw [hpcb, update_of_ne hba]
    exact hall b (Finset.mem_of_mem_insert_of_ne hb hba)

theorem Sound.search (found : β → Bool) (k : PcbList) :
    search t.next found t.rounds none (t.head k) = some none ∨
      ∃ prev a, search t.next found t.rounds none (t.head k) = some (some (prev, a)) ∧ a ∈ t.allocated ∧
        (t.pcb a).state.list = some k ∧ Sound (t.moveToFront k prev a) := by
  obtain ⟨on, q, hl, hall⟩ := h
  rcases (hl.chains.chain k).search (hl.length_le k) none with ⟨hnone, -⟩ | ⟨ys, a, zs, hk, -, hsome⟩
  · exact .inl hnone
  · right
    rw [Option.or_none] at hsome
    obtain ⟨ha, hon⟩ := (hl.mem_iff k a).mp (by simp [hk])
    refine ⟨_, a, hsome, ha, (hall a ha).1.symm.trans hon, on, _, ⟨hl.chains.toFront hk, fun j b => ?_⟩, hall⟩
    show _ ↔ b ∈ t.allocated ∧ _
    by_cases hj : j = k
    · subst hj
      rw [← hl.mem_iff, hk]
      simp [or_left_comm]
    · rw [update_of_ne hj]
      exact hl.mem_iff j b

theorem Sound.lookup (d : Datagram) : ∃ t' found, t.lookup d = .ok (t', found) ∧ Sound t' ∧
    t'.pcb = t.pcb ∧ t'.allocated = t.allocated ∧ ∀ a ∈ found, a ∈ t.allocated ∧ (t.pcb a).state.list ≠ none := by
  rw [PcbTable.lookup]
  rcases h.search (t.connects d) .active with hnone | ⟨prev, a, hsome, ha, hlist, hfront⟩
  · rcases h.search (t.connects d) .tw with hnone' | ⟨prev, a, hsome, ha, hlist, -⟩
    · rcases h.search (t.listens d) .listen with hnone'' | ⟨prev, a, hsome, ha, hlist, hfront⟩
      · exact ⟨t, none, by rw [hnone, hnone', hnone'']; rfl, h, rfl, rfl, by simp⟩
      · exact ⟨_, some a, by rw [hnone, hnone', hsome]; rfl, hfront, rfl, rfl, by simp [ha, hlist]⟩
    · exact ⟨t, some a, by rw [hnone, hsome]; rfl, h, rfl, rfl, by simp [ha, hlist]⟩
  · exact ⟨_, some a, by rw [hsome]; rfl, hfront, rfl, rfl, by simp [ha, hlist]⟩

theorem Sound.tcpBind (a : β) (ip : UInt32) (port newPort : UInt16) (own : Bool) :
    ∃ t', t.tcpBind a ip port newPort own = .ok t' ∧ Sound t' := by
  have hsearch (found : β → Bool) (k : PcbList) : ∃ r, LinkedList.search t.next found t.rounds none (t.head k) = some r := by
    rcases h.search found k with hr | ⟨_, _, hr, -⟩
    · exact ⟨_, hr⟩
    · exact ⟨_, hr⟩
  rw [PcbTable.tcpBind]
  obtain ⟨r, hr⟩ := hsearch (t.clashes ip (if port = 0 then newPort else port)) .listen
  obtain ⟨r', hr'⟩ := hsearch (t.clashes ip (if port = 0 then newPort else port)) .active
  simp only [hr, hr', ended, bind, Except.bind]
  split
  · exact ⟨t, rfl, h⟩
  · split
    · exact ⟨t, rfl, h⟩
    · split
      · exact ⟨t, rfl, h⟩
      · exact ⟨_, rfl, h.setEnds a _⟩

theorem Sound.tcpListen (ha : a ∈ t.allocated) (hstate : (t.pcb a).state = .closed) : Sound (t.tcpListen a) := by
  have hbut := h.but ha
  rw [hstate] at hbut
  rw [PcbTable.tcpListen, if_neg (by simp [hstate])]
  refine ((hbut.setPcb _).reg ha .listen).settle ?_
  simp [tcpReg, setLinks, PcbTable.setPcb, Agrees, TcpState.list, h.opened ha]

theorem Sound.tcpConnect (ha : a ∈ t.allocated) (hstate : (t.pcb a).state = .closed) (ip : UInt32)
    (port newPort : UInt16) (iss : UInt32) (avail : ℕ) : Sound (t.tcpConnect a ip port newPort iss avail) := by
  have hbut := h.but ha
  rw [hstate] at hbut
  have hlist := Tcp.Pcb.tcpConnect_list (t.pcb a) iss avail
  rw [PcbTable.tcpConnect]
  split
  · exact h
  · refine (((hbut.setEnds a _).setPcb _).reg ha .active).settle ?_
    simp [tcpReg, setLinks, PcbTable.setPcb, PcbTable.setEnds, Agrees, hlist.1, hlist.2, h.opened ha]

theorem Sound.tcpClose (ha : a ∈ t.allocated) (avail : ℕ) :
    ∃ t', t.tcpClose a avail = .ok t' ∧ Sound t' := by
  have hbut := h.but ha
  have hkept (hs : (t.pcb a).state ≠ .synSent) : Sound (t.setPcb a ((t.pcb a).tcpClose avail).1) := by
    have hlist := Tcp.Pcb.tcpClose_list hs avail
    exact h.setPcb ha ⟨hlist.1.symm, hlist.2.trans (h.opened ha)⟩
  rw [PcbTable.tcpClose]
  cases hs : (t.pcb a).state with
  | listen | synSent => exact hbut.remove (.inr (by simp [hs, TcpState.list]))
  | closed | synRcvd | established | finWait1 | finWait2 | closeWait | closing | lastAck | timeWait =>
    exact ⟨_, rfl, hkept (by simp [hs])⟩

theorem Sound.tcpAbort (ha : a ∈ t.allocated) (hstate : (t.pcb a).state ≠ .listen) :
    ∃ t', t.tcpAbort a = .ok t' ∧ Sound t' := by
  have hbut := h.but ha
  rw [PcbTable.tcpAbort]
  split
  · rename_i hs
    exact hbut.remove (.inr (by simp [hs, TcpState.list]))
  · rename_i hs
    apply hbut.remove
    revert hstate hs
    cases (t.pcb a).state <;> simp [TcpState.list]

theorem Sound.listenInput (a : β) (d : Datagram) {fresh : Option β} (hfresh : ∀ b ∈ fresh, b ∉ t.allocated)
    (iss : UInt32) (avail : ℕ) : Sound (t.listenInput a d fresh iss avail) := by
  unfold PcbTable.listenInput
  split
  · rename_i b n hn
    have hlist := Tcp.Pcb.listenSyn_list hn
    have hnew := h.tcpNew (hfresh b rfl) iss
    refine (((hnew.setEnds b _).setPcb n).reg (Finset.mem_insert_self b _) .active).settle ?_
    simp [tcpReg, setLinks, PcbTable.setPcb, Agrees, hlist.1, hlist.2]
  · exact h

theorem Sound.setProcessed (ha : a ∈ t.allocated) {q : Pcb} (hfate : (t.pcb a).Fate q false) :
    ∃ t' l, t.setProcessed a q = .ok t' ∧ SoundBut t' a l ∧ t'.pcb a = q ∧ t'.allocated = t.allocated ∧
      ((q.closed = false ∧ l = q.state.list) ∨ (q.closed = true ∧ q.state.list = none ∧ l = some .active)) := by
  have hbut := h.but ha
  have hself (t : PcbTable β) : (t.setPcb a q).pcb a = q := update_self _ _ _
  have hstays (hw : ¬ ((t.pcb a).state ≠ .timeWait ∧ q.state = .timeWait)) :
      t.setProcessed a q = .ok (t.setPcb a q) := if_neg hw
  cases hfate with
  | closed hactive hnone hclosed =>
    refine ⟨_, _, hstays ?_, hbut.setPcb q, hself t, rfl, .inr ⟨hclosed, hnone, hactive⟩⟩
    rintro ⟨-, hs⟩
    simp [hs, TcpState.list] at hnone
  | kept hopen hlist =>
    refine ⟨_, _, hstays ?_, hbut.setPcb q, hself t, rfl, .inl ⟨hopen, hlist.symm⟩⟩
    rintro ⟨hne, hs⟩
    rw [hs] at hlist
    revert hlist hne
    cases (t.pcb a).state <;> simp [TcpState.list]
  | waits hopen hactive hs =>
    obtain ⟨t', hrmv, hout, halloc, -⟩ := hbut.rmv (.inr hactive)
    have hne : (t.pcb a).state ≠ .timeWait := by
      intro hs'
      simp [hs', TcpState.list] at hactive
    refine ⟨(t'.setPcb a q).tcpReg .tw a, some .tw, ?_, (hout.setPcb q).reg (halloc ▸ ha) .tw, hself t', halloc,
      .inl ⟨hopen, by simp [hs, TcpState.list]⟩⟩
    simp [PcbTable.setProcessed, hne, hs, hrmv, bind, Except.bind, pure, Except.pure]

theorem Sound.connInput (ha : a ∈ t.allocated)
    (hlist : (t.pcb a).state.list = some .active ∨ (t.pcb a).state.list = some .tw) (seg : RxSeg) (cb : Callbacks) :
    t.connInput a seg cb = .error .fault ∨ ∃ t', t.connInput a seg cb = .ok t' ∧ Sound t' := by
  have hbut := h.but ha
  have hstate : (t.pcb a).cleared.state = (t.pcb a).state := Tcp.Pcb.cleared_state _
  have hopen : (t.pcb a).cleared.closed = false := by
    rw [Tcp.Pcb.cleared]
    split <;> exact h.opened ha
  rw [PcbTable.connInput]
  cases hprocess : (t.pcb a).cleared.tcpProcess seg cb with
  | none => exact .inl rfl
  | some r =>
    obtain ⟨q, rest, aborted⟩ := r
    right
    have hfate := Tcp.Pcb.tcpProcess_fate (by rwa [hstate]) hopen hprocess
    cases aborted with
    | true =>
      have hactive : (t.pcb a).state.list = some .active := by
        cases hfate with
        | aborted hactive => rwa [hstate] at hactive
      exact hbut.remove (.inr hactive)
    | false =>
      have hfate' : (t.pcb a).Fate q false := by
        cases hfate with
        | closed hactive hnone hclosed => exact .closed (hstate ▸ hactive) hnone hclosed
        | kept hopen hlist => exact .kept hopen (hstate ▸ hlist)
        | waits hopen hactive hs => exact .waits hopen (hstate ▸ hactive) hs
      obtain ⟨t', l, hset, hsound, -, -, hl⟩ := h.setProcessed ha hfate'
      simp only [hset, Bool.false_eq_true, if_false]
      split
      · apply hsound.remove
        have hq : q.state.list ≠ some .listen := by
          cases hfate' with
          | closed _ hnone _ => simp [hnone]
          | kept _ hkept => rcases hlist with hlist | hlist <;> simp [hkept, hlist]
          | waits _ _ hs => simp [hs, TcpState.list]
        rcases hl with ⟨-, rfl⟩ | ⟨-, hnone, rfl⟩
        · revert hq
          cases q.state <;> simp [TcpState.list]
        · revert hnone
          cases q.state <;> simp [TcpState.list]
      · split
        · rename_i hclosed
          apply hsound.remove
          rcases hl with ⟨hopen, -⟩ | ⟨-, -, rfl⟩
          · rw [hclosed] at hopen
            cases hopen
          · exact .inr rfl
        · rename_i hreset hclosed
          rcases hl with ⟨hopen, rfl⟩ | ⟨hclosed', -⟩
          · split
            · rename_i hs
              exact hsound.remove (.inr (by simp [hs.1, TcpState.list]))
            · rename_i hs
              have hfinish := Tcp.Pcb.finishInput_list (by simpa using hreset) hopen hs
              refine ⟨_, rfl, (hsound.setPcb _).settle ?_⟩
              simp only [PcbTable.setPcb, update_self]
              exact ⟨hfinish.1.symm, hfinish.2⟩
          · exact absurd hclosed' hclosed

theorem Sound.tcpInput (d : Datagram) (cb : Callbacks) {fresh : Option β}
    (hfresh : ∀ b ∈ fresh, b ∉ t.allocated) (iss : UInt32) :
    t.tcpInput d cb fresh iss = .error .fault ∨ ∃ t', t.tcpInput d cb fresh iss = .ok t' ∧ Sound t' := by
  obtain ⟨t', found, hlookup, hsound, hpcb, halloc, hfound⟩ := h.lookup d
  simp only [PcbTable.tcpInput, hlookup, bind, Except.bind]
  cases found with
  | none => exact .inr ⟨t', rfl, hsound⟩
  | some a =>
    obtain ⟨ha, hlist⟩ := hfound a rfl
    rw [← hpcb] at hlist
    rw [← halloc] at ha hfresh
    dsimp only
    split
    · exact .inr ⟨_, rfl, hsound.listenInput a d hfresh iss cb.avail⟩
    · rename_i hs
      apply hsound.connInput ha
      revert hlist hs
      cases (t'.pcb a).state <;> simp [TcpState.list]

end

theorem Layout.slowLoop (hl : Layout t on q) (hall : ∀ b ∈ t.allocated, Agrees (t.pcb b) (on b))
    {tick : Pcb → Expired → Pcb} (htick : ∀ p e, (tick p e).state = p.state ∧ (tick p e).closed = p.closed)
    (e : β → Expired) {ys zs : List β} (hk : q k = ys ++ zs) {n : ℕ} (hn : zs.length ≤ n) :
    ∃ t', slowLoop k tick e n ys.getLast? zs.head? t = some t' ∧ Sound t' := by
  induction n generalizing t on q ys zs with
  | zero =>
    obtain rfl := List.length_eq_zero_iff.mp (Nat.le_zero.mp hn)
    exact ⟨t, rfl, on, q, hl, hall⟩
  | succ n ih =>
    cases zs with
    | nil => exact ⟨t, rfl, on, q, hl, hall⟩
    | cons a zs =>
      obtain ⟨ha, hon⟩ := (hl.mem_iff k a).mp (by simp [hk])
      have hchain := hl.chains.chain k
      rw [hk] at hchain
      have hnext : t.next a = zs.head? := hchain.next_eq
      have hticked : Agrees (tick (t.pcb a) (e a)) (on a) := by
        have ht := htick (t.pcb a) (e a)
        exact ⟨(hall a ha).1.trans (by rw [ht.1]), ht.2.trans (hall a ha).2⟩
      have hpcb (b : β) (hba : b ≠ a) : (t.setPcb a (tick (t.pcb a) (e a))).pcb b = t.pcb b :=
        update_of_ne hba _ _
      have hself : (t.setPcb a (tick (t.pcb a) (e a))).pcb a = tick (t.pcb a) (e a) := update_self _ _ _
      rw [List.head?_cons, PcbTable.slowLoop]
      split
      · -- the control block leaves its list and is freed
        have hnodup := List.nodup_cons.mp (List.nodup_middle.mp hchain.nodup)
        have hlast : ys.getLast? ≠ some a := fun hm => hnodup.1 (by simp [List.mem_of_getLast? hm])
        have hnext' := (bypass_removed (h := t.head k) hlast).trans hnext
        have hleft : Layout ((t.setPcb a (tick (t.pcb a) (e a))).setLinks k
            (bypass t.next (t.head k) ys.getLast? a) |>.kfree a) on (update q k (ys ++ zs)) := by
          refine ⟨hl.chains.bypass hk, fun j b => ?_⟩
          show _ ↔ b ∈ t.allocated.erase a ∧ _
          rw [Finset.mem_erase]
          by_cases hj : j = k
          · subst hj
            have hmem := hl.mem_iff j b
            rw [hk] at hmem
            by_cases hba : b = a
            · subst hba
              simp [hnodup.1]
            · simpa [hba] using hmem
          · rw [update_of_ne hj, hl.mem_iff]
            have hba : on b = some j → b ≠ a := by
              rintro hb rfl
              exact hj (Option.some.inj (hb.symm.trans hon))
            tauto
        have hall' : ∀ b ∈ t.allocated.erase a, Agrees ((t.setPcb a (tick (t.pcb a) (e a))).pcb b) (on b) := by
          intro b hb
          have hb' := Finset.mem_erase.mp hb
          exact (hpcb b hb'.1).symm ▸ hall b hb'.2
        have hk' : update q k (ys ++ zs) k = ys ++ zs := update_self _ _ _
        have hstep := ih hleft hall' hk' (by simpa using hn)
        rw [← hnext'] at hstep
        exact hstep
      · have hkept : Layout (t.setPcb a (tick (t.pcb a) (e a))) on q := ⟨hl.chains, hl.mem_iff⟩
        have hall' : ∀ b ∈ t.allocated, Agrees ((t.setPcb a (tick (t.pcb a) (e a))).pcb b) (on b) := by
          intro b hb
          by_cases hba : b = a
          · subst hba
            exact hself.symm ▸ hticked
          · exact (hpcb b hba).symm ▸ hall b hb
        have hk' : q k = (ys ++ [a]) ++ zs := by simpa using hk
        have hstep := ih hkept hall' hk' (by simpa using hn)
        rw [List.getLast?_concat, ← hnext] at hstep
        exact hstep

theorem Sound.tcpSlowtmr (h : Sound t) (e : β → Expired) : ∃ t', t.tcpSlowtmr e = .ok t' ∧ Sound t' := by
  have hloop {t : PcbTable β} (h : Sound t) (k : PcbList) {tick : Pcb → Expired → Pcb}
      (htick : ∀ p e, (tick p e).state = p.state ∧ (tick p e).closed = p.closed) :
      ∃ t', PcbTable.slowLoop k tick e t.rounds none (t.head k) t = some t' ∧ Sound t' := by
    obtain ⟨on, q, hl, hall⟩ := h
    rw [(hl.chains.chain k).head]
    have hk : q k = [] ++ q k := rfl
    exact hl.slowLoop hall htick e hk (hl.length_le k)
  have hidle : ∀ (p : Pcb) (e : Expired), ((fun p _ => p : Pcb → Expired → Pcb) p e).state = p.state ∧
      ((fun p _ => p : Pcb → Expired → Pcb) p e).closed = p.closed := fun _ _ => ⟨rfl, rfl⟩
  obtain ⟨t₁, hactive, hsound⟩ := hloop h .active Tcp.Pcb.slowtmr_flags
  obtain ⟨t₂, htw, hsound'⟩ := hloop hsound .tw hidle
  exact ⟨t₂, by simp [PcbTable.tcpSlowtmr, hactive, htw, ended, bind, Except.bind], hsound'⟩

theorem Sound.exec (h : Sound t) {c : Call β} (hc : c.Legal t) :
    t.exec c = .error .fault ∨ ∃ t', t.exec c = .ok t' ∧ Sound t' := by
  cases c with
  | new a iss => exact .inr ⟨_, rfl, (h.tcpNew hc iss).settle (by simp [PcbTable.tcpNew, Agrees, Tcp.Pcb.tcpNew, TcpState.list])⟩
  | bind a ip port newPort own => exact .inr (h.tcpBind a ip port newPort own)
  | listen a => exact .inr ⟨_, rfl, h.tcpListen hc.1 hc.2⟩
  | connect a ip port newPort iss avail => exact .inr ⟨_, rfl, h.tcpConnect hc.1 hc.2 ip port newPort iss avail⟩
  | write a data opt avail =>
    have hlist := Tcp.Pcb.tcpWrite_list (t.pcb a) data opt avail
    exact .inr ⟨_, rfl, h.setPcb hc ⟨hlist.1.symm, hlist.2.trans (h.opened hc)⟩⟩
  | recved a len => exact .inr ⟨_, rfl, h.setPcb hc ⟨rfl, h.opened hc⟩⟩
  | close a avail => exact .inr (h.tcpClose hc avail)
  | abort a => exact .inr (h.tcpAbort hc.1 hc.2)
  | input d cb fresh iss => exact h.tcpInput d cb hc iss
  | slowtmr e => exact .inr (h.tcpSlowtmr e)

omit [DecidableEq β] in
theorem Empty.sound (h : t.Empty) : Sound t := by
  refine ⟨fun _ => none, fun _ => [], ⟨⟨fun k => h.2 k, fun _ _ _ hm => (nomatch hm)⟩, fun k b => by simp⟩, ?_⟩
  intro b hb
  rw [h.1] at hb
  exact absurd hb (Finset.notMem_empty b)

theorem Reachable.sound (h : Reachable t) : Sound t := by
  induction h with
  | start ht => exact ht.sound
  | call c _ hc hexec ih =>
    rcases ih.exec hc with hfault | ⟨t', hok, hsound⟩
    · rw [hfault] at hexec
      cases hexec
    · rw [hok] at hexec
      obtain rfl := Except.ok.inj hexec
      exact hsound

/-- The axioms about the lists `q` of control blocks. -/
structure Axioms (t : PcbTable β) (q : PcbList → List β) : Prop where
  follows : ∀ k, Chain t.next (t.head k) (q k)
  acyclic : ∀ k, (q k).Nodup
  placed : ∀ a ∈ t.allocated, (t.pcb a).state ≠ .closed → ∃! k, a ∈ q k
  listen : ∀ a ∈ q .listen, a ∈ t.allocated ∧ (t.pcb a).state = .listen
  tw : ∀ a ∈ q .tw, a ∈ t.allocated ∧ (t.pcb a).state = .timeWait
  active : ∀ a ∈ q .active, a ∈ t.allocated ∧ (t.pcb a).state ≠ .closed ∧ (t.pcb a).state ≠ .listen ∧
    (t.pcb a).state ≠ .timeWait

omit [DecidableEq β] in
theorem Sound.axioms (h : Sound t) : ∃ q, Axioms t q := by
  obtain ⟨on, q, hl, hall⟩ := h
  have hstate {k a} (ha : a ∈ q k) : a ∈ t.allocated ∧ (t.pcb a).state.list = some k := by
    obtain ⟨hmem, hon⟩ := (hl.mem_iff k a).mp ha
    exact ⟨hmem, (hall a hmem).1.symm.trans hon⟩
  have hplaced : ∀ a ∈ t.allocated, (t.pcb a).state ≠ .closed → ∃! k, a ∈ q k := by
    intro a ha hs
    obtain ⟨k, hk⟩ : ∃ k, (t.pcb a).state.list = some k := by
      revert hs
      cases (t.pcb a).state <;> simp [TcpState.list]
    refine ⟨k, (hl.mem_iff k a).mpr ⟨ha, (hall a ha).1.trans hk⟩, fun j hj => ?_⟩
    exact Option.some.inj ((hstate hj).2.symm.trans hk)
  refine ⟨q, hl.chains.chain, fun k => (hl.chains.chain k).nodup, hplaced, ?_, ?_, ?_⟩
  all_goals
    intro a ha
    obtain ⟨hmem, hlist⟩ := hstate ha
    refine ⟨hmem, ?_⟩
    revert hlist
    cases (t.pcb a).state <;> simp [TcpState.list]

/-- In every state the calls lead to the axioms hold, and every further call follows lists that end. -/
theorem pcb_list_axioms (h : Reachable t) :
    (∃ q, Axioms t q) ∧ ∀ c : Call β, c.Legal t → t.exec c ≠ .error .endless := by
  refine ⟨h.sound.axioms, fun c hc => ?_⟩
  rcases h.sound.exec hc with hfault | ⟨t', hok, -⟩
  · simp [hfault]
  · simp [hok]

/-- A SYN for the listener 0 makes the connection 1. -/
theorem pcb_list_axioms_accept : ∃ t : PcbTable ℕ, t.head .active = some 1 ∧ (t.pcb 1).state = .synRcvd ∧
    (∃ q, Axioms t q) ∧ ∀ c : Call ℕ, c.Legal t → t.exec c ≠ .error .endless := by
  have hin : (0 : ℕ) ∈ (insert 0 ∅ : Finset ℕ) := by decide
  have hout : ∀ b ∈ some 1, b ∉ (insert 0 ∅ : Finset ℕ) := by decide
  have h₀ : Reachable (⟨∅, fun _ => none, fun _ => none, fun _ => Tcp.Pcb.tcpNew 0, fun _ => ⟨0, 0, 0, 0⟩⟩ : PcbTable ℕ) :=
    .start ⟨rfl, fun _ => rfl⟩
  have h₁ := h₀.call (.new 0 7) (Finset.notMem_empty 0) rfl
  have h₂ := h₁.call (.bind 0 0 80 4096 true) hin rfl
  have h₃ := h₂.call (.listen 0) ⟨hin, rfl⟩ rfl
  have h₄ := h₃.call (.input ⟨9, 1000, 5, 80, ⟨100, 0, 500, { Flags.none with syn := true }, none, 0, none⟩⟩
    ⟨none, none, none, 4⟩ (some 1) 13) hout rfl
  exact ⟨_, rfl, rfl, pcb_list_axioms h₄⟩

end PcbTable

end SimpleKernel.Tcp
