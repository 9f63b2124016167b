import SimpleKernel.Net.IpHeader
import Mathlib.Data.Fintype.Basic

/-! The table of hardware addresses and the queue of packets that wait for one (`net/arp.c`). -/
namespace SimpleKernel.Net
open Function (update update_of_ne update_self)

def arpTableSize : ℕ := 32

def arpXmitQueueSize : ℕ := 4

/-- `struct eth_addr` -/
abbrev EthAddr := Fin 6 → UInt8

/-- An entry without an address is not in use. -/
structure ArpEntry where
  ipaddr : UInt32
  ethaddr : EthAddr
  ctime : Int32

/-- The device and the hardware address of the interface, and the packet, if there is one. -/
structure XmitQueueEntry where
  dev : ℕ
  hwaddr : EthAddr
  p : Option ℕ
  ipaddr : UInt32

/-- A packet that is given to a device, with its Ethernet header. -/
structure Frame where
  dev : ℕ
  p : ℕ
  dest : EthAddr
  src : EthAddr
  type : UInt16

structure Arp where
  table : Fin arpTableSize → ArpEntry
  queue : Fin arpXmitQueueSize → XmitQueueEntry
  ctime : Int32

/-- The entry is in use for the address. -/
def ArpEntry.Holds (e : ArpEntry) (ipaddr : UInt32) : Prop := isAny e.ipaddr = false ∧ ipaddr = e.ipaddr

instance (e : ArpEntry) (ipaddr : UInt32) : Decidable (e.Holds ipaddr) := inferInstanceAs (Decidable (_ ∧ _))

/-- A packet waits for the address. -/
def XmitQueueEntry.Waits (e : XmitQueueEntry) (ipaddr : UInt32) : Prop := e.p ≠ none ∧ e.ipaddr = ipaddr

instance (e : XmitQueueEntry) (ipaddr : UInt32) : Decidable (e.Waits ipaddr) := inferInstanceAs (Decidable (_ ∧ _))

/-- The packet of the entry with its header, which is `ETHTYPE_IP`. -/
def XmitQueueEntry.frame (e : XmitQueueEntry) (ethaddr : EthAddr) : Frame :=
  ⟨e.dev, e.p.getD 0, ethaddr, e.hwaddr, 0x0800⟩

def XmitQueueEntry.taken (e : XmitQueueEntry) : XmitQueueEntry := { e with p := none }

namespace Arp

/-- The entry that has not been set for the longest time. -/
def oldest (s : Arp) : Fin arpTableSize :=
  ((List.finRange arpTableSize).foldl (fun (r : Int32 × Fin arpTableSize) i =>
    if s.ctime - (s.table i).ctime > r.1 then (s.ctime - (s.table i).ctime, i) else r) (0, ⟨0, by decide⟩)).2

/-- The loop over the delayed transmissions, from the entry `i` on: the queue after it, the packets that are
transmitted, and those that the device does not take, which are freed. -/
def delayed (devTransmit : Frame → ℤ) (ipaddr : UInt32) (ethaddr : EthAddr) (i : ℕ)
    (queue : Fin arpXmitQueueSize → XmitQueueEntry) :
    (Fin arpXmitQueueSize → XmitQueueEntry) × List Frame × List ℕ :=
  if h : i < arpXmitQueueSize then
    let entry := queue ⟨i, h⟩
    if entry.Waits ipaddr then
      let frame := entry.frame ethaddr
      -- the loop that copies the two addresses counts with `i` too, and leaves it at 6
      let r := delayed devTransmit ipaddr ethaddr (6 + 1) (update queue ⟨i, h⟩ entry.taken)
      (r.1, frame :: r.2.1, if devTransmit frame < 0 then frame.p :: r.2.2 else r.2.2)
    else delayed devTransmit ipaddr ethaddr (i + 1) queue
  else (queue, [], [])
termination_by arpXmitQueueSize - i
decreasing_by
  all_goals
    unfold arpXmitQueueSize at *
    omega

def addArpEntry (s : Arp) (devTransmit : Frame → ℤ) (ipaddr : UInt32) (ethaddr : EthAddr) :
    Arp × List Frame × List ℕ :=
  match (List.finRange arpTableSize).find? fun i => (s.table i).Holds ipaddr with
  | some i =>
    ({ s with table := update s.table i { s.table i with ethaddr := ethaddr, ctime := s.ctime } }, [], [])
  | none =>
    let i := ((List.finRange arpTableSize).find? fun i => isAny (s.table i).ipaddr).getD s.oldest
    let r := delayed devTransmit ipaddr ethaddr 0 s.queue
    ({ s with table := update s.table i ⟨ipaddr, ethaddr, s.ctime⟩, queue := r.1 }, r.2)

/-- Every packet that waited for the address, and no other, is transmitted with the hardware address and taken from the
queue, and one entry has the address. -/
structure Resolves (s : Arp) (devTransmit : Frame → ℤ) (ipaddr : UInt32) (ethaddr : EthAddr) : Prop where
  sent : (s.addArpEntry devTransmit ipaddr ethaddr).2.1.Perm
    (((List.finRange arpXmitQueueSize).filter fun j => (s.queue j).Waits ipaddr).map fun j => (s.queue j).frame ethaddr)
  queue : ∀ j, (s.addArpEntry devTransmit ipaddr ethaddr).1.queue j =
    if (s.queue j).Waits ipaddr then (s.queue j).taken else s.queue j
  entry : ∃! i, ((s.addArpEntry devTransmit ipaddr ethaddr).1.table i).Holds ipaddr

variable {devTransmit : Frame → ℤ} {ipaddr : UInt32} {ethaddr : EthAddr}
  {queue : Fin arpXmitQueueSize → XmitQueueEntry}

theorem delayed_over (i : ℕ) (hi : arpXmitQueueSize ≤ i) : delayed devTransmit ipaddr ethaddr i queue = (queue, [], []) := by
  rw [delayed, dif_neg (not_lt.mpr hi)]

theorem delayed_cases (devTransmit : Frame → ℤ) (ipaddr : UInt32) (ethaddr : EthAddr)
    (queue : Fin arpXmitQueueSize → XmitQueueEntry) (i : ℕ) :
    ((∀ j, i ≤ j.val → ¬ (queue j).Waits ipaddr) ∧ delayed devTransmit ipaddr ethaddr i queue = (queue, [], [])) ∨
      ∃ j, (queue j).Waits ipaddr ∧ ∃ freed, delayed devTransmit ipaddr ethaddr i queue =
        (update queue j (queue j).taken, [(queue j).frame ethaddr], freed) := by
  induction hn : arpXmitQueueSize - i generalizing i with
  | zero =>
    have hi : arpXmitQueueSize ≤ i := by omega
    exact .inl ⟨fun j hj => absurd (hi.trans hj) (not_le.mpr j.isLt), delayed_over i hi⟩
  | succ n ih =>
    have hi : i < arpXmitQueueSize := by omega
    rw [delayed, dif_pos hi]
    dsimp only
    split
    · next hwaits =>
      rw [delayed_over (6 + 1) (by decide)]
      exact .inr ⟨⟨i, hi⟩, hwaits, _, rfl⟩
    · next hnot =>
      refine (ih (i + 1) (by omega)).imp_left fun hrest => ⟨fun j hj => ?_, hrest.2⟩
      obtain heq | hlt := Nat.eq_or_lt_of_le hj
      · obtain rfl : j = ⟨i, hi⟩ := Fin.ext heq.symm
        exact hnot
      · exact hrest.1 j hlt

theorem taken_ne {e : XmitQueueEntry} (h : e.Waits ipaddr) : e ≠ e.taken := by
  intro heq
  exact h.1 (congrArg XmitQueueEntry.p heq)

theorem filter_waits_eq_nil {s : Arp} :
    ((List.finRange arpXmitQueueSize).filter fun j => (s.queue j).Waits ipaddr) = [] ↔ ∀ j, ¬ (s.queue j).Waits ipaddr := by
  simp [List.filter_eq_nil_iff]

theorem resolves_of_found {s : Arp} {i : Fin arpTableSize}
    (hfind : (List.finRange arpTableSize).find? (fun i => (s.table i).Holds ipaddr) = some i) :
    s.Resolves devTransmit ipaddr ethaddr ↔
      (∃! i, (s.table i).Holds ipaddr) ∧ ∀ j, ¬ (s.queue j).Waits ipaddr := by
  have hrun : s.addArpEntry devTransmit ipaddr ethaddr = ({ s with
      table := update s.table i { s.table i with ethaddr := ethaddr, ctime := s.ctime } }, [], []) := by
    rw [addArpEntry, hfind]
  have hholds (x : Fin arpTableSize) :
      ((update s.table i { s.table i with ethaddr := ethaddr, ctime := s.ctime }) x).Holds ipaddr ↔
        (s.table x).Holds ipaddr := by
    by_cases hx : x = i
    · subst hx
      rw [update_self]
      rfl
    · rw [update_of_ne hx]
  constructor
  · rintro ⟨hsent, -, hentry⟩
    rw [hrun] at hsent hentry
    simp only [hholds] at hentry
    exact ⟨hentry, filter_waits_eq_nil.mp (List.map_eq_nil_iff.mp hsent.nil_eq.symm)⟩
  · rintro ⟨hentry, hnone⟩
    refine ⟨?_, fun j => ?_, ?_⟩ <;> rw [hrun]
    · rw [filter_waits_eq_nil.mpr hnone]
      exact List.Perm.refl []
    · rw [if_neg (hnone j)]
    · simpa only [hholds] using hentry

theorem resolves_of_none {s : Arp} (hnone : ∀ i, ¬ (s.table i).Holds ipaddr) :
    s.Resolves devTransmit ipaddr ethaddr ↔ isAny ipaddr = false ∧
      ∀ j j', (s.queue j).Waits ipaddr → (s.queue j').Waits ipaddr → j = j' := by
  have hfind : (List.finRange arpTableSize).find? (fun i => (s.table i).Holds ipaddr) = none := by simpa using hnone
  obtain ⟨i, hrun⟩ : ∃ i, s.addArpEntry devTransmit ipaddr ethaddr =
      ({ s with table := update s.table i ⟨ipaddr, ethaddr, s.ctime⟩
                queue := (delayed devTransmit ipaddr ethaddr 0 s.queue).1 },
        (delayed devTransmit ipaddr ethaddr 0 s.queue).2) := ⟨_, by rw [addArpEntry, hfind]⟩
  have hentry : (∃! x, ((update s.table i ⟨ipaddr, ethaddr, s.ctime⟩) x).Holds ipaddr) ↔
      isAny ipaddr = false := by
    have hholds (x : Fin arpTableSize) :
        ((update s.table i ⟨ipaddr, ethaddr, s.ctime⟩) x).Holds ipaddr ↔ x = i ∧ isAny ipaddr = false := by
      by_cases hx : x = i
      · subst hx
        simp [ArpEntry.Holds]
      · simp [hx, hnone x]
    simp only [hholds]
    exact ⟨fun ⟨x, hx, _⟩ => hx.2, fun h => ⟨i, ⟨rfl, h⟩, fun x hx => hx.1⟩⟩
  have hsplit : s.Resolves devTransmit ipaddr ethaddr ↔ isAny ipaddr = false ∧
      ((delayed devTransmit ipaddr ethaddr 0 s.queue).2.1.Perm (((List.finRange arpXmitQueueSize).filter fun j =>
          (s.queue j).Waits ipaddr).map fun j => (s.queue j).frame ethaddr) ∧
        ∀ j, (delayed devTransmit ipaddr ethaddr 0 s.queue).1 j =
          if (s.queue j).Waits ipaddr then (s.queue j).taken else s.queue j) := by
    constructor
    · rintro ⟨hsent, hqueue, hunique⟩
      rw [hrun] at hsent hunique
      simp only [hrun] at hqueue
      exact ⟨hentry.mp hunique, hsent, hqueue⟩
    · rintro ⟨hip, hsent, hqueue⟩
      refine ⟨?_, fun j => ?_, ?_⟩ <;> rw [hrun]
      exacts [hsent, hqueue j, hentry.mpr hip]
  rw [hsplit]
  refine and_congr_right fun _ => ?_
  obtain ⟨hidle, hdelayed⟩ | ⟨j, hwaits, freed, hdelayed⟩ := delayed_cases devTransmit ipaddr ethaddr s.queue 0
  · have hnone (j : Fin arpXmitQueueSize) : ¬ (s.queue j).Waits ipaddr := hidle j (Nat.zero_le _)
    rw [hdelayed, filter_waits_eq_nil.mpr hnone]
    exact iff_of_true ⟨List.Perm.refl [], fun j => (if_neg (hnone j)).symm⟩ fun j _ hj => absurd hj (hnone j)
  · rw [hdelayed]
    dsimp only
    constructor
    · rintro ⟨-, hqueue⟩
      have hall (x : Fin arpXmitQueueSize) (hx : (s.queue x).Waits ipaddr) : x = j := by
        by_contra hne
        have hkept := hqueue x
        rw [if_pos hx, update_of_ne hne] at hkept
        exact taken_ne hx hkept
      exact fun x y hx hy => (hall x hx).trans (hall y hy).symm
    · intro hunique
      have hperm : ((List.finRange arpXmitQueueSize).filter fun x => (s.queue x).Waits ipaddr).Perm [j] := by
        rw [List.perm_ext_iff_of_nodup ((List.nodup_finRange _).filter _) (List.nodup_singleton j)]
        intro x
        rw [List.mem_filter, List.mem_singleton, decide_eq_true_eq]
        exact ⟨fun hx => hunique x j hx.2 hwaits, fun hx => ⟨List.mem_finRange x, hx ▸ hwaits⟩⟩
      refine ⟨(hperm.map fun x => (s.queue x).frame ethaddr).symm, fun x => ?_⟩
      by_cases hx : x = j
      · subst hx
        rw [update_self, if_pos hwaits]
      · rw [update_of_ne hx, if_neg fun hwait => hx (hunique x j hwait hwaits)]

/-- Learning an address resolves what waits for it if and only if it is an address and, of the entries for it and the
packets that wait for it, there is at most one. -/
theorem resolves_iff (s : Arp) (devTransmit : Frame → ℤ) (ipaddr : UInt32) (ethaddr : EthAddr) :
    s.Resolves devTransmit ipaddr ethaddr ↔ isAny ipaddr = false ∧
      ((∃! i, (s.table i).Holds ipaddr) ∧ (∀ j, ¬ (s.queue j).Waits ipaddr) ∨
        (∀ i, ¬ (s.table i).Holds ipaddr) ∧ ∀ j j', (s.queue j).Waits ipaddr → (s.queue j').Waits ipaddr → j = j') := by
  cases hfind : (List.finRange arpTableSize).find? fun i => (s.table i).Holds ipaddr with
  | some i =>
    have hi : (s.table i).Holds ipaddr := by simpa using List.find?_some hfind
    have hip : isAny ipaddr = false := hi.2 ▸ hi.1
    rw [resolves_of_found hfind]
    exact ⟨fun h => ⟨hip, .inl h⟩, fun h => h.2.resolve_right fun hnone => hnone.1 i hi⟩
  | none =>
    have hnone : ∀ i, ¬ (s.table i).Holds ipaddr := by simpa using hfind
    rw [resolves_of_none hnone]
    refine and_congr_right fun _ => ⟨fun h => .inr ⟨hnone, h⟩, fun h => (h.resolve_left fun hone => ?_).2⟩
    obtain ⟨i, hi, -⟩ := hone.1
    exact hnone i hi

/-- Two packets wait for the address 10.0.0.9. -/
def twoWaiting : Arp where
  table := fun _ => ⟨0, fun _ => 0, 0⟩
  queue := fun j => ⟨1, fun _ => 2, if j.val < 2 then some j.val else none, 0x0900000A⟩
  ctime := 0

theorem second_packet_stays : ¬ ∀ (s : Arp) (devTransmit : Frame → ℤ) (ipaddr : UInt32) (ethaddr : EthAddr),
    s.Resolves devTransmit ipaddr ethaddr := by
  intro h
  have hnone (i : Fin arpTableSize) : ¬ (twoWaiting.table i).Holds 0x0900000A := fun hi => Bool.noConfusion hi.1
  have htwo := ((resolves_of_none hnone).mp (h twoWaiting (fun _ => 0) 0x0900000A fun _ => 3)).2
  exact absurd (htwo ⟨0, by decide⟩ ⟨1, by decide⟩ ⟨by decide, rfl⟩ ⟨by decide, rfl⟩) (by decide)

end Arp

end SimpleKernel.Net
