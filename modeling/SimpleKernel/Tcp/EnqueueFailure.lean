import SimpleKernel.Tcp.Enqueue

/-! When a `tcp_enqueue` that fails has changed nothing. -/
namespace SimpleKernel.Tcp
open SeqNum

/-- How much of the data goes into the spare room of the last buffer of a segment. -/
def SendSeg.room (useg : SendSeg) (mss : ℕ) (data : List UInt8) : ℕ :=
  match useg.bufs.getLast? with
  | none => 0
  | some b => (min (min b.spare data.length) (mss - useg.len)).toNat

/-- How much of the data goes into the last unsent segment. -/
def Sender.room (s : Sender) (data : List UInt8) : ℕ :=
  match s.unsent.getLast? with
  | none => 0
  | some useg => useg.room s.mss data

/-- How many segments the rest of the data needs. -/
def Sender.needed (s : Sender) (data : List UInt8) : ℕ := (data.length - s.room data + s.mss - 1) / s.mss

theorem SendSeg.fill_room (useg : SendSeg) (mss : ℕ) (data : List UInt8) :
    (useg.fill mss data).2 = useg.room mss data ∧ (useg.fill mss data).1.len = useg.len + useg.room mss data ∧
      (useg.room mss data = 0 → (useg.fill mss data).1 = useg) := by
  cases hlast : useg.bufs.getLast? with
  | none => simp [fill, room, hlast]
  | some b =>
    have hmin : (if (useg.len : ℤ) + min b.spare data.length > mss then (mss : ℤ) - useg.len
        else min b.spare data.length) = min (min b.spare data.length) (mss - useg.len) := by
      split <;> omega
    simp only [fill, room, hlast, hmin]
    generalize min (min b.spare (data.length : ℤ)) (mss - useg.len) = buflen
    split
    · exact ⟨rfl, rfl, fun hzero => by omega⟩
    · have hzero : buflen.toNat = 0 := by omega
      rw [hzero]
      exact ⟨rfl, rfl, fun _ => rfl⟩

namespace Sender
variable {mss : ℕ}

theorem fillLast_room (s : Sender) (data : List UInt8) :
    (fillLast s.mss data s.unsent).2 = s.room data ∧
      ((fillLast s.mss data s.unsent).1 = s.unsent ↔ s.room data = 0) := by
  rw [room]
  rcases List.eq_nil_or_concat s.unsent with hnil | ⟨init, useg, hlast⟩
  · rw [hnil]
    exact ⟨rfl, fun _ => rfl, fun _ => rfl⟩
  · rw [List.concat_eq_append] at hlast
    obtain ⟨hcount, hlen, hsame⟩ := useg.fill_room s.mss data
    rw [hlast, fillLast_concat, List.getLast?_concat]
    dsimp only
    refine ⟨hcount, fun heq => ?_, fun hzero => by rw [hsame hzero]⟩
    have hseg : (useg.fill s.mss data).1 = useg := by simpa using heq
    rw [hseg] at hlen
    omega

theorem length_makeSegs (flags : Flags) (turns : ℕ) (seqno : UInt32) (left : List UInt8) (hpos : 0 < mss)
    (hleft : left ≠ []) (hturns : left.length ≤ turns) :
    (makeSegs mss flags [] turns seqno left).length = (left.length + mss - 1) / mss := by
  induction turns generalizing seqno left with
  | zero =>
    have := List.length_pos_iff.mpr hleft
    omega
  | succ turns ih =>
    have hlen := List.length_pos_iff.mpr hleft
    have hdrop : (left.drop (min left.length mss)).length = left.length - min left.length mss := List.length_drop
    rw [makeSegs, List.length_cons]
    split
    · next hrest =>
      have hle : left.length ≤ mss := by
        rw [hrest, List.length_nil] at hdrop
        omega
      rw [List.length_nil, Nat.div_eq_of_lt_le]
      · omega
      · omega
    · next hrest =>
      have hlong := List.length_pos_iff.mpr hrest
      rw [ih _ _ hrest (by omega), hdrop, Nat.min_eq_right (by omega)]
      have heq : left.length + mss - 1 = (left.length - mss + mss - 1) + mss := by omega
      rw [heq, Nat.add_div_right _ hpos]

end Sender

namespace Pcb

/-- The queues with the contents of their segments, `snd_lbb`, `snd_buf` and `snd_queuelen` are those of `p`. -/
structure Unchanged (p q : Pcb) : Prop where
  unsent : q.snd.unsent = p.snd.unsent
  unacked : q.snd.unacked = p.snd.unacked
  sndLbb : q.snd.sndLbb = p.snd.sndLbb
  sndBuf : q.snd.sndBuf = p.snd.sndBuf
  sndQueuelen : q.snd.sndQueuelen = p.snd.sndQueuelen

/-- Nothing goes into the last unsent segment: the call has options or flags, or there is no room. -/
def FillsNothing (p : Pcb) (data : List UInt8) (flags : Flags) (opt : List UInt8) : Prop :=
  opt ≠ [] ∨ flags ≠ Flags.none ∨ p.snd.room data = 0

theorem room_pos {s : Sender} {data : List UInt8} (h : s.room data ≠ 0) : 0 < s.mss := by
  rw [Sender.room] at h
  split at h
  · exact absurd rfl h
  · rw [SendSeg.room] at h
    split at h
    · exact absurd rfl h
    · omega

theorem length_newSegs {s : Sender} {data : List UInt8} (h : s.room data ≠ 0) :
    (newSegs s data Flags.none []).length = s.needed data := by
  have hpos := room_pos h
  have hcount := (s.fillLast_room data).1
  simp only [newSegs, filled, and_self, if_true, hcount]
  rw [Sender.needed, ← List.length_drop]
  split
  · next hleft =>
    have hleft : data.drop (s.room data) ≠ [] := by simpa using hleft
    exact Sender.length_makeSegs _ _ _ _ hpos hleft (by omega)
  · next hnone =>
    have hleft : data.drop (s.room data) = [] := by simpa using hnone
    have hlt : 0 + s.mss - 1 < s.mss := by omega
    rw [hleft]
    exact (Nat.div_eq_of_lt hlt).symm

/-- A `tcp_enqueue` that fails changes nothing, except when data went into the last unsent segment before there were
too few segments for the rest. -/
theorem tcpEnqueue_unchanged_iff (p : Pcb) (data : List UInt8) (flags : Flags) (opt : List UInt8) (avail : ℕ) :
    (∀ e, (p.tcpEnqueue data flags opt avail).2 = .error e → Unchanged p (p.tcpEnqueue data flags opt avail).1) ↔
      p.snd.sndBuf < data.length ∨ tcpSndQueuelen ≤ p.snd.sndQueuelen ∨ FillsNothing p data flags opt ∨
        p.snd.needed data ≤ avail ∧ p.snd.sndQueuelen + p.snd.needed data ≤ tcpSndQueuelen := by
  rw [tcpEnqueue_eq]
  split
  · next hlong => exact ⟨fun _ => .inl hlong, fun _ _ _ => ⟨rfl, rfl, rfl, rfl, rfl⟩⟩
  next hlong =>
  split
  · next hfull => exact ⟨fun _ => .inr (.inl hfull), fun _ _ _ => ⟨rfl, rfl, rfl, rfl, rfl⟩⟩
  next hfull =>
  rcases Classical.em (opt = [] ∧ flags = Flags.none) with ⟨rfl, rfl⟩ | hplain
  rotate_left
  -- no segment is filled
  · have hfilled : (filled p.snd data flags opt).1 = p.snd.unsent := by
      rw [filled, if_neg hplain]
    have hnothing : FillsNothing p data flags opt := by
      rw [not_and_or] at hplain
      exact hplain.imp_right .inl
    refine ⟨fun _ => .inr (.inr (.inl hnothing)), fun _ => ?_⟩
    split
    · exact fun _ _ => ⟨hfilled, rfl, rfl, rfl, rfl⟩
    · intro e he
      cases he
  have hfilled : (filled p.snd data Flags.none []).1 = p.snd.unsent ↔ p.snd.room data = 0 :=
    (p.snd.fillLast_room data).2
  by_cases hroom : p.snd.room data = 0
  · refine ⟨fun _ => .inr (.inr (.inl (.inr (.inr hroom)))), fun _ => ?_⟩
    split
    · exact fun _ _ => ⟨hfilled.mpr hroom, rfl, rfl, rfl, rfl⟩
    · intro e he
      cases he
  have hfills : ¬ FillsNothing p data Flags.none [] := by simpa [FillsNothing] using hroom
  rw [length_newSegs hroom]
  split
  · next hfew =>
    constructor
    · intro h
      exact absurd (hfilled.mp (h _ rfl).unsent) hroom
    · rintro (h | h | h | h)
      · exact absurd h hlong
      · exact absurd h hfull
      · exact absurd h hfills
      · omega
  · next henough =>
    refine ⟨fun _ => .inr (.inr (.inr (by omega))), fun _ e he => ?_⟩
    cases he

/-- A connection with an MSS of 60 and one byte that has not been sent. -/
def oneByteUnsent : Pcb :=
  { tcpNew 0 with
    state := .established
    snd := { (tcpNew 0).snd with
      unsent := [⟨0, Flags.none, 1, [⟨60, [], [7]⟩]⟩], mss := 60, sndLbb := 1, sndBuf := tcpSndBuf - 1
      sndQueuelen := 1 } }

/-- Five bytes fit into the last segment, and no segment can be allocated for the sixth. -/
theorem failed_enqueue_fills : ¬ ∀ (p : Pcb) (data : List UInt8) (flags : Flags) (opt : List UInt8) (avail : ℕ) e,
    (p.tcpEnqueue data flags opt avail).2 = .error e → Unchanged p (p.tcpEnqueue data flags opt avail).1 := by
  intro h
  have hsame := (h oneByteUnsent [1, 2, 3, 4, 5, 6] Flags.none [] 0 .enomem rfl).unsent
  have hlens : ([6] : List ℕ) = [1] := congrArg (List.map SendSeg.len) hsame
  exact absurd hlens (by decide)

end Pcb

end SimpleKernel.Tcp
