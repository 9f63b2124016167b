import SimpleKernel.Tcp.Handshake

/-! The maximum segment size and the congestion window of a connection. -/
namespace SimpleKernel.Tcp
open SeqNum

namespace Pcb
variable {p q : Pcb} {seg rest : RxSeg} {cb : Callbacks}

/-- There is room for a segment, and fast retransmission ends with room for one. -/
structure Paced (p : Pcb) : Prop where
  mss : 0 < p.snd.mss
  cwnd : 0 < p.snd.cwnd
  recovers : p.infr = true → 0 < p.snd.ssthresh

/-- `q` has the segment size and the windows of `p`. -/
structure SamePace (p q : Pcb) : Prop where
  mss : q.snd.mss = p.snd.mss
  cwnd : q.snd.cwnd = p.snd.cwnd
  ssthresh : q.snd.ssthresh = p.snd.ssthresh
  infr : q.infr = p.infr

theorem SamePace.refl (p : Pcb) : SamePace p p := ⟨rfl, rfl, rfl, rfl⟩

theorem Paced.of_same (h : Paced p) (hs : SamePace p q) : Paced q := by
  refine ⟨?_, ?_, fun hin => ?_⟩
  · rw [hs.mss]
    exact h.mss
  · rw [hs.cwnd]
    exact h.cwnd
  · rw [hs.ssthresh]
    exact h.recovers (hs.infr.symm.trans hin)

theorem SameButQueues.pace (h : SameButQueues p q) : SamePace p q := by
  refine ⟨?_, ?_, ?_, h.infr⟩ <;> rw [h.snd]

theorem SameSender.pace (h : SameSender p q) : SamePace p q := by
  refine ⟨?_, ?_, ?_, h.infr⟩ <;> rw [h.snd]

theorem tcpEnqueue_pace (p : Pcb) (data : List UInt8) (flags : Flags) (opt : List UInt8) (avail : ℕ) :
    SamePace p (p.tcpEnqueue data flags opt avail).1 := by
  rw [tcpEnqueue_eq]
  split
  · exact SamePace.refl p
  · split
    · exact SamePace.refl p
    · split
      · exact ⟨rfl, rfl, rfl, rfl⟩
      · exact ⟨rfl, rfl, rfl, rfl⟩

section
variable (h : Paced p)
include h

theorem Paced.output : Paced p.tcpOutput := h.of_same (tcpOutput_same p).pace

theorem Paced.timeout : Paced p.timeout := by
  have hr := h.of_same (tcpRexmit_same p).pace
  have hmss := hr.mss
  refine ⟨hmss, hmss, fun _ => ?_⟩
  simp only [Pcb.timeout]
  split <;> omega

theorem Paced.slowtmr (e : Expired) : Paced (p.slowtmr e) := by
  have hr : Paced (if e.rexmit ∧ p.snd.unacked ≠ [] then p.timeout else p) := by
    split
    · exact h.timeout
    · exact h
  rw [Pcb.slowtmr]
  by_cases hooseq : e.ooseq = true
  · rw [if_pos hooseq]
    exact hr.of_same ⟨rfl, rfl, rfl, rfl⟩
  · rw [if_neg hooseq]
    exact hr

theorem Paced.growWindow (n : ℕ) : Paced (p.growWindow n) := by
  have hcwnd := h.cwnd
  rw [Pcb.growWindow]
  split
  · exact ⟨h.mss, by dsimp only; omega, h.recovers⟩
  · exact h

theorem Paced.updateWindow (seg : RxSeg) : Paced (p.updateWindow seg) := by
  obtain ⟨wnd, wl1, wl2, -, heq⟩ := updateWindow_eq p seg
  rw [heq]
  exact h.of_same ⟨rfl, rfl, rfl, rfl⟩

theorem Paced.recover (flight : ℕ) : Paced { p with
    infr := true
    snd := { p.snd with
      ssthresh := max flight (2 * p.snd.mss), cwnd := max flight (2 * p.snd.mss) + 3 * p.snd.mss } } := by
  have hmss := h.mss
  exact ⟨hmss, by dsimp only; omega, fun _ => by dsimp only; omega⟩

theorem Paced.dupAck (edge : UInt32) : Paced (p.dupAck edge) := by
  have hcount : Paced { p with snd := { p.snd with acked := 0, dupacks := ushort (p.snd.dupacks + 1) } } :=
    h.of_same ⟨rfl, rfl, rfl, rfl⟩
  have hr := hcount.of_same (tcpRexmit_same _).pace
  rw [Pcb.dupAck]
  dsimp only
  split
  · split
    · split
      · exact hr.recover _
      · exact hcount.growWindow _
    · exact hcount
  · exact h.of_same ⟨rfl, rfl, rfl, rfl⟩

theorem Paced.endRetransmit : Paced p.endRetransmit := by
  rw [Pcb.endRetransmit]
  split
  · rename_i hin
    exact ⟨h.mss, h.recovers hin, fun hout => by cases hout⟩
  · exact h

theorem Paced.openWindow : Paced p.openWindow := by
  rw [Pcb.openWindow]
  dsimp only
  split
  · exact h
  · split
    · exact h.growWindow _
    · split
      · exact ⟨h.mss, by dsimp only; omega, h.recovers⟩
      · exact h

theorem Paced.newAck (ackno : UInt32) : Paced (p.newAck ackno) := by
  have hcounted : Paced (p.endRetransmit.countAck ackno) := h.endRetransmit.of_same ⟨rfl, rfl, rfl, rfl⟩
  rw [newAck_eq]
  exact hcounted.openWindow.of_same ⟨rfl, rfl, rfl, rfl⟩

theorem Paced.receiveAck (seg : RxSeg) : Paced (p.receiveAck seg) := by
  rw [Pcb.receiveAck]
  dsimp only
  split
  · have hw := h.updateWindow seg
    split
    · exact hw.dupAck _
    · split
      · exact hw.newAck _
      · exact hw
  · exact h

theorem Paced.receive (hreceive : p.tcpReceive seg = some (q, rest)) : Paced q :=
  (h.receiveAck seg).of_same (receiveData_sender hreceive).pace

end

/-- `tcp_process` reads the options of the segment: it acknowledges our SYN in `SYN_SENT`. -/
def ReadsOptions (p : Pcb) (seg : RxSeg) : Prop :=
  p.state = .synSent ∧ seg.flags.rst = false ∧ (seg.flags.ack = true ∨ seg.flags.syn = true) ∧
    ∃ syn segs, p.snd.unacked = syn :: segs ∧ seg.ackno = syn.seqno + 1

theorem Paced.parseopt (h : Paced p) (hmss : seg.mss ≠ some 0) : Paced (p.parseopt seg) := by
  rw [Pcb.parseopt]
  split
  · exact h
  · rename_i mss hopt
    have hpos : 0 < mss := Nat.pos_of_ne_zero fun h0 => hmss (by rw [hopt, h0])
    refine ⟨?_, h.cwnd, h.recovers⟩
    dsimp only
    split
    · decide
    · exact hpos

theorem Paced.processSynSent (h : Paced p) (hs : p.state = .synSent) (hrst : ¬ seg.flags.rst = true)
    (hmss : p.ReadsOptions seg → seg.mss ≠ some 0) : Paced (p.processSynSent seg) := by
  rcases processSynSent_cases p seg with heq | ⟨syn, rest, hun, hflags, hack, heq⟩
  · rw [heq]
    exact h
  · have hopened : Paced (p.synAcked seg rest) := ⟨h.mss, h.mss, h.recovers⟩
    have hread := hopened.parseopt (hmss ⟨hs, by simpa using hrst, hflags, syn, rest, hun, hack⟩)
    rw [heq]
    exact hread.of_same ⟨rfl, rfl, rfl, rfl⟩

theorem purge_pace (p : Pcb) : SamePace p p.purge := by
  rw [purge]
  split <;> exact ⟨rfl, rfl, rfl, rfl⟩

theorem Paced.afterReceive (h : Paced p) (seg : RxSeg) : Paced (p.afterReceive seg) := by
  have htw : Paced p.enterTimeWait := by
    have hpurged := h.of_same (q := { p with ackNow := true }) ⟨rfl, rfl, rfl, rfl⟩
    exact (hpurged.of_same (purge_pace _)).of_same ⟨rfl, rfl, rfl, rfl⟩
  have hstate (s : TcpState) (now closed : Bool) : Paced { p with ackNow := now, state := s, closed := closed } :=
    h.of_same ⟨rfl, rfl, rfl, rfl⟩
  unfold Pcb.afterReceive
  split
  · split
    · exact hstate _ _ p.closed
    · exact h
  · split
    · exact hstate _ _ p.closed
    · exact h
  · split
    · split
      · exact htw
      · exact hstate _ _ p.closed
    · split
      · exact hstate _ p.ackNow p.closed
      · exact h
  · split
    · exact htw
    · exact h
  · split
    · exact htw
    · exact h
  · split
    · exact hstate _ p.ackNow true
    · exact h
  · exact h

theorem Paced.process {aborted : Bool} (h : Paced p) (hmss : p.ReadsOptions seg → seg.mss ≠ some 0)
    (hprocess : p.tcpProcess seg cb = some (q, rest, aborted)) : (aborted = true ∧ q.state = .closed) ∨ Paced q := by
  cases tcpProcess_cases hprocess with
  | kept => exact .inr h
  | reset => exact .inr (h.of_same ⟨rfl, rfl, rfl, rfl⟩)
  | synSent hs hrst => exact .inr (h.processSynSent hs (by simp [hrst]) hmss)
  | refused hs => exact .inl ⟨rfl, rfl⟩
  | accepted hs hrst hack hreceive =>
    have hopened : Paced { p with state := .established } := h.of_same ⟨rfl, rfl, rfl, rfl⟩
    have hr := hopened.receive hreceive
    exact .inr ⟨hr.mss, hr.mss, hr.recovers⟩
  | timeWait hs next now => exact .inr (h.of_same ⟨rfl, rfl, rfl, rfl⟩)
  | received _ _ _ _ hreceive => exact .inr ((h.receive hreceive).afterReceive seg)

theorem Paced.close (h : Paced p) (avail : ℕ) : Paced (p.tcpClose avail).1 := by
  have hsent := h.of_same (tcpEnqueue_pace p [] { Flags.none with fin := true } [] avail)
  rw [tcpClose]
  dsimp only
  split
  · split
    · exact h.of_same ⟨rfl, rfl, rfl, rfl⟩
    · exact h
  · rename_i state _
    have hmoved : Paced { (p.tcpSendCtrl { Flags.none with fin := true } avail).1 with state := state } :=
      hsent.of_same ⟨rfl, rfl, rfl, rfl⟩
    split
    · exact hmoved.output
    · exact hsent

theorem Paced.finish (h : Paced p) (hf : Finish p q) : q.state = .closed ∨ Paced q := by
  have hkept (r : Receiver) : Paced { p with rcv := r } := h.of_same ⟨rfl, rfl, rfl, rfl⟩
  cases hf with
  | gone q hgone _ => exact .inl hgone
  | kept r _ => exact .inr (hkept r)
  | output r _ => exact .inr (hkept r).output
  | close r avail _ _ => exact .inr ((hkept r).close avail).output

theorem Paced.input (h : Paced p) (hmss : p.ReadsOptions seg → seg.mss ≠ some 0)
    (hstep : p.tcpInput seg cb = some q) : q.state = .closed ∨ Paced q := by
  obtain ⟨r, rest, aborted, q', hprocess, hq', rfl⟩ := tcpInput_cases hstep
  have hcleared : Paced p.cleared ∧ (p.cleared.ReadsOptions seg → p.ReadsOptions seg) := by
    rw [cleared]
    split
    · exact ⟨h.of_same ⟨rfl, rfl, rfl, rfl⟩, id⟩
    · exact ⟨h, id⟩
  have hr := hcleared.1.process (fun hread => hmss (hcleared.2 hread)) hprocess
  have hend : q'.state = .closed ∨ Paced q' := by
    rw [hq']
    rcases hr with ⟨haborted, hclosed⟩ | hr
    · rw [if_pos (.inl haborted)]
      exact .inl hclosed
    · split
      · exact .inr hr
      · exact hr.finish (finishInput_finish r cb)
  exact hend.imp id fun h => h.of_same ⟨rfl, rfl, rfl, rfl⟩

theorem Paced.write (h : Paced p) (data : List UInt8) (opt : WriteOpt) (avail : ℕ) :
    Paced (p.tcpWrite data opt avail).1 :=
  tcpWrite_keeps h (fun _ => h.of_same (tcpEnqueue_pace p data Flags.none [] avail)) (fun _ hq => hq.output) opt

theorem Paced.connect (p : Pcb) (hin : p.infr = false) (iss : UInt32) (avail : ℕ) : Paced (p.tcpConnect iss avail).1 := by
  have hmss : 0 < tcpMss := by decide
  have hfirst : Paced { p with
      state := .synSent
      snd := { p.snd with
        sndNxt := iss, lastack := iss - 1, sndLbb := iss - 1, sndWnd := tcpWnd, mss := tcpMss, cwnd := 1
        ssthresh := tcpMss * 10 }
      rcv := { p.rcv with rcvNxt := 0, rcvWnd := tcpWnd } } :=
    ⟨hmss, Nat.one_pos, fun h => absurd (hin.symm.trans h) (by decide)⟩
  have hsent := hfirst.of_same (tcpEnqueue_pace _ [] { Flags.none with syn := true } (mssOption tcpMss) avail)
  rw [tcpConnect]
  split
  · exact hsent.output
  · exact hsent

theorem Paced.listen {iss : UInt32} {avail : ℕ} (hmss : seg.mss ≠ some 0) (h : listenSyn seg iss avail = some p) :
    Paced p := by
  rw [listenSyn] at h
  split at h
  · obtain rfl := Option.some.inj h
    have hpos : 0 < tcpMss := by decide
    have hnew : Paced { tcpNew iss with
        state := .synRcvd
        snd := { (tcpNew iss).snd with sndWnd := seg.wnd, ssthresh := seg.wnd, sndWl1 := seg.seqno - 1 }
        rcv := { (tcpNew iss).rcv with rcvNxt := seg.seqno + 1 } } :=
      ⟨hpos, Nat.one_pos, fun h => by cases h⟩
    exact ((hnew.parseopt hmss).of_same (tcpEnqueue_pace _ _ _ _ _)).output
  · cases h

/-- The runs of a connection: the segments it receives, its timers and the calls of the application. A maximum segment
size of 0 is not offered in the segments whose options are read. -/
inductive Pacing : Pcb → Prop
  | connect {iss₀ : UInt32} (iss : UInt32) (avail : ℕ) : Pacing ((tcpNew iss₀).tcpConnect iss avail).1
  | listen {seg : RxSeg} {iss : UInt32} {avail : ℕ} {p : Pcb} : seg.mss ≠ some 0 → listenSyn seg iss avail = some p → Pacing p
  | input {p q : Pcb} (seg : RxSeg) (cb : Callbacks) : Pacing p → p.state ≠ .closed →
      (p.ReadsOptions seg → seg.mss ≠ some 0) → p.tcpInput seg cb = some q → Pacing q
  | slowtmr {p : Pcb} (e : Expired) : Pacing p → p.state ≠ .closed → Pacing (p.slowtmr e)
  | write {p : Pcb} (data : List UInt8) (opt : WriteOpt) (avail : ℕ) : Pacing p → p.state ≠ .closed →
      Pacing (p.tcpWrite data opt avail).1
  | recved {p : Pcb} (len : ℕ) : Pacing p → p.state ≠ .closed → Pacing (p.tcpRecved len)
  | output {p : Pcb} : Pacing p → p.state ≠ .closed → Pacing p.tcpOutput
  | close {p : Pcb} (avail : ℕ) : Pacing p → p.state ≠ .closed → Pacing (p.tcpClose avail).1

theorem Pacing.paced (h : Pacing p) : p.state = .closed ∨ Paced p := by
  induction h with
  | connect iss avail => exact .inr (Paced.connect _ rfl iss avail)
  | listen hmss h => exact .inr (Paced.listen hmss h)
  | input seg cb _ hopen hmss hstep ih => exact (ih.resolve_left hopen).input hmss hstep
  | slowtmr e _ hopen ih => exact .inr ((ih.resolve_left hopen).slowtmr e)
  | write data opt avail _ hopen ih => exact .inr ((ih.resolve_left hopen).write data opt avail)
  | recved len _ hopen ih => exact .inr ((ih.resolve_left hopen).of_same ⟨rfl, rfl, rfl, rfl⟩)
  | output _ hopen ih => exact .inr (ih.resolve_left hopen).output
  | close avail _ hopen ih => exact .inr ((ih.resolve_left hopen).close avail)

/-- What `mss * mss` is divided by when an acknowledgement of new data is received. -/
def divisor (p : Pcb) : ℕ := p.endRetransmit.snd.cwnd

/-- Until a connection is closed its segment size and its congestion window are positive, as is the divisor when the
window grows, and every segment that `tcp_enqueue` makes of data takes some of it. -/
theorem congestion_defined (h : Pacing p) (hopen : p.state ≠ .closed) :
    1 ≤ p.snd.mss ∧ 1 ≤ p.snd.cwnd ∧ 1 ≤ p.divisor ∧
      ∀ data : List UInt8, data ≠ [] → 1 ≤ min data.length p.snd.mss := by
  have hp := h.paced.resolve_left hopen
  refine ⟨hp.mss, hp.cwnd, hp.endRetransmit.cwnd, fun data hdata => ?_⟩
  have hlen := List.length_pos_iff.mpr hdata
  have hmss := hp.mss
  omega

/-- A connection that is opened by a handshake. -/
theorem congestion_defined_opened : ∃ p : Pcb, p.state = .established ∧ 1 ≤ p.snd.mss ∧ 1 ≤ p.snd.cwnd ∧
    1 ≤ p.divisor ∧ ∀ data : List UInt8, data ≠ [] → 1 ≤ min data.length p.snd.mss := by
  have h : Pacing ((tcpNew 6510).tcpConnect 6511 1).1 := .connect 6511 1
  have h' := h.input ⟨77, 6511, 1000, { Flags.none with syn := true, ack := true }, none, 0, none⟩
    ⟨none, none, none, 0⟩ (by decide) (fun _ => by decide) rfl
  exact ⟨_, rfl, congestion_defined h' (by decide)⟩

/-- A SYN with a window of 0 offers segments of 0 bytes. When the connection is open and our FIN is acknowledged, the
square of the segment size is divided by a congestion window of 0. -/
theorem congestion_undefined : ∃ p q r : Pcb,
    listenSyn ⟨100, 0, 0, { Flags.none with syn := true }, some 0, 0, none⟩ 7 4 = some p ∧
      p.tcpInput ⟨101, 8, 0, { Flags.none with ack := true }, none, 0, none⟩ ⟨some (0, 0), none, some 0, 4⟩ = some q ∧
      q.state = .established ∧ q.snd.mss = 0 ∧ q.snd.cwnd = 0 ∧
      r = (q.tcpClose 4).1 ∧ r.state = .finWait1 ∧ seqLt r.snd.lastack 9 ∧ seqLeq 9 r.snd.sndMax ∧
      ¬ r.endRetransmit.snd.cwnd < r.endRetransmit.snd.ssthresh ∧ r.divisor = 0 :=
  ⟨_, _, _, rfl, rfl, rfl, rfl, rfl, rfl, rfl, by decide, by decide, by decide, rfl⟩

end Pcb

end SimpleKernel.Tcp
