import SimpleKernel.Tcp.Enqueue

/-! The send queue over the runs of a connection. -/
namespace SimpleKernel.Tcp
open SeqNum

namespace Pcb
variable {p q : Pcb} {written : List UInt8} {acked : ℕ} {seg : RxSeg}

/-- The send queue: what follows the acknowledged part of the written data is in its segments. The first one that
was sent begins not far behind the last acknowledgement, and in `SYN_SENT` the first one is our SYN. -/
structure SendInv (p : Pcb) (written : List UInt8) (acked : ℕ) : Prop where
  queue : ∃ a, Queue p.snd.segs a p.snd.sndLbb (written.drop acked) p.snd.sndQueuelen
  few : p.snd.sndQueuelen ≤ tcpSndQueuelen
  acked : acked ≤ written.length
  mss : 0 < p.snd.mss ∧ p.snd.mss ≤ tcpMss
  wnd : p.snd.sndWnd < 2 ^ 16
  front : ∀ s ss, p.snd.unacked = s :: ss →
    ∃ g : ℤ, s.seqno = p.snd.lastack + num g ∧ 0 ≤ g + s.tcplen ∧ g ≤ 2 ^ 16
  syn : p.state = .synSent → ∃ syn ss, p.snd.segs = syn :: ss ∧ syn.flags.syn = true

theorem head_of_core {l m : List SendSeg} (h : l.map SendSeg.core = m.map SendSeg.core)
    (hl : ∃ syn ss, l = syn :: ss ∧ syn.flags.syn = true) : ∃ syn ss, m = syn :: ss ∧ syn.flags.syn = true := by
  obtain ⟨syn, ss, rfl, hsyn⟩ := hl
  cases m with
  | nil => simp at h
  | cons t ts =>
    simp only [List.map_cons, List.cons.injEq] at h
    exact ⟨t, ts, rfl, (SendSeg.eq_of_core h.1).2.2.2.2 ▸ hsyn⟩

theorem SendInv.fits (h : SendInv p written acked) : ∀ s ∈ p.snd.segs, s.Fits := by
  obtain ⟨a, hq⟩ := h.queue
  exact hq.fits

theorem SameQueues.segs (hs : SameQueues p q) : q.snd.segs = p.snd.segs := by
  rw [Sender.segs, Sender.segs, hs.unacked, hs.unsent]

theorem SendInv.of_queues (h : SendInv p written acked) (hs : SameQueues p q) : SendInv q written acked := by
  have hsegs := hs.segs
  refine ⟨?_, ?_, h.acked, ?_, ?_, ?_, ?_⟩
  · rw [hsegs, hs.sndLbb, hs.sndQueuelen]
    exact h.queue
  · rw [hs.sndQueuelen]
    exact h.few
  · rw [hs.mss]
    exact h.mss
  · rw [hs.sndWnd]
    exact h.wnd
  · rw [hs.unacked, hs.lastack]
    exact h.front
  · rw [hs.receiver.state, hsegs]
    exact h.syn

theorem Sends.core {sent rest : List SendSeg} (hs : Sends p q sent rest) (hfits : ∀ s ∈ p.snd.segs, s.Fits) :
    q.snd.unacked = p.snd.unacked ++ sent.map (·.mark p.state) ∧
      p.snd.segs.map SendSeg.core = q.snd.segs.map SendSeg.core := by
  have hall : sent.filter (fun s => decide (0 < s.tcplen)) = sent := by
    rw [List.filter_eq_self]
    intro s hmem
    have hf := (hfits s (by simp [Sender.segs, hs.unsent, hmem])).counts
    simpa using hf
  have hunacked := hs.unacked
  rw [hall] at hunacked
  rw [Sender.segs, Sender.segs, hunacked, hs.unsent, hs.left]
  simp [SendSeg.core_mark]

theorem SendInv.output (h : SendInv p written acked) : SendInv p.tcpOutput written acked := by
  obtain ⟨sent, rest, hs⟩ := tcpOutput_sends p
  obtain ⟨hunacked, hcore⟩ := hs.core h.fits
  have hsnd := hs.same.snd
  refine ⟨?_, ?_, h.acked, ?_, ?_, ?_, ?_⟩
  · obtain ⟨a, hq⟩ := h.queue
    rw [hsnd]
    exact ⟨a, hq.of_core hcore⟩
  · rw [hsnd]
    exact h.few
  · rw [hsnd]
    exact h.mss
  · rw [hsnd]
    exact h.wnd
  · have hlast : p.tcpOutput.snd.lastack = p.snd.lastack := by rw [hsnd]
    rw [hunacked, hlast]
    intro s ss hcons
    cases hun : p.snd.unacked with
    | cons t ts =>
      rw [hun] at hcons
      obtain ⟨rfl, -⟩ := List.cons.inj hcons
      exact h.front t ts hun
    | nil =>
      rw [hun] at hcons
      cases sent with
      | nil => cases hcons
      | cons t ts =>
        obtain ⟨rfl, -⟩ := List.cons.inj hcons
        have hfits := hs.fits t ts rfl
        have hwnd := h.wnd
        rw [SendSeg.mark_seqno, SendSeg.mark_tcplen]
        generalize hw : t.seqno - p.snd.lastack + num t.len = w at hfits
        have hlen : t.len ≤ t.tcplen := Nat.le_add_right _ _
        refine ⟨w.toNat - t.len, ?_, by omega, by omega⟩
        rw [num_sub, num_toNat]
        grind
  · intro hstate
    rw [hs.same.state] at hstate
    exact head_of_core hcore (h.syn hstate)

theorem SendInv.rexmit (h : SendInv p written acked) : SendInv p.tcpRexmit written acked := by
  rw [tcpRexmit]
  split
  · exact h
  · rename_i s ss hun
    have hsegs : s :: ss ++ p.snd.unsent = p.snd.segs := by rw [Sender.segs, hun]
    apply SendInv.output
    refine ⟨?_, h.few, h.acked, h.mss, h.wnd, fun _ _ h => (by cases h), ?_⟩
    · obtain ⟨a, hq⟩ := h.queue
      rw [← hsegs] at hq
      exact ⟨a, hq⟩
    · intro hstate
      have hsyn := h.syn hstate
      rw [← hsegs] at hsyn
      exact hsyn

theorem rexmit_core (hfits : ∀ s ∈ p.snd.segs, s.Fits) :
    p.snd.segs.map SendSeg.core = p.tcpRexmit.snd.segs.map SendSeg.core := by
  rw [tcpRexmit]
  split
  · rfl
  · rename_i s ss hun
    obtain ⟨sent, rest, hs⟩ := tcpOutput_sends { p with snd := { p.snd with
      unsent := s :: ss ++ p.snd.unsent, unacked := [], sndNxt := s.seqno } }
    have hsegs : p.snd.segs = s :: ss ++ p.snd.unsent := by rw [Sender.segs, hun]
    rw [hsegs] at hfits ⊢
    exact (hs.core hfits).2

/-- An acknowledgement is of new data, and of data that was sent. -/
def takesAck (p : Pcb) (ackno : UInt32) : Prop :=
  p.snd.lastack ≠ ackno ∧ seqLt p.snd.lastack ackno ∧ seqLeq ackno p.snd.sndMax

instance (p : Pcb) (ackno : UInt32) : Decidable (p.takesAck ackno) := inferInstanceAs (Decidable (_ ∧ _ ∧ _))

/-- The bytes of the segments at the front of the queue that an acknowledgement covers. -/
def coveredBytes (p : Pcb) (ackno : UInt32) : ℕ :=
  ((p.snd.segs.takeWhile (covered ackno)).map SendSeg.len).sum

theorem sum_takeWhile (l : List SendSeg) (c : SendSeg → Bool) (f : SendSeg → ℕ) :
    ((l.takeWhile c).map f).sum + ((l.dropWhile c).map f).sum = (l.map f).sum := by
  rw [← List.sum_append, ← List.map_append, List.takeWhile_append_dropWhile]

theorem SendInv.extent_le (h : SendInv p written acked) : extent p.snd.segs ≤ 2 ^ 17 := by
  obtain ⟨a, hq⟩ := h.queue
  have hext := hq.extent_le
  have hfew : p.snd.sndQueuelen * (tcpMss + 1) ≤ tcpSndQueuelen * (tcpMss + 1) := Nat.mul_le_mul_right _ h.few
  have hmax : tcpSndQueuelen * (tcpMss + 1) ≤ 2 ^ 17 := by decide
  omega

theorem SendInv.dropWhile_covered (h : SendInv p written acked) {ackno : UInt32} (hlt : seqLt p.snd.lastack ackno) :
    p.snd.segs.dropWhile (covered ackno) =
        p.snd.unacked.dropWhile (covered ackno) ++ p.snd.unsent.dropWhile (covered ackno) ∧
      ∀ s ss, p.snd.unacked.dropWhile (covered ackno) = s :: ss →
        ∃ g : ℤ, s.seqno = ackno + num g ∧ 0 ≤ g + s.tcplen ∧ g ≤ 2 ^ 16 := by
  cases hun : p.snd.unacked with
  | nil => exact ⟨by rw [Sender.segs, hun]; rfl, fun s ss hs => by simp at hs⟩
  | cons t ts =>
    obtain ⟨a, hq⟩ := h.queue
    obtain ⟨g, hseqno, hpos, hg⟩ := h.front t ts hun
    obtain ⟨e, he, hmax, hackno⟩ := exists_of_seqLt hlt
    have hsegs : p.snd.segs = t :: ts ++ p.snd.unsent := by rw [Sender.segs, hun]
    have hext := h.extent_le
    rw [hsegs] at hq hext ⊢
    have hstart : a = num (p.snd.lastack.toNat + g) := by
      rw [← hq.follows.1, hseqno, num_add, num_toNat]
    have hack : ackno = num (p.snd.lastack.toNat + e) := by
      rw [hackno, num_add, num_toNat]
    rw [hstart] at hq
    obtain ⟨hsplit, hfront⟩ := hq.dropWhile_covered hext hack (by omega) (fun s ss hs => by
      obtain ⟨rfl, -⟩ := List.cons.inj hs
      omega)
    refine ⟨hsplit, fun s ss hs => ?_⟩
    obtain ⟨g', hseqno', hpos', hg'⟩ := hfront s ss hs
    exact ⟨g', hseqno', by omega, by omega⟩

theorem newAck_removes {a ackno : UInt32} {d : List UInt8}
    (hq : Queue p.snd.segs a p.snd.sndLbb d p.snd.sndQueuelen) (hfew : p.snd.sndQueuelen ≤ tcpSndQueuelen)
    (hdrop : p.snd.segs.dropWhile (covered ackno) =
      p.snd.unacked.dropWhile (covered ackno) ++ p.snd.unsent.dropWhile (covered ackno)) :
    (p.newAck ackno).snd.unacked = p.snd.unacked.dropWhile (covered ackno) ∧
      (p.newAck ackno).snd.unsent = p.snd.unsent.dropWhile (covered ackno) ∧
      (p.newAck ackno).snd.sndQueuelen =
        p.snd.sndQueuelen - ((p.snd.segs.takeWhile (covered ackno)).map fun s => s.bufs.length).sum := by
  have hack := newAck_acknowledges p ackno
  have hmax : tcpSndQueuelen < 2 ^ 16 := by decide
  have hbufs := hq.bufs
  obtain ⟨b, d₁, d₂, n₁, n₂, hl, hm, -, hn⟩ := Queue.split hq
  have hremoved : Sender.removeAcked ackno p.snd.unacked (n₁ + n₂) = _ := hl.removeAcked_eq (by omega)
  have hsum₁ := sum_takeWhile p.snd.unacked (covered ackno) fun s => s.bufs.length
  have hsum₂ := sum_takeWhile p.snd.unsent (covered ackno) fun s => s.bufs.length
  have hsum := sum_takeWhile p.snd.segs (covered ackno) fun s => s.bufs.length
  have hn₁ := hl.bufs
  have hn₂ := hm.bufs
  rw [hdrop, List.map_append, List.sum_append] at hsum
  obtain ⟨k, hk⟩ : ∃ k, n₁ + n₂ - ((p.snd.unacked.takeWhile (covered ackno)).map fun s => s.bufs.length).sum = n₂ + k :=
    ⟨n₁ - ((p.snd.unacked.takeWhile (covered ackno)).map fun s => s.bufs.length).sum, by omega⟩
  have hunacked := hack.unacked
  have hunsent := hack.unsent
  have hlen := hack.sndQueuelen
  rw [hn, hremoved] at hunacked
  rw [hn, hremoved] at hunsent hlen
  dsimp only at hunacked hunsent hlen
  rw [hk] at hunsent hlen
  obtain ⟨hu, hul⟩ : (Sender.removeUnsent ackno p.snd.unsent (n₂ + k) p.snd.sndNxt).1 = _ ∧
      (Sender.removeUnsent ackno p.snd.unsent (n₂ + k) p.snd.sndNxt).2.1 = _ := hm.removeUnsent_eq _ (by omega)
  rw [hu] at hunsent
  refine ⟨hunacked, hunsent, ?_⟩
  omega

theorem newAck_segs (h : SendInv p written acked) {ackno : UInt32} (hlt : seqLt p.snd.lastack ackno) :
    (p.newAck ackno).snd.segs = p.snd.segs.dropWhile (covered ackno) ∧
      (p.newAck ackno).snd.sndQueuelen =
        p.snd.sndQueuelen - ((p.snd.segs.takeWhile (covered ackno)).map fun s => s.bufs.length).sum ∧
      ∀ s ss, (p.newAck ackno).snd.unacked = s :: ss →
        ∃ g : ℤ, s.seqno = ackno + num g ∧ 0 ≤ g + s.tcplen ∧ g ≤ 2 ^ 16 := by
  obtain ⟨hdrop, hfront⟩ := h.dropWhile_covered hlt
  obtain ⟨a, hq⟩ := h.queue
  obtain ⟨hunacked, hunsent, hlen⟩ := newAck_removes hq h.few hdrop
  refine ⟨?_, hlen, ?_⟩
  · rw [Sender.segs, hunacked, hunsent, hdrop]
  · rw [hunacked]
    exact hfront

theorem SendInv.newAck (h : SendInv p written acked) (hstate : p.state ≠ .synSent) {ackno : UInt32}
    (hlt : seqLt p.snd.lastack ackno) :
    SendInv (p.newAck ackno) written (acked + p.coveredBytes ackno) := by
  have hack := newAck_acknowledges p ackno
  obtain ⟨hsegs, hlen, hfront⟩ := newAck_segs h hlt
  obtain ⟨a, hq⟩ := h.queue
  have hsplit : p.snd.segs.takeWhile (covered ackno) ++ p.snd.segs.dropWhile (covered ackno) = p.snd.segs :=
    List.takeWhile_append_dropWhile
  have hbytes : p.coveredBytes ackno = ((p.snd.segs.takeWhile (covered ackno)).flatMap SendSeg.data).length := by
    rw [coveredBytes, List.length_flatMap]
    congr 1
    apply List.map_congr_left
    intro s hs
    exact (h.fits s (List.takeWhile_subset _ hs)).len
  have hq' := hq
  rw [← hsplit] at hq'
  obtain ⟨b, d₁, d₂, n₁, n₂, htaken, hleft, hd, hn⟩ := hq'.split
  have hd₁ : p.coveredBytes ackno = d₁.length := by rw [hbytes, htaken.data]
  have htotal : (written.drop acked).length = d₁.length + d₂.length := by rw [hd, List.length_append]
  rw [List.length_drop] at htotal
  have hacked := h.acked
  refine ⟨⟨b, ?_⟩, ?_, by omega, ?_, ?_, ?_, ?_⟩
  · rw [hsegs, hlen, hack.sndLbb, htaken.bufs, hn]
    have hd₂ : written.drop (acked + p.coveredBytes ackno) = d₂ := by
      rw [← List.drop_drop, hd, hd₁, List.drop_left]
    have hn₂ : n₁ + n₂ - n₁ = n₂ := by omega
    rw [hd₂, hn₂]
    exact hleft
  · have hfew := h.few
    omega
  · rw [hack.mss]
    exact h.mss
  · rw [hack.sndWnd]
    exact h.wnd
  · rw [hack.lastack]
    exact hfront
  · intro hs
    rw [hack.receiver.state] at hs
    exact absurd hs hstate

theorem SendInv.updateWindow (h : SendInv p written acked) (seg : RxSeg) (hwnd : seg.wnd < 2 ^ 16) :
    SendInv (p.updateWindow seg) written acked := by
  obtain ⟨wnd, wl1, wl2, hcases, heq⟩ := updateWindow_eq p seg
  rw [heq]
  refine ⟨h.queue, h.few, h.acked, h.mss, ?_, h.front, h.syn⟩
  rcases hcases with rfl | rfl
  · exact h.wnd
  · exact hwnd

/-- The bytes whose segments a segment acknowledges. -/
def ackedBytes (p : Pcb) (seg : RxSeg) : ℕ :=
  if p.state ≠ .synSent ∧ seg.flags.ack = true ∧ p.takesAck seg.ackno then p.coveredBytes seg.ackno else 0

/-- What a connection does with the acknowledgement of a segment. -/
def processAck (p : Pcb) (seg : RxSeg) : Pcb :=
  if p.state = .synSent then p.processSynSent seg else p.receiveAck seg

theorem receiveAck_cases (p : Pcb) (seg : RxSeg) :
    (seg.flags.ack = true ∧ p.takesAck seg.ackno ∧
        p.receiveAck seg = (p.updateWindow seg).newAck seg.ackno) ∨
      (p.ackedBytes seg = 0 ∧ (p.receiveAck seg = p ∨ p.receiveAck seg = p.updateWindow seg ∨
        ∃ edge, p.receiveAck seg = (p.updateWindow seg).dupAck edge)) := by
  obtain ⟨wnd, wl1, wl2, -, hwindow⟩ := updateWindow_eq p seg
  have hlast : (p.updateWindow seg).snd.lastack = p.snd.lastack := by rw [hwindow]
  have hmax : (p.updateWindow seg).snd.sndMax = p.snd.sndMax := by rw [hwindow]
  rw [Pcb.receiveAck, ackedBytes]
  dsimp only
  rw [hlast, hmax]
  by_cases hflag : seg.flags.ack = true
  · rw [if_pos hflag]
    by_cases hdup : p.snd.lastack = seg.ackno
    · rw [if_pos hdup, if_neg (fun h => h.2.2.1 hdup)]
      exact .inr ⟨rfl, .inr (.inr ⟨_, rfl⟩)⟩
    · rw [if_neg hdup]
      by_cases hnew : seqLt p.snd.lastack seg.ackno ∧ seqLeq seg.ackno p.snd.sndMax
      · rw [if_pos hnew]
        exact .inl ⟨hflag, ⟨hdup, hnew⟩, rfl⟩
      · rw [if_neg hnew, if_neg (fun h => hnew h.2.2.2)]
        exact .inr ⟨rfl, .inr (.inl rfl)⟩
  · rw [if_neg hflag, if_neg (fun h => hflag h.2.1)]
    exact .inr ⟨rfl, .inl rfl⟩

theorem SendInv.dupAck (h : SendInv p written acked) (edge : UInt32) : SendInv (p.dupAck edge) written acked := by
  rcases dupAck_cases p edge with hs | ⟨r, hr, hs⟩
  · exact h.of_queues hs
  · exact ((h.of_queues hr).rexmit).of_queues hs

theorem SendInv.receiveAck (h : SendInv p written acked) (hstate : p.state ≠ .synSent) (hwnd : seg.wnd < 2 ^ 16) :
    SendInv (p.receiveAck seg) written (acked + p.ackedBytes seg) := by
  have hu := h.updateWindow seg hwnd
  rcases receiveAck_cases p seg with ⟨hflag, htakes, heq⟩ | ⟨hzero, heq | heq | ⟨edge, heq⟩⟩
  · obtain ⟨wnd, wl1, wl2, -, hwindow⟩ := updateWindow_eq p seg
    rw [heq, ackedBytes, if_pos ⟨hstate, hflag, htakes⟩]
    have hsame : (p.updateWindow seg).snd.lastack = p.snd.lastack ∧ (p.updateWindow seg).state = p.state ∧
        (p.updateWindow seg).coveredBytes seg.ackno = p.coveredBytes seg.ackno := by
      rw [hwindow]
      exact ⟨rfl, rfl, rfl⟩
    rw [← hsame.2.2]
    refine hu.newAck ?_ ?_
    · rw [hsame.2.1]
      exact hstate
    · rw [hsame.1]
      exact htakes.2.1
  · rw [heq, hzero]
    exact h
  · rw [heq, hzero]
    exact hu
  · rw [heq, hzero]
    exact hu.dupAck edge

theorem syn_first {a : UInt32} {d : List UInt8} (hq : Queue p.snd.segs a p.snd.sndLbb d p.snd.sndQueuelen)
    (hfirst : ∃ syn ss, p.snd.segs = syn :: ss ∧ syn.flags.syn = true) {rseg : SendSeg} {rest : List SendSeg}
    (hun : p.snd.unacked = rseg :: rest) : rseg.tcplen = 1 ∧ rseg.seqno = a ∧
      ∃ n, p.snd.sndQueuelen = 1 + n ∧ Queue (rest ++ p.snd.unsent) (rseg.seqno + 1) p.snd.sndLbb d n := by
  obtain ⟨syn, ss, hsegs, hsyn⟩ := hfirst
  have hsplit : p.snd.segs = [rseg] ++ (rest ++ p.snd.unsent) := by
    rw [Sender.segs, hun]
    rfl
  obtain rfl : rseg = syn := by
    rw [hsplit] at hsegs
    exact (List.cons.inj hsegs).1
  have hfits : rseg.Fits := hq.fits rseg (by simp [hsplit])
  obtain ⟨opt, hopt⟩ := hfits.syn hsyn
  have hdata : rseg.data = [] := by simp [SendSeg.data, hopt]
  have hlen : rseg.len = 0 := by rw [hfits.len, hdata, List.length_nil]
  have htcplen : rseg.tcplen = 1 := by
    rw [SendSeg.tcplen, hlen, if_pos (by simp [hsyn])]
  have hnext : rseg.next = rseg.seqno + 1 := by
    rw [SendSeg.next, htcplen]
    rfl
  rw [hsplit] at hq
  obtain ⟨b, d₁, d₂, n₁, n₂, hone, hrest, hd, hn⟩ := hq.split
  have hd₁ : d₁ = [] := by rw [← hone.data, ← hdata]; simp
  have hn₁ : n₁ = 1 := by rw [← hone.bufs]; simp [hopt]
  have hb : rseg.next = b := hone.follows.2
  refine ⟨htcplen, hone.follows.1, n₂, by rw [hn, hn₁], ?_⟩
  rw [hd, hd₁, ← hnext, hb]
  exact hrest

theorem SendInv.processSynSent (h : SendInv p written acked) (hstate : p.state = .synSent) (hwnd : seg.wnd < 2 ^ 16)
    (hmss : 0 < (p.processSynSent seg).snd.mss) : SendInv (p.processSynSent seg) written acked := by
  rcases processSynSent_cases p seg with heq | ⟨rseg, rest, hun, -, hack, heq⟩
  · rw [heq]
    exact h
  · obtain ⟨mss, hle, hopt⟩ := parseopt_eq (p.synAcked seg rest) seg
    rw [heq, hopt] at hmss ⊢
    dsimp only [synAcked] at hle hmss ⊢
    obtain ⟨a, hqueue⟩ := h.queue
    obtain ⟨-, -, n, hn, hq⟩ := syn_first hqueue (h.syn hstate) hun
    have hfew := h.few
    have hmax : tcpSndQueuelen < 2 ^ 16 := by decide
    have hlen : ushortSub p.snd.sndQueuelen 1 = n := by
      rw [ushortSub]
      omega
    have hmss' := h.mss
    refine ⟨⟨rseg.seqno + 1, ?_⟩, ?_, h.acked, ⟨hmss, by dsimp only at hle ⊢; omega⟩, hwnd, ?_, fun hs => by cases hs⟩
    · rw [hlen]
      exact hq
    · dsimp only
      omega
    · intro s ss hcons
      dsimp only at hcons ⊢
      rw [hcons] at hq
      refine ⟨0, ?_, by omega, by omega⟩
      rw [hq.follows.1, hack, num_zero, UInt32.add_zero]

theorem tcpEnqueue_ok {data : List UInt8} {flags : Flags} {opt : List UInt8} {avail : ℕ}
    (h : p.tcpEnqueue data flags opt avail = (q, .ok ())) :
    p.snd.sndQueuelen + (newSegs p.snd data flags opt).length ≤ tcpSndQueuelen ∧
      q = { p with snd := { p.snd with
        unsent := enqueued p.snd data flags opt
        sndLbb := p.snd.sndLbb + num ↑(data.length + if flags.counts then 1 else 0)
        sndBuf := ushortSub p.snd.sndBuf (data.length + if flags.counts then 1 else 0)
        sndQueuelen := ushort (p.snd.sndQueuelen + (newSegs p.snd data flags opt).length) } } := by
  rw [tcpEnqueue_eq] at h
  split at h
  · cases (Prod.mk.inj h).2
  · split at h
    · cases (Prod.mk.inj h).2
    · split at h
      · cases (Prod.mk.inj h).2
      · exact ⟨by omega, (Prod.mk.inj h).1.symm⟩

/-- What is made of the data and the flags goes behind the unsent segments. -/
def Appends (p : Pcb) (data : List UInt8) (flags : Flags) (opt : List UInt8) : Prop :=
  ∀ a d n, Queue p.snd.unsent a p.snd.sndLbb d n → Queue (enqueued p.snd data flags opt) a
    (p.snd.sndLbb + num ↑(data.length + if flags.counts then 1 else 0)) (d ++ data)
    (n + (newSegs p.snd data flags opt).length)

section
variable {data : List UInt8} {flags : Flags} {opt : List UInt8} {avail : ℕ}

theorem ok_queuelen (henqueue : p.tcpEnqueue data flags opt avail = (q, .ok ())) :
    q.snd.sndQueuelen = p.snd.sndQueuelen + (newSegs p.snd data flags opt).length ∧
      q.snd.sndQueuelen ≤ tcpSndQueuelen := by
  obtain ⟨hfew, rfl⟩ := tcpEnqueue_ok henqueue
  have hmax : tcpSndQueuelen < 2 ^ 16 := by decide
  have hlen : ushort (p.snd.sndQueuelen + (newSegs p.snd data flags opt).length) =
      p.snd.sndQueuelen + (newSegs p.snd data flags opt).length := by
    rw [ushort]
    omega
  exact ⟨hlen, Nat.le_trans (Nat.le_of_eq hlen) hfew⟩

theorem Appends.queue (hnew : p.Appends data flags opt) (henqueue : p.tcpEnqueue data flags opt avail = (q, .ok ()))
    {a : UInt32} {d : List UInt8} (hq : Queue p.snd.segs a p.snd.sndLbb d p.snd.sndQueuelen) :
    Queue q.snd.segs a q.snd.sndLbb (d ++ data) q.snd.sndQueuelen := by
  have hlen := (ok_queuelen henqueue).1
  obtain ⟨-, rfl⟩ := tcpEnqueue_ok henqueue
  obtain ⟨b, d₁, d₂, n₁, n₂, hl, hm, hd, hn⟩ := Queue.split hq
  rw [hlen]
  rw [hd, hn, List.append_assoc, Nat.add_assoc]
  exact hl.append (hnew b d₂ n₂ hm)

theorem enqueue_keepsSyn (henqueue : p.tcpEnqueue data flags opt avail = (q, .ok ()))
    (h : ∃ syn ss, p.snd.segs = syn :: ss ∧ syn.flags.syn = true) :
    ∃ syn ss, q.snd.segs = syn :: ss ∧ syn.flags.syn = true := by
  obtain ⟨-, rfl⟩ := tcpEnqueue_ok henqueue
  obtain ⟨syn, ss, hsegs, hsyn⟩ := h
  rw [Sender.segs] at hsegs ⊢
  cases hun : p.snd.unacked with
  | cons t ts =>
    rw [hun] at hsegs
    exact ⟨t, _, rfl, (List.cons.inj hsegs).1 ▸ hsyn⟩
  | nil =>
    rw [hun] at hsegs
    obtain ⟨t, ts, ht, hflags⟩ := enqueued_head hsegs data flags opt
    rw [ht]
    exact ⟨t, ts, rfl, hflags.trans hsyn⟩

theorem SendInv.enqueue (h : SendInv p written acked) (hnew : p.Appends data flags opt)
    (henqueue : p.tcpEnqueue data flags opt avail = (q, .ok ())) : SendInv q (written ++ data) acked := by
  obtain ⟨a, hq⟩ := h.queue
  have hacked := h.acked
  have hgrown := hnew.queue henqueue hq
  have hfew := (ok_queuelen henqueue).2
  have hsyn := enqueue_keepsSyn henqueue
  obtain ⟨-, rfl⟩ := tcpEnqueue_ok henqueue
  refine ⟨⟨a, ?_⟩, hfew, ?_, h.mss, h.wnd, h.front, fun hs => hsyn (h.syn hs)⟩
  · rw [List.drop_append_of_le_length hacked]
    exact hgrown
  · rw [List.length_append]
    omega

end

theorem appends_data (data : List UInt8) (hpos : 0 < p.snd.mss) (hmss : p.snd.mss ≤ tcpMss) :
    p.Appends data Flags.none [] := fun _ _ _ hq => enqueued_data hq hpos hmss

theorem appends_flags {flags : Flags} {opt : List UInt8} (hcounts : flags.counts = true)
    (hopt : flags.syn = true → opt ≠ []) (hmss : p.snd.mss ≤ tcpMss) : p.Appends [] flags opt := by
  intro a d n hq
  obtain ⟨hnew, hone⟩ := enqueued_flags hq hcounts hopt hmss
  have hnum : p.snd.sndLbb + num ↑(([] : List UInt8).length + if flags.counts then 1 else 0) = p.snd.sndLbb + 1 := by
    rw [if_pos hcounts]
    rfl
  rw [hone, List.append_nil, hnum]
  exact hnew

theorem enqueue_first {flags : Flags} {opt : List UInt8} {avail : ℕ} (hsegs : p.snd.segs = [])
    (hcounts : flags.counts = true) (henqueue : p.tcpEnqueue [] flags opt avail = (q, .ok ())) :
    ∃ s, q.snd.unacked = [] ∧ q.snd.unsent = [s] ∧ s.seqno = p.snd.sndLbb ∧ s.len = 0 ∧ s.flags = flags := by
  obtain ⟨hua, hun⟩ := List.append_eq_nil_iff.1 hsegs
  obtain ⟨-, rfl⟩ := tcpEnqueue_ok henqueue
  obtain ⟨buf, hnew, -⟩ := newSegs_flags p.snd (ne_none hcounts) opt
  have henqueued : enqueued p.snd [] flags opt = [⟨p.snd.sndLbb, flags, 0, [buf]⟩] := by
    simp [enqueued, filled_flags p.snd (ne_none hcounts), hun, hnew, Sender.linkSegs]
  exact ⟨_, hua, henqueued, rfl, rfl, rfl⟩

theorem sendInv_syn {flags : Flags} {opt : List UInt8} {avail : ℕ} (hun : p.snd.unsent = []) (hua : p.snd.unacked = [])
    (hlen : p.snd.sndQueuelen = 0) (hmss : 0 < p.snd.mss ∧ p.snd.mss ≤ tcpMss) (hwnd : p.snd.sndWnd < 2 ^ 16)
    (hsyn : flags.syn = true) (hopt : opt ≠ []) (henqueue : p.tcpEnqueue [] flags opt avail = (q, .ok ())) :
    SendInv q [] 0 := by
  have hcounts : flags.counts = true := by simp [Flags.counts, hsyn]
  have hsegs : p.snd.segs = [] := by rw [Sender.segs, hun, hua, List.append_nil]
  have hempty : Queue p.snd.segs p.snd.sndLbb p.snd.sndLbb [] p.snd.sndQueuelen := by
    rw [hsegs, hlen]
    exact .nil _
  have hqueue := (appends_flags hcounts (fun _ => hopt) hmss.2).queue henqueue hempty
  have hfew := (ok_queuelen henqueue).2
  obtain ⟨s, hua', hun', -, -, hflags⟩ := enqueue_first hsegs hcounts henqueue
  obtain ⟨-, rfl⟩ := tcpEnqueue_ok henqueue
  refine ⟨⟨_, hqueue⟩, hfew, Nat.le_refl _, hmss, hwnd, fun s ss h => ?_, fun _ => ⟨s, [], ?_, ?_⟩⟩
  · rw [hua'] at h
    cases h
  · rw [Sender.segs, hua', hun']
    rfl
  · rw [hflags, hsyn]

theorem SendInv.processAck (h : SendInv p written acked) (hwnd : seg.wnd < 2 ^ 16)
    (hmss : 0 < (p.processAck seg).snd.mss) :
    SendInv (p.processAck seg) written (acked + p.ackedBytes seg) := by
  rw [Pcb.processAck] at hmss ⊢
  split
  · rename_i hstate
    rw [if_pos hstate] at hmss
    rw [ackedBytes, if_neg (fun h => h.1 hstate)]
    exact h.processSynSent hstate hwnd hmss
  · rename_i hstate
    exact h.receiveAck hstate hwnd

theorem tcpEnqueue_mss (p : Pcb) (data : List UInt8) (flags : Flags) (opt : List UInt8) (avail : ℕ) :
    (p.tcpEnqueue data flags opt avail).1.snd.mss = p.snd.mss := by
  rw [tcpEnqueue_eq]
  split
  · rfl
  · split
    · rfl
    · split <;> rfl

theorem tcpEnqueue_error {flags : Flags} {opt : List UInt8} {avail : ℕ} (hcounts : flags.counts = true)
    (h : (p.tcpEnqueue [] flags opt avail).2 ≠ .ok ()) : (p.tcpEnqueue [] flags opt avail).1 = p := by
  have hfilled := filled_flags p.snd (ne_none hcounts) [] opt
  rw [tcpEnqueue_eq, hfilled] at h ⊢
  split
  · rfl
  · split
    · rfl
    · rename_i hqueue
      rw [if_neg hqueue] at h
      split
      · rfl
      · rename_i hroom
        rw [if_neg hroom] at h
        exact absurd rfl h

theorem tcpConnect_sendInv {iss₀ iss : UInt32} {avail : ℕ} (h : (tcpNew iss₀).tcpConnect iss avail = (p, .ok ())) :
    SendInv p [] 0 := by
  rw [tcpConnect] at h
  split at h
  · rename_i hok
    obtain ⟨rfl, -⟩ := Prod.mk.inj h
    have hmss : 0 < tcpMss ∧ tcpMss ≤ tcpMss := by decide
    have hwnd : tcpWnd < 2 ^ 16 := by decide
    exact SendInv.output (sendInv_syn rfl rfl rfl hmss hwnd rfl (by simp [mssOption]) (Prod.ext rfl hok))
  · cases (Prod.mk.inj h).2

theorem listenSyn_sendInv {iss : UInt32} {avail : ℕ} (hwnd : seg.wnd < 2 ^ 16)
    (h : listenSyn seg iss avail = some p) (hmss : 0 < p.snd.mss) : SendInv p [] 0 := by
  rw [listenSyn] at h
  dsimp only at h
  split at h
  · obtain ⟨mss, hle, hopt⟩ := parseopt_eq { tcpNew iss with
      state := .synRcvd
      snd := { (tcpNew iss).snd with sndWnd := seg.wnd, ssthresh := seg.wnd, sndWl1 := seg.seqno - 1 }
      rcv := { (tcpNew iss).rcv with rcvNxt := seg.seqno + 1 } } seg
    rw [hopt] at h
    generalize hp₁ : ({ tcpNew iss with
      state := .synRcvd
      snd := { (tcpNew iss).snd with
        sndWnd := seg.wnd, ssthresh := seg.wnd, sndWl1 := seg.seqno - 1, mss := mss }
      rcv := { (tcpNew iss).rcv with rcvNxt := seg.seqno + 1 } } : Pcb) = p₁ at h
    have hun : p₁.snd.unsent = [] ∧ p₁.snd.unacked = [] ∧ p₁.snd.sndQueuelen = 0 ∧ p₁.snd.sndWnd = seg.wnd ∧
        p₁.snd.mss ≤ tcpMss ∧ p₁.state = .synRcvd := by
      rw [← hp₁]
      refine ⟨rfl, rfl, rfl, rfl, ?_, rfl⟩
      have hmax : (tcpNew iss).snd.mss = tcpMss := rfl
      dsimp only at hle ⊢
      omega
    obtain ⟨hunsent, hunacked, hlen, hwindow, hsmall, hstate⟩ := hun
    have hp := Option.some.inj h
    have hflags : ({ Flags.none with syn := true, ack := true } : Flags).counts = true := rfl
    have hmss' : 0 < p₁.snd.mss := by
      rw [← hp, (tcpOutput_same _).snd] at hmss
      exact (tcpEnqueue_mss p₁ [] _ _ avail) ▸ hmss
    rw [← hp]
    apply SendInv.output
    cases hresult : (p₁.tcpEnqueue [] { Flags.none with syn := true, ack := true } (mssOption p₁.snd.mss) avail).2 with
    | ok =>
      exact sendInv_syn hunsent hunacked hlen ⟨hmss', hsmall⟩ (hwindow ▸ hwnd) rfl (by simp [mssOption])
        (Prod.ext rfl hresult)
    | error e =>
      rw [tcpEnqueue_error hflags (by rw [hresult]; simp)]
      refine ⟨⟨p₁.snd.sndLbb, ?_⟩, by rw [hlen]; decide, Nat.le_refl _, ⟨hmss', hsmall⟩, hwindow ▸ hwnd, ?_, ?_⟩
      · rw [Sender.segs, hunsent, hunacked, hlen]
        exact .nil _
      · intro s ss hs
        rw [hunacked] at hs
        cases hs
      · intro hs
        rw [hstate] at hs
        cases hs
  · cases h

/-- The send queue is the same, and the other variables may have changed. -/
structure SameSegs (p q : Pcb) : Prop where
  unacked : q.snd.unacked = p.snd.unacked
  unsent : q.snd.unsent = p.snd.unsent
  sndLbb : q.snd.sndLbb = p.snd.sndLbb
  lastack : q.snd.lastack = p.snd.lastack
  sndQueuelen : q.snd.sndQueuelen = p.snd.sndQueuelen
  state : q.state = .synSent → p.state = .synSent

theorem SendInv.of_segs (h : SendInv p written acked) (hs : SameSegs p q) (hmss : 0 < q.snd.mss ∧ q.snd.mss ≤ tcpMss)
    (hwnd : q.snd.sndWnd < 2 ^ 16) : SendInv q written acked := by
  have hsegs : q.snd.segs = p.snd.segs := by
    rw [Sender.segs, Sender.segs, hs.unacked, hs.unsent]
  refine ⟨?_, ?_, h.acked, hmss, hwnd, ?_, fun hstate => ?_⟩
  · rw [hsegs, hs.sndLbb, hs.sndQueuelen]
    exact h.queue
  · rw [hs.sndQueuelen]
    exact h.few
  · rw [hs.unacked, hs.lastack]
    exact h.front
  · rw [hsegs]
    exact h.syn (hs.state hstate)

/-- The runs of the sending side of a connection by `tcp_connect` or by a SYN to a listening connection, with the
data that was written and how many bytes of it are in acknowledged segments. -/
inductive Sending : Pcb → List UInt8 → ℕ → Prop
  | connect {iss₀ iss : UInt32} {avail : ℕ} {p : Pcb} : (tcpNew iss₀).tcpConnect iss avail = (p, .ok ()) →
      Sending p [] 0
  | listen {seg : RxSeg} {iss : UInt32} {avail : ℕ} {p : Pcb} : seg.wnd < 2 ^ 16 →
      listenSyn seg iss avail = some p → 0 < p.snd.mss → Sending p [] 0
  | data {p q : Pcb} {written data : List UInt8} {acked avail : ℕ} : Sending p written acked →
      p.tcpEnqueue data Flags.none [] avail = (q, .ok ()) → Sending q (written ++ data) acked
  | fin {p q : Pcb} {written : List UInt8} {acked avail : ℕ} : Sending p written acked →
      p.tcpSendCtrl { Flags.none with fin := true } avail = (q, .ok ()) → Sending q written acked
  | output {p : Pcb} {written : List UInt8} {acked : ℕ} : Sending p written acked →
      Sending p.tcpOutput written acked
  | rexmit {p : Pcb} {written : List UInt8} {acked : ℕ} : Sending p written acked →
      Sending p.tcpRexmit written acked
  | ack {p : Pcb} {written : List UInt8} {acked : ℕ} (seg : RxSeg) : Sending p written acked →
      seg.wnd < 2 ^ 16 → 0 < (p.processAck seg).snd.mss →
      Sending (p.processAck seg) written (acked + p.ackedBytes seg)
  | other {p q : Pcb} {written : List UInt8} {acked : ℕ} : Sending p written acked → SameSegs p q →
      0 < q.snd.mss ∧ q.snd.mss ≤ tcpMss → q.snd.sndWnd < 2 ^ 16 → Sending q written acked

theorem Sending.inv (h : Sending p written acked) : SendInv p written acked := by
  induction h with
  | connect hconnect => exact tcpConnect_sendInv hconnect
  | listen hwnd hlisten hmss => exact listenSyn_sendInv hwnd hlisten hmss
  | data _ henqueue ih => exact ih.enqueue (appends_data _ ih.mss.1 ih.mss.2) henqueue
  | fin _ henqueue ih =>
    have hnew := ih.enqueue (appends_flags rfl (fun hsyn => absurd hsyn (by decide)) ih.mss.2) henqueue
    rw [List.append_nil] at hnew
    exact hnew
  | output _ ih => exact ih.output
  | rexmit _ ih => exact ih.rexmit
  | ack seg _ hwnd hmss ih => exact ih.processAck hwnd hmss
  | other _ hsame hmss hwnd ih => exact ih.of_segs hsame hmss hwnd

theorem SendInv.removes (h : SendInv p written acked) (seg : RxSeg) (hwnd : seg.wnd < 2 ^ 16) : ∃ gone left, p.snd.segs = gone ++ left ∧
    left.map SendSeg.core = (p.processAck seg).snd.segs.map SendSeg.core ∧ ∀ s ∈ gone, seqLeq s.next seg.ackno := by
  have hkept {r : Pcb} (hr : p.snd.segs.map SendSeg.core = r.snd.segs.map SendSeg.core) : ∃ gone left,
      p.snd.segs = gone ++ left ∧ left.map SendSeg.core = r.snd.segs.map SendSeg.core ∧
        ∀ s ∈ gone, seqLeq s.next seg.ackno :=
    ⟨[], p.snd.segs, rfl, hr, fun _ hs => (nomatch hs)⟩
  obtain ⟨wnd, wl1, wl2, -, hwindow⟩ := updateWindow_eq p seg
  rw [Pcb.processAck]
  split
  · rename_i hstate
    rcases processSynSent_cases p seg with heq | ⟨rseg, rest, hun, -, hack, heq⟩
    · rw [heq]
      exact hkept rfl
    · obtain ⟨a, hqueue⟩ := h.queue
      obtain ⟨htcplen, -⟩ := syn_first hqueue (h.syn hstate) hun
      have hnext : rseg.next = rseg.seqno + 1 := by
        rw [SendSeg.next, htcplen]
        rfl
      obtain ⟨mss, -, hopt⟩ := parseopt_eq (p.synAcked seg rest) seg
      rw [heq, hopt]
      refine ⟨[rseg], rest ++ p.snd.unsent, by rw [Sender.segs, hun]; rfl, rfl, fun s hs => ?_⟩
      rw [List.mem_singleton] at hs
      rw [hs, hnext, hack]
      exact seqLeq_refl _
  · rcases receiveAck_cases p seg with ⟨-, htakes, heq⟩ | ⟨-, heq | heq | ⟨edge, heq⟩⟩
    · have hsegs : (p.updateWindow seg).snd.segs = p.snd.segs := by
        rw [hwindow]
        rfl
      have hlast : (p.updateWindow seg).snd.lastack = p.snd.lastack := by rw [hwindow]
      have hnew := (newAck_segs (h.updateWindow seg hwnd) (hlast ▸ htakes.2.1)).1
      rw [hsegs] at hnew
      rw [heq, hnew]
      refine ⟨p.snd.segs.takeWhile (covered seg.ackno), _, List.takeWhile_append_dropWhile.symm, rfl, fun s hs => ?_⟩
      have hcov := List.all_eq_true.1 List.all_takeWhile s hs
      simpa [covered] using hcov
    · rw [heq]
      exact hkept rfl
    · rw [heq, hwindow]
      exact hkept rfl
    · rw [heq]
      apply hkept
      have hsegs : (p.updateWindow seg).snd.segs = p.snd.segs := by
        rw [hwindow]
        rfl
      have hu := h.updateWindow seg hwnd
      rw [← hsegs]
      rcases dupAck_cases (p.updateWindow seg) edge with hs | ⟨r, hr, hs⟩
      · rw [hs.segs]
      · rw [hs.segs, ← hr.segs]
        exact rexmit_core (hu.of_queues hr).fits

/-- The segments that were not acknowledged follow each other up to `snd_lbb` in the order of their numbers. Their
data is the tail of the written data, `snd_queuelen` is the number of their buffers, and an acknowledgement removes
the first ones, all of whose numbers it covers. -/
theorem send_queue (h : Sending p written acked) :
    (∃ first, Follows first p.snd.segs p.snd.sndLbb) ∧
      p.snd.segs.Pairwise (fun s t => seqLt s.seqno t.seqno) ∧
      (∀ s ∈ p.snd.segs, 0 < s.tcplen ∧ s.len = s.data.length) ∧
      (acked ≤ written.length ∧ p.snd.segs.flatMap SendSeg.data = written.drop acked) ∧
      p.snd.sndQueuelen = (p.snd.segs.map fun s => s.bufs.length).sum ∧
      ∀ seg : RxSeg, seg.wnd < 2 ^ 16 → ∃ gone left, p.snd.segs = gone ++ left ∧
        left.map SendSeg.core = (p.processAck seg).snd.segs.map SendSeg.core ∧
        ∀ s ∈ gone, seqLeq s.next seg.ackno := by
  have hinv := h.inv
  obtain ⟨a, hq⟩ := hinv.queue
  have hext := hinv.extent_le
  exact ⟨⟨a, hq.follows⟩, hq.sorted (by omega), fun s hs => ⟨(hq.fits s hs).counts, (hq.fits s hs).len⟩,
    ⟨hinv.acked, hq.data⟩, hq.bufs.symm, fun seg hwnd => hinv.removes seg hwnd⟩

theorem send_queue_written : ∃ p, Sending p [1, 2, 3] 0 ∧ p.snd.segs.flatMap SendSeg.data = [1, 2, 3] := by
  let p : Pcb := ((tcpNew 6510).tcpConnect 6511 1).1
  let seg : RxSeg := ⟨77, 6511, 1000, { Flags.none with syn := true, ack := true }, none, 0, some ⟨[1], [[]], 0⟩⟩
  have hp : Sending p [] 0 := .connect (show (tcpNew 6510).tcpConnect 6511 1 = (p, .ok ()) from rfl)
  have hack : Sending (p.processAck seg) [] 0 := hp.ack seg (by decide) (by decide)
  obtain ⟨q, hq⟩ : ∃ q, (p.processAck seg).tcpEnqueue [1, 2, 3] Flags.none [] 1 = (q, .ok ()) := by
    rw [tcpEnqueue_eq, if_neg (by decide +kernel), if_neg (by decide +kernel), if_neg (by decide +kernel)]
    exact ⟨_, rfl⟩
  have hq' : Sending q [1, 2, 3] 0 := hack.data hq
  exact ⟨q, hq', (send_queue hq').2.2.2.1.2⟩

end Pcb

end SimpleKernel.Tcp
