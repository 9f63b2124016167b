import SimpleKernel.Tcp.Sending
import Mathlib.Data.List.TakeWhile

/-! The order of `lastack`, `snd_nxt`, `snd_max` and `snd_lbb`. -/
namespace SimpleKernel.Tcp
open SeqNum

theorem extent_append (l m : List SendSeg) : extent (l ++ m) = extent l + extent m := by
  simp [extent]

theorem extent_nil : extent [] = 0 := rfl

theorem extent_cons (s : SendSeg) (l : List SendSeg) : extent (s :: l) = s.tcplen + extent l := rfl

theorem Follows.split_at {x y : ℤ} {b : UInt32} {l : List SendSeg} {s : SendSeg} (h : Follows (num x) l b)
    (hs : s ∈ l) (hseqno : s.seqno = num y) (hext : extent l ≤ 2 ^ 17) (hlo : x ≤ y) (hhi : y ≤ x + 2 ^ 17) :
    ∃ before behind, l = before ++ s :: behind ∧ x + extent before = y := by
  obtain ⟨before, behind, rfl⟩ := List.append_of_mem hs
  refine ⟨before, behind, rfl, ?_⟩
  obtain ⟨c, hbefore, hbehind⟩ := follows_append.1 h
  have hend := hbefore.end_eq
  rw [← num_add, ← hbehind.1, hseqno] at hend
  rw [extent_append] at hext
  exact (num_inj hend (by omega) (by omega)).symm

theorem Queue.dropped {l : List SendSeg} {a b : UInt32} {d : List UInt8} {n : ℕ} (h : Queue l a b d n)
    (c : SendSeg → Bool) : ∃ d', Queue (l.dropWhile c) (a + num (extent (l.takeWhile c))) b d'
      (n - ((l.takeWhile c).map fun s => s.bufs.length).sum) := by
  rw [← List.takeWhile_append_dropWhile (l := l)] at h
  obtain ⟨e, d₁, d₂, n₁, n₂, htaken, hleft, -, hn⟩ := h.split
  have he := htaken.follows.end_eq
  rw [htaken.bufs, hn, Nat.add_sub_cancel_left, ← he]
  exact ⟨d₂, hleft⟩

theorem Follows.covered {y z : ℤ} {b : UInt32} {l : List SendSeg} (h : Follows (num y) l b)
    (hle : y + extent l ≤ z) (hfar : z ≤ y + 2 ^ 18) : ∀ t ∈ l, covered (num z) t = true := by
  intro t ht
  obtain ⟨k, hseqno, hk⟩ := h.mem ht
  have hnext : t.next = num (y + k + t.tcplen) := by rw [SendSeg.next, hseqno, ← num_add, ← num_add]
  rw [SimpleKernel.Tcp.covered, decide_eq_true_eq, hnext, seqLeq_num (by omega) (by omega)]
  omega

theorem Follows.end_le {y z : ℤ} {b : UInt32} {l : List SendSeg} (h : Follows (num y) l b) (hne : l ≠ [])
    (hall : ∀ t ∈ l, SimpleKernel.Tcp.covered (num z) t = true) (hfar : z ≤ y + extent l)
    (hnear : y + extent l ≤ z + 2 ^ 18) : y + extent l ≤ z := by
  have hend := h.end_eq
  rcases l.eq_nil_or_concat with rfl | ⟨init, t, rfl⟩
  · exact absurd rfl hne
  · rw [List.concat_eq_append] at h hend hfar hnear hall ⊢
    obtain ⟨c, -, hlast⟩ := follows_append.1 h
    have hnext : t.next = num (y + extent (init ++ [t])) := by
      rw [num_add, ← hend]
      exact hlast.2
    have hcov := hall t (by simp)
    rw [SimpleKernel.Tcp.covered, decide_eq_true_eq, hnext, seqLeq_num (by omega) (by omega)] at hcov
    exact hcov

theorem not_covered {y z : ℤ} {s : SendSeg} (hseqno : s.seqno = num y) (hlt : z < y + s.tcplen)
    (hnear : y + s.tcplen ≤ z + 2 ^ 18) : SimpleKernel.Tcp.covered (num z) s = false := by
  rw [SimpleKernel.Tcp.covered, decide_eq_false_iff_not, SendSeg.next, hseqno, ← num_add,
    seqLeq_num (by omega) (by omega)]
  omega

namespace Sender

theorem removeUnsent_nxt {ackno : UInt32} {before behind : List SendSeg} {s : SendSeg}
    (hbefore : ∀ t ∈ before, covered ackno t = true) (hs : covered ackno s = false) (n : ℕ) (nxt : UInt32) :
    (removeUnsent ackno (before ++ s :: behind) n nxt).2.2 = if before = [] then nxt else s.seqno := by
  have hnot : ¬ seqLeq s.next ackno := of_decide_eq_false hs
  induction before generalizing n nxt with
  | nil => simp [removeUnsent, hnot]
  | cons t ts ih =>
    have ht : seqLeq t.next ackno := of_decide_eq_true (hbefore t (by simp))
    rw [List.cons_append, removeUnsent.eq_def]
    dsimp only
    rw [if_pos ht, ih fun u hu => hbefore u (by simp [hu])]
    cases ts with
    | nil => simp
    | cons u us => simp

end Sender

namespace Pcb
variable {p q : Pcb} {seg : RxSeg} {x g m : ℤ}

/-- The positions of the send variables: `lastack` is at `x`, the first segment begins at `x + g` and ends behind `x`,
`snd_nxt` is where the unsent segments begin and `snd_max` is at `x + m`. -/
structure Numbered (p : Pcb) (x g m : ℤ) : Prop where
  queue : ∃ d, Queue p.snd.segs (num (x + g)) p.snd.sndLbb d p.snd.sndQueuelen
  few : p.snd.sndQueuelen ≤ tcpSndQueuelen
  mss : p.snd.mss ≤ tcpMss
  lastack : p.snd.lastack = num x
  sndNxt : p.snd.sndNxt = num (x + g + extent p.snd.unacked)
  sndMax : p.snd.sndMax = num (x + m)
  bounds : g + extent p.snd.unacked ≤ m ∧ m ≤ g + extent p.snd.segs
  start : g ≤ 0
  front : ∀ s ss, p.snd.segs = s :: ss → 0 < g + s.tcplen
  syn : p.state = .synSent → ∃ syn ss, p.snd.segs = syn :: ss ∧ syn.flags.syn = true

/-- The send variables are in order: `snd_nxt` is not before `lastack`. -/
def Ordered (p : Pcb) : Prop := ∃ x g m, Numbered p x g m ∧ 0 ≤ g + extent p.snd.unacked

theorem Numbered.extent_le (h : Numbered p x g m) : extent p.snd.segs ≤ 2 ^ 17 := by
  obtain ⟨d, hq⟩ := h.queue
  have hext := hq.extent_le
  have hfew : p.snd.sndQueuelen * (tcpMss + 1) ≤ tcpSndQueuelen * (tcpMss + 1) := Nat.mul_le_mul_right _ h.few
  have hmax : tcpSndQueuelen * (tcpMss + 1) ≤ 2 ^ 17 := by decide
  omega

theorem segs_extent (p : Pcb) : extent p.snd.segs = extent p.snd.unacked + extent p.snd.unsent := extent_append _ _

theorem Numbered.sndLbb (h : Numbered p x g m) : p.snd.sndLbb = num (x + g + extent p.snd.segs) := by
  obtain ⟨d, hq⟩ := h.queue
  rw [hq.follows.end_eq, num_add (x + g)]

theorem Numbered.unsent (h : Numbered p x g m) :
    Follows (num (x + g + extent p.snd.unacked)) p.snd.unsent p.snd.sndLbb := by
  obtain ⟨d, hq⟩ := h.queue
  obtain ⟨c, hunacked, hunsent⟩ := follows_append.1 hq.follows
  rw [hunacked.end_eq, ← num_add] at hunsent
  exact hunsent

/-- `q` has the send queue of `p` and its numbers. -/
structure SameNumbers (p q : Pcb) : Prop where
  unacked : q.snd.unacked = p.snd.unacked
  unsent : q.snd.unsent = p.snd.unsent
  sndNxt : q.snd.sndNxt = p.snd.sndNxt
  sndMax : q.snd.sndMax = p.snd.sndMax
  sndLbb : q.snd.sndLbb = p.snd.sndLbb
  lastack : q.snd.lastack = p.snd.lastack
  sndQueuelen : q.snd.sndQueuelen = p.snd.sndQueuelen
  mss : q.snd.mss ≤ max p.snd.mss tcpMss
  state : q.state = .synSent → p.state = .synSent

theorem SameQueues.numbers (h : SameQueues p q) : SameNumbers p q :=
  ⟨h.unacked, h.unsent, h.sndNxt, h.sndMax, h.sndLbb, h.lastack, h.sndQueuelen, by rw [h.mss]; omega,
    fun hs => h.receiver.state.symm.trans hs⟩

theorem SameNumbers.of_snd (hsnd : q.snd = p.snd) (hstate : q.state = .synSent → p.state = .synSent) :
    SameNumbers p q := by
  refine ⟨?_, ?_, ?_, ?_, ?_, ?_, ?_, ?_, hstate⟩ <;> rw [hsnd]
  omega

theorem SameNumbers.segs (h : SameNumbers p q) : q.snd.segs = p.snd.segs := by
  rw [Sender.segs, Sender.segs, h.unacked, h.unsent]

theorem Numbered.of_same (h : Numbered p x g m) (hs : SameNumbers p q) : Numbered q x g m := by
  have hsegs := hs.segs
  have hmss := h.mss
  have hle := hs.mss
  refine ⟨?_, ?_, by omega, ?_, ?_, ?_, ?_, h.start, ?_, fun hstate => ?_⟩
  · rw [hsegs, hs.sndLbb, hs.sndQueuelen]
    exact h.queue
  · rw [hs.sndQueuelen]
    exact h.few
  · rw [hs.lastack]
    exact h.lastack
  · rw [hs.sndNxt, hs.unacked]
    exact h.sndNxt
  · rw [hs.sndMax]
    exact h.sndMax
  · rw [hsegs, hs.unacked]
    exact h.bounds
  · rw [hsegs]
    exact h.front
  · rw [hsegs]
    exact h.syn (hs.state hstate)

theorem Ordered.of_same (h : Ordered p) (hs : SameNumbers p q) : Ordered q := by
  obtain ⟨x, g, m, hn, hpos⟩ := h
  exact ⟨x, g, m, hn.of_same hs, by rw [hs.unacked]; exact hpos⟩

theorem Numbered.sendSegment (h : Numbered p x g m) {s : SendSeg} {rest : List SendSeg}
    (hun : p.snd.unsent = s :: rest) : Ordered (p.sendSegment s rest) := by
  obtain ⟨d, hq⟩ := h.queue
  have hfits : s.Fits := hq.fits s (by simp [Sender.segs, hun])
  have hsame := sendSegment_same p s rest
  obtain ⟨hunsent, hnxt, hunacked⟩ := sendSegment_snd p s rest
  rw [if_pos hfits.counts] at hunacked
  have hfollows := h.unsent
  rw [hun] at hfollows
  have hnext : s.next = num (x + g + extent p.snd.unacked + s.tcplen) := by
    rw [SendSeg.next, hfollows.1, ← num_add]
  have hext : extent (p.sendSegment s rest).snd.unacked = extent p.snd.unacked + s.tcplen := by
    rw [hunacked, extent_append, extent_cons, SendSeg.mark_tcplen]
    rfl
  have hcore : p.snd.segs.map SendSeg.core = (p.sendSegment s rest).snd.segs.map SendSeg.core := by
    rw [Sender.segs, Sender.segs, hunacked, hunsent, hun]
    simp [SendSeg.core_mark]
  have hsegs : extent (p.sendSegment s rest).snd.segs = extent p.snd.segs := by
    rw [segs_extent, segs_extent, hunsent, hun, extent_cons]
    omega
  have hle := h.extent_le
  have hsplit := segs_extent p
  rw [hun, extent_cons] at hsplit
  obtain ⟨hlo, hhi⟩ := h.bounds
  have hstart := h.start
  have hmax : (p.sendSegment s rest).snd.sndMax =
      num (x + max m (g + extent p.snd.unacked + s.tcplen)) := by
    have hdef : (p.sendSegment s rest).snd.sndMax =
        if seqLt p.snd.sndMax s.next then s.next else p.snd.sndMax := by
      by_cases hstate : p.state ≠ .synSent
      · simp [Pcb.sendSegment, hstate, SendSeg.mark_next]
      · simp [Pcb.sendSegment, hstate, SendSeg.mark_next]
    rw [hdef, h.sndMax, hnext]
    by_cases hbefore : m < g + extent p.snd.unacked + s.tcplen
    · rw [if_pos ((seqLt_num (by omega) (by omega)).2 (by omega))]
      congr 1
      omega
    · have hnot : ¬ seqLt (num (x + m)) (num (x + g + extent p.snd.unacked + s.tcplen)) := by
        rw [seqLt_num (by omega) (by omega)]
        omega
      rw [if_neg hnot]
      congr 1
      omega
  have hfront : ∀ t ts, p.snd.segs = t :: ts → 0 < g + (extent p.snd.unacked : ℤ) + s.tcplen := by
    intro t ts hsegs'
    have hpos := h.front t ts hsegs'
    cases hua : p.snd.unacked with
    | nil =>
      rw [Sender.segs, hua, hun] at hsegs'
      obtain ⟨rfl, -⟩ := List.cons.inj hsegs'
      omega
    | cons u us =>
      rw [Sender.segs, hua] at hsegs'
      obtain ⟨rfl, -⟩ := List.cons.inj hsegs'
      rw [extent_cons]
      omega
  have hsnd := hsame.snd
  refine ⟨x, g, _, ⟨⟨d, ?_⟩, ?_, ?_, ?_, ?_, hmax, ?_, hstart, ?_, ?_⟩, ?_⟩
  · rw [hsnd]
    exact hq.of_core hcore
  · rw [hsnd]
    exact h.few
  · rw [hsnd]
    exact h.mss
  · rw [hsnd]
    exact h.lastack
  · rw [hnxt, hnext]
    congr 1
    omega
  · omega
  · intro t ts hcons
    rw [hcons] at hcore
    cases hold : p.snd.segs with
    | nil => simp [hold] at hcore
    | cons u us =>
      rw [hold, List.map_cons, List.map_cons, List.cons.injEq] at hcore
      rw [← SendSeg.tcplen_of_core hcore.1]
      exact h.front u us hold
  · intro hstate
    rw [hsame.state] at hstate
    exact head_of_core hcore (h.syn hstate)
  · cases hold : p.snd.segs with
    | nil => simp [Sender.segs, hun] at hold
    | cons u us =>
      have hpos := hfront u us hold
      omega

theorem Ordered.outputLoop (h : Ordered p) (wnd : ℕ) {l : List SendSeg} (hl : p.snd.unsent = l) :
    Ordered (outputLoop wnd l p) := by
  induction l generalizing p with
  | nil => exact h
  | cons s rest ih =>
    rw [Pcb.outputLoop]
    split
    · obtain ⟨x, g, m, hn, -⟩ := h
      exact ih (hn.sendSegment hl) (sendSegment_snd p s rest).1
    · exact h

theorem Ordered.flushed (h : Ordered p) :
    Ordered (if p.ackNow then { p with ackDelay := false, ackNow := false } else p) := by
  split
  · exact h.of_same (.of_snd rfl id)
  · exact h

theorem Ordered.output (h : Ordered p) : Ordered p.tcpOutput := (h.outputLoop _ rfl).flushed

theorem Numbered.output (h : Numbered p x g m) {s : SendSeg} {rest : List SendSeg} (hun : p.snd.unsent = s :: rest)
    (hfits : (s.seqno - p.snd.lastack + num s.len).toNat ≤ min p.snd.sndWnd p.snd.cwnd) : Ordered p.tcpOutput := by
  rw [tcpOutput, hun, Pcb.outputLoop, if_pos hfits]
  exact ((h.sendSegment hun).outputLoop _ (sendSegment_snd p s rest).1).flushed

/-- A retransmission sends the first segment if it begins before `lastack`. -/
def Resends (p : Pcb) : Prop := ∀ s ss, p.snd.unacked = s :: ss → seqLt s.seqno p.snd.lastack →
  (s.seqno - p.snd.lastack + num s.len).toNat ≤ min p.snd.sndWnd p.snd.cwnd

theorem Ordered.rexmit (h : Ordered p) (hr : p.Resends) : Ordered p.tcpRexmit := by
  rw [tcpRexmit]
  split
  · exact h
  · rename_i s ss hun
    obtain ⟨x, g, m, hn, -⟩ := h
    have hsegs : s :: ss ++ p.snd.unsent = p.snd.segs := by rw [Sender.segs, hun]
    obtain ⟨d, hq⟩ := hn.queue
    have hseqno : s.seqno = num (x + g) := by
      rw [← hsegs] at hq
      exact hq.follows.1
    have hstart := hn.start
    have hfront := hn.front s (ss ++ p.snd.unsent) hsegs.symm
    have hlen : (s.tcplen : ℤ) ≤ 2 ^ 17 := by
      have hext := hn.extent_le
      rw [← hsegs, List.cons_append, extent_cons] at hext
      omega
    have hbounds := hn.bounds
    have hmoved : Numbered { p with snd := { p.snd with
        unsent := s :: ss ++ p.snd.unsent, unacked := [], sndNxt := s.seqno } } x g m := by
      refine ⟨⟨d, ?_⟩, hn.few, hn.mss, hn.lastack, ?_, hn.sndMax, ?_, hstart, ?_, fun hstate => ?_⟩
      · rw [← hsegs] at hq
        exact hq
      · simp [hseqno, extent]
      · rw [← hsegs] at hbounds
        rw [extent_nil]
        simp only [Sender.segs, List.nil_append]
        omega
      · intro t ts ht
        exact hn.front t ts (hsegs.symm.trans ht)
      · obtain ⟨syn, rest, hsyn⟩ := hn.syn hstate
        exact ⟨syn, rest, hsegs.trans hsyn.1, hsyn.2⟩
    by_cases hbefore : g < 0
    · refine hmoved.output rfl (hr s ss hun ?_)
      rw [hseqno, hn.lastack, seqLt_num (by omega) (by omega)]
      omega
    · apply Ordered.output
      exact ⟨x, g, m, hmoved, by omega⟩

theorem newAck_sndNxt (p : Pcb) (ackno : UInt32) : ∃ n,
    (p.newAck ackno).snd.sndNxt = (Sender.removeUnsent ackno p.snd.unsent n p.snd.sndNxt).2.2 := by
  have h := (endRetransmit_queues p).trans (show SameQueues p.endRetransmit _ from SameQueues.refl _)
  have h' := openWindow_queues (p.endRetransmit.countAck ackno)
  have hunsent : (p.endRetransmit.countAck ackno).openWindow.snd.unsent = p.snd.unsent := h'.unsent.trans h.unsent
  have hnxt : (p.endRetransmit.countAck ackno).openWindow.snd.sndNxt = p.snd.sndNxt := h'.sndNxt.trans h.sndNxt
  rw [newAck_eq, dropAcked, hunsent, hnxt]
  exact ⟨_, rfl⟩

/-- The number is behind `lastack` by less than half of all numbers, and what was sent since the last retransmission
reaches it, or an unsent segment begins with it. -/
def Reaches (p : Pcb) (ackno : UInt32) : Prop :=
  ackno ≠ p.snd.lastack + 2 ^ 31 ∧ (seqLeq ackno p.snd.sndNxt ∨ ∃ s ∈ p.snd.unsent, s.seqno = ackno)

theorem Numbered.ackno (h : Numbered p x g m) (hpos : 0 ≤ g + extent p.snd.unacked) {ackno : UInt32}
    (htakes : p.takesAck ackno) (hreach : p.Reaches ackno) : ∃ e, ackno = num (x + e) ∧ 0 < e ∧ e ≤ m := by
  obtain ⟨e, hlo, hhi, hackno⟩ := exists_of_seqLt htakes.2.1
  have hnum : ackno = num (x + e) := by rw [hackno, h.lastack, num_add]
  have hne : e ≠ 2 ^ 31 := by
    rintro rfl
    exact hreach.1 hackno
  have hle := htakes.2.2
  have hext := h.extent_le
  have hbounds := h.bounds
  have hstart := h.start
  rw [hnum, h.sndMax, seqLeq_num (by omega) (by omega)] at hle
  exact ⟨e, hnum, hlo, by omega⟩

theorem Numbered.removes (h : Numbered p x g m) (hpos : 0 ≤ g + extent p.snd.unacked) {e : ℤ} (he : 0 < e)
    (hem : e ≤ m) (hreach : p.Reaches (num (x + e))) (n : ℕ) :
    p.snd.segs.dropWhile (covered (num (x + e))) =
        p.snd.unacked.dropWhile (covered (num (x + e))) ++ p.snd.unsent.dropWhile (covered (num (x + e))) ∧
      ∃ c, e ≤ c ∧ c ≤ m ∧ c + extent (p.snd.unsent.dropWhile (covered (num (x + e)))) = g + extent p.snd.segs ∧
        (Sender.removeUnsent (num (x + e)) p.snd.unsent n p.snd.sndNxt).2.2 = num (x + c) := by
  obtain ⟨d, hq⟩ := h.queue
  have hext := h.extent_le
  have hbounds := h.bounds
  have hstart := h.start
  have hsegs := segs_extent p
  have hunsent := h.unsent
  by_cases hsent : e ≤ g + extent p.snd.unacked
  · -- the acknowledgement is of what was sent, and the unsent segments stay
    have hsplit := (hq.dropWhile_covered (z := x + e) hext rfl (by omega) fun s ss _ => by omega).1
    refine ⟨hsplit, g + extent p.snd.unacked, hsent, hbounds.1, ?_⟩
    cases hun : p.snd.unsent with
    | nil =>
      rw [hun, extent_nil] at hsegs
      refine ⟨?_, ?_⟩
      · rw [List.dropWhile_nil, extent_nil]
        omega
      · show p.snd.sndNxt = _
        rw [h.sndNxt, Int.add_assoc]
    | cons u us =>
      have hext' : extent p.snd.unsent = u.tcplen + extent us := by rw [hun, extent_cons]
      have hfits : u.Fits := hq.fits u (by simp [Sender.segs, hun])
      have hcounts := hfits.counts
      rw [hun] at hunsent
      have hnot : covered (num (x + e)) u = false := not_covered hunsent.1 (by omega) (by omega)
      have hnxt := @Sender.removeUnsent_nxt _ [] us u (fun _ h => by cases h) hnot n p.snd.sndNxt
      rw [List.dropWhile_cons_of_neg (by simp [hnot]), extent_cons]
      refine ⟨by omega, ?_⟩
      rw [List.nil_append, if_pos rfl] at hnxt
      rw [hnxt, h.sndNxt]
      congr 1
      omega
  · -- the acknowledgement is of segments that wait to be sent again
    obtain ⟨s, hs, hseqno⟩ : ∃ s ∈ p.snd.unsent, s.seqno = num (x + e) := by
      rcases hreach.2 with hleq | hs
      · rw [h.sndNxt, seqLeq_num (by omega) (by omega)] at hleq
        omega
      · exact hs
    obtain ⟨before, behind, hun, hat⟩ := hunsent.split_at hs hseqno (by omega) (by omega) (by omega)
    rw [hun] at hunsent
    obtain ⟨c, hbefore, -⟩ := follows_append.1 hunsent
    have hcovered := hbefore.covered (z := x + e) (by omega) (by omega)
    obtain ⟨c', hacked, -⟩ := follows_append.1 hq.follows
    have hcovered' := hacked.covered (z := x + e) (by omega) (by omega)
    have hfits : s.Fits := hq.fits s (by simp [Sender.segs, hs])
    have hcounts := hfits.counts
    have hlen : extent p.snd.unsent = extent before + (s.tcplen + extent behind) := by
      rw [hun, extent_append, extent_cons]
    have hnot : covered (num (x + e)) s = false := not_covered hseqno (by omega) (by omega)
    have hleft : p.snd.unsent.dropWhile (covered (num (x + e))) = s :: behind := by
      rw [hun, List.dropWhile_append_of_pos hcovered, List.dropWhile_cons_of_neg (by simp [hnot])]
    have hgone : p.snd.unacked.dropWhile (covered (num (x + e))) = [] := List.dropWhile_eq_nil_iff.2 hcovered'
    have hne : before ≠ [] := by
      rintro rfl
      rw [extent_nil] at hat
      omega
    refine ⟨?_, e, Int.le_refl _, hem, ?_, ?_⟩
    · rw [hgone, List.nil_append, Sender.segs, List.dropWhile_append_of_pos hcovered']
    · rw [hleft, extent_cons]
      omega
    · rw [hun, Sender.removeUnsent_nxt hcovered hnot, if_neg hne, hseqno]

theorem Ordered.newAck (h : Ordered p) (hstate : p.state ≠ .synSent) {ackno : UInt32} (htakes : p.takesAck ackno)
    (hreach : p.Reaches ackno) : Ordered (p.newAck ackno) := by
  obtain ⟨x, g, m, hn, hpos⟩ := h
  obtain ⟨e, rfl, he, hem⟩ := hn.ackno hpos htakes hreach
  obtain ⟨d, hq⟩ := hn.queue
  have hext := hn.extent_le
  have hbounds := hn.bounds
  have hstart := hn.start
  have hack := newAck_acknowledges p (num (x + e))
  obtain ⟨k, hnxt⟩ := newAck_sndNxt p (num (x + e))
  obtain ⟨hdrop, c, hec, hcm, hc, hnxt'⟩ := hn.removes hpos he hem hreach k
  obtain ⟨hunacked, hunsent, hlen⟩ := newAck_removes hq hn.few hdrop
  have hsegs : (p.newAck (num (x + e))).snd.segs = p.snd.segs.dropWhile (covered (num (x + e))) := by
    rw [Sender.segs, hunacked, hunsent, hdrop]
  obtain ⟨d', hleft⟩ := hq.dropped (covered (num (x + e)))
  have htaken : extent (p.snd.segs.takeWhile (covered (num (x + e)))) +
      extent (p.snd.segs.dropWhile (covered (num (x + e)))) = extent p.snd.segs := by
    rw [← extent_append, List.takeWhile_append_dropWhile]
  have hboth := extent_append (p.snd.unacked.dropWhile (covered (num (x + e))))
    (p.snd.unsent.dropWhile (covered (num (x + e))))
  rw [← hdrop] at hboth
  generalize hg : g + extent (p.snd.segs.takeWhile (covered (num (x + e)))) - e = g' at *
  have hfirst : g' ≤ 0 ∧ ∀ s ss, p.snd.segs.dropWhile (covered (num (x + e))) = s :: ss → 0 < g' + s.tcplen := by
    have hwhole : Queue (p.snd.segs ++ []) (num (x + g)) p.snd.sndLbb d p.snd.sndQueuelen := by
      rw [List.append_nil]
      exact hq
    have hnear := (hwhole.dropWhile_covered (z := x + e) (by rw [List.append_nil]; exact hext) rfl (by omega)
      fun s ss _ => by omega).2
    cases hrest : p.snd.segs.dropWhile (covered (num (x + e))) with
    | nil =>
      have hall := List.dropWhile_eq_nil_iff.1 hrest
      have hnonempty : p.snd.segs ≠ [] := by
        intro hnil
        rw [hnil, extent_nil] at hbounds
        omega
      have hle := hq.follows.end_le hnonempty hall (by omega) (by omega)
      exact ⟨by omega, fun s ss h => by cases h⟩
    | cons t ts =>
      obtain ⟨gg, hseqno, hpos', hgg⟩ := hnear t ts hrest
      rw [hrest, ← num_add] at hleft
      rw [hrest, extent_cons] at htaken
      have hat := hleft.follows.1.symm.trans (hseqno.trans (num_add _ _).symm)
      have heq := num_inj hat (by omega) (by omega)
      refine ⟨by omega, fun s ss h => ?_⟩
      obtain ⟨rfl, -⟩ := List.cons.inj h
      omega
  have hbegin : num (x + g) + num (extent (p.snd.segs.takeWhile (covered (num (x + e))))) = num (x + e + g') := by
    rw [← num_add]
    congr 1
    omega
  refine ⟨x + e, g', m - e, ⟨⟨d', ?_⟩, ?_, ?_, ?_, ?_, ?_, ?_, hfirst.1, ?_, ?_⟩, ?_⟩
  · rw [hsegs, hack.sndLbb, hlen, ← hbegin]
    exact hleft
  · have hfew := hn.few
    omega
  · rw [hack.mss]
    exact hn.mss
  · exact hack.lastack
  · rw [hnxt, hnxt', hunacked]
    congr 1
    omega
  · rw [hack.sndMax, hn.sndMax]
    congr 1
    omega
  · rw [hunacked, hsegs]
    omega
  · rw [hsegs]
    exact hfirst.2
  · intro hs
    rw [hack.receiver.state] at hs
    exact absurd hs hstate
  · rw [hunacked]
    omega

/-- A duplicate acknowledgement starts fast retransmission. -/
def Recovers (p : Pcb) (edge : UInt32) : Prop :=
  p.snd.sndWl1 + num p.snd.sndWnd = edge ∧ 3 ≤ ushort (p.snd.dupacks + 1) ∧ p.snd.unacked ≠ [] ∧
    p.state = .established ∧ p.infr = false

theorem dupAck_recovers (p : Pcb) (edge : UInt32) : SameQueues p (p.dupAck edge) ∨
    (p.Recovers edge ∧ ∃ r, SameQueues p r ∧ r.snd.cwnd = p.snd.cwnd ∧ SameQueues r.tcpRexmit (p.dupAck edge)) := by
  have hcount : SameQueues p { p with snd := { p.snd with
      acked := 0, dupacks := ushort (p.snd.dupacks + 1) } } :=
    ⟨⟨rfl, rfl, rfl, rfl, rfl⟩, rfl, rfl, rfl, rfl, rfl, rfl, rfl, rfl, rfl⟩
  rw [dupAck]
  dsimp only
  split
  · rename_i hedge
    split
    · rename_i hmany
      split
      · rename_i hinfr
        refine .inr ⟨⟨hedge, hmany.1, hmany.2.1, hmany.2.2, hinfr⟩, _, hcount, rfl, ?_⟩
        exact ⟨⟨rfl, rfl, rfl, rfl, rfl⟩, rfl, rfl, rfl, rfl, rfl, rfl, rfl, rfl, rfl⟩
      · exact .inl (hcount.trans (growWindow_queues _ _))
    · exact .inl hcount
  · exact .inl ⟨⟨rfl, rfl, rfl, rfl, rfl⟩, rfl, rfl, rfl, rfl, rfl, rfl, rfl, rfl, rfl⟩

theorem Ordered.dupAck (h : Ordered p) {edge : UInt32} (hr : p.Recovers edge → p.Resends) :
    Ordered (p.dupAck edge) := by
  rcases dupAck_recovers p edge with hs | ⟨hrecovers, r, hs, hcwnd, hs'⟩
  · exact h.of_same hs.numbers
  · have hresends : r.Resends := by
      have hp := hr hrecovers
      rw [Resends] at hp ⊢
      rw [hs.unacked, hs.lastack, hs.sndWnd, hcwnd]
      exact hp
    exact ((h.of_same hs.numbers).rexmit hresends).of_same hs'.numbers

theorem updateWindow_numbers (p : Pcb) (seg : RxSeg) : SameNumbers p (p.updateWindow seg) := by
  obtain ⟨wnd, wl1, wl2, -, heq⟩ := updateWindow_eq p seg
  rw [heq]
  exact ⟨rfl, rfl, rfl, rfl, rfl, rfl, rfl, by dsimp only; omega, id⟩

/-- The acknowledgement of a segment leaves the send variables in order: one of new data reaches what was sent, and a
fast retransmission sends the first segment. -/
structure AckInOrder (p : Pcb) (seg : RxSeg) : Prop where
  new : p.takesAck seg.ackno → p.Reaches seg.ackno
  fast : p.snd.lastack = seg.ackno → (p.updateWindow seg).Recovers (num p.snd.sndWnd + p.snd.sndWl1) →
    (p.updateWindow seg).Resends

theorem Ordered.receiveAck (h : Ordered p) (hstate : p.state ≠ .synSent)
    (hack : seg.flags.ack = true → p.AckInOrder seg) : Ordered (p.receiveAck seg) := by
  have hs := updateWindow_numbers p seg
  have hu := h.of_same hs
  rw [Pcb.receiveAck]
  split
  · rename_i hflag
    have ha := hack hflag
    dsimp only
    rw [hs.lastack, hs.sndMax]
    split
    · rename_i hdup
      exact hu.dupAck (ha.fast hdup)
    · rename_i hdup
      split
      · rename_i hnew
        have htakes : (p.updateWindow seg).takesAck seg.ackno := by
          rw [takesAck, hs.lastack, hs.sndMax]
          exact ⟨hdup, hnew⟩
        have hreach : (p.updateWindow seg).Reaches seg.ackno := by
          rw [Reaches, hs.lastack, hs.sndNxt, hs.unsent]
          exact ha.new ⟨hdup, hnew⟩
        exact hu.newAck (fun hsent => hstate (hs.state hsent)) htakes hreach
      · exact hu
  · exact h

theorem data_le_extent {l : List SendSeg} (hfits : ∀ s ∈ l, s.Fits) :
    (l.flatMap SendSeg.data).length ≤ extent l := by
  induction l with
  | nil => exact Nat.zero_le _
  | cons s ss ih =>
    have hrest := ih fun t ht => hfits t (List.mem_cons_of_mem s ht)
    have hlen := (hfits s (List.mem_cons_self ..)).len
    have hle : s.len ≤ s.tcplen := Nat.le_add_right _ _
    rw [List.flatMap_cons, List.length_append, extent_cons]
    omega

section
variable {data : List UInt8} {flags : Flags} {opt : List UInt8} {avail : ℕ}

theorem enqueue_result (h : (p.tcpEnqueue data flags opt avail).2 = .ok ()) :
    p.tcpEnqueue data flags opt avail = ((p.tcpEnqueue data flags opt avail).1, .ok ()) := Prod.ext rfl h

theorem Ordered.enqueue (h : Ordered p) (hnew : p.Appends data flags opt)
    (henqueue : p.tcpEnqueue data flags opt avail = (q, .ok ())) : Ordered q := by
  obtain ⟨x, g, m, hn, hpos⟩ := h
  obtain ⟨d, hq⟩ := hn.queue
  have hgrown := hnew.queue henqueue hq
  have hfew := (ok_queuelen henqueue).2
  have hsyn := enqueue_keepsSyn henqueue
  have hext := hn.extent_le
  have hbounds := hn.bounds
  have hstart := hn.start
  have hlbb : q.snd.sndLbb = p.snd.sndLbb + num ↑(data.length + if flags.counts then 1 else 0) := by
    obtain ⟨-, rfl⟩ := tcpEnqueue_ok henqueue
    rfl
  have hgrows : extent q.snd.segs = extent p.snd.segs + (data.length + if flags.counts then 1 else 0) := by
    have hbytes := data_le_extent hgrown.fits
    have hext' := hgrown.extent_le
    have hmax : q.snd.sndQueuelen * (tcpMss + 1) ≤ tcpSndQueuelen * (tcpMss + 1) := Nat.mul_le_mul_right _ hfew
    have hbound : tcpSndQueuelen * (tcpMss + 1) ≤ 2 ^ 17 := by decide
    have hone : (if flags.counts then 1 else 0) ≤ 1 := by split <;> omega
    rw [hgrown.data, List.length_append] at hbytes
    have hend := hgrown.follows.end_eq
    rw [hlbb, hn.sndLbb, ← num_add, ← num_add] at hend
    have heq := num_inj hend (by omega) (by omega)
    omega
  obtain ⟨-, rfl⟩ := tcpEnqueue_ok henqueue
  refine ⟨x, g, m, ⟨⟨_, hgrown⟩, hfew, hn.mss, hn.lastack, hn.sndNxt, hn.sndMax, ?_, hstart, fun s ss hsegs => ?_,
    fun hs => hsyn (hn.syn hs)⟩, hpos⟩
  · dsimp only at hgrows ⊢
    omega
  · cases hua : p.snd.unacked with
    | nil =>
      have hcounts := (hgrown.fits s (by rw [hsegs]; exact List.mem_cons_self ..)).counts
      rw [hua, extent_nil] at hpos
      omega
    | cons t ts =>
      rw [Sender.segs, hua] at hsegs
      obtain ⟨rfl, -⟩ := List.cons.inj hsegs
      refine hn.front t (ts ++ p.snd.unsent) ?_
      rw [Sender.segs, hua]
      rfl

end

theorem Ordered.mss (h : Ordered p) : p.snd.mss ≤ tcpMss := by
  obtain ⟨x, g, m, hn, -⟩ := h
  exact hn.mss

theorem Ordered.enqueueFlags (h : Ordered p) {flags : Flags} (hcounts : flags.counts = true) {opt : List UInt8}
    (hopt : flags.syn = true → opt ≠ []) (avail : ℕ) : Ordered (p.tcpEnqueue [] flags opt avail).1 := by
  cases hresult : (p.tcpEnqueue [] flags opt avail).2 with
  | ok => exact h.enqueue (appends_flags hcounts hopt h.mss) (enqueue_result hresult)
  | error e =>
    rw [tcpEnqueue_error hcounts (by rw [hresult]; simp)]
    exact h

theorem Ordered.close (h : Ordered p) (avail : ℕ) : Ordered (p.tcpClose avail).1 := by
  have hsent : Ordered (p.tcpSendCtrl { Flags.none with fin := true } avail).1 :=
    h.enqueueFlags rfl (fun hsyn => absurd hsyn (by decide)) avail
  rw [tcpClose]
  dsimp only
  split
  · split
    · exact h.of_same (.of_snd rfl fun hs => by cases hs)
    · exact h
  · rename_i state hnext
    have hne : state ≠ .synSent := by
      rintro rfl
      revert hnext
      cases p.state <;> decide
    split
    · have hmoved : Ordered { (p.tcpSendCtrl { Flags.none with fin := true } avail).1 with state := state } :=
        hsent.of_same (.of_snd rfl fun hs => absurd hs hne)
      exact hmoved.output
    · exact hsent

theorem fill_none (u : SendSeg) (mss : ℕ) (data : List UInt8) (h : (u.fill mss data).2 = 0) :
    (u.fill mss data).1 = u := by
  rw [SendSeg.fill] at h ⊢
  split
  · rfl
  · rename_i b hlast
    rw [hlast] at h
    dsimp only at h ⊢
    generalize (if (u.len : ℤ) + min b.spare data.length > mss then (mss : ℤ) - u.len
      else min b.spare data.length) = buflen at h ⊢
    by_cases hpos : buflen > 0
    · rw [if_pos hpos] at h
      omega
    · rw [if_neg hpos]

theorem fill_zero (u : SendSeg) (data : List UInt8) : (u.fill 0 data).2 = 0 := by
  rw [SendSeg.fill]
  split
  · rfl
  · rename_i b _
    by_cases hpos : (if (u.len : ℤ) + min b.spare data.length > (0 : ℕ) then ((0 : ℕ) : ℤ) - u.len
      else min b.spare data.length) > 0
    · split at hpos <;> omega
    · rw [if_neg hpos]

theorem fillLast_none {mss : ℕ} {data : List UInt8} {l : List SendSeg} (h : (Sender.fillLast mss data l).2 = 0) :
    (Sender.fillLast mss data l).1 = l := by
  rcases l.eq_nil_or_concat with rfl | ⟨init, u, rfl⟩
  · rfl
  · rw [List.concat_eq_append] at h ⊢
    rw [Sender.fillLast_concat] at h ⊢
    rw [fill_none u mss data h]

theorem fillLast_zero (data : List UInt8) (l : List SendSeg) : (Sender.fillLast 0 data l).2 = 0 := by
  rcases l.eq_nil_or_concat with rfl | ⟨init, u, rfl⟩
  · rfl
  · rw [List.concat_eq_append, Sender.fillLast_concat]
    exact fill_zero u data

theorem makeSegs_zero (flags : Flags) (opt : List UInt8) (turns : ℕ) (seqno : UInt32) {left : List UInt8}
    (hleft : left ≠ []) : (Sender.makeSegs 0 flags opt turns seqno left).length = turns := by
  induction turns generalizing seqno with
  | zero => rfl
  | succ turns ih =>
    simp only [Sender.makeSegs, Nat.min_zero, List.drop_zero]
    rw [if_neg hleft, List.length_cons, ih]

/-- The data that is written finds the segments it needs, or none of it goes into the last unsent segment. -/
def Takes (p : Pcb) (data : List UInt8) (avail : ℕ) : Prop :=
  data.length ≤ p.snd.sndBuf → p.snd.sndQueuelen < tcpSndQueuelen → (filled p.snd data Flags.none []).2 = 0 ∨
    ((newSegs p.snd data Flags.none []).length ≤ avail ∧
      p.snd.sndQueuelen + (newSegs p.snd data Flags.none []).length ≤ tcpSndQueuelen)

theorem mss_pos {data : List UInt8} (hdata : data ≠ []) {avail : ℕ}
    (henqueue : p.tcpEnqueue data Flags.none [] avail = (q, .ok ())) : 0 < p.snd.mss := by
  obtain ⟨hfew, -⟩ := tcpEnqueue_ok henqueue
  apply Nat.pos_of_ne_zero
  intro hzero
  have hnone : (filled p.snd data Flags.none []).2 = 0 := by
    rw [filled, hzero]
    exact fillLast_zero data p.snd.unsent
  have hlong : (newSegs p.snd data Flags.none []).length = data.length + tcpSndQueuelen + 1 := by
    simp only [newSegs, hnone]
    rw [if_pos (.inl hdata), hzero]
    exact makeSegs_zero _ _ _ _ hdata
  omega

theorem Ordered.enqueueData (h : Ordered p) {data : List UInt8} (hdata : data ≠ []) {avail : ℕ}
    (htakes : p.Takes data avail) : Ordered (p.tcpEnqueue data Flags.none [] avail).1 := by
  cases hresult : (p.tcpEnqueue data Flags.none [] avail).2 with
  | ok =>
    have henqueue := enqueue_result hresult
    exact h.enqueue (appends_data data (mss_pos hdata henqueue) h.mss) henqueue
  | error e =>
    rw [tcpEnqueue_eq] at hresult ⊢
    split
    · exact h
    · rename_i hbuf
      rw [if_neg hbuf] at hresult
      split
      · exact h
      · rename_i hqueue
        rw [if_neg hqueue] at hresult
        split
        · have hnone := (htakes (by omega) (by omega)).resolve_right fun hfits => by omega
          have hsame : (filled p.snd data Flags.none []).1 = p.snd.unsent := by
            exact fillLast_none hnone
          rw [hsame]
          exact h
        · rename_i hroom
          rw [if_neg hroom] at hresult
          cases hresult

theorem Ordered.write (h : Ordered p) (data : List UInt8) (opt : WriteOpt) (avail : ℕ)
    (htakes : p.Takes data avail) : Ordered (p.tcpWrite data opt avail).1 :=
  tcpWrite_keeps h (fun hdata => h.enqueueData hdata htakes) (fun _ hq => hq.output) opt

theorem Ordered.parseopt (h : Ordered p) (seg : RxSeg) : Ordered (p.parseopt seg) := by
  obtain ⟨mss, hle, hopt⟩ := parseopt_eq p seg
  rw [hopt]
  exact h.of_same ⟨rfl, rfl, rfl, rfl, rfl, rfl, rfl, hle, id⟩

theorem Ordered.processSynSent (h : Ordered p) (hs : p.state = .synSent) : Ordered (p.processSynSent seg) := by
  rcases processSynSent_cases p seg with heq | ⟨rseg, rest, hun, -, hack, heq⟩
  · rw [heq]
    exact h
  · obtain ⟨x, g, m, hn, -⟩ := h
    obtain ⟨d, hq⟩ := hn.queue
    obtain ⟨htcplen, hseqno, n, hlen, hrest⟩ := syn_first hq (hn.syn hs) hun
    obtain ⟨mss, hle, hopt⟩ := parseopt_eq (p.synAcked seg rest) seg
    rw [heq, hopt]
    dsimp only [synAcked] at hle ⊢
    have hfew := hn.few
    have hmax : tcpSndQueuelen < 2 ^ 16 := by decide
    have hmss := hn.mss
    have hlen' : ushortSub p.snd.sndQueuelen 1 = n := by
      rw [ushortSub]
      omega
    have hnext : rseg.seqno + 1 = num (x + g + 1) := by
      rw [hseqno, num_add (x + g)]
      rfl
    have hacked : extent p.snd.unacked = 1 + extent rest := by rw [hun, extent_cons, htcplen]
    have hsegs : extent p.snd.segs = 1 + extent (rest ++ p.snd.unsent) := by
      rw [Sender.segs, hun, List.cons_append, extent_cons, htcplen]
    obtain ⟨hlo, hhi⟩ := hn.bounds
    rw [hnext] at hrest
    refine ⟨x + g + 1, 0, m - g - 1, ⟨⟨d, ?_⟩, ?_, ?_, ?_, ?_, ?_, ?_, Int.le_refl _, fun s ss hcons => ?_,
      fun h => by cases h⟩, ?_⟩
    · rw [Int.add_zero]
      rw [hlen']
      exact hrest
    · dsimp only
      omega
    · dsimp only
      omega
    · exact hack.trans hnext
    · dsimp only
      rw [hn.sndNxt]
      apply congrArg num
      omega
    · rw [hn.sndMax]
      apply congrArg num
      omega
    · dsimp only [Sender.segs]
      omega
    · have hcounts := (hrest.fits s (by
        dsimp only [Sender.segs] at hcons
        rw [hcons]
        exact List.mem_cons_self ..)).counts
      omega
    · omega

theorem Ordered.receive {rest : RxSeg} (h : Ordered p) (hstate : p.state ≠ .synSent)
    (hack : seg.flags.ack = true → p.AckInOrder seg) (hreceive : p.tcpReceive seg = some (q, rest)) : Ordered q := by
  have hs := receiveData_sender hreceive
  exact (h.receiveAck hstate hack).of_same (.of_snd hs.snd fun h => hs.state.symm.trans h)

theorem Ordered.settled (h : Ordered p) (hlast : p.snd.lastack = p.snd.sndLbb) :
    p.snd.segs = [] ∧ p.snd.sndNxt = p.snd.lastack ∧ p.snd.sndMax = p.snd.lastack := by
  obtain ⟨x, g, m, hn, hpos⟩ := h
  have hext := hn.extent_le
  have hbounds := hn.bounds
  have hstart := hn.start
  rw [hn.lastack, hn.sndLbb] at hlast
  have hzero := num_inj hlast (by omega) (by omega)
  have hsegs : p.snd.segs = [] := by
    cases hcons : p.snd.segs with
    | nil => rfl
    | cons s ss =>
      have hfront := hn.front s ss hcons
      rw [hcons, extent_cons] at hzero
      omega
  rw [hn.sndNxt, hn.sndMax, hn.lastack]
  exact ⟨hsegs, by congr 1; omega, by congr 1; omega⟩

theorem Ordered.empty (h : Ordered p) (hsegs : p.snd.segs = []) :
    p.snd.lastack = p.snd.sndNxt ∧ p.snd.sndNxt = p.snd.sndMax ∧ p.snd.sndMax = p.snd.sndLbb := by
  obtain ⟨x, g, m, hn, hpos⟩ := h
  have hbounds := hn.bounds
  have hstart := hn.start
  have hsplit := segs_extent p
  rw [hsegs, extent_nil] at hsplit hbounds
  rw [hn.lastack, hn.sndNxt, hn.sndMax, hn.sndLbb, hsegs, extent_nil]
  exact ⟨by congr 1; omega, by congr 1; omega, by congr 1; omega⟩

theorem dupAck_ends (p : Pcb) (edge : UInt32) : (p.dupAck edge).snd.lastack = p.snd.lastack ∧
    (p.dupAck edge).snd.sndLbb = p.snd.sndLbb := by
  rcases dupAck_cases p edge with hs | ⟨r, hr, hs⟩
  · exact ⟨hs.lastack, hs.sndLbb⟩
  · have hsnd := (tcpRexmit_same r).snd
    refine ⟨hs.lastack.trans ?_, hs.sndLbb.trans ?_⟩
    · rw [hsnd]
      exact hr.lastack
    · rw [hsnd]
      exact hr.sndLbb

theorem receiveAck_sndLbb (p : Pcb) (seg : RxSeg) : (p.receiveAck seg).snd.sndLbb = p.snd.sndLbb := by
  have hs := (updateWindow_numbers p seg).sndLbb
  rcases receiveAck_cases p seg with ⟨-, -, heq⟩ | ⟨-, heq | heq | ⟨edge, heq⟩⟩
  · rw [heq, (newAck_acknowledges _ _).sndLbb, hs]
  · rw [heq]
  · rw [heq, hs]
  · rw [heq, (dupAck_ends _ _).2, hs]

/-- All that was queued was sent and is acknowledged, by this segment at the latest. -/
def Settles (p : Pcb) (seg : RxSeg) : Prop :=
  p.snd.lastack = p.snd.sndLbb ∨ (seg.flags.ack = true ∧ seg.ackno = p.snd.sndLbb ∧ p.snd.sndMax = p.snd.sndLbb)

theorem Ordered.settles (h : Ordered p) (hack : seg.flags.ack = true → p.AckInOrder seg) (hsettles : p.Settles seg) :
    (p.receiveAck seg).snd.lastack = p.snd.sndLbb := by
  have hs := updateWindow_numbers p seg
  rw [Pcb.receiveAck]
  split
  · rename_i hflag
    dsimp only
    rw [hs.lastack, hs.sndMax]
    split
    · rename_i hdup
      rw [(dupAck_ends _ _).1, hs.lastack]
      exact hsettles.elim id fun hout => hdup.trans hout.2.1
    · rename_i hdup
      split
      · rename_i hnew
        -- an acknowledgement of new data is of the last number that was sent, or there is none
        rw [(newAck_acknowledges _ _).lastack]
        rcases hsettles with hlast | ⟨-, hackno, -⟩
        · have hmax := (h.settled hlast).2.2
          obtain ⟨x, g, m, hn, hpos⟩ := h
          obtain ⟨e, -, he, hem⟩ := hn.ackno hpos ⟨hdup, hnew⟩ ((hack hflag).new ⟨hdup, hnew⟩)
          have hext := hn.extent_le
          have hbounds := hn.bounds
          have hstart := hn.start
          rw [hn.lastack, hn.sndMax] at hmax
          have hzero := num_inj hmax (by omega) (by omega)
          omega
        · exact hackno
      · rename_i hnew
        rw [hs.lastack]
        refine hsettles.elim id fun hout => ?_
        obtain ⟨-, hackno, hmax⟩ := hout
        obtain ⟨x, g, m, hn, hpos⟩ := h
        have hext := hn.extent_le
        have hbounds := hn.bounds
        have hstart := hn.start
        by_contra hne
        apply hnew
        have hm : 0 < m := by
          by_contra hzero
          apply hne
          rw [← hmax, hn.lastack, hn.sndMax]
          congr 1
          omega
        rw [hackno, ← hmax]
        refine ⟨?_, seqLeq_refl _⟩
        rw [hn.lastack, hn.sndMax, seqLt_num (by omega) (by omega)]
        omega
  · rename_i hflag
    exact hsettles.elim id fun h => absurd h.1 hflag

/-- After `tcp_receive` the segment moves the connection to `TIME_WAIT`. -/
def Finishes (p : Pcb) (seg : RxSeg) : Prop :=
  (p.state = .finWait1 ∧ seg.flags.fin = true ∧ p.acksAll seg = true) ∨
    (p.state = .finWait2 ∧ seg.flags.fin = true) ∨ (p.state = .closing ∧ p.acksAll seg = true)

theorem Ordered.enterTimeWait (h : Ordered p) (hlast : p.snd.lastack = p.snd.sndLbb) : Ordered p.enterTimeWait := by
  have hsegs := (h.settled hlast).1
  rw [Sender.segs, List.append_eq_nil_iff] at hsegs
  have hnumbers : SameNumbers p p.enterTimeWait := by
    rw [Pcb.enterTimeWait, purge]
    split
    · exact ⟨hsegs.1.symm, hsegs.2.symm, rfl, rfl, rfl, rfl, rfl, Nat.le_max_left _ _, fun h => by cases h⟩
    · exact ⟨rfl, rfl, rfl, rfl, rfl, rfl, rfl, Nat.le_max_left _ _, fun h => by cases h⟩
  exact h.of_same hnumbers

theorem Ordered.afterReceive (h : Ordered p) (hlast : p.Finishes seg → p.snd.lastack = p.snd.sndLbb) :
    Ordered (p.afterReceive seg) := by
  have hstate (s : TcpState) (now closed : Bool) (hne : s ≠ .synSent) :
      Ordered { p with ackNow := now, state := s, closed := closed } := h.of_same (.of_snd rfl fun hs => absurd hs hne)
  unfold Pcb.afterReceive
  split
  · split
    · exact hstate _ _ p.closed (by decide)
    · exact h
  · split
    · exact hstate _ _ p.closed (by decide)
    · exact h
  · rename_i hs
    split
    · rename_i hfin
      split
      · rename_i hacks
        exact h.enterTimeWait (hlast (.inl ⟨hs, hfin, hacks⟩))
      · exact hstate _ _ p.closed (by decide)
    · split
      · exact hstate _ p.ackNow p.closed (by decide)
      · exact h
  · rename_i hs
    split
    · rename_i hfin
      exact h.enterTimeWait (hlast (.inr (.inl ⟨hs, hfin⟩)))
    · exact h
  · rename_i hs
    split
    · rename_i hacks
      exact h.enterTimeWait (hlast (.inr (.inr ⟨hs, hacks⟩)))
    · exact h
  · split
    · exact hstate _ p.ackNow true (by decide)
    · exact h
  · exact h

/-- A segment leaves the send variables in order: its acknowledgement does, if `tcp_receive` reads it, and it moves the
connection to `TIME_WAIT` only if all is settled. -/
structure InOrder (p : Pcb) (seg : RxSeg) : Prop where
  ack : p.state ≠ .synSent → p.state ≠ .timeWait → (p.state = .synRcvd → seqLeq seg.ackno p.snd.sndNxt) →
    seg.flags.rst = false → seg.flags.ack = true → p.AckInOrder seg
  last : seg.flags.rst = false → (p.receiveAck seg).Finishes seg → p.Settles seg

theorem Ordered.process {cb : Callbacks} {rest : RxSeg} {aborted : Bool} (h : Ordered p) (hin : p.InOrder seg)
    (hprocess : p.tcpProcess seg cb = some (q, rest, aborted)) : (aborted = true ∧ q.state = .closed) ∨ Ordered q := by
  cases tcpProcess_cases hprocess with
  | kept => exact .inr h
  | reset => exact .inr (h.of_same (.of_snd rfl id))
  | synSent hs hrst => exact .inr (h.processSynSent hs)
  | refused hs => exact .inl ⟨rfl, rfl⟩
  | accepted hs hrst hacks hreceive =>
    have hopened : Ordered { p with state := .established } := h.of_same (.of_snd rfl fun h => nomatch h)
    have hack : AckInOrder { p with state := .established } seg := by
      have ha := hin.ack (by simp [hs]) (by simp [hs]) (fun _ => hacks.2.2) hrst hacks.1
      refine ⟨ha.new, fun hdup => ?_⟩
      have hlt := hacks.2.1
      rw [hdup] at hlt
      exact absurd hlt (seqLt_irrefl _)
    exact .inr ((hopened.receive (by simp) (fun _ => hack) hreceive).of_same
      ⟨rfl, rfl, rfl, rfl, rfl, rfl, rfl, Nat.le_max_left _ _, id⟩)
  | timeWait hs next now => exact .inr (h.of_same (.of_snd rfl fun hsent => by simp [hs] at hsent))
  | received hsent hrcvd hwait hrst hreceive =>
    have hack := hin.ack hsent hwait (fun hs => absurd hs hrcvd) hrst
    have hd := receiveData_sender hreceive
    refine .inr ((h.receive hsent hack hreceive).afterReceive fun hfinishes => ?_)
    rw [hd.snd, receiveAck_sndLbb]
    refine h.settles hack (hin.last hrst ?_)
    rw [Finishes, acksAll, ← hd.state, ← hd.snd]
    exact hfinishes

theorem Ordered.finish (h : Ordered p) (hf : Finish p q) : q.state = .closed ∨ Ordered q := by
  have hkept (r : Receiver) : Ordered { p with rcv := r } := h.of_same (.of_snd rfl id)
  cases hf with
  | gone q hgone _ => exact .inl hgone
  | kept r _ => exact .inr (hkept r)
  | output r _ => exact .inr (hkept r).output
  | close r avail _ _ => exact .inr ((hkept r).close avail).output

theorem cleared_numbers (p : Pcb) : SameNumbers p p.cleared := by
  rw [cleared]
  split
  · exact ⟨rfl, rfl, rfl, rfl, rfl, rfl, rfl, Nat.le_max_left _ _, id⟩
  · exact ⟨rfl, rfl, rfl, rfl, rfl, rfl, rfl, Nat.le_max_left _ _, id⟩

theorem Ordered.input {cb : Callbacks} (h : Ordered p) (hin : p.cleared.InOrder seg)
    (hstep : p.tcpInput seg cb = some q) : q.state = .closed ∨ Ordered q := by
  obtain ⟨r, rest, aborted, q', hprocess, hq', rfl⟩ := tcpInput_cases hstep
  have hr := (h.of_same (cleared_numbers p)).process hin hprocess
  have hend : q'.state = .closed ∨ Ordered q' := by
    rw [hq']
    rcases hr with ⟨haborted, hclosed⟩ | hr
    · rw [if_pos (.inl haborted)]
      exact .inl hclosed
    · split
      · exact .inr hr
      · exact hr.finish (finishInput_finish r cb)
  exact hend.imp id fun h => h.of_same (.of_snd rfl id)

theorem Ordered.timeout (h : Ordered p) (hr : p.Resends) : Ordered p.timeout :=
  (h.rexmit hr).of_same ⟨rfl, rfl, rfl, rfl, rfl, rfl, rfl, Nat.le_max_left _ _, id⟩

theorem Ordered.slowtmr (h : Ordered p) (e : Expired) (hr : e.rexmit = true → p.Resends) : Ordered (p.slowtmr e) := by
  have hsent : Ordered (if e.rexmit ∧ p.snd.unacked ≠ [] then p.timeout else p) := by
    split
    · rename_i hexpired
      exact h.timeout (hr hexpired.1)
    · exact h
  rw [Pcb.slowtmr]
  by_cases hooseq : e.ooseq = true
  · rw [if_pos hooseq]
    exact hsent.of_same (.of_snd rfl id)
  · rw [if_neg hooseq]
    exact hsent

/-- A SYN that is queued with the number before `iss` leaves the variables in order when it is sent, if `snd_max` was
not behind `iss`. -/
theorem Ordered.sendSyn {iss : UInt32} {s : SendSeg} {d : List UInt8}
    (hq : Queue p.snd.segs (iss - 1) p.snd.sndLbb d p.snd.sndQueuelen) (hfew : p.snd.sndQueuelen ≤ tcpSndQueuelen)
    (hmss : p.snd.mss ≤ tcpMss) (hua : p.snd.unacked = []) (hun : p.snd.unsent = [s]) (hsyn : s.flags.syn = true)
    (hlen : s.len = 0) (hlast : p.snd.lastack = iss - 1) (hmax : seqLt p.snd.sndMax iss ∨ p.snd.sndMax = iss) :
    Ordered p.tcpOutput := by
  have hsegs : p.snd.segs = [s] := by rw [Sender.segs, hua, hun, List.nil_append]
  have htcplen : s.tcplen = 1 := by rw [SendSeg.tcplen, hlen, if_pos (by simp [hsyn])]
  have hfirst : num (iss.toNat - 1) = iss - 1 := by
    rw [num_sub, num_toNat]
    rfl
  have hseqno : s.seqno = iss - 1 := by
    rw [hsegs] at hq
    exact hq.follows.1
  have hnext : (s.mark p.state).next = iss := by
    rw [SendSeg.mark_next, SendSeg.next, htcplen, hseqno]
    exact UInt32.sub_add_cancel iss 1
  -- sending the SYN sets `snd_nxt` and `snd_max`, as if they had been in order before
  have hbefore : Numbered { p with snd := { p.snd with sndNxt := iss - 1, sndMax := iss } } (iss.toNat - 1) 0 1 := by
    refine ⟨⟨d, ?_⟩, hfew, hmss, hlast.trans hfirst.symm, ?_, ?_, ?_, Int.le_refl _, fun t ts ht => ?_,
      fun _ => ⟨s, [], hsegs, hsyn⟩⟩
    · rw [Int.add_zero, hfirst]
      exact hq
    · rw [hua, extent_nil, Int.natCast_zero, Int.add_zero, Int.add_zero, hfirst]
    · rw [Int.sub_add_cancel, num_toNat]
    · dsimp only [Sender.segs]
      rw [hua, hun, extent_nil, List.nil_append, extent_cons]
      omega
    · obtain ⟨rfl, -⟩ := List.cons.inj (hsegs.symm.trans ht)
      omega
  have hsent : p.sendSegment s [] =
      { p with snd := { p.snd with sndNxt := iss - 1, sndMax := iss } }.sendSegment s [] := by
    have hmax' : (if seqLt p.snd.sndMax iss then iss else p.snd.sndMax) = iss := by
      split
      · rfl
      · rename_i hnot
        exact hmax.resolve_left hnot
    by_cases hstate : p.state ≠ .synSent
    · simp [sendSegment, hstate, hnext, hmax']
    · simp [sendSegment, hstate, hnext, hmax']
  have hroom : (s.seqno - p.snd.lastack + num s.len).toNat ≤ min p.snd.sndWnd p.snd.cwnd := by
    rw [hseqno, hlast, hlen]
    simp [num_zero]
  rw [tcpOutput, hun, Pcb.outputLoop, if_pos hroom, hsent]
  exact (hbefore.sendSegment hun).flushed

theorem Ordered.connect {iss₀ iss : UInt32} {avail : ℕ} (hiss : seqLt iss₀ iss ∨ iss₀ = iss)
    (h : (tcpNew iss₀).tcpConnect iss avail = (p, .ok ())) : Ordered p := by
  rw [tcpConnect] at h
  split at h
  · rename_i hok
    obtain ⟨rfl, -⟩ := Prod.mk.inj h
    have henqueue := enqueue_result hok
    obtain ⟨s, hua, hun, -, hlen, hflags⟩ := enqueue_first rfl rfl henqueue
    have hempty : Queue [] (iss - 1) (iss - 1) [] 0 := .nil _
    have hqueue := (appends_flags rfl (fun _ => by simp [mssOption]) (Nat.le_refl tcpMss)).queue henqueue hempty
    have hfew := (ok_queuelen henqueue).2
    have hsnd := (tcpEnqueue_ok henqueue).2
    refine Ordered.sendSyn hqueue hfew ?_ hua hun (by rw [hflags]) hlen ?_ ?_
    · rw [hsnd]
    · rw [hsnd]
    · rw [hsnd]
      exact hiss
  · cases (Prod.mk.inj h).2

theorem Ordered.listen {iss : UInt32} {avail : ℕ} (h : listenSyn seg iss avail = some p) : Ordered p := by
  rw [listenSyn] at h
  split at h
  · obtain rfl := Option.some.inj h
    apply Ordered.output
    have hnew : Ordered { tcpNew iss with
        state := .synRcvd
        snd := { (tcpNew iss).snd with sndWnd := seg.wnd, ssthresh := seg.wnd, sndWl1 := seg.seqno - 1 }
        rcv := { (tcpNew iss).rcv with rcvNxt := seg.seqno + 1 } } := by
      have hiss : num iss.toNat = iss := num_toNat iss
      refine ⟨iss.toNat, 0, 0, ⟨⟨[], ?_⟩, Nat.zero_le _, Nat.le_refl _, hiss.symm, ?_, ?_, ?_, Int.le_refl _,
        fun s ss h => (by cases h), fun h => (by cases h)⟩, Int.le_refl _⟩
      · rw [Int.add_zero, hiss]
        exact .nil iss
      · simp [tcpNew, extent, hiss]
      · simp [tcpNew, hiss]
      · exact ⟨Int.le_refl _, Int.le_refl _⟩
    have hread := hnew.parseopt seg
    exact hread.enqueueFlags rfl (fun _ => by simp [mssOption]) avail
  · cases h

/-- The runs of a connection from `tcp_connect` or from a SYN to a listening connection to its close: the segments
it receives, its timers and the calls of the application. -/
inductive Ordering : Pcb → Prop
  | connect {iss₀ iss : UInt32} {avail : ℕ} {p : Pcb} : seqLt iss₀ iss ∨ iss₀ = iss →
      (tcpNew iss₀).tcpConnect iss avail = (p, .ok ()) → Ordering p
  | listen {seg : RxSeg} {iss : UInt32} {avail : ℕ} {p : Pcb} : listenSyn seg iss avail = some p → Ordering p
  | input {p q : Pcb} (seg : RxSeg) (cb : Callbacks) : Ordering p → p.state ≠ .closed → p.cleared.InOrder seg →
      p.tcpInput seg cb = some q → Ordering q
  | slowtmr {p : Pcb} (e : Expired) : Ordering p → p.state ≠ .closed → (e.rexmit = true → p.Resends) →
      Ordering (p.slowtmr e)
  | write {p : Pcb} (data : List UInt8) (opt : WriteOpt) (avail : ℕ) : Ordering p → p.state ≠ .closed →
      p.Takes data avail → Ordering (p.tcpWrite data opt avail).1
  | recved {p : Pcb} (len : ℕ) : Ordering p → p.state ≠ .closed → Ordering (p.tcpRecved len)
  | output {p : Pcb} : Ordering p → p.state ≠ .closed → Ordering p.tcpOutput
  | close {p : Pcb} (avail : ℕ) : Ordering p → p.state ≠ .closed → Ordering (p.tcpClose avail).1

theorem Ordering.ordered (h : Ordering p) : p.state = .closed ∨ Ordered p := by
  induction h with
  | connect hiss h => exact .inr (Ordered.connect hiss h)
  | listen h => exact .inr (Ordered.listen h)
  | input seg cb _ hopen hin hstep ih => exact (ih.resolve_left hopen).input hin hstep
  | slowtmr e _ hopen hr ih => exact .inr ((ih.resolve_left hopen).slowtmr e hr)
  | write data opt avail _ hopen htakes ih => exact .inr ((ih.resolve_left hopen).write data opt avail htakes)
  | recved len _ hopen ih => exact .inr ((ih.resolve_left hopen).of_same (.of_snd rfl id))
  | output _ hopen ih => exact .inr (ih.resolve_left hopen).output
  | close avail _ hopen ih => exact .inr ((ih.resolve_left hopen).close avail)

/-- In every run `lastack`, `snd_nxt`, `snd_max` and `snd_lbb` are in this order, and the same when nothing is queued.
The acknowledgement of all that was queued and sent is recognised as one of `snd_nxt`. -/
theorem send_order (h : Ordering p) (hopen : p.state ≠ .closed) :
    (seqLeq p.snd.lastack p.snd.sndNxt ∧ seqLeq p.snd.sndNxt p.snd.sndMax ∧ seqLeq p.snd.sndMax p.snd.sndLbb) ∧
      (p.snd.unsent = [] → p.snd.unacked = [] →
        p.snd.lastack = p.snd.sndNxt ∧ p.snd.sndNxt = p.snd.sndMax ∧ p.snd.sndMax = p.snd.sndLbb) ∧
      ∀ (seg rest : RxSeg) (r : Pcb), p.state ≠ .synSent → p.AckInOrder seg → seg.flags.ack = true →
        seg.ackno = p.snd.sndLbb → p.snd.sndMax = p.snd.sndLbb → p.tcpReceive seg = some (r, rest) →
        r.acksAll seg = true := by
  have ho := h.ordered.resolve_left hopen
  refine ⟨?_, fun hunsent hunacked => ?_, fun seg rest r hstate hack hflag hackno hmax hreceive => ?_⟩
  · obtain ⟨x, g, m, hn, hpos⟩ := ho
    have hext := hn.extent_le
    have hbounds := hn.bounds
    have hstart := hn.start
    rw [hn.lastack, hn.sndNxt, hn.sndMax, hn.sndLbb, seqLeq_num (by omega) (by omega),
      seqLeq_num (by omega) (by omega), seqLeq_num (by omega) (by omega)]
    omega
  · apply ho.empty
    rw [Sender.segs, hunsent, hunacked, List.append_nil]
  · have hr := ho.receive hstate (fun _ => hack) hreceive
    have hd := receiveData_sender hreceive
    have hlast := ho.settles (fun _ => hack) (.inr ⟨hflag, hackno, hmax⟩)
    have hlbb := receiveAck_sndLbb p seg
    rw [← hd.snd] at hlast hlbb
    have hnxt := (hr.settled (hlast.trans hlbb.symm)).2.1
    rw [acksAll, hflag, hackno, hnxt, hlast]
    simp

/-- A connection that is opened, and whose data is acknowledged. -/
theorem send_order_acknowledged : ∃ p : Pcb, p.state = .established ∧ p.snd.sndNxt = 6514 ∧
    p.snd.lastack = p.snd.sndNxt ∧ p.snd.sndNxt = p.snd.sndMax ∧ p.snd.sndMax = p.snd.sndLbb := by
  have hfinishes {p : Pcb} {seg : RxSeg} (hearly : p.state = .synSent ∨ p.state = .established) :
      ¬ (p.receiveAck seg).Finishes seg := by
    have hstate := (receiveAck_receiver p seg).state
    rw [Finishes, hstate]
    rcases hearly with h | h <;> simp [h]
  let p₀ : Pcb := ((tcpNew 6510).tcpConnect 6511 1).1
  have h₀ : Ordering p₀ := .connect (show seqLt 6510 6511 ∨ _ from .inl (by decide))
    (show (tcpNew 6510).tcpConnect 6511 1 = (p₀, .ok ()) from rfl)
  have h₁ := h₀.input ⟨77, 6511, 1000, { Flags.none with syn := true, ack := true }, none, 0, none⟩
    ⟨none, none, none, 0⟩ (by decide)
    ⟨fun hne => absurd rfl hne, fun _ hlast => absurd hlast (hfinishes (.inl rfl))⟩ rfl
  have h₂ := h₁.write [1, 2, 3] .flush 1 (by decide) (fun _ _ => .inr (by decide +kernel))
  have h₃ := h₂.input ⟨78, 6514, 1000, { Flags.none with ack := true }, none, 0, none⟩
    ⟨none, none, none, 0⟩ (by decide +kernel)
    ⟨fun _ _ _ _ _ => ⟨fun _ => ⟨by decide +kernel, .inl (by decide +kernel)⟩, fun h => absurd h (by decide +kernel)⟩,
      fun _ hlast => absurd hlast (hfinishes (.inr (by decide +kernel)))⟩ (Option.some_get (by decide +kernel)).symm
  exact ⟨_, by decide +kernel, by decide +kernel, (send_order h₃ (by decide +kernel)).2.1
    (List.length_eq_zero_iff.1 (by decide +kernel)) (List.length_eq_zero_iff.1 (by decide +kernel))⟩

/-- The peer closes its window, the data is retransmitted but does not fit, and then the peer acknowledges it: `snd_nxt`
stays before the acknowledgement, though nothing is queued. -/
theorem send_order_behind : ∃ p₀ p₁ p₂ p₃ p₄ p₅ : Pcb,
    (tcpNew 6510).tcpConnect 6511 1 = (p₀, .ok ()) ∧
      p₀.tcpInput ⟨77, 6511, 1000, { Flags.none with syn := true, ack := true }, none, 0, none⟩
        ⟨none, none, none, 0⟩ = some p₁ ∧
      p₁.tcpWrite [1] .flush 1 = (p₂, .ok ()) ∧
      p₂.tcpInput ⟨78, 6511, 0, { Flags.none with ack := true }, none, 0, none⟩ ⟨none, none, none, 0⟩ = some p₃ ∧
      p₃.slowtmr ⟨false, true, false⟩ = p₄ ∧
      p₄.tcpInput ⟨78, 6512, 0, { Flags.none with ack := true }, none, 0, none⟩ ⟨none, none, none, 0⟩ = some p₅ ∧
      p₅.state = .established ∧ p₅.snd.unsent = [] ∧ p₅.snd.unacked = [] ∧
      p₅.snd.lastack = 6512 ∧ p₅.snd.sndNxt = 6511 ∧ ¬ seqLeq p₅.snd.lastack p₅.snd.sndNxt :=
  ⟨_, _, _, _, _, _, rfl, rfl, rfl, rfl, rfl, rfl, rfl, rfl, rfl, by decide +kernel, by decide +kernel, by decide +kernel⟩

end Pcb

end SimpleKernel.Tcp
