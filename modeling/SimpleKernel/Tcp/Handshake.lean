import SimpleKernel.Tcp.Frames

/-! Opening a connection: which segments move it to `ESTABLISHED`. -/
namespace SimpleKernel.Tcp
open SeqNum

/-- The states before a connection is open. -/
def TcpState.Early (s : TcpState) : Prop := s = .listen ∨ s = .synSent ∨ s = .synRcvd

/-- The states of a connection that both ends have opened. -/
def TcpState.Opened (s : TcpState) : Prop := s ≠ .closed ∧ ¬ s.Early

namespace Pcb
variable {p q : Pcb} {cb : Callbacks} {seg : RxSeg} {our : UInt32}

/-- In `SYN_SENT` the first segment is our SYN, with number `our`. -/
structure SynFirst (our : UInt32) (p : Pcb) : Prop where
  gotFin : p.gotFin = false
  head : ∃ syn rest, p.snd.segs = syn :: rest ∧ syn.seqno = our ∧ 0 < syn.tcplen

/-- In `SYN_RCVD` the SYN of the peer has number `irs`, and there is nothing but our SYN to send. -/
structure SynOnly (our irs : UInt32) (p : Pcb) : Prop where
  gotFin : p.gotFin = false
  rcvNxt : p.rcv.rcvNxt = irs + 1
  ooseq : p.rcv.ooseq = []
  lastack : p.snd.lastack = our
  sndNxt : p.snd.sndNxt = our ∨ p.snd.sndNxt = our + 1
  segs : ∀ s ∈ p.snd.segs, s.seqno = our ∧ s.next = our + 1

theorem SynFirst.tcpOutput (h : SynFirst our p) : SynFirst our p.tcpOutput := by
  obtain ⟨sent, rest, hs⟩ := tcpOutput_sends p
  obtain ⟨syn, segs, hsegs, hseqno, hpos⟩ := h.head
  refine ⟨hs.same.gotFin.trans h.gotFin, ?_⟩
  rw [Sender.segs, hs.unsent] at hsegs
  rw [Sender.segs, hs.unacked, hs.left]
  cases hun : p.snd.unacked with
  | cons s ss =>
    rw [hun] at hsegs
    obtain ⟨rfl, -⟩ := List.cons.inj hsegs
    exact ⟨s, _, rfl, hseqno, hpos⟩
  | nil =>
    rw [hun] at hsegs
    cases sent with
    | nil => exact ⟨syn, segs, by simpa using hsegs, hseqno, hpos⟩
    | cons s ss =>
      obtain ⟨rfl, -⟩ := List.cons.inj hsegs
      refine ⟨s.mark p.state, (ss.filter fun s => decide (0 < s.tcplen)).map (·.mark p.state) ++ rest, ?_, ?_, ?_⟩
      · simp [hpos]
      · rw [SendSeg.mark_seqno, hseqno]
      · rw [SendSeg.mark_tcplen]
        exact hpos

theorem SynOnly.tcpOutput {irs : UInt32} (h : SynOnly our irs p) : SynOnly our irs p.tcpOutput := by
  obtain ⟨sent, rest, hs⟩ := tcpOutput_sends p
  have hall := h.segs
  rw [Sender.segs, hs.unsent] at hall
  refine ⟨hs.same.gotFin.trans h.gotFin, ?_, ?_, ?_, ?_, ?_⟩
  · rw [hs.same.rcv, h.rcvNxt]
  · rw [hs.same.rcv, h.ooseq]
  · rw [hs.same.snd, h.lastack]
  · rw [hs.sndNxt]
    cases hlast : sent.getLast? with
    | none => exact h.sndNxt
    | some s =>
      have hmem : s ∈ sent := List.mem_of_getLast? hlast
      exact .inr (hall s (by simp [hmem])).2
  · intro s hmem
    rw [Sender.segs, hs.unacked, hs.left] at hmem
    simp only [List.mem_append, List.mem_map, List.mem_filter] at hmem
    rcases hmem with (hmem | ⟨t, ⟨hmem, -⟩, rfl⟩) | hmem
    · exact hall s (by simp [hmem])
    · rw [SendSeg.mark_seqno, SendSeg.mark_next]
      exact hall t (by simp [hmem])
    · exact hall s (by simp [hmem])

theorem SynFirst.tcpRexmit (h : SynFirst our p) : SynFirst our p.tcpRexmit := by
  rw [Pcb.tcpRexmit]
  split
  · exact h
  · rename_i s ss hun
    apply SynFirst.tcpOutput
    refine ⟨h.gotFin, ?_⟩
    obtain ⟨syn, segs, hsegs, hsyn⟩ := h.head
    rw [Sender.segs, hun] at hsegs
    exact ⟨syn, segs, hsegs, hsyn⟩

theorem SynOnly.tcpRexmit {irs : UInt32} (h : SynOnly our irs p) : SynOnly our irs p.tcpRexmit := by
  rw [Pcb.tcpRexmit]
  split
  · exact h
  · rename_i s ss hun
    have hall := h.segs
    rw [Sender.segs, hun] at hall
    apply SynOnly.tcpOutput
    exact ⟨h.gotFin, h.rcvNxt, h.ooseq, h.lastack, .inl (hall s (by simp)).1, hall⟩

theorem SynFirst.of_same (h : SynFirst our p) (hfin : q.gotFin = p.gotFin) (hsnd : q.snd.segs = p.snd.segs) :
    SynFirst our q :=
  ⟨hfin.trans h.gotFin, by rw [hsnd]; exact h.head⟩

theorem SynFirst.finish (h : SynFirst our p) (hf : Finish p q) :
    q.state = .closed ∨ (q.state = p.state ∧ SynFirst our q) := by
  cases hf with
  | gone q hgone _ => exact .inl hgone
  | kept r _ => exact .inr ⟨rfl, h.of_same rfl rfl⟩
  | output r _ =>
    have h' : SynFirst our { p with rcv := r } := h.of_same rfl rfl
    exact .inr ⟨(tcpOutput_same _).state, h'.tcpOutput⟩
  | close r avail hgot _ =>
    rw [h.gotFin] at hgot
    cases hgot

theorem SynOnly.finish {irs : UInt32} (h : SynOnly our irs p) (hf : Finish p q) :
    q.state = .closed ∨ (q.state = p.state ∧ SynOnly our irs q) := by
  have hkept (r : Receiver) (hr : SameSequence p.rcv r) : SynOnly our irs { p with rcv := r } :=
    ⟨h.gotFin, hr.rcvNxt.trans h.rcvNxt, hr.ooseq.trans h.ooseq, h.lastack, h.sndNxt, h.segs⟩
  cases hf with
  | gone q hgone _ => exact .inl hgone
  | kept r hr => exact .inr ⟨rfl, hkept r hr⟩
  | output r hr => exact .inr ⟨(tcpOutput_same _).state, (hkept r hr).tcpOutput⟩
  | close r avail hgot _ =>
    rw [h.gotFin] at hgot
    cases hgot

theorem tcpProcess_synSent {r : Pcb} {rest : RxSeg} {aborted : Bool} (hs : p.state = .synSent)
    (h : p.tcpProcess seg cb = some (r, rest, aborted)) :
    aborted = false ∧
      ((r.state = .synSent ∧ r.gotFin = p.gotFin ∧ r.snd = p.snd) ∨
        (seg.flags.rst = false ∧ (seg.flags.ack = true ∨ seg.flags.syn = true) ∧
          (∃ syn rest, p.snd.unacked = syn :: rest ∧ seg.ackno = syn.seqno + 1) ∧
          r.state = .established ∧ r.rcv.rcvNxt = seg.seqno + 1)) := by
  cases tcpProcess_cases h with
  | kept => exact ⟨rfl, .inl ⟨hs, rfl, rfl⟩⟩
  | reset => exact ⟨rfl, .inl ⟨hs, rfl, rfl⟩⟩
  | refused hs' => cases hs.symm.trans hs'
  | accepted hs' _ _ _ => cases hs.symm.trans hs'
  | timeWait hs' _ _ => cases hs.symm.trans hs'
  | received hsent _ _ _ _ => exact absurd hs hsent
  | synSent _ hrst =>
    refine ⟨rfl, ?_⟩
    rcases processSynSent_cases p seg with heq | ⟨syn, rest, hun, hflags, hack, heq⟩
    · rw [heq]
      exact .inl ⟨hs, rfl, rfl⟩
    · have hopt := parseopt_receiver (p.synAcked seg rest) seg
      rw [heq]
      exact .inr ⟨hrst, hflags, ⟨syn, rest, hun, hack⟩, hopt.state, congrArg Receiver.rcvNxt hopt.rcv⟩

/-- A segment in `SYN_SENT` resets the connection, leaves it waiting for the SYN of the peer, or acknowledges our
SYN and carries a SYN or an acknowledgement. -/
theorem input_synSent (hs : p.state = .synSent) (h : SynFirst our p) (hstep : p.tcpInput seg cb = some q) :
    q.state = .closed ∨ (q.state = .synSent ∧ SynFirst our q) ∨
      (seg.flags.rst = false ∧ (seg.flags.ack = true ∨ seg.flags.syn = true) ∧
        (∃ syn rest, p.snd.unacked = syn :: rest ∧ seg.ackno = syn.seqno + 1) ∧ seg.ackno = our + 1 ∧
        q.rcv.rcvNxt = seg.seqno + 1 ∧ ¬ q.state.Early) := by
  obtain ⟨r, rest, aborted, q', hprocess, hq', rfl⟩ := tcpInput_cases hstep
  have hstate : p.cleared.state = .synSent := (cleared_state p).trans hs
  have hcleared : p.cleared = { p with rcv := { p.rcv with recvData := none }, snd := { p.snd with acked := 0 } } :=
    cleared_eq (by simp [hs])
  have hfirst : SynFirst our p.cleared := by
    rw [hcleared]
    exact h.of_same rfl rfl
  have hfinish := finishInput_finish r cb
  obtain ⟨rfl, hcases⟩ := tcpProcess_synSent hstate hprocess
  rcases hcases with ⟨hr, hfin, hsnd⟩ | ⟨hrst, hflags, ⟨syn, segs, hun, hack⟩, hr, hnxt⟩
  · rw [if_neg (by simp [hr])] at hq'
    rw [← hq'] at hfinish
    have hfirst' : SynFirst our r := hfirst.of_same hfin (by rw [hsnd])
    rcases hfirst'.finish hfinish with hgone | ⟨hkept, hq⟩
    · exact .inl hgone
    · exact .inr (.inl ⟨hkept.trans hr, hq.of_same rfl rfl⟩)
  · rw [if_neg (by simp [hr])] at hq'
    rw [← hq'] at hfinish
    have hun' : p.snd.unacked = syn :: segs := by
      rw [← hun, hcleared]
    have hour : syn.seqno = our := by
      obtain ⟨syn', segs', hsegs, hseqno, -⟩ := h.head
      rw [Sender.segs, hun'] at hsegs
      rw [(List.cons.inj hsegs).1, hseqno]
    refine .inr (.inr ⟨hrst, hflags, ⟨syn, segs, hun', hack⟩, by rw [hack, hour], ?_, ?_⟩)
    · rw [hfinish.rcvNxt, hnxt]
    · have hlast := hfinish.state
      rw [hr] at hlast
      rcases hlast with h | h | h | h <;> simp [h, TcpState.Early]

/-- The numbers by which a segment moves `rcv_nxt`: none, or those of its end. -/
def Advances (seg : RxSeg) (before after : UInt32) : Prop :=
  after = before ∨ ∃ n : ℤ, 0 < n ∧ n ≤ seg.tcplen ∧ after = before + num n ∧ after = seg.seqno + num seg.tcplen

theorem fresh_advances (hlen : seg.tcplen < 2 ^ 31) (hpos : 0 < seg.tcplen) (nxt : UInt32)
    (hnext : (seg.fresh nxt).seqno = nxt) : Advances seg nxt (nxt + num (seg.fresh nxt).tcplen) := by
  right
  rw [RxSeg.fresh] at hnext ⊢
  split at hnext
  · rename_i hlate
    rw [if_pos hlate]
    obtain ⟨hoff, hlt⟩ := diff_of_between hlen hpos hlate.1 hlate.2
    have htcplen : (seg.trimFront nxt).tcplen = seg.tcplen - diff nxt seg.seqno := by
      have hmax : ((diff nxt seg.seqno).toNat : ℤ) = diff nxt seg.seqno := Int.toNat_of_nonneg (by omega)
      simp only [RxSeg.trimFront, RxSeg.tcplen, hmax]
      omega
    refine ⟨(seg.trimFront nxt).tcplen, by omega, by omega, rfl, ?_⟩
    obtain ⟨x, d, hx, hd, hdiff⟩ := exists_num seg.seqno nxt
    rw [htcplen, ← hdiff, hd, hx, ← num_add, ← num_add]
    congr 1
    omega
  · rename_i hlate
    rw [if_neg hlate, ← hnext]
    exact ⟨seg.tcplen, hpos, Int.le_refl _, rfl, rfl⟩

theorem receiveData_advances {rest : RxSeg} (hlen : seg.tcplen < 2 ^ 31) (hq : p.rcv.ooseq = [])
    (h : p.receiveData seg = some (q, rest)) : Advances seg p.rcv.rcvNxt q.rcv.rcvNxt := by
  cases receiveData_step h with
  | empty now _ => exact .inl rfl
  | next now q rest hpos _ hnext h =>
    have hnxt : q.rcv.rcvNxt = p.rcv.rcvNxt + num (seg.fresh p.rcv.rcvNxt).tcplen := by
      obtain ⟨n, fin, ha⟩ := inSequence_accepts h
      have hcut : p.rcv.cut (seg.fresh p.rcv.rcvNxt) = seg.fresh p.rcv.rcvNxt := by
        rw [Receiver.cut, hq]
      have hdequeue := ha.dequeued
      rw [hq, hcut] at hdequeue
      rw [← (Prod.mk.inj (Option.some.inj hdequeue)).1, Receiver.take_rcvNxt]
      rfl
    rw [hnxt]
    exact fresh_advances hlen hpos _ hnext
  | wait now _ _ _ => exact .inl (outOfSequence_rcvNxt _ _)
  | outside now _ _ => exact .inl rfl

theorem tcpProcess_synRcvd {r : Pcb} {rest : RxSeg} {aborted : Bool} (hs : p.state = .synRcvd)
    (hlen : seg.tcplen < 2 ^ 31) (hq : p.rcv.ooseq = []) (h : p.tcpProcess seg cb = some (r, rest, aborted)) :
    (aborted = true ∧ r.state = .closed) ∨
      (aborted = false ∧
        ((r.state = .synRcvd ∧ r.gotFin = p.gotFin ∧ r.snd = p.snd ∧ r.rcv = p.rcv) ∨
          (seg.flags.rst = false ∧ seg.flags.ack = true ∧ seqLt p.snd.lastack seg.ackno ∧
            seqLeq seg.ackno p.snd.sndNxt ∧ r.state = .established ∧
            Advances seg p.rcv.rcvNxt r.rcv.rcvNxt))) := by
  cases tcpProcess_cases h with
  | kept => exact .inr ⟨rfl, .inl ⟨hs, rfl, rfl, rfl⟩⟩
  | reset => exact .inr ⟨rfl, .inl ⟨hs, rfl, rfl, rfl⟩⟩
  | synSent hs' _ => cases hs.symm.trans hs'
  | refused _ => exact .inl ⟨rfl, rfl⟩
  | accepted _ hrst hack hreceive =>
    have ha := receiveAck_receiver { p with state := .established } seg
    have hadvance := receiveData_advances hlen (by rw [ha.rcv]; exact hq) hreceive
    rw [ha.rcv] at hadvance
    exact .inr ⟨rfl, .inr ⟨hrst, hack.1, hack.2.1, hack.2.2, (tcpReceive_frame hreceive).1, hadvance⟩⟩
  | timeWait hs' _ _ => cases hs.symm.trans hs'
  | received _ hrcvd _ _ _ => exact absurd hs hrcvd

/-- A segment in `SYN_RCVD` ends the connection, leaves it waiting for the acknowledgement of our SYN, or
acknowledges what was sent. -/
theorem input_synRcvd {irs : UInt32} (hs : p.state = .synRcvd) (h : SynOnly our irs p)
    (hlen : seg.tcplen < 2 ^ 31) (hstep : p.tcpInput seg cb = some q) :
    q.state = .closed ∨ (q.state = .synRcvd ∧ SynOnly our irs q) ∨
      (seg.flags.rst = false ∧ seg.flags.ack = true ∧ seqLt our seg.ackno ∧ seqLeq seg.ackno p.snd.sndNxt ∧
        Advances seg (irs + 1) q.rcv.rcvNxt ∧ ¬ q.state.Early) := by
  obtain ⟨r, rest, aborted, q', hprocess, hq', rfl⟩ := tcpInput_cases hstep
  have hstate : p.cleared.state = .synRcvd := (cleared_state p).trans hs
  have hcleared : p.cleared = { p with rcv := { p.rcv with recvData := none }, snd := { p.snd with acked := 0 } } :=
    cleared_eq (by simp [hs])
  have honly : SynOnly our irs p.cleared := by
    rw [hcleared]
    exact ⟨h.gotFin, h.rcvNxt, h.ooseq, h.lastack, h.sndNxt, h.segs⟩
  have hfinish := finishInput_finish r cb
  rcases tcpProcess_synRcvd hstate hlen honly.ooseq hprocess with
    ⟨rfl, hgone⟩ | ⟨rfl, ⟨hr, hfin, hsnd, hrcv⟩ | ⟨hrst, hack, hlt, hleq, hr, hadvance⟩⟩
  · left
    rw [hq']
    exact hgone
  · rw [if_neg (by simp [hr])] at hq'
    rw [← hq'] at hfinish
    have honly' : SynOnly our irs r := by
      refine ⟨hfin.trans honly.gotFin, ?_, ?_, ?_, ?_, ?_⟩
      · rw [hrcv, honly.rcvNxt]
      · rw [hrcv, honly.ooseq]
      · rw [hsnd, honly.lastack]
      · rw [hsnd]
        exact honly.sndNxt
      · rw [hsnd]
        exact honly.segs
    rcases honly'.finish hfinish with hgone | ⟨hkept, hq⟩
    · exact .inl hgone
    · exact .inr (.inl ⟨hkept.trans hr, hq.gotFin, hq.rcvNxt, hq.ooseq, hq.lastack, hq.sndNxt, hq.segs⟩)
  · rw [if_neg (by simp [hr])] at hq'
    rw [← hq'] at hfinish
    rw [honly.lastack] at hlt
    rw [honly.rcvNxt, ← hfinish.rcvNxt] at hadvance
    have hsndNxt : p.cleared.snd.sndNxt = p.snd.sndNxt := by rw [hcleared]
    rw [hsndNxt] at hleq
    refine .inr (.inr ⟨hrst, hack, hlt, hleq, hadvance, ?_⟩)
    have hlast := hfinish.state
    rw [hr] at hlast
    rcases hlast with h | h | h | h <;> simp [h, TcpState.Early]

theorem afterReceive_late (p : Pcb) (seg : RxSeg) (h : ¬ p.state.Early) : ¬ (p.afterReceive seg).state.Early := by
  cases hs : p.state with
  | closed | timeWait => simp [afterReceive, hs, TcpState.Early]
  | listen | synSent | synRcvd => simp [hs, TcpState.Early] at h
  | established | finWait2 | closeWait | closing | lastAck =>
    simp only [afterReceive, hs]
    split <;> simp [hs, enterTimeWait, TcpState.Early]
  | finWait1 =>
    simp only [afterReceive, hs]
    split
    · split <;> simp [enterTimeWait, TcpState.Early]
    · split <;> simp [hs, TcpState.Early]

theorem tcpProcess_late {r : Pcb} {rest : RxSeg} {aborted : Bool} (h : ¬ p.state.Early)
    (hprocess : p.tcpProcess seg cb = some (r, rest, aborted)) : ¬ r.state.Early := by
  cases tcpProcess_cases hprocess with
  | kept => exact h
  | reset => exact h
  | synSent hs _ => simp [hs, TcpState.Early] at h
  | refused hs => simp [hs, TcpState.Early] at h
  | accepted hs _ _ _ => simp [hs, TcpState.Early] at h
  | timeWait hs next now => exact h
  | received _ _ _ _ hreceive =>
    apply afterReceive_late
    rw [(tcpReceive_frame hreceive).1]
    exact h

theorem input_late (h : ¬ p.state.Early) (hstep : p.tcpInput seg cb = some q) : ¬ q.state.Early := by
  obtain ⟨r, rest, aborted, q', hprocess, hq', rfl⟩ := tcpInput_cases hstep
  have hr : ¬ r.state.Early := tcpProcess_late (by rw [cleared_state]; exact h) hprocess
  rw [hq']
  split
  · exact hr
  · rcases (finishInput_finish r cb).state with hs | hs | hs | hs
    · rw [hs]
      exact hr
    all_goals simp [hs, TcpState.Early]

theorem enqueue_syn (hun : p.snd.unsent = []) (hua : p.snd.unacked = []) (flags : Flags) (hsyn : flags.syn = true)
    (opt : List UInt8) (avail : ℕ) :
    (p.tcpEnqueue [] flags opt avail).1.snd.lastack = p.snd.lastack ∧
      (p.tcpEnqueue [] flags opt avail).1.snd.sndNxt = p.snd.sndNxt ∧
      (((p.tcpEnqueue [] flags opt avail).2 = .error .enomem ∧
          (p.tcpEnqueue [] flags opt avail).1.snd.segs = []) ∨
        ∃ syn, (p.tcpEnqueue [] flags opt avail).1.snd.segs = [syn] ∧ syn.seqno = p.snd.sndLbb ∧
          syn.tcplen = 1) := by
  have hflags : flags ≠ Flags.none := ne_none (by simp [Flags.counts, hsyn])
  have hfilled : filled p.snd [] flags opt = ([], 0) := by
    rw [filled_flags p.snd hflags, hun]
  obtain ⟨buf, hnew, -⟩ := newSegs_flags p.snd hflags opt
  have henqueued : enqueued p.snd [] flags opt = [⟨p.snd.sndLbb, flags, 0, [buf]⟩] := by
    simp [enqueued, hfilled, hnew, Sender.linkSegs]
  have hone : (⟨p.snd.sndLbb, flags, 0, [buf]⟩ : SendSeg).tcplen = 1 := by
    simp [SendSeg.tcplen, hsyn]
  have hsegs : p.snd.segs = [] := by
    rw [Sender.segs, hun, hua]
    rfl
  rw [tcpEnqueue_eq]
  split
  · exact ⟨rfl, rfl, .inl ⟨rfl, hsegs⟩⟩
  · split
    · exact ⟨rfl, rfl, .inl ⟨rfl, hsegs⟩⟩
    · split
      · simp [Sender.segs, hfilled, hua]
      · refine ⟨rfl, rfl, .inr ⟨_, ?_, rfl, hone⟩⟩
        simp [Sender.segs, henqueued, hua]

/-- What is known of a connection that is being opened. -/
structure Waiting (our : UInt32) (peer : Option UInt32) (p : Pcb) : Prop where
  synSent : p.state = .synSent → peer = none ∧ SynFirst our p
  synRcvd : p.state = .synRcvd → ∃ irs, peer = some irs ∧ SynOnly our irs p
  listen : p.state ≠ .listen

theorem Waiting.of_late {peer : Option UInt32} (h : ¬ p.state.Early) : Waiting our peer p := by
  simp only [TcpState.Early, not_or] at h
  exact ⟨fun hs => absurd hs h.2.1, fun hs => absurd hs h.2.2, h.1⟩

theorem tcpConnect_synSent {iss₀ iss : UInt32} {avail : ℕ} (h : (tcpNew iss₀).tcpConnect iss avail = (p, .ok ())) :
    p.state = .synSent ∧ SynFirst (iss - 1) p := by
  rw [tcpConnect] at h
  generalize hp₀ : ({ tcpNew iss₀ with
    state := .synSent
    snd := { (tcpNew iss₀).snd with
      sndNxt := iss, lastack := iss - 1, sndLbb := iss - 1, sndWnd := tcpWnd, mss := tcpMss, cwnd := 1
      ssthresh := tcpMss * 10 }
    rcv := { (tcpNew iss₀).rcv with rcvNxt := 0, rcvWnd := tcpWnd } } : Pcb) = p₀ at h
  have hstate : p₀.state = .synSent := by rw [← hp₀]
  have hfin : p₀.gotFin = false := by rw [← hp₀]; rfl
  have hlbb : p₀.snd.sndLbb = iss - 1 := by rw [← hp₀]
  have hsyn := enqueue_syn (p := p₀) (by rw [← hp₀]; rfl) (by rw [← hp₀]; rfl) { Flags.none with syn := true } rfl
    (mssOption tcpMss) avail
  have hsame := tcpEnqueue_receiver p₀ [] { Flags.none with syn := true } (mssOption tcpMss) avail
  split at h
  · rename_i hok
    obtain ⟨rfl, -⟩ := Prod.mk.inj h
    obtain ⟨-, -, ⟨herror, -⟩ | ⟨syn, hsegs, hseqno, hlen⟩⟩ := hsyn
    · rw [herror] at hok
      cases hok
    · have hs := (tcpOutput_same (p₀.tcpEnqueue [] { Flags.none with syn := true } (mssOption tcpMss) avail).1).state
      rw [hsame.state, hstate] at hs
      exact ⟨hs, SynFirst.tcpOutput ⟨hsame.gotFin.trans hfin, syn, [], hsegs, hseqno.trans hlbb, by omega⟩⟩
  · cases (Prod.mk.inj h).2

theorem listenSyn_synRcvd {iss : UInt32} {avail : ℕ} (h : listenSyn seg iss avail = some p) :
    p.state = .synRcvd ∧ SynOnly iss seg.seqno p := by
  rw [listenSyn] at h
  dsimp only at h
  split at h
  · generalize hp₀ : ({ tcpNew iss with
      state := .synRcvd
      snd := { (tcpNew iss).snd with sndWnd := seg.wnd, ssthresh := seg.wnd, sndWl1 := seg.seqno - 1 }
      rcv := { (tcpNew iss).rcv with rcvNxt := seg.seqno + 1 } } : Pcb) = p₀ at h
    obtain ⟨mss, -, hopt⟩ := parseopt_eq p₀ seg
    rw [hopt, ← hp₀] at h
    generalize hp₁ : ({ tcpNew iss with
      state := .synRcvd
      snd := { (tcpNew iss).snd with
        sndWnd := seg.wnd, ssthresh := seg.wnd, sndWl1 := seg.seqno - 1, mss := mss }
      rcv := { (tcpNew iss).rcv with rcvNxt := seg.seqno + 1 } } : Pcb) = p₁ at h
    have hsyn := enqueue_syn (p := p₁) (by rw [← hp₁]; rfl) (by rw [← hp₁]; rfl)
      { Flags.none with syn := true, ack := true } rfl (mssOption mss) avail
    have hsame := tcpEnqueue_receiver p₁ [] { Flags.none with syn := true, ack := true } (mssOption mss) avail
    have honly : SynOnly iss seg.seqno
        (p₁.tcpEnqueue [] { Flags.none with syn := true, ack := true } (mssOption mss) avail).1 := by
      obtain ⟨hlast, hnxt, hsegs⟩ := hsyn
      refine ⟨hsame.gotFin.trans (by rw [← hp₁]; rfl), ?_, ?_, hlast.trans (by rw [← hp₁]; rfl),
        .inl (hnxt.trans (by rw [← hp₁]; rfl)), ?_⟩
      · rw [hsame.rcv, ← hp₁]
      · rw [hsame.rcv, ← hp₁]
        rfl
      · intro s hs
        rcases hsegs with ⟨-, hempty⟩ | ⟨syn, hone, hseqno, hlen⟩
        · rw [hempty] at hs
          cases hs
        · rw [hone, List.mem_singleton] at hs
          have hour : syn.seqno = iss := hseqno.trans (by rw [← hp₁]; rfl)
          rw [hs, SendSeg.next, hour, hlen]
          exact ⟨rfl, rfl⟩
    have hmss : p₁.snd.mss = mss := by rw [← hp₁]
    rw [hmss] at h
    have hp : (p₁.tcpEnqueue [] { Flags.none with syn := true, ack := true } (mssOption mss) avail).1.tcpOutput = p :=
      Option.some.inj h
    rw [← hp]
    have hs := (tcpOutput_same
      (p₁.tcpEnqueue [] { Flags.none with syn := true, ack := true } (mssOption mss) avail).1).state
    rw [hsame.state] at hs
    exact ⟨hs.trans (by rw [← hp₁]), honly.tcpOutput⟩
  · cases h

theorem Waiting.of_synSent (hs : p.state = .synSent) (h : SynFirst our p) : Waiting our none p := by
  refine ⟨fun _ => ⟨rfl, h⟩, fun hs' => ?_, ?_⟩
  · rw [hs] at hs'
    cases hs'
  · rw [hs]
    simp

theorem Waiting.of_synRcvd {irs : UInt32} (hs : p.state = .synRcvd) (h : SynOnly our irs p) :
    Waiting our (some irs) p := by
  refine ⟨fun hs' => ?_, fun _ => ⟨irs, rfl, h⟩, ?_⟩
  · rw [hs] at hs'
    cases hs'
  · rw [hs]
    simp

/-- The condition on a segment: one that acknowledges our SYN in `SYN_SENT` carries a SYN and an acknowledgement or
neither, and before our SYN was sent in `SYN_RCVD` none acknowledges the number `2 ^ 31` away. -/
structure AnswersSyn (p : Pcb) (seg : RxSeg) : Prop where
  synSent : p.state = .synSent → ∀ syn rest, p.snd.unacked = syn :: rest → seg.flags.rst = false →
    seg.ackno = syn.seqno + 1 → (seg.flags.ack = true ↔ seg.flags.syn = true)
  synRcvd : p.state = .synRcvd → p.snd.sndNxt = p.snd.lastack → seg.flags.rst = false → seg.flags.ack = true →
    seg.ackno ≠ p.snd.lastack + 2 ^ 31

/-- A segment that was received, with the connection before and after it. -/
structure Input where
  before : Pcb
  seg : RxSeg
  after : Pcb

/-- The runs of a connection that `tcp_connect` made or a SYN to a listening connection, with the segments it
received and what its timers do. `our` is the number of our SYN, and `peer` of the SYN it was made by. -/
inductive Opening (our : UInt32) : Option UInt32 → List Input → Pcb → Prop
  | connect {iss₀ iss avail p} : (tcpNew iss₀).tcpConnect iss avail = (p, .ok ()) → our = iss - 1 →
      Opening our none [] p
  | listen {seg avail p} : listenSyn seg our avail = some p → Opening our (some seg.seqno) [] p
  | input {peer inputs p q} (seg : RxSeg) (cb : Callbacks) : Opening our peer inputs p → p.state ≠ .closed →
      seg.len < 2 ^ 16 → AnswersSyn p seg → p.tcpInput seg cb = some q →
      Opening our peer (inputs ++ [⟨p, seg, q⟩]) q
  | output {peer inputs p} : Opening our peer inputs p → Opening our peer inputs p.tcpOutput
  | rexmit {peer inputs p} : Opening our peer inputs p → Opening our peer inputs p.tcpRexmit

/-- The segment opens the connection. -/
def Input.Opens (i : Input) : Prop := ¬ i.before.state.Opened ∧ i.after.state.Opened

/-- The segment acknowledges our SYN, the SYN of the peer was received, and `rcv_nxt` is behind it and the data that
came with the segment. -/
def Handshaken (our : UInt32) (peer : Option UInt32) (i : Input) : Prop :=
  i.seg.flags.ack = true ∧ i.seg.ackno = our + 1 ∧
    match peer with
    | none => i.seg.flags.syn = true ∧ i.after.rcv.rcvNxt = i.seg.seqno + 1
    | some irs => Advances i.seg (irs + 1) i.after.rcv.rcvNxt

theorem Waiting.input {peer : Option UInt32} (h : Waiting our peer p) (hlen : seg.tcplen < 2 ^ 31)
    (hclosed : p.state ≠ .closed) (hseg : AnswersSyn p seg) (hstep : p.tcpInput seg cb = some q) :
    Waiting our peer q ∧ (Input.Opens ⟨p, seg, q⟩ → Handshaken our peer ⟨p, seg, q⟩) := by
  have hgone (hq : q.state = .closed) : Waiting our peer q ∧ (Input.Opens ⟨p, seg, q⟩ → Handshaken our peer ⟨p, seg, q⟩) :=
    ⟨.of_late (by simp [hq, TcpState.Early]), fun hopens => absurd hq hopens.2.1⟩
  by_cases hsent : p.state = .synSent
  · obtain ⟨rfl, hfirst⟩ := h.synSent hsent
    rcases input_synSent hsent hfirst hstep with hq | ⟨hq, hfirst'⟩ |
      ⟨hrst, hflags, ⟨syn, rest, hun, hackno⟩, hour, hnxt, hlate⟩
    · exact hgone hq
    · exact ⟨.of_synSent hq hfirst', fun hopens => absurd (.inr (.inl hq)) hopens.2.2⟩
    · have hboth := hseg.synSent hsent syn rest hun hrst hackno
      refine ⟨.of_late hlate, fun _ => ?_⟩
      rcases hflags with hack | hsyn
      · exact ⟨hack, hour, hboth.1 hack, hnxt⟩
      · exact ⟨hboth.2 hsyn, hour, hsyn, hnxt⟩
  · by_cases hrcvd : p.state = .synRcvd
    · obtain ⟨irs, rfl, honly⟩ := h.synRcvd hrcvd
      rcases input_synRcvd hrcvd honly hlen hstep with hq | ⟨hq, honly'⟩ |
        ⟨hrst, hack, hlt, hleq, hadvance, hlate⟩
      · exact hgone hq
      · exact ⟨.of_synRcvd hq honly', fun hopens => absurd (.inr (.inr hq)) hopens.2.2⟩
      · refine ⟨.of_late hlate, fun _ => ⟨hack, ?_, hadvance⟩⟩
        rcases honly.sndNxt with hnxt | hnxt
        · rw [hnxt] at hleq
          have hhalf := hseg.synRcvd hrcvd (hnxt.trans honly.lastack.symm) hrst hack
          rw [honly.lastack] at hhalf
          exact absurd (eq_half_of_between hlt hleq) hhalf
        · rw [hnxt] at hleq
          exact eq_succ_of_between hlt hleq
    · have hearly : ¬ p.state.Early := by
        simp [TcpState.Early, hsent, hrcvd, h.listen]
      exact ⟨.of_late (input_late hearly hstep), fun hopens => absurd ⟨hclosed, hearly⟩ hopens.1⟩

theorem Waiting.output {peer : Option UInt32} (h : Waiting our peer p) : Waiting our peer p.tcpOutput := by
  have hs := (tcpOutput_same p).state
  refine ⟨fun h' => ?_, fun h' => ?_, ?_⟩
  · obtain ⟨hpeer, hfirst⟩ := h.synSent (hs ▸ h')
    exact ⟨hpeer, hfirst.tcpOutput⟩
  · obtain ⟨irs, hpeer, honly⟩ := h.synRcvd (hs ▸ h')
    exact ⟨irs, hpeer, honly.tcpOutput⟩
  · rw [hs]
    exact h.listen

theorem Waiting.rexmit {peer : Option UInt32} (h : Waiting our peer p) : Waiting our peer p.tcpRexmit := by
  have hs := (tcpRexmit_same p).state
  refine ⟨fun h' => ?_, fun h' => ?_, ?_⟩
  · obtain ⟨hpeer, hfirst⟩ := h.synSent (hs ▸ h')
    exact ⟨hpeer, hfirst.tcpRexmit⟩
  · obtain ⟨irs, hpeer, honly⟩ := h.synRcvd (hs ▸ h')
    exact ⟨irs, hpeer, honly.tcpRexmit⟩
  · rw [hs]
    exact h.listen

theorem Opening.waiting {peer : Option UInt32} {inputs : List Input} (h : Opening our peer inputs p) :
    Waiting our peer p := by
  induction h with
  | connect hconnect hour =>
    subst hour
    obtain ⟨hs, hfirst⟩ := tcpConnect_synSent hconnect
    exact .of_synSent hs hfirst
  | listen hlisten =>
    obtain ⟨hs, honly⟩ := listenSyn_synRcvd hlisten
    exact .of_synRcvd hs honly
  | input seg cb _ hclosed hlen hseg hstep ih =>
    have htcplen : seg.tcplen < 2 ^ 31 := by
      rw [RxSeg.tcplen]
      split <;> omega
    exact (ih.input htcplen hclosed hseg hstep).1
  | output _ ih => exact ih.output
  | rexmit _ ih => exact ih.rexmit

/-- A connection is opened only by an acknowledgement of exactly our SYN after the SYN of the peer was received, and
then `rcv_nxt` is behind that SYN. -/
theorem opened_by_handshake {peer : Option UInt32} {inputs : List Input} (h : Opening our peer inputs p) :
    (∀ i ∈ inputs, i.Opens → Handshaken our peer i) ∧ (p.state.Opened → ∃ i ∈ inputs, i.Opens) := by
  induction h with
  | connect hconnect _ =>
    have hs := (tcpConnect_synSent hconnect).1
    exact ⟨fun i hi => absurd hi List.not_mem_nil, fun hopen => absurd (.inr (.inl hs)) hopen.2⟩
  | listen hlisten =>
    have hs := (listenSyn_synRcvd hlisten).1
    exact ⟨fun i hi => absurd hi List.not_mem_nil, fun hopen => absurd (.inr (.inr hs)) hopen.2⟩
  | @input peer inputs p q seg cb hrun hclosed hlen hseg hstep ih =>
    have htcplen : seg.tcplen < 2 ^ 31 := by
      rw [RxSeg.tcplen]
      split <;> omega
    have hnew := (hrun.waiting.input htcplen hclosed hseg hstep).2
    refine ⟨fun i hi => ?_, fun hopen => ?_⟩
    · rw [List.mem_append, List.mem_singleton] at hi
      rcases hi with hi | rfl
      · exact ih.1 i hi
      · exact hnew
    · by_cases hp : p.state.Opened
      · obtain ⟨i, hi, hopens⟩ := ih.2 hp
        exact ⟨i, List.mem_append_left _ hi, hopens⟩
      · exact ⟨⟨p, seg, q⟩, by simp, hp, hopen⟩
  | @output peer inputs p _ ih =>
    rw [(tcpOutput_same p).state]
    exact ih
  | @rexmit peer inputs p _ ih =>
    rw [(tcpRexmit_same p).state]
    exact ih

theorem opened_by_handshake_synAck : ∃ p q seg, p.state = .synSent ∧ q.state = .established ∧
    Handshaken 6510 none ⟨p, seg, q⟩ := by
  let seg : RxSeg := ⟨77, 6511, 1000, { Flags.none with syn := true, ack := true }, none, 0, some ⟨[1], [[]], 0⟩⟩
  let p : Pcb := ((tcpNew 6510).tcpConnect 6511 1).1
  let q : Pcb := (p.tcpInput seg ⟨none, none, none, 0⟩).get rfl
  have hrun : Opening 6510 none [] p := .connect (show (tcpNew 6510).tcpConnect 6511 1 = (p, .ok ()) from rfl) rfl
  have hseg : AnswersSyn p seg := ⟨fun _ _ _ _ _ _ => ⟨fun _ => rfl, fun _ => rfl⟩, fun h => nomatch h⟩
  have hrun' : Opening 6510 none [⟨p, seg, q⟩] q :=
    hrun.input seg ⟨none, none, none, 0⟩ (by decide) (by decide) hseg rfl
  have hp : ¬ p.state.Opened := fun h => h.2 (.inr (.inl rfl))
  have hq : q.state.Opened := ⟨by decide, by simp [TcpState.Early, show q.state = .established from rfl]⟩
  exact ⟨p, q, seg, rfl, rfl, (opened_by_handshake hrun').1 _ (by simp) ⟨hp, hq⟩⟩

/-- A segment that acknowledges our SYN but carries none opens the connection. -/
theorem opened_without_syn :
    ∃ p q seg cb, (tcpNew 6510).tcpConnect 6511 1 = (p, .ok ()) ∧ seg.flags.syn = false ∧
      p.state = .synSent ∧ p.tcpInput seg cb = some q ∧ q.state = .established := by
  refine ⟨((tcpNew 6510).tcpConnect 6511 1).1, _,
    ⟨77, 6511, 1000, { Flags.none with ack := true }, none, 0, some ⟨[1], [[]], 0⟩⟩,
    ⟨none, none, none, 0⟩, rfl, rfl, rfl, rfl, rfl⟩

end Pcb

end SimpleKernel.Tcp
