import SimpleKernel.Tcp.PcbLists

/-! Which list of control blocks the state of a connection belongs to, after each function of TCP. -/
namespace SimpleKernel.Tcp

namespace Pcb
variable {p r : Pcb} {seg rest : RxSeg} {cb : Callbacks} {aborted : Bool}

theorem tcpOutput_list (p : Pcb) : p.tcpOutput.state.list = p.state.list ∧ p.tcpOutput.closed = p.closed := by
  have h := tcpOutput_same p
  exact ⟨by rw [h.state], h.closed⟩

theorem tcpClose_list (hstate : p.state ≠ .synSent) (avail : ℕ) :
    (p.tcpClose avail).1.state.list = p.state.list ∧ (p.tcpClose avail).1.closed = p.closed := by
  have hsent := tcpEnqueue_receiver p [] { Flags.none with fin := true } [] avail
  rw [tcpClose]
  dsimp only
  split
  · rw [if_neg hstate]
    exact ⟨rfl, rfl⟩
  · rename_i state hnext
    split
    · have hlist : state.list = p.state.list := by
        revert hnext
        cases p.state <;> simp +contextual [eq_comm, TcpState.list]
      have hout := tcpOutput_list { (p.tcpSendCtrl { Flags.none with fin := true } avail).1 with state := state }
      exact ⟨hout.1.trans hlist, hout.2.trans hsent.closed⟩
    · exact ⟨congrArg TcpState.list hsent.state, hsent.closed⟩

theorem afterReceive_list (hopen : p.closed = false) (hlist : p.state.list = some .active) (seg : RxSeg) :
    ((p.afterReceive seg).state.list = none ∧ (p.afterReceive seg).closed = true) ∨
      ((p.afterReceive seg).closed = false ∧
        ((p.afterReceive seg).state.list = some .active ∨ (p.afterReceive seg).state = .timeWait)) := by
  have htw (p : Pcb) (hopen : p.closed = false) : p.enterTimeWait.closed = false := by
    simp only [enterTimeWait, purge]
    split <;> exact hopen
  cases hs : p.state with
  | closed | listen | timeWait => simp [hs, TcpState.list] at hlist
  | synSent | synRcvd => exact .inr ⟨by simp [afterReceive, hs, hopen], .inl (by simp [afterReceive, hs, TcpState.list])⟩
  | established | closeWait =>
    right
    simp only [afterReceive, hs]
    split
    · exact ⟨hopen, .inl rfl⟩
    · exact ⟨hopen, .inl (by simp [hs, TcpState.list])⟩
  | finWait1 =>
    right
    simp only [afterReceive, hs]
    split
    · split
      · exact ⟨htw p hopen, .inr rfl⟩
      · exact ⟨hopen, .inl rfl⟩
    · split
      · exact ⟨hopen, .inl rfl⟩
      · exact ⟨hopen, .inl (by simp [hs, TcpState.list])⟩
  | finWait2 | closing =>
    right
    simp only [afterReceive, hs]
    split
    · exact ⟨htw p hopen, .inr rfl⟩
    · exact ⟨hopen, .inl (by simp [hs, TcpState.list])⟩
  | lastAck =>
    simp only [afterReceive, hs]
    split
    · exact .inl ⟨rfl, rfl⟩
    · exact .inr ⟨hopen, .inl (by simp [hs, TcpState.list])⟩

theorem processSynSent_list (hs : p.state = .synSent) (seg : RxSeg) :
    (p.processSynSent seg).state.list = p.state.list ∧ (p.processSynSent seg).closed = p.closed := by
  rcases processSynSent_cases p seg with heq | ⟨syn, rest, -, -, -, heq⟩
  · rw [heq]
    exact ⟨rfl, rfl⟩
  · have hopt := parseopt_receiver (p.synAcked seg rest) seg
    rw [heq]
    exact ⟨(congrArg TcpState.list hopt.state).trans (by simp [synAcked, hs, TcpState.list]), hopt.closed⟩

/-- What becomes of a connection: it was aborted, or it is closed, or it is still on its list or on the list
`TIME_WAIT`. -/
inductive Fate (p r : Pcb) : Bool → Prop
  | aborted : p.state.list = some .active → Fate p r true
  | closed : p.state.list = some .active → r.state.list = none → r.closed = true → Fate p r false
  | kept : r.closed = false → r.state.list = p.state.list → Fate p r false
  | waits : r.closed = false → p.state.list = some .active → r.state = .timeWait → Fate p r false

theorem tcpProcess_fate (hlist : p.state.list = some .active ∨ p.state.list = some .tw) (hopen : p.closed = false)
    (h : p.tcpProcess seg cb = some (r, rest, aborted)) : Fate p r aborted := by
  cases tcpProcess_cases h with
  | kept => exact .kept hopen rfl
  | reset => exact .kept hopen rfl
  | synSent hs hrst =>
    have hkept := processSynSent_list hs seg
    exact .kept (hkept.2.trans hopen) hkept.1
  | refused hs => exact .aborted (by simp [hs, TcpState.list])
  | accepted hs hrst hack hreceive =>
    have hframe := tcpReceive_frame hreceive
    exact .kept (hframe.2.2.trans hopen) ((congrArg TcpState.list hframe.1).trans (by simp [hs, TcpState.list]))
  | timeWait hs next now => exact .kept hopen rfl
  | received _ _ hwait _ hreceive =>
    have hactive : p.state.list = some .active := by
      refine hlist.resolve_right fun htw => ?_
      cases hs : p.state <;> simp_all [TcpState.list]
    have hframe := tcpReceive_frame hreceive
    have hafter := afterReceive_list (hframe.2.2.trans hopen) (by rw [hframe.1]; exact hactive) seg
    rcases hafter with ⟨hnone, hclosed⟩ | ⟨hclosed, hkept | hwaits⟩
    · exact .closed hactive hnone hclosed
    · exact .kept hclosed (hkept.trans hactive.symm)
    · exact .waits hclosed hactive hwaits

theorem finishInput_list (hreset : r.reset = false) (hopen : r.closed = false)
    (hsent : ¬ (r.state = .synSent ∧ r.gotFin ∧ cb.recv = none)) :
    (r.finishInput cb).state.list = r.state.list ∧ (r.finishInput cb).closed = false := by
  have hout (q : Pcb) (hq : q.state.list = r.state.list ∧ q.closed = false) :
      q.tcpOutput.state.list = r.state.list ∧ q.tcpOutput.closed = false := by
    have h := tcpOutput_list q
    exact ⟨h.1.trans hq.1, h.2.trans hq.2⟩
  rw [finishInput, if_neg (by simp [hreset]), if_neg (by simp [hopen])]
  split
  · exact hout r.freeRecvData ⟨rfl, hopen⟩
  · dsimp only
    split
    · have hcalled (err : ℤ) :
          (if err = 0 then r.callRecv.tcpOutput else r.callRecv.freeRecvData).state.list = r.state.list ∧
            (if err = 0 then r.callRecv.tcpOutput else r.callRecv.freeRecvData).closed = false := by
        rw [callRecv_eq]
        split
        · exact hout _ ⟨rfl, hopen⟩
        · exact ⟨rfl, hopen⟩
      exact hcalled _
    · rename_i hrecv
      split
      · rename_i hgot
        have hstate : r.freeRecvData.state ≠ .synSent := fun hs => hsent ⟨hs, hgot, hrecv⟩
        have hclose := tcpClose_list hstate cb.avail
        exact hout _ ⟨hclose.1, hclose.2.trans hopen⟩
      · exact hout r.freeRecvData ⟨rfl, hopen⟩

theorem tcpConnect_list (p : Pcb) (iss : UInt32) (avail : ℕ) :
    (p.tcpConnect iss avail).1.state.list = some .active ∧ (p.tcpConnect iss avail).1.closed = p.closed := by
  have hsent (p' : Pcb) (hstate : p'.state = .synSent) :
      let r := p'.tcpEnqueue [] { Flags.none with syn := true } (mssOption tcpMss) avail
      (r.1.tcpOutput.state.list = some .active ∧ r.1.tcpOutput.closed = p'.closed) ∧
        r.1.state.list = some .active ∧ r.1.closed = p'.closed := by
    have hr := tcpEnqueue_receiver p' [] { Flags.none with syn := true } (mssOption tcpMss) avail
    have hlist := congrArg TcpState.list (hr.state.trans hstate)
    have hout := tcpOutput_list (p'.tcpEnqueue [] { Flags.none with syn := true } (mssOption tcpMss) avail).1
    exact ⟨⟨hout.1.trans hlist, hout.2.trans hr.closed⟩, hlist, hr.closed⟩
  rw [tcpConnect]
  dsimp only
  split
  · exact (hsent _ rfl).1
  · exact (hsent _ rfl).2

theorem listenSyn_list {iss : UInt32} {avail : ℕ} (h : listenSyn seg iss avail = some r) :
    r.state.list = some .active ∧ r.closed = false := by
  rw [listenSyn] at h
  split at h
  · obtain rfl := Option.some.inj h
    have hr := tcpEnqueue_receiver
    have hout := tcpOutput_list
    have hopt := parseopt_receiver
    simp only [hout, (hr _ _ _ _ _).state, (hr _ _ _ _ _).closed, (hopt _ _).state, (hopt _ _).closed]
    exact ⟨rfl, rfl⟩
  · cases h

theorem tcpWrite_list (p : Pcb) (data : List UInt8) (opt : WriteOpt) (avail : ℕ) :
    (p.tcpWrite data opt avail).1.state.list = p.state.list ∧ (p.tcpWrite data opt avail).1.closed = p.closed := by
  refine tcpWrite_keeps (P := fun q => q.state.list = p.state.list ∧ q.closed = p.closed) ⟨rfl, rfl⟩ (fun _ => ?_)
    (fun q hq => ?_) opt
  · have hqueued := tcpEnqueue_receiver p data Flags.none [] avail
    exact ⟨congrArg TcpState.list hqueued.state, hqueued.closed⟩
  · have hout := tcpOutput_list q
    exact ⟨hout.1.trans hq.1, hout.2.trans hq.2⟩

end Pcb

end SimpleKernel.Tcp
