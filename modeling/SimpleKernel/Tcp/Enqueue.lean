import SimpleKernel.Tcp.SendQueue

/-! What `tcp_enqueue` puts into the queue of unsent segments. -/
namespace SimpleKernel.Tcp
open SeqNum

namespace SendSeg
variable {u : SendSeg} {mss : ℕ} {data : List UInt8}

/-- Data that goes into a segment is appended to it, and a SYN gets none. -/
structure Filled (u : SendSeg) (data : List UInt8) (r : SendSeg × ℕ) : Prop where
  seqno : r.1.seqno = u.seqno
  flags : r.1.flags = u.flags
  len : r.1.len = u.len + r.2
  some : r.2 ≤ data.length
  data : r.1.data = u.data ++ data.take r.2
  bufs : r.1.bufs.length = u.bufs.length
  fits : r.1.Fits

theorem fill_flags (u : SendSeg) (mss : ℕ) (data : List UInt8) : (u.fill mss data).1.flags = u.flags := by
  rw [fill]
  split
  · rfl
  · dsimp only
    split <;> split <;> rfl

theorem Filled.none (hu : u.Fits) : Filled u data (u, 0) :=
  ⟨rfl, rfl, rfl, Nat.zero_le _, by simp, rfl, hu⟩

theorem fill_filled (data : List UInt8) (hu : u.Fits) (hmss : mss ≤ tcpMss) : Filled u data (u.fill mss data) := by
  rw [fill]
  split
  · exact .none hu
  · rename_i b hlast
    obtain ⟨init, hsplit⟩ := List.getLast?_eq_some_iff.1 hlast
    dsimp only
    generalize hbuflen : (if (u.len : ℤ) + min b.spare data.length > mss then (mss : ℤ) - u.len
      else min b.spare data.length) = buflen
    split
    · have hbound : (u.len : ℤ) + buflen ≤ mss ∧ buflen ≤ data.length ∧ buflen ≤ b.spare := by
        rw [← hbuflen]
        split <;> omega
      have hdata : (u.bufs.dropLast ++ [{ b with data := b.data ++ data.take buflen.toNat }]).flatMap
          SendBuf.data = u.data ++ data.take buflen.toNat := by
        rw [SendSeg.data, hsplit]
        simp
      have hlen : u.bufs.dropLast.length + 1 = u.bufs.length := by
        rw [hsplit]
        simp
      have hcounts := hu.counts
      refine ⟨rfl, rfl, rfl, by omega, hdata, by simpa using hlen, ⟨?_, ?_, ?_, ?_, ?_⟩⟩
      · rw [SendSeg.data, hdata, List.length_append, ← hu.len, List.length_take]
        dsimp only
        omega
      · dsimp only
        omega
      · simp only [tcplen] at hcounts ⊢
        omega
      · simp
      · intro hsyn
        obtain ⟨opt, hopt⟩ := hu.syn hsyn
        rw [hopt] at hlast
        have hb : b = ⟨opt.length, opt, []⟩ := by simpa using hlast.symm
        have hspare : b.spare < 0 := by
          rw [hb]
          simp only [SendBuf.spare, transportOffset]
          omega
        omega
    · exact .none hu

theorem Filled.next {r : SendSeg × ℕ} (h : Filled u data r) : r.1.next = u.next + num r.2 := by
  rw [SendSeg.next, SendSeg.next, h.seqno, UInt32.add_assoc, ← num_add]
  congr 2
  rw [tcplen, tcplen, h.flags, h.len]
  split <;> simp <;> omega

end SendSeg

namespace Sender
variable {mss : ℕ}

theorem fillLast_concat (data : List UInt8) (init : List SendSeg) (u : SendSeg) :
    fillLast mss data (init ++ [u]) = (init ++ [(u.fill mss data).1], (u.fill mss data).2) := by
  induction init with
  | nil => rfl
  | cons s ss ih =>
    have hcons : fillLast mss data (s :: (ss ++ [u])) =
        (s :: (fillLast mss data (ss ++ [u])).1, (fillLast mss data (ss ++ [u])).2) := by
      cases ss <;> rfl
    rw [List.cons_append, hcons, ih]
    rfl

theorem linkSegs_concat (flags : Flags) (queue init : List SendSeg) (u : SendSeg) :
    linkSegs mss flags (init ++ [u]) queue =
      (init ++ (linkSegs mss flags [u] queue).1, (linkSegs mss flags [u] queue).2) := by
  induction init with
  | nil => rfl
  | cons s ss ih =>
    have hcons : linkSegs mss flags (s :: (ss ++ [u])) queue =
        (s :: (linkSegs mss flags (ss ++ [u]) queue).1, (linkSegs mss flags (ss ++ [u]) queue).2) := by
      cases ss <;> cases queue <;> rfl
    rw [List.cons_append, hcons, ih]
    rfl

theorem push_core (l : List SendSeg) : (push l).map SendSeg.core = l.map SendSeg.core := by
  induction l with
  | nil => rfl
  | cons s ss ih =>
    cases ss with
    | nil => rfl
    | cons t ts =>
      show (s :: push (t :: ts)).map SendSeg.core = _
      rw [List.map_cons, ih]
      rfl

end Sender

namespace Queue
variable {l q : List SendSeg} {a b c : UInt32} {d e data left : List UInt8} {n k mss : ℕ}

theorem fillLast (data : List UInt8) (h : Queue l a b d n) (hmss : mss ≤ tcpMss) :
    Queue (Sender.fillLast mss data l).1 a (b + num (Sender.fillLast mss data l).2)
        (d ++ data.take (Sender.fillLast mss data l).2) n ∧
      (Sender.fillLast mss data l).2 ≤ data.length := by
  rcases List.eq_nil_or_concat l with rfl | ⟨init, u, rfl⟩
  · have hzero : b + num ((0 : ℕ) : ℤ) = b := by
      rw [Int.natCast_zero, num_zero, UInt32.add_zero]
    refine ⟨?_, Nat.zero_le _⟩
    rw [Sender.fillLast, hzero, List.take_zero, List.append_nil]
    exact h
  · rw [List.concat_eq_append] at h ⊢
    rw [Sender.fillLast_concat]
    obtain ⟨b', d₁, d₂, n₁, n₂, hinit, hu, rfl, rfl⟩ := split h
    have hfits : u.Fits := hu.fits u (by simp)
    have hfilled := SendSeg.fill_filled data hfits hmss
    refine ⟨?_, hfilled.some⟩
    have hnew := single hfilled.fits
    have hb' : u.seqno = b' := hu.follows.1
    have hb : u.next = b := hu.follows.2
    have hd₂ : u.data = d₂ := by simpa using hu.data
    have hn₂ : u.bufs.length = n₂ := by simpa using hu.bufs
    rw [hfilled.seqno, hfilled.next, hfilled.data, hfilled.bufs, hb', hb, hd₂, hn₂] at hnew
    rw [List.append_assoc]
    exact hinit.append hnew

theorem makeSegs (turns : ℕ) (seqno : UInt32) (hpos : 0 < mss) (hmss : mss ≤ tcpMss) (hleft : left ≠ [])
    (hturns : left.length ≤ turns) :
    Queue (Sender.makeSegs mss Flags.none [] turns seqno left) seqno (seqno + num left.length) left
        (Sender.makeSegs mss Flags.none [] turns seqno left).length ∧
      ∀ s ∈ Sender.makeSegs mss Flags.none [] turns seqno left, s.flags = Flags.none := by
  have hlen := List.length_pos_iff.2 hleft
  induction turns generalizing seqno left with
  | zero => omega
  | succ turns ih =>
    simp only [Sender.makeSegs]
    generalize hsize : (if min left.length mss < tcpMinSeglen then min mss tcpMinSeglen else min left.length mss) =
      size
    have hfits : SendSeg.Fits ⟨seqno, Flags.none, min left.length mss, [⟨size, [], left.take (min left.length mss)⟩]⟩ := by
      refine ⟨?_, ?_, ?_, ?_, ?_⟩
      · simp [SendSeg.data]
      · dsimp only
        omega
      · simp only [SendSeg.tcplen]
        omega
      · simp
      · simp [Flags.none]
    have hone := single hfits
    have hnext : SendSeg.next ⟨seqno, Flags.none, min left.length mss,
        [⟨size, [], left.take (min left.length mss)⟩]⟩ = seqno + num (min left.length mss : ℕ) := by
      simp [SendSeg.next, SendSeg.tcplen, Flags.none]
    have hdata : SendSeg.data ⟨seqno, Flags.none, min left.length mss,
        [⟨size, [], left.take (min left.length mss)⟩]⟩ = left.take (min left.length mss) := by
      simp [SendSeg.data]
    rw [hdata] at hone
    by_cases hrest : left.drop (min left.length mss) = []
    · rw [if_pos hrest]
      have hall : left.length ≤ min left.length mss := by simpa using hrest
      have hmin : min left.length mss = left.length := by omega
      rw [hmin, List.take_length] at hone ⊢
      exact ⟨hone, by simp⟩
    · rw [if_neg hrest]
      have hshort : (left.drop (min left.length mss)).length ≤ turns := by
        rw [List.length_drop]
        omega
      obtain ⟨hq, hflags⟩ := ih (seqno + num (min left.length mss : ℕ)) hrest hshort (List.length_pos_iff.2 hrest)
      have hend : seqno + num (min left.length mss : ℕ) + num (left.drop (min left.length mss)).length =
          seqno + num left.length := by
        rw [UInt32.add_assoc, ← num_add, List.length_drop]
        congr 2
        omega
      rw [hend] at hq
      have happ := hone.append hq
      rw [List.take_append_drop] at happ
      refine ⟨?_, ?_⟩
      · rw [List.length_cons, Nat.add_comm]
        exact happ
      · intro s hs
        rcases List.mem_cons.1 hs with rfl | hs
        · rfl
        · exact hflags s hs

theorem chain {u s : SendSeg} {flags : Flags} (hu : Queue [u] a b d n) (hs : Queue [s] b c e k)
    (hflags : s.flags = flags) (hmss : mss ≤ tcpMss) (hchains : u.chains s mss flags = true) :
    Queue [{ u with len := u.len + s.len, bufs := u.bufs ++ s.bufs }] a c (d ++ e) (n + k) := by
  simp only [SendSeg.chains, Bool.and_eq_true, decide_eq_true_eq, Bool.not_eq_true'] at hchains
  obtain ⟨⟨⟨-, hucounts⟩, hcounts⟩, hlen⟩ := hchains
  have hfu : u.Fits := hu.fits u (by simp)
  have hfs : s.Fits := hs.fits s (by simp)
  have huplain : u.flags.fin = false ∧ u.flags.syn = false := by
    simp only [Flags.counts, Bool.or_eq_false_iff] at hucounts
    exact ⟨hucounts.2, hucounts.1⟩
  have hsplain : s.flags.fin = false ∧ s.flags.syn = false := by
    rw [hflags]
    simp only [Flags.counts, Bool.or_eq_false_iff] at hcounts
    exact ⟨hcounts.2, hcounts.1⟩
  have hseqno : u.seqno = a := hu.follows.1
  have hnext : u.next = b := hu.follows.2
  have hlast : s.next = c := hs.follows.2
  have hstart : s.seqno = u.next := hs.follows.1.trans hnext.symm
  refine ⟨⟨hseqno, ?_⟩, ?_, ?_, ?_⟩
  · show SendSeg.next _ = c
    rw [← hlast, SendSeg.next, SendSeg.next, hstart, SendSeg.next, UInt32.add_assoc, ← num_add]
    simp [SendSeg.tcplen, huplain, hsplain]
  · intro t ht
    rw [List.mem_singleton] at ht
    rw [ht]
    have hupos := hfu.counts
    refine ⟨?_, by dsimp only; omega, ?_, ?_, ?_⟩
    · simp [SendSeg.data, hfu.len, hfs.len]
    · simp only [SendSeg.tcplen] at hupos ⊢
      omega
    · rw [List.length_append]
      have hbufs := hfu.bufs
      omega
    · intro hsyn
      rw [huplain.2] at hsyn
      cases hsyn
  · have hd : u.data = d := by simpa using hu.data
    have he : s.data = e := by simpa using hs.data
    rw [← hd, ← he]
    simp [SendSeg.data]
  · have hn : u.bufs.length = n := by simpa using hu.bufs
    have hk : s.bufs.length = k := by simpa using hs.bufs
    rw [← hn, ← hk]
    simp

theorem linkSegs (flags : Flags) (hl : Queue l a b d n) (hq : Queue q b c e k) (hflags : ∀ s ∈ q, s.flags = flags)
    (hmss : mss ≤ tcpMss) : Queue (Sender.linkSegs mss flags l q).1 a c (d ++ e) (n + k) := by
  rcases List.eq_nil_or_concat l with rfl | ⟨init, u, rfl⟩
  · exact hl.append hq
  · rw [List.concat_eq_append] at hl ⊢
    rw [Sender.linkSegs_concat]
    cases q with
    | nil =>
      have happ := hl.append hq
      rw [List.append_nil] at happ
      exact happ
    | cons s ss =>
      rw [Sender.linkSegs]
      split
      · rename_i hchains
        obtain ⟨b', d₁, d₂, n₁, n₂, hinit, hu, rfl, rfl⟩ := split hl
        obtain ⟨c', e₁, e₂, k₁, k₂, hs, hss, rfl, rfl⟩ := split (l := [s]) hq
        have hone := chain hu hs (hflags s (by simp)) hmss hchains
        have happ := hinit.append (hone.append hss)
        have hd : d₁ ++ d₂ ++ (e₁ ++ e₂) = d₁ ++ (d₂ ++ e₁ ++ e₂) := by simp
        have hn : n₁ + n₂ + (k₁ + k₂) = n₁ + (n₂ + k₁ + k₂) := by omega
        rw [hd, hn]
        exact happ
      · have happ := hl.append hq
        rw [List.append_assoc] at happ
        exact happ

end Queue

namespace Pcb
variable {s : Sender} {a b : UInt32} {d data : List UInt8} {n : ℕ}

theorem enqueued_core (s : Sender) (data : List UInt8) (flags : Flags) (opt : List UInt8) :
    (enqueued s data flags opt).map SendSeg.core =
      (Sender.linkSegs s.mss flags (filled s data flags opt).1 (newSegs s data flags opt)).1.map SendSeg.core := by
  simp only [enqueued]
  split
  · rfl
  · split
    · exact Sender.push_core _
    · rfl

theorem enqueued_head {syn : SendSeg} {ss : List SendSeg} (hun : s.unsent = syn :: ss) (data : List UInt8)
    (flags : Flags) (opt : List UInt8) :
    ∃ t ts, enqueued s data flags opt = t :: ts ∧ t.flags.syn = syn.flags.syn := by
  have hfilled : ∃ t ts, (filled s data flags opt).1 = t :: ts ∧ t.flags = syn.flags := by
    rw [filled, hun]
    split
    · cases ss with
      | nil =>
        exact ⟨_, [], rfl, SendSeg.fill_flags _ _ _⟩
      | cons u us => exact ⟨syn, _, rfl, rfl⟩
    · exact ⟨syn, ss, rfl, rfl⟩
  obtain ⟨t, ts, ht, hflags⟩ := hfilled
  have hlinked : ∃ u us, (Sender.linkSegs s.mss flags (t :: ts) (newSegs s data flags opt)).1 = u :: us ∧
      u.flags = syn.flags := by
    cases ts with
    | nil =>
      cases newSegs s data flags opt with
      | nil => exact ⟨t, [], rfl, hflags⟩
      | cons v vs =>
        rw [Sender.linkSegs]
        split
        · exact ⟨_, vs, rfl, hflags⟩
        · exact ⟨t, v :: vs, rfl, hflags⟩
    | cons v vs =>
      cases newSegs s data flags opt with
      | nil => exact ⟨t, _, rfl, hflags⟩
      | cons w ws => exact ⟨t, _, rfl, hflags⟩
  obtain ⟨u, us, hu, hflags'⟩ := hlinked
  have hcore := enqueued_core s data flags opt
  rw [ht, hu] at hcore
  cases henq : enqueued s data flags opt with
  | nil =>
    rw [henq] at hcore
    simp at hcore
  | cons v vs =>
    rw [henq, List.map_cons, List.map_cons, List.cons.injEq] at hcore
    exact ⟨v, vs, rfl, by rw [(SendSeg.eq_of_core hcore.1).2.2.2.2, hflags']⟩

theorem enqueued_data (h : Queue s.unsent a s.sndLbb d n) (hpos : 0 < s.mss) (hmss : s.mss ≤ tcpMss) :
    Queue (enqueued s data Flags.none []) a (s.sndLbb + num data.length) (d ++ data)
      (n + (newSegs s data Flags.none []).length) := by
  refine Queue.of_core ?_ (enqueued_core s data Flags.none []).symm
  obtain ⟨hfill, hlen⟩ := h.fillLast data hmss
  simp only [newSegs, filled, and_self, if_true]
  generalize Sender.fillLast s.mss data s.unsent = f at hfill hlen ⊢
  have hend : s.sndLbb + num f.2 + num (data.drop f.2).length = s.sndLbb + num data.length := by
    rw [UInt32.add_assoc, ← num_add, List.length_drop]
    congr 2
    omega
  by_cases hleft : data.drop f.2 = []
  · rw [if_neg (by simp [hleft])]
    have hall : data.length ≤ f.2 := by simpa using hleft
    have hf : f.2 = data.length := by omega
    rw [hf, List.take_length] at hfill
    have hlink := hfill.linkSegs Flags.none (.nil _) (fun _ h => by cases h) hmss
    rw [List.append_nil] at hlink
    exact hlink
  · rw [if_pos (.inl hleft)]
    obtain ⟨hnew, hflags⟩ := Queue.makeSegs ((data.drop f.2).length + tcpSndQueuelen + 1) (s.sndLbb + num f.2) hpos hmss hleft (by omega)
    have hlink := hfill.linkSegs Flags.none hnew hflags hmss
    rw [hend, List.append_assoc, List.take_append_drop] at hlink
    exact hlink

theorem enqueued_flags {flags : Flags} {opt : List UInt8} (h : Queue s.unsent a s.sndLbb d n)
    (hcounts : flags.counts = true) (hopt : flags.syn = true → opt ≠ []) (hmss : s.mss ≤ tcpMss) :
    Queue (enqueued s [] flags opt) a (s.sndLbb + 1) d (n + 1) ∧ (newSegs s [] flags opt).length = 1 := by
  have hfilled := filled_flags s (ne_none hcounts) [] opt
  obtain ⟨buf, hnew, hbuf, hsyn⟩ := newSegs_flags s (ne_none hcounts) opt
  have hfits : SendSeg.Fits ⟨s.sndLbb, flags, 0, [buf]⟩ := by
    refine ⟨?_, Nat.zero_le _, ?_, Nat.one_pos, fun h => ⟨opt, ?_⟩⟩
    · simp [SendSeg.data, hbuf]
    · simp only [SendSeg.tcplen, Flags.counts] at hcounts ⊢
      rw [if_pos (by simpa [or_comm] using hcounts)]
      exact Nat.one_pos
    · rw [← hsyn (hopt h)]
  have hone := Queue.single hfits
  have hnext : SendSeg.next ⟨s.sndLbb, flags, 0, [buf]⟩ = s.sndLbb + 1 := by
    simp only [SendSeg.next, SendSeg.tcplen, Flags.counts] at hcounts ⊢
    rw [if_pos (by simpa [or_comm] using hcounts)]
    rfl
  have hdata : SendSeg.data ⟨s.sndLbb, flags, 0, [buf]⟩ = [] := by
    simp [SendSeg.data, hbuf]
  rw [hnext, hdata] at hone
  have hlink := h.linkSegs flags hone (by simp) hmss
  rw [List.append_nil] at hlink
  refine ⟨?_, by rw [hnew]; rfl⟩
  refine Queue.of_core ?_ (enqueued_core s [] flags opt).symm
  rw [hfilled, hnew]
  exact hlink

end Pcb

end SimpleKernel.Tcp
