import SimpleKernel.Tcp.Frames

/-! The segments that a connection has not seen acknowledged: their numbers, their data and their buffers. -/
namespace SimpleKernel.Tcp
open SeqNum

namespace SendSeg

/-- The bytes of a segment. -/
def data (s : SendSeg) : List UInt8 := s.bufs.flatMap SendBuf.data

/-- A segment without the flags that sending it changes. -/
def core (s : SendSeg) : SendSeg := { s with flags := { s.flags with psh := false, ack := false } }

/-- A segment of a queue: it has a number, its length is that of its data, and a SYN has options instead. -/
structure Fits (s : SendSeg) : Prop where
  len : s.len = s.data.length
  small : s.len ≤ tcpMss
  counts : 0 < s.tcplen
  bufs : 0 < s.bufs.length
  syn : s.flags.syn = true → ∃ opt, s.bufs = [⟨opt.length, opt, []⟩]

theorem core_mark (state : TcpState) (s : SendSeg) : (s.mark state).core = s.core := by
  rw [mark]
  split <;> rfl

variable {s t : SendSeg}

theorem eq_of_core (h : s.core = t.core) : s.seqno = t.seqno ∧ s.len = t.len ∧ s.bufs = t.bufs ∧
    s.flags.fin = t.flags.fin ∧ s.flags.syn = t.flags.syn := by
  simp only [core, mk.injEq, Flags.mk.injEq] at h
  exact ⟨h.1, h.2.2.1, h.2.2.2, h.2.1.1, h.2.1.2.1⟩

theorem tcplen_of_core (h : s.core = t.core) : s.tcplen = t.tcplen := by
  obtain ⟨-, hlen, -, hfin, hsyn⟩ := eq_of_core h
  rw [tcplen, tcplen, hlen, hfin, hsyn]

theorem next_of_core (h : s.core = t.core) : s.next = t.next := by
  rw [next, next, tcplen_of_core h, (eq_of_core h).1]

theorem data_of_core (h : s.core = t.core) : s.data = t.data := by
  rw [data, data, (eq_of_core h).2.2.1]

theorem Fits.of_core (hs : s.Fits) (h : s.core = t.core) : t.Fits := by
  obtain ⟨-, hlen, hbufs, -, hsyn⟩ := eq_of_core h
  refine ⟨?_, ?_, ?_, ?_, ?_⟩
  · rw [← hlen, ← data_of_core h, hs.len]
  · rw [← hlen]
    exact hs.small
  · rw [← tcplen_of_core h]
    exact hs.counts
  · rw [← hbufs]
    exact hs.bufs
  · rw [← hsyn, ← hbufs]
    exact hs.syn

theorem Fits.tcplen_le (hs : s.Fits) : s.tcplen ≤ tcpMss + 1 := by
  have hsmall := hs.small
  rw [tcplen]
  split <;> omega

end SendSeg

/-- The segments follow each other from number `a` to number `b`. -/
def Follows : UInt32 → List SendSeg → UInt32 → Prop
  | a, [], b => a = b
  | a, s :: ss, b => s.seqno = a ∧ Follows s.next ss b

theorem follows_append {a b : UInt32} {l m : List SendSeg} :
    Follows a (l ++ m) b ↔ ∃ c, Follows a l c ∧ Follows c m b := by
  induction l generalizing a with
  | nil => simp [Follows]
  | cons s ss ih =>
    simp only [List.cons_append, Follows, ih]
    constructor
    · rintro ⟨hs, c, hl, hm⟩
      exact ⟨c, ⟨hs, hl⟩, hm⟩
    · rintro ⟨c, ⟨hs, hl⟩, hm⟩
      exact ⟨hs, c, hl, hm⟩

/-- How many numbers the segments have. -/
def extent (l : List SendSeg) : ℕ := (l.map SendSeg.tcplen).sum

theorem Follows.end_eq {a b : UInt32} {l : List SendSeg} (h : Follows a l b) : b = a + num (extent l) := by
  induction l generalizing a with
  | nil =>
    rw [← h]
    simp [extent, num_zero]
  | cons s ss ih =>
    rw [ih h.2, SendSeg.next, h.1]
    simp only [extent, List.map_cons, List.sum_cons, Int.natCast_add, num_add, UInt32.add_assoc]

/-- A queue of segments from number `a` to number `b`, with its data and the number of its buffers. -/
structure Queue (l : List SendSeg) (a b : UInt32) (data : List UInt8) (n : ℕ) : Prop where
  follows : Follows a l b
  fits : ∀ s ∈ l, s.Fits
  data : l.flatMap SendSeg.data = data
  bufs : (l.map fun s => s.bufs.length).sum = n

namespace Queue
variable {l m : List SendSeg} {a b c : UInt32} {d e : List UInt8} {n k : ℕ}

theorem nil (a : UInt32) : Queue [] a a [] 0 := ⟨rfl, fun _ h => (nomatch h), rfl, rfl⟩

theorem single {s : SendSeg} (hs : s.Fits) : Queue [s] s.seqno s.next s.data s.bufs.length := by
  refine ⟨⟨rfl, rfl⟩, ?_, ?_, ?_⟩
  · simp [hs]
  · simp
  · simp

theorem append (hl : Queue l a b d n) (hm : Queue m b c e k) : Queue (l ++ m) a c (d ++ e) (n + k) := by
  refine ⟨follows_append.2 ⟨b, hl.follows, hm.follows⟩, ?_, ?_, ?_⟩
  · intro s hs
    rcases List.mem_append.1 hs with hs | hs
    · exact hl.fits s hs
    · exact hm.fits s hs
  · rw [List.flatMap_append, hl.data, hm.data]
  · rw [List.map_append, List.sum_append, hl.bufs, hm.bufs]

theorem split (h : Queue (l ++ m) a c d n) : ∃ b d₁ d₂ n₁ n₂,
    Queue l a b d₁ n₁ ∧ Queue m b c d₂ n₂ ∧ d = d₁ ++ d₂ ∧ n = n₁ + n₂ := by
  obtain ⟨b, hl, hm⟩ := follows_append.1 h.follows
  refine ⟨b, _, _, _, _, ⟨hl, fun s hs => ?_, rfl, rfl⟩, ⟨hm, fun s hs => ?_, rfl, rfl⟩, ?_, ?_⟩
  · exact h.fits s (List.mem_append_left m hs)
  · exact h.fits s (List.mem_append_right l hs)
  · rw [← h.data, List.flatMap_append]
  · rw [← h.bufs, List.map_append, List.sum_append]

theorem of_core (h : Queue l a b d n) (hcore : l.map SendSeg.core = m.map SendSeg.core) : Queue m a b d n := by
  induction l generalizing m a d n with
  | nil =>
    have hm : m = [] := by simpa using hcore
    rwa [hm]
  | cons s ss ih =>
    cases m with
    | nil => simp at hcore
    | cons t ts =>
      simp only [List.map_cons, List.cons.injEq] at hcore
      obtain ⟨hst, hts⟩ := hcore
      obtain ⟨b', d₁, d₂, n₁, n₂, hs, hss, rfl, rfl⟩ := split (l := [s]) h
      have hfits : s.Fits := hs.fits s (by simp)
      have ht := single (hfits.of_core hst)
      rw [← SendSeg.next_of_core hst, ← (SendSeg.eq_of_core hst).1, ← SendSeg.data_of_core hst,
        ← (SendSeg.eq_of_core hst).2.2.1] at ht
      have hs' := single hfits
      have hstart : s.seqno = a := hs.follows.1
      have hend : s.next = b' := hs.follows.2
      have hdata : s.data = d₁ := by rw [← hs.data, ← hs'.data]
      have hbufs : s.bufs.length = n₁ := by rw [← hs.bufs, ← hs'.bufs]
      rw [hstart, hend, hdata, hbufs] at ht
      exact ht.append (ih hss hts)

theorem extent_le (h : Queue l a b d n) : extent l ≤ n * (tcpMss + 1) := by
  induction l generalizing a d n with
  | nil => simp [extent]
  | cons s ss ih =>
    obtain ⟨b', d₁, d₂, n₁, n₂, hs, hss, rfl, rfl⟩ := split (l := [s]) h
    have hfits : s.Fits := hs.fits s (by simp)
    have hn₁ : 0 < n₁ := by
      have hbufs := hs.bufs
      have hpos := hfits.bufs
      simp at hbufs
      omega
    have hle := hfits.tcplen_le
    have hrest := ih hss
    have hone : tcpMss + 1 ≤ n₁ * (tcpMss + 1) := Nat.le_mul_of_pos_left _ hn₁
    simp only [extent, List.map_cons, List.sum_cons] at hrest ⊢
    rw [Nat.add_mul]
    omega

end Queue

theorem Follows.mem {a b : UInt32} {l : List SendSeg} {s : SendSeg} (h : Follows a l b) (hs : s ∈ l) :
    ∃ k : ℕ, s.seqno = a + num k ∧ k + s.tcplen ≤ extent l := by
  induction l generalizing a with
  | nil => cases hs
  | cons t ts ih =>
    simp only [extent, List.map_cons, List.sum_cons]
    rcases List.mem_cons.1 hs with rfl | hs
    · exact ⟨0, by rw [h.1, Int.natCast_zero, num_zero, UInt32.add_zero], by omega⟩
    · obtain ⟨k, hseqno, hk⟩ := ih h.2 hs
      refine ⟨t.tcplen + k, ?_, ?_⟩
      · rw [hseqno, SendSeg.next, h.1, Int.natCast_add, num_add, UInt32.add_assoc]
      · simp only [extent] at hk
        omega

theorem Queue.sorted {l : List SendSeg} {a b : UInt32} {d : List UInt8} {n : ℕ} (h : Queue l a b d n)
    (hext : extent l < 2 ^ 31) : l.Pairwise fun s t => seqLt s.seqno t.seqno := by
  induction l generalizing a d n with
  | nil => exact List.Pairwise.nil
  | cons s ss ih =>
    obtain ⟨b', d₁, d₂, n₁, n₂, hs, hss, rfl, rfl⟩ := split (l := [s]) h
    have hpos := (hs.fits s (by simp)).counts
    simp only [extent, List.map_cons, List.sum_cons] at hext
    refine List.Pairwise.cons (fun t ht => ?_) (ih hss (by simp only [extent]; omega))
    obtain ⟨k, hseqno, hk⟩ := hss.follows.mem ht
    simp only [extent] at hk
    have hb' : b' = s.next := hs.follows.2.symm
    have hs' : num s.seqno.toNat = s.seqno := num_toNat _
    rw [hseqno, hb', SendSeg.next, UInt32.add_assoc, ← num_add, ← hs', ← num_add, seqLt_num (by omega) (by omega)]
    omega

/-- The acknowledgement is behind all numbers of the segment. -/
def covered (ackno : UInt32) (s : SendSeg) : Bool := decide (seqLeq s.next ackno)

namespace Queue
variable {l m : List SendSeg} {a b c ackno : UInt32} {d e : List UInt8} {n k : ℕ}

theorem removeAcked_eq (h : Queue l a b d n) (hn : n + k < 2 ^ 16) :
    Sender.removeAcked ackno l (n + k) =
      (l.dropWhile (covered ackno), n + k - ((l.takeWhile (covered ackno)).map fun s => s.bufs.length).sum) := by
  induction l generalizing a d n with
  | nil => rfl
  | cons s ss ih =>
    obtain ⟨b', d₁, d₂, n₁, n₂, hs, hss, rfl, rfl⟩ := split (l := [s]) h
    have hn₁ : s.bufs.length = n₁ := by simpa using hs.bufs
    rw [Sender.removeAcked]
    by_cases hc : seqLeq s.next ackno
    · have hcov : covered ackno s = true := by simpa [covered] using hc
      have hsub : ushortSub (n₁ + n₂ + k) s.bufs.length = n₂ + k := by
        rw [ushortSub]
        omega
      rw [if_pos hc, hsub, ih hss (by omega), List.dropWhile_cons_of_pos hcov, List.takeWhile_cons_of_pos hcov]
      simp only [List.map_cons, List.sum_cons, Prod.mk.injEq, true_and]
      omega
    · have hcov : ¬ covered ackno s = true := by simpa [covered] using hc
      rw [if_neg hc, List.dropWhile_cons_of_neg hcov, List.takeWhile_cons_of_neg hcov]
      simp

theorem removeUnsent_eq (nxt : UInt32) (h : Queue l a b d n) (hn : n + k < 2 ^ 16) :
    (Sender.removeUnsent ackno l (n + k) nxt).1 = l.dropWhile (covered ackno) ∧
      (Sender.removeUnsent ackno l (n + k) nxt).2.1 =
        n + k - ((l.takeWhile (covered ackno)).map fun s => s.bufs.length).sum := by
  induction l generalizing a d n nxt with
  | nil => exact ⟨rfl, rfl⟩
  | cons s ss ih =>
    obtain ⟨b', d₁, d₂, n₁, n₂, hs, hss, rfl, rfl⟩ := split (l := [s]) h
    have hn₁ : s.bufs.length = n₁ := by simpa using hs.bufs
    rw [Sender.removeUnsent.eq_def]
    dsimp only
    by_cases hc : seqLeq s.next ackno
    · have hcov : covered ackno s = true := by simpa [covered] using hc
      have hsub : ushortSub (n₁ + n₂ + k) s.bufs.length = n₂ + k := by
        rw [ushortSub, hn₁]
        omega
      have hih (nxt : UInt32) := ih nxt hss (by omega)
      rw [if_pos hc, hsub, List.dropWhile_cons_of_pos hcov, List.takeWhile_cons_of_pos hcov]
      refine ⟨(hih _).1, (hih _).2.trans ?_⟩
      simp only [List.map_cons, List.sum_cons]
      omega
    · have hcov : ¬ covered ackno s = true := by simpa [covered] using hc
      rw [if_neg hc, List.dropWhile_cons_of_neg hcov, List.takeWhile_cons_of_neg hcov]
      exact ⟨rfl, by simp⟩

/-- An acknowledgement that covers a segment covers those before it, so it takes segments from the front of both
parts of the queue. The first one left begins not far behind the acknowledgement and ends behind it. -/
theorem dropWhile_covered {x z : ℤ} (h : Queue (l ++ m) (num x) b d n) (hext : extent (l ++ m) ≤ 2 ^ 17)
    (hack : ackno = num z) (hfar : x ≤ z + 2 ^ 17)
    (hnear : ∀ s ss, l = s :: ss → z - 2 ^ 31 ≤ x + s.tcplen) :
    (l ++ m).dropWhile (covered ackno) = l.dropWhile (covered ackno) ++ m.dropWhile (covered ackno) ∧
      ∀ s ss, l.dropWhile (covered ackno) = s :: ss →
        ∃ g : ℤ, s.seqno = ackno + num g ∧ 0 < g + s.tcplen ∧ g ≤ max (x - z) 0 := by
  induction l generalizing x d n with
  | nil => exact ⟨rfl, fun s ss hs => by simp at hs⟩
  | cons s ss ih =>
    obtain ⟨b', d₁, d₂, n₁, n₂, hs, hss, rfl, rfl⟩ := split (l := [s]) h
    have hstart : s.seqno = num x := hs.follows.1
    have hend : s.next = num (x + s.tcplen) := by
      rw [SendSeg.next, hstart, num_add]
    have hb' : b' = num (x + s.tcplen) := by rw [← hend]; exact hs.follows.2.symm
    have hle : (s.tcplen : ℤ) ≤ 2 ^ 17 ∧ extent (ss ++ m) ≤ 2 ^ 17 := by
      simp only [extent, List.cons_append, List.map_cons, List.sum_cons] at hext ⊢
      omega
    have hnear' := hnear s ss rfl
    have hcov : covered ackno s = true ↔ x + s.tcplen ≤ z := by
      rw [covered, decide_eq_true_eq, hack, hend]
      exact seqLeq_num (by omega) (by omega)
    by_cases hc : x + s.tcplen ≤ z
    · rw [hb'] at hss
      obtain ⟨hsplit, hfront⟩ := ih hss hle.2 (by omega) (fun t ts _ => by omega)
      rw [List.cons_append, List.dropWhile_cons_of_pos (hcov.2 hc), List.dropWhile_cons_of_pos (hcov.2 hc)]
      refine ⟨hsplit, fun t ts ht => ?_⟩
      obtain ⟨g, hseqno, hpos, hg⟩ := hfront t ts ht
      exact ⟨g, hseqno, hpos, by omega⟩
    · have hnot : ¬ covered ackno s = true := fun h => hc (hcov.1 h)
      rw [List.cons_append, List.dropWhile_cons_of_neg hnot, List.dropWhile_cons_of_neg hnot]
      refine ⟨?_, fun t ts ht => ?_⟩
      · -- the segments behind one that is not covered are not covered
        cases m with
        | nil => rfl
        | cons t ts =>
          have hsplit : s :: ss ++ t :: ts = (s :: ss ++ [t]) ++ ts := by simp
          rw [hsplit] at h
          obtain ⟨c, _, _, _, _, hfirst, -, -, -⟩ := split h
          obtain ⟨c', -, ht⟩ := follows_append.1 hfirst.follows
          have hnext : t.next = num (x + extent (s :: ss ++ [t])) := by
            rw [num_add, ← hfirst.follows.end_eq]
            exact ht.2
          have hk : (extent (s :: ss ++ [t]) : ℤ) ≤ 2 ^ 17 ∧ (s.tcplen : ℤ) ≤ extent (s :: ss ++ [t]) := by
            simp only [extent, List.map_cons, List.sum_cons, List.map_append, List.sum_append,
              List.map_nil, List.sum_nil] at hext ⊢
            omega
          have hnott : ¬ covered ackno t = true := by
            rw [covered, decide_eq_true_eq, hack, hnext, seqLeq_num (by omega) (by omega)]
            omega
          rw [List.dropWhile_cons_of_neg hnott]
          rfl
      · obtain ⟨rfl, -⟩ := List.cons.inj ht
        refine ⟨x - z, ?_, by omega, by omega⟩
        rw [hstart, hack, ← num_add]
        congr 1
        omega

end Queue

end SimpleKernel.Tcp
