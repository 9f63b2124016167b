import SimpleKernel.Tcp.SocketRecv

/-! What the receivers of a TCP socket get. -/
namespace SimpleKernel.Tcp
open LinkedList Transition

variable {β : Type} [DecidableEq β] {s s' : RecvSocket β} {ps ys zs : List β} {p t : β}

/-- A receive of `n` bytes takes the whole of a list of pbufs with these lengths. -/
def Spans (n : ℤ) (lens : List ℕ) : Prop := (lens.dropLast.sum : ℤ) < n ∧ (lens.sum : ℤ) ≤ n

instance (n : ℤ) (lens : List ℕ) : Decidable (Spans n lens) := inferInstanceAs (Decidable (_ ∧ _))

/-- How many pbufs a receive of `n` bytes takes. -/
def taken : ℤ → List ℕ → ℕ
  | _, [] => 0
  | n, l :: lens => if n ≤ 0 ∨ n < l then 0 else taken (n - l) lens + 1

theorem taken_le (n : ℤ) (lens : List ℕ) : taken n lens ≤ lens.length := by
  induction lens generalizing n with
  | nil => exact Nat.le_refl _
  | cons l lens ih =>
    rw [taken]
    split
    · exact Nat.zero_le _
    · exact Nat.succ_le_succ (ih _)

theorem lt_taken_iff {n : ℤ} {as : List ℕ} (bs : List ℕ) {l : ℕ} : as.length < taken n (as ++ l :: bs) ↔ Spans n (as ++ [l]) := by
  induction as generalizing n with
  | nil =>
    rw [List.nil_append, taken]
    simp only [Spans, List.length_nil, List.nil_append, List.dropLast_singleton, List.sum_nil, List.sum_singleton]
    split <;> omega
  | cons a as ih =>
    have hspans : Spans n (a :: as ++ [l]) ↔ ¬ (n ≤ 0 ∨ n < a) ∧ Spans (n - a) (as ++ [l]) := by
      simp only [Spans, List.dropLast_concat, List.sum_cons, List.sum_append]
      omega
    rw [hspans, ← ih, List.cons_append, taken]
    split
    · rename_i h
      simp [h]
    · simp only [List.length_cons]
      omega

theorem taken_eq_length_iff {n : ℤ} {lens : List ℕ} (h : lens ≠ []) : taken n lens = lens.length ↔ Spans n lens := by
  obtain ⟨as, l, rfl⟩ : ∃ as l, lens = as ++ [l] :=
    ⟨lens.dropLast, lens.getLast h, (List.dropLast_concat_getLast h).symm⟩
  rw [← lt_taken_iff []]
  have hle := taken_le n (as ++ [l])
  simp only [List.length_append, List.length_singleton] at hle ⊢
  omega

theorem writeIovec_eq (iov : List ℕ) (buf : List UInt8) (h : buf.length ≤ iov.sum) :
    (writeIovec iov buf).2 = buf ∧ (writeIovec iov buf).1.sum + buf.length = iov.sum := by
  induction iov generalizing buf with
  | nil =>
    have hbuf : buf = [] := List.length_eq_zero_iff.mp (by simpa using h)
    rw [hbuf]
    exact ⟨rfl, rfl⟩
  | cons n iov ih =>
    rw [writeIovec]
    split
    · rename_i hbuf
      simp [hbuf]
    · rw [List.sum_cons] at h
      have hrest : (buf.drop (min n buf.length)).length ≤ iov.sum := by
        rw [List.length_drop]
        omega
      obtain ⟨hwritten, hroom⟩ := ih _ hrest
      dsimp only
      rw [List.length_drop] at hroom
      refine ⟨by rw [hwritten, List.take_append_drop], ?_⟩
      rw [List.sum_cons, List.sum_cons]
      omega

theorem roomOf_le (iov : List ℕ) : roomOf iov ≤ iov.sum := by
  unfold roomOf int32
  omega

/-- The pbufs of the chain at `recvhead` are `ps`. -/
structure RecvSocket.Links (s : RecvSocket β) (ps : List β) : Prop where
  chain : Chain s.next s.recvhead ps
  mem : ∀ p ∈ ps, p ∈ s.alloc
  nodup : s.alloc.Nodup

/-- The parts of a socket that `fetch_rcvbuf` leaves alone. -/
structure SameRequests (s s' : RecvSocket β) : Prop where
  closing : s'.closing = s.closing
  serving : s'.serving = s.serving
  waiting : s'.waiting = s.waiting
  arrived : s'.arrived = s.arrived
  returned : s'.returned = s.returned

omit [DecidableEq β] in
theorem SameRequests.refl (s : RecvSocket β) : SameRequests s s := ⟨rfl, rfl, rfl, rfl, rfl⟩

/-- What a receive of `left` bytes does to the chain `ps`. -/
structure Fetches (s s' : RecvSocket β) (ps : List β) (left : ℤ) : Prop where
  links : s'.Links (ps.drop (taken left (ps.map fun p => (s.payload p).length)))
  data : (ps.drop (taken left (ps.map fun p => (s.payload p).length))).flatMap s'.payload =
    (ps.flatMap s.payload).drop left.toNat
  tail : s'.recvtail =
    if taken left (ps.map fun p => (s.payload p).length) = ps.length ∧ ps ≠ [] then none else s.recvtail
  same : SameRequests s s'

theorem fetchLoop_eq {fuel : ℕ} {iov : List ℕ} {left : ℤ} {recved : List UInt8} (h : s.Links ps)
    (hroom : left ≤ iov.sum) (hfuel : ps.length ≤ fuel) :
    ∃ s', fetchLoop fuel s iov left recved = some (s', recved ++ (ps.flatMap s.payload).take left.toNat) ∧
      Fetches s s' ps left := by
  induction ps generalizing s iov left recved fuel with
  | nil =>
    have hhead : s.recvhead = none := h.chain
    refine ⟨s, ?_, by simpa using h, by simp, by simp, SameRequests.refl s⟩
    unfold fetchLoop
    rw [hhead]
    simp
  | cons p ps ih =>
    obtain ⟨hhead, hrest⟩ := h.chain
    have hpps := (List.nodup_cons.mp h.chain.nodup).1
    have hpalloc := h.mem p List.mem_cons_self
    by_cases hleft : left ≤ 0
    · have hzero : left.toNat = 0 := by omega
      have htaken : taken left ((p :: ps).map fun p => (s.payload p).length) = 0 := by
        rw [List.map_cons, taken, if_pos (Or.inl hleft)]
      refine ⟨s, ?_, by rw [htaken]; exact h, by rw [htaken, hzero]; rfl, by rw [htaken]; simp,
        SameRequests.refl s⟩
      unfold fetchLoop
      rw [hhead]
      simp [hleft]
    obtain ⟨fuel, rfl⟩ : ∃ n, fuel = n + 1 := ⟨fuel - 1, by simp at hfuel; omega⟩
    have hcast : (left.toNat : ℤ) = left := Int.toNat_of_nonneg (by omega)
    by_cases hpart : left < (s.payload p).length
    · -- the request ends inside `p`
      have hlen : ((s.payload p).take left.toNat).length = left.toNat := by
        rw [List.length_take]
        omega
      obtain ⟨hwritten, -⟩ := writeIovec_eq iov ((s.payload p).take left.toNat) (by omega)
      have htaken : taken left ((p :: ps).map fun p => (s.payload p).length) = 0 := by
        rw [List.map_cons, taken, if_pos (Or.inr hpart)]
      have hrun : ∀ n s'' iov' recved', s''.recvhead = some p →
          fetchLoop n (s'' : RecvSocket β) iov' (left - left) recved' = some (s'', recved') := by
        intro n s'' iov' recved' hsome
        unfold fetchLoop
        rw [hsome]
        simp
      refine ⟨{ s with
          payload := Function.update s.payload p ((s.payload p).drop left.toNat)
          totLen := Function.update s.totLen p (s.totLen p - left) }, ?_, ?_, ?_, by rw [htaken]; simp,
        ⟨rfl, rfl, rfl, rfl, rfl⟩⟩
      · unfold fetchLoop
        rw [hhead]
        simp only [hleft, if_false, hpalloc, not_true_eq_false, hpart, if_true, hwritten, hlen, hcast]
        rw [hrun _ _ _ _ rfl, List.flatMap_cons, List.take_append_of_le_length (by omega)]
      · rw [htaken]
        exact ⟨h.chain, h.mem, h.nodup⟩
      · dsimp only
        rw [htaken, List.drop_zero, List.flatMap_cons, List.flatMap_cons, Function.update_self,
          List.drop_append_of_le_length (by omega)]
        congr 1
        apply List.flatMap_congr
        intro q hq
        have hqp : q ≠ p := fun e => hpps (e ▸ hq)
        exact Function.update_of_ne hqp _ _
    · -- `p` is taken whole
      obtain ⟨hwritten, hroom'⟩ := writeIovec_eq iov (s.payload p) (by omega)
      have hlinks : RecvSocket.Links ({ s.dechain p with
          recvhead := s.next p
          recvtail := if s.next p = none then none else s.recvtail
          alloc := s.alloc.erase p }) ps := by
        refine ⟨hrest.congr fun q hq => ?_, fun q hq => ?_, h.nodup.erase p⟩
        · have hqp : q ≠ p := fun e => hpps (e ▸ hq)
          exact Function.update_of_ne hqp _ _
        · have hqp : q ≠ p := fun e => hpps (e ▸ hq)
          exact (List.mem_erase_of_ne hqp).mpr (h.mem q (List.mem_cons_of_mem _ hq))
      have hrestroom : left - (s.payload p).length ≤ (writeIovec iov (s.payload p)).1.sum := by omega
      obtain ⟨s', hrun, hfetch⟩ := @ih _ fuel _ _ (recved ++ s.payload p) hlinks hrestroom (by simpa using hfuel)
      have htaken : taken left ((p :: ps).map fun p => (s.payload p).length) =
          taken (left - (s.payload p).length) (ps.map fun p => (s.payload p).length) + 1 := by
        rw [List.map_cons, taken, if_neg (by omega)]
      have hsub : left.toNat = (s.payload p).length + (left - (s.payload p).length).toNat := by omega
      obtain ⟨hlinks', hdata, htail, hsame⟩ := hfetch
      dsimp only [RecvSocket.dechain] at hlinks' hdata htail
      refine ⟨s', ?_, ?_, ?_, ?_, ⟨hsame.closing, hsame.serving, hsame.waiting, hsame.arrived, hsame.returned⟩⟩
      · unfold fetchLoop
        rw [hhead]
        simp only [hleft, hpalloc, hpart, hwritten]
        rw [hrun, List.append_assoc, List.flatMap_cons, hsub, List.take_length_add_append]
        rfl
      · rw [htaken]
        exact hlinks'
      · rw [htaken, List.drop_succ_cons, hdata, List.flatMap_cons, hsub, List.drop_length_add_append]
      · rw [htaken, htail]
        have hnil : s.next p = none ↔ ps = [] := by
          rw [hrest.head]
          exact List.head?_eq_none_iff
        by_cases hps : ps = []
        · subst hps
          simp [taken, hnil.mpr rfl]
        · have hnext : s.next p ≠ none := fun e => hps (hnil.mp e)
          simp only [hnext, if_false, hps, ne_eq, List.length_cons, reduceCtorEq,
            Nat.add_right_cancel_iff]

/-- The pbufs of the chain at `recvhead`. -/
def RecvSocket.pbufs (s : RecvSocket β) : List β := follow s.next s.alloc.length s.recvhead

/-- The pbufs up to `recvtail`. -/
def RecvSocket.upTo (s : RecvSocket β) (t : β) : List β := s.pbufs.takeWhile (· ≠ t) ++ [t]

/-- A receive of `n` bytes that takes the pbuf at `recvtail` takes the rest of its chain as well. -/
def RecvSocket.Safe (s : RecvSocket β) (n : ℤ) : Prop :=
  ∀ t ∈ s.recvtail, Spans n ((s.upTo t).map fun p => (s.payload p).length) →
    Spans n (s.pbufs.map fun p => (s.payload p).length)

instance (s : RecvSocket β) (n : ℤ) : Decidable (s.Safe n) := inferInstanceAs (Decidable (∀ t ∈ s.recvtail, _))

/-- The condition on a step: its receive is safe. -/
def RecvSocket.ok (s : RecvSocket β) : RecvAct β → Prop
  | .serve => ∀ iov ∈ s.waiting.head?, s.Safe (roomOf iov)
  | .recvmsg _ iov => s.Safe (roomOf iov)
  | _ => True

instance (s : RecvSocket β) : (l : RecvAct β) → Decidable (s.ok l)
  | .serve => inferInstanceAs (Decidable (∀ iov ∈ s.waiting.head?, s.Safe (roomOf iov)))
  | .recvmsg _ iov => inferInstanceAs (Decidable (s.Safe (roomOf iov)))
  | .arrive _ _ _ => inferInstanceAs (Decidable True)
  | .fin => inferInstanceAs (Decidable True)
  | .withdraw _ => inferInstanceAs (Decidable True)

/-- What holds in a run. -/
structure RecvSocket.Holds (s : RecvSocket β) (ps : List β) : Prop where
  links : s.Links ps
  data : s.arrived = s.returned ++ ps.flatMap s.payload
  tail : (ps = [] ∧ s.recvtail = none) ∨ ∃ t ∈ ps, s.recvtail = some t

section
omit [DecidableEq β]

theorem RecvSocket.Holds.sound (h : s.Holds ps) : s.Sound := by
  refine ⟨ps, h.links.chain, h.links.mem, h.data, ?_, ?_⟩
  · have hhead := h.links.chain.head
    rcases h.tail with ⟨rfl, htail⟩ | ⟨t, ht, htail⟩
    · rw [htail, hhead]
      simp
    · rw [htail, hhead]
      simp [List.ne_nil_of_mem ht]
  · intro t ht
    rcases h.tail with ⟨-, htail⟩ | ⟨t', ht', htail⟩
    · rw [htail] at ht
      exact absurd ht (by simp)
    · rw [htail] at ht
      exact Option.some.inj ht ▸ ht'

theorem RecvSocket.Links.length_le (h : s.Links ps) : ps.length ≤ s.alloc.length :=
  (List.subperm_of_subset h.chain.nodup h.mem).length_le

theorem RecvSocket.Links.pbufs (h : s.Links ps) : s.pbufs = ps := h.chain.follow h.length_le

end

theorem RecvSocket.Links.upTo (h : s.Links (ys ++ t :: zs)) : s.upTo t = ys ++ [t] := by
  have hnodup := h.chain.nodup
  have hty : ∀ y ∈ ys, y ≠ t := fun y hy e =>
    (List.nodup_append.mp hnodup).2.2 y hy t List.mem_cons_self e
  unfold RecvSocket.upTo
  rw [h.pbufs, List.takeWhile_append_of_pos (by simpa using hty), List.takeWhile_cons_of_neg (by simp),
    List.append_nil]

theorem RecvSocket.Holds.fetch (h : s.Holds ps) {iov : List ℕ} (hsafe : s.Safe (roomOf iov)) :
    ∃ s' bytes ps', fetchRcvbuf s iov = some (s', bytes) ∧ s'.Links ps' ∧ SameRequests s s' ∧
      s.arrived = s.returned ++ bytes ++ ps'.flatMap s'.payload ∧
      ((ps' = [] ∧ s'.recvtail = none) ∨ ∃ t ∈ ps', s'.recvtail = some t) := by
  obtain ⟨s', hrun, hlinks, hdata, htail, hsame⟩ :=
    @fetchLoop_eq _ _ s ps _ iov (roomOf iov) [] h.links (roomOf_le iov) h.links.length_le
  refine ⟨s', _, _, hrun, hlinks, hsame, ?_, ?_⟩
  · rw [h.data, hdata, List.nil_append, List.append_assoc, List.take_append_drop]
  · rcases h.tail with ⟨rfl, hnone⟩ | ⟨t, ht, hsome⟩
    · left
      exact ⟨by simp, by rw [htail, hnone]; simp⟩
    · have hne := List.ne_nil_of_mem ht
      by_cases hall : taken (roomOf iov) (ps.map fun p => (s.payload p).length) = ps.length
      · left
        exact ⟨by rw [hall, List.drop_length], by rw [htail, if_pos ⟨hall, hne⟩]⟩
      · right
        refine ⟨t, ?_, by rw [htail, if_neg fun e => hall e.1, hsome]⟩
        -- the pbuf at `recvtail` was not taken
        obtain ⟨ys, zs, rfl⟩ := List.append_of_mem ht
        have hspan : ¬ Spans (roomOf iov) ((ys ++ [t]).map fun p => (s.payload p).length) := by
          intro hspan
          rw [← h.links.upTo] at hspan
          have hwhole := hsafe t hsome hspan
          rw [h.links.pbufs, ← taken_eq_length_iff (by simp), List.length_map] at hwhole
          exact hall hwhole
        rw [List.map_append, List.map_singleton, ← lt_taken_iff (zs.map fun p => (s.payload p).length),
          List.length_map] at hspan
        rw [List.map_append, List.map_cons, List.drop_append_of_le_length (by omega)]
        simp

theorem RecvSocket.Holds.serve (h : s.Holds ps) (hok : s.ok .serve) : ∃ s' ps', s.serve = some s' ∧ s'.Holds ps' := by
  have hidle : RecvSocket.Holds { s with serving := false } ps :=
    ⟨⟨h.links.chain, h.links.mem, h.links.nodup⟩, h.data, h.tail⟩
  cases hhead : s.recvhead with
  | none => exact ⟨_, ps, by simp only [RecvSocket.serve, hhead], hidle⟩
  | some p =>
    cases hwait : s.waiting with
    | nil => exact ⟨{ s with serving := false }, ps, by simp only [RecvSocket.serve, hhead, hwait], hidle⟩
    | cons iov rest =>
      have hsafe : s.Safe (roomOf iov) := hok iov (by simp [hwait])
      obtain ⟨s', bytes, ps', hrun, hlinks, hsame, hdata, htail⟩ := h.fetch hsafe
      by_cases hbytes : bytes = []
      · refine ⟨s', ps', ?_, hlinks, ?_, htail⟩
        · simp only [RecvSocket.serve, hhead, hwait, hrun, hbytes, if_true]
        · rw [hsame.arrived, hsame.returned, hdata, hbytes, List.append_nil]
      · refine ⟨{ s' with waiting := rest, returned := s'.returned ++ bytes }, ps', ?_,
          ⟨hlinks.chain, hlinks.mem, hlinks.nodup⟩, ?_, htail⟩
        · simp only [RecvSocket.serve, hhead, hwait, hrun, hbytes, if_false]
        · rw [hsame.arrived, hsame.returned, hdata]

theorem RecvSocket.Holds.recvmsg (h : s.Holds ps) {nbio : Bool} {iov : List ℕ} (hok : s.ok (.recvmsg nbio iov)) :
    ∃ s' ps', s.recvmsg nbio iov = some s' ∧ s'.Holds ps' := by
  by_cases hroom : roomOf iov ≤ 0
  · exact ⟨s, ps, by rw [RecvSocket.recvmsg, if_pos hroom], h⟩
  · obtain ⟨s', bytes, ps', hrun, hlinks, hsame, hdata, htail⟩ := h.fetch hok
    by_cases hbytes : bytes = []
    · have hsum : s'.arrived = s'.returned ++ ps'.flatMap s'.payload := by
        rw [hsame.arrived, hsame.returned, hdata, hbytes, List.append_nil]
      by_cases hback : s'.closing ∨ nbio
      · refine ⟨s', ps', ?_, hlinks, hsum, htail⟩
        simp only [RecvSocket.recvmsg, hroom, if_false, hrun, hbytes, if_true, hback]
      · refine ⟨{ s' with waiting := s'.waiting ++ [iov] }, ps', ?_,
          ⟨hlinks.chain, hlinks.mem, hlinks.nodup⟩, hsum, htail⟩
        simp only [RecvSocket.recvmsg, hroom, if_false, hrun, hbytes, if_true, hback]
    · refine ⟨{ s' with returned := s'.returned ++ bytes }, ps', ?_,
        ⟨hlinks.chain, hlinks.mem, hlinks.nodup⟩, ?_, htail⟩
      · simp only [RecvSocket.recvmsg, hroom, if_false, hrun, hbytes]
      · rw [hsame.arrived, hsame.returned, hdata]

theorem RecvSocket.load_eq {c : List (β × List UInt8)} (hnodup : (c.map Prod.fst).Nodup) :
    Chain (s.load c).next (c.head?.map Prod.fst) (c.map Prod.fst) ∧
      (c.map Prod.fst).flatMap (s.load c).payload = c.flatMap Prod.snd ∧
      (s.load c).alloc = c.map Prod.fst ++ s.alloc ∧
      (s.load c).recvhead = s.recvhead ∧ (s.load c).recvtail = s.recvtail ∧
      (∀ q, q ∉ c.map Prod.fst → (s.load c).next q = s.next q ∧ (s.load c).payload q = s.payload q) ∧
      SameRequests s (s.load c) := by
  induction c with
  | nil => exact ⟨rfl, rfl, rfl, rfl, rfl, fun _ _ => ⟨rfl, rfl⟩, SameRequests.refl s⟩
  | cons x c ih =>
    obtain ⟨p, data⟩ := x
    rw [List.map_cons, List.nodup_cons] at hnodup
    obtain ⟨hp, hnodup⟩ := hnodup
    obtain ⟨hchain, hdata, halloc, hhead, htail, hframe, hsame⟩ := ih hnodup
    have hne : ∀ q ∈ c.map Prod.fst, q ≠ p := fun q hq e => hp (e ▸ hq)
    refine ⟨⟨rfl, ?_⟩, ?_, ?_, hhead, htail, fun q hq => ?_,
      ⟨hsame.closing, hsame.serving, hsame.waiting, hsame.arrived, hsame.returned⟩⟩
    · simp only [RecvSocket.load, Function.update_self]
      exact hchain.congr fun q hq => Function.update_of_ne (hne q hq) _ _
    · simp only [RecvSocket.load, List.map_cons, List.flatMap_cons, Function.update_self]
      rw [← hdata]
      congr 1
      apply List.flatMap_congr
      intro q hq
      exact Function.update_of_ne (hne q hq) _ _
    · simp only [RecvSocket.load, halloc]
      rfl
    · obtain ⟨hqp, hqc⟩ : q ≠ p ∧ q ∉ c.map Prod.fst := by simpa using hq
      simp only [RecvSocket.load, Function.update_of_ne hqp]
      exact hframe q hqc

theorem RecvSocket.Holds.recvTcp (h : s.Holds ps) {data : List UInt8} {c : List (β × List UInt8)}
    (hnodup : (p :: c.map Prod.fst).Nodup) (hfresh : ∀ a ∈ p :: c.map Prod.fst, a ∉ s.alloc) :
    ∃ s' ps', s.recvTcp p data c = some s' ∧ s'.Holds ps' := by
  have hload := RecvSocket.load_eq (s := s) (c := (p, data) :: c) hnodup
  unfold RecvSocket.recvTcp
  generalize hloaded : s.load ((p, data) :: c) = s₁ at hload ⊢
  obtain ⟨hchain, hdata, halloc, hhead, htail, hframe, hsame⟩ := hload
  simp only [List.map_cons, List.flatMap_cons] at hchain hdata halloc hframe
  have hnodup' : s₁.alloc.Nodup := by
    rw [halloc]
    exact List.Nodup.append hnodup h.links.nodup fun a ha ha' => hfresh a ha ha'
  have hold : ∀ q ∈ ps, q ∉ p :: c.map Prod.fst := fun q hq hqc => hfresh q hqc (h.links.mem q hq)
  have hpayload : ps.flatMap s₁.payload = ps.flatMap s.payload := by
    apply List.flatMap_congr
    intro q hq
    exact (hframe q (hold q hq)).2
  have hmem : ∀ q ∈ ps ++ (p :: c.map Prod.fst), q ∈ s₁.alloc := by
    intro q hq
    rw [halloc]
    rcases List.mem_append.mp hq with hq | hq
    · exact List.mem_append_right _ (h.links.mem q hq)
    · exact List.mem_append_left _ hq
  have hbytes : s.arrived ++ (data ++ c.flatMap Prod.snd) =
      s₁.returned ++ (ps ++ (p :: c.map Prod.fst)).flatMap s₁.payload := by
    rw [List.flatMap_append, hpayload, List.flatMap_cons, hdata, hsame.returned, h.data, List.append_assoc]
  dsimp only
  rcases h.tail with ⟨rfl, hnone⟩ | ⟨t, ht, hsome⟩
  · rw [htail, hnone]
    exact ⟨_, p :: c.map Prod.fst, rfl, ⟨hchain, hmem, hnodup'⟩, hbytes, Or.inr ⟨p, List.mem_cons_self, rfl⟩⟩
  · rw [htail, hsome]
    dsimp only
    have hps : Chain s₁.next s₁.recvhead ps := by
      rw [hhead]
      exact h.links.chain.congr fun q hq => (hframe q (hold q hq)).1
    obtain ⟨xs, b, rfl⟩ : ∃ xs b, ps = xs ++ [b] :=
      ⟨ps.dropLast, ps.getLast (List.ne_nil_of_mem ht), (List.dropLast_concat_getLast _).symm⟩
    have htalloc : t ∈ s₁.alloc := hmem t (List.mem_append_left _ ht)
    have hb : b ∉ p :: c.map Prod.fst := hold b (by simp)
    -- the end of the chain from `recvtail` is the end of the whole chain
    have hlast : lastFrom s₁.next s₁.alloc.length t = some b := by
      have hlen : (xs ++ [b]).length ≤ s₁.alloc.length :=
        (List.subperm_of_subset hps.nodup fun q hq => hmem q (List.mem_append_left _ hq)).length_le
      rcases List.mem_append.mp ht with htx | htb
      · obtain ⟨as, bs, rfl⟩ := List.append_of_mem htx
        rw [List.append_assoc] at hps
        have hsuffix := hps.suffix
        refine hsuffix.lastFrom ?_
        simp only [List.length_append] at hlen
        omega
      · rw [List.mem_singleton.mp htb]
        have hsuffix : Chain s₁.next (some b) ([] ++ [b]) := hps.suffix
        exact hsuffix.lastFrom (Nat.zero_le _)
    have hlinked := hps.redirect hchain hb
    rw [RecvSocket.chain, if_pos htalloc]
    simp only [hlast]
    refine ⟨_, xs ++ b :: p :: c.map Prod.fst, rfl, ⟨hlinked, ?_, hnodup'⟩, ?_, Or.inr ⟨p, by simp, rfl⟩⟩
    · simpa using hmem
    · simpa using hbytes

theorem RecvSocket.Holds.step (h : s.Holds ps) {l : RecvAct β} (hok : s.ok l) :
    ∃ s' ps', s.step l = some s' ∧ s'.Holds ps' := by
  cases l with
  | arrive p data c =>
    rw [RecvSocket.step]
    split
    · exact ⟨s, ps, rfl, h⟩
    · rename_i hguard
      push Not at hguard
      exact h.recvTcp hguard.2.1 hguard.2.2
  | fin =>
    rw [RecvSocket.step]
    split
    · exact ⟨s, ps, rfl, h⟩
    · unfold RecvSocket.recvFin
      split
      · exact ⟨_, ps, rfl, ⟨h.links.chain, h.links.mem, h.links.nodup⟩, h.data, h.tail⟩
      · exact ⟨_, ps, rfl, ⟨h.links.chain, h.links.mem, h.links.nodup⟩, h.data, h.tail⟩
  | serve =>
    rw [RecvSocket.step]
    split
    · exact h.serve hok
    · exact ⟨s, ps, rfl, h⟩
  | recvmsg nbio iov =>
    rw [RecvSocket.step]
    split
    · exact ⟨s, ps, rfl, h⟩
    · exact h.recvmsg hok
  | withdraw i =>
    rw [RecvSocket.step]
    split
    · exact ⟨s, ps, rfl, h⟩
    · exact ⟨_, ps, rfl, ⟨h.links.chain, h.links.mem, h.links.nodup⟩, h.data, h.tail⟩

/-- In every run in which a receive that takes the first pbuf of the last chain takes all of it, the receivers get the
bytes that arrived, `recvtail` stays in the chain at `recvhead`, and no step touches a pbuf that is freed. -/
theorem recv_stream (h : Reach RecvSocket.step RecvSocket.ok (RecvSocket.init β) s) :
    s.Sound ∧ ∀ l, s.ok l → ∃ s', s.step l = some s' := by
  have hinit : (RecvSocket.init β).Holds [] := ⟨⟨rfl, by simp, List.nodup_nil⟩, rfl, Or.inl ⟨rfl, rfl⟩⟩
  obtain ⟨ps, hps⟩ : ∃ ps, s.Holds ps := by
    apply h.invariant ⟨[], hinit⟩
    rintro a l b ⟨ps, hps⟩ hok hl
    obtain ⟨b', ps', hb', hholds⟩ := hps.step hok
    obtain rfl := Option.some.inj (hl.symm.trans hb')
    exact ⟨ps', hholds⟩
  refine ⟨hps.sound, fun l hok => ?_⟩
  obtain ⟨s', -, hs', -⟩ := hps.step hok
  exact ⟨s', hs'⟩

/-- Reads that end inside a pbuf or at the end of a chain. -/
def wholeReads : List (RecvAct ℕ) :=
  [.arrive 0 [1, 2] [(1, [3])], .serve, .recvmsg false [1], .recvmsg false [1, 1], .recvmsg false [5],
    .arrive 2 [4] [], .serve, .serve]

theorem recv_stream_wholeReads : ∃ s, Reach RecvSocket.step RecvSocket.ok (RecvSocket.init ℕ) s ∧
    s.returned = [1, 2, 3, 4] ∧ s.Sound := by
  have hrun : (runOk RecvSocket.step RecvSocket.ok (RecvSocket.init ℕ) wholeReads).map RecvSocket.returned =
      some [1, 2, 3, 4] := by decide +kernel
  obtain ⟨s, hs, hreturned⟩ := Option.map_eq_some_iff.mp hrun
  have hreach := reach_of_runOk wholeReads hs
  exact ⟨s, hreach, hreturned, (recv_stream hreach).1⟩

/-- A read that ends between the two pbufs of a chain leaves `recvtail` at the pbuf that it freed, which the next
chain is then linked to. -/
theorem recvtail_freed : ∃ s, Reach RecvSocket.step (fun _ _ => True) (RecvSocket.init ℕ) s ∧
    s.recvtail = some 0 ∧ 0 ∉ s.alloc ∧ s.step (.arrive 2 [3] []) = none ∧ ¬ s.Sound := by
  have hrun : (run RecvSocket.step (RecvSocket.init ℕ)
        [.arrive 0 [1] [(1, [2])], .serve, .recvmsg false [1]]).map
      (fun s => (s.recvtail, s.alloc, (s.step (.arrive 2 [3] [])).isNone)) = some (some 0, [1], true) := by
    decide +kernel
  obtain ⟨s, hs, hfields⟩ := Option.map_eq_some_iff.mp hrun
  rw [Prod.mk.injEq, Prod.mk.injEq, Option.isNone_iff_eq_none] at hfields
  obtain ⟨htail, halloc, hfault⟩ := hfields
  have hfreed : 0 ∉ s.alloc := by rw [halloc]; decide
  refine ⟨s, reach_of_run _ hs, htail, hfreed, hfault, ?_⟩
  rintro ⟨ps, -, hmem, -, -, hps⟩
  exact hfreed (hmem 0 (hps 0 htail))

end SimpleKernel.Tcp
