import SimpleKernel.Buffer.Refinement

/-! Every call of the only thread returns: the work that is left gets less with each step, and as long as the thread
does not hold all buffers there is a next step. -/
namespace SimpleKernel.Buffer
open LinkedList Transition

variable {β : Type}

def Pool.dirtyCount (p : Pool Unit β) : ℕ :=
  ((Finset.range p.poolsize).filter fun f => p.state f = .dirty).card

/-- A bound on the steps that are left of a call. -/
def Sys.work (s : Sys Unit β) : ℕ :=
  match s.pc () with
  | .idle | .wait _ _ => 0
  | .woken _ _ | .read _ => 1
  | .evict _ _ _ (some _) => 2
  | .evict _ _ _ none => 3
  | .retry _ _ => 4
  | .flushNext _ => 3 * s.pool.dirtyCount + 1
  | .flushWrite _ _ (some _) => 3 * s.pool.dirtyCount + 2
  | .flushWrite _ _ none => 3 * s.pool.dirtyCount + 3
  | .syncUser _ => 3 * s.pool.poolsize + 2
  | .syncNext _ i => 3 * (s.pool.poolsize - i) + 1
  | .syncWrite _ f (some _) => 3 * (s.pool.poolsize - f) - 1
  | .syncWrite _ f none => 3 * (s.pool.poolsize - f)

section Work
variable [Zero β] {B : Set Blkno} {w : UInt32} {op : Op β} {s₀ s s' m : Sys Unit β} {v : View β}
  {f : BufId} {l : Label Unit β}

omit [Zero β] in
theorem dirtyCount_lt {p q : Pool Unit β} {st : BufState} (hf : f < p.poolsize)
    (hst : p.state f = .dirty) (hn : q.poolsize = p.poolsize)
    (hq : q.state = Function.update p.state f st) (hd : st ≠ .dirty) :
    q.dirtyCount < p.dirtyCount := by
  refine Finset.card_lt_card ((Finset.ssubset_iff_of_subset fun g hg => ?_).mpr ⟨f, ?_, ?_⟩)
  · simp only [Finset.mem_filter, hn, hq] at hg ⊢
    refine ⟨hg.1, ?_⟩
    rcases eq_or_ne g f with rfl | hgf
    · exact hst
    · rw [← hg.2, Function.update_of_ne hgf]
  · simp [hf, hst]
  · simp [hq, hd]

omit [Zero β] in
theorem dirtyCount_eq {p q : Pool Unit β} {st : BufState} (hst : p.state f ≠ .dirty)
    (hn : q.poolsize = p.poolsize) (hq : q.state = Function.update p.state f st) (hd : st ≠ .dirty) :
    q.dirtyCount = p.dirtyCount := by
  unfold Pool.dirtyCount
  congr 1
  ext g
  simp only [Finset.mem_filter, hn, hq]
  rcases eq_or_ne g f with rfl | hgf
  · simp [hst, hd]
  · rw [Function.update_of_ne hgf]

theorem useNew_work {k : Fetch} {b : Blkno} {p : Pool Unit β} : (s.useNew () k b p f).work ≤ 1 := by
  cases k
  · simp [Sys.useNew, Sys.work]
  · simp [Sys.useNew, Sys.work]

theorem cont_work (h : Solo s) (hp : Progress B w op s₀ v s) (hc : Cont () s m) :
    m.work < s.work := by
  cases hc with
  | @afterLookup c f hpc =>
    have hm : (s.afterLookup () c s.pool f).pc () = .idle := by
      unfold Sys.afterLookup
      split
      · split_ifs
        · rfl
        · split <;> rfl
      · rfl
    simp [Sys.work, hm, hpc]
  | @free k b f hpc hf | @clean k b f hpc hf hcl =>
    have : s.work = 4 := by simp [Sys.work, hpc]
    exact this ▸ lt_of_le_of_lt useNew_work (by decide)
  | @evict k b f hpc hf hcl hd => simp [Sys.work, hpc]
  | @flush i f hpc hd =>
    have hlt := dirtyCount_lt (h.inv.dirty_head hd).1 (h.inv.dirty_head hd).2
      (congrArg Prod.fst (writeBufferStart_geometry s.pool f true))
      (writeBufferStart_state s.pool f true) (by decide)
    simp only [Sys.work, hpc, Sys.goto_pc, Function.update_self, Sys.goto_pool]
    omega
  | @flushReturn i rc hpc hr => simp [Sys.work, hpc]
  | @sync i j f hpc hst hf =>
    obtain ⟨-, -, hop⟩ := hp.running (by simp [hpc])
    simp only [During, hpc] at hop
    have hj : @LE.le ℕ _ j f := by
      by_contra hj
      exact hop.2.2 f (not_le.mp hj) hst
    simp only [Sys.work, hpc, Sys.goto_pc, Function.update_self, Sys.goto_pool, Pool.lock_poolsize]
    omega
  | @syncReturn i j rc hpc hr => simp [Sys.work, hpc]

theorem entry_work (h : Solo s) (hp : Progress B w op s₀ v s) (hfull : s.Full l)
    (hl : ∀ op, l ≠ .call () op) (hr : l = .resume () → ∃ i, s.pc () = .syncUser i)
    (he : Entry l s m) : m.work < s.work := by
  cases l with
  | call t o => exact absurd rfl (hl o)
  | take t =>
    cases he with
    | take ht =>
      unfold Sys.take at ht
      split at ht <;> cases ht <;> rename_i hpc
      · simp [Sys.work, show s.pc () = _ from hpc]
      · simp [Sys.work, show s.pc () = _ from hpc]
      · obtain ⟨-, -, hop⟩ := hp.running (by simp [show s.pc () = _ from hpc])
        simp only [During, show s.pc () = _ from hpc] at hop
        have hf : @LT.lt ℕ _ _ _ := h.inv.occupied (f := ‹_›) (by simp [hop.2.2.2.1])
        simp only [Sys.work, show s.pc () = _ from hpc, Sys.goto_pc, Function.update_self,
          Sys.goto_pool]
        omega
  | done t rc d =>
    have hsize := h.inv.size
    have hrc : rc = s.pool.bufsize := hfull
    cases he with
    | @evictEnd _ _ k b f taken _ _ dev hpc hw =>
      obtain ⟨x, rfl, -⟩ := written_full hw hrc
      have hwork : s.work = 2 := by simp [Sys.work, show s.pc () = _ from hpc]
      rw [h.evictFinish_eq dev hpc hrc, hwork]
      exact lt_of_le_of_lt useNew_work (by decide)
    | @flushEnd _ _ i f taken _ _ dev hpc hw _ =>
      obtain ⟨x, rfl, -⟩ := written_full hw hrc
      have hst := h.inv.writing (t := ()) (f := f) (by simp [show s.pc () = _ from hpc, Pc.writes])
      obtain ⟨st, hstate, hcl, -⟩ := flushWritten_state f { s with dev := dev } rc
      have hcount := dirtyCount_eq (p := s.pool) (by simp [hst])
        (congrArg Prod.fst (flushWritten_kept { s with dev := dev } f rc).2) hstate
        (by rcases hcl with e | e | e <;> simp [e])
      simp only [Sys.work, show s.pc () = _ from hpc, Sys.goto_pc, Function.update_self,
        Sys.goto_pool]
      omega
    | flushFail hpc hw hneg => omega
    | @syncEnd _ _ i f taken _ _ dev hpc hw _ =>
      obtain ⟨x, rfl, -⟩ := written_full hw hrc
      obtain ⟨-, -, hop⟩ := hp.running (by simp [show s.pc () = _ from hpc])
      simp only [During, show s.pc () = _ from hpc] at hop
      have hf : @LT.lt ℕ _ f _ := h.inv.occupied (by simp [hop.2.2.2.1])
      have hn : ((s.pool.changeState f .locked).releaseBuffer f).poolsize = s.pool.poolsize :=
        congrArg Prod.fst (releaseBuffer_geometry (s.pool.changeState f .locked) f)
      simp only [Sys.work, show s.pc () = _ from hpc, Sys.goto_pc, Function.update_self,
        Sys.goto_pool]
      omega
    | syncFail hpc hw hneg => omega
    | @readEnd _ _ f _ _ hpc =>
      have hm : (s.readDone () f rc (s.fetched f rc d)).pc () = .idle := by
        unfold Sys.readDone
        split_ifs <;> simp
      simp [Sys.work, hm, show s.pc () = _ from hpc]
  | resume t =>
    obtain ⟨i, hi⟩ := hr rfl
    cases he with
    | resume hpc => simp [show s.pc _ = _ from hi] at hpc
    | syncUser hpc hsy => simp [Sys.work, hi]

end Work

section Advance
variable [Zero β] {B : Set Blkno} {w : UInt32} {op : Op β} {s₀ s s' m : Sys Unit β} {v : View β}
  {f : BufId} {l : Label Unit β}

section
omit [Zero β]

theorem Sys.Full.sound (h : s.Full l) : s.Sound l := by
  cases l with
  | done t rc d => exact Or.inl h
  | _ => trivial

theorem Solo.bounded (h : Solo s) (hh : ∀ f, s.holds () f + 1 < 2 ^ 16) : s.Bounded := by
  intro f
  have hpc : (s.pc ()).refs f ≤ 1 := by
    cases s.pc () <;> simp [Pc.refs] <;> split_ifs <;> simp
  have := hh f
  simp only [Sys.refs, Finset.univ_unique, Finset.sum_singleton, h.alone.leaked,
    h.alone.waiters h.inv f, List.length_nil, Pi.zero_apply]
  exact lt_of_le_of_lt (by simpa using hpc) this

theorem Solo.available {k : Fetch} {b : Blkno} (h : Solo s) (hpc : s.pc () = .retry k b)
    (hcard : s.held.card < s.pool.poolsize) (hfr : s.pool.freelist = none)
    (hcl : s.pool.clean.head = none) : s.pool.dirty.head ≠ none := by
  intro hd
  have hn : (s.pc ()).Neutral := by
    rw [hpc]
    exact Pc.neutral_retry k b
  have hall : Finset.range s.pool.poolsize ⊆ s.held := by
    intro f hf
    have hlt := Finset.mem_range.mp hf
    refine Finset.mem_filter.mpr ⟨hf, ?_⟩
    obtain ⟨fs, h1, m1⟩ := h.inv.shape.free
    obtain ⟨cs, h2, m2⟩ := h.inv.shape.clean
    have hfs : f ∉ fs := by
      rw [List.head?_eq_none_iff.mp (h1.head.symm.trans hfr)]
      simp
    have hcs : f ∉ cs := by
      rw [List.head?_eq_none_iff.mp (h2.head.symm.trans hcl)]
      simp
    rw [m1] at hfs
    rw [m2] at hcs
    have hds := h.inv.settled hd f
    have hbusy := (h.inv.neutral hn f).1
    have hok := (h.inv.buf f).refs
    have herr := h.alone.error f
    rw [(h.inv.neutral hn f).2, h.alone.leaked] at hok
    cases hst : s.pool.state f <;> simp_all [RefsOk, BufState.role, Pool.busy]
  have := Finset.card_le_card hall
  simp only [Finset.card_range] at this
  omega

end

theorem step_progress (h : Solo s) (hbd : s.Bounded) (hsv : Served B w s₀.pool.sync)
    (ha : Allowed B v s₀ op) (hfull : s.Full l) (hl : ∀ op, l ≠ .call () op)
    (hp : Progress B w op s₀ v s) (hs : s.step l = some s') : Solo s' ∧ Progress B w op s₀ v s' := by
  obtain ⟨hs', m, hm, he, hc⟩ := h.step hbd (Sys.Full.sound hfull) hs
  have hsync : s.pool.sync = s₀.pool.sync := congrArg (fun x => x.2.2.2) hp.geometry
  have hpm := own_progress h hm hbd (hsync ▸ hsv) ha hfull hl hp he
  rcases hc with rfl | hc
  · exact ⟨hs', hpm⟩
  · exact ⟨hs', cont_progress hm hs' ha hpm hc⟩

theorem advance (h : Solo s) (hbd : s.Bounded) (hsv : Served B w s₀.pool.sync)
    (ha : Allowed B v s₀ op) (hp : Progress B w op s₀ v s) (hpc : s.pc () ≠ .idle) :
    ∃ l s', (∀ op, l ≠ .call () op) ∧ s.Full l ∧ s.step l = some s' ∧ s'.work < s.work := by
  obtain ⟨hh, -, hop⟩ := hp.running hpc
  have halive := h.inv.alive
  have hsync : s.pool.sync = s₀.pool.sync := congrArg (fun x => x.2.2.2) hp.geometry
  have hcont {s' : Sys Unit β} (hr : s.resume () = some s') (hc : Cont () s s') :
      ∃ l s', (∀ op, l ≠ .call () op) ∧ s.Full l ∧ s.step l = some s' ∧ s'.work < s.work :=
    ⟨.resume (), s', by simp, trivial, by simp [Sys.step, halive, hr], cont_work h hp hc⟩
  have hentry {l : Label Unit β} {s' : Sys Unit β} (hl : ∀ op, l ≠ .call () op) (hf : s.Full l)
      (hr : l = .resume () → ∃ i, s.pc () = .syncUser i) (hs : s.step l = some s') :
      ∃ l s', (∀ op, l ≠ .call () op) ∧ s.Full l ∧ s.step l = some s' ∧ s'.work < s.work := by
    obtain ⟨-, m, hm, he, hc⟩ := h.step hbd (Sys.Full.sound hf) hs
    have hlt := entry_work h hp hf hl hr he
    refine ⟨l, s', hl, hf, hs, ?_⟩
    rcases hc with rfl | hc
    · exact hlt
    · exact (cont_work hm (own_progress h hm hbd (hsync ▸ hsv) ha hf hl hp he) hc).trans hlt
  cases hx : s.pc () with
  | idle => exact absurd hx hpc
  | wait c f =>
    simp only [During, hx] at hop
  | woken c f => exact hcont (by simp [Sys.resume, hx]) (Cont.afterLookup hx)
  | evict k b f taken | flushWrite i f taken | syncWrite i f taken =>
    cases taken with
    | none =>
      exact hentry (l := .take ()) (by simp) trivial (by simp)
        (by simp only [Sys.step, halive, Sys.take, hx]; rfl)
    | some x =>
      exact hentry (l := .done () s.pool.bufsize 0) (by simp) rfl (by simp)
        (by simp only [Sys.step, halive, Sys.done, hx, Sys.written]; rfl)
  | retry k b =>
    simp only [During, hx] at hop
    have hcard : s.held.card < s.pool.poolsize := by
      have hn : s.pool.poolsize = s₀.pool.poolsize := congrArg Prod.fst hp.geometry
      have := (allowed_block ha hop).2
      simpa only [Sys.held, hh, hn] using this
    cases hfr : s.pool.freelist with
    | some f =>
      exact hcont (by simp [Sys.resume, hx, Sys.fetchNew, Pool.getNewBuffer, hfr])
        (Cont.free hx hfr)
    | none =>
      cases hcl : s.pool.clean.head with
      | some f =>
        exact hcont (by simp [Sys.resume, hx, Sys.fetchNew, Pool.getNewBuffer, hfr, hcl])
          (Cont.clean hx hfr hcl)
      | none =>
        obtain ⟨f, hd⟩ := Option.ne_none_iff_exists'.mp (h.available hx hcard hfr hcl)
        exact hcont (by simp [Sys.resume, hx, Sys.fetchNew, Pool.getNewBuffer, hfr, hcl, hd,
          (h.inv.dirty_head hd).2]) (Cont.evict hx hfr hcl hd)
  | read f =>
    exact hentry (l := .done () s.pool.bufsize 0) (by simp) rfl (by simp)
      (by simp only [Sys.step, halive, Sys.done, hx]; rfl)
  | flushNext i =>
    have hc := flushLoop_cont (by rw [goto_self _ hx]; exact h.inv)
    rw [goto_self _ hx] at hc
    exact hcont (by simp [Sys.resume, hx]) hc
  | syncUser i =>
    simp only [During, hx] at hop
    obtain ⟨g, hg⟩ := Option.isSome_iff_exists.mp hop.2.1
    exact hentry (l := .resume ()) (by simp) trivial (fun _ => ⟨i, hx⟩)
      (by simp only [Sys.step, halive, Sys.resume, hx, hg]; rfl)
  | syncNext i j =>
    have hc := syncLoop_cont (s := s) (t := ()) (i := i) (j := j)
    rw [goto_self _ hx] at hc
    exact hcont (by simp [Sys.resume, hx]) hc

theorem returns (hsv : Served B w s₀.pool.sync) (ha : Allowed B v s₀ op)
    (hh : ∀ f, s₀.holds () f + 1 < 2 ^ 16) (h : Solo s) (hp : Progress B w op s₀ v s) :
    ∃ s', Reach Sys.step (fun a l => a.Full l ∧ ∀ op, l ≠ .call () op) s s' ∧ s'.pc () = .idle := by
  induction hn : s.work using Nat.strong_induction_on generalizing s with
  | _ n ih =>
    by_cases hpc : s.pc () = .idle
    · exact ⟨s, Reach.refl s, hpc⟩
    · have hbd : s.Bounded := h.bounded (by rw [(hp.running hpc).1]; exact hh)
      obtain ⟨l, m, hl, hfull, hs, hlt⟩ := advance h hbd hsv ha hp hpc
      obtain ⟨hm, hpm⟩ := step_progress h hbd hsv ha hfull hl hp hs
      obtain ⟨s', hr, hidle⟩ := ih m.work (hn ▸ hlt) hm hpm rfl
      exact ⟨s', (Reach.single ⟨hfull, hl⟩ hs).trans hr, hidle⟩

end Advance

end SimpleKernel.Buffer
