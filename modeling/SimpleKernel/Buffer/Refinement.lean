import SimpleKernel.Buffer.Coherence
import SimpleKernel.Buffer.Faults

/-! The pool as its only caller sees it. Every call that it may make returns, and what it returns and leaves behind
is what the content of the blocks says. -/
namespace SimpleKernel.Buffer
open LinkedList Transition
open Function (update update_idem update_of_ne update_self)

variable {β : Type} [Zero β]

/-- The view after a call made in state `s`. -/
def View.after (v : View β) (s : Sys Unit β) : Op β → View β
  | .alloc b => v.set b 0 true
  | .write f d => v.set (s.pool.blkno f) d true
  | .markUpdated f => v.set (s.pool.blkno f) (v.content (s.pool.blkno f)) false
  | .markInvalid f => v.set (s.pool.blkno f) (s.dev (s.pool.addr f)) false
  | .invalidate b => v.set b (s.dev (b * s.pool.blksPerBuffer)) false
  | _ => v

/-- The block may be accessed: it was not marked invalid. -/
def Sys.accessible (s : Sys Unit β) (b : Blkno) : Prop :=
  ∀ f, s.pool.block f = some b → s.pool.state f ≠ .invalid

/-- The buffers that the thread holds. -/
def Sys.held (s : Sys Unit β) : Finset BufId :=
  (Finset.range s.pool.poolsize).filter fun f => 0 < s.holds () f

/-- The calls that the thread may make. -/
def Allowed (B : Set Blkno) (v : View β) (s : Sys Unit β) : Op β → Prop
  | .get b | .alloc b => b ∈ B ∧ s.accessible b ∧ s.held.card < s.pool.poolsize
  | .invalidate b => b ∈ B ∧ s.accessible b
  | .write f _ | .markUpdated f | .markInvalid f => 0 < s.holds () f ∧ s.pool.state f ≠ .invalid
  | .release f => 0 < s.holds () f ∧
      (s.holds () f = 1 → v.unmarked (s.pool.blkno f) = false)
  | .flush _ | .sync _ | .setNosync _ => True

/-- No buffer waits on the dirty list. -/
def Sys.Settled (s : Sys Unit β) : Prop := ∀ g, s.pool.state g ≠ .dirty

/-- What is known while the call `op` made in `s₀` has not returned yet. -/
def During (op : Op β) (s₀ m : Sys Unit β) : Prop :=
  match m.pc () with
  | .woken c f => op.lookup = some (c, m.pool.blkno f) ∧ m.dev = s₀.dev ∧
      (m.pool.state f = .locked ∨ m.pool.state f = .updated)
  | .evict k b _ _ | .retry k b => op.lookup = some (.fetch k, b)
  | .read f => op = .get (m.pool.blkno f)
  | .flushWrite i _ _ | .flushNext i => op = .flush i ∧ m.pool.nosync = s₀.pool.nosync
  | .syncUser i => op = .sync i ∧ m.pool.sync.isSome = true ∧ (s₀.Settled → m.Settled)
  | .syncNext i j => op = .sync i ∧ (s₀.Settled → m.Settled) ∧ ∀ g < j, m.pool.state g ≠ .updated
  | .syncWrite i f _ => op = .sync i ∧ (s₀.Settled → m.Settled) ∧ 0 < m.holds () f ∧
      m.pool.state f = .updated ∧ ∀ g < f, m.pool.state g ≠ .updated
  | .idle | .wait _ _ => False

/-- What a call that was made in `s₀` gives when it returns. -/
def Result (op : Op β) (s₀ : Sys Unit β) (v : View β) (m : Sys Unit β) : Prop :=
  match op with
  | .get b => ∃ f, m.ret () = .buf (some f) ∧ m.pool.blkno f = b ∧ m.pool.data f = v.content b
  | .flush i => m.holds = s₀.holds ∧ m.pool.nosync = s₀.pool.nosync ∧
      (i = false → s₀.pool.nosync = false → m.Settled)
  | .sync i => (s₀.Settled → m.Settled) ∧
      (i = false → s₀.pool.nosync = false → ∀ g, m.pool.state g ≠ .updated)
  | _ => True

/-- The call `op`, made in `s₀` where the thread sees `v`, has come to `m`. -/
structure Progress (B : Set Blkno) (w : UInt32) (op : Op β) (s₀ : Sys Unit β) (v : View β)
    (m : Sys Unit β) : Prop where
  geometry : m.pool.geometry = s₀.pool.geometry
  running : m.pc () ≠ .idle → m.holds = s₀.holds ∧ Coherent B w m v ∧ During op s₀ m
  returned : m.pc () = .idle → Coherent B w m (v.after s₀ op) ∧ Result op s₀ v m

section Idle
variable {s : Sys Unit β} {f : BufId}

section
omit [Zero β]

theorem Inv.occupied (h : Inv s) (hst : s.pool.state f ≠ .free) : f < s.pool.poolsize := by
  by_contra hf
  exact hst (h.range f (not_lt.mp hf))

theorem Solo.held_state (h : Solo s) (hpc : s.pc () = .idle) (hh : 0 < s.holds () f) :
    f < s.pool.poolsize ∧ (s.pool.state f = .locked ∨ s.pool.state f = .updated ∨
      s.pool.state f = .invalid) := by
  have hr := (h.inv.idle hpc f).2
  obtain ⟨h1, h2, h3, h4⟩ := h.inv.in_use (f := f) (by omega)
  have hb := (h.inv.idle hpc f).1
  have he := h.alone.error f
  refine ⟨h.inv.occupied h1, ?_⟩
  cases hst : s.pool.state f <;> simp_all [Pool.busy]

theorem Solo.locks_one (h : Solo s) (hpc : s.pc () = .idle) (hbd : s.Bounded)
    (hh : 0 < s.holds () f) : s.pool.locks f - 1 = 0 ↔ s.holds () f = 1 := by
  have hr := (h.inv.idle hpc f).2
  have hlt := hbd f
  obtain ⟨n, hn⟩ : ∃ n, s.holds () f = n + 1 := ⟨s.holds () f - 1, by omega⟩
  rw [h.locks hpc, hn, ofNat_succ, UInt16.add_sub_cancel, ofNat_eq_zero (by omega)]
  omega

theorem block_of_inside (hf : f < s.pool.poolsize) (hst : s.pool.state f ≠ .free) :
    s.pool.block f = some (s.pool.blkno f) :=
  block_eq_some.mpr ⟨⟨hf, hst⟩, rfl⟩

end

end Idle

section Call
variable {B : Set Blkno} {w : UInt32} {op : Op β} {s₀ s m : Sys Unit β} {v : View β} {f : BufId}

theorem Progress.of_run (hg : m.pool.geometry = s₀.pool.geometry) (hh : m.holds = s₀.holds)
    (hc : Coherent B w m v) (hd : During op s₀ m) : Progress B w op s₀ v m := by
  refine ⟨hg, fun _ => ⟨hh, hc, hd⟩, fun hpc => ?_⟩
  rw [During, hpc] at hd
  exact hd.elim

theorem Progress.of_return (hg : m.pool.geometry = s₀.pool.geometry) (hpc : m.pc () = .idle)
    (hc : Coherent B w m (v.after s₀ op)) (hr : Result op s₀ v m) : Progress B w op s₀ v m :=
  ⟨hg, fun h => absurd hpc h, fun _ => ⟨hc, hr⟩⟩

omit [Zero β] in
theorem view_set_other {c : β} {u : Bool} (hb : s.pool.block f = some (s.pool.blkno f))
    (b : Blkno) (h : s.pool.block f ≠ some b) :
    (v.set (s.pool.blkno f) c u).content b = v.content b ∧
      (v.set (s.pool.blkno f) c u).unmarked b = v.unmarked b := by
  have hne : b ≠ s.pool.blkno f := fun e => h (e ▸ hb)
  simp [hne]

theorem claim_progress {c : Caller} {b : Blkno} (h : Solo s) (hm : Solo (s.goto () (s.pool.claim f) (.woken c f)))
    (hco : Coherent B w s v) (hop : op.lookup = some (c, b)) (hacc : s.accessible b)
    (hpc : s.pc () = .idle) (hs : s.pool.search b = some f) :
    Progress B w op s v (s.goto () (s.pool.claim f) (.woken c f)) := by
  obtain ⟨hf, hhash, hb⟩ := h.inv.shape.search_some hs
  have hfree : s.pool.state f ≠ .free := fun e => by simp [e, BufState.role, Role.hashed] at hhash
  have hblk := block_of_inside hf hfree
  have hinv := hacc f (hb ▸ hblk)
  have hbusy := (h.inv.idle hpc f).1
  have herr := h.alone.error f
  have hcl : (s.pool.state f).claimed = .locked ∨ (s.pool.state f).claimed = .updated := by
    cases hst : s.pool.state f <;> simp_all [BufState.claimed, Pool.busy]
  have hst : (s.pool.claim f).state f = (s.pool.state f).claimed := by
    rw [claim_state, update_self]
  have hdata : (s.pool.claim f).data = s.pool.data := by
    rw [claim_data, if_neg hinv]
  refine Progress.of_run (claim_geometry _ _) rfl ?_ ?_
  · refine hco.stay h.uniq hm.uniq f (claim_geometry _ _) (fun g hg => ?_) (claim_blkno _ _)
      (fun g _ => congrFun hdata g) (fun _ _ _ => rfl) ?_ (fun c hc => ?_) hfree fun _ _ => ⟨rfl, rfl⟩
    · rw [Sys.goto_pool, claim_state, update_of_ne hg]
    · rw [Sys.goto_pool, hst]
      rcases hcl with e | e <;> rw [e] <;> decide
    · have hok := hco.cached f c hc
      cases hx : s.pool.state f <;> simp_all [CacheOk, BufState.claimed]
  · simp only [During, Sys.goto_pc, update_self, Sys.goto_pool, claim_blkno, hst, hb]
    exact ⟨hop, rfl, hcl⟩

section
omit [Zero β]

theorem Coherent.release (h : Solo s) (hm : Solo ((s.finish () (s.pool.releaseBuffer f) .nothing).unhold () f))
    (hbd : s.Bounded) (hco : Coherent B w s v) (hpc : s.pc () = .idle) (hh : 0 < s.holds () f)
    (hmk : s.holds () f = 1 → v.unmarked (s.pool.blkno f) = false) :
    Coherent B w ((s.finish () (s.pool.releaseBuffer f) .nothing).unhold () f) v := by
  obtain ⟨hf, hst⟩ := h.held_state hpc hh
  have hfree : s.pool.state f ≠ .free := by rcases hst with e | e | e <;> rw [e] <;> decide
  have hblk := block_of_inside hf hfree
  have hok := hco.cached f _ hblk
  have hstate : (s.pool.releaseBuffer f).state f =
      if s.holds () f = 1 then (s.pool.state f).settled else s.pool.state f := by
    rw [releaseBuffer_state, update_self]
    simp only [h.locks_one hpc hbd hh]
  have hother (g : BufId) (hg : g ≠ f) : (s.pool.releaseBuffer f).state g = s.pool.state g := by
    rw [releaseBuffer_state, update_of_ne hg]
  by_cases hl : s.holds () f = 1 ∧ s.pool.state f = .invalid
  · refine hco.leave h.uniq hm.uniq f (releaseBuffer_geometry _ _) hother (releaseBuffer_blkno _ _)
      (releaseBuffer_data _ _) rfl ?_ (fun b hb => ?_) fun _ _ => ⟨rfl, rfl⟩
    · show (s.pool.releaseBuffer f).state f = .free
      rw [hstate, if_pos hl.1, hl.2]
      rfl
    · have := hco.cached f b hb
      rw [hl.2] at this
      exact this
  · refine hco.stay h.uniq hm.uniq f (releaseBuffer_geometry _ _) hother (releaseBuffer_blkno _ _)
      (fun g _ => congrFun (releaseBuffer_data _ _) g) (fun _ _ _ => rfl) ?_ (fun b hb => ?_) hfree
      fun _ _ => ⟨rfl, rfl⟩
    · show (s.pool.releaseBuffer f).state f ≠ .free
      rw [hstate]
      rcases hst with e | e | e <;> split_ifs with h1 <;> simp_all [BufState.settled]
    · obtain rfl : s.pool.blkno f = b := Option.some.inj (hblk.symm.trans hb)
      show CacheOk ((s.pool.releaseBuffer f).state f) ((s.pool.releaseBuffer f).data f) _ _ _
      rw [hstate, releaseBuffer_data]
      rcases hst with e | e | e <;> split_ifs with h1 <;> simp_all [BufState.settled, CacheOk]

theorem Coherent.hold {p : Pool Unit β} {c : β} {u : Bool} (h : Solo s)
    (hm : Solo (s.finish () p .nothing)) (hco : Coherent B w s v) (hpc : s.pc () = .idle)
    (hh : 0 < s.holds () f) (hg : p.geometry = s.pool.geometry)
    (hst : ∀ g, g ≠ f → p.state g = s.pool.state g) (hb : p.blkno = s.pool.blkno)
    (hd : ∀ g, g ≠ f → p.data g = s.pool.data g) (hfree : p.state f ≠ .free)
    (hok : CacheOk (s.pool.state f) (s.pool.data f) (s.dev (s.pool.blkno f * w))
      (v.content (s.pool.blkno f)) (v.unmarked (s.pool.blkno f)) →
      CacheOk (p.state f) (p.data f) (s.dev (s.pool.blkno f * w)) c u) :
    Coherent B w (s.finish () p .nothing) (v.set (s.pool.blkno f) c u) := by
  obtain ⟨hf, hstf⟩ := h.held_state hpc hh
  have hfree' : s.pool.state f ≠ .free := by rcases hstf with e | e | e <;> rw [e] <;> decide
  have hblk := block_of_inside hf hfree'
  refine hco.stay h.uniq hm.uniq f hg hst hb hd (fun _ _ _ => rfl) hfree (fun b hbk => ?_) hfree'
    (view_set_other hblk)
  obtain rfl : s.pool.blkno f = b := Option.some.inj (hblk.symm.trans hbk)
  simpa using hok (hco.cached f _ hblk)

theorem Coherent.same {p : Pool Unit β} {x : Pc β} (hco : Coherent B w s v)
    (hg : p.geometry = s.pool.geometry) (hst : p.state = s.pool.state)
    (hb : p.blkno = s.pool.blkno) (hd : p.data = s.pool.data) : Coherent B w (s.goto () p x) v :=
  hco.congr ⟨congrArg Prod.fst hg, congrArg (fun x => x.2.2.1) hg⟩ hst hb hd fun _ _ => rfl

end

theorem call_progress (h : Solo s) (hm : Solo m) (hbd : s.Bounded) (hco : Coherent B w s v)
    (ha : Allowed B v s op) (he : Entry (.call () op) s m) : Progress B w op s v m := by
  cases he with
  | @miss _ _ op k b hpc hop hs =>
    exact Progress.of_run rfl rfl (hco.same rfl rfl rfl rfl) (by simpa [During] using hop)
  | @absent _ _ b hpc hs =>
    refine Progress.of_return rfl rfl ?_ trivial
    obtain ⟨h1, h2⟩ := hco.absent b ha.1 fun f hf => by
      obtain ⟨⟨hf, hst⟩, hb⟩ := block_eq_some.mp hf
      refine h.inv.shape.search_none hs hf ?_ hb
      cases hx : s.pool.state f <;> simp_all [BufState.role, Role.hashed]
    have hv : v.after s (.invalidate b) = v := by
      ext c <;> rcases eq_or_ne c b with rfl | hc <;> simp_all [View.after, hco.width]
    rw [hv]
    exact hco.congr ⟨rfl, rfl⟩ rfl rfl rfl fun _ _ => rfl
  | wait hpc hop hs hb =>
    rw [(h.inv.idle hpc _).1] at hb
    cases hb
  | @claim _ _ op c b f hpc hop hs hb =>
    refine claim_progress h hm hco hop ?_ hpc hs
    cases op <;> simp only [Op.lookup, Option.some.injEq, Prod.mk.injEq, reduceCtorEq] at hop
    · exact hop.2 ▸ ha.2.1
    · exact hop.2 ▸ ha.2.1
    · exact hop.2 ▸ ha.2
  | @write _ _ f d hpc hh =>
    obtain ⟨-, hst⟩ := h.held_state hpc hh
    refine Progress.of_return rfl rfl (hco.hold h hm hpc hh rfl (fun _ _ => rfl) rfl ?_ ?_ ?_) trivial
    · exact fun g hg => update_of_ne hg _ _
    · rcases hst with e | e | e <;> simp [e]
    · rcases hst with e | e | e
      · simp [e, CacheOk]
      · simp [e, CacheOk]
      · exact absurd e ha.2
  | @markUpdated _ _ f hpc =>
    obtain ⟨-, hst⟩ := h.held_state hpc ha.1
    have hnew : (s.pool.markBufferUpdated f).state f = .updated := by
      rcases hst with e | e | e <;> simp [markBufferUpdated_state, e]
    refine Progress.of_return (markBufferUpdated_geometry _ _) rfl (hco.hold h hm hpc ha.1
      (markBufferUpdated_geometry _ _) (fun g hg => ?_) (markBufferUpdated_blkno _ _)
      (fun g _ => by rw [markBufferUpdated_data]) ?_ fun hok => ?_) trivial
    · rw [markBufferUpdated_state, update_of_ne hg]
    · simp [hnew]
    · rw [hnew, markBufferUpdated_data]
      rcases hst with e | e | e
      · rw [e] at hok
        exact hok.1
      · rw [e] at hok
        exact hok
      · exact absurd e ha.2
  | @markInvalid _ _ f hpc =>
    obtain ⟨-, hst⟩ := h.held_state hpc ha.1
    have hnew : (s.pool.markBufferInvalid f).state f = .invalid := by
      rcases hst with e | e | e <;> simp [markBufferInvalid_state, e]
    refine Progress.of_return (markBufferInvalid_geometry _ _) rfl (hco.hold h hm hpc ha.1
      (markBufferInvalid_geometry _ _) (fun g hg => ?_) (markBufferInvalid_blkno _ _)
      (fun g _ => by rw [markBufferInvalid_data]) ?_ fun hok => ?_) trivial
    · rw [markBufferInvalid_state, update_of_ne hg]
    · simp [hnew]
    · rw [hnew, Pool.addr, hco.width]
      exact ⟨rfl, rfl⟩
  | @release _ _ f hpc hh =>
    exact Progress.of_return (releaseBuffer_geometry _ _) rfl
      (Coherent.release h hm hbd hco hpc hh ha.2) trivial
  | setNosync hpc =>
    exact Progress.of_return rfl rfl (hco.congr ⟨rfl, rfl⟩ rfl rfl rfl fun _ _ => rfl) trivial
  | @nosync _ _ op i hpc hop hns =>
    rcases hop with rfl | rfl
    · refine Progress.of_return rfl rfl (hco.congr ⟨rfl, rfl⟩ rfl rfl rfl fun _ _ => rfl) ?_
      exact ⟨rfl, rfl, fun _ hn => by simp [hns] at hn⟩
    · refine Progress.of_return rfl rfl (hco.congr ⟨rfl, rfl⟩ rfl rfl rfl fun _ _ => rfl) ?_
      exact ⟨id, fun _ hn => by simp [hns] at hn⟩
  | flush hpc hns =>
    exact Progress.of_run rfl rfl (hco.same rfl rfl rfl rfl) ⟨rfl, rfl⟩
  | sync hpc hns hsy =>
    exact Progress.of_run rfl rfl (hco.same rfl rfl rfl rfl) ⟨rfl, hsy, id⟩
  | syncStart hpc hns hsy =>
    exact Progress.of_run rfl rfl (hco.same rfl rfl rfl rfl) ⟨rfl, id, fun g hg => absurd hg (Nat.not_lt_zero g)⟩

end Call

section Own
variable {B : Set Blkno} {w : UInt32} {op : Op β} {s₀ s m : Sys Unit β} {v : View β} {f : BufId}
  {l : Label Unit β}

theorem useNew_progress {s' : Sys Unit β} {p : Pool Unit β} {k : Fetch} {b : Blkno}
    (hc : Coherent B w (s'.useNew () k b p f) (v.fetched b k)) (hg : p.geometry = s₀.pool.geometry)
    (hh : s'.holds = s₀.holds) (hop : op.lookup = some (.fetch k, b)) :
    Progress B w op s₀ v (s'.useNew () k b p f) := by
  have hgeo := (useNew_kept s' () k b p f).2.trans hg
  cases k with
  | get =>
    obtain rfl : op = .get b := by cases op <;> simp_all [Op.lookup]
    refine Progress.of_run hgeo hh hc ?_
    simp [During, Sys.useNew, Pool.bindForRead, Pool.readBufferStart, Pool.bind]
  | alloc =>
    obtain rfl : op = .alloc b := by cases op <;> simp_all [Op.lookup]
    exact Progress.of_return hgeo (by simp [Sys.useNew]) hc trivial

section
omit [Zero β]

theorem allowed_block {k : Fetch} {b : Blkno} (ha : Allowed B v s₀ op)
    (hop : op.lookup = some (.fetch k, b)) : b ∈ B ∧ s₀.held.card < s₀.pool.poolsize := by
  cases op <;> simp only [Op.lookup, Option.some.injEq, Prod.mk.injEq, reduceCtorEq,
    Caller.fetch.injEq, false_and] at hop
  · exact ⟨hop.2 ▸ ha.1, ha.2.2⟩
  · exact ⟨hop.2 ▸ ha.1, ha.2.2⟩

theorem wake_nil : s.wake [] = s := by
  simp [Sys.wake]

theorem Coherent.written {taken : Option β} {rc : ℤ} {d : β} {dev : Dev β} (h : Solo s)
    (hco : Coherent B w s v) (hsv : Served B w s.pool.sync) (hf : f < s.pool.poolsize)
    (hst : s.pool.state f ≠ .free) (hcp : ∀ x, taken = some x → (s.pc ()).copy f x)
    (hrc : rc = s.pool.bufsize) (hw : s.written f taken rc d = some dev) :
    (∀ c ∈ B, s.pool.block f ≠ some c → dev (c * w) = s.dev (c * w)) ∧
      ∀ c, s.pool.block f = some c → dev (c * w) = s.pool.data f := by
  obtain ⟨x, hx, hdev⟩ := written_full hw hrc
  rw [← h.fresh.data () f x (hcp x hx)] at hdev
  exact hco.store hsv hst hf hdev

end

theorem Solo.evictFinish_eq {k : Fetch} {b : Blkno} {taken : Option β} {rc : ℤ} (dev : Dev β)
    (h : Solo s) (hpc : s.pc () = .evict k b f taken) (hrc : rc = s.pool.bufsize) :
    { s with dev := dev }.evictFinish () k b f rc = { s with dev := dev }.useNew () k b
      ((s.pool.transferFinish f rc).removeFromHashtable f) f := by
  have hst := h.inv.writing (t := ()) (f := f) (by simp [hpc, Pc.writes])
  have hz : s.refs f = 0 := by
    have := (h.inv.buf f).refs
    rwa [hst] at this
  have hlocks : (s.pool.transferFinish f rc).locks f = 0 := by
    simp [transferFinish_spec, (h.inv.buf f).locks, hz, h.alone.waiters h.inv f]
  have hsize := h.inv.size
  unfold Sys.evictFinish Pool.writeBufferFinish
  simp only [h.alone.waiters h.inv f, wake_nil]
  rw [if_pos ⟨by omega, hlocks⟩]

theorem evictEnd_progress {k : Fetch} {b : Blkno} {taken : Option β} {rc : ℤ} {d : β} {dev : Dev β}
    (h : Solo s) (hm : Solo ({ s with dev := dev }.evictFinish () k b f rc))
    (hsv : Served B w s.pool.sync) (ha : Allowed B v s₀ op) (hp : Progress B w op s₀ v s)
    (hpc : s.pc () = .evict k b f taken) (hrc : rc = s.pool.bufsize)
    (hw : s.written f taken rc d = some dev) :
    Progress B w op s₀ v ({ s with dev := dev }.evictFinish () k b f rc) := by
  obtain ⟨hh, hco, hop⟩ := hp.running (by simp [hpc])
  simp only [During, hpc] at hop
  have hst := h.inv.writing (t := ()) (f := f) (by simp [hpc, Pc.writes])
  have hfree : s.pool.state f ≠ .free := by simp [hst]
  have hf := h.inv.occupied hfree
  obtain ⟨hx, hy⟩ := hco.written h hsv hf hfree
    (fun x hx => by rw [hpc, hx]; exact ⟨rfl, rfl⟩) hrc hw
  have hgeo : ((s.pool.transferFinish f rc).removeFromHashtable f).geometry = s.pool.geometry :=
    transferFinish_geometry s.pool f rc
  rw [h.evictFinish_eq dev hpc hrc] at hm ⊢
  refine useNew_progress ?_ (hgeo.trans hp.geometry) hh hop
  refine hco.useNew h.uniq hm.uniq hgeo (fun g hg => ?_) (transferFinish_blkno _ _ _)
    (transferFinish_data _ _ _) hf (allowed_block ha hop).1
    (h.uniq.fresh () b (by simp [hpc, Pc.misses])) rfl hx fun c hc => ?_
  · simp [transferFinish_states, hg]
  · have hok := hco.cached f c hc
    rw [hst] at hok
    exact ⟨(hy c hc).trans hok.1, hok.2⟩

omit [Zero β] in
theorem flushWritten_nosync {rc : ℤ} : (s.flushWritten f rc).pool.nosync = s.pool.nosync := by
  unfold Sys.flushWritten Pool.writeBufferFinish Pool.flushFinish
  rw [transferFinish_spec]
  dsimp only
  split_ifs <;> rfl

omit [Zero β] in
theorem writeBufferStart_nosync {p : Pool Unit β} {flush : Bool} :
    (p.writeBufferStart f flush).nosync = p.nosync := by
  unfold Pool.writeBufferStart
  split_ifs <;> rfl

theorem flushEnd_progress {i : Bool} {taken : Option β} {rc : ℤ} {d : β} {dev : Dev β}
    (h : Solo s) (hm : Solo (({ s with dev := dev }.flushWritten f rc).goto ()
      ({ s with dev := dev }.flushWritten f rc).pool (.flushNext i)))
    (hsv : Served B w s.pool.sync) (hp : Progress B w op s₀ v s)
    (hpc : s.pc () = .flushWrite i f taken) (hrc : rc = s.pool.bufsize)
    (hw : s.written f taken rc d = some dev) :
    Progress B w op s₀ v (({ s with dev := dev }.flushWritten f rc).goto ()
      ({ s with dev := dev }.flushWritten f rc).pool (.flushNext i)) := by
  obtain ⟨hh, hco, hop⟩ := hp.running (by simp [hpc])
  simp only [During, hpc] at hop
  have hst := h.inv.writing (t := ()) (f := f) (by simp [hpc, Pc.writes])
  have hfree : s.pool.state f ≠ .free := by simp [hst]
  have hf := h.inv.occupied hfree
  obtain ⟨hx, hy⟩ := hco.written h hsv hf hfree
    (fun x hx => by rw [hpc, hx]; exact ⟨rfl, rfl⟩) hrc hw
  have hgeo := (flushWritten_kept { s with dev := dev } f rc).2
  have hdev : ({ s with dev := dev }.flushWritten f rc).dev = dev := flushWritten_dev
  obtain ⟨st, hstate, hcl, hne⟩ := flushWritten_state f { s with dev := dev } rc
  have hcl : st = .clean ∨ st = .locked := by
    rcases hcl with e | e | e
    · exact Or.inl e
    · exact Or.inr e
    · exact absurd e (hne hrc)
  refine Progress.of_run (hgeo.trans hp.geometry) ?_ ?_ ?_
  · rw [flushWritten_goto]
    exact hh
  · refine hco.stay h.uniq hm.uniq f hgeo (fun g hg => ?_) (flushWritten_blkno _ _ _)
      (fun g _ => congrFun (flushWritten_data _ _ _) g) (fun b hb hn => ?_) ?_ (fun b hb => ?_) hfree
      fun _ _ => ⟨rfl, rfl⟩
    · rw [Sys.goto_pool, hstate, update_of_ne hg]
    · rw [Sys.goto_dev, hdev]
      exact hx b hb hn
    · rw [Sys.goto_pool, hstate]
      rcases hcl with e | e <;> simp [e]
    · have hok := hco.cached f b hb
      rw [hst] at hok
      rw [Sys.goto_pool, Sys.goto_dev, hstate, hdev, update_self, flushWritten_data]
      have hyb : dev (b * w) = v.content b := (hy b hb).trans hok.1
      rcases hcl with e | e <;> rw [e]
      · exact ⟨hok.1, hyb, hok.2⟩
      · exact ⟨hok.1, fun _ => hyb⟩
  · simp only [During, Sys.goto_pool, flushWritten_nosync]
    exact hop

omit [Zero β] in
theorem Solo.sync_state {i : Bool} {taken : Option β} (h : Solo s) (hbd : s.Bounded)
    (hpc : s.pc () = .syncWrite i f taken) (hh : 0 < s.holds () f) :
    ((s.pool.changeState f .locked).releaseBuffer f).state =
      update s.pool.state f .locked := by
  have hr : s.refs f = s.holds () f + 1 := by
    simp [Sys.refs, hpc, Pc.refs, h.alone.leaked]
  have hlt := hbd f
  have hlocks : s.pool.locks f - 1 ≠ 0 := by
    rw [(h.inv.buf f).locks, hr, ofNat_succ, UInt16.add_sub_cancel, ne_eq,
      ofNat_eq_zero (by omega)]
    omega
  rw [releaseBuffer_state, Pool.changeState_locks, if_neg hlocks]
  simp only [show (s.pool.changeState f .locked).state = update s.pool.state f .locked
    from rfl, update_self, update_idem]

theorem syncEnd_progress {i : Bool} {taken : Option β} {rc : ℤ} {d : β} {dev : Dev β}
    (h : Solo s) (hm : Solo ({ s with dev := dev }.goto ()
      ((s.pool.changeState f .locked).releaseBuffer f) (.syncNext i (f + 1))))
    (hbd : s.Bounded) (hsv : Served B w s.pool.sync) (hp : Progress B w op s₀ v s)
    (hpc : s.pc () = .syncWrite i f taken) (hrc : rc = s.pool.bufsize)
    (hw : s.written f taken rc d = some dev) :
    Progress B w op s₀ v ({ s with dev := dev }.goto ()
      ((s.pool.changeState f .locked).releaseBuffer f) (.syncNext i (f + 1))) := by
  obtain ⟨hh, hco, hop⟩ := hp.running (by simp [hpc])
  simp only [During, hpc] at hop
  obtain ⟨hop, hset, hhold, hst, hfirst⟩ := hop
  have hfree : s.pool.state f ≠ .free := by simp [hst]
  have hf := h.inv.occupied hfree
  obtain ⟨hx, hy⟩ := hco.written h hsv hf hfree
    (fun x hx => by rw [hpc, hx]; exact ⟨rfl, rfl⟩) hrc hw
  have hstate := h.sync_state hbd hpc hhold
  have hgeo : ((s.pool.changeState f .locked).releaseBuffer f).geometry = s.pool.geometry :=
    releaseBuffer_geometry _ _
  refine Progress.of_run (hgeo.trans hp.geometry) hh ?_ ?_
  · refine hco.stay h.uniq hm.uniq f hgeo (fun g hg => ?_) (releaseBuffer_blkno _ _)
      (fun g _ => congrFun (releaseBuffer_data _ _) g) hx ?_ (fun b hb => ?_) hfree
      fun _ _ => ⟨rfl, rfl⟩
    · rw [Sys.goto_pool, hstate, update_of_ne hg]
    · simp [hstate]
    · have hok := hco.cached f b hb
      rw [hst] at hok
      rw [Sys.goto_pool, hstate, update_self, releaseBuffer_data]
      exact ⟨hok, fun _ => (hy b hb).trans hok⟩
  · simp only [During, Sys.goto_pool, hstate, Sys.Settled]
    refine ⟨hop, fun h0 g => ?_, fun g hg => ?_⟩
    · rcases eq_or_ne g f with rfl | hgf
      · simp
      · simpa [hgf] using hset h0 g
    · rcases eq_or_ne g f with rfl | hgf
      · simp
      · simpa [hgf] using hfirst g (Nat.lt_of_le_of_ne (Nat.le_of_lt_succ hg) hgf)

theorem readEnd_progress {rc : ℤ} {d : β} (h : Solo s)
    (hm : Solo (s.readDone () f rc (s.fetched f rc d))) (hp : Progress B w op s₀ v s)
    (hpc : s.pc () = .read f) (hrc : rc = s.pool.bufsize) :
    Progress B w op s₀ v (s.readDone () f rc (s.fetched f rc d)) := by
  obtain ⟨-, hco, hop⟩ := hp.running (by simp [hpc])
  simp only [During, hpc] at hop
  have hst := h.inv.reading (t := ()) (f := f) (by simp [hpc, Pc.reads])
  have hfree : s.pool.state f ≠ .free := by simp [hst]
  have hf := h.inv.occupied hfree
  have hblk := block_of_inside hf hfree
  have hok := hco.cached f _ hblk
  rw [hst] at hok
  have heq : s.readDone () f rc (s.fetched f rc d) =
      s.give () (s.pool.readBufferFinish f rc (s.dev (s.pool.addr f))) f := by
    have hsize := h.inv.size
    simp [Sys.readDone, Sys.fetched, hrc, hsize.not_gt, h.alone.waiters h.inv f, wake_nil]
  have hgeo : (s.pool.readBufferFinish f rc (s.dev (s.pool.addr f))).geometry = s.pool.geometry :=
    transferFinish_geometry (s.pool.setData f _) f rc
  have hdata : (s.pool.readBufferFinish f rc (s.dev (s.pool.addr f))).data f =
      v.content (s.pool.blkno f) := by
    rw [← hok.1, ← hco.width]
    simp [Pool.readBufferFinish, Pool.addr]
  have hstate : (s.pool.readBufferFinish f rc (s.dev (s.pool.addr f))).state =
      update s.pool.state f .locked := by
    rw [Pool.readBufferFinish, transferFinish_states, Pool.setData_bufsize, if_pos hrc]
    rfl
  rw [heq] at hm ⊢
  subst hop
  refine Progress.of_return (hgeo.trans hp.geometry) (by simp) ?_ ?_
  · refine hco.stay h.uniq hm.uniq f hgeo (fun g hg => ?_)
      (transferFinish_blkno (s.pool.setData f _) _ _) (fun g hg => ?_) (fun _ _ _ => rfl) ?_
      (fun b hb => ?_) hfree fun _ _ => ⟨rfl, rfl⟩
    · rw [Sys.give_pool, hstate, update_of_ne hg]
    · simp [Pool.readBufferFinish, hg]
    · simp [hstate]
    · obtain rfl : s.pool.blkno f = b := Option.some.inj (hblk.symm.trans hb)
      rw [Sys.give_pool, hstate, update_self, hdata]
      exact ⟨rfl, fun _ => hok.1⟩
  · exact ⟨f, by simp, transferFinish_blkno (s.pool.setData f _) f rc ▸ rfl, hdata⟩

theorem own_progress (h : Solo s) (hm : Solo m) (hbd : s.Bounded) (hsv : Served B w s.pool.sync)
    (ha : Allowed B v s₀ op) (hfull : s.Full l) (hl : ∀ op, l ≠ .call () op)
    (hp : Progress B w op s₀ v s) (he : Entry l s m) : Progress B w op s₀ v m := by
  have hsize := h.inv.size
  cases l with
  | call t o => exact absurd rfl (hl o)
  | take t =>
    cases he with
    | take ht =>
      unfold Sys.take at ht
      split at ht <;> cases ht <;> rename_i hpc <;>
        obtain ⟨hh, hco, hop⟩ := hp.running (by simp [show s.pc () = _ from hpc]) <;>
        refine Progress.of_run hp.geometry hh (hco.same rfl rfl rfl rfl) ?_ <;>
        simpa [During, show s.pc () = _ from hpc, Sys.Settled] using hop
  | done t rc d =>
    cases he with
    | evictEnd hpc hw => exact evictEnd_progress h hm hsv ha hp hpc hfull hw
    | flushEnd hpc hw hrc => exact flushEnd_progress h hm hsv hp hpc hfull hw
    | flushFail hpc hw hrc | syncFail hpc hw hrc =>
      rw [show rc = s.pool.bufsize from hfull] at hrc
      exact absurd hrc (not_lt.mpr hsize)
    | syncEnd hpc hw hrc => exact syncEnd_progress h hm hbd hsv hp hpc hfull hw
    | readEnd hpc => exact readEnd_progress h hm hp hpc hfull
  | resume t =>
    cases he with
    | resume hpc => exact hp
    | @syncUser _ _ i g x hpc hsy =>
      obtain ⟨hh, hco, hop⟩ := hp.running (by simp [show s.pc () = _ from hpc])
      simp only [During, show s.pc () = _ from hpc] at hop
      refine Progress.of_run hp.geometry hh ?_ ?_
      · refine hco.congr ⟨rfl, rfl⟩ rfl rfl rfl fun b hb => ?_
        exact hsv.sync g hsy s.dev b hb
      · exact ⟨hop.1, hop.2.2, fun g hg => absurd hg (Nat.not_lt_zero g)⟩

omit [Zero β] in
theorem Inv.settled (h : Inv s) (hd : s.pool.dirty.head = none) : s.Settled := by
  intro f hf
  obtain ⟨xs, h1, hm⟩ := h.shape.dirty
  have hx : xs = [] := List.head?_eq_none_iff.mp (h1.head.symm.trans hd)
  have : f ∈ xs := (hm f).mpr ⟨h.occupied (by simp [hf]), by simp [hf, BufState.role]⟩
  simp [hx] at this

theorem afterLookup_progress {c : Caller} (h : Solo s) (hm : Solo (s.afterLookup () c s.pool f))
    (hp : Progress B w op s₀ v s) (hpc : s.pc () = .woken c f) :
    Progress B w op s₀ v (s.afterLookup () c s.pool f) := by
  obtain ⟨-, hco, hop⟩ := hp.running (by simp [hpc])
  simp only [During, hpc] at hop
  obtain ⟨hop, hdev, hst⟩ := hop
  have hfree : s.pool.state f ≠ .free := by rcases hst with e | e <;> simp [e]
  have herr : s.pool.state f ≠ .error := by rcases hst with e | e <;> simp [e]
  have hblk := block_of_inside (h.inv.occupied hfree) hfree
  have hok := hco.cached f _ hblk
  have hgeo := (afterLookup_kept s () c s.pool f).2.trans hp.geometry
  cases c with
  | fetch k =>
    cases k with
    | get =>
      obtain rfl : op = .get (s.pool.blkno f) := by cases op <;> simp_all [Op.lookup]
      have heq : s.afterLookup () (.fetch .get) s.pool f = s.give () s.pool f := by
        simp [Sys.afterLookup, herr]
      rw [heq] at hgeo ⊢
      refine Progress.of_return hgeo (by simp) (hco.congr ⟨rfl, rfl⟩ rfl rfl rfl fun _ _ => rfl) ?_
      refine ⟨f, by simp, rfl, ?_⟩
      rcases hst with e | e <;> rw [e] at hok
      · exact hok.1
      · exact hok
    | alloc =>
      obtain rfl : op = .alloc (s.pool.blkno f) := by cases op <;> simp_all [Op.lookup]
      have heq : s.afterLookup () (.fetch .alloc) s.pool f = s.give () (s.pool.setData f 0) f := by
        simp [Sys.afterLookup, herr]
      rw [heq] at hgeo hm ⊢
      refine Progress.of_return hgeo (by simp) ?_ trivial
      refine hco.stay h.uniq hm.uniq f rfl (fun _ _ => rfl) rfl (fun g hg => by simp [hg])
        (fun _ _ _ => rfl) hfree (fun b hb => ?_) hfree (view_set_other hblk)
      obtain rfl : s.pool.blkno f = b := Option.some.inj (hblk.symm.trans hb)
      rcases hst with e | e <;> simp [e, CacheOk, View.after]
  | invalidate =>
    obtain rfl : op = .invalidate (s.pool.blkno f) := by cases op <;> simp_all [Op.lookup]
    refine Progress.of_return hgeo rfl ?_ trivial
    have hinv : (s.pool.markBufferInvalid f).state = update s.pool.state f .invalid := by
      rcases hst with e | e <;> simp [markBufferInvalid_state, e]
    have hother (g : BufId) (hg : g ≠ f) :
        ((s.pool.markBufferInvalid f).releaseBuffer f).state g = s.pool.state g := by
      rw [releaseBuffer_state, update_of_ne hg, hinv, update_of_ne hg]
    have hpool : ((s.pool.markBufferInvalid f).releaseBuffer f).geometry = s.pool.geometry := by simp
    have hview : v.after s₀ (.invalidate (s.pool.blkno f)) =
        v.set (s.pool.blkno f) (s.dev (s.pool.blkno f * w)) false := by
      have hw : s₀.pool.blksPerBuffer = w :=
        (congrArg (fun x => x.2.2.1) hp.geometry).symm.trans hco.width
      simp [View.after, hw, hdev]
    rw [hview]
    by_cases hlast : (s.pool.markBufferInvalid f).locks f - 1 = 0
    · refine hco.leave h.uniq hm.uniq f hpool hother ?_ ?_ rfl ?_ (fun b hb => ?_)
        (view_set_other hblk)
      · simp [Sys.afterLookup]
      · simp [Sys.afterLookup]
      · show ((s.pool.markBufferInvalid f).releaseBuffer f).state f = .free
        rw [releaseBuffer_state, update_self, if_pos hlast, hinv, update_self]
        rfl
      · obtain rfl : s.pool.blkno f = b := Option.some.inj (hblk.symm.trans hb)
        simp [Sys.afterLookup]
    · have hstate : ((s.pool.markBufferInvalid f).releaseBuffer f).state f = .invalid := by
        rw [releaseBuffer_state, update_self, if_neg hlast, hinv, update_self]
      refine hco.stay h.uniq hm.uniq f hpool hother ?_ (fun g _ => ?_) (fun _ _ _ => rfl) ?_
        (fun b hb => ?_) hfree (view_set_other hblk)
      · simp [Sys.afterLookup]
      · simp [Sys.afterLookup]
      · show ((s.pool.markBufferInvalid f).releaseBuffer f).state f ≠ .free
        simp [hstate]
      · obtain rfl : s.pool.blkno f = b := Option.some.inj (hblk.symm.trans hb)
        show CacheOk (((s.pool.markBufferInvalid f).releaseBuffer f).state f) _ _ _ _
        rw [hstate]
        simp [CacheOk, Sys.afterLookup]

omit [Zero β] in
theorem Coherent.startWrite {flush : Bool} {x : Pc β} (h : Solo s)
    (hm : Solo (s.goto () (s.pool.writeBufferStart f flush) x)) (hst : s.pool.state f = .dirty)
    (hco : Coherent B w s v) : Coherent B w (s.goto () (s.pool.writeBufferStart f flush) x) v := by
  have hfree : s.pool.state f ≠ .free := by simp [hst]
  refine hco.stay h.uniq hm.uniq f (writeBufferStart_geometry _ _ _) (fun g hg => ?_)
    (writeBufferStart_blkno _ _ _) (fun g _ => by simp) (fun _ _ _ => rfl) (by simp) (fun b hb => ?_)
    hfree fun _ _ => ⟨rfl, rfl⟩
  · simp [hg]
  · have hok := hco.cached f b hb
    rw [hst] at hok
    simpa [CacheOk] using hok

theorem cont_progress (h : Solo s) (hm : Solo m) (ha : Allowed B v s₀ op)
    (hp : Progress B w op s₀ v s) (hc : Cont () s m) : Progress B w op s₀ v m := by
  cases hc with
  | afterLookup hpc => exact afterLookup_progress h hm hp hpc
  | @free k b f hpc hf =>
    obtain ⟨hh, hco, hop⟩ := hp.running (by simp [hpc])
    simp only [During, hpc] at hop
    have hst := h.inv.free_head hf
    refine useNew_progress ?_ hp.geometry hh hop
    refine hco.useNew h.uniq hm.uniq rfl (fun _ _ => rfl) rfl rfl (h.inv.shape.popFree hf).1.1
      (allowed_block ha hop).1 (h.uniq.fresh () b (by simp [hpc, Pc.misses])) rfl (fun _ _ _ => rfl)
      fun c hc => ?_
    simp [Pool.block, hst] at hc
  | @clean k b f hpc hf hcl =>
    obtain ⟨hh, hco, hop⟩ := hp.running (by simp [hpc])
    simp only [During, hpc] at hop
    have hst := h.inv.clean_head hcl
    refine useNew_progress ?_ hp.geometry hh hop
    refine hco.useNew h.uniq hm.uniq rfl (fun _ _ => rfl) rfl rfl (h.inv.shape.popClean hcl).1.1
      (allowed_block ha hop).1 (h.uniq.fresh () b (by simp [hpc, Pc.misses])) rfl (fun _ _ _ => rfl)
      fun c hc => ?_
    have hok := hco.cached f c hc
    rw [hst] at hok
    exact hok.2
  | @evict k b f hpc hf hcl hd =>
    obtain ⟨hh, hco, hop⟩ := hp.running (by simp [hpc])
    refine Progress.of_run ((writeBufferStart_geometry _ _ _).trans hp.geometry) hh
      (hco.startWrite h hm (h.inv.dirty_head hd).2) ?_
    simpa [During, hpc] using hop
  | @flush i f hpc hd =>
    obtain ⟨hh, hco, hop⟩ := hp.running (by simp [hpc])
    refine Progress.of_run ((writeBufferStart_geometry _ _ _).trans hp.geometry) hh
      (hco.startWrite h hm (h.inv.dirty_head hd).2) ?_
    simpa [During, hpc, writeBufferStart_nosync] using hop
  | @flushReturn i rc hpc hr =>
    obtain ⟨hh, hco, hop⟩ := hp.running (by simp [hpc])
    simp only [During, hpc] at hop
    obtain ⟨rfl, hns⟩ := hop
    refine Progress.of_return hp.geometry rfl (hco.congr ⟨rfl, rfl⟩ rfl rfl rfl fun _ _ => rfl) ?_
    refine ⟨hh, hns, fun hi _ => ?_⟩
    rcases hr with ⟨hd, -⟩ | ⟨hr, -⟩
    · exact h.inv.settled hd
    · exact absurd (hi.symm.trans hr) (by decide)
  | @sync i j f hpc hst hf =>
    obtain ⟨hh, hco, hop⟩ := hp.running (by simp [hpc])
    simp only [During, hpc] at hop
    have hhold : 0 < s.holds () f := by
      have hok := (h.inv.buf f).refs
      rw [hst] at hok
      simpa [RefsOk, Sys.refs, hpc, Pc.refs, h.alone.leaked] using hok
    refine Progress.of_run hp.geometry hh (hco.same rfl rfl rfl rfl) ?_
    refine ⟨hop.1, hop.2.1, hhold, hst, fun g hg => ?_⟩
    rcases Nat.lt_or_ge g j with hgj | hgj
    · exact hop.2.2 g hgj
    · exact hf g hgj hg
  | @syncReturn i j rc hpc hr =>
    obtain ⟨hh, hco, hop⟩ := hp.running (by simp [hpc])
    simp only [During, hpc] at hop
    obtain ⟨rfl, hset, hdone⟩ := hop
    refine Progress.of_return hp.geometry rfl (hco.congr ⟨rfl, rfl⟩ rfl rfl rfl fun _ _ => rfl) ?_
    refine ⟨hset, fun hi _ g hg => ?_⟩
    rcases hr with ⟨hr, -⟩ | ⟨hr, -⟩
    · rcases Nat.lt_or_ge g j with hgj | hgj
      · exact hdone g hgj hg
      · have hg : s.pool.state g = .updated := hg
        exact hr g hgj (h.inv.occupied (by simp [hg])) hg
    · exact absurd (hi.symm.trans hr) (by decide)

end Own

end SimpleKernel.Buffer
