import Mathlib.Algebra.BigOperators.Group.Finset.Piecewise
import Mathlib.Data.Fintype.BigOperators
import Mathlib.Tactic
import SimpleKernel.Buffer.Shape
import SimpleKernel.Lib.Tally

/-! The invariant of a buffer pool and its threads, at every point where a thread may lose control, as long as the
16-bit lock count of no buffer overflows. -/
namespace SimpleKernel.Buffer
open LinkedList

namespace Pc
variable {β : Type}

/-- The references to `f` that a thread has because of where it is. -/
def refs (x : Pc β) (f : BufId) : ℕ :=
  match x with
  | .woken _ g | .read g | .syncWrite _ g _ => if g = f then 1 else 0
  | _ => 0

def reads (x : Pc β) (f : BufId) : ℕ :=
  match x with
  | .read g => if g = f then 1 else 0
  | _ => 0

/-- Writes of a buffer that `write_buffer` has taken off the dirty list. -/
def writes (x : Pc β) (f : BufId) : ℕ :=
  match x with
  | .evict _ _ g _ | .flushWrite _ g _ => if g = f then 1 else 0
  | _ => 0

def waits (x : Pc β) (f : BufId) : Prop :=
  match x with
  | .wait _ g => g = f
  | _ => False

@[simp] theorem idle_refs (f : BufId) : (Pc.idle : Pc β).refs f = 0 := rfl
@[simp] theorem idle_reads (f : BufId) : (Pc.idle : Pc β).reads f = 0 := rfl

@[simp] theorem idle_writes (f : BufId) : (Pc.idle : Pc β).writes f = 0 := rfl

@[simp] theorem idle_waits (f : BufId) : ¬ (Pc.idle : Pc β).waits f := id

/-- The thread is concerned with buffer `f` in the same way at both places. -/
structure Agree (x y : Pc β) (f : BufId) : Prop where
  refs : x.refs f = y.refs f
  reads : x.reads f = y.reads f
  writes : x.writes f = y.writes f
  waits : x.waits f ↔ y.waits f

/-- The thread is concerned with no buffer. -/
def Neutral (x : Pc β) : Prop := ∀ f, Agree x .idle f

theorem neutral_idle : (Pc.idle : Pc β).Neutral := fun _ => ⟨rfl, rfl, rfl, Iff.rfl⟩
theorem neutral_retry (k : Fetch) (b : Blkno) : (Pc.retry k b : Pc β).Neutral :=
  fun _ => ⟨rfl, rfl, rfl, Iff.rfl⟩
theorem neutral_flushNext (i : Bool) : (Pc.flushNext i : Pc β).Neutral :=
  fun _ => ⟨rfl, rfl, rfl, Iff.rfl⟩
theorem neutral_syncUser (i : Bool) : (Pc.syncUser i : Pc β).Neutral :=
  fun _ => ⟨rfl, rfl, rfl, Iff.rfl⟩

theorem neutral_syncNext (i : Bool) (j : BufId) : (Pc.syncNext i j : Pc β).Neutral :=
  fun _ => ⟨rfl, rfl, rfl, Iff.rfl⟩

theorem Agree.trans {x y z : Pc β} {f : BufId} (h : Agree x y f) (h' : Agree y z f) :
    Agree x z f :=
  ⟨h.refs.trans h'.refs, h.reads.trans h'.reads, h.writes.trans h'.writes,
    h.waits.trans h'.waits⟩

theorem Agree.symm {x y : Pc β} {f : BufId} (h : Agree x y f) : Agree y x f :=
  ⟨h.refs.symm, h.reads.symm, h.writes.symm, h.waits.symm⟩

theorem Neutral.agree {x y : Pc β} (hx : x.Neutral) (hy : y.Neutral) (f : BufId) : Agree x y f :=
  (hx f).trans (hy f).symm

/-- The buffer that a place is about. -/
def target : Pc β → Option BufId
  | .wait _ f | .woken _ f | .evict _ _ f _ | .read f | .flushWrite _ f _ | .syncWrite _ f _ =>
    some f
  | _ => none

theorem agree_of_target {x : Pc β} {f : BufId} (h : x.target ≠ some f) : Agree x .idle f := by
  cases x <;> simp_all [target] <;> constructor <;> simp_all [Pc.refs, Pc.reads, Pc.writes, Pc.waits]

/-- The thread is concerned with no other buffer than `f`. -/
def About (x : Pc β) (f : BufId) : Prop := ∀ g, g ≠ f → Agree x .idle g

theorem about_of_target {x : Pc β} {f : BufId} (h : x.target = none ∨ x.target = some f) :
    x.About f := by
  intro g hg
  apply agree_of_target
  rcases h with h | h <;> simp [h, hg.symm]

theorem Neutral.about {x : Pc β} (h : x.Neutral) (f : BufId) : x.About f := fun g _ => h g

end Pc

namespace Sys
variable {τ β : Type} [Fintype τ]

/-- The references to `f`: those that threads hold, those that pending calls hold, and the
locks that were left behind. -/
def refs (s : Sys τ β) (f : BufId) : ℕ := ∑ t, (s.holds t f + (s.pc t).refs f) + s.leaked f

def readers (s : Sys τ β) (f : BufId) : ℕ := ∑ t, (s.pc t).reads f

def writers (s : Sys τ β) (f : BufId) : ℕ := ∑ t, (s.pc t).writes f

/-- Fewer than `2 ^ 16` references and waiters for each buffer. -/
def Bounded (s : Sys τ β) : Prop := ∀ f, s.refs f + (s.pool.waiters f).length < 2 ^ 16

end Sys

/-- The references that a buffer in a given state may have. -/
def RefsOk : BufState → ℕ → Prop
  | .free, n | .clean, n | .dirty, n | .writing, n => n = 0
  | .reading, n => n = 1
  | .locked, n | .updated, n | .invalid, n => 0 < n
  | .error, _ => True

section
variable {τ β : Type} [Fintype τ]

/-- The part of the invariant about `f` that does not depend on its state. -/
structure BufCore (s : Sys τ β) (f : BufId) : Prop where
  locks : s.pool.locks f = UInt16.ofNat (s.refs f)
  nodup : (s.pool.waiters f).Nodup
  waiters : ∀ t, t ∈ s.pool.waiters f ↔ (s.pc t).waits f

structure BufInv (s : Sys τ β) (f : BufId) : Prop extends BufCore s f where
  quiet : s.pool.busy f = false → s.pool.waiters f = []
  readers : s.readers f = if s.pool.state f = .reading then 1 else 0
  writers : s.writers f = if s.pool.state f = .writing then 1 else 0
  refs : RefsOk (s.pool.state f) (s.refs f)

/-- `bufcount` counts the buffers of each state. -/
def Counts (p : Pool τ β) : Prop :=
  ∀ st, p.bufcount st = ∑ f ∈ Finset.range p.poolsize, if p.state f = st then 1 else 0

structure Inv (s : Sys τ β) : Prop where
  shape : Shape s.pool (fun f => (s.pool.state f).role)
  counts : Counts s.pool
  alive : s.pool.panicked = false
  size : 0 ≤ s.pool.bufsize
  range : ∀ f, s.pool.poolsize ≤ f → s.pool.state f = .free
  buf : ∀ f, BufInv s f

/-- All is in order around buffer `f`. -/
structure Around (s : Sys τ β) (f : BufId) : Prop where
  alive : s.pool.panicked = false
  size : 0 ≤ s.pool.bufsize
  inside : f < s.pool.poolsize
  range : ∀ g, s.pool.poolsize ≤ g → s.pool.state g = .free
  other : ∀ g, g ≠ f → BufInv s g

/-- While one step works on `f`: `f` has role `r` and no thread reads, writes or awaits it. -/
structure Loose (s : Sys τ β) (f : BufId) (r : Role) : Prop extends Around s f where
  shape : Shape s.pool (Function.update (fun g => (s.pool.state g).role) f r)
  counts : Counts s.pool
  core : BufCore s f
  quiet : s.pool.waiters f = []
  readers : s.readers f = 0
  writers : s.writers f = 0

/-- The threads are concerned with buffer `f` in the same way in both states. -/
structure Tally (s s' : Sys τ β) (f : BufId) : Prop where
  refs : s'.refs f = s.refs f
  readers : s'.readers f = s.readers f
  writers : s'.writers f = s.writers f
  waits : ∀ t, (s'.pc t).waits f ↔ (s.pc t).waits f

/-- Two states that look alike at buffer `f`. -/
structure SameAt (s s' : Sys τ β) (f : BufId) : Prop extends Tally s s' f where
  state : s'.pool.state f = s.pool.state f
  locks : s'.pool.locks f = s.pool.locks f
  waiters : s'.pool.waiters f = s.pool.waiters f

/-- From `p` to `q` only buffer `f` and the lists changed. -/
structure PoolMove (p q : Pool τ β) (f : BufId) : Prop where
  poolsize : q.poolsize = p.poolsize
  bufsize : q.bufsize = p.bufsize
  panicked : q.panicked = p.panicked
  state : ∀ g, g ≠ f → q.state g = p.state g
  locks : ∀ g, g ≠ f → q.locks g = p.locks g
  waiters : ∀ g, g ≠ f → q.waiters g = p.waiters g

variable {s s' : Sys τ β} {f : BufId}

theorem BufCore.congr (h : BufCore s f) (ht : Tally s s' f)
    (hl : s'.pool.locks f = s.pool.locks f) (hw : s'.pool.waiters f = s.pool.waiters f) :
    BufCore s' f where
  locks := by rw [hl, ht.refs, h.locks]
  nodup := by rw [hw]; exact h.nodup
  waiters t := by rw [hw, h.waiters, ht.waits]

theorem BufInv.congr (h : BufInv s f) (hs : SameAt s s' f) : BufInv s' f where
  toBufCore := h.toBufCore.congr hs.toTally hs.locks hs.waiters
  quiet hb := by
    rw [hs.waiters]
    exact h.quiet (by simpa [Pool.busy, hs.state] using hb)
  readers := by rw [hs.readers, hs.state, h.readers]
  writers := by rw [hs.writers, hs.state, h.writers]
  refs := by rw [hs.refs, hs.state]; exact h.refs

omit [Fintype τ] in
theorem Counts.changeState {p : Pool τ β} (h : Counts p) (hf : f < p.poolsize) (st : BufState) :
    Counts (p.changeState f st) := by
  intro x
  have hm := Finset.mem_range.mpr hf
  have hsplit (g : BufId → BufState) : (∑ k ∈ Finset.range p.poolsize, if g k = x then (1 : ℤ) else 0) =
      (if g f = x then 1 else 0) +
        ∑ k ∈ (Finset.range p.poolsize).erase f, if g k = x then (1 : ℤ) else 0 :=
    (Finset.add_sum_erase _ _ hm).symm
  have hrest : (∑ k ∈ (Finset.range p.poolsize).erase f,
      if Function.update p.state f st k = x then (1 : ℤ) else 0) =
      ∑ k ∈ (Finset.range p.poolsize).erase f, if p.state k = x then (1 : ℤ) else 0 :=
    Finset.sum_congr rfl fun k hk => by rw [Function.update_of_ne (Finset.ne_of_mem_erase hk)]
  have hx := h x
  simp only [Pool.changeState_bufcount, Pool.changeState_poolsize, Pool.changeState_state]
  rw [hx, hsplit, hsplit, hrest, Function.update_self]
  simp only [eq_comm (a := x)]
  ring

/-- The pool fields that the invariant reads. -/
structure PoolEq (p q : Pool τ β) : Prop where
  poolsize : q.poolsize = p.poolsize
  bufsize : q.bufsize = p.bufsize
  state : q.state = p.state
  locks : q.locks = p.locks
  waiters : q.waiters = p.waiters
  blkno : q.blkno = p.blkno
  chain : q.chain = p.chain
  bucket : q.bucket = p.bucket
  freelist : q.freelist = p.freelist
  clean : q.clean = p.clean
  dirty : q.dirty = p.dirty
  bufcount : q.bufcount = p.bufcount
  hashtable : q.hashtable = p.hashtable
  panicked : q.panicked = p.panicked

section
omit [Fintype τ]

theorem Shape.congr_pool {p q : Pool τ β} {ρ : BufId → Role} (h : Shape p ρ) (e : PoolEq p q) :
    Shape q ρ := by
  constructor
  · rw [e.chain, e.freelist, e.poolsize]; exact h.free
  · rw [e.chain, e.clean, e.poolsize]; exact h.clean
  · rw [e.chain, e.dirty, e.poolsize]; exact h.dirty
  · rw [e.bucket, e.hashtable, e.poolsize, e.blkno]; exact h.hash

theorem Counts.congr_pool {p q : Pool τ β} (h : Counts p) (e : PoolEq p q) : Counts q := by
  intro st
  rw [e.bufcount, e.poolsize, e.state]
  exact h st

theorem PoolEq.refl (p : Pool τ β) : PoolEq p p := by constructor <;> rfl

end

theorem Inv.transport (h : Inv s) (e : PoolEq s.pool s'.pool) (ht : ∀ f, Tally s s' f) : Inv s' where
  shape := by rw [e.state]; exact h.shape.congr_pool e
  counts := h.counts.congr_pool e
  alive := e.panicked.trans h.alive
  size := by rw [e.bufsize]; exact h.size
  range f hf := by rw [e.state]; exact h.range f (e.poolsize ▸ hf)
  buf f := (h.buf f).congr ⟨ht f, by rw [e.state], by rw [e.locks], by rw [e.waiters]⟩

theorem Tally.of_eq (s s' : Sys τ β) (hpc : s'.pc = s.pc) (hh : s'.holds = s.holds) (hl : s'.leaked = s.leaked)
    (f : BufId) : Tally s s' f :=
  ⟨by simp [Sys.refs, hpc, hh, hl], by simp [Sys.readers, hpc], by simp [Sys.writers, hpc],
    fun t => by rw [hpc]⟩

theorem Inv.silent (h : Inv s) (e : PoolEq s.pool s'.pool) (hpc : s'.pc = s.pc)
    (hh : s'.holds = s.holds) (hl : s'.leaked = s.leaked) : Inv s' :=
  h.transport e (Tally.of_eq s s' hpc hh hl)

theorem Tally.trans {s'' : Sys τ β} (h : Tally s s' f) (h' : Tally s' s'' f) : Tally s s'' f :=
  ⟨h'.refs.trans h.refs, h'.readers.trans h.readers, h'.writers.trans h.writers,
    fun t => (h'.waits t).trans (h.waits t)⟩

section Change
variable {t : τ}

theorem refs_change (s s' : Sys τ β) (hpc : ∀ u, u ≠ t → s'.pc u = s.pc u)
    (hh : ∀ u, u ≠ t → s'.holds u = s.holds u) (hl : s'.leaked f = s.leaked f) :
    s'.refs f + (s.holds t f + (s.pc t).refs f) = s.refs f + (s'.holds t f + (s'.pc t).refs f) := by
  have := Tally.sum_change (F := fun u => s'.holds u f + (s'.pc u).refs f)
    t fun u hu => by rw [hpc u hu, hh u hu]
  simp only [Sys.refs]
  omega

theorem readers_change (s s' : Sys τ β) (hpc : ∀ u, u ≠ t → s'.pc u = s.pc u) :
    s'.readers f + (s.pc t).reads f = s.readers f + (s'.pc t).reads f :=
  Tally.sum_change (G := fun u => (s.pc u).reads f) t
    fun u hu => by rw [hpc u hu]

theorem writers_change (s s' : Sys τ β) (hpc : ∀ u, u ≠ t → s'.pc u = s.pc u) :
    s'.writers f + (s.pc t).writes f = s.writers f + (s'.pc t).writes f :=
  Tally.sum_change (G := fun u => (s.pc u).writes f) t
    fun u hu => by rw [hpc u hu]

/-- Thread `t` took a turn that concerns no other buffer than `f`. -/
structure Turn (s s' : Sys τ β) (t : τ) (f : BufId) : Prop where
  pc : ∀ u, u ≠ t → s'.pc u = s.pc u
  holds : ∀ u, u ≠ t → s'.holds u = s.holds u
  own : ∀ g, g ≠ f → s'.holds t g = s.holds t g
  leaked : ∀ g, g ≠ f → s'.leaked g = s.leaked g
  before : (s.pc t).About f
  after : (s'.pc t).About f

theorem Turn.tally {g : BufId} (h : Turn s s' t f) (hg : g ≠ f) : Tally s s' g := by
  have hr := refs_change s s' h.pc h.holds (h.leaked g hg)
  have hrd := readers_change (f := g) s s' h.pc
  have hwr := writers_change (f := g) s s' h.pc
  have ha := (h.before g hg).trans (h.after g hg).symm
  rw [h.own g hg, ha.refs] at hr
  rw [ha.reads] at hrd
  rw [ha.writes] at hwr
  refine ⟨by omega, by omega, by omega, fun u => ?_⟩
  rcases eq_or_ne u t with rfl | hu
  · exact ha.waits.symm
  · rw [h.pc u hu]

omit [Fintype τ] in
theorem Turn.not_waits (h : Turn s s' t f) (hn : ∀ u, ¬ (s.pc u).waits f)
    (hx : ¬ (s'.pc t).waits f) (u : τ) : ¬ (s'.pc u).waits f := by
  rcases eq_or_ne u t with rfl | hu
  · exact hx
  · rw [h.pc u hu]
    exact hn u

end Change

theorem Inv.around (h : Inv s) (hf : f < s.pool.poolsize) : Around s f :=
  ⟨h.alive, h.size, hf, h.range, fun g _ => h.buf g⟩

theorem Inv.loose (h : Inv s) (hf : f < s.pool.poolsize) (hb : s.pool.busy f = false) :
    Loose s f (s.pool.state f).role where
  toAround := h.around hf
  shape := by rw [Function.update_eq_self]; exact h.shape
  counts := h.counts
  core := (h.buf f).toBufCore
  quiet := (h.buf f).quiet hb
  readers := by
    have : s.pool.state f ≠ .reading := fun e => by simp [Pool.busy, e] at hb
    simp [(h.buf f).readers, this]
  writers := by
    have : s.pool.state f ≠ .writing := fun e => by simp [Pool.busy, e] at hb
    simp [(h.buf f).writers, this]

theorem Inv.inside (h : Inv s) (hr : s.refs f ≠ 0) : f < s.pool.poolsize := by
  by_contra hf
  have := (h.buf f).refs
  rw [h.range f (Nat.not_lt.mp hf)] at this
  exact hr this

theorem Loose.not_waits {r : Role} (h : Loose s f r) (t : τ) : ¬ (s.pc t).waits f := by
  rw [← h.core.waiters t, h.quiet]
  simp

theorem PoolMove.sameAt {g : BufId} (h : PoolMove s.pool s'.pool f) (hg : g ≠ f)
    (ht : Tally s s' g) : SameAt s s' g :=
  ⟨ht, h.state g hg, h.locks g hg, h.waiters g hg⟩

private theorem Around.frame {r : Role} (h : Around s f) (hm : PoolMove s.pool s'.pool f)
    (ht : ∀ g, g ≠ f → Tally s s' g)
    (hs : Shape s'.pool (Function.update (fun g => (s.pool.state g).role) f r)) :
    Shape s'.pool (Function.update (fun g => (s'.pool.state g).role) f r) ∧ Around s' f := by
  refine ⟨hs.congr_role fun g _ => ?_, hm.panicked.trans h.alive, ?_, ?_, fun g hg => ?_,
    fun g hg => (h.other g hg).congr (hm.sameAt hg (ht g hg))⟩
  · rcases eq_or_ne g f with rfl | hg
    · simp
    · simp [hg, hm.state g hg]
  · rw [hm.bufsize]
    exact h.size
  · rw [hm.poolsize]
    exact h.inside
  · have hg' : s.pool.poolsize ≤ g := hm.poolsize ▸ hg
    have hgf : g ≠ f := fun e => Nat.not_lt_of_le hg' (e ▸ h.inside)
    rw [hm.state g hgf]
    exact h.range g hg'

theorem Around.close (h : Around s f) (hm : PoolMove s.pool s'.pool f)
    (ht : ∀ g, g ≠ f → Tally s s' g)
    (hs : Shape s'.pool (Function.update (fun g => (s.pool.state g).role) f
      (s'.pool.state f).role))
    (hc : Counts s'.pool) (hb : BufInv s' f) : Inv s' := by
  obtain ⟨h1, h2⟩ := h.frame hm ht hs
  refine ⟨by rwa [Function.update_eq_self] at h1, hc, h2.alive, h2.size, h2.range, fun g => ?_⟩
  rcases eq_or_ne g f with rfl | hg
  · exact hb
  · exact h2.other g hg

theorem Around.move {r : Role} (h : Around s f) (hm : PoolMove s.pool s'.pool f)
    (ht : ∀ g, g ≠ f → Tally s s' g)
    (hs : Shape s'.pool (Function.update (fun g => (s.pool.state g).role) f r))
    (hc : Counts s'.pool) (hcore : BufCore s' f)
    (hw : s'.pool.waiters f = []) (hr : s'.readers f = 0) (hwr : s'.writers f = 0) :
    Loose s' f r := by
  obtain ⟨h1, h2⟩ := h.frame hm ht hs
  exact ⟨h2, h1, hc, hcore, hw, hr, hwr⟩

end
end SimpleKernel.Buffer
