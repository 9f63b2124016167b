import SimpleKernel.Buffer.Sequential

/-! What one thread sees of a device through its pool. The buffers, the lists and the device together always
represent the content of each block. -/
namespace SimpleKernel.Buffer
open LinkedList Transition

variable {β : Type}

/-- The blocks as the thread sees them. A block is `unmarked` from the time its buffer is
cleared or changed until it is marked. -/
@[ext] structure View (β : Type) where
  content : Blkno → β
  unmarked : Blkno → Bool

/-- What the state of a buffer says about its data `d`, the block `x` in the device and the
content `c` of the block. -/
def CacheOk : BufState → (d x c : β) → (unmarked : Bool) → Prop
  | .clean, d, x, c, u => d = c ∧ x = c ∧ u = false
  | .dirty, d, _, c, u | .writing, d, _, c, u => d = c ∧ u = false
  | .reading, _, x, c, u | .invalid, _, x, c, u => x = c ∧ u = false
  | .locked, d, x, c, u => d = c ∧ (u = false → x = c)
  | .updated, d, _, c, _ => d = c
  | .free, _, _, _, _ | .error, _, _, _, _ => True

/-- The pool and the device represent `v` on the blocks `B`; a buffer spans `w` device blocks. -/
structure Coherent (B : Set Blkno) (w : UInt32) (s : Sys Unit β) (v : View β) : Prop where
  width : s.pool.blksPerBuffer = w
  blocks : ∀ f b, s.pool.block f = some b → b ∈ B
  absent : ∀ b ∈ B, (∀ f, s.pool.block f ≠ some b) → s.dev (b * w) = v.content b ∧
    v.unmarked b = false
  cached : ∀ f b, s.pool.block f = some b →
    CacheOk (s.pool.state f) (s.pool.data f) (s.dev (b * w)) (v.content b) (v.unmarked b)

section Touch
variable {B : Set Blkno} {w : UInt32} {s s' : Sys Unit β} {v v' : View β}

theorem Coherent.congr (h : Coherent B w s v)
    (hp : s'.pool.poolsize = s.pool.poolsize ∧ s'.pool.blksPerBuffer = s.pool.blksPerBuffer)
    (hst : s'.pool.state = s.pool.state) (hb : s'.pool.blkno = s.pool.blkno)
    (hd : s'.pool.data = s.pool.data) (hx : ∀ b ∈ B, s'.dev (b * w) = s.dev (b * w)) :
    Coherent B w s' v := by
  have hblk (f : BufId) : s'.pool.block f = s.pool.block f := by
    simp only [Pool.block, hp.1, hst, hb]
  refine ⟨hp.2.trans h.width, fun f b hf => ?_, fun b hb hn => ?_, fun f b hf => ?_⟩
  · rw [hblk] at hf
    exact h.blocks f b hf
  · simp only [hblk] at hn
    rw [hx b hb]
    exact h.absent b hb hn
  · rw [hblk] at hf
    rw [hst, hd, hx b (h.blocks f b hf)]
    exact h.cached f b hf

/-- A move that touches buffer `f` only: the block that `f` leaves has to be in the device, and
the block that `f` has afterwards has to be represented by it. -/
theorem Coherent.touch (h : Coherent B w s v) (hu : Uniq s) (hu' : Uniq s') (f : BufId)
    (hw : s'.pool.blksPerBuffer = s.pool.blksPerBuffer)
    (hother : ∀ g, g ≠ f → s'.pool.block g = s.pool.block g ∧
      s'.pool.state g = s.pool.state g ∧ s'.pool.data g = s.pool.data g)
    (hdev : ∀ b ∈ B, s.pool.block f ≠ some b → s'.dev (b * w) = s.dev (b * w))
    (hold : ∀ b, s.pool.block f = some b → s'.pool.block f ≠ some b →
      s'.dev (b * w) = v'.content b ∧ v'.unmarked b = false)
    (hnew : ∀ b, s'.pool.block f = some b → b ∈ B ∧ CacheOk (s'.pool.state f) (s'.pool.data f)
      (s'.dev (b * w)) (v'.content b) (v'.unmarked b))
    (hv : ∀ b, s.pool.block f ≠ some b → s'.pool.block f ≠ some b →
      v'.content b = v.content b ∧ v'.unmarked b = v.unmarked b) : Coherent B w s' v' := by
  refine ⟨hw.trans h.width, fun g b hg => ?_, fun b hb hn => ?_, fun g b hg => ?_⟩
  · rcases eq_or_ne g f with rfl | hgf
    · exact (hnew b hg).1
    · rw [(hother g hgf).1] at hg
      exact h.blocks g b hg
  · by_cases hf : s.pool.block f = some b
    · exact hold b hf (hn f)
    · have hn' (g : BufId) : s.pool.block g ≠ some b := by
        rcases eq_or_ne g f with rfl | hgf
        · exact hf
        · rw [← (hother g hgf).1]
          exact hn g
      rw [hdev b hb hf, (hv b hf (hn f)).1, (hv b hf (hn f)).2]
      exact h.absent b hb hn'
  · rcases eq_or_ne g f with rfl | hgf
    · exact (hnew b hg).2
    · have hf' : s'.pool.block f ≠ some b := fun hf => hgf (hu'.block g f b hg hf)
      rw [(hother g hgf).1] at hg
      have hf : s.pool.block f ≠ some b := fun hf => hgf (hu.block g f b hg hf)
      rw [(hother g hgf).2.1, (hother g hgf).2.2, hdev b (h.blocks g b hg) hf, (hv b hf hf').1,
        (hv b hf hf').2]
      exact h.cached g b hg

theorem block_congr {p q : Pool Unit β} {g : BufId} (hn : q.poolsize = p.poolsize)
    (hst : q.state g = p.state g) (hb : q.blkno g = p.blkno g) : q.block g = p.block g := by
  simp only [Pool.block, hn, hst, hb]

theorem Coherent.stay (h : Coherent B w s v) (hu : Uniq s) (hu' : Uniq s') (f : BufId)
    (hg : s'.pool.geometry = s.pool.geometry)
    (hst : ∀ g, g ≠ f → s'.pool.state g = s.pool.state g) (hb : s'.pool.blkno = s.pool.blkno)
    (hd : ∀ g, g ≠ f → s'.pool.data g = s.pool.data g)
    (hx : ∀ b ∈ B, s.pool.block f ≠ some b → s'.dev (b * w) = s.dev (b * w))
    (hfree : s'.pool.state f ≠ .free)
    (hok : ∀ b, s.pool.block f = some b → CacheOk (s'.pool.state f) (s'.pool.data f)
      (s'.dev (b * w)) (v'.content b) (v'.unmarked b))
    (hfree' : s.pool.state f ≠ .free)
    (hv : ∀ b, s.pool.block f ≠ some b →
      v'.content b = v.content b ∧ v'.unmarked b = v.unmarked b) : Coherent B w s' v' := by
  have hn : s'.pool.poolsize = s.pool.poolsize := congrArg Prod.fst hg
  have hf : s'.pool.block f = s.pool.block f := by
    simp [Pool.block, hn, hb, hfree, hfree']
  refine h.touch hu hu' f (congrArg (fun x => x.2.2.1) hg) (fun g hgf => ?_) hx (fun b h1 h2 => ?_)
    (fun b h1 => ?_) (fun b h1 _ => hv b h1)
  · exact ⟨block_congr hn (hst g hgf) (congrFun hb g), hst g hgf, hd g hgf⟩
  · rw [hf] at h2
    exact absurd h1 h2
  · rw [hf] at h1
    exact ⟨h.blocks f b h1, hok b h1⟩

theorem Coherent.leave (h : Coherent B w s v) (hu : Uniq s) (hu' : Uniq s') (f : BufId)
    (hg : s'.pool.geometry = s.pool.geometry)
    (hst : ∀ g, g ≠ f → s'.pool.state g = s.pool.state g) (hb : s'.pool.blkno = s.pool.blkno)
    (hd : s'.pool.data = s.pool.data) (hx : s'.dev = s.dev) (hfree : s'.pool.state f = .free)
    (hold : ∀ b, s.pool.block f = some b → s'.dev (b * w) = v'.content b ∧ v'.unmarked b = false)
    (hv : ∀ b, s.pool.block f ≠ some b →
      v'.content b = v.content b ∧ v'.unmarked b = v.unmarked b) : Coherent B w s' v' := by
  have hn : s'.pool.poolsize = s.pool.poolsize := congrArg Prod.fst hg
  refine h.touch hu hu' f (congrArg (fun x => x.2.2.1) hg) (fun g hgf => ?_) (fun b _ _ => by rw [hx])
    (fun b h1 _ => hold b h1) (fun b h1 => ?_) (fun b h1 _ => hv b h1)
  · exact ⟨block_congr hn (hst g hgf) (congrFun hb g), hst g hgf, congrFun hd g⟩
  · simp [Pool.block, hfree] at h1

end Touch

section New
variable [Zero β] {B : Set Blkno} {w : UInt32} {s s' : Sys Unit β} {v : View β} {f : BufId}

/-- What the thread sees of block `b` is `c` now. -/
@[simps] def View.set (v : View β) (b : Blkno) (c : β) (u : Bool) : View β :=
  ⟨Function.update v.content b c, Function.update v.unmarked b u⟩

/-- The view after `get_buffer` or `alloc_buffer`. -/
def View.fetched (v : View β) (b : Blkno) : Fetch → View β
  | .get => v
  | .alloc => v.set b 0 true

theorem Coherent.useNew {p : Pool Unit β} {k : Fetch} {b : Blkno} {dev : Dev β}
    (h : Coherent B w s v) (hu : Uniq s) (hu' : Uniq (s'.useNew () k b p f))
    (hg : p.geometry = s.pool.geometry) (hst : ∀ g, g ≠ f → p.state g = s.pool.state g)
    (hbl : p.blkno = s.pool.blkno) (hd : p.data = s.pool.data) (hf : f < s.pool.poolsize) (hb : b ∈ B)
    (habs : ∀ g, s.pool.block g ≠ some b)
    (hdev : s'.dev = dev) (hx : ∀ c ∈ B, s.pool.block f ≠ some c → dev (c * w) = s.dev (c * w))
    (hold : ∀ c, s.pool.block f = some c → dev (c * w) = v.content c ∧ v.unmarked c = false) :
    Coherent B w (s'.useNew () k b p f) (v.fetched b k) := by
  have hgeo := (useNew_kept s' () k b p f).2.trans hg
  have hn : (s'.useNew () k b p f).pool.poolsize = s.pool.poolsize := congrArg Prod.fst hgeo
  have hview (c : Blkno) (hc : c ≠ b) : (v.fetched b k).content c = v.content c ∧
      (v.fetched b k).unmarked c = v.unmarked c := by
    cases k <;> simp [View.fetched, hc]
  have hblk : (s'.useNew () k b p f).pool.block f = some b := by
    rw [block_eq_some, hn]
    refine ⟨⟨hf, ?_⟩, ?_⟩ <;> cases k <;>
      simp [Sys.useNew, Pool.bindForRead, Pool.bindForAlloc, Pool.readBufferStart, Pool.bind]
  refine h.touch hu hu' f (congrArg (fun x => x.2.2.1) hgeo) (fun g hgf => ?_) (fun c hc hf => ?_)
    (fun c hc _ => ?_) (fun c hc => ?_) (fun c hc hc' => ?_)
  · have hs := (useNew_data (s := s') (t := ()) k b hgf).2.trans (hst g hgf)
    have hdg := (useNew_data (s := s') (t := ()) k b hgf).1.trans (congrFun hd g)
    exact ⟨block_congr hn hs ((useNew_blkno k b hgf).trans (congrFun hbl g)), hs, hdg⟩
  · rw [useNew_dev, hdev]
    exact hx c hc hf
  · have hcb : c ≠ b := fun e => habs f (e ▸ hc)
    rw [useNew_dev, hdev, (hview c hcb).1, (hview c hcb).2]
    exact hold c hc
  · obtain rfl : b = c := Option.some.inj (hblk.symm.trans hc)
    refine ⟨hb, ?_⟩
    have := h.absent b hb habs
    rw [useNew_dev, hdev, hx b hb (habs f)]
    cases k with
    | get => simpa [Sys.useNew, Pool.bindForRead, Pool.readBufferStart, View.fetched, CacheOk] using this
    | alloc => simp [Sys.useNew, Pool.bindForAlloc, View.fetched, CacheOk]
  · exact hview c fun e => hc' (e ▸ hblk)

end New

section Device
variable {B : Set Blkno} {w : UInt32} {b c : Blkno}

/-- The device blocks of block `b` have 32-bit numbers. -/
def OnDevice (w : UInt32) (b : Blkno) : Prop := b.toNat * w.toNat < 2 ^ 32

theorem OnDevice.inj (hw : w ≠ 0) (hb : OnDevice w b) (hc : OnDevice w c) (h : b * w = c * w) :
    b = c := by
  have h1 := congrArg UInt32.toNat h
  have hpos : 0 < w.toNat := Nat.pos_of_ne_zero fun e => hw (UInt32.toNat_inj.mp e)
  rw [UInt32.toNat_mul, UInt32.toNat_mul, Nat.mod_eq_of_lt hb, Nat.mod_eq_of_lt hc] at h1
  exact UInt32.toNat_inj.mp (Nat.eq_of_mul_eq_mul_right hpos h1)

/-- The blocks `B` are on the device, and the user's sync function leaves them alone. -/
structure Served (B : Set Blkno) (w : UInt32) (sync : Option (Dev β → Dev β)) : Prop where
  pos : w ≠ 0
  onDevice : ∀ b ∈ B, OnDevice w b
  sync : ∀ g, sync = some g → ∀ dev, ∀ b ∈ B, g dev (b * w) = dev (b * w)

theorem Coherent.store {s : Sys Unit β} {v : View β} {f : BufId} {dev : Dev β} {x : β}
    (h : Coherent B w s v) (hs : Served B w s.pool.sync) (hst : s.pool.state f ≠ .free)
    (hf : f < s.pool.poolsize) (hdev : dev = Function.update s.dev (s.pool.addr f) x) :
    (∀ c ∈ B, s.pool.block f ≠ some c → dev (c * w) = s.dev (c * w)) ∧
      ∀ c, s.pool.block f = some c → dev (c * w) = x := by
  have hblk : s.pool.block f = some (s.pool.blkno f) := block_eq_some.mpr ⟨⟨hf, hst⟩, rfl⟩
  have haddr : s.pool.addr f = s.pool.blkno f * w := by rw [Pool.addr, h.width]
  subst hdev
  constructor
  · intro c hc hne
    refine Function.update_of_ne (fun e => hne ?_) _ _
    rw [hblk, OnDevice.inj hs.pos (hs.onDevice c hc) (hs.onDevice _ (h.blocks f _ hblk))
      (e.trans haddr)]
  · intro c hc
    obtain rfl : s.pool.blkno f = c := Option.some.inj (hblk.symm.trans hc)
    rw [haddr, Function.update_self]

end Device

end SimpleKernel.Buffer
