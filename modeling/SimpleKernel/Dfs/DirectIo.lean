import SimpleKernel.Dfs.Content

/-! Reading and writing with `O_DIRECT`, past the buffer cache. -/
namespace SimpleKernel.Dfs
open PageTree Filsys Splice

variable {f f' : File} {n n' pos a k b : ℕ} {node node' : ℕ → ℕ → ℕ} {c p : List UInt8}

/-- Calls with `O_DIRECT`. -/
def direct : Flags := ⟨false, true, false⟩

namespace Storage
variable {s s' : Storage}

/-- All buffers have been written to the device. -/
def Synced (s : Storage) : Prop :=
  ∀ b data, s.cache b = some data → ∀ o, o < s.blksPerBuffer * s.blksize →
    data o = s.devByte (b * s.blksPerBuffer) o

/-- The same device and buffers for the same blocks, with other content. -/
structure SameShape (s s' : Storage) : Prop where
  blksize : s'.blksize = s.blksize
  blksPerBuffer : s'.blksPerBuffer = s.blksPerBuffer
  cached : ∀ b, s'.cache b = none ↔ s.cache b = none

theorem view_of_none {o : ℕ} (h : s.cache b = none) (ho : o < s.blksPerBuffer * s.blksize) :
    s.view b o = s.devByte (b * s.blksPerBuffer) o := by
  rw [view, h]
  exact if_pos ho

theorem Synced.view {o : ℕ} (h : s.Synced) (ho : o < s.blksPerBuffer * s.blksize) :
    s.view b o = s.devByte (b * s.blksPerBuffer) o := by
  cases hb : s.cache b with
  | none => exact view_of_none hb ho
  | some data =>
    rw [Storage.view, hb]
    exact h b data hb o ho

theorem devByte_one {o : ℕ} (ho : o < s.blksize) : s.devByte b o = s.dev b o := by
  rw [devByte, Nat.div_eq_of_lt ho, Nat.mod_eq_of_lt ho, Nat.add_zero]

theorem devWrite_self {o : ℕ} (hp : p.length = s.blksize) (ho : o < s.blksize) :
    some ((s.devWrite b p).dev b o) = p[o]? := by
  rw [devWrite]
  dsimp only
  rw [if_pos ⟨le_rfl, ho⟩, Nat.sub_self, Nat.zero_mul, Nat.zero_add,
    List.getElem?_eq_getElem (by omega)]
  rfl

theorem devWrite_other {x o : ℕ} (hp : p.length = s.blksize) (hx : x ≠ b) :
    (s.devWrite b p).dev x o = s.dev x o := by
  rw [devWrite]
  dsimp only
  split
  · next h =>
    have hle : 1 * s.blksize ≤ (x - b) * s.blksize := Nat.mul_le_mul_right _ (by omega)
    rw [List.getElem?_eq_none (by omega)]
    rfl
  · rfl

theorem view_devWrite_of_ne (hone : s.blksPerBuffer = 1) (hp : p.length = s.blksize) {x : ℕ}
    (hx : x ≠ b) : (s.devWrite b p).view x = s.view x := by
  funext o
  cases hc : s.cache x with
  | some data =>
    have hc' : (s.devWrite b p).cache x = some data := hc
    rw [view, view, hc, hc']
  | none =>
    have hc' : (s.devWrite b p).cache x = none := hc
    rw [view, view, hc, hc']
    dsimp only
    rcases Nat.lt_or_ge o s.blksize with ho | ho
    · have hlen : o < s.blksPerBuffer * s.blksize := by rwa [hone, Nat.one_mul]
      have hlen' : o < (s.devWrite b p).blksPerBuffer * (s.devWrite b p).blksize := hlen
      have hone' : (s.devWrite b p).blksPerBuffer = 1 := hone
      have ho' : o < (s.devWrite b p).blksize := ho
      rw [if_pos hlen, if_pos hlen', hone, hone', Nat.mul_one, devByte_one ho, devByte_one ho',
        devWrite_other hp hx]
    · have hlen : ¬ o < s.blksPerBuffer * s.blksize := by rw [hone]; omega
      have hlen' : ¬ o < (s.devWrite b p).blksPerBuffer * (s.devWrite b p).blksize := hlen
      rw [if_neg hlen, if_neg hlen']

theorem view_devWrite_self (hone : s.blksPerBuffer = 1) (hp : p.length = s.blksize)
    (hc : s.cache b = none) {o : ℕ} (ho : o < s.blksize) :
    some ((s.devWrite b p).view b o) = p[o]? := by
  have hc' : (s.devWrite b p).cache b = none := hc
  have hone' : (s.devWrite b p).blksPerBuffer = 1 := hone
  have ho' : o < (s.devWrite b p).blksize := ho
  rw [view_of_none hc' (by rwa [hone', Nat.one_mul]), hone', Nat.mul_one, devByte_one ho']
  exact devWrite_self hp ho

end Storage

/-- Every buffer holds one block of the file system. -/
def File.Geometry (f : File) : Prop := f.blocksize = f.store.blksPerBuffer * f.store.blksize

namespace File

theorem Holds.readDirect_step (h : f.Holds n node c) (ha : a * f.blocksize < c.length) (hk : 0 < k)
    (fuel : ℕ) (s : Storage) (read : List UInt8) :
    f.readLoop direct (fuel + 1) s (a * f.blocksize) (k * f.blocksize) read =
      if (a + 1) * f.blocksize ≤ c.length then
        f.readLoop direct fuel s ((a + 1) * f.blocksize) ((k - 1) * f.blocksize)
          (read ++ s.devRead (node 0 a) f.blocksize)
      else some (s, .ok read) := by
  have hB := h.blocksize_pos
  have hsmall := h.small
  have hmax : maxFileSize < 2 ^ 32 := by decide
  have hdiv : a * f.blocksize / f.blocksize = a := Nat.mul_div_cancel _ hB
  have hle : f.blocksize ≤ k * f.blocksize := Nat.le_mul_of_pos_left _ hk
  have hblk : a < n := by
    have := block_lt hB (ha.trans_le h.room)
    rwa [hdiv] at this
  have hacc : a ≤ a * f.blocksize := Nat.le_mul_of_pos_right _ hB
  have hsucc : (a + 1) * f.blocksize = a * f.blocksize + f.blocksize := Nat.succ_mul _ _
  have hpred : (k - 1) * f.blocksize = k * f.blocksize - f.blocksize := Nat.sub_one_mul _ _
  rw [File.readLoop, if_pos ⟨by rwa [h.size], Nat.mul_pos hk hB⟩, if_neg (by decide), hdiv,
    Nat.mul_mod_left, word_of_lt (by omega : a < 2 ^ 32), word_of_lt (by decide : 0 < 2 ^ 32),
    word_of_lt (by omega : a * f.blocksize < 2 ^ 32)]
  dsimp only
  rw [Nat.sub_zero, h.size, min_eq_left hle, if_neg (by omega), h.getInodeBlock hblk]
  dsimp only
  rw [if_neg (h.ne_noBlock hblk), if_pos (by decide)]
  split
  · next hcond =>
    rw [if_neg (by omega)]
  · next hcond =>
    rw [not_or, not_ne_iff, not_ne_iff] at hcond
    rw [if_pos (by omega), hcond.2, hsucc, hpred]

theorem Holds.readDirect (h : f.Holds n node c) (hgeo : f.Geometry) (hone : f.store.blksPerBuffer = 1)
    (hsync : f.store.Synced) {fuel : ℕ} (read : List UInt8)
    (hend : (a + k) * f.blocksize ≤ c.length ∨ f.blocksize ∣ c.length)
    (hfuel : k * f.blocksize ≤ fuel) :
    f.readLoop direct fuel f.store (a * f.blocksize) (k * f.blocksize) read =
      some (f.store, .ok (read ++ (c.drop (a * f.blocksize)).take (k * f.blocksize))) := by
  have hB := h.blocksize_pos
  induction fuel generalizing a k read with
  | zero =>
    have hzero : k * f.blocksize = 0 := Nat.le_zero.mp hfuel
    rw [hzero, File.readLoop, List.take_zero, List.append_nil]
  | succ fuel ih =>
    rcases Nat.lt_or_ge (a * f.blocksize) c.length with ha | ha
    · rcases Nat.eq_zero_or_pos k with rfl | hk
      · rw [Nat.zero_mul, File.readLoop, if_neg (by simp), List.take_zero, List.append_nil]
      have hsucc : (a + 1) * f.blocksize = a * f.blocksize + f.blocksize := Nat.succ_mul _ _
      have hpred : (k - 1) * f.blocksize = k * f.blocksize - f.blocksize := Nat.sub_one_mul _ _
      have hle : f.blocksize ≤ k * f.blocksize := Nat.le_mul_of_pos_left _ hk
      -- no block is cut off by the end of the file
      have hfull : (a + 1) * f.blocksize ≤ c.length := by
        rcases hend with hend | ⟨m, hm⟩
        · exact (Nat.mul_le_mul_right _ (by omega)).trans hend
        · rw [hm, Nat.mul_comm f.blocksize] at ha ⊢
          exact Nat.mul_le_mul_right _ (Nat.lt_of_mul_lt_mul_right ha)
      rw [h.readDirect_step ha hk, if_pos hfull, ih _ ?_ (by omega)]
      · have hdiv : a * f.blocksize / f.blocksize = a := Nat.mul_div_cancel _ hB
        have hmod : a * f.blocksize % f.blocksize = 0 := Nat.mul_mod_left _ _
        -- the device has what the cache shows
        have hread : f.store.devRead (node 0 a) f.blocksize =
            (c.drop (a * f.blocksize)).take f.blocksize := by
          rw [← h.slice (by omega) (by omega), hdiv, hmod]
          apply List.map_congr_left
          intro o ho
          have ho : o < f.blocksize := List.mem_range.mp ho
          rw [hgeo] at ho
          rw [Nat.zero_add, hsync.view ho, hone, Nat.mul_one]
        have hsplit : (c.drop (a * f.blocksize)).take (k * f.blocksize) =
            (c.drop (a * f.blocksize)).take f.blocksize ++
              (c.drop ((a + 1) * f.blocksize)).take ((k - 1) * f.blocksize) := by
          rw [hsucc, ← List.drop_drop, ← List.take_add]
          congr 1
          omega
        rw [hread, hsplit, List.append_assoc]
      · rw [show a + 1 + (k - 1) = a + k by omega]
        exact hend
    · rw [File.readLoop, if_neg (by rw [h.size]; omega), List.drop_eq_nil_of_le ha, List.take_nil,
        List.append_nil]

theorem Holds.anyStore (h : f.Holds n node c) (s : Storage) :
    ∃ c', c'.length = c.length ∧ Holds { f with store := s } n node c' := by
  refine ⟨(List.range c.length).map fun i => s.view (node 0 (i / f.blocksize)) (i % f.blocksize),
    by simp, h.wf, h.shallow, h.blocksize, h.regular, ?_, ?_, ?_, fun i hi => ?_⟩
  · simpa using h.size
  · simpa using h.small
  · simpa using h.room
  · rw [List.length_map, List.length_range] at hi
    simp [hi]

/-- `dfs_read` of `k` blocks from block `a` on returns the same bytes with and without `O_DIRECT`,
whatever the device and the buffers in the cache hold, if they agree. -/
def ReadsAgree (f : File) (a k : ℕ) : Prop :=
  ∀ s, f.store.SameShape s → s.Synced → ∃ s₁ s₂ bytes,
    dfsRead { f with store := s } direct (k * f.blocksize) (a * f.blocksize) = some (s₁, .ok bytes) ∧
    dfsRead { f with store := s } (buffered false) (k * f.blocksize) (a * f.blocksize) =
      some (s₂, .ok bytes)

theorem Holds.readsAgree (h : f.Holds n node c) (hgeo : f.Geometry)
    (hone : f.store.blksPerBuffer = 1)
    (hend : (a + k) * f.blocksize ≤ c.length ∨ f.blocksize ∣ c.length) : f.ReadsAgree a k := by
  intro s hshape hsync
  obtain ⟨c', hlen, h'⟩ := h.anyStore s
  have hgeo' : Geometry { f with store := s } := by
    rw [Geometry, hshape.blksPerBuffer, hshape.blksize]
    exact hgeo
  have hone' : s.blksPerBuffer = 1 := hshape.blksPerBuffer.trans hone
  obtain ⟨s₂, hread, -⟩ := h'.dfsRead false (k * f.blocksize) (a * f.blocksize)
  refine ⟨s, s₂, _, ?_, hread⟩
  exact h'.readDirect hgeo' hone' hsync [] (by rwa [hlen]) le_rfl

theorem Holds.readDirect_blocks (h : f.Holds n node c) {fuel : ℕ} {s s' : Storage}
    {read bytes : List UInt8}
    (hread : f.readLoop direct fuel s (a * f.blocksize) (k * f.blocksize) read = some (s', .ok bytes)) :
    ∃ rest m, bytes = read ++ rest ∧ rest.length = m * f.blocksize := by
  induction fuel generalizing a k read with
  | zero =>
    obtain ⟨-, rfl⟩ : s = s' ∧ read = bytes := by simpa [File.readLoop] using hread
    exact ⟨[], 0, by simp, by simp⟩
  | succ fuel ih =>
    have hdone (hend : s = s' ∧ read = bytes) :
        ∃ rest m, bytes = read ++ rest ∧ rest.length = m * f.blocksize :=
      ⟨[], 0, by simp [hend.2], by simp⟩
    by_cases hcond : a * f.blocksize < c.length ∧ 0 < k
    · rw [h.readDirect_step hcond.1 hcond.2] at hread
      split at hread
      · obtain ⟨rest, m, rfl, hm⟩ := ih hread
        refine ⟨s.devRead (node 0 a) f.blocksize ++ rest, m + 1, by simp, ?_⟩
        rw [List.length_append, hm, Storage.devRead, List.length_map, List.length_range, Nat.succ_mul,
          Nat.add_comm]
      · exact hdone (by simpa using hread)
    · rw [File.readLoop, if_neg] at hread
      · exact hdone (by simpa using hread)
      · rw [h.size]
        rintro ⟨hlt, hpos⟩
        exact hcond ⟨hlt, Nat.pos_of_mul_pos_right hpos⟩

theorem Holds.readDirect_first (h : f.Holds n node c) (hfull : (a + 1) * f.blocksize ≤ c.length)
    (hk : 0 < k) {s' : Storage} {bytes : List UInt8}
    (hread : f.dfsRead direct (k * f.blocksize) (a * f.blocksize) = some (s', .ok bytes)) :
    bytes[0]? = some (f.store.devByte (node 0 a) 0) := by
  have hB := h.blocksize_pos
  obtain ⟨fuel, hfuel⟩ := Nat.exists_eq_succ_of_ne_zero (Nat.mul_pos hk hB).ne'
  have ha : a * f.blocksize < c.length := by
    rw [Nat.succ_mul] at hfull
    omega
  have hstep := h.readDirect_step ha hk fuel f.store []
  rw [← Nat.succ_eq_add_one, ← hfuel, if_pos hfull] at hstep
  rw [File.dfsRead, hstep] at hread
  obtain ⟨rest, -, rfl, -⟩ := h.readDirect_blocks hread
  rw [List.nil_append, List.getElem?_append_left (by simpa [Storage.devRead] using hB),
    Storage.devRead, List.getElem?_map, List.getElem?_range hB]
  rfl

/-- A device that has 1 in block `x` and 0 elsewhere, with the same buffers as `s`. -/
def marked (s : Storage) (x : ℕ) : Storage :=
  { s with
    dev := fun y _ => if y = x then 1 else 0
    cache := fun b => (s.cache b).map fun _ o =>
      if b * s.blksPerBuffer + o / s.blksize = x then 1 else 0 }

theorem marked_shape (s : Storage) (x : ℕ) : s.SameShape (marked s x) := by
  refine ⟨rfl, rfl, fun b => ?_⟩
  simp [marked]

theorem marked_synced (s : Storage) (x : ℕ) : (marked s x).Synced := by
  intro b data hb o ho
  obtain ⟨-, -, rfl⟩ := Option.map_eq_some_iff.mp hb
  rfl

/-- If reads agree, a buffer holds one block of the device, and no block is cut off by the end of the
file. -/
theorem Holds.readsAgree_only (h : f.Holds n node c) (hgeo : f.Geometry)
    (ha : a * f.blocksize < c.length) (hk : 0 < k) (hagree : f.ReadsAgree a k) :
    f.store.blksPerBuffer = 1 ∧ f.blocksize ∣ min ((a + k) * f.blocksize) c.length := by
  have hB := h.blocksize_pos
  have hdiv : a * f.blocksize / f.blocksize = a := Nat.mul_div_cancel _ hB
  have hblk : a < n := by
    have := block_lt hB (ha.trans_le h.room)
    rwa [hdiv] at this
  obtain ⟨s₁, s₂, bytes, hdirect, hcached⟩ :=
    hagree (marked f.store (node 0 a)) (marked_shape _ _) (marked_synced _ _)
  obtain ⟨c', hlen, h'⟩ := h.anyStore (marked f.store (node 0 a))
  obtain ⟨s₃, hread, -⟩ := h'.dfsRead false (k * f.blocksize) (a * f.blocksize)
  obtain rfl : (c'.drop (a * f.blocksize)).take (k * f.blocksize) = bytes := by
    rw [hread] at hcached
    simpa using (Prod.mk.inj (Option.some.inj hcached)).2
  have hadd : (a + k) * f.blocksize = a * f.blocksize + k * f.blocksize := Nat.add_mul _ _ _
  have hkB : f.blocksize ≤ k * f.blocksize := Nat.le_mul_of_pos_left _ hk
  obtain ⟨rest, m, hrest, hm⟩ := h'.readDirect_blocks hdirect
  have htotal : ((c'.drop (a * f.blocksize)).take (k * f.blocksize)).length = m * f.blocksize := by
    rw [hrest, List.nil_append, hm]
  rw [List.length_take, List.length_drop] at htotal
  refine ⟨?_, a + m, ?_⟩
  · -- the first byte that is read
    have hfull : (a + 1) * f.blocksize ≤ c'.length := by
      have hm1 : 1 * f.blocksize ≤ m * f.blocksize := by
        refine Nat.mul_le_mul_right _ ?_
        by_contra hm0
        obtain rfl : m = 0 := by omega
        omega
      rw [Nat.succ_mul]
      omega
    have hfirst := h'.readDirect_first hfull hk hdirect
    have hbyte := h'.bytes (a * f.blocksize) (by rwa [hlen])
    have hne := h.wf.tree.ne_zero 0 a ⟨Nat.zero_le _, by simpa using hblk⟩
    have hgeo0 : 0 < (marked f.store (node 0 a)).blksPerBuffer * (marked f.store (node 0 a)).blksize := by
      rw [hgeo] at hB
      exact hB
    rw [List.getElem?_take_of_lt (by omega), List.getElem?_drop, Nat.add_zero, hbyte] at hfirst
    rw [hdiv, Nat.mul_mod_left, (marked_synced _ _).view hgeo0] at hfirst
    have hsame : node 0 a * f.store.blksPerBuffer = node 0 a := by
      by_contra hdiff
      simp [marked, Storage.devByte, hdiff] at hfirst
    exact Nat.eq_of_mul_eq_mul_left (Nat.pos_of_ne_zero hne) (hsame.trans (Nat.mul_one _).symm)
  · rw [Nat.mul_comm f.blocksize, Nat.add_mul a m]
    omega

theorem writeDirect_round (hB : 0 < f.blocksize) (hp : f.blocksize ≤ p.length)
    (hpos : a * f.blocksize < 2 ^ 32) (hfor : f.blockFor a = some (f', .ok b))
    (hsize : f'.blocksize = f.blocksize) (fuel written : ℕ) :
    writeLoop direct (fuel + 1) f (a * f.blocksize) p written =
      writeLoop direct fuel
        (f'.wrote (f'.store.devWrite b (p.take f.blocksize)) ((a + 1) * f.blocksize))
        ((a + 1) * f.blocksize) (p.drop f.blocksize) (written + f.blocksize) := by
  have hdiv : a * f.blocksize / f.blocksize = a := Nat.mul_div_cancel _ hB
  have hsucc : (a + 1) * f.blocksize = a * f.blocksize + f.blocksize := Nat.succ_mul _ _
  rw [writeLoop, if_pos (by omega), if_neg (by decide), word_of_lt hpos, hdiv, Nat.mul_mod_left]
  dsimp only
  rw [hfor]
  dsimp only
  rw [if_pos (by decide), Nat.sub_zero, min_eq_left hp, hsize, if_neg (by simp), hsucc]

theorem Holds.wroteDirect (h : f.Holds n node c) (hgeo : f.Geometry)
    (hone : f.store.blksPerBuffer = 1) (ha : a < n) (hpos : a * f.blocksize ≤ c.length)
    (hp : p.length = f.blocksize) (hmax : (a + 1) * f.blocksize ≤ maxFileSize)
    (hcache : f.store.cache (node 0 a) = none) :
    (f.wrote (f.store.devWrite (node 0 a) p) ((a + 1) * f.blocksize)).Holds n node
        (splice c (a * f.blocksize) p) ∧
      f.Spares n node (f.wrote (f.store.devWrite (node 0 a) p) ((a + 1) * f.blocksize)) n node := by
  have hB := h.blocksize_pos
  have hdiv : a * f.blocksize / f.blocksize = a := Nat.mul_div_cancel _ hB
  have hmod : a * f.blocksize % f.blocksize = 0 := Nat.mul_mod_left _ _
  have hdev : p.length = f.store.blksize := by rw [hp, hgeo, hone, Nat.one_mul]
  have hsucc : (a + 1) * f.blocksize = a * f.blocksize + p.length := by rw [Nat.succ_mul, hp]
  rw [hsucc] at hmax ⊢
  refine h.wrote (by rwa [hdiv]) hpos (by omega) hmax (fun b hb => ?_) fun o ho => ?_
  · rw [hdiv] at hb
    exact Storage.view_devWrite_of_ne hone hdev hb
  · rw [hdiv, hmod]
    apply Option.some.inj
    rw [Storage.view_devWrite_self hone hdev hcache (by omega),
      patch_mem _ (Nat.zero_le o) (by omega), Nat.sub_zero]

/-- `dfs_write` with `O_DIRECT` of blocks that the file has does not touch the cache. If a buffer holds one block of
the device and none of these blocks, the bytes are in the file. -/
theorem Holds.writeDirect (h : f.Holds n node c) (hend : (a + k) * f.blocksize ≤ c.length)
    (hlen : p.length = k * f.blocksize) {fuel : ℕ} (hfuel : p.length ≤ fuel) (written : ℕ) :
    ∃ s', File.writeLoop direct fuel f (a * f.blocksize) p written =
        some ({ f with store := s' }, .ok (written + p.length)) ∧ s'.cache = f.store.cache ∧
      (f.Geometry → f.store.blksPerBuffer = 1 →
        (∀ i, a ≤ i → i < a + k → f.store.cache (node 0 i) = none) →
        Holds { f with store := s' } n node (splice c (a * f.blocksize) p) ∧
          f.Spares n node { f with store := s' } n node) := by
  have hB := h.blocksize_pos
  induction k generalizing f c a p fuel written with
  | zero =>
    rw [Nat.zero_mul] at hlen
    obtain rfl := List.length_eq_zero_iff.mp hlen
    refine ⟨f.store, ?_, rfl, fun _ _ _ => ?_⟩
    · cases fuel with
      | zero => rfl
      | succ fuel => simp [File.writeLoop]
    · rw [splice_nil]
      exact ⟨h, fun b hb => ⟨hb, rfl⟩⟩
  | succ k ih =>
    have hsucc : (a + 1) * f.blocksize = a * f.blocksize + f.blocksize := Nat.succ_mul _ _
    have hadd : (a + (k + 1)) * f.blocksize = a * f.blocksize + (k + 1) * f.blocksize :=
      Nat.add_mul _ _ _
    have hk : (k + 1) * f.blocksize = k * f.blocksize + f.blocksize := Nat.succ_mul _ _
    have hsmall := h.small
    have hmaxsize : maxFileSize < 2 ^ 32 := by decide
    have hblk : a < n := by
      have := block_lt hB ((by omega : a * f.blocksize < c.length).trans_le h.room)
      rwa [Nat.mul_div_cancel _ hB] at this
    have hfor : f.blockFor a = some (f, .ok (node 0 a)) := by
      rw [File.blockFor, h.wf.blocks, if_pos hblk, h.getInodeBlock hblk, Option.map_some,
        if_neg (h.ne_noBlock hblk)]
    cases fuel with
    | zero => omega
    | succ fuel =>
      rw [writeDirect_round hB (by omega) (by omega) hfor rfl]
      set s₁ := f.store.devWrite (node 0 a) (p.take f.blocksize) with hs₁
      have hwrote : f.wrote s₁ ((a + 1) * f.blocksize) = { f with store := s₁ } := by
        rw [File.wrote, h.size, if_neg (by omega)]
      have htake : (p.take f.blocksize).length = f.blocksize := by
        rw [List.length_take]
        omega
      obtain ⟨c₁, hlen₁, h₁⟩ := h.anyStore s₁
      have hdrop : (p.drop f.blocksize).length = k * f.blocksize := by
        rw [List.length_drop]
        omega
      have hend₁ : (a + 1 + k) * f.blocksize ≤ c₁.length := by
        rw [hlen₁, show a + 1 + k = a + (k + 1) by omega]
        exact hend
      obtain ⟨s', hloop, hcache, -⟩ :=
        ih h₁ hend₁ hdrop (by omega : (p.drop f.blocksize).length ≤ fuel)
          (written + f.blocksize) hB
      rw [hwrote]
      refine ⟨s', ?_, hcache, fun hgeo hone hnone => ?_⟩
      · rw [hloop]
        congr 3
        omega
      · obtain ⟨h₂, hspares₂⟩ := h.wroteDirect hgeo hone hblk (by omega) htake (by omega)
          (hnone a le_rfl (by omega))
        rw [hwrote] at h₂ hspares₂
        have hend₂ : (a + 1 + k) * f.blocksize ≤ (splice c (a * f.blocksize) (p.take f.blocksize)).length := by
          rw [length_splice (by omega)]
          omega
        obtain ⟨s'', hloop', -, hholds⟩ :=
          ih h₂ hend₂ hdrop (by omega : (p.drop f.blocksize).length ≤ fuel)
            (written + f.blocksize) hB
        obtain rfl : s' = s'' := by
          rw [hloop] at hloop'
          simpa using hloop'
        obtain ⟨h₃, hspares₃⟩ := hholds hgeo hone fun i hi hlt => hnone i (by omega) (by omega)
        refine ⟨?_, hspares₂.trans hspares₃⟩
        have happ := splice_append (show a * f.blocksize ≤ c.length by omega) (p.take f.blocksize)
          (p.drop f.blocksize)
        rw [htake, List.take_append_drop, ← hsucc] at happ
        rw [← happ]
        exact h₃

theorem Holds.writeDirect_extends (h : f.Holds n node c)
    (hsafe : f.inode.Safe (upTo f.inode.fs.ptrs f.inode.depth n) node) (hgeo : f.Geometry)
    (hone : f.store.blksPerBuffer = 1) (hpos : a * f.blocksize ≤ c.length)
    (hmax : (a + k) * f.blocksize ≤ maxFileSize) (hlen : p.length = k * f.blocksize)
    (hcache : ∀ i, a ≤ i → i < a + k → i < n → f.store.cache (node 0 i) = none)
    (hfree : n < a + k → ∀ b, f.inode.fs.Free b → f.store.cache b = none)
    {fuel : ℕ} (hfuel : p.length ≤ fuel) (written : ℕ) :
    (∃ f', File.writeLoop direct fuel f (a * f.blocksize) p written = some (f', .error .enospc)) ∨
      ∃ f' n' node', File.writeLoop direct fuel f (a * f.blocksize) p written =
          some (f', .ok (written + p.length)) ∧
        f'.Holds n' node' (splice c (a * f.blocksize) p) ∧ f.Spares n node f' n' node' := by
  have hB := h.blocksize_pos
  induction k generalizing f n node c a p fuel written with
  | zero =>
    rw [Nat.zero_mul] at hlen
    obtain rfl := List.length_eq_zero_iff.mp hlen
    right
    refine ⟨f, n, node, ?_, ?_, fun b hb => ⟨hb, rfl⟩⟩
    · cases fuel with
      | zero => rfl
      | succ fuel => simp [File.writeLoop]
    · rwa [splice_nil]
  | succ k ih =>
    have hsucc : (a + 1) * f.blocksize = a * f.blocksize + f.blocksize := Nat.succ_mul _ _
    have hadd : (a + (k + 1)) * f.blocksize = a * f.blocksize + (k + 1) * f.blocksize :=
      Nat.add_mul _ _ _
    have hk : (k + 1) * f.blocksize = k * f.blocksize + f.blocksize := Nat.succ_mul _ _
    have hmaxsize : maxFileSize < 2 ^ 32 := by decide
    have hblock := h.blockFor hsafe hpos (by omega)
    rw [Nat.mul_div_cancel _ hB] at hblock
    cases fuel with
    | zero => omega
    | succ fuel =>
      rcases hblock with ⟨f', hfull⟩ | ⟨next, n₁, node₁, hfor, h₁, hblk, htakes⟩
      · left
        refine ⟨f', ?_⟩
        rw [File.writeLoop, if_pos (by omega), if_neg (by decide),
          word_of_lt (by omega : a * f.blocksize < 2 ^ 32), Nat.mul_div_cancel _ hB]
        dsimp only
        rw [hfull]
      rw [writeDirect_round hB (by omega) (by omega) hfor rfl]
      have hnone : f.store.cache (node₁ 0 a) = none := by
        rcases Nat.lt_or_ge a n with hlt | hge
        · rw [htakes.old a hlt]
          exact hcache a le_rfl (by omega) hlt
        · exact hfree (by omega) _ (htakes.new a hge hblk)
      have htake : (p.take f.blocksize).length = f.blocksize := by
        rw [List.length_take]
        omega
      have hdrop : (p.drop f.blocksize).length = k * f.blocksize := by
        rw [List.length_drop]
        omega
      obtain ⟨h₂, hspares₂⟩ := h₁.wroteDirect hgeo hone hblk hpos htake
        (show (a + 1) * f.blocksize ≤ maxFileSize by omega) hnone
      have hpos₂ : (a + 1) * f.blocksize ≤
          (splice c (a * f.blocksize) (p.take f.blocksize)).length := by
        rw [length_splice hpos, htake, hsucc]
        exact le_max_right _ _
      have hmax₂ : (a + 1 + k) * f.blocksize ≤ maxFileSize := by
        rw [show a + 1 + k = a + (k + 1) by omega]
        exact hmax
      have hrest := ih h₂ htakes.safe hgeo hone hpos₂ hmax₂ hdrop
        (fun i hi hlt hin => ?_) (fun hlt b hb => ?_)
        (by omega : (p.drop f.blocksize).length ≤ fuel) (written + f.blocksize) hB
      · rcases hrest with ⟨f', hfull⟩ | ⟨f', n', node', hloop, hholds, hspares'⟩
        · exact .inl ⟨f', hfull⟩
        · right
          refine ⟨f', n', node', ?_, ?_, (htakes.spares.trans hspares₂).trans hspares'⟩
          · rw [show written + p.length = written + f.blocksize + (p.drop f.blocksize).length by
              omega]
            exact hloop
          · have happ := splice_append hpos (p.take f.blocksize) (p.drop f.blocksize)
            rw [htake, List.take_append_drop, ← hsucc] at happ
            rw [← happ]
            exact hholds
      · rcases Nat.lt_or_ge i n with hlt' | hge
        · rw [htakes.old i hlt']
          exact hcache i (by omega) (by omega) hlt'
        · exact hfree (by omega) _ (htakes.new i hge hin)
      · have hle := htakes.le
        exact hfree (by omega) b (htakes.free b hb)

theorem dfsWrite_direct (hdir : f.isDir = false) (hpos : pos ≤ f.size)
    (hmax : pos + p.length ≤ maxFileSize) :
    f.dfsWrite direct p pos = writeLoop direct p.length f pos p 0 := by
  have happ : (if direct.append = true then f.size else pos) = pos := if_neg (by decide)
  simp only [dfsWrite, happ]
  rw [if_neg (not_lt.mpr hmax), if_neg (by simp [hdir]), if_neg (not_lt.mpr hpos)]

/-- What `dfs_write` with `O_DIRECT` writes to `k` blocks from block `a` on is read afterwards without `O_DIRECT`,
and nothing else changes. -/
def WritesAgree (f : File) (n : ℕ) (node : ℕ → ℕ → ℕ) (a k : ℕ) : Prop :=
  ∀ s, f.store.SameShape s → ∀ p : List UInt8, p.length = k * f.blocksize → ∃ f' s',
    dfsWrite { f with store := s } direct p (a * f.blocksize) = some (f', .ok p.length) ∧
    f'.dfsRead (buffered false) (k * f.blocksize) (a * f.blocksize) = some (s', .ok p) ∧
    Spares { f with store := s } n node f' n node

theorem Holds.writesAgree (h : f.Holds n node c) (hgeo : f.Geometry)
    (hend : (a + k) * f.blocksize ≤ c.length) (hone : f.store.blksPerBuffer = 1)
    (hcache : ∀ i, a ≤ i → i < a + k → f.store.cache (node 0 i) = none) :
    f.WritesAgree n node a k := by
  intro s hshape p hp
  obtain ⟨c₁, hlen₁, h₁⟩ := h.anyStore s
  have hadd : (a + k) * f.blocksize = a * f.blocksize + k * f.blocksize := Nat.add_mul _ _ _
  have hsmall := h.small
  have hgeo' : Geometry { f with store := s } := by
    rw [Geometry, hshape.blksPerBuffer, hshape.blksize]
    exact hgeo
  obtain ⟨s', hloop, -, hholds⟩ :=
    h₁.writeDirect (show (a + k) * f.blocksize ≤ c₁.length by rwa [hlen₁]) hp le_rfl 0
  obtain ⟨h₂, hspares⟩ := hholds hgeo' (hshape.blksPerBuffer.trans hone) fun i hi hlt =>
    (hshape.cached _).mpr (hcache i hi hlt)
  obtain ⟨s'', hread, -⟩ := h₂.dfsRead false (k * f.blocksize) (a * f.blocksize)
  refine ⟨_, s'', ?_, ?_, hspares⟩
  · rw [dfsWrite_direct h₁.regular (by rw [h₁.size]; omega) (by omega), hloop, Nat.zero_add]
  · rw [hread, ← hp, take_drop_splice (show a * f.blocksize ≤ c₁.length by omega)]

theorem Holds.writesAgree_only (h : f.Holds n node c) (hend : (a + k) * f.blocksize ≤ c.length)
    (hagree : f.WritesAgree n node a k) {i : ℕ} (hi : a ≤ i) (hlt : i < a + k) :
    f.store.cache (node 0 i) = none := by
  by_contra hcached
  have hB := h.blocksize_pos
  have hadd : (a + k) * f.blocksize = a * f.blocksize + k * f.blocksize := Nat.add_mul _ _ _
  have hsmall := h.small
  -- all buffers hold 0, and 1 is written
  let s : Storage := { f.store with cache := fun b => (f.store.cache b).map fun _ _ => 0 }
  have hshape : f.store.SameShape s := ⟨rfl, rfl, fun b => by simp [s]⟩
  obtain ⟨c₁, hlen₁, h₁⟩ := h.anyStore s
  have hp : (List.replicate (k * f.blocksize) (1 : UInt8)).length = k * f.blocksize := by simp
  obtain ⟨f', s', hwrite, hread, -⟩ := hagree s hshape _ hp
  obtain ⟨s₁, hloop, hcache, -⟩ :=
    h₁.writeDirect (show (a + k) * f.blocksize ≤ c₁.length by rwa [hlen₁]) hp le_rfl 0
  rw [dfsWrite_direct h₁.regular (by rw [h₁.size]; omega) (by omega), hloop] at hwrite
  obtain ⟨rfl, -⟩ := Prod.mk.inj (Option.some.inj hwrite)
  obtain ⟨c₂, hlen₂, h₂⟩ := h.anyStore s₁
  obtain ⟨s₃, hread₂, -⟩ := h₂.dfsRead false (k * f.blocksize) (a * f.blocksize)
  have hbytes : (c₂.drop (a * f.blocksize)).take (k * f.blocksize) =
      List.replicate (k * f.blocksize) (1 : UInt8) := by
    rw [hread₂] at hread
    simpa using (Prod.mk.inj (Option.some.inj hread)).2
  have hle : a * f.blocksize ≤ i * f.blocksize := Nat.mul_le_mul_right _ hi
  have hin : (i + 1) * f.blocksize ≤ (a + k) * f.blocksize := Nat.mul_le_mul_right _ hlt
  rw [Nat.succ_mul] at hin
  have hat : c₂[i * f.blocksize]? = some 1 := by
    have hget := congrArg (fun l => l[i * f.blocksize - a * f.blocksize]?) hbytes
    rw [List.getElem?_take_of_lt (by omega), List.getElem?_drop,
      List.getElem?_replicate, if_pos (by omega), Nat.add_sub_cancel' hle] at hget
    exact hget
  have hbyte := h₂.bytes (i * f.blocksize) (by omega)
  rw [hat] at hbyte
  rw [Nat.mul_div_cancel _ hB] at hbyte
  obtain ⟨data, hdata⟩ := Option.ne_none_iff_exists'.mp hcached
  have hbuf : s₁.cache (node 0 i) = some fun _ => 0 := by
    rw [hcache]
    simp [s, hdata]
  rw [Storage.view, hbuf] at hbyte
  simp at hbyte

end File

/-- An empty file on a device with blocks of 1 KB as well. -/
def emptyDirect : File := { emptyDoc with store := ⟨1024, 1, fun _ _ => 0, fun _ => none⟩ }

/-- A file on a device with blocks of 512 bytes, of which block 48 holds 1 and all others 0. -/
def markedFile : File := { lastGroupFile with store := File.marked zeroDisk 48 }

end SimpleKernel.Dfs
