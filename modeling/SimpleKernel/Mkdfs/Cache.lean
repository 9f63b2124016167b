import SimpleKernel.Dfs.Group

/-! The device and the buffer cache of the host tool, `utils/dfs/mkdfs.c` and `utils/dfs/buf.c`. There is one
thread, so no buffer is waited for. A panic has no result. -/
namespace SimpleKernel.Mkdfs
open Dfs (word)
open Function (update update_of_ne update_self)

def sectorSize : ℕ := 512

/-- The bytes of every sector, and the numbers of the sectors that were written. -/
structure Device where
  sector : ℕ → ℕ → UInt8
  written : List ℕ

namespace Device

def write (d : Device) (buffer : ℕ → UInt8) (count blkno : ℕ) : Device where
  sector s o :=
    if blkno ≤ s ∧ s < blkno + count / sectorSize then buffer ((s - blkno) * sectorSize + o)
    else d.sector s o
  written := List.range' blkno (count / sectorSize) ++ d.written

def read (d : Device) (blkno : ℕ) : ℕ → UInt8 := fun o =>
  d.sector (blkno + o / sectorSize) (o % sectorSize)

end Device

/-- `state`. A buffer in the free list is not in the cache; no buffer is invalidated. -/
inductive BufState
  | clean | dirty | locked | updated
  deriving DecidableEq, Repr

/-- `struct buf`. -/
structure Buf where
  state : BufState
  locks : ℕ
  data : ℕ → UInt8

/-- `struct bufpool`: the number of free buffers, the buffers in the hash table by block number, and the
lists of clean and dirty ones. -/
structure Bufpool where
  bufsize : ℕ
  blksPerBuffer : ℕ
  free : ℕ
  bufs : ℕ → Option Buf
  clean : List ℕ
  dirty : List ℕ
  dev : Device

namespace Bufpool

/-- `init_buffer_pool`; the size of all buffers is an `int`. -/
def init (dev : Device) (poolsize bufsize : ℕ) : Option Bufpool :=
  if 2 ^ 31 ≤ poolsize * bufsize then none
  else some ⟨bufsize, bufsize / 512, poolsize, fun _ => none, [], [], dev⟩

def put (p : Bufpool) (b : ℕ) (buf : Option Buf) : Bufpool :=
  { p with bufs := update p.bufs b buf }

def lookupBuffer (p : Bufpool) (b : ℕ) : Option Bufpool :=
  match p.bufs b with
  | none => none
  | some ⟨.clean, locks, data⟩ =>
    some { p.put b (some ⟨.locked, locks + 1, data⟩) with clean := p.clean.erase b }
  | some ⟨.dirty, locks, data⟩ =>
    some { p.put b (some ⟨.updated, locks + 1, data⟩) with dirty := p.dirty.erase b }
  | some ⟨state, locks, data⟩ => some (p.put b (some ⟨state, locks + 1, data⟩))

/-- `write_buffer` for the first dirty buffer `b`. -/
def writeBuffer (p : Bufpool) (b : ℕ) (buf : Buf) : Bufpool :=
  { p.put b (some { buf with state := .locked }) with
    dirty := p.dirty.erase b
    dev := p.dev.write buf.data p.bufsize (word (b * p.blksPerBuffer)) }

/-- `get_new_buffer`: a free buffer, the clean one that was used least recently, or the dirty one that
was changed least recently. -/
def getNewBuffer (p : Bufpool) : Option Bufpool :=
  if 0 < p.free then some { p with free := p.free - 1 }
  else
    match p.clean with
    | b :: rest => some { p.put b none with clean := rest }
    | [] =>
      match p.dirty with
      | [] => none
      | b :: _ => (p.bufs b).map fun buf => (p.writeBuffer b buf).put b none

def getBuffer (p : Bufpool) (b : ℕ) : Option Bufpool :=
  match p.lookupBuffer b with
  | some p => some p
  | none => p.getNewBuffer.map fun p =>
    p.put b (some ⟨.locked, 1, p.dev.read (word (b * p.blksPerBuffer))⟩)

/-- The bytes in the buffer of block `b`. -/
def data (p : Bufpool) (b : ℕ) : ℕ → UInt8 :=
  match p.bufs b with
  | some buf => buf.data
  | none => fun _ => 0

def setData (p : Bufpool) (b : ℕ) (data : ℕ → UInt8) : Bufpool :=
  match p.bufs b with
  | some buf => p.put b (some { buf with data := data })
  | none => p

def allocBuffer (p : Bufpool) (b : ℕ) : Option Bufpool :=
  match p.lookupBuffer b with
  | some p => some (p.setData b fun _ => 0)
  | none => p.getNewBuffer.map fun p => p.put b (some ⟨.locked, 1, fun _ => 0⟩)

def markUpdated (p : Bufpool) (b : ℕ) : Bufpool :=
  match p.bufs b with
  | some ⟨.locked, locks, data⟩ => p.put b (some ⟨.updated, locks, data⟩)
  | _ => p

def releaseBuffer (p : Bufpool) (b : ℕ) : Option Bufpool :=
  match p.bufs b with
  | none => none
  | some ⟨state, locks, data⟩ =>
    if 0 < locks - 1 then some (p.put b (some ⟨state, locks - 1, data⟩))
    else
      match state with
      | .locked => some { p.put b (some ⟨.clean, 0, data⟩) with clean := p.clean ++ [b] }
      | .updated => some { p.put b (some ⟨.dirty, 0, data⟩) with dirty := p.dirty ++ [b] }
      | _ => none

/-- A round of `flush_buffers`. -/
def flushBuffer (p : Bufpool) (b : ℕ) (buf : Buf) : Bufpool :=
  { (p.writeBuffer b buf).put b (some ⟨.clean, buf.locks, buf.data⟩) with clean := p.clean ++ [b] }

/-- The loop of `flush_buffers`; every round takes one buffer out of the dirty list. -/
def flushLoop : ℕ → Bufpool → Bufpool
  | 0, p => p
  | n + 1, p =>
    match p.dirty with
    | [] => p
    | b :: _ =>
      match p.bufs b with
      | some buf => flushLoop n (p.flushBuffer b buf)
      | none => p

def flushBuffers (p : Bufpool) : Bufpool := flushLoop p.dirty.length p

end Bufpool

/-! What a device shows through the cache. -/

namespace Bufpool

/-- The bytes of sector `s`, in its buffer or on the device. -/
def shown (p : Bufpool) (s o : ℕ) : UInt8 :=
  match p.bufs (s / p.blksPerBuffer) with
  | some buf => buf.data (s % p.blksPerBuffer * sectorSize + o)
  | none => p.dev.sector s o

/-- The state of the cache while the blocks `held` are locked. There are `size` buffers, and those in
use hold blocks of `M`. The sectors of `Z` were written, and else only sectors of such blocks. -/
structure Ok (p : Bufpool) (M Z : ℕ → Prop) (size : ℕ) (held : List ℕ) : Prop where
  bufsize : p.bufsize = sectorSize * p.blksPerBuffer
  pos : 0 < p.blksPerBuffer
  small : ∀ b, M b → (b + 1) * p.blksPerBuffer ≤ 2 ^ 32
  count : p.free + p.dirty.length + held.length = size
  clean : p.clean = []
  nodup : p.dirty.Nodup
  none_iff : ∀ b, p.bufs b = none ↔ b ∉ p.dirty ∧ b ∉ held
  dirty : ∀ b, b ∈ p.dirty → ∃ data, p.bufs b = some ⟨.dirty, 0, data⟩
  held : ∀ b, b ∈ held → ∃ state data, p.bufs b = some ⟨state, 1, data⟩ ∧
    (state = .locked ∨ state = .updated)
  only : ∀ b, p.bufs b ≠ none → M b
  writes : ∀ s, s ∈ p.dev.written → Z s ∨ M (s / p.blksPerBuffer)
  zeros : ∀ s, Z s → s ∈ p.dev.written

/-- The buffer of block `b` is locked and was changed. -/
def Updated (p : Bufpool) (b : ℕ) : Prop := ∃ data, p.bufs b = some ⟨.updated, 1, data⟩

variable {p p' : Bufpool} {M Z : ℕ → Prop} {size b s o k : ℕ} {held : List ℕ} {bytes : ℕ → UInt8}

theorem shown_none (h : p.bufs (s / p.blksPerBuffer) = none) : p.shown s o = p.dev.sector s o := by
  rw [shown, h]

theorem shown_some {buf : Buf} (h : p.bufs (s / p.blksPerBuffer) = some buf) :
    p.shown s o = buf.data (s % p.blksPerBuffer * sectorSize + o) := by
  rw [shown, h]

theorem shown_put_of_ne (buf : Option Buf) (h : s / p.blksPerBuffer ≠ b) :
    (p.put b buf).shown s o = p.shown s o := by
  simp only [shown, put, update_of_ne h]

theorem shown_put_some (buf : Buf) (h : s / p.blksPerBuffer = b) :
    (p.put b (some buf)).shown s o = buf.data (s % p.blksPerBuffer * sectorSize + o) := by
  apply shown_some
  simp only [put, h, update_self]

theorem shown_change {buf : Buf} (hbuf : p.bufs b = some buf)
    (state : BufState) (locks : ℕ) (s o : ℕ) :
    (p.put b (some ⟨state, locks, buf.data⟩)).shown s o = p.shown s o := by
  by_cases hs : s / p.blksPerBuffer = b
  · have hbuf' : p.bufs (s / p.blksPerBuffer) = some buf := by rw [hs, hbuf]
    rw [shown_put_some _ hs]
    exact (shown_some hbuf').symm
  · exact shown_put_of_ne _ hs

theorem mem_block_iff (hpos : 0 < k) : b * k ≤ s ∧ s < b * k + k ↔ s / k = b := by
  rw [Nat.div_eq_iff hpos]
  omega

theorem write_block (hsize : p.bufsize = sectorSize * p.blksPerBuffer) (hpos : 0 < p.blksPerBuffer)
    (hsmall : (b + 1) * p.blksPerBuffer ≤ 2 ^ 32) (data : ℕ → UInt8) :
    (∀ s o, (p.dev.write data p.bufsize (word (b * p.blksPerBuffer))).sector s o =
      if s / p.blksPerBuffer = b then data (s % p.blksPerBuffer * sectorSize + o)
      else p.dev.sector s o) ∧
    ∀ s, s ∈ (p.dev.write data p.bufsize (word (b * p.blksPerBuffer))).written ↔
      s / p.blksPerBuffer = b ∨ s ∈ p.dev.written := by
  have hword : word (b * p.blksPerBuffer) = b * p.blksPerBuffer := by
    rw [Nat.succ_mul] at hsmall
    exact Dfs.word_of_lt (by omega)
  have hcount : p.bufsize / sectorSize = p.blksPerBuffer := by
    rw [hsize, Nat.mul_div_cancel_left _ (by decide)]
  rw [hword, Device.write, hcount]
  refine ⟨fun s o => ?_, fun s => ?_⟩
  · dsimp only
    by_cases hs : s / p.blksPerBuffer = b
    · rw [if_pos hs, if_pos ((mem_block_iff hpos).mpr hs)]
      have hdiv := Nat.div_add_mod' s p.blksPerBuffer
      rw [hs] at hdiv
      rw [show s - b * p.blksPerBuffer = s % p.blksPerBuffer by omega]
    · rw [if_neg hs, if_neg fun hin => hs ((mem_block_iff hpos).mp hin)]
  · rw [List.mem_append, List.mem_range'_1, mem_block_iff hpos]

theorem not_dirty_of_locked {state : BufState} {data : ℕ → UInt8}
    (hdirty : ∀ b, b ∈ p.dirty → ∃ data, p.bufs b = some ⟨.dirty, 0, data⟩)
    (hbuf : p.bufs b = some ⟨state, 1, data⟩) : b ∉ p.dirty := by
  intro hin
  obtain ⟨data', heq⟩ := hdirty b hin
  rw [hbuf] at heq
  obtain ⟨-, hlocks, -⟩ := Buf.mk.inj (Option.some.inj heq)
  simp at hlocks

namespace Ok

theorem congr {held' : List ℕ} (h : p.Ok M Z size held) (hmem : ∀ b, b ∈ held' ↔ b ∈ held)
    (hlen : held'.length = held.length) : p.Ok M Z size held' := by
  refine ⟨h.bufsize, h.pos, h.small, ?_, h.clean, h.nodup, fun b => ?_, h.dirty, fun b hb => ?_, h.only,
    h.writes, h.zeros⟩
  · rw [hlen]
    exact h.count
  · rw [hmem]
    exact h.none_iff b
  · exact h.held b ((hmem b).mp hb)

theorem weaken {M' : ℕ → Prop} (h : p.Ok M Z size held) (hM : ∀ b, M b → M' b)
    (hsmall : ∀ b, M' b → (b + 1) * p.blksPerBuffer ≤ 2 ^ 32) : p.Ok M' Z size held :=
  ⟨h.bufsize, h.pos, hsmall, h.count, h.clean, h.nodup, h.none_iff, h.dirty, h.held,
    fun b hb => hM b (h.only b hb), fun s hs => (h.writes s hs).imp_right (hM _), h.zeros⟩

section
variable (h : p.Ok M Z size held)
include h

theorem word_start (hb : M b) :
    word (b * p.blksPerBuffer) = b * p.blksPerBuffer := by
  have hsmall := h.small b hb
  have hpos := h.pos
  rw [Nat.succ_mul] at hsmall
  exact Dfs.word_of_lt (by omega)

theorem sectors : p.bufsize / sectorSize = p.blksPerBuffer := by
  rw [h.bufsize, Nat.mul_div_cancel_left _ (by decide)]

theorem write_sector (hb : M b) (data : ℕ → UInt8) :
    (p.dev.write data p.bufsize (word (b * p.blksPerBuffer))).sector s o =
      if s / p.blksPerBuffer = b then data (s % p.blksPerBuffer * sectorSize + o)
      else p.dev.sector s o :=
  (write_block h.bufsize h.pos (h.small b hb) data).1 s o

theorem write_written (hb : M b) (data : ℕ → UInt8) :
    ∀ s, s ∈ (p.dev.write data p.bufsize (word (b * p.blksPerBuffer))).written →
      Z s ∨ M (s / p.blksPerBuffer) := by
  intro s hs
  rcases ((write_block h.bufsize h.pos (h.small b hb) data).2 s).mp hs with hin | hold
  · right
    rw [hin]
    exact hb
  · exact h.writes s hold

theorem not_dirty (hb : b ∈ held) : b ∉ p.dirty := by
  obtain ⟨state, data, hbuf, -⟩ := h.held b hb
  exact not_dirty_of_locked h.dirty hbuf

end

theorem getNewBuffer (h : p.Ok M Z (size + 1) held) (hcall : p.getNewBuffer = some p') :
    p'.Ok M Z size held ∧ p'.blksPerBuffer = p.blksPerBuffer ∧ p'.bufsize = p.bufsize ∧
      (∀ s o, p'.shown s o = p.shown s o) ∧ (∀ b, p.bufs b = none → p'.bufs b = none) ∧
      (0 < p.free ∨ p.dirty = [] → p'.dirty = p.dirty) := by
  rw [Bufpool.getNewBuffer] at hcall
  have hcount := h.count
  split at hcall
  · next hfree =>
    obtain rfl := Option.some.inj hcall
    refine ⟨⟨h.bufsize, h.pos, h.small, ?_, h.clean, h.nodup, h.none_iff, h.dirty, h.held, h.only,
      h.writes, h.zeros⟩, rfl, rfl, fun _ _ => rfl, fun _ hb => hb, fun _ => rfl⟩
    dsimp only
    omega
  · next hfree =>
    rw [h.clean] at hcall
    dsimp only at hcall
    split at hcall
    · simp at hcall
    · next b rest hdirty =>
      obtain ⟨buf, hbuf, rfl⟩ := Option.map_eq_some_iff.mp hcall
      have hmem : b ∈ p.dirty := by
        rw [hdirty]
        exact List.mem_cons_self
      have hM : M b := h.only b (by rw [hbuf]; simp)
      have herase : p.dirty.erase b = rest := by
        rw [hdirty, List.erase_cons_head]
      have hnodup := h.nodup
      rw [hdirty, List.nodup_cons] at hnodup
      have hheld : b ∉ held := fun hin => h.not_dirty hin hmem
      have hbufs (x : ℕ) : ((p.writeBuffer b buf).put b none).bufs x = if x = b then none else p.bufs x := by
        simp only [put, writeBuffer]
        by_cases hx : x = b
        · rw [if_pos hx, hx, update_self]
        · rw [if_neg hx, update_of_ne hx, update_of_ne hx]
      have hdirty' : ((p.writeBuffer b buf).put b none).dirty = rest := herase
      refine ⟨⟨h.bufsize, h.pos, h.small, ?_, h.clean, ?_, fun x => ?_, fun x hx => ?_, fun x hx => ?_,
        fun x hx => ?_, h.write_written hM buf.data,
        fun s hs => List.mem_append_right _ (h.zeros s hs)⟩, rfl, rfl, fun s o => ?_, fun x hx => ?_,
        fun hroom => ?_⟩
      · rw [hdirty']
        rw [hdirty, List.length_cons] at hcount
        show p.free + rest.length + held.length = size
        omega
      · rw [hdirty']
        exact hnodup.2
      · rw [hbufs, hdirty']
        split
        · next hx =>
          subst hx
          exact ⟨fun _ => ⟨hnodup.1, hheld⟩, fun _ => rfl⟩
        · next hx =>
          rw [h.none_iff, hdirty]
          simp [hx]
      · rw [hdirty'] at hx
        have hxb : x ≠ b := fun heq => hnodup.1 (heq ▸ hx)
        rw [hbufs, if_neg hxb]
        apply h.dirty
        rw [hdirty]
        exact List.mem_cons_of_mem _ hx
      · have hxb : x ≠ b := fun heq => hheld (heq ▸ hx)
        rw [hbufs, if_neg hxb]
        exact h.held x hx
      · rw [hbufs] at hx
        split at hx
        · exact absurd rfl hx
        · exact h.only x hx
      · -- what was in the buffer is on the device
        by_cases hs : s / p.blksPerBuffer = b
        · have hnone : ((p.writeBuffer b buf).put b none).bufs (s / p.blksPerBuffer) = none := by
            rw [hbufs, if_pos hs]
          rw [shown_none hnone]
          refine (h.write_sector hM buf.data).trans ?_
          rw [if_pos hs]
          exact (shown_some (by rw [hs, hbuf])).symm
        · have hsame : ((p.writeBuffer b buf).put b none).bufs (s / p.blksPerBuffer) =
              p.bufs (s / p.blksPerBuffer) := by
            rw [hbufs, if_neg hs]
          cases hx : p.bufs (s / p.blksPerBuffer) with
          | none =>
            rw [shown_none (hsame.trans hx), shown_none hx]
            refine (h.write_sector hM buf.data).trans ?_
            rw [if_neg hs]
          | some buf' =>
            rw [shown_some hx]
            exact shown_some (hsame.trans hx)
      · rw [hbufs]
        split
        · rfl
        · exact hx
      · rw [hdirty] at hroom
        simp [hfree] at hroom

section
variable (h : p.Ok M Z size held)
include h

/-- A buffer gets the one lock: a new one, a dirty one, or one that is locked and changes. -/
theorem locked {dirty locks : List ℕ} {n : ℕ} {state : BufState} {data : ℕ → UInt8}
    (hcount : p.free + dirty.length + locks.length = n) (hnodup : dirty.Nodup)
    (hst : state = .locked ∨ state = .updated) (hM : M b) (hb : b ∈ locks)
    (hdirty : ∀ x, x ∈ dirty ↔ x ≠ b ∧ x ∈ p.dirty) (hlocks : ∀ x, x ≠ b → (x ∈ locks ↔ x ∈ held)) :
    Ok { p.put b (some ⟨state, 1, data⟩) with dirty := dirty } M Z n locks := by
  refine ⟨h.bufsize, h.pos, h.small, hcount, h.clean, hnodup, fun x => ?_, fun x hx => ?_,
    fun x hx => ?_, fun x hx => ?_, h.writes, h.zeros⟩
  · show update p.bufs b _ x = none ↔ x ∉ dirty ∧ x ∉ locks
    rcases eq_or_ne x b with rfl | hne
    · simp [hb]
    · rw [update_of_ne hne, h.none_iff, hdirty, hlocks x hne]
      simp [hne]
  · obtain ⟨hne, hx⟩ := (hdirty x).mp hx
    obtain ⟨data', heq⟩ := h.dirty x hx
    exact ⟨data', (update_of_ne hne _ _).trans heq⟩
  · rcases eq_or_ne x b with rfl | hne
    · exact ⟨state, data, update_self .., hst⟩
    · obtain ⟨state', data', heq, hst'⟩ := h.held x ((hlocks x hne).mp hx)
      exact ⟨state', data', (update_of_ne hne _ _).trans heq, hst'⟩
  · rcases eq_or_ne x b with rfl | hne
    · exact hM
    · exact h.only x fun hnone => hx ((update_of_ne hne _ _).trans hnone)

theorem insert (hb : p.bufs b = none) (hM : M b) (data : ℕ → UInt8) :
    (p.put b (some ⟨.locked, 1, data⟩)).Ok M Z (size + 1) (b :: held) := by
  have hcount := h.count
  obtain ⟨hdirty, -⟩ := (h.none_iff b).mp hb
  exact h.locked (by rw [List.length_cons]; omega) h.nodup (.inl rfl) hM List.mem_cons_self
    (fun x => ⟨fun hx => ⟨fun heq => hdirty (heq ▸ hx), hx⟩, And.right⟩) fun x hne => by simp [hne]

theorem change (hb : b ∈ held) {state : BufState} (data : ℕ → UInt8)
    (hst : state = .locked ∨ state = .updated) :
    (p.put b (some ⟨state, 1, data⟩)).Ok M Z size held := by
  obtain ⟨state₀, data₀, hbuf, -⟩ := h.held b hb
  have hdirty := h.not_dirty hb
  exact h.locked h.count h.nodup hst (h.only b (by simp [hbuf])) hb
    (fun x => ⟨fun hx => ⟨fun heq => hdirty (heq ▸ hx), hx⟩, And.right⟩) fun _ _ => Iff.rfl

theorem lock {data : ℕ → UInt8} (hbuf : p.bufs b = some ⟨.dirty, 0, data⟩)
    (hb : b ∈ p.dirty) :
    Ok { p.put b (some ⟨.updated, 1, data⟩) with dirty := p.dirty.erase b } M Z size (b :: held) := by
  have hcount := h.count
  have hlen := List.length_erase_of_mem hb
  have hpos := List.length_pos_of_mem hb
  exact h.locked (by rw [List.length_cons]; omega) (h.nodup.erase b) (.inr rfl) (h.only b (by simp [hbuf]))
    List.mem_cons_self (fun x => h.nodup.mem_erase_iff) fun x hne => by simp [hne]

theorem size_of_new (hcall : p.getNewBuffer = some p') :
    ∃ k, size = k + 1 := by
  have hcount := h.count
  rw [Bufpool.getNewBuffer] at hcall
  split at hcall
  · exact ⟨size - 1, by omega⟩
  · rw [h.clean] at hcall
    dsimp only at hcall
    split at hcall
    · simp at hcall
    · next hdirty =>
      rw [hdirty, List.length_cons] at hcount
      exact ⟨size - 1, by omega⟩

theorem getBuffer (hb : b ∉ held) (hM : M b)
    (hcall : p.getBuffer b = some p') :
    p'.Ok M Z size (b :: held) ∧ p'.blksPerBuffer = p.blksPerBuffer ∧
      ∀ s o, o < sectorSize → p'.shown s o = p.shown s o := by
  rw [Bufpool.getBuffer, lookupBuffer] at hcall
  cases hbuf : p.bufs b with
  | none =>
    rw [hbuf] at hcall
    obtain ⟨p₁, hnew, rfl⟩ := Option.map_eq_some_iff.mp hcall
    obtain ⟨k, rfl⟩ := h.size_of_new hnew
    obtain ⟨h₁, hS, -, hshown, hnone, -⟩ := h.getNewBuffer hnew
    refine ⟨h₁.insert (hnone b hbuf) hM _, hS, fun s o ho => ?_⟩
    rw [← hshown]
    by_cases hs : s / p₁.blksPerBuffer = b
    · rw [shown_put_some _ hs, shown_none (by rw [hs]; exact hnone b hbuf), h₁.word_start hM]
      dsimp only [Device.read]
      have hdiv := Nat.div_add_mod' s p₁.blksPerBuffer
      rw [hs] at hdiv
      have hsector : (s % p₁.blksPerBuffer * sectorSize + o) / sectorSize = s % p₁.blksPerBuffer := by
        rw [Nat.add_comm, Nat.add_mul_div_right _ _ (by decide), Nat.div_eq_of_lt ho, Nat.zero_add]
      have hoffset : (s % p₁.blksPerBuffer * sectorSize + o) % sectorSize = o := by
        rw [Nat.add_comm, Nat.add_mul_mod_self_right, Nat.mod_eq_of_lt ho]
      rw [hsector, hoffset, hdiv]
    · exact shown_put_of_ne _ hs
  | some buf =>
    have hmem : b ∈ p.dirty := by
      by_contra hno
      rw [(h.none_iff b).mpr ⟨hno, hb⟩] at hbuf
      simp at hbuf
    obtain ⟨data, heq⟩ := h.dirty b hmem
    rw [heq] at hcall
    obtain rfl := Option.some.inj hcall
    exact ⟨h.lock heq hmem, rfl, fun s o _ => shown_change heq .updated 1 s o⟩

theorem shown_held (hb : b ∈ held) (hs : s / p.blksPerBuffer = b) (o : ℕ) :
    p.shown s o = p.data b (s % p.blksPerBuffer * sectorSize + o) := by
  obtain ⟨state, data, hbuf, -⟩ := h.held b hb
  have hbuf' : p.bufs (s / p.blksPerBuffer) = some ⟨state, 1, data⟩ := by rw [hs, hbuf]
  rw [shown_some hbuf', Bufpool.data, hbuf]

theorem setData (hb : b ∈ held) (bytes : ℕ → UInt8) :
    (p.setData b bytes).Ok M Z size held ∧ (p.setData b bytes).dirty = p.dirty ∧
      (p.setData b bytes).blksPerBuffer = p.blksPerBuffer ∧
      (∀ s o, (p.setData b bytes).shown s o = if s / p.blksPerBuffer = b then
        bytes (s % p.blksPerBuffer * sectorSize + o) else p.shown s o) ∧
      ∀ x, p.Updated x → (p.setData b bytes).Updated x := by
  obtain ⟨state, data, hbuf, hst⟩ := h.held b hb
  have hset : p.setData b bytes = p.put b (some ⟨state, 1, bytes⟩) := by
    rw [Bufpool.setData, hbuf]
  rw [hset]
  refine ⟨h.change hb bytes hst, rfl, rfl, fun s o => ?_, fun x hx => ?_⟩
  · split
    · next hs => rw [shown_put_some _ hs]
    · next hs => exact shown_put_of_ne _ hs
  · obtain ⟨data', hx⟩ := hx
    rcases eq_or_ne x b with rfl | hne
    · rw [hbuf] at hx
      obtain ⟨rfl, -, -⟩ := Buf.mk.inj (Option.some.inj hx)
      exact ⟨bytes, update_self ..⟩
    · exact ⟨data', (update_of_ne hne _ _).trans hx⟩

theorem markUpdated (hb : b ∈ held) :
    (p.markUpdated b).Ok M Z size held ∧ (p.markUpdated b).dirty = p.dirty ∧
      (p.markUpdated b).blksPerBuffer = p.blksPerBuffer ∧
      (∀ s o, (p.markUpdated b).shown s o = p.shown s o) ∧ (p.markUpdated b).Updated b ∧
      ∀ x, p.Updated x → (p.markUpdated b).Updated x := by
  obtain ⟨state, data, hbuf, rfl | rfl⟩ := h.held b hb
  · have hmark : p.markUpdated b = p.put b (some ⟨.updated, 1, data⟩) := by
      rw [Bufpool.markUpdated, hbuf]
    rw [hmark]
    refine ⟨h.change hb data (.inr rfl), rfl, rfl, fun s o => shown_change hbuf .updated 1 s o,
      ⟨data, update_self ..⟩, fun x hx => ?_⟩
    rcases eq_or_ne x b with rfl | hne
    · exact ⟨data, update_self ..⟩
    · obtain ⟨data', hx⟩ := hx
      exact ⟨data', (update_of_ne hne _ _).trans hx⟩
  · have hmark : p.markUpdated b = p := by
      rw [Bufpool.markUpdated, hbuf]
    rw [hmark]
    exact ⟨h, rfl, rfl, fun _ _ => rfl, ⟨data, hbuf⟩, fun _ hx => hx⟩

theorem allocBuffer (hb : b ∉ held) (hM : M b)
    (hcall : p.allocBuffer b = some p') :
    p'.Ok M Z size (b :: held) ∧ p'.blksPerBuffer = p.blksPerBuffer ∧
      (∀ s o, p'.shown s o = if s / p.blksPerBuffer = b then 0 else p.shown s o) ∧
      (p'.data b = fun _ => 0) ∧
      (b ∉ p.dirty → 0 < p.free ∨ p.dirty = [] → p'.dirty = p.dirty) := by
  rw [Bufpool.allocBuffer, lookupBuffer] at hcall
  cases hbuf : p.bufs b with
  | none =>
    rw [hbuf] at hcall
    obtain ⟨p₁, hnew, rfl⟩ := Option.map_eq_some_iff.mp hcall
    obtain ⟨k, rfl⟩ := h.size_of_new hnew
    obtain ⟨h₁, hS, -, hshown, hnone, hdirty⟩ := h.getNewBuffer hnew
    refine ⟨h₁.insert (hnone b hbuf) hM _, hS, fun s o => ?_, ?_, fun _ hfree => hdirty hfree⟩
    · rw [← hshown, ← hS]
      split
      · next hs => rw [shown_put_some _ hs]
      · next hs => exact shown_put_of_ne _ hs
    · simp only [Bufpool.data, put, update_self]
  | some buf =>
    have hmem : b ∈ p.dirty := by
      by_contra hno
      rw [(h.none_iff b).mpr ⟨hno, hb⟩] at hbuf
      simp at hbuf
    obtain ⟨data, heq⟩ := h.dirty b hmem
    rw [heq] at hcall
    obtain rfl := Option.some.inj hcall
    obtain ⟨h', -, hS, hshown, -⟩ :=
      (h.lock heq hmem).setData (List.mem_cons_self : b ∈ b :: held) fun _ => 0
    refine ⟨h', hS, fun s o => (hshown s o).trans ?_, ?_, fun hno => absurd hmem hno⟩
    · show (if s / p.blksPerBuffer = b then 0 else _) = _
      split
      · rfl
      · exact shown_change heq .updated 1 s o
    · simp only [Bufpool.setData, Bufpool.data, put, update_self]

end

theorem releaseBuffer (h : p.Ok M Z size (b :: held)) (hb : b ∉ held) (hupdated : p.Updated b) :
    ∃ p', p.releaseBuffer b = some p' ∧ p'.Ok M Z size held ∧ p'.dirty = p.dirty ++ [b] ∧
      p'.blksPerBuffer = p.blksPerBuffer ∧ ∀ s o, p'.shown s o = p.shown s o := by
  obtain ⟨data, hbuf⟩ := hupdated
  have hcount := h.count
  have hdirty := h.not_dirty (List.mem_cons_self : b ∈ b :: held)
  refine ⟨{ p.put b (some ⟨.dirty, 0, data⟩) with dirty := p.dirty ++ [b] }, ?_, ?_, rfl, rfl,
    fun s o => shown_change hbuf .dirty 0 s o⟩
  · rw [Bufpool.releaseBuffer, hbuf]
    rfl
  refine ⟨h.bufsize, h.pos, h.small, ?_, h.clean, ?_, fun x => ?_, fun x hx => ?_, fun x hx => ?_,
    fun x hx => ?_, h.writes, h.zeros⟩
  · rw [List.length_cons] at hcount
    show p.free + (p.dirty ++ [b]).length + held.length = size
    rw [List.length_append, List.length_singleton]
    omega
  · refine List.nodup_append.mpr ⟨h.nodup, List.pairwise_singleton _ b, fun x hx y hy heq => ?_⟩
    obtain rfl := List.mem_singleton.mp hy
    exact hdirty (heq ▸ hx)
  · show update p.bufs b _ x = none ↔ x ∉ p.dirty ++ [b] ∧ x ∉ held
    rcases eq_or_ne x b with rfl | hne
    · simp
    · rw [update_of_ne hne, h.none_iff]
      simp [hne]
  · rcases List.mem_append.mp hx with hx | hx
    · have hne : x ≠ b := fun heq => hdirty (heq ▸ hx)
      obtain ⟨data', heq⟩ := h.dirty x hx
      exact ⟨data', (update_of_ne hne _ _).trans heq⟩
    · obtain rfl := List.mem_singleton.mp hx
      exact ⟨data, update_self ..⟩
  · have hne : x ≠ b := fun heq => hb (heq ▸ hx)
    obtain ⟨state, data', heq, hst⟩ := h.held x (List.mem_cons_of_mem _ hx)
    exact ⟨state, data', (update_of_ne hne _ _).trans heq, hst⟩
  · rcases eq_or_ne x b with rfl | hne
    · exact h.only x (by rw [hbuf]; simp)
    · have hsame : (p.put b (some ⟨.dirty, 0, data⟩)).bufs x = p.bufs x :=
        update_of_ne hne _ _
      exact h.only x fun hnone => hx (hsame.trans hnone)

theorem rewrite (h : p.Ok M Z size (b :: held)) (hb : b ∉ held) (bytes : ℕ → UInt8) :
    ∃ p', ((p.setData b bytes).markUpdated b).releaseBuffer b = some p' ∧ p'.Ok M Z size held ∧
      p'.dirty = p.dirty ++ [b] ∧ p'.blksPerBuffer = p.blksPerBuffer ∧
      ∀ s o, p'.shown s o = if s / p.blksPerBuffer = b then
        bytes (s % p.blksPerBuffer * sectorSize + o) else p.shown s o := by
  have hmem : b ∈ b :: held := List.mem_cons_self
  obtain ⟨h₁, hdirty₁, hspb₁, hshown₁, -⟩ := h.setData hmem bytes
  obtain ⟨h₂, hdirty₂, hspb₂, hshown₂, hupdated, -⟩ := h₁.markUpdated hmem
  obtain ⟨p', hcall, h', hdirty', hspb', hshown'⟩ := h₂.releaseBuffer hb hupdated
  refine ⟨p', hcall, h', ?_, hspb'.trans (hspb₂.trans hspb₁), fun s o => ?_⟩
  · rw [hdirty', hdirty₂, hdirty₁]
  · rw [hshown', hshown₂, hshown₁]

end Ok

/-- The cache while the file system is closed: the blocks `held` are still locked, and all other cached blocks
outside `G` are dirty. -/
structure Draining (p : Bufpool) (M Z G : ℕ → Prop) (held : List ℕ) : Prop where
  bufsize : p.bufsize = sectorSize * p.blksPerBuffer
  pos : 0 < p.blksPerBuffer
  small : ∀ b, M b → (b + 1) * p.blksPerBuffer ≤ 2 ^ 32
  nodup : p.dirty.Nodup
  dirty : ∀ b, b ∈ p.dirty → ∃ data, p.bufs b = some ⟨.dirty, 0, data⟩
  held : ∀ b, b ∈ held → ∃ state data, p.bufs b = some ⟨state, 1, data⟩ ∧
    (state = .locked ∨ state = .updated)
  rest : ∀ b, p.bufs b ≠ none → b ∈ p.dirty ∨ G b
  only : ∀ b, p.bufs b ≠ none → M b
  writes : ∀ s, s ∈ p.dev.written → Z s ∨ M (s / p.blksPerBuffer)
  zeros : ∀ s, Z s → s ∈ p.dev.written

theorem Ok.draining {G : ℕ → Prop} (h : p.Ok M Z size held) (hG : ∀ b, b ∈ held → G b) :
    p.Draining M Z G held := by
  refine ⟨h.bufsize, h.pos, h.small, h.nodup, h.dirty, h.held, fun b hb => ?_, h.only, h.writes, h.zeros⟩
  by_contra hno
  obtain ⟨hdirty, hnot⟩ := not_or.mp hno
  exact hb ((h.none_iff b).mpr ⟨hdirty, fun hin => hnot (hG b hin)⟩)

namespace Draining
variable {G : ℕ → Prop}

theorem not_dirty (h : p.Draining M Z G held) (hb : b ∈ held) : b ∉ p.dirty := by
  obtain ⟨state, data, hbuf, -⟩ := h.held b hb
  exact not_dirty_of_locked h.dirty hbuf

theorem release (h : p.Draining M Z G (b :: held)) (hb : b ∉ held) (hG : G b) :
    ∃ p', p.releaseBuffer b = some p' ∧ p'.Draining M Z G held ∧ p'.dev = p.dev ∧
      p'.blksPerBuffer = p.blksPerBuffer ∧ ∀ s o, p'.shown s o = p.shown s o := by
  have hmem : b ∈ b :: held := List.mem_cons_self
  have hdirty := h.not_dirty hmem
  obtain ⟨state, data, hbuf, hst⟩ := h.held b hmem
  have hM : M b := h.only b (by rw [hbuf]; simp)
  -- the other blocks are as before
  have hrest (state : BufState) (x : ℕ) (hx : x ∈ held) :
      ∃ state' data', (p.put b (some ⟨state, 0, data⟩)).bufs x = some ⟨state', 1, data'⟩ ∧
        (state' = .locked ∨ state' = .updated) := by
    have hne : x ≠ b := fun heq => hb (heq ▸ hx)
    obtain ⟨state', data', heq, hst'⟩ := h.held x (List.mem_cons_of_mem _ hx)
    exact ⟨state', data', (update_of_ne hne _ _).trans heq, hst'⟩
  have honly (state : BufState) (x : ℕ) (hx : (p.put b (some ⟨state, 0, data⟩)).bufs x ≠ none) : M x := by
    rcases eq_or_ne x b with rfl | hne
    · exact hM
    · exact h.only x fun hnone => hx ((update_of_ne hne _ _).trans hnone)
  have hkeep (state : BufState) {x : ℕ} (hx : x ∈ p.dirty) :
      ∃ data', (p.put b (some ⟨state, 0, data⟩)).bufs x = some ⟨.dirty, 0, data'⟩ := by
    have hne : x ≠ b := fun heq => hdirty (heq ▸ hx)
    obtain ⟨data', heq⟩ := h.dirty x hx
    exact ⟨data', (update_of_ne hne _ _).trans heq⟩
  have hcached (state : BufState) {x : ℕ} (hne : x ≠ b)
      (hx : (p.put b (some ⟨state, 0, data⟩)).bufs x ≠ none) : x ∈ p.dirty ∨ G x :=
    h.rest x fun hnone => hx ((update_of_ne hne _ _).trans hnone)
  rcases hst with rfl | rfl
  · refine ⟨{ p.put b (some ⟨.clean, 0, data⟩) with clean := p.clean ++ [b] }, ?_,
      ⟨h.bufsize, h.pos, h.small, h.nodup, fun x hx => hkeep .clean hx, hrest .clean, fun x hx => ?_,
        honly .clean, h.writes, h.zeros⟩, rfl, rfl, fun s o => shown_change hbuf .clean 0 s o⟩
    · rw [Bufpool.releaseBuffer, hbuf]
      rfl
    · rcases eq_or_ne x b with rfl | hne
      · exact .inr hG
      · exact hcached .clean hne hx
  · refine ⟨{ p.put b (some ⟨.dirty, 0, data⟩) with dirty := p.dirty ++ [b] }, ?_,
      ⟨h.bufsize, h.pos, h.small, ?_, fun x hx => ?_, hrest .dirty, fun x hx => ?_, honly .dirty,
        h.writes, h.zeros⟩, rfl, rfl, fun s o => shown_change hbuf .dirty 0 s o⟩
    · rw [Bufpool.releaseBuffer, hbuf]
      rfl
    · refine List.nodup_append.mpr ⟨h.nodup, List.pairwise_singleton _ b, fun x hx y hy heq => ?_⟩
      obtain rfl := List.mem_singleton.mp hy
      exact hdirty (heq ▸ hx)
    · rcases List.mem_append.mp hx with hx | hx
      · exact hkeep .dirty hx
      · obtain rfl := List.mem_singleton.mp hx
        exact ⟨data, update_self ..⟩
    · rcases eq_or_ne x b with rfl | hne
      · exact .inr hG
      · exact (hcached .dirty hne hx).imp_left fun hx => List.mem_append_left _ hx

end Draining

/-- While the dirty buffers are written: outside `G` all other sectors on the device are what the
cache shows. -/
structure Flushing (p : Bufpool) (M Z G : ℕ → Prop) : Prop where
  bufsize : p.bufsize = sectorSize * p.blksPerBuffer
  pos : 0 < p.blksPerBuffer
  small : ∀ b, M b → (b + 1) * p.blksPerBuffer ≤ 2 ^ 32
  nodup : p.dirty.Nodup
  dirty : ∀ b, b ∈ p.dirty → M b ∧ ∃ data, p.bufs b = some ⟨.dirty, 0, data⟩
  synced : ∀ s o, ¬ G (s / p.blksPerBuffer) → s / p.blksPerBuffer ∉ p.dirty →
    p.dev.sector s o = p.shown s o
  writes : ∀ s, s ∈ p.dev.written → Z s ∨ M (s / p.blksPerBuffer)
  zeros : ∀ s, Z s → s ∈ p.dev.written

theorem Draining.flushing {G : ℕ → Prop} (h : p.Draining M Z G []) : p.Flushing M Z G := by
  refine ⟨h.bufsize, h.pos, h.small, h.nodup, fun b hb => ?_, fun s o hG hno => ?_, h.writes, h.zeros⟩
  · obtain ⟨data, hbuf⟩ := h.dirty b hb
    exact ⟨h.only b (by rw [hbuf]; simp), data, hbuf⟩
  · by_cases hnone : p.bufs (s / p.blksPerBuffer) = none
    · exact (shown_none hnone).symm
    · exact ((h.rest _ hnone).elim hno hG).elim

theorem Flushing.step {G : ℕ → Prop} {rest : List ℕ} (h : p.Flushing M Z G)
    (hdirty : p.dirty = b :: rest) :
    ∃ buf, p.bufs b = some buf ∧ (p.flushBuffer b buf).Flushing M Z G ∧
      (p.flushBuffer b buf).dirty = rest ∧ ∀ s o, (p.flushBuffer b buf).shown s o = p.shown s o := by
  have hmem : b ∈ p.dirty := by
    rw [hdirty]
    exact List.mem_cons_self
  obtain ⟨hM, data, hbuf⟩ := h.dirty b hmem
  have hnodup := h.nodup
  rw [hdirty, List.nodup_cons] at hnodup
  obtain ⟨hsector, hwritten⟩ := write_block h.bufsize h.pos (h.small b hM) data
  have hrest : (p.flushBuffer b ⟨.dirty, 0, data⟩).dirty = rest := by
    show p.dirty.erase b = rest
    rw [hdirty, List.erase_cons_head]
  have hbufs (x : ℕ) : (p.flushBuffer b ⟨.dirty, 0, data⟩).bufs x =
      if x = b then some ⟨.clean, 0, data⟩ else p.bufs x := by
    simp only [flushBuffer, writeBuffer, put]
    by_cases hx : x = b
    · rw [if_pos hx, hx, update_self]
    · rw [if_neg hx, update_of_ne hx, update_of_ne hx]
  have hshown (s o : ℕ) : (p.flushBuffer b ⟨.dirty, 0, data⟩).shown s o = p.shown s o := by
    have hx := hbufs (s / p.blksPerBuffer)
    by_cases hs : s / p.blksPerBuffer = b
    · rw [if_pos hs] at hx
      have hclean := shown_some (o := o) hx
      rw [shown_some (show p.bufs (s / p.blksPerBuffer) = _ by rw [hs, hbuf])]
      exact hclean
    · rw [if_neg hs] at hx
      cases hcase : p.bufs (s / p.blksPerBuffer) with
      | none =>
        rw [shown_none hcase]
        exact (shown_none (hx.trans hcase)).trans ((hsector s o).trans (if_neg hs))
      | some buf =>
        rw [shown_some hcase]
        exact shown_some (hx.trans hcase)
  refine ⟨_, hbuf, ⟨h.bufsize, h.pos, h.small, ?_, fun x hx => ?_, fun s o hG hno => ?_, fun s hs => ?_,
    fun s hs => List.mem_append_right _ (h.zeros s hs)⟩, hrest, hshown⟩
  · rw [hrest]
    exact hnodup.2
  · rw [hrest] at hx
    have hne : x ≠ b := fun heq => hnodup.1 (heq ▸ hx)
    rw [hbufs, if_neg hne]
    apply h.dirty
    rw [hdirty]
    exact List.mem_cons_of_mem _ hx
  · rw [hrest] at hno
    rw [hshown]
    refine (hsector s o).trans ?_
    split
    · next hs => exact (shown_some (show p.bufs (s / p.blksPerBuffer) = _ by rw [hs, hbuf])).symm
    · next hs =>
      apply h.synced s o hG
      rw [hdirty, List.mem_cons]
      exact not_or.mpr ⟨hs, hno⟩
  · rcases (hwritten s).mp hs with hin | hold
    · right
      show M (s / p.blksPerBuffer)
      rw [hin]
      exact hM
    · exact h.writes s hold

theorem Flushing.flushLoop {G : ℕ → Prop} {n : ℕ} (h : p.Flushing M Z G) (hn : p.dirty.length ≤ n) :
    (∀ s o, ¬ G (s / p.blksPerBuffer) → (flushLoop n p).dev.sector s o = p.shown s o) ∧
      (∀ s, s ∈ (flushLoop n p).dev.written → Z s ∨ M (s / p.blksPerBuffer)) ∧
      ∀ s, Z s → s ∈ (flushLoop n p).dev.written := by
  induction n generalizing p with
  | zero =>
    have hnil := List.length_eq_zero_iff.mp (Nat.le_zero.mp hn)
    refine ⟨fun s o hG => h.synced s o hG ?_, h.writes, h.zeros⟩
    rw [hnil]
    exact List.not_mem_nil
  | succ n ih =>
    rw [Bufpool.flushLoop]
    cases hdirty : p.dirty with
    | nil =>
      refine ⟨fun s o hG => h.synced s o hG ?_, h.writes, h.zeros⟩
      rw [hdirty]
      exact List.not_mem_nil
    | cons b rest =>
      obtain ⟨buf, hbuf, h', hrest, hshown⟩ := h.step hdirty
      dsimp only
      rw [hbuf]
      rw [hdirty, List.length_cons] at hn
      obtain ⟨hsector, hwritten, hzeros⟩ := ih h' (by rw [hrest]; omega)
      exact ⟨fun s o hG => (hsector s o hG).trans (hshown s o), hwritten, hzeros⟩

end Bufpool

end SimpleKernel.Mkdfs
