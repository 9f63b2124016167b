import Mathlib.Algebra.Group.Nat.Defs
import Mathlib.Algebra.Group.Int.Defs
import Mathlib.Tactic.Common
import SimpleKernel.Lib.Chain
import SimpleKernel.Lib.Transition

/-! The kernel heap (`krnl/kmalloc.c`). Blocks of up to half a page are chunks of a page of a bucket, larger ones
are whole pages. The free chunks of a bucket are linked through their first word; the bucket of a page is in its
page frame only. -/
namespace SimpleKernel.Kmalloc
open LinkedList Transition
open Function (update update_of_ne update_self)

def pageSize : ℕ := 4096

def pageShift : ℕ := 12

/-- `log2`. -/
def log2Table : List ℕ :=
  List.replicate 16 4 ++ List.replicate 16 5 ++ List.replicate 32 6 ++ List.replicate 64 7 ++
    List.replicate 128 8 ++ List.replicate 256 9 ++ List.replicate 512 10 ++ List.replicate 1024 11

/-- `BUCKET`. -/
def bucketOf (n : ℕ) : ℕ := log2Table.getD (n - 1) 0

/-- `PAGES`. -/
def pagesOf (size : ℕ) : ℕ := (size + (pageSize - 1)) / pageSize

/-- `struct bucket`. A null pointer is 0. -/
structure Bucket where
  mem : ℕ
  pages : ℕ
  size : ℕ

/-- The allocator that a block comes from or goes back to. -/
inductive Source where
  | bucket (i : ℕ)
  | pages (n : ℕ)
  deriving DecidableEq, Repr

/-- A block that was allocated and not yet freed. -/
structure Block where
  addr : ℕ
  size : ℕ
  source : Source
  deriving DecidableEq, Repr

def Source.extent : Source → ℕ
  | .bucket i => 2 ^ i
  | .pages n => pageSize * n

/-- `word a` is the pointer at address `a`, `size p` the field `size` in the page frame of the page `p`. `live` and
`split` are history: the blocks in use, and the pages that were split into chunks. -/
structure Heap where
  word : ℕ → ℕ
  size : ℕ → ℕ
  buckets : ℕ → Bucket
  live : List Block
  split : ℕ → Bool

/-- `kmalloc size p`: `p` is the page that `alloc_pages` returns, if it is called. `write m`: the
memory that is not on a free list changes to `m`. -/
inductive Label where
  | kmalloc (size p : ℕ)
  | kfree (addr : ℕ)
  | write (m : ℕ → ℕ)

namespace Heap

def setBucket (s : Heap) (i : ℕ) (b : Bucket) : Heap :=
  { s with buckets := update s.buckets i b }

/-- `*(void **) addr = b->mem; b->mem = addr`. -/
def push (s : Heap) (i addr : ℕ) : Heap :=
  { s with word := update s.word addr (s.buckets i).mem }.setBucket i
    { s.buckets i with mem := addr }

/-- The loop that splits the page at address `p` into chunks, from offset `j` on. -/
def splitPage (i p : ℕ) : ℕ → ℕ → Heap → Heap
  | 0, _, s => s
  | n + 1, j, s =>
    if j < pageSize then splitPage i p n (j + (s.buckets i).size) (s.push i (p + j)) else s

/-- One more page for the bucket `i`. -/
def refill (s : Heap) (i p : ℕ) : Heap :=
  let s := { s with size := update s.size p i, split := update s.split p true }
  let s := s.splitPage i (pageSize * p) pageSize 0
  s.setBucket i { s.buckets i with pages := (s.buckets i).pages + 1 }

/-- The first chunk of the bucket `i` is taken for a block of `size` bytes. -/
def takeChunk (s : Heap) (i size : ℕ) : Heap :=
  let addr := (s.buckets i).mem
  { s.setBucket i { s.buckets i with mem := s.word addr } with
    live := ⟨addr, size, .bucket i⟩ :: s.live }

/-- `kmalloc_tag`. -/
def kmalloc (s : Heap) (size p : ℕ) : Heap :=
  if pageSize / 2 < size then
    { s with
      size := update s.size p (pagesOf size + pageShift)
      live := ⟨pageSize * p, size, .pages (pagesOf size)⟩ :: s.live }
  else
    let i := bucketOf size
    (if (s.buckets i).mem = 0 then s.refill i p else s).takeChunk i size

/-- Where `kfree` returns the block at `addr` to. -/
def origin (s : Heap) (addr : ℕ) : Source :=
  let bucket := s.size (addr / pageSize)
  if pageShift ≤ bucket then .pages (bucket - pageShift) else .bucket bucket

/-- `kfree` of a live block. -/
def kfree (s : Heap) (addr : ℕ) : Heap :=
  let s' := { s with live := s.live.eraseP fun b => b.addr = addr }
  match s.origin addr with
  | .pages _ => s'
  | .bucket i => s'.push i addr

/-- A word at `a` has a byte in the block. -/
def Touches (b : Block) (a : ℕ) : Prop := a < b.addr + b.source.extent ∧ b.addr < a + 4

instance (b : Block) (a : ℕ) : Decidable (Touches b a) := inferInstanceAs (Decidable (_ ∧ _))

/-- Blocks in use and pages that were not split may be written to. -/
def write (s : Heap) (m : ℕ → ℕ) : Heap :=
  { s with word := fun a =>
      if s.split (a / pageSize) = false ∨ ∃ b ∈ s.live, Touches b a then m a else s.word a }

def step (s : Heap) : Label → Option Heap
  | .kmalloc size p => some (s.kmalloc size p)
  | .kfree addr => if ∃ b ∈ s.live, b.addr = addr then some (s.kfree addr) else none
  | .write m => some (s.write m)

/-- `alloc_pages` is called for `n` pages. -/
def Wants (s : Heap) (size n : ℕ) : Prop :=
  pageSize / 2 < size ∧ n = pagesOf size ∨
    ¬pageSize / 2 < size ∧ n = 1 ∧ (s.buckets (bucketOf size)).mem = 0

/-- The page `q` is in use by the heap. -/
def InUse (s : Heap) (q : ℕ) : Prop :=
  s.split q = true ∨ ∃ b ∈ s.live, ∃ n, b.source = .pages n ∧
    b.addr ≤ pageSize * q ∧ pageSize * q < b.addr + pageSize * n

/-- Sizes are positive, and `alloc_pages` returns pages that are not in use. -/
def Served (s : Heap) : Label → Prop
  | .kmalloc size p => 1 ≤ size ∧ ∀ n, s.Wants size n →
      0 < p ∧ ∀ q, p ≤ q → q < p + n → ¬s.InUse q
  | _ => True

/-- The chunk after `c` on its free list. -/
def nextChunk (s : Heap) (c : ℕ) : Option ℕ := if s.word c = 0 then none else some (s.word c)

def firstChunk (s : Heap) (i : ℕ) : Option ℕ :=
  if (s.buckets i).mem = 0 then none else some (s.buckets i).mem

end Heap

/-- Two ranges of addresses do not overlap. -/
def Apart (a n b m : ℕ) : Prop := a + n ≤ b ∨ b + m ≤ a

def initMalloc (word size : ℕ → ℕ) : Heap where
  word := word
  size := size
  buckets := fun i => ⟨0, 0, 2 ^ i⟩
  live := []
  split := fun _ => false

theorem bucketOf_spec {n : ℕ} (h1 : 1 ≤ n) (h2 : n ≤ pageSize / 2) :
    n ≤ 2 ^ bucketOf n ∧ 4 ≤ bucketOf n ∧ bucketOf n < pageShift := by
  simp only [pageSize] at h2
  simp only [bucketOf, log2Table, List.getD_eq_getElem?_getD, List.getElem?_append,
    List.length_append, List.length_replicate, List.getElem?_replicate, pageShift]
  split_ifs <;> simp <;> omega

namespace Heap
variable {s s' : Heap} {fl : ℕ → List ℕ} {i c : ℕ}

/-- `c` is a chunk of the bucket `i`. -/
structure Chunk (s : Heap) (i c : ℕ) : Prop where
  split : s.split (c / pageSize) = true
  size : s.size (c / pageSize) = i
  aligned : 2 ^ i ∣ c

theorem Chunk.congr (hc : s.Chunk i c) (hsplit : s'.split (c / pageSize) = s.split (c / pageSize))
    (hsize : s'.size (c / pageSize) = s.size (c / pageSize)) : s'.Chunk i c :=
  ⟨hsplit.trans hc.split, hsize.trans hc.size, hc.aligned⟩

/-- The free chunks of bucket `i` are `fl i`. -/
structure Inv (s : Heap) (fl : ℕ → List ℕ) : Prop where
  sizes : ∀ i, (s.buckets i).size = 2 ^ i
  chain : ∀ i, Chain s.nextChunk (s.firstChunk i) (fl i)
  free : ∀ i, ∀ c ∈ fl i, s.Chunk i c ∧ ∀ b ∈ s.live, b.addr ≠ c
  page : ∀ q, s.split q = true → 0 < q ∧ 4 ≤ s.size q ∧ s.size q < pageShift
  small : ∀ b ∈ s.live, ∀ i, b.source = .bucket i → s.Chunk i b.addr ∧ b.size ≤ 2 ^ i
  large : ∀ b ∈ s.live, ∀ n, b.source = .pages n → 0 < n ∧ b.size ≤ pageSize * n ∧
    ∃ p, b.addr = pageSize * p ∧ s.size p = n + pageShift ∧
      ∀ q, p ≤ q → q < p + n → s.split q = false
  apart : s.live.Pairwise fun a b => Apart a.addr a.source.extent b.addr b.source.extent

theorem inv_initMalloc (word size : ℕ → ℕ) : (initMalloc word size).Inv fun _ => [] := by
  constructor <;> simp [initMalloc, Chain, firstChunk]

theorem fits {i c : ℕ} (hi : i < pageShift) (h : 2 ^ i ∣ c) :
    c + 2 ^ i ≤ pageSize * (c / pageSize + 1) := by
  have hpage : 2 ^ i ∣ pageSize := by
    change 2 ^ i ∣ 2 ^ 12
    exact Nat.pow_dvd_pow 2 (by simp only [pageShift] at hi; omega)
  have hlt : c < pageSize * (c / pageSize + 1) := by
    simp only [pageSize]
    omega
  have hdvd : 2 ^ i ∣ pageSize * (c / pageSize + 1) - c :=
    Nat.dvd_sub (Nat.dvd_mul_right_of_dvd hpage _) h
  have := Nat.le_of_dvd (by omega) hdvd
  omega

theorem Chunk.fits (hc : s.Chunk i c) (h : s.Inv fl) :
    pageSize * (c / pageSize) ≤ c ∧ c + 2 ^ i ≤ pageSize * (c / pageSize + 1) := by
  refine ⟨Nat.mul_div_le c pageSize, Heap.fits ?_ hc.aligned⟩
  rw [← hc.size]
  exact (h.page _ hc.split).2.2

theorem Chunk.apart {j d : ℕ} (hc : s.Chunk i c) (hd : s.Chunk j d) (h : s.Inv fl) (hne : c ≠ d) :
    Apart c (2 ^ i) d (2 ^ j) := by
  have hcf := hc.fits h
  have hdf := hd.fits h
  unfold Apart
  rcases Nat.lt_trichotomy (c / pageSize) (d / pageSize) with hlt | heq | hlt
  · simp only [pageSize] at *
    omega
  · obtain rfl : i = j := by rw [← hc.size, ← hd.size, heq]
    rcases Nat.lt_or_gt_of_ne hne with hlt | hlt
    · have := Nat.le_of_dvd (by omega) (Nat.dvd_sub hd.aligned hc.aligned)
      omega
    · have := Nat.le_of_dvd (by omega) (Nat.dvd_sub hc.aligned hd.aligned)
      omega
  · simp only [pageSize] at *
    omega

theorem Chunk.apart_pages {p n : ℕ} (hc : s.Chunk i c) (h : s.Inv fl)
    (hp : ∀ q, p ≤ q → q < p + n → s.split q = false) :
    Apart c (2 ^ i) (pageSize * p) (pageSize * n) := by
  have hcf := hc.fits h
  have hout : c / pageSize < p ∨ p + n ≤ c / pageSize := by
    by_contra hin
    have := hp (c / pageSize) (by omega) (by omega)
    rw [hc.split] at this
    exact absurd this (by decide)
  unfold Apart
  simp only [pageSize] at *
  omega

theorem Inv.free_apart (h : s.Inv fl) (hc : c ∈ fl i) {b : Block} (hb : b ∈ s.live) :
    Apart c (2 ^ i) b.addr b.source.extent := by
  obtain ⟨hchunk, hlive⟩ := h.free i c hc
  cases hs : b.source with
  | bucket j => exact hchunk.apart (h.small b hb j hs).1 h (hlive b hb).symm
  | pages n =>
    obtain ⟨-, -, p, haddr, -, hout⟩ := h.large b hb n hs
    rw [haddr]
    exact hchunk.apart_pages h hout

theorem Chunk.ne_zero (hc : s.Chunk i c) (h : s.Inv fl) : c ≠ 0 := by
  rintro rfl
  have := (h.page _ hc.split).1
  simp at this

theorem Chunk.not_mem {j : ℕ} (hc : s.Chunk i c) (h : s.Inv fl) (hj : j ≠ i) : c ∉ fl j := by
  intro hm
  exact hj ((h.free j c hm).1.size.symm.trans hc.size)

theorem Inv.push (h : s.Inv fl) (hc : s.Chunk i c) (hnew : c ∉ fl i)
    (hlive : ∀ b ∈ s.live, b.addr ≠ c) :
    (s.push i c).Inv (update fl i (c :: fl i)) := by
  have hmem (j : ℕ) : c ∉ fl j := by
    rcases eq_or_ne j i with rfl | hj
    · exact hnew
    · exact hc.not_mem h hj
  have hword (j a : ℕ) (ha : a ∈ fl j) : (s.push i c).nextChunk a = s.nextChunk a := by
    have hne : a ≠ c := fun e => hmem j (e ▸ ha)
    simp [nextChunk, Heap.push, setBucket, hne]
  refine ⟨fun j => ?_, fun j => ?_, fun j a ha => ?_, h.page, fun b hb j hj => ?_, h.large, h.apart⟩
  · rcases eq_or_ne j i with rfl | hj
    · simpa [Heap.push, setBucket] using h.sizes j
    · simpa [Heap.push, setBucket, hj] using h.sizes j
  · rcases eq_or_ne j i with rfl | hj
    · rw [update_self]
      refine ⟨by simp [firstChunk, Heap.push, setBucket, hc.ne_zero h], ?_⟩
      have hnext : (s.push j c).nextChunk c = s.firstChunk j := by
        simp [nextChunk, firstChunk, Heap.push, setBucket]
      rw [hnext]
      exact (h.chain j).congr (hword j)
    · rw [update_of_ne hj]
      have hfirst : (s.push i c).firstChunk j = s.firstChunk j := by
        simp [firstChunk, Heap.push, setBucket, hj]
      rw [hfirst]
      exact (h.chain j).congr (hword j)
  · rcases eq_or_ne j i with rfl | hj
    · rw [update_self] at ha
      rcases List.mem_cons.mp ha with rfl | ha
      · exact ⟨hc.congr rfl rfl, hlive⟩
      · exact (h.free j a ha).imp_left fun hx => hx.congr rfl rfl
    · rw [update_of_ne hj] at ha
      exact (h.free j a ha).imp_left fun hx => hx.congr rfl rfl
  · exact (h.small b hb j hj).imp_left fun hx => hx.congr rfl rfl

theorem Inv.splitPage {p n j : ℕ} (h : s.Inv fl) (hsplit : s.split p = true) (hsize : s.size p = i)
    (hlive : ∀ b ∈ s.live, b.addr / pageSize ≠ p) (hj : 2 ^ i ∣ j)
    (hnew : ∀ c ∈ fl i, c / pageSize = p → c < pageSize * p + j) :
    ∃ fl', (s.splitPage i (pageSize * p) n j).Inv fl' ∧
      (0 < n → j < pageSize → fl' i ≠ []) ∧ (fl i ≠ [] → fl' i ≠ []) := by
  induction n generalizing s fl j with
  | zero => exact ⟨fl, h, by simp, id⟩
  | succ n ih =>
    unfold Heap.splitPage
    split_ifs with hlt
    · have hpage : (pageSize * p + j) / pageSize = p := by
        simp only [pageSize] at *
        omega
      have hdvd : 2 ^ i ∣ pageSize := by
        have := (h.page p hsplit).2.2
        change 2 ^ i ∣ 2 ^ 12
        exact Nat.pow_dvd_pow 2 (by simp only [pageShift] at this; omega)
      have hc : s.Chunk i (pageSize * p + j) := by
        refine ⟨by rw [hpage, hsplit], by rw [hpage, hsize], ?_⟩
        exact Nat.dvd_add (Nat.dvd_mul_right_of_dvd hdvd p) hj
      have hnot : pageSize * p + j ∉ fl i := fun hm => Nat.lt_irrefl _ (hnew _ hm hpage)
      have hp := h.push hc hnot fun b hb he => hlive b hb (by rw [he, hpage])
      rw [h.sizes i]
      obtain ⟨fl', hinv, -, hne⟩ := ih hp hsplit hsize hlive
        (Nat.dvd_add hj (Nat.dvd_refl _)) fun c hm hcp => by
          rw [update_self] at hm
          rcases List.mem_cons.mp hm with rfl | hm
          · omega
          · have := hnew c hm hcp
            omega
      exact ⟨fl', hinv, fun _ _ => hne (by simp), fun _ => hne (by simp)⟩
    · exact ⟨fl, h, fun _ hj => absurd hj hlt, id⟩

theorem Inv.claimPage {p : ℕ} (h : s.Inv fl) (hi : 4 ≤ i ∧ i < pageShift) (hpos : 0 < p)
    (hp : ¬s.InUse p) : Inv { s with
      size := update s.size p i
      split := update s.split p true } fl ∧ ∀ b ∈ s.live, b.addr / pageSize ≠ p := by
  have hns : s.split p = false := by
    by_contra hx
    exact hp (Or.inl (by simpa using hx))
  have hkeep (j c : ℕ) (hc : s.Chunk j c) : Chunk { s with
      size := update s.size p i
      split := update s.split p true } j c := by
    have hne : c / pageSize ≠ p := by
      rintro rfl
      simp [hc.split] at hns
    exact hc.congr (update_of_ne hne _ _) (update_of_ne hne _ _)
  have hout (b : Block) (hb : b ∈ s.live) {n q : ℕ} (hn : b.source = .pages n)
      (hq : b.addr = pageSize * q) : p < q ∨ q + n ≤ p := by
    by_contra hin
    refine hp (Or.inr ⟨b, hb, n, hn, ?_, ?_⟩)
    · rw [hq]
      exact Nat.mul_le_mul_left _ (by omega)
    · rw [hq, ← Nat.mul_add]
      exact Nat.mul_lt_mul_of_pos_left (by omega) (by decide)
  refine ⟨⟨h.sizes, h.chain, fun j c hc => ?_, fun q hq => ?_, fun b hb j hj => ?_,
    fun b hb n hn => ?_, h.apart⟩, fun b hb => ?_⟩
  · exact (h.free j c hc).imp_left (hkeep j c)
  · rcases eq_or_ne q p with rfl | hqp
    · simpa using ⟨hpos, hi⟩
    · simpa [hqp] using h.page q (by simpa [hqp] using hq)
  · exact (h.small b hb j hj).imp_left (hkeep j b.addr)
  · obtain ⟨hn0, hsize, q, hq, hsq, hfree⟩ := h.large b hb n hn
    have hpq := hout b hb hn hq
    refine ⟨hn0, hsize, q, hq, ?_, fun r hr hr' => ?_⟩
    · have hne : q ≠ p := by omega
      simpa [hne] using hsq
    · have hne : r ≠ p := by omega
      simpa [hne] using hfree r hr hr'
  · cases hs : b.source with
    | bucket j =>
      intro he
      have := (h.small b hb j hs).1.split
      rw [he, hns] at this
      exact absurd this (by decide)
    | pages n =>
      obtain ⟨hn0, -, q, hq, -⟩ := h.large b hb n hs
      have hpq := hout b hb hs hq
      have hdiv : b.addr / pageSize = q := by
        rw [hq]
        exact Nat.mul_div_cancel_left q (by decide)
      omega

theorem Inv.refill {p : ℕ} (h : s.Inv fl) (hi : 4 ≤ i ∧ i < pageShift) (hpos : 0 < p)
    (hp : ¬s.InUse p) : ∃ fl', (s.refill i p).Inv fl' ∧ fl' i ≠ [] := by
  obtain ⟨hclaimed, hlive⟩ := h.claimPage hi hpos hp
  have hnew (c : ℕ) (hc : c ∈ fl i) (hcp : c / pageSize = p) : c < pageSize * p + 0 := by
    refine absurd (Or.inl ?_) hp
    rw [← hcp]
    exact (h.free i c hc).1.split
  obtain ⟨fl', hinv, hne, -⟩ := hclaimed.splitPage
    (by simp) (by simp) hlive (Nat.dvd_zero _) hnew
  refine ⟨fl', ⟨fun j => ?_, fun j => ?_, fun j c hc => ?_, hinv.page, fun b hb j hj => ?_,
    hinv.large, hinv.apart⟩, hne (by decide) (by decide)⟩
  · unfold Heap.refill setBucket
    rcases eq_or_ne j i with rfl | hj
    · simpa using hinv.sizes j
    · simpa [hj] using hinv.sizes j
  · have hfirst : (s.refill i p).firstChunk j = (Heap.splitPage i (pageSize * p) pageSize 0 { s with
        size := update s.size p i
        split := update s.split p true }).firstChunk j := by
      unfold Heap.refill setBucket firstChunk
      rcases eq_or_ne j i with rfl | hj
      · simp
      · simp [hj]
    rw [hfirst]
    exact hinv.chain j
  · exact (hinv.free j c hc).imp_left fun hx => hx.congr rfl rfl
  · exact (hinv.small b hb j hj).imp_left fun hx => hx.congr rfl rfl

theorem Inv.takeChunk {size : ℕ} (h : s.Inv fl) (hne : fl i ≠ []) (hsize : size ≤ 2 ^ i) :
    ∃ fl', (s.takeChunk i size).Inv fl' := by
  obtain ⟨c, rest, hfl⟩ := List.exists_cons_of_ne_nil hne
  have hchain := h.chain i
  rw [hfl] at hchain
  obtain ⟨hfirst, hrest⟩ := hchain
  have hmem : (s.buckets i).mem = c := by
    unfold firstChunk at hfirst
    split_ifs at hfirst
    exact Option.some.inj hfirst
  have hc := h.free i c (by simp [hfl])
  have hnot : c ∉ rest := by
    have := (h.chain i).nodup
    rw [hfl] at this
    exact (List.nodup_cons.mp this).1
  unfold Heap.takeChunk
  rw [hmem]
  refine ⟨update fl i rest, ⟨fun j => ?_, fun j => ?_, fun j a ha => ?_, h.page,
    fun b hb j hj => ?_, fun b hb n hn => ?_, ?_⟩⟩
  · unfold setBucket
    rcases eq_or_ne j i with rfl | hj
    · simpa using h.sizes j
    · simpa [hj] using h.sizes j
  · rcases eq_or_ne j i with rfl | hj
    · rw [update_self]
      have hnext : firstChunk { s.setBucket j { s.buckets j with mem := s.word c } with
          live := ⟨c, size, .bucket j⟩ :: s.live } j = s.nextChunk c := by
        simp [firstChunk, nextChunk, setBucket]
      rw [hnext]
      exact hrest
    · rw [update_of_ne hj]
      have hsame : firstChunk { s.setBucket i { s.buckets i with mem := s.word c } with
          live := ⟨c, size, .bucket i⟩ :: s.live } j = s.firstChunk j := by
        simp [firstChunk, setBucket, hj]
      rw [hsame]
      exact h.chain j
  · have hold : a ∈ fl j ∧ a ≠ c := by
      rcases eq_or_ne j i with rfl | hj
      · rw [update_self] at ha
        exact ⟨by simp [hfl, ha], fun e => hnot (e ▸ ha)⟩
      · rw [update_of_ne hj] at ha
        exact ⟨ha, fun e => hc.1.not_mem h hj (e ▸ ha)⟩
    obtain ⟨hx, hl⟩ := h.free j a hold.1
    refine ⟨hx.congr rfl rfl, fun b hb => ?_⟩
    rcases List.mem_cons.mp hb with rfl | hb
    · exact hold.2.symm
    · exact hl b hb
  · rcases List.mem_cons.mp hb with rfl | hb
    · obtain rfl : i = j := by simpa using hj
      exact ⟨hc.1.congr rfl rfl, hsize⟩
    · exact (h.small b hb j hj).imp_left fun hx => hx.congr rfl rfl
  · rcases List.mem_cons.mp hb with rfl | hb
    · simp at hn
    · exact h.large b hb n hn
  · refine List.pairwise_cons.mpr ⟨fun b hb => ?_, h.apart⟩
    exact h.free_apart (by simp [hfl]) hb

theorem Inv.takePages {size p n : ℕ} (h : s.Inv fl) (hn : 0 < n) (hsize : size ≤ pageSize * n)
    (hp : ∀ q, p ≤ q → q < p + n → ¬s.InUse q) : Inv { s with
      size := update s.size p (n + pageShift)
      live := ⟨pageSize * p, size, .pages n⟩ :: s.live } fl := by
  have hns (q : ℕ) (hlo : p ≤ q) (hhi : q < p + n) : s.split q = false := by
    by_contra hx
    exact hp q hlo hhi (Or.inl (by simpa using hx))
  have hkeep (j c : ℕ) (hc : s.Chunk j c) : Chunk { s with
      size := update s.size p (n + pageShift)
      live := ⟨pageSize * p, size, .pages n⟩ :: s.live } j c := by
    have hne : c / pageSize ≠ p := by
      intro he
      have := hns (c / pageSize) (by omega) (by omega)
      rw [hc.split] at this
      exact absurd this (by decide)
    exact hc.congr rfl (update_of_ne hne _ _)
  have hpages (b : Block) (hb : b ∈ s.live) {m q : ℕ} (hm : b.source = .pages m) (h0 : 0 < m)
      (hq : b.addr = pageSize * q) : p + n ≤ q ∨ q + m ≤ p := by
    by_contra hin
    refine hp (max p q) (by omega) (by omega) (Or.inr ⟨b, hb, m, hm, ?_, ?_⟩)
    · rw [hq]
      exact Nat.mul_le_mul_left _ (by omega)
    · rw [hq, ← Nat.mul_add]
      exact Nat.mul_lt_mul_of_pos_left (by omega) (by decide)
  refine ⟨h.sizes, h.chain, fun j c hc => ?_, fun q hq => ?_, fun b hb j hj => ?_,
    fun b hb m hm => ?_, List.pairwise_cons.mpr ⟨fun b hb => ?_, h.apart⟩⟩
  · obtain ⟨hx, hl⟩ := h.free j c hc
    refine ⟨hkeep j c hx, fun b hb => ?_⟩
    rcases List.mem_cons.mp hb with rfl | hb
    · have := hx.apart_pages h hns
      have hpos := Nat.two_pow_pos j
      unfold Apart at this
      simp only [pageSize] at *
      omega
    · exact hl b hb
  · have hne : q ≠ p := by
      rintro rfl
      exact absurd (hns q (Nat.le_refl q) (by omega)) (by simpa using hq)
    simpa [hne] using h.page q hq
  · rcases List.mem_cons.mp hb with rfl | hb
    · simp at hj
    · exact (h.small b hb j hj).imp_left (hkeep j b.addr)
  · rcases List.mem_cons.mp hb with rfl | hb
    · obtain rfl : n = m := by simpa using hm
      exact ⟨hn, hsize, p, rfl, by simp, hns⟩
    · obtain ⟨h0, hle, q, hq, hsq, hout⟩ := h.large b hb m hm
      have hne : q ≠ p := by
        have := hpages b hb hm h0 hq
        omega
      exact ⟨h0, hle, q, hq, by simpa [hne] using hsq, hout⟩
  · cases hs : b.source with
    | bucket j => exact ((h.small b hb j hs).1.apart_pages h hns).symm
    | pages m =>
      obtain ⟨h0, -, q, hq, -⟩ := h.large b hb m hs
      have := hpages b hb hs h0 hq
      rw [hq]
      simp only [Apart, Source.extent, pageSize]
      omega

theorem pagesOf_spec {size : ℕ} (h : 1 ≤ size) : 0 < pagesOf size ∧ size ≤ pageSize * pagesOf size := by
  simp only [pagesOf, pageSize]
  omega

theorem Inv.kmalloc {size p : ℕ} (h : s.Inv fl) (hok : s.Served (.kmalloc size p)) :
    ∃ fl', (s.kmalloc size p).Inv fl' := by
  obtain ⟨hsize, hpages⟩ := hok
  unfold Heap.kmalloc
  split_ifs with hlarge
  · obtain ⟨hn, hfit⟩ := pagesOf_spec hsize
    obtain ⟨-, hfree⟩ := hpages _ (Or.inl ⟨hlarge, rfl⟩)
    exact ⟨fl, h.takePages hn hfit hfree⟩
  obtain ⟨hfit, hi⟩ := bucketOf_spec hsize (Nat.not_lt.mp hlarge)
  by_cases hempty : (s.buckets (bucketOf size)).mem = 0
  · obtain ⟨hpos, hfree⟩ := hpages 1 (Or.inr ⟨hlarge, rfl, hempty⟩)
    obtain ⟨fl', hinv, hne⟩ := h.refill hi hpos (hfree p (Nat.le_refl p) (by omega))
    simp only [hempty]
    exact hinv.takeChunk hne hfit
  · simp only [hempty]
    refine h.takeChunk (fun hnil => ?_) hfit
    have hchain := h.chain (bucketOf size)
    rw [hnil] at hchain
    simp [Chain, firstChunk, hempty] at hchain

theorem Inv.origin (h : s.Inv fl) {b : Block} (hb : b ∈ s.live) : s.origin b.addr = b.source := by
  unfold Heap.origin
  cases hs : b.source with
  | bucket i =>
    have hc := (h.small b hb i hs).1
    have hi := (h.page _ hc.split).2.2
    simp only [hc.size] at hi ⊢
    rw [if_neg (by omega)]
  | pages n =>
    obtain ⟨-, -, p, hp, hsize, -⟩ := h.large b hb n hs
    have hdiv : b.addr / pageSize = p := by
      rw [hp]
      exact Nat.mul_div_cancel_left p (by decide)
    simp only [hdiv, hsize]
    rw [if_pos (by omega), Nat.add_sub_cancel]

theorem Inv.extent_pos (h : s.Inv fl) {b : Block} (hb : b ∈ s.live) : 0 < b.source.extent := by
  cases hs : b.source with
  | bucket i => exact Nat.two_pow_pos i
  | pages n =>
    have := (h.large b hb n hs).1
    simp only [Source.extent, pageSize]
    omega

theorem Inv.erase_ne (h : s.Inv fl) {addr : ℕ} {b : Block}
    (hb : b ∈ s.live.eraseP fun b => b.addr = addr) : b.addr ≠ addr := by
  have hpos (b : Block) (hb : b ∈ s.live) := h.extent_pos hb
  have hpair := h.apart
  generalize s.live = l at hb hpos hpair
  induction l with
  | nil => simp at hb
  | cons x l ih =>
    obtain ⟨hx, hl⟩ := List.pairwise_cons.mp hpair
    by_cases hxa : x.addr = addr
    · rw [List.eraseP_cons_of_pos (by simpa using hxa)] at hb
      have hap := hx b hb
      have h1 := hpos x (by simp)
      have h2 := hpos b (by simp [hb])
      unfold Apart at hap
      omega
    · rw [List.eraseP_cons_of_neg (by simpa using hxa)] at hb
      rcases List.mem_cons.mp hb with rfl | hb
      · exact hxa
      · exact ih hb (fun b hb => hpos b (List.mem_cons_of_mem _ hb)) hl

theorem Inv.erase (h : s.Inv fl) (addr : ℕ) :
    Inv { s with live := s.live.eraseP fun b => b.addr = addr } fl := by
  have hsub : (s.live.eraseP fun b => b.addr = addr).Sublist s.live := List.eraseP_sublist
  refine ⟨h.sizes, h.chain, fun j c hc => ?_, h.page, fun b hb j hj => ?_,
    fun b hb => h.large b (hsub.subset hb), h.apart.sublist hsub⟩
  · obtain ⟨hx, hl⟩ := h.free j c hc
    exact ⟨hx.congr rfl rfl, fun b hb => hl b (hsub.subset hb)⟩
  · exact (h.small b (hsub.subset hb) j hj).imp_left fun hx => hx.congr rfl rfl

theorem Inv.kfree (h : s.Inv fl) {b : Block} (hb : b ∈ s.live) :
    ∃ fl', (s.kfree b.addr).Inv fl' := by
  unfold Heap.kfree
  rw [h.origin hb]
  cases hs : b.source with
  | pages n => exact ⟨fl, h.erase b.addr⟩
  | bucket i =>
    have hc := (h.small b hb i hs).1
    refine ⟨_, (h.erase b.addr).push (hc.congr rfl rfl) (fun hm => ?_) fun b' hb' => h.erase_ne hb'⟩
    exact (h.free i b.addr hm).2 b hb rfl

theorem Inv.write (h : s.Inv fl) (m : ℕ → ℕ) : (s.write m).Inv fl := by
  refine ⟨h.sizes, fun i => ?_, fun j c hc => ?_, h.page, fun b hb j hj => ?_, h.large, h.apart⟩
  · refine (h.chain i).congr fun c hc => ?_
    have hchunk := (h.free i c hc).1
    have hsize : 4 ≤ i := hchunk.size ▸ (h.page _ hchunk.split).2.1
    have hkeep : (s.write m).word c = s.word c := by
      refine if_neg fun hx => ?_
      rcases hx with hx | ⟨b, hb, hx⟩
      · rw [hchunk.split] at hx
        exact absurd hx (by decide)
      · have hap := h.free_apart hc hb
        have h16 : 2 ^ 4 ≤ 2 ^ i := Nat.pow_le_pow_right (by decide) hsize
        unfold Touches at hx
        unfold Apart at hap
        omega
    simp only [nextChunk, hkeep]
  · exact (h.free j c hc).imp_left fun hx => hx.congr rfl rfl
  · exact (h.small b hb j hj).imp_left fun hx => hx.congr rfl rfl

theorem Inv.step {l : Label} (h : s.Inv fl) (hok : s.Served l) (hl : s.step l = some s') :
    ∃ fl', s'.Inv fl' := by
  cases l with
  | kmalloc size p =>
    obtain rfl := Option.some.inj hl
    exact h.kmalloc hok
  | kfree addr =>
    obtain ⟨⟨b, hb, rfl⟩, hl⟩ := Option.ite_none_right_eq_some.mp hl
    obtain rfl := Option.some.inj hl
    exact h.kfree hb
  | write m =>
    obtain rfl := Option.some.inj hl
    exact ⟨fl, h.write m⟩

/-- What holds of the heap between two calls. -/
structure HeapOk (s : Heap) : Prop where
  disjoint : s.live.Pairwise fun a b => Apart a.addr a.source.extent b.addr b.source.extent
  large_enough : ∀ b ∈ s.live, b.size ≤ b.source.extent
  lists : ∀ i, ∃ cs, cs.Nodup ∧ Chain s.nextChunk (s.firstChunk i) cs ∧
    ∀ c ∈ cs, (s.buckets i).size = 2 ^ i ∧ c % 2 ^ i = 0 ∧ s.size (c / pageSize) = i ∧
      c + 2 ^ i ≤ pageSize * (c / pageSize + 1) ∧
      ∀ b ∈ s.live, Apart c (2 ^ i) b.addr b.source.extent
  returns : ∀ b ∈ s.live, s.origin b.addr = b.source

end Heap

end SimpleKernel.Kmalloc
