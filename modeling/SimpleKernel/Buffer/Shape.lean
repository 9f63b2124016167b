import Mathlib.Data.List.Perm.Subperm
import SimpleKernel.Buffer.System

/-! The lists of a pool. The role of a buffer says on which list it is and whether the hash
table knows it; each primitive of `buf.c` moves one buffer from one role to another. -/
namespace SimpleKernel.Buffer
open LinkedList
open Function (update)

/-- `active` buffers are in the hash table only, the buffer in `hand` is nowhere. -/
inductive Role where
  | free | clean | dirty | active | hand
  deriving DecidableEq

def Role.hashed : Role → Bool
  | .clean | .dirty | .active => true
  | .free | .hand => false

/-- The role that a buffer in a given state has between two steps. -/
def BufState.role : BufState → Role
  | .free => .free
  | .clean => .clean
  | .dirty => .dirty
  | .reading | .writing | .locked | .updated | .invalid | .error => .active

variable {τ β : Type} {p : Pool τ β} {ρ : BufId → Role} {f : BufId}

/-- Each list of the pool is well formed and holds the buffers of its role. -/
structure Shape (p : Pool τ β) (ρ : BufId → Role) : Prop where
  free : ∃ xs, IsStack p.chain p.freelist xs ∧ ∀ g, g ∈ xs ↔ g < p.poolsize ∧ ρ g = .free
  clean : ∃ xs, IsList p.chain p.clean xs ∧ ∀ g, g ∈ xs ↔ g < p.poolsize ∧ ρ g = .clean
  dirty : ∃ xs, IsList p.chain p.dirty xs ∧ ∀ g, g ∈ xs ↔ g < p.poolsize ∧ ρ g = .dirty
  hash : ∀ i, ∃ xs, IsBucket p.bucket (p.hashtable i) xs ∧
    ∀ g, g ∈ xs ↔ g < p.poolsize ∧ (ρ g).hashed ∧ slot (p.blkno g) = i

namespace Shape

theorem congr_role {ρ' : BufId → Role} (h : Shape p ρ) (hr : ∀ g < p.poolsize, ρ' g = ρ g) :
    Shape p ρ' := by
  have hx {r : Role} (g : BufId) : (g < p.poolsize ∧ ρ g = r) ↔ g < p.poolsize ∧ ρ' g = r :=
    and_congr_right fun hg => by rw [hr g hg]
  obtain ⟨⟨xs, h1, m1⟩, ⟨ys, h2, m2⟩, ⟨zs, h3, m3⟩, h4⟩ := h
  refine ⟨⟨xs, h1, fun g => (m1 g).trans (hx g)⟩, ⟨ys, h2, fun g => (m2 g).trans (hx g)⟩,
    ⟨zs, h3, fun g => (m3 g).trans (hx g)⟩, fun i => ?_⟩
  obtain ⟨ws, h5, m5⟩ := h4 i
  exact ⟨ws, h5, fun g => (m5 g).trans (and_congr_right fun hg => by rw [hr g hg])⟩

theorem changeState (h : Shape p ρ) (st : BufState) : Shape (p.changeState f st) ρ :=
  ⟨h.free, h.clean, h.dirty, h.hash⟩

theorem lock (h : Shape p ρ) : Shape (p.lock f) ρ := ⟨h.free, h.clean, h.dirty, h.hash⟩

theorem setData (h : Shape p ρ) (d : β) : Shape (p.setData f d) ρ :=
  ⟨h.free, h.clean, h.dirty, h.hash⟩

theorem releaseBufferWaiters (h : Shape p ρ) : Shape (p.releaseBufferWaiters f) ρ :=
  ⟨h.free, h.clean, h.dirty, h.hash⟩

section Moves
variable {n : ℕ} {l l' : Links BufId} {h : Option BufId} {e : Ends BufId} {r r' : Role}

private theorem mem_keep {xs : List BufId} (hr : ρ f ≠ r) (hr' : r' ≠ r)
    (hm : ∀ g, g ∈ xs ↔ g < n ∧ ρ g = r) (g : BufId) :
    g ∈ xs ↔ g < n ∧ update ρ f r' g = r := by
  rcases eq_or_ne g f with rfl | hg
  · simp [hm, hr, hr']
  · simp [hm, hg]

private theorem mem_lose (xs ys : List BufId) (hr' : r' ≠ r) (hd : (xs ++ f :: ys).Nodup)
    (hm : ∀ g, g ∈ xs ++ f :: ys ↔ g < n ∧ ρ g = r) (g : BufId) :
    g ∈ xs ++ ys ↔ g < n ∧ update ρ f r' g = r := by
  have hf := (List.nodup_cons.mp (List.nodup_middle.mp hd)).1
  rcases eq_or_ne g f with rfl | hg
  · simpa [hr'] using hf
  · have := hm g
    simpa [hg] using this

private theorem mem_gain {xs ys : List BufId} (hf : f < n) (hys : ∀ g, g ∈ ys ↔ g ∈ xs ∨ g = f)
    (hm : ∀ g, g ∈ xs ↔ g < n ∧ ρ g = r) (g : BufId) :
    g ∈ ys ↔ g < n ∧ update ρ f r g = r := by
  rcases eq_or_ne g f with rfl | hg
  · simp [hys, hf]
  · simp [hys, hm, hg]

private theorem keepStack
    (hs : ∃ xs, IsStack l h xs ∧ ∀ g, g ∈ xs ↔ g < n ∧ ρ g = .free)
    (hl : ∀ g, ρ g = .free → l'.prev g = l.prev g ∧ l'.next g = l.next g)
    (hr : ρ f ≠ .free) (hr' : r' ≠ .free) :
    ∃ xs, IsStack l' h xs ∧ ∀ g, g ∈ xs ↔ g < n ∧ update ρ f r' g = .free := by
  obtain ⟨xs, h1, hm⟩ := hs
  exact ⟨xs, h1.congr (fun g hg => (hl g ((hm g).mp hg).2).1)
    (fun g hg => (hl g ((hm g).mp hg).2).2), mem_keep hr hr' hm⟩

private theorem keepList
    (hs : ∃ xs, IsList l e xs ∧ ∀ g, g ∈ xs ↔ g < n ∧ ρ g = r)
    (hl : ∀ g, ρ g = r → l'.prev g = l.prev g ∧ l'.next g = l.next g)
    (hr : ρ f ≠ r) (hr' : r' ≠ r) :
    ∃ xs, IsList l' e xs ∧ ∀ g, g ∈ xs ↔ g < n ∧ update ρ f r' g = r := by
  obtain ⟨xs, h1, hm⟩ := hs
  exact ⟨xs, h1.congr (fun g hg => (hl g ((hm g).mp hg).2).1)
    (fun g hg => (hl g ((hm g).mp hg).2).2), mem_keep hr hr' hm⟩

private theorem loseList
    (hs : ∃ xs, IsList l e xs ∧ ∀ g, g ∈ xs ↔ g < n ∧ ρ g = r)
    (hf : f < n) (hr : ρ f = r) {q : Role} (hr' : q ≠ r) :
    (∃ xs, IsList ((l.bypass f).clear f) (e.drop l f) xs ∧
      ∀ g, g ∈ xs ↔ g < n ∧ update ρ f q g = r) ∧
    ∀ g, ρ g ≠ r → ((l.bypass f).clear f).prev g = l.prev g ∧
      ((l.bypass f).clear f).next g = l.next g := by
  obtain ⟨xs, h1, hm⟩ := hs
  have hfx : f ∈ xs := (hm f).mpr ⟨hf, hr⟩
  constructor
  · obtain ⟨us, vs, rfl⟩ := List.append_of_mem hfx
    exact ⟨us ++ vs, h1.remove, mem_lose us vs hr' h1.nodup hm⟩
  · intro g hg
    exact h1.isBucket.remove_frame hfx fun hgx => hg ((hm g).mp hgx).2

private theorem gainList
    (hs : ∃ xs, IsList l e xs ∧ ∀ g, g ∈ xs ↔ g < n ∧ ρ g = r)
    (hf : f < n) (hr : ρ f ≠ r) :
    (∃ xs, IsList (l.append e f) (e.append f) xs ∧
      ∀ g, g ∈ xs ↔ g < n ∧ update ρ f r g = r) ∧
    ∀ g, ρ g ≠ r → f ≠ g → (l.append e f).prev g = l.prev g ∧
      (l.append e f).next g = l.next g := by
  obtain ⟨xs, h1, hm⟩ := hs
  constructor
  · have hfx : f ∉ xs := fun hx => hr ((hm f).mp hx).2
    exact ⟨xs ++ [f], h1.append hfx, mem_gain hf (by simp) hm⟩
  · intro g hg hne
    exact append_frame h1 (fun hgx => hg ((hm g).mp hgx).2) hne

end Moves

private theorem hash_keep {r' : Role} (h : Shape p ρ) (hr : (ρ f).hashed = r'.hashed) :
    ∀ i, ∃ xs, IsBucket p.bucket (p.hashtable i) xs ∧
      ∀ g, g ∈ xs ↔ g < p.poolsize ∧ (update ρ f r' g).hashed ∧
        slot (p.blkno g) = i := by
  intro i
  obtain ⟨xs, hb, hm⟩ := h.hash i
  refine ⟨xs, hb, fun g => ?_⟩
  rcases eq_or_ne g f with rfl | hg
  · simp [hm, hr]
  · simp [hm, hg]

section
variable (h : Shape p ρ)
include h

theorem removeFromClean (hf : f < p.poolsize) (hr : ρ f = .clean) :
    Shape (p.removeFromClean f) (update ρ f .active) := by
  obtain ⟨hc, hfr⟩ := loseList h.clean hf hr (q := .active) (by decide)
  refine ⟨keepStack h.free (fun g hg => hfr g ?_) ?_ (by decide), hc,
    keepList h.dirty (fun g hg => hfr g ?_) ?_ (by decide), h.hash_keep ?_⟩
  all_goals simp_all [Role.hashed]

theorem removeFromDirty (hf : f < p.poolsize) (hr : ρ f = .dirty) :
    Shape (p.removeFromDirty f) (update ρ f .active) := by
  obtain ⟨hc, hfr⟩ := loseList h.dirty hf hr (q := .active) (by decide)
  refine ⟨keepStack h.free (fun g hg => hfr g ?_) ?_ (by decide),
    keepList h.clean (fun g hg => hfr g ?_) ?_ (by decide), hc, h.hash_keep ?_⟩
  all_goals simp_all [Role.hashed]

theorem appendClean (hf : f < p.poolsize) (hr : ρ f = .active) :
    Shape (p.appendClean f) (update ρ f .clean) := by
  obtain ⟨hc, hfr⟩ := gainList h.clean hf (by simp [hr])
  refine ⟨keepStack h.free (fun g hg => hfr g ?_ ?_) ?_ (by decide), hc,
    keepList h.dirty (fun g hg => hfr g ?_ ?_) ?_ (by decide), h.hash_keep ?_⟩
  all_goals first | (rintro rfl; simp_all) | simp_all [Role.hashed]

theorem appendDirty (hf : f < p.poolsize) (hr : ρ f = .active) :
    Shape (p.appendDirty f) (update ρ f .dirty) := by
  obtain ⟨hc, hfr⟩ := gainList h.dirty hf (by simp [hr])
  refine ⟨keepStack h.free (fun g hg => hfr g ?_ ?_) ?_ (by decide),
    keepList h.clean (fun g hg => hfr g ?_ ?_) ?_ (by decide), hc, h.hash_keep ?_⟩
  all_goals first | (rintro rfl; simp_all) | simp_all [Role.hashed]

theorem pushFree (hf : f < p.poolsize) (hr : ρ f = .hand) :
    Shape (p.pushFree f) (update ρ f .free) := by
  have hfr (g : BufId) (hg : ρ g ≠ .hand) := push_frame p.chain p.freelist
    (show f ≠ g from fun e => hg (e ▸ hr))
  obtain ⟨xs, h1, hm⟩ := h.free
  have hfx : f ∉ xs := fun hx => absurd ((hm f).mp hx).2 (by simp [hr])
  refine ⟨⟨f :: xs, h1.push hfx, mem_gain hf (by simp [or_comm]) hm⟩,
    keepList h.clean (fun g hg => hfr g ?_) ?_ (by decide),
    keepList h.dirty (fun g hg => hfr g ?_) ?_ (by decide), h.hash_keep ?_⟩
  all_goals simp_all [Role.hashed]

theorem popFree (hh : p.freelist = some f) :
    (f < p.poolsize ∧ ρ f = .free) ∧ Shape (p.popFree f) (update ρ f .hand) := by
  obtain ⟨xs, h1, hm⟩ := h.free
  rw [hh] at h1
  obtain ⟨ys, rfl, -, h2⟩ := h1.pop
  have hf := (hm f).mp (by simp)
  have hfr (g : BufId) (hg : ρ g ≠ .free) : (p.chain.clear f).prev g = p.chain.prev g ∧
      (p.chain.clear f).next g = p.chain.next g := by
    have hne : f ≠ g := fun e => hg (e ▸ hf.2)
    simp [clear_prev, clear_next, hne]
  refine ⟨hf, ⟨ys, h2, mem_lose [] ys (by decide) h1.nodup hm⟩,
    keepList h.clean (fun g hg => hfr g ?_) ?_ (by decide),
    keepList h.dirty (fun g hg => hfr g ?_) ?_ (by decide), h.hash_keep ?_⟩
  all_goals simp_all [Role.hashed]

theorem popClean (hh : p.clean.head = some f) :
    (f < p.poolsize ∧ ρ f = .clean) ∧ p.popClean f = p.removeFromClean f := by
  obtain ⟨xs, h1, hm⟩ := h.clean
  have hx : xs.head? = some f := h1.head.symm.trans hh
  obtain ⟨ys, rfl⟩ := List.head?_eq_some_iff.mp hx
  have hmid := (show IsBucket _ _ ([] ++ f :: ys) from h1.isBucket).middle
  refine ⟨(hm f).mp (by simp), ?_⟩
  have hp : p.chain.prev f = none := hmid.1
  have ht : p.clean.tail = some f → p.chain.next f = none := by
    intro ht
    rw [hmid.2.1]
    have hl : (f :: ys).getLast? = some f := h1.tail.symm.trans ht
    have hd := (List.nodup_cons.mp h1.nodup).1
    cases ys with
    | nil => rfl
    | cons a as =>
      rw [List.getLast?_cons_cons] at hl
      exact absurd (List.mem_of_getLast? hl) hd
  have hb : p.chain.bypass f = p.chain.setPrev (p.chain.next f) none := by
    simp [Links.bypass, Links.setNext, Links.setPrev, hp]
  have he : p.clean.drop p.chain f =
      ⟨p.chain.next f, if p.clean.tail = some f then p.chain.next f else p.clean.tail⟩ := by
    simp only [Ends.drop, hp]
    split_ifs with h2
    · rw [ht h2]
    · rfl
  simp [Pool.popClean, Pool.removeFromClean, hb, he]

theorem removeFromHashtable (hf : f < p.poolsize) (hr : ρ f = .active) :
    Shape (p.removeFromHashtable f) (update ρ f .hand) := by
  refine ⟨keepStack h.free (fun _ _ => ⟨rfl, rfl⟩) (by simp [hr]) (by decide),
    keepList h.clean (fun _ _ => ⟨rfl, rfl⟩) (by simp [hr]) (by decide),
    keepList h.dirty (fun _ _ => ⟨rfl, rfl⟩) (by simp [hr]) (by decide), fun i => ?_⟩
  obtain ⟨ys, hb, hm⟩ := h.hash (slot (p.blkno f))
  have hfy : f ∈ ys := (hm f).mpr ⟨hf, by rw [hr]; rfl, rfl⟩
  by_cases hi : i = slot (p.blkno f)
  · subst hi
    obtain ⟨us, vs, rfl⟩ := List.append_of_mem hfy
    refine ⟨us ++ vs, by simpa using hb.remove, fun g => ?_⟩
    have hn := (List.nodup_cons.mp (List.nodup_middle.mp hb.nodup)).1
    rcases eq_or_ne g f with rfl | hg
    · simpa [Role.hashed] using hn
    · have := hm g
      simpa [hg] using this
  · obtain ⟨zs, hz, mz⟩ := h.hash i
    have hfr (g : BufId) (hg : g ∈ zs) := hb.remove_frame hfy fun hgy =>
      hi (((mz g).mp hg).2.2.symm.trans ((hm g).mp hgy).2.2)
    refine ⟨zs, ?_, fun g => ?_⟩
    · simpa [hi] using hz.congr (fun g hg => (hfr g hg).1) (fun g hg => (hfr g hg).2)
    · rcases eq_or_ne g f with rfl | hg
      · simp [mz, Ne.symm hi]
      · simp [mz, hg]

theorem bind (hf : f < p.poolsize) (hr : ρ f = .hand) (b : Blkno) :
    Shape (p.bind f b) (update ρ f .active) := by
  refine ⟨keepStack h.free (fun _ _ => ⟨rfl, rfl⟩) (by simp [hr]) (by decide),
    keepList h.clean (fun _ _ => ⟨rfl, rfl⟩) (by simp [hr]) (by decide),
    keepList h.dirty (fun _ _ => ⟨rfl, rfl⟩) (by simp [hr]) (by decide), fun i => ?_⟩
  have hout (j : ℕ) (zs : List BufId)
      (mz : ∀ g, g ∈ zs ↔ g < p.poolsize ∧ (ρ g).hashed ∧ slot (p.blkno g) = j) : f ∉ zs := by
    intro hz
    simpa [hr, Role.hashed] using ((mz f).mp hz).2.1
  obtain ⟨ys, hb, hm⟩ := h.hash (slot b)
  by_cases hi : i = slot b
  · subst hi
    refine ⟨f :: ys, by simpa [Pool.bind] using hb.prepend (hout _ ys hm), fun g => ?_⟩
    rcases eq_or_ne g f with rfl | hg
    · simp [Pool.bind, hf, Role.hashed]
    · simp [Pool.bind, hm, hg]
  · obtain ⟨zs, hz, mz⟩ := h.hash i
    have hfr (g : BufId) (hg : g ∈ zs) := prepend_frame (a := f) hb
      (fun hgy => hi (((mz g).mp hg).2.2.symm.trans ((hm g).mp hgy).2.2))
      (fun e => hout i zs mz (e ▸ hg))
    refine ⟨zs, ?_, fun g => ?_⟩
    · simpa [Pool.bind, hi] using hz.congr (fun g hg => (hfr g hg).1) (fun g hg => (hfr g hg).2)
    · rcases eq_or_ne g f with rfl | hg
      · simp [Pool.bind, hout i zs mz, Ne.symm hi]
      · simp [Pool.bind, mz, hg]

end

private theorem searchChain_eq {b : Blkno} {q : Option BufId} {xs : List BufId}
    (hs : Seg p.bucket q xs none) {fuel : ℕ} (hl : xs.length ≤ fuel) :
    p.searchChain b fuel xs.head? = xs.find? (fun g => p.blkno g = b) := by
  induction xs generalizing q fuel with
  | nil => cases fuel <;> rfl
  | cons g xs ih =>
    cases fuel with
    | zero => simp at hl
    | succ fuel =>
      obtain ⟨-, hn, hs⟩ := hs
      simp only [List.head?_cons, Pool.searchChain]
      by_cases hg : p.blkno g = b
      · simp [hg]
      · rw [hn, Option.or_none, ih hs (by simpa using hl)]
        simp [hg]

private theorem search_eq (h : Shape p ρ) (b : Blkno) :
    ∃ xs : List BufId, p.search b = xs.find? (fun g => p.blkno g = b) ∧
      ∀ g, g ∈ xs ↔ g < p.poolsize ∧ (ρ g).hashed ∧ slot (p.blkno g) = slot b := by
  obtain ⟨xs, hb, hm⟩ := h.hash (slot b)
  have hsub : xs ⊆ List.range p.poolsize := fun g hg => List.mem_range.mpr ((hm g).mp hg).1
  have hl := (List.subperm_of_subset hb.nodup hsub).length_le
  rw [List.length_range] at hl
  exact ⟨xs, by rw [Pool.search, hb.head, searchChain_eq hb.seg hl], hm⟩

theorem search_some (h : Shape p ρ) {b : Blkno} (hs : p.search b = some f) :
    f < p.poolsize ∧ (ρ f).hashed ∧ p.blkno f = b := by
  obtain ⟨xs, he, hm⟩ := h.search_eq b
  rw [hs] at he
  have hf := (hm f).mp (List.mem_of_find?_eq_some he.symm)
  exact ⟨hf.1, hf.2.1, by simpa using List.find?_some he.symm⟩

theorem search_none (h : Shape p ρ) {b : Blkno} (hs : p.search b = none) {g : BufId}
    (hg : g < p.poolsize) (hr : (ρ g).hashed) : p.blkno g ≠ b := by
  obtain ⟨xs, he, hm⟩ := h.search_eq b
  rw [hs] at he
  intro hb
  have hx : g ∈ xs := (hm g).mpr ⟨hg, hr, by rw [hb]⟩
  simpa [hb] using List.find?_eq_none.mp he.symm g hx

theorem init [Zero β] {poolsize bufsize blksize : ℕ} {sync : Option (Dev β → Dev β)}
    (hp : 0 < poolsize) :
    Shape (initBufferPool τ poolsize bufsize blksize sync) (fun _ => .free) := by
  refine ⟨⟨List.range poolsize, ⟨List.nodup_range, ?_, ?_⟩, fun g => ?_⟩,
    ⟨[], isList_nil _, by simp⟩, ⟨[], isList_nil _, by simp⟩,
    fun i => ⟨[], isBucket_nil _, by simp [Role.hashed]⟩⟩
  · have hfw (k a : ℕ) (hk : a + k = poolsize) :
        Forward (initBufferPool τ poolsize bufsize blksize sync).chain (List.range' a k) := by
      induction k generalizing a with
      | zero => trivial
      | succ k ih =>
        refine ⟨rfl, ?_, ih (a + 1) (by omega)⟩
        cases k with
        | zero =>
          have hlast : ¬a + 1 < poolsize := by omega
          simp [initBufferPool, hlast]
        | succ k =>
          have hnext : a + 1 < poolsize := by omega
          simp [initBufferPool, List.range'_succ, hnext]
    simpa [List.range_eq_range'] using hfw poolsize 0 (by omega)
  · obtain ⟨n, rfl⟩ := Nat.exists_eq_succ_of_ne_zero (Nat.pos_iff_ne_zero.mp hp)
    simp [initBufferPool, List.range_succ_eq_map]
  · simp [initBufferPool]

end Shape
end SimpleKernel.Buffer
