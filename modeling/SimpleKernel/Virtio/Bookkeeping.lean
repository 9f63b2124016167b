import SimpleKernel.Lib.Ring
import SimpleKernel.Virtio.Chains
import Mathlib.Data.List.Perm.Basic

/-! The descriptors are free or belong to one request, and every request is returned once. -/
namespace SimpleKernel.Virtio
open SimpleKernel.Ring Transition
open Function (update update_of_ne update_self)

variable {α : Type}

/-- A request that has not been returned: its number, its token and its descriptors. -/
structure Request (α : Type) where
  id : ℕ
  token : α
  head : ℕ
  chain : List ℕ

/-- What `virtio_enqueue` does to the queue when the descriptors `xs` are the first ones of the free list. -/
theorem enqueue_eq {q : Queue α} {out ins : List Scatter} {xs rest : List ℕ} (data : α)
    (hpath : Path q.desc q.freeHead (xs ++ rest)) (hd : xs.Nodup) (hlen : xs.length = out.length + ins.length)
    (hpos : 0 < xs.length) :
    ∃ desc, q.enqueue out ins data = { q with
        numFree := q.numFree - xs.length
        desc := desc
        freeHead := after q.desc q.freeHead xs
        data := update q.data q.freeHead (some data)
        numAdded := q.numAdded + 1
        availRing := update q.availRing ((q.availIdx + q.numAdded) % q.size) q.freeHead } ∧
      (∀ b, (desc b).next = (q.desc b).next) ∧ (∀ b, b ∉ xs → desc b = q.desc b) ∧ Linked desc q.freeHead xs := by
  obtain ⟨ys, zs, rfl, hys⟩ : ∃ ys zs, xs = ys ++ zs ∧ ys.length = out.length := by
    refine ⟨xs.take out.length, xs.drop out.length, (List.take_append_drop _ _).symm, ?_⟩
    rw [List.length_take]
    omega
  obtain ⟨hdy, hdz, hdisjoint⟩ := List.nodup_append.1 hd
  have hyz (a : ℕ) (ha : a ∈ ys) : a ∉ zs := fun hz => hdisjoint a ha a hz rfl
  rw [List.length_append] at hlen
  obtain ⟨hxs, -⟩ := (path_append _ _ _).1 hpath
  obtain ⟨hpy, hpz⟩ := (path_append _ _ _).1 hxs
  obtain ⟨d₁, hfill₁, hfilled₁⟩ := fill_spec 0 hpy hdy hys
  have hpz₁ : Path d₁ (after q.desc q.freeHead ys) zs := hpz.congr fun a _ => hfilled₁.next a
  have hzs : zs.length = ins.length := by omega
  obtain ⟨d₂, hfill₂, hfilled₂⟩ := fill_spec (ys.getLast?.getD 0) hpz₁ hdz hzs
  have hfilled := hfilled₁.append hfilled₂ hyz
  obtain ⟨us, a, hua⟩ : ∃ us a, ys ++ zs = us ++ [a] := by
    refine ⟨(ys ++ zs).dropLast, (ys ++ zs).getLast (List.length_pos_iff.1 hpos), ?_⟩
    exact (List.dropLast_append_getLast _).symm
  have htail : zs.getLast?.getD (ys.getLast?.getD 0) = a := by
    have hlast : (ys ++ zs).getLast? = some a := by
      rw [hua]
      simp
    rw [List.getLast?_append] at hlast
    cases hz : zs.getLast? with
    | none =>
      rw [hz, Option.none_or] at hlast
      rw [hlast]
      rfl
    | some z =>
      rw [hz] at hlast
      exact Option.some.inj hlast
  have hafter : after d₁ (after q.desc q.freeHead ys) zs = after q.desc q.freeHead (ys ++ zs) := by
    unfold after
    rw [List.getLast?_append]
    cases hz : zs.getLast? with
    | none => simp
    | some z => simp [hfilled₁.next]
  generalize hdesc : update d₂ a { d₂ a with flags := { (d₂ a).flags with next := false } } = desc
  have hself : desc a = { d₂ a with flags := { (d₂ a).flags with next := false } } := by
    rw [← hdesc, update_self]
  have hother (b : ℕ) (hb : b ≠ a) : desc b = d₂ b := by rw [← hdesc, update_of_ne hb]
  have hnext (b : ℕ) : (desc b).next = (q.desc b).next := by
    by_cases hb : b = a
    · rw [hb, hself]
      exact hfilled.next a
    · rw [hother b hb]
      exact hfilled.next b
  refine ⟨desc, ?_, hnext, ?_, ?_⟩
  · unfold Queue.enqueue
    rw [hfill₁]
    dsimp only
    rw [hfill₂]
    rw [htail, hdesc, hafter, List.length_append, hlen]
  · intro b hb
    have hba : b ≠ a := by
      rintro rfl
      apply hb
      rw [hua]
      simp
    rw [hother b hba]
    exact hfilled.others b hb
  · have hpathx : Path desc q.freeHead (ys ++ zs) := hxs.congr fun b _ => hnext b
    rw [hua] at hpathx hd hfilled ⊢
    apply linked_of_path hpathx
    · intro b hb
      have hba : b ≠ a := by
        rintro rfl
        exact (List.nodup_append.1 hd).2.2 b hb b (List.mem_singleton.2 rfl) rfl
      rw [hother b hba]
      exact hfilled.flags b (List.mem_append_left _ hb)
    · rw [hself]

/-- The descriptors: the free list `free` and the chains of the requests `reqs`, which are those not returned. -/
structure Store (k : ℕ) (q : Queue α) (r : Record α) (free : List ℕ) (reqs : List (Request α)) : Prop where
  size : q.size = 2 ^ k
  path : Path q.desc q.freeHead free
  numFree : free.length = q.numFree
  linked : ∀ x ∈ reqs, Linked q.desc x.head x.chain
  partition : (free ++ reqs.flatMap Request.chain).Perm (List.range (2 ^ k))
  data : ∀ x ∈ reqs, q.data x.head = some x.token ∧ r.owner x.head = x.id ∧ (r.enqueued)[x.id]? = some x.token
  ids : (r.returned.map Prod.fst ++ reqs.map Request.id).Perm (List.range r.enqueued.length)
  tokens : ∀ x ∈ r.returned, ∃ token, x.2.1 = some token ∧ (r.enqueued)[x.1]? = some token

variable {k : ℕ} {q : Queue α} {r : Record α} {free : List ℕ} {reqs reqs' : List (Request α)} {x : Request α}

theorem Store.perm (h : Store k q r free reqs) (hp : reqs.Perm reqs') : Store k q r free reqs' := by
  constructor
  · exact h.size
  · exact h.path
  · exact h.numFree
  · exact fun x hx => h.linked x (hp.mem_iff.2 hx)
  · exact ((hp.flatMap_right Request.chain).symm.append_left free).trans h.partition
  · exact fun x hx => h.data x (hp.mem_iff.2 hx)
  · exact ((hp.map Request.id).symm.append_left _).trans h.ids
  · exact h.tokens

theorem Store.frame {q' : Queue α} {r' : Record α} (h : Store k q r free reqs)
    (hq : (q'.size, q'.desc, q'.freeHead, q'.numFree, q'.data) = (q.size, q.desc, q.freeHead, q.numFree, q.data))
    (hr : (r'.enqueued, r'.owner, r'.returned) = (r.enqueued, r.owner, r.returned)) : Store k q' r' free reqs := by
  simp only [Prod.mk.injEq] at hq hr
  obtain ⟨hsize, hdesc, hhead, hnum, hdata⟩ := hq
  obtain ⟨henqueued, howner, hreturned⟩ := hr
  constructor
  · rw [hsize]
    exact h.size
  · rw [hdesc, hhead]
    exact h.path
  · rw [hnum]
    exact h.numFree
  · rw [hdesc]
    exact h.linked
  · exact h.partition
  · rw [hdata, howner, henqueued]
    exact h.data
  · rw [hreturned, henqueued]
    exact h.ids
  · rw [hreturned, henqueued]
    exact h.tokens

theorem Store.nodup (h : Store k q r free reqs) : (free ++ reqs.flatMap Request.chain).Nodup :=
  h.partition.nodup_iff.2 List.nodup_range

theorem Store.head_mem (h : Store k q r free reqs) (hx : x ∈ reqs) : x.head ∈ x.chain :=
  List.mem_of_head? (h.linked x hx).head

theorem Store.length_le (h : Store k q r free reqs) : reqs.length + free.length ≤ 2 ^ k := by
  have hpart := h.partition.length_eq
  have hlinked := h.linked
  rw [List.length_append, List.length_range] at hpart
  have hle : reqs.length ≤ (reqs.flatMap Request.chain).length := by
    clear hpart h
    induction reqs with
    | nil => exact Nat.zero_le _
    | cons x reqs ih =>
      have hpos : 0 < x.chain.length := by
        have hhead := (hlinked x List.mem_cons_self).head
        exact List.length_pos_of_mem (List.mem_of_head? hhead)
      have hrest := ih fun y hy => hlinked y (List.mem_cons_of_mem _ hy)
      rw [List.flatMap_cons, List.length_append, List.length_cons]
      omega
  omega

theorem Store.enqueue {xs rest : List ℕ} {out ins : List Scatter} (h : Store k q r (xs ++ rest) reqs)
    (hlen : xs.length = out.length + ins.length) (hpos : 0 < xs.length) (token : α) :
    Store k (q.enqueue out ins token)
      { r with
        enqueued := r.enqueued ++ [token]
        owner := update r.owner q.freeHead r.enqueued.length } rest
      (⟨r.enqueued.length, token, q.freeHead, xs⟩ :: reqs) := by
  have hnodup := h.nodup
  obtain ⟨hdfree, -, hdisjoint⟩ := List.nodup_append.1 hnodup
  obtain ⟨hdx, -, -⟩ := List.nodup_append.1 hdfree
  obtain ⟨desc, henqueue, hnext, hothers, hlinked⟩ := enqueue_eq token h.path hdx hlen hpos
  have hhead : q.freeHead ∈ xs := List.mem_of_head? hlinked.head
  have hapart (y : Request α) (hy : y ∈ reqs) (b : ℕ) (hb : b ∈ y.chain) : b ∉ xs := fun hx =>
    hdisjoint b (List.mem_append_left _ hx) b (List.mem_flatMap.2 ⟨y, hy, hb⟩) rfl
  have hne (y : Request α) (hy : y ∈ reqs) : y.head ≠ q.freeHead := by
    intro heq
    exact hapart y hy y.head (h.head_mem hy) (heq ▸ hhead)
  rw [henqueue]
  constructor
  · exact h.size
  · exact ((path_append _ _ _).1 h.path).2.congr fun b _ => hnext b
  · have hnum := h.numFree
    rw [List.length_append] at hnum
    dsimp only
    omega
  · intro y hy
    rcases List.mem_cons.1 hy with rfl | hy
    · exact hlinked
    · exact (h.linked y hy).congr fun b hb => hothers b (hapart y hy b hb)
  · rw [List.flatMap_cons]
    apply List.Perm.trans _ h.partition
    rw [← List.append_assoc]
    exact List.perm_append_comm.append_right _
  · intro y hy
    rcases List.mem_cons.1 hy with rfl | hy
    · simp
    · obtain ⟨hdata, howner, htoken⟩ := h.data y hy
      refine ⟨?_, ?_, ?_⟩
      · dsimp only
        rw [update_of_ne (hne y hy), hdata]
      · dsimp only
        rw [update_of_ne (hne y hy), howner]
      · exact List.getElem?_append_left (List.getElem?_eq_some_iff.1 htoken).1 ▸ htoken
  · rw [List.length_append, List.length_singleton, List.range_succ]
    apply List.perm_middle.trans
    apply List.Perm.trans _ (List.perm_append_singleton _ _).symm
    exact h.ids.cons _
  · intro y hy
    obtain ⟨tok, htok, hget⟩ := h.tokens y hy
    refine ⟨tok, htok, ?_⟩
    exact List.getElem?_append_left (List.getElem?_eq_some_iff.1 hget).1 ▸ hget

theorem Store.release (h : Store k q r free (x :: reqs)) (len : ℕ) :
    ∃ q', q.release x.head = some q' ∧ Store k q'
      { r with returned := r.returned ++ [(r.owner x.head, q.data x.head, len)] } (x.chain ++ free) reqs ∧
      q' = { q with data := q'.data, numFree := q'.numFree, desc := q'.desc, freeHead := q'.freeHead } := by
  have hx : x ∈ x :: reqs := List.mem_cons_self
  have hlinked := h.linked x hx
  have hnodup := h.nodup
  obtain ⟨-, hdrest, hdisjoint⟩ := List.nodup_append.1 hnodup
  obtain ⟨hdchain, -, hapart⟩ := List.nodup_append.1 hdrest
  have hlen : x.chain.length ≤ q.size := by
    have hpart := h.partition.length_eq
    rw [List.flatMap_cons, List.length_append, List.length_append, List.length_range] at hpart
    rw [h.size]
    omega
  obtain ⟨a, hlast, hend⟩ := hlinked.findEnd hlen
  have ha : a ∈ x.chain := List.mem_of_getLast? hlast
  have hafree : a ∉ free := fun hf => hdisjoint a hf a (List.mem_append_left _ ha) rfl
  have hother (y : Request α) (hy : y ∈ reqs) (b : ℕ) (hb : b ∈ y.chain) : b ∉ x.chain := fun hxb =>
    hapart b hxb b (List.mem_flatMap.2 ⟨y, hy, hb⟩) rfl
  obtain ⟨hdata, howner, htoken⟩ := h.data x hx
  refine ⟨_, by unfold Queue.release; rw [hend]; rfl, ?_, rfl⟩
  constructor
  · exact h.size
  · exact hlinked.free hlast hdchain h.path hafree
  · have hnum := h.numFree
    rw [List.length_append]
    dsimp only
    omega
  · intro y hy
    apply (h.linked y (List.mem_cons_of_mem _ hy)).congr
    intro b hb
    dsimp only
    rw [update_of_ne]
    rintro rfl
    exact hother y hy b hb ha
  · apply List.Perm.trans _ h.partition
    rw [List.flatMap_cons, List.append_assoc]
    rw [← List.append_assoc, ← List.append_assoc]
    exact List.perm_append_comm.append_right _
  · intro y hy
    obtain ⟨hdatay, hownery, htokeny⟩ := h.data y (List.mem_cons_of_mem _ hy)
    refine ⟨?_, hownery, htokeny⟩
    dsimp only
    rw [update_of_ne, hdatay]
    intro heq
    have hhead := h.head_mem (List.mem_cons_of_mem _ hy)
    exact hother y hy y.head hhead (heq ▸ h.head_mem hx)
  · have hids := h.ids
    rw [List.map_append, List.append_assoc, howner]
    exact hids
  · intro y hy
    rcases List.mem_append.1 hy with hy | hy
    · exact h.tokens y hy
    · rw [List.mem_singleton.1 hy]
      refine ⟨x.token, hdata, ?_⟩
      rw [howner]
      exact htoken

end SimpleKernel.Virtio
