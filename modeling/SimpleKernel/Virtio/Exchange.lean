import SimpleKernel.Virtio.Bookkeeping

/-! Requests on their way: added, published, taken by the device, and put into the used ring. -/
namespace SimpleKernel.Virtio
open SimpleKernel.Ring Transition

variable {α : Type} {k : ℕ} {s s' : State α} {free : List ℕ}

/-- The requests that are not returned, by how far they are. -/
structure Stages (α : Type) where
  added : List (Request α)
  published : List (Request α)
  taken : List (Request α)
  used : List (Request α × ℕ)

def Stages.all (g : Stages α) : List (Request α) := g.added ++ (g.published ++ (g.taken ++ g.used.map Prod.fst))

/-- The rings hold what is published, added and used. -/
structure Inv (k : ℕ) (s : State α) (free : List ℕ) (g : Stages α) : Prop where
  store : Store k s.queue s.record free g.all
  avail : IsRing s.queue.availRing (2 ^ k) (s.lastAvail % 2 ^ k) ((g.published ++ g.added).map Request.head)
  numAdded : g.added.length = s.queue.numAdded
  availIdx : s.queue.availIdx = (s.lastAvail + g.published.length) % 2 ^ 16
  lastAvail : s.lastAvail < 2 ^ 16
  used : IsRing s.queue.usedRing (2 ^ k) (s.queue.lastUsedIdx % 2 ^ k) (g.used.map fun u => ⟨u.1.head, u.2⟩)
  usedIdx : s.queue.usedIdx = (s.queue.lastUsedIdx + g.used.length) % 2 ^ 16
  lastUsed : s.queue.lastUsedIdx < 2 ^ 16
  inflight : s.inflight = g.taken.map Request.head
  completed : s.record.completed.Perm
    (s.record.returned.map (fun x => (x.1, x.2.2)) ++ g.used.map fun u => (u.1.id, u.2))

theorem slot_wrap (hk : k ≤ 16) (i m n : ℕ) : ((i + m) % 2 ^ 16 + n) % 2 ^ k = (i % 2 ^ k + (m + n)) % 2 ^ k := by
  have hdvd : 2 ^ k ∣ 2 ^ 16 := pow_dvd_pow 2 hk
  have hwrap : (i + m) % 2 ^ 16 ≡ i + m [MOD 2 ^ k] := (Nat.mod_modEq _ _).of_dvd hdvd
  have hi : i % 2 ^ k ≡ i [MOD 2 ^ k] := Nat.mod_modEq _ _
  calc ((i + m) % 2 ^ 16 + n) % 2 ^ k = (i + m + n) % 2 ^ k := hwrap.add_right n
    _ = (i + (m + n)) % 2 ^ k := by rw [Nat.add_assoc]
    _ = (i % 2 ^ k + (m + n)) % 2 ^ k := (hi.add_right (m + n)).symm

theorem next_wrap (hk : k ≤ 16) (i : ℕ) : next (2 ^ k) (i % 2 ^ k) = (i + 1) % 2 ^ 16 % 2 ^ k := by
  have hpos : 0 < 2 ^ k := Nat.two_pow_pos k
  have hslot := slot_wrap hk i 1 0
  rw [Nat.add_zero] at hslot
  rw [next_eq_mod (Nat.mod_lt _ hpos), hslot]

theorem Stages.all_length (g : Stages α) :
    g.all.length = g.added.length + (g.published.length + (g.taken.length + g.used.length)) := by
  unfold Stages.all
  simp only [List.length_append, List.length_map]

theorem Inv.length_le {g : Stages α} (h : Inv k s free g) :
    g.added.length + (g.published.length + (g.taken.length + g.used.length)) + free.length ≤ 2 ^ k := by
  have hle := h.store.length_le
  rwa [g.all_length] at hle

theorem path_range' {desc : ℕ → Desc} {i n : ℕ} (hnext : ∀ j, i ≤ j → j + 1 < i + n → (desc j).next = j + 1) :
    Path desc i (List.range' i n) := by
  induction n generalizing i with
  | zero => trivial
  | succ n ih =>
    refine ⟨rfl, ?_⟩
    cases n with
    | zero => trivial
    | succ n =>
      rw [hnext i (le_refl i) (by omega)]
      exact ih fun j hj hjn => hnext j (by omega) (by omega)

theorem Inv.init (k : ℕ) : Inv (α := α) k (State.init (2 ^ k)) (List.range (2 ^ k)) ⟨[], [], [], []⟩ := by
  have hpos : 0 < 2 ^ k := Nat.two_pow_pos k
  constructor
  · constructor
    · rfl
    · rw [List.range_eq_range']
      apply path_range'
      intro j _ hj
      have hlt : j < 2 ^ k - 1 := by
        change j + 1 < 0 + 2 ^ k at hj
        omega
      exact if_pos hlt
    · exact List.length_range
    · exact fun x hx => (nomatch hx)
    · exact List.Perm.of_eq (List.append_nil _)
    · exact fun x hx => (nomatch hx)
    · exact List.Perm.nil
    · exact fun x hx => (nomatch hx)
  · exact isRing_nil (Nat.mod_lt _ hpos)
  · rfl
  · rfl
  · exact Nat.two_pow_pos 16
  · exact isRing_nil (Nat.mod_lt _ hpos)
  · rfl
  · exact Nat.two_pow_pos 16
  · rfl
  · exact List.Perm.nil

theorem Inv.enqueue {g : Stages α} (hk : k ≤ 15) (h : Inv k s free g) {out ins : List Scatter} {data : α}
    (hpos : 0 < out.length + ins.length) (hroom : out.length + ins.length ≤ s.queue.numFree) :
    ∃ free' g', Inv k (s.enqueue out ins data) free' g' := by
  have hnum := h.store.numFree
  have hle := h.length_le
  obtain ⟨xs, rest, rfl, hxs⟩ : ∃ xs rest, free = xs ++ rest ∧ xs.length = out.length + ins.length := by
    refine ⟨free.take (out.length + ins.length), free.drop (out.length + ins.length), ?_, ?_⟩
    · exact (List.take_append_drop _ _).symm
    · rw [List.length_take]
      omega
  have hstore := h.store.enqueue hxs (hxs ▸ hpos) data
  have hd := (List.nodup_append.1 (List.nodup_append.1 h.store.nodup).1).1
  obtain ⟨desc, henqueue, -⟩ := enqueue_eq data h.store.path hd hxs (hxs ▸ hpos)
  have hslot : (s.queue.availIdx + s.queue.numAdded) % s.queue.size =
      (s.lastAvail % 2 ^ k + ((g.published ++ g.added).map Request.head).length) % 2 ^ k := by
    rw [h.store.size, h.availIdx, slot_wrap (by omega), List.length_map, List.length_append, h.numAdded]
  generalize hx : (⟨s.record.enqueued.length, data, s.queue.freeHead, xs⟩ : Request α) = x at hstore
  have hhead : x.head = s.queue.freeHead := by rw [← hx]
  refine ⟨rest, ⟨g.added ++ [x], g.published, g.taken, g.used⟩, ?_⟩
  constructor
  · apply hstore.perm
    unfold Stages.all
    rw [List.append_assoc]
    exact List.perm_middle.symm
  · have hlt : ((g.published ++ g.added).map Request.head).length < 2 ^ k := by
      rw [List.length_map, List.length_append]
      omega
    have hpush := h.avail.push hlt s.queue.freeHead
    have hheads : (g.published ++ g.added ++ [x]).map Request.head =
        (g.published ++ g.added).map Request.head ++ [s.queue.freeHead] := by
      rw [List.map_append, List.map_singleton, hhead]
    unfold State.enqueue
    rw [henqueue]
    rw [hslot, ← List.append_assoc, hheads]
    exact hpush
  · rw [List.length_append, h.numAdded]
    rfl
  · exact h.availIdx
  · exact h.lastAvail
  · exact h.used
  · exact h.usedIdx
  · exact h.lastUsed
  · exact h.inflight
  · exact h.completed

theorem Inv.kick {g : Stages α} (h : Inv k s free g) :
    Inv k { s with queue := s.queue.kick } free ⟨[], g.published ++ g.added, g.taken, g.used⟩ := by
  constructor
  · have hperm : g.all.Perm (Stages.all ⟨[], g.published ++ g.added, g.taken, g.used⟩) := by
      unfold Stages.all
      rw [← List.append_assoc]
      exact List.perm_append_comm.append_right _
    exact (h.store.perm hperm).frame rfl rfl
  · rw [List.append_nil]
    exact h.avail
  · rfl
  · unfold Queue.kick
    dsimp only
    rw [h.availIdx, ← h.numAdded, List.length_append]
    omega
  · exact h.lastAvail
  · exact h.used
  · exact h.usedIdx
  · exact h.lastUsed
  · exact h.inflight
  · exact h.completed

theorem Inv.take {g : Stages α} (hk : k ≤ 15) (h : Inv k s free g) (hs : s.take = some s') :
    ∃ g', Inv k s' free g' := by
  unfold State.take at hs
  split at hs
  · nomatch hs
  · have hpub : g.published ≠ [] := by
      intro hnil
      have hidx := h.availIdx
      have hlast := h.lastAvail
      rw [hnil, List.length_nil] at hidx
      omega
    obtain ⟨x, xs, hx⟩ := List.exists_cons_of_ne_nil hpub
    have havail := h.avail
    rw [hx] at havail
    rw [h.store.size, havail.head] at hs
    obtain rfl := Option.some.inj hs
    refine ⟨⟨g.added, xs, g.taken ++ [x], g.used⟩, ?_⟩
    constructor
    · apply h.store.perm
      unfold Stages.all
      rw [hx, List.append_assoc]
      apply List.Perm.append_left
      apply List.Perm.trans _ (List.perm_middle.symm.append_left xs)
      exact List.perm_middle.symm
    · rw [← next_wrap (by omega)]
      exact havail.pop
    · exact h.numAdded
    · have hidx := h.availIdx
      rw [hx, List.length_cons] at hidx
      dsimp only
      omega
    · exact Nat.mod_lt _ (Nat.two_pow_pos 16)
    · exact h.used
    · exact h.usedIdx
    · exact h.lastUsed
    · rw [h.inflight, List.map_append, List.map_singleton]
    · exact h.completed

theorem Inv.complete {g : Stages α} (hk : k ≤ 15) (h : Inv k s free g) {head len : ℕ}
    (hs : s.complete head len = some s') : ∃ g', Inv k s' free g' := by
  unfold State.complete at hs
  split at hs
  · rename_i hmem
    obtain rfl := Option.some.inj hs
    obtain ⟨us, vs, -, hsplit, herase⟩ := List.exists_erase_eq hmem
    rw [h.inflight, List.map_eq_append_iff] at hsplit
    obtain ⟨ts, ts', hts, rfl, htail⟩ := hsplit
    rw [List.map_eq_cons_iff] at htail
    obtain ⟨x, xs, rfl, rfl, rfl⟩ := htail
    have hx : x ∈ g.all := by
      unfold Stages.all
      rw [hts]
      simp
    obtain ⟨-, howner, -⟩ := h.store.data x hx
    have hle := h.length_le
    rw [hts, List.length_append, List.length_cons] at hle
    have hslot : s.queue.usedIdx % s.queue.size =
        (s.queue.lastUsedIdx % 2 ^ k + (g.used.map fun u => (⟨u.1.head, u.2⟩ : UsedElem)).length) % 2 ^ k := by
      have hwrap := slot_wrap (show k ≤ 16 by omega) s.queue.lastUsedIdx g.used.length 0
      rw [Nat.add_zero, Nat.add_zero] at hwrap
      rw [h.store.size, h.usedIdx, hwrap, List.length_map]
    refine ⟨⟨g.added, g.published, ts ++ xs, g.used ++ [(x, len)]⟩, ?_⟩
    constructor
    · have hperm : g.all.Perm (Stages.all ⟨g.added, g.published, ts ++ xs, g.used ++ [(x, len)]⟩) := by
        unfold Stages.all
        rw [hts, List.map_append]
        apply List.Perm.append_left
        apply List.Perm.append_left
        rw [List.append_assoc, List.append_assoc]
        apply List.Perm.append_left
        rw [← List.append_assoc]
        exact (List.perm_append_singleton _ _).symm
      exact (h.store.perm hperm).frame rfl rfl
    · exact h.avail
    · exact h.numAdded
    · exact h.availIdx
    · exact h.lastAvail
    · have hlt : (g.used.map fun u => (⟨u.1.head, u.2⟩ : UsedElem)).length < 2 ^ k := by
        rw [List.length_map]
        omega
      rw [hslot, List.map_append]
      exact h.used.push hlt ⟨x.head, len⟩
    · have hidx := h.usedIdx
      dsimp only
      rw [List.length_append, List.length_singleton]
      omega
    · exact h.lastUsed
    · exact herase.trans List.map_append.symm
    · rw [howner, List.map_append, ← List.append_assoc]
      exact h.completed.append_right _
  · nomatch hs

theorem Inv.dequeue {g : Stages α} (hk : k ≤ 15) (h : Inv k s free g) :
    ∃ s' free' g', s.dequeue = some s' ∧ Inv k s' free' g' := by
  by_cases hidx : s.queue.lastUsedIdx = s.queue.usedIdx
  · exact ⟨s, free, g, if_pos hidx, h⟩
  · have hused : g.used ≠ [] := by
      intro hnil
      have husedIdx := h.usedIdx
      have hlast := h.lastUsed
      rw [hnil, List.length_nil] at husedIdx
      omega
    obtain ⟨⟨x, len⟩, xs, hx⟩ := List.exists_cons_of_ne_nil hused
    have hring := h.used
    rw [hx] at hring
    have hperm : g.all.Perm (x :: (g.added ++ (g.published ++ (g.taken ++ xs.map Prod.fst)))) := by
      unfold Stages.all
      rw [hx]
      apply List.Perm.trans (((List.perm_middle.append_left g.published).append_left g.added))
      apply List.Perm.trans (List.perm_middle.append_left g.added)
      exact List.perm_middle
    have hstore := h.store.perm hperm
    obtain ⟨q, hrelease, hq, hrest⟩ := hstore.release len
    obtain ⟨-, howner, -⟩ := hstore.data x List.mem_cons_self
    have hdequeue : s.dequeue = some { s with
        queue := { q with lastUsedIdx := (q.lastUsedIdx + 1) % 2 ^ 16 }
        record := { s.record with
          returned := s.record.returned ++ [(s.record.owner x.head, s.queue.data x.head, len)] } } := by
      unfold State.dequeue
      rw [if_neg hidx]
      dsimp only
      rw [h.store.size, hring.head]
      rw [hrelease]
      rfl
    refine ⟨_, x.chain ++ free, ⟨g.added, g.published, g.taken, xs⟩, hdequeue, ?_⟩
    rw [hrest] at hq ⊢
    constructor
    · exact hq.frame rfl rfl
    · exact h.avail
    · exact h.numAdded
    · exact h.availIdx
    · exact h.lastAvail
    · rw [← next_wrap (by omega)]
      exact hring.pop
    · have husedIdx := h.usedIdx
      rw [hx, List.length_cons] at husedIdx
      dsimp only
      omega
    · exact Nat.mod_lt _ (Nat.two_pow_pos 16)
    · exact h.inflight
    · have hdone := h.completed
      rw [hx] at hdone
      rw [List.map_append, List.append_assoc, howner]
      exact hdone

theorem reach_inv (hk : k ≤ 15) (hr : Reach step Legal (State.init (2 ^ k)) s) : ∃ free g, Inv k s free g := by
  apply hr.invariant ⟨_, _, Inv.init k⟩
  rintro a l b ⟨free, g, h⟩ hlegal hl
  cases l with
  | enqueue out ins data =>
    simp only [step] at hl
    split at hl
    · rename_i hroom
      obtain rfl := Option.some.inj hl
      exact h.enqueue hk hlegal hroom
    · nomatch hl
  | kick =>
    obtain rfl := Option.some.inj hl
    exact ⟨free, _, h.kick⟩
  | dequeue =>
    obtain ⟨s', free', g', hs', h'⟩ := h.dequeue hk
    obtain rfl := Option.some.inj (hs'.symm.trans hl)
    exact ⟨free', g', h'⟩
  | take => exact ⟨free, h.take hk hl⟩
  | complete head len => exact ⟨free, h.complete hk hl⟩

/-- The descriptors are those of the free list and those of the chains of requests that are not returned. -/
def Partitioned (s : State α) : Prop :=
  ∃ (free : List ℕ) (reqs : List (Request α)),
    Path s.queue.desc s.queue.freeHead free ∧ free.length = s.queue.numFree ∧
    (∀ x ∈ reqs, Linked s.queue.desc x.head x.chain ∧ (s.record.enqueued)[x.id]? = some x.token) ∧
    (free ++ reqs.flatMap Request.chain).Perm (List.range s.queue.size) ∧
    (s.record.returned.map Prod.fst ++ reqs.map Request.id).Perm (List.range s.record.enqueued.length)

/-- Every request is returned at most once, with its token and with the length that the device has reported for it. -/
structure Returns (s : State α) : Prop where
  once : (s.record.returned.map Prod.fst).Nodup
  reported : (s.record.completed.map Prod.fst).Nodup
  own : ∀ x ∈ s.record.returned, ∃ token, x.2.1 = some token ∧ (s.record.enqueued)[x.1]? = some token ∧
    (x.1, x.2.2) ∈ s.record.completed

/-- What the driver and a device do to a queue whose size is a power of two that fits in 16 bits. -/
theorem virtqueue (hk : k ≤ 15) (hr : Reach step Legal (State.init (2 ^ k)) s) :
    Partitioned s ∧ Returns s ∧ (∃ s', s.dequeue = some s') ∧
      (s.record.returned.length = s.record.enqueued.length → s.queue.numFree = s.queue.size) := by
  obtain ⟨free, g, h⟩ := reach_inv hk hr
  have hids := h.store.ids
  have hnodup : (s.record.returned.map Prod.fst ++ g.all.map Request.id).Nodup :=
    hids.nodup_iff.2 List.nodup_range
  refine ⟨⟨free, g.all, h.store.path, h.store.numFree, ?_, ?_, hids⟩, ?_, ?_, ?_⟩
  · intro x hx
    exact ⟨h.store.linked x hx, (h.store.data x hx).2.2⟩
  · rw [h.store.size]
    exact h.store.partition
  · constructor
    · exact (List.nodup_append.1 hnodup).1
    · have hperm := h.completed.map Prod.fst
      rw [List.map_append, List.map_map, List.map_map] at hperm
      apply hperm.nodup_iff.2
      have hids : g.all.map Request.id = (g.added ++ (g.published ++ g.taken)).map Request.id ++
          g.used.map (Prod.fst ∘ fun u => (u.1.id, u.2)) := by
        unfold Stages.all
        simp only [List.map_append, List.map_map, List.append_assoc]
        rfl
      have hused : (g.used.map (Prod.fst ∘ fun u => (u.1.id, u.2))).Sublist (g.all.map Request.id) := by
        rw [hids]
        exact List.sublist_append_right _ _
      exact hnodup.sublist (hused.append_left _)
    · intro x hx
      obtain ⟨token, htoken, hget⟩ := h.store.tokens x hx
      refine ⟨token, htoken, hget, ?_⟩
      apply h.completed.mem_iff.2
      exact List.mem_append_left _ (List.mem_map.2 ⟨x, hx, rfl⟩)
  · obtain ⟨s', -, -, hs', -⟩ := h.dequeue hk
    exact ⟨s', hs'⟩
  · intro hall
    have hlen := hids.length_eq
    rw [List.length_append, List.length_map, List.length_map, List.length_range] at hlen
    have hnil : g.all = [] := List.length_eq_zero_iff.1 (by omega)
    have hpart := h.store.partition.length_eq
    rw [hnil, List.flatMap_nil, List.append_nil, List.length_range, h.store.numFree] at hpart
    rw [hpart, h.store.size]

instance (s : State α) (a : Act α) : Decidable (Legal s a) := by
  unfold Legal
  split <;> infer_instance

/-- Two requests are completed in the other order, and returned; the second one takes two descriptors. -/
def exchangeRun : List (Act Bool) :=
  [.enqueue [⟨0, 512⟩] [] false, .enqueue [⟨512, 16⟩] [⟨1024, 512⟩] true, .kick, .take, .take, .complete 1 512,
    .complete 0 0, .dequeue, .dequeue]

def exchanged : State Bool := (runOk step Legal (State.init (2 ^ 2)) exchangeRun).get (by decide +kernel)

theorem virtqueue_exchanged :
    exchanged.record.returned = [(1, some true, 512), (0, some false, 0)] ∧ exchanged.queue.numFree = 4 ∧
      Partitioned exchanged ∧ Returns exchanged := by
  have hreach : Reach step Legal (State.init (2 ^ 2)) exchanged :=
    reach_of_runOk exchangeRun (Option.some_get _).symm
  have hqueue := virtqueue (by decide) hreach
  have hreturned : exchanged.record.returned = [(1, some true, 512), (0, some false, 0)] := by decide +kernel
  refine ⟨hreturned, ?_, hqueue.1, hqueue.2.1⟩
  decide +kernel

end SimpleKernel.Virtio
