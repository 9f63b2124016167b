import Mathlib.Data.List.Nodup
import Mathlib.Data.Nat.Notation
import Mathlib.Logic.Function.Basic

/-! Singly linked lists. `Chain next h xs` says that the nodes found from `h` on through the
`next` fields are `xs`, and that the last of them ends the list. -/
namespace SimpleKernel.LinkedList

variable {α : Type*}

def Chain (next : α → Option α) : Option α → List α → Prop
  | h, [] => h = none
  | h, a :: xs => h = some a ∧ Chain next (next a) xs

variable {next next' : α → Option α} {h : Option α} {xs ys : List α} {a : α}

theorem Chain.head (hc : Chain next h xs) : h = xs.head? := by
  cases xs with
  | nil => exact hc
  | cons a xs => exact hc.1

theorem Chain.congr (hc : Chain next h xs) (hn : ∀ a ∈ xs, next' a = next a) :
    Chain next' h xs := by
  induction xs generalizing h with
  | nil => exact hc
  | cons a xs ih =>
    obtain ⟨rfl, hc⟩ := hc
    refine ⟨rfl, ?_⟩
    rw [hn a (by simp)]
    exact ih hc fun b hb => hn b (by simp [hb])

theorem Chain.suffix (hc : Chain next h (xs ++ ys)) : Chain next (ys.head?) ys := by
  induction xs generalizing h with
  | nil => exact hc.head ▸ hc
  | cons a xs ih => exact ih hc.2

theorem chain_of_getElem (hn : ∀ i (hi : i < xs.length), next xs[i] = (xs)[i + 1]?) : Chain next xs.head? xs := by
  induction xs with
  | nil => rfl
  | cons a xs ih =>
    have hfirst : next a = xs.head? := (hn 0 (Nat.succ_pos _)).trans List.head?_eq_getElem?.symm
    refine ⟨rfl, ?_⟩
    rw [hfirst]
    exact ih fun i hi => hn (i + 1) (Nat.succ_lt_succ hi)

theorem Chain.unique (hc : Chain next h xs) (hc' : Chain next h ys) : xs = ys := by
  induction xs generalizing h ys with
  | nil =>
    rw [hc] at hc'
    exact (List.head?_eq_none_iff.mp hc'.head.symm).symm
  | cons a xs ih =>
    obtain ⟨rfl, hc⟩ := hc
    cases ys with
    | nil => exact absurd hc' (by simp [Chain])
    | cons b ys =>
      obtain ⟨hab, hc'⟩ := hc'
      obtain rfl := Option.some.inj hab
      rw [ih hc hc']

theorem Chain.nodup (hc : Chain next h xs) : xs.Nodup := by
  induction xs generalizing h with
  | nil => exact List.nodup_nil
  | cons a xs ih =>
    refine List.nodup_cons.mpr ⟨fun ha => ?_, ih hc.2⟩
    obtain ⟨ys, zs, rfl⟩ := List.append_of_mem ha
    have hloop : a :: zs = a :: (ys ++ a :: zs) :=
      Chain.unique (hc.2.suffix) ⟨rfl, hc.2⟩
    have := congrArg List.length hloop
    simp only [List.length_cons, List.length_append] at this
    omega

/-- The loop `for (p = a; p->next != NULL; p = p->next)`, for `n` rounds at most. -/
def lastFrom (next : α → Option α) : ℕ → α → Option α
  | 0, a => if next a = none then some a else none
  | n + 1, a =>
    match next a with
    | none => some a
    | some b => lastFrom next n b

theorem Chain.lastFrom {b : α} {n : ℕ} (hc : Chain next (some a) (xs ++ [b])) (hn : xs.length ≤ n) :
    lastFrom next n a = some b := by
  induction xs generalizing a n with
  | nil =>
    obtain ⟨hab, hnext⟩ := hc
    obtain rfl := Option.some.inj hab
    have hend : next a = none := hnext
    cases n <;> simp [LinkedList.lastFrom, hend]
  | cons c xs ih =>
    obtain ⟨hac, hc⟩ := hc
    obtain rfl := Option.some.inj hac
    obtain ⟨m, rfl⟩ : ∃ m, n = m + 1 := ⟨n - 1, by simp at hn; omega⟩
    rw [LinkedList.lastFrom]
    cases hnext : next a with
    | none =>
      rw [hnext] at hc
      simpa using hc.head
    | some d =>
      rw [hnext] at hc
      exact ih hc (by simpa using hn)

/-- The nodes from `h` on, `n` of them at most. -/
def follow (next : α → Option α) : ℕ → Option α → List α
  | _, none => []
  | 0, some _ => []
  | n + 1, some a => a :: follow next n (next a)

theorem Chain.follow {n : ℕ} (hc : Chain next h xs) (hn : xs.length ≤ n) : follow next n h = xs := by
  induction xs generalizing h n with
  | nil =>
    rw [show h = none from hc]
    cases n <;> rfl
  | cons a xs ih =>
    obtain ⟨rfl, hc⟩ := hc
    obtain ⟨m, rfl⟩ : ∃ m, n = m + 1 := ⟨n - 1, by simp at hn; omega⟩
    rw [LinkedList.follow, ih hc (by simpa using hn)]

variable [DecidableEq α]

theorem Chain.push (hc : Chain next h xs) (ha : a ∉ xs) :
    Chain (Function.update next a h) (some a) (a :: xs) := by
  refine ⟨rfl, ?_⟩
  rw [Function.update_self]
  refine hc.congr fun b hb => Function.update_of_ne ?_ _ _
  exact fun e => ha (e ▸ hb)

theorem Chain.redirect {b : α} {h' : Option α} {zs : List α} (hc : Chain next h (xs ++ b :: zs))
    (hys : Chain next h' ys) (hb : b ∉ ys) : Chain (Function.update next b h') h (xs ++ b :: ys) := by
  have hnodup := hc.nodup
  induction xs generalizing h with
  | nil =>
    obtain ⟨rfl, -⟩ := hc
    refine ⟨rfl, ?_⟩
    rw [Function.update_self]
    apply hys.congr
    intro a ha
    have hne : a ≠ b := fun e => hb (e ▸ ha)
    exact Function.update_of_ne hne _ _
  | cons c xs ih =>
    obtain ⟨rfl, hc⟩ := hc
    obtain ⟨hcb, hnodup⟩ := List.nodup_cons.mp hnodup
    have hne : c ≠ b := fun e => hcb (by simp [e])
    refine ⟨rfl, ?_⟩
    rw [Function.update_of_ne hne]
    exact ih hc hnodup

theorem Chain.append {b : α} (hc : Chain next h (xs ++ [b])) (ha : a ∉ xs ++ [b])
    (hnext : next a = none) : Chain (Function.update next b (some a)) h (xs ++ [b, a]) := by
  have hab : a ≠ b := fun e => ha (by simp [e])
  induction xs generalizing h with
  | nil =>
    obtain ⟨rfl, -⟩ := hc
    exact ⟨rfl, by simp, by simp [hab, hnext, Chain]⟩
  | cons c xs ih =>
    obtain ⟨rfl, hc⟩ := hc
    have hcb : c ≠ b := by
      have := (List.nodup_cons.mp (Chain.nodup ⟨rfl, hc⟩)).1
      rintro rfl
      simp at this
    refine ⟨rfl, ?_⟩
    rw [Function.update_of_ne hcb]
    exact ih hc fun hm => ha (List.mem_cons_of_mem _ hm)

end SimpleKernel.LinkedList

/-! Singly linked lists that share one `next` field, each node on one of them at most. -/
namespace SimpleKernel.LinkedList
open Function (update update_eq_self update_of_ne update_self)

variable {α κ : Type*}

/-- The lists `q`, which start at `head`. -/
structure Chains (next : α → Option α) (head : κ → Option α) (q : κ → List α) : Prop where
  chain : ∀ k, Chain next (head k) (q k)
  apart : ∀ k k' a, a ∈ q k → a ∈ q k' → k = k'

variable {next next' : α → Option α} {head : κ → Option α} {q : κ → List α} {k k' : κ} {a b : α}
  {xs ys : List α} {h : Option α}

theorem Chains.congr (hc : Chains next head q) (hn : ∀ k, ∀ a ∈ q k, next' a = next a) :
    Chains next' head q :=
  ⟨fun k => (hc.chain k).congr (hn k), hc.apart⟩

theorem Chains.not_mem (hc : Chains next head q) (ha : a ∈ q k) (hne : k' ≠ k) : a ∉ q k' :=
  fun ha' => hne (hc.apart k' k a ha' ha)

variable [DecidableEq κ]

theorem Chains.set (hc : Chains next head q) (hn : ∀ j, j ≠ k → ∀ a ∈ q j, next' a = next a)
    (hxs : Chain next' h xs) (hout : ∀ a ∈ xs, ∀ j, j ≠ k → a ∉ q j) :
    Chains next' (update head k h) (update q k xs) := by
  constructor
  · intro j
    by_cases hj : j = k
    · subst hj
      simpa using hxs
    · rw [update_of_ne hj, update_of_ne hj]
      exact (hc.chain j).congr (hn j hj)
  · intro i j a hi hj
    by_cases hik : i = k <;> by_cases hjk : j = k
    · rw [hik, hjk]
    · rw [hik, update_self] at hi
      rw [update_of_ne hjk] at hj
      exact absurd hj (hout a hi j hjk)
    · rw [hjk, update_self] at hj
      rw [update_of_ne hik] at hi
      exact absurd hi (hout a hj i hik)
    · rw [update_of_ne hik] at hi
      rw [update_of_ne hjk] at hj
      exact hc.apart i j a hi hj

theorem Chains.pop (hc : Chains next head q) (hk : q k = a :: xs) :
    Chains next (update head k (next a)) (update q k xs) := by
  have hchain := hc.chain k
  rw [hk] at hchain
  refine hc.set (fun _ _ _ _ => rfl) hchain.2 fun b hb j hj => ?_
  have hbk : b ∈ q k := by simp [hk, hb]
  exact hc.not_mem hbk hj

theorem Chains.clear (hc : Chains next head q) (k : κ) :
    Chains next (update head k none) (update q k []) :=
  hc.set (fun _ _ _ _ => rfl) rfl fun b hb => by simp at hb

theorem Chains.adopt (hc : Chains next head q) (hxs : Chain next h xs) (hout : ∀ a ∈ xs, ∀ j, a ∉ q j) :
    Chains next (update head k h) (update q k xs) :=
  hc.set (fun _ _ _ _ => rfl) hxs fun a ha j _ => hout a ha j

variable [DecidableEq α]

theorem Chains.push (hc : Chains next head q) (ha : ∀ j, a ∉ q j) :
    Chains (update next a (head k)) (update head k (some a))
      (update q k (a :: q k)) := by
  have hne : ∀ j, ∀ b ∈ q j, b ≠ a := fun j b hb e => ha j (e ▸ hb)
  refine hc.set (fun j _ b hb => update_of_ne (hne j b hb) _ _) ((hc.chain k).push (ha k)) ?_
  intro b hb j hj
  rcases List.mem_cons.mp hb with rfl | hb
  · exact ha j
  · exact hc.not_mem hb hj

theorem Chains.redirect {zs : List α} (hc : Chains next head q) (hk : q k = xs ++ b :: zs)
    (hys : Chain next h ys) (hb : b ∉ ys) (hout : ∀ a ∈ ys, ∀ j, j ≠ k → a ∉ q j) :
    Chains (update next b h) head (update q k (xs ++ b :: ys)) := by
  have hchain := hc.chain k
  rw [hk] at hchain
  have hbk : b ∈ q k := by simp [hk]
  have hset : Chains (update next b h) (update head k (head k))
      (update q k (xs ++ b :: ys)) := by
    refine hc.set (fun j hj a ha => update_of_ne ?_ _ _) (hchain.redirect hys hb) fun a ha j hj => ?_
    · rintro rfl
      exact hc.not_mem hbk hj ha
    · rcases List.mem_append.mp ha with ha | ha
      · have hak : a ∈ q k := by simp [hk, ha]
        exact hc.not_mem hak hj
      · rcases List.mem_cons.mp ha with rfl | ha
        · exact hc.not_mem hbk hj
        · exact hout a ha j hj
  rwa [update_eq_self] at hset

end SimpleKernel.LinkedList

/-! Loops that walk along a singly linked list and take nodes out of it or put them in front. -/
namespace SimpleKernel.LinkedList
open Function (update update_eq_self update_of_ne update_self)

variable {α κ : Type*}

/-- The loop that looks for a node, with the node before the one it finds. It takes `n` rounds at most. -/
def search (next : α → Option α) (found : α → Bool) : ℕ → Option α → Option α → Option (Option (Option α × α))
  | _, _, none => some none
  | 0, _, some _ => none
  | n + 1, prev, some a => if found a then some (some (prev, a)) else search next found n (some a) (next a)

variable {next : α → Option α} {found : α → Bool} {h : Option α} {head : κ → Option α} {q : κ → List α}
  {xs ys zs : List α} {a : α} {n : ℕ} {k : κ}

theorem Chain.search (hc : Chain next h xs) (hn : xs.length ≤ n) (prev : Option α) :
    (search next found n prev h = some none ∧ ∀ a ∈ xs, found a = false) ∨
      ∃ ys a zs, xs = ys ++ a :: zs ∧ found a = true ∧
        search next found n prev h = some (some (ys.getLast?.or prev, a)) := by
  induction xs generalizing h n prev with
  | nil =>
    left
    rw [show h = none from hc]
    exact ⟨by cases n <;> rfl, by simp⟩
  | cons c xs ih =>
    obtain ⟨rfl, hc⟩ := hc
    obtain ⟨m, rfl⟩ : ∃ m, n = m + 1 := ⟨n - 1, by simp at hn; omega⟩
    rw [LinkedList.search]
    by_cases hfound : found c = true
    · right
      exact ⟨[], c, xs, rfl, hfound, by simp [hfound]⟩
    · rw [if_neg hfound]
      rcases ih hc (by simpa using hn) (some c) with ⟨hnone, hall⟩ | ⟨ys, a, zs, rfl, ha, hsome⟩
      · left
        refine ⟨hnone, fun b hb => ?_⟩
        rcases List.mem_cons.mp hb with rfl | hb
        · exact Bool.eq_false_iff.mpr hfound
        · exact hall b hb
      · right
        refine ⟨c :: ys, a, zs, rfl, ha, hsome.trans ?_⟩
        cases ys with
        | nil => rfl
        | cons b ys => rfl

theorem Chain.next_eq (hc : Chain next h (xs ++ a :: zs)) : next a = zs.head? := by
  have hend := hc.suffix
  exact hend.2.head

theorem Chain.behind (hc : Chain next h xs) (ha : a ∈ xs) (hne : h ≠ some a) : ∃ b ∈ xs, next b = some a := by
  induction xs generalizing h with
  | nil => cases ha
  | cons c xs ih =>
    obtain ⟨rfl, hc⟩ := hc
    have hac : a ≠ c := fun e => hne (by rw [e])
    have hmem : a ∈ xs := by simpa [hac] using ha
    by_cases hfirst : next c = some a
    · exact ⟨c, by simp, hfirst⟩
    · obtain ⟨b, hb, hba⟩ := ih hc hmem hfirst
      exact ⟨b, by simp [hb], hba⟩

variable [DecidableEq α]

/-- The node `a` behind `prev` leaves the list: `prev->next = a->next`, or `head = a->next`. -/
def bypass (next : α → Option α) (head prev : Option α) (a : α) : (α → Option α) × Option α :=
  match prev with
  | none => (next, next a)
  | some b => (update next b (next a), head)

/-- The node `a` behind `prev` becomes the first one. -/
def toFront (next : α → Option α) (head prev : Option α) (a : α) : (α → Option α) × Option α :=
  match prev with
  | none => (next, head)
  | some b => (update (update next b (next a)) a head, some a)

/-- A node is looked for from the head on and taken out of the list. -/
def unlink (next : α → Option α) (head : Option α) (n : ℕ) (a : α) : Option ((α → Option α) × Option α) :=
  if head = some a then some (update next a none, next a)
  else
    match search next (fun b => decide (next b = some a)) n none head with
    | none => none
    | some none => some (update next a none, head)
    | some (some (_, b)) => some (update (update next b (next a)) a none, head)

theorem bypass_removed {prev : Option α} (hprev : prev ≠ some a) : (bypass next h prev a).1 a = next a := by
  cases prev with
  | none => rfl
  | some b =>
    have hab : a ≠ b := fun e => hprev (by rw [e])
    exact update_of_ne hab _ _

variable [DecidableEq κ]

theorem Chains.bypass (hc : Chains next head q) (hk : q k = ys ++ a :: zs) :
    Chains (bypass next (head k) ys.getLast? a).1
      (update head k (bypass next (head k) ys.getLast? a).2) (update q k (ys ++ zs)) := by
  rcases ys.eq_nil_or_concat with rfl | ⟨xs, b, rfl⟩
  · exact hc.pop hk
  · have hchain := hc.chain k
    rw [hk] at hchain
    have hrest : Chain next (next a) zs := (hchain.suffix).2
    have hnodup := hchain.nodup
    have hb : b ∉ zs := by
      simp only [List.concat_eq_append, List.append_assoc, List.nodup_cons] at hnodup
      grind
    have hout : ∀ c ∈ zs, ∀ j, j ≠ k → c ∉ q j := by
      intro c hmem j hj
      have hck : c ∈ q k := by simp [hk, hmem]
      exact hc.not_mem hck hj
    have hk' : q k = xs ++ b :: (a :: zs) := by simpa using hk
    simpa [LinkedList.bypass] using hc.redirect hk' hrest hb hout

theorem Chains.toFront (hc : Chains next head q) (hk : q k = ys ++ a :: zs) :
    Chains (toFront next (head k) ys.getLast? a).1
      (update head k (toFront next (head k) ys.getLast? a).2)
      (update q k (a :: (ys ++ zs))) := by
  rcases ys.eq_nil_or_concat with rfl | ⟨xs, b, rfl⟩
  · rw [List.nil_append] at hk
    rw [List.nil_append, ← hk]
    simpa [LinkedList.toFront] using hc
  · have hout := hc.bypass hk
    have ha : ∀ j, a ∉ update q k (xs.concat b ++ zs) j := by
      intro j hj
      by_cases hjk : j = k
      · subst hjk
        have hnodup := (hc.chain j).nodup
        rw [hk] at hnodup
        rw [update_self] at hj
        exact (List.nodup_middle.mp hnodup |> List.nodup_cons.mp).1 hj
      · rw [update_of_ne hjk] at hj
        have hak : a ∈ q k := by simp [hk]
        exact hc.not_mem hak hjk hj
    have hpush := hout.push (k := k) ha
    simpa [LinkedList.toFront, LinkedList.bypass] using hpush

omit [DecidableEq κ] in
theorem Chains.detach (hc : Chains next head q) (ha : ∀ j, a ∉ q j) (b : Option α) :
    Chains (update next a b) head q := by
  refine hc.congr fun j c hmem => update_of_ne ?_ _ _
  rintro rfl
  exact ha j hmem

theorem Chains.unlink (hc : Chains next head q) (ha : ∀ j, j ≠ k → a ∉ q j) (hn : (q k).length ≤ n) :
    ∃ next' h, unlink next (head k) n a = some (next', h) ∧
      Chains next' (update head k h) (update q k ((q k).erase a)) := by
  have hchain := hc.chain k
  have hgone (ys zs : List α) (hk : q k = ys ++ a :: zs) :
      (q k).erase a = ys ++ zs ∧ ∀ j, a ∉ update q k (ys ++ zs) j := by
    have hnodup := List.nodup_cons.mp (List.nodup_middle.mp (hk ▸ hchain.nodup))
    constructor
    · rw [hk, List.erase_append_right _ fun h => hnodup.1 (by simp [h]), List.erase_cons_head]
    · intro j
      by_cases hj : j = k
      · subst hj
        rw [update_self]
        exact hnodup.1
      · rw [update_of_ne hj]
        exact ha j hj
  rw [LinkedList.unlink]
  by_cases hfirst : head k = some a
  · rw [if_pos hfirst]
    obtain ⟨zs, hk⟩ : ∃ zs, q k = a :: zs := by
      cases hq : q k with
      | nil => simp [hq, hfirst, Chain] at hchain
      | cons b zs =>
        rw [hq, hfirst] at hchain
        obtain rfl := Option.some.inj hchain.1
        exact ⟨zs, rfl⟩
    obtain ⟨herase, hout⟩ := hgone [] zs hk
    refine ⟨_, _, rfl, ?_⟩
    rw [herase]
    exact (hc.pop hk).detach hout none
  · rw [if_neg hfirst]
    rcases hchain.search hn none with ⟨hnone, hall⟩ | ⟨ys, b, zs, hk, hb, hsome⟩
    · have hnot : a ∉ q k := by
        intro hmem
        obtain ⟨b, hb, hba⟩ := hchain.behind hmem hfirst
        exact of_decide_eq_false (hall b hb) hba
      have hout : ∀ j, a ∉ q j := by
        intro j
        by_cases hj : j = k
        · exact hj ▸ hnot
        · exact ha j hj
      rw [hnone, List.erase_of_not_mem hnot, update_eq_self]
      refine ⟨_, _, rfl, ?_⟩
      rw [update_eq_self]
      exact hc.detach hout none
    · have hnext : next b = some a := by simpa using hb
      rw [hk] at hchain
      obtain ⟨zs, rfl⟩ : ∃ ws, zs = a :: ws := by
        have hhead := hchain.next_eq
        rw [hnext] at hhead
        cases zs with
        | nil => cases hhead
        | cons c ws =>
          obtain rfl := Option.some.inj hhead
          exact ⟨ws, rfl⟩
      have hk' : q k = ys.concat b ++ a :: zs := by simpa using hk
      obtain ⟨herase, hout⟩ := hgone _ _ hk'
      rw [hsome, herase]
      have hback := (hc.bypass hk').detach hout none
      have hlast : (ys.concat b).getLast? = some b := by simp
      rw [hlast] at hback
      exact ⟨_, _, rfl, hback⟩

end SimpleKernel.LinkedList
