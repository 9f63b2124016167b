import Mathlib.Data.Fintype.Card
import SimpleKernel.Lib.LinkedList
import SimpleKernel.Lib.Transition

/-! The tree of threads. `create_thread` puts a thread in front of the children of the running
thread; `destroy_thread` takes it out and moves its own children to its parent. -/
namespace SimpleKernel.Sched
open LinkedList Transition
open Function (update update_of_ne)

/-- The use of a thread control block. A `dead` block waits for `destroy_tcb`. -/
inductive Tcb where
  | unused | alive | terminated | dead
  deriving DecidableEq, Repr

/-- `siblings` are the fields `next_sibling` and `prev_sibling`. -/
structure ThreadTree (τ : Type) where
  cur : τ
  tcb : τ → Tcb
  parent : τ → Option τ
  children : τ → Option τ
  siblings : Links τ

inductive TreeLabel (τ : Type) where
  | create (t : τ)
  | terminate
  | destroy (t : τ)
  | destroyTcb (t : τ)
  | switch (t : τ)

/-- The loop of `destroy_thread` over the children: the parent fields and the last child. -/
def adopt {τ : Type} [DecidableEq τ] (next : τ → Option τ) (p : τ) :
    ℕ → (τ → Option τ) → τ → Option ((τ → Option τ) × τ)
  | 0, _, _ => none
  | n + 1, parent, child =>
    match next child with
    | some c => adopt next p n (update parent child (some p)) c
    | none => some (parent, child)

namespace ThreadTree
variable {τ : Type} [DecidableEq τ]

def live (s : ThreadTree τ) (t : τ) : Prop := s.tcb t = .alive ∨ s.tcb t = .terminated

instance (s : ThreadTree τ) (t : τ) : Decidable (s.live t) := inferInstanceAs (Decidable (_ ∨ _))

/-- The parent of every thread but the root is live, and the children list of a live thread has
exactly the live threads whose parent it is. -/
structure TreeOk (s : ThreadTree τ) (root : τ) : Prop where
  top : s.live root ∧ s.parent root = none
  parent : ∀ t, s.live t → t ≠ root → ∃ p, s.parent t = some p ∧ s.live p
  children : ∀ p, s.live p → ∃ xs, IsBucket s.siblings (s.children p) xs ∧
    ∀ t, t ∈ xs ↔ s.live t ∧ s.parent t = some p

/-- The running thread creates a thread in the block `t`, which is filled with zeros first. -/
def createThread (s : ThreadTree τ) (t : τ) : ThreadTree τ :=
  let siblings := s.siblings.clear t
  { s with
    tcb := update s.tcb t .alive
    parent := update s.parent t (some s.cur)
    children := update (update s.children t none) s.cur (some t)
    siblings :=
      match s.children s.cur with
      | some c => (siblings.setNext (some t) (some c)).setPrev (some c) (some t)
      | none => siblings }

/-- `t` is taken out of the children list of its parent `p`. -/
def removeFromParent (s : ThreadTree τ) (t p : τ) : ThreadTree τ :=
  { s with
    tcb := update s.tcb t .dead
    siblings := s.siblings.bypass t
    children := if s.children p = some t then update s.children p (s.siblings.next t)
      else s.children }

variable [Fintype τ]

/-- The root has no parent; destroying it reads through a null pointer. -/
def destroyThread (s : ThreadTree τ) (t : τ) : Option (ThreadTree τ) :=
  match s.parent t with
  | none => none
  | some p =>
    let s := s.removeFromParent t p
    match s.children t with
    | none => some s
    | some first =>
      match adopt s.siblings.next p (Fintype.card τ) s.parent first with
      | none => none
      | some (parent, last) =>
        some { s with
          parent := parent
          children := update s.children p (some first)
          siblings :=
            match s.children p with
            | some c => (s.siblings.setPrev (some c) (some last)).setNext (some last) (some c)
            | none => s.siblings }

/-- `create` takes an unused block from the page allocator; `destroy_thread` panics unless the
thread has terminated. -/
def step (s : ThreadTree τ) : TreeLabel τ → Option (ThreadTree τ)
  | .create t =>
    if s.tcb s.cur = .alive ∧ s.tcb t = .unused then some (s.createThread t) else none
  | .terminate =>
    if s.tcb s.cur = .alive then some { s with tcb := update s.tcb s.cur .terminated }
    else none
  | .destroy t => if s.tcb t = .terminated then s.destroyThread t else none
  | .destroyTcb t =>
    if s.tcb t = .dead then some { s with tcb := update s.tcb t .unused } else none
  | .switch t => if s.tcb t = .alive then some { s with cur := t } else none

end ThreadTree

/-- `init_sched`: the first thread. -/
def initTree {τ : Type} [DecidableEq τ] (root : τ) : ThreadTree τ where
  cur := root
  tcb := update (fun _ => .unused) root .alive
  parent := fun _ => none
  children := fun _ => none
  siblings := ⟨fun _ => none, fun _ => none⟩

namespace ThreadTree
variable {τ : Type} [DecidableEq τ] {s s' : ThreadTree τ} {root t p : τ}

/-- No thread with children is destroyed. -/
def Childless (s : ThreadTree τ) : TreeLabel τ → Prop
  | .destroy t => s.children t = none
  | _ => True

/-- `TreeOk`, and no thread is its own parent. -/
structure Inv (s : ThreadTree τ) (root : τ) : Prop extends s.TreeOk root where
  irrefl : ∀ t, s.live t → s.parent t ≠ some t

theorem inv_initTree (root : τ) : (initTree root).Inv root := by
  have hlive (t : τ) : (initTree root).live t ↔ t = root := by
    rcases eq_or_ne t root with rfl | ht
    · simp [live, initTree]
    · simp [live, initTree, ht]
  refine ⟨⟨⟨(hlive root).mpr rfl, rfl⟩, ?_, ?_⟩, ?_⟩
  · intro t ht hne
    exact absurd ((hlive t).mp ht) hne
  · intro p hp
    exact ⟨[], isBucket_nil _, by simp [initTree]⟩
  · simp [initTree]

section
omit [DecidableEq τ]

theorem Inv.congr (h : s.Inv root) (hl : ∀ t, s'.live t ↔ s.live t) (hp : s'.parent = s.parent)
    (hc : s'.children = s.children) (hs : s'.siblings = s.siblings) : s'.Inv root := by
  refine ⟨⟨?_, ?_, ?_⟩, ?_⟩
  · rw [hl, hp]
    exact h.top
  · intro t
    simp only [hl, hp]
    exact h.parent t
  · intro p
    simp only [hl, hp, hc, hs]
    exact h.children p
  · intro t
    rw [hl, hp]
    exact h.irrefl t

theorem TreeOk.not_parent (h : s.TreeOk root) (hp : s.live p) (hc : s.children p = none)
    (ht : s.live t) : s.parent t ≠ some p := by
  obtain ⟨xs, hb, hm⟩ := h.children p hp
  have hnil : xs = [] := List.head?_eq_none_iff.mp (hb.head.symm.trans hc)
  intro hpar
  have hx := (hm t).mpr ⟨ht, hpar⟩
  rw [hnil] at hx
  simp at hx

theorem TreeOk.live_parent (h : s.TreeOk root) (ht : s.live t) (hp : s.parent t = some p) :
    s.live p := by
  have hne : t ≠ root := by
    rintro rfl
    exact absurd (hp.symm.trans h.top.2) (by simp)
  obtain ⟨p', hp', hl⟩ := h.parent t ht hne
  rwa [Option.some.inj (hp.symm.trans hp')]

end

theorem createThread_siblings (ht : s.children s.cur ≠ some t) :
    (s.createThread t).siblings = (s.siblings.clear t).prepend (s.children s.cur) t := by
  unfold createThread Links.prepend
  cases hc : s.children s.cur with
  | none =>
    simp only [Links.setNext, Links.setPrev, Links.clear, Links.mk.injEq]
    constructor <;> funext x <;> split_ifs <;> simp_all
  | some c =>
    simp only [Links.setNext, Links.setPrev, Links.clear, Links.mk.injEq, true_and]
    funext x
    split_ifs <;> simp_all

theorem live_createThread {u : τ} : (s.createThread t).live u ↔ u = t ∨ s.live u := by
  unfold live createThread
  rcases eq_or_ne u t with rfl | hu
  · simp
  · simp [hu]

theorem Inv.createThread (h : s.Inv root) (hcur : s.tcb s.cur = .alive) (ht : s.tcb t = .unused) :
    (s.createThread t).Inv root := by
  have hnew : ¬s.live t := by simp [live, ht]
  have hne : s.cur ≠ t := by
    rintro rfl
    simp [ht] at hcur
  have hlive : s.live s.cur := Or.inl hcur
  have hparent (u : τ) (hu : s.live u) : (s.createThread t).parent u = s.parent u := by
    have hut : u ≠ t := fun e => hnew (e ▸ hu)
    simp [ThreadTree.createThread, hut]
  have hparent_t : (s.createThread t).parent t = some s.cur := by simp [ThreadTree.createThread]
  refine ⟨⟨⟨?_, ?_⟩, ?_, ?_⟩, ?_⟩
  · exact live_createThread.mpr (Or.inr h.top.1)
  · rw [hparent root h.top.1, h.top.2]
  · intro u hu hroot
    rcases live_createThread.mp hu with rfl | hu
    · exact ⟨s.cur, hparent_t, live_createThread.mpr (Or.inr hlive)⟩
    · obtain ⟨p, hp, hpl⟩ := h.parent u hu hroot
      exact ⟨p, (hparent u hu).trans hp, live_createThread.mpr (Or.inr hpl)⟩
  · intro p hp
    obtain ⟨xs, hb, hm⟩ := h.children s.cur hlive
    have htx : t ∉ xs := fun hx => hnew ((hm t).mp hx).1
    have hfirst : s.children s.cur ≠ some t := fun e => htx (List.mem_of_head? (hb.head ▸ e))
    have hb' : IsBucket (s.siblings.clear t) (s.children s.cur) xs :=
      hb.congr (clear_frame _ htx).1 (clear_frame _ htx).2
    rw [createThread_siblings hfirst]
    rcases eq_or_ne p s.cur with rfl | hpc
    · refine ⟨t :: xs, ?_, fun u => ?_⟩
      · simpa [ThreadTree.createThread] using hb'.prepend htx
      · rw [List.mem_cons, hm, live_createThread]
        rcases eq_or_ne u t with rfl | hu
        · simp [hparent_t]
        · simp [ThreadTree.createThread, hu]
    · rcases live_createThread.mp hp with rfl | hp
      · refine ⟨[], ?_, fun u => ?_⟩
        · simpa [ThreadTree.createThread, hpc] using isBucket_nil _
        · simp only [List.not_mem_nil, false_iff, not_and]
          intro hu hpar
          rcases live_createThread.mp hu with rfl | hu
          · exact hne (Option.some.inj (hparent_t.symm.trans hpar))
          · exact hnew (h.live_parent hu ((hparent u hu).symm.trans hpar))
      · obtain ⟨ys, hy, hmy⟩ := h.children p hp
        have hty : t ∉ ys := fun hx => hnew ((hmy t).mp hx).1
        have hframe (b : τ) (hb : b ∈ ys) : b ∉ xs := fun hx =>
          hpc (Option.some.inj (((hmy b).mp hb).2.symm.trans ((hm b).mp hx).2))
        have htne : ∀ b ∈ ys, t ≠ b := fun b hb e => hty (e ▸ hb)
        have hpt : p ≠ t := fun e => hnew (e ▸ hp)
        have hy' := hy.congr (clear_frame s.siblings hty).1 (clear_frame s.siblings hty).2
        refine ⟨ys, ?_, fun u => ?_⟩
        · rw [show (s.createThread t).children p = s.children p by
            simp [ThreadTree.createThread, hpc, hpt]]
          exact hy'.congr (fun b hx => (prepend_frame hb' (hframe b hx) (htne b hx)).1)
            fun b hx => (prepend_frame hb' (hframe b hx) (htne b hx)).2
        · rw [hmy, live_createThread]
          rcases eq_or_ne u t with rfl | hu
          · simp [hparent_t, hnew, Ne.symm hpc]
          · simp [ThreadTree.createThread, hu]
  · intro u hu
    rcases live_createThread.mp hu with rfl | hu
    · rw [hparent_t]
      simpa using hne
    · rw [hparent u hu]
      exact h.irrefl u hu

theorem live_removeFromParent {u : τ} : (s.removeFromParent t p).live u ↔ u ≠ t ∧ s.live u := by
  unfold live removeFromParent
  rcases eq_or_ne u t with rfl | hu
  · simp
  · simp [hu]

theorem children_removeFromParent {u : τ} (hu : u ≠ p) : (s.removeFromParent t p).children u = s.children u := by
  unfold removeFromParent
  split_ifs <;> simp [hu]

theorem children_removeFromParent_self : (s.removeFromParent t p).children p =
    if s.children p = some t then s.siblings.next t else s.children p := by
  unfold removeFromParent
  split_ifs <;> simp

theorem Inv.removed_list (h : s.Inv root) (ht : s.live t) (hp : s.parent t = some p) {u : τ}
    (hu : s.live u) : ∃ xs, IsBucket (s.removeFromParent t p).siblings ((s.removeFromParent t p).children u) xs ∧
      ∀ v, v ∈ xs ↔ v ≠ t ∧ s.live v ∧ s.parent v = some u := by
  obtain ⟨zs, hz, hmz⟩ := h.children p (h.live_parent ht hp)
  have htz : t ∈ zs := (hmz t).mpr ⟨ht, hp⟩
  rcases eq_or_ne u p with rfl | hup
  · obtain ⟨xs, ys, rfl⟩ := List.append_of_mem htz
    refine ⟨xs ++ ys, ?_, fun v => ?_⟩
    · rw [children_removeFromParent_self]
      exact hz.bypass
    · have hnd := List.nodup_cons.mp (List.nodup_middle.mp hz.nodup)
      rw [← hmz]
      rcases eq_or_ne v t with rfl | hv
      · simpa using hnd.1
      · simp [hv]
  · obtain ⟨xs, hx, hmx⟩ := h.children u hu
    have hdisj (v : τ) (hv : v ∈ xs) : v ∉ zs := fun hz =>
      hup (Option.some.inj (((hmx v).mp hv).2.symm.trans ((hmz v).mp hz).2))
    refine ⟨xs, ?_, fun v => ?_⟩
    · rw [children_removeFromParent hup]
      exact hx.congr (fun b hb => (hz.bypass_frame htz (hdisj b hb)).1)
        fun b hb => (hz.bypass_frame htz (hdisj b hb)).2
    · rw [hmx]
      refine ⟨fun hv => ⟨?_, hv⟩, And.right⟩
      rintro rfl
      exact hup (Option.some.inj (hv.2.symm.trans hp))

theorem Inv.removeFromParent (h : s.Inv root) (ht : s.live t) (hp : s.parent t = some p)
    (hc : s.children t = none) : (s.removeFromParent t p).Inv root := by
  have hroot : root ≠ t := by
    rintro rfl
    exact absurd (hp.symm.trans h.top.2) (by simp)
  refine ⟨⟨⟨?_, h.top.2⟩, ?_, ?_⟩, ?_⟩
  · exact live_removeFromParent.mpr ⟨hroot, h.top.1⟩
  · intro u hu hne
    obtain ⟨-, hul⟩ := live_removeFromParent.mp hu
    obtain ⟨q, hq, hql⟩ := h.parent u hul hne
    refine ⟨q, hq, live_removeFromParent.mpr ⟨?_, hql⟩⟩
    rintro rfl
    exact h.not_parent ht hc hul hq
  · intro u hu
    obtain ⟨-, hu⟩ := live_removeFromParent.mp hu
    obtain ⟨xs, hx, hmx⟩ := h.removed_list ht hp hu
    refine ⟨xs, hx, fun v => ?_⟩
    rw [hmx, live_removeFromParent, and_assoc]
    rfl
  · intro u hu
    exact h.irrefl u (live_removeFromParent.mp hu).2

theorem adopt_eq {next : τ → Option τ} {l : Links τ} {c : τ} {cs : List τ} {prev : Option τ}
    (hs : Seg l prev (c :: cs) none) (hnext : l.next = next) (p : τ) {n : ℕ}
    (hn : cs.length < n) (hd : (c :: cs).Nodup) (parent : τ → Option τ) :
    ∃ parent' last, adopt next p n parent c = some (parent', last) ∧ last ∈ c :: cs ∧
      parent' last = parent last ∧ ∀ u, u ∉ c :: cs → parent' u = parent u := by
  subst hnext
  induction cs generalizing c n prev parent with
  | nil =>
    obtain ⟨n, rfl⟩ := Nat.exists_eq_succ_of_ne_zero (Nat.pos_iff_ne_zero.mp hn)
    obtain ⟨-, hnext, -⟩ := hs
    refine ⟨parent, c, ?_, by simp, rfl, fun _ _ => rfl⟩
    rw [adopt, hnext]
    rfl
  | cons d ds ih =>
    obtain ⟨n, rfl⟩ := Nat.exists_eq_succ_of_ne_zero (show n ≠ 0 by omega)
    obtain ⟨-, hnext, hs⟩ := hs
    obtain ⟨hcd, hd⟩ := List.nodup_cons.mp hd
    obtain ⟨parent', last, hrun, hlast, hkept, hframe⟩ :=
      ih hs (by simpa using hn) hd (update parent c (some p))
    have hne : last ≠ c := fun e => hcd (e ▸ hlast)
    refine ⟨parent', last, ?_, List.mem_cons_of_mem _ hlast, ?_, fun u hu => ?_⟩
    · rw [adopt, hnext]
      exact hrun
    · rw [hkept, update_of_ne hne]
    · rw [List.mem_cons, not_or] at hu
      rw [hframe u hu.2, update_of_ne hu.1]

variable [Fintype τ]

/-- Destroying a thread without children keeps the tree in order; otherwise the last child is
left with a parent that is gone. -/
theorem Inv.destroyThread (h : s.Inv root) (ht : s.live t) (hne : t ≠ root) :
    ∃ s', s.destroyThread t = some s' ∧ ¬s'.live t ∧ (s.children t = none → s'.Inv root) ∧
      (s.children t ≠ none → ∃ u, s'.live u ∧ s'.parent u = some t) := by
  obtain ⟨p, hp, -⟩ := h.parent t ht hne
  have htp : t ≠ p := fun e => h.irrefl t ht (e ▸ hp)
  have hgone : ¬(s.removeFromParent t p).live t := fun e => (live_removeFromParent.mp e).1 rfl
  rw [ThreadTree.destroyThread, hp]
  simp only [children_removeFromParent htp]
  cases hc : s.children t with
  | none =>
    exact ⟨s.removeFromParent t p, rfl, hgone, fun _ => h.removeFromParent ht hp hc, by simp⟩
  | some first =>
    obtain ⟨xs, hx, hmx⟩ := h.removed_list ht hp ht
    rw [children_removeFromParent htp, hc] at hx
    obtain ⟨cs, rfl⟩ : ∃ cs, xs = first :: cs := List.head?_eq_some_iff.mp hx.head.symm
    have hlen : cs.length < Fintype.card τ := by
      have := hx.nodup.length_le_card
      simp only [List.length_cons] at this
      omega
    obtain ⟨parent', last, hrun, hlast, hkept, -⟩ :=
      adopt_eq hx.seg rfl p hlen hx.nodup (s.removeFromParent t p).parent
    obtain ⟨hlt, hll, hlp⟩ := (hmx last).mp hlast
    simp only [hrun]
    refine ⟨_, rfl, hgone, by simp, fun _ => ⟨last, ?_, ?_⟩⟩
    · exact (live_removeFromParent (p := p)).mpr ⟨hlt, hll⟩
    · exact hkept.trans hlp

theorem Inv.step {l : TreeLabel τ} (h : s.Inv root) (hok : s.Childless l)
    (hl : s.step l = some s') : s'.Inv root := by
  cases l with
  | create t =>
    obtain ⟨⟨hcur, ht⟩, hl⟩ := Option.ite_none_right_eq_some.mp hl
    obtain rfl := Option.some.inj hl
    exact h.createThread hcur ht
  | terminate =>
    obtain ⟨hcur, hl⟩ := Option.ite_none_right_eq_some.mp hl
    obtain rfl := Option.some.inj hl
    refine h.congr (fun t => ?_) rfl rfl rfl
    rcases eq_or_ne t s.cur with rfl | ht
    · simp [live, hcur]
    · simp [live, ht]
  | destroy t =>
    obtain ⟨ht, hl⟩ := Option.ite_none_right_eq_some.mp hl
    have hne : t ≠ root := by
      rintro rfl
      simp [ThreadTree.destroyThread, h.top.2] at hl
    obtain ⟨r, hr, -, hkeep, -⟩ := h.destroyThread (Or.inr ht) hne
    obtain rfl := Option.some.inj (hr.symm.trans hl)
    exact hkeep hok
  | destroyTcb t =>
    obtain ⟨ht, hl⟩ := Option.ite_none_right_eq_some.mp hl
    obtain rfl := Option.some.inj hl
    refine h.congr (fun u => ?_) rfl rfl rfl
    rcases eq_or_ne u t with rfl | hu
    · simp [live, ht]
    · simp [live, hu]
  | switch t =>
    obtain ⟨-, hl⟩ := Option.ite_none_right_eq_some.mp hl
    obtain rfl := Option.some.inj hl
    exact h.congr (fun _ => Iff.rfl) rfl rfl rfl

/-- As long as only threads without children are destroyed the tree is in order. The first
thread with children that is destroyed leaves a live thread whose parent is gone. -/
theorem thread_tree_ok (h : Reach step Childless (initTree root) s) :
    s.TreeOk root ∧ ∀ t, s.tcb t = .terminated → t ≠ root → ∃ s', s.step (.destroy t) = some s' ∧
      (s'.TreeOk root ↔ s.children t = none) ∧
      ((∀ u, s'.live u → s'.parent u ≠ some t) ↔ s.children t = none) := by
  have hinv : s.Inv root := h.invariant (P := fun s => s.Inv root) (inv_initTree root)
    fun _ _ _ ha hok hl => ha.step hok hl
  refine ⟨hinv.toTreeOk, fun t ht hne => ?_⟩
  obtain ⟨s', hs', hgone, hkeep, hbreak⟩ := hinv.destroyThread (Or.inr ht) hne
  have hparent (hok : s'.TreeOk root) (u : τ) (hu : s'.live u) : s'.parent u ≠ some t :=
    fun hp => hgone (hok.live_parent hu hp)
  have hchildless (hok : ∀ u, s'.live u → s'.parent u ≠ some t) : s.children t = none := by
    by_contra hc
    obtain ⟨u, hu, hp⟩ := hbreak hc
    exact hok u hu hp
  refine ⟨s', by rw [step, if_pos ht, hs'], ⟨?_, ?_⟩, ⟨hchildless, ?_⟩⟩
  · intro hok
    exact hchildless (hparent hok)
  · intro hc
    exact (hkeep hc).toTreeOk
  · intro hc
    exact hparent (hkeep hc).toTreeOk

/-- Thread 0 creates thread 1, which ends. -/
def loneChild : ThreadTree (Fin 3) :=
  { (initTree 0).createThread 1 with
    cur := 1
    tcb := update ((initTree 0).createThread 1).tcb 1 .terminated }

theorem thread_tree_ok_loneChild : loneChild.TreeOk 0 ∧
    ∃ s', loneChild.step (.destroy 1) = some s' ∧ s'.TreeOk 0 := by
  have hreach : Reach step Childless (initTree 0) loneChild := by
    refine Reach.tail (l := .terminate) (Reach.tail (l := .switch 1) (Reach.single (l := .create 1)
      trivial rfl) trivial rfl) trivial rfl
  obtain ⟨hok, hdestroy⟩ := thread_tree_ok hreach
  obtain ⟨s', hs', hiff, -⟩ := hdestroy 1 rfl (by decide)
  exact ⟨hok, s', hs', hiff.mpr rfl⟩

/-- Thread 0 creates thread 1, thread 1 creates thread 2 and ends. When thread 1 is destroyed,
it is still the parent of thread 2. -/
theorem destroyed_parent : ∃ s : ThreadTree (Fin 3),
    run step (initTree 0) [.create 1, .switch 1, .create 2, .terminate, .destroy 1] = some s ∧
      s.live 2 ∧ s.parent 2 = some 1 ∧ ¬s.live 1 ∧ ¬s.TreeOk 0 := by
  refine ⟨_, rfl, by decide, by decide, by decide, fun h => ?_⟩
  exact absurd (h.live_parent (t := 2) (p := 1) (by decide) (by decide)) (by decide)

end ThreadTree

end SimpleKernel.Sched
