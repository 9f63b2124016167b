import SimpleKernel.Lib.ListFamily
import SimpleKernel.Object.System

/-! The wait lists as queues. `Linked s q` says that the wait lists are the queues `q` of wait blocks, and that
these are the blocks of the threads' own chains. -/
namespace SimpleKernel.Object
open LinkedList Sched
open Function (update update_of_ne update_self)

variable {τ ι : Type}

abbrev Queues (τ ι : Type) := ObjId τ ι → List (Wb τ)

/-- `(t, m)` is one of the blocks `wbs` of `t`, numbered from `n` on, and waits for `o`. -/
def BlockAt (wbs : List (Waitblock τ ι)) (n : ℕ) (o : ObjId τ ι) (m : ℕ) : Prop :=
  ∃ k wb, m = n + k ∧ wbs[k]? = some wb ∧ wb.object = o

theorem blockAt_nil (n m : ℕ) (o : ObjId τ ι) : ¬ BlockAt [] n o m := by
  rintro ⟨k, wb, -, h, -⟩
  simp at h

theorem blockAt_cons (wb : Waitblock τ ι) (wbs : List (Waitblock τ ι)) (n m : ℕ) (o : ObjId τ ι) :
    BlockAt (wb :: wbs) n o m ↔ m = n ∧ wb.object = o ∨ BlockAt wbs (n + 1) o m := by
  constructor
  · rintro ⟨k, x, hm, hx, ho⟩
    cases k with
    | zero =>
      simp only [List.getElem?_cons_zero, Option.some.injEq] at hx
      exact Or.inl ⟨hm, hx ▸ ho⟩
    | succ k =>
      refine Or.inr ⟨k, x, ?_, by simpa using hx, ho⟩
      omega
  · rintro (⟨hm, ho⟩ | ⟨k, x, hm, hx, ho⟩)
    · exact ⟨0, wb, hm, rfl, ho⟩
    · refine ⟨k + 1, x, ?_, by simpa using hx, ho⟩
      omega

theorem blockAt_zero (wbs : List (Waitblock τ ι)) (m : ℕ) (o : ObjId τ ι) :
    BlockAt wbs 0 o m ↔ ∃ wb, wbs[m]? = some wb ∧ wb.object = o := by
  simp [BlockAt]

theorem BlockAt.le {wbs : List (Waitblock τ ι)} {n m : ℕ} {o : ObjId τ ι}
    (h : BlockAt wbs n o m) : n ≤ m := by
  obtain ⟨k, -, hm, -⟩ := h
  omega

structure Linked [DecidableEq τ] [DecidableEq ι] (s : Sys τ ι) (q : Queues τ ι) : Prop where
  family : IsFamily s.links s.waiters q
  cleared : Cleared s.links q
  mem : ∀ o t n, (t, n) ∈ q o ↔ BlockAt (s.waitlist t) 0 o n
  timer : ∀ t wb u, wb ∈ s.waitlist t → wb.object = .timer u → u = t
  length : ∀ t, (s.waitlist t).length ≤ maxWaitObjects + 1

variable [DecidableEq τ] [DecidableEq ι] {s s' : Sys τ ι} {q : Queues τ ι} {t : τ}

theorem Linked.congr (h : Linked s q) (hl : s'.links = s.links) (hw : s'.waiters = s.waiters)
    (hc : s'.waitlist = s.waitlist) : Linked s' q := by
  constructor
  · rw [hl, hw]
    exact h.family
  · rw [hl]
    exact h.cleared
  · rw [hc]
    exact h.mem
  · rw [hc]
    exact h.timer
  · rw [hc]
    exact h.length

theorem Linked.chain_ne_nil (h : Linked s q) {o : ObjId τ ι} {wb : Wb τ} (hm : wb ∈ q o) :
    s.waitlist wb.1 ≠ [] := by
  obtain ⟨k, x, -, hx, -⟩ := (h.mem o wb.1 wb.2).mp hm
  intro hn
  simp [hn] at hx

section Cancel

/-- The queues without the blocks of `t`. -/
def Queues.without (q : Queues τ ι) (t : τ) : Queues τ ι := fun o => (q o).filter fun wb => wb.1 ≠ t

omit [DecidableEq ι] in
@[simp] theorem mem_without {o : ObjId τ ι} {wb : Wb τ} :
    wb ∈ q.without t o ↔ wb ∈ q o ∧ wb.1 ≠ t := by
  simp [Queues.without]

theorem unlink_eq (s : Sys τ ι) (t : τ) (n : ℕ) (wbs : List (Waitblock τ ι)) :
    s.unlink t n wbs =
      { s with links := (s.unlink t n wbs).links, waiters := (s.unlink t n wbs).waiters } := by
  induction wbs generalizing s n with
  | nil => rfl
  | cons wb wbs ih =>
    rw [Sys.unlink, ih]
    rfl

theorem cancelWait_eq (s : Sys τ ι) (t : τ) : s.cancelWait t =
    { s with
      links := (s.cancelWait t).links
      waiters := (s.cancelWait t).waiters
      waitlist := update s.waitlist t [] } := by
  unfold Sys.cancelWait
  rw [unlink_eq]

theorem unlink_family {n : ℕ} {wbs : List (Waitblock τ ι)} (hf : IsFamily s.links s.waiters q)
    (hc : Cleared s.links q) (hown : ∀ o m, (t, m) ∈ q o ↔ BlockAt wbs n o m) :
    IsFamily (s.unlink t n wbs).links (s.unlink t n wbs).waiters (q.without t) ∧
      Cleared (s.unlink t n wbs).links (q.without t) := by
  induction wbs generalizing s q n with
  | nil =>
    have hq : q.without t = q := by
      funext o
      unfold Queues.without
      rw [List.filter_eq_self]
      rintro ⟨u, m⟩ hm
      have hne : u ≠ t := by
        rintro rfl
        exact blockAt_nil n m o ((hown o m).mp hm)
      simpa using hne
    rw [hq]
    exact ⟨hf, hc⟩
  | cons wb wbs ih =>
    have hm : (t, n) ∈ q wb.object := (hown _ _).mpr ((blockAt_cons _ _ _ _ _).mpr (Or.inl ⟨rfl, rfl⟩))
    have hq : Queues.without (update q wb.object ((q wb.object).filter (· ≠ (t, n)))) t =
        q.without t := by
      funext o
      unfold Queues.without
      rcases eq_or_ne o wb.object with rfl | ho
      · rw [update_self, List.filter_filter]
        refine List.filter_congr fun x _ => ?_
        by_cases hx : x.1 = t
        · simp [hx]
        · have : x ≠ (t, n) := fun e => hx (by rw [e])
          simp [this]
      · rw [update_of_ne ho]
    rw [← hq]
    refine ih (hf.remove hm) (hc.remove hf hm)
      fun o m => ?_
    have hiff : (t, m) ∈ update q wb.object ((q wb.object).filter (· ≠ (t, n))) o ↔
        (t, m) ∈ q o ∧ m ≠ n := by
      rcases eq_or_ne o wb.object with rfl | ho
      · simp
      · rw [update_of_ne ho]
        refine ⟨fun hx => ⟨hx, ?_⟩, And.left⟩
        rintro rfl
        exact ho (hf.disjoint _ _ _ hx hm)
    rw [hiff, hown, blockAt_cons]
    constructor
    · rintro ⟨⟨rfl, -⟩ | hx, hne⟩
      · exact absurd rfl hne
      · exact hx
    · intro hx
      have := hx.le
      exact ⟨Or.inr hx, by omega⟩

theorem Linked.cancelWait (h : Linked s q) (t : τ) : Linked (s.cancelWait t) (q.without t) := by
  obtain ⟨hf, hc⟩ := unlink_family h.family h.cleared fun o m => h.mem o t m
  have hw : (s.cancelWait t).waitlist = update s.waitlist t [] := rfl
  refine ⟨hf, hc, fun o u n => ?_, fun u wb v => ?_, fun u => ?_⟩
  · rw [mem_without, h.mem, hw]
    rcases eq_or_ne u t with rfl | hu
    · simp [blockAt_nil]
    · simp [hu]
  · rw [hw]
    rcases eq_or_ne u t with rfl | hu
    · simp
    · rw [update_of_ne hu]
      exact h.timer u wb v
  · rw [hw]
    rcases eq_or_ne u t with rfl | hu
    · simp
    · rw [update_of_ne hu]
      exact h.length u

end Cancel

section Setup

/-- The blocks of `t` that wait for `o`, in order. -/
def own (t : τ) : ℕ → List (Waitblock τ ι) → ObjId τ ι → List (Wb τ)
  | _, [], _ => []
  | n, wb :: wbs, o => (if wb.object = o then [(t, n)] else []) ++ own t (n + 1) wbs o

theorem mem_own {n : ℕ} {wbs : List (Waitblock τ ι)} {o : ObjId τ ι} {u : τ} {m : ℕ} :
    (u, m) ∈ own t n wbs o ↔ u = t ∧ BlockAt wbs n o m := by
  induction wbs generalizing n with
  | nil => simp [own, blockAt_nil]
  | cons wb wbs ih =>
    simp only [own, List.mem_append, ih, blockAt_cons]
    split_ifs with ho
    · simp only [List.mem_singleton, Prod.mk.injEq]
      tauto
    · simp [ho]

theorem link_eq (s : Sys τ ι) (t : τ) (n : ℕ) (wbs : List (Waitblock τ ι)) :
    s.link t n wbs =
      { s with links := (s.link t n wbs).links, waiters := (s.link t n wbs).waiters } := by
  induction wbs generalizing s n with
  | nil => rfl
  | cons wb wbs ih =>
    rw [Sys.link, ih]
    rfl

theorem link_family (n : ℕ) (wbs : List (Waitblock τ ι)) (hf : IsFamily s.links s.waiters q)
    (hc : Cleared s.links q) (hfresh : ∀ o m, n ≤ m → (t, m) ∉ q o) :
    IsFamily (s.link t n wbs).links (s.link t n wbs).waiters (fun o => q o ++ own t n wbs o) ∧
      Cleared (s.link t n wbs).links (fun o => q o ++ own t n wbs o) := by
  induction wbs generalizing s q n with
  | nil =>
    simp only [own, List.append_nil]
    exact ⟨hf, hc⟩
  | cons wb wbs ih =>
    have hnew : ∀ o, (t, n) ∉ q o := fun o => hfresh o n le_rfl
    have hq : (fun o => q o ++ own t n (wb :: wbs) o) =
        fun o => update q wb.object (q wb.object ++ [(t, n)]) o ++ own t (n + 1) wbs o := by
      funext o
      rcases eq_or_ne o wb.object with rfl | ho
      · simp [own]
      · simp [own, ho, ho.symm]
    rw [hq]
    refine ih (n + 1) (hf.append hnew) (hc.append hf)
      fun o m hm => ?_
    rcases eq_or_ne o wb.object with rfl | ho
    · rw [update_self]
      simp only [List.mem_append, List.mem_singleton, Prod.mk.injEq, not_or]
      exact ⟨hfresh _ m (by omega), by omega⟩
    · rw [update_of_ne ho]
      exact hfresh o m (by omega)

/-- The chain that a wait call of `t` sets up. -/
def chain (waittype : WaitType) (objs : List ι) (timed : Bool) (t : τ) : List (Waitblock τ ι) :=
  blocks waittype objs ++ if timed then [timerBlock t] else []

omit [DecidableEq τ] [DecidableEq ι] in
theorem length_chain {ty : WaitType} {objs : List ι} {timed : Bool}
    (h : objs.length ≤ maxWaitObjects) : (chain ty objs timed t).length ≤ maxWaitObjects + 1 := by
  unfold chain blocks
  cases timed <;> simp <;> omega

omit [DecidableEq τ] [DecidableEq ι] in
theorem mem_chain {ty : WaitType} {objs : List ι} {timed : Bool} {wb : Waitblock τ ι}
    (h : wb ∈ chain ty objs timed t) :
    (∃ o k, objs[k]? = some o ∧ wb = ⟨.obj o, ty, (k : ℕ)⟩) ∨ timed = true ∧ wb = timerBlock t := by
  unfold chain blocks at h
  rcases List.mem_append.mp h with h | h
  · obtain ⟨⟨o, k⟩, hm, rfl⟩ := List.mem_map.mp h
    obtain ⟨-, hk⟩ := List.mem_zipIdx hm
    refine Or.inl ⟨o, k, ?_, rfl⟩
    simpa [eq_comm] using List.mem_zipIdx_iff_getElem?.mp hm
  · cases timed with
    | false => simp at h
    | true => exact Or.inr ⟨rfl, by simpa using h⟩

theorem Linked.setupWait {objs : List ι} (h : Linked s q) (ty : WaitType) (timed : Bool)
    (hlen : objs.length ≤ maxWaitObjects) (hidle : s.waitlist s.cur = []) :
    Linked (s.setupWait ty objs timed)
      (fun o => q o ++ own s.cur 0 (chain ty objs timed s.cur) o) := by
  have hnone (o : ObjId τ ι) (m : ℕ) : (s.cur, m) ∉ q o := by
    rw [h.mem, hidle]
    exact blockAt_nil 0 m o
  have hinit : IsFamily (if timed then s.initTimer s.cur else s).links
      (if timed then s.initTimer s.cur else s).waiters q ∧
      Cleared (if timed then s.initTimer s.cur else s).links q := by
    cases timed with
    | false => exact ⟨h.family, h.cleared⟩
    | true =>
      have hq : q (.timer s.cur) = [] := by
        rw [List.eq_nil_iff_forall_not_mem]
        rintro ⟨u, m⟩ hm
        obtain ⟨k, wb, -, hk, ho⟩ := (h.mem _ _ _).mp hm
        obtain rfl := h.timer u wb s.cur (List.mem_of_getElem? hk) ho
        exact hnone _ m hm
      refine ⟨⟨fun o => ?_, h.family.disjoint⟩, h.cleared⟩
      rcases eq_or_ne o (.timer s.cur) with rfl | ho
      · simp only [↓reduceIte, Sys.initTimer_waiters, update_self, hq]
        exact isList_nil _
      · simp only [↓reduceIte, Sys.initTimer_waiters, update_of_ne ho]
        exact h.family.lists o
  obtain ⟨hf, hc⟩ := link_family 0 (chain ty objs timed s.cur) hinit.1 hinit.2
    fun o m _ => hnone o m
  have hw : (s.setupWait ty objs timed).waitlist =
      update s.waitlist s.cur (chain ty objs timed s.cur) := rfl
  refine ⟨hf, hc, fun o u m => ?_, fun u wb v => ?_, fun u => ?_⟩
  · rw [List.mem_append, mem_own, hw]
    rcases eq_or_ne u s.cur with rfl | hu
    · simp [hnone]
    · simp [hu, h.mem]
  · rw [hw]
    rcases eq_or_ne u s.cur with rfl | hu
    · rw [update_self]
      intro hm ho
      rcases mem_chain hm with ⟨o, k, -, rfl⟩ | ⟨-, rfl⟩
      · cases ho
      · cases ho
        rfl
    · rw [update_of_ne hu]
      exact h.timer u wb v
  · rw [hw]
    rcases eq_or_ne u s.cur with rfl | hu
    · rw [update_self]
      exact length_chain hlen
    · rw [update_of_ne hu]
      exact h.length u

end Setup

end SimpleKernel.Object
