import Mathlib.Data.List.Nodup
import Mathlib.Data.Option.Basic
import Mathlib.Logic.Function.Basic

/-! Intrusive linked lists. Every node has its own `next` and `prev` field, so one pair of link maps serves all
lists, one at a time. The predicates say which nodes the fields represent; the operations are the assignments of the
C code. -/
namespace SimpleKernel.LinkedList

structure Links (α : Type*) where
  next : α → Option α
  prev : α → Option α

structure Ends (α : Type*) where
  head : Option α
  tail : Option α

section Predicates
variable {α : Type*}

/-- `xs` is linked in both directions; `p` precedes its first node, `q` follows its last. -/
def Seg (l : Links α) : Option α → List α → Option α → Prop
  | _, [], _ => True
  | p, a :: xs, q => l.prev a = p ∧ l.next a = xs.head?.or q ∧ Seg l (some a) xs q

/-- Linked through `next` alone; `prev` is cleared in every node. -/
def Forward (l : Links α) : List α → Prop
  | [] => True
  | a :: xs => l.prev a = none ∧ l.next a = xs.head? ∧ Forward l xs

/-- A doubly linked list with both ends recorded. -/
structure IsList (l : Links α) (e : Ends α) (xs : List α) : Prop where
  nodup : xs.Nodup
  seg : Seg l none xs none
  head : e.head = xs.head?
  tail : e.tail = xs.getLast?

/-- A doubly linked list with only its head recorded, such as a hash chain. -/
structure IsBucket (l : Links α) (h : Option α) (xs : List α) : Prop where
  nodup : xs.Nodup
  seg : Seg l none xs none
  head : h = xs.head?

/-- A singly linked list with its head recorded, such as a free list. -/
structure IsStack (l : Links α) (h : Option α) (xs : List α) : Prop where
  nodup : xs.Nodup
  forward : Forward l xs
  head : h = xs.head?

theorem seg_append {l : Links α} {xs ys : List α} {p q : Option α} :
    Seg l p (xs ++ ys) q ↔ Seg l p xs (ys.head?.or q) ∧ Seg l (xs.getLast?.or p) ys q := by
  induction xs generalizing p with
  | nil => simp [Seg]
  | cons a xs ih =>
    have hl : (a :: xs).getLast?.or p = xs.getLast?.or (some a) := by
      cases xs with
      | nil => simp
      | cons b xs => cases h : (b :: xs).getLast? <;> simp_all
    simp only [List.cons_append, Seg, ih, hl, and_assoc, List.head?_append, Option.or_assoc]

theorem Seg.congr {l l' : Links α} {xs : List α} {p q : Option α} (h : Seg l p xs q)
    (hp : ∀ a ∈ xs, l'.prev a = l.prev a) (hn : ∀ a ∈ xs, l'.next a = l.next a) :
    Seg l' p xs q := by
  induction xs generalizing p with
  | nil => trivial
  | cons a xs ih =>
    obtain ⟨h1, h2, h3⟩ := h
    exact ⟨(hp a (by simp)).trans h1, (hn a (by simp)).trans h2,
      ih h3 (fun b hb => hp b (by simp [hb])) (fun b hb => hn b (by simp [hb]))⟩

theorem Forward.congr {l l' : Links α} {xs : List α} (h : Forward l xs)
    (hp : ∀ a ∈ xs, l'.prev a = l.prev a) (hn : ∀ a ∈ xs, l'.next a = l.next a) :
    Forward l' xs := by
  induction xs with
  | nil => trivial
  | cons a xs ih =>
    obtain ⟨h1, h2, h3⟩ := h
    exact ⟨(hp a (by simp)).trans h1, (hn a (by simp)).trans h2,
      ih h3 (fun b hb => hp b (by simp [hb])) (fun b hb => hn b (by simp [hb]))⟩

theorem IsList.congr {l l' : Links α} {e : Ends α} {xs : List α} (h : IsList l e xs)
    (hp : ∀ a ∈ xs, l'.prev a = l.prev a) (hn : ∀ a ∈ xs, l'.next a = l.next a) :
    IsList l' e xs :=
  ⟨h.nodup, h.seg.congr hp hn, h.head, h.tail⟩

theorem IsBucket.congr {l l' : Links α} {b : Option α} {xs : List α} (h : IsBucket l b xs)
    (hp : ∀ a ∈ xs, l'.prev a = l.prev a) (hn : ∀ a ∈ xs, l'.next a = l.next a) :
    IsBucket l' b xs :=
  ⟨h.nodup, h.seg.congr hp hn, h.head⟩

theorem IsStack.congr {l l' : Links α} {b : Option α} {xs : List α} (h : IsStack l b xs)
    (hp : ∀ a ∈ xs, l'.prev a = l.prev a) (hn : ∀ a ∈ xs, l'.next a = l.next a) :
    IsStack l' b xs :=
  ⟨h.nodup, h.forward.congr hp hn, h.head⟩

theorem IsList.isBucket {l : Links α} {e : Ends α} {xs : List α} (h : IsList l e xs) :
    IsBucket l e.head xs := ⟨h.nodup, h.seg, h.head⟩

theorem isList_nil (l : Links α) : IsList l ⟨none, none⟩ [] := ⟨by simp, trivial, rfl, rfl⟩

theorem isBucket_nil (l : Links α) : IsBucket l none [] := ⟨by simp, trivial, rfl⟩

theorem IsBucket.middle {l : Links α} {h : Option α} {xs ys : List α} {a : α}
    (hb : IsBucket l h (xs ++ a :: ys)) :
    l.prev a = xs.getLast? ∧ l.next a = ys.head? ∧
      Seg l none xs (some a) ∧ Seg l (some a) ys none := by
  have hs := hb.seg
  rw [seg_append] at hs
  obtain ⟨h1, h2, h3, h4⟩ := hs
  exact ⟨by simpa using h2, by simpa using h3, by simpa using h1, h4⟩

theorem IsBucket.next_mem {l : Links α} {h : Option α} {xs : List α} (hb : IsBucket l h xs)
    {a b : α} (ha : a ∈ xs) (hn : l.next a = some b) : b ∈ xs := by
  obtain ⟨ys, zs, rfl⟩ := List.append_of_mem ha
  have hz : zs.head? = some b := hb.middle.2.1.symm.trans hn
  have := List.mem_of_head? hz
  simp [this]

theorem IsBucket.prev_mem {l : Links α} {h : Option α} {xs : List α} (hb : IsBucket l h xs)
    {a b : α} (ha : a ∈ xs) (hn : l.prev a = some b) : b ∈ xs := by
  obtain ⟨ys, zs, rfl⟩ := List.append_of_mem ha
  have hz : ys.getLast? = some b := hb.middle.1.symm.trans hn
  have := List.mem_of_getLast? hz
  simp [this]

/-- The node reached from `h` through `n` links. -/
def Links.follow (l : Links α) (h : Option α) : ℕ → Option α
  | 0 => h
  | n + 1 => (l.follow h n).bind l.next

theorem IsBucket.follow_mem {l : Links α} {h : Option α} {xs : List α} (hb : IsBucket l h xs)
    {n : ℕ} {a : α} (ha : l.follow h n = some a) : a ∈ xs := by
  induction n generalizing a with
  | zero => exact List.mem_of_head? (hb.head.symm.trans ha)
  | succ n ih =>
    obtain ⟨b, hfb, hn⟩ := Option.bind_eq_some_iff.mp ha
    exact hb.next_mem (ih hfb) hn

private theorem nodup_middle {xs ys : List α} {a : α} (h : (xs ++ a :: ys).Nodup) :
    xs.Nodup ∧ ys.Nodup ∧ a ∉ xs ∧ a ∉ ys ∧ (xs ++ ys).Nodup ∧ ∀ b ∈ xs, b ∉ ys := by
  have h' := List.nodup_middle.mp h
  obtain ⟨ha, hd⟩ := List.nodup_cons.mp h'
  have hd' := List.nodup_append.mp hd
  simp only [List.mem_append, not_or] at ha
  exact ⟨hd'.1, hd'.2.1, ha.1, ha.2, hd, fun b hb hb' => hd'.2.2 b hb b hb' rfl⟩

end Predicates

section Operations
variable {α : Type*} [DecidableEq α]

/-- `if (a) a->next = v`. -/
def Links.setNext (l : Links α) (a v : Option α) : Links α :=
  { l with next := fun x => if a = some x then v else l.next x }

/-- `if (a) a->prev = v`. -/
def Links.setPrev (l : Links α) (a v : Option α) : Links α :=
  { l with prev := fun x => if a = some x then v else l.prev x }

/-- The neighbours of `a` are joined past it. The fields of `a` itself keep their values. -/
def Links.bypass (l : Links α) (a : α) : Links α :=
  (l.setPrev (l.next a) (l.prev a)).setNext (l.prev a) (l.next a)

/-- `a->next = a->prev = NULL`. -/
def Links.clear (l : Links α) (a : α) : Links α :=
  (l.setNext (some a) none).setPrev (some a) none

/-- The ends after `a` was bypassed: `l` holds the fields of `a`. -/
def Ends.drop (e : Ends α) (l : Links α) (a : α) : Ends α where
  head := if e.head = some a then l.next a else e.head
  tail := if e.tail = some a then l.prev a else e.tail

/-- `a` becomes the last node. -/
def Links.append (l : Links α) (e : Ends α) (a : α) : Links α :=
  ((l.setNext (some a) none).setPrev (some a) e.tail).setNext e.tail (some a)

def Ends.append (e : Ends α) (a : α) : Ends α where
  head := if e.head = none then some a else e.head
  tail := some a

/-- `a` becomes the first node of a doubly linked list that keeps its head only. -/
def Links.prepend (l : Links α) (h : Option α) (a : α) : Links α :=
  ((l.setPrev h (some a)).setNext (some a) h).setPrev (some a) none

/-- `a` becomes the first node of a singly linked list. -/
def Links.push (l : Links α) (h : Option α) (a : α) : Links α :=
  (l.setNext (some a) h).setPrev (some a) none

@[simp] theorem setNext_next (l : Links α) (a v : Option α) (x : α) :
    (l.setNext a v).next x = if a = some x then v else l.next x := rfl

@[simp] theorem setNext_prev (l : Links α) (a v : Option α) : (l.setNext a v).prev = l.prev := rfl

@[simp] theorem setPrev_prev (l : Links α) (a v : Option α) (x : α) :
    (l.setPrev a v).prev x = if a = some x then v else l.prev x := rfl

@[simp] theorem setPrev_next (l : Links α) (a v : Option α) : (l.setPrev a v).next = l.next := rfl

theorem bypass_next (l : Links α) (a x : α) :
    (l.bypass a).next x = if l.prev a = some x then l.next a else l.next x := rfl

theorem bypass_prev (l : Links α) (a x : α) :
    (l.bypass a).prev x = if l.next a = some x then l.prev a else l.prev x := rfl

theorem clear_next (l : Links α) (a x : α) :
    (l.clear a).next x = if a = x then none else l.next x := by
  simp [Links.clear]

theorem clear_prev (l : Links α) (a x : α) :
    (l.clear a).prev x = if a = x then none else l.prev x := by
  simp [Links.clear]

theorem Seg.setNext_last {l : Links α} {xs : List α} {p q : Option α} (h : Seg l p xs q)
    (hd : xs.Nodup) (r : Option α) : Seg (l.setNext xs.getLast? r) p xs r := by
  rcases List.eq_nil_or_concat xs with rfl | ⟨ys, y, rfl⟩
  · trivial
  · have hy : y ∉ ys := by
      have := List.nodup_append.mp (by simpa using hd)
      exact fun hm => this.2.2 y hm y (by simp) rfl
    rw [List.concat_eq_append, seg_append] at h ⊢
    obtain ⟨h1, h2, -, -⟩ := h
    refine ⟨?_, ?_⟩
    · refine h1.congr (fun _ _ => rfl) (fun a ha => ?_)
      have : y ≠ a := fun e => hy (e ▸ ha)
      simp [this]
    · exact ⟨h2, by simp, trivial⟩

theorem Seg.setPrev_head {l : Links α} {xs : List α} {p q : Option α} (h : Seg l p xs q)
    (hd : xs.Nodup) (r : Option α) : Seg (l.setPrev xs.head? r) r xs q := by
  cases xs with
  | nil => trivial
  | cons a xs =>
    obtain ⟨-, h2, h3⟩ := h
    refine ⟨by simp, h2, h3.congr (fun b hb => ?_) (fun _ _ => rfl)⟩
    have : a ≠ b := fun e => (List.nodup_cons.mp hd).1 (e ▸ hb)
    simp [this]

theorem seg_bypass {l : Links α} {h : Option α} {xs ys : List α} {a : α}
    (hb : IsBucket l h (xs ++ a :: ys)) : Seg (l.bypass a) none (xs ++ ys) none := by
  obtain ⟨hp, hn, hx, hy⟩ := hb.middle
  obtain ⟨dx, dy, -, -, -, hxy⟩ := nodup_middle hb.nodup
  rw [seg_append, Option.or_none, Option.or_none, Links.bypass, hp, hn]
  constructor
  · have hx' : Seg (l.setPrev ys.head? xs.getLast?) none xs (some a) := by
      refine hx.congr (fun b hb => ?_) (fun _ _ => rfl)
      have : ys.head? ≠ some b := fun e => hxy b hb (List.mem_of_head? e)
      simp [this]
    exact hx'.setNext_last dx _
  · refine (hy.setPrev_head dy xs.getLast?).congr (fun _ _ => rfl) (fun b hb => ?_)
    have : xs.getLast? ≠ some b := fun e => hxy b (List.mem_of_getLast? e) hb
    simp [this]

private theorem head_without {xs ys : List α} {a : α} (hd : (xs ++ a :: ys).Nodup) :
    (if (xs ++ a :: ys).head? = some a then ys.head? else (xs ++ a :: ys).head?) =
      (xs ++ ys).head? := by
  cases xs with
  | nil => simp
  | cons b xs =>
    have : b ≠ a := by rintro rfl; exact (nodup_middle hd).2.2.1 (by simp)
    simp [this]

private theorem last_without {xs ys : List α} {a : α} (hd : (xs ++ a :: ys).Nodup) :
    (if (xs ++ a :: ys).getLast? = some a then xs.getLast? else (xs ++ a :: ys).getLast?) =
      (xs ++ ys).getLast? := by
  rcases List.eq_nil_or_concat ys with rfl | ⟨zs, z, rfl⟩
  · simp
  · have : z ≠ a := by rintro rfl; exact (nodup_middle hd).2.2.2.1 (by simp)
    simp [List.getLast?_cons, this]

theorem clear_frame (l : Links α) {a : α} {xs : List α} (ha : a ∉ xs) :
    (∀ b ∈ xs, (l.clear a).prev b = l.prev b) ∧ ∀ b ∈ xs, (l.clear a).next b = l.next b := by
  constructor <;> intro b hb <;>
    · have : a ≠ b := fun e => ha (e ▸ hb)
      simp [clear_next, clear_prev, this]

theorem IsList.remove {l : Links α} {e : Ends α} {xs ys : List α} {a : α}
    (h : IsList l e (xs ++ a :: ys)) :
    IsList ((l.bypass a).clear a) (e.drop l a) (xs ++ ys) := by
  obtain ⟨hp, hn, -, -⟩ := h.isBucket.middle
  obtain ⟨-, -, hax, hay, hd, -⟩ := nodup_middle h.nodup
  have hf := clear_frame (l.bypass a) (show a ∉ xs ++ ys by simp [hax, hay])
  refine ⟨hd, (seg_bypass h.isBucket).congr hf.1 hf.2, ?_, ?_⟩
  · simp only [Ends.drop, h.head, hn, head_without h.nodup]
  · simp only [Ends.drop, h.tail, hp, last_without h.nodup]

theorem IsBucket.remove {l : Links α} {h : Option α} {xs ys : List α} {a : α}
    (hb : IsBucket l h (xs ++ a :: ys)) :
    IsBucket ((l.bypass a).clear a) (if h = some a then l.next a else h) (xs ++ ys) := by
  obtain ⟨-, hn, -, -⟩ := hb.middle
  obtain ⟨-, -, hax, hay, hd, -⟩ := nodup_middle hb.nodup
  have hf := clear_frame (l.bypass a) (show a ∉ xs ++ ys by simp [hax, hay])
  refine ⟨hd, (seg_bypass hb).congr hf.1 hf.2, ?_⟩
  rw [hb.head, hn, head_without hb.nodup]

theorem IsBucket.remove_frame {l : Links α} {h : Option α} {xs : List α} {a b : α}
    (hb : IsBucket l h xs) (ha : a ∈ xs) (hx : b ∉ xs) :
    ((l.bypass a).clear a).prev b = l.prev b ∧ ((l.bypass a).clear a).next b = l.next b := by
  have h1 : a ≠ b := fun e => hx (e ▸ ha)
  have h2 : l.next a ≠ some b := fun e => hx (hb.next_mem ha e)
  have h3 : l.prev a ≠ some b := fun e => hx (hb.prev_mem ha e)
  simp [clear_next, clear_prev, bypass_next, bypass_prev, h1, h2, h3]

theorem IsBucket.bypass {l : Links α} {h : Option α} {xs ys : List α} {a : α}
    (hb : IsBucket l h (xs ++ a :: ys)) :
    IsBucket (l.bypass a) (if h = some a then l.next a else h) (xs ++ ys) := by
  obtain ⟨-, -, hax, hay, -⟩ := nodup_middle hb.nodup
  have hf := clear_frame (l.bypass a) (show a ∉ xs ++ ys by simp [hax, hay])
  exact hb.remove.congr (fun b hx => (hf.1 b hx).symm) fun b hx => (hf.2 b hx).symm

theorem IsList.bypass {l : Links α} {e : Ends α} {xs ys : List α} {a : α} (h : IsList l e (xs ++ a :: ys)) :
    IsList (l.bypass a) (e.drop l a) (xs ++ ys) := by
  obtain ⟨-, -, hax, hay, -⟩ := nodup_middle h.nodup
  have hf := clear_frame (l.bypass a) (show a ∉ xs ++ ys by simp [hax, hay])
  exact h.remove.congr (fun b hx => (hf.1 b hx).symm) fun b hx => (hf.2 b hx).symm

theorem IsBucket.bypass_frame {l : Links α} {h : Option α} {xs : List α} {a b : α}
    (hb : IsBucket l h xs) (ha : a ∈ xs) (hx : b ∉ xs) :
    (l.bypass a).prev b = l.prev b ∧ (l.bypass a).next b = l.next b := by
  have h2 : l.next a ≠ some b := fun e => hx (hb.next_mem ha e)
  have h3 : l.prev a ≠ some b := fun e => hx (hb.prev_mem ha e)
  simp [bypass_next, bypass_prev, h2, h3]

theorem IsList.append {l : Links α} {e : Ends α} {xs : List α} {a : α}
    (h : IsList l e xs) (ha : a ∉ xs) : IsList (l.append e a) (e.append a) (xs ++ [a]) := by
  have hne : ∀ b ∈ xs, a ≠ b := fun b hb e => ha (e ▸ hb)
  refine ⟨?_, ?_, ?_, by simp [Ends.append]⟩
  · simpa using List.nodup_append.mpr ⟨h.nodup, by simp, by simpa using fun b hb => (hne b hb).symm⟩
  · have hl : xs.getLast? ≠ some a := fun e => ha (List.mem_of_getLast? e)
    rw [seg_append]
    constructor
    · rw [Links.append, h.tail]
      have hs : Seg ((l.setNext (some a) none).setPrev (some a) xs.getLast?) none xs none :=
        h.seg.congr (fun b hb => by simp [hne b hb]) (fun b hb => by simp [hne b hb])
      exact hs.setNext_last h.nodup _
    · simp [Seg, Links.append, h.tail, hl]
  · rw [Ends.append, h.head]
    cases xs <;> simp

theorem append_frame {l : Links α} {e : Ends α} {xs : List α} {a b : α} (h : IsList l e xs)
    (hx : b ∉ xs) (hb : a ≠ b) :
    (l.append e a).prev b = l.prev b ∧ (l.append e a).next b = l.next b := by
  have : e.tail ≠ some b := fun e' => hx (List.mem_of_getLast? (h.tail ▸ e'))
  simp [Links.append, hb, this]

theorem IsBucket.prepend {l : Links α} {h : Option α} {xs : List α} {a : α}
    (hb : IsBucket l h xs) (ha : a ∉ xs) : IsBucket (l.prepend h a) (some a) (a :: xs) := by
  have hne : ∀ b ∈ xs, a ≠ b := fun b hb e => ha (e ▸ hb)
  refine ⟨List.nodup_cons.mpr ⟨ha, hb.nodup⟩, ⟨by simp [Links.prepend], ?_, ?_⟩, rfl⟩
  · simp [Links.prepend, hb.head]
  · rw [Links.prepend, hb.head]
    refine (hb.seg.setPrev_head hb.nodup (some a)).congr (fun b hb => ?_) (fun b hb => ?_)
    · simp [hne b hb]
    · simp [hne b hb]

theorem prepend_frame {l : Links α} {h : Option α} {xs : List α} {a b : α} (hb : IsBucket l h xs)
    (hx : b ∉ xs) (hab : a ≠ b) :
    (l.prepend h a).prev b = l.prev b ∧ (l.prepend h a).next b = l.next b := by
  have : h ≠ some b := fun e' => hx (List.mem_of_head? (hb.head ▸ e'))
  simp [Links.prepend, hab, this]

theorem IsStack.push {l : Links α} {h : Option α} {xs : List α} {a : α}
    (hs : IsStack l h xs) (ha : a ∉ xs) : IsStack (l.push h a) (some a) (a :: xs) := by
  have hne : ∀ b ∈ xs, a ≠ b := fun b hb e => ha (e ▸ hb)
  refine ⟨List.nodup_cons.mpr ⟨ha, hs.nodup⟩, ⟨by simp [Links.push], ?_, ?_⟩, rfl⟩
  · simp [Links.push, hs.head]
  · exact hs.forward.congr (fun b hb => by simp [Links.push, hne b hb])
      (fun b hb => by simp [Links.push, hne b hb])

theorem push_frame (l : Links α) (h : Option α) {a b : α} (hab : a ≠ b) :
    (l.push h a).prev b = l.prev b ∧ (l.push h a).next b = l.next b := by
  simp [Links.push, hab]

theorem IsStack.pop {l : Links α} {xs : List α} {a : α} (hs : IsStack l (some a) xs) :
    ∃ ys, xs = a :: ys ∧ a ∉ ys ∧ IsStack (l.clear a) (l.next a) ys := by
  cases xs with
  | nil => exact absurd hs.head (by simp)
  | cons b ys =>
    obtain rfl : a = b := by simpa using hs.head
    obtain ⟨-, hn, hf⟩ := hs.forward
    have hd := List.nodup_cons.mp hs.nodup
    have hc := clear_frame l hd.1
    exact ⟨ys, rfl, hd.1, hd.2, hf.congr hc.1 hc.2, hn⟩

end Operations
end SimpleKernel.LinkedList
