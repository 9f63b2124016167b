import Mathlib.Data.Nat.ModEq
import Mathlib.Algebra.Order.Ring.Nat
import Mathlib.Data.Nat.Log

/-! Radix trees of pages. The nodes have a height and a number: those of height 0 are the data, and the slot `o` of
a node of height `r + 1` leads to the node `j * B + o` below. The nodes of the greatest height `d` are in the top
slots. `live` says which nodes there are. -/
namespace SimpleKernel.PageTree

variable {α : Type*} [Zero α]

/-- The slots from height `r` down to node `i` of height 0. -/
def path (B : ℕ) : ℕ → ℕ → List ℕ
  | 0, _ => []
  | r + 1, i => i / B ^ r % B :: path B r i

theorem div_pow_succ (B i r : ℕ) : i / B ^ (r + 1) = i / B ^ r / B := by
  rw [Nat.pow_succ, Nat.div_div_eq_div_mul]

/-- The top slots and the pages hold the nodes that `live` names. -/
structure IsTree (B T d : ℕ) (top : ℕ → α) (page : α → ℕ → α) (live : ℕ → ℕ → Prop)
    (node : ℕ → ℕ → α) : Prop where
  height : ∀ r j, live r j → r ≤ d
  top_live : ∀ j, live d j → j < T ∧ top j = node d j
  top_dead : ∀ j, j < T → ¬ live d j → top j = 0
  page_live : ∀ r j, live r j → r < d → page (node (r + 1) (j / B)) (j % B) = node r j
  page_dead : ∀ r j o, live (r + 1) j → o < B → ¬ live r (j * B + o) →
    page (node (r + 1) j) o = 0
  parent : ∀ r j, live r j → r < d → live (r + 1) (j / B)
  inj : ∀ r j r' j', live (r + 1) j → live (r' + 1) j' → node (r + 1) j = node (r' + 1) j' →
    r = r' ∧ j = j'
  ne_zero : ∀ r j, live r j → node r j ≠ 0

variable {B T d r c : ℕ} {top top' : ℕ → α} {page page' : α → ℕ → α} {live live' : ℕ → ℕ → Prop}
  {node : ℕ → ℕ → α} {b : α}

theorem IsTree.empty (hdead : ∀ r j, ¬ live r j) (htop : ∀ j, j < T → top j = 0) :
    IsTree B T d top page live node :=
  ⟨fun _ _ hl => absurd hl (hdead _ _), fun _ hl => absurd hl (hdead _ _), fun j hj _ => htop j hj,
    fun _ _ hl => absurd hl (hdead _ _), fun _ _ _ hl => absurd hl (hdead _ _),
    fun _ _ hl => absurd hl (hdead _ _), fun _ _ _ _ hl => absurd hl (hdead _ _),
    fun _ _ hl => absurd hl (hdead _ _)⟩

/-- The node `(r, c)` becomes `b`. -/
def assign (node : ℕ → ℕ → α) (r c : ℕ) (b : α) : ℕ → ℕ → α :=
  fun r' j => if r' = r ∧ j = c then b else node r' j

omit [Zero α] in
theorem assign_self : assign node r c b r c = b := if_pos ⟨rfl, rfl⟩

omit [Zero α] in
theorem assign_of_ne {r' j : ℕ} (h : ¬ (r' = r ∧ j = c)) : assign node r c b r' j = node r' j :=
  if_neg h

/-- The node `(r, c)` is live as well. -/
def insertLive (live : ℕ → ℕ → Prop) (r c : ℕ) : ℕ → ℕ → Prop :=
  fun r' j => live r' j ∨ r' = r ∧ j = c

omit [Zero α] in
theorem assign_of_live (hdead : ¬ live r c) {r' j : ℕ} (hl : live r' j) :
    assign node r c b r' j = node r' j := by
  apply assign_of_ne
  rintro ⟨rfl, rfl⟩
  exact hdead hl

/-- `page'` differs from `page` in slot `o` of `p`, which holds `b`, and in what `b` holds. -/
structure PutSlot (page page' : α → ℕ → α) (p : α) (o : ℕ) (b : α) : Prop where
  slot : page' p o = b
  rest : ∀ o', o' ≠ o → page' p o' = page p o'
  other : ∀ q, q ≠ p → q ≠ b → page' q = page q

section
variable (h : IsTree B T d top page live node)
include h

theorem IsTree.insert_inj (hdead : ¬ live r c)
    (hfresh : ∀ r' j, live (r' + 1) j → node (r' + 1) j ≠ b) (r' j r'' j' : ℕ)
    (hl : insertLive live r c (r' + 1) j) (hl' : insertLive live r c (r'' + 1) j')
    (heq : assign node r c b (r' + 1) j = assign node r c b (r'' + 1) j') : r' = r'' ∧ j = j' := by
  rcases hl with hl | ⟨he, rfl⟩ <;> rcases hl' with hl' | ⟨he', rfl⟩
  · rw [assign_of_live hdead hl, assign_of_live hdead hl'] at heq
    exact h.inj _ _ _ _ hl hl' heq
  · rw [assign_of_live hdead hl, he', assign_self] at heq
    exact absurd heq (hfresh _ _ hl)
  · rw [assign_of_live hdead hl', he, assign_self] at heq
    exact absurd heq.symm (hfresh _ _ hl')
  · exact ⟨by omega, rfl⟩

theorem IsTree.insert_ne_zero (hdead : ¬ live r c) (hb : b ≠ 0) (r' j : ℕ)
    (hl : insertLive live r c r' j) : assign node r c b r' j ≠ 0 := by
  rcases hl with hl | ⟨rfl, rfl⟩
  · rw [assign_of_live hdead hl]
    exact h.ne_zero r' j hl
  · rw [assign_self]
    exact hb

theorem IsTree.insert (hr : r < d)
    (hparent : live (r + 1) (c / B)) (hdead : ¬ live r c) (hb : b ≠ 0)
    (hfresh : ∀ r' j, live (r' + 1) j → node (r' + 1) j ≠ b)
    (hp : PutSlot page page' (node (r + 1) (c / B)) (c % B) b)
    (hnew : r ≠ 0 → ∀ o, o < B → page' b o = 0) :
    IsTree B T d top page' (insertLive live r c) (assign node r c b) := by
  have hlive {r' j : ℕ} (hl : live r' j) : assign node r c b r' j = node r' j :=
    assign_of_live hdead hl
  refine ⟨?_, ?_, ?_, ?_, ?_, ?_, h.insert_inj hdead hfresh, h.insert_ne_zero hdead hb⟩
  · rintro r' j (hl | ⟨rfl, rfl⟩)
    · exact h.height r' j hl
    · exact hr.le
  · rintro j (hl | ⟨rfl, rfl⟩)
    · rw [hlive hl]
      exact h.top_live j hl
    · exact absurd hr (lt_irrefl _)
  · intro j hj hnot
    exact h.top_dead j hj fun hl => hnot (.inl hl)
  · rintro r' j (hl | ⟨rfl, rfl⟩) hr'
    · have hup := h.parent r' j hl hr'
      rw [hlive hl, hlive hup]
      by_cases hsame : node (r' + 1) (j / B) = node (r + 1) (c / B)
      · obtain ⟨rfl, hj⟩ := h.inj _ _ _ _ hup hparent hsame
        have hslot : j % B ≠ c % B := by
          intro he
          apply hdead
          rwa [← Nat.div_add_mod c B, ← hj, ← he, Nat.div_add_mod]
        rw [hsame, hp.rest _ hslot, ← hsame]
        exact h.page_live r' j hl hr'
      · rw [hp.other _ hsame (hfresh _ _ hup)]
        exact h.page_live r' j hl hr'
    · rw [hlive hparent, assign_self]
      exact hp.slot
  · rintro r' j o (hl | ⟨rfl, rfl⟩) ho hnot
    · have hnot' : ¬ live r' (j * B + o) := fun hx => hnot (.inl hx)
      rw [hlive hl]
      by_cases hsame : node (r' + 1) j = node (r + 1) (c / B)
      · obtain ⟨rfl, rfl⟩ := h.inj _ _ _ _ hl hparent hsame
        have hslot : o ≠ c % B := by
          intro he
          apply hnot
          right
          refine ⟨rfl, ?_⟩
          rw [he, Nat.div_add_mod']
        rw [hp.rest _ hslot]
        exact h.page_dead _ _ _ hl ho hnot'
      · rw [hp.other _ hsame (hfresh _ _ hl)]
        exact h.page_dead _ _ _ hl ho hnot'
    · rw [assign_self]
      exact hnew (Nat.succ_ne_zero _) o ho
  · rintro r' j (hl | ⟨rfl, rfl⟩) hr'
    · exact .inl (h.parent r' j hl hr')
    · exact .inl hparent

theorem IsTree.insertTop (hc : c < T) (hdead : ¬ live d c)
    (hb : b ≠ 0) (hfresh : ∀ r' j, live (r' + 1) j → node (r' + 1) j ≠ b)
    (htop : top' = Function.update top c b) (hother : ∀ q, q ≠ b → page' q = page q)
    (hnew : d ≠ 0 → ∀ o, o < B → page' b o = 0) :
    IsTree B T d top' page' (insertLive live d c) (assign node d c b) := by
  have hlive {r' j : ℕ} (hl : live r' j) : assign node d c b r' j = node r' j :=
    assign_of_live hdead hl
  refine ⟨?_, ?_, ?_, ?_, ?_, ?_, h.insert_inj hdead hfresh, h.insert_ne_zero hdead hb⟩
  · rintro r' j (hl | ⟨rfl, rfl⟩)
    · exact h.height r' j hl
    · exact le_rfl
  · rintro j (hl | ⟨-, rfl⟩)
    · have hne : j ≠ c := fun he => hdead (he ▸ hl)
      rw [hlive hl, htop, Function.update_of_ne hne]
      exact h.top_live j hl
    · rw [assign_self, htop, Function.update_self]
      exact ⟨hc, rfl⟩
  · intro j hj hnot
    have hne : j ≠ c := fun he => hnot (.inr ⟨rfl, he⟩)
    rw [htop, Function.update_of_ne hne]
    exact h.top_dead j hj fun hl => hnot (.inl hl)
  · rintro r' j (hl | ⟨rfl, rfl⟩) hr'
    · have hup := h.parent r' j hl hr'
      rw [hlive hl, hlive hup, hother _ (hfresh _ _ hup)]
      exact h.page_live r' j hl hr'
    · exact absurd hr' (lt_irrefl _)
  · rintro r' j o (hl | ⟨he, rfl⟩) ho hnot
    · rw [hlive hl, hother _ (hfresh _ _ hl)]
      exact h.page_dead _ _ _ hl ho fun hx => hnot (.inl hx)
    · rw [he, assign_self]
      exact hnew (by omega) o ho
  · rintro r' j (hl | ⟨rfl, rfl⟩) hr'
    · exact .inl (h.parent r' j hl hr')
    · exact absurd hr' (lt_irrefl _)

theorem IsTree.replace (hd : 0 < d) (hc : live 0 c)
    (hb : b ≠ 0) (hslot : page' (node 1 (c / B)) (c % B) = b)
    (hrest : ∀ o, o ≠ c % B → page' (node 1 (c / B)) o = page (node 1 (c / B)) o)
    (hother : ∀ q, q ≠ node 1 (c / B) → page' q = page q) :
    IsTree B T d top page' live (assign node 0 c b) := by
  have hpage (r' j : ℕ) : assign node 0 c b (r' + 1) j = node (r' + 1) j :=
    assign_of_ne fun he => Nat.succ_ne_zero r' he.1
  have htop (j : ℕ) : assign node 0 c b d j = node d j := assign_of_ne fun he => hd.ne' he.1
  have hparent := h.parent 0 c hc hd
  refine ⟨h.height, fun j hl => ?_, h.top_dead, fun r' j hl hr' => ?_, fun r' j o hl ho hnot => ?_,
    h.parent, fun r' j r'' j' hl hl' heq => ?_, fun r' j hl => ?_⟩
  · rw [htop]
    exact h.top_live j hl
  · have hup := h.parent r' j hl hr'
    rw [hpage]
    by_cases hsame : node (r' + 1) (j / B) = node 1 (c / B)
    · obtain ⟨rfl, hj⟩ := h.inj _ _ _ _ hup hparent hsame
      rw [hsame]
      by_cases hjc : j = c
      · rw [hjc, assign_self]
        exact hslot
      · have hne : j % B ≠ c % B := by
          intro he
          apply hjc
          rw [← Nat.div_add_mod c B, ← hj, ← he, Nat.div_add_mod]
        rw [hrest _ hne, assign_of_ne fun he => hjc he.2, ← hsame]
        exact h.page_live 0 j hl hr'
    · have hne : ¬ (r' = 0 ∧ j = c) := by
        rintro ⟨rfl, rfl⟩
        exact hsame rfl
      rw [hother _ hsame, assign_of_ne hne]
      exact h.page_live r' j hl hr'
  · rw [hpage]
    by_cases hsame : node (r' + 1) j = node 1 (c / B)
    · obtain ⟨rfl, rfl⟩ := h.inj _ _ _ _ hl hparent hsame
      have hne : o ≠ c % B := by
        rintro rfl
        rw [Nat.div_add_mod'] at hnot
        exact hnot hc
      rw [hrest _ hne]
      exact h.page_dead 0 _ o hl ho hnot
    · rw [hother _ hsame]
      exact h.page_dead r' j o hl ho hnot
  · exact h.inj _ _ _ _ hl hl' heq
  · by_cases hrc : r' = 0 ∧ j = c
    · rw [hrc.1, hrc.2, assign_self]
      exact hb
    · rw [assign_of_ne hrc]
      exact h.ne_zero r' j hl

theorem IsTree.replaceTop (hd : d = 0) (hc : live 0 c)
    (hb : b ≠ 0) (htop : top' = Function.update top c b) :
    IsTree B T d top' page live (assign node 0 c b) := by
  subst hd
  have hnever {r' j : ℕ} (hl : live (r' + 1) j) : False :=
    absurd (h.height _ _ hl) (Nat.not_succ_le_zero r')
  refine ⟨h.height, fun j hl => ?_, fun j hj hnot => ?_, fun r' j hl hr' => ?_,
    fun r' j o hl => (hnever hl).elim, h.parent, fun r' j r'' j' hl => (hnever hl).elim,
    fun r' j hl => ?_⟩
  · rw [htop]
    rcases eq_or_ne j c with rfl | hne
    · rw [Function.update_self, assign_self]
      exact ⟨(h.top_live j hc).1, rfl⟩
    · rw [Function.update_of_ne hne, assign_of_ne fun he => hne he.2]
      exact h.top_live j hl
  · have hne : j ≠ c := fun he => hnot (he ▸ hc)
    rw [htop, Function.update_of_ne hne]
    exact h.top_dead j hj hnot
  · exact absurd hr' (Nat.not_lt_zero _)
  · by_cases hrc : r' = 0 ∧ j = c
    · rw [hrc.1, hrc.2, assign_self]
      exact hb
    · rw [assign_of_ne hrc]
      exact h.ne_zero r' j hl

theorem IsTree.grow (hT : T ≤ B) (hpos : 0 < T) (hb : b ≠ 0)
    (hfresh : ∀ r' j, live (r' + 1) j → node (r' + 1) j ≠ b)
    (htop : top' = Function.update (fun _ => 0) 0 b) (hother : ∀ q, q ≠ b → page' q = page q)
    (hnew : ∀ o, o < B → page' b o = if o < T then top o else 0) :
    IsTree B T (d + 1) top' page' (insertLive live (d + 1) 0) (assign node (d + 1) 0 b) := by
  have hdead {j : ℕ} (hl : live (d + 1) j) : False :=
    absurd (h.height _ _ hl) (Nat.not_succ_le_self d)
  have hlive {r' j : ℕ} (hl : live r' j) : assign node (d + 1) 0 b r' j = node r' j :=
    assign_of_live hdead hl
  have htopdiv {j : ℕ} (hl : live d j) : j / B = 0 ∧ j % B = j := by
    have hj := (h.top_live j hl).1.trans_le hT
    exact ⟨Nat.div_eq_of_lt hj, Nat.mod_eq_of_lt hj⟩
  refine ⟨?_, ?_, ?_, ?_, ?_, ?_, h.insert_inj hdead hfresh, h.insert_ne_zero hdead hb⟩
  · rintro r' j (hl | ⟨rfl, rfl⟩)
    · exact (h.height r' j hl).trans (Nat.le_succ d)
    · exact le_rfl
  · rintro j (hl | ⟨-, rfl⟩)
    · exact (hdead hl).elim
    · rw [assign_self, htop]
      exact ⟨hpos, rfl⟩
  · intro j hj hnot
    have hne : j ≠ 0 := fun he => hnot (.inr ⟨rfl, he⟩)
    rw [htop, Function.update_of_ne hne]
  · rintro r' j (hl | ⟨rfl, rfl⟩) hr'
    · rcases (Nat.lt_succ_iff.mp hr').eq_or_lt with rfl | hlt
      · obtain ⟨hdiv, hmod⟩ := htopdiv hl
        obtain ⟨hj, htopj⟩ := h.top_live j hl
        rw [hlive hl, hdiv, hmod, assign_self, hnew j (hj.trans_le hT), if_pos hj, htopj]
      · have hup := h.parent r' j hl hlt
        rw [hlive hl, hlive hup, hother _ (hfresh _ _ hup)]
        exact h.page_live r' j hl hlt
    · exact absurd hr' (lt_irrefl _)
  · rintro r' j o (hl | ⟨he, rfl⟩) ho hnot
    · rw [hlive hl, hother _ (hfresh _ _ hl)]
      exact h.page_dead _ _ _ hl ho fun hx => hnot (.inl hx)
    · obtain rfl : r' = d := Nat.succ.inj he
      rw [assign_self, hnew o ho]
      split_ifs with hoT
      · refine h.top_dead o hoT fun hl => hnot (.inl ?_)
        rwa [Nat.zero_mul, Nat.zero_add]
      · rfl
  · rintro r' j (hl | ⟨rfl, rfl⟩) hr'
    · rcases (Nat.lt_succ_iff.mp hr').eq_or_lt with rfl | hlt
      · exact .inr ⟨rfl, (htopdiv hl).1⟩
      · exact .inl (h.parent r' j hl hlt)
    · exact absurd hr' (lt_irrefl _)

theorem IsTree.prune (hsub : ∀ r j, live' r j → live r j)
    (hparent : ∀ r j, live' r j → r < d → live' (r + 1) (j / B))
    (htop_live : ∀ j, live' d j → top' j = top j)
    (htop_dead : ∀ j, j < T → ¬ live' d j → top' j = 0)
    (hpage_live : ∀ r j, live' r j → r < d →
      page' (node (r + 1) (j / B)) (j % B) = page (node (r + 1) (j / B)) (j % B))
    (hpage_dead : ∀ r j o, live' (r + 1) j → o < B → ¬ live' r (j * B + o) →
      page' (node (r + 1) j) o = 0) :
    IsTree B T d top' page' live' node := by
  refine ⟨fun r j hl => h.height r j (hsub r j hl), fun j hl => ?_, htop_dead,
    fun r j hl hr => ?_, hpage_dead, hparent,
    fun r j r' j' hl hl' heq => h.inj _ _ _ _ (hsub _ _ hl) (hsub _ _ hl') heq,
    fun r j hl => h.ne_zero r j (hsub r j hl)⟩
  · rw [htop_live j hl]
    exact h.top_live j (hsub d j hl)
  · rw [hpage_live r j hl hr]
    exact h.page_live r j (hsub r j hl) hr

end

/-- The nodes of height `r` from `lo` to before `hi` are not live. -/
def dropLive (live : ℕ → ℕ → Prop) (r lo hi : ℕ) : ℕ → ℕ → Prop :=
  fun r' j => live r' j ∧ ¬ (r' = r ∧ lo ≤ j ∧ j < hi)

theorem dropLive_of_not {lo hi r' j : ℕ} (hl : live r' j) (hnot : ¬ dropLive live r lo hi r' j) :
    r' = r ∧ lo ≤ j ∧ j < hi := by
  by_contra h
  exact hnot ⟨hl, h⟩

theorem IsTree.drop {q lo hi : ℕ} (h : IsTree B T d top page live node) (hr : r < d)
    (hq : live (r + 1) q) (hlo : q * B ≤ lo) (hhi : hi ≤ q * B + B)
    (hchild : ∀ r' j, live r' j → r' + 1 = r → ¬ (lo ≤ j / B ∧ j / B < hi))
    (hin : ∀ o, lo ≤ q * B + o → q * B + o < hi → page' (node (r + 1) q) o = 0)
    (hout : ∀ p o, ¬ (p = node (r + 1) q ∧ lo ≤ q * B + o ∧ q * B + o < hi) →
      page' p o = page p o) :
    IsTree B T d top page' (dropLive live r lo hi) node := by
  refine h.prune (fun r' j hl => hl.1) (fun r' j hl hr' => ⟨h.parent r' j hl.1 hr', ?_⟩)
    (fun _ _ => rfl) (fun j hj hnot => ?_) (fun r' j hl hr' => ?_) fun r' j o hl ho hnot => ?_
  · rintro ⟨he, hdrop⟩
    exact hchild r' j hl.1 he hdrop
  · refine h.top_dead j hj fun hl => ?_
    have := dropLive_of_not hl hnot
    omega
  · apply hout
    rintro ⟨heq, hdrop⟩
    obtain ⟨rfl, rfl⟩ := h.inj _ _ _ _ (h.parent r' j hl.1 hr') hq heq
    rw [Nat.div_add_mod'] at hdrop
    exact hl.2 ⟨rfl, hdrop⟩
  · by_cases hl₀ : live r' (j * B + o)
    · obtain ⟨rfl, hdrop⟩ := dropLive_of_not hl₀ hnot
      -- all these nodes are in the page `q`
      have hjq : j = q := by
        have h₁ : j * B < (q + 1) * B := by rw [Nat.add_mul]; omega
        have h₂ : q * B < (j + 1) * B := by rw [Nat.add_mul]; omega
        have := Nat.lt_of_mul_lt_mul_right h₁
        have := Nat.lt_of_mul_lt_mul_right h₂
        omega
      subst hjq
      exact hin o hdrop.1 hdrop.2
    · by_cases hslot : node (r' + 1) j = node (r + 1) q ∧ lo ≤ q * B + o ∧ q * B + o < hi
      · rw [hslot.1]
        exact hin o hslot.2.1 hslot.2.2
      · rw [hout _ _ hslot]
        exact h.page_dead r' j o hl.1 ho hl₀

theorem IsTree.dropTop {lo hi : ℕ} (h : IsTree B T d top page live node)
    (hchild : ∀ r' j, live r' j → r' + 1 = d → ¬ (lo ≤ j / B ∧ j / B < hi))
    (hin : ∀ j, lo ≤ j → j < hi → top' j = 0)
    (hout : ∀ j, ¬ (lo ≤ j ∧ j < hi) → top' j = top j) :
    IsTree B T d top' page (dropLive live d lo hi) node := by
  refine h.prune (fun r' j hl => hl.1) (fun r' j hl hr' => ⟨h.parent r' j hl.1 hr', ?_⟩)
    (fun j hl => hout j fun hdrop => hl.2 ⟨rfl, hdrop⟩) (fun j hj hnot => ?_) (fun _ _ _ _ => rfl)
    fun r' j o hl ho hnot => h.page_dead r' j o hl.1 ho fun hl₀ => ?_
  · rintro ⟨he, hdrop⟩
    exact hchild r' j hl.1 he hdrop
  · by_cases hdrop : lo ≤ j ∧ j < hi
    · exact hin j hdrop.1 hdrop.2
    · rw [hout j hdrop]
      exact h.top_dead j hj fun hl => hnot ⟨hl, fun hd => hdrop hd.2⟩
  · have := dropLive_of_not hl₀ hnot
    have := h.height _ _ hl.1
    omega

end SimpleKernel.PageTree
