import SimpleKernel.Lib.Int32
import SimpleKernel.Lib.Tally
import SimpleKernel.Lib.Transition
import Mathlib.Data.Fintype.BigOperators

/-! Critical sections (`sys/os/critsect.c`). Every access to a field of the section is a step of its own. -/
namespace SimpleKernel.Os
open Transition Tally
open Function (update update_of_ne)

/-- `struct critsect` with the state of its auto-reset event. -/
structure CritSect (τ : Type) where
  count : ℤ
  recursion : ℤ
  owner : Option τ
  signaled : Bool

/-- `mkcs`; `NOHANDLE` as owner is `none`. -/
def CritSect.mkcs {τ : Type} : CritSect τ := ⟨-1, 0, none, false⟩

namespace CritSect

/-- What a thread does next: the first five in `enter`, the others in `leave`. -/
inductive Pc
  | out
  | enterOwner
  | addRecursion
  | announce
  | waiting
  | setOwner
  | leaveOwner
  | leaveRecursion
  | subRecursion
  | clearOwner
  | withdraw
  | signal
  deriving DecidableEq

/-- A thread: where it is, and how often it has entered the section and not left it. -/
structure Thread where
  pc : Pc
  depth : ℕ
  deriving DecidableEq

def Thread.idle : Thread := ⟨.out, 0⟩

def Thread.goto (th : Thread) (pc : Pc) : Thread := { th with pc := pc }

/-- A thread is in the section once more when its `enter` has nothing left to do. -/
def Thread.entered (th : Thread) : Thread := ⟨.out, th.depth + 1⟩

/-- A thread gives up an entry. -/
def Thread.left (th : Thread) (pc : Pc) : Thread := ⟨pc, th.depth - 1⟩

variable {τ : Type} [DecidableEq τ]

/-- The next step of a thread in `enter` or `leave`. A `waitone` that fails is tried again. -/
def exec (self : τ) (cs : CritSect τ) (th : Thread) : Option (CritSect τ × Thread) :=
  match th.pc with
  | .out => none
  | .enterOwner => some (cs, th.goto (if cs.owner = some self then .addRecursion else .announce))
  | .addRecursion => some ({ cs with recursion := int32 (cs.recursion + 1) }, th.entered)
  | .announce =>
    some ({ cs with count := int32 (cs.count + 1) },
      th.goto (if 0 < int32 (cs.count + 1) then .waiting else .setOwner))
  | .waiting => if cs.signaled then some ({ cs with signaled := false }, th.goto .setOwner) else none
  | .setOwner => some ({ cs with owner := some self }, th.entered)
  | .leaveOwner => some (cs, th.goto (if cs.owner = some self then .leaveRecursion else .out))
  | .leaveRecursion => some (cs, th.goto (if 0 < cs.recursion then .subRecursion else .clearOwner))
  | .subRecursion => some ({ cs with recursion := int32 (cs.recursion - 1) }, th.left .out)
  | .clearOwner => some ({ cs with owner := none }, th.left .withdraw)
  | .withdraw =>
    some ({ cs with count := int32 (cs.count - 1) }, th.goto (if 0 ≤ int32 (cs.count - 1) then .signal else .out))
  | .signal => some ({ cs with signaled := true }, th.goto .out)

structure State (τ : Type) where
  cs : CritSect τ
  threads : τ → Thread

def State.init : State τ := ⟨.mkcs, fun _ => .idle⟩

inductive Call
  | enter
  | leave
  deriving DecidableEq

/-- Where a call begins. -/
def Call.entry : Call → Pc
  | .enter => .enterOwner
  | .leave => .leaveOwner

/-- A thread calls one of the functions, or goes on. -/
inductive Act (τ : Type)
  | call (t : τ) (c : Call)
  | go (t : τ)

def step (s : State τ) : Act τ → Option (State τ)
  | .call t c =>
    if (s.threads t).pc = .out then
      some { s with threads := update s.threads t ((s.threads t).goto c.entry) }
    else none
  | .go t => (exec t s.cs (s.threads t)).map fun r => ⟨r.1, update s.threads t r.2⟩

/-- A thread enters less than `2 ^ 31` times beyond its first entry. -/
def Shallow (s : State τ) : Act τ → Prop
  | .call t .enter => (s.threads t).depth < 2 ^ 31
  | _ => True

/-- The thread is inside, or on its way in or out with the count raised for it. -/
def Thread.counted (th : Thread) : ℕ :=
  if 0 < th.depth ∨ th.pc = .waiting ∨ th.pc = .setOwner ∨ th.pc = .withdraw then 1 else 0

/-- The thread is inside, or the next one to get in, or the one whose `leave` lets the next one in. -/
def Thread.grants (th : Thread) : ℕ :=
  if 0 < th.depth ∨ th.pc = .setOwner ∨ th.pc = .withdraw ∨ th.pc = .signal then 1 else 0

/-- How often a thread can have entered the section where it is. -/
def Thread.Fits (th : Thread) : Prop := match th.pc with
  | .out | .leaveOwner => th.depth ≤ 2 ^ 31
  | .enterOwner => th.depth < 2 ^ 31
  | .addRecursion => 0 < th.depth ∧ th.depth < 2 ^ 31
  | .leaveRecursion => 0 < th.depth ∧ th.depth ≤ 2 ^ 31
  | .subRecursion => 1 < th.depth ∧ th.depth ≤ 2 ^ 31
  | .clearOwner => th.depth = 1
  | .announce | .waiting | .setOwner | .withdraw | .signal => th.depth = 0

variable [Fintype τ]

structure Inv (s : State τ) : Prop where
  fits : ∀ t, (s.threads t).Fits
  count : s.cs.count + 1 = (∑ t, (s.threads t).counted : ℕ)
  grant : ∑ t, (s.threads t).grants + s.cs.signaled.toNat = if s.cs.count + 1 = 0 then 0 else 1
  owner : ∀ t, s.cs.owner = some t ↔ 0 < (s.threads t).depth
  recursion : ∀ t, 0 < (s.threads t).depth → s.cs.recursion + 1 = (s.threads t).depth
  flat : (∀ t, (s.threads t).depth = 0) → s.cs.recursion = 0

omit [DecidableEq τ] in
theorem inv_init : Inv (State.init : State τ) := by
  constructor
  · exact fun t => Nat.zero_le _
  · simp [State.init, CritSect.mkcs, Thread.idle, Thread.counted]
  · simp [State.init, CritSect.mkcs, Thread.idle, Thread.grants]
  · exact fun t => ⟨nofun, fun h => absurd h (Nat.lt_irrefl 0)⟩
  · exact fun t h => absurd h (Nat.lt_irrefl 0)
  · exact fun _ => rfl

variable {s s' : State τ} {t u : τ} {cs : CritSect τ} {th : Thread}

omit [DecidableEq τ] in
theorem Inv.alone (h : Inv s) (ht : (s.threads t).grants = 1) (hu : u ≠ t) : (s.threads u).depth = 0 := by
  by_contra hne
  have hgrants : (s.threads u).grants = 1 := if_pos (.inl (Nat.pos_of_ne_zero hne))
  have htwo := add_le_sum (fun v => (s.threads v).grants) hu
  have hgrant := h.grant
  split_ifs at hgrant <;> omega

omit [DecidableEq τ] in
theorem Inv.count_lt (h : Inv s) (hcard : Fintype.card τ ≤ 2 ^ 31) (hu : (s.threads t).counted = 0) :
    -1 ≤ s.cs.count ∧ s.cs.count + 1 < 2 ^ 31 := by
  have hcount := h.count
  have hle : ∑ v, (s.threads v).counted < ∑ _v : τ, 1 := by
    apply Finset.sum_lt_sum
    · intro v _
      unfold Thread.counted
      split_ifs <;> omega
    · exact ⟨t, Finset.mem_univ t, by omega⟩
  rw [← Fintype.card_eq_sum_ones] at hle
  omega

theorem Inv.change (h : Inv s) (hfits : th.Fits)
    (hcount : cs.count + (s.threads t).counted = s.cs.count + th.counted)
    (hgrant : ∀ S, S + (s.threads t).grants + s.cs.signaled.toNat = (if s.cs.count + 1 = 0 then 0 else 1) →
      S + th.grants + cs.signaled.toNat = if cs.count + 1 = 0 then 0 else 1)
    (howner : ∀ u, u ≠ t → (cs.owner = some u ↔ s.cs.owner = some u))
    (hself : cs.owner = some t ↔ 0 < th.depth)
    (hrecursion : cs.recursion = s.cs.recursion ∨ ∀ u, u ≠ t → (s.threads u).depth = 0)
    (hdepth : 0 < th.depth → cs.recursion + 1 = th.depth)
    (hflat : th.depth = 0 → (∀ u, u ≠ t → (s.threads u).depth = 0) → cs.recursion = 0) :
    Inv ⟨cs, update s.threads t th⟩ := by
  constructor
  · intro u
    by_cases hu : u = t
    · subst hu
      simpa using hfits
    · simpa [hu] using h.fits u
  · have hsum := sum_update Thread.counted s.threads t th
    have hold := h.count
    dsimp only
    omega
  · have hsum := sum_update Thread.grants s.threads t th
    have hle := le_sum (fun v => (s.threads v).grants) t
    have hold := hgrant (∑ v, (s.threads v).grants - (s.threads t).grants)
    have hsplit : ∑ v, (s.threads v).grants - (s.threads t).grants + (s.threads t).grants =
      ∑ v, (s.threads v).grants := Nat.sub_add_cancel hle
    rw [hsplit] at hold
    dsimp only
    rw [← hold h.grant]
    omega
  · intro u
    by_cases hu : u = t
    · subst hu
      simpa using hself
    · dsimp only
      rw [update_of_ne hu, howner u hu]
      exact h.owner u
  · intro u
    by_cases hu : u = t
    · subst hu
      simpa using hdepth
    · dsimp only
      rw [update_of_ne hu]
      intro hpos
      rcases hrecursion with hsame | hzero
      · rw [hsame]
        exact h.recursion u hpos
      · have hnone := hzero u hu
        omega
  · intro hall
    apply hflat
    · simpa using hall t
    · intro u hu
      simpa [hu] using hall u

theorem Inv.goto (h : Inv s) (pc : Pc) (hfits : ((s.threads t).goto pc).Fits)
    (hcounted : ((s.threads t).goto pc).counted = (s.threads t).counted)
    (hgrants : ((s.threads t).goto pc).grants = (s.threads t).grants) :
    Inv ⟨s.cs, update s.threads t ((s.threads t).goto pc)⟩ := by
  apply h.change hfits
  · rw [hcounted]
  · rw [hgrants]
    exact fun _ hS => hS
  · exact fun _ _ => Iff.rfl
  · exact h.owner t
  · exact .inl rfl
  · exact h.recursion t
  · intro hzero hothers
    apply h.flat
    intro u
    by_cases hu : u = t
    · rw [hu]
      exact hzero
    · exact hothers u hu

omit [Fintype τ] in
theorem Thread.Fits.depth {pc : Pc} (h : th.Fits) (hpc : th.pc = pc)
    (hin : pc = .announce ∨ pc = .waiting ∨ pc = .setOwner ∨ pc = .withdraw ∨ pc = .signal) : th.depth = 0 := by
  rcases hin with rfl | rfl | rfl | rfl | rfl
  all_goals simpa only [Thread.Fits, hpc] using h

omit [DecidableEq τ] in
theorem Inv.flat_of_alone (h : Inv s) (ht : (s.threads t).grants = 1) (hdepth : (s.threads t).depth = 0) :
    s.cs.recursion = 0 := by
  apply h.flat
  intro u
  by_cases hu : u = t
  · rw [hu, hdepth]
  · exact h.alone ht hu

section
variable (h : Inv s)
include h

theorem Inv.announce (hcard : Fintype.card τ ≤ 2 ^ 31) (hpc : (s.threads t).pc = .announce) :
    Inv ⟨{ s.cs with count := int32 (s.cs.count + 1) }, update s.threads t
      ((s.threads t).goto (if 0 < int32 (s.cs.count + 1) then .waiting else .setOwner))⟩ := by
  have hzero : (s.threads t).depth = 0 := (h.fits t).depth hpc (.inl rfl)
  have hcounted : (s.threads t).counted = 0 := by simp [Thread.counted, hzero, hpc]
  have hgrants : (s.threads t).grants = 0 := by simp [Thread.grants, hzero, hpc]
  obtain ⟨hlow, hhigh⟩ := h.count_lt hcard hcounted
  have hint : int32 (s.cs.count + 1) = s.cs.count + 1 := int32_eq (by omega) hhigh
  rw [hint]
  apply h.change
  · split_ifs
    · exact hzero
    · exact hzero
  · have hnew : ((s.threads t).goto (if 0 < s.cs.count + 1 then .waiting else .setOwner)).counted = 1 := by
      split_ifs
      · simp [Thread.counted, Thread.goto]
      · simp [Thread.counted, Thread.goto]
    rw [hcounted, hnew]
    simp
  · intro S hS
    rw [hgrants] at hS
    dsimp only
    by_cases hpos : 0 < s.cs.count + 1
    · have hnew : ((s.threads t).goto .waiting).grants = 0 := by simp [Thread.grants, Thread.goto, hzero]
      rw [if_neg (by omega)] at hS
      rw [if_pos hpos, hnew, if_neg (by omega)]
      exact hS
    · have hnew : ((s.threads t).goto .setOwner).grants = 1 := by simp [Thread.grants, Thread.goto]
      rw [if_pos (by omega)] at hS
      rw [if_neg hpos, if_neg (by omega)]
      omega
  · exact fun _ _ => Iff.rfl
  · exact h.owner t
  · exact .inl rfl
  · exact h.recursion t
  · intro _ hothers
    apply h.flat
    intro u
    by_cases hu : u = t
    · rw [hu, hzero]
    · exact hothers u hu

theorem Inv.withdraw (hcard : Fintype.card τ ≤ 2 ^ 31) (hpc : (s.threads t).pc = .withdraw) :
    Inv ⟨{ s.cs with count := int32 (s.cs.count - 1) }, update s.threads t
      ((s.threads t).goto (if 0 ≤ int32 (s.cs.count - 1) then .signal else .out))⟩ := by
  have hzero : (s.threads t).depth = 0 := (h.fits t).depth hpc (.inr (.inr (.inr (.inl rfl))))
  have hcounted : (s.threads t).counted = 1 := by simp [Thread.counted, hpc]
  have hgrants : (s.threads t).grants = 1 := by simp [Thread.grants, hpc]
  have hcount := h.count
  have hle : ∑ v, (s.threads v).counted ≤ ∑ _v : τ, 1 := by
    apply Finset.sum_le_sum
    intro v _
    unfold Thread.counted
    split_ifs <;> omega
  rw [← Fintype.card_eq_sum_ones] at hle
  have hone := le_sum (fun v => (s.threads v).counted) t
  have hint : int32 (s.cs.count - 1) = s.cs.count - 1 := int32_eq (by omega) (by omega)
  rw [hint]
  apply h.change
  · split_ifs
    · exact hzero
    · exact hzero.le.trans (Nat.zero_le _)
  · have hnew : ((s.threads t).goto (if 0 ≤ s.cs.count - 1 then .signal else .out)).counted = 0 := by
      split_ifs
      · simp [Thread.counted, Thread.goto, hzero]
      · simp [Thread.counted, Thread.goto, hzero]
    rw [hcounted, hnew]
    simp
  · intro S hS
    rw [hgrants, if_neg (by omega)] at hS
    dsimp only
    by_cases hmore : 0 ≤ s.cs.count - 1
    · have hnew : ((s.threads t).goto .signal).grants = 1 := by simp [Thread.grants, Thread.goto]
      rw [if_pos hmore, hnew, if_neg (by omega)]
      exact hS
    · have hnew : ((s.threads t).goto .out).grants = 0 := by simp [Thread.grants, Thread.goto, hzero]
      rw [if_neg hmore, if_pos (by omega)]
      omega
  · exact fun _ _ => Iff.rfl
  · exact h.owner t
  · exact .inl rfl
  · exact h.recursion t
  · exact fun _ _ => h.flat_of_alone hgrants hzero

theorem Inv.addRecursion (hpc : (s.threads t).pc = .addRecursion) :
    Inv ⟨{ s.cs with recursion := int32 (s.cs.recursion + 1) },
      update s.threads t (s.threads t).entered⟩ := by
  have hfits := h.fits t
  simp only [Thread.Fits, hpc] at hfits
  obtain ⟨hpos, hroom⟩ := hfits
  have hcounted : (s.threads t).counted = 1 := if_pos (.inl hpos)
  have hgrants : (s.threads t).grants = 1 := if_pos (.inl hpos)
  have hrecursion := h.recursion t hpos
  have hint : int32 (s.cs.recursion + 1) = s.cs.recursion + 1 := int32_eq (by omega) (by omega)
  apply h.change
  · exact hroom
  · rw [hcounted]
    rfl
  · rw [hgrants]
    exact fun _ hS => hS
  · exact fun _ _ => Iff.rfl
  · exact ⟨fun _ => Nat.succ_pos _, fun _ => (h.owner t).2 hpos⟩
  · exact .inr fun u hu => h.alone hgrants hu
  · simp only [Thread.entered]
    omega
  · exact fun hzero => absurd hzero (Nat.succ_ne_zero _)

theorem Inv.wake (hpc : (s.threads t).pc = .waiting) (hsignaled : s.cs.signaled = true) :
    Inv ⟨{ s.cs with signaled := false }, update s.threads t ((s.threads t).goto .setOwner)⟩ := by
  have hzero : (s.threads t).depth = 0 := (h.fits t).depth hpc (.inr (.inl rfl))
  have hcounted : (s.threads t).counted = 1 := by simp [Thread.counted, hpc]
  have hgrants : (s.threads t).grants = 0 := by simp [Thread.grants, hpc, hzero]
  apply h.change
  · exact hzero
  · have hnew : ((s.threads t).goto .setOwner).counted = 1 := by simp [Thread.counted, Thread.goto]
    rw [hcounted, hnew]
  · intro S hS
    have hnew : ((s.threads t).goto .setOwner).grants = 1 := by simp [Thread.grants, Thread.goto]
    rw [hgrants, hsignaled] at hS
    rw [hnew]
    exact hS
  · exact fun _ _ => Iff.rfl
  · exact h.owner t
  · exact .inl rfl
  · exact h.recursion t
  · intro _ hothers
    apply h.flat
    intro u
    by_cases hu : u = t
    · rw [hu, hzero]
    · exact hothers u hu

theorem Inv.setOwner (hpc : (s.threads t).pc = .setOwner) :
    Inv ⟨{ s.cs with owner := some t }, update s.threads t (s.threads t).entered⟩ := by
  have hzero : (s.threads t).depth = 0 := (h.fits t).depth hpc (.inr (.inr (.inl rfl)))
  have hcounted : (s.threads t).counted = 1 := by simp [Thread.counted, hpc]
  have hgrants : (s.threads t).grants = 1 := by simp [Thread.grants, hpc]
  have hflat := h.flat_of_alone hgrants hzero
  apply h.change
  · simp only [Thread.entered, Thread.Fits, hzero]
    decide
  · rw [hcounted]
    rfl
  · rw [hgrants]
    exact fun _ hS => hS
  · intro u hu
    have hnone : s.cs.owner ≠ some u := by
      intro howner
      have hpos := (h.owner u).1 howner
      rw [h.alone hgrants hu] at hpos
      exact absurd hpos (Nat.lt_irrefl 0)
    exact ⟨fun heq => absurd (Option.some.inj heq).symm hu, fun howner => absurd howner hnone⟩
  · exact ⟨fun _ => Nat.succ_pos _, fun _ => rfl⟩
  · exact .inl rfl
  · intro _
    simp only [Thread.entered, hzero, hflat]
    rfl
  · exact fun hnone => absurd hnone (Nat.succ_ne_zero _)

theorem Inv.subRecursion (hpc : (s.threads t).pc = .subRecursion) :
    Inv ⟨{ s.cs with recursion := int32 (s.cs.recursion - 1) },
      update s.threads t ((s.threads t).left .out)⟩ := by
  have hfits := h.fits t
  simp only [Thread.Fits, hpc] at hfits
  obtain ⟨hnested, hroom⟩ := hfits
  have hpos : 0 < (s.threads t).depth := Nat.lt_of_succ_lt hnested
  have hleft : 0 < ((s.threads t).left .out).depth := Nat.sub_pos_of_lt hnested
  have hcounted : (s.threads t).counted = 1 := if_pos (.inl hpos)
  have hgrants : (s.threads t).grants = 1 := if_pos (.inl hpos)
  have hrecursion := h.recursion t hpos
  have hint : int32 (s.cs.recursion - 1) = s.cs.recursion - 1 := int32_eq (by omega) (by omega)
  apply h.change
  · exact (Nat.sub_le _ _).trans hroom
  · have hnew : ((s.threads t).left .out).counted = 1 := if_pos (.inl hleft)
    rw [hcounted, hnew]
  · have hnew : ((s.threads t).left .out).grants = 1 := if_pos (.inl hleft)
    rw [hgrants, hnew]
    exact fun _ hS => hS
  · exact fun _ _ => Iff.rfl
  · exact ⟨fun _ => hleft, fun _ => (h.owner t).2 hpos⟩
  · exact .inr fun u hu => h.alone hgrants hu
  · simp only [Thread.left]
    omega
  · exact fun hzero => absurd hzero hleft.ne'

theorem Inv.clearOwner (hpc : (s.threads t).pc = .clearOwner) :
    Inv ⟨{ s.cs with owner := none }, update s.threads t ((s.threads t).left .withdraw)⟩ := by
  have hone := h.fits t
  simp only [Thread.Fits, hpc] at hone
  have hpos : 0 < (s.threads t).depth := hone.symm ▸ Nat.one_pos
  have hleft : ((s.threads t).left .withdraw).depth = 0 := by simp [Thread.left, hone]
  have hcounted : (s.threads t).counted = 1 := if_pos (.inl hpos)
  have hgrants : (s.threads t).grants = 1 := if_pos (.inl hpos)
  have hrecursion := h.recursion t hpos
  apply h.change
  · exact hleft
  · have hnew : ((s.threads t).left .withdraw).counted = 1 := by simp [Thread.counted, Thread.left]
    rw [hcounted, hnew]
  · have hnew : ((s.threads t).left .withdraw).grants = 1 := by simp [Thread.grants, Thread.left]
    rw [hgrants, hnew]
    exact fun _ hS => hS
  · intro u hu
    have howner := (h.owner t).2 hpos
    rw [howner]
    exact ⟨nofun, fun heq => absurd (Option.some.inj heq).symm hu⟩
  · rw [hleft]
    exact ⟨nofun, fun hlt => absurd hlt (Nat.lt_irrefl 0)⟩
  · exact .inl rfl
  · rw [hleft]
    exact fun hlt => absurd hlt (Nat.lt_irrefl 0)
  · dsimp only
    omega

theorem Inv.signal (hpc : (s.threads t).pc = .signal) :
    Inv ⟨{ s.cs with signaled := true }, update s.threads t ((s.threads t).goto .out)⟩ := by
  have hzero : (s.threads t).depth = 0 := (h.fits t).depth hpc (.inr (.inr (.inr (.inr rfl))))
  have hcounted : (s.threads t).counted = 0 := by simp [Thread.counted, hzero, hpc]
  have hgrants : (s.threads t).grants = 1 := by simp [Thread.grants, hpc]
  apply h.change
  · exact hzero.le.trans (Nat.zero_le _)
  · have hnew : ((s.threads t).goto .out).counted = 0 := by simp [Thread.counted, Thread.goto, hzero]
    rw [hcounted, hnew]
  · intro S hS
    have hnew : ((s.threads t).goto .out).grants = 0 := by simp [Thread.grants, Thread.goto, hzero]
    dsimp only [Bool.toNat_true]
    split_ifs at hS ⊢ <;> omega
  · exact fun _ _ => Iff.rfl
  · exact h.owner t
  · exact .inl rfl
  · exact h.recursion t
  · exact fun _ _ => h.flat_of_alone hgrants hzero

theorem Inv.exec (hcard : Fintype.card τ ≤ 2 ^ 31)
    (hexec : CritSect.exec t s.cs (s.threads t) = some (cs, th)) : Inv ⟨cs, update s.threads t th⟩ := by
  have hfits := h.fits t
  have howner := h.owner t
  unfold CritSect.exec at hexec
  cases hpc : (s.threads t).pc with
  | out =>
    simp only [hpc] at hexec
    nomatch hexec
  | enterOwner =>
    simp only [hpc] at hexec
    obtain ⟨rfl, rfl⟩ := hexec
    simp only [Thread.Fits, hpc] at hfits
    apply h.goto
    · split_ifs with hself
      · exact ⟨howner.1 hself, hfits⟩
      · exact Nat.eq_zero_of_not_pos fun hpos => hself (howner.2 hpos)
    · split_ifs <;> simp [Thread.counted, Thread.goto, hpc]
    · split_ifs <;> simp [Thread.grants, Thread.goto, hpc]
  | addRecursion =>
    simp only [hpc] at hexec
    obtain ⟨rfl, rfl⟩ := hexec
    exact h.addRecursion hpc
  | announce =>
    simp only [hpc] at hexec
    obtain ⟨rfl, rfl⟩ := hexec
    exact h.announce hcard hpc
  | waiting =>
    simp only [hpc] at hexec
    split at hexec
    · next hsignaled =>
      obtain ⟨rfl, rfl⟩ := hexec
      exact h.wake hpc hsignaled
    · nomatch hexec
  | setOwner =>
    simp only [hpc] at hexec
    obtain ⟨rfl, rfl⟩ := hexec
    exact h.setOwner hpc
  | leaveOwner =>
    simp only [hpc] at hexec
    obtain ⟨rfl, rfl⟩ := hexec
    simp only [Thread.Fits, hpc] at hfits
    apply h.goto
    · split_ifs with hself
      · exact ⟨howner.1 hself, hfits⟩
      · exact hfits
    · split_ifs <;> simp [Thread.counted, Thread.goto, hpc]
    · split_ifs <;> simp [Thread.grants, Thread.goto, hpc]
  | leaveRecursion =>
    simp only [hpc] at hexec
    obtain ⟨rfl, rfl⟩ := hexec
    simp only [Thread.Fits, hpc] at hfits
    have hrecursion := h.recursion t hfits.1
    apply h.goto
    · split_ifs with hnested
      · refine ⟨?_, hfits.2⟩
        simp only [Thread.goto]
        omega
      · simp only [Thread.Fits, Thread.goto]
        omega
    · split_ifs <;> simp [Thread.counted, Thread.goto, hpc]
    · split_ifs <;> simp [Thread.grants, Thread.goto, hpc]
  | subRecursion =>
    simp only [hpc] at hexec
    obtain ⟨rfl, rfl⟩ := hexec
    exact h.subRecursion hpc
  | clearOwner =>
    simp only [hpc] at hexec
    obtain ⟨rfl, rfl⟩ := hexec
    exact h.clearOwner hpc
  | withdraw =>
    simp only [hpc] at hexec
    obtain ⟨rfl, rfl⟩ := hexec
    exact h.withdraw hcard hpc
  | signal =>
    simp only [hpc] at hexec
    obtain ⟨rfl, rfl⟩ := hexec
    exact h.signal hpc

theorem Inv.step (hcard : Fintype.card τ ≤ 2 ^ 31) {a : Act τ} (hok : Shallow s a)
    (hs : CritSect.step s a = some s') : Inv s' := by
  cases a with
  | call t c =>
    simp only [CritSect.step] at hs
    split at hs
    · next hpc =>
      obtain rfl := Option.some.inj hs
      have hfits := h.fits t
      simp only [Thread.Fits, hpc] at hfits
      apply h.goto
      · cases c with
        | enter => exact hok
        | leave => exact hfits
      · cases c <;> simp [Thread.counted, Thread.goto, Call.entry, hpc]
      · cases c <;> simp [Thread.grants, Thread.goto, Call.entry, hpc]
    · nomatch hs
  | go t =>
    obtain ⟨⟨cs, th⟩, hexec, rfl⟩ := Option.map_eq_some_iff.1 hs
    exact h.exec hcard hexec

end

theorem Inv.reach (hcard : Fintype.card τ ≤ 2 ^ 31) (h : Reach CritSect.step Shallow State.init s) : Inv s :=
  h.invariant inv_init fun _ _ _ hinv hok hs => hinv.step hcard hok hs

/-- The thread has announced itself and not yet got in. -/
def Thread.Announced (th : Thread) : Prop := th.pc = .waiting ∨ th.pc = .setOwner

instance (th : Thread) : Decidable th.Announced := inferInstanceAs (Decidable (_ ∨ _))

/-- A thread is blocked in `enter`, nobody is inside, no wakeup is pending and nobody is on the way in or out. -/
def Lost (s : State τ) : Prop :=
  (∀ t, (s.threads t).depth = 0) ∧ s.cs.signaled = false ∧
    (∀ t, (s.threads t).pc ≠ .setOwner ∧ (s.threads t).pc ≠ .withdraw ∧ (s.threads t).pc ≠ .signal) ∧
    ∃ w, (s.threads w).pc = .waiting

omit [DecidableEq τ] in
theorem Inv.not_lost (h : Inv s) : ¬ Lost s := by
  rintro ⟨hempty, hsignaled, hquiet, w, hw⟩
  have hnone : ∑ t, (s.threads t).grants = 0 := by
    apply Finset.sum_eq_zero
    intro t _
    have hdepth := hempty t
    obtain ⟨howner, hwithdraw, hsignal⟩ := hquiet t
    simp [Thread.grants, hdepth, howner, hwithdraw, hsignal]
  have hcounted : (s.threads w).counted = 1 := by simp [Thread.counted, hw]
  have hle := le_sum (fun t => (s.threads t).counted) w
  have hcount := h.count
  have hgrant := h.grant
  rw [hnone, hsignaled, if_neg (by omega)] at hgrant
  nomatch hgrant

/-- Up to `2 ^ 31` threads that enter and leave: one is inside at most, `owner` and `recursion` tell which and how
often, `count` how many are inside, have announced themselves or have not withdrawn their count, and no wakeup is
lost. -/
theorem critical_section (hcard : Fintype.card τ ≤ 2 ^ 31) (h : Reach CritSect.step Shallow State.init s) :
    (∀ t u, 0 < (s.threads t).depth → 0 < (s.threads u).depth → t = u) ∧
      (∀ t, 0 < (s.threads t).depth → s.cs.owner = some t ∧ s.cs.recursion = (s.threads t).depth - 1) ∧
      s.cs.count + 1 = (Finset.univ.filter fun t =>
        0 < (s.threads t).depth ∨ (s.threads t).Announced ∨ (s.threads t).pc = .withdraw).card ∧
      ¬ Lost s := by
  have hinv := Inv.reach hcard h
  refine ⟨fun t u ht hu => ?_, fun t ht => ⟨(hinv.owner t).2 ht, ?_⟩, ?_, hinv.not_lost⟩
  · exact Option.some.inj (((hinv.owner t).2 ht).symm.trans ((hinv.owner u).2 hu))
  · have hrecursion := hinv.recursion t ht
    omega
  · rw [hinv.count, Finset.card_filter]
    apply congrArg Nat.cast
    apply Finset.sum_congr rfl
    intro t _
    simp only [Thread.counted, Thread.Announced, or_assoc]

/-- One thread enters twice, while another one waits for it. -/
def nestedRun : List (Act Bool) :=
  [.call true .enter, .go true, .go true, .go true, .call false .enter, .go false, .go false, .call true .enter,
    .go true, .go true]

instance (s : State τ) (a : Act τ) : Decidable (Shallow s a) :=
  match a with
  | .call t .enter => inferInstanceAs (Decidable ((s.threads t).depth < 2 ^ 31))
  | .call _ .leave => .isTrue trivial
  | .go _ => .isTrue trivial

theorem critical_section_nestedRun : ∃ s : State Bool, s.cs.owner = some true ∧ s.cs.recursion = 1 ∧
    s.cs.count = 1 ∧ (s.threads false).pc = .waiting ∧ ¬ Lost s := by
  have hrun : ∃ s, runOk step Shallow (State.init : State Bool) nestedRun = some s ∧
      (s.threads true).depth = 2 ∧ s.cs.count = 1 ∧ (s.threads false).pc = .waiting :=
    ⟨_, rfl, by decide, by decide, by decide⟩
  obtain ⟨s, hs, hdepth, hcount, hwaiting⟩ := hrun
  obtain ⟨-, hinside, -, hlost⟩ := critical_section (by decide) (reach_of_runOk _ hs)
  obtain ⟨howner, hrecursion⟩ := hinside true (by omega)
  exact ⟨s, howner, by omega, hcount, hwaiting, hlost⟩

/-- The thread has given up the ownership, and its count is still there. -/
def leavingRun : List (Act Bool) :=
  [.call true .enter, .go true, .go true, .go true, .call true .leave, .go true, .go true, .go true]

/-- Whichever threads are said to be inside, as long as each is the owner, there is a moment in `leave` when the
count is not that of the threads inside or announced. -/
theorem critical_section_leaving : ¬ ∃ inside : State Bool → Bool → Bool,
    ∀ s, Reach step Shallow State.init s → (∀ t, inside s t → s.cs.owner = some t) ∧
      s.cs.count + 1 = (Finset.univ.filter fun t => inside s t ∨ (s.threads t).Announced).card := by
  rintro ⟨inside, hclaim⟩
  have hrun : ∃ s, runOk step Shallow (State.init : State Bool) leavingRun = some s ∧ s.cs.owner = none ∧
      s.cs.count = 0 ∧ ∀ t, ¬ (s.threads t).Announced := ⟨_, rfl, rfl, by decide, by decide⟩
  obtain ⟨s, hs, howner, hcount, hannounced⟩ := hrun
  obtain ⟨hinside, hsum⟩ := hclaim s (reach_of_runOk _ hs)
  have hnone : (Finset.univ.filter fun t => inside s t ∨ (s.threads t).Announced) = ∅ := by
    apply Finset.filter_eq_empty_iff.2
    rintro t - (ht | ht)
    · have howns := hinside t ht
      rw [howner] at howns
      nomatch howns
    · exact hannounced t ht
  rw [hnone, hcount] at hsum
  nomatch hsum

end CritSect
end SimpleKernel.Os
