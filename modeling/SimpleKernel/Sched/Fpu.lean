import Mathlib.Algebra.Group.Basic
import Mathlib.Algebra.GroupWithZero.Nat
import SimpleKernel.Lib.Transition

/-! Lazy switching of the floating point unit: it is disabled when a thread that used it is switched away from; the
next instruction traps, and the handler loads the registers of the running thread. `ρ` is what the registers hold.
-/
namespace SimpleKernel.Sched
open Transition
open Function (update update_eq_self_iff update_of_ne update_self)

/-- `executed t regs own`: an instruction of `t` found `regs`; `own` is what `t` had left there.
`saved t on`: the registers were stored for `t`; `on` says that the unit was enabled. -/
inductive FpuEvent (τ ρ : Type) where
  | executed (t : τ) (regs : ρ) (own : Option ρ)
  | saved (t : τ) (on : Bool)

/-- `fpuUsed` and `fpuEnabled` are the thread flags `THREAD_FPU_USED` and `THREAD_FPU_ENABLED`,
`em` and `ts` the bits of `CR0`. `left` and `log` are history. -/
structure FpuSys (τ ρ : Type) where
  cur : τ
  fpuUsed : τ → Bool
  fpuEnabled : τ → Bool
  fpustate : τ → ρ
  em : Bool
  ts : Bool
  regs : ρ
  left : τ → Option ρ
  log : List (FpuEvent τ ρ)

/-- `execute f`: the running thread executes an instruction with the effect `f`. -/
inductive FpuLabel (τ ρ : Type) where
  | execute (f : ρ → ρ)
  | dispatch (t : τ)
  | create (t : τ)

namespace FpuSys
variable {τ ρ : Type} [DecidableEq τ]

/-- Instructions do not trap. -/
def fpuOn (s : FpuSys τ ρ) : Bool := !s.em && !s.ts

section Model
variable (fninit : ρ)

def fpuEnable (s : FpuSys τ ρ) (state : Option ρ) : FpuSys τ ρ :=
  { s with em := false, ts := false, regs := state.getD fninit }

def fpuTrapHandler (s : FpuSys τ ρ) : FpuSys τ ρ :=
  if s.fpuUsed s.cur then
    { s.fpuEnable fninit (some (s.fpustate s.cur)) with
      fpuEnabled := update s.fpuEnabled s.cur true }
  else
    { s.fpuEnable fninit none with
      fpuEnabled := update s.fpuEnabled s.cur true
      fpuUsed := update s.fpuUsed s.cur true }

/-- The state in which an instruction is executed: when it traps, after the trap. -/
def access (s : FpuSys τ ρ) : FpuSys τ ρ := if s.fpuOn then s else s.fpuTrapHandler fninit

def execute (s : FpuSys τ ρ) (f : ρ → ρ) : FpuSys τ ρ :=
  let s := s.access fninit
  { s with
    regs := f s.regs
    left := update s.left s.cur (some (f s.regs))
    log := .executed s.cur s.regs (s.left s.cur) :: s.log }

/-- `fnsave` stores the registers and initializes the unit. -/
def fnsave (s : FpuSys τ ρ) : FpuSys τ ρ :=
  let s := s.access fninit
  { s with
    fpustate := update s.fpustate s.cur s.regs
    regs := fninit
    log := .saved s.cur s.fpuOn :: s.log }

/-- `fpu_disable` for the state of the running thread. -/
def fpuDisable (s : FpuSys τ ρ) : FpuSys τ ρ := { s.fnsave fninit with em := true }

/-- The end of `dispatch`, once `t` has been found. -/
def dispatch (s : FpuSys τ ρ) (t : τ) : FpuSys τ ρ :=
  if t = s.cur then s
  else
    let s :=
      if s.fpuEnabled s.cur then
        let s := s.fpuDisable fninit
        { s with fpuEnabled := update s.fpuEnabled t false }
      else s
    { s with cur := t }

/-- A thread control block is filled with zeros. -/
def create [Zero ρ] (s : FpuSys τ ρ) (t : τ) : FpuSys τ ρ :=
  { s with
    fpuUsed := update s.fpuUsed t false
    fpuEnabled := update s.fpuEnabled t false
    fpustate := update s.fpustate t 0
    left := update s.left t none }

def step [Zero ρ] (s : FpuSys τ ρ) : FpuLabel τ ρ → Option (FpuSys τ ρ)
  | .execute f => some (s.execute fninit f)
  | .dispatch t => some (s.dispatch fninit t)
  | .create t => if t = s.cur then none else some (s.create t)

end Model

/-- The flag `THREAD_FPU_ENABLED` is set in the running thread when the unit is enabled, and
nowhere else. -/
def FlagsOk (s : FpuSys τ ρ) : Prop := ∀ t, s.fpuEnabled t = true ↔ t = s.cur ∧ s.fpuOn = true

/-- The outgoing thread of a switch has not got the flag. -/
def Unused (s : FpuSys τ ρ) : FpuLabel τ ρ → Prop
  | .dispatch t => t = s.cur ∨ s.fpuEnabled s.cur = false
  | _ => True

end FpuSys

/-- An instruction finds what its thread left, the unit is enabled when registers are stored. -/
def FpuEvent.Ok {τ ρ : Type} (fninit : ρ) : FpuEvent τ ρ → Prop
  | .executed _ regs own => regs = own.getD fninit
  | .saved _ on => on = true

/-- `init_fpu`, in the first thread. -/
def initFpu {τ ρ : Type} (t : τ) (state : ρ) (regs : ρ) (ts : Bool) : FpuSys τ ρ where
  cur := t
  fpuUsed := fun _ => false
  fpuEnabled := fun _ => false
  fpustate := fun _ => state
  em := true
  ts := ts
  regs := regs
  left := fun _ => none
  log := []

namespace FpuSys
variable {τ ρ : Type} [DecidableEq τ] {fninit : ρ} {s s' : FpuSys τ ρ} {t : τ}

/-- Where the values of every thread are, and what has happened. -/
structure Inv (fninit : ρ) (s : FpuSys τ ρ) : Prop where
  used : ∀ t, s.fpuEnabled t = true → s.fpuUsed t = true
  fresh : ∀ t, s.fpuUsed t = false → s.left t = none
  saved : ∀ t, s.fpuUsed t = true → ¬(s.fpuOn = true ∧ t = s.cur) → s.left t = some (s.fpustate t)
  loaded : s.fpuOn = true → s.fpuEnabled s.cur = true ∧ s.left s.cur = some s.regs
  log : ∀ e ∈ s.log, e.Ok fninit

theorem Inv.access (h : s.Inv fninit) :
    (s.access fninit).fpuOn = true ∧ (s.access fninit).cur = s.cur ∧
    (s.access fninit).left = s.left ∧ (s.access fninit).log = s.log ∧
    (s.access fninit).fpustate = s.fpustate ∧
    (s.access fninit).fpuEnabled = update s.fpuEnabled s.cur true ∧
    (s.access fninit).fpuUsed = update s.fpuUsed s.cur true ∧
    (s.access fninit).regs = (s.left s.cur).getD fninit := by
  unfold FpuSys.access
  by_cases hon : s.fpuOn = true
  · obtain ⟨henabled, hleft⟩ := h.loaded hon
    have he : update s.fpuEnabled s.cur true = s.fpuEnabled :=
      update_eq_self_iff.mpr henabled.symm
    have hu : update s.fpuUsed s.cur true = s.fpuUsed :=
      update_eq_self_iff.mpr (h.used _ henabled).symm
    simp [hon, hleft, he, hu]
  · rw [if_neg hon]
    unfold fpuTrapHandler
    by_cases hused : s.fpuUsed s.cur = true
    · have hleft := h.saved s.cur hused fun hx => hon hx.1
      simp [hused, fpuEnable, fpuOn, hleft]
    · have hleft := h.fresh s.cur (by simpa using hused)
      simp [hused, fpuEnable, fpuOn, hleft]

theorem Inv.execute (h : s.Inv fninit) (f : ρ → ρ) : (s.execute fninit f).Inv fninit := by
  obtain ⟨hon, hcur, hleft, hlog, hstate, henabled, hused, hregs⟩ := h.access
  have hon' : (s.execute fninit f).fpuOn = true := hon
  refine ⟨fun t => ?_, fun t => ?_, fun t => ?_, fun _ => ?_, ?_⟩
  · simp only [FpuSys.execute, henabled, hused]
    rcases eq_or_ne t s.cur with rfl | ht
    · simp
    · simpa [ht] using h.used t
  · simp only [FpuSys.execute, hused, hleft, hcur]
    rcases eq_or_ne t s.cur with rfl | ht
    · simp
    · simpa [ht] using h.fresh t
  · rw [hon']
    simp only [FpuSys.execute, hused, hleft, hcur, hstate, true_and]
    intro hu ht
    rw [update_of_ne ht] at hu ⊢
    exact h.saved t hu fun hx => ht hx.2
  · simp [FpuSys.execute, henabled, hcur]
  · simp only [FpuSys.execute, hleft, hlog, hcur, hregs, List.forall_mem_cons]
    exact ⟨rfl, h.log⟩

theorem Inv.fpuDisable (h : s.Inv fninit) (hflag : s.fpuEnabled s.cur = true) :
    (s.fpuDisable fninit).Inv fninit := by
  obtain ⟨hon, hcur, hleft, hlog, hstate, henabled, hused, hregs⟩ := h.access
  have hu := h.used _ hflag
  have hvalue : s.left s.cur = some ((s.left s.cur).getD fninit) := by
    by_cases hs : s.fpuOn = true
    · rw [(h.loaded hs).2, Option.getD_some]
    · rw [h.saved s.cur hu fun hx => hs hx.1, Option.getD_some]
  refine ⟨fun t => ?_, fun t => ?_, fun t ht _ => ?_, fun hoff => ?_, ?_⟩
  · simp only [FpuSys.fpuDisable, fnsave, henabled, hused]
    rcases eq_or_ne t s.cur with rfl | ht
    · simp
    · simpa [ht] using h.used t
  · simp only [FpuSys.fpuDisable, fnsave, hused, hleft]
    rcases eq_or_ne t s.cur with rfl | ht
    · simp
    · simpa [ht] using h.fresh t
  · simp only [FpuSys.fpuDisable, fnsave, hused, hleft, hstate, hcur, hregs] at ht ⊢
    rcases eq_or_ne t s.cur with rfl | hne
    · rwa [update_self]
    · rw [update_of_ne hne] at ht ⊢
      exact h.saved t ht fun hx => hne hx.2
  · simp [FpuSys.fpuDisable, fpuOn] at hoff
  · simp only [FpuSys.fpuDisable, fnsave, hlog, List.forall_mem_cons]
    exact ⟨hon, h.log⟩

omit [DecidableEq τ] in
theorem Inv.switch (h : s.Inv fninit) (hoff : s.fpuOn = false) (t : τ)
    {enabled : τ → Bool} (he : ∀ u, enabled u = true → s.fpuEnabled u = true) :
    ({ s with fpuEnabled := enabled, cur := t } : FpuSys τ ρ).Inv fninit := by
  have hoff' : ({ s with fpuEnabled := enabled, cur := t } : FpuSys τ ρ).fpuOn = false := hoff
  refine ⟨fun u hu => h.used u (he u hu), h.fresh, fun u hu _ => ?_, fun hx => ?_, h.log⟩
  · exact h.saved u hu (by simp [hoff])
  · rw [hoff'] at hx
    exact absurd hx (by decide)

theorem Inv.dispatch (h : s.Inv fninit) (t : τ) : (s.dispatch fninit t).Inv fninit := by
  unfold FpuSys.dispatch
  split_ifs with ht hflag
  · exact h
  · refine (h.fpuDisable hflag).switch (by simp [FpuSys.fpuDisable, fpuOn]) t fun u hu => ?_
    rcases eq_or_ne u t with rfl | hut
    · simp at hu
    · simpa [hut] using hu
  · refine h.switch ?_ t fun _ => id
    by_contra hon
    exact hflag (h.loaded (by simpa using hon)).1

variable [Zero ρ]

theorem Inv.create (h : s.Inv fninit) (ht : t ≠ s.cur) : (s.create t).Inv fninit := by
  have hon : (s.create t).fpuOn = s.fpuOn := rfl
  refine ⟨fun u => ?_, fun u => ?_, fun u => ?_, ?_, h.log⟩
  · rcases eq_or_ne u t with rfl | hu
    · simp [FpuSys.create]
    · simpa [FpuSys.create, hu] using h.used u
  · rcases eq_or_ne u t with rfl | hu
    · simp [FpuSys.create]
    · simpa [FpuSys.create, hu] using h.fresh u
  · rw [hon]
    rcases eq_or_ne u t with rfl | hu
    · simp [FpuSys.create]
    · simpa [FpuSys.create, hu] using h.saved u
  · rw [hon]
    simpa [FpuSys.create, ht.symm] using h.loaded

theorem Inv.step {l : FpuLabel τ ρ} (h : s.Inv fninit) (hl : s.step fninit l = some s') :
    s'.Inv fninit := by
  cases l with
  | execute f =>
    obtain rfl := Option.some.inj hl
    exact h.execute f
  | dispatch t =>
    obtain rfl := Option.some.inj hl
    exact h.dispatch t
  | create t =>
    obtain ⟨ht, hl⟩ := Option.ite_none_left_eq_some.mp hl
    obtain rfl := Option.some.inj hl
    exact h.create ht

omit [DecidableEq τ] [Zero ρ] in
theorem inv_initFpu (t : τ) (state regs : ρ) (ts : Bool) : (initFpu t state regs ts).Inv fninit := by
  constructor <;> simp [initFpu, fpuOn]

omit [Zero ρ] in
theorem Inv.flags_dispatch (h : s.Inv fninit) (hflags : s.FlagsOk) (ht : t ≠ s.cur) :
    (s.dispatch fninit t).FlagsOk ↔ s.fpuEnabled s.cur = false := by
  unfold FpuSys.dispatch
  rw [if_neg ht]
  constructor
  · intro hok
    by_contra hflag
    rw [Bool.not_eq_false] at hflag
    obtain ⟨-, -, -, -, -, henabled, -⟩ := h.access
    simp only [hflag, if_true] at hok
    have hcur := (hok s.cur).mp (by simp [FpuSys.fpuDisable, fnsave, henabled, ht.symm])
    exact ht hcur.1.symm
  · intro hflag u
    have hoff : s.fpuOn = false := by
      by_contra hon
      exact absurd (h.loaded (by simpa using hon)).1 (by simp [hflag])
    have hfpu : ({ s with cur := t } : FpuSys τ ρ).fpuOn = false := hoff
    simp only [hflag, Bool.false_eq_true, if_false, hfpu, and_false, iff_false]
    intro hu
    exact absurd ((hflags u).mp hu).2 (by simp [hoff])

theorem FlagsOk.step {l : FpuLabel τ ρ} (hflags : s.FlagsOk) (h : s.Inv fninit)
    (hok : s.Unused l) (hl : s.step fninit l = some s') : s'.FlagsOk := by
  cases l with
  | execute f =>
    obtain rfl := Option.some.inj hl
    obtain ⟨hon, hcur, -, -, -, henabled, -⟩ := h.access
    have hon' : (s.execute fninit f).fpuOn = true := hon
    intro t
    rw [hon']
    simp only [FpuSys.execute, henabled, hcur, and_true]
    rcases eq_or_ne t s.cur with rfl | ht
    · simp
    · simp only [update_of_ne ht, ht, iff_false]
      exact fun hx => ht ((hflags t).mp hx).1
  | dispatch t =>
    obtain rfl := Option.some.inj hl
    rcases eq_or_ne t s.cur with ht | ht
    · rwa [FpuSys.dispatch, if_pos ht]
    · exact (h.flags_dispatch hflags ht).mpr (hok.resolve_left ht)
  | create t =>
    obtain ⟨ht, hl⟩ := Option.ite_none_left_eq_some.mp hl
    obtain rfl := Option.some.inj hl
    intro u
    rcases eq_or_ne u t with rfl | hut
    · simp [FpuSys.create, ht]
    · simp only [FpuSys.create, update_of_ne hut]
      exact hflags u

/-- In every run a thread finds its own values in the registers, and they are stored only while
the unit is enabled. The flag is right until the first switch away from a thread that has it. -/
theorem fpu_separates_threads {t : τ} {state regs : ρ} {ts : Bool}
    (h : Reach (step fninit) (fun _ _ => True) (initFpu t state regs ts) s) :
    (∀ e ∈ s.log, e.Ok fninit) ∧
    (Reach (step fninit) Unused (initFpu t state regs ts) s → s.FlagsOk ∧
      ∀ u, u ≠ s.cur → ∃ s', s.step fninit (.dispatch u) = some s' ∧
        (s'.FlagsOk ↔ s.fpuEnabled s.cur = false)) := by
  have hinv : s.Inv fninit := h.invariant (inv_initFpu t state regs ts)
    fun _ _ _ ha _ hl => ha.step hl
  refine ⟨hinv.log, fun hrun => ?_⟩
  have hflags : s.Inv fninit ∧ s.FlagsOk := by
    refine hrun.invariant (P := fun s => s.Inv fninit ∧ s.FlagsOk)
      ⟨inv_initFpu t state regs ts, by simp [FlagsOk, initFpu, fpuOn]⟩ fun a l b ha hok hl => ?_
    exact ⟨ha.1.step hl, ha.2.step ha.1 hok hl⟩
  exact ⟨hflags.2, fun u hu => ⟨_, rfl, hflags.1.flags_dispatch hflags.2 hu⟩⟩

/-- Thread 0 adds one to its registers. -/
theorem fpu_separates_threads_once : ((initFpu 0 0 7 true).execute 3 (· + 1) : FpuSys (Fin 2) ℕ).regs = 4 ∧
    ((initFpu 0 0 7 true).execute 3 (· + 1) : FpuSys (Fin 2) ℕ).FlagsOk := by
  have hl : step 3 (initFpu (0 : Fin 2) 0 7 true) (.execute (· + 1)) =
      some ((initFpu 0 0 7 true).execute 3 (· + 1)) := rfl
  have hok : Unused (initFpu (0 : Fin 2) 0 7 true) (.execute (· + 1)) := trivial
  exact ⟨rfl, ((fpu_separates_threads (Reach.single trivial hl)).2 (Reach.single hok hl)).1⟩

/-- Thread 0 uses the unit and is switched away from; its flag stays set. -/
theorem flag_stays_set : ∃ s : FpuSys (Fin 2) ℕ,
    run (step 0) (initFpu 0 0 0 false) [.execute (· + 1), .dispatch 1] = some s ∧
      s.cur = 1 ∧ s.fpuEnabled 0 = true ∧ s.fpuOn = false ∧ ¬s.FlagsOk := by
  refine ⟨_, rfl, rfl, rfl, rfl, fun h => ?_⟩
  exact absurd ((h 0).mp rfl).1 (by decide)

end FpuSys

end SimpleKernel.Sched
