import SimpleKernel.Syscall.Contract
import SimpleKernel.Syscall.Creation

/-! System calls balance object references. -/
namespace SimpleKernel.Syscall
open Mem Handle Traced

variable {ω : Type} [DecidableEq ω] {w : World ω} {k : Kernel ω} {c : Entry} {params : UInt32}

theorem made_hassign (o : ω) (h : ℤ) : Keeps Kernel.made (hassign w o h) := by
  intro k
  unfold Traced.after hassign
  split
  · rfl
  · split
    · unfold closing
      split <;> rfl
    · rfl
  · rfl

theorem made_hfree (h : ℤ) : Keeps Kernel.made (hfree w h) := by
  intro k
  unfold Traced.after hfree
  split
  · unfold closing
    split <;> rfl
  · rfl

theorem made_withObject (h : UInt32) (type : ℤ) {body : ω → M ω ℤ}
    (hb : ∀ o, Keeps Kernel.made (body o)) : Keeps Kernel.made (withObject h type body) := by
  refine Keeps.bind (fun _ => rfl) fun found => ?_
  cases found with
  | none => exact keeps_pure
  | some o => exact (hb o).bind fun rc => Keeps.bind (fun _ => rfl) fun _ => keeps_pure

theorem made_olockAll (h : UInt32) (n m : ℕ) (os : List ω) :
    Keeps Kernel.made (olockAll h n m os) := by
  induction m generalizing n os with
  | zero => exact keeps_pure
  | succ m ih =>
    refine Keeps.bind (fun _ => rfl) fun hn => Keeps.bind (fun _ => rfl) fun found => ?_
    cases found with
    | none => exact Keeps.bind (fun k => (still_orelAll os k).2) fun _ => keeps_pure
    | some o => exact ih _ _

theorem made_sysWait {f : KernelFn} (hf : f.creates = false) (a : ℕ → UInt32) :
    Keeps Kernel.made ((sysWait w f).body a) := by
  unfold sysWait
  dsimp only
  split
  · exact keeps_pure
  split
  · exact keeps_pure
  refine Keeps.bind (fun k => (lockAll_after _ k).2.1) fun ok => ?_
  split
  · refine (made_olockAll _ _ _ _).bind fun found => ?_
    cases found with
    | none => exact keeps_pure
    | some os =>
      have hcall : Keeps Kernel.made
          (call w (if asInt (a 1) = 1 then .waitForOneObject else f) os [a 2]) := by
        split
        · exact fun k => (still_call rfl _ _ k).2
        · exact fun k => (still_call hf _ _ k).2
      exact hcall.bind fun rc => Keeps.bind (fun k => (still_orelAll os k).2) fun _ => keeps_pure
  · exact keeps_pure

theorem framed_made : Framed w Kernel.made where
  call _ objs l hf k := (still_call hf objs l k).2
  lockAll ls k := (lockAll_after ls k).2.1
  load _ _ := rfl
  store _ _ _ := rfl
  typeOf _ _ := rfl
  errnum _ := rfl
  object h type _ := made_withObject h type
  wait _ a hf := made_sysWait hf a
  halloc := made_halloc
  hassign := made_hassign
  hfree := made_hfree

theorem made_body (hc : c.creator = false) (a : ℕ → UInt32) :
    Keeps Kernel.made ((c.handler w).body a) := by
  by_cases hs : c.special = false
  · exact framed_made.body hs hc a
  cases c with
  | suspend =>
    refine Keeps.bind (fun _ => rfl) fun found => ?_
    cases found with
    | none => exact keeps_pure
    | some t =>
      dsimp only
      split
      · exact keeps_pure
      · exact Keeps.bind (fun k => (still_call rfl _ _ k).2) fun rc =>
          Keeps.bind (fun _ => rfl) fun _ => keeps_pure
  | select => exact framed_made.guarded _ fun k => (still_select _ _ _ _ k).2
  | poll => exact framed_made.guarded _ fun k => (still_poll _ _ _ k).2
  | _ => exact absurd rfl hs

/-- The number of handles that a call gives to what it creates or needs for it. -/
def Entry.handles : Entry → ℕ
  | .pipe | .mkthread | .vmmap => 2
  | _ => 1

/-- Which handles refer to an object that the call has created. -/
def Delivers (w : World ω) (c : Entry) (fildes : UInt32) : ℤ → Kernel ω → ω → Prop :=
  match c with
  | .pipe => PipeHandles w fildes
  | .mkthread => TwoHandles
  | .vmmap => OwnHandle
  | _ => OneHandle

theorem hands_body (hw : w.Tame) (c : Entry) (a : ℕ → UInt32) (k : Kernel ω) :
    Hands w c.handles (Delivers w c (a 0)) ((c.handler w).body a) k := by
  by_cases hc : c.creator = false
  · intro hr hf x hx hnot
    rw [made_body hc a k] at hx
    exact absurd hx hnot
  cases c with
  | «open» | opendir => exact hands_guarded _ (hands_open hw rfl (fun _ => rfl) _ _) k
  | socket => exact hands_open hw rfl (fun _ => rfl) _ _ k
  | accept =>
    exact hands_withObject steady_oneHandle _ _
      (fun s k _ => hands_guarded _ (hands_open hw rfl (fun _ => rfl) _ _) k) k
  | mkevent | mksem | mkmutex | mkiomux => exact hands_sysMake hw rfl rfl _ a k
  | mkthread => exact hands_sysMkthread hw a k
  | pipe => exact hands_sysPipe hw a k
  | vmmap => exact hands_sysVmmap hw a k
  | _ => exact absurd rfl hc

theorem hands_dispatchCall (hw : w.Tame) (c : Entry) (params : UInt32) (k : Kernel ω) :
    Hands w c.handles (Delivers w c (k.mem params)) (dispatchCall w c params) k := by
  intro hr hf x
  rw [dispatchCall, after_bind, value_bind]
  split
  swap
  · exact fun hx hnot => absurd hx hnot
  rw [after_bind, value_bind, args_after]
  intro hx hnot
  have hbody := hands_body hw c ((args params (c.handler w).words).value
    ((lockBuffer w params c.paramsize false).after k))
    ((lockBuffer w params c.paramsize false).after k) hr hf x hx hnot
  by_cases hc : c = .pipe
  · have hwords : 0 < (c.handler w).words := by
      subst hc
      exact Nat.one_pos
    have hzero : params + 4 * UInt32.ofNat 0 = params := UInt32.add_zero params
    rwa [args_value hwords, hzero] at hbody
  · have hsame (u v : UInt32) : Delivers w c u = Delivers w c v := by
      cases c <;> first | rfl | exact absurd rfl hc
    rwa [hsame _ (k.mem params)] at hbody

/-- The code that `syscall` returns. -/
def returned (rc : ℤ) : ℤ := if rc < 0 then -1 else rc

theorem syscall_eq (w : World ω) (k : Kernel ω) (params : UInt32) {syscallno : ℤ}
    (hno : entryOf syscallno = some c) :
    (syscall w syscallno params).value k = returned ((dispatchCall w c params).value k) ∧
      (syscall w syscallno params).after k = (dispatchCall w c params).after k := by
  unfold entryOf at hno
  unfold syscall returned
  split at hno
  · simp at hno
  next hrange =>
  rw [if_neg hrange, hno]
  rw [value_bind, after_bind]
  split <;> exact ⟨rfl, rfl⟩

omit [DecidableEq ω] in
/-- An object that was delivered with the code of the handler was delivered with the code that is
returned. -/
theorem delivers_returned [DecidableEq ω] {fildes : UInt32} {rc : ℤ} {x : ω}
    (h : Delivers w c fildes rc k x) : Delivers w c fildes (returned rc) k x := by
  have hreturned (n : ℕ) : returned n = n := by
    rw [returned, if_neg (by omega)]
  have hone (h : OneHandle rc k x) : OneHandle (returned rc) k x := by
    obtain ⟨n, rfl, hn⟩ := h
    exact ⟨n, hreturned n, hn⟩
  cases c with
  | pipe | vmmap => exact h
  | mkthread =>
    obtain ⟨own, n, rfl, hn⟩ := h
    exact ⟨own, n, hreturned n, hn⟩
  | _ => exact hone h

/-- Two objects may be created; memory is found, and everything else succeeds. -/
def smallWorld : World Bool where
  fetchPage := fetchNothing
  strAccess := fun pt _ _ => (pt, true)
  result := fun f _ _ => if f = .kmalloc then 1 else 0
  effect := fun _ _ _ k => k
  created := true
  peer := false
  closeResult := fun _ => 0
  threadId := fun _ => 1
  threadTib := fun _ => 0
  tib := 0
  events := fun _ _ => 0
  clocks := 0
  systemclock := (0, 0)

def smallKernel : Kernel Bool where
  pt := granting
  mem := fun _ => 0
  handles := initial fun _ => 0
  fault := false
  made := []

theorem tame_smallWorld : smallWorld.Tame := ⟨fun _ _ _ _ => rfl, fun _ _ _ _ _ => rfl,
  fun _ _ _ _ _ => rfl⟩

theorem fresh_smallKernel : Fresh smallWorld smallKernel.handles :=
  ⟨fun _ h => absurd h.1 (Nat.not_lt_zero _), fun _ h => absurd h.1 (Nat.not_lt_zero _), by decide⟩

theorem room_smallKernel (n : ℕ) : Room smallKernel.handles n :=
  ⟨⟨[], ⟨rfl, List.nodup_nil, fun h => by simp [smallKernel, initial]⟩,
    Or.inr (by decide)⟩, Nat.zero_le _, Nat.dvd_zero _⟩

end SimpleKernel.Syscall
