import SimpleKernel.Syscall.Accesses

/-! Exactly when a system call touches only memory that it has checked. -/
namespace SimpleKernel.Syscall
open Mem Handle Traced

variable {ω : Type} {w : World ω} {known : List Event} {addr p size params : UInt32}
  {write modify : Bool} {k : Kernel ω} {a : ℕ → UInt32}

section Null

theorem guarded_null (size : UInt32) (modify : Bool) (body : M ω ℤ) (k : Kernel ω) :
    (guarded w [.buffer 0 size modify] body).log k = body.log k := by
  rfl

theorem guarded_iovec_log (iov count : UInt32) (modify : Bool) (body : M ω ℤ) (k : Kernel ω) :
    (guarded w [.iovec iov count modify] body).log k =
      if (lockIovec w iov count modify).value k < 0 then []
      else body.log ((lockIovec w iov count modify).after k) := by
  rw [guarded, log_bind, lockAll]
  change (lockIovec w iov count modify).log k ++ Traced.log (if (lockIovec w iov count modify).value k < 0
    then _ else _) _ ++ _ = _
  rw [silent_lockIovec]
  by_cases hrc : (lockIovec w iov count modify).value k < 0
  · simp [Lock.code, hrc]
  · simp [Lock.code, hrc, lockAll]

theorem lockIovec_value_congr {k k' : Kernel ω} (iov count : UInt32) (modify : Bool)
    (hmem : k.mem = k'.mem) (hpt : k.pt = k'.pt) :
    (lockIovec w iov count modify).value k = (lockIovec w iov count modify).value k' := by
  unfold Traced.value lockIovec check
  rw [hmem, hpt]

end Null

variable [DecidableEq ω] {c : Entry}

theorem withObject_log (h : UInt32) (type : ℤ) (body : ω → M ω ℤ) (k : Kernel ω) :
    (withObject h type body).log k =
      match (k.handles.olock (asInt h) type).2 with
      | none => []
      | some o => (body o).log ((olock h type).after k) := by
  rw [withObject, log_bind, silent_olock h type k, List.nil_append]
  change Traced.log (match (k.handles.olock (asInt h) type).2 with
    | none => _
    | some o => _) _ = _
  cases (k.handles.olock (asInt h) type).2 with
  | none => rfl
  | some o =>
    change (body o).log _ ++ ([] ++ []) = _
    rw [List.append_nil, List.append_nil]

/-- What a message at address 0 needs: the words 8 to 15 lie in the parameter block, and the I/O
vector that they describe is rejected. -/
def MessageRejected (w : World ω) (k : Kernel ω) (params : UInt32) (modify : Bool) : Prop :=
  4 ≤ params ∧ params ≤ 8 ∧
    (lockIovec w (k.mem 8) (k.mem 12) modify).value ((lockBuffer w params 12 false).after k) < 0

/-- The message is not null, or its socket is not found, or it is rejected before it is read
further. -/
def MessageChecked (w : World ω) (k : Kernel ω) (params : UInt32) (modify : Bool) : Prop :=
  k.mem (params + 4) ≠ 0 ∨ (k.handles.olock (asInt (k.mem params)) objectSocket).2 = none ∨
    MessageRejected w k params modify

/-- The parameter block is rejected; or it is not null when it is needed, its `paramsize` is large
enough and no pointer that may be null is followed. -/
def Checked (w : World ω) (k : Kernel ω) (c : Entry) (params : UInt32) : Prop :=
  (lockBuffer w params c.paramsize false).value k < 0 ∨ (c.handler w).words = 0 ∨
    params ≠ 0 ∧ c.short = false ∧
      (c = .pipe → k.mem params = 0 → w.result .pipe [] [] ≠ 0) ∧
      (c = .recvmsg → MessageChecked w k params true) ∧
      (c = .sendmsg → MessageChecked w k params false)

section Follows

theorem admitted_sysPipe_null (h : a 0 = 0) :
    Admitted Admits [.accepted params size false] (((sysPipe w).body a).log k) ↔
      w.result .pipe [] [] ≠ 0 := by
  unfold sysPipe
  dsimp only
  rw [h, guarded_null]
  change Admitted Admits _ (Traced.log (if w.result .pipe [] [] = 0 then _ else _) _) ↔ _
  constructor
  · intro hadm hrc
    rw [if_pos hrc, log_bind, silent_halloc] at hadm
    have hstore := hadm.1
    rw [Admits, covered_singleton] at hstore
    exact absurd (hstore.2 rfl) (by decide)
  · intro hrc
    rw [if_neg hrc]
    exact trivial

theorem covered_block {off : UInt32} (hoff : off.toNat ≤ 12) :
    Covered [.accepted params 12 false] off false ↔
      params.toNat ≤ off.toNat ∧ off.toNat ≤ params.toNat + 8 ∨
        off.toNat + (2 ^ 32 - params.toNat) ≤ 8 := by
  rw [covered_singleton, UInt32.toNat_sub]
  change _ + 4 ≤ 12 ∧ _ ↔ _
  simp only [Bool.false_eq_true, false_implies, and_true]
  omega

theorem admitted_sysMsg_null (f : KernelFn) (h : a 1 = 0) :
    Admitted Admits [.accepted params 12 false] (((sysMsg w f modify).body a).log k) ↔
      (k.handles.olock (asInt (a 0)) objectSocket).2 = none ∨
      4 ≤ params ∧ params ≤ 8 ∧ (lockIovec w (k.mem 8) (k.mem 12) modify).value k < 0 := by
  unfold sysMsg
  rw [withObject_log]
  cases hs : (k.handles.olock (asInt (a 0)) objectSocket).2 with
  | none => exact ⟨fun _ => Or.inl rfl, fun _ => trivial⟩
  | some s =>
    dsimp only
    rw [h, guarded_null, log_bind, log_bind, guarded_iovec_log]
    have hvalue : (lockIovec w (k.mem 8) (k.mem 12) modify).value ((olock (a 0) objectSocket).after k)
        = (lockIovec w (k.mem 8) (k.mem 12) modify).value k :=
      lockIovec_value_congr _ _ _ rfl rfl
    change Covered _ 8 false ∧ Covered _ 12 false ∧ Admitted Admits _ (if (lockIovec w (k.mem 8)
      (k.mem 12) modify).value ((olock (a 0) objectSocket).after k) < 0 then _ else _) ↔ _
    rw [hvalue, covered_access, covered_block (by decide), covered_block (by decide)]
    change (_ ≤ 8 ∧ 8 ≤ _ ∨ 8 + _ ≤ 8) ∧ (_ ≤ 12 ∧ 12 ≤ _ ∨ 12 + _ ≤ 8) ∧ _ ↔ _
    change _ ↔ some s = none ∨ 4 ≤ params.toNat ∧ params.toNat ≤ 8 ∧ _
    constructor
    · rintro ⟨h8, h12, hrest⟩
      refine Or.inr ⟨by omega, by omega, ?_⟩
      by_contra hrc
      rw [if_neg hrc] at hrest
      have h0 : Covered [.accepted params 12 false] 0 false := by
        have hcov := hrest.1
        rwa [Admits, covered_access, covered_access] at hcov
      rw [covered_block (by decide)] at h0
      change _ ≤ 0 ∧ _ ∨ 0 + _ ≤ 8 at h0
      omega
    · rintro (hnone | ⟨hlo, hhi, hrc⟩)
      · exact absurd hnone (by simp)
      · rw [if_pos hrc]
        exact ⟨Or.inl ⟨hhi, by omega⟩, Or.inl ⟨by omega, by omega⟩, trivial⟩

end Follows

theorem plain_of_no_words (h : (c.handler w).words = 0) : c.short = false ∧ c.follows = false := by
  cases c <;> first | exact ⟨rfl, rfl⟩ | exact absurd h (Nat.succ_ne_zero _)

theorem covered_params_iff (hpos : 0 < (c.handler w).words) (hp : params ≠ 0) :
    (∀ i, i < (c.handler w).words →
      Covered (blockKnown c params) (params + 4 * UInt32.ofNat i) false) ↔ c.short = false := by
  rw [blockKnown, if_neg hp]
  refine ⟨fun hall => ?_, covered_params⟩
  have hle := words_le (w := w) c
  have hlast := hall ((c.handler w).words - 1) (by omega)
  rw [covered_singleton, UInt32.add_comm, UInt32.add_sub_cancel, UInt32.toNat_mul,
    Mem.toNat_ofNat (by omega)] at hlast
  have hfits := hlast.1
  change 4 * ((c.handler w).words - 1) % 2 ^ 32 + 4 ≤ _ at hfits
  exact (fits_iff (w := w) c).mp (by omega)

theorem admitted_sysMsg (f : KernelFn) :
    Admitted Admits [.accepted params 12 false] (((sysMsg w f modify).body
      ((args params 3).value ((lockBuffer w params 12 false).after k))).log
        ((lockBuffer w params 12 false).after k)) ↔ MessageChecked w k params modify := by
  have h0 : (args params 3).value ((lockBuffer w params 12 false).after k) 0 = k.mem params := by
    exact congrArg k.mem (UInt32.add_zero params)
  have h1 : (args params 3).value ((lockBuffer w params 12 false).after k) 1 =
      k.mem (params + 4) := by
    rfl
  rw [MessageChecked, ← h0]
  by_cases hmsg : (args params 3).value ((lockBuffer w params 12 false).after k) 1 = 0
  · rw [admitted_sysMsg_null f hmsg]
    exact ⟨fun h => Or.inr h, fun h => h.resolve_left fun hne => hne hmsg⟩
  · exact ⟨fun _ => Or.inl hmsg, fun _ => safe_sysMsg f hmsg _⟩

theorem admitted_sysPipe :
    Admitted Admits [.accepted params size false] (((sysPipe w).body
      ((args params 1).value ((lockBuffer w params size false).after k))).log
        ((lockBuffer w params size false).after k)) ↔
      (k.mem params = 0 → w.result .pipe [] [] ≠ 0) := by
  have h0 : (args params 1).value ((lockBuffer w params size false).after k) 0 = k.mem params := by
    exact congrArg k.mem (UInt32.add_zero params)
  rw [← h0]
  by_cases hnull : (args params 1).value ((lockBuffer w params size false).after k) 0 = 0
  · rw [admitted_sysPipe_null hnull]
    exact ⟨fun h _ => h, fun h => h hnull⟩
  · exact ⟨fun _ h => absurd h hnull, fun _ => safe_sysPipe hnull _⟩

theorem admitted_body (hp : params ≠ 0) (hs : c.short = false) :
    Admitted Admits (blockKnown c params) (((c.handler w).body
        ((args params (c.handler w).words).value
          ((lockBuffer w params c.paramsize false).after k))).log
        ((lockBuffer w params c.paramsize false).after k)) ↔
      (c = .pipe → k.mem params = 0 → w.result .pipe [] [] ≠ 0) ∧
      (c = .recvmsg → MessageChecked w k params true) ∧
      (c = .sendmsg → MessageChecked w k params false) := by
  rw [blockKnown, if_neg hp]
  by_cases hf : c.follows = false
  · refine ⟨fun _ => ?_, fun _ => safe_body hs hf _ _⟩
    refine ⟨?_, ?_, ?_⟩ <;> rintro rfl <;> exact absurd hf (by decide)
  · cases c with
    | pipe =>
      have hh : Entry.pipe.handler w = sysPipe w := rfl
      have hsize : Entry.pipe.paramsize = 4 := rfl
      have hwords : (sysPipe w).words = 1 := rfl
      rw [hh, hwords, admitted_sysPipe]
      simp
    | recvmsg =>
      have hh : Entry.recvmsg.handler w = sysMsg w .recvmsg true := rfl
      have hsize : Entry.recvmsg.paramsize = 12 := rfl
      have hwords : (sysMsg w .recvmsg true).words = 3 := rfl
      rw [hh, hsize, hwords, admitted_sysMsg _]
      simp
    | sendmsg =>
      have hh : Entry.sendmsg.handler w = sysMsg w .sendmsg false := rfl
      have hsize : Entry.sendmsg.paramsize = 12 := rfl
      have hwords : (sysMsg w .sendmsg false).words = 3 := rfl
      rw [hh, hsize, hwords, admitted_sysMsg _]
      simp
    | _ => exact absurd rfl hf

theorem admitted_dispatchCall (w : World ω) (k : Kernel ω) (c : Entry) (params : UInt32) :
    Admitted Admits [] ((dispatchCall w c params).log k) ↔ Checked w k c params := by
  by_cases hrc : (lockBuffer w params c.paramsize false).value k < 0
  · exact ⟨fun _ => Or.inl hrc, fun _ => dispatchCall_rejected hrc⟩
  rw [dispatchCall_accepted (Int.not_lt.mp hrc)]
  by_cases hwords : (c.handler w).words = 0
  · obtain ⟨hs, hf⟩ := plain_of_no_words hwords
    exact ⟨fun _ => Or.inr (Or.inl hwords), fun _ => ⟨by omega, safe_body hs hf _ _⟩⟩
  by_cases hp : params = 0
  · constructor
    · rintro ⟨hall, -⟩
      have hfirst := hall 0 (by omega)
      rw [blockKnown, if_pos hp] at hfirst
      exact absurd hfirst not_covered_nil
    · rintro (h | h | h)
      · exact absurd h hrc
      · exact absurd h hwords
      · exact absurd hp h.1
  · rw [covered_params_iff (by omega) hp]
    constructor
    · rintro ⟨hs, hbody⟩
      exact Or.inr (Or.inr ⟨hp, hs, (admitted_body hp hs).mp hbody⟩)
    · rintro (h | h | ⟨-, hs, hrest⟩)
      · exact absurd h hrc
      · exact absurd h hwords
      · exact ⟨hs, (admitted_body hp hs).mpr hrest⟩

/-- The entry that `syscall` selects. -/
def entryOf (syscallno : ℤ) : Option Entry :=
  if syscallno < 0 ∨ syscallMax < syscallno then none else syscalls[syscallno.toNat]?

/-- A kernel in which every page is accessible to the user and no handle is in use. -/
def quietKernel : Kernel Unit where
  pt := granting
  mem := fun _ => 0
  handles := initial fun _ => 0
  fault := false
  made := []

/-- Kernel functions that succeed and change nothing, called by a thread without a block. -/
def quietWorld : World Unit where
  fetchPage := fetchNothing
  strAccess := fun pt _ _ => (pt, true)
  result := fun _ _ _ => 0
  effect := fun _ _ _ k => k
  created := ()
  peer := ()
  closeResult := fun _ => 0
  threadId := fun _ => 1
  threadTib := fun _ => 0
  tib := 0
  events := fun _ _ => 0
  clocks := 0
  systemclock := (0, 0)

end SimpleKernel.Syscall
