import SimpleKernel.Select.Model
import Mathlib.Data.List.TakeWhile

/-! What one pass over the descriptors does. -/
namespace SimpleKernel.Select
open Handle Traced

variable {ω τ : Type} [DecidableEq ω] {k : Kernel ω τ} {fd : ℤ} {o : ω}

/-- The object of a descriptor. -/
def Kernel.find (k : Kernel ω τ) (fd : ℤ) : Option ω := (k.handles.olock fd objectAny).2

/-- The descriptor is that of an I/O object. -/
def Kernel.valid (k : Kernel ω τ) (fd : ℤ) : Bool := (k.find fd).any k.isIoObject

/-- One of the events is signaled for the object of the descriptor. -/
def Kernel.ready (k : Kernel ω τ) (eventmask : ℕ) (fd : ℤ) : Bool :=
  (k.find fd).any fun o => decide ((k.io o).signaled &&& eventmask ≠ 0)

/-- The object has one lock more. -/
def Kernel.locked (k : Kernel ω τ) (o : ω) : Kernel ω τ :=
  { k with
    handles := { k.handles.setObj o { k.handles.obj o with lockCount := (k.handles.obj o).lockCount + 1 } with
      locked := Function.update k.handles.locked o (k.handles.locked o + 1) } }

/-- The objects are locked and released one after another. -/
def pairs (os : List ω) : List (Event ω τ) := os.flatMap fun o => [.olock o, .orel (some o)]

section Steps

theorem find_cases (k : Kernel ω τ) (fd : ℤ) :
    (k.find fd = none ∧ olock fd k = (none, k, [])) ∨
      ∃ o, k.find fd = some o ∧ (k.handles.obj o).handleCount ≠ 0 ∧
        olock fd k = (some o, k.locked o, [.olock o]) := by
  unfold Kernel.find olock State.olock
  cases hl : k.handles.hlookup fd with
  | none => exact .inl ⟨rfl, rfl⟩
  | some q =>
    obtain ⟨o, prot⟩ := q
    dsimp only
    split
    · exact .inl ⟨rfl, rfl⟩
    split
    · exact .inl ⟨rfl, rfl⟩
    · next hc => exact .inr ⟨o, rfl, hc, rfl⟩

theorem olock_none (h : k.find fd = none) : olock fd k = (none, k, []) := by
  obtain ⟨-, hrun⟩ | ⟨o, hfind, -⟩ := find_cases k fd
  · exact hrun
  · rw [h] at hfind
    cases hfind

theorem olock_some (h : k.find fd = some o) : olock fd k = (some o, k.locked o, [.olock o]) := by
  obtain ⟨hfind, -⟩ | ⟨o', hfind, -, hrun⟩ := find_cases k fd
  · rw [h] at hfind
    cases hfind
  · rw [h] at hfind
    obtain rfl := Option.some.inj hfind
    exact hrun

theorem handleCount_of_find (h : k.find fd = some o) : (k.handles.obj o).handleCount ≠ 0 := by
  obtain ⟨hfind, -⟩ | ⟨o', hfind, hc, -⟩ := find_cases k fd
  · rw [h] at hfind
    cases hfind
  · rw [h] at hfind
    obtain rfl := Option.some.inj hfind
    exact hc

@[simp] theorem isIoObject_locked (x : ω) : (k.locked o).isIoObject x = k.isIoObject x := by
  unfold Kernel.isIoObject Kernel.locked State.setObj
  by_cases hx : x = o
  · subst hx
    simp
  · simp [hx]

@[simp] theorem io_locked : (k.locked o).io = k.io := rfl

theorem orel_locked (h : k.find fd = some o) : orel (some o) (k.locked o) = ((), k, [.orel (some o)]) := by
  have hc := handleCount_of_find h
  have hhandles : (k.locked o).handles.orel o = k.handles := by
    simp [State.orel, Kernel.locked, State.setObj, hc]
  have hkernel : ({ k.locked o with handles := (k.locked o).handles.orel o } : Kernel ω τ) = k := by rw [hhandles]; rfl
  rw [orel, hkernel]

theorem lockCount_locked : ((k.locked o).handles.obj o).lockCount = (k.handles.obj o).lockCount + 1 := by
  simp [Kernel.locked, State.setObj]

end Steps

section CheckFds

/-- The ready ones among the descriptors before the first one that is not valid. -/
def Kernel.hits (k : Kernel ω τ) (eventmask : ℕ) (fds : List ℤ) : List ℤ :=
  (fds.takeWhile k.valid).filter (k.ready eventmask)

theorem hits_cons (eventmask : ℕ) (fd : ℤ) (fds : List ℤ) :
    k.hits eventmask (fd :: fds) =
      if k.valid fd then if k.ready eventmask fd then fd :: k.hits eventmask fds else k.hits eventmask fds else [] := by
  unfold Kernel.hits
  cases hvalid : k.valid fd <;> simp [hvalid, List.filter_cons]

theorem checkFdsLoop_succ (eventmask left n found : ℕ) (fds : List ℤ) (hn : n < fds.length) :
    checkFdsLoop eventmask (left + 1) n found fds k =
      if k.valid fds[n] then
        let r := if k.ready eventmask fds[n] then checkFdsLoop eventmask left (n + 1) (found + 1) (fds.set found fds[n]) k
          else checkFdsLoop eventmask left (n + 1) found fds k
        (r.1, r.2.1, pairs (k.find fds[n]).toList ++ r.2.2)
      else ((-EBADF, fds), k, pairs (k.find fds[n]).toList) := by
  have hfd : fds.getD n 0 = fds[n] := by simp [hn]
  rw [checkFdsLoop, hfd]
  cases hfind : k.find fds[n] with
  | none =>
    have hvalid : k.valid fds[n] = false := by simp [Kernel.valid, hfind]
    rw [bind_eq (olock_none hfind), hvalid]
    rfl
  | some o =>
    have hvalid : k.valid fds[n] = k.isIoObject o := by simp [Kernel.valid, hfind]
    have hready : k.ready eventmask fds[n] = decide ((k.io o).signaled &&& eventmask ≠ 0) := by
      simp [Kernel.ready, hfind]
    have hrel := orel_locked hfind
    rw [bind_eq (olock_some hfind), hvalid, hready]
    have hio : isIoObject o (k.locked o) = (k.isIoObject o, k.locked o, []) := by
      rw [isIoObject, isIoObject_locked]
    dsimp only
    rw [bind_eq hio]
    cases hcase : k.isIoObject o with
    | false =>
      simp only [Bool.false_eq_true, if_false]
      rw [bind_eq hrel]
      rfl
    | true =>
      simp only [if_true]
      have hsignaled : eventsSignaled o (k.locked o) = ((k.io o).signaled, k.locked o, []) := rfl
      rw [bind_eq hsignaled, bind_eq hrel]
      by_cases hhit : (k.io o).signaled &&& eventmask ≠ 0
      · simp [hhit, pairs]
      · simp [hhit, pairs]

theorem checkFdsLoop_run (eventmask left n found : ℕ) (fds : List ℤ) (hlen : fds.length = n + left) (hle : found ≤ n) :
    ∃ os, checkFdsLoop eventmask left n found fds k =
      ((if (fds.drop n).all k.valid then ((found + (k.hits eventmask (fds.drop n)).length : ℕ) : ℤ) else -EBADF,
        fds.take found ++ k.hits eventmask (fds.drop n) ++
          fds.drop (found + (k.hits eventmask (fds.drop n)).length)), k, pairs os) := by
  induction left generalizing n found fds with
  | zero =>
    have hnil : fds.drop n = [] := List.drop_eq_nil_of_le (by omega)
    refine ⟨[], ?_⟩
    rw [hnil]
    simp [checkFdsLoop, Kernel.hits, pairs]
  | succ left ih =>
    have hn : n < fds.length := by omega
    have hdrop : fds.drop n = fds[n] :: fds.drop (n + 1) := List.drop_eq_getElem_cons hn
    rw [checkFdsLoop_succ eventmask left n found fds hn, hdrop, hits_cons, List.all_cons]
    cases hvalid : k.valid fds[n] with
    | false => exact ⟨(k.find fds[n]).toList, by simp⟩
    | true =>
      cases hready : k.ready eventmask fds[n] with
      | false =>
        obtain ⟨os, hrun⟩ := ih (n + 1) found fds (by omega) (by omega)
        refine ⟨(k.find fds[n]).toList ++ os, ?_⟩
        simp only [if_true, Bool.false_eq_true, if_false, hrun, Bool.true_and, pairs, List.flatMap_append]
      | true =>
        have hset : found < (fds.set found fds[n]).length := by
          rw [List.length_set]
          omega
        obtain ⟨os, hrun⟩ := ih (n + 1) (found + 1) (fds.set found fds[n]) (by rw [List.length_set]; omega) (by omega)
        refine ⟨(k.find fds[n]).toList ++ os, ?_⟩
        have htail : (fds.set found fds[n]).drop (n + 1) = fds.drop (n + 1) := List.drop_set_of_lt (by omega)
        have htake : (fds.set found fds[n]).take (found + 1) = fds.take found ++ [fds[n]] := by
          rw [List.take_add_one, List.take_set_of_le le_rfl, List.getElem?_eq_getElem hset, List.getElem_set_self]
          rfl
        have hback (m : ℕ) : (fds.set found fds[n]).drop (found + 1 + m) = fds.drop (found + (m + 1)) := by
          rw [List.drop_set_of_lt (by omega), Nat.add_assoc, Nat.add_comm 1]
        rw [htail, htake, hback] at hrun
        simp only [if_true, hrun, Bool.true_and, pairs, List.flatMap_append, List.length_cons, List.append_assoc,
          List.cons_append, List.nil_append, Nat.add_assoc, Nat.add_comm 1]

/-- What `check_fds` returns, and what it leaves of the set. -/
def Kernel.scan (k : Kernel ω τ) (eventmask : ℕ) (fds : Option (List ℤ)) : ℤ × Option (List ℤ) :=
  (if (fds.getD []).all k.valid then ((k.hits eventmask (fds.getD [])).length : ℤ) else -EBADF,
    fds.map fun fds => k.hits eventmask fds ++ fds.drop (k.hits eventmask fds).length)

theorem checkFds_run (eventmask : ℕ) (fds : Option (List ℤ)) :
    ∃ os, checkFds fds eventmask k = (k.scan eventmask fds, k, pairs os) := by
  cases fds with
  | none => exact ⟨[], rfl⟩
  | some fds =>
    obtain ⟨os, hrun⟩ := checkFdsLoop_run (k := k) eventmask fds.length 0 0 fds (Nat.zero_add _).symm le_rfl
    refine ⟨os, ?_⟩
    rw [checkFds, bind_eq hrun]
    simp [Kernel.scan]

/-- What `check_select` returns, and what it leaves of the sets. -/
def Kernel.checked (k : Kernel ω τ) (s : FdSets) : ℤ × FdSets :=
  let r := k.scan readMask s.read
  let w := k.scan writeMask s.write
  let e := k.scan exceptMask s.except
  if r.1 < 0 then (r.1, ⟨r.2, s.write, s.except⟩)
  else if w.1 < 0 then (w.1, ⟨r.2, w.2, s.except⟩)
  else if e.1 < 0 then (e.1, ⟨r.2, w.2, e.2⟩)
  else if r.1 ≠ 0 ∨ w.1 ≠ 0 ∨ e.1 ≠ 0 then
    (r.1 + w.1 + e.1, ⟨setCount r.2 r.1, setCount w.2 w.1, setCount e.2 e.1⟩)
  else (0, ⟨r.2, w.2, e.2⟩)

theorem checkSelect_run (s : FdSets) : ∃ os, checkSelect s k = (k.checked s, k, pairs os) := by
  obtain ⟨os₁, hread⟩ := checkFds_run (k := k) readMask s.read
  obtain ⟨os₂, hwrite⟩ := checkFds_run (k := k) writeMask s.write
  obtain ⟨os₃, hexcept⟩ := checkFds_run (k := k) exceptMask s.except
  rw [checkSelect, Kernel.checked, bind_eq hread]
  by_cases hr : (k.scan readMask s.read).1 < 0
  · exact ⟨os₁, by simp [hr]⟩
  simp only [hr, if_false]
  rw [bind_eq hwrite]
  by_cases hw : (k.scan writeMask s.write).1 < 0
  · exact ⟨os₁ ++ os₂, by simp [hw, pairs]⟩
  simp only [hw, if_false]
  rw [bind_eq hexcept]
  by_cases he : (k.scan exceptMask s.except).1 < 0
  · exact ⟨os₁ ++ (os₂ ++ os₃), by simp [he, pairs]⟩
  simp only [he, if_false]
  refine ⟨os₁ ++ (os₂ ++ os₃), ?_⟩
  split <;> simp [pairs]

end CheckFds

section Idle

/-- The descriptors of the three sets. -/
def FdSets.fds (s : FdSets) : List ℤ := s.read.getD [] ++ s.write.getD [] ++ s.except.getD []

/-- No event that is looked for is signaled. -/
def Kernel.Unready (k : Kernel ω τ) (s : FdSets) : Prop :=
  (∀ fd ∈ s.read.getD [], k.ready readMask fd = false) ∧ (∀ fd ∈ s.write.getD [], k.ready writeMask fd = false) ∧
    ∀ fd ∈ s.except.getD [], k.ready exceptMask fd = false

theorem hits_of_valid {eventmask : ℕ} {fds : List ℤ} (h : ∀ fd ∈ fds, k.valid fd = true) :
    k.hits eventmask fds = fds.filter (k.ready eventmask) := by
  rw [Kernel.hits, List.takeWhile_eq_self_iff.mpr h]

theorem scan_of_valid {eventmask : ℕ} {fds : Option (List ℤ)} (h : ∀ fd ∈ fds.getD [], k.valid fd = true) :
    k.scan eventmask fds = ((((fds.getD []).filter (k.ready eventmask)).length : ℤ), fds.map fun fds =>
      fds.filter (k.ready eventmask) ++ fds.drop (fds.filter (k.ready eventmask)).length) := by
  rw [Kernel.scan, if_pos (List.all_eq_true.mpr h), hits_of_valid h]
  cases fds with
  | none => rfl
  | some fds =>
    have hfds : k.hits eventmask fds = fds.filter (k.ready eventmask) := hits_of_valid h
    rw [Option.map_some, Option.map_some, hfds]

theorem scan_of_invalid {eventmask : ℕ} {fds : Option (List ℤ)} (h : ¬ ∀ fd ∈ fds.getD [], k.valid fd = true) :
    (k.scan eventmask fds).1 = -EBADF := by
  rw [Kernel.scan, if_neg fun hall => h (List.all_eq_true.mp hall)]

theorem scan_idle {eventmask : ℕ} {fds : Option (List ℤ)} (hvalid : ∀ fd ∈ fds.getD [], k.valid fd = true)
    (hready : ∀ fd ∈ fds.getD [], k.ready eventmask fd = false) : k.scan eventmask fds = (0, fds) := by
  have hnone : (fds.getD []).filter (k.ready eventmask) = [] := by simpa using hready
  rw [scan_of_valid hvalid, hnone]
  cases fds with
  | none => rfl
  | some fds =>
    change fds.filter (k.ready eventmask) = [] at hnone
    rw [Option.map_some, hnone]
    rfl

theorem scan_nonneg {eventmask : ℕ} {fds : Option (List ℤ)} (h : ¬ (k.scan eventmask fds).1 < 0) :
    (∀ fd ∈ fds.getD [], k.valid fd = true) ∧
      ((k.scan eventmask fds).1 = 0 → ∀ fd ∈ fds.getD [], k.ready eventmask fd = false) := by
  have hvalid : ∀ fd ∈ fds.getD [], k.valid fd = true := by
    by_contra hnot
    rw [scan_of_invalid hnot] at h
    exact h (by decide)
  refine ⟨hvalid, fun hzero => ?_⟩
  rw [scan_of_valid hvalid] at hzero
  simpa using hzero

theorem checked_zero {s : FdSets} : (k.checked s).1 = 0 ↔ (∀ fd ∈ s.fds, k.valid fd = true) ∧ k.Unready s := by
  rw [Kernel.checked, FdSets.fds]
  constructor
  · intro h
    split at h
    · next hneg => exact absurd h hneg.ne
    next hr =>
    split at h
    · next hneg => exact absurd h hneg.ne
    next hw =>
    split at h
    · next hneg => exact absurd h hneg.ne
    next he =>
    obtain ⟨hvr, hread⟩ := scan_nonneg hr
    obtain ⟨hvw, hwrite⟩ := scan_nonneg hw
    obtain ⟨hve, hexcept⟩ := scan_nonneg he
    split at h
    · omega
    next hzero =>
    simp only [not_or, not_not] at hzero
    refine ⟨fun fd hfd => ?_, hread hzero.1, hwrite hzero.2.1, hexcept hzero.2.2⟩
    rw [List.mem_append, List.mem_append] at hfd
    exact hfd.elim (fun h => h.elim (hvr fd) (hvw fd)) (hve fd)
  · rintro ⟨hvalid, hread, hwrite, hexcept⟩
    simp only [List.mem_append] at hvalid
    rw [scan_idle (fun fd h => hvalid fd (.inl (.inl h))) hread, scan_idle (fun fd h => hvalid fd (.inl (.inr h))) hwrite,
      scan_idle (fun fd h => hvalid fd (.inr h)) hexcept]
    simp

theorem checked_idle {s : FdSets} (h : (k.checked s).1 = 0) : k.checked s = (0, s) := by
  obtain ⟨hvalid, hread, hwrite, hexcept⟩ := checked_zero.mp h
  simp only [FdSets.fds, List.mem_append] at hvalid
  rw [Kernel.checked, scan_idle (fun fd h => hvalid fd (.inl (.inl h))) hread,
    scan_idle (fun fd h => hvalid fd (.inl (.inr h))) hwrite, scan_idle (fun fd h => hvalid fd (.inr h)) hexcept]
  simp

end Idle

section Adding

/-- The object of the descriptor is attached to another multiplexer. -/
def Kernel.Elsewhere (k : Kernel ω τ) (self : ℕ) (fd : ℤ) : Prop :=
  ∃ o iomux, k.find fd = some o ∧ (k.io o).iomux = some iomux ∧ iomux ≠ self

/-- All valid descriptors are queued, and the handles are as before; or one of them is attached elsewhere, and its
object is left with a lock. -/
def Adds (self : ℕ) (fds : List ℤ) (m : Action ω τ ℤ) : Prop :=
  ∀ k, (∀ fd ∈ fds, k.valid fd = true) →
    (∃ k' os, m k = (0, k', pairs os) ∧ k'.handles = k.handles ∧ (∀ fd ∈ fds, ¬ k.Elsewhere self fd) ∧
        ∀ fd, k'.Elsewhere self fd ↔ k.Elsewhere self fd) ∨
      ∃ rc k' os o, m k = (rc, k', pairs os ++ [.olock o]) ∧ rc < 0 ∧ k'.handles = (k.locked o).handles ∧
        ∃ fd ∈ fds, k.Elsewhere self fd

theorem adds_pure (self : ℕ) : Adds self [] (pure 0 : Action ω τ ℤ) :=
  fun k _ => .inl ⟨k, [], rfl, rfl, List.forall_mem_nil _, fun _ => Iff.rfl⟩

theorem valid_congr {k' : Kernel ω τ} (h : k'.handles = k.handles) : k'.valid = k.valid := by
  funext fd
  rw [Kernel.valid, Kernel.find, h]
  congr 1
  funext o
  rw [Kernel.isIoObject, Kernel.isIoObject, h]

theorem Adds.seq {self : ℕ} {fds fds' : List ℤ} {m m' : Action ω τ ℤ} (h : Adds self fds m) (h' : Adds self fds' m') :
    Adds self (fds ++ fds') (do let rc ← m; if rc < 0 then pure rc else m') := by
  intro k hvalid
  rw [List.forall_mem_append] at hvalid
  obtain ⟨k₁, os, hrun, hsame, hnone, hkeep⟩ | ⟨rc, k₁, os, o, hrun, hneg, hlock, fd, hfd, helse⟩ := h k hvalid.1
  · rw [bind_eq hrun]
    rw [← valid_congr hsame] at hvalid
    obtain ⟨k₂, os', hrun', hsame', hnone', hkeep'⟩ | ⟨rc, k₂, os', o, hrun', hneg, hlock, fd, hfd, helse⟩ :=
      h' k₁ hvalid.2
    · refine .inl ⟨k₂, os ++ os', by simp [hrun', pairs], hsame'.trans hsame, ?_, fun fd => (hkeep' fd).trans (hkeep fd)⟩
      exact List.forall_mem_append.mpr ⟨hnone, fun fd hfd helse => hnone' fd hfd ((hkeep fd).mpr helse)⟩
    · refine .inr ⟨rc, k₂, os ++ os', o, by simp [hrun', pairs], hneg, ?_, fd, List.mem_append_right _ hfd,
        (hkeep fd).mp helse⟩
      rw [hlock, Kernel.locked, Kernel.locked, hsame]
  · rw [bind_eq hrun, if_pos hneg]
    exact .inr ⟨rc, k₁, os, o, by simp, hneg, hlock, fd, List.mem_append_left _ hfd, helse⟩

theorem orel_attach {self events : ℕ} (h : k.find fd = some o) :
    orel (some o) ((k.locked o).attach self o events) = ((), k.attach self o events, [.orel (some o)]) := by
  have hrel := congrArg (fun r => r.2.1.handles) (orel_locked h)
  change (k.locked o).handles.orel o = k.handles at hrel
  rw [orel, Kernel.attach, hrel]
  rfl

theorem elsewhere_attach {self events : ℕ} (h : ∀ iomux, (k.io o).iomux = some iomux → iomux = self) (fd : ℤ) :
    (k.attach self o events).Elsewhere self fd ↔ k.Elsewhere self fd := by
  have hio (x : ω) : (∃ iomux, ((k.attach self o events).io x).iomux = some iomux ∧ iomux ≠ self) ↔
      ∃ iomux, (k.io x).iomux = some iomux ∧ iomux ≠ self := by
    by_cases hx : x = o
    · subst hx
      simpa [Kernel.attach] using h
    · simp [Kernel.attach, hx]
  constructor
  · rintro ⟨x, iomux, hfind, helse⟩
    obtain ⟨iomux', helse'⟩ := (hio x).mp ⟨iomux, helse⟩
    exact ⟨x, iomux', hfind, helse'⟩
  · rintro ⟨x, iomux, hfind, helse⟩
    obtain ⟨iomux', helse'⟩ := (hio x).mpr ⟨iomux, helse⟩
    exact ⟨x, iomux', hfind, helse'⟩

theorem adds_queueFd (self : ℕ) (fd : ℤ) {eventmask : ℕ} (hmask : eventmask ≠ 0) :
    Adds self [fd] (queueFd (ω := ω) (τ := τ) self eventmask fd) := by
  intro k hvalid
  obtain ⟨o, hfind, hobj⟩ : ∃ o, k.find fd = some o ∧ k.isIoObject o = true := by
    simpa [Kernel.valid, Option.any_eq_true] using hvalid
  have hio : isIoObject o (k.locked o) = (true, k.locked o, []) := by rw [isIoObject, isIoObject_locked, hobj]
  have helse : k.Elsewhere self fd ↔ ∃ iomux, (k.io o).iomux = some iomux ∧ iomux ≠ self := by
    simp [Kernel.Elsewhere, hfind]
  rw [queueFd, bind_eq (olock_some hfind)]
  dsimp only
  rw [bind_eq hio, if_pos rfl]
  by_cases hother : ∃ iomux, (k.io o).iomux = some iomux ∧ iomux ≠ self
  · obtain ⟨iomux, hat, hne⟩ := hother
    have hqueue : queueIoobject self o eventmask (k.locked o) = (-Object.EPERM, k.locked o, []) := by
      simp [queueIoobject, hobj, hmask, hat, hne]
    rw [bind_eq hqueue]
    exact .inr ⟨-Object.EPERM, k.locked o, [], o, rfl, by decide, rfl, fd, List.mem_singleton_self fd, helse.mpr ⟨iomux, hat, hne⟩⟩
  · have hself (iomux : ℕ) (hat : (k.io o).iomux = some iomux) : iomux = self := by
      by_contra hne
      exact hother ⟨iomux, hat, hne⟩
    obtain ⟨events, hqueue⟩ : ∃ events,
        queueIoobject self o eventmask (k.locked o) = (0, (k.locked o).attach self o events, []) := by
      cases hat : (k.io o).iomux with
      | none => exact ⟨eventmask, by simp [queueIoobject, hobj, hmask, hat]⟩
      | some iomux => exact ⟨_, by simp [queueIoobject, hobj, hmask, hat, hself iomux hat]; rfl⟩
    rw [bind_eq hqueue, if_neg (lt_irrefl 0), bind_eq (orel_attach hfind)]
    refine .inl ⟨k.attach self o events, [o], rfl, rfl, ?_, elsewhere_attach hself⟩
    exact List.forall_mem_singleton.mpr (mt helse.mp hother)

theorem adds_addFdsLoop (self : ℕ) (fds : List ℤ) {eventmask : ℕ} (hmask : eventmask ≠ 0) :
    Adds self fds (addFdsLoop (ω := ω) (τ := τ) self eventmask fds) := by
  induction fds with
  | nil => exact adds_pure self
  | cons fd fds ih => exact (adds_queueFd self fd hmask).seq ih

theorem adds_addFdsToIomux (self : ℕ) (fds : Option (List ℤ)) {eventmask : ℕ} (hmask : eventmask ≠ 0) :
    Adds self (fds.getD []) (addFdsToIomux (ω := ω) (τ := τ) self fds eventmask) := by
  cases fds with
  | none => exact adds_pure self
  | some fds => exact adds_addFdsLoop self fds hmask

theorem adds_addSets (self : ℕ) (s : FdSets) : Adds self s.fds (addSets (ω := ω) (τ := τ) self s) := by
  rw [FdSets.fds, List.append_assoc]
  exact (adds_addFdsToIomux self s.read (by decide)).seq
    ((adds_addFdsToIomux self s.write (by decide)).seq (adds_addFdsToIomux self s.except (by decide)))

theorem adds_addPoll (self : ℕ) (fds : List PollFd) :
    Adds self ((fds.map PollFd.fd).filter (0 ≤ ·)) (addPoll (ω := ω) (τ := τ) self fds) := by
  induction fds with
  | nil => exact adds_pure self
  | cons p fds ih =>
    rw [List.map_cons, List.filter_cons, addPoll]
    split
    · next hfd =>
      have hmask : pollMask p.events ≠ 0 := by
        unfold pollMask
        split <;> split <;> decide
      rw [addFdToIomux, if_neg (not_lt.mpr (of_decide_eq_true hfd))]
      exact (adds_queueFd self p.fd hmask).seq ih
    · next hfd =>
      rw [addFdToIomux, if_pos (not_le.mp fun hle => hfd (decide_eq_true hle))]
      exact (adds_pure self).seq ih

end Adding

section Outcome

section
omit [DecidableEq ω]

@[simp] theorem pairs_append (os os' : List ω) : (pairs (os ++ os') : List (Event ω τ)) = pairs os ++ pairs os' :=
  List.flatMap_append

theorem wait_eq (woken : ℤ × Kernel ω τ) : wait woken k = (woken.1, woken.2, [.wait k woken.2]) := rfl

theorem leave_eq {α : Type} (self : ℕ) (r : α) : (leave self r : Action ω τ α) k = (r, k.detached self, []) := rfl

end

/-- The sets with no descriptor in them. -/
def FdSets.emptied (s : FdSets) : FdSets := ⟨setCount s.read 0, setCount s.write 0, setCount s.except 0⟩

/-- The ways in which `select` ends: the result, the kernel after it, and what has been done. -/
inductive Outcome (k : Kernel ω τ) (self : ℕ) (woken : ℤ × Kernel ω τ) (s : FdSets) (timeout : Option (ℤ × ℤ)) :
    (ℤ × FdSets) × Kernel ω τ × List (Event ω τ) → Prop
  | atOnce {os : List ω} : (k.checked s).1 ≠ 0 → Outcome k self woken s timeout (k.checked s, k, pairs os)
  | zero {os : List ω} : (k.checked s).1 = 0 → selectTimeout timeout = 0 →
      Outcome k self woken s timeout ((0, s), k, pairs os)
  | slept {os : List ω} : selectTimeout timeout ≠ 0 → s.read = none ∧ s.write = none ∧ s.except = none →
      Outcome k self woken s timeout
        ((if 0 < woken.1 then -Object.EINTR else 0, s), woken.2, pairs os ++ [.wait k woken.2])
  | refused {rc : ℤ} {k' : Kernel ω τ} {os : List ω} {o : ω} : (k.checked s).1 = 0 → selectTimeout timeout ≠ 0 → rc < 0 →
      (∃ fd ∈ s.fds, k.Elsewhere self fd) → k'.handles = (k.locked o).handles →
      Outcome k self woken s timeout ((rc, s), k', pairs os ++ [.olock o])
  | waitFailed {k₁ : Kernel ω τ} {os : List ω} : (k.checked s).1 = 0 → selectTimeout timeout ≠ 0 → woken.1 < 0 →
      (∀ fd ∈ s.fds, ¬ k.Elsewhere self fd) → k₁.handles = k.handles → Outcome k self woken s timeout
        ((if woken.1 = -Object.ETIMEOUT then 0 else woken.1, s), woken.2.detached self, pairs os ++ [.wait k₁ woken.2])
  | woken {k₁ : Kernel ω τ} {os os' : List ω} : (k.checked s).1 = 0 → selectTimeout timeout ≠ 0 → 0 ≤ woken.1 →
      (∀ fd ∈ s.fds, ¬ k.Elsewhere self fd) → k₁.handles = k.handles → Outcome k self woken s timeout
        (if (woken.2.checked s).1 = 0 then (0, s.emptied) else woken.2.checked s, woken.2.detached self,
          pairs os ++ .wait k₁ woken.2 :: pairs os')

theorem select_outcome (k : Kernel ω τ) (self : ℕ) (woken : ℤ × Kernel ω τ) (s : FdSets) (timeout : Option (ℤ × ℤ)) :
    Outcome k self woken s timeout (select self woken s timeout k) := by
  obtain ⟨os, hcheck⟩ := checkSelect_run (k := k) s
  rw [select, bind_eq hcheck]
  by_cases hfound : (k.checked s).1 = 0
  swap
  · rw [if_pos hfound, pure_eq, List.append_nil]
    exact .atOnce hfound
  rw [if_neg (not_not.mpr hfound), checked_idle hfound]
  by_cases htmo : selectTimeout timeout = 0
  · rw [if_pos htmo, pure_eq, List.append_nil]
    exact .zero hfound htmo
  rw [if_neg htmo]
  by_cases hsleep : timeout ≠ none ∧ s.read = none ∧ s.write = none ∧ s.except = none
  · rw [if_pos hsleep]
    exact .slept htmo hsleep.2
  rw [if_neg hsleep]
  obtain ⟨k₁, os', hadd, hsame, hnone, -⟩ | ⟨rc, k₁, os', o, hadd, hneg, hlock, helse⟩ :=
    adds_addSets self s k (checked_zero.mp hfound).1
  swap
  · rw [bind_eq hadd, if_pos hneg, leave_eq, List.append_nil]
    have hout : Outcome k self woken s timeout ((rc, s), k₁.detached self, pairs (os ++ os') ++ [.olock o]) :=
      .refused hfound htmo hneg helse hlock
    rw [pairs_append, List.append_assoc] at hout
    exact hout
  rw [bind_eq hadd, if_neg (lt_irrefl 0), bind_eq (wait_eq woken)]
  by_cases hfail : woken.1 < 0
  · rw [if_pos hfail]
    have hout : Outcome k self woken s timeout ((if woken.1 = -Object.ETIMEOUT then 0 else woken.1, s),
        woken.2.detached self, pairs (os ++ os') ++ [.wait k₁ woken.2]) := .waitFailed hfound htmo hfail hnone hsame
    rw [pairs_append, List.append_assoc] at hout
    exact hout
  · obtain ⟨os₂, hagain⟩ := checkSelect_run (k := woken.2) s
    rw [if_neg hfail, bind_eq hagain]
    have hout : Outcome k self woken s timeout
        (if (woken.2.checked s).1 = 0 then (0, s.emptied) else woken.2.checked s, woken.2.detached self,
          pairs (os ++ os') ++ .wait k₁ woken.2 :: pairs os₂) := .woken hfound htmo (not_lt.mp hfail) hnone hsame
    rw [pairs_append, List.append_assoc] at hout
    by_cases hzero : (woken.2.checked s).1 = 0
    · rw [if_pos hzero] at hout
      rw [if_pos hzero, leave_eq, checked_idle hzero, List.append_nil]
      exact hout
    · rw [if_neg hzero] at hout
      rw [if_neg hzero, leave_eq, List.append_nil]
      exact hout

end Outcome

end SimpleKernel.Select
