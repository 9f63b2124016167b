import SimpleKernel.Select.Scans

/-! When `select` leaves in the sets what it says. -/
namespace SimpleKernel.Select
open Handle Traced

variable {ω τ : Type} [DecidableEq ω] {k : Kernel ω τ} {s : FdSets} {eventmask : ℕ} {fds : Option (List ℤ)}

omit [DecidableEq ω] in
/-- The set `fds'` holds the descriptors of `fds`. -/
def SameSet (fds fds' : Option (List ℤ)) : Prop := ∀ fd, fd ∈ fds'.getD [] ↔ fd ∈ fds.getD []

/-- The set `fds'` holds the ready ones of the descriptors of `fds`. -/
def Kernel.Exact (k : Kernel ω τ) (eventmask : ℕ) (fds fds' : Option (List ℤ)) : Prop :=
  ∀ fd, fd ∈ fds'.getD [] ↔ fd ∈ fds.getD [] ∧ k.ready eventmask fd = true

/-- The sets hold the descriptors that are ready in the kernel `k`, and the result is their number; or the result is an
error, and the sets hold what they held. -/
structure Reports (k : Kernel ω τ) (s : FdSets) (r : ℤ × FdSets) : Prop where
  exact : 0 ≤ r.1 → (k.Exact readMask s.read r.2.read ∧ k.Exact writeMask s.write r.2.write ∧
    k.Exact exceptMask s.except r.2.except) ∧ r.1 = r.2.fds.length
  error : r.1 < 0 → SameSet s.read r.2.read ∧ SameSet s.write r.2.write ∧ SameSet s.except r.2.except

/-- With `m` ready descriptors before the first one that is not valid, each of the first `m` is ready or occurs again
behind them. -/
def Kernel.Stays (k : Kernel ω τ) (eventmask : ℕ) (fds : Option (List ℤ)) : Prop :=
  ∀ fd ∈ (fds.getD []).take (k.hits eventmask (fds.getD [])).length,
    k.ready eventmask fd = true ∨ fd ∈ (fds.getD []).drop (k.hits eventmask (fds.getD [])).length

/-- So it is with every set up to the first one that has a descriptor that is not valid. -/
def Kernel.Undisturbed (k : Kernel ω τ) (s : FdSets) : Prop :=
  k.Stays readMask s.read ∧ ((∀ fd ∈ s.read.getD [], k.valid fd = true) →
    k.Stays writeMask s.write ∧ ((∀ fd ∈ s.write.getD [], k.valid fd = true) → k.Stays exceptMask s.except))

section Scans

omit [DecidableEq ω] in
theorem sameSet_rfl : SameSet fds fds := fun _ => Iff.rfl

theorem scan_fds (eventmask : ℕ) (fds : Option (List ℤ)) : (k.scan eventmask fds).2.getD [] =
    k.hits eventmask (fds.getD []) ++ (fds.getD []).drop (k.hits eventmask (fds.getD [])).length := by
  cases fds <;> rfl

theorem mem_hits {fd : ℤ} {l : List ℤ} (h : fd ∈ k.hits eventmask l) : fd ∈ l ∧ k.ready eventmask fd = true := by
  obtain ⟨hvalid, hready⟩ := List.mem_filter.mp h
  exact ⟨(List.takeWhile_prefix _).subset hvalid, hready⟩

theorem sameSet_scan : SameSet fds (k.scan eventmask fds).2 ↔ k.Stays eventmask fds := by
  rw [SameSet, scan_fds, Kernel.Stays]
  generalize fds.getD [] = l
  constructor
  · intro h fd hfd
    have hmem := (h fd).mpr (List.mem_of_mem_take hfd)
    rw [List.mem_append] at hmem
    exact hmem.imp_left fun hin => (mem_hits hin).2
  · intro h fd
    rw [List.mem_append]
    refine ⟨fun hfd => hfd.elim (fun hin => (mem_hits hin).1) List.mem_of_mem_drop, fun hfd => ?_⟩
    rw [← List.take_append_drop (k.hits eventmask l).length l, List.mem_append] at hfd
    refine hfd.elim (fun htake => (h fd htake).imp_left fun hready => ?_) .inr
    have hle : (k.hits eventmask l).length ≤ (l.takeWhile k.valid).length := List.length_filter_le _ _
    obtain ⟨rest, hrest⟩ : l.takeWhile k.valid <+: l := List.takeWhile_prefix _
    nth_rewrite 2 [← hrest] at htake
    rw [List.take_append_of_le_length hle] at htake
    exact List.mem_filter.mpr ⟨List.mem_of_mem_take htake, hready⟩

theorem scan_neg (h : (k.scan eventmask fds).1 < 0) : ¬ ∀ fd ∈ fds.getD [], k.valid fd = true := by
  intro hvalid
  rw [scan_of_valid hvalid] at h
  omega

theorem setCount_scan (eventmask : ℕ) (hvalid : ∀ fd ∈ fds.getD [], k.valid fd = true) :
    (setCount (k.scan eventmask fds).2 (k.scan eventmask fds).1).getD [] = (fds.getD []).filter (k.ready eventmask) ∧
      (k.scan eventmask fds).1 = ((fds.getD []).filter (k.ready eventmask)).length := by
  rw [scan_of_valid hvalid]
  refine ⟨?_, rfl⟩
  cases fds with
  | none => rfl
  | some fds =>
    simp [setCount]

theorem exact_filter {fds' : Option (List ℤ)} (h : fds'.getD [] = (fds.getD []).filter (k.ready eventmask)) :
    k.Exact eventmask fds fds' := by
  intro fd
  rw [h, List.mem_filter]

end Scans

section Results

theorem reports_of_neg {r : ℤ × FdSets} (h : r.1 < 0) : Reports k s r ↔
    SameSet s.read r.2.read ∧ SameSet s.write r.2.write ∧ SameSet s.except r.2.except :=
  ⟨fun hr => hr.error h, fun hsame => ⟨fun hle => absurd h (not_lt.mpr hle), fun _ => hsame⟩⟩

theorem reports_failed {rc : ℤ} (h : rc < 0) : Reports k s (rc, s) :=
  (reports_of_neg h).mpr ⟨sameSet_rfl, sameSet_rfl, sameSet_rfl⟩

theorem reports_zero : Reports k s (0, s) ↔ s.fds = [] := by
  constructor
  · intro h
    exact List.length_eq_zero_iff.mp (Int.natCast_eq_zero.mp (h.exact le_rfl).2.symm)
  · intro h
    have hfds := h
    rw [FdSets.fds, List.append_eq_nil_iff, List.append_eq_nil_iff] at h
    obtain ⟨⟨hr, hw⟩, he⟩ := h
    refine ⟨fun _ => ⟨⟨?_, ?_, ?_⟩, by rw [hfds]; rfl⟩, fun h => absurd h (lt_irrefl 0)⟩ <;> intro fd
    · simp [hr]
    · simp [hw]
    · simp [he]

theorem reports_checked (hfound : (k.checked s).1 ≠ 0) :
    Reports k s (k.checked s) ↔ (∀ fd ∈ s.fds, k.valid fd = true) ∨ k.Undisturbed s := by
  have hfds : (∀ fd ∈ s.fds, k.valid fd = true) ↔ ((∀ fd ∈ s.read.getD [], k.valid fd = true) ∧
      ∀ fd ∈ s.write.getD [], k.valid fd = true) ∧ ∀ fd ∈ s.except.getD [], k.valid fd = true := by
    rw [FdSets.fds, List.forall_mem_append, List.forall_mem_append]
  rw [hfds]
  unfold Kernel.checked at hfound ⊢
  by_cases hr : (k.scan readMask s.read).1 < 0
  · have hinvalid := scan_neg hr
    rw [if_pos hr, reports_of_neg hr, sameSet_scan]
    exact ⟨fun h => .inr ⟨h.1, fun hall => absurd hall hinvalid⟩,
      fun h => ⟨(h.resolve_left fun hall => hinvalid hall.1.1).1, sameSet_rfl, sameSet_rfl⟩⟩
  have hvr := (scan_nonneg hr).1
  rw [if_neg hr] at hfound ⊢
  by_cases hw : (k.scan writeMask s.write).1 < 0
  · have hinvalid := scan_neg hw
    rw [if_pos hw, reports_of_neg hw, sameSet_scan, sameSet_scan]
    refine ⟨fun h => .inr ⟨h.1, fun _ => ⟨h.2.1, fun hall => absurd hall hinvalid⟩⟩, fun h => ?_⟩
    obtain ⟨hread, hwrite⟩ := h.resolve_left fun hall => hinvalid hall.1.2
    exact ⟨hread, (hwrite hvr).1, sameSet_rfl⟩
  have hvw := (scan_nonneg hw).1
  rw [if_neg hw] at hfound ⊢
  by_cases he : (k.scan exceptMask s.except).1 < 0
  · have hinvalid := scan_neg he
    rw [if_pos he, reports_of_neg he, sameSet_scan, sameSet_scan, sameSet_scan]
    refine ⟨fun h => .inr ⟨h.1, fun _ => ⟨h.2.1, fun _ => h.2.2⟩⟩, fun h => ?_⟩
    obtain ⟨hread, hrest⟩ := h.resolve_left fun hall => hinvalid hall.2
    exact ⟨hread, (hrest hvr).1, (hrest hvr).2 hvw⟩
  have hve := (scan_nonneg he).1
  rw [if_neg he] at hfound ⊢
  split at hfound
  swap
  · exact absurd rfl hfound
  next hsome =>
  rw [if_pos hsome]
  refine ⟨fun _ => .inl ⟨⟨hvr, hvw⟩, hve⟩, fun _ => ⟨fun _ => ?_, fun hneg => ?_⟩⟩
  · obtain ⟨hread, hnr⟩ := setCount_scan readMask hvr
    obtain ⟨hwrite, hnw⟩ := setCount_scan writeMask hvw
    obtain ⟨hexcept, hne⟩ := setCount_scan exceptMask hve
    refine ⟨⟨exact_filter hread, exact_filter hwrite, exact_filter hexcept⟩, ?_⟩
    rw [FdSets.fds, List.length_append, List.length_append, hread, hwrite, hexcept, hnr, hnw, hne]
    rfl
  · omega

theorem reports_emptied (h : k.Unready s) : Reports k s (0, s.emptied) := by
  have hempty (fds : Option (List ℤ)) : (setCount fds 0).getD [] = [] := by cases fds <;> rfl
  refine ⟨fun _ => ⟨⟨fun fd => ?_, fun fd => ?_, fun fd => ?_⟩, ?_⟩, fun h => absurd h (lt_irrefl 0)⟩
  · simpa [FdSets.emptied, hempty] using h.1 fd
  · simpa [FdSets.emptied, hempty] using h.2.1 fd
  · simpa [FdSets.emptied, hempty] using h.2.2 fd
  · simp [FdSets.emptied, FdSets.fds, hempty]

theorem reports_detached {self : ℕ} {r : ℤ × FdSets} : Reports (k.detached self) s r ↔ Reports k s r := by
  have hready : (k.detached self).ready = k.ready := by
    funext mask fd
    unfold Kernel.ready Kernel.find Kernel.detached
    congr 1
    funext o
    dsimp only
    split <;> rfl
  constructor <;> rintro ⟨hexact, herror⟩ <;> refine ⟨fun hle => ?_, herror⟩
  · simpa only [Kernel.Exact, hready] using hexact hle
  · simpa only [Kernel.Exact, hready] using hexact hle

end Results

/-- `select` leaves in the sets what it says if and only if a descriptor that is not valid finds them undisturbed,
and a wait of no time or one that times out has no descriptors. -/
theorem select_reports_iff (k : Kernel ω τ) (self : ℕ) (woken : ℤ × Kernel ω τ) (s : FdSets) (timeout : Option (ℤ × ℤ)) :
    Reports ((select self woken s timeout).after k) s ((select self woken s timeout).value k) ↔
      ((∀ fd ∈ s.fds, k.valid fd = true) ∨ k.Undisturbed s) ∧
      ((∀ fd ∈ s.fds, k.valid fd = true) → k.Unready s →
        (selectTimeout timeout = 0 → s.fds = []) ∧
        (selectTimeout timeout ≠ 0 → (∀ fd ∈ s.fds, ¬ k.Elsewhere self fd) →
          (woken.1 = -Object.ETIMEOUT → s.fds = []) ∧
          (0 ≤ woken.1 → (∀ fd ∈ s.fds, woken.2.valid fd = true) ∨ woken.2.Undisturbed s))) := by
  rw [Traced.after, Traced.value]
  have hout := select_outcome k self woken s timeout
  generalize select self woken s timeout k = r at hout ⊢
  have hidle (h : (k.checked s).1 ≠ 0) (hvalid : ∀ fd ∈ s.fds, k.valid fd = true) (hready : k.Unready s) : False :=
    h (checked_zero.mpr ⟨hvalid, hready⟩)
  cases hout with
  | atOnce hfound => exact (reports_checked hfound).trans (and_iff_left fun hv hr => (hidle hfound hv hr).elim).symm
  | zero hcheck hzero =>
    obtain ⟨hvalid, hready⟩ := checked_zero.mp hcheck
    exact reports_zero.trans ⟨fun h => ⟨.inl hvalid, fun _ _ => ⟨fun _ => h, fun hne => absurd hzero hne⟩⟩,
      fun h => (h.2 hvalid hready).1 hzero⟩
  | slept htmo hnone =>
    have hfds : s.fds = [] := by rw [FdSets.fds, hnone.1, hnone.2.1, hnone.2.2]; rfl
    refine iff_of_true ?_ ?_
    · by_cases hpos : 0 < woken.1
      · rw [if_pos hpos]
        exact reports_failed (by decide)
      · rw [if_neg hpos]
        exact reports_zero.mpr hfds
    · rw [hfds]
      exact ⟨.inl (List.forall_mem_nil _),
        fun _ _ => ⟨fun _ => rfl, fun _ _ => ⟨fun _ => rfl, fun _ => .inl (List.forall_mem_nil _)⟩⟩⟩
  | refused hcheck htmo hneg helse hlock =>
    obtain ⟨fd, hfd, helse⟩ := helse
    exact iff_of_true (reports_failed hneg)
      ⟨.inl (checked_zero.mp hcheck).1, fun _ _ => ⟨fun h => absurd h htmo, fun _ hnone => absurd helse (hnone fd hfd)⟩⟩
  | waitFailed hcheck htmo hfail hnone hbefore =>
    obtain ⟨hvalid, hready⟩ := checked_zero.mp hcheck
    by_cases hout : woken.1 = -Object.ETIMEOUT
    · rw [if_pos hout]
      exact reports_zero.trans ⟨fun h => ⟨.inl hvalid, fun _ _ => ⟨fun _ => h,
        fun _ _ => ⟨fun _ => h, fun hle => absurd hfail (not_lt.mpr hle)⟩⟩⟩, fun h => ((h.2 hvalid hready).2 htmo hnone).1 hout⟩
    · rw [if_neg hout]
      exact iff_of_true (reports_failed hfail) ⟨.inl hvalid, fun _ _ => ⟨fun h => absurd h htmo,
        fun _ _ => ⟨fun h => absurd h hout, fun hle => absurd hfail (not_lt.mpr hle)⟩⟩⟩
  | woken hcheck htmo hok hnone hbefore =>
    obtain ⟨hvalid, hready⟩ := checked_zero.mp hcheck
    have htimeout : woken.1 ≠ -Object.ETIMEOUT := fun h => absurd (h ▸ hok) (by decide)
    rw [reports_detached]
    by_cases hzero : (woken.2.checked s).1 = 0
    · obtain ⟨hlate, hnothing⟩ := checked_zero.mp hzero
      rw [if_pos hzero]
      exact iff_of_true (reports_emptied hnothing) ⟨.inl hvalid, fun _ _ => ⟨fun h => absurd h htmo,
        fun _ _ => ⟨fun h => absurd h htimeout, fun _ => .inl hlate⟩⟩⟩
    · rw [if_neg hzero, reports_checked hzero]
      exact ⟨fun h => ⟨.inl hvalid, fun _ _ => ⟨fun h => absurd h htmo, fun _ _ => ⟨fun h => absurd h htimeout, fun _ => h⟩⟩⟩,
        fun h => ((h.2 hvalid hready).2 htmo hnone).2 hok⟩

/-- A file for which nothing is signaled, with the descriptor 0. -/
def idleFile : Kernel Unit Unit where
  handles := { initial fun _ => 5 with htab := fun _ => .used () false, htabsize := 1, obj := fun _ => ⟨5, 1, 0⟩ }
  io := fun _ => ⟨0, 0, none⟩

/-- After a wait of no time, the set still holds a descriptor that is not ready. -/
theorem select_leaves_sets : ¬ ∀ (k : Kernel Unit Unit) self woken s timeout,
    Reports ((select self woken s timeout).after k) s ((select self woken s timeout).value k) := by
  intro h
  have hexact := (h idleFile 1 (0, idleFile) ⟨some [0], none, none⟩ (some (0, 0))).exact
  exact absurd (hexact (by decide)).2 (by decide)

end SimpleKernel.Select
