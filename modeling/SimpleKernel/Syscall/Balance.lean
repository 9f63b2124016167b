import SimpleKernel.Syscall.Checked
import SimpleKernel.Handle.Steps

/-! The lock counts of objects over a system call. -/
namespace SimpleKernel.Syscall
open Mem Handle Traced

variable {ω α : Type} {w : World ω} {k : Kernel ω} {a : ℕ → UInt32}

/-- The lock count of every object. -/
def locks (k : Kernel ω) (o : ω) : UInt16 := (k.handles.obj o).lockCount

/-- The functions that are called where objects are created, and by `select` and `poll` between
two looks at the handles. -/
def KernelFn.plain : KernelFn → Bool
  | .openFile | .opendir | .socket | .accept | .pipe | .createThread | .vmmap | .kmalloc
  | .initEvent | .initSem | .initMutex | .initIomux | .queueIoobject | .waitForObject => true
  | _ => false

/-- What the other kernel functions do not do. -/
structure World.Tame (w : World ω) : Prop where
  locks : ∀ f objs args k, locks (w.effect f objs args k) = locks k
  handles : ∀ f objs args k, f.plain = true → (w.effect f objs args k).handles = k.handles
  mem : ∀ f objs args k, f = .queueIoobject ∨ f = .waitForObject →
    (w.effect f objs args k).mem = k.mem

abbrev Level (m : M ω α) : Prop := Keeps locks m

theorem level_call (hw : w.Tame) (f : KernelFn) (objs : List ω) (l : List UInt32) :
    Level (call w f objs l) :=
  fun k => hw.locks f objs l k

theorem level_lockString (s : UInt32) : Level (lockString w s) := by
  intro k
  unfold Traced.after lockString
  split <;> rfl

theorem level_lock (l : Lock) : Level (l.code w) := by
  cases l with
  | string s => exact level_lockString s
  | buffer | iovec | fdset => exact fun _ => rfl

theorem level_lockAll (ls : List Lock) : Level (lockAll w ls) := by
  induction ls with
  | nil => exact keeps_pure
  | cons l ls ih =>
    refine (level_lock l).bind fun rc => ?_
    split
    · exact keeps_pure
    · exact ih

theorem level_guarded (ls : List Lock) {body : M ω ℤ} (h : Level body) :
    Level (guarded w ls body) := by
  refine (level_lockAll ls).bind fun ok => ?_
  split
  · exact h
  · exact keeps_pure

section Handles
variable [DecidableEq ω] {s : State ω Unit}

section
omit [DecidableEq ω]

theorem pushAll_obj (l : List ℕ) :
    (l.foldr (fun h (s : State ω Unit) => s.pushFree h) s).obj = s.obj := by
  induction l with
  | nil => rfl
  | cons h l ih => exact ih

theorem expandHtab_obj : s.expandHtab.1.obj = s.obj := by
  have hpush := pushAll_obj (s := s) (List.range' s.htabsize handlesPerPage)
  unfold State.expandHtab
  split
  · rfl
  · dsimp only
    rw [hpush]

theorem expandTo_obj (h n : ℕ) : (State.expandTo h n s).1.obj = s.obj := by
  induction n generalizing s with
  | zero => rfl
  | succ n ih =>
    rw [State.expandTo]
    split
    · dsimp only
      split
      · exact expandHtab_obj
      · rw [ih, expandHtab_obj]
    · rfl

end

theorem lockCount_halloc {o : ω} {r : State ω Unit × ℤ} (h : s.halloc o = some r) (x : ω) :
    (r.1.obj x).lockCount = (s.obj x).lockCount := by
  have hexp : (if s.hfreelist = none then s.expandHtab else (s, 0)).1.obj = s.obj := by
    split
    · exact expandHtab_obj
    · rfl
  unfold State.halloc at h
  dsimp only at h
  generalize (if s.hfreelist = none then s.expandHtab else (s, 0)) = e at h hexp
  split at h
  · obtain rfl := Option.some.inj h
    rw [hexp]
  · obtain ⟨n, -, hrest⟩ := Option.bind_eq_some_iff.mp h
    split at hrest
    · obtain rfl := Option.some.inj hrest
      rw [lockCount_assign, ← hexp]
    · exact absurd hrest (by simp)

theorem lockCount_closeReturns {rc : ℤ} {r : State ω Unit × ℤ}
    (h : s.closeReturns () rc = some r) (x : ω) :
    (r.1.obj x).lockCount = (s.obj x).lockCount := by
  have hdestroy (s' : State ω Unit) (o : ω) : (s'.destroyUnlocked o).obj = s'.obj := by
    unfold State.destroyUnlocked
    split <;> rfl
  unfold State.closeReturns at h
  split at h
  · exact absurd h (by simp)
  · obtain rfl := Option.some.inj h
    rw [hdestroy]
    rfl
  · split at h
    · obtain rfl := Option.some.inj h
      rw [hdestroy]
      rfl
    · obtain rfl := Option.some.inj h
      rw [lockCount_assign, hdestroy]
      rfl

theorem level_closing (o : ω) {handles : State ω Unit}
    (h : ∀ x, (handles.obj x).lockCount = (k.handles.obj x).lockCount) :
    locks ((closing w o handles).after k) = locks k := by
  funext x
  unfold Traced.after closing locks
  split
  · next r hr => exact (lockCount_closeReturns hr x).trans (h x)
  · exact h x

theorem level_halloc (o : ω) : Level (halloc o) := by
  intro k
  funext x
  unfold Traced.after halloc locks
  split
  · next r hr => exact lockCount_halloc hr x
  · rfl

theorem lockCount_hfree (h : ℤ) (x : ω) :
    ((s.hfree () h).1.obj x).lockCount = (s.obj x).lockCount := by
  unfold State.hfree
  split
  · rfl
  · split
    · rfl
    · dsimp only
      split
      · exact lockCount_dropHandle x
      · exact lockCount_dropHandle x

theorem level_hfree (h : ℤ) : Level (hfree w h) := by
  intro k
  unfold Traced.after hfree
  split
  · next o _ handles _ heq =>
    refine level_closing o fun x => ?_
    rw [← lockCount_hfree (s := k.handles) h x, heq]
  · next handles rc heq _ =>
    funext x
    unfold locks
    rw [← lockCount_hfree (s := k.handles) h x, heq]

theorem lockCount_hassign {o : ω} {h : ℤ} {r : State ω Unit × Option ℤ}
    (hr : s.hassign () o h = some r) (x : ω) : (r.1.obj x).lockCount = (s.obj x).lockCount := by
  unfold State.hassign at hr
  split at hr
  · obtain rfl := Option.some.inj hr
    rfl
  dsimp only at hr
  have hexp := expandTo_obj (s := s) h.toNat (h.toNat + 1)
  generalize State.expandTo h.toNat (h.toNat + 1) s = e at hr hexp
  split at hr
  · obtain rfl := Option.some.inj hr
    rw [hexp]
  split at hr
  · obtain ⟨q, hq, rfl⟩ := Option.map_eq_some_iff.mp hr
    have hobj : q.1.obj = e.1.obj := by
      unfold State.removeFromFreelist at hq
      split at hq
      · obtain rfl := Option.some.inj hq
        rfl
      split at hq
      · obtain rfl := Option.some.inj hq
        rfl
      split at hq
      · obtain rfl := Option.some.inj hq
        rfl
      · exact absurd hq (by simp)
    split
    · rw [hobj, hexp]
    · rw [lockCount_assign, hobj, hexp]
  · split at hr
    · obtain rfl := Option.some.inj hr
      rw [hexp]
    split at hr
    · obtain rfl := Option.some.inj hr
      exact (lockCount_dropHandle x).trans (by rw [hexp])
    · obtain rfl := Option.some.inj hr
      rw [lockCount_assign, lockCount_dropHandle, hexp]

theorem level_hassign (o : ω) (h : ℤ) : Level (hassign w o h) := by
  intro k
  unfold Traced.after hassign
  split
  · next handles rc heq =>
    funext x
    exact lockCount_hassign heq x
  · next handles heq =>
    split
    · next oo _ _ => exact level_closing oo fun x => lockCount_hassign heq x
    · funext x
      exact lockCount_hassign heq x
  · rfl

omit [DecidableEq ω] in
theorem level_hprotect (h : ℤ) : Level (hprotect (ω := ω) h) := by
  intro k
  funext x
  unfold Traced.after hprotect locks State.hprotect State.setProtect
  dsimp only
  split <;> rfl

/-! Objects that are locked by the call. -/

/-- The lock counts when each object of the list was locked once more. -/
def lifted (l : ω → UInt16) (os : List ω) (o : ω) : UInt16 := l o + UInt16.ofNat (os.count o)

theorem lifted_nil (l : ω → UInt16) : lifted l [] = l := by
  funext o
  simp [lifted]

theorem lifted_cons (l : ω → UInt16) (o : ω) (os : List ω) (x : ω) :
    lifted l (o :: os) x = if x = o then lifted l os x + 1 else lifted l os x := by
  by_cases hx : x = o
  · subst hx
    rw [if_pos rfl, lifted, lifted, List.count_cons_self, UInt16.ofNat_add, UInt16.add_assoc]
    rfl
  · rw [if_neg hx, lifted, lifted, List.count_cons_of_ne (Ne.symm hx)]

theorem lifted_reverse (l : ω → UInt16) (os : List ω) : lifted l os.reverse = lifted l os := by
  funext o
  rw [lifted, lifted, List.count_reverse]

variable {l : ω → UInt16} {os : List ω} {o : ω}

theorem olock_cases (s : State ω Unit) (h type : ℤ) :
    s.olock h type = (s, none) ∨ ∃ o p, s.hlookup h = some (o, p) ∧ (s.obj o).handleCount ≠ 0 ∧
      s.olock h type = ({ s.setObj o { s.obj o with lockCount := (s.obj o).lockCount + 1 } with
        locked := Function.update s.locked o (s.locked o + 1) }, some o) := by
  unfold State.olock
  cases hl : s.hlookup h with
  | none => exact Or.inl rfl
  | some q =>
    obtain ⟨o, p⟩ := q
    dsimp only
    split
    · exact Or.inl rfl
    split
    · exact Or.inl rfl
    · next hc => exact Or.inr ⟨o, p, rfl, hc, rfl⟩

theorem olock_none {h : UInt32} {type : ℤ} (hv : (olock h type).value k = none) :
    (olock h type).after k = k := by
  change (k.handles.olock (asInt h) type).2 = none at hv
  change { k with handles := (k.handles.olock (asInt h) type).1 } = k
  rcases olock_cases k.handles (asInt h) type with heq | ⟨o, p, -, -, heq⟩
  · rw [heq]
  · rw [heq] at hv
    exact absurd hv (by simp)

theorem locks_olock {h : UInt32} {type : ℤ} (hl : locks k = lifted l os)
    (hv : (olock h type).value k = some o) :
    locks ((olock h type).after k) = lifted l (o :: os) := by
  change (k.handles.olock (asInt h) type).2 = some o at hv
  change (fun x => ((k.handles.olock (asInt h) type).1.obj x).lockCount) = _
  funext x
  have hx := congrFun hl x
  rcases olock_cases k.handles (asInt h) type with heq | ⟨o', p, -, -, heq⟩
  · rw [heq] at hv
    exact absurd hv (by simp)
  · rw [heq] at hv ⊢
    obtain rfl := Option.some.inj hv
    rw [lifted_cons, ← hx]
    by_cases hxo : x = o'
    · subst hxo
      simp [State.setObj, locks]
    · simp [State.setObj, locks, hxo]

theorem locks_orel (hl : locks k = lifted l (o :: os)) :
    locks ((orel o).after k) = lifted l os := by
  have hobj : (k.handles.orel o).obj = (k.handles.setObj o
      { k.handles.obj o with lockCount := (k.handles.obj o).lockCount - 1 }).obj := by
    unfold State.orel
    dsimp only
    split <;> rfl
  change (fun x => ((k.handles.orel o).obj x).lockCount) = _
  funext x
  have hx := congrFun hl x
  rw [lifted_cons] at hx
  rw [hobj]
  by_cases hxo : x = o
  · subst hxo
    rw [if_pos rfl] at hx
    simp only [State.setObj, Function.update_self]
    change locks k x - 1 = _
    rw [hx, UInt16.add_sub_cancel]
  · rw [if_neg hxo] at hx
    simp only [State.setObj, Function.update_of_ne hxo]
    exact hx

theorem level_withObject (h : UInt32) (type : ℤ) {body : ω → M ω ℤ} (hb : ∀ o, Level (body o)) :
    Level (withObject h type body) := by
  intro k
  rw [withObject, after_bind]
  cases hv : (olock h type).value k with
  | none => exact congrArg locks (olock_none hv)
  | some o =>
    have hbody : locks ((body o).after ((olock h type).after k)) = lifted (locks k) [o] := by
      rw [hb o, locks_olock (lifted_nil _).symm hv]
    exact (locks_orel hbody).trans (lifted_nil _)

theorem locks_orelAll (hl : locks k = lifted l os) : locks ((orelAll os).after k) = l := by
  induction os generalizing k with
  | nil => rw [orelAll, after_pure, hl, lifted_nil]
  | cons o os ih =>
    rw [orelAll, after_bind]
    exact ih (locks_orel hl)

theorem locks_olockAll (h : UInt32) (n m : ℕ) (hl : locks k = lifted l os) :
    locks ((olockAll h n m os).after k) = lifted l (((olockAll h n m os).value k).getD []) := by
  induction m generalizing n os k with
  | zero =>
    rw [olockAll, after_pure, value_pure, Option.getD_some, lifted_reverse, hl]
  | succ m ih =>
    rw [olockAll, after_bind, value_bind, after_bind, value_bind]
    cases hv : (olock ((load (h + 4 * UInt32.ofNat n)).value k) objectAny).value
        ((load (h + 4 * UInt32.ofNat n)).after k) with
    | none =>
      have hkeep := olock_none hv
      rw [hkeep]
      exact (locks_orelAll hl).trans (lifted_nil l).symm
    | some o => exact ih (n + 1) (locks_olock hl hv)

theorem level_sysWait (hw : w.Tame) (f : KernelFn) (a : ℕ → UInt32) :
    Level ((sysWait w f).body a) := by
  unfold sysWait
  dsimp only
  split
  · exact keeps_pure
  split
  · exact keeps_pure
  refine level_guarded _ fun k => ?_
  have hloop := locks_olockAll (a 0) 0 (a 1).toNat (lifted_nil (locks k)).symm
  rw [after_bind]
  cases hv : (olockAll (a 0) 0 (a 1).toNat []).value k with
  | none =>
    rw [hv] at hloop
    exact hloop.trans (lifted_nil _)
  | some os =>
    rw [hv] at hloop
    exact locks_orelAll ((level_call hw _ _ _ _).trans hloop)

theorem level_hallocOrClose (rc : ℤ) : Level (hallocOrClose w rc) := by
  unfold hallocOrClose
  split
  · refine (level_halloc w.created).bind fun h => ?_
    split
    · exact Keeps.bind (fun _ => rfl) fun _ => keeps_pure
    · exact keeps_pure
  · exact keeps_pure

theorem level_sysMake (hw : w.Tame) (init : KernelFn) (words : ℕ) (a : ℕ → UInt32) :
    Level ((sysMake w init words).body a) := by
  refine (level_call hw _ _ _).bind fun p => ?_
  split
  · exact keeps_pure
  · exact (level_call hw _ _ _).bind fun _ => level_hallocOrClose _

end Handles

/-! `select` and `poll` leave the handles and objects as they are. -/

section Iomux

abbrev Stays (m : M ω α) : Prop := Keeps Kernel.handles m

theorem level_of_stays {m : M ω α} (h : Stays m) : Level m := by
  intro k
  funext o
  rw [locks, h k]
  rfl

theorem stays_call (hw : w.Tame) {f : KernelFn} (hf : f.plain = true) (objs : List ω)
    (l : List UInt32) : Stays (call w f objs l) :=
  fun k => hw.handles f objs l k hf

theorem stays_isIoobject (o : ω) : Stays (isIoobject o) :=
  Keeps.bind (fun _ => rfl) fun _ => keeps_pure

variable [DecidableEq ω]

theorem orel_olock {h : UInt32} {type : ℤ} {o : ω} (hv : (olock h type).value k = some o) :
    ((olock h type).after k).handles.orel o = k.handles := by
  change (k.handles.olock (asInt h) type).2 = some o at hv
  change (k.handles.olock (asInt h) type).1.orel o = k.handles
  rcases olock_cases k.handles (asInt h) type with heq | ⟨o', p, -, hc, heq⟩
  · rw [heq] at hv
    exact absurd hv (by simp)
  · rw [heq] at hv ⊢
    obtain rfl := Option.some.inj hv
    simp [State.orel, State.setObj, hc]

/-- A computation that releases the object once and does nothing else to the handles. -/
def Restores (o : ω) (m : M ω α) : Prop := ∀ k, (m.after k).handles = k.handles.orel o

theorem restores_orel (o : ω) : Restores o (orel o) := fun _ => rfl

theorem Restores.bind {β : Type} {o : ω} {m : M ω α} {f : α → M ω β} (h : Restores o m)
    (hf : ∀ x, Stays (f x)) : Restores o (m >>= f) := by
  intro k
  rw [after_bind, hf, h]

theorem restores_of_stays {β : Type} {o : ω} {m : M ω α} {f : α → M ω β} (h : Stays m)
    (hf : ∀ x, Restores o (f x)) : Restores o (m >>= f) := by
  intro k
  rw [after_bind, hf, h]

theorem stays_found {β : Type} {h : UInt32} {type : ℤ} {f : Option ω → M ω β}
    (hnone : Stays (f none)) (hsome : ∀ o, Restores o (f (some o))) :
    Stays (olock h type >>= f) := by
  intro k
  rw [after_bind]
  cases hv : (olock h type).value k with
  | none => rw [hnone, olock_none hv]
  | some o => rw [hsome, orel_olock hv]

theorem stays_checkFdsLoop (late : Bool) (fds mask : UInt32) (n m : ℕ) (found : ℤ) :
    Stays (checkFdsLoop w late fds mask n m found) := by
  induction m generalizing n found with
  | zero => exact keeps_pure
  | succ m ih =>
    refine Keeps.bind (fun _ => rfl) fun fd => stays_found keeps_pure fun iob => ?_
    refine restores_of_stays (stays_isIoobject iob) fun io => ?_
    dsimp only
    split
    · split
      · exact restores_of_stays (fun _ => rfl) fun _ =>
          (restores_orel iob).bind fun _ => ih _ _
      · exact (restores_orel iob).bind fun _ => ih _ _
    · exact (restores_orel iob).bind fun _ => keeps_pure

theorem stays_checkFds (late : Bool) (fds mask : UInt32) : Stays (checkFds w late fds mask) := by
  unfold checkFds
  split
  · exact keeps_pure
  · exact Keeps.bind (fun _ => rfl) fun _ => stays_checkFdsLoop _ _ _ _ _ _

omit [DecidableEq ω] in
theorem stays_setCount (fds : UInt32) (n : ℤ) : Stays (setCount (ω := ω) fds n) := by
  unfold setCount
  split
  · exact keeps_pure
  · exact fun _ => rfl

theorem stays_checkSelect (late : Bool) (r v e : UInt32) : Stays (checkSelect w late r v e) := by
  refine (stays_checkFds _ _ _).bind fun numread => ?_
  split
  · exact keeps_pure
  refine (stays_checkFds _ _ _).bind fun numwrite => ?_
  split
  · exact keeps_pure
  refine (stays_checkFds _ _ _).bind fun numexcept => ?_
  split
  · exact keeps_pure
  split
  · exact (stays_setCount _ _).bind fun _ => (stays_setCount _ _).bind fun _ =>
      (stays_setCount _ _).bind fun _ => keeps_pure
  · exact keeps_pure

/-- `queue_ioobject` finds memory for its record. -/
def Queues (w : World ω) : Prop := ∀ objs l, 0 ≤ w.result .queueIoobject objs l

theorem restores_queue (hw : w.Tame) (hq : Queues w) (iob : ω) (l : List UInt32)
    {β : Type} {f : ℤ → M ω β} {g : M ω β} (hg : Restores iob g) :
    Restores iob (call w .queueIoobject [iob] l >>= fun rc => if rc < 0 then f rc else g) := by
  intro k
  rw [after_bind]
  have hrc : ¬ (call w .queueIoobject [iob] l).value k < 0 := Int.not_lt.mpr (hq [iob] l)
  rw [if_neg hrc, hg, stays_call hw rfl]

theorem stays_addFdsLoop (hw : w.Tame) (hq : Queues w) (fds mask : UInt32) (n m : ℕ) :
    Stays (addFdsLoop w fds mask n m) := by
  induction m generalizing n with
  | zero => exact keeps_pure
  | succ m ih =>
    refine Keeps.bind (fun _ => rfl) fun fd => stays_found keeps_pure fun iob => ?_
    refine restores_of_stays (stays_isIoobject iob) fun io => ?_
    split
    · exact restores_queue hw hq iob _ ((restores_orel iob).bind fun _ => ih _)
    · exact (restores_orel iob).bind fun _ => keeps_pure

theorem stays_addSets (hw : w.Tame) (hq : Queues w) (sets : List (UInt32 × UInt32)) :
    Stays (addSets w sets) := by
  induction sets with
  | nil => exact keeps_pure
  | cons x sets ih =>
    have hadd : Stays (addFdsToIomux w x.1 x.2) := by
      unfold addFdsToIomux
      split
      · exact keeps_pure
      · exact Keeps.bind (fun _ => rfl) fun _ => stays_addFdsLoop hw hq _ _ _ _
    refine hadd.bind fun rc => ?_
    split
    · exact keeps_pure
    · exact ih

omit [DecidableEq ω] in
theorem level_leaveIomux (hw : w.Tame) (rc : ℤ) : Level (leaveIomux w rc) :=
  (level_call hw _ _ _).bind fun _ => keeps_pure

theorem level_select (hw : w.Tame) (hq : Queues w) (r v e timeout : UInt32) :
    Level (select w r v e timeout) := by
  have htimeout : Stays (selectTimeout (ω := ω) timeout) := by
    unfold selectTimeout
    split
    · exact keeps_pure
    · exact Keeps.bind (fun _ => rfl) fun _ => Keeps.bind (fun _ => rfl) fun _ => keeps_pure
  refine (level_of_stays (stays_checkSelect _ _ _ _)).bind fun rc => ?_
  split
  · exact keeps_pure
  refine (level_of_stays htimeout).bind fun tmo => ?_
  split
  · exact keeps_pure
  split
  · exact (level_call hw _ _ _).bind fun _ => keeps_pure
  refine (level_of_stays (stays_addSets hw hq _)).bind fun rc => ?_
  split
  · exact level_leaveIomux hw _
  refine (level_call hw _ _ _).bind fun rc => ?_
  split
  · exact level_leaveIomux hw _
  refine (level_of_stays (stays_checkSelect _ _ _ _)).bind fun rc => ?_
  split
  · exact (level_of_stays (stays_setCount _ _)).bind fun _ => (level_of_stays (stays_setCount _ _)).bind fun _ =>
      (level_of_stays (stays_setCount _ _)).bind fun _ => level_leaveIomux hw _
  · exact level_leaveIomux hw _

/-- The handles and objects, and the handles in the array of `poll`. -/
def pollView (fds : UInt32) (k : Kernel ω) : State ω Unit × (ℕ → UInt32) :=
  (k.handles, fun i => k.mem (fds + 8 * UInt32.ofNat i))

/-- The first `n` entries of the array are negative or handles of I/O objects. -/
def IoEntries (k : Kernel ω) (fds : UInt32) (n : ℕ) : Prop :=
  ∀ i, i < n → asInt (k.mem (fds + 8 * UInt32.ofNat i)) < 0 ∨
    ∃ iob, (k.handles.olock (asInt (k.mem (fds + 8 * UInt32.ofNat i))) objectAny).2 = some iob ∧
      (isIoobject iob).value k = true

omit [DecidableEq ω] in
theorem isIoobject_value (o : ω) : (isIoobject o).value k =
    (decide (((k.handles.obj o).type.toNat : ℤ) = objectSocket) ||
      decide (((k.handles.obj o).type.toNat : ℤ) = objectFile)) := rfl

theorem IoEntries.congr {k k' : Kernel ω} {fds : UInt32} {n : ℕ} (h : IoEntries k fds n)
    (hv : pollView fds k' = pollView fds k) : IoEntries k' fds n := by
  obtain ⟨hh, hm⟩ := Prod.mk.inj hv
  intro i hi
  have hmi : k'.mem (fds + 8 * UInt32.ofNat i) = k.mem (fds + 8 * UInt32.ofNat i) := congrFun hm i
  rw [hmi, hh]
  refine (h i hi).imp id fun hio => ?_
  obtain ⟨iob, hfound, hio⟩ := hio
  refine ⟨iob, hfound, ?_⟩
  rw [isIoobject_value, hh, ← isIoobject_value, hio]

omit [DecidableEq ω] in
theorem pollView_poke (fds v : UInt32) (n : ℕ) (k : Kernel ω) :
    pollView fds ((poke (fds + 8 * UInt32.ofNat n + 4) v).after k) = pollView fds k := by
  have hne (i : ℕ) : fds + 8 * UInt32.ofNat i ≠ fds + 8 * UInt32.ofNat n + 4 := by
    intro heq
    have hnat := congrArg UInt32.toNat heq
    simp only [UInt32.toNat_add, UInt32.toNat_mul] at hnat
    change (_ + 8 * _ % _) % _ = ((_ + 8 * _ % _) % _ + 4) % _ at hnat
    omega
  refine Prod.ext rfl (funext fun i => ?_)
  exact Function.update_of_ne (hne i) _ _

theorem orel_olock_after {h : UInt32} {type : ℤ} {o : ω}
    (hv : (olock h type).value k = some o) :
    (orel o).after ((olock h type).after k) = k := by
  have hh := orel_olock hv
  change Kernel.mk k.pt k.mem (((olock h type).after k).handles.orel o) k.fault k.made = k
  rw [hh]

omit [DecidableEq ω] in
theorem value_peek (addr : UInt32) : (peek addr).value k = k.mem addr := rfl

omit [DecidableEq ω] in
theorem after_peek (addr : UInt32) : (peek addr).after k = k := rfl

theorem isIoobject_olock {h : UInt32} {type : ℤ} {o : ω} (hv : (olock h type).value k = some o)
    (hio : (isIoobject o).value k = true) :
    (isIoobject o).value ((olock h type).after k) = true := by
  have htype : (((olock h type).after k).handles.obj o).type = (k.handles.obj o).type := by
    change (k.handles.olock (asInt h) type).2 = some o at hv
    change ((k.handles.olock (asInt h) type).1.obj o).type = _
    rcases olock_cases k.handles (asInt h) type with heq | ⟨o', p, -, -, heq⟩
    · rw [heq]
    · rw [heq] at hv ⊢
      obtain rfl := Option.some.inj hv
      simp [State.setObj]
  rw [isIoobject_value, htype, ← isIoobject_value, hio]

theorem pollEntry_after (late : Bool) (events : UInt32) {iob : ω}
    (hio : (isIoobject iob).value k = true) :
    (pollEntry w late events (some iob)).after k = k := by
  rw [pollEntry, after_bind, hio]
  rfl

theorem pollView_checkPollLoop (late : Bool) {fds : UInt32} {N : ℕ} (n m : ℕ) (ready : ℤ)
    (hnm : n + m ≤ N) (hio : IoEntries k fds N) :
    pollView fds ((checkPollLoop w late fds n m ready).after k) = pollView fds k := by
  induction m generalizing n ready k with
  | zero => rfl
  | succ m ih =>
    have hpoke (v : UInt32) (ready' : ℤ) :
        pollView fds ((checkPollLoop w late fds (n + 1) m ready').after
          ((poke (fds + 8 * UInt32.ofNat n + 4) v).after k)) = pollView fds k := by
      have hv := pollView_poke fds v n k
      rw [ih (n + 1) ready' (by omega) (hio.congr hv), hv]
    rw [checkPollLoop, after_bind, after_bind, value_peek, after_peek, after_peek]
    split
    · exact hpoke _ _
    · next hfd =>
      obtain ⟨iob, hfound, hiob⟩ := (hio n (by omega)).resolve_left hfd
      have hv : (olock (k.mem (fds + 8 * UInt32.ofNat n)) objectAny).value k = some iob := hfound
      rw [after_bind, hv, after_bind, pollEntry_after late _ (isIoobject_olock hv hiob), after_bind]
      change pollView fds (Traced.after _ ((orel iob).after _)) = _
      rw [orel_olock_after hv]
      exact hpoke _ _

theorem stays_addFdToIomux (hw : w.Tame) (hq : Queues w) (n : ℕ) (fd events : UInt32) :
    Stays (addFdToIomux w n fd events) := by
  unfold addFdToIomux
  split
  · exact keeps_pure
  refine stays_found keeps_pure fun iob => ?_
  refine restores_of_stays (stays_isIoobject iob) fun io => ?_
  split
  · exact restores_queue hw hq iob _ ((restores_orel iob).bind fun _ => keeps_pure)
  · exact (restores_orel iob).bind fun _ => keeps_pure

theorem mem_addFdToIomux (hw : w.Tame) (n : ℕ) (fd events : UInt32) :
    Keeps Kernel.mem (addFdToIomux w n fd events) := by
  unfold addFdToIomux
  split
  · exact keeps_pure
  refine Keeps.bind (fun _ => rfl) fun found => ?_
  cases found with
  | none => exact keeps_pure
  | some iob =>
    refine Keeps.bind (fun _ => rfl) fun io => ?_
    split
    · refine Keeps.bind (fun k => hw.mem _ _ _ k (Or.inl rfl)) fun rc => ?_
      split
      · exact keeps_pure
      · exact Keeps.bind (fun _ => rfl) fun _ => keeps_pure
    · exact Keeps.bind (fun _ => rfl) fun _ => keeps_pure

theorem pollView_addPollLoop (hw : w.Tame) (hq : Queues w) (fds : UInt32) (n m : ℕ) :
    Keeps (pollView fds) (addPollLoop w fds n m) := by
  induction m generalizing n with
  | zero => exact keeps_pure
  | succ m ih =>
    refine Keeps.bind (fun _ => rfl) fun fd => Keeps.bind (fun _ => rfl) fun events => ?_
    refine Keeps.bind (fun k => ?_) fun rc => ?_
    · rw [pollView, stays_addFdToIomux hw hq, mem_addFdToIomux hw]
      rfl
    · split
      · exact keeps_pure
      · exact ih _

omit [DecidableEq ω] in
theorem locks_of_pollView {fds : UInt32} {k k' : Kernel ω} (h : pollView fds k' = pollView fds k) :
    locks k' = locks k := by
  funext o
  rw [locks, (Prod.mk.inj h).1]
  rfl

theorem level_poll (hw : w.Tame) (hq : Queues w) (fds nfds timeout : UInt32)
    (hio : IoEntries k fds nfds.toNat) :
    locks ((poll w fds nfds timeout).after k) = locks k := by
  have hfirst := pollView_checkPollLoop (w := w) false 0 nfds.toNat 0 (by omega) hio
  unfold poll
  split
  · exact ((level_call hw _ _ _).bind fun _ => keeps_pure) k
  split
  · rfl
  rw [after_bind]
  split
  · exact locks_of_pollView hfirst
  split
  · exact locks_of_pollView hfirst
  have hadd := (pollView_addPollLoop hw hq fds 0 nfds.toNat _).trans hfirst
  rw [after_bind]
  split
  · exact (level_leaveIomux hw _ _).trans (locks_of_pollView hadd)
  rw [after_bind]
  have hwait : pollView fds ((call w .waitForObject [] [timeout]).after
      ((addPollLoop w fds 0 nfds.toNat).after
        ((checkPollLoop w false fds 0 nfds.toNat 0).after k))) = pollView fds k := by
    rw [← hadd]
    refine Prod.ext (hw.handles _ _ _ _ rfl) ?_
    funext i
    exact congrFun (hw.mem _ _ _ _ (Or.inr rfl)) _
  split
  · exact (level_leaveIomux hw _ _).trans (locks_of_pollView hwait)
  · have hlast := pollView_checkPollLoop (w := w) true 0 nfds.toNat 0 (by omega) (hio.congr hwait)
    exact (level_leaveIomux hw _ _).trans (locks_of_pollView (hlast.trans hwait))

end Iomux

end SimpleKernel.Syscall
