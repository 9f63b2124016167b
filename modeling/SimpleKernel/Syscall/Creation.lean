import SimpleKernel.Syscall.Locks

/-! The objects that system calls create, and the handles that refer to them afterwards. -/
namespace SimpleKernel.Syscall
open Mem Handle Traced

variable {ω : Type} [DecidableEq ω] {w : World ω} {k : Kernel ω} {c : Entry} {params : UInt32}
  {s : State ω Unit} {o : ω} {n : ℕ}

section Room

/-- The table is well formed and `n` more handles can be allocated. -/
structure Room (s : State ω Unit) (n : ℕ) : Prop where
  table : ∃ fl, TableOk s fl ∧ (n ≤ fl.length ∨ s.htabsize ≠ htabLimit)
  size : s.htabsize ≤ htabLimit
  pages : handlesPerPage ∣ s.htabsize

/-- What `halloc` has done when it succeeds: a handle that was not in use refers to the object. -/
structure Gave (s s' : State ω Unit) (o : ω) (h : ℕ) : Prop where
  lt : h < htabLimit
  free : ∀ x, ¬ Refers s h x
  refers : ∀ j x, Refers s' j x ↔ if j = h then x = o else Refers s j x
  slot : s'.htab h = .used o false
  keep : ∀ j, j < s.htabsize → j ≠ h → s'.htab j = s.htab j

theorem gave_take {fl : List ℕ} {h : ℕ} {next : Option ℕ} (hs : TableOk s fl)
    (hsize : s.htabsize ≤ htabLimit) (hfl : s.hfreelist = some h) (hnext : s.htab h = .free next) :
    Gave s ({ s with hfreelist := next }.assign o h) o h ∧
      ∃ fl', TableOk ({ s with hfreelist := next }.assign o h) fl' ∧
        fl.length = fl'.length + 1 := by
  have hhead : h ∈ fl := by
    have hstack := hs.stack
    rw [hfl] at hstack
    obtain ⟨fl', rfl, -⟩ := hstack.pop hs.nodup
    exact List.mem_cons_self
  have hlt := ((hs.free_iff h).mp hhead).1
  have htable := hs.pop (o := o) hfl hnext
  have hlen : fl.length = (fl.erase h).length + 1 := by
    have hpos := List.length_pos_of_mem hhead
    rw [List.length_erase_of_mem hhead]
    omega
  refine ⟨⟨by omega, ?_, fun j x => ?_, ?_, fun j hj hne => ?_⟩, fl.erase h, ?_, hlen⟩
  · rintro x ⟨-, p, hp⟩
    rw [hnext] at hp
    exact absurd hp (by simp)
  · by_cases hj : j = h
    · subst hj
      simp [Refers, State.assign, State.setSlot, State.setObj, hlt, eq_comm]
    · simp [Refers, State.assign, State.setSlot, State.setObj, hj]
  · simp [State.assign, State.setSlot, State.setObj]
  · simp [State.assign, State.setSlot, State.setObj, hne]
  · exact ⟨htable.stack, htable.nodup, htable.free_iff⟩

theorem halloc_room (hr : Room s (n + 1)) (hn : n < handlesPerPage) :
    ∃ s', ∃ h : ℕ, s.halloc o = some (s', (h : ℤ)) ∧ Gave s s' o h ∧ Room s' n := by
  obtain ⟨fl, hs, hroom⟩ := hr.table
  cases hfl : s.hfreelist with
  | some h =>
    have hhead : h ∈ fl := by
      have hstack := hs.stack
      rw [hfl] at hstack
      obtain ⟨fl', rfl, -⟩ := hstack.pop hs.nodup
      exact List.mem_cons_self
    obtain ⟨-, next, hnext⟩ := (hs.free_iff h).mp hhead
    obtain ⟨hgave, fl', htable, hlen⟩ := gave_take hs hr.size hfl hnext
    refine ⟨_, h, ?_, hgave, ⟨fl', htable, ?_⟩, hr.size, hr.pages⟩
    · simp [State.halloc, hfl, hnext]
    · exact hroom.imp (fun hle => by omega) id
  | none =>
    have hempty : fl = [] := by
      have hstack := hs.stack
      rw [hfl] at hstack
      cases fl with
      | nil => rfl
      | cons h fl => simp [Holdings.IsStack] at hstack
    have hfull : s.htabsize ≠ htabLimit := by
      rcases hroom with hle | hne
      · simp [hempty] at hle
      · exact hne
    rcases hs.expand with ⟨-, hneg⟩ | ⟨hzero, hs', hsome, hkeep, hnew, htab, head, heq⟩
    · simp [State.expandHtab, hfull] at hneg
    have hsize : s.expandHtab.1.htabsize = s.htabsize + handlesPerPage := by rw [heq]
    obtain ⟨h, hfl'⟩ := Option.ne_none_iff_exists'.mp hsome
    have hhead : h ∈ List.range' s.htabsize handlesPerPage ++ fl := by
      have hstack := hs'.stack
      rw [hfl'] at hstack
      obtain ⟨fl', hcons, -⟩ := hstack.pop hs'.nodup
      rw [hcons]
      exact List.mem_cons_self
    obtain ⟨-, next, hnext⟩ := (hs'.free_iff h).mp hhead
    have hlimit : s.expandHtab.1.htabsize ≤ htabLimit := by
      obtain ⟨q, hq⟩ := hr.pages
      have hle := hr.size
      simp only [htabLimit, handlesPerPage] at *
      omega
    have hlong : handlesPerPage ≤ (List.range' s.htabsize handlesPerPage ++ fl).length := by
      rw [List.length_append, List.length_range']
      omega
    obtain ⟨hgave, fl'', htable, hlen⟩ := gave_take hs' hlimit hfl' hnext
    have hrefers (j : ℕ) (x : ω) : Refers s.expandHtab.1 j x ↔ Refers s j x := by
      by_cases hj : j < s.htabsize
      · rw [Refers, hkeep j hj]
        exact and_congr ⟨fun _ => hj, fun _ => by omega⟩ Iff.rfl
      · refine ⟨fun hx => ?_, fun hx => absurd hx.1 hj⟩
        obtain ⟨hlt, p, hp⟩ := hx
        obtain ⟨next', hfree⟩ := hnew j (by omega) hlt
        rw [hfree] at hp
        exact absurd hp (by simp)
    refine ⟨_, h, ?_, ⟨hgave.lt, fun x hx => ?_, fun j x => ?_, hgave.slot, fun j hj hne => ?_⟩,
      ⟨fl'', htable, Or.inl (by omega)⟩, hlimit, ?_⟩
    · simp [State.halloc, hfl, hzero, hfl', hnext]
    · exact hgave.free x ((hrefers h x).mpr hx)
    · rw [hgave.refers, hrefers]
    · rw [hgave.keep j (by omega) hne, hkeep j hj]
    · rw [hsize]
      exact Nat.dvd_add hr.pages (Nat.dvd_refl _)

/-- The slots, the free list and the size of the table are the same. -/
structure SameTable (s s' : State ω Unit) : Prop where
  htab : s'.htab = s.htab
  freelist : s'.hfreelist = s.hfreelist
  size : s'.htabsize = s.htabsize

omit [DecidableEq ω] in
theorem SameTable.refers {s' : State ω Unit} (h : SameTable s s') (j : ℕ) (x : ω) :
    Refers s' j x ↔ Refers s j x := by
  rw [Refers, Refers, h.htab, h.size]

omit [DecidableEq ω] in
theorem SameTable.room {s' : State ω Unit} (h : SameTable s s') (hr : Room s n) : Room s' n := by
  obtain ⟨fl, ht, hroom⟩ := hr.table
  refine ⟨⟨fl, ⟨?_, ht.nodup, ?_⟩, ?_⟩, ?_, ?_⟩
  · rw [h.htab, h.freelist]
    exact ht.stack
  · rw [h.htab, h.size]
    exact ht.free_iff
  · rwa [h.size]
  · rw [h.size]
    exact hr.size
  · rw [h.size]
    exact hr.pages

theorem sameTable_olock (s : State ω Unit) (h type : ℤ) : SameTable s (s.olock h type).1 := by
  rcases olock_cases s h type with heq | ⟨o, p, -, -, heq⟩
  · rw [heq]
    exact ⟨rfl, rfl, rfl⟩
  · rw [heq]
    exact ⟨rfl, rfl, rfl⟩

theorem sameTable_orel (s : State ω Unit) (o : ω) : SameTable s (s.orel o) := by
  unfold State.orel
  dsimp only
  split <;> exact ⟨rfl, rfl, rfl⟩

omit [DecidableEq ω] in
theorem hprotect_refers {h : ℕ} (hh : Refers s h o) :
    (s.hprotect h).1 = s.setSlot h (.used o true) := by
  obtain ⟨hlt, p, hp⟩ := hh
  have hlook : s.hlookup h = some (o, p) := by
    simp [State.hlookup, hp, hlt]
  simp [State.hprotect, State.setProtect, hlook]

omit [DecidableEq ω] in
theorem Gave.self {s' : State ω Unit} {h : ℕ} (hg : Gave s s' o h) : Refers s' h o :=
  (hg.refers h o).mpr (by simp)

end Room

section Calls

/-- No handle refers to the object. -/
def FreshIn (s : State ω Unit) (o : ω) : Prop := ∀ h, ¬ Refers s h o

theorem halloc_after (hr : Room k.handles (n + 1)) (hn : n < handlesPerPage) (o : ω) :
    ∃ h : ℕ, (halloc o).value k = h ∧ Gave k.handles ((halloc o).after k).handles o h ∧
      Room ((halloc o).after k).handles n := by
  obtain ⟨s', h, heq, hgave, hroom⟩ := halloc_room (o := o) hr hn
  refine ⟨h, ?_, ?_, ?_⟩
  · simp [Traced.value, halloc, heq]
  · simpa [Traced.after, halloc, heq] using hgave
  · simpa [Traced.after, halloc, heq] using hroom

theorem made_halloc (o : ω) : Keeps Kernel.made (halloc o) := by
  intro k
  unfold Traced.after halloc
  split <;> rfl

theorem mem_halloc (o : ω) : Keeps Kernel.mem (halloc o) := by
  intro k
  unfold Traced.after halloc
  split <;> rfl

/-- The objects that the call may create are new. -/
structure Fresh (w : World ω) (s : State ω Unit) : Prop where
  created : FreshIn s w.created
  peer : FreshIn s w.peer
  ne : w.created ≠ w.peer

/-- Whatever object `m` creates in state `k` satisfies `P`, if there is room for `n` handles. -/
def Hands (w : World ω) (n : ℕ) (P : ℤ → Kernel ω → ω → Prop) (m : M ω ℤ) (k : Kernel ω) : Prop :=
  Room k.handles n → Fresh w k.handles → ∀ x, x ∈ (m.after k).made → x ∉ k.made →
    P (m.value k) (m.after k) x

/-- One handle refers to the object, the one that is returned. -/
def OneHandle (rc : ℤ) (k : Kernel ω) (x : ω) : Prop :=
  ∃ h : ℕ, rc = h ∧ ∀ j, Refers k.handles j x ↔ j = h

variable {P : ℤ → Kernel ω → ω → Prop}

omit [DecidableEq ω] in
theorem lockAll_after (ls : List Lock) (k : Kernel ω) :
    ((lockAll w ls).after k).handles = k.handles ∧ ((lockAll w ls).after k).made = k.made ∧
      ((lockAll w ls).after k).mem = k.mem := by
  have hlock (l : Lock) (k : Kernel ω) : ((l.code w).after k).handles = k.handles ∧
      ((l.code w).after k).made = k.made ∧ ((l.code w).after k).mem = k.mem := by
    cases l with
    | string s =>
      by_cases hs : s = 0 <;> simp [Traced.after, Lock.code, lockString, hs]
    | buffer | iovec | fdset => exact ⟨rfl, rfl, rfl⟩
  induction ls generalizing k with
  | nil => exact ⟨rfl, rfl, rfl⟩
  | cons l ls ih =>
    obtain ⟨h₁, h₂, h₃⟩ := hlock l k
    rw [lockAll, after_bind]
    split
    · exact ⟨h₁, h₂, h₃⟩
    · obtain ⟨h₁', h₂', h₃'⟩ := ih ((l.code w).after k)
      exact ⟨h₁'.trans h₁, h₂'.trans h₂, h₃'.trans h₃⟩

omit [DecidableEq ω] in
theorem hands_guarded (ls : List Lock) {body : M ω ℤ} (h : ∀ k, Hands w n P body k) (k : Kernel ω) :
    Hands w n P (guarded w ls body) k := by
  intro hr hf x
  obtain ⟨hh, hm, -⟩ := lockAll_after (w := w) ls k
  rw [guarded, after_bind, value_bind]
  split
  · intro hx hnot
    exact h _ (by rwa [hh]) (by rwa [hh]) x hx (by rwa [hm])
  · intro hx hnot
    rw [after_pure, hm] at hx
    exact absurd hx hnot

/-- What is known of the table and of user memory is still known when an object is released. -/
def Steady (P : ℤ → Kernel ω → ω → Prop) : Prop :=
  ∀ rc k k' x, SameTable k.handles k'.handles → P rc k x → P rc k' x

omit [DecidableEq ω] in
theorem Fresh.congr {s' : State ω Unit} (h : Fresh w s) (hs : SameTable s s') : Fresh w s' :=
  ⟨fun j hj => h.created j ((hs.refers j _).mp hj), fun j hj => h.peer j ((hs.refers j _).mp hj),
    h.ne⟩

theorem hands_withObject (hP : Steady P) (h : UInt32) (type : ℤ) {body : ω → M ω ℤ}
    (hb : ∀ o k, (∃ j, Refers k.handles j o) → Hands w n P (body o) k) (k : Kernel ω) :
    Hands w n P (withObject h type body) k := by
  intro hr hf x
  have hsame := sameTable_olock k.handles (asInt h) type
  rw [withObject, after_bind, value_bind]
  cases hv : (olock h type).value k with
  | none => exact fun hx hnot => absurd hx hnot
  | some o =>
    have hrefers : ∃ j, Refers ((olock h type).after k).handles j o := by
      change (k.handles.olock (asInt h) type).2 = some o at hv
      rcases olock_cases k.handles (asInt h) type with heq | ⟨o', p, hlook, -, heq⟩
      · rw [heq] at hv
        exact absurd hv (by simp)
      · have hfound := heq ▸ hv
        obtain rfl := Option.some.inj hfound
        obtain ⟨-, hlt, hslot⟩ := hlookup_some hlook
        exact ⟨_, (hsame.refers _ _).mpr ⟨hlt, p, hslot⟩⟩
    intro hx hnot
    have hbody := hb o ((olock h type).after k) hrefers (hsame.room hr) (hf.congr hsame) x hx hnot
    exact hP _ _ _ _ (sameTable_orel _ o) hbody

omit [DecidableEq ω] in
theorem steady_oneHandle : Steady (OneHandle (ω := ω)) := by
  rintro rc k k' x hs ⟨h, hrc, hrefers⟩
  refine ⟨h, hrc, fun j => ?_⟩
  rw [hs.refers, hrefers]

theorem oneHandle_hallocOrClose (hr : Room k.handles 1) (hf : FreshIn k.handles w.created) :
    OneHandle ((hallocOrClose w 0).value k) ((hallocOrClose w 0).after k) w.created := by
  obtain ⟨h, hval, hgave, -⟩ := halloc_after hr (by decide) w.created
  have hnn : ¬ (h : ℤ) < 0 := by omega
  refine ⟨h, ?_, fun j => ?_⟩
  · rw [hallocOrClose, if_pos rfl, value_bind, hval, if_neg hnn, value_pure]
  · rw [hallocOrClose, if_pos rfl, after_bind, hval, if_neg hnn, after_pure, hgave.refers]
    by_cases hj : j = h
    · simp [hj]
    · simp [hf j]

theorem made_hallocOrClose (rc : ℤ) : Keeps Kernel.made (hallocOrClose w rc) := by
  unfold hallocOrClose
  split
  · refine (made_halloc _).bind fun h => ?_
    split
    · exact Keeps.bind (fun _ => rfl) fun _ => keeps_pure
    · exact keeps_pure
  · exact keeps_pure

theorem hands_open (hw : w.Tame) {f : KernelFn} (hp : f.plain = true)
    (hmakes : ∀ rc, w.makes f rc = if rc = 0 then [w.created] else []) (objs : List ω)
    (l : List UInt32) (k : Kernel ω) :
    Hands w 1 OneHandle (do let rc ← call w f objs l; hallocOrClose w rc) k := by
  intro hr hf x
  have hval : (call w f objs l).value k = w.result f objs l := rfl
  have hmade : ((call w f objs l).after k).made = w.makes f (w.result f objs l) ++ k.made := rfl
  rw [after_bind, value_bind, made_hallocOrClose, hval, hmade, hmakes]
  split
  · next hrc =>
    intro hx hnot
    obtain rfl : x = w.created := by simpa [hnot] using hx
    have hsame := stays_call hw hp objs l k
    rw [hrc]
    exact oneHandle_hallocOrClose (by rwa [hsame]) (by rw [hsame]; exact hf.created)
  · exact fun hx hnot => absurd (by simpa using hx) hnot

theorem hands_sysMake (hw : w.Tame) {init : KernelFn} (hp : init.plain = true)
    (hc : init.creates = false) (words : ℕ) (a : ℕ → UInt32) (k : Kernel ω) :
    Hands w 1 OneHandle ((sysMake w init words).body a) k := by
  intro hr hf x
  have hcall := stays_call hw (f := .kmalloc) rfl [] [] k
  unfold sysMake
  have hval : (call w .kmalloc [] []).value k = w.result .kmalloc [] [] := rfl
  rw [after_bind, value_bind, hval]
  split
  · next hz =>
    intro hx hnot
    change x ∈ w.makes .kmalloc (w.result .kmalloc [] []) ++ k.made at hx
    rw [hz] at hx
    exact absurd hx hnot
  · next hz =>
    have hmade : ((call w .kmalloc [] []).after k).made = w.created :: k.made := by
      change (if w.result .kmalloc [] [] = 0 then [] else [w.created]) ++ k.made = _
      rw [if_neg hz]
      rfl
    have hinit := stays_call hw hp [w.created] [a 0, a 1] ((call w .kmalloc [] []).after k)
    have hmade' := (still_call (w := w) hc [w.created] [a 0, a 1] ((call w .kmalloc [] []).after k)).2
    rw [after_bind, value_bind, made_hallocOrClose, hmade', hmade]
    intro hx hnot
    obtain rfl : x = w.created := by simpa [hnot] using hx
    exact oneHandle_hallocOrClose (by rwa [hinit, hcall]) (by rw [hinit, hcall]; exact hf.created)

/-- The object is referred to by a protected handle of the kernel. -/
def OwnHandle (_rc : ℤ) (k : Kernel ω) (x : ω) : Prop :=
  ∃ own, k.handles.htab own = .used x true ∧ ∀ j, Refers k.handles j x ↔ j = own

/-- The object is referred to by a protected handle of the kernel and by the handle returned. -/
def TwoHandles (rc : ℤ) (k : Kernel ω) (x : ω) : Prop :=
  ∃ own h : ℕ, rc = h ∧ own ≠ h ∧ k.handles.htab own = .used x true ∧
    ∀ j, Refers k.handles j x ↔ j = own ∨ j = h

section
omit [DecidableEq ω]

theorem steady_ownHandle : Steady (OwnHandle (ω := ω)) := by
  rintro rc k k' x hs ⟨own, hslot, hrefers⟩
  refine ⟨own, by rw [hs.htab, hslot], fun j => ?_⟩
  rw [hs.refers, hrefers]

theorem refers_protect {h : ℕ} (hh : Refers s h o) (j : ℕ) (x : ω) :
    Refers (s.setSlot h (.used o true)) j x ↔ Refers s j x := by
  obtain ⟨hlt, p, hp⟩ := hh
  by_cases hj : j = h
  · subst hj
    simp [Refers, State.setSlot, hlt, hp]
  · simp [Refers, State.setSlot, hj]

theorem Room.protect {h : ℕ} (hr : Room s n) (hh : Refers s h o) :
    Room (s.setSlot h (.used o true)) n := by
  obtain ⟨fl, ht, hroom⟩ := hr.table
  obtain ⟨-, p, hp⟩ := hh
  exact ⟨⟨fl, ht.reuse hp o true, hroom⟩, hr.size, hr.pages⟩

theorem twoHandles_halloc {s' s'' : State ω Unit} {own h : ℕ} (hf : FreshIn s o)
    (hown : Gave s s' o own) (hh : Gave (s'.setSlot own (.used o true)) s'' o h) :
    own ≠ h ∧ s''.htab own = .used o true ∧ ∀ j, Refers s'' j o ↔ j = own ∨ j = h := by
  have hrefers := hown.self
  have hne : own ≠ h := by
    rintro rfl
    exact hh.free o ((refers_protect hrefers own o).mpr hrefers)
  refine ⟨hne, ?_, fun j => ?_⟩
  · rw [hh.keep own hrefers.1 hne]
    simp [State.setSlot]
  · rw [hh.refers, refers_protect hrefers, hown.refers]
    by_cases hj : j = h
    · simp [hj]
    · by_cases hj' : j = own
      · simp [hj', hne]
      · simp [hj, hj', hf j]

theorem hprotect_after {h : ℕ} (hh : Refers k.handles h o) :
    ((hprotect (h : ℤ)).after k).handles = k.handles.setSlot h (.used o true) :=
  hprotect_refers hh

end

theorem hands_sysMkthread (hw : w.Tame) (a : ℕ → UInt32) (k : Kernel ω) :
    Hands w 2 TwoHandles ((sysMkthread w).body a) k := by
  unfold sysMkthread
  dsimp only
  split
  · exact fun hr hf x hx hnot => absurd hx hnot
  refine hands_guarded _ (fun k => ?_) k
  intro hr hf x
  have hsame := stays_call hw (f := .createThread) rfl [] [a 0, a 1, a 2] k
  have hval : (call w .createThread [] [a 0, a 1, a 2]).value k =
      w.result .createThread [] [a 0, a 1, a 2] := rfl
  have hmade : ((call w .createThread [] [a 0, a 1, a 2]).after k).made =
      (if w.result .createThread [] [a 0, a 1, a 2] < 0 then [] else [w.created]) ++ k.made := rfl
  rw [after_bind, value_bind, createUserThread, after_bind, value_bind, hval]
  set k₁ := (call w .createThread [] [a 0, a 1, a 2]).after k
  by_cases hrc : w.result .createThread [] [a 0, a 1, a 2] < 0
  · rw [if_pos hrc, value_pure, after_pure, if_pos hrc, after_pure, hmade, if_pos hrc]
    exact fun hx hnot => absurd hx hnot
  · obtain ⟨own, hvown, hgown, hroom⟩ := halloc_after (by rwa [hsame])
      (by decide) w.created
    have hprot := hprotect_after hgown.self
    have hroom' : Room ((hprotect (own : ℤ)).after ((halloc w.created).after k₁)).handles 1 := by
      rw [hprot]
      exact hroom.protect hgown.self
    obtain ⟨h, hvh, hgh, -⟩ := halloc_after hroom' (by decide) w.created
    have hnn : ¬ (h : ℤ) < 0 := by omega
    rw [hprot] at hgh
    have htwo := twoHandles_halloc (by rw [hsame]; exact hf.created) hgown hgh
    simp only [if_neg hrc, after_bind, value_bind, after_pure, value_pure, hvown, lt_irrefl,
      if_false, hvh, hnn]
    have hmade' : ((halloc w.created).after ((hprotect (own : ℤ)).after
        ((halloc w.created).after k₁))).made = w.created :: k.made := by
      rw [made_halloc]
      change ((halloc w.created).after k₁).made = _
      rw [made_halloc, hmade, if_neg hrc]
      rfl
    split
    all_goals
      intro hx hnot
      obtain rfl : x = w.created := by
        have hmem : x ∈ w.created :: k.made := hmade' ▸ hx
        simpa [hnot] using hmem
      exact ⟨own, h, rfl, htwo⟩

omit [DecidableEq ω] in
theorem ownHandle_vmmap {f x : ω} {self file : ℕ} {s' : State ω Unit} {rc : ℤ} (hf : FreshIn s x)
    (hne : f ≠ x) (hself : Gave s s' x self) (hfile : Gave s' k.handles f file) :
    OwnHandle rc ((hprotect (file : ℤ)).after ((hprotect (self : ℤ)).after k)) x := by
  have hapart : self ≠ file := by
    rintro rfl
    exact hfile.free x hself.self
  have hrefers : Refers k.handles self x := by
    rw [hfile.refers, if_neg hapart]
    exact hself.self
  have hprot := hprotect_after hrefers
  have hrefers' : Refers ((hprotect (self : ℤ)).after k).handles file f := by
    rw [hprot, refers_protect hrefers]
    exact hfile.self
  have hprot' := hprotect_after hrefers'
  refine ⟨self, ?_, fun j => ?_⟩
  · rw [hprot', hprot]
    simp [State.setSlot, hapart]
  · rw [hprot', refers_protect hrefers', hprot, refers_protect hrefers, hfile.refers]
    by_cases hj : j = file
    · simp [hj, hne.symm, hapart.symm]
    · rw [if_neg hj, hself.refers]
      by_cases hj' : j = self
      · simp [hj']
      · simp [hj', hf j]

theorem hands_sysVmmap (hw : w.Tame) (a : ℕ → UInt32) (k : Kernel ω) :
    Hands w 2 OwnHandle ((sysVmmap w).body a) k := by
  refine hands_withObject steady_ownHandle _ _ (fun f k hfile => ?_) k
  intro hr hf x
  have hsame := stays_call hw (f := .vmmap) rfl [f] [a 0, a 1, a 2, a 4, a 5] k
  have hval : (call w .vmmap [f] [a 0, a 1, a 2, a 4, a 5]).value k =
      w.result .vmmap [f] [a 0, a 1, a 2, a 4, a 5] := rfl
  have hmade : ((call w .vmmap [f] [a 0, a 1, a 2, a 4, a 5]).after k).made =
      (if w.result .vmmap [f] [a 0, a 1, a 2, a 4, a 5] = 0 then [] else [w.created]) ++ k.made := rfl
  rw [after_bind, vmmap, after_bind, value_bind, hval]
  set k₁ := (call w .vmmap [f] [a 0, a 1, a 2, a 4, a 5]).after k
  by_cases hz : w.result .vmmap [f] [a 0, a 1, a 2, a 4, a 5] = 0
  · rw [if_pos hz]
    change x ∈ k₁.made → _
    rw [hmade, if_pos hz]
    exact fun hx hnot => absurd hx hnot
  · obtain ⟨self, hvself, hgself, hroom⟩ := halloc_after (by rwa [hsame])
      (by decide) w.created
    obtain ⟨file, hvfile, hgfile, -⟩ := halloc_after hroom (by decide) f
    have hmade' : ((halloc f).after ((halloc w.created).after k₁)).made = w.created :: k.made := by
      rw [made_halloc, made_halloc, hmade, if_neg hz]
      rfl
    have hnn : ¬ ((self : ℤ) < 0 ∨ (file : ℤ) < 0) := by omega
    simp only [after_bind, value_bind, hvself, hvfile, if_neg hnn, value_pure, if_neg hz]
    intro hx hnot
    obtain rfl : x = w.created := by
      have hmem : x ∈ w.created :: k.made := hmade' ▸ hx
      simpa [hnot] using hmem
    have hne : f ≠ w.created := by
      rintro rfl
      obtain ⟨j, hj⟩ := hfile
      exact hf.created j hj
    exact ownHandle_vmmap (by rw [hsame]; exact hf.created) hne hgself hgfile

/-- Each end of the pipe is referred to by its handle in the array. -/
def PipeHandles (w : World ω) (fildes : UInt32) (_rc : ℤ) (k : Kernel ω) (x : ω) : Prop :=
  ∃ h : ℕ, asInt (k.mem (if x = w.created then fildes else fildes + 4)) = h ∧
    ∀ j, Refers k.handles j x ↔ j = h

section
omit [DecidableEq ω]

theorem store_handles (addr v : UInt32) (k : Kernel ω) :
    ((store addr v).after k).handles = k.handles := rfl

theorem store_made (addr v : UInt32) (k : Kernel ω) : ((store addr v).after k).made = k.made := rfl

theorem store_mem (addr v : UInt32) (k : Kernel ω) :
    ((store addr v).after k).mem = Function.update k.mem addr v := rfl

theorem load_value (addr : UInt32) (k : Kernel ω) : (load addr).value k = k.mem addr := rfl

theorem load_after (addr : UInt32) (k : Kernel ω) : (load addr).after k = k := rfl

end

theorem asInt_handle {h : ℕ} (hh : h < htabLimit) : asInt (UInt32.ofInt h) = h := by
  have hsmall : h < 2 ^ 31 := by
    rw [htabLimit] at hh
    omega
  have hnat : (UInt32.ofInt (h : ℤ)).toNat = h := by
    change (UInt32.ofNat (((h : ℤ) % 2 ^ 32).toNat)).toNat = h
    rw [Mem.toNat_ofNat (by omega)]
    omega
  rw [asInt_eq, hnat, if_pos hsmall]

theorem hands_sysPipe (hw : w.Tame) (a : ℕ → UInt32) (k : Kernel ω) :
    Hands w 2 (PipeHandles w (a 0)) ((sysPipe w).body a) k := by
  refine hands_guarded _ (fun k => ?_) k
  intro hr hf x
  have hsame := stays_call hw (f := .pipe) rfl [] [] k
  have hval : (call w .pipe [] []).value k = w.result .pipe [] [] := rfl
  have hmade : ((call w .pipe [] []).after k).made =
      (if w.result .pipe [] [] = 0 then [w.created, w.peer] else []) ++ k.made := rfl
  rw [after_bind, hval]
  set k₁ := (call w .pipe [] []).after k
  by_cases hz : w.result .pipe [] [] = 0
  swap
  · rw [if_neg hz, after_pure, hmade, if_neg hz]
    exact fun hx hnot => absurd hx hnot
  obtain ⟨h0, hv0, hg0, hroom⟩ := halloc_after (by rwa [hsame]) (by decide)
    w.created
  set k₂ := (store (a 0) (UInt32.ofInt h0)).after ((halloc w.created).after k₁) with hk₂
  have hk₂h : k₂.handles = ((halloc w.created).after k₁).handles := store_handles ..
  obtain ⟨h1, hv1, hg1, -⟩ := halloc_after (by rwa [hk₂h]) (by decide) w.peer
  set k₃ := (store (a 0 + 4) (UInt32.ofInt h1)).after ((halloc w.peer).after k₂) with hk₃
  have hmem0 : k₃.mem (a 0) = UInt32.ofInt h0 := by
    have hne : a 0 ≠ a 0 + 4 := by
      intro heq
      have hnat := congrArg UInt32.toNat heq
      rw [UInt32.toNat_add] at hnat
      change _ = (_ + 4) % 2 ^ 32 at hnat
      omega
    rw [store_mem, Function.update_of_ne hne, mem_halloc, store_mem, Function.update_self]
  have hmem1 : k₃.mem (a 0 + 4) = UInt32.ofInt h1 := by
    rw [store_mem, Function.update_self]
  have hmade' : k₃.made = w.created :: w.peer :: k.made := by
    rw [store_made, made_halloc, store_made, made_halloc, hmade, if_pos hz]
    rfl
  have hs0 := asInt_handle hg0.lt
  have hs1 := asInt_handle hg1.lt
  have hnn : ¬ (asInt (UInt32.ofInt h0) < 0 ∨ asInt (UInt32.ofInt h1) < 0) := by
    omega
  rw [if_pos hz, after_bind, hv0, after_bind, after_bind, hv1, after_bind, after_bind, load_after, load_value, hmem0,
    after_bind, load_after, load_value, hmem1, if_neg hnn, after_pure]
  intro hx hnot
  have hmem : x ∈ w.created :: w.peer :: k.made := hmade' ▸ hx
  have hfresh0 : FreshIn k₁.handles w.created := by rw [hsame]; exact hf.created
  have hfresh1 : FreshIn k₁.handles w.peer := by rw [hsame]; exact hf.peer
  have hhandles (j : ℕ) (y : ω) : Refers k₃.handles j y ↔
      if j = h1 then y = w.peer else if j = h0 then y = w.created else Refers k₁.handles j y := by
    rw [store_handles, hg1.refers, hk₂h, hg0.refers]
  have hne : h0 ≠ h1 := by
    rintro rfl
    exact hg1.free w.created (by exact hg0.self)
  have hwne := hf.ne
  rcases List.mem_cons.mp hmem with rfl | hmem
  · refine ⟨h0, by rw [if_pos rfl, hmem0, hs0], fun j => ?_⟩
    rw [hhandles]
    by_cases hj : j = h1
    · simp [hj, hwne, hne.symm]
    · by_cases hj' : j = h0
      · simp [hj', hne]
      · simp [hj, hfresh0 j]
  · obtain rfl : x = w.peer := by simpa [hnot] using hmem
    refine ⟨h1, by rw [if_neg hwne.symm, hmem1, hs1], fun j => ?_⟩
    rw [hhandles]
    by_cases hj : j = h1
    · simp [hj]
    · by_cases hj' : j = h0
      · simp [hj', hwne.symm]
      · simp [hj', hfresh1 j]

end Calls

end SimpleKernel.Syscall
