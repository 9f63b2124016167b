import SimpleKernel.Lib.EarlyExit
import SimpleKernel.Mem.Range

/-! File maps in `vmsync` and `vmfree` (`vmm.c`), the lock that each of them is (`object.c`), and when the functions
return with a file map still locked. -/
namespace SimpleKernel.Mem.FileMaps
open Function (update update_of_ne update_self)

def EBADF : ℤ := 9

/-- Who holds a file map: the thread that runs the function, or a thread to which it was handed. -/
inductive Holder
  | caller
  | waiter (thread : ℕ)
  deriving DecidableEq

structure Waiter where
  thread : ℕ
  ready : Bool
  deriving DecidableEq

/-- `struct filemap`. The holder is not a field of the source; `closed` says that `hfree` has closed it. -/
structure Filemap where
  signaled : Bool
  waitlist : List Waiter
  holder : Option Holder
  closed : Bool
  addr : UInt32
  size : UInt32
  pages : ℤ

/-- The entry of a page: whether there is a page table, the flags, and the handle of a file map: the owner of the
page frame when the page is present, else the page frame number in the entry. -/
structure Page where
  directory : Bool
  file : Bool
  present : Bool
  dirty : Bool
  handle : ℕ

/-- What the calls return that depend on other parts of the system. All but `hlookup` are given by the page at which
they are made; the free of the last file map counts as made behind the last page. -/
structure World where
  hlookup : ℕ → ℕ
  wait : ℕ → ℤ
  olock : ℕ → Bool
  pwrite : ℕ → ℤ
  hfreeFile : ℕ → ℤ
  hfreeSelf : ℕ → ℤ

/-- The address space map, the pages of the range, the file maps, and those that `wait_for_object` has locked. -/
structure State where
  vmap : Rmap
  page : ℕ → Page
  map : ℕ → Filemap
  locked : List ℕ

/-- `unlock_filemap`. -/
def Filemap.unlock (m : Filemap) : Filemap :=
  match m.waitlist.find? Waiter.ready with
  | none => { m with signaled := true, holder := none }
  | some wb => { m with signaled := false, holder := some (.waiter wb.thread), waitlist := m.waitlist.erase wb }

def State.unlock (s : State) (fm : ℕ) : State := { s with map := Function.update s.map fm (s.map fm).unlock }

/-- `free_filemap`, made at page `i`. -/
def State.freeFilemap (w : World) (i : ℕ) (s : State) (fm : ℕ) : State × ℤ :=
  if w.hfreeFile i < 0 then (s, w.hfreeFile i)
  else
    let s := { s with vmap := s.vmap.rmapFree (btop (s.map fm).addr) (pages (s.map fm).size) }
    if w.hfreeSelf i < 0 then (s, w.hfreeSelf i)
    else ({ s with map := Function.update s.map fm { s.map fm with closed := true } }, 0)

/-- A `wait_for_object` that succeeds. -/
def State.lock (s : State) (fm : ℕ) : State :=
  { s with
    map := Function.update s.map fm { s.map fm with signaled := false, holder := some .caller }
    locked := fm :: s.locked }

/-- The file map that is locked, if there is one, is left. -/
def leaveLocked (leave : State → ℕ → State × ℤ) (p : State × Option ℕ) : State × ℤ :=
  match p.2 with
  | none => (p.1, 0)
  | some fm => leave p.1 fm

/-- A file map that is not the one locked so far: that one is left, and the new one is waited for. -/
def switchTo (leave : State → ℕ → State × ℤ) (w : World) (i newfm : ℕ) (p : State × Option ℕ) :
    Except (State × ℤ) (State × Option ℕ) :=
  if p.2 = some newfm then .ok p
  else
    let r := leaveLocked leave p
    if r.2 < 0 then .error r
    else if w.wait i < 0 then .error (r.1, w.wait i)
    else .ok (r.1.lock newfm, some newfm)

def saveFilePage (w : World) (i : ℕ) (s : State) : State × ℤ :=
  if !w.olock i then (s, -EBADF)
  else if w.pwrite i < 0 then (s, w.pwrite i)
  else ({ s with page := Function.update s.page i { s.page i with dirty := false } }, 0)

/-- The loop body of `vmsync`. -/
def syncPage (w : World) (i : ℕ) (p : State × Option ℕ) : Except (State × ℤ) (State × Option ℕ) :=
  let pte := p.1.page i
  if pte.directory && (pte.file && pte.present && pte.dirty) then do
    let p ← switchTo (fun s fm => (s.unlock fm, 0)) w i (w.hlookup pte.handle) p
    let r := saveFilePage w i p.1
    if r.2 < 0 then .error r else .ok (r.1, p.2)
  else .ok p

/-- What `vmfree` does with a file map that it leaves. -/
def leaveFree (w : World) (i : ℕ) (s : State) (fm : ℕ) : State × ℤ :=
  if (s.map fm).pages = 0 then s.freeFilemap w i fm else (s.unlock fm, 0)

def State.unmapPage (s : State) (i : ℕ) : State :=
  { s with page := Function.update s.page i { s.page i with file := false, present := false, dirty := false, handle := 0 } }

/-- The loop body of `vmfree`. -/
def freePage (w : World) (i : ℕ) (p : State × Option ℕ) : Except (State × ℤ) (State × Option ℕ) :=
  let pte := p.1.page i
  if pte.directory then
    if pte.file then do
      let newfm := w.hlookup pte.handle
      let p ← switchTo (leaveFree w i) w i newfm p
      let s := { p.1 with map := Function.update p.1.map newfm { p.1.map newfm with pages := (p.1.map newfm).pages - 1 } }
      .ok (s.unmapPage i, p.2)
    else if pte.present then .ok (p.1.unmapPage i, p.2)
    else .ok p
  else .ok p

/-- `vmsync`: the state and the return code. -/
def vmsync (w : World) (s : State) (addr size : UInt32) : State × ℤ :=
  if size = 0 then (s, 0)
  else if !validRange s.vmap (pageAddr addr) size then (s, -EINVAL)
  else
    match countLoop (syncPage w) (pages size).toNat 0 (s, none) with
    | .error r => r
    | .ok (s, none) => (s, 0)
    | .ok (s, some fm) => (s.unlock fm, 0)

def vmfree (w : World) (s : State) (addr size type : UInt32) : State × ℤ :=
  if size = 0 then (s, 0)
  else if !validRange s.vmap (pageAddr addr) size then (s, -EINVAL)
  else
    let n := (pages size).toNat
    let loop := if type &&& (memDecommit ||| memRelease) ≠ 0 then countLoop (freePage w) n 0 (s, none) else .ok (s, none)
    match loop with
    | .error r => r
    | .ok (s, some fm) => leaveFree w n s fm
    | .ok (s, none) =>
      if type &&& memRelease ≠ 0 then
        ({ s with vmap := s.vmap.rmapFree (btop (pageAddr addr)) (pages size) }, 0)
      else (s, 0)

/-- The file map is signaled, was handed to a waiter, or is closed. -/
def Unlocked (m : Filemap) : Prop := m.closed = true ∨ m.signaled = true ∨ ∃ t, m.holder = some (.waiter t)

/-- Every file map that was locked has been unlocked or freed. -/
def Released (s : State) : Prop := ∀ fm ∈ s.locked, Unlocked (s.map fm)

/-- The last file map that the pages before a page have; `f` says which file map a page has. -/
def last (f : ℕ → Option ℕ) : ℕ → Option ℕ
  | 0 => none
  | i + 1 => (f i).or (last f i)

/-- How many of the pages before a page have the file map `fm`. -/
def count (f : ℕ → Option ℕ) (fm : ℕ) : ℕ → ℕ
  | 0 => 0
  | i + 1 => count f fm i + if f i = some fm then 1 else 0

/-- A page whose file map is not the one before. -/
def Switch (f : ℕ → Option ℕ) (i : ℕ) : Prop := ∃ fm, f i = some fm ∧ last f i ≠ some fm

/-- The waits for file maps at the pages before a page succeed. -/
def Waited (w : World) (f : ℕ → Option ℕ) (i : ℕ) : Prop := ∀ j < i, Switch f j → 0 ≤ w.wait j

/-- The file map of a page that `vmsync` saves. -/
def syncMap (w : World) (s : State) (i : ℕ) : Option ℕ :=
  let pte := s.page i
  if pte.directory && (pte.file && pte.present && pte.dirty) then some (w.hlookup pte.handle) else none

/-- The file map of a page that `vmfree` unmaps. -/
def freeMap (w : World) (s : State) (i : ℕ) : Option ℕ :=
  let pte := s.page i
  if pte.directory && pte.file then some (w.hlookup pte.handle) else none

/-- Every page that `vmsync` comes to is saved. -/
def Saved (w : World) (s : State) (n : ℕ) : Prop :=
  ∀ i < n, (syncMap w s i).isSome → Waited w (syncMap w s) (i + 1) → w.olock i = true ∧ 0 ≤ w.pwrite i

/-- Every file map without pages that `vmfree` comes to leave is freed. -/
def Freed (w : World) (s : State) (n : ℕ) : Prop :=
  ∀ i ≤ n, i = n ∨ Switch (freeMap w s) i → Waited w (freeMap w s) i → ∀ fm, last (freeMap w s) i = some fm →
    (s.map fm).pages = count (freeMap w s) fm i → 0 ≤ w.hfreeFile i ∧ 0 ≤ w.hfreeSelf i

/-- The pages have file maps that are not closed, and `pages` of a file map counts its pages. -/
def Mapped (w : World) (s : State) (n : ℕ) : Prop :=
  ∀ i < n, ∀ fm, freeMap w s i = some fm → (s.map fm).closed = false ∧ count (freeMap w s) fm n ≤ (s.map fm).pages

variable {w : World} {s s₀ : State} {fm newfm : ℕ} {cur : Option ℕ} {f : ℕ → Option ℕ} {i j n : ℕ}

theorem count_mono (hij : i ≤ j) : count f fm i ≤ count f fm j := by
  induction j with
  | zero =>
    obtain rfl : i = 0 := by omega
    exact le_rfl
  | succ j ih =>
    rcases Nat.lt_or_ge j i with h | h
    · obtain rfl : i = j + 1 := by omega
      exact le_rfl
    · exact Nat.le_trans (ih h) (Nat.le_add_right _ _)

theorem Waited.mono (h : Waited w f j) (hij : i ≤ j) : Waited w f i := fun k hk => h k (by omega)

theorem Waited.succ (h : Waited w f i) (hi : Switch f i → 0 ≤ w.wait i) : Waited w f (i + 1) := by
  intro k hk hs
  rcases Nat.lt_succ_iff_lt_or_eq.1 hk with hk | rfl
  · exact h k hk hs
  · exact hi hs

theorem unlocked_unlock (m : Filemap) : Unlocked m.unlock := by
  unfold Filemap.unlock
  cases m.waitlist.find? Waiter.ready with
  | none => exact Or.inr (Or.inl rfl)
  | some wb => exact Or.inr (Or.inr ⟨wb.thread, rfl⟩)

theorem closed_unlock (m : Filemap) : m.unlock.closed = m.closed := by
  unfold Filemap.unlock
  cases m.waitlist.find? Waiter.ready <;> rfl

theorem pages_unlock (m : Filemap) : m.unlock.pages = m.pages := by
  unfold Filemap.unlock
  cases m.waitlist.find? Waiter.ready <;> rfl

/-- Of the file maps that were locked, `cur` is the one that still is. -/
structure Holds (s : State) (cur : Option ℕ) : Prop where
  held : ∀ fm, cur = some fm → fm ∈ s.locked ∧ ¬ Unlocked (s.map fm)
  rest : ∀ fm ∈ s.locked, cur ≠ some fm → Unlocked (s.map fm)

theorem Holds.released (h : Holds s none) : Released s := fun fm hfm => h.rest fm hfm (by simp)

theorem Holds.not_released (h : Holds s (some fm)) : ¬ Released s := by
  intro hr
  obtain ⟨hmem, hlocked⟩ := h.held fm rfl
  exact hlocked (hr fm hmem)

theorem Holds.unlock (h : Holds s (some fm)) : Holds (s.unlock fm) none := by
  refine ⟨fun _ he => (nomatch he), ?_⟩
  intro m hm _
  unfold State.unlock
  dsimp only
  by_cases hfm : m = fm
  · rw [hfm, update_self]
    exact unlocked_unlock _
  · rw [update_of_ne hfm]
    exact h.rest m hm fun he => hfm (Option.some.inj he).symm

theorem Holds.lock (h : Holds s none) (hopen : (s.map fm).closed = false) : Holds (s.lock fm) (some fm) := by
  constructor
  · rintro m he
    obtain rfl := Option.some.inj he
    unfold State.lock Unlocked
    dsimp only
    rw [hopen]
    simp
  · intro m hm hne
    have hfm : m ≠ fm := fun he => hne (congrArg some he.symm)
    unfold State.lock
    dsimp only
    rw [update_of_ne hfm]
    exact h.rest m (List.mem_of_ne_of_mem hfm hm) (by simp)

theorem Holds.frame {s' : State} (h : Holds s cur) (hlocked : s'.locked = s.locked)
    (hmap : ∀ m, (s'.map m).closed = (s.map m).closed ∧ (s'.map m).signaled = (s.map m).signaled ∧
      (s'.map m).holder = (s.map m).holder) : Holds s' cur := by
  have hsame (m : ℕ) : Unlocked (s'.map m) ↔ Unlocked (s.map m) := by
    obtain ⟨hclosed, hsignaled, hholder⟩ := hmap m
    unfold Unlocked
    rw [hclosed, hsignaled, hholder]
  constructor
  · intro m he
    rw [hlocked, hsame]
    exact h.held m he
  · intro m hm hne
    rw [hsame]
    rw [hlocked] at hm
    exact h.rest m hm hne

theorem Holds.close (h : Holds s (some fm)) :
    Holds { s with map := update s.map fm { s.map fm with closed := true } } none := by
  refine ⟨fun _ he => (nomatch he), ?_⟩
  intro m hm _
  dsimp only
  by_cases hfm : m = fm
  · rw [hfm, update_self]
    exact Or.inl rfl
  · rw [update_of_ne hfm]
    exact h.rest m hm fun he => hfm (Option.some.inj he).symm

/-- The state before page `i` in the loop of `vmsync`. -/
structure SyncInv (w : World) (s₀ : State) (i : ℕ) (p : State × Option ℕ) : Prop where
  holds : Holds p.1 p.2
  last : p.2 = last (syncMap w s₀) i
  page : ∀ j, i ≤ j → p.1.page j = s₀.page j
  closed : ∀ fm, (p.1.map fm).closed = (s₀.map fm).closed
  waited : Waited w (syncMap w s₀) i
  saved : ∀ j < i, (syncMap w s₀ j).isSome → w.olock j = true ∧ 0 ≤ w.pwrite j

/-- How the loop of `vmsync` is left at page `i`: a wait fails, and nothing is locked, or a page cannot be saved. -/
def SyncExit (w : World) (s₀ : State) (i : ℕ) (e : State × ℤ) : Prop :=
  (Released e.1 ∧ ¬ Waited w (syncMap w s₀) (i + 1) ∧
    ∀ j < i, (syncMap w s₀ j).isSome → w.olock j = true ∧ 0 ≤ w.pwrite j) ∨
  (¬ Released e.1 ∧ Waited w (syncMap w s₀) (i + 1) ∧ (syncMap w s₀ i).isSome ∧
    ¬ (w.olock i = true ∧ 0 ≤ w.pwrite i))

theorem switchTo_same {leave : State → ℕ → State × ℤ} {p : State × Option ℕ} (h : p.2 = some newfm) :
    switchTo leave w i newfm p = .ok p := if_pos h

theorem switchTo_new {leave : State → ℕ → State × ℤ} {p : State × Option ℕ} {s' : State} (h : p.2 ≠ some newfm)
    (hleave : leaveLocked leave p = (s', 0)) :
    switchTo leave w i newfm p =
      if w.wait i < 0 then .error (s', w.wait i) else .ok (s'.lock newfm, some newfm) := by
  unfold switchTo
  rw [if_neg h]
  rw [hleave]
  rfl

theorem sync_leave {p : State × Option ℕ} (h : Holds p.1 p.2) :
    ∃ s', leaveLocked (fun s fm => (s.unlock fm, 0)) p = (s', 0) ∧ Holds s' none ∧ s'.page = p.1.page ∧
      ∀ m, (s'.map m).closed = (p.1.map m).closed := by
  obtain ⟨s, cur⟩ := p
  cases cur with
  | none => exact ⟨s, rfl, h, rfl, fun _ => rfl⟩
  | some fm =>
    refine ⟨s.unlock fm, rfl, h.unlock, rfl, ?_⟩
    intro m
    unfold State.unlock
    dsimp only
    by_cases hm : m = fm
    · rw [hm, update_self]
      exact closed_unlock _
    · rw [update_of_ne hm]

theorem last_succ_of_some (h : f i = some fm) : last f (i + 1) = some fm := by
  unfold last
  rw [h]
  rfl

theorem last_succ_of_none (h : f i = none) : last f (i + 1) = last f i := by
  rw [last, h]
  rfl

theorem closed_lock (m : ℕ) : ((s.lock fm).map m).closed = (s.map m).closed := by
  unfold State.lock
  dsimp only
  by_cases hm : m = fm
  · rw [hm, update_self]
  · rw [update_of_ne hm]

theorem saveFilePage_turn (hfm : syncMap w s₀ i = some fm) (hholds : Holds s (some fm))
    (hpage : ∀ j, i ≤ j → s.page j = s₀.page j) (hclosed : ∀ m, (s.map m).closed = (s₀.map m).closed)
    (hwaited : Waited w (syncMap w s₀) (i + 1))
    (hsaved : ∀ j < i, (syncMap w s₀ j).isSome → w.olock j = true ∧ 0 ≤ w.pwrite j) :
    Turn (SyncInv w s₀ (i + 1)) (SyncExit w s₀ i)
      (if (saveFilePage w i s).2 < 0 then .error (saveFilePage w i s) else .ok ((saveFilePage w i s).1, some fm)) := by
  have hsome : (syncMap w s₀ i).isSome := by rw [hfm]; rfl
  unfold saveFilePage
  by_cases holock : w.olock i = true
  · by_cases hwrite : w.pwrite i < 0
    · simp only [holock, Bool.not_true, Bool.false_eq_true, if_false, hwrite, if_true]
      exact Or.inr ⟨hholds.not_released, hwaited, hsome, fun h => by omega⟩
    · simp only [holock, Bool.not_true, Bool.false_eq_true, if_false, hwrite]
      constructor
      · exact hholds.frame rfl fun _ => ⟨rfl, rfl, rfl⟩
      · exact (last_succ_of_some hfm).symm
      · intro j hj
        dsimp only
        rw [update_of_ne (by omega)]
        exact hpage j (by omega)
      · exact hclosed
      · exact hwaited
      · intro j hj hjs
        rcases Nat.lt_succ_iff_lt_or_eq.1 hj with hj | rfl
        · exact hsaved j hj hjs
        · exact ⟨holock, by omega⟩
  · simp only [holock]
    exact Or.inr ⟨hholds.not_released, hwaited, hsome, fun h => holock h.1⟩

theorem syncPage_turn {p : State × Option ℕ} (hopen : ∀ fm, syncMap w s₀ i = some fm → (s₀.map fm).closed = false)
    (h : SyncInv w s₀ i p) : Turn (SyncInv w s₀ (i + 1)) (SyncExit w s₀ i) (syncPage w i p) := by
  have hpte := h.page i (Nat.le_refl i)
  unfold syncPage
  rw [hpte]
  by_cases hdirty : ((s₀.page i).directory && ((s₀.page i).file && (s₀.page i).present && (s₀.page i).dirty)) = true
  · have hfm : syncMap w s₀ i = some (w.hlookup (s₀.page i).handle) := if_pos hdirty
    rw [if_pos hdirty]
    generalize w.hlookup (s₀.page i).handle = fm at hfm
    by_cases hsame : p.2 = some fm
    · have hwaited : Waited w (syncMap w s₀) (i + 1) := by
        apply h.waited.succ
        rintro ⟨fm', hfm', hne⟩
        rw [hfm] at hfm'
        exact absurd (h.last.symm.trans (hsame.trans hfm')) hne
      rw [switchTo_same hsame]
      have hturn := saveFilePage_turn hfm (hsame ▸ h.holds) h.page h.closed hwaited h.saved
      simp only [Except.bind, bind, hsame]
      exact hturn
    · have hswitch : Switch (syncMap w s₀) i := ⟨fm, hfm, fun he => hsame (h.last.trans he)⟩
      obtain ⟨s', hleave, hholds, hpage, hclosed⟩ := sync_leave h.holds
      rw [switchTo_new hsame hleave]
      by_cases hwait : w.wait i < 0
      · rw [if_pos hwait]
        left
        refine ⟨hholds.released, fun hw => ?_, h.saved⟩
        have hpos := hw i (Nat.lt_succ_self i) hswitch
        omega
      · rw [if_neg hwait]
        have hopen' : (s'.map fm).closed = false := by
          rw [hclosed, h.closed]
          exact hopen fm hfm
        apply saveFilePage_turn hfm (hholds.lock hopen')
        · intro j hj
          rw [← h.page j hj, ← hpage]
          rfl
        · intro m
          rw [closed_lock, hclosed, h.closed]
        · exact h.waited.succ fun _ => by omega
        · exact h.saved
  · have hnone : syncMap w s₀ i = none := if_neg hdirty
    rw [if_neg hdirty]
    constructor
    · exact h.holds
    · rw [last_succ_of_none hnone]
      exact h.last
    · exact fun j hj => h.page j (by omega)
    · exact h.closed
    · apply h.waited.succ
      rintro ⟨fm, hfm, -⟩
      rw [hnone] at hfm
      nomatch hfm
    · intro j hj hjs
      rcases Nat.lt_succ_iff_lt_or_eq.1 hj with hj | rfl
      · exact h.saved j hj hjs
      · rw [hnone] at hjs
        nomatch hjs

theorem SyncInv.start (hlocked : s.locked = []) : SyncInv w s 0 (s, none) := by
  constructor
  · constructor
    · exact fun _ he => (nomatch he)
    · intro fm hfm
      rw [hlocked] at hfm
      nomatch hfm
  · rfl
  · exact fun _ _ => rfl
  · exact fun _ => rfl
  · exact fun j hj => absurd hj (Nat.not_lt_zero j)
  · exact fun j hj => absurd hj (Nat.not_lt_zero j)

theorem vmsync_released {addr size : UInt32} (hlocked : s.locked = [])
    (hopen : ∀ i < (pages size).toNat, ∀ fm, syncMap w s i = some fm → (s.map fm).closed = false)
    (haccept : size ≠ 0 ∧ validRange s.vmap (pageAddr addr) size = true) :
    Released (vmsync w s addr size).1 ↔ Saved w s (pages size).toNat := by
  obtain ⟨hsize, hvalid⟩ := haccept
  unfold vmsync
  rw [if_neg hsize, hvalid]
  have hturn (j : ℕ) (p : State × Option ℕ) (_ : 0 ≤ j) (hj : j < 0 + (pages size).toNat) (hp : SyncInv w s j p) :=
    syncPage_turn (hopen j (by omega)) hp
  have hloop := countLoop_spec hturn (SyncInv.start hlocked)
  rw [Nat.zero_add] at hloop
  cases hr : countLoop (syncPage w) (pages size).toNat 0 (s, none) with
  | error e =>
    rw [hr] at hloop
    obtain ⟨i, hi, hexit⟩ := hloop
    rcases hexit with ⟨hreleased, hwait, hsaved⟩ | ⟨hlost, hwaited, hsome, hfail⟩
    · refine ⟨fun _ j hj hjs hjw => ?_, fun _ => hreleased⟩
      rcases Nat.lt_or_ge j i with hji | hij
      · exact hsaved j hji hjs
      · exact absurd (hjw.mono (by omega)) hwait
    · refine ⟨fun h => absurd h hlost, fun h => absurd (h i hi hsome hwaited) hfail⟩
  | ok p =>
    rw [hr] at hloop
    obtain ⟨s', cur⟩ := p
    have hsaved : Saved w s (pages size).toNat := fun j hj hjs _ => hloop.saved j hj hjs
    cases cur with
    | none => exact ⟨fun _ => hsaved, fun _ => hloop.holds.released⟩
    | some fm => exact ⟨fun _ => hsaved, fun _ => hloop.holds.unlock.released⟩

/-- Both frees of `free_filemap` made at page `i` succeed. -/
def FreeOk (w : World) (i : ℕ) : Prop := 0 ≤ w.hfreeFile i ∧ 0 ≤ w.hfreeSelf i

/-- The state before page `i` in the loop of `vmfree`. -/
structure FreeInv (w : World) (s₀ : State) (i : ℕ) (p : State × Option ℕ) : Prop where
  holds : Holds p.1 p.2
  last : p.2 = last (freeMap w s₀) i
  page : ∀ j, i ≤ j → p.1.page j = s₀.page j
  pages : ∀ fm, (p.1.map fm).pages = (s₀.map fm).pages - count (freeMap w s₀) fm i
  closed : ∀ fm, (p.1.map fm).closed = true →
    (s₀.map fm).closed = true ∨ (s₀.map fm).pages = count (freeMap w s₀) fm i
  waited : Waited w (freeMap w s₀) i
  freed : ∀ j < i, Switch (freeMap w s₀) j → ∀ fm, FileMaps.last (freeMap w s₀) j = some fm →
    (s₀.map fm).pages = count (freeMap w s₀) fm j → FreeOk w j

/-- How the loop of `vmfree` is left at page `i`: a file map without pages is not freed, or a wait fails, and nothing is
locked. -/
def FreeExit (w : World) (s₀ : State) (i : ℕ) (e : State × ℤ) : Prop :=
  Switch (freeMap w s₀) i ∧ Waited w (freeMap w s₀) i ∧
    ((¬ Released e.1 ∧ ∃ fm, last (freeMap w s₀) i = some fm ∧
        (s₀.map fm).pages = count (freeMap w s₀) fm i ∧ ¬ FreeOk w i) ∨
      (Released e.1 ∧ w.wait i < 0 ∧ ∀ j ≤ i, Switch (freeMap w s₀) j → ∀ fm,
        last (freeMap w s₀) j = some fm → (s₀.map fm).pages = count (freeMap w s₀) fm j → FreeOk w j))

theorem leaveFree_cases (h : Holds s (some fm)) :
    ((leaveFree w i s fm).2 < 0 ∧ Holds (leaveFree w i s fm).1 (some fm) ∧ (s.map fm).pages = 0 ∧ ¬ FreeOk w i) ∨
    ∃ s', leaveFree w i s fm = (s', 0) ∧ Holds s' none ∧ s'.page = s.page ∧
      (∀ m, (s'.map m).pages = (s.map m).pages) ∧
      (∀ m, (s'.map m).closed = true → (s.map m).closed = true ∨ (s.map m).pages = 0) ∧
      ((s.map fm).pages = 0 → FreeOk w i) := by
  unfold leaveFree
  by_cases hpages : (s.map fm).pages = 0
  · rw [if_pos hpages]
    unfold State.freeFilemap
    by_cases hfile : w.hfreeFile i < 0
    · rw [if_pos hfile]
      refine Or.inl ⟨hfile, h, hpages, fun hok => ?_⟩
      have hpos := hok.1
      omega
    · rw [if_neg hfile]
      by_cases hself : w.hfreeSelf i < 0
      · rw [if_pos hself]
        refine Or.inl ⟨hself, h.frame rfl fun _ => ⟨rfl, rfl, rfl⟩, hpages, fun hok => ?_⟩
        have hpos := hok.2
        omega
      · rw [if_neg hself]
        refine Or.inr ⟨_, rfl, ?_, rfl, ?_, ?_, fun _ => ⟨by omega, by omega⟩⟩
        · exact h.close.frame rfl fun _ => ⟨rfl, rfl, rfl⟩
        · intro m
          dsimp only
          by_cases hm : m = fm
          · rw [hm, update_self]
          · rw [update_of_ne hm]
        · intro m hclosed
          dsimp only at hclosed
          by_cases hm : m = fm
          · rw [hm]
            exact Or.inr hpages
          · rw [update_of_ne hm] at hclosed
            exact Or.inl hclosed
  · rw [if_neg hpages]
    refine Or.inr ⟨_, rfl, h.unlock, rfl, ?_, ?_, fun hp => absurd hp hpages⟩
    · intro m
      unfold State.unlock
      dsimp only
      by_cases hm : m = fm
      · rw [hm, update_self, pages_unlock]
      · rw [update_of_ne hm]
    · intro m hclosed
      unfold State.unlock at hclosed
      dsimp only at hclosed
      by_cases hm : m = fm
      · rw [hm, update_self, closed_unlock] at hclosed
        rw [hm]
        exact Or.inl hclosed
      · rw [update_of_ne hm] at hclosed
        exact Or.inl hclosed

theorem free_leave {p : State × Option ℕ} (h : Holds p.1 p.2) :
    (∃ fm, p.2 = some fm ∧ (leaveLocked (leaveFree w i) p).2 < 0 ∧
      Holds (leaveLocked (leaveFree w i) p).1 (some fm) ∧ (p.1.map fm).pages = 0 ∧ ¬ FreeOk w i) ∨
    ∃ s', leaveLocked (leaveFree w i) p = (s', 0) ∧ Holds s' none ∧ s'.page = p.1.page ∧
      (∀ m, (s'.map m).pages = (p.1.map m).pages) ∧
      (∀ m, (s'.map m).closed = true → (p.1.map m).closed = true ∨ (p.1.map m).pages = 0) ∧
      ∀ fm, p.2 = some fm → (p.1.map fm).pages = 0 → FreeOk w i := by
  obtain ⟨s, cur⟩ := p
  cases cur with
  | none => exact Or.inr ⟨s, rfl, h, rfl, fun _ => rfl, fun _ => Or.inl, fun _ he => (nomatch he)⟩
  | some fm =>
    rcases leaveFree_cases h with hfail | ⟨s', hs', hholds, hpage, hpages, hclosed, hok⟩
    · exact Or.inl ⟨fm, rfl, hfail⟩
    · refine Or.inr ⟨s', hs', hholds, hpage, hpages, hclosed, ?_⟩
      rintro m he
      obtain rfl := Option.some.inj he
      exact hok

theorem FreeInv.unmap {p : State × Option ℕ} (hpages : ∀ m, (s.map m).pages = (s₀.map m).pages - count (freeMap w s₀) m i)
    (hfm : freeMap w s₀ i = some fm) (hholds : Holds s (some fm)) (hpage : ∀ j, i ≤ j → s.page j = s₀.page j)
    (hclosed : ∀ m, (s.map m).closed = true → (s₀.map m).closed = true ∨ (s₀.map m).pages = count (freeMap w s₀) m i)
    (hopen : (s.map fm).closed = false) (hwaited : Waited w (freeMap w s₀) (i + 1))
    (hfreed : ∀ j ≤ i, Switch (freeMap w s₀) j → ∀ m, FileMaps.last (freeMap w s₀) j = some m →
      (s₀.map m).pages = count (freeMap w s₀) m j → FreeOk w j)
    (hp : p = (State.unmapPage
      { s with map := update s.map fm { s.map fm with pages := (s.map fm).pages - 1 } } i, some fm)) :
    FreeInv w s₀ (i + 1) p := by
  obtain rfl := hp
  have hsame (m : ℕ) : ((update s.map fm { s.map fm with pages := (s.map fm).pages - 1 } : ℕ → Filemap) m).closed =
      (s.map m).closed ∧
      ((update s.map fm { s.map fm with pages := (s.map fm).pages - 1 } : ℕ → Filemap) m).signaled =
        (s.map m).signaled ∧
      ((update s.map fm { s.map fm with pages := (s.map fm).pages - 1 } : ℕ → Filemap) m).holder =
        (s.map m).holder := by
    by_cases hm : m = fm
    · rw [hm, update_self]
      exact ⟨rfl, rfl, rfl⟩
    · rw [update_of_ne hm]
      exact ⟨rfl, rfl, rfl⟩
  constructor
  · exact hholds.frame rfl hsame
  · exact (last_succ_of_some hfm).symm
  · intro j hj
    unfold State.unmapPage
    dsimp only
    rw [update_of_ne (by omega)]
    exact hpage j (by omega)
  · intro m
    have hcount := hpages m
    unfold State.unmapPage count
    dsimp only
    by_cases hm : m = fm
    · rw [hm, update_self, if_pos hfm]
      rw [hm] at hcount
      dsimp only
      omega
    · rw [update_of_ne hm, if_neg]
      · exact hcount
      · rw [hfm]
        exact fun he => hm (Option.some.inj he).symm
  · intro m hm
    have hclosed' : (s.map m).closed = true := by
      rw [← (hsame m).1]
      exact hm
    have hne : m ≠ fm := by
      rintro rfl
      rw [hopen] at hclosed'
      nomatch hclosed'
    unfold count
    rw [if_neg]
    · exact hclosed m hclosed'
    · rw [hfm]
      exact fun he => hne (Option.some.inj he).symm
  · exact hwaited
  · exact fun j hj => hfreed j (by omega)

theorem FreeInv.skip {p p' : State × Option ℕ} (h : FreeInv w s₀ i p) (hnone : freeMap w s₀ i = none)
    (hmap : p'.1.map = p.1.map) (hlocked : p'.1.locked = p.1.locked) (hcur : p'.2 = p.2)
    (hpage : ∀ j, i < j → p'.1.page j = p.1.page j) : FreeInv w s₀ (i + 1) p' := by
  have hcount (m : ℕ) : count (freeMap w s₀) m (i + 1) = count (freeMap w s₀) m i := by
    rw [count, hnone]
    rfl
  constructor
  · rw [hcur]
    exact h.holds.frame hlocked fun m => by rw [hmap]; exact ⟨rfl, rfl, rfl⟩
  · rw [last_succ_of_none hnone, hcur]
    exact h.last
  · intro j hj
    rw [hpage j (by omega)]
    exact h.page j (by omega)
  · intro m
    rw [hmap, hcount]
    exact h.pages m
  · intro m
    rw [hmap, hcount]
    exact h.closed m
  · apply h.waited.succ
    rintro ⟨fm, hfm, -⟩
    rw [hnone] at hfm
    nomatch hfm
  · intro j hj hs
    rcases Nat.lt_succ_iff_lt_or_eq.1 hj with hj | rfl
    · exact h.freed j hj hs
    · obtain ⟨fm, hfm, -⟩ := hs
      rw [hnone] at hfm
      nomatch hfm

theorem freePage_turn {p : State × Option ℕ} (hmapped : Mapped w s₀ n) (hi : i < n) (h : FreeInv w s₀ i p) :
    Turn (FreeInv w s₀ (i + 1)) (FreeExit w s₀ i) (freePage w i p) := by
  have hpte := h.page i (Nat.le_refl i)
  unfold freePage
  dsimp only
  rw [hpte]
  by_cases hdir : (s₀.page i).directory = true
  · by_cases hfile : (s₀.page i).file = true
    · have hfm : freeMap w s₀ i = some (w.hlookup (s₀.page i).handle) := by
        unfold freeMap
        dsimp only
        rw [hdir, hfile]
        rfl
      rw [if_pos hdir, if_pos hfile]
      generalize w.hlookup (s₀.page i).handle = fm at hfm
      obtain ⟨hopen₀, hcount⟩ := hmapped i hi fm hfm
      have hmore : count (freeMap w s₀) fm i + 1 ≤ count (freeMap w s₀) fm n := by
        apply Nat.le_trans _ (count_mono (Nat.succ_le_of_lt hi))
        rw [count, if_pos hfm]
      -- the file map has pages left, so it has not been freed
      have hopen (s : State) (hclosed : (s.map fm).closed = true → (s₀.map fm).closed = true ∨
          (s₀.map fm).pages = count (freeMap w s₀) fm i) : (s.map fm).closed = false := by
        cases hc : (s.map fm).closed with
        | false => rfl
        | true =>
          rcases hclosed hc with ho | hp
          · rw [hopen₀] at ho
            nomatch ho
          · omega
      by_cases hsame : p.2 = some fm
      · have hno : ¬ Switch (freeMap w s₀) i := by
          rintro ⟨fm', hfm', hne⟩
          rw [hfm] at hfm'
          exact hne (h.last.symm.trans (hsame.trans hfm'))
        rw [switchTo_same hsame]
        have hfreed : ∀ j ≤ i, Switch (freeMap w s₀) j → ∀ m, last (freeMap w s₀) j = some m →
            (s₀.map m).pages = count (freeMap w s₀) m j → FreeOk w j := by
          intro j hj hs
          rcases Nat.lt_or_eq_of_le hj with hj | rfl
          · exact h.freed j hj hs
          · exact absurd hs hno
        apply FreeInv.unmap h.pages hfm (hsame ▸ h.holds) h.page h.closed (hopen p.1 (h.closed fm))
          (h.waited.succ fun hs => absurd hs hno) hfreed
        rw [hsame]
      · have hswitch : Switch (freeMap w s₀) i := ⟨fm, hfm, fun he => hsame (h.last.trans he)⟩
        have hat (j : ℕ) (hj : j ≤ i) (hok : ∀ m, last (freeMap w s₀) i = some m →
            (s₀.map m).pages = count (freeMap w s₀) m i → FreeOk w i) (hs : Switch (freeMap w s₀) j) (m : ℕ)
            (hm : last (freeMap w s₀) j = some m) (hp : (s₀.map m).pages = count (freeMap w s₀) m j) : FreeOk w j := by
          rcases Nat.lt_or_eq_of_le hj with hj | rfl
          · exact h.freed j hj hs m hm hp
          · exact hok m hm hp
        rcases free_leave h.holds with
          ⟨m, hm, hneg, hholds, hzero, hbad⟩ | ⟨s', hs', hholds, hpage, hpages, hclosed, hok⟩
        · -- a file map without pages is not freed
          have herror : switchTo (leaveFree w i) w i fm p = .error (leaveLocked (leaveFree w i) p) := by
            unfold switchTo
            rw [if_neg hsame]
            rw [if_pos hneg]
          rw [herror]
          refine ⟨hswitch, h.waited, Or.inl ⟨hholds.not_released, m, h.last.symm.trans hm, ?_, hbad⟩⟩
          have hcountm := h.pages m
          omega
        · have hfree (m : ℕ) (hm : last (freeMap w s₀) i = some m) (hp : (s₀.map m).pages = count (freeMap w s₀) m i) :
              FreeOk w i := by
            apply hok m (h.last.trans hm)
            have hcountm := h.pages m
            omega
          rw [switchTo_new hsame hs']
          by_cases hwait : w.wait i < 0
          · rw [if_pos hwait]
            exact ⟨hswitch, h.waited, Or.inr ⟨hholds.released, hwait, fun j hj => hat j hj hfree⟩⟩
          · rw [if_neg hwait]
            have hclosed' (m : ℕ) (hm : (s'.map m).closed = true) :
                (s₀.map m).closed = true ∨ (s₀.map m).pages = count (freeMap w s₀) m i := by
              rcases hclosed m hm with hc | hzero
              · exact h.closed m hc
              · have hcountm := h.pages m
                exact Or.inr (by omega)
            have hopen' := hopen s' (hclosed' fm)
            have hpages' (m : ℕ) : ((s'.lock fm).map m).pages = (s₀.map m).pages - count (freeMap w s₀) m i := by
              rw [← h.pages, ← hpages]
              unfold State.lock
              dsimp only
              by_cases hm : m = fm
              · rw [hm, update_self]
              · rw [update_of_ne hm]
            apply FreeInv.unmap hpages' hfm (hholds.lock hopen')
            · intro j hj
              rw [← h.page j hj, ← hpage]
              rfl
            · intro m hm
              rw [closed_lock] at hm
              exact hclosed' m hm
            · rw [closed_lock]
              exact hopen'
            · exact h.waited.succ fun _ => by omega
            · exact fun j hj => hat j hj hfree
            · rfl
    · have hnone : freeMap w s₀ i = none := by
        unfold freeMap
        dsimp only
        rw [hdir, Bool.true_and, if_neg hfile]
      rw [if_pos hdir, if_neg hfile]
      split
      · refine h.skip hnone ?_ ?_ ?_ fun j hj => ?_
        · rfl
        · rfl
        · rfl
        · unfold State.unmapPage
          dsimp only
          rw [update_of_ne (by omega)]
      · exact h.skip hnone rfl rfl rfl fun _ _ => rfl
  · have hnone : freeMap w s₀ i = none := by
      unfold freeMap
      rw [if_neg]
      intro hboth
      exact hdir (Bool.and_eq_true_iff.1 hboth).1
    rw [if_neg hdir]
    exact h.skip hnone rfl rfl rfl fun _ _ => rfl

theorem FreeInv.start (hlocked : s.locked = []) : FreeInv w s 0 (s, none) := by
  constructor
  · exact (SyncInv.start (w := w) hlocked).holds
  · rfl
  · exact fun _ _ => rfl
  · intro fm
    exact (Int.sub_zero _).symm
  · exact fun _ => Or.inl
  · exact fun j hj => absurd hj (Nat.not_lt_zero j)
  · exact fun j hj => absurd hj (Nat.not_lt_zero j)

/-- `vmfree` leaves no file map locked exactly when it frees every file map without pages that it comes to leave. -/
theorem vmfree_released {addr size type : UInt32} (hlocked : s.locked = []) (hmapped : Mapped w s (pages size).toNat)
    (haccept : size ≠ 0 ∧ validRange s.vmap (pageAddr addr) size = true)
    (htype : type &&& (memDecommit ||| memRelease) ≠ 0) :
    Released (vmfree w s addr size type).1 ↔ Freed w s (pages size).toNat := by
  obtain ⟨hsize, hvalid⟩ := haccept
  unfold vmfree
  rw [if_neg hsize, hvalid]
  simp only [Bool.not_true, Bool.false_eq_true, if_false, if_pos htype]
  generalize (pages size).toNat = n at hmapped
  have hturn (j : ℕ) (p : State × Option ℕ) (_ : 0 ≤ j) (hj : j < 0 + n) (hp : FreeInv w s j p) :=
    freePage_turn hmapped (by omega) hp
  have hloop := countLoop_spec hturn (FreeInv.start hlocked)
  rw [Nat.zero_add] at hloop
  cases hr : countLoop (freePage w) n 0 (s, none) with
  | error e =>
    rw [hr] at hloop
    obtain ⟨i, hi, hswitch, hwaited, hexit⟩ := hloop
    rcases hexit with ⟨hlost, fm, hfm, hpages, hbad⟩ | ⟨hreleased, hwait, hfreed⟩
    · refine ⟨fun h => absurd h hlost, fun h => ?_⟩
      exact absurd (h i (by omega) (Or.inr hswitch) hwaited fm hfm hpages) hbad
    · refine ⟨fun _ j hj hjs hjw fm hfm hpages => ?_, fun _ => hreleased⟩
      rcases Nat.lt_or_ge i j with hij | hji
      · have hpos := hjw i hij hswitch
        omega
      · have hjs' : Switch (freeMap w s) j := hjs.resolve_left (by omega)
        exact hfreed j hji hjs' fm hfm hpages
  | ok p =>
    rw [hr] at hloop
    obtain ⟨s', cur⟩ := p
    cases cur with
    | none =>
      have hreleased (s'' : State) (hlocked : s''.locked = s'.locked) (hmap : s''.map = s'.map) : Released s'' := by
        apply (hloop.holds.frame hlocked fun m => ?_).released
        rw [hmap]
        exact ⟨rfl, rfl, rfl⟩
      refine ⟨fun _ j hj hjs _ fm hfm hpages => ?_, fun _ => ?_⟩
      · rcases Nat.lt_or_eq_of_le hj with hj | rfl
        · exact hloop.freed j hj (hjs.resolve_left (by omega)) fm hfm hpages
        · nomatch hloop.last.trans hfm
      · dsimp only
        split
        · exact hreleased _ rfl rfl
        · exact hreleased _ rfl rfl
    | some fm =>
      have hcount : (s'.map fm).pages = (s.map fm).pages - count (freeMap w s) fm n := hloop.pages fm
      have hlast : last (freeMap w s) n = some fm := hloop.last.symm
      have hholds' : Holds s' (some fm) := hloop.holds
      dsimp only
      rcases leaveFree_cases hholds' with
        ⟨-, hholds, hzero, hbad⟩ | ⟨s'', hs'', hholds, -, -, -, hok⟩
      · refine ⟨fun h => absurd h hholds.not_released, fun h => ?_⟩
        exact absurd (h n (Nat.le_refl n) (Or.inl rfl) hloop.waited fm hlast (by omega)) hbad
      · rw [hs'']
        refine ⟨fun _ j hj hjs _ m hm hpages => ?_, fun _ => hholds.released⟩
        rcases Nat.lt_or_eq_of_le hj with hj | rfl
        · exact hloop.freed j hj (hjs.resolve_left (by omega)) m hm hpages
        · obtain rfl : fm = m := Option.some.inj (hlast.symm.trans hm)
          exact hok (by omega)

/-- The range is not empty, and it is accepted. -/
def Accepts (s : State) (addr size : UInt32) : Prop := size ≠ 0 ∧ validRange s.vmap (pageAddr addr) size = true

/-- When `vmsync` and `vmfree` have unlocked or freed every file map that they have locked. -/
theorem file_maps_released (addr size type : UInt32) (hlocked : s.locked = [])
    (hmapped : Mapped w s (pages size).toNat) :
    (Released (vmsync w s addr size).1 ↔ (Accepts s addr size → Saved w s (pages size).toNat)) ∧
    (Released (vmfree w s addr size type).1 ↔
      (Accepts s addr size → type &&& (memDecommit ||| memRelease) ≠ 0 → Freed w s (pages size).toNat)) := by
  have hstart : Released s := fun fm hfm => by
    rw [hlocked] at hfm
    nomatch hfm
  have hopen : ∀ i < (pages size).toNat, ∀ fm, syncMap w s i = some fm → (s.map fm).closed = false := by
    intro i hi fm hfm
    apply (hmapped i hi fm ?_).1
    unfold syncMap at hfm
    unfold freeMap
    dsimp only at hfm ⊢
    split at hfm
    · rename_i hdirty
      rw [if_pos]
      · exact hfm
      · simp only [Bool.and_eq_true] at hdirty ⊢
        exact ⟨hdirty.1, hdirty.2.1.1⟩
    · nomatch hfm
  by_cases haccept : Accepts s addr size
  · constructor
    · rw [vmsync_released hlocked hopen haccept]
      exact ⟨fun h _ => h, fun h => h haccept⟩
    · by_cases htype : type &&& (memDecommit ||| memRelease) ≠ 0
      · rw [vmfree_released hlocked hmapped haccept htype]
        exact ⟨fun h _ _ => h, fun h => h haccept htype⟩
      · refine ⟨fun _ _ h => absurd h htype, fun _ => ?_⟩
        obtain ⟨hsize, hvalid⟩ := haccept
        unfold vmfree
        rw [if_neg hsize, hvalid]
        simp only [Bool.not_true, Bool.false_eq_true, if_false, if_neg htype]
        split <;> exact hstart
  · have hreject : size = 0 ∨ validRange s.vmap (pageAddr addr) size = false := by
      by_cases hsize : size = 0
      · exact Or.inl hsize
      · right
        cases hv : validRange s.vmap (pageAddr addr) size with
        | false => rfl
        | true => exact absurd ⟨hsize, hv⟩ haccept
    constructor
    · refine ⟨fun _ h => absurd h haccept, fun _ => ?_⟩
      unfold vmsync
      rcases hreject with hsize | hinvalid
      · rw [if_pos hsize]
        exact hstart
      · rw [hinvalid]
        split <;> exact hstart
    · refine ⟨fun _ h => absurd h haccept, fun _ => ?_⟩
      unfold vmfree
      rcases hreject with hsize | hinvalid
      · rw [if_pos hsize]
        exact hstart
      · rw [hinvalid]
        split <;> exact hstart

/-- Two dirty pages and an absent one, of two file maps; no address is free. -/
def threePages : State where
  vmap := emptyMap
  page := fun i => ⟨true, true, i ≠ 1, i ≠ 1, if i < 2 then 1 else 2⟩
  map := fun fm => ⟨true, [], none, false, 0, 0, if fm = 1 then 2 else 1⟩
  locked := []

/-- Every call succeeds. -/
def sound : World := ⟨id, fun _ => 0, fun _ => true, fun _ => 4096, fun _ => 0, fun _ => 0⟩

theorem mapped_threePages (w : World) (hw : w.hlookup = id) : Mapped w threePages (pages 0x3000).toNat := by
  have hpages : (pages 0x3000).toNat = 3 := by decide
  have hmap : freeMap w threePages = fun i => some (if i < 2 then 1 else 2) := by
    unfold freeMap
    rw [hw]
    rfl
  intro i hi fm hfm
  rw [hmap] at hfm ⊢
  obtain rfl := Option.some.inj hfm
  have hi : i = 0 ∨ i = 1 ∨ i = 2 := by omega
  rcases hi with rfl | rfl | rfl <;> decide

theorem file_maps_released_threePages :
    Released (vmsync sound threePages 0x10000 0x3000).1 ∧ Released (vmfree sound threePages 0x10000 0x3000 memRelease).1 := by
  have hiff := file_maps_released 0x10000 0x3000 memRelease rfl (mapped_threePages sound rfl)
  constructor
  · apply hiff.1.2
    intro _ i _ _ _
    exact ⟨rfl, show (0 : ℤ) ≤ 4096 by decide⟩
  · apply hiff.2.2
    intro _ _ i _ _ _ fm _ _
    exact ⟨le_rfl, le_rfl⟩

/-- The first page cannot be written, or the file handle of the first file map cannot be closed. -/
theorem file_maps_released_lost :
    ¬ Released (vmsync { sound with pwrite := fun _ => -5 } threePages 0x10000 0x3000).1 ∧
      ¬ Released (vmfree { sound with hfreeFile := fun _ => -5 } threePages 0x10000 0x3000 memRelease).1 := by
  have hlost (s : State) (hlocked : 1 ∈ s.locked) (hclosed : (s.map 1).closed = false)
      (hsignaled : (s.map 1).signaled = false) (hholder : (s.map 1).holder = some .caller) : ¬ Released s := by
    intro h
    have hunlocked := h 1 hlocked
    unfold Unlocked at hunlocked
    rw [hclosed, hsignaled, hholder] at hunlocked
    simp at hunlocked
  constructor
  · apply hlost <;> decide +kernel
  · apply hlost <;> decide +kernel

end SimpleKernel.Mem.FileMaps
