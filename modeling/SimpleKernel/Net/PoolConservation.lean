import SimpleKernel.Net.PbufPool

/-! No packet buffer is lost, or in two places. -/
namespace SimpleKernel.Net
open LinkedList
open Function (update update_eq_self update_of_ne update_self)

variable {s s' : System} {q q' : Place → List Buf} {l l' xs : List Buf} {p r : Buf} {size rsize : ℤ}

@[simp] theorem head_pool (m : Pool) (live : Buf → Option ℤ) (x : Option Buf) :
    System.head ⟨{ m with pool := x }, live⟩ = update (System.head ⟨m, live⟩) .pool x := by
  funext k
  cases k <;> simp [System.head]

@[simp] theorem head_allocCache (m : Pool) (live : Buf → Option ℤ) (x : Option Buf) :
    System.head ⟨{ m with allocCache := x }, live⟩ = update (System.head ⟨m, live⟩) .allocCache x := by
  funext k
  cases k <;> simp [System.head]

@[simp] theorem head_freeCache (m : Pool) (live : Buf → Option ℤ) (x : Option Buf) :
    System.head ⟨{ m with freeCache := x }, live⟩ = update (System.head ⟨m, live⟩) .freeCache x := by
  funext k
  cases k <;> simp [System.head]

theorem head_live (m : Pool) (live : Buf → Option ℤ) (p : Buf) (x : Option ℤ) :
    System.head ⟨m, update live p x⟩ =
      update (System.head ⟨m, live⟩) (.live p) (if x.isSome then some p else none) := by
  funext k
  cases k with
  | live r =>
    by_cases hr : r = p
    · subst hr
      simp [System.head]
    · simp [System.head, hr]
  | _ => simp [System.head]

/-- The lists of a system and the buffers `l` on none of them, which a function is about to hand out or to take
back. `used` counts those too. -/
structure Layout (s : System) (q : Place → List Buf) (l : List Buf) : Prop where
  chains : Chains s.mem.next s.head q
  nodup : l.Nodup
  apart : ∀ b ∈ l, ∀ k, b ∉ q k
  all : ∀ b, b ∈ l ∨ ∃ k, b ∈ q k
  used : s.mem.used + (q .pool).length + (q .allocCache).length + (q .freeCache).length = poolSize
  unlocked : s.mem.allocLock = 0 ∧ s.mem.freeLock = 0

/-- The live chains have the lengths that their users know of. -/
def Sized (s : System) (q : Place → List Buf) : Prop :=
  ∀ p size, s.live p = some size →
    s.mem.totLen p = size ∧ ((q (.live p)).map s.mem.len).sum = size ∧ ∀ b ∈ q (.live p), s.mem.flags b = .pool

/-- What the live chains keep while a function works on other buffers. -/
structure Keeps (s s' : System) (q q' : Place → List Buf) : Prop where
  live : s'.live = s.live
  lists : ∀ p, q' (.live p) = q (.live p)
  fields : ∀ p, ∀ b ∈ q (.live p),
    s'.mem.totLen b = s.mem.totLen b ∧ s'.mem.len b = s.mem.len b ∧ s'.mem.flags b = s.mem.flags b

theorem Keeps.refl (s : System) (q : Place → List Buf) : Keeps s s q q :=
  ⟨rfl, fun _ => rfl, fun _ _ _ => ⟨rfl, rfl, rfl⟩⟩

theorem Keeps.trans {s'' : System} {q'' : Place → List Buf} (h : Keeps s s' q q') (h' : Keeps s' s'' q' q'') :
    Keeps s s'' q q'' := by
  refine ⟨h'.live.trans h.live, fun p => (h'.lists p).trans (h.lists p), fun p b hb => ?_⟩
  obtain ⟨ht, hl, hf⟩ := h.fields p b hb
  rw [← h.lists p] at hb
  obtain ⟨ht', hl', hf'⟩ := h'.fields p b hb
  exact ⟨ht'.trans ht, hl'.trans hl, hf'.trans hf⟩

theorem Layout.live_mem (h : Layout s q l) (hp : s.live p = some size) : p ∈ q (.live p) := by
  have hc := (h.chains.chain (.live p)).head
  simp only [System.head, hp] at hc
  exact List.mem_of_head? hc.symm

theorem Layout.sized (hlay : Layout s q l) (h : Sized s q) (hk : Keeps s s' q q') : Sized s' q' := by
  intro p size hp
  rw [hk.live] at hp
  obtain ⟨ht, hsum, hf⟩ := h p size hp
  have hpq := hlay.live_mem hp
  refine ⟨(hk.fields p p hpq).1.trans ht, ?_, fun b hb => ?_⟩
  · rw [hk.lists p, ← hsum]
    congr 1
    exact List.map_congr_left fun b hb => (hk.fields p b hb).2.1
  · rw [hk.lists p] at hb
    exact (hk.fields p b hb).2.2.trans (hf b hb)

theorem Layout.perm (h : Layout s q l) (hl : l.Perm l') : Layout s q l' :=
  ⟨h.chains, hl.nodup_iff.mp h.nodup, fun b hb => h.apart b (hl.mem_iff.mpr hb),
    fun b => (h.all b).imp_left hl.mem_iff.mp, h.used, h.unlocked⟩

theorem Layout.congr (h : Layout s q l) {m : Pool} (hn : ∀ b, b ∉ l → m.next b = s.mem.next b)
    (hhead : System.head ⟨m, s.live⟩ = s.head) (hused : m.used = s.mem.used)
    (hlocks : m.allocLock = s.mem.allocLock ∧ m.freeLock = s.mem.freeLock) : Layout ⟨m, s.live⟩ q l := by
  refine ⟨?_, h.nodup, h.apart, h.all, ?_, ?_⟩
  · rw [hhead]
    exact h.chains.congr fun k a ha => hn a fun hl => h.apart a hl k ha
  · rw [hused]
    exact h.used
  · rw [hlocks.1, hlocks.2]
    exact h.unlocked

theorem length_le_poolSize (h : l.Nodup) : l.length ≤ poolSize := by
  simpa using h.length_le_card

theorem Layout.first {k : Place} {b : Buf} (h : Layout s q l) (hb : s.head k = some b) : ∃ xs, q k = b :: xs := by
  have hchain := h.chains.chain k
  cases hq : q k with
  | nil =>
    rw [hq, hb] at hchain
    exact absurd hchain (by simp [Chain])
  | cons c xs =>
    rw [hq, hb] at hchain
    rw [Option.some.inj hchain.1]
    exact ⟨xs, rfl⟩

theorem Layout.taken {k : Place} {b : Buf} (h : Layout s q l) (hlive : ∀ p, k ≠ .live p) (hk : q k = b :: xs) :
    (b :: l).Nodup ∧ (∀ c ∈ b :: l, ∀ j, c ∉ update q k xs j) ∧
      (∀ c, c ∈ b :: l ∨ ∃ j, c ∈ update q k xs j) ∧
      ∀ p, update q k xs (.live p) = q (.live p) := by
  have hbk : b ∈ q k := by simp [hk]
  have hnodup := (h.chains.chain k).nodup
  rw [hk] at hnodup
  obtain ⟨hbxs, -⟩ := List.nodup_cons.mp hnodup
  refine ⟨List.nodup_cons.mpr ⟨fun hb => h.apart b hb k hbk, h.nodup⟩, fun c hc j => ?_, fun c => ?_, fun p => ?_⟩
  · by_cases hj : j = k
    · subst hj
      rw [update_self]
      rcases List.mem_cons.mp hc with rfl | hc
      · exact hbxs
      · exact fun hcx => h.apart c hc j (by simp [hk, hcx])
    · rw [update_of_ne hj]
      rcases List.mem_cons.mp hc with rfl | hc
      · exact h.chains.not_mem hbk hj
      · exact h.apart c hc j
  · rcases h.all c with hc | ⟨j, hc⟩
    · exact Or.inl (List.mem_cons_of_mem _ hc)
    · by_cases hj : j = k
      · subst hj
        rw [hk] at hc
        rcases List.mem_cons.mp hc with rfl | hc
        · exact Or.inl List.mem_cons_self
        · exact Or.inr ⟨j, by rwa [update_self]⟩
      · exact Or.inr ⟨j, by rwa [update_of_ne hj]⟩
  · exact update_of_ne (hlive p).symm _ _

theorem Layout.poolAlloc (h : Layout s q l) :
    poolAlloc s.mem = (s.mem, none) ∨
      ∃ m b q', poolAlloc s.mem = (m, some b) ∧ Layout ⟨m, s.live⟩ q' (b :: l) ∧ m.next = s.mem.next ∧
        m.totLen = s.mem.totLen ∧ m.len = s.mem.len ∧ m.flags = s.mem.flags ∧
        Keeps s ⟨m, s.live⟩ q q' := by
  obtain ⟨-, hfree⟩ := h.unlocked
  cases hcache : s.mem.allocCache with
  | some b =>
    obtain ⟨xs, hq⟩ := h.first (k := .allocCache) hcache
    obtain ⟨hnodup, hapart, hall, hlists⟩ := h.taken (fun p => by simp) hq
    refine Or.inr ⟨{ s.mem with allocCache := s.mem.next b, used := s.mem.used + 1 }, b,
      update q .allocCache xs, by simp [Net.poolAlloc, hcache], ⟨?_, hnodup, hapart, hall, ?_, h.unlocked⟩,
      rfl, rfl, rfl, rfl, rfl, hlists, fun _ _ _ => ⟨rfl, rfl, rfl⟩⟩
    · have hpop := h.chains.pop hq
      rwa [← head_allocCache] at hpop
    · have hused := h.used
      simp only [hq, List.length_cons] at hused
      simp only [update_self, ne_eq, reduceCtorEq, not_false_eq_true, update_of_ne]
      omega
  | none =>
    cases hpool : s.mem.pool with
    | none => exact Or.inl (by simp [Net.poolAlloc, hcache, hpool])
    | some b =>
      obtain ⟨xs, hq⟩ := h.first (k := .pool) hpool
      obtain ⟨hnodup, hapart, hall, hlists⟩ := h.taken (fun p => by simp) hq
      refine Or.inr ⟨{ s.mem with pool := s.mem.next b, used := s.mem.used + 1 }, b, update q .pool xs,
        by simp [Net.poolAlloc, hcache, hfree, hpool], ⟨?_, hnodup, hapart, hall, ?_, h.unlocked⟩,
        rfl, rfl, rfl, rfl, rfl, hlists, fun _ _ _ => ⟨rfl, rfl, rfl⟩⟩
      · have hpop := h.chains.pop hq
        rwa [← head_pool] at hpop
      · have hused := h.used
        simp only [hq, List.length_cons] at hused
        simp only [update_self, ne_eq, reduceCtorEq, not_false_eq_true, update_of_ne]
        omega

theorem countDown_eq {next : Buf → Option Buf} {n : ℕ} {h : Option Buf} {used : ℤ} (hc : Chain next h l)
    (hn : l.length ≤ n) : countDown next n h used = some (used - l.length) := by
  induction l generalizing n h used with
  | nil =>
    rw [show h = none from hc]
    cases n <;> simp [countDown]
  | cons b l ih =>
    obtain ⟨rfl, hc⟩ := hc
    obtain ⟨n, rfl⟩ : ∃ m, n = m + 1 := ⟨n - 1, by simp at hn; omega⟩
    rw [countDown, ih hc (by simpa using hn)]
    simp only [List.length_cons]
    congr 1
    omega

theorem Layout.poolFree (h : Layout s q l) (hc : Chain s.mem.next (some p) l) :
    ∃ m q', poolFree s.mem p = some m ∧ Layout ⟨m, s.live⟩ q' [] ∧ Keeps s ⟨m, s.live⟩ q q' := by
  have hcount : countDown s.mem.next poolSize (some p) s.mem.used = some (s.mem.used - l.length) :=
    countDown_eq hc (length_le_poolSize h.nodup)
  have hlists : ∀ r, update q .allocCache (q .allocCache ++ l) (.live r) = q (.live r) :=
    fun r => update_of_ne (by simp) _ _
  have hall : ∀ b, b ∈ ([] : List Buf) ∨ ∃ k, b ∈ update q .allocCache (q .allocCache ++ l) k := by
    intro b
    rcases h.all b with hb | ⟨k, hb⟩
    · exact Or.inr ⟨.allocCache, by simp [hb]⟩
    · by_cases hk : k = .allocCache
      · subst hk
        exact Or.inr ⟨.allocCache, by simp [hb]⟩
      · exact Or.inr ⟨k, by rwa [update_of_ne hk]⟩
  have hused : s.mem.used - l.length + (update q .allocCache (q .allocCache ++ l) .pool).length +
      (update q .allocCache (q .allocCache ++ l) .allocCache).length +
      (update q .allocCache (q .allocCache ++ l) .freeCache).length = poolSize := by
    have hold := h.used
    simp only [update_self, ne_eq, reduceCtorEq, not_false_eq_true, update_of_ne,
      List.length_append]
    omega
  refine (?_ : ∃ m, Net.poolFree s.mem p = some m ∧ Layout ⟨m, s.live⟩ _ [] ∧ Keeps s ⟨m, s.live⟩ q _).elim
    fun m hm => ⟨m, update q .allocCache (q .allocCache ++ l), hm⟩
  cases hcache : s.mem.allocCache with
  | none =>
    have hempty : q .allocCache = [] := by
      have hhead := (h.chains.chain .allocCache).head
      simp only [System.head, hcache] at hhead
      exact List.head?_eq_none_iff.mp hhead.symm
    refine ⟨{ s.mem with used := s.mem.used - l.length, allocCache := some p }, ?_,
      ⟨?_, List.nodup_nil, fun b hb => by simp at hb, hall, hused, h.unlocked⟩,
      rfl, hlists, fun _ _ _ => ⟨rfl, rfl, rfl⟩⟩
    · rw [Net.poolFree, hcount, hcache]
    · have hadopt := h.chains.adopt (k := .allocCache) hc h.apart
      rw [hempty]
      rwa [← head_allocCache] at hadopt
  | some c =>
    obtain ⟨ys, hys⟩ := h.first (k := .allocCache) hcache
    obtain ⟨xs, b, hxs⟩ : ∃ xs b, q .allocCache = xs ++ [b] :=
      ⟨(q .allocCache).dropLast, (q .allocCache).getLast (by simp [hys]), (List.dropLast_concat_getLast _).symm⟩
    have hchain := h.chains.chain .allocCache
    have hlen := length_le_poolSize hchain.nodup
    rw [hxs] at hchain hlen
    have hlast : lastFrom s.mem.next poolSize c = some b := by
      simp only [System.head, hcache] at hchain
      refine hchain.lastFrom ?_
      simp only [List.length_append] at hlen
      omega
    have hbl : b ∉ l := fun hb => h.apart b hb .allocCache (by simp [hxs])
    refine ⟨{ s.mem with used := s.mem.used - l.length, next := update s.mem.next b (some p) }, ?_,
      ⟨?_, List.nodup_nil, fun b hb => by simp at hb, hall, hused, h.unlocked⟩,
      rfl, hlists, fun _ _ _ => ⟨rfl, rfl, rfl⟩⟩
    · rw [Net.poolFree, hcount]
      simp only [hcache, hlast]
    · have hredirect := h.chains.redirect hxs hc hbl fun a ha j _ => h.apart a ha j
      rwa [hxs, List.append_assoc]

/-- What a loop does to a buffer that it takes back. -/
def Releases (act : Buf → Pool → Option Pool) : Prop :=
  ∀ b m, m.flags b = .pool → ∃ totLen len, act b m = some ({ m with totLen := totLen, len := len }.release b) ∧
    ∀ c, c ≠ b → totLen c = m.totLen c ∧ len c = m.len c

theorem releases_realloc : Releases fun b m => some (m.release b) :=
  fun _ m _ => ⟨m.totLen, m.len, rfl, fun _ _ => ⟨rfl, rfl⟩⟩

theorem releases_free : Releases freeBuf := by
  intro b m hb
  refine ⟨update m.totLen b bufSize, update m.len b bufSize, by rw [freeBuf, if_pos hb], ?_⟩
  intro c hc
  exact ⟨update_of_ne hc _ _, update_of_ne hc _ _⟩

theorem Layout.release {b : Buf} (h : Layout s q (b :: l)) {totLen len : Buf → ℤ}
    (hsame : ∀ c, c ≠ b → totLen c = s.mem.totLen c ∧ len c = s.mem.len c) :
    Layout ⟨{ s.mem with totLen := totLen, len := len }.release b, s.live⟩
        (update q .freeCache (b :: q .freeCache)) l ∧
      Keeps s ⟨{ s.mem with totLen := totLen, len := len }.release b, s.live⟩ q
        (update q .freeCache (b :: q .freeCache)) := by
  obtain ⟨hbl, hl⟩ := List.nodup_cons.mp h.nodup
  have hb := h.apart b List.mem_cons_self
  constructor
  · refine ⟨?_, hl, fun c hc k hk => ?_, fun c => ?_, ?_, h.unlocked⟩
    · have hpush := h.chains.push (k := .freeCache) hb
      rwa [← head_freeCache] at hpush
    · by_cases hkf : k = .freeCache
      · subst hkf
        rcases List.mem_cons.mp hk with rfl | hk
        · exact hbl hc
        · exact h.apart c (List.mem_cons_of_mem _ hc) _ hk
      · rw [update_of_ne hkf] at hk
        exact h.apart c (List.mem_cons_of_mem _ hc) k hk
    · rcases h.all c with hc | ⟨k, hc⟩
      · rcases List.mem_cons.mp hc with rfl | hc
        · exact Or.inr ⟨.freeCache, by simp⟩
        · exact Or.inl hc
      · by_cases hkf : k = .freeCache
        · subst hkf
          exact Or.inr ⟨.freeCache, by simp [hc]⟩
        · exact Or.inr ⟨k, by rwa [update_of_ne hkf]⟩
    · have hused := h.used
      simp only [Pool.release, update_self, ne_eq, reduceCtorEq, not_false_eq_true, update_of_ne,
        List.length_cons]
      omega
  · refine ⟨rfl, fun p => update_of_ne (by simp) _ _, fun p c hc => ?_⟩
    have hcb : c ≠ b := by
      rintro rfl
      exact hb _ hc
    exact ⟨(hsame c hcb).1, (hsame c hcb).2, rfl⟩

theorem Layout.forEach {act : Buf → Pool → Option Pool} (hact : Releases act) {n : ℕ} {hd : Option Buf}
    (h : Layout s q l) (hc : Chain s.mem.next hd l) (hflags : ∀ b ∈ l, s.mem.flags b = .pool) (hn : l.length ≤ n) :
    ∃ m q', forEach act n hd s.mem = some (m, l.length) ∧ Layout ⟨m, s.live⟩ q' [] ∧ Keeps s ⟨m, s.live⟩ q q' ∧
      ∀ c, c ∉ l → m.totLen c = s.mem.totLen c ∧ m.len c = s.mem.len c := by
  induction l generalizing s q n hd with
  | nil =>
    rw [show hd = none from hc]
    refine ⟨s.mem, q, by cases n <;> rfl, h, Keeps.refl s q, fun _ _ => ⟨rfl, rfl⟩⟩
  | cons b l ih =>
    obtain ⟨rfl, hc⟩ := hc
    obtain ⟨n, rfl⟩ : ∃ m, n = m + 1 := ⟨n - 1, by simp at hn; omega⟩
    obtain ⟨totLen, len, hb, hsame⟩ := hact b s.mem (hflags b List.mem_cons_self)
    obtain ⟨hlay, hkeeps⟩ := h.release hsame
    have hbl := (List.nodup_cons.mp h.nodup).1
    have hchain : Chain ({ s.mem with totLen := totLen, len := len }.release b).next (s.mem.next b) l := by
      apply hc.congr
      intro c hcl
      have hcb : c ≠ b := fun e => hbl (e ▸ hcl)
      exact update_of_ne hcb _ _
    obtain ⟨m, q', hrest, hlay', hkeeps', hsame'⟩ :=
      ih hlay hchain (fun c hcl => hflags c (List.mem_cons_of_mem _ hcl)) (by simpa using hn)
    refine ⟨m, q', ?_, hlay', hkeeps.trans hkeeps', fun c hcl => ?_⟩
    · rw [Net.forEach, hb]
      dsimp only
      rw [hrest]
      rfl
    · obtain ⟨hcb, hcl⟩ : c ≠ b ∧ c ∉ l := by simpa using hcl
      obtain ⟨ht, hl⟩ := hsame' c hcl
      exact ⟨ht.trans (hsame c hcb).1, hl.trans (hsame c hcb).2⟩

theorem Layout.refresh (h : Layout s q []) :
    ∃ m q', pbufRefresh s.mem = some m ∧ Layout ⟨m, s.live⟩ q' [] ∧ Keeps s ⟨m, s.live⟩ q q' := by
  cases hfree : s.mem.freeCache with
  | none => exact ⟨s.mem, q, by rw [pbufRefresh, hfree], h, Keeps.refl s q⟩
  | some f =>
    -- the buffers of the cache change to the pool, on whose end they are linked
    have hcleared := h.chains.clear .freeCache
    have hcache := h.chains.chain .freeCache
    have hdisjoint : ∀ a ∈ q .freeCache, ∀ j, a ∉ update q .freeCache [] j := by
      intro a ha j
      by_cases hj : j = .freeCache
      · subst hj
        simp
      · rw [update_of_ne hj]
        exact h.chains.not_mem ha hj
    have hall : ∀ b, b ∈ ([] : List Buf) ∨
        ∃ k, b ∈ update (update q .freeCache []) .pool (q .pool ++ q .freeCache) k := by
      intro b
      obtain ⟨k, hb⟩ := (h.all b).resolve_left (by simp)
      by_cases hk : k = .freeCache ∨ k = .pool
      · refine Or.inr ⟨.pool, ?_⟩
        rcases hk with rfl | rfl <;> simp [hb]
      · push Not at hk
        refine Or.inr ⟨k, ?_⟩
        rwa [update_of_ne hk.2, update_of_ne hk.1]
    have hlists : ∀ r, update (update q .freeCache []) .pool (q .pool ++ q .freeCache) (.live r) =
        q (.live r) := by
      intro r
      rw [update_of_ne (by simp), update_of_ne (by simp)]
    have hused : s.mem.used +
        (update (update q .freeCache []) .pool (q .pool ++ q .freeCache) .pool).length +
        (update (update q .freeCache []) .pool (q .pool ++ q .freeCache) .allocCache).length +
        (update (update q .freeCache []) .pool (q .pool ++ q .freeCache) .freeCache).length =
          poolSize := by
      have hold := h.used
      simp only [update_self, ne_eq, reduceCtorEq, not_false_eq_true, update_of_ne,
        List.length_append, List.length_nil]
      omega
    have hempty : ∀ b ∈ ([] : List Buf), ∀ k,
        b ∉ update (update q .freeCache []) .pool (q .pool ++ q .freeCache) k :=
      fun b hb => by simp at hb
    simp only [System.head, hfree] at hcache
    refine (?_ : ∃ m, pbufRefresh s.mem = some m ∧ Layout ⟨m, s.live⟩ _ [] ∧ Keeps s ⟨m, s.live⟩ q _).elim
      fun m hm => ⟨m, update (update q .freeCache []) .pool (q .pool ++ q .freeCache), hm⟩
    cases hpool : s.mem.pool with
    | none =>
      have hnil : q .pool = [] := by
        have hhead := (h.chains.chain .pool).head
        simp only [System.head, hpool] at hhead
        exact List.head?_eq_none_iff.mp hhead.symm
      refine ⟨{ s.mem with pool := some f, freeCache := none }, ?_,
        ⟨?_, List.nodup_nil, hempty, hall, hused, h.unlocked⟩, rfl, hlists, fun _ _ _ => ⟨rfl, rfl, rfl⟩⟩
      · rw [pbufRefresh, hfree]
        dsimp only
        rw [if_pos h.unlocked.1, hpool]
      · have hadopt := hcleared.adopt (k := .pool) hcache hdisjoint
        rw [hnil]
        rwa [← head_freeCache, ← head_pool] at hadopt
    | some c =>
      obtain ⟨ys, hys⟩ := h.first (k := .pool) hpool
      obtain ⟨xs, b, hxs⟩ : ∃ xs b, q .pool = xs ++ [b] :=
        ⟨(q .pool).dropLast, (q .pool).getLast (by simp [hys]), (List.dropLast_concat_getLast _).symm⟩
      have hchain := h.chains.chain .pool
      have hlen := length_le_poolSize hchain.nodup
      rw [hxs] at hchain hlen
      have hlast : lastFrom s.mem.next poolSize c = some b := by
        simp only [System.head, hpool] at hchain
        refine hchain.lastFrom ?_
        simp only [List.length_append] at hlen
        omega
      have hbfree : b ∉ q .freeCache := fun hb => by
        have hbpool : b ∈ q .pool := by simp [hxs]
        have hne : Place.freeCache ≠ .pool := by simp
        exact h.chains.not_mem hbpool hne hb
      refine ⟨{ s.mem with next := update s.mem.next b (some f), freeCache := none }, ?_,
        ⟨?_, List.nodup_nil, hempty, hall, hused, h.unlocked⟩, rfl, hlists, fun _ _ _ => ⟨rfl, rfl, rfl⟩⟩
      · rw [pbufRefresh, hfree]
        dsimp only
        rw [if_pos h.unlocked.1]
        simp only [hpool, hlast]
      · have hxs' : update q .freeCache [] .pool = xs ++ [b] := by
          rw [update_of_ne (by simp), hxs]
        have hredirect := hcleared.redirect hxs' hcache hbfree fun a ha j _ => hdisjoint a ha j
        rw [← head_freeCache] at hredirect
        rwa [hxs, List.append_assoc]

/-- A chain that `pbuf_alloc` builds for `size` bytes, of which `rsize` are still to come. -/
structure Building (s : System) (q : Place → List Buf) (p : Buf) (l : List Buf) (size rsize : ℤ) : Prop where
  layout : Layout s q l
  chain : Chain s.mem.next (some p) l
  flags : ∀ b ∈ l, s.mem.flags b = .pool
  sum : (l.map s.mem.len).sum + max rsize 0 = size
  totLen : s.mem.totLen p = size

theorem Building.extend (h : Building s q p (xs ++ [r]) size rsize) (hr : 0 < rsize) {m : Pool} {b : Buf}
    (hlay : Layout ⟨m, s.live⟩ q' (b :: (xs ++ [r]))) (hnext : m.next = s.mem.next) (htot : m.totLen = s.mem.totLen)
    (hlen : m.len = s.mem.len) (hflags : m.flags = s.mem.flags) :
    Building ⟨{ m with
      next := update (update m.next b none) r (some b)
      len := update m.len b (if rsize > bufSize then bufSize else rsize)
      flags := update m.flags b .pool
      ref := update m.ref b 1 }, s.live⟩ q' p (xs ++ [r] ++ [b]) size (rsize - bufSize) := by
  obtain ⟨hb, -⟩ := List.nodup_cons.mp hlay.nodup
  have hold : Chain (update m.next b none) (some p) (xs ++ [r]) := by
    rw [hnext]
    apply h.chain.congr
    intro c hc
    have hcb : c ≠ b := fun e => hb (e ▸ hc)
    exact update_of_ne hcb _ _
  constructor
  · refine Layout.perm ?_ (List.perm_append_singleton b (xs ++ [r])).symm
    refine hlay.congr (fun c hc => ?_) rfl rfl ⟨rfl, rfl⟩
    obtain ⟨hcb, hcl⟩ : c ≠ b ∧ c ∉ xs ++ [r] := by simpa using hc
    have hcr : c ≠ r := fun e => hcl (by simp [e])
    dsimp only
    rw [update_of_ne hcr, update_of_ne hcb]
  · have hext := hold.append hb (by simp)
    simpa using hext
  · intro c hc
    rcases List.mem_append.mp hc with hc | hc
    · have hcb : c ≠ b := fun e => hb (e ▸ hc)
      dsimp only
      rw [update_of_ne hcb, hflags]
      exact h.flags c hc
    · rw [List.mem_singleton.mp hc]
      exact update_self _ _ _
  · have hmap : (xs ++ [r]).map (update m.len b (if rsize > bufSize then bufSize else rsize)) =
        (xs ++ [r]).map s.mem.len := by
      refine List.map_congr_left fun c hc => ?_
      have hcb : c ≠ b := fun e => hb (e ▸ hc)
      rw [update_of_ne hcb, hlen]
    have hsum := h.sum
    dsimp only
    rw [List.map_append, hmap, List.sum_append, List.map_singleton, List.sum_singleton, update_self]
    split
    · omega
    · omega
  · exact (congrFun htot p).trans h.totLen

theorem Building.allocTail (h : Building s q p (xs ++ [r]) size rsize) :
    ∃ m q', (∃ l, allocTail p rsize r s.mem = some (m, some p) ∧ Building ⟨m, s.live⟩ q' p l size 0 ∧
        Keeps s ⟨m, s.live⟩ q q') ∨
      (allocTail p rsize r s.mem = some (m, none) ∧ Layout ⟨m, s.live⟩ q' [] ∧ Keeps s ⟨m, s.live⟩ q q') := by
  induction hn : rsize.toNat using Nat.strong_induction_on generalizing s q xs r rsize with
  | _ n ih =>
    rw [Net.allocTail]
    by_cases hr : 0 < rsize
    · rw [if_pos hr]
      rcases h.layout.poolAlloc with hnone | ⟨m, b, q', hsome, hlay, hnext, htot, hlen, hflags, hkeeps⟩
      · obtain ⟨m, q', hfree, hlay, hkeeps⟩ := h.layout.poolFree h.chain
        refine ⟨m, q', Or.inr ⟨?_, hlay, hkeeps⟩⟩
        rw [hnone]
        simp only [hfree]
      · have hext := h.extend hr hlay hnext htot hlen hflags
        have hbl : ∀ p, ∀ c ∈ q' (.live p), c ≠ b := fun p c hc e =>
          hlay.apart b List.mem_cons_self _ (e ▸ hc)
        have hkeeps' : Keeps s ⟨{ m with
            next := update (update m.next b none) r (some b)
            len := update m.len b (if rsize > bufSize then bufSize else rsize)
            flags := update m.flags b .pool
            ref := update m.ref b 1 }, s.live⟩ q q' := by
          refine hkeeps.trans ⟨rfl, fun _ => rfl, fun p c hc => ⟨rfl, ?_, ?_⟩⟩
          · exact update_of_ne (hbl p c hc) _ _
          · exact update_of_ne (hbl p c hc) _ _
        rw [hsome]
        obtain ⟨m', q'', hres⟩ := ih (rsize - bufSize).toNat (by simp only [bufSize]; omega) hext rfl
        refine ⟨m', q'', hres.imp ?_ ?_⟩
        · rintro ⟨l, hrun, hbuild, hk⟩
          exact ⟨l, hrun, hbuild, hkeeps'.trans hk⟩
        · rintro ⟨hrun, hlay', hk⟩
          exact ⟨hrun, hlay', hkeeps'.trans hk⟩
    · rw [if_neg hr]
      have hrnext : s.mem.next r = none := by
        have hsuffix := h.chain.suffix
        exact hsuffix.2
      have hsame : update s.mem.next r none = s.mem.next := by rw [← hrnext, update_eq_self]
      refine ⟨_, q, Or.inl ⟨xs ++ [r], rfl, ?_, ⟨rfl, fun _ => rfl, fun _ _ _ => ⟨rfl, rfl, rfl⟩⟩⟩⟩
      rw [hsame]
      have hsum := h.sum
      rw [max_eq_right (by omega)] at hsum
      exact ⟨h.layout.congr (fun _ _ => rfl) rfl rfl ⟨rfl, rfl⟩, h.chain, h.flags, by simpa using hsum, h.totLen⟩

/-- What holds between the calls. -/
def System.Inv (s : System) : Prop := ∃ q, Layout s q [] ∧ Sized s q

/-- The first buffer of a chain, with room for headers in front. -/
def firstLen (layer : Layer) (size : ℤ) : ℤ :=
  if size > bufSize - layer.offset then bufSize - layer.offset else size

def Pool.begin (m : Pool) (p : Buf) (layer : Layer) (size : ℤ) : Pool :=
  { m with
    next := update m.next p none
    totLen := update m.totLen p size
    len := update m.len p (firstLen layer size)
    flags := update m.flags p .pool }

theorem Building.begin (h : Layout s q [p]) (layer : Layer) (size : ℤ) :
    Building ⟨s.mem.begin p layer size, s.live⟩ q p ([] ++ [p]) size (size - firstLen layer size) ∧
      Keeps s ⟨s.mem.begin p layer size, s.live⟩ q q := by
  constructor
  · constructor
    · refine h.congr (fun c hc => ?_) rfl rfl ⟨rfl, rfl⟩
      have hcp : c ≠ p := by simpa using hc
      exact update_of_ne hcp _ _
    · exact ⟨rfl, by simp [Pool.begin, Chain]⟩
    · intro c hc
      rw [List.mem_singleton.mp hc]
      exact update_self _ _ _
    · simp only [Pool.begin, firstLen, List.nil_append, List.map_cons, List.map_nil, List.sum_cons, List.sum_nil,
        update_self]
      split <;> omega
    · exact update_self _ _ _
  · refine ⟨rfl, fun _ => rfl, fun r c hc => ?_⟩
    have hcp : c ≠ p := fun e => h.apart p List.mem_cons_self _ (e ▸ hc)
    exact ⟨update_of_ne hcp _ _, update_of_ne hcp _ _, update_of_ne hcp _ _⟩

theorem Building.handOut (h : Building s q p l size 0) (hsized : Sized s q) :
    System.Inv ⟨s.mem, update s.live p (some size)⟩ := by
  have hpl : p ∈ l := List.mem_of_head? h.chain.head.symm
  have hempty : q (.live p) = [] := by
    have hhead := (h.layout.chains.chain (.live p)).head
    cases hlive : s.live p with
    | none =>
      simp only [System.head, hlive] at hhead
      exact List.head?_eq_none_iff.mp hhead.symm
    | some x => exact absurd (h.layout.live_mem hlive) (h.layout.apart p hpl _)
  refine ⟨update q (.live p) l, ⟨?_, List.nodup_nil, fun b hb => by simp at hb, fun b => ?_,
    h.layout.used, h.layout.unlocked⟩, fun r x hr => ?_⟩
  · rw [head_live]
    exact h.layout.chains.adopt h.chain h.layout.apart
  · rcases h.layout.all b with hb | ⟨k, hb⟩
    · exact Or.inr ⟨.live p, by simpa using hb⟩
    · refine Or.inr ⟨k, ?_⟩
      by_cases hkp : k = .live p
      · rw [hkp, hempty] at hb
        simp at hb
      · rwa [update_of_ne hkp]
  · dsimp only at hr ⊢
    by_cases hrp : r = p
    · subst hrp
      rw [update_self] at hr ⊢
      obtain rfl := Option.some.inj hr
      exact ⟨h.totLen, by simpa using h.sum, h.flags⟩
    · have hne : Place.live r ≠ Place.live p := by simpa using hrp
      rw [update_of_ne hrp] at hr
      rw [update_of_ne hne]
      exact hsized r x hr

theorem Layout.alloc (h : Layout s q []) (hsized : Sized s q) (layer : Layer) (size : ℤ) :
    ∃ s', s.step (.alloc layer size) = some s' ∧ s'.Inv := by
  simp only [System.step, pbufAlloc]
  rcases h.poolAlloc with hnone | ⟨m, p, q', hsome, hlay, -, -, -, -, hkeeps⟩
  · rw [hnone]
    exact ⟨s, rfl, q, h, hsized⟩
  · rw [hsome]
    obtain ⟨hbuild, hbegin⟩ := Building.begin hlay layer size
    obtain ⟨m', q'', ⟨l, hrun, hdone, hk⟩ | ⟨hrun, hlay', hk⟩⟩ := hbuild.allocTail
    · refine ⟨⟨m', update s.live p (some size)⟩, ?_, ?_⟩
      · simp only [Pool.begin, firstLen] at hrun
        simp only [hrun]
      · exact hdone.handOut (h.sized hsized ((hkeeps.trans hbegin).trans hk))
    · refine ⟨⟨m', s.live⟩, ?_, q'', hlay', h.sized hsized ((hkeeps.trans hbegin).trans hk)⟩
      simp only [Pool.begin, firstLen] at hrun
      simp only [hrun]

theorem cutPoint_eq {m : Pool} {n : ℕ} (hc : Chain m.next (some p) l) (hsum : size < (l.map m.len).sum)
    (hn : l.length ≤ n + 1) :
    ∃ ys b zs, l = ys ++ b :: zs ∧ cutPoint m n size p = some (size - (ys.map m.len).sum, b) := by
  induction l generalizing n p size with
  | nil => exact absurd hc (by simp [Chain])
  | cons c l ih =>
    obtain ⟨hpc, hc⟩ := hc
    obtain rfl := Option.some.inj hpc
    by_cases hbig : size > m.len p
    · rw [List.map_cons, List.sum_cons] at hsum
      cases l with
      | nil =>
        rw [List.map_nil, List.sum_nil] at hsum
        omega
      | cons d l =>
        obtain ⟨n, rfl⟩ : ∃ k, n = k + 1 := ⟨n - 1, by simp at hn; omega⟩
        have hnext : m.next p = some d := hc.1
        rw [hnext] at hc
        have hrest : size - m.len p < ((d :: l).map m.len).sum := by omega
        obtain ⟨ys, b, zs, hsplit, hcut⟩ := ih hc hrest (by simpa using hn)
        refine ⟨p :: ys, b, zs, by rw [hsplit]; rfl, ?_⟩
        rw [cutPoint, if_pos hbig, hnext]
        dsimp only
        rw [hcut, List.map_cons, List.sum_cons, Int.sub_sub]
    · refine ⟨[], p, l, rfl, ?_⟩
      cases n <;> simp [cutPoint, hbig]

theorem Layout.cut {ys zs : List Buf} {b : Buf} (h : Layout s q []) (hsplit : q (.live p) = ys ++ b :: zs) (x : ℤ) :
    Layout ⟨{ s.mem with
        len := update s.mem.len b x
        next := update s.mem.next b none }, s.live⟩ (update q (.live p) (ys ++ [b])) zs ∧
      Chain (update s.mem.next b none) (s.mem.next b) zs := by
  have hchain := h.chains.chain (.live p)
  rw [hsplit] at hchain
  obtain ⟨-, hbzs, hys⟩ := List.nodup_append.mp hchain.nodup
  obtain ⟨hbz, hzs⟩ := List.nodup_cons.mp hbzs
  constructor
  · refine ⟨?_, hzs, fun c hc k hk => ?_, fun c => ?_, h.used, h.unlocked⟩
    · exact h.chains.redirect hsplit (show Chain s.mem.next none [] from rfl) (by simp) (by simp)
    · by_cases hkp : k = .live p
      · subst hkp
        rw [update_self] at hk
        rcases List.mem_append.mp hk with hk | hk
        · exact hys c hk c (List.mem_cons_of_mem _ hc) rfl
        · rw [List.mem_singleton.mp hk] at hc
          exact hbz hc
      · rw [update_of_ne hkp] at hk
        have hcp : c ∈ q (.live p) := by simp [hsplit, hc]
        exact h.chains.not_mem hcp hkp hk
    · obtain ⟨k, hk⟩ := (h.all c).resolve_left (by simp)
      by_cases hkp : k = .live p
      · subst hkp
        rw [hsplit] at hk
        simp only [List.mem_append, List.mem_cons] at hk
        rcases hk with hk | rfl | hk
        · exact Or.inr ⟨.live p, by simp [hk]⟩
        · exact Or.inr ⟨.live p, by simp⟩
        · exact Or.inl hk
      · exact Or.inr ⟨k, by rwa [update_of_ne hkp]⟩
  · apply hchain.suffix.2.congr
    intro c hc
    have hcb : c ≠ b := fun e => hbz (e ▸ hc)
    exact update_of_ne hcb _ _

theorem Layout.resize {old : ℤ} (h : Layout s q l) (hlive : s.live p = some old) (size : ℤ) :
    Layout ⟨s.mem, update s.live p (some size)⟩ q l := by
  refine ⟨?_, h.nodup, h.apart, h.all, h.used, h.unlocked⟩
  have hsome : s.head (.live p) = some p := by simp [System.head, hlive]
  have hhead : System.head ⟨s.mem, update s.live p (some size)⟩ = s.head := by
    rw [head_live, ← hsome]
    exact update_eq_self _ _
  rw [hhead]
  exact h.chains

theorem Layout.realloc (h : Layout s q []) (hsized : Sized s q) (p : Buf) (size : ℤ) :
    ∃ s', s.step (.realloc p size) = some s' ∧ s'.Inv := by
  simp only [System.step]
  cases hlive : s.live p with
  | none => exact ⟨s, rfl, q, h, hsized⟩
  | some old =>
    obtain ⟨htot, hsum, hflags⟩ := hsized p old hlive
    by_cases hle : s.mem.totLen p ≤ size
    · have hsame : update s.live p (some (if size < old then size else old)) = s.live := by
        rw [if_neg (by omega), ← hlive, update_eq_self]
      refine ⟨s, ?_, q, h, hsized⟩
      simp only [pbufRealloc, hle, if_true, hsame]
    · have hchain := h.chains.chain (.live p)
      simp only [System.head, hlive] at hchain
      have hnodup := hchain.nodup
      have hshort : size < ((q (.live p)).map s.mem.len).sum := by omega
      obtain ⟨ys, b, zs, hsplit, hcut⟩ := cutPoint_eq hchain hshort (Nat.le_succ_of_le (length_le_poolSize hnodup))
      rw [hsplit] at hnodup
      have hby : b ∉ ys := fun hb => (List.nodup_append.mp hnodup).2.2 b hb b List.mem_cons_self rfl
      have hbq : b ∈ q (.live p) := by simp [hsplit]
      obtain ⟨hlay, hrest⟩ := h.cut hsplit (size - (ys.map s.mem.len).sum)
      obtain ⟨m, q', hrun, hlay', hkeeps, -⟩ :=
        hlay.forEach releases_realloc hrest (fun c hc => hflags c (by simp [hsplit, hc]))
          (length_le_poolSize hlay.nodup)
      have hresized : Layout ⟨{ m with totLen := update m.totLen p size },
          update s.live p (some (if size < old then size else old))⟩ q' [] := by
        have hset : Layout ⟨{ m with totLen := update m.totLen p size }, s.live⟩ q' [] :=
          hlay'.congr (fun _ _ => rfl) rfl rfl ⟨rfl, rfl⟩
        exact hset.resize hlive _
      have htruncated : Sized ⟨{ m with totLen := update m.totLen p size },
          update s.live p (some (if size < old then size else old))⟩ q' := by
        intro r x hr
        have hlists := hkeeps.lists r
        have hfields := hkeeps.fields r
        dsimp only at hr hfields ⊢
        by_cases hrp : r = p
        · subst hrp
          rw [update_self] at hr hlists hfields
          rw [if_pos (by omega)] at hr
          obtain rfl := Option.some.inj hr
          rw [hlists]
          refine ⟨update_self _ _ _, ?_, fun c hc => (hfields c hc).2.2.trans (hflags c ?_)⟩
          · have hys : ys.map m.len = ys.map s.mem.len := by
              refine List.map_congr_left fun c hc => ?_
              have hcb : c ≠ b := fun e => hby (e ▸ hc)
              rw [(hfields c (by simp [hc])).2.1, update_of_ne hcb]
            have hb : m.len b = size - (ys.map s.mem.len).sum := by
              rw [(hfields b (by simp)).2.1, update_self]
            rw [List.map_append, List.sum_append, hys, List.map_singleton, List.sum_singleton]
            omega
          · rw [hsplit]
            rcases List.mem_append.mp hc with hc | hc
            · simp [hc]
            · simp [List.mem_singleton.mp hc]
        · have hne : Place.live r ≠ Place.live p := by simpa using hrp
          rw [update_of_ne hrp] at hr
          rw [update_of_ne hne] at hlists hfields
          obtain ⟨ht, hs, hf⟩ := hsized r x hr
          have hrq := h.live_mem hr
          rw [hlists, update_of_ne hrp]
          refine ⟨(hfields r hrq).1.trans ht, ?_, fun c hc => (hfields c hc).2.2.trans (hf c hc)⟩
          rw [← hs]
          congr 1
          refine List.map_congr_left fun c hc => ?_
          have hcb : c ≠ b := fun e => h.chains.not_mem hbq hne (e ▸ hc)
          rw [(hfields c hc).2.1, update_of_ne hcb]
      obtain ⟨m', q'', hrefresh, hlast, hkeeps'⟩ := hresized.refresh
      have hpflag : s.mem.flags p = .pool := hflags p (h.live_mem hlive)
      refine ⟨_, ?_, q'', hlast, hresized.sized htruncated hkeeps'⟩
      simp only [pbufRealloc, hle, if_false, hpflag, ne_eq, not_true_eq_false, hcut, hrun, hrefresh]

theorem Layout.ref (h : Layout s q []) (hsized : Sized s q) (p : Buf) :
    ∃ s', s.step (.ref p) = some s' ∧ s'.Inv := by
  simp only [System.step]
  cases s.live p with
  | none => exact ⟨s, rfl, q, h, hsized⟩
  | some old => exact ⟨_, rfl, q, h.congr (fun _ _ => rfl) rfl rfl ⟨rfl, rfl⟩, hsized⟩

theorem Layout.drop (h : Layout s q []) (p : Buf) :
    Layout ⟨s.mem, update s.live p none⟩ (update q (.live p) []) (q (.live p)) := by
  refine ⟨?_, (h.chains.chain _).nodup, fun c hc k hk => ?_, fun c => ?_, h.used, h.unlocked⟩
  · rw [head_live]
    exact h.chains.clear (.live p)
  · by_cases hkp : k = .live p
    · rw [hkp] at hk
      simp at hk
    · rw [update_of_ne hkp] at hk
      exact h.chains.not_mem hc hkp hk
  · obtain ⟨k, hk⟩ := (h.all c).resolve_left (by simp)
    by_cases hkp : k = .live p
    · exact Or.inl (hkp ▸ hk)
    · exact Or.inr ⟨k, by rwa [update_of_ne hkp]⟩

theorem Layout.free (h : Layout s q []) (hsized : Sized s q) (p : Buf) :
    ∃ s', s.step (.free p) = some s' ∧ s'.Inv := by
  simp only [System.step]
  cases hlive : s.live p with
  | none => exact ⟨s, rfl, q, h, hsized⟩
  | some old =>
    obtain ⟨-, -, hflags⟩ := hsized p old hlive
    -- the reference count matters to no list
    have hcounted : ∀ ref, Layout ⟨{ s.mem with ref := ref }, s.live⟩ q [] :=
      fun ref => h.congr (fun _ _ => rfl) rfl rfl ⟨rfl, rfl⟩
    by_cases hzero : (s.mem.ref p + (2 ^ 16 - 1)) % 2 ^ 16 = 0
    · have hchain := h.chains.chain (.live p)
      simp only [System.head, hlive, Option.isSome_some] at hchain
      have hdrop := (hcounted (update s.mem.ref p ((s.mem.ref p + (2 ^ 16 - 1)) % 2 ^ 16))).drop p
      obtain ⟨m, q', hrun, hlay, hkeeps, -⟩ :=
        hdrop.forEach releases_free hchain hflags (length_le_poolSize hchain.nodup)
      obtain ⟨m', q'', hrefresh, hlast, hkeeps'⟩ := hlay.refresh
      have hcount : (q (.live p)).length ≠ 0 := by
        have hpq := List.length_pos_of_mem (h.live_mem hlive)
        omega
      refine ⟨⟨m', update s.live p none⟩, ?_, q'', hlast, ?_⟩
      · simp only [pbufFree, update_self, hzero, if_true] at hrun ⊢
        simp only [hrun, hrefresh, hcount, if_false]
      · refine hdrop.sized (fun r x hr => ?_) (hkeeps.trans hkeeps')
        dsimp only at hr ⊢
        by_cases hrp : r = p
        · rw [hrp] at hr
          exact absurd hr (by simp)
        · have hne : Place.live r ≠ Place.live p := by simpa using hrp
          rw [update_of_ne hrp] at hr
          rw [update_of_ne hne]
          exact hsized r x hr
    · have hlay := hcounted (update s.mem.ref p ((s.mem.ref p + (2 ^ 16 - 1)) % 2 ^ 16))
      obtain ⟨m, q', hrefresh, hlast, hkeeps⟩ := hlay.refresh
      refine ⟨⟨m, s.live⟩, ?_, q', hlast, hlay.sized hsized hkeeps⟩
      simp only [pbufFree, update_self, hzero, if_false, hrefresh, if_true]

theorem System.Inv.step (h : s.Inv) (c : Call) : ∃ s', s.step c = some s' ∧ s'.Inv := by
  obtain ⟨q, hlay, hsized⟩ := h
  cases c with
  | alloc layer size => exact hlay.alloc hsized layer size
  | realloc p size => exact hlay.realloc hsized p size
  | ref p => exact hlay.ref hsized p
  | free p => exact hlay.free hsized p

theorem System.inv_init : System.Inv ⟨pbufInit, fun _ => none⟩ := by
  refine ⟨fun k => if k = .pool then List.finRange poolSize else [], ⟨⟨fun k => ?_, fun k k' a hk hk' => ?_⟩,
    List.nodup_nil, fun b hb => by simp at hb, fun b => Or.inr ⟨.pool, by simp⟩, by simp [pbufInit],
    ⟨rfl, rfl⟩⟩, fun p size hp => by simp at hp⟩
  · cases k with
    | pool =>
      have hnext : ∀ i (hi : i < (List.finRange poolSize).length),
          pbufInit.next (List.finRange poolSize)[i] = (List.finRange poolSize)[i + 1]? := by
        intro i hi
        by_cases hlt : i + 1 < poolSize <;> simp [pbufInit, hlt]
      exact chain_of_getElem hnext
    | _ => simp [System.head, pbufInit, Chain]
  · by_cases hp : k = .pool <;> by_cases hp' : k' = .pool <;> simp_all

theorem Layout.card_live (h : Layout s q []) : s.mem.used = Fintype.card {b // ∃ p, b ∈ q (.live p)} := by
  have hnodup : (q .pool ++ q .allocCache ++ q .freeCache).Nodup := by
    refine List.Nodup.append (List.Nodup.append (h.chains.chain _).nodup (h.chains.chain _).nodup ?_)
      (h.chains.chain _).nodup ?_
    · intro a ha ha'
      exact absurd (h.chains.apart _ _ a ha ha') (by simp)
    · intro a ha ha'
      rcases List.mem_append.mp ha with ha | ha
      · exact absurd (h.chains.apart _ _ a ha ha') (by simp)
      · exact absurd (h.chains.apart _ _ a ha ha') (by simp)
  have hfree : Finset.univ.filter (fun b => ¬ ∃ p, b ∈ q (.live p)) =
      (q .pool ++ q .allocCache ++ q .freeCache).toFinset := by
    ext b
    simp only [Finset.mem_filter, Finset.mem_univ, true_and, List.mem_toFinset, List.mem_append]
    constructor
    · intro hb
      obtain ⟨k, hk⟩ := (h.all b).resolve_left (by simp)
      cases k with
      | pool => exact Or.inl (Or.inl hk)
      | allocCache => exact Or.inl (Or.inr hk)
      | freeCache => exact Or.inr hk
      | live p => exact absurd ⟨p, hk⟩ hb
    · rintro ((hb | hb) | hb) ⟨p, hp⟩ <;> exact absurd (h.chains.apart _ _ b hb hp) (by simp)
  have hcard := Finset.card_filter_add_card_filter_not (s := (Finset.univ : Finset Buf))
    (fun b => ∃ p, b ∈ q (.live p))
  rw [hfree, List.toFinset_card_of_nodup hnodup, Finset.card_univ, Fintype.card_fin] at hcard
  rw [Fintype.card_subtype]
  simp only [List.length_append] at hcard
  have hused := h.used
  omega

theorem System.Inv.conserved (h : s.Inv) : s.Conserved := by
  obtain ⟨q, hlay, hsized⟩ := h
  refine ⟨q, hlay.chains.chain, fun b => ?_, hlay.card_live, fun p size hp => ?_⟩
  · obtain ⟨k, hk⟩ := (hlay.all b).resolve_left (by simp)
    exact ⟨k, hk, fun k' hk' => hlay.chains.apart k' k b hk' hk⟩
  · obtain ⟨htot, hsum, -⟩ := hsized p size hp
    exact ⟨htot, hsum⟩

/-- In every sequence of calls on the pool each call returns, and no buffer is lost or in two places. -/
theorem pool_conserved (calls : List Call) :
    ∃ s, calls.foldlM System.step ⟨pbufInit, fun _ => none⟩ = some s ∧ s.Conserved := by
  have hrun : ∀ s : System, s.Inv → ∃ s', calls.foldlM System.step s = some s' ∧ s'.Inv := by
    induction calls with
    | nil => exact fun s hs => ⟨s, rfl, hs⟩
    | cons c calls ih =>
      intro s hs
      obtain ⟨s', hstep, hs'⟩ := hs.step c
      obtain ⟨t, hrest, ht⟩ := ih s' hs'
      refine ⟨t, ?_, ht⟩
      rw [List.foldlM_cons, hstep]
      exact hrest
  obtain ⟨s, hs, hinv⟩ := hrun _ System.inv_init
  exact ⟨s, hs, hinv.conserved⟩

end SimpleKernel.Net
