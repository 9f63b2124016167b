import Mathlib.Data.List.Basic
import Mathlib.Data.List.TakeWhile
import Mathlib.Data.UInt

/-! Option strings (`lib/opts.c`). -/
namespace SimpleKernel.Os.Options

/-- The characters of a string before its NUL. -/
abbrev Str := List UInt8

def space : UInt8 := 32
def comma : UInt8 := 44
def equals : UInt8 := 61

def strncpy (s : Str) (n : ℕ) : Str := s.take n ++ List.replicate (n - s.length) 0

/-- How `get_option` ends, with the bytes that it writes to the buffer. `fault` is `memcpy` with a negative length;
`opts` is the rest of the string at the item that was found. -/
inductive Result
  | null
  | default (bytes : Str)
  | value (opts bytes : Str)
  | fault
  deriving DecidableEq

def notFound (defval : Option Str) (size : ℕ) : Result :=
  match defval with
  | none => .null
  | some defval => .default (strncpy defval size)

/-- The loop of `get_option`. A turn takes a character at least. -/
def getOptionLoop (name : Str) (size : ℕ) (defval : Option Str) : ℕ → Str → Result
  | 0, _ => notFound defval size
  | fuel + 1, opts =>
    if opts = [] then notFound defval size
    else
      let opts := opts.dropWhile (· = space)
      let item := opts.takeWhile (· ≠ comma)
      let key := opts.takeWhile (· ≠ equals)
      let next := getOptionLoop name size defval fuel ((opts.drop item.length).drop 1)
      if key.length < opts.length then
        if name.take key.length = opts.take key.length then
          if item.length < key.length + 1 then .fault
          else
            let value := item.drop (key.length + 1)
            if size < value.length then .value opts (strncpy (opts.drop (key.length + 1)) size)
            else .value opts (value ++ [0])
        else next
      else if name.take item.length = opts.take item.length then .value opts [0]
      else next

/-- `get_option` with a buffer; a missing string is `none`. -/
def getOption (opts : Option Str) (name : Str) (size : ℕ) (defval : Option Str) : Result :=
  match opts with
  | none => notFound defval size
  | some opts => getOptionLoop name size defval (opts.length + 1) opts

structure Item where
  key : Str
  value : Option Str

def Item.text (i : Item) : Str := i.key ++ i.value.elim [] (equals :: ·)

structure Item.Valid (i : Item) : Prop where
  key_ne : i.key ≠ []
  key_chars : ∀ c ∈ i.key, c ≠ space ∧ c ≠ comma ∧ c ≠ equals
  value_chars : ∀ v, i.value = some v → comma ∉ v ∧ 0 ∉ v

/-- `item,item,...` -/
def render : List Item → Str
  | [] => []
  | [i] => i.text
  | i :: is => i.text ++ comma :: render is

/-- The first item with the key `name` is found and its value is cut to what fits, or else the default is taken. -/
def Right (name : Str) (size : ℕ) (defval : Option Str) (r : Result) : List Item → Prop
  | [] => r = notFound defval size
  | i :: is =>
    if i.key = name then r = .value (render (i :: is)) ((i.value.getD []).take (size - 1) ++ [0])
    else Right name size defval r is

/-- What `strncmp` compares with the name: everything to the next `=`, or else the item. -/
def compared (i : Item) (is : List Item) : Str :=
  if equals ∈ render (i :: is) then (render (i :: is)).takeWhile (· ≠ equals) else i.key

/-- Up to the first item with the key `name` nothing that is compared is the start of the name. That item has a `=` or
none follows, and its value is shorter than the buffer. -/
def Legible (name : Str) (size : ℕ) : List Item → Prop
  | [] => True
  | i :: is =>
    if i.key = name then (i.value = none → equals ∉ render is) ∧ (i.value.getD []).length < size
    else ¬ compared i is <+: name ∧ Legible name size is

variable {i : Item} {is : List Item} {name : Str} {size fuel : ℕ} {defval : Option Str}

theorem render_cons (i : Item) (is : List Item) : ∃ behind, render (i :: is) = i.text ++ behind ∧
    behind.drop 1 = render is ∧ (behind = [] ∨ ∃ s, behind = comma :: s) ∧ (equals ∈ behind ↔ equals ∈ render is) := by
  cases is with
  | nil => exact ⟨[], by simp [render], rfl, .inl rfl, by simp [render]⟩
  | cons j js => exact ⟨comma :: render (j :: js), rfl, rfl, .inr ⟨_, rfl⟩, by simp [comma, equals]⟩

theorem Item.Valid.comma_not_mem (h : i.Valid) : comma ∉ i.text := by
  rw [Item.text, List.mem_append]
  rintro (hkey | hvalue)
  · exact (h.key_chars _ hkey).2.1 rfl
  · cases hv : i.value with
    | none => simp [hv] at hvalue
    | some v =>
      rw [hv] at hvalue
      rcases List.mem_cons.mp hvalue with heq | hmem
      · cases heq
      · exact (h.value_chars v hv).1 hmem

theorem takeWhile_ne_append {c : UInt8} {s t : Str} (hs : c ∉ s) (ht : t = [] ∨ ∃ u, t = c :: u) :
    (s ++ t).takeWhile (· ≠ c) = s := by
  have hall : ∀ x ∈ s, decide (x ≠ c) = true := fun x hx => decide_eq_true fun heq => hs (heq ▸ hx)
  rw [List.takeWhile_append_of_pos hall]
  rcases ht with rfl | ⟨u, rfl⟩
  · simp
  · simp

theorem Item.Valid.equals_not_mem_key (h : i.Valid) : equals ∉ i.key := fun hmem => (h.key_chars _ hmem).2.2 rfl

theorem take_eq_iff {s t : Str} (h : s <+: t) : name.take s.length = t.take s.length ↔ s <+: name := by
  rw [← List.prefix_iff_eq_take.mp h, List.prefix_iff_eq_take, eq_comm]

theorem compared_eq_key (h : i.Valid) (hlast : i.value = none → equals ∉ render is) : compared i is = i.key := by
  obtain ⟨behind, htext, -, -, hmem⟩ := render_cons i is
  rw [compared]
  split
  swap
  · rfl
  next heq =>
  rw [htext, Item.text] at heq ⊢
  cases hv : i.value with
  | some v =>
    rw [List.append_assoc]
    exact takeWhile_ne_append h.equals_not_mem_key (.inr ⟨_, rfl⟩)
  | none =>
    rw [hv, Option.elim_none, List.append_nil, List.mem_append] at heq
    exact absurd (hmem.mp (heq.resolve_left h.equals_not_mem_key)) (hlast hv)

/-- What is written when an item is taken for the one that is asked for. -/
def taken (size : ℕ) (i : Item) (is : List Item) : Result :=
  match i.value with
  | some v => .value (render (i :: is)) (if size < v.length then v.take size else v ++ [0])
  | none => if equals ∈ render is then .fault else .value (render (i :: is)) [0]

theorem getOptionLoop_cons (h : i.Valid) : getOptionLoop name size defval (fuel + 1) (render (i :: is)) =
    if compared i is <+: name then taken size i is else getOptionLoop name size defval fuel (render is) := by
  obtain ⟨behind, htext, hdrop, hend, hmem⟩ := render_cons i is
  obtain ⟨c, key, hkey⟩ := List.exists_cons_of_ne_nil h.key_ne
  have hspace : (render (i :: is)).dropWhile (· = space) = render (i :: is) := by
    have hc := (h.key_chars c (by simp [hkey])).1
    rw [htext, Item.text, hkey]
    exact List.dropWhile_cons_of_neg (by simpa using hc)
  have hitem : (render (i :: is)).takeWhile (· ≠ comma) = i.text := by
    rw [htext]
    exact takeWhile_ne_append h.comma_not_mem hend
  have hne : render (i :: is) ≠ [] := by simp [htext, Item.text, hkey]
  have hnext : ((render (i :: is)).drop i.text.length).drop 1 = render is := by
    rw [htext, List.drop_left, hdrop]
  rw [getOptionLoop, if_neg hne]
  dsimp only
  rw [hspace, hitem, hnext]
  by_cases heq : equals ∈ render (i :: is)
  · have hcompared : compared i is = (render (i :: is)).takeWhile (· ≠ equals) := if_pos heq
    have hprefix : compared i is <+: render (i :: is) := hcompared ▸ List.takeWhile_prefix _
    have hlt : (compared i is).length < (render (i :: is)).length := by
      refine lt_of_le_of_ne hprefix.length_le fun hlen => ?_
      rw [← hprefix.eq_of_length hlen, hcompared] at heq
      simpa using List.mem_takeWhile_imp heq
    rw [← hcompared, if_pos hlt]
    simp only [take_eq_iff hprefix]
    split
    swap
    · rfl
    rw [taken]
    cases hv : i.value with
    | some v =>
      have hkey' : compared i is = i.key := compared_eq_key h fun hnone => by rw [hv] at hnone; cases hnone
      have hvalue : i.text.drop (i.key.length + 1) = v := by simp [Item.text, hv]
      have hlen : i.text.length = i.key.length + (v.length + 1) := by simp [Item.text, hv]
      rw [hkey', if_neg (by omega), hvalue]
      dsimp only
      split
      · next hlong =>
        have hrest : (render (i :: is)).drop (i.key.length + 1) = v ++ behind := by simp [htext, Item.text, hv]
        rw [hrest, strncpy, List.take_append_of_le_length hlong.le, List.length_append,
          Nat.sub_eq_zero_of_le (by omega), List.replicate_zero, List.append_nil]
      · rfl
    | none =>
      have hkey' : i.text = i.key := by simp [Item.text, hv]
      have hbehind : equals ∈ behind := by
        rw [htext, hkey', List.mem_append] at heq
        exact heq.resolve_left h.equals_not_mem_key
      have hlong : i.text.length < (compared i is).length + 1 := by
        have hall : ∀ x ∈ i.key, decide (x ≠ equals) = true :=
          fun x hx => decide_eq_true fun he => h.equals_not_mem_key (he ▸ hx)
        rw [hcompared, htext, hkey', List.takeWhile_append_of_pos hall, List.length_append]
        omega
      rw [if_pos hlong]
      exact (if_pos (hmem.mp hbehind)).symm
  · have hall : (render (i :: is)).takeWhile (· ≠ equals) = render (i :: is) :=
      List.takeWhile_eq_self_iff.mpr fun x hx => decide_eq_true fun he => heq (he ▸ hx)
    have hv : i.value = none := by
      cases hv : i.value with
      | none => rfl
      | some v => simp [htext, Item.text, hv] at heq
    have hkey' : i.text = i.key := by simp [Item.text, hv]
    have hcompared : compared i is = i.text := (if_neg heq).trans hkey'.symm
    have hprefix : i.text <+: render (i :: is) := htext ▸ List.prefix_append _ _
    have hrest : equals ∉ render is := fun hin => heq (htext ▸ List.mem_append_right _ (hmem.mpr hin))
    rw [hall, if_neg (lt_irrefl _), hcompared, taken, hv]
    simp only [take_eq_iff hprefix, if_neg hrest]

theorem length_render_lt (h : i.Valid) : (render is).length < (render (i :: is)).length := by
  obtain ⟨behind, htext, hdrop, -, -⟩ := render_cons i is
  have hpos := List.length_pos_of_ne_nil h.key_ne
  rw [htext, ← hdrop, List.length_drop, List.length_append, Item.text, List.length_append]
  omega

theorem getOptionLoop_at (items : List Item) (h : ∀ i ∈ items, i.Valid) {opts bytes : Str}
    (hr : getOptionLoop name size defval fuel (render items) = .value opts bytes) :
    opts.length ≤ (render items).length := by
  have hnot (hr : notFound defval size = .value opts bytes) : False := by
    cases defval <;> cases hr
  induction items generalizing fuel with
  | nil =>
    cases fuel with
    | zero => exact (hnot hr).elim
    | succ fuel => exact (hnot hr).elim
  | cons i is ih =>
    cases fuel with
    | zero => exact (hnot hr).elim
    | succ fuel =>
      have hi := h i List.mem_cons_self
      rw [getOptionLoop_cons hi] at hr
      split at hr
      · rw [taken] at hr
        split at hr
        · cases hr
          exact le_rfl
        · split at hr <;> cases hr
          exact le_rfl
      · exact (ih (fun j hj => h j (List.mem_cons_of_mem i hj)) hr).trans (length_render_lt hi).le

theorem Right.cases {r : Result} {items : List Item} (h : ∀ i ∈ items, i.Valid) (hr : Right name size defval r items) :
    r = notFound defval size ∨ ∃ opts bytes, r = .value opts bytes ∧ opts.length ≤ (render items).length := by
  induction items with
  | nil => exact .inl hr
  | cons i is ih =>
    rw [Right] at hr
    split at hr
    · exact .inr ⟨_, _, hr, le_rfl⟩
    · rcases ih (fun j hj => h j (List.mem_cons_of_mem i hj)) hr with hnone | ⟨opts, bytes, hvalue, hle⟩
      · exact .inl hnone
      · exact .inr ⟨opts, bytes, hvalue, hle.trans (length_render_lt (h i List.mem_cons_self)).le⟩

theorem taken_cases (size : ℕ) (i : Item) (is : List Item) :
    taken size i is = .fault ∨ ∃ bytes, taken size i is = .value (render (i :: is)) bytes := by
  rw [taken]
  split
  · exact .inr ⟨_, rfl⟩
  · split
    · exact .inl rfl
    · exact .inr ⟨_, rfl⟩

theorem cut_iff {v : Str} (hzero : 0 ∉ v) (hsize : 1 ≤ size) :
    (if size < v.length then v.take size else v ++ [0]) = v.take (size - 1) ++ [0] ↔ v.length < size := by
  split
  · next hlong =>
    refine iff_of_false (fun heq => hzero ?_) (by omega)
    have hmem : (0 : UInt8) ∈ v.take size := heq ▸ List.mem_append_right _ (List.mem_singleton.mpr rfl)
    exact List.mem_of_mem_take hmem
  · rw [List.append_left_inj, eq_comm, List.take_eq_self_iff]
    omega

/-- `get_option` reads an option string as a map exactly if the string is legible for the name. -/
theorem getOption_right_iff (items : List Item) (h : ∀ i ∈ items, i.Valid) (name : Str) (hsize : 1 ≤ size)
    (defval : Option Str) :
    Right name size defval (getOption (some (render items)) name size defval) items ↔ Legible name size items := by
  have hloop (fuel : ℕ) (hfuel : (render items).length < fuel) :
      Right name size defval (getOptionLoop name size defval fuel (render items)) items ↔ Legible name size items := by
    induction items generalizing fuel with
    | nil =>
      obtain ⟨fuel, rfl⟩ := Nat.exists_eq_add_of_lt hfuel
      exact iff_of_true rfl trivial
    | cons i is ih =>
      have hi := h i List.mem_cons_self
      have his : ∀ j ∈ is, j.Valid := fun j hj => h j (List.mem_cons_of_mem i hj)
      have hlt : (render is).length < (render (i :: is)).length := length_render_lt hi
      obtain ⟨fuel, rfl⟩ := Nat.exists_eq_add_of_lt (Nat.zero_lt_of_lt hfuel)
      rw [Nat.zero_add, getOptionLoop_cons hi, Right, Legible]
      by_cases hname : i.key = name
      · rw [if_pos hname]
        split
        · rw [taken]
          cases hv : i.value with
          | some v => simp [cut_iff (hi.value_chars v hv).2 hsize]
          | none =>
            simp only [forall_const, Option.getD_none, List.length_nil]
            split
            · next heq => simp [heq]
            · next hne => simp [hne, Nat.lt_of_succ_le hsize]
        · next hnot =>
          refine iff_of_false (fun hr => ?_) fun hlast => hnot ?_
          · exact absurd (getOptionLoop_at is his hr) (not_le.mpr hlt)
          · rw [compared_eq_key hi hlast.1, hname]
      · rw [if_neg hname]
        split
        · next hpre =>
          refine iff_of_false (fun hr => ?_) fun hlegible => hlegible.1 hpre
          rcases hr.cases his with hnone | ⟨opts, bytes, hvalue, hle⟩
          · rcases taken_cases size i is with heq | ⟨bytes, heq⟩ <;> rw [heq] at hnone <;> cases defval <;> cases hnone
          · rcases taken_cases size i is with heq | ⟨bytes, heq⟩ <;> rw [heq] at hvalue <;> cases hvalue
            exact absurd hle (not_le.mpr hlt)
        · next hnot => exact (ih his fuel (by omega)).trans (by simp [hnot])
  exact hloop _ (Nat.lt_succ_self _)

/-- `a=1,ab=2`, with the letters as 97 and 98. -/
def prefixKeys : List Item := [⟨[97], some [49]⟩, ⟨[97, 98], some [50]⟩]

theorem prefixKeys_valid : ∀ i ∈ prefixKeys, i.Valid := by
  intro i hi
  simp only [prefixKeys, List.mem_cons, List.not_mem_nil, or_false] at hi
  rcases hi with rfl | rfl
  · exact ⟨by decide, by simp [space, comma, equals], by rintro _ ⟨⟩; decide⟩
  · exact ⟨by decide, by simp [space, comma, equals], by rintro _ ⟨⟩; decide⟩

theorem getOption_right_first : Right [97] 8 none (getOption (some (render prefixKeys)) [97] 8 none) prefixKeys :=
  (getOption_right_iff prefixKeys prefixKeys_valid [97] (by decide) none).mpr (by simp [prefixKeys, Legible])

/-- `ab` is given the value of `a`. -/
theorem shorter_key_found : ¬ ∀ (items : List Item) (name : Str) (size : ℕ) (defval : Option Str),
    (∀ i ∈ items, i.Valid) → 1 ≤ size →
      Right name size defval (getOption (some (render items)) name size defval) items := by
  intro h
  have hright := h prefixKeys [97, 98] 8 none prefixKeys_valid (by decide)
  have hvalue : getOption (some (render prefixKeys)) [97, 98] 8 none = .value (render (prefixKeys.drop 1)) [50, 0] := hright
  exact absurd hvalue (by decide)

end SimpleKernel.Os.Options
