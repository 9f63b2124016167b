import Mathlib.Data.List.DropRight
import Mathlib.Data.UInt
import Mathlib.Data.Fintype.EquivFin

/-! Configuration files (`lib/inifile.c`) and the bindings that the kernel reads from one (`krnl/dev.c`). A pointer that
is missing is `none`, and so is a function that uses such a pointer. Memory does not run out. -/
namespace SimpleKernel.Os.Inifile

/-- The characters of a string before its NUL. -/
abbrev Str := List UInt8

def isWhite (c : UInt8) : Bool := c == 32 || c == 9
def isEol (c : UInt8) : Bool := c == 13 || c == 10

def hexDigit (c : UInt8) : Option UInt8 :=
  if 48 ≤ c ∧ c ≤ 57 then some (c - 48)
  else if 65 ≤ c ∧ c ≤ 70 then some (c - 65 + 10)
  else if 97 ≤ c ∧ c ≤ 102 then some (c - 97 + 10)
  else none

/-- The copying loop of `trimstr`: `^` and up to two hexadecimal digits are a character. -/
def decode : Str → Str
  | [] => []
  | 94 :: a :: b :: s =>
    match hexDigit a, hexDigit b with
    | some x, some y => (x * 16 + y) :: decode s
    | some x, none => x :: decode (b :: s)
    | none, _ => 0 :: decode (a :: b :: s)
  | [94, a] =>
    match hexDigit a with
    | some x => [x]
    | none => 0 :: decode [a]
  | c :: s => (if c = 94 then 0 else c) :: decode s

/-- `trimstr`; the string that is returned ends at its first NUL. -/
def trimstr (s : Str) : Option Str :=
  let s := s.rdropWhile isWhite
  if s = [] then none else some ((decode s).takeWhile (· ≠ 0))

structure Property where
  name : Option Str
  value : Option Str
  deriving DecidableEq

structure Section where
  name : Option Str
  properties : List Property
  deriving DecidableEq

/-- What a turn of `parse_properties` finds. -/
inductive Item
  | blank
  | heading (name : Option Str)
  | property (prop : Property)

def skipChar (c : UInt8) (p : Str) : Str := if p.head? = some c then p.tail else p

def skipEol (p : Str) : Str := skipChar 10 (skipChar 13 p)

/-- `name=value` or `name:value`. -/
def property (line : Str) : Property :=
  let name := line.takeWhile fun c => c ≠ 61 ∧ c ≠ 58
  if name.length < line.length then ⟨trimstr name, trimstr ((line.drop (name.length + 1)).dropWhile isWhite)⟩
  else ⟨trimstr line, none⟩

/-- A turn of the loop of `parse_properties`, with the rest of the text. -/
def turn (p : Str) : Item × Str :=
  match p.dropWhile isWhite with
  | [] => (.blank, [])
  | c :: rest =>
    let next := skipEol ((c :: rest).dropWhile fun c => !isEol c)
    if c = 35 ∨ c = 59 then (.blank, next)
    else if isEol c then (.blank, skipEol (c :: rest))
    else if c = 91 then (.heading (trimstr (rest.takeWhile (· ≠ 93))), (rest.dropWhile (· ≠ 93)).drop 1)
    else (.property (property ((c :: rest).takeWhile fun c => !isEol c)), next)

/-- `parse_properties` for at most so many turns: the rest of the text, the sections that are complete, and `sect`. -/
def parseLoop : ℕ → Str → List Section → Option Section → Option (List Section)
  | _, [], done, sect => some (done ++ sect.toList)
  | 0, _ :: _, _, _ => none
  | n + 1, c :: p, done, sect =>
    let (item, rest) := turn (c :: p)
    match item with
    | .blank => parseLoop n rest done sect
    | .heading name => parseLoop n rest (done ++ sect.toList) (some ⟨name, []⟩)
    | .property prop => parseLoop n rest done (sect.map fun s => { s with properties := s.properties ++ [prop] })

def parseProperties (props : Str) : Option (List Section) := parseLoop props.length props [] none

/-- The first element of a list of structures that has the name `name`. -/
def findNamed {α : Type} (nameOf : α → Option Str) : List α → Str → Option (Option α)
  | [], _ => some none
  | x :: xs, name =>
    match nameOf x with
    | none => none
    | some n => if n = name then some (some x) else findNamed nameOf xs name

def findSection (sect : List Section) (name : Str) : Option (Option Section) := findNamed Section.name sect name

def findProperty (sect : Section) (name : Str) : Option (Option Str) :=
  (findNamed Property.name sect.properties name).map fun prop => prop.map fun prop => prop.value.getD []

def getProperty (sections : List Section) (sectname propname : Str) (defval : Option Str) : Option (Option Str) := do
  match ← findSection sections sectname with
  | none => pure defval
  | some sect => do
    match ← findProperty sect propname with
    | none => pure defval
    | some val => pure (some val)

/-- `struct binding`. -/
structure Binding where
  bustype : ℕ
  bindtype : ℕ
  code : UInt32
  mask : UInt32
  module : Option Str

/-- The loop over the digits. -/
def bindCode : Str → UInt32 × UInt32 → UInt32 × UInt32
  | [], r => r
  | c :: q, (code, mask) =>
    match hexDigit c with
    | some digit => bindCode q ((code <<< 4) ||| digit.toUInt32, (mask <<< 4) ||| 0xF)
    | none => bindCode q (code <<< 4, mask <<< 4)

/-- The fields of a name, and `none` where `parse_bindings` starts with it again. -/
def parseBinding (name : Str) (value : Option Str) : Option Binding :=
  let bus := name.takeWhile (· ≠ 32)
  match name.dropWhile (· ≠ 32) with
  | [] => none
  | _ :: q =>
    let q := q.dropWhile (· = 32)
    let type := q.takeWhile (· ≠ 32)
    match q.dropWhile (· ≠ 32) with
    | [] => none
    | _ :: q =>
      let r := bindCode (q.dropWhile (· = 32)) (0, 0)
      some {
        bustype := if bus = [112, 99, 105] then 1 else if bus = [105, 115, 97] then 2 else 0
        bindtype := if type = [99, 108, 97, 115, 115] then 1 else if type = [117, 110, 105, 116] then 2
          else if type = [115, 117, 98, 117, 110, 105, 116] then 3 else 0
        code := r.1
        mask := r.2
        module := value }

inductive Outcome
  | fault
  | running
  | done (bindtab : List Binding)

/-- The loop of `parse_bindings` after at most so many turns, with the part of the table that is filled. -/
def bindLoop (numBindings : ℕ) : ℕ → List Property → List Binding → Outcome
  | _, [], tab => .done tab
  | 0, _ :: _, _ => .running
  | n + 1, prop :: props, tab =>
    match prop.name with
    | none => .fault
    | some name =>
      if 128 ≤ name.length ∨ numBindings ≤ tab.length then .fault
      else
        match parseBinding name prop.value with
        | none => bindLoop numBindings n (prop :: props) tab
        | some bind => bindLoop numBindings n props (tab ++ [bind])

def bindings : Str := [98, 105, 110, 100, 105, 110, 103, 115]

/-- `parse_bindings`, with the size of the section from `get_section_size`. -/
def parseBindings (n : ℕ) (krnlcfg : List Section) : Outcome :=
  match findSection krnlcfg bindings with
  | none => .fault
  | some none => .done []
  | some (some sect) => bindLoop sect.properties.length n sect.properties []

/-- What the lines of a text say, for at most so many of them. -/
def items : ℕ → Str → List Item
  | _, [] => []
  | 0, _ :: _ => []
  | n + 1, c :: p => (turn (c :: p)).1 :: items n (turn (c :: p)).2

/-- The properties before the first heading, and the sections. -/
def grouped : List Item → List Property × List Section
  | [] => ([], [])
  | .blank :: l => grouped l
  | .heading name :: l => ([], ⟨name, (grouped l).1⟩ :: (grouped l).2)
  | .property prop :: l => (prop :: (grouped l).1, (grouped l).2)

def sectionsOf (text : Str) : List Section := (grouped (items text.length text)).2

/-- The first property `p` of the first section `s`, or `d`. -/
def lookup (sections : List Section) (s p : Str) (d : Option Str) : Option Str :=
  ((sections.find? (·.name = some s)).bind fun x => x.properties.find? (·.name = some p)).elim d
    fun prop => some (prop.value.getD [])

/-- Two fields with blanks behind them. -/
def Fields (name : Str) : Prop := 32 ∈ (name.dropWhile (· ≠ 32)).dropWhile (· = 32)

/-- All sections have names, and all properties of the first section of any name; those of the bindings fit in the
line buffer and have their fields. -/
structure Legible (sections : List Section) : Prop where
  named : ∀ x ∈ sections, x.name ≠ none
  properties : ∀ n x, sections.find? (·.name = some n) = some x → ∀ prop ∈ x.properties, prop.name ≠ none
  fields : ∀ x, sections.find? (·.name = some bindings) = some x → ∀ prop ∈ x.properties,
    ∀ n, prop.name = some n → n.length < 128 ∧ Fields n

/-- The text is parsed, every property can be asked for, and the bindings are read. -/
def Handled (text : Str) : Prop :=
  ∃ sections, parseProperties text = some sections ∧
    (∀ s p d, getProperty sections s p d = some (lookup (sectionsOf text) s p d)) ∧
    ∃ n bindtab, parseBindings n sections = .done bindtab

variable {α : Type} {nameOf : α → Option Str} {l : List α} {name s p : Str} {d : Option Str} {n k : ℕ}
  {props : List Property} {tab : List Binding}

theorem length_skipChar_le (c : UInt8) (p : Str) : (skipChar c p).length ≤ p.length := by
  rw [skipChar]
  split
  · rw [List.length_tail]
    omega
  · exact le_rfl

theorem length_skipEol_le (p : Str) : (skipEol p).length ≤ p.length :=
  (length_skipChar_le 10 _).trans (length_skipChar_le 13 p)

theorem length_turn_lt (hp : p ≠ []) : (turn p).2.length < p.length := by
  have hpos := List.length_pos_of_ne_nil hp
  have hwhite := (List.dropWhile_sublist isWhite (l := p)).length_le
  rw [turn]
  split
  · exact hpos
  · next c rest hrest =>
    rw [hrest, List.length_cons] at hwhite
    have hline := (List.dropWhile_sublist (fun c => !isEol c) (l := rest)).length_le
    have hhead := (List.dropWhile_sublist (· ≠ 93) (l := rest)).length_le
    have hnext (hc : isEol c = false) : (skipEol ((c :: rest).dropWhile fun c => !isEol c)).length < p.length := by
      rw [List.dropWhile_cons_of_pos (by simp [hc])]
      exact (length_skipEol_le _).trans_lt (by omega)
    dsimp only
    split
    · next hcomment => exact hnext (by rcases hcomment with rfl | rfl <;> rfl)
    split
    · next heol =>
      have hle : (skipEol (c :: rest)).length ≤ rest.length := by
        rw [isEol, Bool.or_eq_true, beq_iff_eq, beq_iff_eq] at heol
        rcases heol with rfl | rfl
        · exact length_skipChar_le 10 rest
        · exact le_rfl
      exact hle.trans_lt (by omega)
    · next heol =>
      split
      · dsimp only
        rw [List.length_drop]
        omega
      · exact hnext (by simpa using heol)

theorem parseLoop_eq (hn : p.length ≤ n) (done : List Section) (sect : Option Section) :
    parseLoop n p done sect = some (done ++
      (sect.map fun x => { x with properties := x.properties ++ (grouped (items n p)).1 }).toList ++
      (grouped (items n p)).2) := by
  induction n generalizing p done sect with
  | zero =>
    obtain rfl := List.length_eq_zero_iff.mp (Nat.le_zero.mp hn)
    cases sect <;> simp [parseLoop, items, grouped]
  | succ n ih =>
    cases p with
    | nil => cases sect <;> simp [parseLoop, items, grouped]
    | cons c p =>
      have hlt := length_turn_lt (List.cons_ne_nil c p)
      have hle : (turn (c :: p)).2.length ≤ n := by
        rw [List.length_cons] at hlt hn
        omega
      rw [parseLoop, items]
      generalize turn (c :: p) = t at hle
      obtain ⟨item, rest⟩ := t
      cases item with
      | blank => exact ih hle done sect
      | heading name =>
        refine (ih hle _ _).trans ?_
        simp [grouped]
      | property prop =>
        refine (ih hle _ _).trans ?_
        cases sect <;> simp [grouped]

theorem parseProperties_eq (text : Str) : parseProperties text = some (sectionsOf text) := parseLoop_eq le_rfl [] none

theorem findNamed_eq (h : ∀ x ∈ l, nameOf x ≠ none) (name : Str) :
    findNamed nameOf l name = some (l.find? fun x => nameOf x = some name) := by
  induction l with
  | nil => rfl
  | cons x l ih =>
    rw [List.forall_mem_cons] at h
    obtain ⟨n, hn⟩ := Option.ne_none_iff_exists'.mp h.1
    rw [findNamed, List.find?_cons, hn]
    by_cases hname : n = name
    · simp [hname]
    · simpa [hname] using ih h.2

theorem names_of_findNamed (h : ∀ name, findNamed nameOf l name ≠ none) : ∀ x ∈ l, nameOf x ≠ none := by
  -- a name that nothing has is looked for in all of the list
  obtain ⟨name, hfresh⟩ := Infinite.exists_notMem_finset (l.filterMap nameOf).toFinset
  have hall := h name
  simp only [List.mem_toFinset, List.mem_filterMap, not_exists, not_and] at hfresh
  clear h
  induction l with
  | nil => simp
  | cons x l ih =>
    rw [List.forall_mem_cons] at hfresh ⊢
    rw [findNamed] at hall
    cases hx : nameOf x with
    | none => simp [hx] at hall
    | some n =>
      have hne : n ≠ name := fun heq => hfresh.1 (hx.trans (congrArg some heq))
      simp only [hx, if_neg hne] at hall
      exact ⟨by simp, ih hall hfresh.2⟩

theorem parseBinding_none (value : Option Str) : parseBinding name value = none ↔ ¬Fields name := by
  have hhead {q : Str} : q.dropWhile (· ≠ 32) = [] ↔ 32 ∉ q := by
    rw [List.dropWhile_eq_nil_iff]
    simp only [decide_eq_true_eq]
    exact ⟨fun h hmem => h 32 hmem rfl, fun h c hc heq => h (heq ▸ hc)⟩
  rw [parseBinding, Fields]
  split
  · next hbus =>
    rw [hbus]
    simp
  · next c q hbus =>
    have hc : c = 32 := by
      have hnot := List.head?_dropWhile_not (fun c : UInt8 => decide (c ≠ 32)) name
      rw [hbus] at hnot
      simpa using hnot
    rw [hbus, List.dropWhile_cons_of_pos (by simp [hc])]
    dsimp only
    split
    · next htype => exact iff_of_true rfl (hhead.mp htype)
    · next htype =>
      refine iff_of_false (by simp) (not_not.mpr (not_not.mp fun hmem => ?_))
      rw [hhead.mpr hmem] at htype
      cases htype

theorem bindLoop_stuck {q : Property} (hname : q.name = some name) (hfields : ¬Fields name)
    (hroom : ¬(128 ≤ name.length ∨ k ≤ tab.length)) : bindLoop k n (q :: props) tab = .running := by
  induction n with
  | zero => rfl
  | succ n ih =>
    rw [bindLoop, hname]
    dsimp only
    rw [if_neg hroom, (parseBinding_none q.value).mpr hfields]
    exact ih

theorem bindLoop_done_iff (hk : tab.length + props.length = k) :
    (∃ n bindtab, bindLoop k n props tab = .done bindtab) ↔
      ∀ q ∈ props, ∃ name, q.name = some name ∧ name.length < 128 ∧ Fields name := by
  induction props generalizing tab with
  | nil => exact iff_of_true ⟨0, tab, rfl⟩ (by simp)
  | cons q props ih =>
    rw [List.length_cons] at hk
    rw [List.forall_mem_cons]
    constructor
    · rintro ⟨n, bindtab, hrun⟩
      cases n with
      | zero => cases hrun
      | succ n =>
        cases hname : q.name with
        | none => simp [bindLoop, hname] at hrun
        | some name =>
          by_cases hroom : 128 ≤ name.length ∨ k ≤ tab.length
          · simp [bindLoop, hname, hroom] at hrun
          by_cases hfields : Fields name
          · obtain ⟨b, hb⟩ := Option.ne_none_iff_exists'.mp ((parseBinding_none q.value).not.mpr (not_not.mpr hfields))
            simp only [bindLoop, hname, hb, if_neg hroom] at hrun
            have hrest := (ih (by rw [List.length_append, List.length_singleton]; omega)).mp
              ⟨n, bindtab, hrun⟩
            exact ⟨⟨name, rfl, by omega, hfields⟩, hrest⟩
          · rw [bindLoop_stuck hname hfields hroom] at hrun
            cases hrun
    · rintro ⟨⟨name, hname, hlen, hfields⟩, hrest⟩
      obtain ⟨b, hb⟩ := Option.ne_none_iff_exists'.mp ((parseBinding_none q.value).not.mpr (not_not.mpr hfields))
      have hcount : (tab ++ [b]).length + props.length = k := by
        rw [List.length_append, List.length_singleton]
        omega
      obtain ⟨n, bindtab, hrun⟩ := (ih hcount).mpr hrest
      refine ⟨n + 1, bindtab, ?_⟩
      simp only [bindLoop, hname, hb]
      rw [if_neg (by omega)]
      exact hrun

theorem handled_iff (text : Str) : Handled text ↔ Legible (sectionsOf text) := by
  have hparse := parseProperties_eq text
  have hfound (named : ∀ x ∈ sectionsOf text, x.name ≠ none) (s : Str) :
      findSection (sectionsOf text) s = some ((sectionsOf text).find? (·.name = some s)) := findNamed_eq named s
  constructor
  · rintro ⟨sections, hsections, hget, n, bindtab, hrun⟩
    obtain rfl := Option.some.inj (hparse.symm.trans hsections)
    have hnamed : ∀ x ∈ sectionsOf text, x.name ≠ none := names_of_findNamed fun s hnone => by
      have hlook := hget s [] none
      rw [getProperty, findSection, hnone] at hlook
      cases hlook
    refine ⟨hnamed, fun s x hx => names_of_findNamed fun p hnone => ?_, fun x hx q hq name hname => ?_⟩
    · have hlook := hget s p none
      rw [getProperty, hfound hnamed, hx] at hlook
      simp [findProperty, hnone] at hlook
    · rw [parseBindings, hfound hnamed, hx] at hrun
      obtain ⟨_, heq, hfields⟩ := (bindLoop_done_iff (Nat.zero_add _)).mp ⟨n, bindtab, hrun⟩ q hq
      obtain rfl := Option.some.inj (hname.symm.trans heq)
      exact hfields
  · intro h
    refine ⟨sectionsOf text, hparse, fun s p d => ?_, ?_⟩
    · rw [getProperty, hfound h.named, lookup]
      cases hx : (sectionsOf text).find? (·.name = some s) with
      | none => rfl
      | some x =>
        simp only [findProperty, findNamed_eq (h.properties s x hx) p, Option.bind_some, Option.map_some, Option.bind_eq_bind]
        cases x.properties.find? (·.name = some p) <;> rfl
    · simp only [parseBindings, hfound h.named]
      cases hx : (sectionsOf text).find? (·.name = some bindings) with
      | none => exact ⟨0, [], rfl⟩
      | some x =>
        refine (bindLoop_done_iff (Nat.zero_add _)).mpr fun q hq => ?_
        obtain ⟨name, hname⟩ := Option.ne_none_iff_exists'.mp (h.properties _ x hx q hq)
        exact ⟨name, hname, h.fields x hx q hq name hname⟩

theorem bindings_hang : ¬Handled (91 :: bindings ++ [93, 10, 112, 99, 105]) := by
  rintro ⟨sections, hparse, -, n, bindtab, hrun⟩
  obtain rfl := Option.some.inj (hparse.symm.trans (by decide : _ = some [⟨some bindings, [⟨some [112, 99, 105], none⟩]⟩]))
  cases (bindLoop_stuck rfl (by unfold Fields; decide) (by decide)).symm.trans hrun

end SimpleKernel.Os.Inifile
