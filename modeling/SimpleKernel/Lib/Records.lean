import SimpleKernel.Lib.Splice
import Mathlib.Data.Nat.ModEq

/-! Byte arrays that hold words of 32 bits, and records of different lengths that lie one after the
other. -/
namespace SimpleKernel.Records
open Splice

section Words
variable {d d' : ℕ → UInt8} {p start o v : ℕ} {a : List UInt8}

/-- The bytes of a word, the lowest one first. -/
def bytes32 (v : ℕ) : List UInt8 :=
  [UInt8.ofNat v, UInt8.ofNat (v / 2 ^ 8), UInt8.ofNat (v / 2 ^ 16), UInt8.ofNat (v / 2 ^ 24)]

def get32 (d : ℕ → UInt8) (p : ℕ) : ℕ :=
  (d p).toNat + 2 ^ 8 * (d (p + 1)).toNat + 2 ^ 16 * (d (p + 2)).toNat + 2 ^ 24 * (d (p + 3)).toNat

def put32 (d : ℕ → UInt8) (p v : ℕ) : ℕ → UInt8 := patch d p (bytes32 v)

theorem patch_outside (d : ℕ → UInt8) (h : o < start ∨ start + a.length ≤ o) :
    patch d start a o = d o :=
  h.elim (patch_of_lt d) (patch_of_ge d)

theorem put32_outside (d : ℕ → UInt8) (v : ℕ) (h : o < p ∨ p + 4 ≤ o) : put32 d p v o = d o :=
  patch_outside d h

theorem get32_congr (h : ∀ o, p ≤ o → o < p + 4 → d' o = d o) : get32 d' p = get32 d p := by
  rw [get32, get32, h p (by omega) (by omega), h (p + 1) (by omega) (by omega),
    h (p + 2) (by omega) (by omega), h (p + 3) (by omega) (by omega)]

theorem get32_put32 (d : ℕ → UInt8) (p v : ℕ) : get32 (put32 d p v) p = v % 2 ^ 32 := by
  have hbyte (k : ℕ) (hk : k < 4) : some (put32 d p v (p + k)) = (bytes32 v)[k]? := by
    have hmem := patch_mem (a := bytes32 v) d (Nat.le_add_right p k) (Nat.add_lt_add_left hk p)
    rwa [Nat.add_sub_cancel_left] at hmem
  have h₀ : put32 d p v p = UInt8.ofNat v := Option.some.inj (hbyte 0 (by decide))
  have h₁ : put32 d p v (p + 1) = UInt8.ofNat (v / 2 ^ 8) := Option.some.inj (hbyte 1 (by decide))
  have h₂ : put32 d p v (p + 2) = UInt8.ofNat (v / 2 ^ 16) := Option.some.inj (hbyte 2 (by decide))
  have h₃ : put32 d p v (p + 3) = UInt8.ofNat (v / 2 ^ 24) := Option.some.inj (hbyte 3 (by decide))
  rw [get32, h₀, h₁, h₂, h₃]
  simp only [UInt8.toNat_ofNat']
  omega

end Words

section Tiles
variable {α : Type*} {At At' : ℕ → α → Prop} {len : α → ℕ} {p q e : ℕ} {rs ss : List α} {r : α}

/-- The records `rs` lie one after the other from `p` to `e`. -/
def Tiles (At : ℕ → α → Prop) (len : α → ℕ) : ℕ → List α → ℕ → Prop
  | p, [], e => p = e
  | p, r :: rs, e => At p r ∧ Tiles At len (p + len r) rs e

theorem Tiles.singleton (h : At p r) : Tiles At len p [r] (p + len r) := ⟨h, rfl⟩

theorem Tiles.append_iff :
    Tiles At len p (rs ++ ss) e ↔ ∃ m, Tiles At len p rs m ∧ Tiles At len m ss e := by
  induction rs generalizing p with
  | nil => simp [Tiles]
  | cons r rs ih => simp [Tiles, ih, and_assoc]

theorem Tiles.append {m : ℕ} (h : Tiles At len p rs m) (h' : Tiles At len m ss e) :
    Tiles At len p (rs ++ ss) e :=
  append_iff.mpr ⟨m, h, h'⟩

theorem Tiles.le (h : Tiles At len p rs e) : p ≤ e := by
  induction rs generalizing p with
  | nil => exact le_of_eq h
  | cons r rs ih => exact (Nat.le_add_right p (len r)).trans (ih h.2)

theorem Tiles.congr (h : Tiles At len p rs e)
    (hat : ∀ q r, p ≤ q → q + len r ≤ e → At q r → At' q r) : Tiles At' len p rs e := by
  induction rs generalizing p with
  | nil => exact h
  | cons r rs ih =>
    refine ⟨hat p r le_rfl h.2.le h.1, ih h.2 fun q s hq hle => ?_⟩
    exact hat q s (by omega) hle

theorem Tiles.last (h : Tiles At len p (rs ++ [r]) q) :
    ∃ m, Tiles At len p rs m ∧ At m r ∧ q = m + len r := by
  obtain ⟨m, hrs, hr, hq⟩ := append_iff.mp h
  exact ⟨m, hrs, hr, hq.symm⟩

/-- One record among the others. -/
structure Splits (At : ℕ → α → Prop) (len : α → ℕ) (p : ℕ) (pre : List α) (r : α) (post : List α)
    (e q : ℕ) : Prop where
  before : Tiles At len p pre q
  here : At q r
  after : Tiles At len (q + len r) post e

/-- The records are followed through their lengths up to the first one that passes the test. The
result is its position and the one before it; `none` if the records do not end within `n` steps. -/
def walk (step : ℕ → ℕ) (test : ℕ → Bool) (e : ℕ) :
    ℕ → Option ℕ → ℕ → Option (Option (Option ℕ × ℕ))
  | 0, _, p => if p < e then none else some none
  | n + 1, prev, p =>
    if p < e then
      if test p then some (some (prev, p)) else walk step test e n (some p) (p + step p)
    else some none

/-- The position of the last record of `pre`, which ends at `q`. -/
def lastStart (len : α → ℕ) (prev : Option ℕ) (pre : List α) (q : ℕ) : Option ℕ :=
  match pre.getLast? with
  | none => prev
  | some s => some (q - len s)

variable {step : ℕ → ℕ} {test : ℕ → Bool} {t : α → Bool} {n : ℕ}

theorem Tiles.walk (prev : Option ℕ) (h : Tiles At len p rs e) (hstep : ∀ q r, At q r → step q = len r ∧ 0 < len r)
    (htest : ∀ q r, At q r → test q = t r) (hn : e - p ≤ n) :
    (walk step test e n prev p = some none ∧ ∀ r ∈ rs, t r = false) ∨
      ∃ pre r post q, rs = pre ++ r :: post ∧ Splits At len p pre r post e q ∧
        (∀ s ∈ pre, t s = false) ∧ t r = true ∧
        walk step test e n prev p = some (some (lastStart len prev pre q, q)) := by
  induction rs generalizing p n prev with
  | nil =>
    obtain rfl : p = e := h
    left
    refine ⟨?_, fun r hr => absurd hr List.not_mem_nil⟩
    cases n with
    | zero => rw [Records.walk, if_neg (lt_irrefl p)]
    | succ n => rw [Records.walk, if_neg (lt_irrefl p)]
  | cons r rs ih =>
    obtain ⟨hr, hrs⟩ := h
    obtain ⟨hlen, hpos⟩ := hstep p r hr
    have hle := hrs.le
    obtain ⟨n, rfl⟩ : ∃ k, n = k + 1 := ⟨n - 1, by omega⟩
    rw [Records.walk, if_pos (by omega), htest p r hr, hlen]
    by_cases ht : t r = true
    · right
      rw [if_pos ht]
      exact ⟨[], r, rs, p, rfl, ⟨rfl, hr, hrs⟩, fun s hs => absurd hs List.not_mem_nil, ht, rfl⟩
    · rw [if_neg ht]
      rcases ih (some p) hrs (by omega : e - (p + len r) ≤ n) with
        ⟨hwalk, hno⟩ | ⟨pre, s, post, q, rfl, hsplit, hpre, hs, hwalk⟩
      · left
        refine ⟨hwalk, fun s hs => ?_⟩
        rcases List.mem_cons.mp hs with rfl | hmem
        · simpa using ht
        · exact hno s hmem
      · right
        refine ⟨r :: pre, s, post, q, rfl, ⟨⟨hr, hsplit.before⟩, hsplit.here, hsplit.after⟩, ?_, hs, ?_⟩
        · intro x hx
          rcases List.mem_cons.mp hx with rfl | hmem
          · simpa using ht
          · exact hpre x hmem
        · rw [hwalk]
          cases hlast : pre.getLast? with
          | none =>
            obtain rfl := List.getLast?_eq_none_iff.mp hlast
            have hq : p + len r = q := hsplit.before
            simp [lastStart, ← hq]
          | some x => simp [lastStart, List.getLast?_cons, hlast]

end Tiles

end SimpleKernel.Records
