import SimpleKernel.Net.IpHeader
import SimpleKernel.Tcp.Output

/-! `tcp_parseopt` of `net/tcp_input.c` on the bytes of a TCP header. -/
namespace SimpleKernel.Tcp
open Net Relation

def tcpHlen : ℕ := 20

/-- `TCPH_OFFSET`: the byte with the data offset, in words of 32 bits, in its high half. -/
def tcphOffset (h : ℕ → UInt8) : UInt16 := htons (get16 h 12) >>> 8

/-- What a turn of the loop over the options comes to. -/
inductive OptTurn
  | done
  | mss (v : UInt16)
  | next (c : UInt8)

/-- One turn at the position `c`, and which bytes of the options it reads. -/
def optTurn (opts : ℕ → UInt8) (c : UInt8) : OptTurn × List ℕ :=
  let i := c.toNat
  if opts i = 0 then (.done, [i])
  else if opts i = 1 then (.next (c + 1), [i])
  else if opts i = 2 ∧ opts (i + 1) = 4 then
    (.mss ((opts (i + 2)).toUInt16 <<< 8 ||| (opts (i + 3)).toUInt16), [i, i + 1, i + 2, i + 3])
  else if opts (i + 1) = 0 then (.done, [i, i + 1])
  else (.next (c + opts (i + 1)), [i, i + 1])

/-- At most `n` turns of the loop, with the MSS that was found and all bytes that were read; `none` when the loop has
not ended. -/
def optLoop (opts : ℕ → UInt8) (area : ℕ) : ℕ → UInt8 → Option (Option UInt16 × List ℕ)
  | 0, c => if c.toNat < area then none else some (none, [])
  | n + 1, c =>
    if c.toNat < area then
      match optTurn opts c with
      | (.done, reads) => some (none, reads)
      | (.mss v, reads) => some (some v, reads)
      | (.next c', reads) => (optLoop opts area n c').map fun r => (r.1, reads ++ r.2)
    else some (none, [])

/-- `mss > TCP_MSS ? TCP_MSS : mss`. -/
def limitMss (v : UInt16) : ℕ := if v.toNat > tcpMss then tcpMss else v.toNat

/-- The number of bytes of the options. -/
def optArea (h : ℕ → UInt8) : ℕ := ((tcphOffset h >>> 4).toNat - 5) <<< 2

/-- `tcp_parseopt` with at most `n` turns: the new `mss`, and the bytes of the header that were read. -/
def tcpParseopt (h : ℕ → UInt8) (mss n : ℕ) : Option (ℕ × List ℕ) :=
  if tcphOffset h &&& 0xF0 > 0x50 then
    (optLoop (fun i => h (tcpHlen + i)) (optArea h) n 0).map fun r =>
      (match r.1 with | none => mss | some v => limitMss v, r.2.map (tcpHlen + ·))
  else some (mss, [])

section
variable {opts : ℕ → UInt8} {area : ℕ} {same : UInt16 → Prop} {c : UInt8} {w : Bool} {a b : ℕ}

/-- An option with a length, other than the MSS option. -/
def Sized (opts : ℕ → UInt8) (i : ℕ) : Prop := opts i ≠ 0 ∧ opts i ≠ 1 ∧ ¬ (opts i = 2 ∧ opts (i + 1) = 4)

/-- The MSS option. -/
def IsMss (opts : ℕ → UInt8) (i : ℕ) : Prop := opts i = 2 ∧ opts (i + 1) = 4

def mssValue (opts : ℕ → UInt8) (i : ℕ) : UInt16 := (opts (i + 2)).toUInt16 <<< 8 ||| (opts (i + 3)).toUInt16

/-- The option at `b` follows the one at `a`. -/
def Next (opts : ℕ → UInt8) (area : ℕ) (a b : ℕ) : Prop :=
  (a < area ∧ opts a = 1 ∧ b = a + 1) ∨
    (a + 2 ≤ area ∧ Sized opts a ∧ opts (a + 1) ≠ 0 ∧ b = a + (opts (a + 1)).toNat)

/-- The options, one behind the other, lead to an MSS option with the value `v` that lies inside the area. -/
def FirstMss (opts : ℕ → UInt8) (area : ℕ) (v : UInt16) : Prop :=
  ∃ i, ReflTransGen (Next opts area) 0 i ∧ i + 4 ≤ area ∧ IsMss opts i ∧ v = mssValue opts i

/-- The counter of 8 bits comes from `c` to an end, with all that is read inside the area: the end of the area, an
end-of-list option, a length of zero, or an MSS option. Once the counter has wrapped around, which `w` tells, the value
of an MSS option has to be `same`. -/
inductive Ends (opts : ℕ → UInt8) (area : ℕ) (same : UInt16 → Prop) : Bool → UInt8 → Prop
  | past {w : Bool} {c : UInt8} (h : area ≤ c.toNat) : Ends opts area same w c
  | eol {w : Bool} {c : UInt8} (h : c.toNat < area) (hopt : opts c.toNat = 0) : Ends opts area same w c
  | nop {w : Bool} {c : UInt8} (h : c.toNat < area) (hopt : opts c.toNat = 1)
      (hnext : Ends opts area same w (c + 1)) : Ends opts area same w c
  | mss {w : Bool} {c : UInt8} (h : c.toNat + 4 ≤ area) (hopt : IsMss opts c.toNat)
      (hw : w = true → same (mssValue opts c.toNat)) : Ends opts area same w c
  | zero {w : Bool} {c : UInt8} (h : c.toNat + 2 ≤ area) (hopt : Sized opts c.toNat)
      (hlen : opts (c.toNat + 1) = 0) : Ends opts area same w c
  | skip {w : Bool} {c : UInt8} (h : c.toNat + 2 ≤ area) (hopt : Sized opts c.toNat)
      (hlen : opts (c.toNat + 1) ≠ 0)
      (hnext : Ends opts area same (w || decide (256 ≤ c.toNat + (opts (c.toNat + 1)).toNat))
        (c + opts (c.toNat + 1))) : Ends opts area same w c

theorem option_cases (opts : ℕ → UInt8) (i : ℕ) : opts i = 0 ∨ opts i = 1 ∨ IsMss opts i ∨ Sized opts i := by
  by_cases h0 : opts i = 0
  · exact .inl h0
  by_cases h1 : opts i = 1
  · exact .inr (.inl h1)
  by_cases hm : IsMss opts i
  · exact .inr (.inr (.inl hm))
  · exact .inr (.inr (.inr ⟨h0, h1, hm⟩))

theorem Next.lt (h : Next opts area a b) : a < b := by
  obtain ⟨-, -, rfl⟩ | ⟨-, -, hlen, rfl⟩ := h
  · omega
  · have hne : (opts (a + 1)).toNat ≠ 0 := fun h => hlen (UInt8.toNat_inj.mp h)
    omega

theorem next_unique : Relator.RightUnique (Next opts area) := by
  rintro a b b' (⟨-, hone, rfl⟩ | ⟨-, hsized, -, rfl⟩) (⟨-, hone', rfl⟩ | ⟨-, hsized', -, rfl⟩)
  · rfl
  · exact absurd hone hsized'.2.1
  · exact absurd hone' hsized.2.1
  · rfl

theorem le_of_reaches (h : ReflTransGen (Next opts area) a b) : a ≤ b := by
  induction h with
  | refl => exact le_rfl
  | tail _ hn ih => exact ih.trans hn.lt.le

theorem not_next_of_mss (h : IsMss opts a) : ¬ Next opts area a b := by
  rintro (⟨-, hone, -⟩ | ⟨-, hsized, -⟩)
  · rw [h.1] at hone
    exact absurd hone (by decide)
  · exact hsized.2.2 h

theorem not_firstMss (hreach : ReflTransGen (Next opts area) 0 a) (hnext : Next opts area a b) (hb : area ≤ b)
    (v : UInt16) : ¬ FirstMss opts area v := by
  rintro ⟨i, hi, hin, hmss, -⟩
  obtain h | h := ReflTransGen.total_of_right_unique next_unique hreach hi
  · obtain rfl | ⟨x, hx, hxi⟩ := ReflTransGen.cases_head h
    · exact not_next_of_mss hmss hnext
    · obtain rfl := next_unique hx hnext
      have := le_of_reaches hxi
      omega
  · obtain rfl | ⟨x, hx, -⟩ := ReflTransGen.cases_head h
    · exact not_next_of_mss hmss hnext
    · exact not_next_of_mss hmss hx

theorem optLoop_past (n : ℕ) (h : area ≤ c.toNat) : optLoop opts area n c = some (none, []) := by
  cases n with
  | zero => exact if_neg (by omega)
  | succ n => exact if_neg (by omega)

theorem optLoop_eol (n : ℕ) (h : c.toNat < area) (hopt : opts c.toNat = 0) :
    optLoop opts area (n + 1) c = some (none, [c.toNat]) := by
  simp [optLoop, h, optTurn, hopt]

theorem optLoop_nop (n : ℕ) (h : c.toNat < area) (hopt : opts c.toNat = 1) :
    optLoop opts area (n + 1) c = (optLoop opts area n (c + 1)).map fun r => (r.1, c.toNat :: r.2) := by
  simp [optLoop, h, optTurn, hopt]

theorem optLoop_mss (n : ℕ) (h : c.toNat < area) (hopt : IsMss opts c.toNat) : optLoop opts area (n + 1) c =
    some (some (mssValue opts c.toNat), [c.toNat, c.toNat + 1, c.toNat + 2, c.toNat + 3]) := by
  simp [optLoop, h, optTurn, mssValue, hopt.1, hopt.2]

theorem optLoop_zero (n : ℕ) (h : c.toNat < area) (hopt : Sized opts c.toNat) (hlen : opts (c.toNat + 1) = 0) :
    optLoop opts area (n + 1) c = some (none, [c.toNat, c.toNat + 1]) := by
  simp [optLoop, h, optTurn, hopt.1, hopt.2.1, hlen]

theorem optLoop_skip (n : ℕ) (h : c.toNat < area) (hopt : Sized opts c.toNat) (hlen : opts (c.toNat + 1) ≠ 0) :
    optLoop opts area (n + 1) c =
      (optLoop opts area n (c + opts (c.toNat + 1))).map fun r => (r.1, c.toNat :: (c.toNat + 1) :: r.2) := by
  have hturn : optTurn opts c = (.next (c + opts (c.toNat + 1)), [c.toNat, c.toNat + 1]) := by
    simp only [optTurn]
    rw [if_neg hopt.1, if_neg hopt.2.1, if_neg hopt.2.2, if_neg hlen]
  rw [optLoop, if_pos h, hturn]
  rfl

theorem toNat_nop (harea : area ≤ 40) (h : c.toNat < area) : (c + 1).toNat = c.toNat + 1 := by
  show (c.toNat + 1) % 256 = _
  omega

theorem toNat_skip {len : UInt8} (h : ¬ 256 ≤ c.toNat + len.toNat) : (c + len).toNat = c.toNat + len.toNat := by
  exact Nat.mod_eq_of_lt (not_le.mp h)

theorem Ends.run (h : Ends opts area same w c) (harea : area ≤ 40)
    (hreach : w = false → ReflTransGen (Next opts area) 0 c.toNat) :
    ∃ n r, optLoop opts area n c = some r ∧ (∀ i ∈ r.2, i < area) ∧
      ∀ v, r.1 = some v → same v ∨ FirstMss opts area v := by
  induction h with
  | past h => exact ⟨0, _, optLoop_past 0 h, by simp, by simp⟩
  | eol h hopt => exact ⟨1, _, optLoop_eol 0 h hopt, by simpa using h, by simp⟩
  | @nop w c h hopt hnext ih =>
    obtain ⟨n, r, hr, hin, hv⟩ := ih fun hw => by
      rw [toNat_nop harea h]
      exact (hreach hw).tail (.inl ⟨h, hopt, rfl⟩)
    refine ⟨n + 1, (r.1, c.toNat :: r.2), ?_, ?_, hv⟩
    · rw [optLoop_nop n h hopt, hr]
      rfl
    · simpa using ⟨h, hin⟩
  | @mss w c h hopt hw =>
    refine ⟨1, _, optLoop_mss 0 (by omega) hopt, fun i hi => ?_, fun v hv => ?_⟩
    · simp at hi
      omega
    · obtain rfl := Option.some.inj hv
      cases w with
      | false => exact .inr ⟨c.toNat, hreach rfl, h, hopt, rfl⟩
      | true => exact .inl (hw rfl)
  | zero h hopt hlen =>
    refine ⟨1, _, optLoop_zero 0 (by omega) hopt hlen, fun i hi => ?_, by simp⟩
    simp at hi
    omega
  | @skip w c h hopt hlen hnext ih =>
    obtain ⟨n, r, hr, hin, hv⟩ := ih fun hw => by
      rw [Bool.or_eq_false_iff, decide_eq_false_iff_not] at hw
      rw [toNat_skip hw.2]
      exact (hreach hw.1).tail (.inr ⟨h, hopt, hlen, rfl⟩)
    refine ⟨n + 1, (r.1, c.toNat :: (c.toNat + 1) :: r.2), ?_, ?_, hv⟩
    · rw [optLoop_skip n (by omega) hopt hlen, hr]
      rfl
    · have hfirst : c.toNat < area ∧ c.toNat + 1 < area := by omega
      simpa using ⟨hfirst.1, hfirst.2, hin⟩

theorem ends_of_run {n : ℕ} {r : Option UInt16 × List ℕ} (harea : area ≤ 40) (hr : optLoop opts area n c = some r)
    (hin : ∀ i ∈ r.2, i < area) (hv : ∀ v, r.1 = some v → same v ∨ ∃ v', FirstMss opts area v')
    (hreach : w = false → ReflTransGen (Next opts area) 0 c.toNat)
    (hwrap : w = true → ∀ v, ¬ FirstMss opts area v) : Ends opts area same w c := by
  induction n generalizing c w r with
  | zero =>
    rw [optLoop] at hr
    split at hr
    · cases hr
    · next h => exact .past (not_lt.mp h)
  | succ n ih =>
    rcases Nat.lt_or_ge c.toNat area with h | h
    swap
    · exact .past h
    obtain hopt | hopt | hopt | hopt := option_cases opts c.toNat
    · exact .eol h hopt
    · rw [optLoop_nop n h hopt] at hr
      obtain ⟨r', hr', rfl⟩ := Option.map_eq_some_iff.mp hr
      refine .nop h hopt (ih hr' (fun i hi => hin i (by simp [hi])) hv (fun hw => ?_) hwrap)
      rw [toNat_nop harea h]
      exact (hreach hw).tail (.inl ⟨h, hopt, rfl⟩)
    · rw [optLoop_mss n h hopt] at hr
      obtain rfl := Option.some.inj hr
      have hlast := hin (c.toNat + 3) (by simp)
      refine .mss (by omega) hopt fun hw => ?_
      obtain hsame | ⟨v', hfirst⟩ := hv _ rfl
      · exact hsame
      · exact absurd hfirst (hwrap hw v')
    · by_cases hlen : opts (c.toNat + 1) = 0
      · rw [optLoop_zero n h hopt hlen] at hr
        obtain rfl := Option.some.inj hr
        have hlast := hin (c.toNat + 1) (by simp)
        exact .zero (by omega) hopt hlen
      · rw [optLoop_skip n h hopt hlen] at hr
        obtain ⟨r', hr', rfl⟩ := Option.map_eq_some_iff.mp hr
        have hlast := hin (c.toNat + 1) (by simp)
        have hstep : Next opts area c.toNat (c.toNat + (opts (c.toNat + 1)).toNat) :=
          .inr ⟨by omega, hopt, hlen, rfl⟩
        refine .skip (by omega) hopt hlen (ih hr' (fun i hi => hin i (by simp [hi])) hv ?_ ?_)
        · intro hw
          rw [Bool.or_eq_false_iff, decide_eq_false_iff_not] at hw
          rw [toNat_skip hw.2]
          exact (hreach hw.1).tail hstep
        · intro hw
          cases w with
          | true => exact hwrap rfl
          | false =>
            have hfar : 256 ≤ c.toNat + (opts (c.toNat + 1)).toNat := by simpa using hw
            exact not_firstMss (hreach rfl) hstep (by omega)

end

theorem tcphOffset_toNat (h : ℕ → UInt8) : (tcphOffset h).toNat = (h 12).toNat := by
  have hlt := (h 13).toNat_lt
  rw [tcphOffset, UInt16.toNat_shiftRight, htons_get16, Nat.shiftRight_eq_div_pow]
  show (256 * (h 12).toNat + (h 13).toNat) / 256 = _
  omega

theorem dataOffset (h : ℕ → UInt8) : (tcphOffset h >>> 4).toNat = (h 12).toNat / 16 := by
  rw [UInt16.toNat_shiftRight, tcphOffset_toNat, Nat.shiftRight_eq_div_pow]
  rfl

theorem optArea_eq (h : ℕ → UInt8) : optArea h = 4 * ((h 12).toNat / 16 - 5) := by
  rw [optArea, dataOffset]
  omega

theorem optArea_le (h : ℕ → UInt8) : optArea h ≤ 40 := by
  have hlt := (h 12).toNat_lt
  rw [optArea_eq]
  omega

theorem has_options_iff (h : ℕ → UInt8) : tcphOffset h &&& 0xF0 > 0x50 ↔ 0 < optArea h := by
  have hlt := (h 12).toNat_lt
  have hhigh : ((h 12).toNat &&& 0xF0) / 16 = (h 12).toNat / 16 := by
    rw [← Nat.shiftRight_eq_div_pow _ 4, Nat.shiftRight_and_distrib, Nat.shiftRight_eq_div_pow]
    exact (Nat.and_two_pow_sub_one_eq_mod _ 4).trans (Nat.mod_eq_of_lt (by omega))
  have hlow : ((h 12).toNat &&& 0xF0) % 16 = 0 := by
    rw [← Nat.and_two_pow_sub_one_eq_mod _ 4, Nat.and_assoc]
    exact Nat.and_zero _
  rw [gt_iff_lt, UInt16.lt_iff_toNat_lt, UInt16.toNat_and, tcphOffset_toNat, optArea_eq]
  show 80 < (h 12).toNat &&& 0xF0 ↔ _
  omega

/-- The bytes that are read are options, and the MSS is unchanged or that of the first MSS option. -/
structure Parsed (h : ℕ → UInt8) (mss : ℕ) (r : ℕ × List ℕ) : Prop where
  reads : ∀ o ∈ r.2, tcpHlen ≤ o ∧ o < 4 * (tcphOffset h >>> 4).toNat
  mss : r.1 = mss ∨ ∃ v, FirstMss (fun i => h (tcpHlen + i)) (optArea h) v ∧ r.1 = limitMss v

/-- A header with 12 bytes of options: the first has a length of 6, the second one of 250. -/
def circling : ℕ → UInt8 := fun i =>
  [0, 80, 0, 80, 0, 0, 0, 0, 0, 0, 0, 0, 0x80, 2, 0, 0, 0, 0, 0, 0, 3, 6, 0, 0, 0, 0, 3, 250, 0, 0, 0, 0].getD i 0

theorem circling_loop (n : ℕ) : optLoop (fun i => circling (tcpHlen + i)) 12 n 0 = none ∧
    optLoop (fun i => circling (tcpHlen + i)) 12 n 6 = none := by
  induction n with
  | zero => exact ⟨rfl, rfl⟩
  | succ n ih =>
    constructor
    · exact Option.map_eq_none_iff.mpr ih.2
    · exact Option.map_eq_none_iff.mpr ih.1

end SimpleKernel.Tcp
