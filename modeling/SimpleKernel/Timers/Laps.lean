import SimpleKernel.Timers.Wheel
import Mathlib.Tactic.FinCases

/-! Which slots a timer may be in, by the tick at which it is due. -/
namespace SimpleKernel.Timers
open LinkedList

theorem gran_pos (v : Fin 5) : 0 < gran v := Nat.two_pow_pos _

theorem gran_dvd {n v : Fin 5} (hn : n ≠ 0) (hv : n < v) : gran n * 2 ^ 6 ∣ gran v := by
  revert n v
  decide

theorem gran_succ {n : Fin 5} (hn : n ≠ 0) (hlast : n + 1 ≠ 0) : gran (n + 1) = gran n * 2 ^ 6 := by
  revert n
  decide

theorem dvd_of_gran_dvd {n v : Fin 5} (hn : n ≠ 0) (hv : n ≤ v) {now : ℕ} (h : gran v ∣ now) : gran n ∣ now := by
  by_cases heq : n = v
  · rw [heq]
    exact h
  · have hlt : n < v := by omega
    exact Nat.dvd_trans (Nat.dvd_trans (Nat.dvd_mul_right _ _) (gran_dvd hn hlt)) h

variable {τ : Type}

/-- The slot of vector `v` for the current tick has been moved down. -/
def Pc.taken (pc : Pc τ) (v : Fin 5) : Bool := match pc with
  | .idle | .test => false
  | .cascade n _ => v < n
  | .call | .handler _ => true

/-- The number of slots of vector `v` that have been moved down since the first tick. -/
def lap (now : ℕ) (taken : Bool) (v : Fin 5) : ℕ :=
  if taken ∨ ¬ gran v ∣ now then now / gran v + 1 else now / gran v

theorem lap_true (now : ℕ) (v : Fin 5) : lap now true v = now / gran v + 1 := if_pos (.inl rfl)

theorem lap_of_dvd {now : ℕ} {v : Fin 5} (h : gran v ∣ now) : lap now false v = now / gran v := by
  simp [lap, h]

theorem lap_of_not_dvd {now : ℕ} {v : Fin 5} (h : ¬ gran v ∣ now) (taken : Bool) :
    lap now taken v = now / gran v + 1 := if_pos (.inr h)

theorem lap_next (now : ℕ) (v : Fin 5) : lap (now + 1) false v = lap now true v := by
  rw [lap_true]
  by_cases h : gran v ∣ now + 1
  · rw [lap_of_dvd h, Nat.succ_div_of_dvd h]
  · rw [lap_of_not_dvd h, Nat.succ_div_of_not_dvd h]

/-- The next slot of a vector is the current one or, in the middle of it, the one after. -/
def Laps (now : ℕ) (lap : Fin 5 → ℕ) : Prop :=
  ∀ v, lap v = now / gran v + 1 ∨ lap v = now / gran v ∧ gran v ∣ now

theorem laps_lap (now : ℕ) (taken : Fin 5 → Bool) : Laps now fun v => lap now (taken v) v := by
  intro v
  dsimp only [lap]
  split_ifs with h
  · exact .inl rfl
  · rw [not_or, not_not] at h
    exact .inr ⟨rfl, h.2⟩

theorem tick_of_due {now d : ℕ} (hlow : now ≤ d) (hhigh : d < now + 2 ^ 31) :
    sub32 (d % 2 ^ 32) (now % 2 ^ 32) = d - now := by
  unfold sub32
  omega

theorem gran_wrap {v : Fin 5} (hv : v ≠ 0) : gran v * 2 ^ 6 ∣ 2 ^ 32 := by
  revert v
  decide

theorem slot_mod {v : Fin 5} (hv : v ≠ 0) (d : ℕ) : d % 2 ^ 32 / gran v % 2 ^ 6 = d / gran v % 2 ^ 6 := by
  rw [← Nat.mod_mul_right_div_self, ← Nat.mod_mul_right_div_self, Nat.mod_mod_of_dvd _ (gran_wrap hv)]

theorem fits_upper {now idx : ℕ} {lap : Fin 5 → ℕ} {v : Fin 5} (hlap : Laps now lap) (hv : v ≠ 0)
    (hlow : gran v ≤ idx) (hhigh : idx < gran v * 2 ^ 6) :
    Fits now lap ((now + idx) % 2 ^ 32) ⟨v, (now + idx) % 2 ^ 32 / gran v % 2 ^ 6⟩ (now + idx) := by
  have hpos := gran_pos v
  have hsplit := Nat.div_add_mod now (gran v)
  have hmod := Nat.mod_lt now hpos
  rw [Nat.mul_comm] at hsplit
  refine .inr ⟨hv, slot_mod hv _, ?_, ?_, rfl⟩
  · rw [Nat.le_div_iff_mul_le hpos]
    rcases hlap v with h | ⟨h, -⟩
    · rw [h, Nat.add_mul]
      omega
    · rw [h]
      omega
  · rw [Nat.div_lt_iff_lt_mul hpos]
    rcases hlap v with h | ⟨h, hdvd⟩
    · rw [h, Nat.add_mul, Nat.add_mul]
      omega
    · rw [h, Nat.add_mul]
      omega

theorem fits_slot {w : Wheel τ} {r : Record τ} {lap : Fin 5 → ℕ} {expires : ℕ} (hticks : w.timerTicks = r.now % 2 ^ 32)
    (hindex : w.index 0 = r.now % 2 ^ 8) (hlap : Laps r.now lap) (hexpires : expires < 2 ^ 32) :
    Fits r.now lap expires (w.slot expires) (r.tick expires) := by
  have hmod : (r.now + sub32 expires (r.now % 2 ^ 32)) % 2 ^ 32 = expires := by
    unfold sub32
    omega
  unfold Wheel.slot Record.tick
  rw [hticks, hindex]
  generalize sub32 expires (r.now % 2 ^ 32) = idx at *
  have hupper (v : Fin 5) (hv : v ≠ 0) (hlow : gran v ≤ idx) (hhigh : idx < gran v * 2 ^ 6) :
      Fits r.now lap expires ⟨v, expires / gran v % 2 ^ 6⟩ (r.now + idx) := by
    have hfits := fits_upper hlap hv hlow hhigh
    rwa [hmod] at hfits
  dsimp only
  by_cases hpast : 2 ^ 31 ≤ idx
  · rw [if_neg (by omega), if_neg (by omega), if_neg (by omega), if_neg (by omega), if_pos hpast, if_neg (by omega)]
    exact .inl ⟨rfl, rfl, Nat.le_refl _, by omega⟩
  · rw [if_pos (by omega : idx < 2 ^ 31)]
    split_ifs with h0 h1 h2 h3
    · refine .inl ⟨rfl, ?_, by omega, by omega⟩
      dsimp only
      omega
    · exact hupper 1 (by decide) (Nat.le_of_not_lt h0) h1
    · exact hupper 2 (by decide) (Nat.le_of_not_lt h1) h2
    · exact hupper 3 (by decide) (Nat.le_of_not_lt h2) h3
    · have hgran : gran 4 = 2 ^ 26 := rfl
      exact hupper 4 (by decide) (Nat.le_of_not_lt h3) (by omega)

theorem gran_values : gran 1 = 2 ^ 8 ∧ gran 2 = 2 ^ (8 + 6) ∧ gran 3 = 2 ^ (8 + 2 * 6) ∧ gran 4 = 2 ^ (8 + 3 * 6) :=
  ⟨rfl, rfl, rfl, rfl⟩

theorem gran_le {n v : Fin 5} (h : n ≤ v) : gran n ≤ gran v := by
  have hbits : ∀ n v : Fin 5, n ≤ v → bits n ≤ bits v := by decide
  exact Nat.pow_le_pow_right Nat.two_pos (hbits n v h)

theorem slot_vec_lt {w : Wheel τ} {now d : ℕ} {n : Fin 5} (hn : n ≠ 0) (hticks : w.timerTicks = now % 2 ^ 32)
    (hlow : now ≤ d) (hhigh : d < now + gran n) : (w.slot (d % 2 ^ 32)).vec < n := by
  obtain ⟨-, -, -, hg4⟩ := gran_values
  have hle : gran n ≤ gran 4 := gran_le (Fin.le_last n)
  have hupper (v : Fin 5) (hv : gran v ≤ d - now) : v < n := by
    by_contra hnv
    have hgran := gran_le (Fin.not_lt.1 hnv)
    omega
  have hidx : sub32 (d % 2 ^ 32) w.timerTicks = d - now := by
    rw [hticks]
    exact tick_of_due hlow (by omega)
  rw [Wheel.slot, hidx]
  split_ifs with h0 h1 h2 h3 h4
  · exact Fin.pos_iff_ne_zero.2 hn
  · exact hupper 1 (by exact Nat.le_of_not_lt h0)
  · exact hupper 2 (by exact Nat.le_of_not_lt h1)
  · exact hupper 3 (by exact Nat.le_of_not_lt h2)
  · exact Fin.pos_iff_ne_zero.2 hn
  · exact hupper 4 (by exact Nat.le_of_not_lt h3)

theorem slot_range {w : Wheel τ} {now d : ℕ} {n : Fin 5} (hticks : w.timerTicks = now % 2 ^ 32)
    (hlow : now ≤ d) (hhigh : d < now + gran n) (hv : (w.slot (d % 2 ^ 32)).vec ≠ 0) :
    d < now + gran (w.slot (d % 2 ^ 32)).vec * 2 ^ 6 := by
  obtain ⟨hg1, hg2, hg3, hg4⟩ := gran_values
  have hle : gran n ≤ gran 4 := gran_le (Fin.le_last n)
  have hidx : sub32 (d % 2 ^ 32) w.timerTicks = d - now := by
    rw [hticks]
    exact tick_of_due hlow (by omega)
  rw [Wheel.slot, hidx] at hv ⊢
  split_ifs at hv ⊢ with h0 h1 h2 h3 h4
  · exact absurd rfl hv
  · rw [hg1]
    omega
  · rw [hg2]
    omega
  · rw [hg3]
    omega
  · exact absurd rfl hv
  · omega

theorem Fits.le {now expires d : ℕ} {lap : Fin 5 → ℕ} {k : Slot} (h : Fits now lap expires k d) (hlap : Laps now lap) :
    now ≤ d := by
  rcases h with ⟨-, -, hlow, -⟩ | ⟨-, -, hlow, -⟩
  · exact hlow
  · have hd := Nat.div_mul_le_self d (gran k.vec)
    have hmul := Nat.mul_le_mul_right (gran k.vec) hlow
    rcases hlap k.vec with heq | ⟨heq, hdvd⟩
    · have hsplit := Nat.div_add_mod now (gran k.vec)
      have hmod := Nat.mod_lt now (gran_pos k.vec)
      rw [heq, Nat.add_mul, Nat.mul_comm (now / gran k.vec)] at hmul
      omega
    · have hnow := Nat.div_mul_cancel hdvd
      rw [heq] at hmul
      omega

theorem Fits.congr {now expires d : ℕ} {lap lap' : Fin 5 → ℕ} {k : Slot} (h : Fits now lap expires k d)
    (hlap : ∀ v, v ≠ 0 → lap' v = lap v) : Fits now lap' expires k d := by
  rcases h with h | ⟨hv, h⟩
  · exact .inl h
  · refine .inr ⟨hv, ?_⟩
    rw [hlap k.vec hv]
    exact h

theorem Fits.current {now expires d : ℕ} {lap : Fin 5 → ℕ} {v : Fin 5} (hv : v ≠ 0)
    (h : Fits now lap expires ⟨v, lap v % 2 ^ 6⟩ d) (hlap : lap v = now / gran v) (hdvd : gran v ∣ now) :
    now ≤ d ∧ d < now + gran v ∧ expires = d % 2 ^ 32 := by
  rcases h with ⟨hzero, -⟩ | ⟨-, hi, hlow, hhigh, hexpires⟩
  · exact absurd hzero hv
  · dsimp only at hi hlow hhigh
    have hslot : d / gran v = now / gran v := by omega
    have hsplit := Nat.div_add_mod d (gran v)
    have hmod := Nat.mod_lt d (gran_pos v)
    have hnow := Nat.mul_div_cancel' hdvd
    rw [hslot] at hsplit
    exact ⟨by omega, by omega, hexpires⟩

end SimpleKernel.Timers
