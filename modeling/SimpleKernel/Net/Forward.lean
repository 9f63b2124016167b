import SimpleKernel.Net.IpHeader

/-! `ip_forward` of `net/ip.c`: a packet for another host is sent on with a lower TTL and a new checksum. -/
namespace SimpleKernel.Net
open OnesComplement

/-- What becomes of the packet. -/
inductive Forwarded
  | freed
  | noRoute
  | expired (icmp : Bool)
  | output (netif : Netif) (m : ℕ → UInt8)

/-- The TTL is decremented. -/
def decTtl (m : ℕ → UInt8) : ℕ → UInt8 := iphTtlSet m (iphTtl m - 1)

/-- The incremental update of the checksum. -/
def updateChksum (m : ℕ → UInt8) : ℕ → UInt8 :=
  if iphChksum m ≥ htons (0xFFFF - 0x100) then iphChksumSet m (iphChksum m + htons 0x100 + 1)
  else iphChksumSet m (iphChksum m + htons 0x100)

def ipForward (n : Netifs) (inp : Netif) (m : ℕ → UInt8) : Forwarded :=
  if isBroadcast (iphDest m) inp.netmask then .freed
  else
    match ipRoute n (iphDest m) with
    | none => .noRoute
    | some netif =>
      if netif.addr = inp.addr then .noRoute
      else if iphTtl (decTtl m) = 0 then .expired (iphProto (decTtl m) != ipProtoIcmp)
      else .output netif (updateChksum (decTtl m))

/-- There is another interface that the packet is to be sent on. -/
def Routed (n : Netifs) (inp : Netif) (m : ℕ → UInt8) : Prop :=
  isBroadcast (iphDest m) inp.netmask = false ∧
    ∃ netif, ipRoute n (iphDest m) = some netif ∧ netif.addr ≠ inp.addr

variable {n : Netifs} {inp : Netif} {m : ℕ → UInt8}

theorem decTtl_word (h : iphTtl m ≠ 0) : wordAt (decTtl m) 4 + 1 = wordAt m 4 := by
  have hpos : (iphTtl m).toNat ≠ 0 := fun h' => h (UInt16.toNat_inj.mp h')
  have hlt := (m 8).toNat_lt
  have httl := iphTtl_toNat m
  have hdec : (iphTtl m - 1).toNat = (m 8).toNat - 1 := by
    rw [UInt16.toNat_sub, httl]
    show (65536 - 1 + (m 8).toNat) % 65536 = _
    omega
  have hword : (get16 (decTtl m) 8).toNat = (m 8).toNat - 1 + 256 * (m 9).toNat := by
    rw [decTtl, iphTtlSet_word, hdec, Nat.mod_eq_of_lt (by omega)]
  rw [wordAt_eq, wordAt_eq, hword, get16_toNat]
  show (m 8).toNat - 1 + 256 * (m 9).toNat + 1 = (m 8).toNat + 256 * (m 9).toNat
  omega

theorem decTtl_word_of_ne {i : ℕ} (h : i ≠ 4) : wordAt (decTtl m) i = wordAt m i := by
  rw [wordAt_eq, wordAt_eq, decTtl, iphTtlSet, get16_put16_of_ne _ (by omega)]

theorem updateChksum_word (m : ℕ → UInt8) : wordAt (updateChksum m) 5 ≡ wordAt m 5 + 1 [MOD 65535] := by
  have hlt := (iphChksum m).toNat_lt
  have hlimit : iphChksum m ≥ htons (0xFFFF - 0x100) ↔ (iphChksum m).toNat ≥ 65534 := UInt16.le_iff_toNat_le
  rw [wordAt_eq, wordAt_eq]
  show (get16 (updateChksum m) 10).toNat % 65535 = ((iphChksum m).toNat + 1) % 65535
  rw [updateChksum]
  split
  · next h =>
    have hhigh := hlimit.mp h
    rw [iphChksumSet, get16_put16]
    show (((iphChksum m).toNat + 1) % 65536 + 1) % 65536 % 65535 = _
    omega
  · next h =>
    have hlow := mt hlimit.mpr h
    rw [iphChksumSet, get16_put16]
    show ((iphChksum m).toNat + 1) % 65536 % 65535 = _
    omega

theorem updateChksum_get16 {o : ℕ} (h : o + 2 ≤ 10 ∨ 12 ≤ o) : get16 (updateChksum m) o = get16 m o := by
  rw [updateChksum]
  split
  · rw [iphChksumSet, get16_put16_of_ne _ h]
  · rw [iphChksumSet, get16_put16_of_ne _ h]

theorem updateChksum_word_of_ne {i : ℕ} (h : i ≠ 5) : wordAt (updateChksum m) i = wordAt m i := by
  rw [wordAt_eq, wordAt_eq, updateChksum_get16 (by omega)]

theorem iphTtl_updateChksum (m : ℕ → UInt8) : iphTtl (updateChksum m) = iphTtl m := by
  rw [iphTtl, iphTtl, updateChksum_get16 (.inl (by decide))]

theorem iphTtl_decTtl (m : ℕ → UInt8) : (iphTtl (decTtl m)).toNat = ((iphTtl m).toNat + 255) % 256 := by
  rw [decTtl, iphTtl_iphTtlSet]
  show (65536 - 1 + (iphTtl m).toNat) % 65536 % 256 = _
  omega

theorem forwarded_header (h : iphTtl m ≠ 0) (hsum : inetChksum (header m) = 0) :
    inetChksum (header (updateChksum (decTtl m))) = 0 := by
  have hhl : iphHl (updateChksum (decTtl m)) = iphHl m := by
    rw [iphHl, iphHl, updateChksum_get16 (.inl (by decide)), decTtl, iphTtlSet,
      get16_put16_of_ne _ (.inl (by decide))]
  rw [header_verifies_iff, wordSum_header] at hsum ⊢
  rw [hhl]
  have hsame {i : ℕ} (h4 : i ≠ 4) (h5 : i ≠ 5) : wordAt (updateChksum (decTtl m)) i = wordAt m i :=
    (updateChksum_word_of_ne h5).trans (decTtl_word_of_ne h4)
  rcases Nat.lt_or_ge (iphHl m).toNat 3 with hshort | hlong
  · -- a header that does not reach to the TTL
    have heq : ∑ i ∈ Finset.range (2 * (iphHl m).toNat), wordAt (updateChksum (decTtl m)) i =
        ∑ i ∈ Finset.range (2 * (iphHl m).toNat), wordAt m i := by
      refine Finset.sum_congr rfl fun i hi => ?_
      rw [Finset.mem_range] at hi
      exact hsame (by omega) (by omega)
    rwa [heq]
  · obtain ⟨k, hk⟩ := Nat.exists_eq_add_of_le (show 6 ≤ 2 * (iphHl m).toNat by omega)
    have hsplit (m : ℕ → UInt8) : ∑ i ∈ Finset.range (6 + k), wordAt m i =
        wordAt m 0 + wordAt m 1 + wordAt m 2 + wordAt m 3 + wordAt m 4 + wordAt m 5 +
          ∑ i ∈ Finset.range k, wordAt m (6 + i) := by
      rw [Finset.sum_range_add]
      simp only [Finset.sum_range_succ, Finset.sum_range_zero, Nat.zero_add]
    have hrest : ∑ i ∈ Finset.range k, wordAt (updateChksum (decTtl m)) (6 + i) =
        ∑ i ∈ Finset.range k, wordAt m (6 + i) :=
      Finset.sum_congr rfl fun i _ => hsame (by omega) (by omega)
    have hfour : wordAt (updateChksum (decTtl m)) 4 + 1 = wordAt m 4 := by
      rw [updateChksum_word_of_ne (by decide), decTtl_word h]
    have hfive : wordAt (updateChksum (decTtl m)) 5 % 65535 = (wordAt m 5 + 1) % 65535 := by
      have h := updateChksum_word (decTtl m)
      rwa [decTtl_word_of_ne (by decide)] at h
    have hfirst : 0 < wordAt m 0 := by
      have hl := iphHl_toNat m
      show 0 < (m 0).toNat + 256 * (m 1).toNat
      omega
    rw [hk, hsplit] at hsum ⊢
    rw [hsame (by decide) (by decide), hsame (by decide) (by decide), hsame (by decide) (by decide),
      hsame (by decide) (by decide)]
    have hmod : _ % 65535 = _ % 65535 := hsum.mod
    refine ⟨?_, by omega⟩
    unfold Nat.ModEq
    omega

theorem ipForward_output {netif : Netif} {m' : ℕ → UInt8} (h : ipForward n inp m = .output netif m') :
    m' = updateChksum (decTtl m) ∧ iphTtl (decTtl m) ≠ 0 ∧ Routed n inp m := by
  rw [ipForward] at h
  split at h
  · cases h
  · next hbroadcast =>
    split at h
    · cases h
    · next netif' hroute =>
      split at h
      · cases h
      · next hother =>
        split at h
        · cases h
        · next httl =>
          obtain ⟨-, rfl⟩ := Forwarded.output.inj h
          exact ⟨rfl, httl, by simpa using hbroadcast, netif', hroute, hother⟩

/-- A packet whose header verifies is sent on with its TTL decremented and at least 1 and with a header that verifies,
except when its TTL is 0 and another interface leads to its destination. -/
theorem ipForward_valid_iff (n : Netifs) (inp : Netif) (m : ℕ → UInt8) (hsum : inetChksum (header m) = 0) :
    (∀ netif m', ipForward n inp m = .output netif m' →
      (iphTtl m').toNat + 1 = (iphTtl m).toNat ∧ 1 ≤ (iphTtl m').toNat ∧ inetChksum (header m') = 0) ↔
    ¬ (iphTtl m = 0 ∧ Routed n inp m) := by
  have hlt := (m 8).toNat_lt
  have httl := iphTtl_toNat m
  have hdec := iphTtl_decTtl m
  constructor
  · rintro hvalid ⟨hzero, hbroadcast, netif, hroute, hother⟩
    have hone : iphTtl (decTtl m) ≠ 0 := fun h => by
      rw [h, hzero] at hdec
      simp at hdec
    have hout : ipForward n inp m = .output netif (updateChksum (decTtl m)) := by
      rw [ipForward, if_neg (by simp [hbroadcast]), hroute]
      dsimp only
      rw [if_neg hother, if_neg hone]
    obtain ⟨hless, -⟩ := hvalid netif _ hout
    rw [hzero] at hless
    exact absurd hless (by simp)
  · intro hcond netif m' hout
    obtain ⟨rfl, hone, hrouted⟩ := ipForward_output hout
    have hpos : iphTtl m ≠ 0 := fun h => hcond ⟨h, hrouted⟩
    have hpos' : (iphTtl m).toNat ≠ 0 := fun h => hpos (UInt16.toNat_inj.mp h)
    have hone' : (iphTtl (decTtl m)).toNat ≠ 0 := fun h => hone (UInt16.toNat_inj.mp h)
    rw [iphTtl_updateChksum]
    exact ⟨by omega, by omega, forwarded_header hpos hsum⟩

/-- The interface on which the packets come in. -/
def lan : Netif := ⟨0, 0x0100000A, 0x00FFFFFF, false, false⟩

/-- The interface behind which their destination is. -/
def wan : Netif := ⟨1, 0x0101000A, 0x00FFFFFF, false, false⟩

def twoNetifs : Netifs := ⟨[lan, wan], none⟩

/-- The header of a packet to a host behind `wan`, with the given TTL and checksum. -/
def transitHeader (ttl low high : UInt8) : ℕ → UInt8 := fun i =>
  [0x45, 0, 0, 40, 0, 0, 0, 0, ttl, 6, low, high, 10, 0, 0, 9, 10, 0, 1, 9].getD i 0

theorem ipForward_valid_transit :
    (iphTtl (updateChksum (decTtl (transitHeader 2 0xA3 0xBF)))).toNat + 1 = 2 ∧
      1 ≤ (iphTtl (updateChksum (decTtl (transitHeader 2 0xA3 0xBF)))).toNat ∧
      inetChksum (header (updateChksum (decTtl (transitHeader 2 0xA3 0xBF)))) = 0 := by
  have hsum : inetChksum (header (transitHeader 2 0xA3 0xBF)) = 0 :=
    (header_verifies_iff _).mpr ⟨by decide, by decide⟩
  exact (ipForward_valid_iff twoNetifs lan _ hsum).mpr (fun h => absurd h.1 (by decide)) wan _ rfl

/-- A TTL of 0 is sent on as 255, with a checksum that is wrong. -/
theorem zero_ttl_forwarded : ¬ ∀ (n : Netifs) (inp : Netif) (m : ℕ → UInt8), inetChksum (header m) = 0 →
    ∀ netif m', ipForward n inp m = .output netif m' →
      (iphTtl m').toNat + 1 = (iphTtl m).toNat ∧ 1 ≤ (iphTtl m').toNat ∧ inetChksum (header m') = 0 := by
  intro h
  have hsum : inetChksum (header (transitHeader 0 0xA5 0xBF)) = 0 :=
    (header_verifies_iff _).mpr ⟨by decide, by decide⟩
  have hout : ipForward twoNetifs lan (transitHeader 0 0xA5 0xBF) =
      .output wan (updateChksum (decTtl (transitHeader 0 0xA5 0xBF))) := rfl
  obtain ⟨hless, -⟩ := h twoNetifs lan _ hsum wan _ hout
  exact absurd hless (by decide)

end SimpleKernel.Net
