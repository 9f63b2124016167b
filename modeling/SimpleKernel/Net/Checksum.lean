import SimpleKernel.Lib.OnesComplement

/-! The Internet checksum of `net/inet.c`. -/
namespace SimpleKernel.Net
open OnesComplement

/-- The loop of `chksum` over the words, and the odd byte. -/
def addWords : UInt32 → List UInt8 → UInt32
  | acc, [] => acc
  | acc, [b] => acc + b.toUInt32
  | acc, b :: c :: data => addWords (acc + UInt32.ofNat (b.toNat + 256 * c.toNat)) data

/-- The carries are added to the low word. -/
def fold (acc : UInt32) : UInt32 := (acc >>> 16) + (acc &&& 0xFFFF)

def chksum (data : List UInt8) : UInt32 :=
  let acc := fold (addWords 0 data)
  if acc &&& 0xFFFF0000 ≠ 0 then fold acc else acc

theorem fold_toNat (acc : UInt32) : (fold acc).toNat = acc.toNat / 65536 + acc.toNat % 65536 := by
  have hlt := acc.toNat_lt
  have hshift : (acc >>> 16).toNat = acc.toNat / 65536 := by
    rw [UInt32.toNat_shiftRight, Nat.shiftRight_eq_div_pow]
    rfl
  have hand : (acc &&& 0xFFFF).toNat = acc.toNat % 65536 := by
    exact Nat.and_two_pow_sub_one_eq_mod _ 16
  rw [fold, UInt32.toNat_add]
  omega

theorem high_eq_zero_iff (acc : UInt32) : acc >>> 16 = 0 ↔ acc.toNat < 65536 := by
  rw [← UInt32.toNat_inj, UInt32.toNat_shiftRight, Nat.shiftRight_eq_div_pow]
  exact Nat.div_eq_zero_iff.trans (by simp)

/-- `while (acc >> 16) acc = (acc & 0xFFFF) + (acc >> 16)`. -/
def foldAll (acc : UInt32) : UInt32 := if acc >>> 16 = 0 then acc else foldAll (fold acc)
  termination_by acc.toNat
  decreasing_by
    rename_i h
    rw [high_eq_zero_iff] at h
    rw [fold_toNat]
    omega

/-- The bytes of the low word change places. -/
def swap (acc : UInt32) : UInt32 := ((acc &&& 0xFF) <<< 8) ||| ((acc &&& 0xFF00) >>> 8)

/-- `(unsigned short) ~(acc & 0xFFFF)`. -/
def complement (acc : UInt32) : UInt16 := (~~~(acc &&& 0xFFFF)).toUInt16

def inetChksum (data : List UInt8) : UInt16 := complement (foldAll (chksum data))

/-- The loop over the buffers of a chain, whose payloads are given. -/
def sumBufs : List (List UInt8) → UInt32 → Bool → UInt32 × Bool
  | [], acc, swapped => (acc, swapped)
  | q :: qs, acc, swapped =>
    let acc := foldAll (acc + chksum q)
    if q.length % 2 ≠ 0 then sumBufs qs (swap acc) (!swapped) else sumBufs qs acc swapped

/-- The sum of a chain, before it is complemented. -/
def sumChain (p : List (List UInt8)) : UInt32 :=
  let r := sumBufs p 0 false
  if r.2 then swap r.1 else r.1

def inetChksumPbuf (p : List (List UInt8)) : UInt16 := complement (sumChain p)

/-- `htons` and `ntohs` on a machine whose words begin with the low byte. -/
def htons (n : UInt16) : UInt16 := ((n &&& 0xFF) <<< 8) ||| ((n &&& 0xFF00) >>> 8)

/-- The addresses, the protocol and the length are added to the sum of the chain. The addresses are in the order of
the network, as they are stored. -/
def addPseudo (acc src dest : UInt32) (proto : UInt8) (protoLen : UInt16) : UInt32 :=
  let acc := acc + (src &&& 0xFFFF)
  let acc := acc + ((src >>> 16) &&& 0xFFFF)
  let acc := acc + (dest &&& 0xFFFF)
  let acc := acc + ((dest >>> 16) &&& 0xFFFF)
  let acc := acc + (htons proto.toUInt16).toUInt32
  acc + (htons protoLen).toUInt32

def inetChksumPseudo (p : List (List UInt8)) (src dest : UInt32) (proto : UInt8) (protoLen : UInt16) : UInt16 :=
  complement (foldAll (addPseudo (sumChain p) src dest proto protoLen))

/-- The four bytes of an address in memory. -/
def addrBytes (a : UInt32) : List UInt8 :=
  [a.toUInt8, (a >>> 8).toUInt8, (a >>> 16).toUInt8, (a >>> 24).toUInt8]

/-- The pseudo header: source, destination, zero, protocol and length, in the order of the network. -/
def pseudoHeader (src dest : UInt32) (proto : UInt8) (protoLen : UInt16) : List UInt8 :=
  addrBytes src ++ addrBytes dest ++ [0, proto, (protoLen >>> 8).toUInt8, protoLen.toUInt8]

section
variable {acc : UInt32} {data bs : List UInt8}

theorem addWords_toNat (h : acc.toNat + wordSum data < 2 ^ 32) :
    (addWords acc data).toNat = acc.toNat + wordSum data := by
  induction acc, data using addWords.induct with
  | case1 acc => rfl
  | case2 acc b =>
    simp only [wordSum] at h
    rw [addWords, UInt32.toNat_add, UInt8.toNat_toUInt32, wordSum]
    omega
  | case3 acc b c data ih =>
    simp only [wordSum] at h
    have hacc : (acc + UInt32.ofNat (b.toNat + 256 * c.toNat)).toNat = acc.toNat + (b.toNat + 256 * c.toNat) := by
      rw [UInt32.toNat_add, UInt32.toNat_ofNat_of_lt' (by simp [UInt32.size]; omega)]
      omega
    rw [addWords, wordSum]
    omega

theorem fold_same (acc : UInt32) : Same (fold acc).toNat acc.toNat := by
  rw [fold_toNat]
  exact same_fold acc.toNat

theorem foldAll_spec (acc : UInt32) : Same (foldAll acc).toNat acc.toNat ∧ (foldAll acc).toNat < 65536 := by
  induction acc using foldAll.induct with
  | case1 acc h =>
    rw [foldAll, if_pos h]
    exact ⟨Same.refl _, (high_eq_zero_iff acc).mp h⟩
  | case2 acc h ih =>
    rw [foldAll, if_neg h]
    exact ⟨ih.1.trans (fold_same acc), ih.2⟩

theorem chksum_spec (h : data.length ≤ 2 ^ 17 - 2) :
    Same (chksum data).toNat (wordSum data) ∧ (chksum data).toNat < 2 ^ 17 := by
  have hle := wordSum_le data
  have hsum : (addWords 0 data).toNat = wordSum data := by
    rw [addWords_toNat]
    · exact Nat.zero_add _
    · show 0 + wordSum data < 2 ^ 32
      omega
  have hfold := fold_toNat (addWords 0 data)
  have hsame := fold_same (addWords 0 data)
  rw [hsum] at hfold hsame
  rw [chksum]
  split
  · refine ⟨(fold_same _).trans hsame, ?_⟩
    rw [fold_toNat]
    omega
  · exact ⟨hsame, by omega⟩

theorem complement_toNat (h : acc.toNat < 65536) : (complement acc).toNat = 65535 - acc.toNat := by
  have hand : (acc &&& 0xFFFF).toNat = acc.toNat := by
    exact (Nat.and_two_pow_sub_one_eq_mod _ 16).trans (Nat.mod_eq_of_lt h)
  rw [complement, UInt32.toNat_toUInt16, UInt32.toNat_not]
  simp only [UInt32.size]
  omega

theorem complement_foldAll_iff (acc : UInt32) : complement (foldAll acc) = 0 ↔ Same acc.toNat 65535 := by
  obtain ⟨hfold, hlt⟩ := foldAll_spec acc
  rw [← UInt16.toNat_inj, complement_toNat hlt]
  constructor
  · intro hzero
    have heq : (foldAll acc).toNat = 65535 := by
      rw [UInt16.toNat_zero] at hzero
      omega
    rw [heq] at hfold
    exact hfold.symm
  · intro hfull
    rw [(hfold.trans hfull).eq hlt (by decide)]
    rfl

theorem complement_eq {acc' : UInt32} (h : acc.toNat < 65536) (h' : acc'.toNat < 65536)
    (hsame : Same acc.toNat acc'.toNat) : complement acc = complement acc' := by
  rw [UInt32.toNat_inj.mp (hsame.eq h h')]

theorem swap_toNat (h : acc.toNat < 65536) : (swap acc).toNat = acc.toNat % 256 * 256 + acc.toNat / 256 := by
  have hlow : (acc &&& 0xFF).toNat = acc.toNat % 256 := by
    exact Nat.and_two_pow_sub_one_eq_mod _ 8
  have hhigh : ((acc &&& 0xFF00) >>> 8).toNat = acc.toNat / 256 := by
    show (acc.toNat &&& 0xFF00) >>> 8 = _
    rw [Nat.shiftRight_and_distrib, Nat.shiftRight_eq_div_pow]
    exact (Nat.and_two_pow_sub_one_eq_mod _ 8).trans (Nat.mod_eq_of_lt (by omega))
  rw [swap, UInt32.toNat_or, UInt32.toNat_shiftLeft, hlow, hhigh]
  show (acc.toNat % 256) <<< 8 % 2 ^ 32 ||| acc.toNat / 256 = _
  rw [Nat.mod_eq_of_lt (by omega), ← Nat.shiftLeft_add_eq_or_of_lt (by omega),
    Nat.shiftLeft_eq]

/-- The sum over the bytes `bs` that were added: behind an odd number of them it is shifted by a byte. -/
structure Sums (bs : List UInt8) (acc : UInt32) (swapped : Bool) : Prop where
  small : acc.toNat < 65536
  odd : swapped = decide (bs.length % 2 ≠ 0)
  same : Same acc.toNat ((if swapped then 256 else 1) * wordSum bs)

theorem Sums.nil : Sums [] 0 false := ⟨by decide, by simp, Same.refl 0⟩

theorem Sums.buf {swapped : Bool} {q : List UInt8} (h : Sums bs acc swapped) (hq : q.length ≤ 2 ^ 17 - 2) :
    Sums (bs ++ q) (if q.length % 2 ≠ 0 then swap (foldAll (acc + chksum q)) else foldAll (acc + chksum q))
      (if q.length % 2 ≠ 0 then !swapped else swapped) := by
  obtain ⟨hsmall, hodd, hsame⟩ := h
  obtain ⟨hchk, hchklt⟩ := chksum_spec hq
  obtain ⟨hfold, hlt⟩ := foldAll_spec (acc + chksum q)
  have hadd : (acc + chksum q).toNat = acc.toNat + (chksum q).toNat := by
    rw [UInt32.toNat_add]
    omega
  rw [hadd] at hfold
  have hsum := hfold.trans (hsame.add hchk)
  have happend : swapped = false → wordSum (bs ++ q) = wordSum bs + wordSum q := fun hs =>
    wordSum_append_even (by simpa [hs] using hodd) q
  have hbehind : swapped = true → Same (wordSum bs + 256 * wordSum q) (wordSum (bs ++ q)) := fun hs =>
    (wordSum_append_odd (by simpa [hs] using hodd) q).symm
  by_cases hparity : q.length % 2 = 0
  · rw [if_neg (by simpa using hparity), if_neg (by simpa using hparity)]
    refine ⟨hlt, ?_, ?_⟩
    · rw [hodd, List.length_append, Nat.add_mod, hparity]
      simp
    · cases swapped with
      | false =>
        rw [happend rfl]
        simpa using hsum
      | true =>
        have hshift := (Same.refl (256 * wordSum bs)).add (same_shift (wordSum q)).symm
        have heq : 256 * wordSum bs + 65536 * wordSum q = 256 * (wordSum bs + 256 * wordSum q) := by omega
        rw [heq] at hshift
        exact (hsum.trans hshift).trans ((hbehind rfl).mul_left 256)
  · have hswap := same_swap (foldAll (acc + chksum q)).toNat
    rw [← swap_toNat hlt] at hswap
    have hscaled := hswap.trans (hsum.mul_left 256)
    rw [if_pos hparity, if_pos hparity]
    refine ⟨?_, ?_, ?_⟩
    · rw [swap_toNat hlt]
      omega
    · rw [hodd, List.length_append, ← decide_not, decide_eq_decide]
      omega
    · cases swapped with
      | false =>
        rw [happend rfl]
        simpa using hscaled
      | true =>
        have hshift := (same_shift (wordSum bs)).add (Same.refl (256 * wordSum q))
        have heq : 65536 * wordSum bs + 256 * wordSum q = 256 * (256 * wordSum bs + wordSum q) := by omega
        rw [heq] at hshift
        simpa using (hscaled.trans hshift).trans (hbehind rfl)

theorem Sums.bufs {p : List (List UInt8)} {swapped : Bool} (h : Sums bs acc swapped)
    (hp : ∀ q ∈ p, q.length ≤ 2 ^ 17 - 2) :
    Sums (bs ++ p.flatten) (sumBufs p acc swapped).1 (sumBufs p acc swapped).2 := by
  induction p generalizing bs acc swapped with
  | nil => simpa [sumBufs] using h
  | cons q qs ih =>
    have hq := h.buf (hp q List.mem_cons_self)
    have hrest := fun bs acc swapped (h : Sums bs acc swapped) =>
      ih h fun r hr => hp r (List.mem_cons_of_mem q hr)
    rw [List.flatten_cons, ← List.append_assoc]
    simp only [sumBufs]
    split at hq
    · next hodd =>
      rw [if_pos hodd]
      exact hrest _ _ _ hq
    · next heven =>
      rw [if_neg heven]
      exact hrest _ _ _ hq

theorem sumChain_spec {p : List (List UInt8)} (hp : p.flatten.length ≤ 65535) :
    Same (sumChain p).toNat (wordSum p.flatten) ∧ (sumChain p).toNat < 65536 := by
  have hlen : ∀ q ∈ p, q.length ≤ 2 ^ 17 - 2 := by
    intro q hq
    have hle := (List.sublist_flatten_of_mem hq).length_le
    omega
  obtain ⟨hsmall, -, hsame⟩ := Sums.nil.bufs hlen
  rw [sumChain]
  split
  · next hswapped =>
    rw [hswapped] at hsame
    have hshift := (hsame.mul_left 256).trans (by
      rw [← Nat.mul_assoc]
      exact same_shift (wordSum p.flatten))
    have hswap := same_swap (sumBufs p 0 false).1.toNat
    rw [← swap_toNat hsmall] at hswap
    refine ⟨hswap.trans hshift, ?_⟩
    rw [swap_toNat hsmall]
    omega
  · next hswapped =>
    rw [if_neg hswapped, Nat.one_mul] at hsame
    exact ⟨hsame, hsmall⟩

theorem htons_toNat (n : UInt16) : (htons n).toNat = n.toNat % 256 * 256 + n.toNat / 256 := by
  have hlt := n.toNat_lt
  have hlow : (n &&& 0xFF).toNat = n.toNat % 256 := by
    exact Nat.and_two_pow_sub_one_eq_mod _ 8
  have hhigh : ((n &&& 0xFF00) >>> 8).toNat = n.toNat / 256 := by
    show (n.toNat &&& 0xFF00) >>> 8 = _
    rw [Nat.shiftRight_and_distrib, Nat.shiftRight_eq_div_pow]
    exact (Nat.and_two_pow_sub_one_eq_mod _ 8).trans (Nat.mod_eq_of_lt (by omega))
  rw [htons, UInt16.toNat_or, UInt16.toNat_shiftLeft, hlow, hhigh]
  show (n.toNat % 256) <<< 8 % 2 ^ 16 ||| n.toNat / 256 = _
  rw [Nat.mod_eq_of_lt (by omega), ← Nat.shiftLeft_add_eq_or_of_lt (by omega),
    Nat.shiftLeft_eq]

theorem wordSum_addrBytes (a : UInt32) (bs : List UInt8) :
    wordSum (addrBytes a ++ bs) = (a &&& 0xFFFF).toNat + ((a >>> 16) &&& 0xFFFF).toNat + wordSum bs := by
  have hand (b : UInt32) : (b &&& 0xFFFF).toNat = b.toNat % 65536 := by
    exact Nat.and_two_pow_sub_one_eq_mod _ 16
  rw [hand, hand]
  simp only [addrBytes, List.cons_append, List.nil_append, wordSum, UInt32.toNat_toUInt8,
    UInt32.toNat_shiftRight, UInt32.reduceToNat, Nat.reduceMod]
  omega

theorem addPseudo_spec {acc : UInt32} {bs : List UInt8} (src dest : UInt32) (proto : UInt8) (protoLen : UInt16)
    (hsmall : acc.toNat < 65536) (hsame : Same acc.toNat (wordSum bs)) :
    Same (addPseudo acc src dest proto protoLen).toNat (wordSum (pseudoHeader src dest proto protoLen ++ bs)) := by
  have hword (b : UInt32) : (b &&& 0xFFFF).toNat < 65536 := by
    exact Nat.lt_of_le_of_lt Nat.and_le_right (by decide)
  have hs := hword src
  have hs' := hword (src >>> 16)
  have hd := hword dest
  have hd' := hword (dest >>> 16)
  have hproto := (htons proto.toUInt16).toNat_lt
  have hlen := (htons protoLen).toNat_lt
  have hacc : (addPseudo acc src dest proto protoLen).toNat =
      (src &&& 0xFFFF).toNat + ((src >>> 16) &&& 0xFFFF).toNat + ((dest &&& 0xFFFF).toNat +
        ((dest >>> 16) &&& 0xFFFF).toNat + ((htons proto.toUInt16).toNat + (htons protoLen).toNat + acc.toNat)) := by
    simp only [addPseudo, UInt32.toNat_add, UInt16.toNat_toUInt32]
    omega
  have htail : wordSum ([0, proto, (protoLen >>> 8).toUInt8, protoLen.toUInt8] ++ bs) =
      (htons proto.toUInt16).toNat + (htons protoLen).toNat + wordSum bs := by
    have hproto := proto.toNat_lt
    have hlen := protoLen.toNat_lt
    rw [htons_toNat, htons_toNat, UInt8.toNat_toUInt16]
    simp only [List.cons_append, List.nil_append, wordSum, UInt16.toNat_toUInt8, UInt16.toNat_shiftRight,
      UInt16.reduceToNat, Nat.reduceMod, UInt8.toNat_zero]
    omega
  rw [hacc, pseudoHeader, List.append_assoc, List.append_assoc, wordSum_addrBytes, wordSum_addrBytes, htail]
  exact (Same.refl _).add ((Same.refl _).add ((Same.refl _).add hsame))

theorem pseudo_verifies_iff {p : List (List UInt8)} {src dest : UInt32} {proto : UInt8} {protoLen : UInt16}
    (hp : p.flatten.length ≤ 65535) :
    inetChksumPseudo p src dest proto protoLen = 0 ↔
      Same (wordSum (pseudoHeader src dest proto protoLen ++ p.flatten)) 65535 := by
  obtain ⟨hsame, hsmall⟩ := sumChain_spec hp
  have hpseudo := addPseudo_spec src dest proto protoLen hsmall hsame
  rw [inetChksumPseudo, complement_foldAll_iff]
  exact ⟨fun h => hpseudo.symm.trans h, fun h => hpseudo.trans h⟩

end

/-- The checksum of a chain of buffers of any lengths is that of its bytes, with the pseudo header in front of them
or without. -/
theorem chain_checksums (p : List (List UInt8)) (src dest : UInt32) (proto : UInt8) (protoLen : UInt16)
    (hp : p.flatten.length ≤ 65535) :
    inetChksumPbuf p = inetChksum p.flatten ∧
      inetChksumPseudo p src dest proto protoLen =
        inetChksum (pseudoHeader src dest proto protoLen ++ p.flatten) := by
  obtain ⟨hsame, hsmall⟩ := sumChain_spec hp
  have hflat : ∀ bs : List UInt8, bs.length ≤ 2 ^ 17 - 2 →
      Same (foldAll (chksum bs)).toNat (wordSum bs) ∧ (foldAll (chksum bs)).toNat < 65536 := fun bs hbs =>
    ⟨(foldAll_spec _).1.trans (chksum_spec hbs).1, (foldAll_spec _).2⟩
  constructor
  · obtain ⟨hdata, hlt⟩ := hflat p.flatten (by omega)
    exact complement_eq hsmall hlt (hsame.trans hdata.symm)
  · have hlen : (pseudoHeader src dest proto protoLen ++ p.flatten).length ≤ 2 ^ 17 - 2 := by
      rw [List.length_append]
      show 12 + _ ≤ _
      omega
    obtain ⟨hdata, hlt⟩ := hflat _ hlen
    have hpseudo := addPseudo_spec src dest proto protoLen hsmall hsame
    exact complement_eq (foldAll_spec _).2 hlt ((foldAll_spec _).1.trans (hpseudo.trans hdata.symm))

theorem chain_checksums_odd :
    inetChksumPbuf [[1], [], [2, 3, 4], [5]] = inetChksum [1, 2, 3, 4, 5] ∧
      inetChksumPseudo [[1], [], [2, 3, 4], [5]] 1 2 6 5 = inetChksum (pseudoHeader 1 2 6 5 ++ [1, 2, 3, 4, 5]) :=
  chain_checksums [[1], [], [2, 3, 4], [5]] 1 2 6 5 (by decide)

/-- A segment verifies at the receiver, whose buffers may be others, when its checksum was computed with zero in
the place where it is stored. -/
theorem stored_checksum_verifies {p p' : List (List UInt8)} {src dest : UInt32} {proto : UInt8} {protoLen c : UInt16}
    {front back : List UInt8} (hfront : front.length % 2 = 0) (hp : p.flatten = front ++ 0 :: 0 :: back)
    (hlen : p.flatten.length ≤ 65535) (hc : c = inetChksumPseudo p src dest proto protoLen)
    (hp' : p'.flatten = front ++ c.toUInt8 :: (c >>> 8).toUInt8 :: back) :
    inetChksumPseudo p' src dest proto protoLen = 0 := by
  obtain ⟨hsame, hsmall⟩ := sumChain_spec hlen
  obtain ⟨hfold, hlt⟩ := foldAll_spec (addPseudo (sumChain p) src dest proto protoLen)
  have hsum := hfold.trans (addPseudo_spec src dest proto protoLen hsmall hsame)
  have hcount := congrArg UInt16.toNat hc
  rw [inetChksumPseudo, complement_toNat hlt] at hcount
  have hlen' : p'.flatten.length = p.flatten.length := by simp [hp, hp']
  have heven : (pseudoHeader src dest proto protoLen ++ front).length % 2 = 0 := by
    rw [List.length_append]
    show (12 + front.length) % 2 = 0
    omega
  -- the sum and its complement are all ones
  have hones := (Same.refl c.toNat).add hsum
  rw [hcount, Nat.sub_add_cancel (Nat.le_of_lt_succ hlt), ← hcount, hp, ← List.append_assoc,
    wordSum_append_even heven, wordSum] at hones
  rw [pseudo_verifies_iff (hlen'.trans_le hlen), hp', ← List.append_assoc, wordSum_append_even heven, wordSum]
  convert hones.symm using 1
  simp only [UInt16.toNat_toUInt8, UInt16.toNat_shiftRight, UInt16.reduceToNat, Nat.reduceMod, UInt8.toNat_zero]
  have hword := c.toNat_lt
  omega

theorem stored_checksum_verifies_split :
    let c := inetChksumPseudo [[1, 2, 0, 0, 3]] 1 2 6 5
    inetChksumPseudo [[1], [2, c.toUInt8], [(c >>> 8).toUInt8, 3]] 1 2 6 5 = 0 :=
  @stored_checksum_verifies [[1, 2, 0, 0, 3]] _ 1 2 6 5 _ [1, 2] [3] rfl rfl (by decide) rfl rfl

end SimpleKernel.Net
