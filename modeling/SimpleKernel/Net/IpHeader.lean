import SimpleKernel.Net.Checksum
import SimpleKernel.Lib.Splice

/-! The header of IP packets (`net/ip.h`), addresses (`net/ipaddr.h`) and interfaces (`net/netif.h`). The memory is
seen from the first byte of the header on. -/
namespace SimpleKernel.Net
open OnesComplement Splice

/-- An `unsigned short` in memory. -/
def get16 (m : ℕ → UInt8) (o : ℕ) : UInt16 := UInt16.ofNat ((m o).toNat + 256 * (m (o + 1)).toNat)

def put16 (m : ℕ → UInt8) (o : ℕ) (v : UInt16) : ℕ → UInt8 := patch m o [v.toUInt8, (v >>> 8).toUInt8]

/-- An address in memory. -/
def getAddr (m : ℕ → UInt8) (o : ℕ) : UInt32 :=
  UInt32.ofNat ((m o).toNat + 2 ^ 8 * (m (o + 1)).toNat + 2 ^ 16 * (m (o + 2)).toNat + 2 ^ 24 * (m (o + 3)).toNat)

def iphV (m : ℕ → UInt8) : UInt16 := htons (get16 m 0) >>> 12
def iphHl (m : ℕ → UInt8) : UInt16 := (htons (get16 m 0) >>> 8) &&& 0x0F
def iphLen (m : ℕ → UInt8) : UInt16 := get16 m 2
def iphOffset (m : ℕ → UInt8) : UInt16 := get16 m 6
def iphTtl (m : ℕ → UInt8) : UInt16 := htons (get16 m 8) >>> 8
def iphProto (m : ℕ → UInt8) : UInt16 := htons (get16 m 8) &&& 0xFF
def iphChksum (m : ℕ → UInt8) : UInt16 := get16 m 10
def iphSrc (m : ℕ → UInt8) : UInt32 := getAddr m 12
def iphDest (m : ℕ → UInt8) : UInt32 := getAddr m 16

def iphTtlSet (m : ℕ → UInt8) (ttl : UInt16) : ℕ → UInt8 := put16 m 8 (htons (iphProto m ||| (ttl <<< 8)))
def iphChksumSet (m : ℕ → UInt8) (chksum : UInt16) : ℕ → UInt8 := put16 m 10 chksum

def ipHlen : ℕ := 20
def ipProtoIcmp : UInt16 := 1
def ipProtoTcp : UInt16 := 6
def ipProtoUdp : UInt16 := 17

/-- The bytes of the header, as many as its length field says. -/
def header (m : ℕ → UInt8) : List UInt8 := (List.range (4 * (iphHl m).toNat)).map m

/-- `ip_addr_isany` of an address that is there. -/
def isAny (a : UInt32) : Bool := a == 0

def maskcmp (a b mask : UInt32) : Bool := a &&& mask == b &&& mask

def isBroadcast (a mask : UInt32) : Bool :=
  (a &&& ~~~mask == 0xFFFFFFFF &&& ~~~mask) || a == 0xFFFFFFFF || a == 0

/-- `ip_addr_ismulticast`. The constants are in the order of the network. -/
def isMulticast (a : UInt32) : Bool := a &&& 0xF0 == 0xE0

/-- `struct netif`, at its address. The offload flags tell which checksums the device verifies itself. -/
structure Netif where
  addr : ℕ
  ipaddr : UInt32
  netmask : UInt32
  ipRxOffload : Bool
  tcpRxOffload : Bool

/-- `netif_list` and `netif_default`. -/
structure Netifs where
  list : List Netif
  default : Option Netif

def ipRoute (n : Netifs) (dest : UInt32) : Option Netif :=
  ((n.list.find? fun netif => dest == netif.ipaddr).or
    (n.list.find? fun netif => maskcmp dest netif.ipaddr netif.netmask)).or n.default

section
variable {m : ℕ → UInt8} {o : ℕ}

theorem get16_toNat (m : ℕ → UInt8) (o : ℕ) : (get16 m o).toNat = (m o).toNat + 256 * (m (o + 1)).toNat := by
  have h := (m o).toNat_lt
  have h' := (m (o + 1)).toNat_lt
  rw [get16, UInt16.toNat_ofNat_of_lt' (by simp [UInt16.size]; omega)]

theorem wordAt_eq (m : ℕ → UInt8) (i : ℕ) : wordAt m i = (get16 m (2 * i)).toNat := (get16_toNat m (2 * i)).symm

theorem put16_of_lt (v : UInt16) {i : ℕ} (h : i < o) : put16 m o v i = m i := patch_of_lt m h

theorem put16_of_ge (v : UInt16) {i : ℕ} (h : o + 2 ≤ i) : put16 m o v i = m i := patch_of_ge m h

theorem put16_low (m : ℕ → UInt8) (o : ℕ) (v : UInt16) : put16 m o v o = v.toUInt8 := by
  have h := patch_mem (a := [v.toUInt8, (v >>> 8).toUInt8]) m (Nat.le_refl o) (by simp)
  rw [Nat.sub_self] at h
  exact Option.some.inj h

theorem put16_high (m : ℕ → UInt8) (o : ℕ) (v : UInt16) : put16 m o v (o + 1) = (v >>> 8).toUInt8 := by
  have h := patch_mem (a := [v.toUInt8, (v >>> 8).toUInt8]) m (Nat.le_add_right o 1) (by simp)
  rw [Nat.add_sub_cancel_left] at h
  exact Option.some.inj h

theorem get16_put16 (m : ℕ → UInt8) (o : ℕ) (v : UInt16) : get16 (put16 m o v) o = v := by
  have hlt := v.toNat_lt
  apply UInt16.toNat_inj.mp
  rw [get16_toNat, put16_low, put16_high, UInt16.toNat_toUInt8, UInt16.toNat_toUInt8, UInt16.toNat_shiftRight]
  simp only [UInt16.reduceToNat, Nat.reduceMod]
  omega

theorem get16_put16_of_ne (v : UInt16) {i : ℕ} (h : i + 2 ≤ o ∨ o + 2 ≤ i) : get16 (put16 m o v) i = get16 m i := by
  obtain h | h := h
  · rw [get16, get16, put16_of_lt v (by omega), put16_of_lt v (by omega)]
  · rw [get16, get16, put16_of_ge v h, put16_of_ge v (by omega)]

theorem htons_get16 (m : ℕ → UInt8) (o : ℕ) :
    (htons (get16 m o)).toNat = 256 * (m o).toNat + (m (o + 1)).toNat := by
  have h := (m o).toNat_lt
  rw [htons_toNat, get16_toNat]
  omega

theorem iphTtl_toNat (m : ℕ → UInt8) : (iphTtl m).toNat = (m 8).toNat := by
  have h := (m 9).toNat_lt
  rw [iphTtl, UInt16.toNat_shiftRight, htons_get16]
  simp only [UInt16.reduceToNat, Nat.reduceMod, Nat.reduceAdd]
  omega

theorem iphProto_toNat (m : ℕ → UInt8) : (iphProto m).toNat = (m 9).toNat := by
  have h := (m 9).toNat_lt
  have hand : (htons (get16 m 8) &&& 0xFF).toNat = (htons (get16 m 8)).toNat % 256 := by
    exact Nat.and_two_pow_sub_one_eq_mod _ 8
  rw [iphProto, hand, htons_get16]
  show (256 * (m 8).toNat + (m 9).toNat) % 256 = (m 9).toNat
  omega

theorem iphHl_toNat (m : ℕ → UInt8) : (iphHl m).toNat = (m 0).toNat % 16 := by
  have h := (m 1).toNat_lt
  have hand (v : UInt16) : (v &&& 0x0F).toNat = v.toNat % 16 := by
    exact Nat.and_two_pow_sub_one_eq_mod _ 4
  rw [iphHl, hand, UInt16.toNat_shiftRight, htons_get16]
  simp only [UInt16.reduceToNat, Nat.reduceMod, Nat.reduceAdd]
  omega

theorem iphTtlSet_word (m : ℕ → UInt8) (ttl : UInt16) :
    (get16 (iphTtlSet m ttl) 8).toNat = ttl.toNat % 256 + 256 * (m 9).toNat := by
  have hproto := (m 9).toNat_lt
  have hhigh : (ttl <<< 8).toNat = (ttl.toNat % 256) <<< 8 := by
    rw [UInt16.toNat_shiftLeft, Nat.shiftLeft_eq, Nat.shiftLeft_eq]
    show ttl.toNat * 256 % 65536 = ttl.toNat % 256 * 256
    omega
  have hor : (iphProto m ||| (ttl <<< 8)).toNat = 256 * (ttl.toNat % 256) + (m 9).toNat := by
    rw [UInt16.toNat_or, hhigh, iphProto_toNat, Nat.or_comm, ← Nat.shiftLeft_add_eq_or_of_lt (by omega)]
    omega
  rw [iphTtlSet, get16_put16, htons_toNat]
  omega

theorem iphTtl_iphTtlSet (m : ℕ → UInt8) (ttl : UInt16) : (iphTtl (iphTtlSet m ttl)).toNat = ttl.toNat % 256 := by
  have hlt := (iphTtlSet m ttl 8).toNat_lt
  have hword := iphTtlSet_word m ttl
  rw [get16_toNat] at hword
  rw [iphTtl_toNat]
  omega

theorem wordSum_header (m : ℕ → UInt8) :
    wordSum (header m) = ∑ i ∈ Finset.range (2 * (iphHl m).toNat), wordAt m i := by
  have h : 4 * (iphHl m).toNat = 2 * (2 * (iphHl m).toNat) := by omega
  rw [header, h, wordSum_range]

theorem header_verifies_iff (m : ℕ → UInt8) :
    inetChksum (header m) = 0 ↔ Same (wordSum (header m)) 65535 := by
  have hl := iphHl_toNat m
  have hlen : (header m).length ≤ 2 ^ 17 - 2 := by
    rw [header, List.length_map, List.length_range]
    omega
  obtain ⟨hchk, -⟩ := chksum_spec hlen
  rw [inetChksum, complement_foldAll_iff]
  exact ⟨fun h => hchk.symm.trans h, fun h => hchk.trans h⟩

end

end SimpleKernel.Net
