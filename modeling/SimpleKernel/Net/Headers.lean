import SimpleKernel.Net.IpHeader
import SimpleKernel.Lib.Traced

/-! `ip_input` and `tcp_input` of `net/ip.c` and `net/tcp_input.c`, as far as the headers go: the fields that they read,
and what becomes of the packet. Offsets count from the first byte of the packet. -/
namespace SimpleKernel.Net.Input
open OnesComplement Splice Traced

/-- A field that is read. -/
structure Read where
  off : ℕ
  size : ℕ

/-- The first buffer of a chain, and the payloads of the others. In front of the packet there are `headroom` bytes. -/
structure Pbuf where
  headroom : ℕ
  payload : ℤ
  len : ℤ
  totLen : ℤ
  next : List (List UInt8)

/-- The number of bytes that the header has, as it says. -/
def iphdrlen (m : ℕ → UInt8) : ℕ := 4 * (iphHl m).toNat

/-- The number of bytes of the packet, as its header says. -/
def ipLen (m : ℕ → UInt8) : ℕ := (htons (iphLen m)).toNat

abbrev Action (α : Type) := Traced Pbuf Read α

/-- A packet as it comes in: the memory from its first byte on, the number of bytes in the first buffer, and the
payloads of the other buffers. -/
structure Packet where
  m : ℕ → UInt8
  headroom : ℕ
  len : ℕ
  next : List (List UInt8)

def Packet.totLen (k : Packet) : ℕ := k.len + k.next.flatten.length

/-- The first buffer of the packet. -/
def Packet.pbuf (k : Packet) : Pbuf := ⟨k.headroom, 0, k.len, k.totLen, k.next⟩

def self : Action Pbuf := fun p => (p, p, [])

/-- A field with value `a` is read. -/
def read {α : Type} (off size : ℕ) (a : α) : Action α := fun p => (a, p, [⟨off, size⟩])

/-- The buffers that the first `size` bytes take, the last one cut. -/
def trim : ℕ → List (List UInt8) → List (List UInt8)
  | _, [] => []
  | size, q :: qs => if size > q.length then q :: trim (size - q.length) qs else [q.take size]

/-- `pbuf_realloc` of a chain of type `PBUF_RW` or `PBUF_POOL`. -/
def Pbuf.realloc (p : Pbuf) (size : ℕ) : Pbuf :=
  if p.totLen ≤ size then p
  else if (size : ℤ) > p.len then { p with totLen := size, next := trim (size - p.len).toNat p.next }
  else { p with len := size, totLen := size, next := [] }

def pbufRealloc (size : ℕ) : Action Unit := fun p => ((), p.realloc size, [])

def Pbuf.header (p : Pbuf) (headerSize : ℤ) : Pbuf :=
  { p with payload := p.payload - headerSize, len := p.len + headerSize, totLen := p.totLen + headerSize }

def EBUF : ℤ := 65

/-- `pbuf_header`. It fails when the payload would begin inside the structure. -/
def pbufHeader (headerSize : ℤ) : Action ℤ := fun p =>
  if p.payload - headerSize < -p.headroom then (-EBUF, p, []) else (0, p.header headerSize, [])

/-- What becomes of a packet. A segment goes to `tcp_process` with the offset of its TCP header. -/
inductive Outcome
  | dropped
  | foreign
  | eaten
  | udp
  | icmp
  | unreachable
  | reset
  | process (tcphdr : ℕ) (p : Pbuf)

structure RawPcb where
  protocol : ℕ
  /-- What the callback returns for the packet. -/
  recv : Option ℤ

/-- The loop of `raw_input`. -/
def rawInput (proto : UInt16) : List RawPcb → ℤ
  | [] => 0
  | pcb :: pcbs =>
    if pcb.protocol = proto.toNat then
      match pcb.recv with
      | none => rawInput proto pcbs
      | some rc => if rc < 0 then rc else if rc > 0 then 1 else rawInput proto pcbs
    else rawInput proto pcbs

structure TcpPcb where
  localIp : UInt32
  remoteIp : UInt32
  localPort : UInt16
  remotePort : UInt16

/-- The lists of TCP pcbs: `tcp_active_pcbs`, `tcp_tw_pcbs` and `tcp_listen_pcbs`. -/
structure TcpPcbs where
  active : List TcpPcb
  tw : List TcpPcb
  listen : List TcpPcb

/-- A pcb is found for a segment. -/
def TcpPcbs.find (pcbs : TcpPcbs) (srcIp destIp : UInt32) (src dest : UInt16) : Bool :=
  let connected := fun pcb : TcpPcb =>
    pcb.remotePort == src && pcb.localPort == dest && pcb.remoteIp == srcIp && pcb.localIp == destIp
  pcbs.active.any connected || pcbs.tw.any connected ||
    pcbs.listen.any fun pcb => (isAny pcb.localIp || pcb.localIp == destIp) && pcb.localPort == dest

/-- `TCPH_OFFSET(tcphdr) >> 4` -/
def tcphOffset (m : ℕ → UInt8) (tcphdr : ℕ) : ℕ := ((htons (get16 m (tcphdr + 12)) >>> 8) >>> 4).toNat

def tcphFlags (m : ℕ → UInt8) (tcphdr : ℕ) : UInt16 := htons (get16 m (tcphdr + 12)) &&& 0xFF

def tcpRst : UInt16 := 0x04

/-- The fields of the TCP header are put into the order of the machine: `src`, `dest`, `seqno`, `ackno` and `wnd`. -/
def hostOrder (m : ℕ → UInt8) (tcphdr : ℕ) : ℕ → UInt8 :=
  let m := put16 m tcphdr (htons (get16 m tcphdr))
  let m := put16 m (tcphdr + 2) (htons (get16 m (tcphdr + 2)))
  let m := patch m (tcphdr + 4) [m (tcphdr + 7), m (tcphdr + 6), m (tcphdr + 5), m (tcphdr + 4)]
  let m := patch m (tcphdr + 8) [m (tcphdr + 11), m (tcphdr + 10), m (tcphdr + 9), m (tcphdr + 8)]
  put16 m (tcphdr + 14) (htons (get16 m (tcphdr + 14)))

/-- A packet is for the interface. -/
def isFor (dest : UInt32) (netif : Netif) : Bool :=
  dest == netif.ipaddr || (isBroadcast dest netif.netmask && maskcmp dest netif.ipaddr netif.netmask) ||
    dest == 0xFFFFFFFF

/-- The loop over the interfaces in `ip_input`. -/
def findNetif (m : ℕ → UInt8) : List Netif → Action Bool
  | [] => pure false
  | netif :: list =>
    if isAny netif.ipaddr then pure true
    else do
      let dest ← read 16 4 (iphDest m)
      if isFor dest netif then pure true else findNetif m list

/-- The sum over the chain. The loops of `chksum` read nothing from a buffer with a negative length, which still counts
as an odd one. -/
def sumPbufs (m : ℕ → UInt8) (p : Pbuf) : UInt32 :=
  let r :=
    if 0 ≤ p.len then sumBufs ((List.range p.len.toNat).map (fun i => m (p.payload.toNat + i)) :: p.next) 0 false
    else sumBufs p.next 0 (p.len % 2 ≠ 0)
  if r.2 then swap r.1 else r.1

/-- `inet_chksum_pseudo` over a segment. -/
def segmentChksum (m : ℕ → UInt8) (p : Pbuf) : UInt16 :=
  complement (foldAll (addPseudo (sumPbufs m p) (iphSrc m) (iphDest m) 6 (UInt16.ofInt p.totLen)))

variable (n : Netifs) (inp : Netif) (raws : List RawPcb) (pcbs : TcpPcbs) (m : ℕ → UInt8)

def verifySegment : Action Bool := do
  let p ← self
  let _ ← read p.payload.toNat p.len.toNat ()
  let _ ← read 12 4 (iphSrc m)
  read 16 4 (segmentChksum m p == 0)

/-- `tcp_input` behind the checksum. -/
def acceptSegment (tcphdr : ℕ) : Action Outcome := do
  let tcphdrlen ← read (tcphdr + 12) 2 (4 * tcphOffset m tcphdr)
  let rc ← pbufHeader (-tcphdrlen)
  if rc < 0 then pure .dropped
  else do
    let _ ← read tcphdr 12 ()
    let _ ← read (tcphdr + 14) 2 ()
    let m := hostOrder m tcphdr
    let src ← read tcphdr 2 (get16 m tcphdr)
    let dest ← read (tcphdr + 2) 2 (get16 m (tcphdr + 2))
    let srcIp ← read 12 4 (iphSrc m)
    let destIp ← read 16 4 (iphDest m)
    let p ← self
    if pcbs.find srcIp destIp src dest then pure (.process tcphdr p)
    else do
      let flags ← read (tcphdr + 12) 2 (tcphFlags m tcphdr)
      if flags &&& tcpRst = 0 then pure .reset else pure .dropped

def tcpInput : Action Outcome := do
  let tcphdr ← read 0 2 (iphdrlen m)
  let rc ← pbufHeader (-tcphdr)
  let p ← self
  -- the comparison with a size is unsigned
  if rc < 0 || p.totLen % 2 ^ 32 < 20 then pure .dropped
  else do
    let dest ← read 16 4 (iphDest m)
    if isBroadcast dest inp.netmask || isMulticast dest then pure .dropped
    else do
      let verified ← if inp.tcpRxOffload then pure true else verifySegment m
      if verified then acceptSegment pcbs m tcphdr else pure .dropped

/-- `ip_input` behind the choice of the interface. -/
def deliver (hl : ℕ) : Action Outcome := do
  let offset ← read 6 2 (iphOffset m)
  if offset &&& htons 0x3FFF ≠ 0 then pure .dropped
  else if hl > ipHlen then pure .dropped
  else do
    let proto ← read 8 2 (iphProto m)
    if rawInput proto raws ≠ 0 then pure .eaten
    else if proto = ipProtoUdp then pure .udp
    else if proto = ipProtoTcp then tcpInput inp pcbs m
    else if proto = ipProtoIcmp then pure .icmp
    else do
      let dest ← read 16 4 (iphDest m)
      if isBroadcast dest inp.netmask || isMulticast dest then pure .dropped else pure .unreachable

/-- The source port of a UDP packet is that of a DHCP server. -/
def isFromDhcp : Action Bool := do
  let proto ← read 8 2 (iphProto m)
  if proto = ipProtoUdp then do
    let hl ← read 0 2 (iphdrlen m)
    read hl 2 (get16 m hl == 67)
  else pure false

/-- `ip_input` behind the checksum. -/
def acceptPacket (hl : ℕ) : Action Outcome := do
  let size ← read 2 2 (ipLen m)
  pbufRealloc size
  let found ← findNetif m n.list
  let taken ← if found then pure true else isFromDhcp m
  if taken then deliver inp raws pcbs m hl
  else do
    let _ ← read 16 4 (iphDest m)
    pure .foreign

def ipInput : Action Outcome := do
  let version ← read 0 2 (iphV m)
  if version ≠ 4 then pure .dropped
  else do
    let hl ← read 0 2 (iphdrlen m)
    let p ← self
    if hl > p.len then pure .dropped
    else do
      let verified ← if inp.ipRxOffload then pure true else read 0 hl (inetChksum (header m) == 0)
      if verified then acceptPacket n inp raws pcbs m hl else pure .dropped

/-- The field is in the first `len` bytes. -/
def Inside (len : ℕ) (r : Read) : Prop := r.off + r.size ≤ len

/-- What goes to `tcp_process` satisfies `R`. -/
def OnProcess (R : ℕ → Pbuf → Prop) : Outcome → Prop
  | .process tcphdr p => R tcphdr p
  | _ => True

/-- A pcb is found for the segment, with its ports and with the addresses, which the ports may lie over. -/
def Found (tcphdr : ℕ) : Prop :=
  let m := hostOrder m tcphdr
  pcbs.find (iphSrc m) (iphDest m) (get16 m tcphdr) (get16 m (tcphdr + 2)) = true

/-- The destination is an address of one host. -/
def Unicast : Prop := isBroadcast (iphDest m) inp.netmask = false ∧ isMulticast (iphDest m) = false

/-- The checksum of a segment is right, or the device has verified it. -/
def Verified (p : Pbuf) : Prop := inp.tcpRxOffload = true ∨ segmentChksum m p = 0

/-- A packet has no options and is not a fragment. -/
def Whole : Prop := iphOffset m &&& htons 0x3FFF = 0 ∧ iphdrlen m ≤ ipHlen

/-- The length of a segment, as an unsigned number, is that of a TCP header at least. -/
def Long (p : Pbuf) : Prop := 20 ≤ p.totLen % 2 ^ 32

/-- The packet comes to the functions of the upper layers. -/
def Upper : Prop := Whole m ∧ rawInput (iphProto m) raws = 0

variable {n inp raws pcbs m} {α β : Type} {p : Pbuf} {P : Read → Prop} {Q : Outcome → Prop}

theorem read_apply {off size : ℕ} (a : α) (p : Pbuf) : read off size a p = (a, p, [⟨off, size⟩]) := rfl

theorem ends_read {off size : ℕ} {a : α} {f : α → Action Outcome} :
    Ends P Q (read off size a >>= f) p ↔ P ⟨off, size⟩ ∧ Ends P Q (f a) p := by
  rw [ends_bind (read_apply a p), List.forall_mem_singleton]

theorem ends_self {f : Pbuf → Action Outcome} : Ends P Q (self >>= f) p ↔ Ends P Q (f p) p := by
  have heq : self p = (p, p, []) := rfl
  rw [ends_bind heq]
  simp

theorem ends_realloc {size : ℕ} {f : Unit → Action Outcome} :
    Ends P Q (pbufRealloc size >>= f) p ↔ Ends P Q (f ()) (p.realloc size) := by
  have heq : pbufRealloc size p = ((), p.realloc size, []) := rfl
  rw [ends_bind heq]
  simp

theorem ends_header {k : ℕ} {f : ℤ → Action Outcome} (h : 0 ≤ p.payload) :
    Ends P Q (pbufHeader (-k) >>= f) p ↔ Ends P Q (f 0) (p.header (-k)) := by
  have heq : pbufHeader (-k) p = (0, p.header (-k), []) := if_neg (by omega)
  rw [ends_bind heq]
  simp

theorem ends_verify {f : Bool → Action Outcome} : Ends P Q (verifySegment m >>= f) p ↔
    (∀ r ∈ [⟨p.payload.toNat, p.len.toNat⟩, ⟨12, 4⟩, ⟨16, 4⟩], P r) ∧ Ends P Q (f (segmentChksum m p == 0)) p :=
  ends_bind rfl

theorem ends_unless {f : Bool → Action Outcome} : Ends P Q (pure true >>= f) p ↔ Ends P Q (f true) p := by
  rw [ends_bind pure_eq]
  simp

variable {len tcphdr : ℕ} {R : ℕ → Pbuf → Prop}

theorem acceptSegment_ends (hlen : 20 ≤ len) (hp : 0 ≤ p.payload) :
    Ends (Inside len) (OnProcess R) (acceptSegment pcbs m tcphdr) p ↔
      tcphdr + 16 ≤ len ∧ (Found pcbs m tcphdr → R tcphdr (p.header (-(4 * tcphOffset m tcphdr : ℕ)))) := by
  rw [acceptSegment, ends_read, ends_header hp, if_neg (by decide)]
  simp only [ends_read, ends_self, ends_ite, ends_pure, Inside]
  constructor
  · rintro ⟨-, -, hwnd, -, -, -, -, hfound, -⟩
    exact ⟨by omega, hfound⟩
  · rintro ⟨hfields, hfound⟩
    exact ⟨by omega, by omega, by omega, by omega, by omega, by omega, by omega, hfound,
      fun _ => ⟨by omega, fun _ => trivial, fun _ => trivial⟩⟩

theorem tcpInput_ends (hp : p.payload = 0) (hlen : p.len ≤ len) (hhl : iphdrlen m ≤ len) (hfirst : 2 ≤ len) :
    Ends (Inside len) (OnProcess R) (tcpInput inp pcbs m) p ↔
      (Long (p.header (-iphdrlen m)) → 20 ≤ len ∧
        (Unicast inp m → Verified inp m (p.header (-iphdrlen m)) →
          Ends (Inside len) (OnProcess R) (acceptSegment pcbs m (iphdrlen m))
            (p.header (-iphdrlen m)))) := by
  rw [tcpInput, ends_read, ends_header (by omega)]
  simp only [ends_read, ends_self, ends_ite, ends_pure, ends_unless, ends_verify]
  have hpayload : (p.header (-iphdrlen m)).payload = iphdrlen m := by
    simp [Pbuf.header, hp]
  have hchain : (p.header (-iphdrlen m)).len.toNat + iphdrlen m ≤ len := by
    simp only [Pbuf.header]
    omega
  constructor
  · rintro ⟨-, -, hrest⟩ hlong
    obtain ⟨hdest, -, hrest⟩ := hrest (by simpa [Long] using hlong)
    refine ⟨hdest, fun hunicast hverified => ?_⟩
    obtain ⟨hdevice, hsoftware⟩ := hrest (by simp [hunicast.1, hunicast.2])
    by_cases hoffload : inp.tcpRxOffload = true
    · exact (hdevice hoffload).1 trivial
    · have hsum := hverified.resolve_left hoffload
      exact (hsoftware hoffload).2.1 (by simp [hsum])
  · intro hrest
    refine ⟨hfirst, fun _ => trivial, fun hlong => ?_⟩
    obtain ⟨hdest, hrest⟩ := hrest (by simpa [Long] using hlong)
    refine ⟨hdest, fun _ => trivial, fun huni => ?_⟩
    have hunicast : Unicast inp m := by simpa [Unicast] using huni
    refine ⟨fun hoffload => ⟨fun _ => hrest hunicast (.inl hoffload), fun h => absurd trivial h⟩,
      fun _ => ⟨?_, fun hsum => hrest hunicast (.inr (by simpa using hsum)), fun _ => trivial⟩⟩
    simp only [List.forall_mem_cons, Inside]
    exact ⟨by omega, by omega, by omega, fun r hr => by cases hr⟩

theorem deliver_ends :
    Ends (Inside len) (OnProcess R) (deliver inp raws pcbs m (iphdrlen m)) p ↔
      8 ≤ len ∧ (Whole m → 10 ≤ len) ∧ (Upper raws m →
        (iphProto m ≠ ipProtoUdp → iphProto m ≠ ipProtoTcp → iphProto m ≠ ipProtoIcmp → 20 ≤ len) ∧
        (iphProto m = ipProtoTcp → Ends (Inside len) (OnProcess R) (tcpInput inp pcbs m) p)) := by
  rw [deliver]
  simp only [ends_read, ends_ite, ends_pure]
  constructor
  · rintro ⟨hoffset, -, hrest⟩
    have hwhole := fun hw : Whole m => (hrest (not_not.mpr hw.1)).2 (Nat.not_lt.mpr hw.2)
    refine ⟨hoffset, fun hw => (hwhole hw).1, fun ⟨hw, hraw⟩ => ?_⟩
    obtain ⟨-, hother⟩ := (hwhole hw).2.2 (not_not.mpr hraw)
    refine ⟨fun hudp htcp hicmp => (((hother hudp).2 htcp).2 hicmp).1, fun htcp => (hother ?_).1 htcp⟩
    rw [htcp]
    decide
  · rintro ⟨hoffset, hproto, hrest⟩
    refine ⟨hoffset, fun _ => trivial, fun hoff => ⟨fun _ => trivial, fun hopt => ?_⟩⟩
    have hw : Whole m := ⟨not_not.mp hoff, Nat.not_lt.mp hopt⟩
    refine ⟨hproto hw, fun _ => trivial, fun hraw => ⟨fun _ => trivial, fun hudp => ?_⟩⟩
    obtain ⟨hother, htcp⟩ := hrest ⟨hw, not_not.mp hraw⟩
    exact ⟨htcp, fun hntcp => ⟨fun _ => trivial, fun hicmp =>
      ⟨hother hudp hntcp hicmp, fun _ => trivial, fun _ => trivial⟩⟩⟩

/-- The packet is for one of the interfaces. -/
def forUs (m : ℕ → UInt8) (list : List Netif) : Bool :=
  list.any fun netif => isAny netif.ipaddr || isFor (iphDest m) netif

/-- The first interface has an address, with which the destination is compared. -/
def Compares (list : List Netif) : Prop := ∃ netif ∈ list.head?, isAny netif.ipaddr = false

theorem findNetif_eq (list : List Netif) :
    ∃ es, findNetif m list p = (forUs m list, p, es) ∧ (∀ r ∈ es, r = ⟨16, 4⟩) ∧ (es ≠ [] ↔ Compares list) := by
  induction list with
  | nil => exact ⟨[], rfl, by simp, by simp [Compares]⟩
  | cons netif list ih =>
    obtain ⟨es, heq, hes, -⟩ := ih
    rw [findNetif]
    cases hany : isAny netif.ipaddr with
    | true => exact ⟨[], by simp [forUs, hany], by simp, by simp [Compares, hany]⟩
    | false =>
      rw [if_neg (by decide), bind_eq (read_apply (iphDest m) p)]
      cases hfor : isFor (iphDest m) netif with
      | true => exact ⟨[⟨16, 4⟩], by simp [forUs, hfor], by simp, by simp [Compares, hany]⟩
      | false =>
        rw [if_neg (by decide), heq]
        exact ⟨⟨16, 4⟩ :: es, by simp [forUs, hfor, hany], by simpa using hes, by simp [Compares, hany]⟩

theorem ends_find {list : List Netif} {f : Bool → Action Outcome} :
    Ends (Inside len) Q (findNetif m list >>= f) p ↔
      (Compares list → 20 ≤ len) ∧ Ends (Inside len) Q (f (forUs m list)) p := by
  obtain ⟨es, heq, hes, hcompares⟩ := findNetif_eq list
  rw [ends_bind heq, ← hcompares]
  refine and_congr_left fun _ => ⟨fun h hne => ?_, fun h r hr => ?_⟩
  · obtain ⟨r, hr⟩ := List.exists_mem_of_ne_nil es hne
    have hinside := h r hr
    rwa [hes r hr] at hinside
  · rw [hes r hr]
    exact h (List.ne_nil_of_mem hr)

/-- The source port of a UDP packet is that of a DHCP server. -/
def fromDhcp (m : ℕ → UInt8) : Bool := iphProto m == ipProtoUdp && get16 m (iphdrlen m) == 67

theorem ends_fromDhcp {f : Bool → Action Outcome} (hfirst : 2 ≤ len) :
    Ends (Inside len) Q (isFromDhcp m >>= f) p ↔
      10 ≤ len ∧ (iphProto m = ipProtoUdp → iphdrlen m + 2 ≤ len) ∧
        Ends (Inside len) Q (f (fromDhcp m)) p := by
  have heq : isFromDhcp m p = (fromDhcp m, p, ⟨8, 2⟩ ::
      if iphProto m = ipProtoUdp then [⟨0, 2⟩, ⟨iphdrlen m, 2⟩] else []) := by
    rw [isFromDhcp, bind_eq (read_apply (iphProto m) p), fromDhcp]
    split
    · next hudp =>
      rw [hudp]
      rfl
    · next hudp => simp [hudp]
  rw [ends_bind heq, List.forall_mem_cons, and_assoc]
  refine and_congr_right fun _ => and_congr_left fun _ => ?_
  split
  · next hudp => simp [hudp, Inside, hfirst]
  · next hudp => simp [hudp]

theorem trim_length {size : ℕ} {qs : List (List UInt8)} (h : size ≤ qs.flatten.length) :
    (trim size qs).flatten.length = size := by
  induction size, qs using trim.induct with
  | case1 size =>
    rw [List.flatten_nil, List.length_nil] at h
    simp only [trim, List.flatten_nil, List.length_nil]
    omega
  | case2 size q qs hlong ih =>
    rw [List.flatten_cons, List.length_append] at h
    rw [trim, if_pos hlong, List.flatten_cons, List.length_append]
    omega
  | case3 size q qs hlong =>
    rw [trim, if_neg hlong]
    simp
    omega

/-- The chain holds `len` bytes in its first buffer and `totLen` in all. -/
structure Holds (len totLen : ℕ) (p : Pbuf) : Prop where
  payload : p.payload = 0
  len : p.len = len
  totLen : p.totLen = totLen
  next : p.totLen = p.len + p.next.flatten.length

theorem realloc_holds (k : Packet) (size : ℕ) :
    Holds (min k.len size) (min k.totLen size) (k.pbuf.realloc size) := by
  rw [Pbuf.realloc]
  split
  · next hshort =>
    have hle : k.len + k.next.flatten.length ≤ size := Int.ofNat_le.mp hshort
    exact ⟨rfl, congrArg Nat.cast (by omega), congrArg Nat.cast (Nat.min_eq_left hle).symm, rfl⟩
  · next hlong =>
    have hgt : size < k.totLen := Int.ofNat_lt.mp (Int.not_le.mp hlong)
    split
    · next hnext =>
      have hlt : k.len < size := Int.ofNat_lt.mp hnext
      have hcut : (size - k.pbuf.len).toNat = size - k.len := by
        show ((size : ℤ) - (k.len : ℤ)).toNat = _
        omega
      refine ⟨rfl, congrArg Nat.cast (Nat.min_eq_left hlt.le).symm, congrArg Nat.cast (Nat.min_eq_right hgt.le).symm, ?_⟩
      rw [Packet.totLen] at hgt
      show (size : ℤ) = k.len + (trim (size - k.pbuf.len).toNat k.next).flatten.length
      rw [trim_length (by omega)]
      omega
    · next hfirst =>
      have hle : size ≤ k.len := Int.ofNat_le.mp (Int.not_lt.mp hfirst)
      exact ⟨rfl, congrArg Nat.cast (Nat.min_eq_right hle).symm, congrArg Nat.cast (Nat.min_eq_right hgt.le).symm,
        by simp⟩

variable (n inp raws pcbs) (k : Packet)

/-- The buffer that comes to `tcp_input`, without the IP header. -/
def Packet.segment : Pbuf := (k.pbuf.realloc (ipLen k.m)).header (-iphdrlen k.m)

/-- The headers are in the first buffer, and the lengths are those of the payload: in the first buffer and in all. -/
structure Processed (tcphdr : ℕ) (p : Pbuf) : Prop where
  iphdr : 20 ≤ tcphdr
  tcphdr : (tcphdr + 20 : ℕ) ≤ p.payload
  inside : p.payload ≤ k.len
  len : p.len = (min k.len (ipLen k.m) - p.payload.toNat : ℕ)
  totLen : p.totLen = (min k.totLen (ipLen k.m) - p.payload.toNat : ℕ)
  next : p.totLen = p.len + p.next.flatten.length

/-- The version, the header length and the checksum of the header are as they should be. -/
def Accepted : Prop :=
  iphV k.m = 4 ∧ iphdrlen k.m ≤ k.len ∧ (inp.ipRxOffload = true ∨ inetChksum (header k.m) = 0)

/-- The packet is taken for this host. -/
def Taken : Prop := Accepted inp k ∧ (forUs k.m n.list = true ∨ fromDhcp k.m = true)

/-- The packet comes to `tcp_input`, with a length that does not look too short. -/
def Segment : Prop := Taken n inp k ∧ Upper raws k.m ∧ iphProto k.m = ipProtoTcp ∧ Long k.segment

/-- The segment is for one host, and its checksum is right. -/
def Valid : Prop := Segment n inp raws k ∧ Unicast inp k.m ∧ Verified inp k.m k.segment

/-- The fields that the code looks at are in the first buffer, and the headers of a segment that a pcb is found for
fit into it and into the packet. -/
structure Handled : Prop where
  version : 2 ≤ k.len
  total : Accepted inp k → 4 ≤ k.len
  netifs : Accepted inp k → Compares n.list → 20 ≤ k.len
  port : Accepted inp k → forUs k.m n.list = false →
    10 ≤ k.len ∧ (iphProto k.m = ipProtoUdp → iphdrlen k.m + 2 ≤ k.len) ∧ (fromDhcp k.m = false → 20 ≤ k.len)
  offset : Taken n inp k → 8 ≤ k.len ∧ (Whole k.m → 10 ≤ k.len)
  unreachable : Taken n inp k → Upper raws k.m → iphProto k.m ≠ ipProtoUdp → iphProto k.m ≠ ipProtoTcp →
    iphProto k.m ≠ ipProtoIcmp → 20 ≤ k.len
  dest : Segment n inp raws k → 20 ≤ k.len
  ports : Valid n inp raws k → iphdrlen k.m + 16 ≤ k.len
  process : Valid n inp raws k → Found pcbs k.m (iphdrlen k.m) →
    iphdrlen k.m = 20 ∧ 5 ≤ tcphOffset k.m 20 ∧ 20 + 4 * tcphOffset k.m 20 ≤ min k.len (ipLen k.m)

variable {n inp raws pcbs k}

theorem segmentChksum_eq (h : 0 ≤ p.len) : segmentChksum m p =
    inetChksumPseudo ((List.range p.len.toNat).map (fun i => m (p.payload.toNat + i)) :: p.next)
      (iphSrc m) (iphDest m) 6 (UInt16.ofInt p.totLen) := by
  rw [segmentChksum, sumPbufs, if_pos h]
  rfl

theorem segment_holds (k : Packet) :
    k.segment.payload = iphdrlen k.m ∧ k.segment.len = (min k.len (ipLen k.m) : ℕ) - (iphdrlen k.m : ℤ) ∧
      k.segment.totLen = (min k.totLen (ipLen k.m) : ℕ) - (iphdrlen k.m : ℤ) ∧
      k.segment.totLen = k.segment.len + k.segment.next.flatten.length := by
  obtain ⟨hpayload, hlen, htot, hnext⟩ := realloc_holds k (ipLen k.m)
  simp only [Packet.segment, Pbuf.header]
  exact ⟨by omega, by omega, by omega, by omega⟩

theorem processed_iff (hwhole : iphdrlen k.m ≤ 20) :
    Processed k (iphdrlen k.m) (k.segment.header (-(4 * tcphOffset k.m (iphdrlen k.m) : ℕ))) ↔
      iphdrlen k.m = 20 ∧ 5 ≤ tcphOffset k.m 20 ∧ 20 + 4 * tcphOffset k.m 20 ≤ min k.len (ipLen k.m) := by
  obtain ⟨hpayload, hlen, htot, hnext⟩ := segment_holds k
  constructor
  · rintro ⟨hip, htcp, -, hpayloadLen, -, -⟩
    have hhl : iphdrlen k.m = 20 := Nat.le_antisymm hwhole hip
    rw [hhl] at hpayload hlen htcp hpayloadLen
    simp only [Pbuf.header] at htcp hpayloadLen
    exact ⟨hhl, by omega, by omega⟩
  · rintro ⟨hhl, hoff, hfit⟩
    rw [hhl] at hpayload hlen htot ⊢
    constructor
    · exact Nat.le_refl 20
    all_goals simp only [Pbuf.header]; omega

theorem segment_ends (hfirst : 2 ≤ k.len) (hhl : iphdrlen k.m ≤ k.len) (hwhole : iphdrlen k.m ≤ 20) :
    Ends (Inside k.len) (OnProcess (Processed k)) (tcpInput inp pcbs k.m) (k.pbuf.realloc (ipLen k.m)) ↔
      (Long k.segment → 20 ≤ k.len ∧ (Unicast inp k.m → Verified inp k.m k.segment →
        iphdrlen k.m + 16 ≤ k.len ∧ (Found pcbs k.m (iphdrlen k.m) →
          iphdrlen k.m = 20 ∧ 5 ≤ tcphOffset k.m 20 ∧ 20 + 4 * tcphOffset k.m 20 ≤ min k.len (ipLen k.m)))) := by
  obtain ⟨hpayload, hlen, -, -⟩ := realloc_holds k (ipLen k.m)
  obtain ⟨hsegment, -⟩ := segment_holds k
  rw [tcpInput_ends hpayload (by omega) hhl hfirst]
  refine forall_congr' fun _ => and_congr_right fun hdest => forall_congr' fun _ => forall_congr' fun _ => ?_
  rw [← processed_iff hwhole]
  exact acceptSegment_ends hdest (by rw [← Packet.segment]; omega)

theorem acceptPacket_ends (hfirst : 2 ≤ len) :
    Ends (Inside len) (OnProcess R) (acceptPacket n inp raws pcbs m tcphdr) p ↔
      4 ≤ len ∧ (Compares n.list → 20 ≤ len) ∧
        (forUs m n.list = false → 10 ≤ len ∧ (iphProto m = ipProtoUdp → iphdrlen m + 2 ≤ len) ∧
          (fromDhcp m = false → 20 ≤ len)) ∧
        (forUs m n.list = true ∨ fromDhcp m = true →
          Ends (Inside len) (OnProcess R) (deliver inp raws pcbs m tcphdr) (p.realloc (ipLen m))) := by
  rw [acceptPacket]
  simp only [ends_read, ends_ite, ends_pure, ends_unless, ends_realloc, ends_find, ends_fromDhcp hfirst]
  refine and_congr_right fun _ => and_congr_right fun _ => ?_
  cases forUs m n.list with
  | true => simp [OnProcess]
  | false => cases fromDhcp m <;> simp [OnProcess, Inside, and_assoc]

theorem ipInput_ends : Ends (Inside k.len) (OnProcess R) (ipInput n inp raws pcbs k.m) k.pbuf ↔
    2 ≤ k.len ∧ (Accepted inp k → Ends (Inside k.len) (OnProcess R)
      (acceptPacket n inp raws pcbs k.m (iphdrlen k.m)) k.pbuf) := by
  rw [ipInput]
  simp only [ends_read, ends_self, ends_ite, ends_pure, ends_unless]
  constructor
  · rintro ⟨hfirst, -, hrest⟩
    refine ⟨hfirst, fun ⟨hversion, hhl, hsum⟩ => ?_⟩
    obtain ⟨-, -, hrest⟩ := hrest (not_not.mpr hversion)
    obtain ⟨hdevice, hsoftware⟩ := hrest (Int.not_lt.mpr (Int.ofNat_le.mpr hhl))
    by_cases hoffload : inp.ipRxOffload = true
    · exact (hdevice hoffload).1 trivial
    · exact (hsoftware hoffload).2.1 (by simpa using hsum.resolve_left hoffload)
  · rintro ⟨hfirst, hrest⟩
    refine ⟨hfirst, fun _ => trivial, fun hversion => ⟨hfirst, fun _ => trivial, fun hlen => ?_⟩⟩
    have hhl : iphdrlen k.m ≤ k.len := Int.ofNat_le.mp (Int.not_lt.mp hlen)
    have hsum := fun hs => hrest ⟨not_not.mp hversion, hhl, hs⟩
    refine ⟨fun hoffload => ⟨fun _ => hsum (.inl hoffload), fun h => absurd trivial h⟩,
      fun _ => ⟨?_, fun hs => hsum (.inr (by simpa using hs)), fun _ => trivial⟩⟩
    show 0 + iphdrlen k.m ≤ k.len
    omega

/-- Every field that is read is in the first buffer, and what comes to `tcp_process` has its headers there and the
lengths of its payload, exactly when the header lengths are right. -/
theorem ipInput_handles_iff (n : Netifs) (inp : Netif) (raws : List RawPcb) (pcbs : TcpPcbs) (k : Packet) :
    Ends (Inside k.len) (OnProcess (Processed k)) (ipInput n inp raws pcbs k.m) k.pbuf ↔
      Handled n inp raws pcbs k := by
  rw [ipInput_ends]
  constructor
  · rintro ⟨hfirst, hrest⟩
    have hpacket := fun ha : Accepted inp k => (acceptPacket_ends hfirst).mp (hrest ha)
    have hdeliver := fun ht : Taken n inp k => deliver_ends.mp ((hpacket ht.1).2.2.2 ht.2)
    have hsegment := fun hs : Segment n inp raws k =>
      (segment_ends hfirst hs.1.1.2.1 hs.2.1.1.2).mp (((hdeliver hs.1).2.2 hs.2.1).2 hs.2.2.1) hs.2.2.2
    have hvalid := fun hv : Valid n inp raws k => (hsegment hv.1).2 hv.2.1 hv.2.2
    exact
      { version := hfirst
        total := fun ha => (hpacket ha).1
        netifs := fun ha => (hpacket ha).2.1
        port := fun ha => (hpacket ha).2.2.1
        offset := fun ht => ⟨(hdeliver ht).1, (hdeliver ht).2.1⟩
        unreachable := fun ht hu => ((hdeliver ht).2.2 hu).1
        dest := fun hs => (hsegment hs).1
        ports := fun hv => (hvalid hv).1
        process := fun hv => (hvalid hv).2 }
  · intro h
    refine ⟨h.version, fun ha => (acceptPacket_ends h.version).mpr ⟨h.total ha, h.netifs ha, h.port ha, fun hus => ?_⟩⟩
    have ht : Taken n inp k := ⟨ha, hus⟩
    refine deliver_ends.mpr ⟨(h.offset ht).1, (h.offset ht).2, fun hu => ⟨h.unreachable ht hu, fun htcp => ?_⟩⟩
    rw [segment_ends h.version ha.2.1 hu.1.2]
    intro hlong
    have hs : Segment n inp raws k := ⟨ht, hu, htcp, hlong⟩
    exact ⟨h.dest hs, fun hone hsum => ⟨h.ports ⟨hs, hone, hsum⟩, h.process ⟨hs, hone, hsum⟩⟩⟩

/-- The interface at 10.0.0.1. -/
def host : Netif := ⟨0, 0x0100000A, 0x00FFFFFF, false, false⟩

/-- A segment of 40 bytes for port 80 of `host`, whose TCP header has 60 bytes as it says. -/
def longHeader : Packet where
  m := fun i => [0x45, 0, 0, 40, 0, 0, 0, 0, 64, 6, 0x66, 0xC7, 10, 0, 0, 9, 10, 0, 0, 1,
    0x12, 0x34, 0, 80, 0, 0, 0, 1, 0, 0, 0, 0, 0xF0, 2, 0x20, 0, 0xC9, 0x53, 0, 0].getD i 0
  headroom := 0
  len := 40
  next := []

/-- The segment comes to `tcp_process` with a length of -40. -/
theorem negative_length_processed : ¬ ∀ (n : Netifs) (inp : Netif) (raws : List RawPcb) (pcbs : TcpPcbs) (k : Packet),
    Ends (Inside k.len) (OnProcess (Processed k)) (ipInput n inp raws pcbs k.m) k.pbuf := by
  intro h
  have hrest := h ⟨[host], none⟩ host [] ⟨[], [], [⟨0, 0, 80, 0⟩]⟩ longHeader
  have hlong : Long longHeader.segment := by
    unfold Long
    decide
  have hsum : Verified host longHeader.m longHeader.segment := by
    rw [Verified, segmentChksum_eq (by decide), pseudo_verifies_iff (by decide)]
    exact .inr ⟨by decide, by decide⟩
  have haccepted : Accepted host longHeader :=
    ⟨by decide, by decide, .inr ((header_verifies_iff _).mpr ⟨by decide, by decide⟩)⟩
  have hpacket := (acceptPacket_ends (by decide)).mp ((ipInput_ends.mp hrest).2 haccepted)
  have hdeliver := deliver_ends.mp (hpacket.2.2.2 (.inl (by decide)))
  have hsegment := (hdeliver.2.2 ⟨⟨by decide, by decide⟩, by decide⟩).2 (by decide)
  have htcp := ((segment_ends (by decide) (by decide) (by decide)).mp hsegment hlong).2 ⟨by decide, by decide⟩ hsum
  exact absurd (htcp.2 rfl) (by decide)

end SimpleKernel.Net.Input
