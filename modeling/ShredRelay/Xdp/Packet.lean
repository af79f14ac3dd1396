import Mathlib.Data.List.Basic

/-!
# Ethernet, IPv4 and UDP headers

Modelled from the spec (§6).  The `packet` module with `write_eth_header`,
`write_ip_header` and `write_udp_header` is not in the repository.  The spec fixes every
byte of the three headers but the IPv4 identification and TTL, which are parameters
here.  A 16-bit field is a `Nat` cut to 16 bits, as the code's `as u16` does.

Each writer copies its header into a prefix of its buffer (`writeAt`), so a header
write is an equation: the header's bytes followed by the buffer's bytes past it.  The
lemmas read back the two length fields the forwarding path depends on, and say that a
16-bit field sees only the low 16 bits of what it is given.  `rewriteHeaders_eq`, next
to `relay_loop`'s forwarding branch, composes the three writes.
-/

namespace ShredRelay

/-- `ETH_HEADER_SIZE`. -/
def ethHeaderSize : Nat := 14
/-- `IP_HEADER_SIZE`. -/
def ipHeaderSize : Nat := 20
/-- `UDP_HEADER_SIZE`. -/
def udpHeaderSize : Nat := 8
/-- `HEADER_SIZE = ETH_HEADER_SIZE + IP_HEADER_SIZE + UDP_HEADER_SIZE`. -/
def headerSize : Nat := ethHeaderSize + ipHeaderSize + udpHeaderSize

/-- `MacAddress`: six octets. -/
structure MacAddress where
  octets : List UInt8
  length_eq : octets.length = 6

/-- `Ipv4Addr`: four octets. -/
structure Ipv4Addr where
  octets : List UInt8
  length_eq : octets.length = 4

/-- A 16-bit value, cut to 16 bits, in network byte order. -/
def be16 (v : Nat) : List UInt8 := [UInt8.ofNat (v / 256 % 256), UInt8.ofNat (v % 256)]

/-- `buf[..bytes.len()].copy_from_slice(bytes)`, on a buffer at least as long as
`bytes`. -/
def writeAt (buf bytes : List UInt8) : List UInt8 :=
  bytes ++ buf.drop bytes.length

/-- The sum of a header's big-endian 16-bit words. -/
def wordSum : List UInt8 → Nat
  | a :: b :: rest => a.toNat * 256 + b.toNat + wordSum rest
  | [a] => a.toNat * 256
  | [] => 0

/-- The IPv4 header checksum: the ones' complement of the ones'-complement sum of the
header's words, whose carries are folded back twice. -/
def ipChecksum (hdr : List UInt8) : Nat :=
  let s := wordSum hdr % 65536 + wordSum hdr / 65536
  let s := s % 65536 + s / 65536
  65535 - s

/-- The 20 bytes of an IPv4 header carrying UDP, with the given checksum field. -/
def ipHeaderBytes (src dst : Ipv4Addr) (totalLen ident ttl checksum : Nat) : List UInt8 :=
  [0x45, 0x00] ++ be16 totalLen ++ be16 ident ++ [0x00, 0x00, UInt8.ofNat ttl, 17] ++
    be16 checksum ++ src.octets ++ dst.octets

/-- The 14 bytes `write_eth_header` writes: destination, source, ethertype IPv4. -/
def ethHeaderBytes (src dst : MacAddress) : List UInt8 :=
  dst.octets ++ src.octets ++ [0x08, 0x00]

/-- `write_eth_header(buf, src_mac, dst_mac)`. -/
def writeEthHeader (buf : List UInt8) (src dst : MacAddress) : List UInt8 :=
  writeAt buf (ethHeaderBytes src dst)

/-- The 20 bytes `write_ip_header` writes: the total length is the header and the UDP
datagram, and the checksum is taken with a zero checksum field. -/
def ipHeader (ident ttl : Nat) (src dst : Ipv4Addr) (udpLen : Nat) : List UInt8 :=
  let totalLen := (ipHeaderSize + udpLen) % 65536
  ipHeaderBytes src dst totalLen ident ttl (ipChecksum (ipHeaderBytes src dst totalLen ident ttl 0))

/-- `write_ip_header(buf, src_ip, dst_ip, udp_len)`. -/
def writeIpHeader (ident ttl : Nat) (buf : List UInt8) (src dst : Ipv4Addr) (udpLen : Nat) :
    List UInt8 :=
  writeAt buf (ipHeader ident ttl src dst udpLen)

/-- The 8 bytes `write_udp_header` writes with no checksum: ports, length, zero. -/
def udpHeaderBytes (srcPort dstPort payloadLen : Nat) : List UInt8 :=
  be16 srcPort ++ be16 dstPort ++ be16 ((udpHeaderSize + payloadLen) % 65536) ++ [0x00, 0x00]

/-- `write_udp_header(buf, src_ip, src_port, dst_ip, dst_port, payload_len, false)`: with
no checksum the addresses are not read. -/
def writeUdpHeader (buf : List UInt8) (srcPort dstPort payloadLen : Nat) : List UInt8 :=
  writeAt buf (udpHeaderBytes srcPort dstPort payloadLen)

/-- `&mut buf[off..]` handed to a writer. -/
def updateFrom (buf : List UInt8) (off : Nat) (f : List UInt8 → List UInt8) : List UInt8 :=
  buf.take off ++ f (buf.drop off)

/-! ## Lengths and the fields read back -/

@[simp] theorem length_be16 (v : Nat) : (be16 v).length = 2 := rfl

/-- `be16` reads only the low 16 bits. -/
theorem be16_mod (v : Nat) : be16 (v % 65536) = be16 v := by
  simp only [be16, List.cons.injEq, and_true]
  constructor <;> congr 1 <;> omega

@[simp] theorem length_ethHeaderBytes (src dst : MacAddress) :
    (ethHeaderBytes src dst).length = ethHeaderSize := by
  simp [ethHeaderBytes, src.length_eq, dst.length_eq, ethHeaderSize]

@[simp] theorem length_ipHeader (ident ttl : Nat) (src dst : Ipv4Addr) (udpLen : Nat) :
    (ipHeader ident ttl src dst udpLen).length = ipHeaderSize := by
  simp [ipHeader, ipHeaderBytes, src.length_eq, dst.length_eq, ipHeaderSize]

@[simp] theorem length_udpHeaderBytes (srcPort dstPort payloadLen : Nat) :
    (udpHeaderBytes srcPort dstPort payloadLen).length = udpHeaderSize := rfl

/-- Bytes 2 and 3 of the IPv4 header are its total length. -/
theorem getElem?_ipHeader_totalLen (ident ttl : Nat) (src dst : Ipv4Addr) (udpLen : Nat)
    {i : Nat} (hi : i < 2) :
    (ipHeader ident ttl src dst udpLen)[2 + i]? = (be16 (ipHeaderSize + udpLen))[i]? := by
  rw [← be16_mod]
  rcases (show i = 0 ∨ i = 1 by omega) with rfl | rfl <;> rfl

/-- Bytes 4 and 5 of the UDP header are its length. -/
theorem getElem?_udpHeaderBytes_length (srcPort dstPort payloadLen : Nat) {i : Nat}
    (hi : i < 2) :
    (udpHeaderBytes srcPort dstPort payloadLen)[4 + i]? =
      (be16 (udpHeaderSize + payloadLen))[i]? := by
  rw [← be16_mod]
  rcases (show i = 0 ∨ i = 1 by omega) with rfl | rfl <;> rfl

/-- The IPv4 header reads only the low 16 bits of the UDP length. -/
theorem ipHeader_mod (ident ttl : Nat) (src dst : Ipv4Addr) (udpLen : Nat) :
    ipHeader ident ttl src dst (udpLen % 65536) = ipHeader ident ttl src dst udpLen := by
  simp only [ipHeader]
  rw [show (ipHeaderSize + udpLen % 65536) % 65536 = (ipHeaderSize + udpLen) % 65536 by omega]

/-- The UDP header reads only the low 16 bits of the payload length. -/
theorem udpHeaderBytes_mod (srcPort dstPort payloadLen : Nat) :
    udpHeaderBytes srcPort dstPort (payloadLen % 65536) =
      udpHeaderBytes srcPort dstPort payloadLen := by
  simp only [udpHeaderBytes]
  rw [show (udpHeaderSize + payloadLen % 65536) % 65536 = (udpHeaderSize + payloadLen) % 65536 by
    omega]

/-! ## A writer replaces a prefix -/

theorem updateFrom_append {a b : List UInt8} {off : Nat} (h : a.length = off)
    (f : List UInt8 → List UInt8) : updateFrom (a ++ b) off f = a ++ f b := by
  subst h
  simp [updateFrom]

/-! ## The checksum verifies

A receiver checks an IPv4 header by taking the checksum again over all of it, checksum
field included, and expects zero.  The header's words sum to the sum with a zero field
plus the field (`wordSum_ipHeaderBytes`), and a sum of ten words needs only two folds of
its carries, so the field `write_ip_header` writes cancels what the other words add up to.
-/

/-- Words are paired from the start, so a prefix of even length adds its own sum. -/
theorem wordSum_append {a : List UInt8} (b : List UInt8) (h : a.length % 2 = 0) :
    wordSum (a ++ b) = wordSum a + wordSum b := by
  induction a using wordSum.induct with
  | case1 x y a ih =>
      simp only [List.length_cons] at h
      rw [List.cons_append, List.cons_append, wordSum, wordSum, ih (by omega)]
      omega
  | case2 x => simp at h
  | case3 => simp [wordSum]

theorem wordSum_be16 (v : Nat) : wordSum (be16 v) = v % 65536 := by
  simp [wordSum, be16, UInt8.toNat, UInt8.ofNat, Fin.ofNat]
  omega

/-- Each word is at most `0xFFFF`. -/
theorem wordSum_le : ∀ l : List UInt8, 2 * wordSum l ≤ 65535 * (l.length + 1)
  | [] => by simp [wordSum]
  | [a] => by
      have : a.toNat < 256 := UInt8.toNat_lt_size a
      simp only [wordSum, List.length_singleton]
      omega
  | a :: b :: l => by
      have := wordSum_le l
      have : a.toNat < 256 := UInt8.toNat_lt_size a
      have : b.toNat < 256 := UInt8.toNat_lt_size b
      simp only [wordSum, List.length_cons]
      omega

/-- The checksum field adds itself to the header's sum. -/
theorem wordSum_ipHeaderBytes (src dst : Ipv4Addr) (totalLen ident ttl c : Nat) :
    wordSum (ipHeaderBytes src dst totalLen ident ttl c) =
      wordSum (ipHeaderBytes src dst totalLen ident ttl 0) + c % 65536 := by
  have hsrc := src.length_eq
  unfold ipHeaderBytes
  simp (disch := simp [hsrc]) only [wordSum_append, wordSum_be16]
  omega

theorem ipChecksum_lt (hdr : List UInt8) : ipChecksum hdr < 65536 := by
  simp only [ipChecksum]
  omega

/-- Ones'-complement arithmetic: when a header's words sum to those of another, of at most
eleven words, plus the other's checksum, the header's own checksum is zero. -/
theorem ipChecksum_eq_zero (hdr₀ : List UInt8) {hdr : List UInt8} (hle : wordSum hdr₀ ≤ 11 * 65535)
    (h : wordSum hdr = wordSum hdr₀ + ipChecksum hdr₀) : ipChecksum hdr = 0 := by
  simp only [ipChecksum] at h ⊢
  rw [h]
  omega

/-- **The checksum `write_ip_header` writes verifies**: taken again over the header it
writes, checksum field included, it is zero. -/
theorem ipChecksum_ipHeader (ident ttl : Nat) (src dst : Ipv4Addr) (udpLen : Nat) :
    ipChecksum (ipHeader ident ttl src dst udpLen) = 0 := by
  simp only [ipHeader]
  generalize (ipHeaderSize + udpLen) % 65536 = totalLen
  have hlen : (ipHeaderBytes src dst totalLen ident ttl 0).length = 20 := by
    simp [ipHeaderBytes, src.length_eq, dst.length_eq]
  have hle := wordSum_le (ipHeaderBytes src dst totalLen ident ttl 0)
  refine ipChecksum_eq_zero (ipHeaderBytes src dst totalLen ident ttl 0) (by omega) ?_
  rw [wordSum_ipHeaderBytes, Nat.mod_eq_of_lt (ipChecksum_lt _)]

end ShredRelay
