import ShredRelay.Xdp.RelayLoop

/-!
# What the relay forwards

The body of `relay_loop`'s RX loop (`src/relay_loop.rs`) for one descriptor, and what it
does to the frame and to TX.

## Main results

* `process_tx_entries`: the frame goes on TX exactly when forwarding is configured, the
  descriptor is at least `HEADER_SIZE + VOTE_SIZE_THRESHOLD` long, byte 23 of the frame
  reads 17, and TX has room.  Nothing else of the frame is read: not the ethertype, the
  IPv4 version and header length, the fragment fields, nor the IPv4 or UDP length.
* `forwardFrame_mem`: the rewritten frame is the three headers the writers build,
  followed by the frame's own bytes from offset 42 on.  The IPv4 total length written is
  `len - 14` and the UDP length `len - 34`, whatever the frame carried.
* `relay_forward_step`: both together, for the step that processes a descriptor.
* `ipv6_frame_forwarded`: so an IPv6 frame whose byte 23 is 17 is rewritten as IPv4 and
  sent.
-/

namespace ShredRelay

namespace RelayState

variable {cfg : RelayConfig} {s : RelayState}

/-! ## The steps of the body, field by field -/

@[simp] theorem returnToFill_mem (s : RelayState) (f : Nat) : (s.returnToFill f).mem = s.mem := by
  unfold returnToFill; split <;> rfl

@[simp] theorem returnToFill_tx (s : RelayState) (f : Nat) : (s.returnToFill f).tx = s.tx := by
  unfold returnToFill; split <;> rfl

@[simp] theorem countBatch_mem (s : RelayState) : s.countBatch.mem = s.mem := by
  unfold countBatch; split <;> rfl

@[simp] theorem countBatch_tx_entries (s : RelayState) :
    s.countBatch.tx.entries = s.tx.entries := by
  unfold countBatch; split <;> simp

section Forward

variable (destIp : Ipv4Addr) (destPort : UInt16) (destMac : MacAddress) (d : Desc)

/-- The frame goes on TX exactly when TX has room. -/
theorem forwardFrame_tx_entries (s : RelayState) :
    (s.forwardFrame cfg d destIp destPort destMac).tx.entries =
      if 0 < s.tx.available then s.tx.entries ++ [d] else s.tx.entries := by
  unfold forwardFrame
  dsimp only
  split
  · rename_i tx hw
    rw [if_pos (ProdRing.write_eq_some hw).1, ← ProdRing.entries_of_write hw]
  · rename_i hw
    simp [ProdRing.write_eq_none hw]

/-- Forwarding rewrites the first `len` bytes of the frame and writes nothing else. -/
theorem forwardFrame_mem_eq (s : RelayState) :
    (s.forwardFrame cfg d destIp destPort destMac).mem = Function.update s.mem d.addr
      (rewriteHeaders cfg destIp destPort destMac (d.len - headerSize)
        ((s.mem d.addr).take d.len) ++ (s.mem d.addr).drop d.len) := by
  unfold forwardFrame; dsimp only; split <;> simp

/-- **The forwarded frame** is the three headers, then the frame's own bytes from offset
42 on. -/
theorem forwardFrame_mem {s : RelayState} (h : headerSize ≤ d.len) :
    (s.forwardFrame cfg d destIp destPort destMac).mem = Function.update s.mem d.addr
      (ethHeaderBytes cfg.srcMac destMac ++
        ipHeader cfg.ipIdent cfg.ipTtl cfg.srcIp destIp
          ((udpHeaderSize + (d.len - headerSize)) % 65536) ++
        udpHeaderBytes relaySrcPort destPort.toNat ((d.len - headerSize) % 65536) ++
        (s.mem d.addr).drop headerSize) := by
  have htail : ((s.mem d.addr).drop headerSize).take (d.len - headerSize) ++
      (s.mem d.addr).drop d.len = (s.mem d.addr).drop headerSize := by
    have := List.drop_take_append_drop (s.mem d.addr) headerSize (d.len - headerSize)
    rwa [Nat.add_sub_cancel' h] at this
  rw [forwardFrame_mem_eq, rewriteHeaders_eq, List.drop_take, List.append_assoc, htail]

end Forward

/-- Byte `k < n` of the first `n` bytes, read with default 0, is a nonzero `b` exactly
when byte `k` of the frame is `b`. -/
theorem getD_take_eq_iff {l : List UInt8} {n k : Nat} {b : UInt8} (hk : k < n) (hb : b ≠ 0) :
    (l.take n).getD k 0 = b ↔ l[k]? = some b := by
  rw [List.getD_eq_getElem?_getD, List.getElem?_take_of_lt hk]
  cases l[k]? with
  | none => exact ⟨fun h => absurd h.symm hb, fun h => nomatch h⟩
  | some x => simp

/-- **The filter**: the frame goes on TX exactly when forwarding is configured, the frame
is long enough, byte 23 says UDP, and TX has room. -/
theorem process_tx_entries (s : RelayState) (d : Desc) :
    (s.process cfg d).tx.entries =
      if cfg.forward.isSome ∧ headerSize + voteSizeThreshold ≤ d.len ∧
          ((s.mem d.addr).take d.len).getD (ethHeaderSize + 9) 0 = ipprotoUdp ∧
          0 < s.tx.available
        then s.tx.entries ++ [d] else s.tx.entries := by
  unfold process
  dsimp only
  split
  · rw [if_neg (by omega), returnToFill_tx]
  · split
    · rw [if_neg (by tauto), returnToFill_tx]
    · rename_i hlen hudp
      split <;> rename_i hf <;> simp only [hf, countBatch_tx_entries]
      · rw [forwardFrame_tx_entries]
        by_cases ht : 0 < s.tx.available
        · rw [if_pos ht, if_pos ⟨by simp [hf], not_lt.1 hlen, not_not.1 hudp, ht⟩]
        · rw [if_neg ht, if_neg fun h => ht h.2.2.2]
      · simp

/-- In the forwarding branch the frame is rewritten by `forwardFrame`. -/
theorem process_mem_of_forward {d : Desc} {destIp : Ipv4Addr} {destPort : UInt16}
    {destMac : MacAddress} (hf : cfg.forward = some (destIp, destPort, destMac))
    (hlen : headerSize + voteSizeThreshold ≤ d.len)
    (hudp : ((s.mem d.addr).take d.len).getD (ethHeaderSize + 9) 0 = ipprotoUdp) :
    (s.process cfg d).mem = (s.forwardFrame cfg d destIp destPort destMac).mem := by
  unfold process
  dsimp only
  rw [if_neg (not_lt.2 hlen), if_neg (not_not.2 hudp)]
  simp only [hf, countBatch_mem]

theorem userStep_of_process {d : Desc} (hpc : s.pc = .process d) :
    s.userStep cfg = { s.process cfg d with pc := .drainRx } := by
  simp only [userStep, hpc]

/-! ## The length fields of a forwarded frame -/

section Fields

variable (src dst : MacAddress) (ident ttl : Nat) (srcIp dstIp : Ipv4Addr) (udpLen : Nat)
  (udp rest : List UInt8)

theorem getElem?_forwarded_totalLen {i : Nat} (hi : i < 2) :
    (ethHeaderBytes src dst ++ ipHeader ident ttl srcIp dstIp udpLen ++ udp ++ rest)[
      ethHeaderSize + 2 + i]? = (be16 (ipHeaderSize + udpLen))[i]? := by
  rw [List.append_assoc, List.append_assoc, List.getElem?_append_right (by simp; omega),
    length_ethHeaderBytes, List.getElem?_append_left (by simp [ipHeaderSize]; omega),
    show ethHeaderSize + 2 + i - ethHeaderSize = 2 + i by omega]
  exact getElem?_ipHeader_totalLen ident ttl srcIp dstIp udpLen hi

theorem getElem?_forwarded_udpLen (srcPort dstPort payloadLen : Nat) {i : Nat} (hi : i < 2) :
    (ethHeaderBytes src dst ++ ipHeader ident ttl srcIp dstIp udpLen ++
      udpHeaderBytes srcPort dstPort payloadLen ++ rest)[ethHeaderSize + ipHeaderSize + 4 + i]? =
      (be16 (udpHeaderSize + payloadLen))[i]? := by
  rw [List.getElem?_append_left
      (by simp [ethHeaderSize, ipHeaderSize, udpHeaderSize]; omega),
    List.getElem?_append_right (by simp; omega)]
  simp only [List.length_append, length_ethHeaderBytes, length_ipHeader]
  rw [show ethHeaderSize + ipHeaderSize + 4 + i - (ethHeaderSize + ipHeaderSize) = 4 + i by omega]
  exact getElem?_udpHeaderBytes_length srcPort dstPort payloadLen hi

end Fields

/-- **Processing a drained descriptor.**  The frame goes on TX exactly when forwarding is
configured, the descriptor is at least 442 bytes long, byte 23 of the frame is 17, and TX
has room; nothing else of the frame is looked at.  In the forwarding branch the frame is
the three headers followed by its own bytes from offset 42 on, and the IPv4 total length
and UDP length written are `len - 14` and `len - 34`. -/
theorem relay_forward_step {d : Desc} (hpc : s.pc = .process d) :
    (s.userStep cfg).tx.entries =
      (if cfg.forward.isSome ∧ headerSize + voteSizeThreshold ≤ d.len ∧
          (s.mem d.addr)[ethHeaderSize + 9]? = some ipprotoUdp ∧ 0 < s.tx.available
        then s.tx.entries ++ [d] else s.tx.entries) ∧
    ∀ destIp destPort destMac, cfg.forward = some (destIp, destPort, destMac) →
      headerSize + voteSizeThreshold ≤ d.len →
      (s.mem d.addr)[ethHeaderSize + 9]? = some ipprotoUdp →
      (s.userStep cfg).mem d.addr =
          ethHeaderBytes cfg.srcMac destMac ++
            ipHeader cfg.ipIdent cfg.ipTtl cfg.srcIp destIp
              (d.len - (ethHeaderSize + ipHeaderSize)) ++
            udpHeaderBytes relaySrcPort destPort.toNat (d.len - headerSize) ++
            (s.mem d.addr).drop headerSize ∧
        (∀ i < 2, ((s.userStep cfg).mem d.addr)[ethHeaderSize + 2 + i]? =
          (be16 (d.len - ethHeaderSize))[i]?) ∧
        (∀ i < 2, ((s.userStep cfg).mem d.addr)[ethHeaderSize + ipHeaderSize + 4 + i]? =
          (be16 (d.len - (ethHeaderSize + ipHeaderSize)))[i]?) := by
  have hbyte : headerSize + voteSizeThreshold ≤ d.len →
      (((s.mem d.addr).take d.len).getD (ethHeaderSize + 9) 0 = ipprotoUdp ↔
        (s.mem d.addr)[ethHeaderSize + 9]? = some ipprotoUdp) := fun hlen =>
    getD_take_eq_iff (by simp only [headerSize, ethHeaderSize, ipHeaderSize, udpHeaderSize,
      voteSizeThreshold] at hlen ⊢; omega) (by decide)
  rw [userStep_of_process hpc]
  refine ⟨?_, fun destIp destPort destMac hf hlen hudp => ?_⟩
  · exact (process_tx_entries s d).trans <| if_congr
      (and_congr_right fun _ => and_congr_right fun hlen => and_congr_left fun _ => hbyte hlen)
      rfl rfl
  · have hlen' : headerSize ≤ d.len := by unfold voteSizeThreshold at hlen; omega
    have htot : ipHeaderSize + (d.len - (ethHeaderSize + ipHeaderSize)) = d.len - ethHeaderSize := by
      unfold headerSize at hlen'; omega
    have hudpLen : udpHeaderSize + (d.len - headerSize) = d.len - (ethHeaderSize + ipHeaderSize) := by
      unfold headerSize at hlen' ⊢; omega
    have hframe : (s.process cfg d).mem d.addr =
        ethHeaderBytes cfg.srcMac destMac ++
          ipHeader cfg.ipIdent cfg.ipTtl cfg.srcIp destIp
            (d.len - (ethHeaderSize + ipHeaderSize)) ++
          udpHeaderBytes relaySrcPort destPort.toNat (d.len - headerSize) ++
          (s.mem d.addr).drop headerSize := by
      rw [process_mem_of_forward hf hlen ((hbyte hlen).2 hudp), forwardFrame_mem _ _ _ _ hlen',
        Function.update_same, ipHeader_mod, udpHeaderBytes_mod, hudpLen]
    refine ⟨hframe, fun i hi => ?_, fun i hi => ?_⟩
    · rw [hframe, getElem?_forwarded_totalLen _ _ _ _ _ _ _ _ _ hi, htot]
    · rw [hframe, getElem?_forwarded_udpLen _ _ _ _ _ _ _ _ _ _ _ hi, hudpLen]

/-! ## An IPv6 frame is forwarded -/

/-- A relay on a one-slot queue that forwards to `10.0.0.2:8001`. -/
def ipv6RelayConfig : RelayConfig where
  frameSize := 2048
  rxSize := 1
  txSize := 1
  srcMac := ⟨[2, 0, 0, 0, 0, 1], rfl⟩
  srcIp := ⟨[10, 0, 0, 1], rfl⟩
  destIp := some ⟨[10, 0, 0, 2], rfl⟩
  destPort := some 8001
  destMac := some ⟨[2, 0, 0, 0, 0, 2], rfl⟩
  ipIdent := 0
  ipTtl := 64

/-- A 442-byte IPv6 UDP datagram from `2011::1` to `2001::2`: ethertype `0x86DD`, and
byte 23, the second byte of the source address, is 17. -/
def ipv6Frame : List UInt8 :=
  List.replicate 6 0xff ++ [2, 0, 0, 0, 0, 3] ++ [0x86, 0xDD] ++
    [0x60, 0, 0, 0, 0x01, 0x84, 17, 64] ++
    ([0x20, 0x11] ++ List.replicate 13 0 ++ [1]) ++
    ([0x20, 0x01] ++ List.replicate 13 0 ++ [2]) ++
    [0x30, 0x39, 0x1F, 0x90, 0x01, 0x84, 0, 0] ++
    List.replicate 380 0

/-- Pre-fill, receive the frame, and drain RX up to the frame's processing. -/
def ipv6Events : List RelayEvent :=
  [.user, .user, .user, .kernelRx ipv6Frame, .user, .user, .user, .user, .user, .user]

set_option maxRecDepth 20000 in
theorem relay_forward_step_ipv6 :
    ∃ s, (init ipv6RelayConfig).run ipv6RelayConfig ipv6Events = some s ∧
      s.pc = .process ⟨0, 442⟩ ∧ (s.userStep ipv6RelayConfig).tx.entries = [⟨0, 442⟩] := by
  obtain ⟨s, hs⟩ : ∃ s, (init ipv6RelayConfig).run ipv6RelayConfig ipv6Events = some s :=
    ⟨_, rfl⟩
  have hpc : s.pc = .process ⟨0, 442⟩ := by cases hs; rfl
  have htx : s.tx.entries = [] ∧ 0 < s.tx.available := by
    cases hs; exact ⟨rfl, Nat.le_of_ble_eq_true rfl⟩
  -- byte 23 is read through the frame the kernel wrote: evaluating a 2048-byte frame
  -- in the elaborator recurses once per byte
  have hmem : s.mem 0 = ipv6Frame ++ (List.replicate 2048 0).drop 442 := by cases hs; rfl
  have hbyte : (s.mem 0)[ethHeaderSize + 9]? = some ipprotoUdp := by
    rw [hmem, List.getElem?_append_left (by simp [ipv6Frame, ethHeaderSize])]; rfl
  refine ⟨s, hs, hpc, (relay_forward_step hpc).1.trans ?_⟩
  rw [if_pos ⟨rfl, by decide, hbyte, htx.2⟩, htx.1]; rfl

set_option maxRecDepth 20000 in
/-- The IPv6 frame is queued on TX. -/
theorem ipv6_frame_forwarded :
    ipv6Frame.length = 442 ∧ ipv6Frame[12]? = some 0x86 ∧ ipv6Frame[13]? = some 0xDD ∧
      ∃ s, (init ipv6RelayConfig).run ipv6RelayConfig (ipv6Events ++ [.user]) = some s ∧
        s.tx.entries = [⟨0, 442⟩] :=
  ⟨rfl, rfl, rfl, _, rfl, rfl⟩

end RelayState

end ShredRelay
