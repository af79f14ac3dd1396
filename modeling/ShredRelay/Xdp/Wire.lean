import ShredRelay.Xdp.Forwarding

/-!
# What the relay puts on the wire

The relay is a lossy channel (spec §4.4, §5: "dropped packets are acceptable"): of the
packets the NIC receives on its queue, it sends on those that pass its filter, with
rewritten headers and in the order they came, and it may drop any of them, for a full TX
ring drops the outgoing copy.  `RelayConfig.forwarded` states that purpose from the spec's
steps 3b to 3e; `relay_sends_forwarded_subsequence` shows that every interleaving of
`relay_loop` with the kernel refines it.

## Design notes

**The wire.**  The kernel's receive puts a packet's bytes at the start of a Fill frame and
posts a descriptor of the packet's length; its transmit sends the first `len` bytes of a
TX descriptor's frame.  `RelayState.packet` reads those bytes, as the loop's own `packet`
slice does.  `RelayEvent.received` and `RelayState.transmitted` are what a step takes from
and puts on the wire, and `RelayState.sent` collects the second along a run.

**In flight.**  A received packet not yet processed is the descriptor being processed or
is on RX (`RelayState.inFlight`, oldest first).  No step writes the frame of a packet in
flight or on TX, except the processing of that very packet: the kernel writes only Fill
frames, and `RelayInv` keeps each frame in one place (`RelayInv.addr_ne_of_mem_fill`,
`RelayInv.addr_ne_of_process`).

## Main results

* `WireInv.stepEvent`, `WireInv.run`: what was received is what was processed followed by
  the packets in flight, and what was sent, followed by what waits on TX, is a
  subsequence of `forwarded` applied to what was processed.
* `relay_sends_forwarded_subsequence`: so the relay never invents, duplicates or reorders
  a packet, and each packet it sends is the rewrite of one it received that passes the
  filter.
-/

namespace ShredRelay

namespace RelayConfig

/-- **What the relay is for** (spec §4.4, steps 3b to 3e): a received packet is sent on with
its headers rewritten when forwarding is configured, the packet is at least
`HEADER_SIZE + VOTE_SIZE_THRESHOLD` bytes long and its IP protocol byte says UDP; no other
packet is sent. -/
def forwarded (cfg : RelayConfig) (packet : List UInt8) : Option (List UInt8) :=
  match cfg.forward with
  | some (destIp, destPort, destMac) =>
      if headerSize + voteSizeThreshold ≤ packet.length ∧
          packet.getD (ethHeaderSize + 9) 0 = ipprotoUdp then
        some (rewriteHeaders cfg destIp destPort destMac (packet.length - headerSize) packet)
      else none
  | none => none

/-- The IPv4 header of a packet `forwarded` makes is one `write_ip_header` wrote, so its
checksum verifies. -/
theorem ipChecksum_forwarded {cfg : RelayConfig} {packet out : List UInt8}
    (h : cfg.forwarded packet = some out) :
    ipChecksum ((out.drop ethHeaderSize).take ipHeaderSize) = 0 := by
  unfold forwarded at h
  split at h
  · split at h
    · obtain rfl := Option.some.inj h
      rw [rewriteHeaders_eq, List.append_assoc, List.append_assoc,
        List.drop_left' (length_ethHeaderBytes _ _), List.take_left' (length_ipHeader _ _ _ _ _)]
      exact ipChecksum_ipHeader _ _ _ _ _
    · cases h
  · cases h

end RelayConfig

/-- The packets the kernel receives in a step. -/
def RelayEvent.received : RelayEvent → List (List UInt8)
  | .kernelRx bytes => [bytes]
  | _ => []

/-- The descriptor a program point holds. -/
def RelayPc.desc : RelayPc → List Desc
  | .process desc => [desc]
  | _ => []

theorem RelayPc.current_eq_map (pc : RelayPc) : pc.current = pc.desc.map Desc.addr := by
  cases pc <;> rfl

namespace RelayState

/-- `packet`: the first `len` bytes of a descriptor's frame. -/
def packet (s : RelayState) (d : Desc) : List UInt8 := (s.mem d.addr).take d.len

/-- The received packets not yet processed, oldest first. -/
def inFlight (s : RelayState) : List Desc := s.pc.desc ++ s.rx.entries

/-- The packets the kernel sends in a step from `s`: at `kernelTx`, the oldest committed
TX descriptor's. -/
def transmitted (s : RelayState) : RelayEvent → List (List UInt8)
  | .kernelTx =>
      match s.tx.consume with
      | some (d, _) => [s.packet d]
      | none => []
  | _ => []

/-- The packets the kernel sends along a run. -/
def sent (cfg : RelayConfig) (s : RelayState) : List RelayEvent → List (List UInt8)
  | [] => []
  | e :: es =>
      match s.stepEvent cfg e with
      | some s' => s.transmitted e ++ s'.sent cfg es
      | none => []

variable {cfg : RelayConfig} {s s' : RelayState}

/-! ## What a step writes -/

theorem map_packet_congr {l : List Desc} (h : ∀ d ∈ l, s'.mem d.addr = s.mem d.addr) :
    l.map s'.packet = l.map s.packet :=
  List.map_congr_left fun d hd => by rw [packet, packet, h d hd]

@[simp] theorem returnToFill_rx (s : RelayState) (f : Nat) : (s.returnToFill f).rx = s.rx := by
  unfold returnToFill; split <;> rfl

@[simp] theorem countBatch_rx_entries (s : RelayState) :
    s.countBatch.rx.entries = s.rx.entries := by
  unfold countBatch; split <;> simp

@[simp] theorem forwardFrame_rx (s : RelayState) (d : Desc) (destIp : Ipv4Addr)
    (destPort : UInt16) (destMac : MacAddress) :
    (s.forwardFrame cfg d destIp destPort destMac).rx = s.rx := by
  unfold forwardFrame; dsimp only; split <;> simp

theorem process_rx_entries (s : RelayState) (d : Desc) :
    (s.process cfg d).rx.entries = s.rx.entries := by
  unfold process; dsimp only; (repeat' split) <;> simp

/-- Processing a descriptor writes no frame but its own. -/
theorem process_mem_of_ne (s : RelayState) {d : Desc} {a : Nat} (ha : a ≠ d.addr) :
    (s.process cfg d).mem a = s.mem a := by
  unfold process; dsimp only
  (repeat' split) <;> simp [forwardFrame_mem_eq, Function.update_noteq ha]

theorem length_rewriteHeaders (destIp : Ipv4Addr) (destPort : UInt16) (destMac : MacAddress)
    (payloadLen : Nat) {packet : List UInt8} (h : headerSize ≤ packet.length) :
    (rewriteHeaders cfg destIp destPort destMac payloadLen packet).length = packet.length := by
  rw [rewriteHeaders_eq]
  simp only [List.length_append, length_ethHeaderBytes, length_ipHeader, length_udpHeaderBytes,
    List.length_drop]
  unfold headerSize ethHeaderSize ipHeaderSize udpHeaderSize at *
  omega

/-- **A packet that passes the filter** goes out as `forwarded` makes it: when processing
queues the descriptor on TX, the frame's first `len` bytes are then the rewrite of the
packet. -/
theorem forwarded_packet {d : Desc} (hlen : d.len ≤ (s.mem d.addr).length)
    (hfwd : cfg.forward.isSome ∧ headerSize + voteSizeThreshold ≤ d.len ∧
      ((s.mem d.addr).take d.len).getD (ethHeaderSize + 9) 0 = ipprotoUdp) :
    cfg.forwarded (s.packet d) = some ((s.process cfg d).packet d) := by
  obtain ⟨hsome, hmin, hudp⟩ := hfwd
  obtain ⟨⟨destIp, destPort, destMac⟩, hf⟩ := Option.isSome_iff_exists.1 hsome
  have hplen : (s.packet d).length = d.len := by simp [packet, hlen]
  have hhdr : headerSize ≤ (s.packet d).length := by
    unfold voteSizeThreshold at hmin; omega
  have hrw : (rewriteHeaders cfg destIp destPort destMac (d.len - headerSize)
      ((s.mem d.addr).take d.len)).length = d.len :=
    (length_rewriteHeaders _ _ _ _ hhdr).trans hplen
  simp only [RelayConfig.forwarded, hf]
  rw [if_pos ⟨hplen ▸ hmin, hudp⟩, hplen]
  unfold packet
  rw [process_mem_of_forward hf hmin hudp, forwardFrame_mem_eq, Function.update_same,
    List.take_left' hrw]

/-! ## No frame in two places -/

/-- With frames of positive size, no frame is in two places. -/
theorem RelayInv.count_places_le_one (hinv : RelayInv cfg s) (hsize : 0 < cfg.frameSize)
    (a : Nat) : s.places.count a ≤ 1 :=
  List.nodup_iff_count_le_one.1 (hinv.places.nodup_iff.2 (nodup_umemFrames hsize _)) a

theorem count_addr_pos {l : List Desc} {d : Desc} (hd : d ∈ l) :
    0 < (l.map Desc.addr).count d.addr :=
  List.count_pos_iff.2 (List.mem_map_of_mem _ hd)

/-- A Fill frame is not the frame of a packet in flight or on TX. -/
theorem RelayInv.addr_ne_of_mem_fill (hinv : RelayInv cfg s) (hsize : 0 < cfg.frameSize)
    {f : Nat} (hf : f ∈ s.fill.entries) {d : Desc} (hd : d ∈ s.inFlight ++ s.tx.entries) :
    d.addr ≠ f := by
  rintro rfl
  have hone := hinv.count_places_le_one hsize d.addr
  have hfill := List.count_pos_iff.2 hf
  rw [count_places, RelayPc.current_eq_map] at hone
  simp only [inFlight, List.mem_append] at hd
  rcases hd with (hd | hd) | hd <;> have := count_addr_pos hd <;> omega

/-- The frame being processed is not the frame of a packet on RX or on TX. -/
theorem RelayInv.addr_ne_of_process (hinv : RelayInv cfg s) (hsize : 0 < cfg.frameSize)
    {d : Desc} (hpc : s.pc = .process d) {e : Desc} (he : e ∈ s.rx.entries ++ s.tx.entries) :
    e.addr ≠ d.addr := by
  intro heq
  have hone := hinv.count_places_le_one hsize d.addr
  have hcur : 0 < s.pc.current.count d.addr := by simp [hpc, RelayPc.current]
  rw [count_places] at hone
  rw [← heq] at hone hcur
  rcases List.mem_append.1 he with he | he <;> have := count_addr_pos he <;> omega

/-! ## The wire invariant -/

/-- **The relay's wire invariant**, after `received` came in and `sent` went out: the
packets in flight keep their bytes, and there is a processed prefix of what was received
such that what was sent, followed by what waits on TX, is a subsequence of what
`forwarded` makes of it. -/
structure WireInv (cfg : RelayConfig) (s : RelayState) (received sent : List (List UInt8)) :
    Prop where
  relay : RelayInv cfg s
  lengths : ∀ d ∈ s.inFlight, d.len ≤ (s.mem d.addr).length
  history : ∃ done, received = done ++ s.inFlight.map s.packet ∧
    List.Sublist (sent ++ s.tx.entries.map s.packet) (done.filterMap cfg.forwarded)

theorem wireInv_init (cfg : RelayConfig) : WireInv cfg (init cfg) [] [] :=
  ⟨relayInv_init cfg, by simp [inFlight, init, RelayPc.desc, ConsRing.entries, ConsRing.empty],
    [], by simp [inFlight, init, RelayPc.desc, ConsRing.entries, ConsRing.empty,
      ProdRing.entries, ProdRing.empty]⟩

variable {ins outs : List (List UInt8)}

/-- A step that writes no frame and moves no packet keeps the invariant. -/
theorem WireInv.of_quiet (h : WireInv cfg s ins outs) (hinv : RelayInv cfg s')
    (hmem : s'.mem = s.mem) (hfl : s'.inFlight = s.inFlight)
    (htx : s'.tx.entries = s.tx.entries) : WireInv cfg s' ins outs := by
  have hp : s'.packet = s.packet := funext fun d => by rw [packet, packet, hmem]
  obtain ⟨-, hlen, done, hr, hsub⟩ := h
  exact ⟨hinv, by rw [hfl, hmem]; exact hlen, done, by rw [hfl, hp]; exact hr,
    by rw [htx, hp]; exact hsub⟩

/-- **Receive**: the packet joins the packets in flight, and no other frame is written. -/
theorem WireInv.kernelRx (hsize : 0 < cfg.frameSize) {bytes : List UInt8}
    (h : WireInv cfg s ins outs) (hs : s.kernelRx cfg bytes = some s') :
    WireInv cfg s' (ins ++ [bytes]) outs := by
  have hinv := h.relay.kernelRx hs
  obtain ⟨f, fill, rx, hc, hp, -, hs'⟩ := kernelRx_eq_some hs
  have hf : f ∈ s.fill.entries := by
    rw [ProdRing.entries_of_consume hc]; exact List.mem_cons_self _ _
  have hmem : s'.mem = Function.update s.mem f (bytes ++ (s.mem f).drop bytes.length) := by
    rw [hs']
  have hkeep : ∀ d ∈ s.inFlight ++ s.tx.entries, s'.mem d.addr = s.mem d.addr := fun d hd => by
    rw [hmem, Function.update_noteq (h.relay.addr_ne_of_mem_fill hsize hf hd)]
  have hfl : s'.inFlight = s.inFlight ++ [⟨f, bytes.length⟩] := by
    simp [hs', inFlight, ConsRing.entries_of_produce hp, List.append_assoc]
  have hnew : s'.packet ⟨f, bytes.length⟩ = bytes := by simp [packet, hmem]
  obtain ⟨-, hlen, done, hr, hsub⟩ := h
  refine ⟨hinv, fun d hd => ?_, done, ?_, ?_⟩
  · rw [hfl, List.mem_append, List.mem_singleton] at hd
    rcases hd with hd | rfl
    · rw [hkeep d (List.mem_append_left _ hd)]; exact hlen d hd
    · simp [hmem]
  · rw [hfl, List.map_append, map_packet_congr fun d hd => hkeep d (List.mem_append_left _ hd),
      hr, List.append_assoc, List.map_singleton, hnew]
  · have htx : s'.tx = s.tx := by rw [hs']
    rwa [htx, map_packet_congr fun d hd => hkeep d (List.mem_append_right _ hd)]

/-- **Transmit**: the oldest packet on TX goes on the wire. -/
theorem WireInv.kernelTx (h : WireInv cfg s ins outs) (hs : s.kernelTx = some s') :
    WireInv cfg s' ins (outs ++ s.transmitted .kernelTx) := by
  have hinv := h.relay.kernelTx hs
  obtain ⟨d, tx, completion, hc, -, rfl⟩ := kernelTx_eq_some hs
  obtain ⟨-, hlen, done, hr, hsub⟩ := h
  refine ⟨hinv, hlen, done, hr, ?_⟩
  rw [ProdRing.entries_of_consume hc] at hsub
  simpa [transmitted, hc, packet] using hsub

/-- **Processing** a packet moves it from in flight to processed, and queues its rewrite on
TX when it passes the filter and TX has room. -/
theorem WireInv.process (hsize : 0 < cfg.frameSize) {d : Desc} (h : WireInv cfg s ins outs)
    (hpc : s.pc = .process d) : WireInv cfg (s.userStep cfg) ins outs := by
  have hinv := h.relay.userStep
  have hstep : s.userStep cfg = { s.process cfg d with pc := .drainRx } := userStep_of_process hpc
  have hpk : (s.userStep cfg).packet = (s.process cfg d).packet := by rw [hstep]; rfl
  have hfl' : (s.userStep cfg).inFlight = s.rx.entries := by
    simp [hstep, inFlight, RelayPc.desc, process_rx_entries]
  have hmem' : (s.userStep cfg).mem = (s.process cfg d).mem := by rw [hstep]
  have htx' : (s.userStep cfg).tx = (s.process cfg d).tx := by rw [hstep]
  have hkeep : ∀ e ∈ s.rx.entries ++ s.tx.entries, (s.process cfg d).mem e.addr =
      s.mem e.addr := fun e he =>
    process_mem_of_ne s (h.relay.addr_ne_of_process hsize hpc he)
  have hfl : s.inFlight = d :: s.rx.entries := by simp [inFlight, hpc, RelayPc.desc]
  obtain ⟨-, hlen, done, hr, hsub⟩ := h
  have hrx : (s.rx.entries).map (s.process cfg d).packet = s.rx.entries.map s.packet :=
    map_packet_congr fun e he => hkeep e (List.mem_append_left _ he)
  have htx : (s.tx.entries).map (s.process cfg d).packet = s.tx.entries.map s.packet :=
    map_packet_congr fun e he => hkeep e (List.mem_append_right _ he)
  refine ⟨hinv, fun e he => ?_, done ++ [s.packet d], ?_, ?_⟩
  · rw [hfl'] at he
    rw [hmem', hkeep e (List.mem_append_left _ he)]
    exact hlen e (by rw [hfl]; exact List.mem_cons_of_mem _ he)
  · rw [hfl', hpk, hrx, hr, hfl]
    simp
  · rw [htx', hpk, process_tx_entries, List.filterMap_append]
    split
    · rename_i hfwd
      rw [List.map_append, htx, List.map_singleton, List.filterMap_cons, List.filterMap_nil,
        forwarded_packet (hlen d (by rw [hfl]; exact List.mem_cons_self _ _))
          ⟨hfwd.1, hfwd.2.1, hfwd.2.2.1⟩, ← List.append_assoc]
      exact hsub.append (List.Sublist.refl _)
    · rw [htx]
      exact List.sublist_append_of_sublist_left hsub

/-- Every other step of the loop writes no frame and moves no packet. -/
theorem userStep_quiet (cfg : RelayConfig) (hpc : ∀ d, s.pc ≠ .process d) :
    (s.userStep cfg).mem = s.mem ∧ (s.userStep cfg).inFlight = s.inFlight ∧
      (s.userStep cfg).tx.entries = s.tx.entries := by
  unfold userStep
  split <;> rename_i hpc'
  case h_9 =>
    split
    · simp [inFlight, hpc', RelayPc.desc]
    · rename_i d rx hread
      simp [inFlight, hpc', RelayPc.desc, ConsRing.entries_of_read hread]
  case h_10 d => exact absurd hpc' (hpc d)
  all_goals (repeat' split) <;> simp [inFlight, hpc', RelayPc.desc]

theorem WireInv.userStep (hsize : 0 < cfg.frameSize) (h : WireInv cfg s ins outs) :
    WireInv cfg (s.userStep cfg) ins outs := by
  by_cases hpc : ∃ d, s.pc = .process d
  · obtain ⟨d, hpc⟩ := hpc
    exact h.process hsize hpc
  · obtain ⟨hmem, hfl, htx⟩ := userStep_quiet cfg fun d hd => hpc ⟨d, hd⟩
    exact h.of_quiet h.relay.userStep hmem hfl htx

theorem WireInv.stepEvent (hsize : 0 < cfg.frameSize) {e : RelayEvent}
    (h : WireInv cfg s ins outs) (hs : s.stepEvent cfg e = some s') :
    WireInv cfg s' (ins ++ e.received) (outs ++ s.transmitted e) := by
  cases e with
  | user => cases hs; simpa [RelayEvent.received, transmitted] using h.userStep hsize
  | kernelRx bytes => simpa [transmitted] using h.kernelRx hsize hs
  | kernelTx => simpa [RelayEvent.received] using h.kernelTx hs
  | setNeedsWakeup flag =>
      cases hs
      have h' : WireInv cfg { s with needsWakeup := flag } ins outs :=
        h.of_quiet ⟨h.relay.places, h.relay.prefill⟩ rfl rfl rfl
      simpa [RelayEvent.received, transmitted] using h'

theorem WireInv.run (hsize : 0 < cfg.frameSize) {es : List RelayEvent}
    (h : WireInv cfg s ins outs) (hs : s.run cfg es = some s') :
    WireInv cfg s' (ins ++ es.flatMap RelayEvent.received) (outs ++ s.sent cfg es) := by
  induction es generalizing s ins outs with
  | nil => cases hs; simpa [sent] using h
  | cons e es ih =>
      simp only [RelayState.run, Option.bind_eq_some] at hs
      obtain ⟨s₁, h₁, h₂⟩ := hs
      simpa [sent, h₁, List.append_assoc] using ih (h.stepEvent hsize h₁) h₂

/-- **The relay refines a lossy, order-keeping forwarder**: along every interleaving of
`relay_loop` with the kernel, the packets put on the wire are, in order, a subsequence of
what `forwarded` makes of the packets received.  No packet is sent that was not received
and passed the filter, none is sent twice, none overtakes an earlier one, and each is
sent rewritten. -/
theorem relay_sends_forwarded_subsequence (hsize : 0 < cfg.frameSize) {es : List RelayEvent}
    (h : (init cfg).run cfg es = some s) :
    List.Sublist ((init cfg).sent cfg es)
      ((es.flatMap RelayEvent.received).filterMap cfg.forwarded) := by
  obtain ⟨-, -, done, hr, hsub⟩ := (wireInv_init cfg).run hsize h
  rw [List.nil_append] at hr hsub
  rw [hr, List.filterMap_append]
  exact (List.sublist_append_left _ _).trans (hsub.trans (List.sublist_append_left _ _))

/-- The IPv6 frame of `ipv6_frame_forwarded`, processed, committed by the loop's final
commit, and sent. -/
def ipv6SendEvents : List RelayEvent :=
  ipv6Events ++ [.user, .user, .user, .user, .user, .kernelTx]

set_option maxRecDepth 20000 in
theorem relay_sends_ipv6_frame :
    0 < ipv6RelayConfig.frameSize ∧
      (∃ s, (init ipv6RelayConfig).run ipv6RelayConfig ipv6SendEvents = some s) ∧
      (init ipv6RelayConfig).sent ipv6RelayConfig ipv6SendEvents ≠ [] ∧
      List.Sublist ((init ipv6RelayConfig).sent ipv6RelayConfig ipv6SendEvents)
        ((ipv6SendEvents.flatMap RelayEvent.received).filterMap ipv6RelayConfig.forwarded) :=
  ⟨by decide, ⟨_, rfl⟩, by decide, relay_sends_forwarded_subsequence (by decide) rfl⟩

/-- **Every packet the relay puts on the wire carries an IPv4 header checksum that
verifies**: along every interleaving of `relay_loop` with the kernel, from the loop's
start, the checksum taken again over bytes 14 to 33 of each packet sent is zero. -/
theorem relay_sends_valid_ip_checksums (hsize : 0 < cfg.frameSize) {es : List RelayEvent}
    (h : (init cfg).run cfg es = some s) :
    ∀ p ∈ (init cfg).sent cfg es, ipChecksum ((p.drop ethHeaderSize).take ipHeaderSize) = 0 := by
  obtain ⟨-, -, done, -, hsub⟩ := (wireInv_init cfg).run hsize h
  intro p hp
  obtain ⟨q, -, hq⟩ :=
    List.mem_filterMap.1 (hsub.subset (List.mem_append_left _ (List.mem_append_right _ hp)))
  exact RelayConfig.ipChecksum_forwarded hq

set_option maxRecDepth 20000 in
/-- The IPv6 frame of `ipv6_frame_forwarded`, processed, committed and sent. -/
theorem relay_sends_valid_ip_checksums_ipv6 :
    0 < ipv6RelayConfig.frameSize ∧
      (∃ s, (init ipv6RelayConfig).run ipv6RelayConfig
        (ipv6Events ++ [.user, .user, .user, .user, .user, .kernelTx]) = some s) ∧
      (init ipv6RelayConfig).sent ipv6RelayConfig
        (ipv6Events ++ [.user, .user, .user, .user, .user, .kernelTx]) ≠ [] ∧
      ∀ p ∈ (init ipv6RelayConfig).sent ipv6RelayConfig
        (ipv6Events ++ [.user, .user, .user, .user, .user, .kernelTx]),
        ipChecksum ((p.drop ethHeaderSize).take ipHeaderSize) = 0 :=
  ⟨by decide, ⟨_, rfl⟩, by decide, relay_sends_valid_ip_checksums (by decide) rfl⟩

end RelayState

end ShredRelay
