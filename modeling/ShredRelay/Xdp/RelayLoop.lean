import ShredRelay.Xdp.Ring
import ShredRelay.Xdp.Packet
import Mathlib.Data.List.Nodup

/-!
# The relay datapath

`relay_loop` (`src/relay_loop.rs`) pre-fills the Fill ring from the UMEM free pool and
then busy-polls.  Each turn syncs the four rings, returns completed TX frames to the free
pool, and drains RX.  A received frame goes back to Fill when it is shorter than
`HEADER_SIZE + VOTE_SIZE_THRESHOLD` or byte 23 is not UDP.  Otherwise, when forwarding is
configured, its headers are rewritten in place and it is queued on TX; else it goes back
to Fill.  Every 32 forwarded-or-kept frames the three rings are committed.  Last, the turn
refills Fill and makes a final commit if a batch is open.

## Design notes

**Steps.**  `RelayState.userStep` is one step of the loop: one ring operation, or the
processing of one descriptor.  The processing touches only the user's cached ring
indices until its batch commit, so no kernel step in the middle of it could change what
it does.  The kernel steps are `kernelRx` (a committed Fill frame receives a packet and is
posted on RX), `kernelTx` (a committed TX frame is sent and posted on Completion), and a
change of the TX ring's `needs_wakeup` flag.  `RelayState.run` feeds any interleaving of
them.  `kernelRx` takes any bytes: the classifier redirects every packet of the bound
queue to the socket whatever its bytes (`classifier_redirects_bound_queue`).

**Where a frame is.**  `RelayState.places` lists the frame offsets held by the free pool,
the Fill ring, the RX ring, the descriptor being processed, the TX ring and the
Completion ring.  The log-only counters and the debug output are left out.

## Main results

* `RelayInv.step`: every step keeps `places` a permutation of the UMEM frames.  The
  pre-fill's `Err` branch, which would drop a reserved frame, is never taken: the Fill
  ring is fresh and `frames_to_add` is at most its size.
* `relay_frames_owned_once`: so in every reachable state each frame is in exactly one
  place.
-/

namespace ShredRelay

/-- An RX or TX descriptor: the frame offset and the packet length. -/
structure Desc where
  addr : Nat
  len : Nat
  deriving DecidableEq, Repr

/-- What `relay_loop` is started with: the page size, the queue's ring sizes, the
device's addresses, the forwarding target, and the identification and TTL the IPv4
header writer uses. -/
structure RelayConfig where
  frameSize : Nat
  rxSize : Nat
  txSize : Nat
  srcMac : MacAddress
  srcIp : Ipv4Addr
  destIp : Option Ipv4Addr
  destPort : Option UInt16
  destMac : Option MacAddress
  ipIdent : Nat
  ipTtl : Nat

/-- `VOTE_SIZE_THRESHOLD`. -/
def voteSizeThreshold : Nat := 400

/-- `IPPROTO_UDP`. -/
def ipprotoUdp : UInt8 := 17

/-- `BATCH_SIZE`. -/
def batchSize : Nat := 32

/-- The UDP source port the relay writes. -/
def relaySrcPort : Nat := 12345

namespace RelayConfig

/-- `frame_count = (rx_size + tx_size) * 2`. -/
def frameCount (cfg : RelayConfig) : Nat := (cfg.rxSize + cfg.txSize) * 2

/-- The `if let (Some(dest_ip), Some(dest_port), Some(dest_mac))` of the forwarding
branch. -/
def forward (cfg : RelayConfig) : Option (Ipv4Addr × UInt16 × MacAddress) :=
  match cfg.destIp, cfg.destPort, cfg.destMac with
  | some ip, some port, some mac => some (ip, port, mac)
  | _, _, _ => none

end RelayConfig

/-- The offsets of `count` frames of `size` bytes. -/
def umemFrames (size count : Nat) : List Nat := (List.range count).map (· * size)

theorem nodup_umemFrames {size : Nat} (hsize : 0 < size) (count : Nat) :
    (umemFrames size count).Nodup :=
  (List.nodup_range count).map fun _ _ h => Nat.eq_of_mul_eq_mul_right hsize h

/-- The in-place rewrite of the forwarding branch, on the `packet_len` bytes of the
frame. -/
def rewriteHeaders (cfg : RelayConfig) (destIp : Ipv4Addr) (destPort : UInt16)
    (destMac : MacAddress) (payloadLen : Nat) (packet : List UInt8) : List UInt8 :=
  let packet := writeEthHeader packet cfg.srcMac destMac
  let packet := updateFrom packet ethHeaderSize fun buf =>
    writeIpHeader cfg.ipIdent cfg.ipTtl buf cfg.srcIp destIp
      ((udpHeaderSize + payloadLen) % 65536)
  updateFrom packet (ethHeaderSize + ipHeaderSize) fun buf =>
    writeUdpHeader buf relaySrcPort destPort.toNat (payloadLen % 65536)

/-- **The rewritten frame** is the three headers followed by its bytes from offset 42
on. -/
theorem rewriteHeaders_eq (cfg : RelayConfig) (destIp : Ipv4Addr) (destPort : UInt16)
    (destMac : MacAddress) (payloadLen : Nat) (packet : List UInt8) :
    rewriteHeaders cfg destIp destPort destMac payloadLen packet =
      ethHeaderBytes cfg.srcMac destMac ++
        ipHeader cfg.ipIdent cfg.ipTtl cfg.srcIp destIp ((udpHeaderSize + payloadLen) % 65536) ++
        udpHeaderBytes relaySrcPort destPort.toNat (payloadLen % 65536) ++
        packet.drop headerSize := by
  simp only [rewriteHeaders, writeEthHeader, writeIpHeader, writeUdpHeader, writeAt,
    length_ethHeaderBytes, length_ipHeader, length_udpHeaderBytes]
  rw [updateFrom_append (length_ethHeaderBytes _ _), ← List.append_assoc,
    updateFrom_append (by simp), List.drop_drop, List.drop_drop]
  simp [headerSize, ethHeaderSize, ipHeaderSize, udpHeaderSize]

/-- Where `relay_loop` is. -/
inductive RelayPc
  /-- Before the pre-fill: `fill.sync(false)` and `frames_to_add`. -/
  | start
  /-- In the pre-fill loop with `remaining` turns left; at 0, `fill.commit()`. -/
  | prefill (remaining : Nat)
  /-- Top of the main loop: `rx_ring.sync(false)`. -/
  | top
  /-- `tx_ring.sync(false)`. -/
  | syncTx
  /-- `completion.sync(false)`. -/
  | syncCompletion
  /-- `fill.sync(false)`. -/
  | syncFill
  /-- The loop over `completion.read()`. -/
  | drainCompletion
  /-- The loop over `rx_ring.read()`. -/
  | drainRx
  /-- The body of that loop for the descriptor `desc`. -/
  | process (desc : Desc)
  /-- The refill loop. -/
  | refill
  /-- The final commits. -/
  | finalCommit
  deriving DecidableEq

/-- The frame a program point holds: the descriptor being processed. -/
def RelayPc.current : RelayPc → List Nat
  | .process desc => [desc.addr]
  | _ => []

/-- The rings, the UMEM and the loop's own state. -/
structure RelayState where
  pc : RelayPc
  umem : List Nat
  fill : ProdRing Nat
  rx : ConsRing Desc
  tx : ProdRing Desc
  completion : ConsRing Nat
  mem : Nat → List UInt8
  needsWakeup : Bool
  wakes : Nat
  batchCount : Nat

namespace RelayState

/-- After `Socket::new`: every frame free, the rings fresh with the sizes the loop gives. -/
def init (cfg : RelayConfig) : RelayState where
  pc := .start
  umem := umemFrames cfg.frameSize cfg.frameCount
  fill := .empty cfg.rxSize
  rx := .empty cfg.rxSize
  tx := .empty cfg.txSize
  completion := .empty (cfg.txSize * 2)
  mem := fun _ => List.replicate cfg.frameSize 0
  needsWakeup := false
  wakes := 0
  batchCount := 0

/-- "Return frame to fill ring": `fill.write(frame)`, and `umem.release` on `Err`. -/
def returnToFill (s : RelayState) (f : Nat) : RelayState :=
  match s.fill.write f with
  | some fill => { s with fill := fill }
  | none => { s with umem := f :: s.umem }

/-- `batch_count += 1` and, at `BATCH_SIZE`, the batch commit with its TX wakeup. -/
def countBatch (s : RelayState) : RelayState :=
  if s.batchCount + 1 ≥ batchSize then
    { s with
      rx := s.rx.commit
      tx := s.tx.commit
      fill := s.fill.commit
      wakes := if s.needsWakeup then s.wakes + 1 else s.wakes
      batchCount := 0 }
  else { s with batchCount := s.batchCount + 1 }

/-- The forwarding branch: rewrite the headers in place and queue the frame on TX, or
return it to Fill when TX is full. -/
def forwardFrame (cfg : RelayConfig) (s : RelayState) (d : Desc) (destIp : Ipv4Addr)
    (destPort : UInt16) (destMac : MacAddress) : RelayState :=
  let frame := s.mem d.addr
  let packet := rewriteHeaders cfg destIp destPort destMac (d.len - headerSize)
    (frame.take d.len)
  let s := { s with mem := Function.update s.mem d.addr (packet ++ frame.drop d.len) }
  match s.tx.write d with
  | some tx => { s with tx := tx }
  | none => s.returnToFill d.addr

/-- The body of the RX loop for one descriptor. -/
def process (cfg : RelayConfig) (s : RelayState) (d : Desc) : RelayState :=
  let packet := (s.mem d.addr).take d.len
  if d.len < headerSize + voteSizeThreshold then s.returnToFill d.addr
  else if packet.getD (ethHeaderSize + 9) 0 ≠ ipprotoUdp then s.returnToFill d.addr
  else
    let s := match cfg.forward with
      | some (destIp, destPort, destMac) => s.forwardFrame cfg d destIp destPort destMac
      | none => s.returnToFill d.addr
    s.countBatch

/-- One step of `relay_loop`. -/
def userStep (cfg : RelayConfig) (s : RelayState) : RelayState :=
  match s.pc with
  | .start => { s with fill := s.fill.sync, pc := .prefill (min cfg.rxSize s.umem.length) }
  | .prefill 0 => { s with fill := s.fill.commit, pc := .top }
  | .prefill (n + 1) =>
      match reserveFrame s.umem with
      | none => { s with pc := .prefill 0 }
      | some (f, rest) =>
          match s.fill.write f with
          | none => { s with umem := rest, pc := .prefill 0 }
          | some fill => { s with umem := rest, fill := fill, pc := .prefill n }
  | .top => { s with rx := s.rx.sync, pc := .syncTx }
  | .syncTx => { s with tx := s.tx.sync, pc := .syncCompletion }
  | .syncCompletion => { s with completion := s.completion.sync, pc := .syncFill }
  | .syncFill => { s with fill := s.fill.sync, pc := .drainCompletion }
  | .drainCompletion =>
      match s.completion.read with
      | none => { s with pc := .drainRx }
      | some (f, completion) => { s with completion := completion, umem := f :: s.umem }
  | .drainRx =>
      match s.rx.read with
      | none => { s with pc := .refill }
      | some (d, rx) => { s with rx := rx, pc := .process d }
  | .process d => { s.process cfg d with pc := .drainRx }
  | .refill =>
      if s.fill.available > 0 then
        match reserveFrame s.umem with
        | none => { s with pc := .finalCommit }
        | some (f, rest) =>
            match s.fill.write f with
            | none => { s with umem := f :: rest, pc := .finalCommit }
            | some fill => { s with umem := rest, fill := fill }
      else { s with pc := .finalCommit }
  | .finalCommit =>
      if s.batchCount > 0 then
        { s with
          rx := s.rx.commit
          tx := s.tx.commit
          fill := s.fill.commit
          batchCount := 0
          pc := .top }
      else { s with pc := .top }

/-- The kernel receives `bytes` into the oldest committed Fill frame and posts it on RX. -/
def kernelRx (cfg : RelayConfig) (s : RelayState) (bytes : List UInt8) : Option RelayState :=
  if bytes.length ≤ cfg.frameSize then
    match s.fill.consume with
    | none => none
    | some (f, fill) =>
        match s.rx.produce ⟨f, bytes.length⟩ with
        | none => none
        | some rx =>
            some { s with
              fill := fill
              rx := rx
              mem := Function.update s.mem f (bytes ++ (s.mem f).drop bytes.length) }
  else none

/-- The kernel sends the oldest committed TX frame and posts it on Completion. -/
def kernelTx (s : RelayState) : Option RelayState :=
  match s.tx.consume with
  | none => none
  | some (d, tx) =>
      match s.completion.produce d.addr with
      | none => none
      | some completion => some { s with tx := tx, completion := completion }

end RelayState

/-- A step of the relay and the kernel. -/
inductive RelayEvent
  | user
  | kernelRx (bytes : List UInt8)
  | kernelTx
  | setNeedsWakeup (flag : Bool)

namespace RelayState

/-- One step; `none` when the kernel step is not enabled. -/
def stepEvent (cfg : RelayConfig) (s : RelayState) : RelayEvent → Option RelayState
  | .user => some (s.userStep cfg)
  | .kernelRx bytes => s.kernelRx cfg bytes
  | .kernelTx => s.kernelTx
  | .setNeedsWakeup flag => some { s with needsWakeup := flag }

/-- Any interleaving of the loop with the kernel. -/
def run (cfg : RelayConfig) (s : RelayState) : List RelayEvent → Option RelayState
  | [] => some s
  | e :: es => (s.stepEvent cfg e).bind fun s' => s'.run cfg es

/-- The frames held by the free pool, Fill, RX, the descriptor being processed, TX and
Completion. -/
def places (s : RelayState) : List Nat :=
  s.umem ++ s.fill.entries ++ s.rx.entries.map Desc.addr ++ s.pc.current ++
    s.tx.entries.map Desc.addr ++ s.completion.entries

theorem count_places (s : RelayState) (f : Nat) :
    s.places.count f = s.umem.count f + s.fill.entries.count f +
      (s.rx.entries.map Desc.addr).count f + s.pc.current.count f +
      (s.tx.entries.map Desc.addr).count f + s.completion.entries.count f := by
  simp [places, List.count_append, Nat.add_assoc]

/-! ## The pre-fill cannot drop a frame -/

/-- What the pre-fill relies on: before its commit the Fill ring holds only the frames it
wrote, with room for every turn left. -/
def PrefillOk (cfg : RelayConfig) (s : RelayState) : Prop :=
  match s.pc with
  | .start => s.fill.committed = [] ∧ s.fill.pending = [] ∧ s.fill.consumedUnseen = 0 ∧
      s.fill.size = cfg.rxSize
  | .prefill n => s.fill.committed = [] ∧ s.fill.consumedUnseen = 0 ∧
      n + s.fill.pending.length ≤ s.fill.size
  | _ => True

/-- **The relay's frame invariant**: the places hold exactly the UMEM frames. -/
structure RelayInv (cfg : RelayConfig) (s : RelayState) : Prop where
  places : s.places.Perm (umemFrames cfg.frameSize cfg.frameCount)
  prefill : s.PrefillOk cfg

theorem relayInv_init (cfg : RelayConfig) : RelayInv cfg (init cfg) where
  places := by simp [places, init, ProdRing.entries, ConsRing.entries, ProdRing.empty,
    ConsRing.empty, RelayPc.current]
  prefill := ⟨rfl, rfl, rfl, rfl⟩

/-! ## Every step moves frames, and loses none -/

variable {cfg : RelayConfig} {s s' : RelayState}

theorem returnToFill_places (s : RelayState) (f g : Nat) :
    (s.returnToFill f).places.count g = s.places.count g + [f].count g := by
  unfold returnToFill
  split
  · rename_i fill hw
    simp [count_places, ProdRing.entries_of_write hw, List.count_append]
    omega
  · simp [count_places, List.count_cons]
    omega

@[simp] theorem returnToFill_pc (s : RelayState) (f : Nat) : (s.returnToFill f).pc = s.pc := by
  unfold returnToFill; split <;> rfl

@[simp] theorem countBatch_places (s : RelayState) : s.countBatch.places = s.places := by
  unfold countBatch; split <;> simp [places]

@[simp] theorem countBatch_pc (s : RelayState) : s.countBatch.pc = s.pc := by
  unfold countBatch; split <;> rfl

theorem forwardFrame_places (s : RelayState) (d : Desc) (destIp : Ipv4Addr) (destPort : UInt16)
    (destMac : MacAddress) (g : Nat) :
    (s.forwardFrame cfg d destIp destPort destMac).places.count g =
      s.places.count g + [d.addr].count g := by
  unfold forwardFrame
  dsimp only
  split
  · rename_i tx hw
    simp [count_places, ProdRing.entries_of_write hw, List.count_append]
    omega
  · rw [returnToFill_places]
    rfl

@[simp] theorem forwardFrame_pc (s : RelayState) (d : Desc) (destIp : Ipv4Addr)
    (destPort : UInt16) (destMac : MacAddress) :
    (s.forwardFrame cfg d destIp destPort destMac).pc = s.pc := by
  unfold forwardFrame; dsimp only; split
  · rfl
  · exact returnToFill_pc _ _

/-- Processing a descriptor puts its frame in exactly one place. -/
theorem process_places (s : RelayState) (d : Desc) (g : Nat) :
    (s.process cfg d).places.count g = s.places.count g + [d.addr].count g := by
  unfold process
  dsimp only
  split
  · exact returnToFill_places _ _ _
  · split
    · exact returnToFill_places _ _ _
    · split <;> simp only [countBatch_places]
      · exact forwardFrame_places _ _ _ _ _ _
      · exact returnToFill_places _ _ _

@[simp] theorem process_pc (s : RelayState) (d : Desc) : (s.process cfg d).pc = s.pc := by
  unfold process
  dsimp only
  split
  · exact returnToFill_pc _ _
  · split
    · exact returnToFill_pc _ _
    · split <;> simp

theorem userStep_places (hpre : s.PrefillOk cfg) : (s.userStep cfg).places.Perm s.places := by
  refine List.perm_iff_count.2 fun g => ?_
  unfold userStep
  split <;> rename_i hpc
  case h_3 =>
    -- one turn of the pre-fill: a frame moves from the free pool to Fill
    split
    · simp [count_places, hpc, RelayPc.current]
    · rename_i f rest hres
      have humem := reserveFrame_eq_some hres
      split
      · rename_i hw
        simp only [PrefillOk, hpc] at hpre
        obtain ⟨hc, hu, hn⟩ := hpre
        have := ProdRing.write_eq_none hw
        simp only [ProdRing.available, hc, hu, List.length_nil] at this
        omega
      · rename_i fill hw
        simp [count_places, hpc, RelayPc.current, humem, ProdRing.entries_of_write hw,
          List.count_append, List.count_cons]
        omega
  case h_8 | h_9 =>
    -- a read from Completion or RX: the frame moves to the free pool or to processing
    split
    · simp [count_places, hpc, RelayPc.current]
    · rename_i x c hread
      simp [count_places, hpc, RelayPc.current, ConsRing.entries_of_read hread, List.count_cons]
      omega
  case h_10 _ d =>
    have : (s.process cfg d).places.count g = s.places.count g + [d.addr].count g :=
      process_places s d g
    simp only [count_places, process_pc, hpc, RelayPc.current] at this ⊢
    simp at this ⊢
    omega
  case h_11 =>
    -- one turn of the refill
    split
    · split
      · simp [count_places, hpc, RelayPc.current]
      · rename_i f rest hres
        have humem := reserveFrame_eq_some hres
        split
        · simp [count_places, hpc, RelayPc.current, humem]
        · rename_i fill hw
          simp [count_places, hpc, RelayPc.current, humem, ProdRing.entries_of_write hw,
            List.count_append, List.count_cons]
          omega
    · simp [count_places, hpc, RelayPc.current]
  -- the syncs and commits move no frame
  all_goals (try split) <;> simp [count_places, hpc, RelayPc.current]

theorem userStep_prefillOk (hpre : s.PrefillOk cfg) : (s.userStep cfg).PrefillOk cfg := by
  unfold userStep
  split
  · rename_i hpc
    simp only [PrefillOk, hpc] at hpre
    obtain ⟨hc, hp, -, hsz⟩ := hpre
    exact ⟨by simp [hc, hp], rfl, by simp [hp, hsz]⟩
  · trivial
  · rename_i n hpc
    simp only [PrefillOk, hpc] at hpre
    obtain ⟨hc, hu, hn⟩ := hpre
    split
    · exact ⟨hc, hu, by dsimp only; omega⟩
    · split
      · exact ⟨hc, hu, by dsimp only; omega⟩
      · rename_i fill hw
        obtain ⟨-, rfl⟩ := ProdRing.write_eq_some hw
        exact ⟨hc, hu, by simp; omega⟩
  all_goals (repeat' split) <;> first | trivial | simp_all [PrefillOk]

/-- **What the kernel's receive does**: it takes the oldest committed Fill frame, writes
the packet into it and posts it on RX. -/
theorem kernelRx_eq_some {bytes : List UInt8} (h : s.kernelRx cfg bytes = some s') :
    ∃ f fill rx, s.fill.consume = some (f, fill) ∧ s.rx.produce ⟨f, bytes.length⟩ = some rx ∧
      bytes.length ≤ cfg.frameSize ∧
      s' = { s with
        fill := fill
        rx := rx
        mem := Function.update s.mem f (bytes ++ (s.mem f).drop bytes.length) } := by
  unfold kernelRx at h
  split at h
  · split at h
    · cases h
    · rename_i f fill hc
      split at h
      · cases h
      · rename_i rx hp
        cases h
        exact ⟨f, fill, rx, hc, hp, ‹_›, rfl⟩
  · cases h

/-- **What the kernel's transmit does**: it takes the oldest committed TX frame and posts
it on Completion. -/
theorem kernelTx_eq_some (h : s.kernelTx = some s') :
    ∃ d tx completion, s.tx.consume = some (d, tx) ∧
      s.completion.produce d.addr = some completion ∧
      s' = { s with tx := tx, completion := completion } := by
  unfold kernelTx at h
  split at h
  · cases h
  · rename_i d tx hc
    split at h
    · cases h
    · rename_i completion hp
      cases h
      exact ⟨d, tx, completion, hc, hp, rfl⟩

theorem RelayInv.userStep (hinv : RelayInv cfg s) : RelayInv cfg (s.userStep cfg) :=
  ⟨(userStep_places hinv.prefill).trans hinv.places, userStep_prefillOk hinv.prefill⟩

theorem RelayInv.kernelRx {bytes : List UInt8} (hinv : RelayInv cfg s)
    (h : s.kernelRx cfg bytes = some s') : RelayInv cfg s' := by
  obtain ⟨f, fill, rx, hc, hp, -, rfl⟩ := kernelRx_eq_some h
  have hfill := ProdRing.entries_of_consume hc
  refine ⟨List.Perm.trans (List.perm_iff_count.2 fun g => ?_) hinv.places, ?_⟩
  · simp [count_places, hfill, ConsRing.entries_of_produce hp, List.count_append,
      List.count_cons]
    omega
  · have hpre := hinv.prefill
    have hcons := (ProdRing.consume_eq_some hc).1
    unfold PrefillOk at hpre ⊢
    split at hpre <;> simp_all

theorem RelayInv.kernelTx (hinv : RelayInv cfg s) (h : s.kernelTx = some s') :
    RelayInv cfg s' := by
  obtain ⟨d, tx, completion, hc, hp, rfl⟩ := kernelTx_eq_some h
  refine ⟨List.Perm.trans (List.perm_iff_count.2 fun g => ?_) hinv.places, hinv.prefill⟩
  simp [count_places, ProdRing.entries_of_consume hc, ConsRing.entries_of_produce hp,
    List.count_append, List.count_cons]
  omega

theorem RelayInv.stepEvent {e : RelayEvent} (hinv : RelayInv cfg s)
    (h : s.stepEvent cfg e = some s') : RelayInv cfg s' := by
  cases e with
  | user => cases h; exact hinv.userStep
  | kernelRx bytes => exact hinv.kernelRx h
  | kernelTx => exact hinv.kernelTx h
  | setNeedsWakeup flag => cases h; exact ⟨hinv.places, hinv.prefill⟩

theorem RelayInv.run {es : List RelayEvent} (hinv : RelayInv cfg s) (h : s.run cfg es = some s') :
    RelayInv cfg s' := by
  induction es generalizing s with
  | nil => cases h; exact hinv
  | cons e es ih =>
      simp only [RelayState.run, Option.bind_eq_some] at h
      obtain ⟨s₁, h₁, h₂⟩ := h
      exact ih (hinv.stepEvent h₁) h₂

/-- **Each UMEM frame is in exactly one place** in every state of every interleaving of
`relay_loop` with the kernel. -/
theorem relay_frames_owned_once (hsize : 0 < cfg.frameSize) {es : List RelayEvent}
    (h : (init cfg).run cfg es = some s) (f : Nat) :
    s.places.count f = if f ∈ umemFrames cfg.frameSize cfg.frameCount then 1 else 0 := by
  rw [((relayInv_init cfg).run h).places.count_eq, List.count_eq_of_nodup
    (nodup_umemFrames hsize _)]

end RelayState

end ShredRelay
