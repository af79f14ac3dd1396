import ShredRelay.Xdp.Occupancy
import ShredRelay.Xdp.Wire

/-!
# When the relay wakes TX

`relay_loop` (`src/relay_loop.rs`) calls `tx_ring.wake()`, when the kernel asks for it
through `needs_wakeup`, only in the batch commit that `BATCH_SIZE` frames passing the
filters trigger.  The final commits of an iteration commit TX without waking it.  The frames
counted into the open batch were all read from RX since RX was last committed, so the open
batch never holds more frames than the RX ring has slots.

## Main results

* `process_batch`: the body of the RX loop counts the frame into the batch or drops it, and
  at `BATCH_SIZE` commits the batch and wakes TX at most once.
* `WakeInv.run`: every step keeps the open batch within the uncommitted RX reads, and the
  wakes, with the open batch and the frames on RX or in hand, within the packets received.
* `relay_wakes_tx_per_full_batch`: so the relay calls `wake` at most once per `BATCH_SIZE`
  received packets, and never when the RX ring has fewer than `BATCH_SIZE` slots.
-/

namespace ShredRelay

/-- A receive by the kernel. -/
def RelayEvent.isKernelRx : RelayEvent → Bool
  | .kernelRx _ => true
  | _ => false

namespace RelayState

variable {cfg : RelayConfig} {s s' : RelayState}

/-! ## The batch in one step -/

@[simp] theorem returnToFill_wakes (s : RelayState) (f : Nat) :
    (s.returnToFill f).wakes = s.wakes := by
  unfold returnToFill; split <;> rfl

@[simp] theorem forwardFrame_wakes (s : RelayState) (d : Desc) (destIp : Ipv4Addr)
    (destPort : UInt16) (destMac : MacAddress) :
    (s.forwardFrame cfg d destIp destPort destMac).wakes = s.wakes := by
  unfold forwardFrame; dsimp only; split <;> simp

@[simp] theorem forwardFrame_batchCount (s : RelayState) (d : Desc) (destIp : Ipv4Addr)
    (destPort : UInt16) (destMac : MacAddress) :
    (s.forwardFrame cfg d destIp destPort destMac).batchCount = s.batchCount := by
  unfold forwardFrame; dsimp only; split <;> simp

/-- `batch_count += 1` on a state `t` with the RX ring, the batch and the wakes of `s`, or at
`BATCH_SIZE` the batch commit, which wakes TX at most once. -/
theorem countBatch_batch {t : RelayState} (hrx : t.rx = s.rx) (hw : t.wakes = s.wakes)
    (hb : t.batchCount = s.batchCount) :
    (t.countBatch.rx = s.rx ∧ t.countBatch.wakes = s.wakes ∧
        t.countBatch.batchCount ≤ s.batchCount + 1) ∨
      (batchSize ≤ s.batchCount + 1 ∧ t.countBatch.rx = s.rx.commit ∧
        t.countBatch.batchCount = 0 ∧ t.countBatch.wakes ≤ s.wakes + 1) := by
  rw [← hrx, ← hw, ← hb]
  unfold countBatch
  split
  · refine .inr ⟨‹_›, rfl, rfl, ?_⟩
    dsimp only
    split <;> omega
  · exact .inl ⟨rfl, rfl, Nat.le_refl _⟩

/-- The body of the RX loop drops the frame or counts it into the batch, and at
`BATCH_SIZE` commits the batch, waking TX at most once. -/
theorem process_batch (s : RelayState) (d : Desc) :
    ((s.process cfg d).rx = s.rx ∧ (s.process cfg d).wakes = s.wakes ∧
        (s.process cfg d).batchCount ≤ s.batchCount + 1) ∨
      (batchSize ≤ s.batchCount + 1 ∧ (s.process cfg d).rx = s.rx.commit ∧
        (s.process cfg d).batchCount = 0 ∧ (s.process cfg d).wakes ≤ s.wakes + 1) := by
  unfold process
  dsimp only
  split
  · exact .inl ⟨returnToFill_rx _ _, returnToFill_wakes _ _, by simp⟩
  · split
    · exact .inl ⟨returnToFill_rx _ _, returnToFill_wakes _ _, by simp⟩
    · -- the frame passed the filters: forwarded or handed back, then counted
      split <;> exact countBatch_batch (by simp) (by simp) (by simp)

/-! ## The invariant -/

/-- The open batch against the RX ring, and the wakes against the `received` packets. -/
structure WakeInv (cfg : RelayConfig) (received : Nat) (s : RelayState) : Prop where
  rxSize : s.rx.size = cfg.rxSize
  /-- every frame of the open batch, and the one in hand, is an RX read not yet committed -/
  batch : s.batchCount + s.pc.current.length ≤ s.rx.readUncommitted
  /-- each wake took `BATCH_SIZE` received packets -/
  rate : batchSize * s.wakes + s.batchCount + s.pc.current.length + s.rx.entries.length ≤
    received
  small : cfg.rxSize < batchSize → s.wakes = 0
  /-- outside the RX loop no batch is open, so the syncs at the top find none -/
  idle : ¬ s.pc.Draining → s.batchCount = 0

theorem wakeInv_init (cfg : RelayConfig) : WakeInv cfg 0 (init cfg) :=
  ⟨rfl, Nat.le_refl 0, Nat.le_refl 0, fun _ => rfl, fun _ => rfl⟩

/-- A step that leaves RX, the batch, the wakes and the frame in hand as they were, and
does not leave the RX loop. -/
theorem WakeInv.of_eq {n : Nat} (h : WakeInv cfg n s) (hrx : s'.rx = s.rx)
    (hb : s'.batchCount = s.batchCount) (hw : s'.wakes = s.wakes)
    (hpc : s'.pc.current = s.pc.current) (hdr : s.pc.Draining → s'.pc.Draining) :
    WakeInv cfg n s' := by
  obtain ⟨hsize, hbatch, hrate, hsmall, hidle⟩ := h
  rw [← hrx, ← hb, ← hpc] at hbatch
  rw [← hrx, ← hb, ← hw, ← hpc] at hrate
  exact ⟨hrx ▸ hsize, hbatch, hrate, hw ▸ hsmall, fun hn => hb ▸ hidle (mt hdr hn)⟩

/-- The body of the RX loop keeps the invariant: a counted frame moves from the hand into
the batch, and a full batch, which needs `BATCH_SIZE` reads and so an RX ring of at least
that many slots, pays for its wake. -/
theorem WakeInv.process {n : Nat} {d : Desc} (h : WakeInv cfg n s) (hb : s.rx.Bounded)
    (hpc : s.pc = .process d) : WakeInv cfg n { s.process cfg d with pc := .drainRx } := by
  obtain ⟨hsize, hbatch, hrate, hsmall, -⟩ := h
  simp only [hpc, RelayPc.current, List.length_singleton] at hbatch hrate
  unfold ConsRing.Bounded at hb
  rcases @process_batch cfg s d with ⟨hrx, hw, hbc⟩ | ⟨hfull, hrx, hbc, hw⟩
  · refine ⟨by dsimp only; rw [hrx, hsize], ?_, ?_, ?_, fun hn => absurd trivial hn⟩ <;>
      simp only [hrx, hw, RelayPc.current, List.length_nil, Nat.add_zero]
    · omega
    · omega
    · exact hsmall
  · refine ⟨by dsimp only; rw [hrx]; exact hsize, ?_, ?_, fun hlt => ?_,
      fun hn => absurd trivial hn⟩ <;>
      simp only [hrx, hbc, ConsRing.entries_commit, ConsRing.commit_readUncommitted,
        RelayPc.current, List.length_nil, Nat.add_zero, Nat.zero_le]
    · unfold batchSize at hfull hrate ⊢
      omega
    · omega

theorem WakeInv.userStep {n : Nat} (h : WakeInv cfg n s) (hb : s.rx.Bounded) :
    WakeInv cfg n (s.userStep cfg) := by
  unfold RelayState.userStep
  split <;> rename_i hpc
  case h_4 =>
    -- `rx_ring.sync` moves what the kernel posted into view and hands every read slot
    -- back, with no batch open
    obtain ⟨hsize, -, hrate, hsmall, hidle⟩ := h
    have h0 : s.batchCount = 0 := hidle (by simp [hpc, RelayPc.Draining])
    simp only [hpc, RelayPc.current] at hrate
    exact ⟨hsize, by simp [h0, RelayPc.current], by simpa using hrate, hsmall, fun _ => h0⟩
  case h_9 =>
    obtain ⟨hsize, hbatch, hrate, hsmall, -⟩ := h
    simp only [hpc, RelayPc.current, List.length_nil, Nat.add_zero] at hbatch hrate
    split
    · exact ⟨hsize, by simpa [RelayPc.current] using hbatch,
        by simpa [RelayPc.current] using hrate, hsmall, fun hn => absurd trivial hn⟩
    · -- the read moves a descriptor from RX into the hand
      rename_i d rx hread
      obtain ⟨-, -, hru, hrs⟩ := ConsRing.read_eq_some hread
      have hent := ConsRing.entries_of_read hread
      rw [hent, List.length_cons] at hrate
      refine ⟨hrs.trans hsize, ?_, ?_, hsmall, fun hn => absurd trivial hn⟩ <;>
        simp only [RelayPc.current, List.length_singleton, hru] <;> omega
  case h_10 d => exact h.process hb hpc
  case h_12 =>
    -- the final commits close the batch without waking TX
    obtain ⟨hsize, hbatch, hrate, hsmall, -⟩ := h
    simp only [hpc, RelayPc.current, List.length_nil, Nat.add_zero] at hbatch hrate
    split
    · refine ⟨hsize, ?_, ?_, hsmall, fun _ => rfl⟩ <;>
        simp only [RelayPc.current, ConsRing.entries_commit, List.length_nil] <;> omega
    · exact ⟨hsize, by simpa [RelayPc.current] using hbatch,
        by simpa [RelayPc.current] using hrate, hsmall, fun _ => Nat.eq_zero_of_not_pos ‹_›⟩
  -- the other steps leave RX, the batch, the wakes and the frame in hand as they were
  all_goals
    refine h.of_eq ?_ ?_ ?_ ?_ ?_ <;> (repeat' split) <;>
      simp [hpc, RelayPc.current, RelayPc.Draining]

theorem WakeInv.stepEvent {n : Nat} {e : RelayEvent} (h : WakeInv cfg n s) (hb : s.rx.Bounded)
    (hs : s.stepEvent cfg e = some s') :
    WakeInv cfg (n + if e.isKernelRx then 1 else 0) s' := by
  cases e with
  | user => cases hs; exact h.userStep hb
  | kernelRx bytes =>
      -- the kernel posts one more descriptor on RX
      obtain ⟨f, fill, rx, -, hp, -, rfl⟩ := kernelRx_eq_some hs
      obtain ⟨-, -, hru, hrs⟩ := ConsRing.produce_eq_some hp
      obtain ⟨hsize, hbatch, hrate, hsmall, hidle⟩ := h
      refine ⟨hrs.trans hsize, by dsimp only; rw [hru]; exact hbatch, ?_, hsmall, hidle⟩
      simp only [ConsRing.entries_of_produce hp, List.length_append, List.length_singleton,
        RelayEvent.isKernelRx, if_true]
      omega
  | kernelTx =>
      obtain ⟨d, tx, completion, -, -, rfl⟩ := kernelTx_eq_some hs
      exact h.of_eq rfl rfl rfl rfl id
  | setNeedsWakeup flag => cases hs; exact h.of_eq rfl rfl rfl rfl id

theorem WakeInv.run {n : Nat} {es : List RelayEvent} (h : WakeInv cfg n s)
    (hb : RingsBounded s) (hs : s.run cfg es = some s') :
    WakeInv cfg (n + es.countP RelayEvent.isKernelRx) s' := by
  induction es generalizing s n with
  | nil => cases hs; exact h
  | cons e es ih =>
      simp only [RelayState.run, Option.bind_eq_some] at hs
      obtain ⟨s₁, h₁, h₂⟩ := hs
      rw [List.countP_cons, Nat.add_comm (List.countP _ _), ← Nat.add_assoc]
      exact ih (h.stepEvent hb.rx h₁) (hb.stepEvent h₁) h₂

/-- **TX is woken at most once per full batch.**  In every state of every interleaving of
`relay_loop` with the kernel, whatever `needs_wakeup` the kernel sets, the relay has called
`tx_ring.wake()` at most once per `BATCH_SIZE` packets the kernel received, and never at all
if the RX ring has fewer than `BATCH_SIZE` slots: the wake sits only in the batch commit,
which needs `BATCH_SIZE` frames read from RX since it was last committed, and the final
commits do not wake. -/
theorem relay_wakes_tx_per_full_batch {es : List RelayEvent}
    (h : (init cfg).run cfg es = some s) :
    batchSize * s.wakes ≤ es.countP RelayEvent.isKernelRx ∧
      (cfg.rxSize < batchSize → s.wakes = 0) := by
  have hinv := (wakeInv_init cfg).run (ringsBounded_init cfg) h
  rw [Nat.zero_add] at hinv
  exact ⟨le_trans (by omega) hinv.rate, hinv.small⟩

set_option maxRecDepth 20000 in
/-- The kernel asks for a wakeup before the IPv6 frame of `ipv6_frame_forwarded` arrives;
the relay, with its one-slot RX ring, forwards the frame and commits it on TX, and never
wakes TX. -/
theorem relay_wakes_tx_per_full_batch_ipv6 :
    ∃ s, (init ipv6RelayConfig).run ipv6RelayConfig
        (RelayEvent.setNeedsWakeup true :: ipv6Events ++ List.replicate 5 RelayEvent.user) =
          some s ∧
      s.needsWakeup = true ∧ s.tx.entries = [⟨0, 442⟩] ∧ s.wakes = 0 := by
  obtain ⟨s, hs⟩ : ∃ s, (init ipv6RelayConfig).run ipv6RelayConfig
      (RelayEvent.setNeedsWakeup true :: ipv6Events ++ List.replicate 5 RelayEvent.user) =
        some s := ⟨_, rfl⟩
  have hwake : s.needsWakeup = true := by cases hs; rfl
  have hentries : s.tx.entries = [⟨0, 442⟩] := by cases hs; rfl
  exact ⟨s, hs, hwake, hentries, (relay_wakes_tx_per_full_batch hs).2 (by decide)⟩

end RelayState

end ShredRelay
