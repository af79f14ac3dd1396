import ShredRelay.Xdp.Forwarding

/-!
# What the relay loop commits

`relay_loop` (`src/relay_loop.rs`) commits RX, TX and Fill together, every 32 counted
frames and in the final commits when a batch is still open.  Only a frame that passes the
length and protocol filters counts.  A frame the filters drop is read from RX and written
back to Fill, and neither ring is committed in that iteration; the next iteration's `sync`
publishes both (§4.2).  A TX write, on the other hand, is made only on the path that counts
the frame, so it is always committed in the iteration that makes it.

## Main results

* `relay_commits_tx_writes`: at every point of every run a TX write not yet committed
  comes with an open batch inside the RX loop; at the top of the loop TX holds none.
* `short_frame_skips_commits`: on a one-slot queue one short frame ends the iteration with
  its RX slot read and not handed back and its Fill write not published.
-/

namespace ShredRelay

/-- The points from the RX loop to the final commits. -/
def RelayPc.Draining : RelayPc → Prop
  | .drainRx | .process _ | .refill | .finalCommit => True
  | _ => False

namespace RelayState

variable {cfg : RelayConfig} {s s' : RelayState}

/-! ## TX is committed every iteration

Unlike a Fill or RX slot, a TX slot is written only on the path that counts a batch, and
the final commits commit every ring when a batch is open.  So a TX write not yet committed
comes with an open batch inside the RX loop, and the loop never gets back to its top, where
it syncs the rings again, with a TX write uncommitted. -/

/-- An uncommitted TX write comes with an open batch, inside the RX loop. -/
def TxOpen (s : RelayState) : Prop :=
  s.tx.pending ≠ [] → 0 < s.batchCount ∧ s.pc.Draining

@[simp] theorem returnToFill_batchCount (s : RelayState) (f : Nat) :
    (s.returnToFill f).batchCount = s.batchCount := by
  unfold returnToFill; split <;> rfl

/-- After `batch_count += 1`, TX has nothing uncommitted or the batch is open. -/
theorem countBatch_pending (s : RelayState) :
    s.countBatch.tx.pending = [] ∨ 0 < s.countBatch.batchCount := by
  unfold countBatch
  split
  · exact .inl rfl
  · exact .inr (Nat.succ_pos _)

theorem process_pending (s : RelayState) (d : Desc) (h : s.tx.pending = [] ∨ 0 < s.batchCount) :
    (s.process cfg d).tx.pending = [] ∨ 0 < (s.process cfg d).batchCount := by
  unfold process
  dsimp only
  split
  · rwa [returnToFill_tx, returnToFill_batchCount]
  · split
    · rwa [returnToFill_tx, returnToFill_batchCount]
    · exact countBatch_pending _

theorem TxOpen.userStep (h : TxOpen s) : TxOpen (s.userStep cfg) := by
  unfold TxOpen RelayState.userStep
  split <;> rename_i hpc
  case h_10 d =>
    have hopen : s.tx.pending = [] ∨ 0 < s.batchCount := by
      by_cases hn : s.tx.pending = []
      · exact .inl hn
      · exact .inr (h hn).1
    exact fun hne => ⟨(process_pending s d hopen).resolve_left hne, trivial⟩
  case h_12 =>
    split
    · exact fun hne => absurd rfl hne
    · exact fun hne => absurd (h hne).1 ‹_›
  all_goals (repeat' split) <;> simp_all [RelayPc.Draining, TxOpen]

theorem TxOpen.stepEvent {e : RelayEvent} (h : TxOpen s) (hs : s.stepEvent cfg e = some s') :
    TxOpen s' := by
  cases e with
  | user => cases hs; exact h.userStep
  | kernelRx bytes =>
      obtain ⟨f, fill, rx, -, -, -, rfl⟩ := kernelRx_eq_some hs
      exact h
  | kernelTx =>
      obtain ⟨d, tx, completion, hc, -, rfl⟩ := kernelTx_eq_some hs
      unfold TxOpen at h ⊢
      rw [(ProdRing.consume_eq_some hc).2.1]
      exact h
  | setNeedsWakeup flag => cases hs; exact h

theorem TxOpen.run {es : List RelayEvent} (h : TxOpen s) (hs : s.run cfg es = some s') :
    TxOpen s' := by
  induction es generalizing s with
  | nil => cases hs; exact h
  | cons e es ih =>
      simp only [RelayState.run, Option.bind_eq_some] at hs
      obtain ⟨s₁, h₁, h₂⟩ := hs
      exact ih (h.stepEvent h₁) h₂

/-- **Every TX write is committed in the iteration that makes it.**  In every state of
every interleaving of `relay_loop` with the kernel, a descriptor written to TX and not yet
committed comes with an open batch, inside the RX loop, so the final commits will commit
it; at the top of the loop TX holds no uncommitted write. -/
theorem relay_commits_tx_writes {es : List RelayEvent} (h : (init cfg).run cfg es = some s) :
    (s.tx.pending ≠ [] → 0 < s.batchCount ∧ s.pc.Draining) ∧
      (s.pc = .top → s.tx.pending = []) := by
  have hopen : TxOpen s := TxOpen.run (fun hne => absurd rfl hne) h
  exact ⟨hopen, fun htop => by_contra fun hne => by simpa [htop] using (hopen hne).2⟩

set_option maxRecDepth 20000 in
/-- One iteration forwards the IPv6 frame of `ipv6_frame_forwarded` and is back at the top
of the loop with the frame committed on TX. -/
theorem relay_commits_tx_writes_ipv6 :
    ∃ s, (init ipv6RelayConfig).run ipv6RelayConfig
        (ipv6Events ++ [.user, .user, .user, .user, .user]) = some s ∧
      s.pc = .top ∧ s.tx.pending = [] ∧ s.tx.entries = [⟨0, 442⟩] := by
  obtain ⟨s, hs⟩ : ∃ s, (init ipv6RelayConfig).run ipv6RelayConfig
      (ipv6Events ++ List.replicate 5 RelayEvent.user) = some s := ⟨_, rfl⟩
  have htop : s.pc = .top := by cases hs; rfl
  have hentries : s.tx.entries = [⟨0, 442⟩] := by cases hs; rfl
  exact ⟨s, hs, htop, (relay_commits_tx_writes hs).2 htop, hentries⟩

/-! ## One short frame -/

/-- A relay on a one-slot queue with no forwarding target. -/
def shortFrameConfig : RelayConfig where
  frameSize := 2048
  rxSize := 1
  txSize := 1
  srcMac := ⟨[2, 0, 0, 0, 0, 1], rfl⟩
  srcIp := ⟨[10, 0, 0, 1], rfl⟩
  destIp := none
  destPort := none
  destMac := none
  ipIdent := 0
  ipTtl := 64

/-- Pre-fill, receive one 60-byte frame, and run one iteration of the main loop. -/
def shortFrameEvents : List RelayEvent :=
  [.user, .user, .user, .kernelRx (List.replicate 60 0)] ++ List.replicate 10 .user

/-- **A short frame leaves its rings uncommitted.**  After the iteration that drains it,
back at the top of the loop, the RX slot is read and not handed back and the frame sits on
Fill unpublished: no batch was open, so neither the batch commit nor the final commits
ran. -/
theorem short_frame_skips_commits :
    ∃ s, (init shortFrameConfig).run shortFrameConfig shortFrameEvents = some s ∧
      s.pc = .top ∧ s.rx.readUncommitted = 1 ∧ s.fill.pending = [0] ∧
      s.fill.committed = [] :=
  ⟨_, rfl, rfl, rfl, rfl, rfl⟩

end RelayState

end ShredRelay
