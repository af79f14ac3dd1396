import ShredRelay.Xdp.RxLoop

/-!
# Ring occupancy

On every ring the producer index must stay ahead of the consumer index by at most the
ring's capacity (spec §8).  Each ring operation keeps that (`ProdRing.Bounded.write`,
`ConsRing.Bounded.produce`, …, in `Ring.lean`); here it is carried over every step of both
loops and of the kernel.

The bound is what the wake-rate argument (`Wakeup.lean`) and the exit bound of `rx_loop`
(`RxProgress.lean`) read off the RX ring: a drain reads at most as many descriptors as the
ring has slots.

## Main results

* `RingsBounded.run`, `RxState.RxBounded.run`: the bound holds on all four rings of
  `relay_loop` and on both rings of `rx_loop`, in every state of every interleaving.
-/

namespace ShredRelay

namespace RelayState

/-- The four rings of the relay are within their capacities. -/
structure RingsBounded (s : RelayState) : Prop where
  fill : s.fill.Bounded
  rx : s.rx.Bounded
  tx : s.tx.Bounded
  completion : s.completion.Bounded

variable {cfg : RelayConfig} {s s' : RelayState}

theorem ringsBounded_init (cfg : RelayConfig) : RingsBounded (init cfg) :=
  ⟨ProdRing.bounded_empty _, ConsRing.bounded_empty _, ProdRing.bounded_empty _,
    ConsRing.bounded_empty _⟩

theorem RingsBounded.returnToFill (h : RingsBounded s) (f : Nat) :
    RingsBounded (s.returnToFill f) := by
  unfold RelayState.returnToFill
  split
  · exact ⟨h.fill.write ‹_›, h.rx, h.tx, h.completion⟩
  · exact ⟨h.fill, h.rx, h.tx, h.completion⟩

theorem RingsBounded.countBatch (h : RingsBounded s) : RingsBounded s.countBatch := by
  unfold RelayState.countBatch
  split
  · exact ⟨h.fill.commit, h.rx.commit, h.tx.commit, h.completion⟩
  · exact ⟨h.fill, h.rx, h.tx, h.completion⟩

theorem RingsBounded.process (h : RingsBounded s) (d : Desc) : RingsBounded (s.process cfg d) := by
  unfold RelayState.process
  dsimp only
  split
  · exact h.returnToFill _
  · split
    · exact h.returnToFill _
    · refine RingsBounded.countBatch ?_
      split
      · unfold RelayState.forwardFrame
        dsimp only
        split
        · exact ⟨h.fill, h.rx, h.tx.write ‹_›, h.completion⟩
        · apply RingsBounded.returnToFill
          exact ⟨h.fill, h.rx, h.tx, h.completion⟩
      · exact h.returnToFill _

theorem RingsBounded.userStep (h : RingsBounded s) : RingsBounded (s.userStep cfg) := by
  obtain ⟨hf, hr, ht, hc⟩ := h
  unfold RelayState.userStep
  split
  case h_1 => exact ⟨hf.sync, hr, ht, hc⟩
  case h_2 => exact ⟨hf.commit, hr, ht, hc⟩
  case h_4 => exact ⟨hf, hr.sync, ht, hc⟩
  case h_5 => exact ⟨hf, hr, ht.sync, hc⟩
  case h_6 => exact ⟨hf, hr, ht, hc.sync⟩
  case h_7 => exact ⟨hf.sync, hr, ht, hc⟩
  case h_8 => split <;> exact ⟨hf, hr, ht, by first | exact hc | exact hc.read ‹_›⟩
  case h_9 => split <;> exact ⟨hf, by first | exact hr | exact hr.read ‹_›, ht, hc⟩
  case h_10 d _ =>
    have hp : RingsBounded (s.process cfg d) := RingsBounded.process ⟨hf, hr, ht, hc⟩ d
    exact ⟨hp.fill, hp.rx, hp.tx, hp.completion⟩
  case h_12 => split <;> first
    | exact ⟨hf.commit, hr.commit, ht.commit, hc⟩ | exact ⟨hf, hr, ht, hc⟩
  -- the two fill loops write to Fill or leave it
  all_goals (repeat' split) <;> first
    | exact ⟨hf, hr, ht, hc⟩ | exact ⟨hf.write ‹_›, hr, ht, hc⟩

theorem RingsBounded.stepEvent {e : RelayEvent} (h : RingsBounded s)
    (hs : s.stepEvent cfg e = some s') : RingsBounded s' := by
  cases e with
  | user => cases hs; exact h.userStep
  | kernelRx bytes =>
      obtain ⟨f, fill, rx, hc, hp, -, rfl⟩ := kernelRx_eq_some hs
      exact ⟨h.fill.consume hc, ConsRing.Bounded.produce hp, h.tx, h.completion⟩
  | kernelTx =>
      obtain ⟨d, tx, completion, hc, hp, rfl⟩ := kernelTx_eq_some hs
      exact ⟨h.fill, h.rx, h.tx.consume hc, ConsRing.Bounded.produce hp⟩
  | setNeedsWakeup flag => cases hs; exact ⟨h.fill, h.rx, h.tx, h.completion⟩

theorem RingsBounded.run {es : List RelayEvent} (h : RingsBounded s)
    (hs : s.run cfg es = some s') : RingsBounded s' := by
  induction es generalizing s with
  | nil => cases hs; exact h
  | cons e es ih =>
      simp only [RelayState.run, Option.bind_eq_some] at hs
      obtain ⟨s₁, h₁, h₂⟩ := hs
      exact ih (h.stepEvent h₁) h₂

end RelayState

namespace RxState

/-- Fill and RX of the receive loop are within their capacities. -/
structure RxBounded (s : RxState) : Prop where
  fill : s.fill.Bounded
  rx : s.rx.Bounded

variable {cfg : RxConfig} {s s' : RxState}

theorem RxBounded.fillStep (h : RxBounded s) (done : RxPc) : RxBounded (s.fillStep done) := by
  unfold RxState.fillStep
  repeat' split
  all_goals first | exact ⟨h.fill, h.rx⟩ | exact ⟨h.fill.write ‹_›, h.rx⟩

theorem RxBounded.step (h : RxBounded s) : RxBounded s.step := by
  unfold RxState.step
  split
  case h_1 | h_8 => exact h.fillStep _
  case h_5 => split <;> first | exact ⟨h.fill, h.rx⟩ | exact ⟨h.fill, h.rx.read ‹_›⟩
  all_goals (try split) <;>
    first
    | exact ⟨h.fill, h.rx⟩ | exact ⟨h.fill.commit, h.rx⟩ | exact ⟨h.fill.sync, h.rx⟩
    | exact ⟨h.fill, h.rx.sync⟩ | exact ⟨h.fill, h.rx.commit⟩

theorem RxBounded.run {es : List RxEvent} (h : RxBounded s) (hs : s.run cfg es = some s') :
    RxBounded s' := by
  induction es generalizing s with
  | nil => cases hs; exact h
  | cons e es ih =>
      simp only [RxState.run, Option.bind_eq_some] at hs
      obtain ⟨s₁, h₁, h₂⟩ := hs
      refine ih ?_ h₂
      cases e with
      | user => cases h₁; exact h.step
      | kernelRx len =>
          obtain ⟨f, fill, rx, hc, hp, rfl⟩ := kernelRx_eq_some h₁
          exact ⟨h.fill.consume hc, ConsRing.Bounded.produce hp⟩
      | setExit => cases h₁; exact ⟨h.fill, h.rx⟩

end RxState

end ShredRelay
