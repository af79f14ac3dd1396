import ShredRelay.Xdp.RxLoop
import ShredRelay.Counter
import Mathlib.Algebra.Order.Ring.Nat
import Mathlib.Algebra.BigOperators.Group.List

/-!
# The receive loop's statistics

`rx_loop` (`src/rx_loop.rs`) adds one to `RxStats::rx_packets` and the descriptor's length
to `rx_bytes` for each descriptor it reads from RX, and then releases the frame.  Nothing
else writes them.  Both are `AtomicUsize`s and `fetch_add` wraps, so they are exact modulo
`2 ^ 64`.

## Main results

* `StatsExact.stepEvent`: every step keeps the counters, together with what waits on RX,
  equal to what the kernel received.
* `rx_stats_exact`: so in every state of every interleaving the counters count each
  received packet once, when the loop reads its descriptor.
-/

namespace ShredRelay

/-- The lengths of the packets the kernel receives in a step. -/
def RxEvent.received : RxEvent → List Nat
  | .kernelRx len => [len]
  | _ => []

namespace RxState

variable {cfg : RxConfig} {s s' : RxState}

/-- **`RxStats` is exact**: modulo `2 ^ 64`, the counters hold the packets, and their bytes,
of every received packet except those still waiting on RX. -/
structure StatsExact (s : RxState) (received : List Nat) : Prop where
  packets : (s.rxPackets.toNat + s.rx.entries.length) % 2 ^ 64 = received.length % 2 ^ 64
  bytes : (s.rxBytes.toNat + (s.rx.entries.map Desc.len).sum) % 2 ^ 64 = received.sum % 2 ^ 64

theorem fillStep_stats (s : RxState) (done : RxPc) :
    (s.fillStep done).rx = s.rx ∧ (s.fillStep done).rxPackets = s.rxPackets ∧
      (s.fillStep done).rxBytes = s.rxBytes := by
  unfold fillStep; (repeat' split) <;> exact ⟨rfl, rfl, rfl⟩

/-- Each read descriptor is counted as it leaves RX; no other step of the loop touches
the counters or RX's entries. -/
theorem StatsExact.step {received : List Nat} (h : StatsExact s received) :
    StatsExact s.step received := by
  obtain ⟨hp, hb⟩ := h
  unfold RxState.step
  split
  case h_1 | h_8 =>
    obtain ⟨hrx, hpk, hby⟩ := fillStep_stats s _
    exact ⟨by rw [hrx, hpk]; exact hp, by rw [hrx, hby]; exact hb⟩
  case h_5 =>
    split
    · exact ⟨hp, hb⟩
    · rename_i d rx hread
      rw [ConsRing.entries_of_read hread] at hp hb
      simp only [List.length_cons, List.map_cons, List.sum_cons] at hp hb
      refine ⟨?_, ?_⟩ <;> simp only [toNat_add_one, toNat_add_ofNat] <;> omega
  all_goals (try split) <;> exact ⟨by simpa using hp, by simpa using hb⟩

theorem StatsExact.stepEvent {e : RxEvent} {received : List Nat} (h : StatsExact s received)
    (hs : s.stepEvent cfg e = some s') : StatsExact s' (received ++ e.received) := by
  cases e with
  | user => cases hs; simpa [RxEvent.received] using h.step
  | kernelRx len =>
      obtain ⟨f, fill, rx, -, hp, rfl⟩ := kernelRx_eq_some hs
      obtain ⟨hpk, hby⟩ := h
      refine ⟨?_, ?_⟩ <;>
        simp only [ConsRing.entries_of_produce hp, RxEvent.received, List.length_append,
          List.map_append, List.sum_append, List.length_singleton, List.map_singleton,
          List.sum_cons, List.sum_nil] <;> omega
  | setExit =>
      cases hs
      exact ⟨by simpa [RxEvent.received] using h.packets, by simpa [RxEvent.received] using h.bytes⟩

/-- **`RxStats` counts each received packet once**: in every state of every interleaving of
`rx_loop` with the kernel, `rx_packets` and `rx_bytes` are, modulo `2 ^ 64`, the number and
the total length of the packets received, less those still waiting on RX. -/
theorem rx_stats_exact {es : List RxEvent} (h : (init cfg).run cfg es = some s) :
    (s.rxPackets.toNat + s.rx.entries.length) % 2 ^ 64 =
        (es.flatMap RxEvent.received).length % 2 ^ 64 ∧
      (s.rxBytes.toNat + (s.rx.entries.map Desc.len).sum) % 2 ^ 64 =
        (es.flatMap RxEvent.received).sum % 2 ^ 64 := by
  suffices ∀ (es : List RxEvent) (s₀ : RxState) (received : List Nat),
      StatsExact s₀ received → s₀.run cfg es = some s →
        StatsExact s (received ++ es.flatMap RxEvent.received) by
    have hs := this es (init cfg) [] ⟨rfl, rfl⟩ h
    exact ⟨by simpa using hs.packets, by simpa using hs.bytes⟩
  intro es
  induction es with
  | nil => intro s₀ received hs₀ h; cases h; simpa using hs₀
  | cons e es ih =>
      intro s₀ received hs₀ h
      simp only [RxState.run, Option.bind_eq_some] at h
      obtain ⟨s₁, h₁, h₂⟩ := h
      simpa [List.append_assoc] using ih s₁ _ (hs₀.stepEvent h₁) h₂

/-- The demo queue's statistics: one packet of 60 bytes. -/
theorem rx_stats_exact_one_packet :
    ∃ s, (init rxDemoConfig).run rxDemoConfig rxDemoEvents = some s ∧
      (s.rxPackets.toNat + s.rx.entries.length) % 2 ^ 64 = 1 ∧
      (s.rxBytes.toNat + (s.rx.entries.map Desc.len).sum) % 2 ^ 64 = 60 := by
  obtain ⟨s, hs⟩ : ∃ s, (init rxDemoConfig).run rxDemoConfig rxDemoEvents = some s :=
    ⟨_, rfl⟩
  exact ⟨s, hs, (rx_stats_exact hs).1.trans rfl, (rx_stats_exact hs).2.trans rfl⟩

end RxState

end ShredRelay
