import ShredRelay.Xdp.Occupancy

/-!
# The receive loop's progress

`rx_loop` (`src/rx_loop.rs`) loads the exit flag once a turn, at the top of its loop, and
breaks there; the rest of the turn drains RX, hands its slots back, and refills and
commits Fill.  Unlike `relay_loop` (`short_frame_skips_commits`), it hands back every RX
slot and commits every Fill write in every turn.  This module says what follows: the loop
leaves exactly when told, and it never keeps the kernel from receiving.

## Design notes

**A rank.**  `exitBound s` is what is left of the turn: one step a descriptor the last
`rx_ring.sync` showed, one step a free Fill slot, one step for each sync and commit, and
the load of the flag.  Every step of the loop but that load lowers it by one, and the
kernel's receive leaves it as it is: it adds to RX behind what the last sync showed, and
the Fill slot it takes is not free again before the next `fill.sync`.  After a sync the
drain and the refill are bounded by the rings' sizes, which `RxBounded` gives.

**A turn alone.**  The loop's step is a function, so `n` steps of the loop with nothing
between them are `step^[n]` (`run_replicate_user`).  A turn from the top is computed phase
by phase: the drain in closed form (`iterate_drainRx`), the refill up to the free slots or
the free frames (`iterate_refill`).

## Main results

* `RxState.exitBound_step`, `RxState.exitBound_kernelRx`: the rank falls with each step of
  the loop and not with the kernel's.
* `RxState.rx_loop_obeys_exit`: in every reachable state the loop has left only if the flag
  is set, and once it is set every `2 * rx_size + 7` steps of its own bring it out.
* `RxState.rx_loop_never_stalls`: from every reachable state with the flag clear, the loop
  alone reaches within `4 * rx_size + 14` steps a state where the kernel can receive.
-/

namespace ShredRelay

/-- A step of the loop itself. -/
def RxEvent.isUser : RxEvent → Bool
  | .user => true
  | _ => false

namespace RxState

variable {cfg : RxConfig} {s s' : RxState}

/-- The loop's own steps left, at most, to the `break` once the exit flag is set. -/
def exitBound (s : RxState) : Nat :=
  match s.pc with
  | .exited => 0
  | .top => 1
  | .prefillCommit | .commitFill => 2
  | .prefill | .refill => 3 + s.fill.available
  | .syncFill => 4 + s.fill.size
  | .commitRx => 5 + s.fill.size
  | .drainRx => 6 + s.fill.size + s.rx.visible.length
  | .syncRx => 7 + s.fill.size + s.rx.size

theorem exitBound_eq_zero (h : s.exitBound = 0) : s.pc = .exited := by
  unfold exitBound at h
  split at h <;> first | assumption | omega

/-- With the rings bounded, the rank is at most the sizes of Fill and RX plus seven. -/
theorem exitBound_le (hb : RxBounded s) : s.exitBound ≤ 7 + s.fill.size + s.rx.size := by
  have hfill : s.fill.available ≤ s.fill.size := Nat.sub_le _ _
  have hrx := hb.rx
  unfold ConsRing.Bounded at hrx
  unfold exitBound
  split <;> omega

/-! ## One step -/

theorem ProdRing.write_available {α : Type} {r r' : ProdRing α} {x : α}
    (h : r.write x = some r') :
    r'.available + 1 = r.available ∧ r'.size = r.size ∧ r'.consumedUnseen = r.consumedUnseen := by
  obtain ⟨hav, rfl⟩ := ProdRing.write_eq_some h
  refine ⟨?_, rfl, rfl⟩
  simp only [ProdRing.available, List.length_append, List.length_singleton] at hav ⊢
  omega

/-- **A turn of the fill loop**: with no free Fill slot or no free frame it leaves the loop
and changes nothing else; otherwise it writes the top free frame to Fill. -/
theorem fillStep_eq (s : RxState) (done : RxPc) :
    ((s.fill.available = 0 ∨ s.umem = []) ∧ s.fillStep done = { s with pc := done }) ∨
      ∃ f rest fill, s.umem = f :: rest ∧ s.fill.write f = some fill ∧
        s.fillStep done = { s with umem := rest, fill := fill } := by
  unfold fillStep
  split
  · rename_i hav
    split
    · rename_i hres
      refine .inl ⟨.inr ?_, rfl⟩
      cases h : s.umem <;> simp_all [reserveFrame]
    · rename_i f rest hres
      split
      · exact absurd (ProdRing.write_eq_none ‹_›) (by omega)
      · exact .inr ⟨f, rest, _, reserveFrame_eq_some hres, ‹_›, rfl⟩
  · exact .inl ⟨.inl (by omega), rfl⟩

theorem fillStep_frame (s : RxState) (done : RxPc) :
    (s.fillStep done).fill.size = s.fill.size ∧ (s.fillStep done).rx.size = s.rx.size ∧
      (s.fillStep done).exit = s.exit := by
  rcases fillStep_eq s done with ⟨-, h⟩ | ⟨f, rest, fill, -, hw, h⟩ <;> rw [h]
  · exact ⟨rfl, rfl, rfl⟩
  · exact ⟨(ProdRing.write_available hw).2.1, rfl, rfl⟩

theorem fillStep_exited {done : RxPc} (h : (s.fillStep done).pc = .exited) :
    done = .exited ∨ s.pc = .exited := by
  rcases fillStep_eq s done with ⟨-, h'⟩ | ⟨_, _, _, -, -, h'⟩ <;> rw [h'] at h
  · exact .inl h
  · exact .inr h

/-- A turn of the fill loop lowers the rank by one. -/
theorem exitBound_fillStep {done : RxPc} (hpc : s.pc = .prefill ∨ s.pc = .refill)
    (hdone : done = .prefillCommit ∨ done = .commitFill) :
    (s.fillStep done).exitBound ≤ s.exitBound - 1 := by
  have hs : s.exitBound = 3 + s.fill.available := by
    rcases hpc with hpc | hpc <;> simp [exitBound, hpc]
  rw [hs]
  rcases fillStep_eq s done with ⟨-, h⟩ | ⟨f, rest, fill, -, hw, h⟩ <;> rw [h]
  · rcases hdone with rfl | rfl <;> simp [exitBound]
  · have := (ProdRing.write_available hw).1
    rcases hpc with hpc | hpc <;> simp only [exitBound, hpc] <;> omega

/-- No step of the loop resizes a ring or writes the flag. -/
theorem step_frame (s : RxState) :
    s.step.fill.size = s.fill.size ∧ s.step.rx.size = s.rx.size ∧ s.step.exit = s.exit := by
  unfold RxState.step
  split
  case h_1 | h_8 => exact fillStep_frame s _
  case h_5 =>
    split
    · exact ⟨rfl, rfl, rfl⟩
    · exact ⟨rfl, (ConsRing.read_eq_some ‹_›).2.2.2, rfl⟩
  all_goals (try split) <;> exact ⟨rfl, rfl, rfl⟩

/-- The loop gets past the `break` only from the check of a set flag. -/
theorem step_exited (h : s.step.pc = .exited) : s.pc = .exited ∨ s.exit = true := by
  unfold RxState.step at h
  split at h <;> rename_i hpc
  case h_1 | h_8 => exact .inl ((fillStep_exited h).resolve_left nofun)
  case h_3 => split at h <;> simp_all
  case h_5 =>
    split at h
    · cases h
    · exact .inl h
  case h_10 => exact .inl hpc
  all_goals cases h

/-- **A step of the loop lowers the rank by one**, but the load of a clear flag. -/
theorem exitBound_step (hb : RxBounded s) (hexit : s.pc = .top → s.exit = true) :
    s.step.exitBound ≤ s.exitBound - 1 := by
  have hrx := hb.rx
  unfold ConsRing.Bounded at hrx
  unfold RxState.step
  split <;> rename_i hpc
  case h_1 => exact exitBound_fillStep (.inl hpc) (.inl rfl)
  case h_8 => exact exitBound_fillStep (.inr hpc) (.inr rfl)
  case h_3 => simp [exitBound, hpc, hexit hpc]
  case h_4 =>
    simp only [exitBound, hpc, ConsRing.sync_visible, List.length_append]
    omega
  case h_5 =>
    split
    · simp only [exitBound, hpc]; omega
    · rename_i d rx hread
      obtain ⟨hvis, -, -, -⟩ := ConsRing.read_eq_some hread
      simp only [exitBound, hpc, hvis, List.length_cons]
      omega
  case h_7 =>
    have : s.fill.sync.available ≤ s.fill.size := Nat.sub_le _ _
    simp only [exitBound, hpc]
    omega
  all_goals simp [exitBound, hpc]

/-- **The kernel's receive does not change the rank**: the Fill slot it takes stays
counted until `fill.sync`, and the descriptor it posts lands behind what the loop sees. -/
theorem exitBound_kernelRx {len : Nat} (h : s.kernelRx cfg len = some s') :
    s'.exitBound = s.exitBound := by
  obtain ⟨f, fill, rx, hc, hp, rfl⟩ := kernelRx_eq_some h
  obtain ⟨hcom, hpend, hsize, hcu⟩ := ProdRing.consume_eq_some hc
  obtain ⟨hvis, -, -, hrsize⟩ := ConsRing.produce_eq_some hp
  have hav : fill.available = s.fill.available := by
    simp only [ProdRing.available, hcom, hpend, hsize, hcu, List.length_cons]
    omega
  unfold exitBound
  simp only [hav, hsize, hvis, hrsize]

/-! ## Every run -/

/-- **What a reachable state of `rx_loop` keeps**: the rings bounded at their sizes, and
the loop past its `break` only with the flag set. -/
structure ExitInv (cfg : RxConfig) (s : RxState) : Prop where
  bounded : RxBounded s
  fillSize : s.fill.size = cfg.rxSize
  rxSize : s.rx.size = cfg.rxSize
  exited : s.pc = .exited → s.exit = true

theorem exitInv_init (cfg : RxConfig) : ExitInv cfg (init cfg) :=
  ⟨⟨ProdRing.bounded_empty cfg.rxSize, ConsRing.bounded_empty cfg.rxSize⟩, rfl, rfl,
    fun h => by cases h⟩

theorem ExitInv.stepEvent {e : RxEvent} (hinv : ExitInv cfg s)
    (h : s.stepEvent cfg e = some s') : ExitInv cfg s' ∧ (s.exit = true → s'.exit = true) := by
  cases e with
  | user =>
      cases h
      obtain ⟨hfill, hrx, hexit⟩ := step_frame s
      refine ⟨⟨hinv.bounded.step, hfill.trans hinv.fillSize, hrx.trans hinv.rxSize,
        fun hpc => ?_⟩, fun he => hexit.trans he⟩
      rcases step_exited hpc with hpc | he
      · exact hexit.trans (hinv.exited hpc)
      · exact hexit.trans he
  | kernelRx len =>
      obtain ⟨f, fill, rx, hc, hp, rfl⟩ := kernelRx_eq_some h
      exact ⟨⟨⟨hinv.bounded.fill.consume hc, ConsRing.Bounded.produce hp⟩,
        (ProdRing.consume_eq_some hc).2.2.1.trans hinv.fillSize,
        (ConsRing.produce_eq_some hp).2.2.2.trans hinv.rxSize, hinv.exited⟩, id⟩
  | setExit =>
      cases h
      exact ⟨⟨⟨hinv.bounded.fill, hinv.bounded.rx⟩, hinv.fillSize, hinv.rxSize, fun _ => rfl⟩,
        fun _ => rfl⟩

theorem ExitInv.run {es : List RxEvent} (hinv : ExitInv cfg s) (h : s.run cfg es = some s') :
    ExitInv cfg s' := by
  induction es generalizing s with
  | nil => cases h; exact hinv
  | cons e es ih =>
      simp only [RxState.run, Option.bind_eq_some] at h
      obtain ⟨s₁, h₁, h₂⟩ := h
      exact ih (hinv.stepEvent h₁).1 h₂

/-- **Once the flag is set, `exitBound` steps of the loop reach `exited`**, whatever the
kernel and the flag's writer do between them. -/
theorem exited_of_run (hinv : ExitInv cfg s) (hexit : s.exit = true) {es : List RxEvent}
    (h : s.run cfg es = some s') (hn : s.exitBound ≤ es.countP RxEvent.isUser) :
    s'.pc = .exited := by
  induction es generalizing s with
  | nil => cases h; exact exitBound_eq_zero (Nat.le_zero.1 hn)
  | cons e es ih =>
      simp only [RxState.run, Option.bind_eq_some] at h
      obtain ⟨s₁, h₁, h₂⟩ := h
      obtain ⟨hinv₁, hexit₁⟩ := hinv.stepEvent h₁
      refine ih hinv₁ (hexit₁ hexit) h₂ ?_
      cases e with
      | user =>
          cases h₁
          have := exitBound_step hinv.bounded fun _ => hexit
          simp only [List.countP_cons, RxEvent.isUser, if_true] at hn
          omega
      | kernelRx len => simpa [exitBound_kernelRx h₁, RxEvent.isUser] using hn
      | setExit => cases h₁; simpa [RxEvent.isUser] using hn

/-- **`rx_loop` obeys its exit flag.**  In every state of every interleaving of the loop
with the kernel's receive and the flag's store, the loop is past its `break` only if the
flag is set; and from such a state with the flag set, every further interleaving in which
the loop takes `2 * rx_size + 7` steps of its own leaves it past the `break`. -/
theorem rx_loop_obeys_exit {es : List RxEvent} (h : (init cfg).run cfg es = some s) :
    (s.pc = .exited → s.exit = true) ∧
      (s.exit = true → ∀ (es' : List RxEvent) (s' : RxState), s.run cfg es' = some s' →
        2 * cfg.rxSize + 7 ≤ es'.countP RxEvent.isUser → s'.pc = .exited) := by
  have hinv := (exitInv_init cfg).run h
  refine ⟨hinv.exited, fun hexit es' s' h' hn => exited_of_run hinv hexit h' ?_⟩
  have := exitBound_le hinv.bounded
  rw [hinv.fillSize, hinv.rxSize] at this
  omega

/-- The demo queue, told to exit after it drained its packet. -/
theorem rx_loop_exits_after_flag :
    ∃ s, (init rxDemoConfig).run rxDemoConfig (rxDemoEvents ++ [.setExit]) = some s ∧
      s.exit = true ∧ (s.pc = .exited → s.exit = true) ∧
      ∀ (es' : List RxEvent) (s' : RxState), s.run rxDemoConfig es' = some s' →
        2 * rxDemoConfig.rxSize + 7 ≤ es'.countP RxEvent.isUser → s'.pc = .exited := by
  obtain ⟨s, hs⟩ : ∃ s, (init rxDemoConfig).run rxDemoConfig
      (rxDemoEvents ++ [RxEvent.setExit]) = some s := ⟨_, rfl⟩
  have hexit : s.exit = true := by cases hs; rfl
  exact ⟨s, hs, hexit, (rx_loop_obeys_exit hs).1, (rx_loop_obeys_exit hs).2 hexit⟩

/-! ## A turn alone -/

/-- `n` steps of the loop with nothing between them. -/
theorem run_replicate_user (s : RxState) (n : Nat) :
    s.run cfg (List.replicate n .user) = some (step^[n] s) := by
  induction n generalizing s with
  | zero => rfl
  | succ n ih => exact ih s.step

theorem iterate_exit (s : RxState) (n : Nat) : (step^[n] s).exit = s.exit := by
  induction n with
  | zero => rfl
  | succ n ih => rw [Function.iterate_succ_apply', (step_frame _).2.2, ih]

/-- **Alone, the loop reaches the top of its loop**, or its end, within `exitBound` steps. -/
theorem iterate_top : ∀ (b : Nat) (s : RxState), RxBounded s → s.exitBound ≤ b →
    ∃ n ≤ s.exitBound, (step^[n] s).pc = .top ∨ (step^[n] s).pc = .exited
  | 0, s, _, hb => ⟨0, Nat.zero_le _, .inr (exitBound_eq_zero (Nat.le_zero.1 hb))⟩
  | b + 1, s, hbd, hb => by
      by_cases hpc : s.pc = .top ∨ s.pc = .exited
      · exact ⟨0, Nat.zero_le _, hpc⟩
      · rw [not_or] at hpc
        have hstep := exitBound_step hbd fun h => absurd h hpc.1
        have hpos : s.exitBound ≠ 0 := fun h => hpc.2 (exitBound_eq_zero h)
        obtain ⟨n, hn, h⟩ := iterate_top b s.step hbd.step (by omega)
        exact ⟨n + 1, by omega, h⟩

/-- **The drain loop** reads every descriptor the last sync showed, one a step, and then
goes to `rx_ring.commit()`; of RX only the read count changes. -/
theorem iterate_drainRx : ∀ (vis : List Desc) (s : RxState), s.pc = .drainRx →
    s.rx.visible = vis → ∃ umem rxPackets rxBytes, step^[vis.length + 1] s =
      { s with
        pc := .commitRx, umem := umem, rxPackets := rxPackets, rxBytes := rxBytes
        rx := { s.rx with visible := [], readUncommitted := s.rx.readUncommitted + vis.length } }
  | [], s, hpc, hv => by
      refine ⟨s.umem, s.rxPackets, s.rxBytes, ?_⟩
      obtain ⟨pc, umem, fill, ⟨size, visible, unseen, ru⟩, exit, pk, bytes⟩ := s
      subst hv
      simp only at hpc
      subst hpc
      rfl
  | d :: vis, s, hpc, hv => by
      have hread : s.rx.read =
          some (d, { s.rx with visible := vis, readUncommitted := s.rx.readUncommitted + 1 }) := by
        simp [ConsRing.read, hv]
      have hstep : s.step =
          { s with
            rx := { s.rx with visible := vis, readUncommitted := s.rx.readUncommitted + 1 }
            umem := d.addr :: s.umem, rxPackets := s.rxPackets + 1
            rxBytes := s.rxBytes + UInt64.ofNat d.len } := by
        simp only [RxState.step, hpc, hread]
      obtain ⟨umem, pk, bytes, h⟩ := iterate_drainRx vis s.step (by rw [hstep]; exact hpc)
        (by rw [hstep])
      refine ⟨umem, pk, bytes, ?_⟩
      rw [List.length_cons, Function.iterate_succ_apply, h, hstep]
      simp only [RxState.mk.injEq, ConsRing.mk.injEq, true_and, and_true]
      omega

/-- **The refill loop** writes free frames to Fill, one a step, until Fill has no free slot
or no frame is free, and then goes to `fill.commit()`. -/
theorem iterate_refill : ∀ (k : Nat) (s : RxState), s.pc = .refill → s.fill.available ≤ k →
    ∃ n ≤ k, ∃ umem fill,
      step^[n + 1] s = { s with pc := .commitFill, umem := umem, fill := fill } ∧
      fill.size = s.fill.size ∧ fill.consumedUnseen = s.fill.consumedUnseen ∧
      (fill.available = 0 ∨ umem = [])
  | k, s, hpc, hk => by
      have hstep : s.step = s.fillStep .commitFill := by simp only [RxState.step, hpc]
      rcases fillStep_eq s .commitFill with ⟨hend, h⟩ | ⟨f, rest, fill, -, hw, h⟩
      · exact ⟨0, Nat.zero_le _, s.umem, s.fill, by rw [Function.iterate_one, hstep, h],
          rfl, rfl, hend⟩
      · obtain ⟨hav, hsize, hcu⟩ := ProdRing.write_available hw
        obtain ⟨n, hn, umem, fill', h', hsize', hcu', hend⟩ :=
          iterate_refill (k - 1) { s with umem := rest, fill := fill } hpc (by simp; omega)
        refine ⟨n + 1, by omega, umem, fill', ?_, hsize'.trans hsize, hcu'.trans hcu, hend⟩
        rw [Function.iterate_succ_apply, hstep, h, h']
  termination_by k => k
  decreasing_by omega

/-- The kernel can receive when Fill has a committed frame and RX a free slot. -/
theorem kernelRx_isSome {len : Nat} (hlen : len ≤ cfg.frameSize) (hfill : s.fill.committed ≠ [])
    (hrx : s.rx.visible.length + s.rx.unseen.length + s.rx.readUncommitted < s.rx.size) :
    (s.kernelRx cfg len).isSome := by
  obtain ⟨f, rest, hc⟩ := List.exists_cons_of_ne_nil hfill
  simp [kernelRx, hlen, ProdRing.consume, hc, ConsRing.produce, hrx]

/-- A ring with no free slot after a `sync` holds an entry, committed once `commit` runs. -/
theorem ProdRing.commit_committed_ne_nil {r : ProdRing Nat} (hfull : r.available = 0)
    (hcu : r.consumedUnseen = 0) (hsize : 0 < r.size) : r.commit.committed ≠ [] := by
  intro h
  rw [ProdRing.commit_committed, List.append_eq_nil] at h
  unfold ProdRing.available at hfull
  rw [h.1, h.2, hcu, List.length_nil] at hfull
  omega

/-- With no free frame and RX empty, the frames of the UMEM are all on Fill. -/
theorem RxInv.fill_entries_ne_nil {t : RxState} (h : RxInv cfg t) (hrx : 0 < cfg.rxSize)
    (humem : t.umem = []) (hrxe : t.rx.entries = []) : t.fill.entries ≠ [] := by
  intro hfill
  have hlen := h.places.length_eq
  simp only [RxState.places, humem, hfill, hrxe, List.map_nil, List.append_nil,
    List.length_nil, umemFrames, List.length_map, List.length_range, RxConfig.frameCount] at hlen
  omega

/-- **A turn alone**: from the top of the loop with the flag clear, within
`2 * rx_size + 7` steps the loop comes back to the top with RX empty and every slot handed
back, and with a committed frame on Fill. -/
theorem turn_from_top (hrx : 0 < cfg.rxSize) (hinv : ExitInv cfg s) (hrinv : RxInv cfg s)
    (hpc : s.pc = .top) (hexit : s.exit = false) :
    ∃ n ≤ 2 * cfg.rxSize + 7, (step^[n] s).rx.visible = [] ∧ (step^[n] s).rx.unseen = [] ∧
      (step^[n] s).rx.readUncommitted = 0 ∧ (step^[n] s).rx.size = cfg.rxSize ∧
      (step^[n] s).fill.committed ≠ [] := by
  -- the load of the flag and `rx_ring.sync`
  have h₂ : step^[2] s = { s with rx := s.rx.sync, pc := .drainRx } := by
    simp [RxState.step, hpc, hexit]
  have hvis : (s.rx.visible ++ s.rx.unseen).length ≤ cfg.rxSize := by
    have := hinv.bounded.rx
    unfold ConsRing.Bounded at this
    rw [List.length_append, ← hinv.rxSize]
    omega
  -- the drain, `rx_ring.commit` and `fill.sync`
  obtain ⟨umem, pk, bytes, h₃⟩ :=
    iterate_drainRx (s.rx.visible ++ s.rx.unseen) (step^[2] s) (by rw [h₂]) (by rw [h₂]; rfl)
  have h₅ : step^[2] (step^[(s.rx.visible ++ s.rx.unseen).length + 1] (step^[2] s)) =
      { s with
        pc := .refill, umem := umem, rxPackets := pk, rxBytes := bytes, fill := s.fill.sync
        rx := { s.rx with visible := [], unseen := [], readUncommitted := 0 } } := by
    rw [h₃, h₂]
    rfl
  -- the refill
  have hav : s.fill.sync.available ≤ cfg.rxSize := hinv.fillSize ▸ Nat.sub_le _ _
  obtain ⟨n, hn, umem', fill, h₆, hsize, hcu, hend⟩ := iterate_refill cfg.rxSize
    (step^[2] (step^[(s.rx.visible ++ s.rx.unseen).length + 1] (step^[2] s))) (by rw [h₅])
    (by rw [h₅]; exact hav)
  rw [h₅] at hsize hcu
  dsimp only at hsize hcu
  -- `fill.commit`, back at the top
  refine ⟨1 + (n + 1) + 2 + ((s.rx.visible ++ s.rx.unseen).length + 1) + 2, by omega, ?_⟩
  have hfinal : RxInv cfg
      (step^[1 + (n + 1) + 2 + ((s.rx.visible ++ s.rx.unseen).length + 1) + 2] s) :=
    hrinv.run (run_replicate_user s _)
  have hturn : step^[1 + (n + 1) + 2 + ((s.rx.visible ++ s.rx.unseen).length + 1) + 2] s =
      { s with
        pc := .top, umem := umem', rxPackets := pk, rxBytes := bytes, fill := fill.commit
        rx := { s.rx with visible := [], unseen := [], readUncommitted := 0 } } := by
    have : step^[1 + (n + 1) + 2 + ((s.rx.visible ++ s.rx.unseen).length + 1) + 2] s =
        step (step^[n + 1] (step^[2]
          (step^[(s.rx.visible ++ s.rx.unseen).length + 1] (step^[2] s)))) := by
      simp only [Function.iterate_add_apply, Function.iterate_one]
    rw [this, h₆, h₅]
    rfl
  rw [hturn] at hfinal ⊢
  refine ⟨rfl, rfl, rfl, hinv.rxSize, ?_⟩
  -- Fill holds a committed frame: it has no free slot, or it holds every frame
  rcases hend with hfull | humem
  · exact ProdRing.commit_committed_ne_nil hfull (hcu.trans (ProdRing.sync_consumedUnseen _))
      (hsize.trans hinv.fillSize ▸ hrx)
  · simpa [ProdRing.entries] using hfinal.fill_entries_ne_nil hrx humem rfl

/-- **`rx_loop` never stalls.**  From every state of every interleaving of the loop with
the kernel's receive and the flag's store, with the flag clear, the loop alone reaches
within `4 * rx_size + 14` of its own steps a state where the kernel can receive a packet
of any length up to the frame size. -/
theorem rx_loop_never_stalls (hrx : 0 < cfg.rxSize) {es : List RxEvent}
    (h : (init cfg).run cfg es = some s) (hexit : s.exit = false) {len : Nat}
    (hlen : len ≤ cfg.frameSize) :
    ∃ n ≤ 4 * cfg.rxSize + 14, ∃ s', s.run cfg (List.replicate n .user) = some s' ∧
      (s'.kernelRx cfg len).isSome := by
  have hinv := (exitInv_init cfg).run h
  -- to the top of the loop
  obtain ⟨n₁, hn₁, htop⟩ := iterate_top _ s hinv.bounded le_rfl
  have hexit₁ : (step^[n₁] s).exit = false := (iterate_exit s n₁).trans hexit
  have hinv₁ := hinv.run (run_replicate_user s n₁)
  have htop₁ : (step^[n₁] s).pc = .top :=
    htop.resolve_right fun he => by simp [hinv₁.exited he] at hexit₁
  -- and one turn
  obtain ⟨n₂, hn₂, hv, hu, hr, hsize, hfill⟩ := turn_from_top hrx hinv₁
    (((rxInv_init cfg).run h).run (run_replicate_user s n₁)) htop₁ hexit₁
  have hb := exitBound_le hinv.bounded
  rw [hinv.fillSize, hinv.rxSize] at hb
  refine ⟨n₂ + n₁, by omega, _, run_replicate_user s _, ?_⟩
  rw [Function.iterate_add_apply]
  exact kernelRx_isSome hlen hfill (by rw [hv, hu, hr, hsize]; simpa using hrx)

/-- The demo queue after it drained its packet, with the flag clear. -/
theorem rx_loop_never_stalls_demo :
    0 < rxDemoConfig.rxSize ∧
      ∃ s, (init rxDemoConfig).run rxDemoConfig rxDemoEvents = some s ∧ s.exit = false ∧
        ∃ n ≤ 4 * rxDemoConfig.rxSize + 14, ∃ s',
          s.run rxDemoConfig (List.replicate n .user) = some s' ∧
          (s'.kernelRx rxDemoConfig 60).isSome := by
  obtain ⟨s, hs⟩ : ∃ s, (init rxDemoConfig).run rxDemoConfig rxDemoEvents = some s :=
    ⟨_, rfl⟩
  have hexit : s.exit = false := by cases hs; rfl
  exact ⟨by decide, s, hs, hexit, rx_loop_never_stalls (by decide) hs hexit (by decide)⟩

end RxState

end ShredRelay
