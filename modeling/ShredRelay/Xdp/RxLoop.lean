import ShredRelay.Xdp.Commits

/-!
# The receive-only datapath

`rx_loop` (`src/rx_loop.rs`) opens an RX-only socket whose Fill and RX rings have
`rx_size` entries over `rx_size * 2` frames.  It fills Fill from the UMEM free pool, then
loops until the exit flag is set: it syncs RX, counts every received descriptor in its
statistics and releases the frame to the free pool, commits RX, syncs Fill, refills it
and commits it.

## Design notes

**Steps.**  As for `relay_loop`, `RxState.step` is one ring operation and `RxState.run`
feeds any interleaving with the kernel's receive and with the exit flag being set.  The
pre-fill and the refill are the same loop, `fillStep`; unlike `relay_loop`'s pre-fill it
releases the frame when `fill.write` fails.  The kernel's receive does not write packet
bytes here: `rx_loop` never reads them.

## Main results

* `RxInv.run`: in every reachable state the free pool, Fill and RX hold exactly the UMEM
  frames.
* `frames_owned_once`: each UMEM frame is in exactly one place in every reachable state
  of `relay_loop` and of `rx_loop`.
-/

namespace ShredRelay

/-- What `rx_loop` is started with: the page size and the queue's RX ring size. -/
structure RxConfig where
  frameSize : Nat
  rxSize : Nat

/-- `frame_count = rx_size * 2`. -/
def RxConfig.frameCount (cfg : RxConfig) : Nat := cfg.rxSize * 2

/-- Where `rx_loop` is. -/
inductive RxPc
  /-- The pre-fill loop, `while fill.available() > 0`. -/
  | prefill
  /-- The `fill.commit()` after it. -/
  | prefillCommit
  /-- Top of the main loop: `exit.load(..)`. -/
  | top
  /-- `rx_ring.sync(false)`. -/
  | syncRx
  /-- The loop over `rx_ring.read()`. -/
  | drainRx
  /-- `rx_ring.commit()`. -/
  | commitRx
  /-- `fill.sync(false)`. -/
  | syncFill
  /-- The refill loop. -/
  | refill
  /-- `fill.commit()`. -/
  | commitFill
  /-- After the `break`. -/
  | exited

/-- The rings, the UMEM free pool, the exit flag and `RxStats`, whose counters are
`AtomicUsize`s, 64 bits wide on the relay's targets: `fetch_add` wraps. -/
structure RxState where
  pc : RxPc
  umem : List Nat
  fill : ProdRing Nat
  rx : ConsRing Desc
  exit : Bool
  rxPackets : UInt64
  rxBytes : UInt64

namespace RxState

/-- After `Socket::rx`: every frame free, Fill and RX fresh with `rx_size` entries. -/
def init (cfg : RxConfig) : RxState where
  pc := .prefill
  umem := umemFrames cfg.frameSize cfg.frameCount
  fill := .empty cfg.rxSize
  rx := .empty cfg.rxSize
  exit := false
  rxPackets := 0
  rxBytes := 0

/-- One turn of `while fill.available() > 0 { reserve; write, releasing on Err }`, which
goes to `done` when it leaves the loop. -/
def fillStep (s : RxState) (done : RxPc) : RxState :=
  if s.fill.available > 0 then
    match reserveFrame s.umem with
    | none => { s with pc := done }
    | some (f, rest) =>
        match s.fill.write f with
        | none => { s with umem := f :: rest, pc := done }
        | some fill => { s with umem := rest, fill := fill }
  else { s with pc := done }

/-- One step of `rx_loop`. -/
def step (s : RxState) : RxState :=
  match s.pc with
  | .prefill => s.fillStep .prefillCommit
  | .prefillCommit => { s with fill := s.fill.commit, pc := .top }
  | .top => if s.exit then { s with pc := .exited } else { s with pc := .syncRx }
  | .syncRx => { s with rx := s.rx.sync, pc := .drainRx }
  | .drainRx =>
      match s.rx.read with
      | none => { s with pc := .commitRx }
      | some (d, rx) =>
          { s with
            rx := rx
            umem := d.addr :: s.umem
            rxPackets := s.rxPackets + 1
            rxBytes := s.rxBytes + UInt64.ofNat d.len }
  | .commitRx => { s with rx := s.rx.commit, pc := .syncFill }
  | .syncFill => { s with fill := s.fill.sync, pc := .refill }
  | .refill => s.fillStep .commitFill
  | .commitFill => { s with fill := s.fill.commit, pc := .top }
  | .exited => s

/-- The kernel receives a packet of `len` bytes into the oldest committed Fill frame and
posts it on RX. -/
def kernelRx (cfg : RxConfig) (s : RxState) (len : Nat) : Option RxState :=
  if len ≤ cfg.frameSize then
    match s.fill.consume with
    | none => none
    | some (f, fill) =>
        match s.rx.produce ⟨f, len⟩ with
        | none => none
        | some rx => some { s with fill := fill, rx := rx }
  else none

end RxState

/-- A step of `rx_loop`, the kernel, or the thread that sets the exit flag. -/
inductive RxEvent
  | user
  | kernelRx (len : Nat)
  | setExit

namespace RxState

/-- One step; `none` when the kernel step is not enabled. -/
def stepEvent (cfg : RxConfig) (s : RxState) : RxEvent → Option RxState
  | .user => some s.step
  | .kernelRx len => s.kernelRx cfg len
  | .setExit => some { s with exit := true }

/-- Any interleaving of the loop with the kernel and the exit flag. -/
def run (cfg : RxConfig) (s : RxState) : List RxEvent → Option RxState
  | [] => some s
  | e :: es => (s.stepEvent cfg e).bind fun s' => s'.run cfg es

/-- The frames held by the free pool, Fill and RX. -/
def places (s : RxState) : List Nat := s.umem ++ s.fill.entries ++ s.rx.entries.map Desc.addr

theorem count_places (s : RxState) (f : Nat) :
    s.places.count f = s.umem.count f + s.fill.entries.count f +
      (s.rx.entries.map Desc.addr).count f := by
  simp [places, List.count_append, Nat.add_assoc]

/-! ## Every step moves frames, and loses none -/

/-- **The receive loop's frame invariant**: the places hold exactly the UMEM frames. -/
structure RxInv (cfg : RxConfig) (s : RxState) : Prop where
  places : s.places.Perm (umemFrames cfg.frameSize cfg.frameCount)

variable {cfg : RxConfig} {s s' : RxState}

theorem rxInv_init (cfg : RxConfig) : RxInv cfg (init cfg) where
  places := by simp [places, init, ProdRing.entries, ConsRing.entries, ProdRing.empty,
    ConsRing.empty]

/-- A turn of the fill loop moves at most one frame from the free pool to Fill. -/
theorem fillStep_places (s : RxState) (done : RxPc) : (s.fillStep done).places.Perm s.places := by
  refine List.perm_iff_count.2 fun g => ?_
  unfold fillStep
  split
  · split
    · rfl
    · rename_i f rest hres
      have humem := reserveFrame_eq_some hres
      split
      · simp [count_places, humem]
      · rename_i fill hw
        simp [count_places, humem, ProdRing.entries_of_write hw, List.count_append,
          List.count_cons]
        omega
  · rfl

theorem step_places (s : RxState) : s.step.places.Perm s.places := by
  unfold step
  split
  · exact fillStep_places s _
  · simp [places]
  · split <;> rfl
  · simp [places]
  · split
    · rfl
    · rename_i d rx hread
      refine List.perm_iff_count.2 fun g => ?_
      simp [count_places, ConsRing.entries_of_read hread, List.count_cons]
      omega
  · simp [places]
  · simp [places]
  · exact fillStep_places s _
  · simp [places]
  · rfl

/-- **What the kernel's receive does**: it takes the oldest committed Fill frame and posts
it on RX. -/
theorem kernelRx_eq_some {len : Nat} (h : s.kernelRx cfg len = some s') :
    ∃ f fill rx, s.fill.consume = some (f, fill) ∧ s.rx.produce ⟨f, len⟩ = some rx ∧
      s' = { s with fill := fill, rx := rx } := by
  unfold kernelRx at h
  split at h
  · split at h
    · cases h
    · rename_i f fill hc
      split at h
      · cases h
      · rename_i rx hp
        cases h
        exact ⟨f, fill, rx, hc, hp, rfl⟩
  · cases h

theorem RxInv.stepEvent {e : RxEvent} (hinv : RxInv cfg s) (h : s.stepEvent cfg e = some s') :
    RxInv cfg s' := by
  cases e with
  | user => cases h; exact ⟨(step_places s).trans hinv.places⟩
  | kernelRx len =>
      obtain ⟨f, fill, rx, hc, hp, rfl⟩ := kernelRx_eq_some h
      refine ⟨List.Perm.trans (List.perm_iff_count.2 fun g => ?_) hinv.places⟩
      simp [count_places, ProdRing.entries_of_consume hc, ConsRing.entries_of_produce hp,
        List.count_append, List.count_cons]
      omega
  | setExit => cases h; exact ⟨hinv.places⟩

theorem RxInv.run {es : List RxEvent} (hinv : RxInv cfg s) (h : s.run cfg es = some s') :
    RxInv cfg s' := by
  induction es generalizing s with
  | nil => cases h; exact hinv
  | cons e es ih =>
      simp only [RxState.run, Option.bind_eq_some] at h
      obtain ⟨s₁, h₁, h₂⟩ := h
      exact ih (hinv.stepEvent h₁) h₂

end RxState

/-! ## Both loops -/

/-- **Each UMEM frame is in exactly one place**, in every state of every interleaving of
`relay_loop` or `rx_loop` with the kernel. -/
theorem frames_owned_once :
    (∀ (cfg : RelayConfig) (es : List RelayEvent) (s : RelayState), 0 < cfg.frameSize →
      (RelayState.init cfg).run cfg es = some s → ∀ f,
        s.places.count f = if f ∈ umemFrames cfg.frameSize cfg.frameCount then 1 else 0) ∧
    (∀ (cfg : RxConfig) (es : List RxEvent) (s : RxState), 0 < cfg.frameSize →
      (RxState.init cfg).run cfg es = some s → ∀ f,
        s.places.count f = if f ∈ umemFrames cfg.frameSize cfg.frameCount then 1 else 0) :=
  ⟨fun _ _ _ hsize h => RelayState.relay_frames_owned_once hsize h,
    fun cfg _ _ hsize h f => by
      rw [((RxState.rxInv_init cfg).run h).places.count_eq,
        List.count_eq_of_nodup (nodup_umemFrames hsize _)]⟩

/-- A one-slot receive queue with 2048-byte frames. -/
def rxDemoConfig : RxConfig := ⟨2048, 1⟩

/-- Pre-fill, receive a 60-byte frame, and drain it. -/
def rxDemoEvents : List RxEvent := [.user, .user, .user, .kernelRx 60] ++ List.replicate 4 .user

theorem frames_owned_once_short_frame :
    (∃ s, (RelayState.init RelayState.shortFrameConfig).run RelayState.shortFrameConfig
        RelayState.shortFrameEvents = some s ∧ s.places.count 0 = 1) ∧
    (∃ s, (RxState.init rxDemoConfig).run rxDemoConfig rxDemoEvents = some s ∧
      s.places.count 0 = 1) :=
  ⟨⟨_, rfl, (frames_owned_once.1 RelayState.shortFrameConfig RelayState.shortFrameEvents _
      (by decide) rfl 0).trans (by decide)⟩,
    ⟨_, rfl, (frames_owned_once.2 rxDemoConfig rxDemoEvents _ (by decide) rfl 0).trans
      (by decide)⟩⟩

end ShredRelay
