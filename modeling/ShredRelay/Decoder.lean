import ShredRelay.Reassembly.Local
import ShredRelay.Reassembly.Reference
import ShredRelay.Counter

/-!
# The shred decoder

`examples/shred_processor.rs` turns UDP payloads into shreds and hands them to a
reassembler.  `process_shred_ref` takes a payload whose type the relay has already read
with `parse_shred_type`, for any reassembler behind `DeshredTrait`; `process_shred`, the
older path, checks the length itself and feeds a `DeshredManager`, which it cleans up
after every thousandth decoded shred; `decoder_worker` runs `process_shred` over the
packets of a channel until it closes.  Both count what they see in `ShredStats`.

## Design notes

**The library decoder.**  `Shred::new_from_serialized_shred` is library code: it is the
parameter `newFromSerializedShred`, and its error, which is only logged, is `none`.  As for
`deshred` and `deserialize`, every theorem holds for any decoder.

**The counters.**  Each counter is an `AtomicUsize` and `fetch_add` wraps, so they are
`UInt64`s, and what they count holds modulo `2 ^ 64` (`Counter.lean`).  The two sums
`received = decoded + errors` and `data_shreds + code_shreds = decoded` hold exactly, in the
counters' own wrapping arithmetic.

**What is left out.**  `code_drops` is written by nothing in the repository.  The log lines, with the
timestamps, addresses and signatures they print, are left out; the output of `add_shred`,
which the `deshred` line prints, is returned instead.

## Main results

* `StatsInv.counted`: each packet keeps `received = decoded + errors` and
  `data_shreds + code_shreds = decoded`.
* `decoderWorker_stats`: the worker's counters, for any packets: one `received` per
  packet, one `decoded` per shred `parse_shred` returns, split by type, and one `errors`
  per other packet, modulo `2 ^ 64`; and the two sums.
* `decoder_emits_first_segment`: every payload the worker emits for a slot is `deshred`
  of that slot's first canonical segment of the decoded shreds, cleanups included.
-/

namespace ShredRelay

/-- `ShredStats`, without `code_drops`, which nothing in the repository writes. -/
structure ShredStats where
  received : UInt64
  decoded : UInt64
  errors : UInt64
  dataShreds : UInt64
  codeShreds : UInt64
  deriving DecidableEq, Repr

namespace ShredStats

/-- `ShredStats::new`. -/
def new : ShredStats := ⟨0, 0, 0, 0, 0⟩

/-- The `match` on the shred type after a decode: `data_shreds` or `code_shreds` goes up. -/
def countType (stats : ShredStats) : ShredType → ShredStats
  | .data => { stats with dataShreds := stats.dataShreds + 1 }
  | .code => { stats with codeShreds := stats.codeShreds + 1 }

/-- What one packet does to the counters. -/
inductive Counted (stats : ShredStats) : ShredStats → Prop
  /-- A packet dropped as malformed. -/
  | error : Counted stats { stats with received := stats.received + 1, errors := stats.errors + 1 }
  /-- A packet decoded into a shred of type `t`. -/
  | decoded (t : ShredType) : Counted stats
      (({ stats with received := stats.received + 1, decoded := stats.decoded + 1 }).countType t)

/-- **The counters add up**: every packet received was decoded or counted as an error,
and every decoded one was counted under one type. -/
structure StatsInv (stats : ShredStats) : Prop where
  received : stats.received = stats.decoded + stats.errors
  types : stats.dataShreds + stats.codeShreds = stats.decoded

theorem statsInv_new : StatsInv new := ⟨rfl, rfl⟩

variable {stats stats' : ShredStats}

theorem StatsInv.counted (hinv : StatsInv stats) (h : stats.Counted stats') : StatsInv stats' := by
  obtain ⟨hr, ht⟩ := hinv
  cases h with
  | error => exact ⟨by dsimp only; rw [hr, add_assoc], ht⟩
  | decoded t =>
      have hr' : stats.received + 1 = stats.decoded + 1 + stats.errors := by
        rw [hr, add_right_comm]
      cases t
      · exact ⟨hr', by dsimp only [countType]; rw [← ht, add_right_comm]⟩
      · exact ⟨hr', by dsimp only [countType]; rw [← ht, add_assoc]⟩

end ShredStats

open ShredStats

/-- `PacketDataRef`: the UDP payload and the type the relay read from it with
`parse_shred_type`.  Its other fields are only logged. -/
structure PacketDataRef where
  payload : List UInt8
  shredType : Option ShredType

/-- `PacketData`: the UDP payload.  Its other fields are only logged. -/
structure PacketData where
  payload : List UInt8

section Decode

variable (newFromSerializedShred : List UInt8 → Option Shred)

/-- `process_shred_ref(packet, stats, deshred_mgr)`, for a reassembler whose
`DeshredTrait::add_shred` is `addShred`: the counters, the reassembler, and what
`add_shred` emitted. -/
def processShredRef {T O : Type} (addShred : T → Shred → Except Panic (Option O × T))
    (packet : PacketDataRef) (stats : ShredStats) (mgr : T) :
    Except Panic (ShredStats × T × Option O) :=
  let stats := { stats with received := stats.received + 1 }
  match packet.shredType with
  | none => .ok ({ stats with errors := stats.errors + 1 }, mgr, none)
  | some t =>
      match newFromSerializedShred packet.payload with
      | some shred =>
          let stats := ({ stats with decoded := stats.decoded + 1 }).countType t
          (addShred mgr shred).map fun r => (stats, r.2, r.1)
      | none => .ok ({ stats with errors := stats.errors + 1 }, mgr, none)

/-- `parse_shred(data)`. -/
def parseShred (data : List UInt8) : Option Shred :=
  if data.length < 83 then none else newFromSerializedShred data

/-- The shreds `parse_shred` returns for a sequence of packets. -/
def decodedShreds (packets : List PacketData) : List Shred :=
  packets.filterMap fun p => parseShred newFromSerializedShred p.payload

variable {E : Type} (deshred : List Shred → Option (List UInt8))
  (deserialize : List UInt8 → Option E)

/-- `process_shred(packet, stats, deshred_mgr)`: the counters, the manager, and what
`add_shred` emitted. -/
def processShred (packet : PacketData) (stats : ShredStats) (mgr : DeshredManager) :
    ShredStats × DeshredManager × Option (Nat × E × List UInt8) :=
  let stats := { stats with received := stats.received + 1 }
  match parseShred newFromSerializedShred packet.payload with
  | some shred =>
      let stats := ({ stats with decoded := stats.decoded + 1 }).countType shred.shredType
      let slot := shred.slot
      let r := mgr.addShred deshred deserialize shred
      let mgr := if stats.decoded % 1000 = 0 then r.2.cleanupOldSlots slot 50 else r.2
      (stats, mgr, r.1)
  | none => ({ stats with errors := stats.errors + 1 }, mgr, none)

/-- The `loop` of `decoder_worker` over the packets the channel delivers before it closes,
with every output of `add_shred` in order. -/
def workerLoop : List PacketData → ShredStats → DeshredManager →
    ShredStats × DeshredManager × List (Nat × E × List UInt8)
  | [], stats, mgr => (stats, mgr, [])
  | p :: ps, stats, mgr =>
      let r := processShred newFromSerializedShred deshred deserialize p stats mgr
      let rest := workerLoop ps r.1 r.2.1
      (rest.1, rest.2.1, r.2.2.toList ++ rest.2.2)

/-- `decoder_worker(rx, stats)`: the loop, over a `DeshredManager` of its own. -/
def decoderWorker (packets : List PacketData) (stats : ShredStats) :
    ShredStats × List (Nat × E × List UInt8) :=
  let r := workerLoop newFromSerializedShred deshred deserialize packets stats DeshredManager.new
  (r.1, r.2.2)

end Decode

/-! ## The counters -/

section Counters

variable {newFromSerializedShred : List UInt8 → Option Shred}

/-- **What `process_shred_ref` does**: a packet the prescan rejected or the library cannot
decode is counted as an error and leaves the reassembler alone; any other is counted as
decoded, under the prescan's type, and handed to `add_shred`. -/
theorem processShredRef_eq_ok {T O : Type} {addShred : T → Shred → Except Panic (Option O × T)}
    {packet : PacketDataRef} {stats stats' : ShredStats} {mgr mgr' : T} {out : Option O}
    (h : processShredRef newFromSerializedShred addShred packet stats mgr = .ok (stats', mgr', out)) :
    (stats' = { stats with received := stats.received + 1, errors := stats.errors + 1 } ∧
        mgr' = mgr ∧ out = none) ∨
      ∃ t shred, packet.shredType = some t ∧ newFromSerializedShred packet.payload = some shred ∧
        addShred mgr shred = .ok (out, mgr') ∧
        stats' = ({ stats with received := stats.received + 1, decoded := stats.decoded + 1 }).countType t := by
  unfold processShredRef at h
  split at h
  · cases h; exact .inl ⟨rfl, rfl, rfl⟩
  · rename_i t ht
    split at h
    · rename_i shred hs
      cases ha : addShred mgr shred with
      | error e => rw [ha] at h; cases h
      | ok r =>
          rw [ha] at h
          cases h
          exact .inr ⟨t, shred, ht, hs, ha, rfl⟩
    · cases h; exact .inl ⟨rfl, rfl, rfl⟩

variable {E : Type} {deshred : List Shred → Option (List UInt8)}
  {deserialize : List UInt8 → Option E}

/-- What `process_shred` does to the counters. -/
theorem processShred_stats (p : PacketData) (stats : ShredStats) (mgr : DeshredManager) :
    (processShred newFromSerializedShred deshred deserialize p stats mgr).1 =
      match parseShred newFromSerializedShred p.payload with
      | some shred =>
          ({ stats with received := stats.received + 1, decoded := stats.decoded + 1 }).countType
            shred.shredType
      | none => { stats with received := stats.received + 1, errors := stats.errors + 1 } := by
  unfold processShred
  split <;> rfl

theorem processShred_counted (p : PacketData) (stats : ShredStats) (mgr : DeshredManager) :
    stats.Counted (processShred newFromSerializedShred deshred deserialize p stats mgr).1 := by
  rw [processShred_stats]
  split
  exacts [.decoded _, .error]

/-- The counters of the loop, for any counters it starts from: each goes up, modulo
`2 ^ 64`, by what it counts. -/
theorem workerLoop_stats (ps : List PacketData) (stats : ShredStats) (mgr : DeshredManager) :
    let stats' := (workerLoop newFromSerializedShred deshred deserialize ps stats mgr).1
    let xs := decodedShreds newFromSerializedShred ps
    stats'.received.toNat = (stats.received.toNat + ps.length) % 2 ^ 64 ∧
      stats'.decoded.toNat = (stats.decoded.toNat + xs.length) % 2 ^ 64 ∧
      stats'.errors.toNat = (stats.errors.toNat + (ps.length - xs.length)) % 2 ^ 64 ∧
      stats'.dataShreds.toNat =
        (stats.dataShreds.toNat + (xs.filter (·.shredType == .data)).length) % 2 ^ 64 ∧
      stats'.codeShreds.toNat =
        (stats.codeShreds.toNat + (xs.filter (·.shredType == .code)).length) % 2 ^ 64 := by
  induction ps generalizing stats mgr with
  | nil =>
      simp only [workerLoop, decodedShreds, List.filterMap_nil, List.filter_nil, List.length_nil,
        Nat.add_zero, Nat.sub_zero, toNat_mod_two_pow, and_self]
  | cons p ps ih =>
      have hle := List.length_filterMap_le (fun p => parseShred newFromSerializedShred p.payload) ps
      obtain ⟨h₁, h₂, h₃, h₄, h₅⟩ := ih (processShred newFromSerializedShred deshred deserialize
        p stats mgr).1 (processShred newFromSerializedShred deshred deserialize p stats mgr).2.1
      simp only [workerLoop]
      rw [h₁, h₂, h₃, h₄, h₅]
      clear h₁ h₂ h₃ h₄ h₅
      simp only [processShred_stats, decodedShreds, List.filterMap_cons, List.length_cons]
      cases hp : parseShred newFromSerializedShred p.payload with
      | none => refine ⟨?_, ?_, ?_, ?_, ?_⟩ <;> simp only [toNat_add_one] <;> omega
      | some x =>
          cases hx : x.shredType <;> refine ⟨?_, ?_, ?_, ?_, ?_⟩ <;>
            simp only [countType, hx, toNat_add_one, List.filter_cons, List.length_cons,
              beq_self_eq_true, if_true, reduceCtorEq, beq_iff_eq, if_false] <;> omega

theorem ShredStats.StatsInv.workerLoop (hinv : StatsInv stats) (ps : List PacketData)
    (mgr : DeshredManager) :
    StatsInv (workerLoop newFromSerializedShred deshred deserialize ps stats mgr).1 := by
  induction ps generalizing stats mgr with
  | nil => exact hinv
  | cons p ps ih => exact ih (hinv.counted (processShred_counted p stats mgr)) _

/-- **The worker's counters**: when the channel closes, `received` counts the packets,
`decoded` the shreds `parse_shred` returned, split by type into `data_shreds` and
`code_shreds`, and `errors` the other packets, each modulo `2 ^ 64`; and in the counters'
wrapping arithmetic `received = decoded + errors` and `data_shreds + code_shreds =
decoded`. -/
theorem decoderWorker_stats (ps : List PacketData) :
    let stats := (decoderWorker newFromSerializedShred deshred deserialize ps ShredStats.new).1
    let xs := decodedShreds newFromSerializedShred ps
    stats.received.toNat = ps.length % 2 ^ 64 ∧ stats.decoded.toNat = xs.length % 2 ^ 64 ∧
      stats.errors.toNat = (ps.length - xs.length) % 2 ^ 64 ∧
      stats.dataShreds.toNat = (xs.filter (·.shredType == .data)).length % 2 ^ 64 ∧
      stats.codeShreds.toNat = (xs.filter (·.shredType == .code)).length % 2 ^ 64 ∧
      stats.received = stats.decoded + stats.errors ∧
      stats.dataShreds + stats.codeShreds = stats.decoded := by
  have hinv : StatsInv (workerLoop newFromSerializedShred deshred deserialize ps ShredStats.new
      DeshredManager.new).1 := statsInv_new.workerLoop ps DeshredManager.new
  obtain ⟨h₁, h₂, h₃, h₄, h₅⟩ := @workerLoop_stats newFromSerializedShred E deshred deserialize ps
    ShredStats.new DeshredManager.new
  simp only [ShredStats.new, UInt64.toNat_zero, Nat.zero_add] at h₁ h₂ h₃ h₄ h₅
  exact ⟨h₁, h₂, h₃, h₄, h₅, hinv.received, hinv.types⟩

end Counters

/-! ## What the worker emits -/

namespace DeshredManager

variable {E : Type} {deshred : List Shred → Option (List UInt8)} {xs : List Shred}
  {m : DeshredManager} {outs : List (Nat × E × List UInt8)}

/-- A cleanup only drops slots, and a dropped slot starts again from a fresh state. -/
theorem RefInv.cleanupOldSlots (hinv : RefInv deshred xs m outs) (currentSlot lookback : Nat) :
    RefInv deshred xs (m.cleanupOldSlots currentSlot lookback) outs where
  slots s st h := by
    simp only [DeshredManager.cleanupOldSlots] at h
    split at h
    · exact hinv.slots s st h
    · cases h
  payloads := hinv.payloads

variable {newFromSerializedShred : List UInt8 → Option Shred}
  (deserialize : List UInt8 → Option E)

theorem RefInv.processShred (hinv : RefInv deshred xs m outs) (p : PacketData)
    (stats : ShredStats)
    (hcons : Consistent (xs ++ (parseShred newFromSerializedShred p.payload).toList)) :
    let r := ShredRelay.processShred newFromSerializedShred deshred deserialize p stats m
    RefInv deshred (xs ++ (parseShred newFromSerializedShred p.payload).toList) r.2.1
      (outs ++ r.2.2.toList) := by
  unfold ShredRelay.processShred
  cases hp : parseShred newFromSerializedShred p.payload with
  | none => simpa using hinv
  | some x =>
      rw [hp] at hcons
      have hadd : RefInv deshred (xs ++ [x]) (m.addShred deshred deserialize x).2
          (outs ++ (m.addShred deshred deserialize x).1.toList) := hinv.addShred x hcons
      dsimp only
      split
      · exact hadd.cleanupOldSlots _ _
      · exact hadd

theorem RefInv.workerLoop (hinv : RefInv deshred xs m outs) (ps : List PacketData)
    (stats : ShredStats) (hcons : Consistent (xs ++ decodedShreds newFromSerializedShred ps)) :
    let r := ShredRelay.workerLoop newFromSerializedShred deshred deserialize ps stats m
    RefInv deshred (xs ++ decodedShreds newFromSerializedShred ps) r.2.1 (outs ++ r.2.2) := by
  induction ps generalizing xs m outs stats with
  | nil => simpa [ShredRelay.workerLoop, decodedShreds] using hinv
  | cons p ps ih =>
      have hsplit : decodedShreds newFromSerializedShred (p :: ps) =
          (parseShred newFromSerializedShred p.payload).toList ++
            decodedShreds newFromSerializedShred ps := by
        simp only [decodedShreds, List.filterMap_cons]
        cases parseShred newFromSerializedShred p.payload <;> rfl
      rw [hsplit, ← List.append_assoc] at hcons ⊢
      have h₁ := hinv.processShred deserialize p stats
        (hcons.of_subset fun z hz => List.mem_append_left _ hz)
      simpa [ShredRelay.workerLoop] using ih h₁ _ hcons

end DeshredManager

/-- **The decoder worker only ever emits a slot's first segment.**  For any library
decoder, deshredder and deserializer, when data shreds of one slot and index are copies of
each other, every payload the worker emits for a slot is `deshred` of that slot's first
canonical segment of the decoded shreds, whatever the cleanups dropped. -/
theorem decoder_emits_first_segment {E : Type} (newFromSerializedShred : List UInt8 → Option Shred)
    (deshred : List Shred → Option (List UInt8)) (deserialize : List UInt8 → Option E)
    (ps : List PacketData) (stats : ShredStats)
    (hcons : Consistent (decodedShreds newFromSerializedShred ps)) (s : Nat) :
    ∀ p ∈ payloadsOf s (decoderWorker newFromSerializedShred deshred deserialize ps stats).2,
      ∃ seg, (Canonical.segments (slotHistory s (decodedShreds newFromSerializedShred ps))).head? =
        some seg ∧ deshred seg = some p := by
  intro p hp
  have hinv := (DeshredManager.refInv_new deshred).workerLoop deserialize ps stats
    (by simpa using hcons)
  obtain ⟨seg, e, hpeel, hdes⟩ := hinv.payloads s p (by simpa [decoderWorker] using hp)
  obtain ⟨t, ht⟩ := (by simpa using hpeel.prefix :
    [seg] <+: Canonical.segments (slotHistory s (decodedShreds newFromSerializedShred ps)))
  exact ⟨seg, by rw [← ht]; rfl, hdes⟩

/-- A decoder that reads every payload as slot 0's index 0. -/
def soloDecoder (_ : List UInt8) : Option Shred := some DeshredManager.soloShred

theorem decoder_emits_first_segment_solo :
    Consistent (decodedShreds soloDecoder [⟨List.replicate 83 0⟩, ⟨[1]⟩]) ∧
      ∀ p ∈ payloadsOf 0 (decoderWorker soloDecoder Shredder.deshred
          (some : List UInt8 → Option (List UInt8)) [⟨List.replicate 83 0⟩, ⟨[1]⟩] ShredStats.new).2,
        ∃ seg, (Canonical.segments (slotHistory 0
          (decodedShreds soloDecoder [⟨List.replicate 83 0⟩, ⟨[1]⟩]))).head? = some seg ∧
          Shredder.deshred seg = some p :=
  have hcons : Consistent (decodedShreds soloDecoder [⟨List.replicate 83 0⟩, ⟨[1]⟩]) := by
    unfold Consistent; decide
  ⟨hcons, decoder_emits_first_segment _ _ _ _ _ hcons 0⟩

end ShredRelay
