import ShredRelay.Reassembly.Local

/-!
# The reference reassembler

`DeshredManager` (`examples/deshred.rs`) keeps a `SlotShreds` per slot in a hash map.  A
`SlotShreds` has two vectors of `MAX_DATA_SHREDS_PER_SLOT` entries, the status of each
data index (`Unknown`, `NotDataComplete`, `DataComplete`) and the data shred stored
there, and a list of code shreds.  `try_deshred` asks `find_complete_segment` for a range,
deshreds it and, on success, clears the range back to `None` and `Unknown`.

## Design notes

**Vectors as functions.**  Both vectors are functions on `Nat`.  The code writes them
only at an index below 32768, which `add_shred` checks, and `find_complete_segment` scans
only below that bound, so no read of the model leaves the vectors.  The slice
`data_shreds[start..=end]` is in bounds for the same reason (`findCompleteSegment_eq_some`),
and the reference reassembler has no panic to model.  The debug `eprintln!` lines and the
`SLOT_DEBUG_COUNTER` are left out.

**Where it parts from the canonical segments.**  `find_complete_segment` takes the
*first* `DataComplete` status and scans back over `NotDataComplete` ones, giving up at an
`Unknown` one.  Nothing before the first `DataComplete` is `DataComplete`, so the scan
can only end at index 0: the range is always `0 ..= e`.  Once it is emitted and cleared,
its statuses are `Unknown` again, so every later range has a gap at 0 until the shreds of
the first segment are re-sent, when the first segment is accepted and emitted again.

## Main results

* `findCompleteSegment_eq_some`: every range found is `0 ..= e`, with `e` the first
  `DataComplete` index and every index below it `NotDataComplete`.
* `SlotInv.tryDeshred_some`: when data shreds of one index are copies of each other, a
  payload `try_deshred` returns is `deshred` of the slot's first canonical segment.
* `RefInv.addShred`: every call keeps the relation, so every payload returned for a slot
  is `deshred` of that slot's first canonical segment (carried over the decoder's whole run
  in `decoder_emits_first_segment`).
* `reference_misses_second_segment`, `resent_shred_emitted_again`: the second segment of
  a slot is never emitted, where `DeshredManagerLocal` emits it, and a re-sent shred of an
  emitted segment is emitted again.
-/

namespace ShredRelay

/-- `MAX_DATA_SHREDS_PER_SLOT`. -/
def maxDataShredsPerSlot : Nat := 32768

/-- `ShredStatus`. -/
inductive ShredStatus
  | unknown
  | notDataComplete
  | dataComplete
  deriving DecidableEq, Repr

/-- `SlotShreds`.  `dataStatus` and `dataShreds` are the two vectors of
`MAX_DATA_SHREDS_PER_SLOT` entries. -/
structure SlotShreds where
  slot : Nat
  dataStatus : Nat → ShredStatus
  dataShreds : Nat → Option Shred
  codeShreds : List Shred

namespace SlotShreds

/-- `SlotShreds::new`. -/
def new (slot : Nat) : SlotShreds where
  slot := slot
  dataStatus := fun _ => .unknown
  dataShreds := fun _ => none
  codeShreds := []

/-- `SlotShreds::add_shred`: `true` when the shred is new. -/
def addShred (st : SlotShreds) (shred : Shred) : Bool × SlotShreds :=
  let index := shred.index
  match shred.shredType with
  | .data =>
      if index ≥ maxDataShredsPerSlot then (false, st)
      else if (st.dataShreds index).isSome then (false, st)
      else
        let isDataComplete := shred.dataComplete || shred.lastInSlot
        (true,
          { st with
            dataStatus := Function.update st.dataStatus index
              (if isDataComplete then .dataComplete else .notDataComplete)
            dataShreds := Function.update st.dataShreds index (some shred) })
  | .code =>
      if st.codeShreds.any (·.index == shred.index) then (false, st)
      else (true, { st with codeShreds := st.codeShreds ++ [shred] })

/-- `iter().position(p)` over the positions `i, i + 1, …, i + n - 1`. -/
def position (p : Nat → Bool) (i : Nat) : Nat → Option Nat
  | 0 => none
  | n + 1 => if p i then some i else position p (i + 1) n

/-- The backward scan of `find_complete_segment` from `end`: the start of the segment, or
`none` at a gap. -/
def scanBack (status : Nat → ShredStatus) : Nat → Option Nat
  | 0 => some 0
  | s + 1 =>
      match status s with
      | .dataComplete => some (s + 1)
      | .unknown => none
      | .notDataComplete => scanBack status s

/-- `SlotShreds::find_complete_segment`. -/
def findCompleteSegment (st : SlotShreds) : Option (Nat × Nat) :=
  match position (st.dataStatus · == .dataComplete) 0 maxDataShredsPerSlot with
  | none => none
  | some endIdx =>
      match scanBack st.dataStatus endIdx with
      | none => none
      | some start => some (start, endIdx)

/-- The clearing loop of `try_deshred` over `start ..= end`. -/
def clearSegment (st : SlotShreds) (start endIdx : Nat) : SlotShreds :=
  { st with
    dataShreds := fun i => if start ≤ i ∧ i ≤ endIdx then none else st.dataShreds i
    dataStatus := fun i => if start ≤ i ∧ i ≤ endIdx then .unknown else st.dataStatus i }

section Calls

variable {E : Type} (deshred : List Shred → Option (List UInt8))
  (deserialize : List UInt8 → Option E)

/-- `SlotShreds::try_deshred`: the entries and payload of the segment found, if any. -/
def tryDeshred (st : SlotShreds) : Option (E × List UInt8) × SlotShreds :=
  match st.findCompleteSegment with
  | none => (none, st)
  | some (start, endIdx) =>
      let shreds := (List.range' start (endIdx + 1 - start)).map st.dataShreds
      if shreds.any (·.isNone) then (none, st)
      else
        match deshred (shreds.filterMap id) with
        | none => (none, st)
        | some payload =>
            match deserialize payload with
            | none => (none, st)
            | some entries => (some (entries, payload), st.clearSegment start endIdx)

end Calls

/-! ## The search for a segment -/

theorem position_eq_some {p : Nat → Bool} {i n j : Nat} (h : position p i n = some j) :
    i ≤ j ∧ j < i + n ∧ p j = true ∧ ∀ k, i ≤ k → k < j → p k = false := by
  induction n generalizing i with
  | zero => cases h
  | succ n ih =>
      unfold position at h
      split at h
      · cases h
        exact ⟨le_rfl, by omega, ‹_›, fun k h₁ h₂ => by omega⟩
      · rename_i hpi
        obtain ⟨h₁, h₂, h₃, h₄⟩ := ih h
        refine ⟨by omega, by omega, h₃, fun k hk₁ hk₂ => ?_⟩
        rcases Nat.eq_or_lt_of_le hk₁ with rfl | hk₁
        · simpa using hpi
        · exact h₄ k hk₁ hk₂

/-- Below an `end` with no `DataComplete` status under it, the backward scan either meets a
gap or runs down to 0 over `NotDataComplete` statuses. -/
theorem scanBack_eq_some {status : Nat → ShredStatus} {e start : Nat}
    (h : scanBack status e = some start) (hdc : ∀ k < e, status k ≠ .dataComplete) :
    start = 0 ∧ ∀ k < e, status k = .notDataComplete := by
  induction e with
  | zero =>
      cases h
      exact ⟨rfl, fun k hk => absurd hk (Nat.not_lt_zero _)⟩
  | succ e ih =>
      unfold scanBack at h
      split at h
      · exact absurd ‹_› (hdc e (by omega))
      · cases h
      · rename_i hndc
        obtain ⟨rfl, hk⟩ := ih h fun k hk => hdc k (by omega)
        refine ⟨rfl, fun k hk' => ?_⟩
        rcases Nat.lt_succ_iff_lt_or_eq.1 hk' with hk' | rfl
        · exact hk k hk'
        · exact hndc

/-- **Every range found starts at 0**: it ends at the first `DataComplete` status, and
every status below it is `NotDataComplete`. -/
theorem findCompleteSegment_eq_some {st : SlotShreds} {start e : Nat}
    (h : st.findCompleteSegment = some (start, e)) :
    start = 0 ∧ e < maxDataShredsPerSlot ∧ st.dataStatus e = .dataComplete ∧
      ∀ k < e, st.dataStatus k = .notDataComplete := by
  unfold findCompleteSegment at h
  split at h
  · cases h
  · rename_i endIdx hpos
    split at h
    · cases h
    · rename_i s hscan
      cases h
      obtain ⟨-, hlt, hdc, hfirst⟩ := position_eq_some hpos
      obtain ⟨rfl, hndc⟩ := scanBack_eq_some hscan fun k hk => by
        simpa using hfirst k (Nat.zero_le _) hk
      exact ⟨rfl, by simpa using hlt, by simpa using hdc, hndc⟩

/-! ## What one call changes -/

variable {st : SlotShreds} {x : Shred}

/-- What a status entry records about the data shred stored beside it. -/
def statusOf : Option Shred → ShredStatus
  | none => .unknown
  | some x => if x.dataComplete then .dataComplete else .notDataComplete

/-- **What `add_shred` can do**: nothing, store a new data shred below 32768 with its
status, or append a new code shred. -/
theorem addShred_cases (st : SlotShreds) (x : Shred) :
    (st.addShred x).2 = st ∨
    (x.shredType = .data ∧ x.index < maxDataShredsPerSlot ∧ st.dataShreds x.index = none ∧
      (st.addShred x).1 = true ∧
      (st.addShred x).2 = { st with
        dataStatus := Function.update st.dataStatus x.index (statusOf (some x))
        dataShreds := Function.update st.dataShreds x.index (some x) }) ∨
    (x.shredType = .code ∧ (st.addShred x).2 = { st with codeShreds := st.codeShreds ++ [x] }) := by
  unfold addShred
  split
  · rename_i hdata
    dsimp only
    split
    · exact .inl rfl
    · split
      · exact .inl rfl
      · rename_i hlt hnone
        refine .inr (.inl ⟨hdata, by omega, by simpa using hnone, rfl, ?_⟩)
        simp [statusOf]
  · rename_i hcode
    dsimp only
    split
    · exact .inl rfl
    · exact .inr (.inr ⟨hcode, rfl⟩)

variable {E : Type} {deshred : List Shred → Option (List UInt8)}
  {deserialize : List UInt8 → Option E}

/-- **What an emission has checked**: the range `start ..= e` found, all of its data shreds
present and deshredded to the payload, and the range cleared. -/
theorem tryDeshred_some {r : E × List UInt8}
    (h : (st.tryDeshred deshred deserialize).1 = some r) :
    ∃ start e, st.findCompleteSegment = some (start, e) ∧
      (∀ k ∈ List.range' start (e + 1 - start), (st.dataShreds k).isSome) ∧
      deshred ((List.range' start (e + 1 - start)).filterMap st.dataShreds) = some r.2 ∧
      deserialize r.2 = some r.1 ∧
      (st.tryDeshred deshred deserialize).2 = st.clearSegment start e := by
  revert h
  unfold tryDeshred
  split
  · simp
  · rename_i start e hfind
    dsimp only
    split
    · simp
    · rename_i hall
      simp only [List.any_eq_true, List.mem_map, not_exists, not_and, Option.isNone_iff_eq_none,
        exists_exists_and_eq_and] at hall
      have hsome : ∀ k ∈ List.range' start (e + 1 - start), (st.dataShreds k).isSome :=
        fun k hk => Option.isSome_iff_ne_none.2 (hall k hk)
      rw [List.filterMap_map]
      split
      · simp
      · rename_i payload hdes
        split
        · simp
        · rename_i entries hent
          rintro ⟨⟩
          exact ⟨start, e, hfind, hsome, hdes, hent, rfl⟩

/-! ## The slot invariant -/

/-- **A slot state as the code keeps it.**  Each status records the data shred beside it,
and each stored data shred is one the slot received at its own index. -/
structure SlotInv (h : List Shred) (st : SlotShreds) : Prop where
  status : ∀ i, st.dataStatus i = statusOf (st.dataShreds i)
  stored : ∀ i y, st.dataShreds i = some y → y ∈ h ∧ y.shredType = .data ∧ y.index = i

theorem slotInv_new (h : List Shred) (slot : Nat) : SlotInv h (new slot) where
  status _ := rfl
  stored _ _ h := by cases h

variable {h : List Shred}

theorem SlotInv.append (hinv : SlotInv h st) (ys : List Shred) : SlotInv (h ++ ys) st where
  status := hinv.status
  stored i y hy := by
    obtain ⟨hmem, hrest⟩ := hinv.stored i y hy
    exact ⟨List.mem_append_left _ hmem, hrest⟩

theorem SlotInv.addShred (hinv : SlotInv h st) (x : Shred) :
    SlotInv (h ++ [x]) (st.addShred x).2 := by
  rcases addShred_cases st x with hst | ⟨hdata, -, -, -, hst⟩ | ⟨-, hst⟩ <;> rw [hst]
  · exact hinv.append [x]
  · constructor
    · intro i
      by_cases hi : i = x.index
      · subst hi; simp
      · simp [Function.update_noteq hi, hinv.status]
    · intro i y hy
      by_cases hi : i = x.index
      · subst hi
        simp only [Function.update_same, Option.some.injEq] at hy
        subst hy
        exact ⟨by simp, hdata, rfl⟩
      · simp only [Function.update_noteq hi] at hy
        exact (hinv.append [x]).stored i y hy
  · exact ⟨hinv.status, (hinv.append [x]).stored⟩

theorem SlotInv.clearSegment (hinv : SlotInv h st) (start e : Nat) :
    SlotInv h (st.clearSegment start e) where
  status i := by
    by_cases hi : start ≤ i ∧ i ≤ e <;> simp [SlotShreds.clearSegment, hi, hinv.status, statusOf]
  stored i y hy := by
    by_cases hi : start ≤ i ∧ i ≤ e <;> simp [SlotShreds.clearSegment, hi] at hy
    exact hinv.stored i y hy

/-- A call that emits nothing leaves the slot as it was. -/
theorem tryDeshred_snd_of_none (hr : (st.tryDeshred deshred deserialize).1 = none) :
    (st.tryDeshred deshred deserialize).2 = st := by
  revert hr
  unfold SlotShreds.tryDeshred
  split
  · simp
  · dsimp only
    split
    · simp
    · split
      · simp
      · split <;> simp

theorem SlotInv.tryDeshred (hinv : SlotInv h st) :
    SlotInv h (st.tryDeshred deshred deserialize).2 := by
  cases hr : (st.tryDeshred deshred deserialize).1 with
  | none =>
      rw [tryDeshred_snd_of_none hr]
      exact hinv
  | some r =>
      obtain ⟨start, e, -, -, -, -, hst⟩ := tryDeshred_some hr
      rw [hst]
      exact hinv.clearSegment start e

/-- In a consistent slot history, a received data shred is the first one of its index. -/
theorem dataAt_of_mem (hcons : Consistent h) (hslot : ∀ y ∈ h, y.slot = x.slot)
    (hx : x ∈ h) (hdata : x.shredType = .data) : Canonical.dataAt h x.index = some x := by
  cases hfind : Canonical.dataAt h x.index with
  | none =>
      have := List.find?_eq_none.1 hfind x hx
      simp [hdata] at this
  | some y =>
      obtain ⟨hy, hydata, hyidx⟩ := Canonical.dataAt_index hfind
      rw [hcons y hy x hx hydata hdata (by rw [hslot y hy]) hyidx]

/-- **An emission is the first canonical segment.**  In a consistent slot history, a
payload `try_deshred` returns is `deshred` of the data shreds of `0 ..= e`, the first
canonical segment. -/
theorem SlotInv.tryDeshred_some (hinv : SlotInv h st) (hcons : Consistent h)
    (hslot : ∀ x ∈ h, ∀ y ∈ h, x.slot = y.slot) {r : E × List UInt8}
    (hr : (st.tryDeshred deshred deserialize).1 = some r) :
    ∃ seg e, Canonical.Peels h 0 [seg] (e + 1) ∧ deshred seg = some r.2 := by
  obtain ⟨start, e, hfind, hsome, hdes, -, -⟩ := SlotShreds.tryDeshred_some hr
  obtain ⟨rfl, -, hdc, hndc⟩ := findCompleteSegment_eq_some hfind
  have hat : ∀ k ≤ e, ∃ y, st.dataShreds k = some y ∧ Canonical.dataAt h k = some y := by
    intro k hk
    obtain ⟨y, hy⟩ := Option.isSome_iff_exists.1 (hsome k (List.mem_range'_1.2 ⟨Nat.zero_le _,
      by omega⟩))
    obtain ⟨hmem, hdata, rfl⟩ := hinv.stored k y hy
    exact ⟨y, hy, dataAt_of_mem hcons (fun z hz => hslot z hz y hmem) hmem hdata⟩
  have hends : ∀ k ≤ e, Canonical.endsSegment h k = decide (k = e) := by
    intro k hk
    obtain ⟨y, hy, hdy⟩ := hat k hk
    have hstatus := hinv.status k
    rw [hy, statusOf] at hstatus
    rw [Canonical.endsSegment, hdy, Option.any_some, Shred.dataComplete_or_lastInSlot]
    rcases Nat.lt_or_eq_of_le hk with hlt | rfl
    · rw [hndc k hlt] at hstatus
      split at hstatus
      · cases hstatus
      · rename_i hc
        simp [hc, Nat.ne_of_lt hlt]
    · rw [hdc] at hstatus
      split at hstatus
      · rename_i hc
        simp [hc]
      · cases hstatus
  have hseg : Canonical.segmentAt h 0 e =
      some ((List.range' 0 (e + 1 - 0)).filterMap st.dataShreds) := by
    unfold Canonical.segmentAt
    rw [Canonical.mapM_congr_mem fun k hk => ?_, Canonical.mapM_eq_some_filterMap hsome]
    obtain ⟨y, hy, hdy⟩ := hat k (by rw [List.mem_range'_1] at hk; omega)
    rw [hy, hdy]
  refine ⟨_, e, .cons ⟨Nat.zero_le _, by simpa using hends e le_rfl, fun k _ hk => ?_⟩ hseg
    (.nil _), hdes⟩
  simpa [Nat.ne_of_lt hk] using hends k hk.le

end SlotShreds

/-- `DeshredManager`: the slot map `HashMap<Slot, SlotShreds>` as a function. -/
structure DeshredManager where
  slots : Nat → Option SlotShreds

namespace DeshredManager

/-- `DeshredManager::new`. -/
def new : DeshredManager := ⟨fun _ => none⟩

/-- `DeshredManager::cleanup_old_slots`: keeps the slots at or above
`current_slot - lookback`. -/
def cleanupOldSlots (m : DeshredManager) (currentSlot lookback : Nat) : DeshredManager :=
  let threshold := currentSlot - lookback
  ⟨fun s => if s ≥ threshold then m.slots s else none⟩

section Calls

variable {E : Type} (deshred : List Shred → Option (List UInt8))
  (deserialize : List UInt8 → Option E)

/-- `DeshredManager::add_shred`: the slot with the entries and payload emitted, if any. -/
def addShred (m : DeshredManager) (shred : Shred) :
    Option (Nat × E × List UInt8) × DeshredManager :=
  let slot := shred.slot
  let added := ((m.slots slot).getD (SlotShreds.new slot)).addShred shred
  if !added.1 then (none, ⟨Function.update m.slots slot (some added.2)⟩)
  else
    let r := added.2.tryDeshred deshred deserialize
    (r.1.map fun out => (slot, out.1, out.2), ⟨Function.update m.slots slot (some r.2)⟩)

/-- Shreds fed one at a time to `add_shred`, with every output in order. -/
def run (m : DeshredManager) : List Shred → List (Nat × E × List UInt8) × DeshredManager
  | [] => ([], m)
  | x :: xs =>
      let r := m.addShred deshred deserialize x
      let rest := run r.2 xs
      (r.1.toList ++ rest.1, rest.2)

end Calls

open SlotShreds

variable {E : Type} (deshred : List Shred → Option (List UInt8))

/-- **The manager against the canonical segments.**  Each slot's state keeps the slot
invariant over that slot's history, and each payload returned for a slot is `deshred` of
a complete first segment of it. -/
structure RefInv (xs : List Shred) (m : DeshredManager) (outs : List (Nat × E × List UInt8)) :
    Prop where
  slots : ∀ s st, m.slots s = some st → SlotInv (slotHistory s xs) st
  payloads : ∀ s, ∀ p ∈ payloadsOf s outs, ∃ seg e,
    Canonical.Peels (slotHistory s xs) 0 [seg] (e + 1) ∧ deshred seg = some p

theorem refInv_new : RefInv deshred [] new ([] : List (Nat × E × List UInt8)) where
  slots _ _ h := by cases h
  payloads _ _ h := by cases h

variable {deshred} {xs : List Shred} {m : DeshredManager} {outs : List (Nat × E × List UInt8)}

/-- Writing back the entry of the slot of `x`, with at most one output for it, keeps the
relation when the entry keeps the slot invariant and the output is a first segment. -/
theorem RefInv.install (hinv : RefInv deshred xs m outs) {x : Shred} {st : SlotShreds}
    (r : Option (E × List UInt8)) (hst : SlotInv (slotHistory x.slot (xs ++ [x])) st)
    (hr : ∀ q, r = some q → ∃ seg e,
      Canonical.Peels (slotHistory x.slot (xs ++ [x])) 0 [seg] (e + 1) ∧ deshred seg = some q.2) :
    RefInv deshred (xs ++ [x]) ⟨Function.update m.slots x.slot (some st)⟩
      (outs ++ (r.map fun q => (x.slot, q.1, q.2)).toList) := by
  have hold : ∀ s, ∀ p ∈ payloadsOf s outs, ∃ seg e,
      Canonical.Peels (slotHistory s (xs ++ [x])) 0 [seg] (e + 1) ∧ deshred seg = some p := by
    intro s p hp
    obtain ⟨seg, e, hpeel, hdes⟩ := hinv.payloads s p hp
    refine ⟨seg, e, ?_, hdes⟩
    by_cases hs : x.slot = s
    · subst hs; rw [slotHistory_append_self]; exact hpeel.append [x]
    · rw [slotHistory_append_of_ne hs]; exact hpeel
  refine ⟨fun s st' hst' => ?_, fun s p hp => ?_⟩
  · by_cases hs : s = x.slot
    · subst hs
      simp only [Function.update_same, Option.some.injEq] at hst'
      exact hst' ▸ hst
    · simp only [Function.update_noteq hs] at hst'
      rw [slotHistory_append_of_ne (Ne.symm hs)]
      exact hinv.slots s st' hst'
  · cases r with
    | none => exact hold s p (by simpa using hp)
    | some q =>
        by_cases hs : s = x.slot
        · subst hs
          rw [Option.map_some', Option.toList_some, payloadsOf_append_self] at hp
          rcases List.mem_append.1 hp with hp | hp
          · exact hold _ p hp
          · obtain rfl := List.mem_singleton.1 hp
            exact hr q rfl
        · rw [payloadsOf_append_of_ne (by simpa using Ne.symm hs)] at hp
          exact hold s p hp

variable {deserialize : List UInt8 → Option E}

theorem RefInv.addShred (hinv : RefInv deshred xs m outs) (x : Shred)
    (hcons : Consistent (xs ++ [x])) :
    RefInv deshred (xs ++ [x]) (m.addShred deshred deserialize x).2
      (outs ++ (m.addShred deshred deserialize x).1.toList) := by
  have hst : SlotInv (slotHistory x.slot xs) ((m.slots x.slot).getD (SlotShreds.new x.slot)) := by
    cases hm : m.slots x.slot with
    | none => exact slotInv_new _ _
    | some st => exact hinv.slots _ st hm
  have hst' := hst.addShred x
  rw [← slotHistory_append_self] at hst'
  unfold DeshredManager.addShred
  dsimp only
  cases hacc : (((m.slots x.slot).getD (SlotShreds.new x.slot)).addShred x).1
  · exact hinv.install none hst' fun q hq => by cases hq
  · refine hinv.install _ hst'.tryDeshred fun q hq => hst'.tryDeshred_some ?_ ?_ hq
    · exact hcons.of_subset fun z hz => (List.mem_filter.1 hz).1
    · intro a ha b hb
      rw [(by simpa using (List.mem_filter.1 ha).2 : a.slot = x.slot),
        (by simpa using (List.mem_filter.1 hb).2 : b.slot = x.slot)]

/-- Slot 0's index 0, a whole segment on its own. -/
def soloShred : Shred := ⟨0, 0, .data, .dataComplete, [0]⟩

/-- Slot 0's indices 0 and 1, each a whole segment. -/
def twoCompleteShreds : List Shred :=
  [⟨0, 0, .data, .dataComplete, [0]⟩, ⟨0, 1, .data, .dataComplete, [1]⟩]

/-- **The reference reassembler misses a slot's second segment.**  Slot 0's indices 0 and
1 are each a whole segment.  The reference returns the first one's payload only, while the
per-thread reassembler, with no eviction, returns both: the range `find_complete_segment`
finds always starts at index 0, which the first emission has reset to `Unknown`. -/
theorem reference_misses_second_segment :
    (Canonical.segments (slotHistory 0 twoCompleteShreds)).map Shredder.deshred =
        [some [0], some [1]] ∧
      payloadsOf 0 (run Shredder.deshred (some : List UInt8 → Option (List UInt8)) new
        twoCompleteShreds).1 = [[0]] ∧
      (DeshredManagerLocal.run Shredder.deshred (some : List UInt8 → Option (List UInt8))
        DeshredManagerLocal.new twoCompleteShreds).map (fun r => payloadsOf 0 r.1) =
        .ok [[0], [1]] :=
  ⟨rfl, rfl, rfl⟩

theorem resent_shred_emitted_again :
    (new.addShred Shredder.deshred (some : List UInt8 → Option (List UInt8)) soloShred).1 =
        some (0, [0], [0]) ∧
      ((new.addShred Shredder.deshred (some : List UInt8 → Option (List UInt8)) soloShred).2.addShred
        Shredder.deshred (some : List UInt8 → Option (List UInt8)) soloShred).1 =
        some (0, [0], [0]) :=
  ⟨rfl, rfl⟩

end DeshredManager

end ShredRelay
