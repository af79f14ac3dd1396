import ShredRelay.Reassembly.Local

/-!
# A complete segment is emitted

`local_emits_canonical_prefix` is the safe half of the per-thread reassembler: what it
returns for a slot is `deshred` of a prefix of the slot's canonical segments.  The prefix
can stop short (`local_misses_second_segment`), so this module proves the other half
where the code allows it: a slot that receives one segment `0 ..= n` has it emitted, once,
whatever the order of arrival, the duplicates, and the other slots in between.

## Design notes

**Where the emission happens.**  Nothing is emitted for the slot until every index of
`0 ..= n` has arrived, since before that the slot has no complete canonical segment.  The
shred that completes the segment is new, so `add_shred` stores it and calls
`try_deshred_fast`; `segment_ends` is then `[n]`, every bit of `0 ..= n` is set, and the
call emits (`HistoryInv.tryDeshredFast_emits`).  Later duplicates find their bit set.

**What the library must do.**  The deshredder must keep `DeshredContract` and accept the
slot's canonical segment, and the deserializer must accept what the deshredder returns.

## Main results

* `HistoryInv.tryDeshredFast_emits`: a call whose head segment is complete emits it.
* `LocalInv.addShred_completes`: the arrival that completes a slot's one segment emits it.
* `local_emits_single_segment`: over a whole run, the slot's one segment is emitted once.
* `local_round_trip`: a payload cut into chunks, shredded and fed in any order, comes back
  whole from the library's deshredder.
-/

namespace ShredRelay

open Canonical

/-! ## A slot that receives one segment -/

section OneSegment

variable (s n : Nat)

/-- Slot `s` receives one segment, `0 ..= n`: every shred of the slot is a data shred of
an index at most `n`, below 512, and exactly those of index `n` are `DATA_COMPLETE`. -/
structure OneSegment (xs : List Shred) : Prop where
  lt : n < maxShredsPerSlot
  shreds : ∀ x ∈ slotHistory s xs,
    x.shredType = .data ∧ x.index ≤ n ∧ (x.dataComplete = true ↔ x.index = n)

/-- Every index of `0 ..= n` of slot `s` has received a shred. -/
def Arrived (xs : List Shred) : Prop :=
  ∀ i ≤ n, ∃ x ∈ slotHistory s xs, x.index = i

variable {s n} {xs : List Shred}

theorem slotHistory_append (xs ys : List Shred) :
    slotHistory s (xs ++ ys) = slotHistory s xs ++ slotHistory s ys := by
  simp [slotHistory]

theorem OneSegment.of_append {ys : List Shred} (h : OneSegment s n (xs ++ ys)) :
    OneSegment s n xs :=
  ⟨h.lt, fun x hx => h.shreds x (by rw [slotHistory_append]; exact List.mem_append_left _ hx)⟩

theorem Arrived.append (h : Arrived s n xs) (ys : List Shred) : Arrived s n (xs ++ ys) :=
  fun i hi => by
    obtain ⟨x, hx, hxi⟩ := h i hi
    exact ⟨x, by rw [slotHistory_append]; exact List.mem_append_left _ hx, hxi⟩

theorem not_arrived_nil : ¬Arrived s n [] :=
  fun h => absurd (h 0 (Nat.zero_le _)) (by simp [slotHistory])

theorem Arrived.dataAt_isSome (harr : Arrived s n xs) (hone : OneSegment s n xs) {j : Nat}
    (hj : j ≤ n) : (dataAt (slotHistory s xs) j).isSome := by
  obtain ⟨x, hx, rfl⟩ := harr j hj
  exact List.find?_isSome.2 ⟨x, hx, by simp [(hone.shreds x hx).1]⟩

/-- The only segment end the slot can have is `n`. -/
theorem OneSegment.eq_of_mem_ends (hone : OneSegment s n xs) {e : Nat}
    (he : e ∈ ends (slotHistory s xs)) : e = n := by
  rw [mem_ends, endsSegment] at he
  cases hx : dataAt (slotHistory s xs) e with
  | none => simp [hx] at he
  | some x =>
      obtain ⟨hmem, -, rfl⟩ := dataAt_index hx
      simp only [hx, Option.any_some, Shred.dataComplete_or_lastInSlot] at he
      exact (hone.shreds x hmem).2.2.1 he

/-- **Once every index has arrived, the slot has one segment**, the first arrivals at
`0 ..= n`. -/
theorem segments_of_arrived (hone : OneSegment s n xs) (harr : Arrived s n xs) :
    segments (slotHistory s xs) =
      [(List.range' 0 (n + 1)).filterMap (dataAt (slotHistory s xs))] := by
  have hn : n ∈ ends (slotHistory s xs) := by
    obtain ⟨x, hx⟩ := Option.isSome_iff_exists.1 (harr.dataAt_isSome hone le_rfl)
    obtain ⟨hmem, -, hxi⟩ := dataAt_index hx
    rw [mem_ends, endsSegment, hx]
    simpa using (hone.shreds x hmem).2.2.2 hxi
  have hends : ends (slotHistory s xs) = [n] := by
    have hsorted := ends_sorted (slotHistory s xs)
    have hall := fun e => hone.eq_of_mem_ends (e := e)
    rcases hl : ends (slotHistory s xs) with _ | ⟨a, t⟩
    · rw [hl] at hn; cases hn
    · rw [hl] at hsorted hall
      cases t with
      | nil => rw [hall a (.head _)]
      | cons b t =>
          have hab := List.rel_of_pairwise_cons hsorted (.head _)
          have := hall a (.head _)
          have := hall b (.tail _ (.head _))
          omega
  rw [segments, hends, completeFrom, segmentAt, Nat.sub_zero,
    mapM_eq_some_filterMap fun j hj => harr.dataAt_isSome hone (by
      rw [List.mem_range'_1] at hj; omega)]
  rfl

/-- Before every index has arrived, the slot has no complete segment. -/
theorem segments_of_not_arrived (hone : OneSegment s n xs) (hnot : ¬Arrived s n xs) :
    segments (slotHistory s xs) = [] := by
  obtain ⟨i, hi, hmiss⟩ : ∃ i ≤ n, ¬∃ x ∈ slotHistory s xs, x.index = i := by
    simpa [Arrived] using hnot
  rw [segments]
  cases hl : ends (slotHistory s xs) with
  | nil => rfl
  | cons e t =>
      obtain rfl := hone.eq_of_mem_ends (hl ▸ List.mem_cons_self e t)
      rw [completeFrom]
      cases hseg : segmentAt (slotHistory s xs) 0 e with
      | none => rfl
      | some seg =>
          obtain ⟨x, hx⟩ := Option.isSome_iff_exists.1 (segmentAt_isSome hseg (Nat.zero_le i) hi)
          obtain ⟨hmem, -, hxi⟩ := dataAt_index hx
          exact absurd ⟨x, hmem, hxi⟩ hmiss

/-- Once every index has arrived, later arrivals leave the segment alone. -/
theorem segments_append_of_arrived {ys : List Shred} (hone : OneSegment s n (xs ++ ys))
    (harr : Arrived s n xs) :
    segments (slotHistory s (xs ++ ys)) = segments (slotHistory s xs) := by
  rw [segments_of_arrived hone (harr.append ys), segments_of_arrived hone.of_append harr,
    slotHistory_append]
  congr 1
  refine List.filterMap_congr fun j hj => ?_
  rw [List.mem_range'_1] at hj
  obtain ⟨x, hx⟩ := Option.isSome_iff_exists.1 (harr.dataAt_isSome hone.of_append (j := j)
    (by omega))
  rw [dataAt, List.find?_append, ← dataAt, hx]
  rfl

end OneSegment

/-! ## One call of `try_deshred_fast` -/

namespace SlotShrdsCompact

theorem allReceived_eq_true {mask : Words 8} {l : List Nat}
    (h : ∀ j ∈ l, j / 64 < 8 ∧ Words.test mask j = true) : allReceived mask l = .ok true := by
  induction l with
  | nil => rfl
  | cons idx rest ih =>
      obtain ⟨hlt, hset⟩ := h idx (List.mem_cons_self _ _)
      rw [← Words.and_bit_ne_zero_eq_test mask hlt] at hset
      unfold allReceived
      rw [dif_pos hlt, if_neg (by simpa using hset)]
      exact ih fun j hj => h j (List.mem_cons_of_mem _ hj)

/-- In a history of data shreds, the shred the code keeps at an index is the received data
shred there. -/
theorem acceptedAt_eq_dataAt {h : List Shred} (hdata : ∀ x ∈ h, x.shredType = .data) {j : Nat}
    (hj : j < maxShredsPerSlot) : acceptedAt h j = dataAt h j := by
  rw [acceptedAt, if_pos hj, dataAt]
  induction h with
  | nil => rfl
  | cons y ys ih =>
      simp only [List.find?_cons, hdata y (List.mem_cons_self _ _), beq_self_eq_true,
        Bool.true_and, ih fun x hx => hdata x (List.mem_cons_of_mem _ hx)]

variable {E : Type} {deshred : List Shred → Option (List UInt8)}
  {deserialize : List UInt8 → Option E}

/-- **A complete head segment is emitted**: when every index from `last_processed` to the
head of `segment_ends` has its shred, and the deshredder and the deserializer accept them,
`try_deshred_fast` returns them. -/
theorem HistoryInv.tryDeshredFast_emits {h : List Shred} {st : SlotShrdsCompact}
    {emitted : List (List Shred)} (hinv : HistoryInv h st emitted) {e : Nat} {rest : List Nat}
    (hends : st.segmentEnds = e :: rest)
    (hall : ∀ j, st.lastProcessed ≤ j → j ≤ e → (acceptedAt h j).isSome) {p : List UInt8}
    (hdes : deshred ((List.range' st.lastProcessed (e + 1 - st.lastProcessed)).filterMap
      (acceptedAt h)) = some p)
    {entries : E} (hser : deserialize p = some entries) :
    ∃ st', st.tryDeshredFast deshred deserialize = .ok (some (entries, p), st') := by
  obtain ⟨hlpe, y, hy, -⟩ := (hinv.ends e).1 (by simp [hends])
  have hlen : e + 1 ≤ st.shreds.length := by
    have hstored := hinv.stored e
    rw [if_pos hlpe, hy] at hstored
    by_contra hlen
    rw [List.getElem?_eq_none (by omega)] at hstored
    cases hstored
  have hmax := (acceptedAt_index hy).2
  have hrecv : allReceived st.receivedMask
      (List.range' st.lastProcessed (e + 1 - st.lastProcessed)) = .ok true :=
    allReceived_eq_true fun j hj => by
      rw [List.mem_range'_1] at hj
      unfold maxShredsPerSlot at hmax
      exact ⟨by omega, by rw [hinv.mask]; exact hall j hj.1 (by omega)⟩
  unfold tryDeshredFast
  rw [hends]
  dsimp only
  rw [hrecv, sliceInclusive, if_neg (by omega), if_neg (by omega)]
  dsimp only
  rw [hinv.slice_payloads hlen, hdes]
  dsimp only
  rw [hser]
  exact ⟨_, rfl⟩

end SlotShrdsCompact

/-! ## The arrival that completes the segment -/

namespace DeshredManagerLocal

open SlotShrdsCompact

variable {E : Type} {deshred : List Shred → Option (List UInt8)}
  {deserialize : List UInt8 → Option E} {xs : List Shred} {m : DeshredManagerLocal}
  {outs : List (Nat × E × List UInt8)} {s n : Nat}

/-- **The arrival that completes a slot's one segment emits it.** -/
theorem LocalInv.addShred_completes (hinv : LocalInv deshred xs m outs) {y : Shred}
    (hone : OneSegment s n (xs ++ [y])) (hnot : ¬Arrived s n xs) (harr : Arrived s n (xs ++ [y]))
    (hok : ∀ seg ∈ segments (slotHistory s (xs ++ [y])), (deshred seg).isSome)
    (hser : ∀ seg ∈ segments (slotHistory s (xs ++ [y])), ∀ p, deshred seg = some p →
      (deserialize p).isSome) :
    ∃ entries p m', m.addShred deshred deserialize y = .ok (some (s, entries, p), m') := by
  -- the new shred is the first of its index in the slot
  obtain ⟨i, hi, hmiss⟩ : ∃ i ≤ n, ¬∃ x ∈ slotHistory s xs, x.index = i := by
    simpa [Arrived] using hnot
  obtain ⟨x, hx, hxi⟩ := harr i hi
  have hys : x.slot = s := by simpa using (List.mem_filter.1 hx).2
  rw [slotHistory_append] at hx
  obtain rfl : x = y := by
    rcases List.mem_append.1 hx with hx | hx
    · exact absurd ⟨x, hx, hxi⟩ hmiss
    · exact (by simpa [slotHistory] using hx : x = y ∧ x.slot = s).1
  subst hys hxi
  have hdata : ∀ z ∈ slotHistory x.slot (xs ++ [x]), z.shredType = .data :=
    fun z hz => (hone.shreds z hz).1
  have hlt : x.index < maxShredsPerSlot := by have := hone.lt; omega
  -- nothing has been emitted for the slot yet
  obtain ⟨hslot, emitted, hh, -⟩ := hinv.slotEntry x.slot
  have hnil : emitted = [] := by
    have := hh.peels.prefix
    rwa [segments_of_not_arrived hone.of_append hnot, List.prefix_nil] at this
  subst hnil
  have hlp : (m.slotEntry x.slot).lastProcessed = 0 := by
    have hpeels := hh.peels
    generalize (m.slotEntry x.slot).lastProcessed = lp at hpeels
    cases hpeels
    rfl
  -- `add_shred` stores it
  have hacc : ((m.slotEntry x.slot).addShred x).1 = true := by
    have hnone : acceptedAt (slotHistory x.slot xs) x.index = none := by
      rw [acceptedAt_eq_dataAt (fun z hz => hdata z (by
        rw [slotHistory_append]; exact List.mem_append_left _ hz)) hlt]
      exact List.find?_eq_none.2 fun z hz hp =>
        hmiss ⟨z, hz, (by simpa using hp : z.shredType = .data ∧ z.index = x.index).2⟩
    rw [addShred_fst, hh.mask, hnone]
    simp [hlt]
  have hh' := hh.addShred x
  rw [← slotHistory_append_self] at hh'
  -- after it, the head of `segment_ends` is `n` and `0 ..= n` is complete
  have hends : ((m.slotEntry x.slot).addShred x).2.segmentEnds = [n] := by
    refine List.perm_singleton.1 ((List.perm_ext_iff_of_nodup hh'.nodup
      (List.nodup_singleton n)).2 fun e => ?_)
    rw [hh'.ends, List.mem_singleton, addShred_lastProcessed, hlp]
    constructor
    · rintro ⟨-, z, hz, hzc⟩
      obtain ⟨hzi, -⟩ := acceptedAt_index hz
      rw [acceptedAt_eq_dataAt hdata (hzi ▸ (acceptedAt_index hz).2)] at hz
      obtain ⟨hmem, -, -⟩ := dataAt_index hz
      exact hzi ▸ (hone.shreds z hmem).2.2.1 hzc
    · rintro rfl
      obtain ⟨z, hz⟩ := Option.isSome_iff_exists.1 (harr.dataAt_isSome hone le_rfl)
      obtain ⟨hmem, -, hzi⟩ := dataAt_index hz
      exact ⟨Nat.zero_le _, z, by rw [acceptedAt_eq_dataAt hdata hone.lt, hz],
        (hone.shreds z hmem).2.2.2 hzi⟩
  have hall : ∀ j, ((m.slotEntry x.slot).addShred x).2.lastProcessed ≤ j → j ≤ n →
      (acceptedAt (slotHistory x.slot (xs ++ [x])) j).isSome := fun j _ hj => by
    rw [acceptedAt_eq_dataAt hdata (by have := hone.lt; omega)]
    exact harr.dataAt_isSome hone hj
  -- the deshredder and the deserializer accept the segment
  have hseg : (List.range' 0 (n + 1 - 0)).filterMap (acceptedAt (slotHistory x.slot (xs ++ [x])))
      ∈ segments (slotHistory x.slot (xs ++ [x])) := by
    rw [segments_of_arrived hone harr, Nat.sub_zero, List.mem_singleton]
    refine List.filterMap_congr fun j hj => ?_
    rw [List.mem_range'_1] at hj
    exact acceptedAt_eq_dataAt hdata (by have := hone.lt; omega)
  obtain ⟨p, hp⟩ := Option.isSome_iff_exists.1 (hok _ hseg)
  obtain ⟨entries, hent⟩ := Option.isSome_iff_exists.1 (hser _ hseg p hp)
  obtain ⟨st', hst'⟩ := hh'.tryDeshredFast_emits hends hall
    (by rw [addShred_lastProcessed, hlp]; exact hp) hent
  refine ⟨entries, p, m.putEntry x.slot st', ?_⟩
  unfold DeshredManagerLocal.addShred
  simp only [hacc, Bool.not_true, Bool.false_eq_true, if_false, hst']
  rfl

/-- Over a run, once every index of the segment has arrived, something has been returned
for the slot. -/
theorem LocalInv.run_completes (hd : DeshredContract deshred)
    (hinv : LocalInv deshred xs m outs) (ys : List Shred)
    (hfree : ∀ x ∈ xs ++ ys, ∀ y ∈ xs ++ ys,
      x.slot % slotWindowSize = y.slot % slotWindowSize → x.slot = y.slot)
    (hone : OneSegment s n (xs ++ ys))
    (hok : ∀ seg ∈ segments (slotHistory s (xs ++ ys)), (deshred seg).isSome)
    (hser : ∀ seg ∈ segments (slotHistory s (xs ++ ys)), ∀ p, deshred seg = some p →
      (deserialize p).isSome)
    (hdone : Arrived s n xs → payloadsOf s outs ≠ []) :
    ∃ outs' m', DeshredManagerLocal.run deshred deserialize m ys = .ok (outs', m') ∧
      LocalInv deshred (xs ++ ys) m' (outs ++ outs') ∧
      (Arrived s n (xs ++ ys) → payloadsOf s (outs ++ outs') ≠ []) := by
  induction ys generalizing xs m outs with
  | nil => exact ⟨[], m, rfl, by simpa using hinv, by simpa using hdone⟩
  | cons y ys ih =>
      obtain ⟨r, m₁, h₁, hinv₁⟩ : ∃ r m₁, m.addShred deshred deserialize y = .ok (r, m₁) ∧
          LocalInv deshred (xs ++ [y]) m₁ (outs ++ r.toList) := hinv.addShred hd y fun z hz hzy =>
        hfree z (by simp [hz]) y (by simp) hzy
      have hone₁ : OneSegment s n (xs ++ [y] ++ ys) := by simpa using hone
      have hdone₁ : Arrived s n (xs ++ [y]) → payloadsOf s (outs ++ r.toList) ≠ [] := by
        intro harr
        by_cases hprev : Arrived s n xs
        · simp [payloadsOf_append, hdone hprev]
        · obtain ⟨entries, p, m', h'⟩ := hinv.addShred_completes hone₁.of_append hprev harr
            (by rw [← segments_append_of_arrived hone₁ harr]; simpa using hok)
            (by rw [← segments_append_of_arrived hone₁ harr]; simpa using hser)
          rw [h₁] at h'
          cases h'
          simp [payloadsOf_append, payloadsOf]
      obtain ⟨outs', m', h₂, hinv₂, hdone₂⟩ :=
        ih hinv₁ (by simpa using hfree) hone₁ (by simpa using hok) (by simpa using hser) hdone₁
      exact ⟨r.toList ++ outs', m', by simp [DeshredManagerLocal.run, h₁, h₂],
        by simpa using hinv₂, by simpa using hdone₂⟩

/-- Once the slot's one segment has arrived and something has been returned for it, what has
been returned is `deshred` of that segment, once. -/
theorem LocalInv.forall₂_segments (hinv : LocalInv deshred xs m outs)
    (hone : OneSegment s n xs) (harr : Arrived s n xs) (hdone : payloadsOf s outs ≠ []) :
    List.Forall₂ (fun seg p => deshred seg = some p) (segments (slotHistory s xs))
      (payloadsOf s outs) := by
  obtain ⟨segs, ⟨t, ht⟩, hf⟩ := hinv.payloads_prefix s
  rw [segments_of_arrived hone harr] at ht ⊢
  cases segs with
  | nil => exact absurd (List.forall₂_nil_left_iff.1 hf) hdone
  | cons a l =>
      obtain ⟨rfl, hl⟩ := List.cons_eq_cons.1 ht
      rw [(List.append_eq_nil.1 hl).1] at hf
      exact hf

/-- **A slot's one segment is emitted, once, in any order of arrival.**  Under the
deshredder contract, take a run in which no two slots share a window entry and slot `s`
receives only the data shreds of one segment `0 ..= n`, every index at least once, in any
order, with any duplicates and any other slots' shreds in between.  When the deshredder
accepts the slot's segment and the deserializer what it makes of it, the run does not panic,
the slot has exactly one canonical segment, and the run returns `deshred` of it for the
slot, once. -/
theorem local_emits_single_segment (hd : DeshredContract deshred) {xs : List Shred}
    (hfree : ∀ x ∈ xs, ∀ y ∈ xs,
      x.slot % slotWindowSize = y.slot % slotWindowSize → x.slot = y.slot)
    (hone : OneSegment s n xs) (harr : Arrived s n xs)
    (hok : ∀ seg ∈ segments (slotHistory s xs), (deshred seg).isSome)
    (hser : ∀ seg ∈ segments (slotHistory s xs), ∀ p, deshred seg = some p →
      (deserialize p).isSome) :
    ∃ outs m, run deshred deserialize new xs = .ok (outs, m) ∧
      (segments (slotHistory s xs)).length = 1 ∧
      List.Forall₂ (fun seg p => deshred seg = some p) (segments (slotHistory s xs))
        (payloadsOf s outs) := by
  obtain ⟨outs, m, hrun, hinv, hdone⟩ := (localInv_new deshred).run_completes hd xs
    (by simpa using hfree) (by simpa using hone) (by simpa using hok) (by simpa using hser)
    fun h => absurd h not_arrived_nil
  simp only [List.nil_append] at hinv hdone
  exact ⟨outs, m, hrun, by rw [segments_of_arrived hone harr]; rfl,
    hinv.forall₂_segments hone harr (hdone harr)⟩

/-- Slot 100's data shreds `0 ..= 3`, only `3` complete, arriving as `2, 0, 3, 1`. -/
def outOfOrderRun : List Shred :=
  [⟨100, 2, .data, .none, [2]⟩, ⟨100, 0, .data, .none, [0]⟩,
    ⟨100, 3, .data, .dataComplete, [3]⟩, ⟨100, 1, .data, .none, [1]⟩]

theorem local_emits_single_segment_out_of_order :
    OneSegment 100 3 outOfOrderRun ∧ Arrived 100 3 outOfOrderRun ∧
      ∃ outs m, run Shredder.deshred (some : List UInt8 → Option (List UInt8)) new
          outOfOrderRun = .ok (outs, m) ∧
        (segments (slotHistory 100 outOfOrderRun)).length = 1 ∧
        List.Forall₂ (fun seg p => Shredder.deshred seg = some p)
          (segments (slotHistory 100 outOfOrderRun)) (payloadsOf 100 outs) :=
  have hone : OneSegment 100 3 outOfOrderRun := ⟨by decide, by decide⟩
  have harr : Arrived 100 3 outOfOrderRun := by unfold Arrived; decide
  ⟨hone, harr, local_emits_single_segment Shredder.deshred_contract (by decide) hone harr
    (by decide) fun _ _ _ _ => rfl⟩

end DeshredManagerLocal

/-! ## Round trip -/

/-- The data shreds a leader cuts from payload chunks of slot `s`, from index `i` on; the
shred of index `n` ends the segment and is `DATA_COMPLETE`. -/
def chunkShreds (s n : Nat) : Nat → List (List UInt8) → List Shred
  | _, [] => []
  | i, c :: cs =>
      ⟨s, i, .data, if i = n then .dataComplete else .none, c⟩ :: chunkShreds s n (i + 1) cs

/-- The shreds of slot `s` for the payload chunks `cs`: one segment. -/
def shredsOfChunks (s : Nat) (cs : List (List UInt8)) : List Shred :=
  chunkShreds s (cs.length - 1) 0 cs

section RoundTrip

variable {s n : Nat}

theorem mem_chunkShreds {i : Nat} {cs : List (List UInt8)} {x : Shred}
    (hx : x ∈ chunkShreds s n i cs) :
    x.slot = s ∧ x.shredType = .data ∧ i ≤ x.index ∧ x.index < i + cs.length ∧
      (x.dataComplete = true ↔ x.index = n) := by
  induction cs generalizing i with
  | nil => cases hx
  | cons c cs ih =>
      rcases List.mem_cons.1 hx with rfl | hx
      · refine ⟨rfl, rfl, le_rfl, by simp, ?_⟩
        by_cases hi : i = n <;> simp [Shred.dataComplete, hi]
      · obtain ⟨h1, h2, h3, h4, h5⟩ := ih hx
        exact ⟨h1, h2, by omega, by simp only [List.length_cons]; omega, h5⟩

theorem exists_mem_chunkShreds {i j : Nat} {cs : List (List UInt8)} (hij : i ≤ j)
    (hj : j < i + cs.length) : ∃ x ∈ chunkShreds s n i cs, x.index = j := by
  induction cs generalizing i with
  | nil => simp only [List.length_nil] at hj; omega
  | cons c cs ih =>
      by_cases hji : j = i
      · exact ⟨_, List.mem_cons_self _ _, hji.symm⟩
      · obtain ⟨x, hx, hxj⟩ := ih (by omega : i + 1 ≤ j)
          (by simp only [List.length_cons] at hj; omega)
        exact ⟨x, List.mem_cons_of_mem _ hx, hxj⟩

theorem chunkShreds_pairwise (i : Nat) (cs : List (List UInt8)) :
    (chunkShreds s n i cs).Pairwise (·.index < ·.index) := by
  induction cs generalizing i with
  | nil => exact .nil
  | cons c cs ih =>
      exact .cons (fun x hx => by have := (mem_chunkShreds hx).2.2.1; simp only; omega) (ih (i + 1))

/-- Shreds of strictly increasing indices are told apart by their index. -/
theorem eq_of_pairwise_index {l : List Shred} (hl : l.Pairwise (·.index < ·.index)) {x y : Shred}
    (hx : x ∈ l) (hy : y ∈ l) (hxy : x.index = y.index) : x = y := by
  induction hl with
  | nil => cases hx
  | @cons a l ha _ ih =>
      rcases List.mem_cons.1 hx with hxa | hxl <;> rcases List.mem_cons.1 hy with hya | hyl
      · rw [hxa, hya]
      · have := ha y hyl; rw [hxa] at hxy; omega
      · have := ha x hxl; rw [hya] at hxy; omega
      · exact ih hxl hyl

theorem filterMap_dataAt_chunkShreds (i : Nat) (cs : List (List UInt8)) :
    (List.range' i cs.length).filterMap (dataAt (chunkShreds s n i cs)) = chunkShreds s n i cs := by
  induction cs generalizing i with
  | nil => rfl
  | cons c cs ih =>
      have hhead : dataAt (chunkShreds s n i (c :: cs)) i =
          some ⟨s, i, .data, if i = n then .dataComplete else .none, c⟩ := by
        simp [dataAt, chunkShreds]
      rw [List.length_cons, List.range'_succ, List.filterMap_cons_some hhead]
      conv_rhs => rw [chunkShreds, ← ih (i + 1)]
      congr 1
      refine List.filterMap_congr fun j hj => ?_
      rw [List.mem_range'_1] at hj
      rw [dataAt, chunkShreds, List.find?_cons_of_neg _ (by simp; omega)]
      rfl

/-- The library's deshredder takes the chunk shreds back to the chunks. -/
theorem deshredFold_chunkShreds {i : Nat} {cs : List (List UInt8)} (hcs : cs ≠ [])
    (hn : i + cs.length = n + 1) (acc : List UInt8) (prev : Option Nat)
    (hprev : prev.all (· + 1 = i)) :
    Shredder.deshredFold (chunkShreds s n i cs) acc prev false = some (acc ++ cs.flatten, true) := by
  induction cs generalizing i acc prev with
  | nil => exact absurd rfl hcs
  | cons c cs ih =>
      have hguard : prev.any (· + 1 != i) = false := by cases prev <;> simp_all
      have hdc : Shred.dataComplete ⟨s, i, .data, if i = n then .dataComplete else .none, c⟩ =
          decide (i = n) := by
        by_cases hi : i = n <;> simp [Shred.dataComplete, hi]
      rw [chunkShreds, Shredder.deshredFold, hdc]
      simp only [Bool.false_or, bne_self_eq_false, hguard, Bool.or_false, Bool.false_eq_true,
        if_false]
      cases cs with
      | nil =>
          obtain rfl : i = n := by simp only [List.length_singleton] at hn; omega
          simp [chunkShreds, Shredder.deshredFold]
      | cons c' cs' =>
          have hin : i ≠ n := by simp only [List.length_cons] at hn; omega
          rw [decide_eq_false hin, ih (List.cons_ne_nil _ _)
            (by simp only [List.length_cons] at hn ⊢; omega) (acc ++ c) (some i) (by simp)]
          simp

theorem deshred_chunkShreds {cs : List (List UInt8)} (hdata : cs.flatten ≠ [])
    (hn : cs.length = n + 1) : Shredder.deshred (chunkShreds s n 0 cs) = some cs.flatten := by
  rw [Shredder.deshred, deshredFold_chunkShreds (by rintro rfl; exact hdata rfl) (by omega) []
    none rfl]
  simp [hdata]

end RoundTrip

namespace DeshredManagerLocal

variable {E : Type} {deserialize : List UInt8 → Option E}

/-- **Round trip**: a slot's nonempty payload cut into chunks, shredded, and fed to the
per-thread reassembler in any order comes back whole.  With the library's deshredder and a
deserializer that accepts the payload, the run does not panic and returns, for the slot,
the concatenated chunks, once. -/
theorem local_round_trip {s : Nat} {cs : List (List UInt8)} (hdata : cs.flatten ≠ [])
    (hlen : cs.length ≤ maxShredsPerSlot) {xs : List Shred} (hp : xs.Perm (shredsOfChunks s cs))
    (hser : (deserialize cs.flatten).isSome) :
    ∃ outs m, run Shredder.deshred deserialize new xs = .ok (outs, m) ∧
      payloadsOf s outs = [cs.flatten] := by
  obtain ⟨n, hn⟩ : ∃ n, cs.length = n + 1 :=
    ⟨cs.length - 1, by cases cs with | nil => exact absurd rfl hdata | cons => simp⟩
  rw [shredsOfChunks, hn, Nat.add_sub_cancel] at hp
  have hmem : ∀ x ∈ xs, x ∈ chunkShreds s n 0 cs := fun x hx => hp.subset hx
  have hslot : ∀ x ∈ xs, x.slot = s := fun x hx => (mem_chunkShreds (hmem x hx)).1
  have hhist : slotHistory s xs = xs := List.filter_eq_self.2 fun x hx => by simp [hslot x hx]
  have hone : OneSegment s n xs := ⟨by omega, fun x hx => by
    rw [hhist] at hx
    obtain ⟨-, hd, -, hlt, hc⟩ := mem_chunkShreds (hmem x hx)
    exact ⟨hd, by omega, hc⟩⟩
  have harr : Arrived s n xs := fun i hi => by
    obtain ⟨x, hx, hxi⟩ :=
      exists_mem_chunkShreds (s := s) (Nat.zero_le i) (by omega : i < 0 + cs.length)
    exact ⟨x, by rw [hhist]; exact hp.symm.subset hx, hxi⟩
  have hseg : segments (slotHistory s xs) = [chunkShreds s n 0 cs] := by
    have hdata : dataAt xs = dataAt (chunkShreds s n 0 cs) := funext <|
      dataAt_perm hp.symm
        (fun x hx y hy _ _ _ => eq_of_pairwise_index (chunkShreds_pairwise 0 cs) hx hy)
        fun x hx y hy => by rw [(mem_chunkShreds hx).1, (mem_chunkShreds hy).1]
    rw [segments_of_arrived hone harr, hhist, hdata, ← hn, filterMap_dataAt_chunkShreds]
  have hdes := deshred_chunkShreds (s := s) hdata hn
  obtain ⟨outs, m, hrun, hinv, hdone⟩ := (localInv_new Shredder.deshred).run_completes
    Shredder.deshred_contract xs
    (by simpa using fun x hx y hy _ => (hslot x hx).trans (hslot y hy).symm) (by simpa using hone)
    (by simp [hseg, hdes]) (by simpa [hseg, hdes] using hser) fun h => absurd h not_arrived_nil
  simp only [List.nil_append] at hinv hdone
  have hf := hinv.forall₂_segments hone harr (hdone harr)
  rw [hseg] at hf
  obtain ⟨p, u, hpd, hu, hpay⟩ := List.forall₂_cons_left_iff.1 hf
  rw [List.forall₂_nil_left_iff.1 hu, ← Option.some.inj (hdes.symm.trans hpd)] at hpay
  exact ⟨outs, m, hrun, hpay⟩

/-- Slot 7's payload in three chunks, its shreds arriving last first. -/
theorem local_round_trip_reversed :
    ∃ outs m, run Shredder.deshred (some : List UInt8 → Option (List UInt8)) new
        (shredsOfChunks 7 [[1, 2], [3], [4, 5]]).reverse = .ok (outs, m) ∧
      payloadsOf 7 outs = [[1, 2, 3, 4, 5]] :=
  local_round_trip (by decide) (by decide) (List.reverse_perm _) rfl

end DeshredManagerLocal

end ShredRelay
