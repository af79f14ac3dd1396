import ShredRelay.Reassembly.Compact
import ShredRelay.Reassembly.Segments

/-!
# The compact reassembler against the canonical segments

`HistoryInv h st emitted` ties a `SlotShrdsCompact` to the list `h` of every shred fed to
its `add_shred` and to the segments `emitted` that its `try_deshred_fast` has returned.
It is a simulation relation: the concrete state is a function of the history, and the
abstract state is `Canonical.Peels h 0 emitted st.lastProcessed`.

* `acceptedAt h i` is what the code keeps at index `i`: the first shred of *either* type
  that arrived there.  This is where the compact reassembler parts from the canonical
  definition, which reads the first *data* shred; `dataAt_of_acceptedAt` is the bridge
  for indices whose first arrival is a data shred.
* `HistoryInv.addShred`: feeding any shred keeps the relation, accepted or not.
* `HistoryInv.tryDeshred`: under `DeshredContract`, a successful `try_deshred_fast`
  emits exactly the next canonical segment.  The contract is what rules out a range that
  holds a code shred, or a `DATA_COMPLETE` shred before its end.

With both, every run of a slot emits a prefix of `Canonical.segments` of its history,
which is the sound half of the reassembler's purpose.
-/

namespace ShredRelay

namespace SlotShrdsCompact

open Canonical

/-- The shred the compact reassembler keeps at index `i`: the first arrival of either
type, when `i` is below 512. -/
def acceptedAt (h : List Shred) (i : Nat) : Option Shred :=
  if i < maxShredsPerSlot then h.find? (·.index == i) else none

theorem acceptedAt_append (h : List Shred) (x : Shred) (i : Nat) :
    acceptedAt (h ++ [x]) i =
      (acceptedAt h i).or (if i < maxShredsPerSlot ∧ x.index = i then some x else none) := by
  unfold acceptedAt
  by_cases hi : i < maxShredsPerSlot
  · by_cases hx : x.index = i <;> simp [hi, hx, List.find?_append]
  · simp [hi]

theorem acceptedAt_index {h : List Shred} {i : Nat} {x : Shred} (hx : acceptedAt h i = some x) :
    x.index = i ∧ i < maxShredsPerSlot := by
  unfold acceptedAt at hx
  split at hx
  · exact ⟨by simpa using List.find?_some hx, ‹_›⟩
  · cases hx

/-- When the first shred at an index is a data shred, it is also the first data shred
there. -/
theorem dataAt_of_acceptedAt {h : List Shred} {i : Nat} {x : Shred}
    (hx : acceptedAt h i = some x) (hdata : x.shredType = .data) : dataAt h i = some x := by
  unfold acceptedAt at hx
  split at hx
  · unfold dataAt
    induction h with
    | nil => cases hx
    | cons y ys ih =>
        by_cases hy : y.index = i
        · rw [List.find?_cons_of_pos _ (by simpa using hy)] at hx
          cases hx
          rw [List.find?_cons_of_pos _ (by simp [hy, hdata])]
        · rw [List.find?_cons_of_neg _ (by simpa using hy)] at hx
          rw [List.find?_cons_of_neg _ (by simp [hy]), ih hx]
  · cases hx

theorem acceptedAt_isSome_of_dataAt {h : List Shred} {i : Nat} (hi : i < maxShredsPerSlot)
    (hd : (dataAt h i).isSome) : (acceptedAt h i).isSome := by
  obtain ⟨x, hx⟩ := Option.isSome_iff_exists.1 hd
  obtain ⟨hmem, -, rfl⟩ := dataAt_index hx
  unfold acceptedAt
  rw [if_pos hi, Option.isSome_iff_exists]
  cases hf : h.find? (·.index == x.index) with
  | none => exact absurd hmem (by simpa using List.find?_eq_none.1 hf x)
  | some y => exact ⟨y, rfl⟩

theorem dataAt_append (h : List Shred) (x : Shred) (i : Nat) :
    dataAt (h ++ [x]) i =
      (dataAt h i).or (if x.shredType = .data ∧ x.index = i then some x else none) := by
  unfold dataAt
  by_cases hx : x.shredType = .data ∧ x.index = i
  · simp [hx, List.find?_append]
  · rw [List.find?_append, if_neg hx]
    congr 1
    simp only [List.find?_cons, List.find?_nil]
    split
    · rename_i hp; simp only [Bool.and_eq_true, beq_iff_eq] at hp; exact absurd hp hx
    · rfl

theorem acceptedAt_append_of_rejected {h : List Shred} {x : Shred}
    (hrej : x.index < maxShredsPerSlot → (acceptedAt h x.index).isSome) (i : Nat) :
    acceptedAt (h ++ [x]) i = acceptedAt h i := by
  rw [acceptedAt_append]
  split
  · rename_i hc
    obtain ⟨hi, rfl⟩ := hc
    obtain ⟨y, hy⟩ := Option.isSome_iff_exists.1 (hrej hi)
    simp [hy]
  · simp

theorem join_getElem?_set_resizeFor {s : List (Option Shred)} {i j : Nat} (y : Option Shred)
    (hij : j ≠ i) : ((resizeFor s i).set i y)[j]?.join = s[j]?.join := by
  rw [List.getElem?_set_ne (Ne.symm hij)]
  unfold resizeFor
  split
  · rw [List.getElem?_append]
    split
    · rfl
    · rename_i hj
      have hnone : s[j]? = none := List.getElem?_eq_none (by omega)
      rw [hnone, List.getElem?_replicate]
      split <;> rfl
  · rfl

theorem join_getElem?_clearRange_of_mem {s : List (Option Shred)} {l : List Nat} {j : Nat}
    (h : j ∈ l) : (clearRange s l)[j]?.join = none := by
  induction l generalizing s with
  | nil => cases h
  | cons i t ih =>
      show (clearRange (s.set i none) t)[j]?.join = none
      by_cases hjt : j ∈ t
      · exact ih hjt
      · have hji : j = i := by simpa [hjt] using h
        subst hji
        rw [getElem?_clearRange_of_not_mem hjt, List.getElem?_set, if_pos rfl]
        split <;> rfl

/-- **The slot state as a function of what the slot received.**  `h` is every shred fed to
`add_shred`, in order, and `emitted` the segments `try_deshred_fast` has returned.  A bit
is set exactly where a shred of either type was accepted; the vector holds the accepted
shred at and above `last_processed` and nothing below; `segment_ends` holds, once each,
the accepted `DATA_COMPLETE` indices at or above `last_processed`; and the emitted
segments are the canonical ones up to `last_processed`. -/
structure HistoryInv (h : List Shred) (st : SlotShrdsCompact) (emitted : List (List Shred)) :
    Prop where
  mask : ∀ i, Words.test st.receivedMask i = (acceptedAt h i).isSome
  stored : ∀ i, st.shreds[i]?.join = if st.lastProcessed ≤ i then acceptedAt h i else none
  ends : ∀ e, e ∈ st.segmentEnds ↔
    st.lastProcessed ≤ e ∧ ∃ x, acceptedAt h e = some x ∧ x.dataComplete = true
  nodup : st.segmentEnds.Nodup
  lastProcessed_le : st.lastProcessed ≤ maxShredsPerSlot
  peels : Peels h 0 emitted st.lastProcessed

theorem historyInv_new (slot : Nat) : HistoryInv [] (new slot) [] where
  mask i := by simp [new, acceptedAt]
  stored i := by simp [new, acceptedAt]
  ends e := by simp [new, acceptedAt]
  nodup := List.nodup_nil
  lastProcessed_le := Nat.zero_le _
  peels := .nil 0

/-- Below `last_processed` every index has an accepted shred. -/
theorem HistoryInv.acceptedAt_below {h : List Shred} {st : SlotShrdsCompact}
    {emitted : List (List Shred)} (hinv : HistoryInv h st emitted) {j : Nat}
    (hj : j < st.lastProcessed) : (acceptedAt h j).isSome :=
  acceptedAt_isSome_of_dataAt (by have := hinv.lastProcessed_le; omega)
    (hinv.peels.dataAt_isSome (Nat.zero_le _) hj)

theorem HistoryInv.addShred {h : List Shred} {st : SlotShrdsCompact}
    {emitted : List (List Shred)} (hinv : HistoryInv h st emitted) (x : Shred) :
    HistoryInv (h ++ [x]) (st.addShred x).2 emitted := by
  have hfst : (st.addShred x).1 = _ := addShred_fst
  cases hacc : (st.addShred x).1
  · rw [addShred_snd_of_rejected hacc]
    have hsame : ∀ i, acceptedAt (h ++ [x]) i = acceptedAt h i :=
      acceptedAt_append_of_rejected fun hi => by
        rw [← hinv.mask]; simpa [hacc, hi] using hfst
    refine ⟨fun i => by rw [hsame, hinv.mask], fun i => by rw [hsame, hinv.stored],
      fun e => by simp only [hsame]; exact hinv.ends e, hinv.nodup, hinv.lastProcessed_le,
      hinv.peels.append [x]⟩
  · obtain ⟨hfree, hends, hshreds, hmask⟩ := addShred_of_accepted hacc
    have hi : x.index < maxShredsPerSlot := by simp [hacc] at hfst; exact hfst.1
    have hnone : acceptedAt h x.index = none := by
      have := hinv.mask x.index
      rw [hfree] at this
      simpa using this.symm
    have hge : st.lastProcessed ≤ x.index := by
      by_contra hlt
      have : (acceptedAt h x.index).isSome := hinv.acceptedAt_below (by omega)
      simp [hnone] at this
    have hnew : ∀ i, acceptedAt (h ++ [x]) i =
        if i = x.index then some x else acceptedAt h i := by
      intro i
      rw [acceptedAt_append]
      by_cases hix : i = x.index
      · subst hix; simp [hnone, hi]
      · simp [hix, Ne.symm hix]
    have hnotin : x.index ∉ st.segmentEnds := fun hm => by
      obtain ⟨-, y, hy, -⟩ := (hinv.ends _).1 hm
      simp [hnone] at hy
    refine ⟨fun i => ?_, fun i => ?_, fun e => ?_, ?_, by simpa using hinv.lastProcessed_le, ?_⟩
    · rw [hmask, hinv.mask, hnew]
      by_cases hix : i = x.index
      · subst hix; simp [hnone]
      · simp [hix]
    · rw [hshreds, addShred_lastProcessed, hnew]
      by_cases hix : i = x.index
      · subst hix; simp [getElem?_set_resizeFor_self, hge]
      · rw [join_getElem?_set_resizeFor _ hix, hinv.stored, if_neg hix]
    · rw [hends, addShred_lastProcessed]
      simp only [hnew]
      by_cases hix : e = x.index
      · subst hix
        split <;> simp [hnotin, hge, *]
      · split <;> simp [hinv.ends e, hix]
    · rw [hends]
      split
      · exact List.nodup_append.2 ⟨hinv.nodup, List.nodup_singleton _,
          List.disjoint_singleton.2 hnotin⟩
      · exact hinv.nodup
    · rw [addShred_lastProcessed]
      refine hinv.peels.congr fun j hj => ?_
      have hjx : ¬ (x.shredType = .data ∧ x.index = j) := fun h => by omega
      rw [dataAt_append, if_neg hjx]
      cases dataAt h j <;> rfl

theorem take_drop_eq_map {s : List (Option Shred)} {lo e : Nat} (hlen : e + 1 ≤ s.length) :
    (s.take (e + 1)).drop lo = (List.range' lo (e + 1 - lo)).map fun j => s[j]?.join := by
  apply List.ext_getElem?
  intro k
  rw [List.getElem?_drop, List.getElem?_map]
  by_cases hk : lo + k < e + 1
  · rw [List.getElem?_take_of_lt hk, List.getElem?_range' _ _ (by omega)]
    simp only [Option.map_some', Nat.one_mul]
    rw [List.getElem?_eq_getElem (show lo + k < s.length by omega)]
    rfl
  · rw [List.getElem?_eq_none (by simp; omega), List.getElem?_eq_none (by simp; omega)]
    rfl

/-- The payloads `try_deshred_fast` passes to `deshred`: the accepted shreds of the range,
in index order. -/
theorem HistoryInv.slice_payloads {h : List Shred} {st : SlotShrdsCompact}
    {emitted : List (List Shred)} (hinv : HistoryInv h st emitted) {e : Nat}
    (hlen : e + 1 ≤ st.shreds.length) :
    ((st.shreds.take (e + 1)).drop st.lastProcessed).filterMap id =
      (List.range' st.lastProcessed (e + 1 - st.lastProcessed)).filterMap (acceptedAt h) := by
  rw [take_drop_eq_map hlen, List.filterMap_map]
  apply List.filterMap_congr
  intro j hj
  rw [List.mem_range'_1] at hj
  simp only [Function.comp, id]
  rw [hinv.stored j, if_pos hj.1]

variable {E : Type} {deshred : List Shred → Option (List UInt8)}
  {deserialize : List UInt8 → Option E}

/-- **An emission under the contract is the next canonical segment.** -/
theorem HistoryInv.tryDeshred (hd : DeshredContract deshred) {h : List Shred}
    {st st' : SlotShrdsCompact} {emitted : List (List Shred)} (hinv : HistoryInv h st emitted)
    {r : E × List UInt8} (hstep : st.tryDeshredFast deshred deserialize = .ok (some r, st')) :
    ∃ seg, deshred seg = some r.2 ∧ HistoryInv h st' (emitted ++ [seg]) := by
  obtain ⟨e, rest, hends, hall, -, h2, hdes, -, rfl⟩ := tryDeshredFast_some hstep
  rw [hinv.slice_payloads h2] at hdes
  have hnodup := hinv.nodup
  rw [hends] at hnodup
  obtain ⟨hlpe, y, hy, hyc⟩ := (hinv.ends e).1 (by simp [hends])
  have hsplit : (List.range' st.lastProcessed (e + 1 - st.lastProcessed)).filterMap
      (acceptedAt h) =
      (List.range' st.lastProcessed (e - st.lastProcessed)).filterMap (acceptedAt h) ++ [y] := by
    rw [show e + 1 - st.lastProcessed = (e - st.lastProcessed) + 1 by omega, List.range'_concat,
      List.filterMap_append, show st.lastProcessed + 1 * (e - st.lastProcessed) = e by omega]
    simp [hy]
  have hdata : ∀ j, st.lastProcessed ≤ j → j ≤ e → ∃ z, acceptedAt h j = some z ∧
      dataAt h j = some z ∧ (j < e → z.dataComplete = false) := by
    intro j hj1 hj2
    have hset := allReceived_ok_true hall j (List.mem_range'_1.2 ⟨hj1, by omega⟩)
    rw [hinv.mask] at hset
    obtain ⟨z, hz⟩ := Option.isSome_iff_exists.1 hset
    have hzmem : z ∈ (List.range' st.lastProcessed (e + 1 - st.lastProcessed)).filterMap
        (acceptedAt h) := List.mem_filterMap.2 ⟨j, List.mem_range'_1.2 ⟨hj1, by omega⟩, hz⟩
    refine ⟨z, hz, dataAt_of_acceptedAt hz (hd.data hdes z hzmem), fun hje => hd.inner hdes z ?_⟩
    rw [hsplit, List.dropLast_concat]
    exact List.mem_filterMap.2 ⟨j, List.mem_range'_1.2 ⟨hj1, by omega⟩, hz⟩
  have hnext : NextEnd h st.lastProcessed e := by
    refine ⟨hlpe, ?_, fun j hj1 hj2 => ?_⟩
    · obtain ⟨z, hz, hdz, -⟩ := hdata e hlpe le_rfl
      rw [hy] at hz
      cases hz
      simp [endsSegment, hdz, hyc]
    · obtain ⟨z, -, hdz, hzc⟩ := hdata j hj1 (by omega)
      simp [endsSegment, hdz, hzc hj2]
  have hseg : segmentAt h st.lastProcessed e =
      some ((List.range' st.lastProcessed (e + 1 - st.lastProcessed)).filterMap
        (acceptedAt h)) := by
    have hcongr : ∀ j ∈ List.range' st.lastProcessed (e + 1 - st.lastProcessed),
        dataAt h j = acceptedAt h j := fun j hj => by
      rw [List.mem_range'_1] at hj
      obtain ⟨z, hz, hdz, -⟩ := hdata j hj.1 (by omega)
      rw [hz, hdz]
    unfold segmentAt
    rw [mapM_congr_mem hcongr, mapM_eq_some_filterMap fun j hj => by
      rw [List.mem_range'_1] at hj
      obtain ⟨z, hz, -⟩ := hdata j hj.1 (by omega)
      simp [hz]]
  refine ⟨_, hdes, hinv.mask, fun i => ?_, fun t => ?_, hnodup.of_cons,
    by have := (acceptedAt_index hy).2; simp only; omega, hinv.peels.snoc hnext hseg⟩
  · dsimp only
    by_cases hir : i ∈ List.range' st.lastProcessed (e + 1 - st.lastProcessed)
    · rw [join_getElem?_clearRange_of_mem hir]
      rw [List.mem_range'_1] at hir
      rw [if_neg (by omega)]
    · rw [getElem?_clearRange_of_not_mem hir, hinv.stored]
      rw [List.mem_range'_1] at hir
      by_cases hi : st.lastProcessed ≤ i
      · rw [if_pos hi, if_pos (by omega)]
      · rw [if_neg hi, if_neg (by omega)]
  · dsimp only
    constructor
    · intro ht
      obtain ⟨hlpt, z, hz, hzc⟩ := (hinv.ends t).1 (by simp [hends, ht])
      refine ⟨?_, z, hz, hzc⟩
      have hte : t ≠ e := fun h => (List.nodup_cons.1 hnodup).1 (h ▸ ht)
      by_contra hlt
      obtain ⟨z', hz', -, hz'c⟩ := hdata t hlpt (by omega)
      rw [hz] at hz'
      cases hz'
      rw [hz'c (by omega)] at hzc
      cases hzc
    · rintro ⟨hle, z, hz, hzc⟩
      have hmem := (hinv.ends t).2 ⟨by omega, z, hz, hzc⟩
      rw [hends] at hmem
      rcases List.mem_cons.1 hmem with rfl | hmem
      · omega
      · exact hmem

/-- **Under the relation, `try_deshred_fast` never panics**, whatever `deshred` and the
deserializer do: the head of `segment_ends` is an accepted index at or above
`last_processed`, so its entry is in the vector. -/
theorem HistoryInv.tryDeshredFast_ok {h : List Shred} {st : SlotShrdsCompact}
    {emitted : List (List Shred)} (hinv : HistoryInv h st emitted) :
    ∃ r st', st.tryDeshredFast deshred deserialize = .ok (r, st') := by
  have hhead : ∀ e rest, st.segmentEnds = e :: rest →
      st.lastProcessed ≤ e ∧ e < maxShredsPerSlot ∧ e < st.shreds.length := by
    intro e rest hends
    obtain ⟨hlpe, y, hy, -⟩ := (hinv.ends e).1 (by simp [hends])
    have hstored := hinv.stored e
    rw [if_pos hlpe, hy] at hstored
    refine ⟨hlpe, (acceptedAt_index hy).2, ?_⟩
    by_contra hlen
    rw [List.getElem?_eq_none (by omega)] at hstored
    cases hstored
  obtain ⟨r, st', hok, -⟩ : ∃ r st', st.tryDeshredFast deshred deserialize = .ok (r, st') ∧
      st.lastProcessed ≤ st'.lastProcessed := tryDeshredFast_ok_of_head hhead
  exact ⟨r, st', hok⟩

end SlotShrdsCompact

end ShredRelay
