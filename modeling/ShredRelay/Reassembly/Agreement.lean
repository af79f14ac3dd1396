import ShredRelay.Reassembly.Liveness
import ShredRelay.Reassembly.Sharded
import ShredRelay.Reassembly.Reference

/-!
# The reference and the per-thread reassembler agree on a one-segment slot

`deshred_sharded.rs` is the fast reassembler and `deshred.rs` the reference it replaces.
They part on slots of several segments (`reference_misses_second_segment`) and on re-sent
shreds (`resent_shred_emitted_again`).  On a slot that receives one segment, each index
once, they agree: both return for the slot what `deshred` makes of its canonical segment
once all of it has arrived, and nothing before.

## Design notes

**The reference on one segment.**  Until the segment has arrived, the slot's entry stores
every data shred received, and `find_complete_segment` finds nothing: the only
`DataComplete` status can be `n`'s, and a range ending there needs every index below it.
The shred that completes the segment makes every status of `0 ..= n` present, so the range
`0 ..= n` is found and deshredded.  No index arrives twice, so no shred of the slot
follows.  `OneInv` says this of every prefix of a run.

## Main results

* `SlotShreds.findCompleteSegment_of_statuses`: with every status of `0 ..= n` present and
  only `n`'s `DataComplete`, the range found is `0 ..= n`.
* `DeshredManager.OneInv.run`: the reference keeps `OneInv` over every run.
* `reference_agrees_with_local`: on a one-segment slot, each index received once, the two
  reassemblers return the same payloads for the slot: `deshred` of its segment once it has
  arrived, and nothing before.
-/

namespace ShredRelay

open Canonical

namespace SlotShreds

/-- `position` stops at the first index whose test passes. -/
theorem position_eq_of_first {p : Nat → Bool} {i n j : Nat} (hj : i ≤ j) (hjn : j < i + n)
    (hpj : p j = true) (hbelow : ∀ k, i ≤ k → k < j → p k = false) :
    position p i n = some j := by
  induction n generalizing i with
  | zero => omega
  | succ n ih =>
      unfold position
      by_cases hij : i = j
      · subst hij; simp [hpj]
      · simp only [hbelow i le_rfl (by omega), Bool.false_eq_true, if_false]
        exact ih (by omega) (by omega) fun k h₁ h₂ => hbelow k (by omega) h₂

/-- Over `NotDataComplete` statuses the backward scan runs down to 0. -/
theorem scanBack_of_notDataComplete {status : Nat → ShredStatus} :
    ∀ {e : Nat}, (∀ k < e, status k = .notDataComplete) → scanBack status e = some 0
  | 0, _ => rfl
  | e + 1, h => by
      simp only [scanBack, h e (by omega)]
      exact scanBack_of_notDataComplete fun k hk => h k (by omega)

/-- **The whole segment is found**: with `n` below 32768 the first `DataComplete` status and
every status below it `NotDataComplete`, `find_complete_segment` returns `0 ..= n`. -/
theorem findCompleteSegment_of_statuses {st : SlotShreds} {n : Nat}
    (hn : n < maxDataShredsPerSlot) (hdc : st.dataStatus n = .dataComplete)
    (hbelow : ∀ k < n, st.dataStatus k = .notDataComplete) :
    st.findCompleteSegment = some (0, n) := by
  have hpos : position (st.dataStatus · == .dataComplete) 0 maxDataShredsPerSlot = some n :=
    position_eq_of_first (Nat.zero_le n) (by simpa using hn) (by simp [hdc])
      fun k _ hk => by simp [hbelow k hk]
  simp only [findCompleteSegment, hpos, scanBack_of_notDataComplete hbelow]

/-- `add_shred` stores a new data shred of an index below 32768. -/
theorem addShred_of_new {st : SlotShreds} {x : Shred} (hdata : x.shredType = .data)
    (hlt : x.index < maxDataShredsPerSlot) (hnone : st.dataShreds x.index = none) :
    (st.addShred x).1 = true ∧
      (st.addShred x).2.dataShreds = Function.update st.dataShreds x.index (some x) := by
  unfold addShred
  simp [hdata, hnone, Nat.not_le.2 hlt]

variable {E : Type} {deshred : List Shred → Option (List UInt8)}
  {deserialize : List UInt8 → Option E}

/-- On a range `0 ..= n` found with every data shred present, and a deserializer that
accepts what `deshred` makes of the shreds, `try_deshred` returns that. -/
theorem tryDeshred_payload (deshred : List Shred → Option (List UInt8)) {st : SlotShreds}
    {n : Nat} (hfind : st.findCompleteSegment = some (0, n))
    (hall : ∀ k ≤ n, (st.dataShreds k).isSome)
    (hser : ∀ p, deshred ((List.range' 0 (n + 1)).filterMap st.dataShreds) = some p →
      (deserialize p).isSome) :
    (st.tryDeshred deshred deserialize).1.map Prod.snd =
      deshred ((List.range' 0 (n + 1)).filterMap st.dataShreds) := by
  have hsome : ((List.range' 0 (n + 1)).map st.dataShreds).any (·.isNone) = false := by
    simp only [List.any_eq_false, List.mem_map, List.mem_range'_1]
    rintro _ ⟨k, hk, rfl⟩
    simpa [Option.isNone_iff_eq_none, Option.isSome_iff_ne_none] using hall k (by omega)
  unfold tryDeshred
  simp only [hfind, Nat.sub_zero, hsome, Bool.false_eq_true, if_false, List.filterMap_map,
    Function.id_comp]
  cases hp : deshred ((List.range' 0 (n + 1)).filterMap st.dataShreds) with
  | none => rfl
  | some p => obtain ⟨e, he⟩ := Option.isSome_iff_exists.1 (hser p hp); simp [he]

end SlotShreds

namespace DeshredManager

variable {E : Type} {deshred : List Shred → Option (List UInt8)}
  {deserialize : List UInt8 → Option E}

/-- The entry of slot `s`: the map's, or the fresh one `add_shred` would insert. -/
def entry (m : DeshredManager) (s : Nat) : SlotShreds := (m.slots s).getD (SlotShreds.new s)

theorem addShred_entry_of_ne (m : DeshredManager) {x : Shred} {s : Nat} (hs : x.slot ≠ s) :
    (m.addShred deshred deserialize x).2.entry s = m.entry s := by
  unfold addShred entry
  dsimp only
  split <;> simp [Function.update_noteq (Ne.symm hs)]

theorem addShred_slot (m : DeshredManager) (x : Shred) :
    ∀ o ∈ (m.addShred deshred deserialize x).1.toList, o.1 = x.slot := by
  intro o ho
  unfold addShred at ho
  dsimp only at ho
  split at ho
  · simp at ho
  · simp only [Option.mem_toList, Option.mem_def, Option.map_eq_some'] at ho
    obtain ⟨out, -, rfl⟩ := ho
    rfl

/-- An accepted shred: the entry is what `try_deshred` leaves, and the output what it
returns. -/
theorem addShred_of_accepted (deshred : List Shred → Option (List UInt8))
    (deserialize : List UInt8 → Option E) {m : DeshredManager} {x : Shred}
    (hacc : ((m.entry x.slot).addShred x).1 = true) :
    (m.addShred deshred deserialize x).2.entry x.slot =
        (((m.entry x.slot).addShred x).2.tryDeshred deshred deserialize).2 ∧
      (m.addShred deshred deserialize x).1 =
        (((m.entry x.slot).addShred x).2.tryDeshred deshred deserialize).1.map
          fun out => (x.slot, out.1, out.2) := by
  unfold entry at hacc
  simp [addShred, entry, hacc]

variable (deshred) in
/-- **The reference on a one-segment slot** `s`, after the shreds `xs`: the slot's entry
keeps the slot invariant; until the segment has arrived nothing is returned for the slot
and the entry holds the data shred of each index received; once it has, the slot's
payloads are what `deshred` makes of its segment. -/
structure OneInv (s n : Nat) (xs : List Shred) (m : DeshredManager)
    (outs : List (Nat × E × List UInt8)) : Prop where
  slot : SlotShreds.SlotInv (slotHistory s xs) (m.entry s)
  waiting : ¬Arrived s n xs → payloadsOf s outs = [] ∧
    ∀ i, (m.entry s).dataShreds i = dataAt (slotHistory s xs) i
  done : Arrived s n xs → payloadsOf s outs = (segments (slotHistory s xs)).filterMap deshred

variable {s n : Nat} {xs : List Shred} {m : DeshredManager} {outs : List (Nat × E × List UInt8)}

theorem oneInv_new (s n : Nat) : OneInv deshred s n [] new ([] : List (Nat × E × List UInt8)) :=
  ⟨SlotShreds.slotInv_new _ _, fun _ => ⟨rfl, fun _ => rfl⟩, fun h => absurd h not_arrived_nil⟩

/-- A shred of another slot changes nothing of slot `s`. -/
theorem OneInv.addShred_of_ne (hinv : OneInv deshred s n xs m outs) {x : Shred}
    (hs : x.slot ≠ s) :
    OneInv deshred s n (xs ++ [x]) (m.addShred deshred deserialize x).2
      (outs ++ (m.addShred deshred deserialize x).1.toList) := by
  have hh : slotHistory s (xs ++ [x]) = slotHistory s xs := slotHistory_append_of_ne hs
  have harr : Arrived s n (xs ++ [x]) ↔ Arrived s n xs := by unfold Arrived; rw [hh]
  have hp : payloadsOf s (outs ++ (m.addShred deshred deserialize x).1.toList) =
      payloadsOf s outs :=
    payloadsOf_append_of_ne fun o ho => (addShred_slot m x o ho).trans_ne hs
  refine ⟨by rw [hh, addShred_entry_of_ne m hs]; exact hinv.slot, fun h => ?_, fun h => ?_⟩
  · rw [hp, hh, addShred_entry_of_ne m hs]; exact hinv.waiting (mt harr.2 h)
  · rw [hp, hh]; exact hinv.done (harr.1 h)

/-- Before the segment has arrived, the stored data shreds are the history's, and no range
is found: the only `DataComplete` status is `n`'s, and a range to it needs all of
`0 ..= n`. -/
theorem tryDeshred_none_of_not_arrived (deshred : List Shred → Option (List UInt8))
    (deserialize : List UInt8 → Option E) {st : SlotShreds} (hst : SlotShreds.SlotInv
    (slotHistory s xs) st) (hone : OneSegment s n xs) (hnarr : ¬Arrived s n xs) :
    (st.tryDeshred deshred deserialize).1 = none := by
  cases hr : (st.tryDeshred deshred deserialize).1 with
  | none => rfl
  | some r =>
      obtain ⟨start, e, hfind, -, -, -, -⟩ := SlotShreds.tryDeshred_some hr
      obtain ⟨-, -, hdc, hbelow⟩ := SlotShreds.findCompleteSegment_eq_some hfind
      have hat : ∀ k, st.dataStatus k ≠ .unknown → ∃ y ∈ slotHistory s xs, y.index = k ∧
          (y.dataComplete = true ↔ st.dataStatus k = .dataComplete) := by
        intro k hk
        rw [hst.status k] at hk ⊢
        cases hy : st.dataShreds k with
        | none => simp [hy, SlotShreds.statusOf] at hk
        | some y =>
            obtain ⟨hmem, -, hyk⟩ := hst.stored k y hy
            refine ⟨y, hmem, hyk, ?_⟩
            cases hc : y.dataComplete <;> simp [SlotShreds.statusOf, hc]
      obtain ⟨y, hy, rfl, hyc⟩ := hat e (by rw [hdc]; decide)
      have hen : y.index = n := (hone.shreds y hy).2.2.1 (hyc.2 hdc)
      refine absurd (fun i hi => ?_) hnarr
      rcases Nat.lt_or_eq_of_le hi with hi | rfl
      · obtain ⟨z, hz, hzi, -⟩ := hat i (by rw [hbelow i (hen ▸ hi)]; decide)
        exact ⟨z, hz, hzi⟩
      · exact ⟨y, hy, hen⟩

/-- Once the segment has arrived, with the entry storing the history's data shreds, every
status of `0 ..= n` is present and only `n`'s is `DataComplete`: the range `0 ..= n` is
found, and `try_deshred` returns what `deshred` makes of the segment. -/
theorem tryDeshred_of_arrived (deshred : List Shred → Option (List UInt8))
    (deserialize : List UInt8 → Option E) {st : SlotShreds}
    (hst : SlotShreds.SlotInv (slotHistory s xs) st)
    (hdata : ∀ i, st.dataShreds i = dataAt (slotHistory s xs) i) (hone : OneSegment s n xs)
    (harr : Arrived s n xs) (hser : ∀ seg ∈ segments (slotHistory s xs), ∀ p,
      deshred seg = some p → (deserialize p).isSome) :
    ((st.tryDeshred deshred deserialize).1.map Prod.snd).toList =
      (segments (slotHistory s xs)).filterMap deshred := by
  have hat : ∀ k ≤ n, ∃ y, st.dataShreds k = some y ∧ y ∈ slotHistory s xs ∧ y.index = k :=
    fun k hk => by
      obtain ⟨y, hy⟩ := Option.isSome_iff_exists.1 (harr.dataAt_isSome hone hk)
      exact ⟨y, (hdata k).trans hy, (dataAt_index hy).1, (dataAt_index hy).2.2⟩
  have hstatus : ∀ k ≤ n, st.dataStatus k =
      if k = n then .dataComplete else .notDataComplete := fun k hk => by
    obtain ⟨y, hy, hmem, rfl⟩ := hat k hk
    rw [hst.status, hy, SlotShreds.statusOf]
    by_cases hkn : y.index = n
    · simp [hkn, (hone.shreds y hmem).2.2.2 hkn]
    · simp [hkn, mt (hone.shreds y hmem).2.2.1 hkn]
  have hfind : st.findCompleteSegment = some (0, n) :=
    SlotShreds.findCompleteSegment_of_statuses
      (by have := hone.lt; unfold maxShredsPerSlot maxDataShredsPerSlot at *; omega)
      (by simpa using hstatus n le_rfl)
      fun k hk => by simpa [Nat.ne_of_lt hk] using hstatus k hk.le
  have hseg : (List.range' 0 (n + 1)).filterMap st.dataShreds ∈ segments (slotHistory s xs) := by
    rw [segments_of_arrived hone harr, List.filterMap_congr fun k _ => hdata k]
    exact List.mem_singleton_self _
  rw [SlotShreds.tryDeshred_payload deshred hfind
      (fun k hk => by obtain ⟨y, hy, -⟩ := hat k hk; simp [hy]) (hser _ hseg),
    segments_of_arrived hone harr, List.filterMap_cons, List.filterMap_nil,
    List.filterMap_congr fun k _ => hdata k]
  cases deshred ((List.range' 0 (n + 1)).filterMap (dataAt (slotHistory s xs))) <;> rfl

/-- A shred of slot `s` whose index no earlier shred of the slot has finds the slot still
waiting: `add_shred` accepts it, and the slot's entry then holds the data shreds of the
slot's history. -/
theorem OneInv.addShred_entry (hinv : OneInv deshred s n xs m outs) {x : Shred}
    (hs : x.slot = s) (hone : OneSegment s n (xs ++ [x]))
    (hnodup : ((slotHistory s (xs ++ [x])).map Shred.index).Nodup) :
    ((m.entry s).addShred x).1 = true ∧ payloadsOf s outs = [] ∧
      SlotShreds.SlotInv (slotHistory s (xs ++ [x])) ((m.entry s).addShred x).2 ∧
      ∀ i, ((m.entry s).addShred x).2.dataShreds i = dataAt (slotHistory s (xs ++ [x])) i := by
  subst hs
  have hh : slotHistory x.slot (xs ++ [x]) = slotHistory x.slot xs ++ [x] :=
    slotHistory_append_self xs x
  obtain ⟨hdata, hle, -⟩ := hone.shreds x (by rw [hh]; exact List.mem_append_right _ (by simp))
  have hnotin : ∀ y ∈ slotHistory x.slot xs, y.index ≠ x.index := by
    rw [hh, List.map_append, List.nodup_append] at hnodup
    exact fun y hy he => hnodup.2.2 (List.mem_map_of_mem _ hy) (by simp [he])
  have hnarr : ¬Arrived x.slot n xs := fun harr => by
    obtain ⟨y, hy, hyi⟩ := harr x.index hle
    exact hnotin y hy hyi
  obtain ⟨hpay, hstored⟩ := hinv.waiting hnarr
  have hnone : (m.entry x.slot).dataShreds x.index = none := by
    rw [hstored, dataAt, List.find?_eq_none]
    intro y hy
    simp [hnotin y hy]
  have hlt : x.index < maxDataShredsPerSlot := by
    have := hone.lt; unfold maxShredsPerSlot maxDataShredsPerSlot at *; omega
  obtain ⟨hacc, hst₁⟩ := SlotShreds.addShred_of_new hdata hlt hnone
  refine ⟨hacc, hpay, by rw [hh]; exact hinv.slot.addShred x, fun i => ?_⟩
  rw [hst₁, hh, SlotShrdsCompact.dataAt_append]
  by_cases hi : x.index = i
  · subst hi; simp [← hstored, hnone, hdata]
  · simp [Function.update_noteq (Ne.symm hi), hstored, hi]

/-- **The arrival of a shred of slot `s`**: it is new, so it is stored; it completes the
segment, and the segment is deshredded, or it does not, and nothing is returned. -/
theorem OneInv.addShred_self (hinv : OneInv deshred s n xs m outs) {x : Shred} (hs : x.slot = s)
    (hone : OneSegment s n (xs ++ [x]))
    (hnodup : ((slotHistory s (xs ++ [x])).map Shred.index).Nodup)
    (hser : ∀ seg ∈ segments (slotHistory s (xs ++ [x])), ∀ p, deshred seg = some p →
      (deserialize p).isSome) :
    OneInv deshred s n (xs ++ [x]) (m.addShred deshred deserialize x).2
      (outs ++ (m.addShred deshred deserialize x).1.toList) := by
  subst hs
  obtain ⟨hacc, hpay, hinv₁, hdata₁⟩ := hinv.addShred_entry rfl hone hnodup
  obtain ⟨hentry, hout⟩ := addShred_of_accepted deshred deserialize hacc
  set st₁ := ((m.entry x.slot).addShred x).2
  have hpay' : payloadsOf x.slot (outs ++ (m.addShred deshred deserialize x).1.toList) =
      ((st₁.tryDeshred deshred deserialize).1.map Prod.snd).toList := by
    rw [hout, payloadsOf_append, hpay, List.nil_append]
    cases (st₁.tryDeshred deshred deserialize).1 <;> simp [payloadsOf]
  by_cases harr : Arrived x.slot n (xs ++ [x])
  · -- the completing arrival: the range `0 ..= n` is found and deshredded
    refine ⟨by rw [hentry]; exact hinv₁.tryDeshred, fun h => absurd harr h, fun _ => ?_⟩
    rw [hpay', tryDeshred_of_arrived deshred deserialize hinv₁ hdata₁ hone harr hser]
  · -- not yet complete: nothing is found, and the slot keeps the shred
    have hnone₁ := tryDeshred_none_of_not_arrived deshred deserialize hinv₁ hone harr
    have hst : (m.addShred deshred deserialize x).2.entry x.slot = st₁ := by
      rw [hentry, SlotShreds.tryDeshred_snd_of_none hnone₁]
    refine ⟨hst ▸ hinv₁, fun _ => ⟨by rw [hpay', hnone₁]; rfl, by rw [hst]; exact hdata₁⟩,
      fun h => absurd h harr⟩

theorem OneInv.run (hinv : OneInv deshred s n xs m outs) (ys : List Shred)
    (hone : OneSegment s n (xs ++ ys))
    (hnodup : ((slotHistory s (xs ++ ys)).map Shred.index).Nodup)
    (hser : ∀ seg ∈ segments (slotHistory s (xs ++ ys)), ∀ p, deshred seg = some p →
      (deserialize p).isSome) :
    OneInv deshred s n (xs ++ ys) (run deshred deserialize m ys).2
      (outs ++ (run deshred deserialize m ys).1) := by
  induction ys generalizing xs m outs with
  | nil => simpa [DeshredManager.run] using hinv
  | cons y ys ih =>
      have hone' : OneSegment s n (xs ++ [y] ++ ys) := by simpa using hone
      have hnodup' : ((slotHistory s (xs ++ [y])).map Shred.index).Nodup := by
        rw [show xs ++ y :: ys = xs ++ [y] ++ ys by simp, slotHistory_append,
          List.map_append] at hnodup
        exact (List.nodup_append.1 hnodup).1
      -- the segment, once it has arrived, is the one of the whole run
      have hser' : ∀ seg ∈ segments (slotHistory s (xs ++ [y])), ∀ p, deshred seg = some p →
          (deserialize p).isSome := by
        by_cases harr : Arrived s n (xs ++ [y])
        · rw [← segments_append_of_arrived hone' harr]; simpa using hser
        · simp [segments_of_not_arrived hone'.of_append harr]
      have h₁ : OneInv deshred s n (xs ++ [y]) (m.addShred deshred deserialize y).2
          (outs ++ (m.addShred deshred deserialize y).1.toList) := by
        by_cases hs : y.slot = s
        · exact hinv.addShred_self hs hone'.of_append hnodup' hser'
        · exact hinv.addShred_of_ne hs
      simpa [DeshredManager.run] using ih h₁ hone' (by simpa using hnodup) (by simpa using hser)

end DeshredManager

/-! ## Slot `s` alone in its window entry -/

namespace DeshredManagerLocal

variable {E : Type} {deshred : List Shred → Option (List UInt8)}
  {deserialize : List UInt8 → Option E}

/-- `add_shred` writes only the window entry of its shred's slot. -/
theorem addShred_slots_of_ne {m m' : DeshredManagerLocal} {x : Shred}
    {r : Option (Nat × E × List UInt8)} (h : m.addShred deshred deserialize x = .ok (r, m'))
    {i : Fin slotWindowSize} (hi : i ≠ slotIdx x.slot) : m'.slots i = m.slots i := by
  unfold DeshredManagerLocal.addShred at h
  dsimp only at h
  split at h
  · cases h; exact Function.update_noteq hi _ _
  · split at h
    · cases h
    · cases h; exact Function.update_noteq hi _ _

/-- `add_shred` reads only the window entry of its shred's slot: two managers that agree on
it return the same output and still agree on it. -/
theorem addShred_congr {m₁ m₂ m₁' : DeshredManagerLocal} {x : Shred}
    {r : Option (Nat × E × List UInt8)}
    (he : m₁.slots (slotIdx x.slot) = m₂.slots (slotIdx x.slot))
    (h : m₁.addShred deshred deserialize x = .ok (r, m₁')) :
    ∃ m₂', m₂.addShred deshred deserialize x = .ok (r, m₂') ∧
      m₁'.slots (slotIdx x.slot) = m₂'.slots (slotIdx x.slot) := by
  have hentry : m₂.slotEntry x.slot = m₁.slotEntry x.slot := by simp only [slotEntry, he]
  unfold DeshredManagerLocal.addShred at h ⊢
  dsimp only at h ⊢
  rw [hentry]
  split at h
  · rename_i hc
    cases h
    exact ⟨_, by rw [if_pos hc], by simp [putEntry]⟩
  · rw [if_neg ‹_›]
    split at h
    · cases h
    · cases h
      exact ⟨_, rfl, by simp [putEntry]⟩

theorem run_cons_eq_ok {m m' : DeshredManagerLocal} {x : Shred} {xs : List Shred}
    {outs : List (Nat × E × List UInt8)} (h : run deshred deserialize m (x :: xs) = .ok (outs, m')) :
    ∃ r m₁ outs', m.addShred deshred deserialize x = .ok (r, m₁) ∧
      run deshred deserialize m₁ xs = .ok (outs', m') ∧ outs = r.toList ++ outs' := by
  unfold run at h
  split at h
  · cases h
  · rename_i r m₁ h₁
    split at h
    · cases h
    · rename_i outs' m'' h₂
      cases h
      exact ⟨r, m₁, outs', h₁, h₂, rfl⟩

/-- **Slot `s` alone.**  When no shred of another slot shares `s`'s window entry, what a run
returns for `s`, and the entry it leaves, are those of the run of `s`'s shreds alone. -/
theorem run_slotHistory {s : Nat} : ∀ {xs : List Shred} {m₁ m₂ m₁' : DeshredManagerLocal}
    {outs₁ : List (Nat × E × List UInt8)},
    (∀ x ∈ xs, slotIdx x.slot = slotIdx s → x.slot = s) →
    m₁.slots (slotIdx s) = m₂.slots (slotIdx s) →
    run deshred deserialize m₁ xs = .ok (outs₁, m₁') →
    ∃ outs₂ m₂', run deshred deserialize m₂ (slotHistory s xs) = .ok (outs₂, m₂') ∧
      payloadsOf s outs₁ = payloadsOf s outs₂ ∧ m₁'.slots (slotIdx s) = m₂'.slots (slotIdx s)
  | [], m₁, m₂, _, _, _, he, h => by
      cases h; exact ⟨[], m₂, rfl, rfl, he⟩
  | x :: xs, m₁, m₂, _, _, hfree, he, h => by
      obtain ⟨r, m₁a, outs, h₁, h₂, rfl⟩ := run_cons_eq_ok h
      have hfree' : ∀ y ∈ xs, slotIdx y.slot = slotIdx s → y.slot = s :=
        fun y hy => hfree y (List.mem_cons_of_mem _ hy)
      by_cases hx : x.slot = s
      · -- a shred of `s`: both runs take it, from the same entry
        subst hx
        obtain ⟨m₂a, h₁', he'⟩ := addShred_congr he h₁
        obtain ⟨outs₂, m₂', h₂', hpay, he''⟩ := run_slotHistory hfree' he' h₂
        have hh : slotHistory x.slot (x :: xs) = x :: slotHistory x.slot xs := by
          simp [slotHistory]
        refine ⟨r.toList ++ outs₂, m₂', ?_, by rw [payloadsOf_append, payloadsOf_append, hpay],
          he''⟩
        simp only [hh, run, h₁', h₂']
      · -- another slot's shred: the entry of `s` is untouched, and nothing is returned for `s`
        have hidx : slotIdx s ≠ slotIdx x.slot := fun hi => hx (hfree x (by simp) hi.symm)
        have he' : m₁a.slots (slotIdx s) = m₂.slots (slotIdx s) :=
          (addShred_slots_of_ne h₁ hidx).trans he
        obtain ⟨outs₂, m₂', h₂', hpay, he''⟩ := run_slotHistory hfree' he' h₂
        have hh : slotHistory s (x :: xs) = slotHistory s xs := by simp [slotHistory, hx]
        refine ⟨outs₂, m₂', hh ▸ h₂', ?_, he''⟩
        have hr := @payloadsOf_append_of_ne E [] r.toList s fun o ho =>
          (DeshredManagerSharded.DeshredManagerLocal.addShred_tag h₁ o ho).trans_ne hx
        rw [List.nil_append] at hr
        rw [payloadsOf_append, hr, hpay]
        rfl

theorem Resident.run (hd : DeshredContract deshred) {m : DeshredManagerLocal}
    (h : Resident deshred deserialize m) (xs : List Shred) :
    ∃ outs m', DeshredManagerLocal.run deshred deserialize m xs = .ok (outs, m') := by
  induction xs generalizing m with
  | nil => exact ⟨[], m, rfl⟩
  | cons x xs ih =>
      obtain ⟨r, m₁, h₁, hres⟩ := h.addShred hd x
      obtain ⟨outs, m', h₂⟩ := ih hres
      exact ⟨r.toList ++ outs, m', by simp [DeshredManagerLocal.run, h₁, h₂]⟩

end DeshredManagerLocal

section Agreement

variable {E : Type} {deshred : List Shred → Option (List UInt8)}
  {deserialize : List UInt8 → Option E} {s n : Nat}

/-- The per-thread reassembler on a one-segment slot: `deshred` of the segment once it has
arrived, and nothing before. -/
theorem DeshredManagerLocal.payloads_one_segment (hd : DeshredContract deshred)
    {xs : List Shred} (hfree : ∀ x ∈ xs, ∀ y ∈ xs,
      x.slot % slotWindowSize = y.slot % slotWindowSize → x.slot = y.slot)
    (hone : OneSegment s n xs) (hok : ∀ seg ∈ segments (slotHistory s xs), (deshred seg).isSome)
    (hser : ∀ seg ∈ segments (slotHistory s xs), ∀ p, deshred seg = some p →
      (deserialize p).isSome) :
    ∃ outs m, DeshredManagerLocal.run deshred deserialize .new xs = .ok (outs, m) ∧
      payloadsOf s outs = (segments (slotHistory s xs)).filterMap deshred := by
  obtain ⟨outs, m, hrun, hinv, hdone⟩ :=
    (DeshredManagerLocal.localInv_new deshred).run_completes hd xs (by simpa using hfree)
      (by simpa using hone) (by simpa using hok) (by simpa using hser)
      fun h => absurd h not_arrived_nil
  simp only [List.nil_append] at hinv hdone
  refine ⟨outs, m, hrun, ?_⟩
  by_cases harr : Arrived s n xs
  · exact forall₂_eq_filterMap (hinv.forall₂_segments hone harr (hdone harr))
  · obtain ⟨segs, hpre, hf⟩ := hinv.payloads_prefix s
    rw [segments_of_not_arrived hone harr, List.prefix_nil] at hpre
    subst hpre
    rw [List.forall₂_nil_left_iff.1 hf, segments_of_not_arrived hone harr]
    rfl

theorem slotHistory_slotHistory (s : Nat) (xs : List Shred) :
    slotHistory s (slotHistory s xs) = slotHistory s xs := by
  simp [slotHistory, List.filter_filter]

/-- **The optimised reassembler refines the reference on one-segment slots.**  When slot
`s` receives one segment `0 ..= n`, each index once, in any order and between shreds of
other slots, none of which shares its window entry, `DeshredManagerLocal` does not panic,
and it and `DeshredManager` return the same payloads for the slot: what `deshred` makes of
the segment once all of it has arrived, and nothing before. -/
theorem reference_agrees_with_local (hd : DeshredContract deshred) {xs : List Shred}
    (hfree : ∀ x ∈ xs, x.slot % slotWindowSize = s % slotWindowSize → x.slot = s)
    (hone : OneSegment s n xs) (hnodup : ((slotHistory s xs).map Shred.index).Nodup)
    (hok : ∀ seg ∈ segments (slotHistory s xs), (deshred seg).isSome)
    (hser : ∀ seg ∈ segments (slotHistory s xs), ∀ p, deshred seg = some p →
      (deserialize p).isSome) :
    ∃ outs m, DeshredManagerLocal.run deshred deserialize .new xs = .ok (outs, m) ∧
      payloadsOf s (DeshredManager.run deshred deserialize .new xs).1 = payloadsOf s outs ∧
      payloadsOf s outs = (segments (slotHistory s xs)).filterMap deshred := by
  -- the local run does not panic, and for `s` it returns what the run of `s`'s shreds does
  have hres : DeshredManagerLocal.Resident deshred deserialize .new :=
    DeshredManagerLocal.resident_new
  obtain ⟨outs, m, hrun⟩ := hres.run hd xs
  obtain ⟨outs₂, m₂, hrun₂, hpay, -⟩ := DeshredManagerLocal.run_slotHistory
    (fun x hx h => hfree x hx (DeshredManagerLocal.slotIdx_eq_iff.1 h)) rfl hrun
  have hh := slotHistory_slotHistory s xs
  obtain ⟨outs', m', hrun', hloc⟩ := DeshredManagerLocal.payloads_one_segment hd
    (show ∀ x ∈ slotHistory s xs, ∀ y ∈ slotHistory s xs, _ from fun x hx y hy _ => by
      rw [slot_of_mem_slotHistory hx, slot_of_mem_slotHistory hy])
    ⟨hone.lt, by rw [hh]; exact hone.shreds⟩ (by rwa [hh]) (by rwa [hh])
  rw [hrun₂] at hrun'
  cases hrun'
  rw [hh] at hloc
  have href : DeshredManager.OneInv deshred s n ([] ++ xs)
      (DeshredManager.run deshred deserialize .new xs).2
      ([] ++ (DeshredManager.run deshred deserialize .new xs).1) :=
    (DeshredManager.oneInv_new s n).run xs (by simpa using hone) (by simpa using hnodup)
      (by simpa using hser)
  simp only [List.nil_append] at href
  refine ⟨outs, m, hrun, ?_, hpay.trans hloc⟩
  rw [hpay, hloc]
  by_cases harr : Arrived s n xs
  · exact href.done harr
  · rw [(href.waiting harr).1, segments_of_not_arrived hone harr]
    rfl

/-- Slot 7's data shreds `0 ..= 2`, only `2` complete, arriving as `2, 0, 1`, with slot 8's
shred `0` in between. -/
def interleavedRun : List Shred :=
  [⟨7, 2, .data, .dataComplete, [2]⟩, ⟨8, 0, .data, .none, [9]⟩, ⟨7, 0, .data, .none, [0]⟩,
    ⟨7, 1, .data, .none, [1]⟩]

theorem reference_agrees_with_local_interleaved :
    OneSegment 7 2 interleavedRun ∧
      ∃ outs m, DeshredManagerLocal.run Shredder.deshred (some : List UInt8 → Option (List UInt8))
          .new interleavedRun = .ok (outs, m) ∧
        payloadsOf 7 (DeshredManager.run Shredder.deshred
          (some : List UInt8 → Option (List UInt8)) .new interleavedRun).1 = payloadsOf 7 outs ∧
        payloadsOf 7 outs = (segments (slotHistory 7 interleavedRun)).filterMap Shredder.deshred :=
  have hone : OneSegment 7 2 interleavedRun := ⟨by decide, by decide⟩
  ⟨hone, reference_agrees_with_local Shredder.deshred_contract (by decide) hone (by decide)
    (by decide) fun _ _ _ _ => rfl⟩

end Agreement

end ShredRelay
