import ShredRelay.Shred
import ShredRelay.Bitset
import Mathlib.Data.List.Nodup

/-!
# The compact per-slot reassembler

`SlotShrdsCompact` (`examples/deshred_sharded.rs`) is the per-slot state of the
lock-free reassembler: a 512-bit `received_mask`, a vector `shreds` grown on demand, the
list `segment_ends` of the `DATA_COMPLETE` indices in arrival order, and
`last_processed`, the first index not yet emitted.  `add_shred` stores a shred whose
bit is clear; `try_deshred_fast` tries the segment that ends at the head of
`segment_ends`, and on success pops it, moves `last_processed` past it and clears its
entries while leaving its bits set.

## Design notes

**Panics.**  The two places where `try_deshred_fast` could panic, the word read
`received_mask[idx / 64]` and the slice `shreds[start_idx..=end_idx]`, return
`Except.error` with the panic Rust would raise.  Every other index of the code is in
range by a check the code makes first.

**The external calls.**  `Shredder::deshred` and the entry deserializer are parameters,
so every result here holds for any behaviour of them unless it says otherwise.

## Main results

* `addShred_blocks_index`: a shred of either type, once accepted at an index, makes
  every later shred at that index a duplicate; `code_shred_blocks_data_shred` is the
  instance where a code shred shuts out the data shred of its index.
* `permissive_deshred_breaks_bound`: with a deshredder that accepts a range with an
  inner `DATA_COMPLETE`, a terminator that arrives after a later one leaves the head of
  `segment_ends` below `last_processed`, and the next `try_deshred_fast` panics.
* `segmentEnd_bounds_of_contract`: under `DeshredContract`, in every reachable state
  the head of `segment_ends` lies in `[last_processed, shreds.len())`, the vector has at
  most 512 entries, and `try_deshred_fast` neither panics nor moves `last_processed`
  back.
-/

namespace ShredRelay

/-- `MAX_SHREDS_PER_SLOT`. -/
def maxShredsPerSlot : Nat := 512

/-- The Rust panics the reassemblers can raise. -/
inductive Panic
  /-- `slice index starts at start but ends at stop` -/
  | sliceIndexOrder (start stop : Nat)
  /-- `range end index stop out of range for slice of length len` -/
  | sliceEndIndexLen (stop len : Nat)
  /-- `index out of bounds: the len is len but the index is index` -/
  | indexOutOfBounds (index len : Nat)
  deriving DecidableEq, Repr

/-- `SlotShrdsCompact`. -/
structure SlotShrdsCompact where
  slot : Nat
  receivedMask : Words 8
  shreds : List (Option Shred)
  segmentEnds : List Nat
  lastProcessed : Nat

namespace SlotShrdsCompact

/-- `SlotShrdsCompact::new`; the capacities it reserves are not observable. -/
def new (slot : Nat) : SlotShrdsCompact where
  slot := slot
  receivedMask := fun _ => 0#64
  shreds := []
  segmentEnds := []
  lastProcessed := 0

/-- `shreds.resize(index + 1, None)` when `index >= shreds.len()`. -/
def resizeFor (shreds : List (Option Shred)) (index : Nat) : List (Option Shred) :=
  if index ≥ shreds.length then shreds ++ List.replicate (index + 1 - shreds.length) none
  else shreds

/-- `SlotShrdsCompact::add_shred`: `true` when the shred is stored. -/
def addShred (st : SlotShrdsCompact) (shred : Shred) : Bool × SlotShrdsCompact :=
  let index := shred.index
  if hmax : index ≥ maxShredsPerSlot then (false, st)
  else
    let wordIdx : Fin 8 := ⟨index / 64, by unfold maxShredsPerSlot at hmax; omega⟩
    let mask := bit (index % 64)
    if st.receivedMask wordIdx &&& mask != 0#64 then (false, st)
    else
      (true,
        { st with
          receivedMask :=
            Function.update st.receivedMask wordIdx (st.receivedMask wordIdx ||| mask)
          segmentEnds :=
            if shred.shredType == .data && (shred.dataComplete || shred.lastInSlot) then
              st.segmentEnds ++ [index]
            else st.segmentEnds
          shreds := (resizeFor st.shreds index).set index (some shred) })

/-- The bitset loop of `try_deshred_fast`: `false` at the first position whose bit is
clear. -/
def allReceived (mask : Words 8) : List Nat → Except Panic Bool
  | [] => .ok true
  | idx :: rest =>
      if h : idx / 64 < 8 then
        if mask ⟨idx / 64, h⟩ &&& bit (idx % 64) == 0#64 then .ok false
        else allReceived mask rest
      else .error (.indexOutOfBounds (idx / 64) 8)

/-- `&shreds[start..=stop]`. -/
def sliceInclusive (shreds : List (Option Shred)) (start stop : Nat) :
    Except Panic (List (Option Shred)) :=
  if start > stop + 1 then .error (.sliceIndexOrder start (stop + 1))
  else if stop + 1 > shreds.length then .error (.sliceEndIndexLen (stop + 1) shreds.length)
  else .ok ((shreds.take (stop + 1)).drop start)

/-- The clearing loop `for idx in start_idx..=end_idx { self.shreds[idx] = None }`. -/
def clearRange (shreds : List (Option Shred)) (idxs : List Nat) : List (Option Shred) :=
  idxs.foldl (fun s idx => s.set idx none) shreds

section Calls

variable {E : Type} (deshred : List Shred → Option (List UInt8))
  (deserialize : List UInt8 → Option E)

/-- `SlotShrdsCompact::try_deshred_fast`: the emitted entries and payload, if any. -/
def tryDeshredFast (st : SlotShrdsCompact) :
    Except Panic (Option (E × List UInt8) × SlotShrdsCompact) :=
  match st.segmentEnds with
  | [] => .ok (none, st)
  | endIdx :: rest =>
      let range := List.range' st.lastProcessed (endIdx + 1 - st.lastProcessed)
      match allReceived st.receivedMask range with
      | .error e => .error e
      | .ok present =>
          if !present then .ok (none, st)
          else
            match sliceInclusive st.shreds st.lastProcessed endIdx with
            | .error e => .error e
            | .ok slice =>
                match deshred (slice.filterMap id) with
                | none => .ok (none, st)
                | some deshredded =>
                    match deserialize deshredded with
                    | none => .ok (none, st)
                    | some entries =>
                        .ok (some (entries, deshredded),
                          { st with
                            segmentEnds := rest
                            lastProcessed := endIdx + 1
                            shreds := clearRange st.shreds range })

/-- The states a slot reaches from `new slot` by any sequence of `add_shred` and
`try_deshred_fast` calls that do not panic. -/
inductive Reachable (slot : Nat) : SlotShrdsCompact → Prop
  | new : Reachable slot (new slot)
  | addShred {st : SlotShrdsCompact} (x : Shred) :
      Reachable slot st → Reachable slot (st.addShred x).2
  | tryDeshredFast {st st' : SlotShrdsCompact} {r : Option (E × List UInt8)} :
      Reachable slot st → st.tryDeshredFast deshred deserialize = .ok (r, st') →
        Reachable slot st'

end Calls

/-! ## `add_shred` -/

variable {st : SlotShrdsCompact} {x : Shred}

/-- `add_shred` stores a shred exactly when its index is below 512 and its bit is
clear. -/
theorem addShred_fst : (st.addShred x).1 =
    (decide (x.index < maxShredsPerSlot) && !Words.test st.receivedMask x.index) := by
  unfold addShred; dsimp only
  split
  · simp only [ge_iff_le, Bool.false_eq, Bool.and_eq_false_imp, decide_eq_true_eq] at *
    omega
  · rename_i hge
    have hlt : x.index < maxShredsPerSlot := Nat.lt_of_not_ge hge
    rw [Words.and_bit_ne_zero_eq_test]
    split <;> simp_all

/-- **What storing a shred changes**: its bit, `segment_ends` when it is
`DATA_COMPLETE`, and its entry of the vector. -/
theorem addShred_of_accepted (h : (st.addShred x).1 = true) :
    Words.test st.receivedMask x.index = false ∧
    (st.addShred x).2.segmentEnds =
      (if x.dataComplete then st.segmentEnds ++ [x.index] else st.segmentEnds) ∧
    (st.addShred x).2.shreds = (resizeFor st.shreds x.index).set x.index (some x) ∧
    ∀ j, Words.test (st.addShred x).2.receivedMask j =
      (Words.test st.receivedMask j || decide (j = x.index)) := by
  revert h
  unfold addShred; dsimp only
  split
  · simp
  · rw [Words.and_bit_ne_zero_eq_test]
    split
    · simp
    · rename_i hfree
      intro _
      exact ⟨by simpa using hfree, by simp, rfl, Words.test_update_or _ _⟩

theorem addShred_snd_of_rejected (h : (st.addShred x).1 = false) : (st.addShred x).2 = st := by
  revert h
  unfold addShred; dsimp only
  split
  · simp
  · split <;> simp

@[simp] theorem addShred_lastProcessed : (st.addShred x).2.lastProcessed = st.lastProcessed := by
  cases h : (st.addShred x).1
  · rw [addShred_snd_of_rejected h]
  · unfold addShred; dsimp only; split
    · rfl
    · split <;> rfl

@[simp] theorem addShred_slot : (st.addShred x).2.slot = st.slot := by
  cases h : (st.addShred x).1
  · rw [addShred_snd_of_rejected h]
  · unfold addShred; dsimp only; split
    · rfl
    · split <;> rfl

theorem test_addShred (j : Nat) : Words.test (st.addShred x).2.receivedMask j =
    (Words.test st.receivedMask j || ((st.addShred x).1 && decide (j = x.index))) := by
  cases h : (st.addShred x).1
  · simp [addShred_snd_of_rejected h]
  · simp [(addShred_of_accepted h).2.2.2]

/-- **Whatever its type, an accepted shred owns its index**: every later shred with the
same index is turned away as a duplicate. -/
theorem addShred_blocks_index {y : Shred} (hx : (st.addShred x).1 = true) (hy : y.index = x.index) :
    ((st.addShred x).2.addShred y).1 = false := by
  rw [addShred_fst, test_addShred, hx, hy]
  simp

theorem code_shred_blocks_data_shred :
    ((new 0).addShred ⟨0, 0, .code, .none, []⟩).1 = true ∧
      (((new 0).addShred ⟨0, 0, .code, .none, []⟩).2.addShred
        ⟨0, 0, .data, .dataComplete, [7]⟩).1 = false :=
  have h : ((new 0).addShred ⟨0, 0, .code, .none, []⟩).1 = true := by
    rw [addShred_fst]; decide
  ⟨h, addShred_blocks_index h rfl⟩


/-! ## The vector and the bitset loop -/

theorem length_resizeFor (s : List (Option Shred)) (i : Nat) :
    (resizeFor s i).length = max s.length (i + 1) := by
  unfold resizeFor; split <;> simp <;> omega

theorem getElem?_resizeFor_of_lt {s : List (Option Shred)} {i j : Nat} (h : j < s.length) :
    (resizeFor s i)[j]? = s[j]? := by
  unfold resizeFor; split
  · exact List.getElem?_append_left h
  · rfl

theorem length_clearRange (s : List (Option Shred)) (l : List Nat) :
    (clearRange s l).length = s.length := by
  induction l generalizing s with
  | nil => rfl
  | cons i l ih => exact (ih _).trans (List.length_set _ _ _)

theorem getElem?_clearRange_of_not_mem {s : List (Option Shred)} {l : List Nat} {j : Nat}
    (h : j ∉ l) : (clearRange s l)[j]? = s[j]? := by
  induction l generalizing s with
  | nil => rfl
  | cons i l ih =>
      simp only [List.mem_cons, not_or] at h
      show (clearRange (s.set i none) l)[j]? = _
      rw [ih h.2, List.getElem?_set_ne (Ne.symm h.1)]

theorem allReceived_ok_true {mask : Words 8} {l : List Nat} (h : allReceived mask l = .ok true) :
    ∀ j ∈ l, Words.test mask j = true := by
  induction l with
  | nil => simp
  | cons idx rest ih =>
      unfold allReceived at h
      split at h
      · rename_i hw
        split at h
        · cases h
        · rename_i hbit
          refine List.forall_mem_cons.2 ⟨?_, ih h⟩
          rw [← Words.and_bit_ne_zero_eq_test _ hw]
          simpa using hbit
      · cases h

theorem allReceived_ok {mask : Words 8} {l : List Nat} (h : ∀ j ∈ l, j / 64 < 8) :
    ∃ b, allReceived mask l = .ok b := by
  induction l with
  | nil => exact ⟨true, rfl⟩
  | cons idx rest ih =>
      unfold allReceived
      rw [dif_pos (h idx (by simp))]
      split
      · exact ⟨false, rfl⟩
      · exact ih (fun j hj => h j (by simp [hj]))

theorem sliceInclusive_ok {s : List (Option Shred)} {a b : Nat} {sl : List (Option Shred)}
    (h : sliceInclusive s a b = .ok sl) :
    a ≤ b + 1 ∧ b + 1 ≤ s.length ∧ sl = (s.take (b + 1)).drop a := by
  unfold sliceInclusive at h
  split at h
  · cases h
  · split at h
    · cases h
    · cases h; exact ⟨by omega, by omega, rfl⟩

/-! ## `try_deshred_fast` -/

variable {E : Type} {deshred : List Shred → Option (List UInt8)}
  {deserialize : List UInt8 → Option E} {st st' : SlotShrdsCompact}

theorem tryDeshredFast_none (h : st.tryDeshredFast deshred deserialize = .ok (none, st')) :
    st' = st := by
  unfold tryDeshredFast at h
  dsimp only at h
  split at h
  · cases h; rfl
  · split at h
    · cases h
    · split at h
      · cases h; rfl
      · split at h
        · cases h
        · split at h
          · cases h; rfl
          · split at h
            · cases h; rfl
            · cases h

theorem tryDeshredFast_some {r : E × List UInt8}
    (h : st.tryDeshredFast deshred deserialize = .ok (some r, st')) :
    ∃ e rest, st.segmentEnds = e :: rest ∧
      allReceived st.receivedMask (List.range' st.lastProcessed (e + 1 - st.lastProcessed))
        = .ok true ∧
      st.lastProcessed ≤ e + 1 ∧ e + 1 ≤ st.shreds.length ∧
      deshred (((st.shreds.take (e + 1)).drop st.lastProcessed).filterMap id) = some r.2 ∧
      deserialize r.2 = some r.1 ∧
      st' = { st with
        segmentEnds := rest
        lastProcessed := e + 1
        shreds := clearRange st.shreds
          (List.range' st.lastProcessed (e + 1 - st.lastProcessed)) } := by
  unfold tryDeshredFast at h
  dsimp only at h
  split at h
  · cases h
  · rename_i e rest hends
    split at h
    · cases h
    · rename_i present hall
      split at h
      · cases h
      · rename_i hpresent
        simp only [Bool.not_eq_true', Bool.not_eq_false] at hpresent
        subst hpresent
        split at h
        · cases h
        · rename_i slice hslice
          obtain ⟨h1, h2, rfl⟩ := sliceInclusive_ok hslice
          split at h
          · cases h
          · rename_i d hd
            split at h
            · cases h
            · rename_i entries hentries
              cases h
              exact ⟨e, rest, hends, hall, h1, h2, hd, hentries, rfl⟩

theorem tryDeshredFast_slot {r : Option (E × List UInt8)}
    (h : st.tryDeshredFast deshred deserialize = .ok (r, st')) : st'.slot = st.slot := by
  cases r with
  | none => rw [tryDeshredFast_none h]
  | some r => obtain ⟨-, -, -, -, -, -, -, -, rfl⟩ := tryDeshredFast_some h; rfl

/-- `try_deshred_fast` leaves `received_mask` alone, so duplicates are still turned away
after an emission. -/
theorem tryDeshredFast_receivedMask {r : Option (E × List UInt8)}
    (h : st.tryDeshredFast deshred deserialize = .ok (r, st')) :
    st'.receivedMask = st.receivedMask := by
  cases r with
  | none => rw [tryDeshredFast_none h]
  | some r => obtain ⟨-, -, -, -, -, -, -, -, rfl⟩ := tryDeshredFast_some h; rfl

/-! ## The bounds `try_deshred_fast` relies on -/

theorem getElem?_set_resizeFor {s : List (Option Shred)} {i e : Nat} {y : Option Shred}
    (he : e ≠ i) (hlt : e < s.length) : ((resizeFor s i).set i y)[e]? = s[e]? := by
  rw [List.getElem?_set_ne (Ne.symm he), getElem?_resizeFor_of_lt hlt]

theorem getElem?_set_resizeFor_self (s : List (Option Shred)) (i : Nat) (y : Option Shred) :
    ((resizeFor s i).set i y)[i]? = some y :=
  List.getElem?_set_self (by rw [length_resizeFor]; omega)

/-- **What `try_deshred_fast` needs of its state.**  The vector stays within 512
entries; every position below `last_processed` has its bit set; and every index in
`segment_ends` is there once, at or above `last_processed`, with its bit set and a
`DATA_COMPLETE` shred stored. -/
structure BoundInv (st : SlotShrdsCompact) : Prop where
  length_le : st.shreds.length ≤ maxShredsPerSlot
  below : ∀ j < st.lastProcessed, Words.test st.receivedMask j = true
  nodup : st.segmentEnds.Nodup
  ends : ∀ e ∈ st.segmentEnds,
    st.lastProcessed ≤ e ∧ Words.test st.receivedMask e = true ∧ ∃ x, st.shreds[e]? = some (some x) ∧ x.dataComplete = true

theorem boundInv_new (slot : Nat) : BoundInv (new slot) :=
  ⟨by simp [new, maxShredsPerSlot], by simp [new], by simp [new], by simp [new]⟩

theorem BoundInv.addShred {st : SlotShrdsCompact} (hinv : BoundInv st) (x : Shred) :
    BoundInv (st.addShred x).2 := by
  cases hacc : (st.addShred x).1
  · rw [addShred_snd_of_rejected hacc]; exact hinv
  obtain ⟨hfree, hends, hshreds, -⟩ := addShred_of_accepted hacc
  have hne : ∀ e ∈ st.segmentEnds, e ≠ x.index := by
    intro e he heq
    have := (hinv.ends e he).2.1
    rw [heq, hfree] at this
    cases this
  have hge : st.lastProcessed ≤ x.index := by
    by_contra hlt'
    have := hinv.below x.index (by omega)
    rw [hfree] at this
    cases this
  have hold : ∀ e ∈ st.segmentEnds, st.lastProcessed ≤ e ∧
      Words.test (st.addShred x).2.receivedMask e = true ∧
      ∃ y, (st.addShred x).2.shreds[e]? = some (some y) ∧ y.dataComplete = true := by
    intro e he
    obtain ⟨h1, h2, y, hy, hyc⟩ := hinv.ends e he
    have helt : e < st.shreds.length := (List.getElem?_eq_some_iff.1 hy).1
    exact ⟨h1, by simp [test_addShred, h2], y,
      by rw [hshreds, getElem?_set_resizeFor (hne e he) helt, hy], hyc⟩
  refine ⟨?_, fun j hj => by simp [test_addShred, hinv.below j (by simpa using hj)], ?_, ?_⟩
  · have hlt : x.index < maxShredsPerSlot := by
      have h := hacc
      rw [addShred_fst, Bool.and_eq_true, decide_eq_true_eq] at h
      exact h.1
    rw [hshreds, List.length_set, length_resizeFor]
    have := hinv.length_le
    unfold maxShredsPerSlot at *
    omega
  · rw [hends]
    split
    · exact List.nodup_append.2 ⟨hinv.nodup, List.nodup_singleton _,
        List.disjoint_singleton.2 fun hm => hne _ hm rfl⟩
    · exact hinv.nodup
  · intro e he
    rw [hends] at he
    rw [addShred_lastProcessed]
    split at he
    · rcases List.mem_append.1 he with he' | he'
      · exact hold e he'
      · rw [List.mem_singleton.1 he', hshreds]
        exact ⟨hge, by simp [test_addShred, hacc],
          x, getElem?_set_resizeFor_self _ _ _, ‹_›⟩
    · exact hold e he

/-- In a slice `shreds[lp..=e]` that ends on a stored shred, a shred stored at
`t < e` is one of the payloads before the last. -/
theorem mem_dropLast_slice {s : List (Option Shred)} {lp t e : Nat} {x y : Shred}
    (hlp : lp ≤ t) (hlt : t < e) (hx : s[t]? = some (some x)) (hy : s[e]? = some (some y)) :
    x ∈ (((s.take (e + 1)).drop lp).filterMap id).dropLast := by
  have he : e < s.length := (List.getElem?_eq_some_iff.1 hy).1
  have htake : s.take (e + 1) = s.take e ++ [some y] := by rw [List.take_succ, hy]; rfl
  rw [htake, List.drop_append_of_le_length (by simp; omega), List.filterMap_append,
    show ([some y] : List (Option Shred)).filterMap id = [y] from rfl, List.dropLast_concat,
    List.mem_filterMap]
  have hat : ((s.take e).drop lp)[t - lp]? = some (some x) := by
    rw [List.getElem?_drop, List.getElem?_take_of_lt (by omega), Nat.add_sub_cancel' hlp, hx]
  exact ⟨some x, List.getElem?_mem hat, rfl⟩

theorem BoundInv.tryDeshred (hd : DeshredContract deshred) (hinv : BoundInv st)
    {r : Option (E × List UInt8)} (h : st.tryDeshredFast deshred deserialize = .ok (r, st')) :
    BoundInv st' := by
  cases r with
  | none => rw [tryDeshredFast_none h]; exact hinv
  | some r =>
    obtain ⟨e, rest, hends, hall, -, -, hdes, -, rfl⟩ := tryDeshredFast_some h
    have hnodup := hinv.nodup
    rw [hends] at hnodup
    obtain ⟨hlpe, -, y, hy, -⟩ := hinv.ends e (by simp [hends])
    have hrest : ∀ t ∈ rest, e + 1 ≤ t := by
      intro t ht
      obtain ⟨hlpt, -, x, hx, hxc⟩ := hinv.ends t (by simp [hends, ht])
      have hte : t ≠ e := by
        rintro rfl
        exact (List.nodup_cons.1 hnodup).1 ht
      by_contra hlt
      have := hd.inner hdes x (mem_dropLast_slice hlpt (by omega) hx hy)
      rw [hxc] at this
      cases this
    refine ⟨by simpa [length_clearRange] using hinv.length_le, ?_, hnodup.of_cons, ?_⟩
    · intro j hj
      by_cases hjl : j < st.lastProcessed
      · exact hinv.below j hjl
      · exact allReceived_ok_true hall j (List.mem_range'_1.2 ⟨by omega, by simp at hj; omega⟩)
    · intro t ht
      obtain ⟨-, htest, x, hx, hxc⟩ := hinv.ends t (by simp [hends, ht])
      have hle := hrest t ht
      refine ⟨hle, htest, x, ?_, hxc⟩
      rw [getElem?_clearRange_of_not_mem (by simp [List.mem_range'_1]; omega), hx]

/-- `try_deshred_fast` returns without panicking when the head of `segment_ends` is at or
above `last_processed`, below 512 and inside the vector; and it never moves
`last_processed` back. -/
theorem tryDeshredFast_ok_of_head
    (hhead : ∀ e rest, st.segmentEnds = e :: rest →
      st.lastProcessed ≤ e ∧ e < maxShredsPerSlot ∧ e < st.shreds.length) :
    ∃ r st', st.tryDeshredFast deshred deserialize = .ok (r, st') ∧
      st.lastProcessed ≤ st'.lastProcessed := by
  unfold tryDeshredFast
  split
  · exact ⟨none, st, rfl, le_rfl⟩
  · rename_i e rest hends
    obtain ⟨hlpe, hmax, helt⟩ := hhead e rest hends
    obtain ⟨b, hb⟩ := @allReceived_ok st.receivedMask
      (List.range' st.lastProcessed (e + 1 - st.lastProcessed)) (fun j hj => by
        rw [List.mem_range'_1] at hj; unfold maxShredsPerSlot at hmax; omega)
    dsimp only
    rw [hb]
    dsimp only
    split
    · exact ⟨none, st, rfl, le_rfl⟩
    · rw [sliceInclusive, if_neg (by omega), if_neg (by omega)]
      dsimp only
      split
      · exact ⟨none, st, rfl, le_rfl⟩
      · split
        · exact ⟨_, _, rfl, le_rfl⟩
        · exact ⟨_, _, rfl, by dsimp only; omega⟩

theorem BoundInv.tryDeshredFast_ok (hinv : BoundInv st) :
    ∃ r st', st.tryDeshredFast deshred deserialize = .ok (r, st') ∧
      st.lastProcessed ≤ st'.lastProcessed :=
  tryDeshredFast_ok_of_head fun e _ hends => by
    obtain ⟨hlpe, -, y, hy, -⟩ := hinv.ends e (by simp [hends])
    have helt := (List.getElem?_eq_some_iff.1 hy).1
    exact ⟨hlpe, by have := hinv.length_le; omega, helt⟩

theorem Reachable.boundInv (hd : DeshredContract deshred) {slot : Nat}
    (h : Reachable deshred deserialize slot st) : BoundInv st := by
  induction h with
  | new => exact boundInv_new slot
  | addShred x _ ih => exact ih.addShred x
  | tryDeshredFast _ hstep ih => exact ih.tryDeshred hd hstep

theorem segmentEnd_bounds_of_contract (hd : DeshredContract deshred) {slot : Nat}
    (h : Reachable deshred deserialize slot st) :
    (∀ e rest, st.segmentEnds = e :: rest →
      st.lastProcessed ≤ e ∧ e < st.shreds.length ∧ st.shreds.length ≤ maxShredsPerSlot) ∧
    ∃ r st', st.tryDeshredFast deshred deserialize = .ok (r, st') ∧
      st.lastProcessed ≤ st'.lastProcessed := by
  have hinv := h.boundInv hd
  refine ⟨fun e rest hends => ?_, hinv.tryDeshredFast_ok⟩
  obtain ⟨hlpe, -, y, hy, -⟩ := hinv.ends e (by simp [hends])
  exact ⟨hlpe, (List.getElem?_eq_some_iff.1 hy).1, hinv.length_le⟩

/-- Slot 0's index 0, a whole segment, added to a fresh state: `segment_ends` is `[0]`. -/
theorem segmentEnd_bounds_one_segment :
    DeshredContract Shredder.deshred ∧
      ∃ st, Reachable Shredder.deshred (some : List UInt8 → Option (List UInt8)) 0 st ∧
        st.segmentEnds = [0] ∧
        ((∀ e rest, st.segmentEnds = e :: rest → st.lastProcessed ≤ e ∧
            e < st.shreds.length ∧ st.shreds.length ≤ maxShredsPerSlot) ∧
          ∃ r st', st.tryDeshredFast Shredder.deshred
              (some : List UInt8 → Option (List UInt8)) = .ok (r, st') ∧
            st.lastProcessed ≤ st'.lastProcessed) :=
  ⟨Shredder.deshred_contract, _, .addShred ⟨0, 0, .data, .dataComplete, [0]⟩ .new, rfl,
    segmentEnd_bounds_of_contract Shredder.deshred_contract
      (.addShred ⟨0, 0, .data, .dataComplete, [0]⟩ .new)⟩

/-- A deshredder that accepts every range, `DATA_COMPLETE` shreds inside it included. -/
def concatAll (xs : List Shred) : Option (List UInt8) := some (xs.map Shred.data).flatten

theorem permissive_deshred_breaks_bound :
    ∃ st, Reachable concatAll (some : List UInt8 → Option (List UInt8)) 0 st ∧
      st.segmentEnds = [0] ∧ st.lastProcessed = 2 ∧
      st.tryDeshredFast concatAll (some : List UInt8 → Option (List UInt8)) =
        .error (.sliceIndexOrder 2 1) :=
  ⟨_, .tryDeshredFast (.addShred ⟨0, 0, .data, .dataComplete, [0]⟩
    (.addShred ⟨0, 1, .data, .dataComplete, [1]⟩ .new)) rfl, rfl, rfl, rfl⟩

end SlotShrdsCompact

end ShredRelay
