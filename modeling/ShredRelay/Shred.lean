import Mathlib.Data.List.Basic

/-!
# Shreds, as the reassemblers see them

Both reassemblers (`examples/deshred.rs` and `examples/deshred_sharded.rs`) read a
`solana_ledger::shred::Shred` through six accessors only: `slot`, `index`,
`shred_type`, `data_complete`, `last_in_slot` and `payload`.  `Shred` keeps exactly
what those accessors return, and nothing about signatures, versions or FEC sets.

## The completion flags

The library keeps the two markers in one flags byte: `DATA_COMPLETE_SHRED` is bit 6,
and `LAST_SHRED_IN_SLOT` is bits 6 and 7 together.  So a shred that is last in its slot
is also data complete, and a code shred answers `false` to both accessors.
`Completion` is the flags byte up to what the two accessors can tell apart, which
makes `Shred.lastInSlot_imp_dataComplete` a fact of the model and not an assumption.

## The deshredder

`Shredder::deshred` is library code.  `Shredder.deshred` follows its `try_fold`: no
shred may follow a `DATA_COMPLETE` one, every shred must be a data shred, the indices
must be consecutive, and the last shred must be `DATA_COMPLETE`; the result is the
concatenation of the data bodies.  When that concatenation is empty the library does not
return it: it unwraps `ShredData::capacity(None)`, which panics.  A deshredder here
returns an `Option`, so the model answers `none` on such a set, and the theorems that run
the library's deshredder never give it one (`local_round_trip` takes a nonempty payload).
`DeshredContract` is the weaker promise the reassemblers can rely on for an arbitrary
deshredder, and `Shredder.deshred_contract` shows that the library's one keeps it.
-/

namespace ShredRelay

/-- `solana_ledger::shred::ShredType`. -/
inductive ShredType
  | data
  | code
  deriving DecidableEq, Repr

/-- The completion bits of a shred's flags byte, up to what `data_complete` and
`last_in_slot` distinguish. -/
inductive Completion
  | none
  | dataComplete
  | lastInSlot
  deriving DecidableEq, Repr

/-- A shred through the accessors the reassemblers call.  `data` is the data body that
`Shredder::deshred` concatenates; slot and index are the values of the header fields
at offsets `0x41` and `0x49`. -/
structure Shred where
  slot : Nat
  index : Nat
  shredType : ShredType
  completion : Completion
  data : List UInt8
  deriving DecidableEq, Repr

namespace Shred

/-- `Shred::data_complete`: the `DATA_COMPLETE_SHRED` bit of a data shred. -/
def dataComplete (x : Shred) : Bool :=
  x.shredType == .data && x.completion != .none

/-- `Shred::last_in_slot`: both bits of `LAST_SHRED_IN_SLOT` on a data shred. -/
def lastInSlot (x : Shred) : Bool :=
  x.shredType == .data && x.completion == .lastInSlot

theorem lastInSlot_imp_dataComplete {x : Shred} (h : x.lastInSlot = true) :
    x.dataComplete = true := by
  cases hx : x.completion <;> simp_all [lastInSlot, dataComplete]

/-- The segment-end test of both reassemblers reduces to the `DATA_COMPLETE` bit. -/
@[simp] theorem dataComplete_or_lastInSlot (x : Shred) :
    (x.dataComplete || x.lastInSlot) = x.dataComplete := by
  cases h : x.lastInSlot
  · simp
  · simp [lastInSlot_imp_dataComplete h]

theorem shredType_of_dataComplete {x : Shred} (h : x.dataComplete = true) :
    x.shredType = .data := by
  simp_all [dataComplete]

@[simp] theorem data_and_dataComplete (x : Shred) :
    (x.shredType == .data && x.dataComplete) = x.dataComplete := by
  cases h : x.dataComplete
  · simp
  · simp [shredType_of_dataComplete h]

end Shred

namespace Shredder

/-- The `try_fold` of `Shredder::deshred`: the accumulated data, the previous index,
and whether the previous shred was `DATA_COMPLETE`. -/
def deshredFold : List Shred → List UInt8 → Option Nat → Bool → Option (List UInt8 × Bool)
  | [], data, _, complete => some (data, complete)
  | x :: xs, data, prev, complete =>
      if complete || x.shredType != .data || prev.any (· + 1 != x.index) then none
      else deshredFold xs (data ++ x.data) (some x.index) x.dataComplete

/-- `Shredder::deshred`: the fold must end on a `DATA_COMPLETE` shred, with some data; the
library panics on empty data, where the model answers `none`. -/
def deshred (xs : List Shred) : Option (List UInt8) :=
  match deshredFold xs [] none false with
  | some (data, true) => if data = [] then none else some data
  | _ => none

/-- **What a successful fold has checked**: nothing followed a complete shred, every
shred was a data shred, and none but the last was `DATA_COMPLETE`; the data is the
concatenation of the bodies. -/
theorem deshredFold_some {xs : List Shred} {data : List UInt8} {prev : Option Nat}
    {complete : Bool} {r : List UInt8 × Bool}
    (h : deshredFold xs data prev complete = some r) :
    (complete = true → xs = []) ∧ (∀ x ∈ xs, x.shredType = .data) ∧
      (∀ x ∈ xs.dropLast, x.dataComplete = false) ∧
      r.1 = data ++ (xs.map Shred.data).flatten := by
  induction xs generalizing data prev complete with
  | nil => cases h; simp
  | cons x xs ih =>
      simp only [deshredFold] at h
      split at h
      · cases h
      · rename_i hguard
        simp only [Bool.or_eq_true, bne_iff_ne, ne_eq, not_or, not_not] at hguard
        obtain ⟨hlast, hdata, hinner, hr⟩ := ih h
        refine ⟨fun hc => absurd hc hguard.1.1, ?_, ?_, by simp [hr]⟩
        · exact List.forall_mem_cons.2 ⟨hguard.1.2, hdata⟩
        · cases xs with
          | nil => simp
          | cons y ys =>
              have hx : x.dataComplete = false := by
                by_contra hx
                exact List.cons_ne_nil _ _ (hlast (by simpa using hx))
              simpa [hx] using hinner

end Shredder

/-- **The deshredder contract the reassemblers rely on.**  A successful `deshred` was
given data shreds only, and no shred before the last was `DATA_COMPLETE`. -/
structure DeshredContract (deshred : List Shred → Option (List UInt8)) : Prop where
  data : ∀ {xs p}, deshred xs = some p → ∀ x ∈ xs, x.shredType = .data
  inner : ∀ {xs p}, deshred xs = some p → ∀ x ∈ xs.dropLast, x.dataComplete = false

namespace Shredder

theorem deshred_some {xs : List Shred} {p : List UInt8} (h : deshred xs = some p) :
    ∃ r, deshredFold xs [] none false = some r ∧ r.1 = p := by
  unfold deshred at h
  split at h
  · split_ifs at h
    cases h; exact ⟨_, ‹_›, rfl⟩
  · cases h

/-- The library's deshredder keeps the contract. -/
theorem deshred_contract : DeshredContract deshred where
  data h := by
    obtain ⟨r, hr, -⟩ := deshred_some h
    exact (deshredFold_some hr).2.1
  inner h := by
    obtain ⟨r, hr, -⟩ := deshred_some h
    exact (deshredFold_some hr).2.2.1

end Shredder

end ShredRelay
