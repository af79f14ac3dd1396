import ShredRelay.PacketPool
import Mathlib.Data.Fintype.Card

/-!
# Contention in `acquire`

`acquire` (`examples/packet_pool.rs`) claims a bit with a `compare_exchange_weak` against
the word it loaded.  The exchange fails when the word has changed since the load, and a
weak exchange may also fail spuriously.  A failure of the first kind is paid for by
progress elsewhere: the word changed because another thread claimed one of its bits, or a
`PacketRef` gave one back.

## Design notes

**Stale threads.**  A thread at the exchange is stale when its word no longer holds what it
loaded (`stale`).  An exchange that fails other than spuriously is a stale thread's, and it
sends the thread back to the load, no longer stale.  Only a write to `free_mask`, a
successful exchange or a release, makes threads stale, at most all of them.  The number of
stale threads is the potential that pays for the failures.

## Main results

* `staleCount_step`: a step's failure, plus the stale threads after it, is at most the stale
  threads before it, plus the number of threads if the step writes `free_mask`.
* `acquire_lock_free`: over every interleaving of a finite set of threads from
  `PacketPool::new`, the compare-exchanges that fail other than spuriously number at most
  the number of threads times the writes to `free_mask`.
-/

namespace ShredRelay

/-- The word, and the value, that a thread at the compare-exchange has loaded. -/
def Pc.loaded : Pc → Option (Fin wordCount × BitVec 64)
  | .claiming _ startIdx offset current _ => some (PoolState.wordIdx startIdx offset, current)
  | _ => none

namespace PoolState

variable {T : Type} [DecidableEq T]

/-- Thread `t` is at the compare-exchange, and its word has changed since it loaded it. -/
def stale (s : PoolState T) (t : T) : Bool :=
  match (s.pcs t).loaded with
  | some (w, c) => s.freeMask w != c
  | none => false

/-- The action is a compare-exchange that fails other than spuriously. -/
def casFails (s : PoolState T) : Action T → Bool
  | .run t false => s.stale t
  | _ => false

/-- The action writes `free_mask`: a compare-exchange that succeeds, or a release. -/
def writesMask (s : PoolState T) : Action T → Bool
  | .run t spurious =>
      match (s.pcs t).loaded with
      | some (w, c) => !spurious && s.freeMask w == c
      | none => false
  | .drop _ => true
  | .call _ _ => false

/-- The failures of `casFails` along the run of `acts`, up to a step that is not enabled. -/
def failures (s : PoolState T) : List (Action T) → Nat
  | [] => 0
  | a :: acts =>
      match s.step a with
      | none => 0
      | some s' => (s.casFails a).toNat + s'.failures acts

/-- The writes of `writesMask` along the run of `acts`, up to a step that is not enabled. -/
def writes (s : PoolState T) : List (Action T) → Nat
  | [] => 0
  | a :: acts =>
      match s.step a with
      | none => 0
      | some s' => (s.writesMask a).toNat + s'.writes acts

section Count

variable [Fintype T]

/-- The stale threads. -/
def staleCount (s : PoolState T) : Nat :=
  (Finset.univ.filter fun t => s.stale t = true).card

omit [DecidableEq T] in
theorem staleCount_le (s : PoolState T) : s.staleCount ≤ Fintype.card T :=
  Finset.card_filter_le _ _

omit [DecidableEq T] in
theorem staleCount_init : (init : PoolState T).staleCount = 0 := by
  simp [staleCount, stale, init, Pc.loaded]

/-- A step that leaves `free_mask` alone and moves only thread `t`, to a point where it is
not stale, takes `t` off the stale threads and adds none. -/
theorem staleCount_move {s s' : PoolState T} {t : T} (hmask : s'.freeMask = s.freeMask)
    (hpcs : ∀ u, u ≠ t → s'.pcs u = s.pcs u) (ht : s'.stale t = false) :
    s'.staleCount + (s.stale t).toNat ≤ s.staleCount := by
  have hsub : (Finset.univ.filter fun u => s'.stale u = true) ⊆
      (Finset.univ.filter fun u => s.stale u = true).erase t := by
    intro u hu
    simp only [Finset.mem_filter, Finset.mem_univ, true_and] at hu
    have hut : u ≠ t := by rintro rfl; rw [ht] at hu; cases hu
    simp only [Finset.mem_erase, Finset.mem_filter, Finset.mem_univ, true_and]
    refine ⟨hut, ?_⟩
    simpa only [stale, hmask, hpcs u hut] using hu
  have hle := Finset.card_le_card hsub
  unfold staleCount
  cases hst : s.stale t
  · rw [Finset.erase_eq_of_not_mem (by simp [hst])] at hle
    simpa using hle
  · have hmem : t ∈ Finset.univ.filter fun u => s.stale u = true := by simp [hst]
    rw [Finset.card_erase_of_mem hmem] at hle
    have := Finset.card_pos.2 ⟨t, hmem⟩
    simp only [Bool.toNat_true]
    omega

/-- **One step of the potential**: the failure of a stale thread's exchange takes it off
the stale threads, a write to `free_mask` may make every thread stale, and no other step
makes one. -/
theorem staleCount_step {s s' : PoolState T} {a : Action T} (h : s.step a = some s') :
    s'.staleCount + (s.casFails a).toNat ≤
      s.staleCount + Fintype.card T * (s.writesMask a).toNat := by
  -- a step of thread `t` alone that writes nothing and leaves `t` not stale
  have hquiet : ∀ t, (s.casFails a).toNat ≤ (s.stale t).toNat → s.writesMask a = false →
      s'.freeMask = s.freeMask → (∀ u, u ≠ t → s'.pcs u = s.pcs u) → s'.stale t = false →
      s'.staleCount + (s.casFails a).toNat ≤
        s.staleCount + Fintype.card T * (s.writesMask a).toNat := by
    intro t hcas hw hmask hpcs ht
    have := staleCount_move hmask hpcs ht
    rw [hw, Bool.toNat_false, Nat.mul_zero]
    omega
  cases a with
  | call t byRef =>
      simp only [step] at h
      split at h
      · cases h
        exact hquiet t (by simp [casFails]) rfl rfl (fun u hu => by simp [setPc, hu])
          (by simp [stale, setPc, Pc.loaded])
      · cases h
  | drop index =>
      have := staleCount_le s'
      simp only [casFails, writesMask, Bool.toNat_true, Bool.toNat_false]
      omega
  | run t spurious =>
      have hcas : (s.casFails (.run t spurious)).toNat ≤ (s.stale t).toNat := by
        cases spurious <;> simp [casFails]
      simp only [step, runThread] at h
      split at h <;> rename_i hpc
      case h_4 byRef startIdx offset current hlt =>
        -- the compare-exchange: it writes the word, or the thread goes back to the load
        split at h <;> rename_i hok
        · cases h
          have hw : s.writesMask (.run t spurious) = true := by
            simpa [writesMask, hpc, Pc.loaded] using hok
          have hnofail : (s.casFails (.run t spurious)).toNat = 0 := by
            cases spurious
            · simp only [Bool.not_false, Bool.true_and, beq_iff_eq] at hok
              simp [casFails, stale, hpc, Pc.loaded, hok]
            · rfl
          rw [hw, hnofail, Bool.toNat_true, Nat.add_zero, Nat.mul_one]
          exact le_trans (staleCount_le _) (Nat.le_add_left _ _)
        · cases h
          exact hquiet t hcas (by simpa [writesMask, hpc, Pc.loaded] using hok) rfl
            (fun u hu => by simp [setPc, hu]) (by simp [stale, setPc, Pc.loaded])
      -- every other step moves `t` alone, to a point where it is not stale
      all_goals
        (repeat' split at h) <;> (try cases h) <;>
          exact hquiet t hcas (by simp [writesMask, hpc, Pc.loaded]) rfl
            (fun u hu => by simp [setPc, hu]) (by simp [stale, setPc, Pc.loaded])

/-- Along any run, the failures are paid for by the stale threads at its start and the
writes. -/
theorem failures_le (s : PoolState T) (acts : List (Action T)) :
    s.failures acts ≤ s.staleCount + Fintype.card T * s.writes acts := by
  induction acts generalizing s with
  | nil => exact Nat.zero_le _
  | cons a acts ih =>
      cases hs : s.step a with
      | none => simp [failures, hs]
      | some s' =>
          have h₁ := staleCount_step hs
          have h₂ := ih s'
          simp only [failures, writes, hs, Nat.mul_add]
          omega

/-- **`acquire` is lock-free.**  Over every interleaving of any finite set of threads
calling `acquire` and `acquire_ref`, and of `PacketRef`s being dropped, from
`PacketPool::new`, the compare-exchanges that fail other than spuriously number at most the
number of threads times the successful compare-exchanges and releases: a thread's exchange
fails only because another thread claimed a bit of its word or a buffer of it came back. -/
theorem acquire_lock_free (acts : List (Action T)) :
    (init : PoolState T).failures acts ≤ Fintype.card T * (init : PoolState T).writes acts := by
  have := failures_le (init : PoolState T) acts
  rwa [staleCount_init, Nat.zero_add] at this

/-- Two threads load the first word; one claims its lowest bit, and the other's exchange
fails, paid for by that claim. -/
example : (init : PoolState Bool).failures
      [.call true false, .call false false, .run true false, .run false false,
        .run true false, .run false false, .run true false, .run false false] = 1 ∧
    (init : PoolState Bool).writes
      [.call true false, .call false false, .run true false, .run false false,
        .run true false, .run false false, .run true false, .run false false] = 1 := by
  decide

end Count

end PoolState

end ShredRelay
