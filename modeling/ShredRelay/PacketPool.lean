import ShredRelay.Bitset
import Mathlib.Data.List.Nodup

/-!
# The packet pool

`PacketPool` (`examples/packet_pool.rs`) hands out its 65536 buffers to any number of
threads without a lock.  Bit `i` of `free_mask`, 1024 words of 64 bits, is set while
buffer `i` is free.  `acquire` scans the words from `next_search`.  For each word it loads
it, takes its lowest set bit with `trailing_zeros`, and claims that bit with a
`compare_exchange_weak` that clears it.  `PacketRef::drop` gives a buffer back with a
`fetch_or`.

## Design notes

**Interleavings.**  A thread inside `acquire` is a program counter `Pc` that says where it
is in the two nested loops.  `PoolState.step` makes one step: a thread calls `acquire` or
`acquire_ref`, a thread makes its next atomic access (the load of `next_search`, the load
of a word, the compare-exchange, the store of `next_search`), or a `PacketRef` is dropped.
A weak compare-exchange may fail even when the word matches, so the step takes a
`spurious` flag.  The contents and metadata of a buffer are written only by the thread
that owns it, and are left out.

**Ownership.**  A thread owns a buffer from its successful compare-exchange on
(`Pc.claimed`).  After the store of `next_search` the index is returned: `acquire_ref`
wraps it in a `PacketRef` (`refs`), which is the only way back to the pool because
`release` is private, and a bare `acquire` keeps it for good (`raws`).

## Main results

* `step_cases`: what any step can do to the bitset, the returned indices and the claims.
* `PoolInv.step`: so every step keeps the ownership invariant.
* `pool_exclusive_ownership`: in every reachable state the held indices are pairwise
  distinct and below 65536, and a bit is clear exactly when its index is held.
-/

namespace ShredRelay

/-- `POOL_SIZE`. -/
def poolSize : Nat := 65536

/-- `POOL_SIZE / 64`, the words of `free_mask`. -/
def wordCount : Nat := poolSize / 64

/-- Where a thread is in `acquire`; `byRef` tells `acquire_ref` from a bare `acquire`. -/
inductive Pc
  /-- Not in a call. -/
  | idle
  /-- Called, with `next_search` not yet loaded. -/
  | entered (byRef : Bool)
  /-- At the top of the inner `loop`, for word `(startIdx + offset) % 1024`. -/
  | loading (byRef : Bool) (startIdx offset : Nat)
  /-- Has loaded `current`, whose `trailing_zeros` passed the check against 64, and will
  try to claim that bit. -/
  | claiming (byRef : Bool) (startIdx offset : Nat) (current : BitVec 64)
      (lt : trailingZeros current < 64)
  /-- Has claimed `packetIdx` in word `idx`; the store of `next_search` is next. -/
  | publishing (byRef : Bool) (idx packetIdx : Nat)

/-- The index a thread has claimed and not yet returned. -/
def Pc.claimed : Pc → Option Nat
  | .publishing _ _ packetIdx => some packetIdx
  | _ => none

/-- The pool and the threads using it.  `refs` are the indices of the live `PacketRef`s
and `raws` those returned by a bare `acquire`. -/
structure PoolState (T : Type) where
  freeMask : Words wordCount
  nextSearch : Nat
  pcs : T → Pc
  refs : List Nat
  raws : List Nat

/-- A step of the system. -/
inductive Action (T : Type)
  /-- Thread `t` calls `acquire_ref` (`byRef`) or `acquire`. -/
  | call (t : T) (byRef : Bool)
  /-- Thread `t` makes its next atomic access; `spurious` makes a weak compare-exchange
  fail. -/
  | run (t : T) (spurious : Bool)
  /-- The `PacketRef` of `index` is dropped. -/
  | drop (index : Nat)

namespace PoolState

variable {T : Type} [DecidableEq T]

/-- `PacketPool::new`, with every thread idle. -/
def init : PoolState T where
  freeMask := fun _ => BitVec.allOnes 64
  nextSearch := 0
  pcs := fun _ => .idle
  refs := []
  raws := []

/-- The word `(start_idx + offset) % (POOL_SIZE / 64)`. -/
def wordIdx (startIdx offset : Nat) : Fin wordCount :=
  ⟨(startIdx + offset) % wordCount, Nat.mod_lt _ (by decide)⟩

/-- Thread `t` moves to `pc`. -/
def setPc (s : PoolState T) (t : T) (pc : Pc) : PoolState T :=
  { s with pcs := Function.update s.pcs t pc }

/-- The next atomic access of thread `t` in `acquire`. -/
def runThread (s : PoolState T) (t : T) (spurious : Bool) : Option (PoolState T) :=
  match s.pcs t with
  | .idle => none
  | .entered byRef => some (s.setPc t (.loading byRef (s.nextSearch % wordCount) 0))
  | .loading byRef startIdx offset =>
      if offset < wordCount then
        let current := s.freeMask (wordIdx startIdx offset)
        if current = 0#64 then some (s.setPc t (.loading byRef startIdx (offset + 1)))
        else if h : trailingZeros current ≥ 64 then
          some (s.setPc t (.loading byRef startIdx (offset + 1)))
        else some (s.setPc t (.claiming byRef startIdx offset current (Nat.lt_of_not_ge h)))
      else some (s.setPc t .idle)
  | .claiming byRef startIdx offset current _ =>
      let idx := wordIdx startIdx offset
      let bitPos := trailingZeros current
      let newMask := current &&& ~~~bit bitPos
      if !spurious && s.freeMask idx == current then
        some { s with
          freeMask := Function.update s.freeMask idx newMask
          pcs := Function.update s.pcs t (.publishing byRef idx.val (idx.val * 64 + bitPos)) }
      else some (s.setPc t (.loading byRef startIdx offset))
  | .publishing byRef idx packetIdx =>
      some { s with
        nextSearch := (idx + 1) % wordCount
        pcs := Function.update s.pcs t .idle
        refs := if byRef then s.refs ++ [packetIdx] else s.refs
        raws := if byRef then s.raws else s.raws ++ [packetIdx] }

/-- `PacketPool::release`: the `fetch_or` of the index's bit, `none` where indexing
`free_mask` would panic. -/
def release (s : PoolState T) (index : Nat) : Option (Words wordCount) :=
  if h : index / 64 < wordCount then
    some (Function.update s.freeMask ⟨index / 64, h⟩
      (s.freeMask ⟨index / 64, h⟩ ||| bit (index % 64)))
  else none

/-- One step, `none` when it is not enabled. -/
def step (s : PoolState T) : Action T → Option (PoolState T)
  | .call t byRef =>
      match s.pcs t with
      | .idle => some (s.setPc t (.entered byRef))
      | _ => none
  | .run t spurious => s.runThread t spurious
  | .drop index =>
      if index ∈ s.refs then
        (s.release index).map fun m => { s with freeMask := m, refs := s.refs.erase index }
      else none

/-- The states reachable from `PacketPool::new` by any interleaving. -/
inductive Reachable : PoolState T → Prop
  | init : Reachable init
  | step {s s' : PoolState T} (a : Action T) : Reachable s → s.step a = some s' → Reachable s'

/-- The returned indices: live `PacketRef`s and bare acquisitions. -/
def returned (s : PoolState T) : List Nat := s.refs ++ s.raws

/-- Index `i` is held: returned, or claimed by a thread that has not yet returned it. -/
def Held (s : PoolState T) (i : Nat) : Prop :=
  i ∈ s.returned ∨ ∃ t, (s.pcs t).claimed = some i

/-! ## What a step can do -/

@[simp] theorem setPc_claimed (s : PoolState T) (t t' : T) (pc : Pc) :
    ((s.setPc t pc).pcs t').claimed = if t' = t then pc.claimed else (s.pcs t').claimed := by
  by_cases h : t' = t
  · subst h; simp [setPc]
  · simp [setPc, h]

/-- A step that only moves a thread between two program points with no claim. -/
def Quiet (s s' : PoolState T) : Prop :=
  s'.freeMask = s.freeMask ∧ s'.returned = s.returned ∧
    ∀ t, (s'.pcs t).claimed = (s.pcs t).claimed

theorem quiet_setPc {s : PoolState T} {t : T} {pc : Pc} (hold : (s.pcs t).claimed = none)
    (hnew : pc.claimed = none) : Quiet s (s.setPc t pc) :=
  ⟨rfl, rfl, fun t' => by by_cases h : t' = t <;> simp [h, hold, hnew]⟩

/-- **Everything a step can do**: move a thread without a claim, claim a set bit and clear
it, return a claimed index, or set the bit of a returned index and forget it. -/
theorem step_cases {s s' : PoolState T} {a : Action T} (h : s.step a = some s') :
    Quiet s s' ∨
    (∃ t idx b, (s.pcs t).claimed = none ∧ b < 64 ∧ (s.freeMask idx).getLsbD b = true ∧
      s'.freeMask = Function.update s.freeMask idx (s.freeMask idx &&& ~~~bit b) ∧
      s'.returned = s.returned ∧
      ∀ t', (s'.pcs t').claimed =
        if t' = t then some (idx.val * 64 + b) else (s.pcs t').claimed) ∨
    (∃ t p, (s.pcs t).claimed = some p ∧ s'.freeMask = s.freeMask ∧
      s'.returned.Perm (p :: s.returned) ∧
      ∀ t', (s'.pcs t').claimed = if t' = t then none else (s.pcs t').claimed) ∨
    (∃ i, ∃ hi : i / 64 < wordCount, i ∈ s.returned ∧ s.returned.Perm (i :: s'.returned) ∧
      s'.freeMask = Function.update s.freeMask ⟨i / 64, hi⟩
        (s.freeMask ⟨i / 64, hi⟩ ||| bit (i % 64)) ∧
      s'.pcs = s.pcs) := by
  cases a with
  | call t byRef =>
      simp only [step] at h
      split at h
      · rename_i hidle
        cases h
        exact .inl (quiet_setPc (by rw [hidle]; rfl) rfl)
      · cases h
  | run t spurious =>
      simp only [step, runThread] at h
      split at h
      · cases h
      · rename_i hpc
        cases h
        exact .inl (quiet_setPc (by rw [hpc]; rfl) rfl)
      · rename_i hpc
        have hold : (s.pcs t).claimed = none := by rw [hpc]; rfl
        split at h
        · split at h
          · cases h; exact .inl (quiet_setPc hold rfl)
          · split at h <;> (cases h; exact .inl (quiet_setPc hold rfl))
        · cases h; exact .inl (quiet_setPc hold rfl)
      · rename_i byRef startIdx offset current hlt hpc
        have hold : (s.pcs t).claimed = none := by rw [hpc]; rfl
        split at h
        · rename_i hcas
          cases h
          simp only [Bool.and_eq_true, Bool.not_eq_true', beq_iff_eq] at hcas
          refine .inr (.inl ⟨t, wordIdx startIdx offset, trailingZeros current, hold, hlt,
            by rw [hcas.2]; exact getLsbD_trailingZeros hlt, by rw [hcas.2], rfl, fun t' => ?_⟩)
          by_cases ht : t' = t
          · subst ht; simp [Pc.claimed]
          · simp [ht]
        · cases h; exact .inl (quiet_setPc hold rfl)
      · rename_i byRef idx packetIdx hpc
        cases h
        refine .inr (.inr (.inl ⟨t, packetIdx, by rw [hpc]; rfl, rfl, ?_, fun t' => ?_⟩))
        · cases byRef
          · show (s.refs ++ (s.raws ++ [packetIdx])).Perm (packetIdx :: (s.refs ++ s.raws))
            rw [← List.append_assoc]
            exact List.perm_append_singleton _ _
          · show ((s.refs ++ [packetIdx]) ++ s.raws).Perm (packetIdx :: (s.refs ++ s.raws))
            rw [List.append_assoc, List.singleton_append]
            exact List.perm_middle
        · by_cases ht : t' = t
          · subst ht; simp [Pc.claimed]
          · simp [ht]
  | drop index =>
      simp only [step] at h
      split at h
      · rename_i hmem
        unfold release at h
        split at h
        · rename_i hi
          cases h
          refine .inr (.inr (.inr ⟨index, hi, List.mem_append_left _ hmem, ?_, rfl, rfl⟩))
          exact (List.perm_cons_erase hmem).append_right _
        · cases h
      · cases h

/-! ## The ownership invariant -/

/-- **Exclusive ownership.**  The returned indices are distinct; no index is claimed by two
threads, or claimed while returned; every held index is a buffer of the pool; and a bit is
clear exactly when its index is held. -/
structure PoolInv (s : PoolState T) : Prop where
  nodup : s.returned.Nodup
  claimed_inj : ∀ t t' i, (s.pcs t).claimed = some i → (s.pcs t').claimed = some i → t = t'
  claimed_not_returned : ∀ t i, (s.pcs t).claimed = some i → i ∉ s.returned
  held_lt : ∀ i, s.Held i → i < poolSize
  mask : ∀ i < poolSize, Words.test s.freeMask i = false ↔ s.Held i

theorem lt_wordCount {i : Nat} (hi : i < poolSize) : i / 64 < wordCount := by
  unfold wordCount poolSize at *; omega

omit [DecidableEq T] in
theorem poolInv_init : PoolInv (init : PoolState T) where
  nodup := List.nodup_nil
  claimed_inj _ _ _ h := by cases h
  claimed_not_returned _ _ h := by cases h
  held_lt _ h := by rcases h with h | ⟨_, h⟩ <;> cases h
  mask i hi := by
    have hset : Words.test (init : PoolState T).freeMask i = true :=
      Words.test_allOnes (lt_wordCount hi)
    rw [hset]
    simp [Held, returned, init, Pc.claimed]

variable {s s' : PoolState T}

omit [DecidableEq T] in
theorem PoolInv.quiet (hinv : PoolInv s) (hq : Quiet s s') : PoolInv s' := by
  obtain ⟨hmask, hret, hcl⟩ := hq
  have hheld : ∀ i, s'.Held i ↔ s.Held i := fun i => by simp only [Held, hret, hcl]
  refine ⟨hret ▸ hinv.nodup, fun t t' i => ?_, fun t i => ?_, fun i h => ?_, fun i hi => ?_⟩
  · rw [hcl, hcl]; exact hinv.claimed_inj t t' i
  · rw [hcl, hret]; exact hinv.claimed_not_returned t i
  · exact hinv.held_lt i ((hheld i).1 h)
  · rw [hmask, hheld]; exact hinv.mask i hi

/-- A successful compare-exchange claims a free index and clears its bit. -/
theorem PoolInv.claim (hinv : PoolInv s) {t : T} {idx : Fin wordCount} {b : Nat}
    (hold : (s.pcs t).claimed = none) (hb : b < 64) (hset : (s.freeMask idx).getLsbD b = true)
    (hmask : s'.freeMask = Function.update s.freeMask idx (s.freeMask idx &&& ~~~bit b))
    (hret : s'.returned = s.returned)
    (hcl : ∀ t', (s'.pcs t').claimed =
      if t' = t then some (idx.val * 64 + b) else (s.pcs t').claimed) : PoolInv s' := by
  have hlt : idx.val * 64 + b < poolSize := by
    have := idx.isLt; unfold wordCount poolSize at *; omega
  have hfree : ¬ s.Held (idx.val * 64 + b) := by
    rw [← hinv.mask _ hlt]
    have hidx : (⟨(idx.val * 64 + b) / 64, lt_wordCount hlt⟩ : Fin wordCount) = idx :=
      Fin.ext (show (idx.val * 64 + b) / 64 = idx.val by omega)
    simp [Words.test, lt_wordCount hlt, hidx, show (idx.val * 64 + b) % 64 = b by omega, hset]
  have hheld : ∀ i, s'.Held i ↔ s.Held i ∨ i = idx.val * 64 + b := by
    intro i
    simp only [Held, hret, hcl]
    constructor
    · rintro (h | ⟨t', h⟩)
      · exact .inl (.inl h)
      · split at h
        · exact .inr (Option.some.inj h).symm
        · exact .inl (.inr ⟨t', h⟩)
    · rintro ((h | ⟨t', h⟩) | rfl)
      · exact .inl h
      · refine .inr ⟨t', ?_⟩
        rw [if_neg fun ht => by subst ht; rw [hold] at h; cases h]
        exact h
      · exact .inr ⟨t, by simp⟩
  refine ⟨hret ▸ hinv.nodup, fun t₁ t₂ i h₁ h₂ => ?_, fun t' i h => ?_,
    fun i h => ?_, fun i hi => ?_⟩
  · rw [hcl] at h₁ h₂
    split at h₁ <;> split at h₂
    · subst_vars; rfl
    · cases h₁; exact absurd (.inr ⟨t₂, h₂⟩) hfree
    · cases h₂; exact absurd (.inr ⟨t₁, h₁⟩) hfree
    · exact hinv.claimed_inj t₁ t₂ i h₁ h₂
  · rw [hcl] at h
    rw [hret]
    split at h
    · cases h; exact fun hm => hfree (.inl hm)
    · exact hinv.claimed_not_returned t' i h
  · rcases (hheld i).1 h with h | rfl
    · exact hinv.held_lt i h
    · exact hlt
  · rw [hmask, Words.test_update_and_not_word _ _ hb, hheld, ← hinv.mask i hi]
    cases Words.test s.freeMask i <;> simp

/-- Storing `next_search` returns the claimed index. -/
theorem PoolInv.publish (hinv : PoolInv s) {t : T} {p : Nat}
    (hclaim : (s.pcs t).claimed = some p) (hmask : s'.freeMask = s.freeMask)
    (hret : s'.returned.Perm (p :: s.returned))
    (hcl : ∀ t', (s'.pcs t').claimed = if t' = t then none else (s.pcs t').claimed) :
    PoolInv s' := by
  have hp := hinv.claimed_not_returned t p hclaim
  have hheld : ∀ i, s'.Held i ↔ s.Held i := by
    intro i
    simp only [Held, hret.mem_iff, List.mem_cons, hcl]
    constructor
    · rintro ((rfl | h) | ⟨t', h⟩)
      · exact .inr ⟨t, hclaim⟩
      · exact .inl h
      · split at h
        · cases h
        · exact .inr ⟨t', h⟩
    · rintro (h | ⟨t', h⟩)
      · exact .inl (.inr h)
      · by_cases ht : t' = t
        · subst ht; rw [hclaim] at h; cases h; exact .inl (.inl rfl)
        · exact .inr ⟨t', by rw [if_neg ht]; exact h⟩
  refine ⟨hret.nodup_iff.2 (List.nodup_cons.2 ⟨hp, hinv.nodup⟩), fun t₁ t₂ i h₁ h₂ => ?_,
    fun t' i h => ?_, fun i h => hinv.held_lt i ((hheld i).1 h), fun i hi => ?_⟩
  · rw [hcl] at h₁ h₂
    split at h₁
    · cases h₁
    · split at h₂
      · cases h₂
      · exact hinv.claimed_inj t₁ t₂ i h₁ h₂
  · rw [hcl] at h
    split at h
    · cases h
    · rename_i ht
      rw [hret.mem_iff, List.mem_cons]
      rintro (rfl | hm)
      · exact ht (hinv.claimed_inj t' t i h hclaim)
      · exact hinv.claimed_not_returned t' i h hm
  · rw [hmask, hheld]; exact hinv.mask i hi

omit [DecidableEq T] in
/-- Dropping a `PacketRef` sets the bit of its index and forgets it. -/
theorem PoolInv.release (hinv : PoolInv s) {i : Nat} (hi : i / 64 < wordCount)
    (hmem : i ∈ s.returned) (hret : s.returned.Perm (i :: s'.returned))
    (hmask : s'.freeMask = Function.update s.freeMask ⟨i / 64, hi⟩
      (s.freeMask ⟨i / 64, hi⟩ ||| bit (i % 64)))
    (hpcs : s'.pcs = s.pcs) : PoolInv s' := by
  have hnd : (i :: s'.returned).Nodup := hret.nodup_iff.1 hinv.nodup
  have hsub : ∀ j ∈ s'.returned, j ∈ s.returned := fun j hj => hret.mem_iff.2 (.tail _ hj)
  have hheld : ∀ j, s'.Held j ↔ s.Held j ∧ j ≠ i := by
    intro j
    simp only [Held, hpcs]
    constructor
    · rintro (h | ⟨t, h⟩)
      · exact ⟨.inl (hsub j h), fun hj => (List.nodup_cons.1 hnd).1 (hj ▸ h)⟩
      · exact ⟨.inr ⟨t, h⟩, fun hj => hinv.claimed_not_returned t j h (hj ▸ hmem)⟩
    · rintro ⟨h | ⟨t, h⟩, hji⟩
      · rcases List.mem_cons.1 (hret.mem_iff.1 h) with rfl | h
        · exact absurd rfl hji
        · exact .inl h
      · exact .inr ⟨t, h⟩
  refine ⟨(List.nodup_cons.1 hnd).2, fun t₁ t₂ j => ?_, fun t j h hm => ?_,
    fun j h => hinv.held_lt j ((hheld j).1 h).1, fun j hj => ?_⟩
  · rw [hpcs]; exact hinv.claimed_inj t₁ t₂ j
  · rw [hpcs] at h
    exact hinv.claimed_not_returned t j h (hsub j hm)
  · rw [hmask, Words.test_update_or, hheld, ← hinv.mask j hj]
    simp

theorem PoolInv.step (hinv : PoolInv s) {a : Action T} (h : s.step a = some s') :
    PoolInv s' := by
  rcases step_cases h with hq | ⟨t, idx, b, hold, hb, hset, hmask, hret, hcl⟩ |
    ⟨t, p, hclaim, hmask, hret, hcl⟩ | ⟨i, hi, hmem, hret, hmask, hpcs⟩
  · exact hinv.quiet hq
  · exact hinv.claim hold hb hset hmask hret hcl
  · exact hinv.publish hclaim hmask hret hcl
  · exact hinv.release hi hmem hret hmask hpcs

theorem Reachable.poolInv (h : Reachable s) : PoolInv s := by
  induction h with
  | init => exact poolInv_init
  | step _ _ hstep ih => exact ih.step hstep

/-- **No buffer is ever shared.**  In every state reachable by any interleaving of any
number of threads, the returned indices are pairwise distinct, an index is claimed by at
most one thread and never while it is returned, every held index is one of the 65536
buffers with its bit clear, and every other buffer has its bit set. -/
theorem pool_exclusive_ownership (h : Reachable s) :
    s.returned.Nodup ∧
      (∀ t t' i, (s.pcs t).claimed = some i → (s.pcs t').claimed = some i → t = t') ∧
      (∀ t i, (s.pcs t).claimed = some i → i ∉ s.returned) ∧
      (∀ i, s.Held i → i < poolSize ∧ Words.test s.freeMask i = false) ∧
      (∀ i < poolSize, ¬ s.Held i → Words.test s.freeMask i = true) := by
  have hinv := h.poolInv
  refine ⟨hinv.nodup, hinv.claimed_inj, hinv.claimed_not_returned, fun i hi => ?_,
    fun i hi hfree => ?_⟩
  · have hlt := hinv.held_lt i hi
    exact ⟨hlt, (hinv.mask i hlt).2 hi⟩
  · simpa using mt (hinv.mask i hi).1 hfree

/-- Thread `true` runs a whole `acquire_ref` on a fresh pool and gets buffer 0. -/
theorem pool_exclusive_ownership_after_acquire :
    ∃ s : PoolState Bool, Reachable s ∧ s.refs = [0] ∧
      (s.returned.Nodup ∧
        (∀ t t' i, (s.pcs t).claimed = some i → (s.pcs t').claimed = some i → t = t') ∧
        (∀ t i, (s.pcs t).claimed = some i → i ∉ s.returned) ∧
        (∀ i, s.Held i → i < poolSize ∧ Words.test s.freeMask i = false) ∧
        (∀ i < poolSize, ¬ s.Held i → Words.test s.freeMask i = true)) :=
  have h : Reachable _ :=
    .step (.run true false) (.step (.run true false) (.step (.run true false)
      (.step (.run true false) (.step (.call true true) .init rfl) rfl) rfl) rfl) rfl
  ⟨_, h, rfl, pool_exclusive_ownership h⟩

end PoolState

end ShredRelay
