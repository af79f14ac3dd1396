import ShredRelay.PacketPool

/-!
# A thread alone in `acquire`

`pool_exclusive_ownership` says what `acquire` never does, whatever the interleaving.  This
module says what it does.  A thread whose atomic accesses no other thread's come between,
and whose compare-exchange does not fail spuriously, takes the first free buffer in the
order its two loops scan the pool: the words from `next_search` on, wrapping around, and in
each word the lowest set bit.  It clears that bit, moves `next_search` past the word, and
returns the buffer; it returns `None` only when no buffer is free.

## Design notes

**The sequential meaning.**  `scanOrder start` lists the 65536 indices in the order of the
two loops, and `acquireSeq` takes the first free one with `List.find?`.  Neither mentions
`trailing_zeros` or the compare-exchange: they say what `acquire` is for.

**Solo runs.**  `runSolo s t n` is `n` atomic accesses of thread `t`, none failing
spuriously.  An empty word costs one access, and a word with a set bit three: the load,
the compare-exchange, and the store of `next_search` (`runSolo_scan`).

## Main results

* `find?_scanOrder`: the scan over bits is the scan over words, each word answering with
  `trailing_zeros`.
* `acquire_solo`: the lock-free `acquire`, run alone, is `acquireSeq`, within
  `POOL_SIZE / 64 + 3` atomic accesses.
* `find?_scanOrder_eq_none_iff`: so it returns `None` only when every buffer is taken.
-/

namespace ShredRelay

/-- Clear position `i`. -/
def Words.clear {n : Nat} (m : Words n) (i : Nat) : Words n :=
  fun w => if w.val = i / 64 then m w &&& ~~~bit (i % 64) else m w

namespace PoolState

variable {T : Type} [DecidableEq T]

/-- The buffers in the order `acquire` looks at them when `next_search` is `start`: word by
word from word `start % 1024`, wrapping around, and in a word from bit 0 up. -/
def scanOrder (start : Nat) : List Nat :=
  (List.range wordCount).flatMap fun offset =>
    (List.range 64).map fun b => (wordIdx (start % wordCount) offset).val * 64 + b

/-- The state after thread `t`'s `acquire` returns buffer `i`, or `None`. -/
def acquired (s : PoolState T) (t : T) (byRef : Bool) : Option Nat → PoolState T
  | some i =>
      { s with
        freeMask := Words.clear s.freeMask i
        nextSearch := (i / 64 + 1) % wordCount
        pcs := Function.update s.pcs t .idle
        refs := if byRef then s.refs ++ [i] else s.refs
        raws := if byRef then s.raws else s.raws ++ [i] }
  | none => s.setPc t .idle

/-- **A sequential `acquire`**: take the first free buffer in scan order. -/
def acquireSeq (s : PoolState T) (t : T) (byRef : Bool) : PoolState T :=
  s.acquired t byRef ((scanOrder s.nextSearch).find? (Words.test s.freeMask))

/-- `n` atomic accesses of thread `t` alone, no compare-exchange failing spuriously. -/
def runSolo (s : PoolState T) (t : T) : Nat → Option (PoolState T)
  | 0 => some s
  | n + 1 => (s.runThread t false).bind fun s' => s'.runSolo t n

/-- What a word answers to the scan: its lowest set bit, if `trailing_zeros` finds one. -/
def wordHit (m : Words wordCount) (idx : Fin wordCount) : Option Nat :=
  if trailingZeros (m idx) < 64 then some (idx.val * 64 + trailingZeros (m idx)) else none

/-! ## The scan over bits is the scan over words -/

theorem find?_word (m : Words wordCount) (idx : Fin wordCount) :
    ((List.range 64).map fun b => idx.val * 64 + b).find? (Words.test m) = wordHit m idx := by
  rw [List.find?_map, Function.comp_def,
    find?_trailingZeros (m idx) fun j hj => Words.test_mul_add m idx hj, wordHit]
  split <;> rfl

theorem find?_scanOrder (m : Words wordCount) (start : Nat) :
    (scanOrder start).find? (Words.test m) =
      (List.range' 0 wordCount).findSome? fun o => wordHit m (wordIdx (start % wordCount) o) := by
  simp only [scanOrder, List.find?_flatMap, find?_word]
  rw [List.range_eq_range']

/-- The scan visits every buffer of the pool. -/
theorem mem_scanOrder {start i : Nat} : i ∈ scanOrder start ↔ i < poolSize := by
  simp only [scanOrder, List.mem_flatMap, List.mem_range, List.mem_map, wordIdx]
  constructor
  · rintro ⟨o, -, b, hb, rfl⟩
    have := Nat.mod_lt (start % wordCount + o) (show 0 < wordCount by decide)
    unfold wordCount poolSize at *
    omega
  · intro hi
    refine ⟨(i / 64 + wordCount - start % wordCount) % wordCount, Nat.mod_lt _ (by decide),
      i % 64, Nat.mod_lt _ (by decide), ?_⟩
    unfold wordCount poolSize at *
    omega

/-! ## A solo run -/

theorem runSolo_succ {s s' : PoolState T} {t : T} {n : Nat}
    (h : s.runThread t false = some s') : s.runSolo t (n + 1) = s'.runSolo t n := by
  simp [runSolo, h]

@[simp] theorem setPc_freeMask (s : PoolState T) (t : T) (pc : Pc) :
    (s.setPc t pc).freeMask = s.freeMask := rfl

@[simp] theorem acquired_setPc (s : PoolState T) (t : T) (pc : Pc) (byRef : Bool)
    (r : Option Nat) : (s.setPc t pc).acquired t byRef r = s.acquired t byRef r := by
  cases r <;> simp [acquired, setPc]

/-- Claiming bit `b` of word `idx` is clearing position `64 * idx + b`. -/
theorem update_eq_clear (m : Words wordCount) (idx : Fin wordCount) {b : Nat} (hb : b < 64) :
    Function.update m idx (m idx &&& ~~~bit b) = Words.clear m (idx.val * 64 + b) := by
  funext w
  by_cases hw : w = idx
  · subst hw
    simp [Words.clear, show (w.val * 64 + b) / 64 = w.val by omega,
      show (w.val * 64 + b) % 64 = b by omega]
  · have hv : w.val ≠ (idx.val * 64 + b) / 64 := fun h =>
      hw (Fin.ext (by rw [h]; omega))
    simp [Words.clear, Function.update_noteq hw, hv]

/-- **A word with a set bit**: the load, the compare-exchange, which nothing can make fail,
and the store of `next_search` return its lowest set bit. -/
theorem runSolo_claim {s : PoolState T} {t : T} {byRef : Bool} {st off : Nat}
    (hpc : s.pcs t = .loading byRef st off) (hoff : off < wordCount)
    (hlt : trailingZeros (s.freeMask (wordIdx st off)) < 64) :
    s.runSolo t 3 = some (s.acquired t byRef (wordHit s.freeMask (wordIdx st off))) := by
  have hne := ne_zero_of_trailingZeros_lt hlt
  have hle : ¬ trailingZeros (s.freeMask (wordIdx st off)) ≥ 64 := by omega
  simp only [runSolo, runThread, hpc, if_pos hoff, if_neg hne, dif_neg hle, Option.bind_eq_bind,
    Option.some_bind, setPc, Function.update_same, Bool.not_false, beq_self_eq_true,
    Bool.and_self, if_true, wordHit, if_pos hlt, acquired, Function.update_idem]
  rw [update_eq_clear _ _ hlt,
    show ((wordIdx st off).val * 64 + trailingZeros (s.freeMask (wordIdx st off))) / 64 =
      (wordIdx st off).val by omega]

/-- **The scan**: from the load of word `off`, a solo run returns what the words from `off`
on answer first, within `POOL_SIZE / 64 - off + 2` accesses. -/
theorem runSolo_scan {t : T} {byRef : Bool} {st : Nat} :
    ∀ (k : Nat) (s : PoolState T) (off : Nat), off + k = wordCount →
      s.pcs t = .loading byRef st off →
      ∃ n ≤ k + 2, s.runSolo t n = some (s.acquired t byRef
        ((List.range' off k).findSome? fun o => wordHit s.freeMask (wordIdx st o)))
  | 0, s, off, hk, hpc => by
      refine ⟨1, by omega, ?_⟩
      simp [runSolo, runThread, hpc, show ¬ off < wordCount by omega, acquired]
  | k + 1, s, off, hk, hpc => by
      rw [List.range'_succ]
      by_cases hlt : trailingZeros (s.freeMask (wordIdx st off)) < 64
      · rw [List.findSome?_cons_of_isSome _ (by rw [wordHit, if_pos hlt]; rfl)]
        exact ⟨3, by omega, runSolo_claim hpc (by omega) hlt⟩
      · have hmiss : wordHit s.freeMask (wordIdx st off) = none := if_neg hlt
        have hstep : s.runThread t false =
            some (s.setPc t (.loading byRef st (off + 1))) := by
          simp only [runThread, hpc, if_pos (show off < wordCount by omega)]
          split_ifs <;> first | rfl | omega
        obtain ⟨n, hn, hrun⟩ := runSolo_scan k (s.setPc t (.loading byRef st (off + 1)))
          (off + 1) (by omega)
          (show (s.setPc t _).pcs t = .loading byRef st (off + 1) by simp [setPc])
        refine ⟨n + 1, by omega, ?_⟩
        rw [List.findSome?_cons_of_isNone _ (by rw [hmiss]; rfl), runSolo_succ hstep, hrun,
          acquired_setPc, setPc_freeMask]

/-- **`acquire` alone is the sequential `acquire`**: a thread that calls `acquire` or
`acquire_ref` and then runs with no other thread's access between its own, and no
compare-exchange failing spuriously, returns after at most `POOL_SIZE / 64 + 3` accesses,
in the state where the first free buffer in scan order is taken, or with `None` and the
pool unchanged when there is none. -/
theorem acquire_solo {s : PoolState T} {t : T} {byRef : Bool}
    (hpc : s.pcs t = .entered byRef) :
    ∃ n ≤ wordCount + 3, s.runSolo t n = some (s.acquireSeq t byRef) := by
  have hstep : s.runThread t false =
      some (s.setPc t (.loading byRef (s.nextSearch % wordCount) 0)) := by
    simp [runThread, hpc]
  obtain ⟨n, hn, hrun⟩ := runSolo_scan wordCount
    (s.setPc t (.loading byRef (s.nextSearch % wordCount) 0)) 0 (by omega)
    (show (s.setPc t _).pcs t = .loading byRef (s.nextSearch % wordCount) 0 by simp [setPc])
  refine ⟨n + 1, by omega, ?_⟩
  rw [runSolo_succ hstep, hrun, acquireSeq, find?_scanOrder, acquired_setPc, setPc_freeMask]

/-- Thread `true` calls `acquire_ref` on a fresh pool and runs alone. -/
theorem acquire_solo_fresh :
    ((init : PoolState Bool).setPc true (.entered true)).pcs true = .entered true ∧
      ∃ n ≤ wordCount + 3, ((init : PoolState Bool).setPc true (.entered true)).runSolo true n =
        some (((init : PoolState Bool).setPc true (.entered true)).acquireSeq true true) :=
  ⟨by simp [setPc], acquire_solo (by simp [setPc])⟩

/-- `acquire` returns `None` only when every buffer is taken. -/
theorem find?_scanOrder_eq_none_iff (m : Words wordCount) (start : Nat) :
    (scanOrder start).find? (Words.test m) = none ↔ ∀ i < poolSize, Words.test m i = false := by
  simp [List.find?_eq_none, mem_scanOrder]

end PoolState

end ShredRelay
