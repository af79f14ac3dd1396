import Mathlib.Logic.Function.Basic
import Mathlib.Data.Fin.Basic

/-!
# Bitsets of 64-bit words

`received_mask: [u64; 8]` in the compact reassembler and `free_mask: [AtomicUsize; 1024]`
in the packet pool are both arrays of 64-bit words, position `i` living in bit `i % 64`
of word `i / 64`.  `Words.test` reads a position; the code changes a word in exactly two
ways, `w | (1 << b)` and `w & !(1 << b)`, and `Words.test_update_or` and
`Words.test_update_and_not_word` say what each does to every position.  The code's own test,
`w & (1 << b) != 0`, is `and_bit_ne_zero`, and `trailingZeros` is `u64::trailing_zeros`.
-/

namespace ShredRelay

/-- `1 << b` on a 64-bit word. -/
def bit (b : Nat) : BitVec 64 := 1#64 <<< b

@[simp] theorem getLsbD_bit (b i : Nat) :
    (bit b).getLsbD i = (decide (i < 64) && decide (i = b)) := by
  simp only [bit, BitVec.getLsbD_shiftLeft, BitVec.getLsbD_one]
  by_cases h : i = b <;> by_cases h2 : i < b <;> simp [h, h2]; omega

/-- The code's bit test `w & (1 << b) != 0` reads bit `b`. -/
theorem and_bit_ne_zero (w : BitVec 64) {b : Nat} (hb : b < 64) :
    (w &&& bit b != 0#64) = w.getLsbD b := by
  cases hw : w.getLsbD b
  · have : w &&& bit b = 0#64 := by
      ext i
      by_cases h : i.val = b <;> simp [h, hw]
    simp [this]
  · have hset : (w &&& bit b).getLsbD b = true := by simp [hw, hb]
    simp only [bne_iff_ne, ne_eq, decide_eq_true_eq]
    intro h0
    simp [h0] at hset

/-- An array `[u64; n]` used as a bitset of `64 * n` positions. -/
abbrev Words (n : Nat) := Fin n → BitVec 64

namespace Words

variable {n : Nat}

/-- Position `i`: bit `i % 64` of word `i / 64`; positions past the end read as clear. -/
def test (m : Words n) (i : Nat) : Bool :=
  if h : i / 64 < n then (m ⟨i / 64, h⟩).getLsbD (i % 64) else false

theorem test_update (m : Words n) (w : Fin n) (v : BitVec 64) (j : Nat) :
    test (Function.update m w v) j = if j / 64 = w.val then v.getLsbD (j % 64) else test m j := by
  unfold test
  by_cases hw : j / 64 = w.val
  · have hj : j / 64 < n := hw ▸ w.isLt
    have hfin : (⟨j / 64, hj⟩ : Fin n) = w := Fin.ext hw
    rw [dif_pos hj, if_pos hw, hfin, Function.update_same]
  · by_cases hj : j / 64 < n
    · have hfin : (⟨j / 64, hj⟩ : Fin n) ≠ w := fun h => hw (congrArg Fin.val h)
      simp [hj, hw, Function.update_noteq hfin]
    · simp [hj, hw]

/-- Setting bit `i % 64` of word `i / 64` sets position `i` and no other. -/
theorem test_update_or (m : Words n) {i : Nat} (h : i / 64 < n) (j : Nat) :
    test (Function.update m ⟨i / 64, h⟩ (m ⟨i / 64, h⟩ ||| bit (i % 64))) j =
      (test m j || decide (j = i)) := by
  rw [test_update]
  dsimp only
  split
  · have : (j % 64 = i % 64) ↔ j = i := by omega
    simp [test, *, Nat.mod_lt]
  · rename_i hw
    have : j ≠ i := by rintro rfl; exact hw rfl
    simp [this]

/-- Clearing bit `b` of word `w` clears position `64 * w + b` and no other. -/
theorem test_update_and_not_word (m : Words n) (w : Fin n) {b : Nat} (hb : b < 64) (j : Nat) :
    test (Function.update m w (m w &&& ~~~bit b)) j = (test m j && !decide (j = w.val * 64 + b)) := by
  rw [test_update]
  split
  · rename_i hw
    have hj : j / 64 < n := hw ▸ w.isLt
    have hfin : (⟨j / 64, hj⟩ : Fin n) = w := Fin.ext hw
    have : (j % 64 = b) ↔ j = w.val * 64 + b := by omega
    simp [test, hj, hfin, this, Nat.mod_lt]
  · rename_i hw
    have : j ≠ w.val * 64 + b := by omega
    simp [this]

/-- The code's test of position `i` in its word. -/
theorem and_bit_ne_zero_eq_test (m : Words n) {i : Nat} (h : i / 64 < n) :
    (m ⟨i / 64, h⟩ &&& bit (i % 64) != 0#64) = test m i := by
  rw [and_bit_ne_zero _ (Nat.mod_lt _ (by decide))]
  simp [test, h]

@[simp] theorem test_zero (i : Nat) : test (fun _ => 0#64 : Words n) i = false := by
  simp [test]

/-- Position `64 * w + b` is bit `b` of word `w`. -/
theorem test_mul_add (m : Words n) (w : Fin n) {b : Nat} (hb : b < 64) :
    test m (w.val * 64 + b) = (m w).getLsbD b := by
  have hw : (w.val * 64 + b) / 64 = w.val := by omega
  have hj : (w.val * 64 + b) / 64 < n := by rw [hw]; exact w.isLt
  rw [test, dif_pos hj, show (⟨(w.val * 64 + b) / 64, hj⟩ : Fin n) = w from Fin.ext hw,
    show (w.val * 64 + b) % 64 = b by omega]

theorem test_allOnes {i : Nat} (h : i / 64 < n) :
    test (fun _ => BitVec.allOnes 64 : Words n) i = true := by
  simp only [test, dif_pos h, BitVec.getLsbD_allOnes, decide_eq_true_eq]
  omega

end Words

/-- The lowest set bit of `w` among positions `i, …, i + n - 1`, and `i + n` when there is
none. -/
def lowestSetFrom (w : BitVec 64) (i : Nat) : Nat → Nat
  | 0 => i
  | n + 1 => if w.getLsbD i then i else lowestSetFrom w (i + 1) n

/-- `u64::trailing_zeros`: the lowest set bit, and 64 for the zero word. -/
def trailingZeros (w : BitVec 64) : Nat := lowestSetFrom w 0 64

theorem getLsbD_lowestSetFrom (w : BitVec 64) (i n : Nat) (h : lowestSetFrom w i n < i + n) :
    w.getLsbD (lowestSetFrom w i n) = true := by
  induction n generalizing i with
  | zero => simp [lowestSetFrom] at h
  | succ n ih =>
      unfold lowestSetFrom at h ⊢
      split
      · assumption
      · rename_i hi
        rw [if_neg hi] at h
        exact ih (i + 1) (by omega)

/-- Below 64, `trailing_zeros` names a set bit. -/
theorem getLsbD_trailingZeros {w : BitVec 64} (h : trailingZeros w < 64) :
    w.getLsbD (trailingZeros w) = true :=
  getLsbD_lowestSetFrom w 0 64 h

theorem ne_zero_of_trailingZeros_lt {w : BitVec 64} (h : trailingZeros w < 64) : w ≠ 0#64 :=
  fun hw => by simpa [hw] using getLsbD_trailingZeros h

/-- `lowestSetFrom` is the first position of `i, …, i + n - 1` whose bit is set: the one
`find?` meets, for any test that reads the bits there. -/
theorem find?_range'_lowestSetFrom (w : BitVec 64) {p : Nat → Bool} (i n : Nat)
    (hp : ∀ j, i ≤ j → j < i + n → p j = w.getLsbD j) :
    (List.range' i n).find? p =
      if lowestSetFrom w i n < i + n then some (lowestSetFrom w i n) else none := by
  induction n generalizing i with
  | zero => simp [lowestSetFrom]
  | succ n ih =>
      rw [List.range'_succ, List.find?_cons, lowestSetFrom, hp i le_rfl (by omega)]
      by_cases hi : w.getLsbD i
      · simp [hi]
      · simp only [hi, if_false, Bool.false_eq_true]
        rw [ih (i + 1) fun j h1 h2 => hp j (by omega) (by omega),
          show i + 1 + n = i + (n + 1) by omega]

/-- **`trailing_zeros` is the lowest set bit**, and 64 when there is none. -/
theorem find?_trailingZeros (w : BitVec 64) {p : Nat → Bool}
    (hp : ∀ j < 64, p j = w.getLsbD j) :
    (List.range 64).find? p = if trailingZeros w < 64 then some (trailingZeros w) else none := by
  rw [List.range_eq_range']
  exact find?_range'_lowestSetFrom w 0 64 fun j _ hj => hp j hj

end ShredRelay
