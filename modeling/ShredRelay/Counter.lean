import Mathlib.Data.UInt

/-!
# Wrapping counters

The decoder's `ShredStats` (`examples/shred_processor.rs`) and the receive loop's `RxStats`
(`src/rx_loop.rs`) are `AtomicUsize`s, 64 bits wide on the targets the relay runs on, and
`fetch_add` wraps.  They are `UInt64`s here, whose addition Mathlib makes a commutative
group.  The lemmas below read a counter, and an increment of it, back as a number modulo
`2 ^ 64`; every statement about the counters goes through them.
-/

namespace ShredRelay

/-- `fetch_add(n)` on a 64-bit counter adds modulo `2 ^ 64`. -/
theorem toNat_add_ofNat (c : UInt64) (n : Nat) :
    (c + UInt64.ofNat n).toNat = (c.toNat + n) % 2 ^ 64 := by
  have h : (UInt64.ofNat n).toNat = n % 2 ^ 64 := BitVec.toNat_ofNat _ _
  simp only [UInt64.toNat, UInt64.add_def, BitVec.toNat_add] at h ⊢
  omega

theorem toNat_add_one (c : UInt64) : (c + 1).toNat = (c.toNat + 1) % 2 ^ 64 :=
  toNat_add_ofNat c 1

theorem toNat_mod_two_pow (c : UInt64) : c.toNat % 2 ^ 64 = c.toNat :=
  Nat.mod_eq_of_lt c.toBitVec.isLt

end ShredRelay
