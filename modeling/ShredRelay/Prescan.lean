import ShredRelay.Shred
import Mathlib.Algebra.Group.Nat.Basic

/-!
# The shred prescan

`extract_slot_fast` and `parse_shred_type` (`examples/shred_processor.rs`) read a shred's
slot and type straight from its bytes, without the library decoder.  The spec (§3)
fixes the common header they read: a 64-byte signature, the variant byte at `0x40`, the
slot as a little-endian `u64`, the index and the FEC set index as little-endian `u32`s
and the version as a `u16`, 83 bytes in all.

## Main definitions

* `extractSlotFast`, `parseShredType`: the two functions, from the source.
* `ShredHeader`: the header as the spec lays it out, with its field widths as fields of
  the structure, and `ShredHeader.encode` its 83 bytes.
* `variantType`: the spec's classification of the variant's upper nibble.

## Main results

* `extractSlotFast_encode`, `parseShredType_encode`: on a header followed by any body,
  the prescan reads back the header's slot and the type its variant names.
-/

namespace ShredRelay

/-- `u64::from_le_bytes`, `u32::from_le_bytes`: little-endian bytes as a number. -/
def leValue : List UInt8 → Nat
  | [] => 0
  | b :: rest => b.toNat + 256 * leValue rest

/-- `extract_slot_fast(payload)`: the `u64` at bytes `65..73`. -/
def extractSlotFast (payload : List UInt8) : Option Nat :=
  if payload.length < 73 then none
  else some (leValue ((payload.drop 65).take 8))

/-- `parse_shred_type(data)`: the type the variant byte's upper nibble names. -/
def parseShredType (data : List UInt8) : Option ShredType :=
  if data.length < 83 then none
  else
    let variant := data.getD 0x40 0
    let upperNibble := variant &&& 0xF0
    if upperNibble == 0x80 || upperNibble == 0x90 || upperNibble == 0xB0 then some .data
    else if upperNibble == 0x40 || upperNibble == 0x60 || upperNibble == 0x70 then some .code
    else none

/-! ## The header the spec lays out -/

/-- `n` little-endian bytes of `v`. -/
def leBytes : Nat → Nat → List UInt8
  | 0, _ => []
  | n + 1, v => UInt8.ofNat (v % 256) :: leBytes n (v / 256)

/-- The spec's classification of a variant byte: upper nibble 8, 9 or 11 is a data
shred, 4, 6 or 7 a code shred, anything else is not a shred the core accepts. -/
def variantType (variant : UInt8) : Option ShredType :=
  match variant.toNat / 16 with
  | 8 | 9 | 11 => some .data
  | 4 | 6 | 7 => some .code
  | _ => none

/-- The common shred header: every field has the width the spec gives it. -/
structure ShredHeader where
  signature : List UInt8
  variant : UInt8
  slot : Nat
  index : Nat
  version : Nat
  fecSetIndex : Nat
  signature_length : signature.length = 64
  slot_lt : slot < 2 ^ 64
  index_lt : index < 2 ^ 32
  version_lt : version < 2 ^ 16
  fecSetIndex_lt : fecSetIndex < 2 ^ 32

namespace ShredHeader

/-- The header's bytes, in the spec's order. -/
def encode (h : ShredHeader) : List UInt8 :=
  h.signature ++ [h.variant] ++ leBytes 8 h.slot ++ leBytes 4 h.index ++
    leBytes 2 h.version ++ leBytes 4 h.fecSetIndex

end ShredHeader

@[simp] theorem length_leBytes (n v : Nat) : (leBytes n v).length = n := by
  induction n generalizing v with
  | zero => rfl
  | succ n ih => simp [leBytes, ih]

theorem length_encode (h : ShredHeader) : h.encode.length = 83 := by
  simp [ShredHeader.encode, h.signature_length]

/-- Reading back `n` little-endian bytes gives the value cut to `8 n` bits. -/
theorem leValue_leBytes (n v : Nat) : leValue (leBytes n v) = v % 256 ^ n := by
  induction n generalizing v with
  | zero => simp [leBytes, leValue, Nat.mod_one]
  | succ n ih =>
      rw [leBytes, leValue, ih, UInt8.toNat_ofNat_of_lt (Nat.mod_lt _ (by decide)),
        Nat.pow_succ, Nat.mul_comm (256 ^ n), Nat.mod_mul, Nat.add_comm]

/-- The code's bit test is the spec's nibble classification, on every byte. -/
theorem nibble_eq_variantType (variant : UInt8) :
    (let upperNibble := variant &&& 0xF0
      if upperNibble == 0x80 || upperNibble == 0x90 || upperNibble == 0xB0 then some .data
      else if upperNibble == 0x40 || upperNibble == 0x60 || upperNibble == 0x70 then some .code
      else none) = variantType variant := by
  obtain ⟨⟨n, hn⟩⟩ := variant
  revert n
  set_option maxRecDepth 4000 in decide

theorem parseShredType_eq (data : List UInt8) :
    parseShredType data = if data.length < 83 then none else variantType (data.getD 0x40 0) := by
  unfold parseShredType
  split
  · rfl
  · exact nibble_eq_variantType _

/-! ## Round trips -/

section Encode

variable (h : ShredHeader) (body : List UInt8)

/-- The header as the variant's prefix and the fields after it. -/
theorem encode_append : h.encode ++ body = (h.signature ++ [h.variant]) ++
    (leBytes 8 h.slot ++ (leBytes 4 h.index ++ leBytes 2 h.version ++ leBytes 4 h.fecSetIndex ++
      body)) := by
  simp [ShredHeader.encode]

theorem getD_encode_variant : (h.encode ++ body).getD 0x40 0 = h.variant := by
  rw [encode_append, List.getD_eq_getElem?_getD,
    List.getElem?_append_left (by simp [h.signature_length]),
    List.getElem?_append_right (by simp [h.signature_length]), h.signature_length]
  rfl

theorem slotBytes_encode : ((h.encode ++ body).drop 65).take 8 = leBytes 8 h.slot := by
  rw [encode_append, List.drop_left' (by simp [h.signature_length]),
    List.take_left' (length_leBytes 8 _)]

/-- **The prescan reads the slot back.** -/
theorem extractSlotFast_encode : extractSlotFast (h.encode ++ body) = some h.slot := by
  rw [extractSlotFast, if_neg (by simp [length_encode]; omega), slotBytes_encode, leValue_leBytes,
    Nat.mod_eq_of_lt (lt_of_lt_of_eq h.slot_lt (by decide))]

/-- **The prescan reads the type back.** -/
theorem parseShredType_encode : parseShredType (h.encode ++ body) = variantType h.variant := by
  rw [parseShredType_eq, if_neg (by simp [length_encode]), getD_encode_variant]

end Encode

end ShredRelay
