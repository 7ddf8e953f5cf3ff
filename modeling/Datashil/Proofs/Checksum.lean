import Datashil.Wire
import Mathlib.Data.Nat.ModEq
import Mathlib.Data.Nat.Bitwise

/-! The checksum of a block. A step of the hash is injective in the byte and in the hash so
far, so that two blocks which differ in one byte have different hashes. -/

namespace Datashil.Utils
open Library

def hashStep (hash : Nat) (byte : Byte) : Nat := u32 ((hash ^^^ byte.toNat) * 0x01000193)

theorem calculateHash_eq (data : List Byte) : calculateHash data = data.foldl hashStep 0x811c9dc5 := rfl

theorem hashStep_lt (hash : Nat) (byte : Byte) : hashStep hash byte < 4294967296 :=
  Nat.mod_lt _ (Nat.zero_lt_succ _)

theorem foldl_hashStep_lt {hash : Nat} (small : hash < 4294967296) (data : List Byte) :
    data.foldl hashStep hash < 4294967296 := by
  induction data generalizing hash with
  | nil => exact small
  | cons byte data ih => exact ih (hashStep_lt hash byte)

/-- The multiplier is odd, so the multiplication loses nothing. -/
theorem hashStep_inj {first second : Nat} {byte other : Byte} (small : first < 4294967296)
    (small' : second < 4294967296)
    (same : hashStep first byte = hashStep second other) : first ^^^ byte.toNat = second ^^^ other.toNat := by
  have fits : ∀ {hash : Nat} (byte : Byte), hash < 4294967296 → hash ^^^ byte.toNat < 4294967296 := by
    intro hash byte small
    have low : byte.toNat < 2 ^ 32 := by
      have below := UInt8.toNat_lt byte
      omega
    exact Nat.xor_lt_two_pow small low
  have coprime : Nat.gcd 4294967296 0x01000193 = 1 := by decide
  have congruent : (first ^^^ byte.toNat) ≡ (second ^^^ other.toNat) [MOD 4294967296] :=
    Nat.ModEq.cancel_right_of_coprime coprime same
  exact congruent.eq_of_lt_of_lt (fits byte small) (fits other small')

theorem hashStep_inj_hash {first second : Nat} {byte : Byte} (small : first < 4294967296)
    (small' : second < 4294967296)
    (same : hashStep first byte = hashStep second byte) : first = second :=
  Nat.xor_left_inj.mp (hashStep_inj small small' same)

theorem hashStep_inj_byte {hash : Nat} {byte other : Byte} (small : hash < 4294967296)
    (same : hashStep hash byte = hashStep hash other) :
    byte = other := UInt8.toNat_inj.mp (Nat.xor_right_inj.mp (hashStep_inj small small same))

theorem foldl_hashStep_inj {first second : Nat} (small : first < 4294967296)
    (small' : second < 4294967296) (data : List Byte)
    (same : data.foldl hashStep first = data.foldl hashStep second) : first = second := by
  induction data generalizing first second with
  | nil => exact same
  | cons byte data ih =>
    exact hashStep_inj_hash small small' (ih (hashStep_lt first byte) (hashStep_lt second byte) same)

/-- The hash tells two blocks apart that differ in one byte. -/
theorem calculateHash_inj {front back : List Byte} {byte other : Byte}
    (same : calculateHash (front ++ byte :: back) = calculateHash (front ++ other :: back)) :
    byte = other := by
  have small : front.foldl hashStep 0x811c9dc5 < 4294967296 := foldl_hashStep_lt (by omega) front
  simp only [calculateHash_eq, List.foldl_append, List.foldl_cons] at same
  exact hashStep_inj_byte small (foldl_hashStep_inj (hashStep_lt _ byte) (hashStep_lt _ other) back same)

theorem verifyChecksum_append (data : List Byte) {stored : List Byte}
    (size : stored.length = SIZEOF_CHECKSUM) :
    verifyChecksum (data ++ stored) = true ↔ calculateHash data = LittleEndian.decode stored := by
  have length : (data ++ stored).length - SIZEOF_CHECKSUM = data.length := by
    rw [List.length_append, size, Nat.add_sub_cancel]
  simp only [verifyChecksum, length, List.take_left, List.drop_left, decide_eq_true_eq]

/-- A byte changed in the covered part or in the checksum is noticed. -/
theorem verifyChecksum_changed {data : List Byte} {position : Nat}
    (inside : position < data.length + SIZEOF_CHECKSUM) {byte : Byte}
    (changed : (data ++ LittleEndian.encode SIZEOF_CHECKSUM (calculateHash data))[position]? ≠ some byte) :
    verifyChecksum ((data ++ LittleEndian.encode SIZEOF_CHECKSUM (calculateHash data)).set position
      byte) = false := by
  have size : (LittleEndian.encode SIZEOF_CHECKSUM (calculateHash data)).length = SIZEOF_CHECKSUM :=
    LittleEndian.length_encode ..
  have right : LittleEndian.decode (LittleEndian.encode SIZEOF_CHECKSUM (calculateHash data)) =
      calculateHash data :=
    LittleEndian.decode_encode_of_lt (calculateHash_lt data)
  apply Bool.eq_false_of_not_eq_true
  by_cases covered : position < data.length
  · rw [List.getElem?_append_left covered, List.getElem?_eq_getElem covered] at changed
    rw [List.set_append_left position byte covered, verifyChecksum_append _ size, right]
    have parts : data = data.take position ++ data[position] :: data.drop (position + 1) := by simp
    have parts' : data.set position byte = data.take position ++ byte :: data.drop (position + 1) := by
      rw [List.set_eq_take_append_cons_drop, if_pos covered]
    intro same
    have equal : calculateHash (data.take position ++ byte :: data.drop (position + 1)) =
        calculateHash (data.take position ++ data[position] :: data.drop (position + 1)) := by
      rw [← parts', ← parts]
      exact same
    exact changed (congrArg some (calculateHash_inj equal).symm)
  · rw [List.getElem?_append_right (Nat.le_of_not_lt covered)] at changed
    rw [List.set_append_right position byte (Nat.le_of_not_lt covered),
      verifyChecksum_append _ (by rw [List.length_set, size])]
    intro same
    have equal := LittleEndian.decode_inj (by rw [List.length_set]) (right.trans same)
    rw [equal, List.getElem?_set_self] at changed
    · exact changed rfl
    · rw [size]
      omega

/-- A checksum that has been set is found right, and a change of any one byte of the block is found
out. -/
theorem checksum_detects (bytes : List Byte) (long : SIZEOF_CHECKSUM < bytes.length) :
    verifyChecksum (setChecksum bytes) = true ∧
      ∀ position < bytes.length, ∀ byte, (setChecksum bytes)[position]? ≠ some byte →
        verifyChecksum ((setChecksum bytes).set position byte) = false := by
  refine ⟨verifyChecksum_setChecksum (Nat.le_of_lt long), ?_⟩
  intro position inside byte changed
  apply verifyChecksum_changed _ changed
  rw [List.length_take]
  omega

theorem checksum_detects_five : verifyChecksum (setChecksum [1, 2, 3, 4, 5]) = true ∧
    ∀ position < 5, ∀ byte, (setChecksum [1, 2, 3, 4, 5])[position]? ≠ some byte →
      verifyChecksum ((setChecksum [1, 2, 3, 4, 5]).set position byte) = false :=
  checksum_detects [1, 2, 3, 4, 5] (by decide)

end Datashil.Utils
