import JoinEngine.Bits
import Mathlib.Algebra.Group.Nat.Defs
import Mathlib.Data.List.Basic

/-!
Strings of bytes as strings of bits. A field inside a string reads the bits of its
range and writes these and no others. A string is known from its length and bits.
-/

namespace JoinEngine

namespace Bytes

/-- A bit of a string; behind its end all bits are zero. -/
def bit (bytes : Bytes) (index : Nat) : Bool := (bytes.bit? index).getD false

theorem bit?_eq {bytes : Bytes} {index : Nat} (inside : index < 8 * bytes.length) :
    bytes.bit? index = some (bytes.bit index) := by
  have present : index / 8 < bytes.length := by omega
  simp [bit, bit?, present]

theorem bit_eq_testBit {bytes : Bytes} {index : Nat} (present : index / 8 < bytes.length) :
    bytes.bit index = bytes[index / 8].toNat.testBit (index % 8) := by
  simp [bit, bit?, present]

theorem bit_of_byte {bytes : Bytes} {place offset : Nat} (inside : place < bytes.length)
    (low : offset < 8) : bytes.bit (8 * place + offset) = bytes[place].toNat.testBit offset := by
  have quotient : (8 * place + offset) / 8 = place := by omega
  have remainder : (8 * place + offset) % 8 = offset := by omega
  rw [bit_eq_testBit (by omega)]
  simp only [quotient, remainder]

/-- A byte is known from its eight bits. -/
theorem byte_eq {left right : UInt8}
    (agree : ∀ offset < 8, left.toNat.testBit offset = right.toNat.testBit offset) :
    left = right := by
  refine UInt8.toNat_inj.mp (Nat.eq_of_testBit_eq fun offset => ?_)
  by_cases low : offset < 8
  · exact agree offset low
  · have high : 2 ^ 8 ≤ 2 ^ offset := Nat.pow_le_pow_right (by decide) (by omega)
    rw [Nat.testBit_lt_two_pow (Nat.lt_of_lt_of_le left.toNat_lt high),
      Nat.testBit_lt_two_pow (Nat.lt_of_lt_of_le right.toNat_lt high)]

theorem ext_bit {left right : Bytes} (length : left.length = right.length)
    (agree : ∀ index, index < 8 * left.length → left.bit index = right.bit index) :
    left = right := by
  refine List.ext_getElem length fun place inLeft inRight => byte_eq fun offset low => ?_
  rw [← bit_of_byte inLeft low, ← bit_of_byte inRight low]
  exact agree _ (by omega)

theorem bit_take {bytes : Bytes} {count index : Nat} (below : index < 8 * count) :
    bit (bytes.take count) index = bytes.bit index := by
  have place : index / 8 < count := by omega
  simp [bit, bit?, place]

/-- Where the first string fills the bits from `start` to `stop`. -/
theorem bit_append {left : Bytes} (right : Bytes) {start stop index : Nat}
    (filled : start + 8 * left.length = stop) (above : start ≤ index) :
    bit (left ++ right) (index - start) =
      if index < stop then left.bit (index - start) else right.bit (index - stop) := by
  unfold bit bit?
  by_cases inLeft : index < stop
  · rw [if_pos inLeft, List.getElem?_append_left (by omega)]
  · have place : (index - stop) / 8 = (index - start) / 8 - left.length := by omega
    have offset : (index - stop) % 8 = (index - start) % 8 := by omega
    rw [if_neg inLeft, List.getElem?_append_right (by omega), place, offset]

theorem bit_replicate_zero (length index : Nat) : bit (List.replicate length 0) index = false := by
  by_cases inside : index / 8 < length
  · simp [bit, bit?, inside]
  · simp [bit, bit?, inside]

theorem mask_bit : ∀ index < 8, ∀ other < 8,
    ((1 : UInt8) <<< UInt8.ofNat index).toBitVec.getLsbD other = decide (other = index) := by
  decide

theorem withBit_testBit (byte : UInt8) (on : Bool) {index other : Nat} (inside : index < 8)
    (alsoInside : other < 8) :
    (withBit byte index on).toNat.testBit other =
      if other = index then on else byte.toNat.testBit other := by
  have mask := mask_bit index inside other alsoInside
  change (withBit byte index on).toBitVec.getLsbD other =
    if other = index then on else byte.toBitVec.getLsbD other
  cases on with
  | true =>
      simp only [withBit, if_true, UInt8.toBitVec_or, BitVec.getLsbD_or, mask]
      by_cases same : other = index <;> simp [same]
  | false =>
      simp only [withBit, Bool.false_eq_true, if_false, UInt8.toBitVec_and, UInt8.toBitVec_not,
        BitVec.getLsbD_and, BitVec.getLsbD_not, mask, alsoInside, decide_true, Bool.true_and]
      by_cases same : other = index <;> simp [same]

/-- Marking a bit sets it and leaves the others. -/
theorem testBit_mark (byte : UInt8) {index : Nat} (inside : index < 8) (other : Nat) :
    (byte ||| (1 <<< UInt8.ofNat index)).toNat.testBit other =
      (byte.toNat.testBit other || decide (other = index)) := by
  by_cases low : other < 8
  · have marked := withBit_testBit byte true inside low
    simp only [withBit, if_true] at marked
    rw [marked]
    by_cases same : other = index <;> simp [same]
  · have high : 2 ^ 8 ≤ 2 ^ other := Nat.pow_le_pow_right (by decide) (by omega)
    have apart : other ≠ index := by omega
    rw [Nat.testBit_lt_two_pow (Nat.lt_of_lt_of_le (UInt8.toNat_lt _) high),
      Nat.testBit_lt_two_pow (Nat.lt_of_lt_of_le byte.toNat_lt high)]
    simp [apart]

theorem testBit_not (byte : UInt8) {index : Nat} (inside : index < 8) :
    (~~~byte).toNat.testBit index = !byte.toNat.testBit index := by
  change (~~~byte).toBitVec.getLsbD index = !byte.toBitVec.getLsbD index
  rw [UInt8.toBitVec_not, BitVec.getLsbD_not, decide_eq_true inside, Bool.true_and]

theorem setBit?_spec {bytes : Bytes} {index : Nat} (on : Bool) (inside : index < 8 * bytes.length) :
    ∃ result, bytes.setBit? index on = some result ∧ result.length = bytes.length ∧
      ∀ other, result.bit other = if other = index then on else bytes.bit other := by
  have present : index / 8 < bytes.length := by omega
  refine ⟨bytes.set (index / 8) (withBit bytes[index / 8] (index % 8) on), ?_, by simp, ?_⟩
  · simp [setBit?, present]
  intro other
  by_cases place : other / 8 < bytes.length
  · rw [bit_eq_testBit (by simpa using place), bit_eq_testBit place, List.getElem_set]
    by_cases samePlace : index / 8 = other / 8
    · have bits : other % 8 = index % 8 ↔ other = index := by omega
      rw [if_pos samePlace, withBit_testBit _ on (by omega) (by omega)]
      simp only [bits, samePlace]
    · rw [if_neg samePlace, if_neg (by rintro rfl; exact samePlace rfl)]
  · have apart : other ≠ index := by rintro rfl; exact place present
    simp [bit, bit?, place, apart]

theorem readBits?_spec (bytes : Bytes) (lo width : Nat) (inside : lo + width ≤ 8 * bytes.length) :
    ∃ value, bytes.readBits? lo width = some value ∧ value < 2 ^ width ∧
      ∀ index, index < width → value.testBit index = bytes.bit (lo + index) := by
  induction width with
  | zero => exact ⟨0, rfl, by simp, by omega⟩
  | succ width ih =>
      obtain ⟨low, read, small, agree⟩ := ih (by omega)
      refine ⟨low + (bytes.bit (lo + width)).toNat <<< width, ?_, ?_, ?_⟩
      · simp [readBits?, read, bit?_eq (show lo + width < 8 * bytes.length by omega)]
      · rw [Nat.shiftLeft_eq, Nat.pow_succ]
        have top := Bool.toNat_le (bytes.bit (lo + width))
        have scaled := Nat.mul_le_mul_right (2 ^ width) top
        omega
      · intro index below
        -- The new bit is added above all that was read, so the sum has the bits of both.
        rw [Nat.shiftLeft_eq, Nat.mul_comm, Nat.add_comm low, Nat.testBit_two_pow_mul_add _ small]
        split
        · rename_i lower
          exact agree index lower
        · obtain rfl : index = width := by omega
          cases bytes.bit (lo + index) <;> simp

theorem writeBits?_spec (lo value width : Nat) (bytes : Bytes)
    (inside : lo + width ≤ 8 * bytes.length) :
    ∃ result, writeBits? lo value width bytes = some result ∧ result.length = bytes.length ∧
      ∀ other, result.bit other =
        if lo ≤ other ∧ other < lo + width then value.testBit (other - lo)
        else bytes.bit other := by
  induction width with
  | zero => exact ⟨bytes, rfl, rfl, fun other => by rw [if_neg (by omega)]⟩
  | succ width ih =>
      obtain ⟨lower, written, length, agree⟩ := ih (by omega)
      have room : lo + width < 8 * lower.length := by omega
      obtain ⟨result, last, sameLength, changed⟩ := setBit?_spec (value.testBit width) room
      refine ⟨result, by simp [writeBits?, written, last], by omega, fun other => ?_⟩
      rw [changed, agree]
      by_cases top : other = lo + width
      · subst top
        rw [if_pos rfl, if_pos (by omega), Nat.add_sub_cancel_left]
      · rw [if_neg top]
        by_cases within : lo ≤ other ∧ other < lo + width
        · rw [if_pos within, if_pos (by omega)]
        · rw [if_neg within, if_neg (by omega)]

/-- Writing looks at no bit of the number beyond the width. -/
theorem writeBits?_congr {lo value other width : Nat} {bytes : Bytes}
    (agree : ∀ index < width, value.testBit index = other.testBit index) :
    writeBits? lo value width bytes = writeBits? lo other width bytes := by
  induction width with
  | zero => rfl
  | succ width ih =>
      rw [writeBits?, writeBits?, ih fun index below => agree index (Nat.lt_succ_of_lt below),
        agree width (Nat.lt_succ_self width)]

end Bytes

namespace Field
variable {field : Field} {bytes : Bytes}

def Holds (field : Field) (index : Nat) : Prop := field.lo ≤ index ∧ index < field.hi

/-- A word is cut by a mask of ones, as many as the field has bits and no more than 64. -/
theorem cut_eq_and {value : Nat} (word : value < 2 ^ 64) :
    field.cut value = value &&& (2 ^ min field.width 64 - 1) := by
  unfold cut
  split
  · rename_i wide
    rw [Nat.min_eq_right wide, Nat.and_two_pow_sub_one_eq_mod, Nat.mod_eq_of_lt word]
  · rename_i narrow
    rw [Nat.min_eq_left (by omega), Nat.one_shiftLeft]

theorem testBit_cut (value : Nat) {index : Nat} (below : index < field.width) :
    (field.cut value).testBit index = value.testBit index := by
  unfold cut
  split
  · rfl
  · rw [Nat.one_shiftLeft, Nat.and_two_pow_sub_one_eq_mod, Nat.testBit_mod_two_pow,
      decide_eq_true below, Bool.true_and]

/-- The mask of a field keeps every bit that writing it looks at. -/
theorem put?_eq_writeBits? (value : Nat) :
    field.put? value bytes = Bytes.writeBits? field.lo value field.width bytes :=
  Bytes.writeBits?_congr fun _ below => testBit_cut value below

theorem get_spec (inside : field.hi ≤ 8 * bytes.length) :
    field.get bytes < 2 ^ field.width ∧
      ∀ index, index < field.width →
        (field.get bytes).testBit index = bytes.bit (field.lo + index) := by
  obtain ⟨value, read, small, agree⟩ := Bytes.readBits?_spec bytes field.lo field.width inside
  have same : field.get bytes = value := by simp [get, get?, read]
  rw [same]
  exact ⟨small, agree⟩

theorem put_spec (value : Nat) (inside : field.hi ≤ 8 * bytes.length) :
    (field.put value bytes).length = bytes.length ∧
      ∀ index, (field.put value bytes).bit index =
        if field.lo ≤ index ∧ index < field.hi then value.testBit (index - field.lo)
        else bytes.bit index := by
  obtain ⟨result, written, length, agree⟩ :=
    Bytes.writeBits?_spec field.lo value field.width bytes inside
  have same : field.put value bytes = result := by simp [put, put?_eq_writeBits?, written]
  rw [same]
  exact ⟨length, agree⟩

theorem length_put (value : Nat) (inside : field.hi ≤ 8 * bytes.length) :
    (field.put value bytes).length = bytes.length :=
  (put_spec value inside).1

theorem bit_put_of_holds (value : Nat) (inside : field.hi ≤ 8 * bytes.length) {index : Nat}
    (holds : field.Holds index) :
    (field.put value bytes).bit index = value.testBit (index - field.lo) :=
  ((put_spec value inside).2 index).trans (if_pos holds)

theorem bit_put_of_not_holds (value : Nat) (inside : field.hi ≤ 8 * bytes.length) {index : Nat}
    (outside : ¬ field.Holds index) : (field.put value bytes).bit index = bytes.bit index :=
  ((put_spec value inside).2 index).trans (if_neg outside)

theorem get_lt (inside : field.hi ≤ 8 * bytes.length) : field.get bytes < 2 ^ field.width :=
  (get_spec inside).1

theorem testBit_get (inside : field.hi ≤ 8 * bytes.length) {index : Nat}
    (holds : field.Holds index) :
    (field.get bytes).testBit (index - field.lo) = bytes.bit index := by
  have below : index - field.lo < field.width := by
    unfold Holds hi at holds
    omega
  rw [(get_spec inside).2 _ below, Nat.add_sub_cancel' holds.1]

/-- A number in a field is known from the bits of the field. -/
theorem get_eq {value : Nat} (inside : field.hi ≤ 8 * bytes.length)
    (small : value < 2 ^ field.width)
    (agree : ∀ index, field.Holds index → bytes.bit index = value.testBit (index - field.lo)) :
    field.get bytes = value := by
  refine Nat.eq_of_testBit_eq fun offset => ?_
  by_cases below : offset < field.width
  · have holds : field.Holds (field.lo + offset) := by
      unfold Holds hi
      omega
    have same := agree _ holds
    rw [Nat.add_sub_cancel_left] at same
    rw [(get_spec inside).2 offset below, same]
  · have high : 2 ^ field.width ≤ 2 ^ offset := Nat.pow_le_pow_right (by decide) (by omega)
    rw [Nat.testBit_lt_two_pow (Nat.lt_of_lt_of_le (get_lt inside) high),
      Nat.testBit_lt_two_pow (Nat.lt_of_lt_of_le small high)]

theorem get_congr {left right : Bytes} (inLeft : field.hi ≤ 8 * left.length)
    (inRight : field.hi ≤ 8 * right.length)
    (agree : ∀ index, field.Holds index → left.bit index = right.bit index) :
    field.get left = field.get right := by
  refine get_eq inLeft (get_lt inRight) fun index holds => ?_
  rw [agree index holds, testBit_get inRight holds]

theorem get_eq_zero_iff (inside : field.hi ≤ 8 * bytes.length) :
    field.get bytes = 0 ↔ ∀ index, field.Holds index → bytes.bit index = false := by
  constructor
  · intro zero index holds
    rw [← testBit_get inside holds, zero, Nat.zero_testBit]
  · intro clear
    refine get_eq inside (Nat.two_pow_pos _) fun index holds => ?_
    rw [clear index holds, Nat.zero_testBit]

theorem get_take {count : Nat} (inside : field.hi ≤ 8 * count) (long : count ≤ bytes.length) :
    field.get (bytes.take count) = field.get bytes := by
  refine get_congr (by simpa [Nat.min_eq_left long] using inside) (by omega) fun index holds => ?_
  exact Bytes.bit_take (Nat.lt_of_lt_of_le holds.2 inside)

/-- The last bytes are zero if the field of all their bits is. -/
theorem get_rest_eq_zero_iff {count : Nat} (long : count ≤ bytes.length) :
    get ⟨8 * count, 8 * (bytes.length - count)⟩ bytes = 0 ↔
      ∀ byte ∈ bytes.drop count, byte = 0 := by
  rw [get_eq_zero_iff (by simp only [hi]; omega)]
  simp only [Holds, hi]
  constructor
  · intro clear byte member
    obtain ⟨place, inside, rfl⟩ := List.getElem_of_mem member
    simp only [List.length_drop] at inside
    have present : count + place < bytes.length := by omega
    refine Bytes.byte_eq fun offset low => ?_
    rw [List.getElem_drop, ← Bytes.bit_of_byte present low, clear _ (by omega), UInt8.toNat_zero,
      Nat.zero_testBit]
  · intro zero index range
    have place : index / 8 < bytes.length := by omega
    have member : bytes[index / 8] ∈ bytes.drop count := by
      refine List.mem_drop_iff_getElem.mpr ⟨index / 8 - count, by omega, ?_⟩
      simp only [show count + (index / 8 - count) = index / 8 by omega]
    rw [Bytes.bit_eq_testBit place, zero _ member, UInt8.toNat_zero, Nat.zero_testBit]

end Field

/-!
A field inside a string is a lens on it: what is written is read again, what is read can
be written back, and the last of several writes stands. Fields without a common bit do
not see each other. Only a field that has a bit past the end cannot be read or written.
-/

namespace Bytes
variable {bytes : Bytes} {index lo width : Nat}

theorem bit?_eq_none (past : 8 * bytes.length ≤ index) : bytes.bit? index = none := by
  have absent : bytes.length ≤ index / 8 := by omega
  simp [bit?, absent]

theorem setBit?_eq_none (on : Bool) (past : 8 * bytes.length ≤ index) :
    bytes.setBit? index on = none := by
  have absent : bytes.length ≤ index / 8 := by omega
  simp [setBit?, absent]

theorem bit?_congr {other : Bytes} (length : other.length = bytes.length)
    (same : other.bit index = bytes.bit index) : other.bit? index = bytes.bit? index := by
  by_cases inside : index < 8 * bytes.length
  · rw [bit?_eq inside, bit?_eq (by omega), same]
  · rw [bit?_eq_none (by omega), bit?_eq_none (by omega)]

theorem readBits?_eq_none :
    bytes.readBits? lo width = none ↔ 0 < width ∧ 8 * bytes.length < lo + width := by
  by_cases inside : lo + width ≤ 8 * bytes.length
  · obtain ⟨value, read, _⟩ := readBits?_spec bytes lo width inside
    simp [read, inside]
  · cases width with
    | zero => simp [readBits?]
    | succ width =>
        -- The highest bit is the first to be missing.
        have missing : bytes.bit? (lo + width) = none := bit?_eq_none (by omega)
        have past : 8 * bytes.length < lo + (width + 1) := by omega
        simp [readBits?, missing, past]

theorem length_writeBits? {value : Nat} {result : Bytes}
    (written : writeBits? lo value width bytes = some result) : result.length = bytes.length := by
  induction width generalizing result with
  | zero =>
      cases written
      rfl
  | succ width ih =>
      obtain ⟨lower, first, last⟩ := Option.bind_eq_some_iff.mp written
      obtain ⟨byte, _, rfl⟩ := Option.map_eq_some_iff.mp last
      rw [List.length_set, ih first]

theorem writeBits?_eq_none {value : Nat} :
    writeBits? lo value width bytes = none ↔ 0 < width ∧ 8 * bytes.length < lo + width := by
  by_cases inside : lo + width ≤ 8 * bytes.length
  · obtain ⟨result, written, _⟩ := writeBits?_spec lo value width bytes inside
    simp [written, inside]
  · cases width with
    | zero => simp [writeBits?]
    | succ width =>
        have past : 8 * bytes.length < lo + (width + 1) := by omega
        cases written : writeBits? lo value width bytes with
        | none => simp [writeBits?, written, past]
        | some lower =>
            have length := length_writeBits? written
            have missing := setBit?_eq_none (value.testBit width)
              (show 8 * lower.length ≤ lo + width by omega)
            simp [writeBits?, written, missing, past]

end Bytes

namespace Field
variable {field other : Field} {bytes : Bytes}

theorem get?_eq (inside : field.hi ≤ 8 * bytes.length) :
    field.get? bytes = some (field.get bytes) := by
  obtain ⟨value, read, _⟩ := Bytes.readBits?_spec bytes field.lo field.width inside
  simp [get, get?, read]

theorem put?_eq (value : Nat) (inside : field.hi ≤ 8 * bytes.length) :
    field.put? value bytes = some (field.put value bytes) := by
  obtain ⟨result, written, _⟩ := Bytes.writeBits?_spec field.lo value field.width bytes inside
  simp [put, put?_eq_writeBits?, written]

theorem put?_eq_none (value : Nat) :
    field.put? value bytes = none ↔ 0 < field.width ∧ 8 * bytes.length < field.hi := by
  rw [put?_eq_writeBits?, Bytes.writeBits?_eq_none, hi]

/-- The string with a field written is known from the bits inside and outside of it. -/
theorem put_eq {value : Nat} {result : Bytes} (inside : field.hi ≤ 8 * bytes.length)
    (length : result.length = bytes.length)
    (written : ∀ index, field.Holds index → result.bit index = value.testBit (index - field.lo))
    (kept : ∀ index, ¬ field.Holds index → result.bit index = bytes.bit index) :
    field.put value bytes = result := by
  apply Bytes.ext_bit
  · rw [length_put value inside, length]
  · intro index _
    by_cases holds : field.Holds index
    · rw [bit_put_of_holds value inside holds, written index holds]
    · rw [bit_put_of_not_holds value inside holds, kept index holds]

theorem get_put (value : Nat) (inside : field.hi ≤ 8 * bytes.length) :
    field.get (field.put value bytes) = value % 2 ^ field.width := by
  apply get_eq
  · rwa [length_put value inside]
  · exact Nat.mod_lt _ (Nat.two_pow_pos _)
  · intro index holds
    have below : index - field.lo < field.width := by
      unfold Holds hi at holds
      omega
    rw [bit_put_of_holds value inside holds, Nat.testBit_mod_two_pow, decide_eq_true below,
      Bool.true_and]

theorem put_get (inside : field.hi ≤ 8 * bytes.length) :
    field.put (field.get bytes) bytes = bytes :=
  put_eq inside rfl (fun _ holds => (testBit_get inside holds).symm) fun _ _ => rfl

theorem put_put (first second : Nat) (inside : field.hi ≤ 8 * bytes.length) :
    field.put second (field.put first bytes) = field.put second bytes := by
  have length := length_put first inside
  apply put_eq
  · rwa [length]
  · rw [length_put second inside, length]
  · exact fun index holds => bit_put_of_holds second inside holds
  · intro index outside
    rw [bit_put_of_not_holds second inside outside, bit_put_of_not_holds first inside outside]

section Apart
variable (inside : field.hi ≤ 8 * bytes.length) (alsoInside : other.hi ≤ 8 * bytes.length)
  (apart : ∀ index, other.Holds index → ¬ field.Holds index)
include inside alsoInside apart

theorem get_put_apart (value : Nat) : other.get (field.put value bytes) = other.get bytes := by
  apply get_congr
  · rwa [length_put value inside]
  · exact alsoInside
  · exact fun index holds => bit_put_of_not_holds value inside (apart index holds)

theorem put_comm (value second : Nat) :
    other.put second (field.put value bytes) = field.put value (other.put second bytes) := by
  have length := length_put value inside
  have otherLength := length_put second alsoInside
  have inOther : field.hi ≤ 8 * (other.put second bytes).length := by rwa [otherLength]
  apply put_eq
  · rwa [length]
  · rw [length_put value inOther, otherLength, length]
  · intro index holds
    rw [bit_put_of_not_holds value inOther (apart index holds),
      bit_put_of_holds second alsoInside holds]
  · -- Outside the second field both strings have the bits of the first write.
    intro index outside
    by_cases holds : field.Holds index
    · rw [bit_put_of_holds value inOther holds, bit_put_of_holds value inside holds]
    · rw [bit_put_of_not_holds value inOther holds, bit_put_of_not_holds value inside holds,
        bit_put_of_not_holds second alsoInside outside]

end Apart

end Field

/-- A field of whatever width is a lens on every string that it lies in. It has no result
on a string that ends before one of its bits. -/
theorem fields_are_lenses :
    (∀ (bytes : Bytes) (field : Field) (value : Nat), field.hi ≤ 8 * bytes.length →
      ∃ written, field.put? value bytes = some written ∧ written.length = bytes.length ∧
        field.get? written = some (value % 2 ^ field.width) ∧
        (∀ index, ¬ field.Holds index → written.bit? index = bytes.bit? index) ∧
        (field.get? bytes).bind (fun held => field.put? held bytes) = some bytes ∧
        (∀ again, field.put? again written = field.put? again bytes) ∧
        ∀ other : Field, other.hi ≤ 8 * bytes.length →
          (∀ index, other.Holds index → ¬ field.Holds index) →
            other.get? written = other.get? bytes ∧
            ∀ second, other.put? second written =
              (other.put? second bytes).bind (field.put? value)) ∧
    ∀ (bytes : Bytes) (field : Field),
      (∀ value, field.put? value bytes = none ↔ 0 < field.width ∧ 8 * bytes.length < field.hi) ∧
        (field.get? bytes = none ↔ 0 < field.width ∧ 8 * bytes.length < field.hi) := by
  refine ⟨fun bytes field value inside => ?_, fun bytes field =>
    ⟨Field.put?_eq_none, Bytes.readBits?_eq_none⟩⟩
  have length := Field.length_put value inside
  have again : field.hi ≤ 8 * (field.put value bytes).length := by rwa [length]
  refine ⟨field.put value bytes, Field.put?_eq value inside, length, ?_, ?_, ?_, ?_, ?_⟩
  · rw [Field.get?_eq again, Field.get_put value inside]
  · intro index outside
    exact Bytes.bit?_congr length (Field.bit_put_of_not_holds value inside outside)
  · rw [Field.get?_eq inside, Option.bind_some, Field.put?_eq _ inside, Field.put_get inside]
  · intro second
    rw [Field.put?_eq second again, Field.put?_eq second inside, Field.put_put value second inside]
  · intro other alsoInside apart
    have otherAgain : other.hi ≤ 8 * (field.put value bytes).length := by rwa [length]
    constructor
    · rw [Field.get?_eq otherAgain, Field.get?_eq alsoInside,
        Field.get_put_apart inside alsoInside apart]
    · intro second
      have inOther : field.hi ≤ 8 * (other.put second bytes).length := by
        rwa [Field.length_put second alsoInside]
      rw [Field.put?_eq second otherAgain, Field.put?_eq second alsoInside, Option.bind_some,
        Field.put?_eq value inOther, Field.put_comm inside alsoInside apart]

/-- A field that straddles three bytes, and a number with more bits than it has. -/
theorem straddling_field_is_lens :
    let field : Field := ⟨5, 13⟩
    let bytes : Bytes := [0xff, 0x00, 0xff]
    field.hi ≤ 8 * bytes.length ∧
      ∃ written, field.put? 0x5abc bytes = some written ∧ field.get? written = some 0x1abc ∧
        Field.get? ⟨18, 6⟩ written = some 0x3f := by
  intro field bytes
  have inside : field.hi ≤ 8 * bytes.length := by decide
  obtain ⟨written, put, _, got, _, _, _, others⟩ :=
    fields_are_lenses.1 bytes field 0x5abc inside
  have apart : ∀ index, Field.Holds ⟨18, 6⟩ index → ¬ field.Holds index := by
    intro index holds also
    exact absurd also.2 (Nat.not_lt.mpr holds.1)
  have cut : 0x5abc % 2 ^ field.width = 0x1abc := by decide
  rw [cut] at got
  have kept := (others ⟨18, 6⟩ (by decide) apart).1
  exact ⟨inside, written, put, got, kept⟩

end JoinEngine
