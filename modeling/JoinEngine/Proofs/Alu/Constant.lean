import JoinEngine.Proofs.Alu.Compile
import Mathlib.Algebra.Order.Ring.Int
import Mathlib.Tactic.Linarith

/-!
Constants in registers. In a valid format scaling never leaves its 128 bits, so a
value is refused exactly if it does not fit as an integer.
-/

namespace JoinEngine

namespace ConstFormat

structure Valid (format : ConstFormat) : Prop where
  least : 1 ≤ format.constBits.toNat
  most : format.constBits.toNat ≤ 64
  fraction : format.fractionBits.toNat < format.constBits.toNat

theorem validate_eq_ok {format : ConstFormat} : format.validate = .ok () ↔ format.Valid := by
  have none : format.constBits = 0 ↔ format.constBits.toNat = 0 := UInt32.toNat_inj.symm
  have many : 64 < format.constBits ↔ 64 < format.constBits.toNat := UInt32.lt_iff_toNat_lt
  have wide : format.constBits ≤ format.fractionBits ↔
      format.constBits.toNat ≤ format.fractionBits.toNat := UInt32.le_iff_toNat_le
  unfold validate
  constructor
  · intro accepted
    split at accepted
    · cases accepted
    split at accepted
    · cases accepted
    rename_i bits narrow
    rw [none, many] at bits
    rw [wide] at narrow
    exact ⟨by omega, by omega, by omega⟩
  · rintro ⟨least, most, fraction⟩
    rw [if_neg (by rw [none, many]; omega), if_neg (by rw [wide]; omega)]

def units (format : ConstFormat) (value : Int64) : Int :=
  value.toInt * 2 ^ format.fractionBits.toNat

def Fits (format : ConstFormat) (value : Int64) : Prop :=
  -2 ^ (format.constBits.toNat - 1) ≤ format.units value ∧
    format.units value < 2 ^ (format.constBits.toNat - 1)

instance (format : ConstFormat) (value : Int64) : Decidable (format.Fits value) :=
  inferInstanceAs (Decidable (_ ∧ _))

variable {format : ConstFormat}

theorem units_range (valid : format.Valid) (value : Int64) :
    -2 ^ 126 ≤ format.units value ∧ format.units value ≤ 2 ^ 126 := by
  have small : format.fractionBits.toNat ≤ 63 := by
    have below := valid.fraction
    have most := valid.most
    omega
  have power : (2 : Int) ^ format.fractionBits.toNat ≤ 2 ^ 63 :=
    pow_le_pow_right₀ (by norm_num) small
  have positive : (0 : Int) < 2 ^ format.fractionBits.toNat := by positivity
  have least := value.le_toInt
  have most := value.toInt_lt
  unfold units
  constructor
  · nlinarith
  · nlinarith

theorem scale_eq (valid : format.Valid) (value : Int64) :
    format.scale value = format.units value := by
  -- The cap on the shift and the wrap at 128 bits are out of reach for a valid format.
  have shift : ((1 <<< min format.fractionBits.toNat 128 : Nat) : Int) =
      2 ^ format.fractionBits.toNat := by
    have below := valid.fraction
    have most := valid.most
    rw [Nat.min_eq_left (by omega), Nat.one_shiftLeft]
    push_cast
    rfl
  obtain ⟨least, most⟩ := units_range valid value
  unfold scale
  rw [shift]
  apply Int.bmod_eq_of_le
  · exact le_trans (by decide) least
  · exact lt_of_le_of_lt most (by decide)

theorem bound_eq (valid : format.Valid) : format.bound = 2 ^ (format.constBits.toNat - 1) := by
  have := valid.most
  unfold bound
  rw [Nat.min_eq_left (by omega), Nat.one_shiftLeft]
  push_cast
  rfl

theorem encode_eq_ok (valid : format.Valid) {register : Nat} {value : Int64} {content : UInt64} :
    format.encode register value = .ok content ↔
      format.Fits value ∧ content = UInt64.ofInt (format.units value) := by
  unfold encode
  simp only [scale_eq valid, bound_eq valid]
  constructor
  · intro accepted
    split at accepted
    · rename_i fits
      cases accepted
      exact ⟨fits, rfl⟩
    · cases accepted
  · rintro ⟨fits, rfl⟩
    exact if_pos fits

theorem ofInt_toInt64 (content : UInt64) : UInt64.ofInt content.toInt64.toInt = content := by
  have signed : content.toInt64.toInt = if 2 * content.toNat < 2 ^ 64 then (content.toNat : Int)
      else content.toNat - (2 ^ 64 : Nat) := BitVec.toInt_eq_toNat_cond content.toBitVec
  have below := content.toNat_lt
  have kept : (content.toInt64.toInt % 2 ^ 64).toNat = content.toNat := by
    rw [signed]
    split <;> omega
  rw [UInt64.ofInt, kept, UInt64.ofNat_toNat]

/-- Every format has room for zero. -/
theorem fits_zero (format : ConstFormat) : format.Fits 0 := by
  have positive : (0 : Int) < 2 ^ (format.constBits.toNat - 1) := by positivity
  have zero : format.units 0 = 0 := by simp [units]
  rw [Fits, zero]
  exact ⟨by omega, positive⟩

end ConstFormat

namespace ExprSpec

/-- There are no registers but `c1` to `c4`. -/
theorem get?_range {registers : Registers} {register : Nat} {value : Int64}
    (bound : registers.get? register = some value) : register ∈ [1, 2, 3, 4] := by
  match register with
  | 0 => cases bound
  | 1 | 2 | 3 | 4 => simp
  | index + 5 => simp [Registers.get?] at bound

theorem constants_eq_ok {format : ConstFormat} {registers : Registers} {values : Vector UInt64 4} :
    constants format registers = .ok values ↔ ∀ index : Fin 4,
      format.encode (index + 1) ((registers.get? (index + 1)).getD 0) = .ok (values.get index) := by
  unfold constants
  simp only [Except.bind_eq_ok]
  constructor
  · rintro ⟨c1, first, c2, second, c3, third, c4, fourth, same⟩ index
    cases same
    obtain rfl | rfl | rfl | rfl : index = 0 ∨ index = 1 ∨ index = 2 ∨ index = 3 := by omega
    · exact first
    · exact second
    · exact third
    · exact fourth
  · intro written
    exact ⟨_, written 0, _, written 1, _, written 2, _, written 3,
      congrArg Except.ok values.four_listed⟩

/-- The registers can be written exactly if every bound value fits. -/
theorem constants_isOk {format : ConstFormat} (valid : format.Valid) (registers : Registers) :
    (∃ values, constants format registers = .ok values) ↔
      ∀ register value, registers.get? register = some value → format.Fits value := by
  simp only [constants_eq_ok, ConstFormat.encode_eq_ok valid]
  constructor
  · rintro ⟨values, written⟩ register value bound
    obtain ⟨index, rfl⟩ : ∃ index : Fin 4, register = index + 1 := by
      have range := get?_range bound
      simp only [List.mem_cons, List.not_mem_nil, or_false] at range
      exact ⟨⟨register - 1, by omega⟩, by simp only; omega⟩
    have fits := (written index).1
    rwa [bound] at fits
  · intro fits
    refine ⟨Vector.ofFn fun index => UInt64.ofInt (format.units
      ((registers.get? (index + 1)).getD 0)), fun index => ⟨?_, Vector.getElem_ofFn index.isLt⟩⟩
    -- A register without a value is written as zero, which always fits.
    cases bound : registers.get? (index + 1) with
    | none => exact format.fits_zero
    | some value => exact fits _ value bound

theorem unbound?_eq_none {registers : Registers} {symbols : List Symbol} :
    unbound? registers symbols = none ↔
      ∀ number, .constant number ∈ symbols → (registers.get? number.toNat).isSome := by
  unfold unbound?
  rw [List.findSome?_eq_none_iff]
  constructor
  · intro checked number member
    have passed := checked _ member
    by_cases bound : (registers.get? number.toNat).isSome
    · exact bound
    · simp [bound] at passed
  · intro bound symbol member
    cases symbol with
    | stream number => rfl
    | constant number => simp [bound number member]

end ExprSpec

/-!
Constants as fixed-point numbers. The content of a register, read with its sign, is the
value in units of the last fraction bit, exactly and without a step that leaves the 128
bits it is computed in. A compiled word holds such contents in all four registers, so a
value that does not fit stops compilation even if nothing refers to its register.
-/

def wide? (number : Int) : Option Int :=
  if -2 ^ 127 ≤ number ∧ number < 2 ^ 127 then some number else none

/-- A shift to the left in 128 bits, by fewer places than there are bits and without a bit
that leaves them. -/
def shift? (number : Int) (places : Nat) : Option Int :=
  if places < 128 then wide? (number * 2 ^ places) else none

theorem shift?_eq_some {number : Int} {places : Nat} (few : places < 128)
    (least : -2 ^ 127 ≤ number * 2 ^ places) (most : number * 2 ^ places < 2 ^ 127) :
    shift? number places = some (number * 2 ^ places) := by
  rw [shift?, if_pos few, wide?, if_pos ⟨least, most⟩]

theorem toInt_shiftRight (number : Int64) {places : Nat} (few : places < 64) :
    (number >>> Int64.ofNat places).toInt = number.toInt >>> places := by
  -- The places are taken modulo 64 with the sign of 64, which changes none of them.
  have taken : ∀ places : Fin 64, ((BitVec.ofNat 64 places).smod 64).toNat = places := by decide
  have count : ((Int64.ofNat places).toBitVec.smod 64).toNat = places := taken ⟨places, few⟩
  rw [← Int64.toInt_toBitVec, Int64.toBitVec_shiftRight, BitVec.sshiftRight_eq',
    BitVec.toInt_sshiftRight, Int64.toInt_toBitVec, count]

namespace ConstFormat

/-- Encoding step by step in 128 bits, without a result if one of the steps leaves them. -/
def encodeWide? (format : ConstFormat) (register : Nat) (value : Int64) :
    Option (Except CompileError UInt64) := do
  let scaled ← shift? value.toInt format.fractionBits.toNat
  let places ← if format.constBits = 0 then none else some (format.constBits - 1)
  let top ← shift? 1 places.toNat
  let greatest ← wide? (top - 1)
  let least ← wide? (-top)
  return if scaled < least ∨ greatest < scaled then
      .error (.constantOverflow register value format.constBits)
    else .ok (Int64.ofInt scaled).toUInt64

variable {format : ConstFormat} {register : Nat} {value : Int64} {content : UInt64}

theorem Valid.fraction_lt (valid : format.Valid) : format.fractionBits.toNat < 64 := by
  have below := valid.fraction
  have most := valid.most
  omega

theorem bound_range (valid : format.Valid) : 0 < format.bound ∧ format.bound ≤ 2 ^ 63 := by
  have most := valid.most
  rw [bound_eq valid]
  exact ⟨by positivity, pow_le_pow_right₀ (by norm_num) (by omega)⟩

theorem fits_iff_bound (valid : format.Valid) :
    format.Fits value ↔ -format.bound ≤ format.units value ∧ format.units value < format.bound := by
  rw [bound_eq valid, Fits]

/-- A number of at most 64 bits is read from the content that holds it. -/
theorem eq_ofInt_iff {number : Int} (least : -2 ^ 63 ≤ number) (most : number < 2 ^ 63) :
    content = UInt64.ofInt number ↔ content.toInt64.toInt = number := by
  have read : (Int64.ofInt number).toInt = number := Int64.toInt_ofInt_of_le least most
  have written : UInt64.ofInt number = (Int64.ofInt number).toUInt64 := by
    have same := ofInt_toInt64 (Int64.ofInt number).toUInt64
    rwa [Int64.toInt64_toUInt64, read] at same
  constructor
  · rintro rfl
    rw [written, Int64.toInt64_toUInt64, read]
  · rintro rfl
    exact (ofInt_toInt64 content).symm

theorem Fits.units_range (fits : format.Fits value) (valid : format.Valid) :
    -2 ^ 63 ≤ format.units value ∧ format.units value < 2 ^ 63 := by
  have small := (bound_range valid).2
  have inside := (fits_iff_bound valid).mp fits
  omega

theorem encode_iff_reads (valid : format.Valid) :
    format.encode register value = .ok content ↔
      format.Fits value ∧ content.toInt64.toInt = format.units value := by
  rw [encode_eq_ok valid]
  refine and_congr_right fun fits => ?_
  obtain ⟨least, most⟩ := fits.units_range valid
  exact eq_ofInt_iff least most

theorem encode_zero (valid : format.Valid) : format.encode register 0 = .ok 0 := by
  have zero : format.units 0 = 0 := by simp [units]
  exact (encode_iff_reads valid).mpr ⟨format.fits_zero, zero.symm⟩

theorem encode_overflow (valid : format.Valid) (large : ¬ format.Fits value) :
    format.encode register value = .error (.constantOverflow register value format.constBits) := by
  rw [fits_iff_bound valid, ← scale_eq valid] at large
  exact if_neg large

theorem encode_shifts_back (valid : format.Valid)
    (encoded : format.encode register value = .ok content) :
    content.toInt64 >>> Int64.ofNat format.fractionBits.toNat = value := by
  have positive : (0 : Int) < 2 ^ format.fractionBits.toNat := by positivity
  have read := ((encode_iff_reads valid).mp encoded).2
  rw [← Int64.toInt_inj, toInt_shiftRight _ valid.fraction_lt, read, units,
    Int.shiftRight_eq_div_pow]
  push_cast
  exact Int.mul_ediv_cancel _ (by omega)

theorem shift?_value (valid : format.Valid) (value : Int64) :
    shift? value.toInt format.fractionBits.toNat = some (format.units value) := by
  have few := valid.fraction_lt
  -- A value of 64 bits moves by 63 places at most, so 127 bits are enough.
  obtain ⟨least, most⟩ := units_range valid value
  exact shift?_eq_some (by omega) (le_trans (by norm_num) least) (lt_of_le_of_lt most (by norm_num))

theorem shift?_one (valid : format.Valid) :
    shift? 1 (format.constBits - 1).toNat = some format.bound := by
  have places : (format.constBits - 1).toNat = format.constBits.toNat - 1 :=
    UInt32.toNat_sub_of_le _ _ (UInt32.le_iff_toNat_le.mpr valid.least)
  have most := valid.most
  obtain ⟨positive, small⟩ := bound_range valid
  rw [bound_eq valid] at positive small ⊢
  rw [places, shift?_eq_some (by omega) (by omega) (by omega), one_mul]

/-- No step of encoding leaves the 128 bits. -/
theorem encodeWide?_eq (valid : format.Valid) (register : Nat) (value : Int64) :
    format.encodeWide? register value = some (format.encode register value) := by
  obtain ⟨positive, small⟩ := bound_range valid
  have nonzero : format.constBits ≠ 0 := by
    intro zero
    have least := valid.least
    rw [zero] at least
    exact absurd least (by decide)
  have greatest : wide? (format.bound - 1) = some (format.bound - 1) := if_pos (by omega)
  have smallest : wide? (-format.bound) = some (-format.bound) := if_pos (by omega)
  simp only [encodeWide?, shift?_value valid, nonzero, shift?_one valid, greatest, smallest,
    if_false, Option.bind_eq_bind, Option.bind_some, Option.pure_def, Option.some.injEq]
  by_cases fits : format.Fits value
  · obtain ⟨least, most⟩ := fits.units_range valid
    rw [if_neg (by have inside := (fits_iff_bound valid).mp fits; omega)]
    refine ((encode_iff_reads valid).mpr ⟨fits, ?_⟩).symm
    rw [Int64.toInt64_toUInt64, Int64.toInt_ofInt_of_le least most]
  · rw [encode_overflow valid fits]
    rw [fits_iff_bound valid] at fits
    exact if_pos (by omega)

end ConstFormat

namespace ExprSpec
variable {format : ConstFormat} {table : ShapeTable} {spec : ExprSpec} {word : AluWord}

theorem compile_constants (compiled : spec.compile format table = .ok word) :
    format.Valid ∧ constants format spec.registers = .ok word.constants := by
  obtain ⟨_, _, _, values, valid, _, _, _, _, _, encoded, rfl⟩ := compile_eq_ok.mp compiled
  exact ⟨ConstFormat.validate_eq_ok.mp valid, encoded⟩

theorem compile_holds {index : Fin 4} {value : Int64}
    (compiled : spec.compile format table = .ok word)
    (bound : spec.registers.get? (index + 1) = some value) :
    format.encode (index + 1) value = .ok (word.constants.get index) := by
  have written := constants_eq_ok.mp (compile_constants compiled).2 index
  rwa [bound] at written

theorem compile_clears {index : Fin 4} (compiled : spec.compile format table = .ok word)
    (unbound : spec.registers.get? (index + 1) = none) : word.constants.get index = 0 := by
  obtain ⟨valid, written⟩ := compile_constants compiled
  have zero := constants_eq_ok.mp written index
  rw [unbound, Option.getD_none, ConstFormat.encode_zero valid] at zero
  exact (Except.ok.inj zero).symm

end ExprSpec

/-- In a valid format a value is accepted exactly if it has the bits of the format as an
integer in units of the last fraction bit; the content of its register is that integer and
gives the value back by a shift. The words that are compiled hold these contents. -/
theorem constants_exact_fixed_point (format : ConstFormat) :
    (format.validate = .ok () → ∀ (register : Nat) (value : Int64),
      (∀ content, format.encode register value = .ok content ↔
        format.Fits value ∧ content.toInt64.toInt = format.units value) ∧
      (∀ content, format.encode register value = .ok content →
        content.toInt64 >>> Int64.ofNat format.fractionBits.toNat = value) ∧
      (¬ format.Fits value → format.encode register value =
        .error (.constantOverflow register value format.constBits)) ∧
      format.encodeWide? register value = some (format.encode register value)) ∧
    ∀ (table : ShapeTable) (spec : ExprSpec),
      (∀ word, spec.compile format table = .ok word → format.validate = .ok () ∧
        ∀ index : Fin 4,
          (∀ value, spec.registers.get? (index + 1) = some value →
            format.encode (index + 1) value = .ok (word.constants.get index)) ∧
          (spec.registers.get? (index + 1) = none → word.constants.get index = 0)) ∧
      ∀ register value, spec.registers.get? register = some value → ¬ format.Fits value →
        ∀ word, spec.compile format table ≠ .ok word := by
  refine ⟨fun accepted register value => ?_, fun table spec => ⟨fun word compiled => ?_, ?_⟩⟩
  · have valid := ConstFormat.validate_eq_ok.mp accepted
    exact ⟨fun _ => ConstFormat.encode_iff_reads valid,
      fun _ => ConstFormat.encode_shifts_back valid,
      ConstFormat.encode_overflow valid, ConstFormat.encodeWide?_eq valid register value⟩
  · have valid := (ExprSpec.compile_constants compiled).1
    exact ⟨ConstFormat.validate_eq_ok.mpr valid, fun index =>
      ⟨fun _ => ExprSpec.compile_holds compiled, ExprSpec.compile_clears compiled⟩⟩
  · intro register value bound large word compiled
    obtain ⟨valid, written⟩ := ExprSpec.compile_constants compiled
    exact large
      ((ExprSpec.constants_isOk valid spec.registers).mp ⟨_, written⟩ register value bound)

/-- With one bit in front of the point a register takes -1 but not 1. -/
example :
    ConstFormat.encode ⟨64, 63⟩ 2 (-1) = .ok 0x8000000000000000 ∧
      ConstFormat.encode ⟨64, 63⟩ 2 1 = .error (.constantOverflow 2 1 64) := by
  decide

end JoinEngine
