/-!
Row filters. A filter has four conditions, each with a comparison against a low
and one against a high bound, and a connective for each of the six pairs of
conditions. Comparisons and connectives have four-bit codes.
-/

namespace JoinEngine

inductive Comparison where
  | dontCare
  | eq
  | ne
  | gt
  | lt
  | ge
  | le
  | gtu
  | ltu
  | geu
  | leu
  deriving DecidableEq

namespace Comparison

/-- Every comparison, at the index that is its code. -/
def all : List Comparison := [dontCare, eq, ne, gt, lt, ge, le, gtu, ltu, geu, leu]

def code : Comparison → UInt8
  | dontCare => 0
  | eq => 1
  | ne => 2
  | gt => 3
  | lt => 4
  | ge => 5
  | le => 6
  | gtu => 7
  | ltu => 8
  | geu => 9
  | leu => 10

def ofCode? (code : UInt8) : Option Comparison := all[code.toNat]?

def mnemonic : Comparison → String
  | dontCare => "DC"
  | eq => "EQ"
  | ne => "NE"
  | gt => "GT"
  | lt => "LT"
  | ge => "GE"
  | le => "LE"
  | gtu => "GTU"
  | ltu => "LTU"
  | geu => "GEU"
  | leu => "LEU"

/-- The least and the greatest bound to compare with: 32 bits with sign, 32 bits
without, or either for the two equalities. There is none if the bound is ignored. -/
def range? : Comparison → Option (Int × Int)
  | dontCare => none
  | gt | lt | ge | le => some (-0x80000000, 0x7fffffff)
  | gtu | ltu | geu | leu => some (0, 0xffffffff)
  | eq | ne => some (-0x80000000, 0xffffffff)

end Comparison

inductive Connective where
  | dontCare
  | and
  | or
  | xor
  | nand
  | nor
  | xnor
  deriving DecidableEq

namespace Connective

def all : List Connective := [dontCare, and, or, xor, nand, nor, xnor]

def code : Connective → UInt8
  | dontCare => 0
  | and => 1
  | or => 2
  | xor => 3
  | nand => 4
  | nor => 5
  | xnor => 6

def ofCode? (code : UInt8) : Option Connective := all[code.toNat]?

def mnemonic : Connective → String
  | dontCare => "DC"
  | and => "AND"
  | or => "OR"
  | xor => "XOR"
  | nand => "NAND"
  | nor => "NOR"
  | xnor => "XNOR"

end Connective

/-- A column satisfies both `lowOp` against `low` and `highOp` against `high`. -/
structure Condition where
  lowOp : Comparison
  highOp : Comparison
  low : Int64
  high : Int64
  deriving DecidableEq

namespace Condition

def pass : Condition := ⟨.dontCare, .dontCare, 0, 0⟩

def isPass (condition : Condition) : Bool :=
  condition.lowOp = .dontCare && condition.highOp = .dontCare

end Condition

structure Combine where
  pairs : Vector Connective 6
  deriving DecidableEq

namespace Combine

def order : List (Nat × Nat) := [(0, 1), (0, 2), (0, 3), (1, 2), (1, 3), (2, 3)]

def all (connective : Connective) : Combine := ⟨Vector.replicate 6 connective⟩

/-- Relates two slots in either order. Anything but two different slots of a
filter changes nothing. -/
def relate (combine : Combine) (a b : Nat) (connective : Connective) : Combine :=
  match order.idxOf? (min a b, max a b) with
  | some index => ⟨combine.pairs.setIfInBounds index connective⟩
  | none => combine

end Combine

structure Filter where
  conditions : Vector Condition 4
  combine : Combine
  deriving DecidableEq

namespace Filter

def pass : Filter := ⟨Vector.replicate 4 .pass, .all .dontCare⟩

def withCondition (filter : Filter) (slot : Nat) (condition : Condition) : Filter :=
  { filter with conditions := filter.conditions.setIfInBounds slot condition }

def active (filter : Filter) : Nat :=
  (filter.conditions.toList.filter (!·.isPass)).length

end Filter

end JoinEngine
