import JoinEngine.Filter.Basic
import JoinEngine.Shape
import JoinEngine.Shuffle

/-!
Everything that can be wrong with a stage, its options or its record, as causes.
The wording of a cause is in its `message`. A cause may name a relation or a join
mode, so these come first.
-/

namespace JoinEngine

inductive Side where
  | left
  | right
  deriving DecidableEq

def Side.label : Side → String
  | left => "left"
  | right => "right"

structure Sides (α : Type) where
  left : α
  right : α
  deriving DecidableEq

namespace Sides

def both {α : Type} (value : α) : Sides α := ⟨value, value⟩

def get {α : Type} (sides : Sides α) : Side → α
  | .left => sides.left
  | .right => sides.right

def set {α : Type} (sides : Sides α) (side : Side) (value : α) : Sides α :=
  match side with
  | .left => { sides with left := value }
  | .right => { sides with right := value }

end Sides

inductive JoinMode where
  | inner
  | semi
  | anti
  deriving DecidableEq

namespace JoinMode

def code : JoinMode → UInt8
  | inner => 0
  | semi => 1
  | anti => 2

def ofCode? (code : UInt8) : Option JoinMode := [inner, semi, anti][code.toNat]?

def label : JoinMode → String
  | inner => "inner"
  | semi => "semi"
  | anti => "anti"

def dropsRight : JoinMode → Bool
  | inner => false
  | semi | anti => true

end JoinMode

inductive BoundKind where
  | low
  | high
  deriving DecidableEq

def BoundKind.label : BoundKind → String
  | low => "bound_low"
  | high => "bound_high"

inductive CodeSite where
  | comparison
  | connective
  | combinePair (index : Nat)
  | condition (slot : Nat)
  | joinMode
  deriving DecidableEq

def CodeSite.label : CodeSite → String
  | comparison => "filter operator"
  | connective => "combine operator"
  | combinePair index => s!"combine pair {index}"
  | condition slot => s!"filter condition {slot}"
  | joinMode => "join mode"

inductive Unsupported where
  | refused (refusal : Poly.Refusal)
  | vanishing
  | noShape (poly : Poly)
  | unbound (register : UInt8)
  deriving DecidableEq

def Unsupported.message : Unsupported → String
  | refused refusal => refusal.message
  | vanishing => "expression is identically zero"
  | noShape poly => s!"canonical form {poly.text} matches no ALU shape"
  | unbound register => s!"constant c{register.toNat} is not bound"

inductive OptionsFault where
  | malformed
  | table (fault : TableFault)
  | constBits (found : UInt32)
  | fractionBits (fraction bits : UInt32)
  | scanColumns (found : UInt8)
  deriving DecidableEq

def OptionsFault.message : OptionsFault → String
  | malformed => "malformed description"
  | table fault => s!"invalid ALU shape table: {fault.message}"
  | constBits found => s!"const_bits must be in 1..=64, got {found.toNat}"
  | fractionBits fraction bits =>
      s!"fraction_bits ({fraction.toNat}) must be smaller than const_bits ({bits.toNat})"
  | scanColumns found => s!"scan_columns must be in 1..=8, got {found.toNat}"

inductive RecordFault where
  | length (found : Nat)
  | controlBits
  | columnByte (found : UInt8)
  | writeMask (found : UInt8)
  | aluLength (found : Nat)
  | aluBits
  | aluRouting (ports : Vector UInt8 3) (constant : UInt8)
  | aluDisabled
  | aluOpcode
  | filterPadding (side : Side)
  | operatorWord (slot : Nat) (found : UInt32)
  | combineWord (found : UInt32)
  | filterTail
  deriving DecidableEq

namespace RecordFault

def hexText (value : Nat) : String :=
  String.ofList ('0' :: 'x' :: Nat.toDigits 16 value)

/-- The eight bits of a byte, highest first. -/
def bitsText (byte : UInt8) : String :=
  let digits := Nat.toDigits 2 byte.toNat
  String.ofList ('0' :: 'b' :: (List.replicate (8 - digits.length) '0' ++ digits))

def listText (values : List Nat) : String :=
  "[" ++ String.intercalate ", " (values.map fun value => s!"{value}") ++ "]"

def message : RecordFault → String
  | length found => s!"record is {found} bytes, expected 576"
  | controlBits => "control word has reserved bits set"
  | columnByte found =>
      s!"column map byte {found.toInt8.toInt} is neither a column nor a sentinel"
  | writeMask found => s!"write mask {bitsText found} selects slots past 5"
  | aluLength found => s!"ALU word is {found} bytes, expected 64"
  | aluBits => "ALU word has reserved bits set"
  | aluRouting ports constant =>
      let numbers := listText (ports.toList.map UInt8.toNat)
      s!"ALU operand routing out of range (ports {numbers}, constant {constant.toNat})"
  | aluDisabled => "disabled ALU word carries operand bits"
  | aluOpcode => "enabled ALU word has opcode 0"
  | filterPadding side => s!"{side.label} filter segment padding is not zero"
  | operatorWord slot found =>
      s!"condition {slot} operator word {hexText found.toNat} has reserved bits set"
  | combineWord found => s!"combine word {hexText found.toNat} has reserved bits set"
  | filterTail => "filter block tail is not the zero run with a valid marker"

end RecordFault

inductive CompileError where
  | bound (side : Side) (slot : Nat) (kind : BoundKind) (value : Int64) (op : Comparison)
  | unknownCode (code : UInt8) (site : CodeSite)
  | unsupported (source : String) (reason : Unsupported)
  | unreadable (source : String) (error : ParseError)
  | keyCondition (source : String) (position : Nat)
  | constantOverflow (register : Nat) (value : Int64) (bits : UInt32)
  | shuffle (fault : ShuffleFault)
  | rightPayload (mode : JoinMode) (count : Nat)
  | payloadOverflow (side : Side) (count limit : Nat)
  | keyCount (left right : Nat)
  | columnRange (side : Side) (column limit : UInt8)
  | unknownColumn (side : Side) (name : String)
  | outputSlot (slot : UInt8)
  | options (fault : OptionsFault)
  | shapeTable (fault : TableFault)
  | record (fault : RecordFault)
  deriving DecidableEq

namespace CompileError

def syntaxText (source : String) (position : Nat) (problem : String) : String :=
  s!"syntax error in expression '{source}' at offset {position}: {problem}"

def pointLabel (point : Option ShufflePoint) : String :=
  (point.map ShufflePoint.label).getD "table"

def message : CompileError → String
  | bound side slot kind value op =>
      s!"{side.label} filter condition {slot}: {kind.label} {value.toInt} does not fit " ++
        s!"operator {op.mnemonic}"
  | unknownCode code site => s!"unknown operator code {code.toNat} in {site.label}"
  | unsupported source reason => s!"unsupported expression '{source}': {reason.message}"
  | unreadable source error => syntaxText source error.position error.fault.message
  | keyCondition source position => syntaxText source position "expected 'left = right'"
  | constantOverflow register value bits =>
      s!"constant c{register} = {value.toInt} overflows a {bits.toNat}-bit register"
  | shuffle fault =>
      s!"shuffle {pointLabel fault.point} slot {fault.slot}: source {fault.source.toNat} " ++
        s!"is out of range (limit {fault.limit.toNat})"
  | rightPayload mode count =>
      s!"{mode.label} join cannot carry right payload columns (got {count})"
  | payloadOverflow side count limit =>
      s!"{side.label} relation has {count} payload columns, at most {limit} fit"
  | keyCount left right =>
      s!"join key must have 1 or 2 columns on both sides (left {left}, right {right})"
  | columnRange side column limit =>
      s!"{side.label} column {column.toNat} is outside the {limit.toNat}-column scan width"
  | unknownColumn side name => s!"{side.label} relation has no column named '{name}'"
  | outputSlot slot => s!"output slot {slot.toNat} does not exist (the engine writes slots 0..5)"
  | options fault => s!"invalid compile options: {fault.message}"
  | shapeTable fault => s!"invalid ALU shape table: {fault.message}"
  | record fault => s!"invalid configuration record: {fault.message}"

end CompileError

end JoinEngine
