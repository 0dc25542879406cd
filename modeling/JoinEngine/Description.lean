import JoinEngine.Json.Codec
import JoinEngine.Stage

/-!
Descriptions as JSON: filters, joins by column number and by column name, stages,
shape tables and options. A table is the list of its shapes and is checked when it
is read.
-/

namespace JoinEngine

open Json (Codec Slot)

variable {Reason : Type}

namespace Comparison

def name : Comparison → String
  | dontCare => "dont_care"
  | eq => "eq"
  | ne => "ne"
  | gt => "gt"
  | lt => "lt"
  | ge => "ge"
  | le => "le"
  | gtu => "gtu"
  | ltu => "ltu"
  | geu => "geu"
  | leu => "leu"

def codec : Codec Reason Comparison := .named all name

end Comparison

namespace Connective

def name : Connective → String
  | dontCare => "dont_care"
  | and => "and"
  | or => "or"
  | xor => "xor"
  | nand => "nand"
  | nor => "nor"
  | xnor => "xnor"

def codec : Codec Reason Connective := .named all name

end Connective

def Condition.slots : List (Slot Reason Condition) :=
  [ .optional "op_low" Comparison.codec (·.lowOp) fun condition op =>
      { condition with lowOp := op },
    .optional "op_high" Comparison.codec (·.highOp) fun condition op =>
      { condition with highOp := op },
    .optional "bound_low" .int64 (·.low) fun condition bound => { condition with low := bound },
    .optional "bound_high" .int64 (·.high) fun condition bound => { condition with high := bound } ]

def Condition.codec : Codec Reason Condition := .record slots .pass

def Combine.slots : List (Slot Reason Combine) :=
  [.mandatory "pairs" (.vector 6 Connective.codec) (·.pairs) fun _ pairs => ⟨pairs⟩]

def Combine.codec : Codec Reason Combine := .record slots (.all .dontCare)

def Filter.slots : List (Slot Reason Filter) :=
  [ .optional "conditions" (.vector 4 Condition.codec) (·.conditions) fun filter conditions =>
      { filter with conditions := conditions },
    .optional "combine" Combine.codec (·.combine) fun filter combine =>
      { filter with combine := combine } ]

def Filter.codec : Codec Reason Filter := .record slots .pass

def Side.codec : Codec Reason Side := .named [.left, .right] label

def JoinMode.codec : Codec Reason JoinMode := .named [.inner, .semi, .anti] label

namespace ColumnRef

def emptyName : ColumnRef → String
  | duplicateKey => "duplicate_key"
  | _ => "unused"

def codec : Codec Reason ColumnRef where
  decode
    | .object [(some "used", column)] => (Codec.byte.decode column).map used
    | value => (Codec.named [unused, duplicateKey] emptyName).decode value
  encode
    | used column => Json.fields [("used", (Codec.byte : Codec Reason UInt8).encode column)]
    | reference => Json.text reference.emptyName

end ColumnRef

def SlotSet.codec : Codec Reason SlotSet := (Codec.items .byte).alter .ofList slots

namespace Join

def slots : List (Slot Reason Join) :=
  [ .mandatory "key_columns_left" (.items .byte) (·.keys.left) fun join keys =>
      { join with keys := join.keys.set .left keys },
    .mandatory "key_columns_right" (.items .byte) (·.keys.right) fun join keys =>
      { join with keys := join.keys.set .right keys },
    .optional "payload_columns_left" (.items ColumnRef.codec) (·.payload.left) fun join payload =>
      { join with payload := join.payload.set .left payload },
    .optional "payload_columns_right" (.items ColumnRef.codec) (·.payload.right) fun join payload =>
      { join with payload := join.payload.set .right payload },
    .optional "mode" JoinMode.codec (·.mode) fun join mode => { join with mode := mode },
    .optional "aggregate" .bool (·.aggregate) fun join flag => { join with aggregate := flag },
    .optional "hash_table_size_hint" .word (·.hashSize) fun join size =>
      { join with hashSize := size },
    .optional "enabled" .bool (·.enabled) fun join flag => { join with enabled := flag },
    .optional "suppressed_outputs" SlotSet.codec (·.suppressed) fun join outputs =>
      { join with suppressed := outputs } ]

def codec : Codec Reason Join := .record slots (onKeys [] [])

end Join

namespace NamedJoin

def columnSlots : List (Slot Reason NamedJoin) :=
  [ .mandatory "left_columns" (.items .text) (·.columns.left) fun join names =>
      { join with columns := join.columns.set .left names },
    .mandatory "right_columns" (.items .text) (·.columns.right) fun join names =>
      { join with columns := join.columns.set .right names } ]

def joinSlots : List (Slot Reason NamedJoin) :=
  [ .optional "keys" (.items (.pair .text .text)) (·.keys) fun join keys =>
      { join with keys := keys },
    .optional "left_payload" (.items .text) (·.payload.left) fun join names =>
      { join with payload := join.payload.set .left names },
    .optional "right_payload" (.items .text) (·.payload.right) fun join names =>
      { join with payload := join.payload.set .right names },
    .optional "mode" JoinMode.codec (·.mode) fun join mode => { join with mode := mode },
    .optional "aggregate" .bool (·.aggregate) fun join flag => { join with aggregate := flag } ]

def codec : Codec Reason NamedJoin := .record (columnSlots ++ joinSlots) (ofColumns [] [])

end NamedJoin

namespace Registers

def slots : List (Slot Reason Registers) :=
  [ .possible "c1" .int64 (·.get? 1) fun registers value => registers.put 1 value,
    .possible "c2" .int64 (·.get? 2) fun registers value => registers.put 2 value,
    .possible "c3" .int64 (·.get? 3) fun registers value => registers.put 3 value,
    .possible "c4" .int64 (·.get? 4) fun registers value => registers.put 4 value ]

def codec : Codec Reason Registers := .record slots .empty

end Registers

namespace ExprSpec

def slots : List (Slot Reason ExprSpec) :=
  [ .mandatory "expr" .text (·.source) fun spec source => { spec with source := source },
    .optional "consts" Registers.codec (·.registers) fun spec registers =>
      { spec with registers := registers } ]

def codec : Codec Reason ExprSpec := .record slots ⟨"", .empty⟩

end ExprSpec

def ShufflePoint.codec : Codec Reason ShufflePoint := .named all label

def ShuffleTable.codec : Codec Reason ShuffleTable := (Codec.vector 8 .byte).alter .mk slots

namespace Stage

def slots : List (Slot Reason Stage) :=
  [ .mandatory "join" Join.codec (·.join) fun stage join => { stage with join := join },
    .optional "filter_left" Filter.codec (·.filters.left) fun stage filter =>
      { stage with filters := stage.filters.set .left filter },
    .optional "filter_right" Filter.codec (·.filters.right) fun stage filter =>
      { stage with filters := stage.filters.set .right filter },
    .optional "expr" ExprSpec.codec.option (·.expr) fun stage spec => { stage with expr := spec },
    .optional "secondary_expr" ExprSpec.codec.option (·.secondExpr) fun stage spec =>
      { stage with secondExpr := spec },
    .optional "shuffles" (.vector 5 ShuffleTable.codec) (·.shuffles) fun stage shuffles =>
      { stage with shuffles := shuffles } ]

def codec : Codec Reason Stage := .record slots (ofJoin (.onKeys [] []))

def ofJson (source : String) : Except OptionsFault Stage :=
  match (codec : Codec Empty Stage).read source with
  | .ok stage => .ok stage
  | .error _ => .error .malformed

end Stage

namespace Shape

def slots : List (Slot Reason Shape) :=
  [ .mandatory "name" .text (·.name) fun shape name => { shape with name := name },
    .mandatory "opcode" .byte (·.opcode) fun shape opcode => { shape with opcode := opcode },
    .mandatory "pattern" .text (·.pattern) fun shape pattern => { shape with pattern := pattern } ]

def codec : Codec Reason Shape := .record slots ⟨"", 0, ""⟩

end Shape

namespace ShapeTable

def codec : Codec TableFault ShapeTable := (Codec.items Shape.codec).refine build shapes

def ofJson (source : String) : Except TableFault ShapeTable :=
  match (Codec.items Shape.codec : Codec Empty (List Shape)).read source with
  | .ok shapes => build shapes
  | .error _ => .error .malformed

def toJson (table : ShapeTable) : String := (codec.encode table).indented

end ShapeTable

namespace ConstFormat

def slots : List (Slot Reason ConstFormat) :=
  [ .optional "const_bits" .word (·.constBits) fun format bits => { format with constBits := bits },
    .optional "fraction_bits" .word (·.fractionBits) fun format bits =>
      { format with fractionBits := bits } ]

def codec : Codec Reason ConstFormat := .record slots .default

end ConstFormat

namespace Options

def slots : List (Slot TableFault Options) :=
  [ .optional "alu" ConstFormat.codec (·.format) fun options format =>
      { options with format := format },
    .optional "shapes" ShapeTable.codec (·.shapes) fun options shapes =>
      { options with shapes := shapes },
    .optional "scan_columns" .byte (·.scanColumns) fun options columns =>
      { options with scanColumns := columns } ]

def codec : Codec TableFault Options := .record slots .default

def ofJson (source : String) : Except OptionsFault Options :=
  match codec.read source with
  | .error .malformed => .error .malformed
  | .error (.refused fault) => .error (.table fault)
  | .ok options => options.validate.map fun _ => options

end Options

end JoinEngine
