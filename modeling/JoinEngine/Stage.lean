import JoinEngine.Alu
import JoinEngine.Filter.Block
import JoinEngine.Join

/-!
Stages and configurations. A stage describes a join with its filters, its
expressions and its shuffles; compiling it checks all of them and gives the
configuration of the engine. The options are what it is compiled with: the format
of constants, the shapes the arithmetic unit runs and the number of columns that
are scanned of a relation.
-/

namespace JoinEngine

structure Options where
  format : ConstFormat
  shapes : ShapeTable
  scanColumns : UInt8
  deriving DecidableEq

namespace Options

def default : Options := ⟨.default, .standard, 8⟩

def validate (options : Options) : Except OptionsFault Unit := do
  options.format.validate
  if options.scanColumns = 0 ∨ 8 < options.scanColumns then
    throw (.scanColumns options.scanColumns)

end Options

structure Stage where
  join : Join
  filters : Sides Filter
  /-- The expression of the first arithmetic stage. -/
  expr : Option ExprSpec
  /-- The expression of the second arithmetic stage. -/
  secondExpr : Option ExprSpec
  /-- The shuffles in record order. -/
  shuffles : Vector ShuffleTable 5
  deriving DecidableEq

structure Control where
  joinEnabled : Bool
  aggregate : Bool
  dualKey : Bool
  mode : JoinMode
  hashSize : UInt32
  deriving DecidableEq

structure Config where
  control : Control
  columnMaps : Sides ColumnMap
  writeMask : UInt8
  alu : AluWord
  secondAlu : AluWord
  filters : Sides FilterBlock
  shuffles : Vector ShuffleTable 5
  deriving DecidableEq

def Config.shuffle (config : Config) (point : ShufflePoint) : ShuffleTable :=
  config.shuffles[point.index]

inductive Warning where
  | rightIgnored
  deriving DecidableEq

def Warning.message : Warning → String
  | rightIgnored => "join bypassed, the right relation layout is ignored by the engine"

namespace Stage

def neutralShuffles : Vector ShuffleTable 5 :=
  #v[ .neutral .leftScan, .neutral .rightScan, .neutral .joined, .neutral .firstResult,
    .neutral .secondResult ]

def ofJoin (join : Join) : Stage where
  join := join
  filters := .both .pass
  expr := none
  secondExpr := none
  shuffles := neutralShuffles

def single (stage : Stage) : Stage := { stage with secondExpr := none }

def withShuffle (stage : Stage) (point : ShufflePoint) (table : ShuffleTable) : Stage :=
  { stage with shuffles := stage.shuffles.set point.index table }

def shuffle (stage : Stage) (point : ShufflePoint) : ShuffleTable :=
  stage.shuffles[point.index]

def shuffleFault? (stage : Stage) : Option ShuffleFault :=
  ShufflePoint.all.findSome? fun point =>
    ShuffleTable.fault? (some point) ((stage.shuffle point).slots.toList.map some)

def compileExpr (options : Options) : Option ExprSpec → Except CompileError AluWord
  | some spec => spec.compile options.format options.shapes
  | none => .ok .passThrough

def control (stage : Stage) : Control where
  joinEnabled := stage.join.enabled
  aggregate := stage.join.aggregate
  dualKey := stage.join.isDualKey
  mode := stage.join.mode
  hashSize := stage.join.hashSize

def columnMap (stage : Stage) (side : Side) : ColumnMap :=
  .ofParts (stage.join.keys.get side) (stage.join.payload.get side)

def compile (options : Options) (stage : Stage) : Except CompileError Config := do
  options.validate.mapError .options
  stage.join.validate options.scanColumns
  if let some fault := stage.shuffleFault? then throw (.shuffle fault)
  let left ← stage.filters.left.encode .left
  let right ← stage.filters.right.encode .right
  let alu ← compileExpr options stage.expr
  let secondAlu ← compileExpr options stage.secondExpr
  return {
    control := stage.control
    columnMaps := ⟨stage.columnMap .left, stage.columnMap .right⟩
    writeMask := stage.join.writeMask stage.expr.isSome
    alu := alu
    secondAlu := secondAlu
    filters := ⟨left, right⟩
    shuffles := stage.shuffles }

/-- A join that is bypassed has no use for payload or filter of the right
relation. -/
def warnings (stage : Stage) (config : Config) : List Warning :=
  if !stage.join.enabled &&
      (!stage.join.payload.right.isEmpty || !config.filters.right.isPass) then
    [.rightIgnored]
  else []

end Stage

end JoinEngine
