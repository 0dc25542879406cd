import JoinEngine.Stage

/-!
Configuration records, nine engine words of 64 bytes:

    word 0     control
      [0]        join enable
      [1]        aggregate
      [2]        key of two columns
      [5:3]      join mode
      [39:8]     hash table size
      [119:56]   column map of the left relation, a byte for each slot
      [183:120]  column map of the right relation
      [191:184]  output slots that are written
      [511:192]  the five shuffles, a byte for each slot
    word 1     first arithmetic stage
    word 2     second arithmetic stage
    word 3..5  filter block of the left relation, 45 words of 32 bits
    word 6..8  filter block of the right relation

All other bits are zero. Every configuration has a record, and only what is the
record of a configuration can be read.
-/

namespace JoinEngine

def Bytes.recordLength : Nat := 576

namespace Control

def joinField : Field := ⟨0, 1⟩
def aggregateField : Field := ⟨1, 1⟩
def dualKeyField : Field := ⟨2, 1⟩
def modeField : Field := ⟨3, 3⟩
def hashField : Field := ⟨8, 32⟩

def entries (control : Control) : List (Field × Nat) :=
  [ (joinField, control.joinEnabled.toNat),
    (aggregateField, control.aggregate.toNat),
    (dualKeyField, control.dualKey.toNat),
    (modeField, control.mode.code.toNat),
    (hashField, control.hashSize.toNat) ]

def ofBytes (bytes : Bytes) : Except CompileError Control :=
  let code := UInt8.ofNat (modeField.get bytes)
  match JoinMode.ofCode? code with
  | none => .error (.unknownCode code .joinMode)
  | some mode => .ok {
      joinEnabled := joinField.get bytes = 1
      aggregate := aggregateField.get bytes = 1
      dualKey := dualKeyField.get bytes = 1
      mode := mode
      hashSize := UInt32.ofNat (hashField.get bytes) }

end Control

namespace Config

def mapField : Side → Field
  | .left => ⟨56, 8⟩
  | .right => ⟨120, 8⟩

def maskField : Field := ⟨184, 8⟩

def shuffleField (point : ShufflePoint) : Field := ⟨192 + 64 * point.index, 8⟩

def gaps : List Field := [⟨6, 2⟩, ⟨40, 16⟩]

def byteEntries (field : Field) (bytes : Vector UInt8 8) : List (Field × Nat) :=
  bytes.toList.zipIdx.map fun (byte, index) => (field.element index, byte.toNat)

def readBytes (field : Field) (bytes : Bytes) : Vector UInt8 8 :=
  Vector.ofFn fun index => UInt8.ofNat ((field.element index).get bytes)

def controlEntries (config : Config) : List (Field × Nat) :=
  config.control.entries ++
    byteEntries (mapField .left) config.columnMaps.left.toBytes ++
    byteEntries (mapField .right) config.columnMaps.right.toBytes ++
    [(maskField, config.writeMask.toNat)] ++
    ShufflePoint.all.flatMap fun point =>
      byteEntries (shuffleField point) (config.shuffle point).slots

def filterField : Field := ⟨0, 32⟩

def filterBytes (block : FilterBlock) : Bytes :=
  .layOut 192 (block.words.toList.zipIdx.map fun (word, index) =>
    (filterField.element index, word.toNat))

def toBytes (config : Config) : Bytes :=
  .layOut 64 config.controlEntries ++ config.alu.toBytes ++ config.secondAlu.toBytes ++
    filterBytes config.filters.left ++ filterBytes config.filters.right

def readShuffle (bytes : Bytes) (point : ShufflePoint) : Except CompileError ShuffleTable :=
  (ShuffleTable.ofSlots point (readBytes (shuffleField point) bytes)).mapError .shuffle

def readFilter (side : Side) (bytes : Bytes) : Except CompileError FilterBlock :=
  if (bytes.drop 180).any (· ≠ 0) then .error (.record (.filterPadding side))
  else FilterBlock.ofWords
    (Vector.ofFn fun index => UInt32.ofNat ((filterField.element index).get bytes))

def engineWords (bytes : Bytes) (word count : Nat) : Bytes :=
  (bytes.drop (64 * word)).take (64 * count)

def ofBytes (bytes : Bytes) : Except CompileError Config := do
  if bytes.length ≠ Bytes.recordLength then throw (.record (.length bytes.length))
  if gaps.any (·.get bytes ≠ 0) then throw (.record .controlBits)
  let control ← Control.ofBytes bytes
  let leftMap ← ColumnMap.ofBytes (readBytes (mapField .left) bytes)
  let rightMap ← ColumnMap.ofBytes (readBytes (mapField .right) bytes)
  let mask := UInt8.ofNat (maskField.get bytes)
  if mask >>> Join.outputSlots ≠ 0 then throw (.record (.writeMask mask))
  let leftScan ← readShuffle bytes .leftScan
  let rightScan ← readShuffle bytes .rightScan
  let joined ← readShuffle bytes .joined
  let firstResult ← readShuffle bytes .firstResult
  let secondResult ← readShuffle bytes .secondResult
  let alu ← AluWord.ofBytes (engineWords bytes 1 1)
  let secondAlu ← AluWord.ofBytes (engineWords bytes 2 1)
  let left ← readFilter .left (engineWords bytes 3 3)
  let right ← readFilter .right (engineWords bytes 6 3)
  return {
    control := control
    columnMaps := ⟨leftMap, rightMap⟩
    writeMask := mask
    alu := alu
    secondAlu := secondAlu
    filters := ⟨left, right⟩
    shuffles := #v[leftScan, rightScan, joined, firstResult, secondResult] }

end Config

end JoinEngine
