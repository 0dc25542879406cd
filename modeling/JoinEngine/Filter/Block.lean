import JoinEngine.Error

/-!
Filter blocks: a filter as the engine holds it, 45 words of 32 bits. Each
condition has three words, the low bound, the high bound and the codes of its two
comparisons. Then come the codes of the connectives in one word, a run of zeros
and a word that marks the end.
-/

namespace JoinEngine

/-- The four-bit code at an index of a word, counted from the lowest. -/
def codeAt (word : UInt32) (index : Nat) : UInt8 :=
  UInt8.ofNat ((word.toNat >>> (4 * index)) % 16)

namespace Combine

def word (combine : Combine) : UInt32 :=
  combine.pairs.toList.foldr (fun connective rest => rest <<< 4 ||| connective.code.toUInt32) 0

def fault? (word : UInt32) : Option CompileError :=
  (List.range 6).findSome? fun index =>
    match Connective.ofCode? (codeAt word index) with
    | some _ => none
    | none => some (.unknownCode (codeAt word index) (.combinePair index))

def read (word : UInt32) : Combine :=
  ⟨Vector.ofFn fun index => (Connective.ofCode? (codeAt word index)).getD .dontCare⟩

/-- The connectives of a word; bits beyond the sixth code are not looked at. -/
def ofWord (word : UInt32) : Except CompileError Combine :=
  match fault? word with
  | some fault => .error fault
  | none => .ok (read word)

end Combine

def Condition.ofCodes (lowCode : UInt8) (low : Int64) (highCode : UInt8) (high : Int64) :
    Except CompileError Condition :=
  match Comparison.ofCode? lowCode, Comparison.ofCode? highCode with
  | some lowOp, some highOp => .ok ⟨lowOp, highOp, low, high⟩
  | none, _ => .error (.unknownCode lowCode .comparison)
  | some _, none => .error (.unknownCode highCode .comparison)

structure BlockEntry where
  lowOp : Comparison
  highOp : Comparison
  low : UInt32
  high : UInt32
  deriving DecidableEq

namespace BlockEntry

def pass : BlockEntry := ⟨.dontCare, .dontCare, 0, 0⟩

/-- The codes of the comparisons in one word, the high one lowest. -/
def opWord (entry : BlockEntry) : UInt32 :=
  entry.lowOp.code.toUInt32 <<< 4 ||| entry.highOp.code.toUInt32

/-- The comparisons of an operator word, low and high. A code without a meaning
compares nothing. -/
def ops (word : UInt32) : Comparison × Comparison :=
  ((Comparison.ofCode? (codeAt word 1)).getD .dontCare,
    (Comparison.ofCode? (codeAt word 0)).getD .dontCare)

def ofWords (low high op : UInt32) : BlockEntry := ⟨(ops op).1, (ops op).2, low, high⟩

def fault? (slot : Nat) (word : UInt32) : Option CompileError :=
  if word >>> 8 ≠ 0 then some (.record (.operatorWord slot word))
  else [codeAt word 1, codeAt word 0].findSome? fun code =>
    match Comparison.ofCode? code with
    | some _ => none
    | none => some (.unknownCode code (.condition slot))

/-- A bound as a word, negative ones in two's complement. A bound that is ignored
is zero, any other has to be in the range of its comparison. -/
def bound (side : Side) (slot : Nat) (kind : BoundKind) (op : Comparison) (value : Int64) :
    Except CompileError UInt32 :=
  match op.range? with
  | none => .ok 0
  | some (least, greatest) =>
      if least ≤ value.toInt ∧ value.toInt ≤ greatest then .ok (UInt32.ofInt value.toInt)
      else .error (.bound side slot kind value op)

def encode (side : Side) (slot : Nat) (condition : Condition) : Except CompileError BlockEntry := do
  let low ← bound side slot .low condition.lowOp condition.low
  let high ← bound side slot .high condition.highOp condition.high
  return ⟨condition.lowOp, condition.highOp, low, high⟩

end BlockEntry

structure FilterBlock where
  entries : Vector BlockEntry 4
  combine : Combine
  deriving DecidableEq

namespace FilterBlock

def endMark : UInt32 := 0x80000000

def pass : FilterBlock := ⟨Vector.replicate 4 .pass, .all .dontCare⟩

def isPass (block : FilterBlock) : Bool := block = pass

def words (block : FilterBlock) : Vector UInt32 45 :=
  Vector.ofFn fun index =>
    match block.entries[index.val / 3]?, index.val % 3 with
    | some entry, 0 => entry.low
    | some entry, 1 => entry.high
    | some entry, _ => entry.opWord
    | none, _ =>
        if index.val = 12 then block.combine.word
        else if index.val = 44 then endMark
        else 0

/-- The comparisons at a slot. A slot behind the conditions is read off the words
that stand there. -/
def ops? (block : FilterBlock) (slot : Nat) : Option (Comparison × Comparison) :=
  block.words[slot * 3 + 2]?.map BlockEntry.ops

def bounds? (block : FilterBlock) (slot : Nat) : Option (UInt32 × UInt32) := do
  return (← block.words[slot * 3]?, ← block.words[slot * 3 + 1]?)

def combineFault? (word : UInt32) : Option CompileError :=
  if word >>> 24 ≠ 0 then some (.record (.combineWord word)) else Combine.fault? word

def tailFault? (words : List UInt32) : Option CompileError :=
  if words = List.replicate 31 0 ++ [endMark] then none else some (.record .filterTail)

def fault? (words : Vector UInt32 45) : Option CompileError :=
  [ BlockEntry.fault? 0 words[2],
    BlockEntry.fault? 1 words[5],
    BlockEntry.fault? 2 words[8],
    BlockEntry.fault? 3 words[11],
    combineFault? words[12],
    tailFault? (words.toList.drop 13) ].findSome? id

def read (words : Vector UInt32 45) : FilterBlock where
  entries :=
    #v[ .ofWords words[0] words[1] words[2],
      .ofWords words[3] words[4] words[5],
      .ofWords words[6] words[7] words[8],
      .ofWords words[9] words[10] words[11] ]
  combine := .read words[12]

def ofWords (words : Vector UInt32 45) : Except CompileError FilterBlock :=
  match fault? words with
  | some fault => .error fault
  | none => .ok (read words)

end FilterBlock

def Filter.encode (side : Side) (filter : Filter) : Except CompileError FilterBlock := do
  let first ← BlockEntry.encode side 0 filter.conditions[0]
  let second ← BlockEntry.encode side 1 filter.conditions[1]
  let third ← BlockEntry.encode side 2 filter.conditions[2]
  let fourth ← BlockEntry.encode side 3 filter.conditions[3]
  return ⟨#v[first, second, third, fourth], filter.combine⟩

end JoinEngine
