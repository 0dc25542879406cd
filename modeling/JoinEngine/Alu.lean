import JoinEngine.Bits
import JoinEngine.Error

/-!
The arithmetic unit: its words, its constants and the expressions it computes. There
is no way around the table of shapes: an expression that is no instance of a shape is
refused. The configuration of an arithmetic stage is one engine word of 64 bytes:

    [255:0]    registers c1 to c4, 64 bits each
    [259:256]  streams that are read, bit n-1 for strm n
    [267:260]  opcode, 0 for none
    [276:268]  streams on the three ports, 3 bits each, 0 for none
    [279:277]  constant register, 0 for none
    [288]      stage enable

All other bits are zero.
-/

namespace JoinEngine

structure AluWord where
  constants : Vector UInt64 4
  streamMask : UInt8
  opcode : UInt8
  ports : Vector UInt8 3
  constSelect : UInt8
  enabled : Bool
  deriving DecidableEq

namespace AluWord

def passThrough : AluWord := ⟨.replicate 4 0, 0, 0, .replicate 3 0, 0, false⟩

def isPassThrough (word : AluWord) : Bool := word = passThrough

def byteCount : Nat := 64

def constantField : Field := ⟨0, 64⟩
def streamMaskField : Field := ⟨256, 4⟩
def opcodeField : Field := ⟨260, 8⟩
def portField : Field := ⟨268, 3⟩
def constSelectField : Field := ⟨277, 3⟩
def enableField : Field := ⟨288, 1⟩

def reservedFields : List Field := [⟨280, 8⟩, ⟨289, 223⟩]

def entries (word : AluWord) : List (Field × Nat) :=
  (word.constants.toList.zipIdx.map fun (value, index) =>
      (constantField.element index, value.toNat)) ++
    [(streamMaskField, word.streamMask.toNat), (opcodeField, word.opcode.toNat)] ++
    (word.ports.toList.zipIdx.map fun (stream, index) =>
      (portField.element index, stream.toNat)) ++
    [(constSelectField, word.constSelect.toNat), (enableField, word.enabled.toNat)]

def toBytes (word : AluWord) : Bytes := .layOut byteCount word.entries

def read (bytes : Bytes) : AluWord where
  constants := Vector.ofFn fun index => UInt64.ofNat ((constantField.element index).get bytes)
  streamMask := UInt8.ofNat (streamMaskField.get bytes)
  opcode := UInt8.ofNat (opcodeField.get bytes)
  ports := Vector.ofFn fun index => UInt8.ofNat ((portField.element index).get bytes)
  constSelect := UInt8.ofNat (constSelectField.get bytes)
  enabled := enableField.get bytes = 1

def isRouted (word : AluWord) : Bool :=
  word.ports.toList.all (· ≤ 4) && word.constSelect ≤ 4

def ofBytes (bytes : Bytes) : Except CompileError AluWord :=
  if bytes.length ≠ byteCount then .error (.record (.aluLength bytes.length))
  else if reservedFields.any (·.get bytes ≠ 0) then .error (.record .aluBits)
  else
    let word := read bytes
    if !word.isRouted then .error (.record (.aluRouting word.ports word.constSelect))
    else if !word.enabled && !word.isPassThrough then .error (.record .aluDisabled)
    else if word.enabled && word.opcode = 0 then .error (.record .aluOpcode)
    else .ok word

end AluWord

/-!
Constants of the arithmetic unit. Its four registers hold fixed-point numbers:
a value is scaled by a power of two and has to fit the significant bits of a
register, sign included.
-/

structure ConstFormat where
  constBits : UInt32
  fractionBits : UInt32
  deriving DecidableEq

namespace ConstFormat

def default : ConstFormat := ⟨32, 0⟩

def validate (format : ConstFormat) : Except OptionsFault Unit :=
  if format.constBits = 0 ∨ 64 < format.constBits then
    .error (.constBits format.constBits)
  else if format.constBits ≤ format.fractionBits then
    .error (.fractionBits format.fractionBits format.constBits)
  else .ok ()

/-- The value in units of the last fraction bit. Scaling is done in 128 bits with
sign, and bits that leave them are lost. -/
def scale (format : ConstFormat) (value : Int64) : Int :=
  (value.toInt * (1 <<< min format.fractionBits.toNat 128 : Nat)).bmod (1 <<< 128)

def bound (format : ConstFormat) : Int :=
  (1 <<< (min format.constBits.toNat 128 - 1) : Nat)

def encode (format : ConstFormat) (register : Nat) (value : Int64) :
    Except CompileError UInt64 :=
  let scaled := format.scale value
  if -format.bound ≤ scaled ∧ scaled < format.bound then .ok (UInt64.ofInt scaled)
  else .error (.constantOverflow register value format.constBits)

end ConstFormat

structure Registers where
  values : Vector (Option Int64) 4
  deriving DecidableEq

namespace Registers

def empty : Registers := ⟨Vector.replicate 4 none⟩

def ofValues (values : Vector Int64 4) : Registers := ⟨values.map some⟩

/-- The value of a register, counted from one. -/
def get? (registers : Registers) : Nat → Option Int64
  | 0 => none
  | index + 1 => registers.values[index]?.join

def put (registers : Registers) (register : Nat) (value : Option Int64) : Registers :=
  match register with
  | 0 => registers
  | index + 1 => ⟨registers.values.setIfInBounds index value⟩

def bind (registers : Registers) (register : Nat) (value : Int64) : Registers :=
  registers.put register (some value)

end Registers

structure ExprSpec where
  source : String
  registers : Registers
  deriving DecidableEq

namespace ExprSpec

/-- The streams that occur, bit `n - 1` for stream `n`. -/
def streamMask (symbols : List Symbol) : UInt8 :=
  symbols.foldl
    (fun mask symbol =>
      match symbol with
      | .stream number => mask ||| (1 <<< (number - 1))
      | .constant _ => mask)
    0

def unbound? (registers : Registers) (symbols : List Symbol) : Option UInt8 :=
  symbols.findSome? fun symbol =>
    match symbol with
    | .stream _ => none
    | .constant number => if (registers.get? number.toNat).isSome then none else some number

/-- All four registers are written, those without a value as zero. -/
def constants (format : ConstFormat) (registers : Registers) :
    Except CompileError (Vector UInt64 4) := do
  let c1 ← format.encode 1 ((registers.get? 1).getD 0)
  let c2 ← format.encode 2 ((registers.get? 2).getD 0)
  let c3 ← format.encode 3 ((registers.get? 3).getD 0)
  let c4 ← format.encode 4 ((registers.get? 4).getD 0)
  return #v[c1, c2, c3, c4]

def compile (format : ConstFormat) (table : ShapeTable) (spec : ExprSpec) :
    Except CompileError AluWord := do
  let unsupported (reason : Unsupported) := CompileError.unsupported spec.source reason
  format.validate.mapError .options
  let tree ← (Expr.parse .expression spec.source).mapError (.unreadable spec.source)
  let poly ← (Poly.ofExpr table.maxDegree tree).mapError (unsupported <| .refused ·)
  if poly.isZero then throw (unsupported .vanishing)
  let some found := table.find? poly | throw (unsupported (.noShape poly))
  if let some register := unbound? spec.registers poly.symbols then
    throw (unsupported (.unbound register))
  let constants ← constants format spec.registers
  return {
    constants := constants
    streamMask := streamMask poly.symbols
    opcode := found.shape.opcode
    ports := found.ports
    constSelect := found.constant
    enabled := true }

end ExprSpec

end JoinEngine
