/-!
Bit fields of byte strings. Bit `i` of a string is bit `i % 8` of byte `i / 8`,
and a field is a range of such bits, its lowest bit first. Reading and writing go
bit by bit and have no result if a bit lies past the end of the string.
-/

namespace JoinEngine

abbrev Bytes := List UInt8

namespace Bytes

def bit? (bytes : Bytes) (index : Nat) : Option Bool :=
  bytes[index / 8]?.map (·.toNat.testBit (index % 8))

def withBit (byte : UInt8) (index : Nat) (on : Bool) : UInt8 :=
  let mask := (1 : UInt8) <<< UInt8.ofNat index
  if on then byte ||| mask else byte &&& ~~~mask

def setBit? (bytes : Bytes) (index : Nat) (on : Bool) : Option Bytes :=
  bytes[index / 8]?.map fun byte => bytes.set (index / 8) (withBit byte (index % 8) on)

def readBits? (bytes : Bytes) (lo : Nat) : Nat → Option Nat
  | 0 => some 0
  | width + 1 => do
      let low ← readBits? bytes lo width
      let top ← bytes.bit? (lo + width)
      return low + top.toNat <<< width

def writeBits? (lo value : Nat) : Nat → Bytes → Option Bytes
  | 0, bytes => some bytes
  | width + 1, bytes => do
      let bytes ← writeBits? lo value width bytes
      bytes.setBit? (lo + width) (value.testBit width)

end Bytes

structure Field where
  lo : Nat
  width : Nat
  deriving DecidableEq

namespace Field

def wordBits : Nat := 512

def inWord (word lo width : Nat) : Field := ⟨word * wordBits + lo, width⟩

def element (field : Field) (index : Nat) : Field :=
  { field with lo := field.lo + index * field.width }

/-- The first bit behind the field. -/
def hi (field : Field) : Nat := field.lo + field.width

def get? (field : Field) (bytes : Bytes) : Option Nat :=
  bytes.readBits? field.lo field.width

/-- The part of a number that fits a field. Numbers are words of at most 64 bits, so a
field of that width takes them whole. -/
def cut (field : Field) (value : Nat) : Nat :=
  if 64 ≤ field.width then value else value &&& ((1 <<< field.width) - 1)

def put? (field : Field) (value : Nat) (bytes : Bytes) : Option Bytes :=
  Bytes.writeBits? field.lo (field.cut value) field.width bytes

def get (field : Field) (bytes : Bytes) : Nat := (field.get? bytes).getD 0

def put (field : Field) (value : Nat) (bytes : Bytes) : Bytes :=
  (field.put? value bytes).getD bytes

end Field

def Bytes.layOut (length : Nat) (entries : List (Field × Nat)) : Bytes :=
  entries.foldl (fun bytes entry => entry.1.put entry.2 bytes) (List.replicate length 0)

def Bytes.wordRange (word : Nat) : Nat × Nat :=
  (word * (Field.wordBits / 8), (word + 1) * (Field.wordBits / 8))

end JoinEngine
