/-!
Column shuffles. A row is laid out anew at five points of the pipeline. A table
has eight output slots and gives for each the column it is copied from; columns
may be copied twice or dropped.
-/

namespace JoinEngine

inductive ShufflePoint where
  | leftScan
  | rightScan
  | joined
  | firstResult
  | secondResult
  deriving DecidableEq

namespace ShufflePoint

def all : List ShufflePoint := [leftScan, rightScan, joined, firstResult, secondResult]

def index : ShufflePoint → Fin 5
  | leftScan => 0
  | rightScan => 1
  | joined => 2
  | firstResult => 3
  | secondResult => 4

def label : ShufflePoint → String
  | leftScan => "1a"
  | rightScan => "1b"
  | joined => "2"
  | firstResult => "3"
  | secondResult => "4"

/-- Number of columns to choose from. A joined row has six payloads of each side
and two keys; behind an arithmetic stage its result is the ninth column. -/
def width : ShufflePoint → UInt8
  | leftScan | rightScan => 8
  | joined => 14
  | firstResult | secondResult => 9

end ShufflePoint

structure ShuffleTable where
  slots : Vector UInt8 8
  deriving DecidableEq

/-- A source column that is not there. Without a point the row has the eight
columns of a scan. -/
structure ShuffleFault where
  point : Option ShufflePoint
  slot : Nat
  source : UInt8
  limit : UInt8
  deriving DecidableEq

namespace ShuffleTable

def identity : ShuffleTable := ⟨#v[0, 1, 2, 3, 4, 5, 6, 7]⟩

/-- The neutral table of a point: the joined row keeps the first three payloads of
the right side and the first five of the left, all other rows stay as they are. -/
def neutral : ShufflePoint → ShuffleTable
  | .joined => ⟨#v[0, 1, 2, 6, 7, 8, 9, 10]⟩
  | _ => identity

def isIdentity (table : ShuffleTable) : Bool := table = identity

def scanWidth : UInt8 := 8

def limitAt (point : Option ShufflePoint) : UInt8 :=
  (point.map ShufflePoint.width).getD scanWidth

def fault? (point : Option ShufflePoint) (sources : List (Option UInt8)) : Option ShuffleFault :=
  sources.zipIdx.findSome? fun (entry, slot) =>
    match entry with
    | some source =>
        if source < limitAt point then none else some ⟨point, slot, source, limitAt point⟩
    | none => none

/-- The table of a partial mapping; a slot without a source keeps its column. -/
def resolve (point : Option ShufflePoint) (sources : Vector (Option UInt8) 8) :
    Except ShuffleFault ShuffleTable :=
  match fault? point sources.toList with
  | some fault => .error fault
  | none => .ok ⟨Vector.ofFn fun slot => sources[slot].getD (UInt8.ofNat slot)⟩

def ofSlots (point : ShufflePoint) (slots : Vector UInt8 8) : Except ShuffleFault ShuffleTable :=
  resolve (some point) (slots.map some)

def validate (table : ShuffleTable) (point : ShufflePoint) : Except ShuffleFault Unit :=
  (ofSlots point table.slots).map fun _ => ()

def shuffled? {α : Type} (table : ShuffleTable) (row : List α) : Option (List α) :=
  table.slots.toList.mapM fun source => row[source.toNat]?

end ShuffleTable

end JoinEngine
