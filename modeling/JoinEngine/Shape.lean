import JoinEngine.Poly

/-!
The arithmetic unit runs a closed set of shapes. A shape is a pattern over the
stream placeholders `a`, `b`, `c` and the constant placeholder `k`, with the
opcode that runs it. A table of shapes is data: it is checked once when it is
built, and holds every pattern together with its polynomial.
-/

namespace JoinEngine

structure Shape where
  name : String
  opcode : UInt8
  pattern : String
  deriving DecidableEq

inductive TableFault where
  | malformed
  | empty
  | reservedOpcode (name : String)
  | repeatedName (name : String)
  | repeatedOpcode (opcode : UInt8)
  | unreadable (name : String) (error : ParseError)
  | refused (name : String) (refusal : Poly.Refusal)
  | vanishing (name : String)
  deriving DecidableEq

def TableFault.message : TableFault → String
  | malformed => "malformed table"
  | empty => "table is empty"
  | reservedOpcode name => s!"shape '{name}' uses reserved opcode 0"
  | repeatedName name => s!"duplicate shape name '{name}'"
  | repeatedOpcode opcode => s!"opcode {opcode.toNat} is used by more than one shape"
  | unreadable name error =>
      s!"shape '{name}': {error.fault.message} at offset {error.position}"
  | refused name refusal => s!"shape '{name}': {refusal.message}"
  | vanishing name => s!"shape '{name}' folds to zero"

structure ShapeEntry where
  shape : Shape
  poly : Poly
  deriving DecidableEq

namespace ShapeEntry

def streams (entry : ShapeEntry) : List Symbol :=
  entry.poly.symbols.filter Symbol.isStream

def constants (entry : ShapeEntry) : List Symbol :=
  entry.poly.symbols.filter (!·.isStream)

end ShapeEntry

structure ShapeTable where
  entries : List ShapeEntry
  deriving DecidableEq

namespace ShapeTable

def patternLimit : Nat := 4

def entry (shape : Shape) : Except TableFault ShapeEntry := do
  let tree ← (Expr.parse .pattern shape.pattern).mapError (.unreadable shape.name)
  let poly ← (Poly.ofExpr patternLimit tree).mapError (.refused shape.name)
  if poly.isZero then .error (.vanishing shape.name) else .ok ⟨shape, poly⟩

def entriesAfter (names : List String) (opcodes : List UInt8) :
    List Shape → Except TableFault (List ShapeEntry)
  | [] => .ok []
  | shape :: rest =>
      if shape.opcode = 0 then .error (.reservedOpcode shape.name)
      else if names.contains shape.name then .error (.repeatedName shape.name)
      else if opcodes.contains shape.opcode then .error (.repeatedOpcode shape.opcode)
      else do
        let first ← entry shape
        let others ← entriesAfter (shape.name :: names) (shape.opcode :: opcodes) rest
        return first :: others

def build (shapes : List Shape) : Except TableFault ShapeTable :=
  if shapes.isEmpty then .error .empty else (entriesAfter [] [] shapes).map ShapeTable.mk

def shapes (table : ShapeTable) : List Shape := table.entries.map ShapeEntry.shape

def maxDegree (table : ShapeTable) : Nat :=
  table.entries.foldr (fun entry highest => max entry.poly.degree highest) 0

def byOpcode? (table : ShapeTable) (opcode : UInt8) : Option Shape :=
  table.shapes.find? (·.opcode = opcode)

def standardShapes : List Shape :=
  [ ⟨"pass", 1, "a"⟩,
    ⟨"add", 2, "a+b"⟩,
    ⟨"sub", 3, "a-b"⟩,
    ⟨"mul", 4, "a*b"⟩,
    ⟨"add_const", 5, "a+k"⟩,
    ⟨"sub_const", 6, "a-k"⟩,
    ⟨"const_sub", 7, "k-a"⟩,
    ⟨"mul_const", 8, "a*k"⟩,
    ⟨"add_const_mul", 9, "(a+k)*b"⟩,
    ⟨"sub_const_mul", 10, "(a-k)*b"⟩,
    ⟨"const_sub_mul", 11, "a*(k-b)"⟩,
    ⟨"add_mul_const", 12, "(a+b)*k"⟩,
    ⟨"sub_mul_const", 13, "(a-b)*k"⟩,
    ⟨"add3", 14, "a+b+c"⟩ ]

theorem standardShapes_accepted : (build standardShapes).toOption.isSome = true := by
  decide

def standard : ShapeTable := (build standardShapes).toOption.get standardShapes_accepted

end ShapeTable

/-!
Matching a polynomial against a table. A polynomial is an instance of a shape if
some one-to-one renaming of the placeholders, streams to streams and constants to
constants, turns the polynomial of the shape into it.
-/

/-- Symbols and what they are replaced by. The last entry for a symbol counts; a
symbol without one stays. -/
abbrev Renaming := List (Symbol × Symbol)

def Renaming.image (pairs : Renaming) (symbol : Symbol) : Symbol :=
  (pairs.reverse.lookup symbol).getD symbol

/-- A shape and what its placeholders stand for: the streams on the three ports
and the constant register, zero where the shape has no such placeholder. -/
structure ShapeMatch where
  shape : Shape
  ports : Vector UInt8 3
  constant : UInt8
  deriving DecidableEq

namespace ShapeMatch

def route (found : ShapeMatch) : Symbol × Symbol → ShapeMatch
  | (.stream slot, .stream number) =>
      { found with ports := found.ports.setIfInBounds slot.toNat number }
  | (.constant _, .constant number) => { found with constant := number }
  | _ => found

def ofRenaming (shape : Shape) (pairs : Renaming) : ShapeMatch :=
  pairs.foldl route ⟨shape, .replicate 3 0, 0⟩

end ShapeMatch

namespace ShapeTable

def picks {α : Type} : List α → List (α × List α)
  | [] => []
  | first :: rest => (first, rest) :: (picks rest).map fun pick => (pick.1, first :: pick.2)

/-- Every way to line up `count` of the items, in lexicographic order of their
positions. -/
def arrangements {α : Type} : Nat → List α → List (List α)
  | 0, _ => [[]]
  | count + 1, items =>
      (picks items).flatMap fun pick => (arrangements count pick.2).map (pick.1 :: ·)

def renamings (entry : ShapeEntry) (streams constants : List Symbol) : List Renaming :=
  (arrangements streams.length streams).flatMap fun streamOrder =>
    (arrangements constants.length constants).map fun constantOrder =>
      entry.streams.zip streamOrder ++ entry.constants.zip constantOrder

def instanceOf? (poly : Poly) (entry : ShapeEntry) : Option ShapeMatch :=
  let streams := poly.symbols.filter Symbol.isStream
  let constants := poly.symbols.filter (!·.isStream)
  if entry.streams.length = streams.length ∧ entry.constants.length = constants.length ∧
      entry.poly.degree = poly.degree then
    ((renamings entry streams constants).find? fun pairs =>
      entry.poly.rename (Renaming.image pairs) = poly).map (ShapeMatch.ofRenaming entry.shape)
  else none

def find? (table : ShapeTable) (poly : Poly) : Option ShapeMatch :=
  table.entries.findSome? (instanceOf? poly)

end ShapeTable

end JoinEngine
