import JoinEngine.Expr

/-!
Polynomials with integer coefficients over symbols, in canonical form: terms in
ascending order of their monomials, each monomial once and sorted, no coefficient
zero. Coefficients have 64 bits with sign, and an operation that leaves this range
at any point has no result.
-/

namespace JoinEngine

/-- A product of symbols in ascending order. -/
abbrev Monomial := List Symbol

namespace Monomial

def insert (symbol : Symbol) : Monomial → Monomial
  | [] => [symbol]
  | first :: rest =>
      if symbol.rank ≤ first.rank then symbol :: first :: rest else first :: insert symbol rest

def ofSymbols (symbols : List Symbol) : Monomial :=
  symbols.foldr insert []

/-- Lexicographic order; a monomial stands before every longer one it begins. -/
def order : Monomial → Monomial → Ordering
  | [], [] => .eq
  | [], _ :: _ => .lt
  | _ :: _, [] => .gt
  | a :: left, b :: right => (compare a.rank b.rank).then (order left right)

def eval (value : Symbol → Int) (monomial : Monomial) : Int :=
  monomial.foldr (fun symbol rest => value symbol * rest) 1

end Monomial

abbrev Term := Monomial × Int

structure Poly where
  terms : List Term
  deriving DecidableEq

namespace Poly

def zero : Poly := ⟨[]⟩

def ofSymbol (symbol : Symbol) : Poly := ⟨[([symbol], 1)]⟩

def isZero (poly : Poly) : Bool := poly.terms.isEmpty

def degree (poly : Poly) : Nat :=
  poly.terms.foldr (fun term highest => max term.1.length highest) 0

def enlist (symbol : Symbol) : List Symbol → List Symbol
  | [] => [symbol]
  | first :: rest =>
      if symbol = first then first :: rest
      else if symbol.rank < first.rank then symbol :: first :: rest
      else first :: enlist symbol rest

def symbols (poly : Poly) : List Symbol :=
  (poly.terms.flatMap Prod.fst).foldr enlist []

def eval (value : Symbol → Int) (poly : Poly) : Int :=
  poly.terms.foldr (fun term rest => term.2 * term.1.eval value + rest) 0

def fit (coefficient : Int) : Option Int :=
  if -0x8000000000000000 ≤ coefficient ∧ coefficient ≤ 0x7fffffffffffffff then some coefficient
  else none

def keep (term : Term) (rest : List Term) : List Term :=
  if term.2 = 0 then rest else term :: rest

def accumulate (terms : List Term) (term : Term) : Option (List Term) :=
  match terms with
  | [] => some (keep term [])
  | first :: rest =>
      match term.1.order first.1 with
      | .lt => some (keep term (first :: rest))
      | .eq => (fit (first.2 + term.2)).map fun sum => keep (first.1, sum) rest
      | .gt => (accumulate rest term).map (first :: ·)

def add (left right : Poly) : Option Poly :=
  (right.terms.foldlM accumulate left.terms).map Poly.mk

def neg (poly : Poly) : Option Poly :=
  (poly.terms.mapM fun term => (fit (-term.2)).map (term.1, ·)).map Poly.mk

def accumulateProduct (left : Term) (terms : List Term) (right : Term) : Option (List Term) := do
  accumulate terms (Monomial.ofSymbols (left.1 ++ right.1), ← fit (left.2 * right.2))

def mul (left right : Poly) : Option Poly :=
  (left.terms.foldlM (fun terms term => right.terms.foldlM (accumulateProduct term) terms) []).map
    Poly.mk

/-- Replaces every symbol. Terms that become equal are added up; if their sum has
no result, neither has the renaming, and it gives zero. -/
def rename (image : Symbol → Symbol) (poly : Poly) : Poly :=
  let renamed := poly.terms.map fun term => (Monomial.ofSymbols (term.1.map image), term.2)
  ((renamed.foldlM accumulate []).map Poly.mk).getD zero

def magnitudeText (term : Term) : String :=
  let factors := String.intercalate "*" (term.1.map Symbol.text)
  if term.2.natAbs = 1 then factors else s!"{term.2.natAbs}*{factors}"

def text (poly : Poly) : String :=
  match poly.terms with
  | [] => "0"
  | first :: rest =>
      let lead := if first.2 < 0 then "-" else ""
      rest.foldl
        (fun text term => text ++ (if term.2 < 0 then " - " else " + ") ++ magnitudeText term)
        (lead ++ magnitudeText first)

end Poly

end JoinEngine

/-!
The canonical polynomial of an expression. Expressions with the same value at
every point have the same polynomial, so whatever looks at an expression only
through its polynomial cannot tell its spellings apart.
-/

namespace JoinEngine.Poly

inductive Refusal where
  | overflow
  | degree (found limit : Nat)
  deriving DecidableEq

def Refusal.message : Refusal → String
  | overflow => "coefficient overflow"
  | degree found limit => s!"product of degree {found} exceeds the shape table limit of {limit}"

def inRange : Option Poly → Except Refusal Poly
  | some poly => .ok poly
  | none => .error .overflow

/-- A product is refused before it is expanded if the degrees of its factors add
up to more than the limit. -/
def product (limit : Nat) (left right : Poly) : Except Refusal Poly :=
  let found := left.degree + right.degree
  if limit < found then .error (.degree found limit) else inRange (left.mul right)

def ofExpr (limit : Nat) : Expr → Except Refusal Poly
  | .symbol name => .ok (ofSymbol name)
  | .neg inner => do inRange (← ofExpr limit inner).neg
  | .add left right => do
      let left ← ofExpr limit left
      let right ← ofExpr limit right
      inRange (left.add right)
  | .sub left right => do
      let left ← ofExpr limit left
      let right ← ofExpr limit right
      inRange (right.neg.bind left.add)
  | .mul left right => do
      let left ← ofExpr limit left
      let right ← ofExpr limit right
      product limit left right

end JoinEngine.Poly
