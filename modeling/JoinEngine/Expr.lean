/-!
Arithmetic expressions and the texts they are read from. A text is a list of
characters with positions counted in bytes. It is scanned into lexemes, and these
are read as a tree, which stands for an integer once every symbol has a value.
-/

namespace JoinEngine.Text

def byteLength (text : List Char) : Nat :=
  text.foldl (fun length c => length + c.utf8Size) 0

def extend (c : Char) : List (List Char) → List (List Char)
  | [] => [[c]]
  | first :: rest => (c :: first) :: rest

def pieces (separator : Char) : List Char → List (List Char)
  | [] => [[]]
  | c :: rest =>
      if c = separator then [] :: pieces separator rest else extend c (pieces separator rest)

def splitOnce? (separator : Char) : List Char → Option (List Char × List Char)
  | [] => none
  | c :: rest =>
      if c = separator then some ([], rest)
      else (splitOnce? separator rest).map fun parts => (c :: parts.1, parts.2)

/-- The code points with the Unicode property White_Space, as ranges with both ends. -/
def blankRanges : List (Nat × Nat) :=
  [ (0x0009, 0x000d), (0x0020, 0x0020), (0x0085, 0x0085), (0x00a0, 0x00a0), (0x1680, 0x1680),
    (0x2000, 0x200a), (0x2028, 0x2029), (0x202f, 0x202f), (0x205f, 0x205f), (0x3000, 0x3000) ]

def isBlank (c : Char) : Bool :=
  blankRanges.any fun range => range.1 ≤ c.toNat && c.toNat ≤ range.2

def trim (text : List Char) : List Char :=
  ((text.dropWhile isBlank).reverse.dropWhile isBlank).reverse

end JoinEngine.Text

/-!
Symbols of an arithmetic expression and the words that name them. A symbol is a
row stream or a constant register. In an expression its number counts from one;
in a shape pattern it is the slot of a placeholder and counts from zero.
-/

namespace JoinEngine

inductive Symbol where
  | stream (number : UInt8)
  | constant (number : UInt8)
  deriving DecidableEq

namespace Symbol

def isStream : Symbol → Bool
  | stream _ => true
  | constant _ => false

def text : Symbol → String
  | stream number => s!"strm{number.toNat}"
  | constant number => s!"c{number.toNat}"

/-- Position in the order of symbols: every stream before every constant, each
kind by number. Distinct symbols have distinct ranks. -/
def rank : Symbol → Nat
  | stream number => number.toNat
  | constant number => 256 + number.toNat

end Symbol

inductive Vocabulary where
  | expression
  | pattern
  deriving DecidableEq

namespace Vocabulary

def digits : List (Char × UInt8) := [('1', 1), ('2', 2), ('3', 3), ('4', 4)]

def table : Vocabulary → List (List Char × Symbol)
  | expression =>
      digits.map (fun (digit, number) => (['s', 't', 'r', 'm', digit], .stream number)) ++
        digits.map (fun (digit, number) => (['c', digit], .constant number))
  | pattern =>
      [(['a'], .stream 0), (['b'], .stream 1), (['c'], .stream 2), (['k'], .constant 0)]

def symbol? (vocabulary : Vocabulary) (letters : List Char) : Option Symbol :=
  vocabulary.table.lookup letters

def words : Vocabulary → String
  | expression => "strm1..strm4 or c1..c4"
  | pattern => "a, b, c or k"

end Vocabulary

inductive Expr where
  | symbol (name : Symbol)
  | neg (inner : Expr)
  | add (left right : Expr)
  | sub (left right : Expr)
  | mul (left right : Expr)
  deriving DecidableEq

namespace Expr

def eval (value : Symbol → Int) : Expr → Int
  | symbol name => value name
  | neg inner => -inner.eval value
  | add left right => left.eval value + right.eval value
  | sub left right => left.eval value - right.eval value
  | mul left right => left.eval value * right.eval value

end Expr

/-!
Tokens of an expression text. Scanning goes through the whole text before any of
it is read as an expression: it skips blanks, takes words by longest match and
stops at the first character that begins no token or at the first token too many.
Positions are byte offsets in the UTF-8 form of the text.
-/

inductive Token where
  | word (letters : List Char)
  | plus
  | minus
  | star
  | lparen
  | rparen
  deriving DecidableEq

namespace Token

def quoted : Token → String
  | word letters => s!"'{String.ofList letters}'"
  | plus => "'+'"
  | minus => "'-'"
  | star => "'*'"
  | lparen => "'('"
  | rparen => "')'"

def sign? : Char → Option Token
  | '+' => some plus
  | '-' => some minus
  | '*' => some star
  | '(' => some lparen
  | ')' => some rparen
  | _ => none

end Token

inductive ParseFault where
  | tooLong
  | strayCharacter (character : Char)
  | unknownSymbol (letters : List Char) (vocabulary : Vocabulary)
  | termExpected (found : Token)
  | endOfText
  | tooDeep
  | thirdFactor
  | closingExpected (found : Token)
  | unclosed
  | leftOver (found : Token)
  deriving DecidableEq

structure ParseError where
  position : Nat
  fault : ParseFault
  deriving DecidableEq

def tokenLimit : Nat := 256

/-- Most minus signs and parentheses around any point of an expression. -/
def nestingLimit : Nat := 64

namespace ParseFault

def message : ParseFault → String
  | tooLong => s!"expression is longer than {tokenLimit} tokens"
  | strayCharacter character => s!"unexpected character '{character}'"
  | unknownSymbol letters vocabulary =>
      s!"unknown symbol '{String.ofList letters}', expected {vocabulary.words}"
  | termExpected found => s!"expected a term, found {found.quoted}"
  | endOfText => "unexpected end of expression"
  | tooDeep => s!"expression nests deeper than {nestingLimit} levels"
  | thirdFactor => "a product takes at most two factors, parenthesise further factors"
  | closingExpected found => s!"expected ')', found {found.quoted}"
  | unclosed => "unclosed '('"
  | leftOver found => s!"unexpected {found.quoted} after expression"

end ParseFault

structure Lexeme where
  position : Nat
  token : Token
  deriving DecidableEq

namespace Lexeme

def isBlank (c : Char) : Bool :=
  c = ' ' || c = '\t' || c = '\n' || c = '\r'

def startsWord (c : Char) : Bool :=
  c.isAlpha || c = '_'

def continuesWord (c : Char) : Bool :=
  c.isAlphanum || c = '_'

end Lexeme

/-- State of a scan: the next offset, the word being read with its start (last
letter first), and the finished lexemes, last one first. -/
structure Scan where
  position : Nat
  held : Option (Nat × List Char)
  done : List Lexeme

namespace Scan

def start : Scan := ⟨0, none, []⟩

def closed (scan : Scan) : List Lexeme :=
  match scan.held with
  | none => scan.done
  | some (first, letters) => ⟨first, .word letters.reverse⟩ :: scan.done

/-- A character outside any word. The room is looked at before the character, so
a stray character past the limit is reported as a token too many. -/
def begin (position : Nat) (done : List Lexeme) (c : Char) : Except ParseError Scan :=
  if Lexeme.isBlank c then
    .ok ⟨position + c.utf8Size, none, done⟩
  else if tokenLimit ≤ done.length then
    .error ⟨position, .tooLong⟩
  else if Lexeme.startsWord c then
    .ok ⟨position + c.utf8Size, some (position, [c]), done⟩
  else
    match Token.sign? c with
    | some token => .ok ⟨position + c.utf8Size, none, ⟨position, token⟩ :: done⟩
    | none => .error ⟨position, .strayCharacter c⟩

def step (scan : Scan) (c : Char) : Except ParseError Scan :=
  match scan.held with
  | none => begin scan.position scan.done c
  | some (first, letters) =>
      if Lexeme.continuesWord c then
        .ok { scan with position := scan.position + c.utf8Size, held := some (first, c :: letters) }
      else
        begin scan.position scan.closed c

end Scan

def Lexeme.scan (text : List Char) : Except ParseError (List Lexeme) := do
  let scan ← text.foldlM Scan.step Scan.start
  return scan.closed.reverse

/-!
Reading lexemes as an expression, one lexeme at a time. The grammar is

    sum     = product { ("+" | "-") product }      grouped to the left
    product = term [ "*" term ]
    term    = symbol | "-" term | "(" sum ")"

The reader keeps, for the innermost parenthesis and each one around it, what
stands to the left of the term being read. A lexeme that no expression can have
at its place is refused there and then, so an error names the first such lexeme.
-/

/-- What a term is waited for with, inside one pair of parentheses: the sum so
far and whether the coming product is taken from it, the left factor of the
coming product, and the number of minus signs before the term. -/
structure Level where
  sum : Option (Expr × Bool)
  factor : Option Expr
  minuses : Nat
  deriving DecidableEq

namespace Level

def empty : Level := ⟨none, none, 0⟩

def negated : Nat → Expr → Expr
  | 0, term => term
  | count + 1, term => .neg (negated count term)

def product (level : Level) (term : Expr) : Expr :=
  match level.factor with
  | none => term
  | some left => .mul left term

def total (level : Level) (term : Expr) : Expr :=
  match level.sum with
  | none => level.product term
  | some (left, false) => .add left (level.product term)
  | some (left, true) => .sub left (level.product term)

end Level

inductive Reader where
  /-- A term has to follow. -/
  | wanting (level : Level) (outer : List Level)
  /-- A term was read; the level's minus signs are already applied to it. -/
  | holding (term : Expr) (level : Level) (outer : List Level)

namespace Reader

def start : Reader := wanting .empty []

def depth (level : Level) (outer : List Level) : Nat :=
  outer.foldr (fun around inner => around.minuses + 1 + inner) level.minuses

def hold (term : Expr) (level : Level) (outer : List Level) : Reader :=
  holding (Level.negated level.minuses term) level outer

def refuse (lexeme : Lexeme) (fault : ParseFault) : Except ParseError Reader :=
  .error ⟨lexeme.position, fault⟩

def want (vocabulary : Vocabulary) (level : Level) (outer : List Level) (lexeme : Lexeme) :
    Except ParseError Reader :=
  match lexeme.token with
  | .word letters =>
      match vocabulary.symbol? letters with
      | some name => .ok (hold (.symbol name) level outer)
      | none => refuse lexeme (.unknownSymbol letters vocabulary)
  | .minus =>
      if depth level outer < nestingLimit then
        .ok (wanting { level with minuses := level.minuses + 1 } outer)
      else
        refuse lexeme .tooDeep
  | .lparen =>
      if depth level outer < nestingLimit then
        .ok (wanting .empty (level :: outer))
      else
        refuse lexeme .tooDeep
  | found => refuse lexeme (.termExpected found)

def follow (term : Expr) (level : Level) (outer : List Level) (lexeme : Lexeme) :
    Except ParseError Reader :=
  match lexeme.token with
  | .star =>
      match level.factor with
      | none => .ok (wanting ⟨level.sum, some term, 0⟩ outer)
      | some _ => refuse lexeme .thirdFactor
  | .plus => .ok (wanting ⟨some (level.total term, false), none, 0⟩ outer)
  | .minus => .ok (wanting ⟨some (level.total term, true), none, 0⟩ outer)
  | .rparen =>
      match outer with
      | around :: rest => .ok (hold (level.total term) around rest)
      | [] => refuse lexeme (.leftOver .rparen)
  | found =>
      match outer with
      | _ :: _ => refuse lexeme (.closingExpected found)
      | [] => refuse lexeme (.leftOver found)

def step (vocabulary : Vocabulary) : Reader → Lexeme → Except ParseError Reader
  | wanting level outer => want vocabulary level outer
  | holding term level outer => follow term level outer

/-- The expression read, if the text may end here; `position` is its length. -/
def finish (position : Nat) : Reader → Except ParseError Expr
  | wanting _ _ => .error ⟨position, .endOfText⟩
  | holding term level [] => .ok (level.total term)
  | holding _ _ (_ :: _) => .error ⟨position, .unclosed⟩

def read (vocabulary : Vocabulary) (position : Nat) (lexemes : List Lexeme) :
    Except ParseError Expr := do
  (← lexemes.foldlM (step vocabulary) start).finish position

end Reader

def Expr.parse (vocabulary : Vocabulary) (source : String) : Except ParseError Expr := do
  let lexemes ← Lexeme.scan source.toList
  Reader.read vocabulary (Text.byteLength source.toList) lexemes

end JoinEngine
