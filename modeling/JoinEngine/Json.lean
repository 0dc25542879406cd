/-!
JSON, in which descriptions are stored. What is a document and how a value is printed
are the documented rules of the external serialization library that descriptions are
exchanged with; they are taken as given here.

Values are kept as their text spells them: object fields keep their order and may
repeat a key, and an integer literal is kept apart from every other number.
-/

namespace JoinEngine

inductive Json where
  | null
  | bool (value : Bool)
  /-- A literal of digits alone, with or without a minus sign; not `-0`. -/
  | int (value : Int)
  /-- Any other number, as written. -/
  | real (literal : List Char)
  /-- A string; `none` if a surrogate escape in it has no partner. -/
  | string (text : Option String)
  | array (items : List Json)
  | object (fields : List (Option String × Json))
  /-- The text cannot be read from here on. Every array and object in which that
  place lies ends with such an item. -/
  | broken

namespace Json

def text (value : String) : Json := string (some value)

def fields (entries : List (String × Json)) : Json :=
  object (entries.map fun entry => (some entry.1, entry.2))

end Json

end JoinEngine

/-!
Tokens of a JSON text. Scanning never fails: at the first place where the text
has no token it gives the token `fault` and looks no further.
-/

namespace JoinEngine.Json

inductive Token where
  | lbrace
  | rbrace
  | lbracket
  | rbracket
  | comma
  | colon
  | null
  | bool (value : Bool)
  | int (value : Int)
  | real (literal : List Char)
  | string (text : Option String)
  | fault
  deriving DecidableEq

/-- A string while it is read: its characters, last one first, and a leading
surrogate that waits for its partner. The characters are gone once a surrogate
stays without one. -/
structure Quote where
  chars : Option (List Char)
  high : Option Nat

namespace Quote

def empty : Quote := ⟨some [], none⟩

def push (quote : Quote) (c : Char) : Quote :=
  match quote.high with
  | none => ⟨quote.chars.map (c :: ·), none⟩
  | some _ => ⟨none, none⟩

def isHigh (unit : Nat) : Bool := 0xD800 ≤ unit && unit < 0xDC00

def isLow (unit : Nat) : Bool := 0xDC00 ≤ unit && unit < 0xE000

def paired (high low : Nat) : Char :=
  Char.ofNat (0x10000 + (high - 0xD800) * 0x400 + (low - 0xDC00))

def pushUnit (quote : Quote) (unit : Nat) : Quote :=
  match quote.high with
  | some high =>
      if isLow unit then ⟨quote.chars.map (paired high unit :: ·), none⟩ else ⟨none, none⟩
  | none =>
      if isHigh unit then ⟨quote.chars, some unit⟩
      else if isLow unit then ⟨none, none⟩
      else quote.push (Char.ofNat unit)

def close (quote : Quote) : Option String :=
  match quote.high with
  | none => quote.chars.map fun chars => String.ofList chars.reverse
  | some _ => none

end Quote

namespace Token

def isWholePart : List Char → Bool
  | ['0'] => true
  | '0' :: _ => false
  | [] => false
  | _ => true

def isExponent : List Char → Bool
  | [] => true
  | mark :: rest =>
      let digits := match rest with
        | '+' :: digits => digits
        | '-' :: digits => digits
        | digits => digits
      (mark = 'e' || mark = 'E') && !digits.isEmpty && digits.all Char.isDigit

def isTail : List Char → Bool
  | '.' :: rest =>
      !(rest.takeWhile Char.isDigit).isEmpty && isExponent (rest.dropWhile Char.isDigit)
  | rest => isExponent rest

def ofUnsigned (literal digits tail : List Char) : Token :=
  if !isWholePart digits then fault
  else if tail.isEmpty then int (Nat.ofDigitChars 10 digits 0)
  else if isTail tail then real literal
  else fault

/-- A minus sign in front; zero has none among the integers. -/
def negated (literal : List Char) : Token → Token
  | int 0 => real literal
  | int value => int (-value)
  | token => token

def ofNumeral (literal : List Char) : Token :=
  match literal with
  | '-' :: rest =>
      negated literal
        (ofUnsigned literal (rest.takeWhile Char.isDigit) (rest.dropWhile Char.isDigit))
  | _ => ofUnsigned literal (literal.takeWhile Char.isDigit) (literal.dropWhile Char.isDigit)

def ofWord : List Char → Token
  | ['n', 'u', 'l', 'l'] => null
  | ['t', 'r', 'u', 'e'] => bool true
  | ['f', 'a', 'l', 's', 'e'] => bool false
  | _ => fault

def mark? : Char → Option Token
  | '\x7b' => some lbrace
  | '\x7d' => some rbrace
  | '[' => some lbracket
  | ']' => some rbracket
  | ',' => some comma
  | ':' => some colon
  | _ => none

end Token

/-- The token a scan is inside of. Letters and digits are kept last one first. -/
inductive Mode where
  | between
  | quote (read : Quote)
  | escape (read : Quote)
  | unit (read : Quote) (missing value : Nat)
  | numeral (chars : List Char)
  | word (chars : List Char)
  | stopped

structure Scan where
  mode : Mode
  done : List Token

namespace Scan

def start : Scan := ⟨.between, []⟩

def isBlank (c : Char) : Bool :=
  c = ' ' || c = '\t' || c = '\n' || c = '\r'

def continuesNumeral (c : Char) : Bool :=
  c.isDigit || c = '+' || c = '-' || c = '.' || c = 'e' || c = 'E'

def stop (done : List Token) : Scan := ⟨.stopped, .fault :: done⟩

def begin (done : List Token) (c : Char) : Scan :=
  if isBlank c then ⟨.between, done⟩
  else if c = '"' then ⟨.quote .empty, done⟩
  else if c = '-' || c.isDigit then ⟨.numeral [c], done⟩
  else if c.isAlpha then ⟨.word [c], done⟩
  else
    match Token.mark? c with
    | some token => ⟨.between, token :: done⟩
    | none => stop done

def emitThen (token : Token) (done : List Token) (c : Char) : Scan :=
  if token = .fault then stop done else begin (token :: done) c

def escaped? : Char → Option Char
  | '"' => some '"'
  | '\\' => some '\\'
  | '/' => some '/'
  | 'b' => some '\x08'
  | 'f' => some '\x0c'
  | 'n' => some '\n'
  | 'r' => some '\r'
  | 't' => some '\t'
  | _ => none

def hexDigit? (c : Char) : Option Nat :=
  if c.isDigit then some (c.toNat - '0'.toNat)
  else if 'a' ≤ c && c ≤ 'f' then some (c.toNat - 'a'.toNat + 10)
  else if 'A' ≤ c && c ≤ 'F' then some (c.toNat - 'A'.toNat + 10)
  else none

def step (scan : Scan) (c : Char) : Scan :=
  match scan.mode with
  | .between => begin scan.done c
  | .quote read =>
      if c = '"' then ⟨.between, .string read.close :: scan.done⟩
      else if c = '\\' then ⟨.escape read, scan.done⟩
      else if c.toNat < 0x20 then stop scan.done
      else ⟨.quote (read.push c), scan.done⟩
  | .escape read =>
      if c = 'u' then ⟨.unit read 4 0, scan.done⟩
      else
        match escaped? c with
        | some meant => ⟨.quote (read.push meant), scan.done⟩
        | none => stop scan.done
  | .unit read missing value =>
      match hexDigit? c with
      | none => stop scan.done
      | some digit =>
          let value := 16 * value + digit
          if missing ≤ 1 then ⟨.quote (read.pushUnit value), scan.done⟩
          else ⟨.unit read (missing - 1) value, scan.done⟩
  | .numeral chars =>
      if continuesNumeral c then ⟨.numeral (c :: chars), scan.done⟩
      else emitThen (.ofNumeral chars.reverse) scan.done c
  | .word chars =>
      if c.isAlpha then ⟨.word (c :: chars), scan.done⟩
      else emitThen (.ofWord chars.reverse) scan.done c
  | .stopped => scan

def finish (scan : Scan) : List Token :=
  match scan.mode with
  | .between => scan.done
  | .stopped => scan.done
  | .numeral chars => .ofNumeral chars.reverse :: scan.done
  | .word chars => .ofWord chars.reverse :: scan.done
  | _ => .fault :: scan.done

end Scan

def Token.scan (text : List Char) : List Token :=
  (text.foldl Scan.step Scan.start).finish.reverse

/-!
Writing JSON. A value is a sequence of tokens; the compact and the indented text
of a value differ only in the blanks between them.
-/

namespace Token

def hexDigit (digit : Nat) : Char :=
  if digit < 10 then Char.ofNat ('0'.toNat + digit) else Char.ofNat ('a'.toNat + (digit - 10))

def escape (c : Char) : List Char :=
  match c with
  | '"' => ['\\', '"']
  | '\\' => ['\\', '\\']
  | '\x08' => ['\\', 'b']
  | '\x0c' => ['\\', 'f']
  | '\n' => ['\\', 'n']
  | '\r' => ['\\', 'r']
  | '\t' => ['\\', 't']
  | c =>
      if c.toNat < 0x20 then
        ['\\', 'u', '0', '0', hexDigit (c.toNat / 16), hexDigit (c.toNat % 16)]
      else [c]

def decimal : Int → List Char
  | .ofNat value => Nat.toDigits 10 value
  | .negSucc value => '-' :: Nat.toDigits 10 (value + 1)

/-- The text of a token. A string that is lost is written as an escape without
its partner and a fault as a character no token has, so that both read back. -/
def text : Token → List Char
  | lbrace => ['\x7b']
  | rbrace => ['\x7d']
  | lbracket => ['[']
  | rbracket => [']']
  | comma => [',']
  | colon => [':']
  | null => ['n', 'u', 'l', 'l']
  | bool true => ['t', 'r', 'u', 'e']
  | bool false => ['f', 'a', 'l', 's', 'e']
  | int value => decimal value
  | real literal => literal
  | string (some content) => '"' :: (content.toList.flatMap escape ++ ['"'])
  | string none => ['"', '\\', 'u', 'd', '8', '0', '0', '"']
  | fault => ['?']

def opens (token : Token) : Bool := token = lbrace || token = lbracket

def closes (token : Token) : Bool := token = rbrace || token = rbracket

end Token

mutual

def tokens : Json → List Token
  | null => [.null]
  | bool value => [.bool value]
  | int value => [.int value]
  | real literal => [.real literal]
  | string text => [.string text]
  | array [] => [.lbracket, .rbracket]
  | array (item :: rest) => .lbracket :: (item.tokens ++ itemTokens rest)
  | object [] => [.lbrace, .rbrace]
  | object (field :: rest) => .lbrace :: (fieldTokens field ++ moreFieldTokens rest)
  | broken => [.fault]

def itemTokens : List Json → List Token
  | [] => [.rbracket]
  | item :: rest => .comma :: (item.tokens ++ itemTokens rest)

def fieldTokens : Option String × Json → List Token
  | (key, value) => .string key :: .colon :: value.tokens

def moreFieldTokens : List (Option String × Json) → List Token
  | [] => [.rbrace]
  | field :: rest => .comma :: (fieldTokens field ++ moreFieldTokens rest)

end

/-- The tokens one after the other, each behind its gap. A gap may depend on how
many arrays and objects are open, on the token before it and on the one after. -/
def spread (gap : Nat → Token → Token → List Char) : Nat → Token → List Token → List Char
  | _, _, [] => []
  | depth, before, token :: rest =>
      let outer := if token.closes then depth - 1 else depth
      let inner := if token.opens then outer + 1 else outer
      gap outer before token ++ token.text ++ spread gap inner token rest

def layOut (gap : Nat → Token → Token → List Char) : List Token → List Char
  | [] => []
  | first :: rest => first.text ++ spread gap (if first.opens then 1 else 0) first rest

def compact (value : Json) : String :=
  String.ofList (layOut (fun _ _ _ => []) value.tokens)

/-- One item or field a line, two blanks for each level, a blank behind a colon.
An empty array or object stays on its line. -/
def indentation (depth : Nat) (before after : Token) : List Char :=
  if before.opens && after.closes then []
  else if before.opens || before = .comma || after.closes then
    '\n' :: List.replicate (2 * depth) ' '
  else if before = .colon then [' ']
  else []

def indented (value : Json) : String :=
  String.ofList (layOut indentation value.tokens)

/-!
Reading a JSON text. Whatever can be read of the text is read, and the place
where it stops being JSON is marked in the value: whoever goes through the value
from left to right meets everything that stands before that place first.
-/

structure Document where
  value : Json
  whole : Bool

/-- An array or object around the place being read. Items and fields are kept
last one first. -/
inductive Frame where
  | items (before : List Json)
  | field (before : List (Option String × Json)) (key : Option String)

inductive Builder where
  /-- A value has to follow. -/
  | value (frames : List Frame)
  /-- The first item of an array or its end. -/
  | firstItem (frames : List Frame)
  | nextItem (before : List Json) (frames : List Frame)
  | firstKey (frames : List Frame)
  | nextKey (before : List (Option String × Json)) (frames : List Frame)
  | colon (before : List (Option String × Json)) (key : Option String) (frames : List Frame)
  | nextField (before : List (Option String × Json)) (frames : List Frame)
  | ended (document : Document)

namespace Builder

def start : Builder := value []

def place (read : Json) : List Frame → Builder
  | [] => ended ⟨read, true⟩
  | .items before :: outer => nextItem (read :: before) outer
  | .field before key :: outer => nextField ((key, read) :: before) outer

def brokenItems (before : List Json) : Json :=
  array (Json.broken :: before).reverse

def brokenFields (before : List (Option String × Json)) : Json :=
  object ((none, Json.broken) :: before).reverse

def abandon (read : Json) : List Frame → Document
  | [] => ⟨read, false⟩
  | .items before :: outer => abandon (brokenItems (read :: before)) outer
  | .field before key :: outer => abandon (brokenFields ((key, read) :: before)) outer

def broken : Builder → Document
  | value frames => abandon .broken frames
  | firstItem frames => abandon (brokenItems []) frames
  | nextItem before frames => abandon (brokenItems before) frames
  | firstKey frames => abandon (brokenFields []) frames
  | nextKey before frames => abandon (brokenFields before) frames
  | colon before _ frames => abandon (brokenFields before) frames
  | nextField before frames => abandon (brokenFields before) frames
  | ended document => { document with whole := false }

def begin (here : Builder) (frames : List Frame) : Token → Builder
  | .null => place .null frames
  | .bool flag => place (.bool flag) frames
  | .int number => place (.int number) frames
  | .real literal => place (.real literal) frames
  | .string text => place (.string text) frames
  | .lbracket => firstItem frames
  | .lbrace => firstKey frames
  | _ => ended here.broken

def step (here : Builder) (token : Token) : Builder :=
  match here, token with
  | value frames, _ => begin here frames token
  | firstItem frames, .rbracket => place (.array []) frames
  | firstItem frames, _ => begin here (.items [] :: frames) token
  | nextItem before frames, .comma => value (.items before :: frames)
  | nextItem before frames, .rbracket => place (.array before.reverse) frames
  | firstKey frames, .rbrace => place (.object []) frames
  | firstKey frames, .string text => colon [] text frames
  | nextKey before frames, .string text => colon before text frames
  | colon before name frames, .colon => value (.field before name :: frames)
  | nextField before frames, .comma => nextKey before frames
  | nextField before frames, .rbrace => place (.object before.reverse) frames
  | _, _ => ended here.broken

def finish : Builder → Document
  | ended document => document
  | here => here.broken

end Builder

def Document.ofTokens (tokens : List Token) : Document :=
  (tokens.foldl Builder.step Builder.start).finish

def Document.read (text : String) : Document :=
  .ofTokens (Token.scan text.toList)

end JoinEngine.Json
