import JoinEngine.Json
import Mathlib.Data.List.Chain
import Mathlib.Data.List.TakeWhile

/-!
Reading the tokens of a text back. A numeral or a word ends only where something
else begins, so a scan behind it still holds it; every other token ends by itself.
Tokens laid out with blanks between them, or with none, are read back as long as no
two of the first kind are neighbours.
-/

namespace JoinEngine.Json

namespace Token

def isOpen : Token → Bool
  | null | bool _ | int _ => true
  | _ => false

def isPlain : Token → Bool
  | real _ | string none | fault => false
  | _ => true

theorem head_toDigits_ne_zero {number : Nat} (positive : 0 < number) :
    (Nat.toDigits 10 number).head? ≠ some '0' := by
  induction number using Nat.strongRecOn with
  | ind number ih =>
      rw [Nat.toDigits_eq_if (by decide)]
      split
      · rename_i small
        have nonzero : ∀ digit < 10, 0 < digit → [Nat.digitChar digit].head? ≠ some '0' := by decide
        exact nonzero number small positive
      · rename_i large
        have leading := ih (number / 10) (by omega) (by omega)
        rw [List.head?_append]
        cases first : (Nat.toDigits 10 (number / 10)).head? with
        | none => exact absurd (List.head?_eq_none_iff.mp first) Nat.toDigits_ne_nil
        | some digit => rwa [first] at leading

theorem isWholePart_toDigits (number : Nat) : isWholePart (Nat.toDigits 10 number) = true := by
  cases number with
  | zero => decide
  | succ number =>
      have leading := head_toDigits_ne_zero number.succ_pos
      cases digits : Nat.toDigits 10 (number + 1) with
      | nil => exact absurd digits Nat.toDigits_ne_nil
      | cons first rest =>
          have different : first ≠ '0' := by
            rintro rfl
            exact leading (by rw [digits]; rfl)
          simp [isWholePart, different]

theorem isDigit_of_mem_digits (number : Nat) :
    ∀ c ∈ Nat.toDigits 10 number, c.isDigit = true := fun _ member =>
  Nat.isDigit_of_mem_toDigits (by decide) (by decide) member

theorem ofUnsigned_toDigits (literal : List Char) (number : Nat) :
    ofUnsigned literal ((Nat.toDigits 10 number).takeWhile Char.isDigit)
      ((Nat.toDigits 10 number).dropWhile Char.isDigit) = int number := by
  have digits := isDigit_of_mem_digits number
  rw [List.takeWhile_eq_self_iff.mpr digits, List.dropWhile_eq_nil_iff.mpr digits]
  simp [ofUnsigned, isWholePart_toDigits]

theorem ofNumeral_decimal (value : Int) : ofNumeral (decimal value) = int value := by
  cases value with
  | ofNat number =>
      have read := ofUnsigned_toDigits (Nat.toDigits 10 number) number
      have digits := isDigit_of_mem_digits number
      simp only [decimal]
      generalize Nat.toDigits 10 number = literal at read digits
      unfold ofNumeral
      split
      · exact absurd (digits '-' List.mem_cons_self) (by decide)
      · exact read
  | negSucc number =>
      simp only [decimal, ofNumeral, ofUnsigned_toDigits]
      rfl

theorem decimal_eq_cons (value : Int) : ∃ first rest, decimal value = first :: rest ∧
    (first = '-' ∨ first.isDigit = true) ∧ ∀ c ∈ rest, c.isDigit = true := by
  cases value with
  | ofNat number =>
      have digits := isDigit_of_mem_digits number
      simp only [decimal]
      cases spelled : Nat.toDigits 10 number with
      | nil => exact absurd spelled Nat.toDigits_ne_nil
      | cons first rest =>
          rw [spelled] at digits
          exact ⟨first, rest, rfl, .inr (digits first List.mem_cons_self),
            fun c member => digits c (List.mem_cons_of_mem _ member)⟩
  | negSucc number => exact ⟨'-', _, rfl, .inl rfl, isDigit_of_mem_digits (number + 1)⟩

end Token

namespace Scan

def delimits (c : Char) : Bool := !c.isAlpha && !continuesNumeral c

/-- A scan that has read the tokens, last one first. It may still be inside the last
one, which then ends at the next character. -/
structure Holds (scan : Scan) (tokens : List Token) : Prop where
  finish : scan.finish = tokens
  step : ∀ c, delimits c = true → scan.step c = begin tokens c

theorem holds_between (tokens : List Token) : Holds ⟨.between, tokens⟩ tokens :=
  ⟨rfl, fun _ _ => rfl⟩

theorem holds_numeral {chars : List Char} {token : Token} (done : List Token)
    (read : .ofNumeral chars.reverse = token) (sound : token ≠ .fault) :
    Holds ⟨.numeral chars, done⟩ (token :: done) where
  finish := by rw [← read]; rfl
  step c ends := by
    obtain ⟨_, other⟩ := Bool.and_eq_true_iff.mp ends
    rw [Bool.not_eq_true'] at other
    simp [step, other, emitThen, read, sound]

theorem holds_word {chars : List Char} {token : Token} (done : List Token)
    (read : .ofWord chars.reverse = token) (sound : token ≠ .fault) :
    Holds ⟨.word chars, done⟩ (token :: done) where
  finish := by rw [← read]; rfl
  step c ends := by
    obtain ⟨other, _⟩ := Bool.and_eq_true_iff.mp ends
    rw [Bool.not_eq_true'] at other
    simp [step, other, emitThen, read, sound]

theorem begin_blank {c : Char} (blank : isBlank c = true) (done : List Token) :
    begin done c = ⟨.between, done⟩ := if_pos blank

theorem delimits_of_isBlank {c : Char} (blank : isBlank c = true) : delimits c = true := by
  simp only [isBlank, Bool.or_eq_true, decide_eq_true_eq] at blank
  rcases blank with ((rfl | rfl) | rfl) | rfl <;> decide

theorem begin_numeral {c : Char} (starts : c = '-' ∨ c.isDigit = true) (done : List Token) :
    begin done c = ⟨.numeral [c], done⟩ := by
  have blank : isBlank c = false := by
    rw [Bool.eq_false_iff]
    intro blank
    simp only [isBlank, Bool.or_eq_true, decide_eq_true_eq] at blank
    rcases blank with ((rfl | rfl) | rfl) | rfl <;> revert starts <;> decide
  have quote : c ≠ '"' := by
    rintro rfl
    revert starts
    decide
  simp [begin, blank, quote, starts]

theorem foldl_numeral {text : List Char} (digits : ∀ c ∈ text, c.isDigit = true)
    (chars : List Char) (done : List Token) :
    text.foldl step ⟨.numeral chars, done⟩ = ⟨.numeral (text.reverse ++ chars), done⟩ := by
  induction text generalizing chars with
  | nil => rfl
  | cons c rest ih =>
      have digit := digits c List.mem_cons_self
      have continues : step ⟨.numeral chars, done⟩ c = ⟨.numeral (c :: chars), done⟩ := by
        simp [step, continuesNumeral, digit]
      rw [List.foldl_cons, continues, ih fun c member => digits c (List.mem_cons_of_mem _ member)]
      simp

theorem holds_decimal (value : Int) (done : List Token) :
    Holds ((Token.decimal value).foldl step ⟨.between, done⟩) (.int value :: done) := by
  obtain ⟨first, rest, spelled, starts, digits⟩ := Token.decimal_eq_cons value
  have read := Token.ofNumeral_decimal value
  rw [spelled] at read ⊢
  have begun : step ⟨.between, done⟩ first = ⟨.numeral [first], done⟩ := begin_numeral starts done
  rw [List.foldl_cons, begun, foldl_numeral digits]
  apply holds_numeral
  · simpa using read
  · simp

theorem hexDigit?_hexDigit {digit : Nat} (below : digit < 16) :
    hexDigit? (Token.hexDigit digit) = some digit := by
  have all : ∀ digit < 16, hexDigit? (Token.hexDigit digit) = some digit := by decide
  exact all digit below

theorem pushUnit_control {c : Char} (control : c.toNat < 0x20) (chars : List Char) :
    (Quote.mk (some chars) none).pushUnit c.toNat = ⟨some (c :: chars), none⟩ := by
  have high : Quote.isHigh c.toNat = false := by
    simp [Quote.isHigh]
    omega
  have low : Quote.isLow c.toNat = false := by
    simp [Quote.isLow]
    omega
  simp [Quote.pushUnit, high, low, Quote.push]

theorem step_unit {c : Char} {digit : Nat} (read : hexDigit? c = some digit) (quote : Quote)
    (missing value : Nat) (done : List Token) :
    step ⟨.unit quote missing value, done⟩ c =
      if missing ≤ 1 then ⟨.quote (quote.pushUnit (16 * value + digit)), done⟩
      else ⟨.unit quote (missing - 1) (16 * value + digit), done⟩ := by
  simp [step, read]

theorem foldl_control {c : Char} (control : c.toNat < 0x20) (chars : List Char)
    (done : List Token) :
    ['\\', 'u', '0', '0', Token.hexDigit (c.toNat / 16), Token.hexDigit (c.toNat % 16)].foldl step
      ⟨.quote ⟨some chars, none⟩, done⟩ = ⟨.quote ⟨some (c :: chars), none⟩, done⟩ := by
  have opened : ['\\', 'u', '0', '0'].foldl step ⟨.quote ⟨some chars, none⟩, done⟩ =
      ⟨.unit ⟨some chars, none⟩ 2 0, done⟩ := rfl
  have high := step_unit (hexDigit?_hexDigit (show c.toNat / 16 < 16 by omega))
    ⟨some chars, none⟩ 2 0 done
  have low := step_unit (hexDigit?_hexDigit (show c.toNat % 16 < 16 by omega))
    ⟨some chars, none⟩ 1 (16 * 0 + c.toNat / 16) done
  -- The two zeros in front leave the value as it is.
  have whole : 16 * (16 * 0 + c.toNat / 16) + c.toNat % 16 = c.toNat := by omega
  rw [whole, pushUnit_control control] at low
  change [Token.hexDigit (c.toNat / 16), Token.hexDigit (c.toNat % 16)].foldl step
    (['\\', 'u', '0', '0'].foldl step ⟨.quote ⟨some chars, none⟩, done⟩) = _
  rw [opened, List.foldl_cons, high]
  exact low

theorem foldl_escape (c : Char) (chars : List Char) (done : List Token) :
    (Token.escape c).foldl step ⟨.quote ⟨some chars, none⟩, done⟩ =
      ⟨.quote ⟨some (c :: chars), none⟩, done⟩ := by
  unfold Token.escape
  split
  case h_8 quote backslash _ _ _ _ _ =>
    split
    · rename_i control
      exact foldl_control control chars done
    · rename_i printed
      change (if c = '"' then _ else if c = '\\' then _ else if c.toNat < 0x20 then _ else _) = _
      rw [if_neg quote, if_neg backslash, if_neg printed]
      rfl
  all_goals rfl

theorem foldl_content (content chars : List Char) (done : List Token) :
    (content.flatMap Token.escape).foldl step ⟨.quote ⟨some chars, none⟩, done⟩ =
      ⟨.quote ⟨some (content.reverse ++ chars), none⟩, done⟩ := by
  induction content generalizing chars with
  | nil => rfl
  | cons c rest ih =>
      rw [List.flatMap_cons, List.foldl_append, foldl_escape, ih]
      simp

theorem foldl_string (content : String) (done : List Token) :
    (Token.string (some content)).text.foldl step ⟨.between, done⟩ =
      ⟨.between, .string (some content) :: done⟩ := by
  change (content.toList.flatMap Token.escape ++ ['"']).foldl step ⟨.quote .empty, done⟩ = _
  rw [List.foldl_append, Quote.empty, foldl_content]
  simp [step, Quote.close]

theorem foldl_closed {token : Token} (plain : token.isPlain = true)
    (ended : token.isOpen = false) (done : List Token) :
    token.text.foldl step ⟨.between, done⟩ = ⟨.between, token :: done⟩ := by
  cases token with
  | string text =>
      cases text with
      | none => cases plain
      | some content => exact foldl_string content done
  | null | bool value | int value => cases ended
  | real literal | fault => cases plain
  | _ => rfl

theorem closed_text {token : Token} (plain : token.isPlain = true) (ended : token.isOpen = false) :
    ∃ first rest, token.text = first :: rest ∧ delimits first = true := by
  cases token with
  | string text =>
      cases text with
      | none => cases plain
      | some content => exact ⟨'"', _, rfl, by decide⟩
  | null | bool value | int value => cases ended
  | real literal | fault => cases plain
  | _ => exact ⟨_, [], rfl, by decide⟩

theorem holds_open {token : Token} (opened : token.isOpen = true) (done : List Token) :
    Holds (token.text.foldl step ⟨.between, done⟩) (token :: done) := by
  cases token with
  | null => exact holds_word done rfl (by decide)
  | bool value => cases value <;> exact holds_word done rfl (by decide)
  | int value => exact holds_decimal value done
  | _ => cases opened

/-- How a scan stands behind a token: it is inside of the last one only if the text of
this one does not show its end. -/
structure Behind (scan : Scan) (last : Token) (done : List Token) : Prop
    extends scan.Holds (last :: done) where
  ended : last.isOpen = false → scan = ⟨.between, last :: done⟩

theorem behind_between (last : Token) (done : List Token) :
    Behind ⟨.between, last :: done⟩ last done :=
  ⟨holds_between _, fun _ => rfl⟩

theorem behind_text {token : Token} (plain : token.isPlain = true) (done : List Token) :
    (token.text.foldl step ⟨.between, done⟩).Behind token done := by
  cases kind : token.isOpen with
  | true => exact ⟨holds_open kind done, fun ended => absurd kind (by simp [ended])⟩
  | false =>
      rw [foldl_closed plain kind]
      exact behind_between token done

namespace Behind
variable {scan : Scan} {last : Token} {done : List Token} (behind : scan.Behind last done)
include behind

theorem blanks {gap : List Char} (blank : ∀ c ∈ gap, isBlank c = true) :
    (gap.foldl Scan.step scan).Behind last done := by
  induction gap generalizing scan with
  | nil => exact behind
  | cons c rest ih =>
      have first := blank c List.mem_cons_self
      have skipped : scan.step c = ⟨.between, last :: done⟩ := by
        rw [behind.step c (delimits_of_isBlank first), begin_blank first]
      rw [List.foldl_cons, skipped]
      exact ih (behind_between last done) fun c member => blank c (List.mem_cons_of_mem _ member)

/-- A token that ends by itself is read whatever stands open before it. -/
theorem text {token : Token} (plain : token.isPlain = true)
    (apart : last.isOpen = false ∨ token.isOpen = false) :
    (token.text.foldl Scan.step scan).Behind token (last :: done) := by
  rcases apart with ended | closed
  · rw [behind.ended ended]
    exact behind_text plain _
  -- The first character of the new token ends the last one, and then begins its own.
  · obtain ⟨first, rest, spelled, delimiter⟩ := closed_text plain closed
    have alone := behind_text plain (last :: done)
    rw [spelled, List.foldl_cons] at alone ⊢
    rwa [behind.step first delimiter]

end Behind

end Scan

/-- Tokens whose texts can be read back: no two neighbours of them need something
between them to be told apart. -/
structure Token.Readable (tokens : List Token) : Prop where
  plain : ∀ token ∈ tokens, token.isPlain = true
  apart : tokens.IsChain fun first second => first.isOpen = false ∨ second.isOpen = false

section Layout
variable {gap : Nat → Token → Token → List Char}
  (blank : ∀ depth before after, ∀ c ∈ gap depth before after, Scan.isBlank c = true)
include blank

theorem finish_spread {scan : Scan} {last : Token} {done tokens : List Token}
    (behind : scan.Behind last done) (readable : Token.Readable (last :: tokens)) (depth : Nat) :
    ((spread gap depth last tokens).foldl Scan.step scan).finish =
      tokens.reverse ++ last :: done := by
  induction tokens generalizing scan last done depth with
  | nil => exact behind.finish
  | cons token rest ih =>
      obtain ⟨neighbours, later⟩ := List.isChain_cons_cons.mp readable.apart
      have remaining : ∀ other ∈ token :: rest, other.isPlain = true := fun other member =>
        readable.plain other (List.mem_cons_of_mem _ member)
      have here (outer : Nat) := (behind.blanks (blank outer last token)).text
        (remaining token List.mem_cons_self) neighbours
      rw [spread, List.foldl_append, List.foldl_append, ih (here _) ⟨remaining, later⟩]
      simp

theorem scan_layOut {tokens : List Token} (readable : Token.Readable tokens) :
    Token.scan (layOut gap tokens) = tokens := by
  cases tokens with
  | nil => rfl
  | cons first rest =>
      have here := Scan.behind_text (readable.plain first List.mem_cons_self) []
      rw [layOut, Token.scan, List.foldl_append, Scan.start, finish_spread blank here readable]
      simp

end Layout

end JoinEngine.Json
