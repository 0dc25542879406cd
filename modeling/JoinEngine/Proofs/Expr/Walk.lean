import JoinEngine.Proofs.Expr.Spelling

/-!
Scanning by byte offset. The walk goes through the bytes of a text, takes a word out of it
as the part between two offsets and names a stray character as the first one of the part
behind an offset; a lookup that finds nothing leaves it without a result. Every byte it
passes is an ASCII character of its own, so it stands on a boundary before each step, and
it finds what scanning the characters finds.
-/

namespace JoinEngine

/-- Computations on a text that may be refused with an error, and that have no result once
they look at something that is not there. -/
abbrev Guarded := ExceptT ParseError Option

@[simp] theorem Guarded.some_bind {Value Result : Type} (value : Value)
    (next : Value → Guarded Result) :
    (liftM (some value) : Guarded Value) >>= next = next value :=
  rfl

namespace Walk

def among (kind : Char → Bool) (byte : UInt8) : Bool :=
  (Text.ascii? byte).any kind

def wordEnd (source : String) (position : Nat) : Option { last // position ≤ last } :=
  if _ : position < source.utf8ByteSize then do
    let byte ← Text.byteAt? source position
    if among Lexeme.continuesWord byte then
      let ⟨last, behind⟩ ← wordEnd source (position + 1)
      return ⟨last, Nat.le_of_succ_le behind⟩
    else
      return ⟨position, Nat.le_refl position⟩
  else
    return ⟨position, Nat.le_refl position⟩
termination_by source.utf8ByteSize - position

/-- The lexemes from an offset on, behind those that are done, the last of them first. -/
def lexemes (source : String) (position : Nat) (done : List Lexeme) : Guarded (List Lexeme) :=
  if _ : position < source.utf8ByteSize then do
    let byte ← Text.byteAt? source position
    if among Lexeme.isBlank byte then
      lexemes source (position + 1) done
    else if done.length = tokenLimit then
      throw ⟨position, .tooLong⟩
    else match (Text.ascii? byte).bind Token.sign? with
      | some token => lexemes source (position + 1) (⟨position, token⟩ :: done)
      | none =>
          if among Lexeme.startsWord byte then
            -- The letter that begins the word is behind already.
            let ⟨last, _⟩ ← wordEnd source (position + 1)
            let letters ← Text.slice? source position last
            lexemes source last (⟨position, .word letters⟩ :: done)
          else
            let rest ← Text.slice? source position source.utf8ByteSize
            throw ⟨position, .strayCharacter (rest.headD '?')⟩
  else
    return done.reverse
termination_by source.utf8ByteSize - position

def scan (source : String) : Guarded (List Lexeme) :=
  lexemes source 0 []

end Walk

namespace Lexeme
variable {c : Char}

theorem Blank.single (between : Blank c) : c.utf8Size = 1 := by
  rcases between with rfl | rfl | rfl | rfl <;> rfl

theorem WordCharacter.single (continues : WordCharacter c) : c.utf8Size = 1 := by
  have last : c ≤ 'z' := by
    rcases continues with (⟨_, upper⟩ | ⟨_, lower⟩ | rfl) | ⟨_, digit⟩
    · exact upper.trans (by decide)
    · exact lower
    · decide
    · exact digit.trans (by decide)
  have small : 'z'.val ≤ 127 := by decide
  exact Char.utf8Size_eq_one_iff.mpr (UInt32.le_trans last small)

end Lexeme

theorem Token.Sign.single {c : Char} {token : Token} (sign : Sign c token) : c.utf8Size = 1 := by
  cases sign <;> rfl

namespace Scan
open Lexeme

def resume (scan : Scan) (text : List Char) : Except ParseError (List Lexeme) := do
  let final ← text.foldlM step scan
  return final.closed.reverse

theorem resume_cons (scan : Scan) (c : Char) (rest : List Char) :
    scan.resume (c :: rest) = step scan c >>= fun next => next.resume rest := by
  rw [resume, List.foldlM_cons, bind_assoc]
  rfl

theorem resume_word {position start : Nat} {letters more rest : List Char} {done : List Lexeme}
    (continues : ∀ c ∈ more, WordCharacter c) (longest : ∀ c ∈ rest.head?, ¬ WordCharacter c) :
    resume ⟨position, some (start, letters), done⟩ (more ++ rest) =
      resume ⟨position + Text.byteLength more, none,
        ⟨start, .word (letters.reverse ++ more)⟩ :: done⟩ rest := by
  have held : resume ⟨position, some (start, letters), done⟩ (more ++ rest) =
      resume ⟨position + Text.byteLength more, some (start, more.reverse ++ letters), done⟩
        rest := by
    rw [resume, List.foldlM_append, run_word continues]
    rfl
  rw [held]
  cases rest with
  | nil => simp [resume, closed]
  | cons c tail =>
      rw [resume_cons, step_behind (longest c rfl), ← resume_cons, List.reverse_append,
        List.reverse_reverse]

end Scan

namespace Walk
open Lexeme
variable {source : String} {front rest : List Char} {c : Char}

theorem among_lead {kind : Char → Bool} (single : kind c = true → c.utf8Size = 1) :
    among kind (Text.lead c) = kind c := by
  unfold among
  by_cases one : c.utf8Size = 1
  · rw [Text.ascii?_lead_of_single one]
    rfl
  · rw [Text.ascii?_lead_of_wide one]
    exact (Bool.eq_false_iff.mpr (mt single one)).symm

@[simp] theorem sign?_lead (c : Char) :
    (Text.ascii? (Text.lead c)).bind Token.sign? = Token.sign? c := by
  by_cases one : c.utf8Size = 1
  · rw [Text.ascii?_lead_of_single one]
    rfl
  · rw [Text.ascii?_lead_of_wide one]
    exact ((Token.sign?_eq_none c).mpr fun token sign => one sign.single).symm

@[simp] theorem among_isBlank (c : Char) : among isBlank (Text.lead c) = isBlank c :=
  among_lead fun between => ((isBlank_iff c).mp between).single

@[simp] theorem among_startsWord (c : Char) : among startsWord (Text.lead c) = startsWord c :=
  among_lead fun begins => WordCharacter.single (.inl ((startsWord_iff c).mp begins))

@[simp] theorem among_continuesWord (c : Char) :
    among continuesWord (Text.lead c) = continuesWord c :=
  among_lead fun continues => ((continuesWord_iff c).mp continues).single

/-- From a boundary on the end of a word is found, and it is a boundary again. -/
theorem wordEnd_eq {more : List Char} {position : Nat} (stands : position = Text.byteLength front)
    (parts : source.toList = front ++ more ++ rest) (continues : ∀ c ∈ more, WordCharacter c)
    (longest : ∀ c ∈ rest.head?, ¬ WordCharacter c) :
    ∃ found, wordEnd source position = some found ∧
      found.val = Text.byteLength (front ++ more) := by
  induction more generalizing front position with
  | nil =>
      subst stands
      rw [List.append_nil] at parts ⊢
      refine ⟨⟨_, Nat.le_refl _⟩, ?_, rfl⟩
      rw [wordEnd]
      cases rest with
      | nil =>
          rw [dif_neg (Text.byteLength_not_lt (parts.trans (List.append_nil front)))]
          rfl
      | cons c tail =>
          have stops : continuesWord c = false := by
            rw [← Bool.not_eq_true, continuesWord_iff]
            exact longest c rfl
          rw [dif_pos (Text.byteLength_lt parts), Text.byteAt?_front parts]
          simp [stops]
  | cons c tail ih =>
      obtain ⟨first, others⟩ := List.forall_mem_cons.mp continues
      have next : position + 1 = Text.byteLength (front ++ [c]) := by
        rw [Text.byteLength_concat, first.single, stands]
      obtain ⟨⟨last, behind⟩, found, same⟩ := ih next (by simpa using parts) others
      subst stands
      rw [List.append_assoc] at parts
      refine ⟨⟨last, Nat.le_of_succ_le behind⟩, ?_, by simpa using same⟩
      rw [wordEnd, dif_pos (Text.byteLength_lt parts), Text.byteAt?_front parts]
      simp [(continuesWord_iff c).mpr first, found]

section Steps
variable {done : List Lexeme} (parts : source.toList = front ++ c :: rest)
include parts

theorem lexemes_refused {error : ParseError} (room : done.length ≤ tokenLimit)
    (refused : Scan.begin (Text.byteLength front) done c = .error error) :
    lexemes source (Text.byteLength front) done = throw error := by
  rw [lexemes, dif_pos (Text.byteLength_lt parts), Text.byteAt?_front parts]
  cases Scan.begin_refuses refused with
  | tooLong filled full =>
      have blank : isBlank c = false := by rwa [← Bool.not_eq_true, isBlank_iff]
      simp [blank, Nat.le_antisymm room full]
  | stray more alone =>
      obtain ⟨filled, notLetter, notSign⟩ := alone
      have blank : isBlank c = false := by rwa [← Bool.not_eq_true, isBlank_iff]
      have letter : startsWord c = false := by rwa [← Bool.not_eq_true, startsWord_iff]
      have sign : Token.sign? c = none := (Token.sign?_eq_none c).mpr notSign
      simp [blank, letter, sign, Nat.ne_of_lt more, Text.slice?_behind parts]

theorem lexemes_begins {next : Scan}
    (begins : Scan.Begins (Text.byteLength front) done c next) (outside : next.held = none) :
    lexemes source (Text.byteLength front) done = lexemes source next.position next.done := by
  rw [lexemes, dif_pos (Text.byteLength_lt parts), Text.byteAt?_front parts]
  cases begins with
  | blank between => simp [(isBlank_iff c).mpr between, between.single]
  | sign room single =>
      have notBlank := (Scan.sign_apart single).1
      simp [notBlank, single.single, Nat.ne_of_lt room, (Token.sign?_eq_some c _).mpr single]
  | letter room begins => cases outside

end Steps

theorem lexemes_word {more : List Char} {done : List Lexeme}
    (parts : source.toList = front ++ (c :: more) ++ rest) (room : done.length < tokenLimit)
    (begins : Letter c) (continues : ∀ c ∈ more, WordCharacter c)
    (longest : ∀ c ∈ rest.head?, ¬ WordCharacter c) :
    lexemes source (Text.byteLength front) done =
      lexemes source (Text.byteLength (front ++ c :: more))
        (⟨Text.byteLength front, .word (c :: more)⟩ :: done) := by
  have next : Text.byteLength front + 1 = Text.byteLength (front ++ [c]) := by
    rw [Text.byteLength_concat, WordCharacter.single (.inl begins)]
  obtain ⟨⟨last, behind⟩, found, same⟩ :=
    wordEnd_eq next (by simpa using parts) continues longest
  have notSign : Token.sign? c = none := by
    refine (Token.sign?_eq_none c).mpr fun token sign => ?_
    have apart := (Scan.sign_apart sign).2
    rw [(startsWord_iff c).mpr begins] at apart
    cases apart
  have cut := Text.slice?_between parts
  obtain rfl : last = Text.byteLength (front ++ c :: more) := by simpa using same
  rw [List.append_assoc] at parts
  rw [lexemes, dif_pos (Text.byteLength_lt parts), Text.byteAt?_front parts]
  simp [Scan.letter_apart begins, (startsWord_iff c).mpr begins, notSign, Nat.ne_of_lt room, found,
    cut]

theorem exists_word (text : List Char) : ∃ letters rest, text = letters ++ rest ∧
    (∀ c ∈ letters, WordCharacter c) ∧ ∀ c ∈ rest.head?, ¬ WordCharacter c := by
  refine ⟨text.takeWhile continuesWord, text.dropWhile continuesWord,
    List.takeWhile_append_dropWhile.symm, fun c member => ?_, fun c first => ?_⟩
  · exact (continuesWord_iff c).mp (List.mem_takeWhile_imp member)
  · have stops := List.head?_dropWhile_not continuesWord text
    rw [Option.mem_def.mp first] at stops
    rw [← continuesWord_iff, Bool.not_eq_true]
    exact stops

/-- The walk from a boundary on finds what a scan of the characters behind it finds. -/
theorem lexemes_eq {done : List Lexeme} (parts : source.toList = front ++ rest)
    (room : done.length ≤ tokenLimit) :
    (lexemes source (Text.byteLength front) done).run =
      some (Scan.resume ⟨Text.byteLength front, none, done⟩ rest) := by
  -- A step leaves less of the text, one character or a word.
  induction size : rest.length using Nat.strongRecOn generalizing front rest done with
  | ind size ih =>
      subst size
      cases rest with
      | nil =>
          rw [lexemes, dif_neg (Text.byteLength_not_lt (parts.trans (List.append_nil front)))]
          rfl
      | cons c tail =>
          have fits : source.toList = front ++ [c] ++ tail := by simpa using parts
          rw [Scan.resume_cons]
          cases begun : Scan.step ⟨Text.byteLength front, none, done⟩ c with
          | error error =>
              rw [lexemes_refused parts room begun]
              rfl
          | ok next =>
              change _ = some (next.resume tail)
              cases Scan.step_outside.mp begun with
              | blank between =>
                  rw [lexemes_begins parts (.blank between) rfl, ← Text.byteLength_concat]
                  exact ih tail.length (Nat.lt_succ_self _) fits room rfl
              | sign more single =>
                  rw [lexemes_begins parts (.sign more single) rfl, ← Text.byteLength_concat]
                  exact ih tail.length (Nat.lt_succ_self _) fits more rfl
              | letter more begins =>
                  obtain ⟨letters, behind, rfl, continues, longest⟩ := exists_word tail
                  have cut : source.toList = front ++ (c :: letters) ++ behind := by
                    simpa using parts
                  rw [lexemes_word cut more begins continues longest,
                    Scan.resume_word continues longest, Nat.add_assoc, ← Text.byteLength_cons,
                    ← Text.byteLength_append]
                  have shorter : behind.length < (c :: (letters ++ behind)).length := by
                    rw [List.length_cons, List.length_append]
                    omega
                  exact ih behind.length shorter cut more rfl

theorem scan_eq (source : String) : (scan source).run = some (Lexeme.scan source.toList) :=
  lexemes_eq (List.nil_append source.toList).symm (Nat.zero_le tokenLimit)

end Walk

end JoinEngine
