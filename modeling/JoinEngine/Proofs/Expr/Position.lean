import JoinEngine.Proofs.Expr.Descent

/-!
Where reading stops. Wherever a reader stands it can be brought to an accepted end: a
symbol where a term is wanted, then the parentheses that are open. So the tokens that
a reader can move over are the beginnings of what the grammar accepts, and a token it
refuses continues none of them.
-/

namespace JoinEngine

def Accepted (vocabulary : Vocabulary) (tokens : List Token) : Prop :=
  ∃ tree, Derives vocabulary .sum 64 tokens tree

/-- Something that is accepted begins with the tokens. -/
def Viable (vocabulary : Vocabulary) (tokens : List Token) : Prop :=
  ∃ more, Accepted vocabulary (tokens ++ more)

variable {vocabulary : Vocabulary} {tokens : List Token}

theorem Accepted.viable (accepted : Accepted vocabulary tokens) : Viable vocabulary tokens :=
  ⟨[], by rwa [List.append_nil]⟩

theorem Viable.take (viable : Viable vocabulary tokens) (count : Nat) :
    Viable vocabulary (tokens.take count) := by
  obtain ⟨more, accepted⟩ := viable
  refine ⟨tokens.drop count ++ more, ?_⟩
  rwa [← List.append_assoc, List.take_append_drop]

theorem Viable.fewer {few many : Nat} (viable : Viable vocabulary (tokens.take many))
    (fewer : few ≤ many) : Viable vocabulary (tokens.take few) := by
  have shorter := viable.take few
  rwa [List.take_take, Nat.min_eq_left fewer] at shorter

/-- What is not accepted yet goes on behind its last token. -/
theorem Viable.exists_more (viable : Viable vocabulary tokens)
    (short : ¬ Accepted vocabulary tokens) :
    ∃ more, more ≠ [] ∧ Accepted vocabulary (tokens ++ more) := by
  obtain ⟨more, accepted⟩ := viable
  refine ⟨more, ?_, accepted⟩
  rintro rfl
  rw [List.append_nil] at accepted
  exact short accepted

namespace Reader

theorem Reads.split {before after : Reader} {left right : List Token}
    (reads : Reads vocabulary before (left ++ right) after) :
    ∃ middle, Reads vocabulary before left middle ∧ Reads vocabulary middle right after := by
  induction left generalizing before with
  | nil => exact ⟨before, .none before, reads⟩
  | cons token rest ih =>
      cases reads with
      | next moves others =>
          obtain ⟨middle, first, second⟩ := ih others
          exact ⟨middle, .next moves first, second⟩

/-- Behind a term the open parentheses can be closed, one after the other. -/
theorem holding_completes (term : Expr) (level : Level) (outer : List Level) :
    ∃ more last final,
      Reads vocabulary (holding term level outer) more (holding last final []) := by
  induction outer generalizing term level with
  | nil => exact ⟨[], term, level, .none _⟩
  | cons around rest ih =>
      obtain ⟨more, last, final, reads⟩ :=
        ih (Level.negated around.minuses (level.total term)) around
      exact ⟨.rparen :: more, last, final, .next (.closes term level around rest) reads⟩

theorem completes (reader : Reader) :
    ∃ more last final, Reads vocabulary reader more (holding last final []) := by
  cases reader with
  | holding term level outer => exact holding_completes term level outer
  | wanting level outer =>
      -- A symbol takes no nesting, so it fits even where the limit is reached.
      obtain ⟨⟨letters, name⟩, named⟩ : ∃ entry, entry ∈ vocabulary.table :=
        List.exists_mem_of_ne_nil _ (by cases vocabulary <;> decide)
      have moves : Moves vocabulary (wanting level outer) (.word letters) _ := .symbol named
      obtain ⟨more, last, final, reads⟩ :=
        holding_completes (Level.negated level.minuses (.symbol name)) level outer
      exact ⟨.word letters :: more, last, final, .next moves reads⟩

theorem accepted_iff_reads :
    Accepted vocabulary tokens ↔
      ∃ last level, Reads vocabulary start tokens (holding last level []) := by
  constructor
  · rintro ⟨tree, derived⟩
    obtain ⟨last, level, reads, _⟩ := derives_iff_reads.mp derived
    exact ⟨last, level, reads⟩
  · rintro ⟨last, level, reads⟩
    exact ⟨level.total last, derives_iff_reads.mpr ⟨last, level, reads, rfl⟩⟩

/-- The tokens that can be read are those that something accepted begins with. -/
theorem viable_iff_reads :
    Viable vocabulary tokens ↔ ∃ reader, Reads vocabulary start tokens reader := by
  constructor
  · rintro ⟨more, accepted⟩
    obtain ⟨last, level, reads⟩ := accepted_iff_reads.mp accepted
    obtain ⟨reader, front, _⟩ := reads.split
    exact ⟨reader, front⟩
  · rintro ⟨reader, reads⟩
    obtain ⟨more, last, level, others⟩ := reader.completes
    exact ⟨more, accepted_iff_reads.mpr ⟨last, level, reads.append others⟩⟩

theorem Reads.unique {before after other : Reader} (reads : Reads vocabulary before tokens after)
    (again : Reads vocabulary before tokens other) : after = other := by
  have spelled : tokens = (tokens.map (Lexeme.mk 0)).map Lexeme.token := by
    rw [List.map_map]
    exact (List.map_id tokens).symm
  rw [spelled] at reads again
  have same := (run_reads.mpr reads).symm.trans (run_reads.mpr again)
  cases same
  rfl

section Refusals
variable {lexeme : Lexeme} {error : ParseError} {reader : Reader}

theorem want_refused {level : Level} {outer : List Level}
    (refused : want vocabulary level outer lexeme = .error error) :
    error.position = lexeme.position := by
  unfold want at refused
  split at refused
  · split at refused <;> cases refused
    rfl
  · split at refused <;> cases refused
    rfl
  · split at refused <;> cases refused
    rfl
  · cases refused
    rfl

theorem follow_refused {term : Expr} {level : Level} {outer : List Level}
    (refused : follow term level outer lexeme = .error error) :
    error.position = lexeme.position := by
  unfold follow at refused
  split at refused
  · split at refused <;> cases refused
    rfl
  · cases refused
  · cases refused
  · split at refused <;> cases refused
    rfl
  · split at refused <;> cases refused <;> rfl

theorem step_refused (refused : step vocabulary reader lexeme = .error error) :
    error.position = lexeme.position := by
  cases reader with
  | wanting level outer => exact want_refused refused
  | holding term level outer => exact follow_refused refused

/-- A lexeme that is refused behind others continues nothing that begins with them. -/
theorem not_viable_of_refused (reads : Reads vocabulary start tokens reader)
    (refused : step vocabulary reader lexeme = .error error) :
    ¬ Viable vocabulary (tokens ++ [lexeme.token]) := by
  intro viable
  obtain ⟨after, longer⟩ := viable_iff_reads.mp viable
  obtain ⟨middle, front, last⟩ := longer.split
  cases reads.unique front
  cases last with
  | next moves rest =>
      rw [step_moves.mpr moves] at refused
      cases refused

theorem finish_refused {position : Nat} (reads : Reads vocabulary start tokens reader)
    (refused : reader.finish position = .error error) :
    error.position = position ∧ ¬ Accepted vocabulary tokens := by
  constructor
  · unfold finish at refused
    split at refused <;> cases refused <;> rfl
  · intro accepted
    obtain ⟨last, level, whole⟩ := accepted_iff_reads.mp accepted
    cases reads.unique whole
    cases refused

end Refusals

/-- A failed reading names the first lexeme that continues nothing, or the end if all of
them may be continued. -/
theorem read_eq_error {position : Nat} {lexemes : List Lexeme} {error : ParseError}
    (failed : read vocabulary position lexemes = .error error) :
    (∃ index lexeme, lexemes[index]? = some lexeme ∧ error.position = lexeme.position ∧
      Viable vocabulary ((lexemes.map Lexeme.token).take index) ∧
      ¬ Viable vocabulary ((lexemes.map Lexeme.token).take (index + 1))) ∨
    (error.position = position ∧ ¬ Accepted vocabulary (lexemes.map Lexeme.token) ∧
      Viable vocabulary (lexemes.map Lexeme.token)) := by
  unfold read at failed
  simp only [← List.map_take]
  rcases Except.bind_eq_error.mp failed with stopped | ⟨reader, run, ended⟩
  · obtain ⟨front, lexeme, back, middle, rfl, run, refused⟩ := Except.foldlM_eq_error.mp stopped
    have reads := run_reads.mp run
    refine .inl ⟨front.length, lexeme, by simp, step_refused refused, ?_, ?_⟩
    · rw [List.take_left]
      exact viable_iff_reads.mpr ⟨middle, reads⟩
    · rw [List.take_length_add_append, List.map_append]
      exact not_viable_of_refused reads refused
  · have reads := run_reads.mp run
    obtain ⟨place, short⟩ := finish_refused reads ended
    exact .inr ⟨place, short, viable_iff_reads.mpr ⟨reader, reads⟩⟩

theorem read_fails {position : Nat} {lexemes : List Lexeme}
    (short : ¬ Accepted vocabulary (lexemes.map Lexeme.token)) :
    ∃ error, read vocabulary position lexemes = .error error := by
  apply Except.exists_error_iff.mpr
  rintro ⟨tree, accepted⟩
  exact short ⟨tree, read_eq_ok.mp accepted⟩

section Positions
variable {text : List Char} {lexemes : List Lexeme} (spelled : Lexeme.Spells 0 text lexemes)
include spelled

theorem read_error_at_lexeme {index : Nat} {lexeme : Lexeme}
    (listed : lexemes[index]? = some lexeme) :
    (∃ fault, read vocabulary (Text.byteLength text) lexemes = .error ⟨lexeme.position, fault⟩) ↔
      Viable vocabulary ((lexemes.map Lexeme.token).take index) ∧
        ¬ Viable vocabulary ((lexemes.map Lexeme.token).take (index + 1)) := by
  constructor
  · rintro ⟨fault, failed⟩
    rcases read_eq_error failed with ⟨other, same, again, place, viable, impossible⟩ | ⟨ended, _⟩
    · cases spelled.index_unique listed again place
      exact ⟨viable, impossible⟩
    · have below := spelled.within lexeme (List.mem_of_getElem? listed)
      simp only at ended
      omega
  · rintro ⟨viable, impossible⟩
    have refused : ¬ Accepted vocabulary (lexemes.map Lexeme.token) := fun accepted =>
      impossible (accepted.viable.take (index + 1))
    obtain ⟨⟨position, fault⟩, failed⟩ := read_fails refused
    rcases read_eq_error failed with ⟨other, same, again, place, before, behind⟩ | ⟨_, _, whole⟩
    · -- Both are the last index up to which the tokens are viable.
      have least : ¬ index < other := fun less => impossible (before.fewer less)
      have most : ¬ other < index := fun less => behind (viable.fewer less)
      obtain rfl : index = other := by omega
      rw [listed] at again
      cases again
      cases place
      exact ⟨fault, failed⟩
    · exact absurd (whole.take (index + 1)) impossible

theorem read_error_at_end :
    (∃ fault, read vocabulary (Text.byteLength text) lexemes =
        .error ⟨Text.byteLength text, fault⟩) ↔
      ¬ Accepted vocabulary (lexemes.map Lexeme.token) ∧
        Viable vocabulary (lexemes.map Lexeme.token) := by
  constructor
  · rintro ⟨fault, failed⟩
    rcases read_eq_error failed with ⟨other, lexeme, listed, place, _⟩ | ⟨_, unfinished⟩
    · have below := spelled.within lexeme (List.mem_of_getElem? listed)
      simp only at place
      omega
    · exact unfinished
  · rintro ⟨refused, viable⟩
    obtain ⟨⟨position, fault⟩, failed⟩ := read_fails refused
    rcases read_eq_error failed with ⟨other, lexeme, listed, place, _, behind⟩ | ⟨ended, _⟩
    · exact absurd (viable.take (other + 1)) behind
    · cases ended
      exact ⟨fault, failed⟩

end Positions

end Reader

/-- An error stands where the text stops being the beginning of an expression: at the
first lexeme that continues nothing, or at the end of a text that is unfinished. -/
theorem parse_stops_at_first_impossible (vocabulary : Vocabulary) (source : String)
    (lexemes : List Lexeme) (spelled : Lexeme.Spells 0 source.toList lexemes)
    (short : lexemes.length ≤ 256) :
    (∀ error, Expr.parse vocabulary source = .error error →
      error.position = Text.byteLength source.toList ∨
        ∃ lexeme ∈ lexemes, error.position = lexeme.position) ∧
    (∀ index lexeme, lexemes[index]? = some lexeme →
      ((∃ fault, Expr.parse vocabulary source = .error ⟨lexeme.position, fault⟩) ↔
        Viable vocabulary ((lexemes.map Lexeme.token).take index) ∧
          ¬ Viable vocabulary ((lexemes.map Lexeme.token).take (index + 1)))) ∧
    ((∃ fault, Expr.parse vocabulary source = .error ⟨Text.byteLength source.toList, fault⟩) ↔
      ¬ Accepted vocabulary (lexemes.map Lexeme.token) ∧
        ∃ more, more ≠ [] ∧ Accepted vocabulary (lexemes.map Lexeme.token ++ more)) := by
  have parsed : Expr.parse vocabulary source =
      Reader.read vocabulary (Text.byteLength source.toList) lexemes := by
    rw [Expr.parse, Lexeme.scan_eq_ok.mpr ⟨spelled, short⟩]
    rfl
  rw [parsed]
  refine ⟨fun error failed => ?_, fun index lexeme listed =>
    Reader.read_error_at_lexeme spelled listed, ?_⟩
  · rcases Reader.read_eq_error failed with ⟨index, lexeme, listed, place, _⟩ | ⟨ended, _⟩
    · exact .inr ⟨lexeme, List.mem_of_getElem? listed, place⟩
    · exact .inl ended
  · rw [Reader.read_error_at_end spelled]
    constructor
    · rintro ⟨refused, viable⟩
      exact ⟨refused, viable.exists_more refused⟩
    · rintro ⟨refused, more, _, accepted⟩
      exact ⟨refused, more, accepted⟩

/-- A product of three factors inside parentheses: up to its second star the text can
still become an expression. -/
theorem second_star_impossible :
    let lexemes : List Lexeme :=
      [⟨0, .word ['c', '1']⟩, ⟨2, .star⟩, ⟨3, .lparen⟩, ⟨4, .minus⟩, ⟨5, .word ['c', '2']⟩,
        ⟨7, .star⟩, ⟨8, .word ['c', '3']⟩, ⟨11, .star⟩, ⟨12, .word ['c', '4']⟩, ⟨14, .rparen⟩]
    let tokens := lexemes.map Lexeme.token
    Lexeme.Spells 0 "c1*(-c2*c3 *c4)".toList lexemes ∧ lexemes.length ≤ 256 ∧
      lexemes[7]? = some ⟨11, .star⟩ ∧
      Expr.parse .expression "c1*(-c2*c3 *c4)" = .error ⟨11, .thirdFactor⟩ ∧
      Viable .expression (tokens.take 7) ∧ ¬ Viable .expression (tokens.take 8) := by
  intro lexemes tokens
  have scanned : Lexeme.scan "c1*(-c2*c3 *c4)".toList = .ok lexemes := by decide
  obtain ⟨spelled, short⟩ := Lexeme.scan_eq_ok.mp scanned
  have listed : lexemes[7]? = some ⟨11, .star⟩ := rfl
  have failed : Expr.parse .expression "c1*(-c2*c3 *c4)" = .error ⟨11, .thirdFactor⟩ := by decide
  have stops := (parse_stops_at_first_impossible .expression "c1*(-c2*c3 *c4)" lexemes spelled
    short).2.1 7 ⟨11, .star⟩ listed
  exact ⟨spelled, short, listed, failed, stops.mp ⟨.thirdFactor, failed⟩⟩

end JoinEngine

/-!
Where errors stand. Scanning stops at a character that is not blank, reading at a lexeme or
at the end, so an error never stands inside a character. Together with the walk over bytes
and the descent over indices this is what makes parsing safe on every text.
-/

namespace JoinEngine

theorem Token.Sign.filled {c : Char} {token : Token} (single : Sign c token) :
    ¬ Lexeme.Blank c := by
  rw [← Lexeme.isBlank_iff, (Scan.sign_apart single).1]
  exact Bool.false_ne_true

namespace Lexeme

def StartsIn (text : List Char) (place : Nat) : Prop :=
  ∃ front back lexemes token, text = front ++ back ∧ Spells 0 front lexemes ∧
    ⟨place, token⟩ ∈ lexemes

/-- A character that is not blank starts at `place`, in a text that starts at `position`. -/
def FilledAt (position : Nat) (text : List Char) (place : Nat) : Prop :=
  ∃ front c back, text = front ++ c :: back ∧ place = position + Text.byteLength front ∧ ¬ Blank c

variable {position place : Nat} {text : List Char} {lexemes : List Lexeme} {c : Char}

theorem FilledAt.head (filled : ¬ Blank c) : FilledAt position (c :: text) position :=
  ⟨[], c, text, rfl, rfl, filled⟩

theorem FilledAt.behind (before : List Char)
    (later : FilledAt (position + Text.byteLength before) text place) :
    FilledAt position (before ++ text) place := by
  obtain ⟨front, c, back, rfl, rfl, filled⟩ := later
  refine ⟨before ++ front, c, back, (List.append_assoc _ _ _).symm, ?_, filled⟩
  rw [Text.byteLength_append, Nat.add_assoc]

theorem Letter.filled (begins : Letter c) : ¬ Blank c := by
  rw [← isBlank_iff, Scan.letter_apart begins]
  exact Bool.false_ne_true

theorem Spells.filled (spelled : Spells position text lexemes) :
    ∀ lexeme ∈ lexemes, FilledAt position text lexeme.position := by
  induction spelled with
  | nothing position => exact fun _ absent => absurd absent List.not_mem_nil
  | @blank position c text lexemes between rest ih =>
      rw [← Text.byteLength_singleton] at ih
      exact fun lexeme member => .behind [c] (ih lexeme member)
  | @sign position c token text lexemes single rest ih =>
      rw [← Text.byteLength_singleton] at ih
      exact List.forall_mem_cons.mpr
        ⟨.head single.filled, fun lexeme member => .behind [c] (ih lexeme member)⟩
  | @word position first more text lexemes begins continues longest rest ih =>
      exact List.forall_mem_cons.mpr
        ⟨.head begins.filled, fun lexeme member => .behind (first :: more) (ih lexeme member)⟩

end Lexeme

namespace Scan
open Lexeme
variable {scan next middle : Scan} {c : Char} {text front : List Char} {error : ParseError}

theorem step_position (moved : step scan c = .ok next) :
    next.position = scan.position + c.utf8Size := by
  rcases step_cases moved with ⟨start, letters, _, _, rfl⟩ | ⟨_, begins⟩
  · rfl
  · cases begins <;> rfl

theorem run_position (run : text.foldlM step scan = .ok next) :
    next.position = scan.position + Text.byteLength text := by
  induction text generalizing scan with
  | nil =>
      cases run
      rfl
  | cons c rest ih =>
      rw [List.foldlM_cons] at run
      obtain ⟨middle, moved, others⟩ := Except.bind_eq_ok.mp run
      rw [ih others, step_position moved, Text.byteLength_cons, Nat.add_assoc]

/-- A character is refused outside words only. -/
theorem step_refuses (refused : step scan c = .error error) :
    Refuses scan.position scan.closed c error ∧ (scan.held ≠ none → ¬ WordCharacter c) := by
  obtain ⟨position, held, done⟩ := scan
  cases held with
  | none => exact ⟨begin_refuses refused, fun absent => absurd rfl absent⟩
  | some word =>
      have behind : ¬ WordCharacter c := by
        intro continues
        rw [step_inside continues] at refused
        cases refused
      rw [step_behind behind] at refused
      exact ⟨begin_refuses refused, fun _ => behind⟩

/-- A token that one character begins outside words is a lexeme of the text. -/
theorem startsIn_of_run {token : Token} {back : List Char}
    (run : front.foldlM step start = .ok middle)
    (behind : middle.held ≠ none → ¬ WordCharacter c)
    (spelled : Spells middle.position [c] [⟨middle.position, token⟩]) :
    StartsIn (front ++ c :: back) middle.position := by
  have outside : middle.held ≠ none → ∀ d ∈ [c].head?, ¬ WordCharacter d := by simpa using behind
  obtain ⟨lexemes, later, equal⟩ := adds_of_spells outside spelled
  obtain ⟨added, whole, same⟩ := run_extends run later
  refine ⟨front ++ [c], back, added, token, by simp, whole, ?_⟩
  have all : added = middle.closed.reverse ++ [⟨middle.position, token⟩] := same.trans equal
  rw [all]
  exact List.mem_append_right _ (List.mem_singleton_self _)

end Scan

/-- A failed scan stops at a character that is not blank: the first one of a lexeme that is
one too many, or one that begins no lexeme. -/
theorem Lexeme.scan_eq_error {text : List Char} {error : ParseError}
    (failed : scan text = .error error) :
    ∃ front c back, text = front ++ c :: back ∧ error.position = Text.byteLength front ∧
      ¬ Blank c ∧ (StartsIn text error.position ∨
        Stray c ∧ (error.fault = .strayCharacter c ∨ error.fault = .tooLong)) := by
  unfold scan at failed
  rcases Except.bind_eq_error.mp failed with stopped | ⟨final, _, impossible⟩
  · obtain ⟨front, c, back, middle, rfl, run, refused⟩ := Except.foldlM_eq_error.mp stopped
    obtain ⟨refuses, behind⟩ := Scan.step_refuses refused
    have stands : middle.position = Text.byteLength front :=
      (Scan.run_position run).trans (Nat.zero_add _)
    refine ⟨front, c, back, rfl, ?_⟩
    cases refuses with
    | stray room alone => exact ⟨stands, alone.1, .inr ⟨alone, .inl rfl⟩⟩
    | tooLong filled full =>
        refine ⟨stands, filled, ?_⟩
        -- Past the limit the character is not looked at any more.
        by_cases letter : Letter c
        · have spelled : Spells middle.position [c] [⟨middle.position, .word [c]⟩] :=
            @Spells.word _ c [] [] [] letter (by simp) (by simp) (.nothing _)
          exact .inl (Scan.startsIn_of_run run behind spelled)
        · by_cases sign : ∃ token, Token.Sign c token
          · obtain ⟨token, single⟩ := sign
            exact .inl (Scan.startsIn_of_run run behind (.sign single (.nothing _)))
          · exact .inr ⟨⟨filled, letter, fun token single => sign ⟨token, single⟩⟩, .inr rfl⟩
  · cases impossible

def Expr.parseGuarded (vocabulary : Vocabulary) (source : String) : Guarded Expr := do
  let lexemes ← Walk.scan source
  Descent.read vocabulary lexemes source.utf8ByteSize

theorem Expr.parseGuarded_eq (vocabulary : Vocabulary) (source : String) :
    (parseGuarded vocabulary source).run = some (parse vocabulary source) := by
  have walked := Walk.scan_eq source
  unfold parseGuarded parse
  change Walk.scan source = _ at walked
  rw [walked]
  cases Lexeme.scan source.toList with
  | error error => rfl
  | ok lexemes =>
      rw [← Text.byteLength_toList]
      exact Descent.read_eq vocabulary lexemes _

theorem Expr.parse_eq_error {vocabulary : Vocabulary} {source : String} {error : ParseError}
    (failed : parse vocabulary source = .error error) :
    error.position = source.utf8ByteSize ∨
      ∃ front c back, source.toList = front ++ c :: back ∧
        error.position = Text.byteLength front ∧ ¬ Lexeme.Blank c ∧
        (Lexeme.StartsIn source.toList error.position ∨
          Lexeme.Stray c ∧ (error.fault = .strayCharacter c ∨ error.fault = .tooLong)) := by
  unfold parse at failed
  rcases Except.bind_eq_error.mp failed with stopped | ⟨lexemes, scanned, unread⟩
  · exact .inr (Lexeme.scan_eq_error stopped)
  · obtain ⟨spelled, _⟩ := Lexeme.scan_eq_ok.mp scanned
    rcases Reader.read_eq_error unread with ⟨index, lexeme, listed, place, _⟩ | ⟨ended, _⟩
    · have member := List.mem_of_getElem? listed
      obtain ⟨front, c, back, parts, stands, filled⟩ := spelled.filled lexeme member
      refine .inr ⟨front, c, back, parts, ?_, filled, .inl ?_⟩
      · rw [place, stands, Nat.zero_add]
      · rw [place]
        exact ⟨source.toList, [], lexemes, lexeme.token, (List.append_nil _).symm, spelled, member⟩
    · exact .inl (ended.trans (Text.byteLength_toList source))

/-- Parsing is safe on every text. It never looks for a byte or a lexeme that is not there
and cuts the text between characters only. An error stands between characters too: at the
end, or before a character that is not blank. That one is the first of a lexeme, or begins
none and is named by the error, unless the lexemes before it are already too many. -/
theorem parse_safe_on_every_text (vocabulary : Vocabulary) (source : String) :
    (Expr.parseGuarded vocabulary source).run = some (Expr.parse vocabulary source) ∧
    ∀ error, Expr.parse vocabulary source = .error error →
      error.position ≤ source.utf8ByteSize ∧
      String.Pos.Raw.IsValid source ⟨error.position⟩ ∧
      (error.position = source.utf8ByteSize ∨
        ∃ front c back, source.toList = front ++ c :: back ∧
          error.position = Text.byteLength front ∧ ¬ Lexeme.Blank c ∧
          (Lexeme.StartsIn source.toList error.position ∨
            Lexeme.Stray c ∧ (error.fault = .strayCharacter c ∨ error.fault = .tooLong))) := by
  refine ⟨Expr.parseGuarded_eq vocabulary source, fun error failed => ?_⟩
  have stands := Expr.parse_eq_error failed
  have boundary : String.Pos.Raw.IsValid source ⟨error.position⟩ := by
    rcases stands with ended | ⟨front, c, back, parts, place, _⟩
    · rw [ended]
      exact String.Pos.Raw.isValid_rawEndPos
    · rw [place]
      exact Text.isValid_front parts
  exact ⟨boundary.le_utf8ByteSize, boundary, stands⟩

/-- A letter of two bytes where a term is expected. -/
theorem wide_letter_refused_safely :
    let source := "c1 +\tλ2"
    let error : ParseError := ⟨5, .strayCharacter 'λ'⟩
    Expr.parse .expression source = .error error ∧
    (Expr.parseGuarded .expression source).run = some (.error error) ∧
    error.position ≤ source.utf8ByteSize ∧ String.Pos.Raw.IsValid source ⟨error.position⟩ ∧
    (error.position = source.utf8ByteSize ∨
      ∃ front c back, source.toList = front ++ c :: back ∧
        error.position = Text.byteLength front ∧ ¬ Lexeme.Blank c ∧
        (Lexeme.StartsIn source.toList error.position ∨
          Lexeme.Stray c ∧ (error.fault = .strayCharacter c ∨ error.fault = .tooLong))) := by
  intro source error
  have failed : Expr.parse .expression source = .error error := by decide
  obtain ⟨guarded, placed⟩ := parse_safe_on_every_text .expression source
  refine ⟨failed, ?_, placed error failed⟩
  rw [guarded, failed]

end JoinEngine
