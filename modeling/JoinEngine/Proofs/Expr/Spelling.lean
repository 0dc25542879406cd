import JoinEngine.Proofs.Outcome
import JoinEngine.Proofs.Text
import Mathlib.Data.List.Basic

/-!
Which texts spell which lexemes. A text is a sequence of words and signs with
blanks around them; a word ends only where nothing could continue it. Scanning
accepts these texts, up to the limit on tokens, and gives their lexemes.
-/

namespace JoinEngine

inductive Token.Sign : Char → Token → Prop where
  | plus : Sign '+' plus
  | minus : Sign '-' minus
  | star : Sign '*' star
  | lparen : Sign '(' lparen
  | rparen : Sign ')' rparen

theorem Token.sign?_eq_some (c : Char) (token : Token) : sign? c = some token ↔ Sign c token := by
  constructor
  · intro found
    unfold sign? at found
    split at found <;> cases found <;> constructor
  · rintro ⟨⟩ <;> rfl

theorem Token.sign?_eq_none (c : Char) : sign? c = none ↔ ∀ token, ¬ Sign c token := by
  simp only [Option.eq_none_iff_forall_ne_some, ne_eq, sign?_eq_some]

namespace Lexeme

def Blank (c : Char) : Prop := c = ' ' ∨ c = '\t' ∨ c = '\n' ∨ c = '\r'

def Letter (c : Char) : Prop := ('A' ≤ c ∧ c ≤ 'Z') ∨ ('a' ≤ c ∧ c ≤ 'z') ∨ c = '_'

def WordCharacter (c : Char) : Prop := Letter c ∨ ('0' ≤ c ∧ c ≤ '9')

/-- The characters that stand in no text of lexemes but inside a word. -/
def Stray (c : Char) : Prop := ¬ Blank c ∧ ¬ Letter c ∧ ∀ token, ¬ Token.Sign c token

inductive Spells : Nat → List Char → List Lexeme → Prop where
  | nothing (position : Nat) : Spells position [] []
  | blank {position : Nat} {c : Char} {text : List Char} {lexemes : List Lexeme}
      (between : Blank c) (rest : Spells (position + c.utf8Size) text lexemes) :
      Spells position (c :: text) lexemes
  | sign {position : Nat} {c : Char} {token : Token} {text : List Char} {lexemes : List Lexeme}
      (single : Token.Sign c token) (rest : Spells (position + c.utf8Size) text lexemes) :
      Spells position (c :: text) (⟨position, token⟩ :: lexemes)
  | word {position : Nat} {first : Char} {more text : List Char} {lexemes : List Lexeme}
      (begins : Letter first) (continues : ∀ c ∈ more, WordCharacter c)
      (longest : ∀ c ∈ text.head?, ¬ WordCharacter c)
      (rest : Spells (position + Text.byteLength (first :: more)) text lexemes) :
      Spells position (first :: more ++ text) (⟨position, .word (first :: more)⟩ :: lexemes)

theorem isBlank_iff (c : Char) : isBlank c = true ↔ Blank c := by
  simp [isBlank, Blank, or_assoc]

theorem startsWord_iff (c : Char) : startsWord c = true ↔ Letter c := by
  have upper : c.isUpper = true ↔ 'A' ≤ c ∧ c ≤ 'Z' := decide_eq_true_iff
  have lower : c.isLower = true ↔ 'a' ≤ c ∧ c ≤ 'z' := by
    change (decide ('a' ≤ c) && decide (c ≤ 'z')) = true ↔ _
    simp
  change ((c.isUpper || c.isLower) || decide (c = '_')) = true ↔ _
  simp [Letter, upper, lower, or_assoc]

theorem continuesWord_iff (c : Char) : continuesWord c = true ↔ WordCharacter c := by
  have letters := startsWord_iff c
  simp only [startsWord, Bool.or_eq_true, decide_eq_true_eq] at letters
  simp only [continuesWord, Char.isAlphanum, Bool.or_eq_true, decide_eq_true_eq, WordCharacter,
    ← letters, Char.isDigit, Bool.and_eq_true, Char.le_def]
  exact or_right_comm

namespace Spells
variable {position : Nat} {text : List Char} {lexemes : List Lexeme}
  (spelled : Spells position text lexemes)
include spelled

/-- A lexeme starts inside the text. -/
theorem within : ∀ lexeme ∈ lexemes,
    position ≤ lexeme.position ∧ lexeme.position < position + Text.byteLength text := by
  induction spelled with
  | nothing position => exact fun _ absent => absurd absent List.not_mem_nil
  | blank between rest ih =>
      intro lexeme member
      have later := ih lexeme member
      rw [Text.byteLength_cons]
      omega
  | @sign position c token text lexemes single rest ih =>
      have filled := c.utf8Size_pos
      rw [Text.byteLength_cons]
      refine List.forall_mem_cons.mpr ⟨by simp only; omega, fun lexeme member => ?_⟩
      have later := ih lexeme member
      omega
  | @word position first more text lexemes begins continues longest rest ih =>
      have filled := first.utf8Size_pos
      rw [Text.byteLength_append]
      rw [Text.byteLength_cons] at ih ⊢
      refine List.forall_mem_cons.mpr ⟨by simp only; omega, fun lexeme member => ?_⟩
      have later := ih lexeme member
      omega

theorem ascending : lexemes.Pairwise (·.position < ·.position) := by
  induction spelled with
  | nothing position => exact .nil
  | blank between rest ih => exact ih
  | @sign position c token text lexemes single rest ih =>
      have filled := c.utf8Size_pos
      refine .cons (fun lexeme member => ?_) ih
      have later := rest.within lexeme member
      simp only
      omega
  | @word position first more text lexemes begins continues longest rest ih =>
      have filled := first.utf8Size_pos
      refine .cons (fun lexeme member => ?_) ih
      have later := rest.within lexeme member
      rw [Text.byteLength_cons] at later
      simp only
      omega

/-- No two lexemes start at one place. -/
theorem index_unique {index other : Nat} {lexeme same : Lexeme}
    (listed : lexemes[index]? = some lexeme) (again : lexemes[other]? = some same)
    (place : lexeme.position = same.position) : index = other := by
  obtain ⟨inside, rfl⟩ := List.getElem?_eq_some_iff.mp listed
  obtain ⟨alsoInside, rfl⟩ := List.getElem?_eq_some_iff.mp again
  have ascends := List.pairwise_iff_getElem.mp spelled.ascending
  rcases Nat.lt_trichotomy index other with below | equal | above
  · have less := ascends index other inside alsoInside below
    omega
  · exact equal
  · have less := ascends other index alsoInside inside above
    omega

end Spells

end Lexeme

namespace Scan

open Lexeme

inductive Begins (position : Nat) (done : List Lexeme) (c : Char) : Scan → Prop where
  | blank (between : Blank c) : Begins position done c ⟨position + c.utf8Size, none, done⟩
  | sign {token : Token} (room : done.length < tokenLimit) (single : Token.Sign c token) :
      Begins position done c ⟨position + c.utf8Size, none, ⟨position, token⟩ :: done⟩
  | letter (room : done.length < tokenLimit) (begins : Letter c) :
      Begins position done c ⟨position + c.utf8Size, some (position, [c]), done⟩

inductive Refuses (position : Nat) (done : List Lexeme) (c : Char) : ParseError → Prop where
  | tooLong (filled : ¬ Blank c) (full : tokenLimit ≤ done.length) :
      Refuses position done c ⟨position, .tooLong⟩
  | stray (room : done.length < tokenLimit) (alone : Stray c) :
      Refuses position done c ⟨position, .strayCharacter c⟩

theorem sign_apart {c : Char} {token : Token} (single : Token.Sign c token) :
    isBlank c = false ∧ startsWord c = false := by
  cases single <;> decide

theorem letter_apart {c : Char} (begins : Letter c) : isBlank c = false := by
  rw [← Bool.not_eq_true, isBlank_iff]
  rintro (rfl | rfl | rfl | rfl) <;> revert begins <;> simp [Letter, Char.le_def]

theorem begin_eq_ok {position : Nat} {done : List Lexeme} {c : Char} {next : Scan} :
    begin position done c = .ok next ↔ Begins position done c next := by
  unfold begin
  constructor
  · intro moved
    split at moved
    · rename_i between
      cases moved
      exact .blank ((isBlank_iff c).mp between)
    split at moved
    · cases moved
    rename_i room
    split at moved
    · rename_i begins
      cases moved
      exact .letter (Nat.not_le.mp room) ((startsWord_iff c).mp begins)
    split at moved
    · rename_i token single
      cases moved
      exact .sign (Nat.not_le.mp room) ((Token.sign?_eq_some c token).mp single)
    · cases moved
  · intro moves
    cases moves with
    | blank between => simp [(isBlank_iff c).mpr between]
    | @sign token room single =>
        obtain ⟨notBlank, notLetter⟩ := sign_apart single
        simp [notBlank, notLetter, Nat.not_le.mpr room, (Token.sign?_eq_some c token).mpr single]
    | letter room begins =>
        simp [letter_apart begins, Nat.not_le.mpr room, (startsWord_iff c).mpr begins]

theorem begin_refuses {position : Nat} {done : List Lexeme} {c : Char} {error : ParseError}
    (refused : begin position done c = .error error) : Refuses position done c error := by
  unfold begin at refused
  split at refused
  · cases refused
  rename_i filled
  rw [isBlank_iff] at filled
  split at refused
  · rename_i full
    cases refused
    exact .tooLong filled full
  rename_i room
  split at refused
  · cases refused
  rename_i notLetter
  rw [startsWord_iff] at notLetter
  split at refused
  · cases refused
  · rename_i notSign
    cases refused
    exact .stray (Nat.not_le.mp room) ⟨filled, notLetter, (Token.sign?_eq_none c).mp notSign⟩

theorem step_outside {position : Nat} {done : List Lexeme} {c : Char} {next : Scan} :
    step ⟨position, none, done⟩ c = .ok next ↔ Begins position done c next :=
  begin_eq_ok

theorem step_inside {position start : Nat} {letters : List Char} {done : List Lexeme} {c : Char}
    (continues : WordCharacter c) :
    step ⟨position, some (start, letters), done⟩ c =
      .ok ⟨position + c.utf8Size, some (start, c :: letters), done⟩ := by
  simp [step, (continuesWord_iff c).mpr continues]

/-- A character that cannot continue a word finds the scan as if the word were done. -/
theorem step_behind {position start : Nat} {letters : List Char} {done : List Lexeme} {c : Char}
    (behind : ¬ WordCharacter c) :
    step ⟨position, some (start, letters), done⟩ c =
      step ⟨position, none, ⟨start, .word letters.reverse⟩ :: done⟩ c := by
  have stops : continuesWord c = false := by
    rw [← Bool.not_eq_true, continuesWord_iff]
    exact behind
  simp [step, stops, closed]

def Adds (scan : Scan) (text : List Char) (lexemes : List Lexeme) : Prop :=
  match scan.held with
  | none => Spells scan.position text lexemes
  | some (start, letters) => ∃ more rest others, text = more ++ rest ∧
      (∀ c ∈ more, WordCharacter c) ∧ (∀ c ∈ rest.head?, ¬ WordCharacter c) ∧
      Spells (scan.position + Text.byteLength more) rest others ∧
      lexemes = ⟨start, .word (letters.reverse ++ more)⟩ :: others

theorem Begins.adds {position : Nat} {done : List Lexeme} {c : Char} {next : Scan}
    (moves : Begins position done c next) {text : List Char} {lexemes : List Lexeme}
    (later : next.Adds text lexemes) :
    ∃ added, Spells position (c :: text) added ∧
      done.reverse ++ added = next.done.reverse ++ lexemes := by
  cases moves with
  | blank between => exact ⟨lexemes, .blank between later, rfl⟩
  | sign room single => exact ⟨_, .sign single later, by simp⟩
  | letter room begins =>
      obtain ⟨more, rest, others, rfl, continues, longest, spelled, rfl⟩ := later
      refine ⟨⟨position, .word (c :: more)⟩ :: others, .word begins continues longest ?_, rfl⟩
      rwa [Text.byteLength_cons, ← Nat.add_assoc]

/-- Lexemes that are spelled behind the word being read come after it. -/
theorem adds_of_spells {scan : Scan} {text : List Char} {lexemes : List Lexeme}
    (outside : scan.held ≠ none → ∀ c ∈ text.head?, ¬ WordCharacter c)
    (spelled : Spells scan.position text lexemes) :
    ∃ added, scan.Adds text added ∧
      scan.done.reverse ++ added = scan.closed.reverse ++ lexemes := by
  obtain ⟨position, held, done⟩ := scan
  cases held with
  | none => exact ⟨lexemes, spelled, rfl⟩
  | some word =>
      refine ⟨_, ⟨[], text, lexemes, rfl, by simp, outside nofun, spelled, rfl⟩, ?_⟩
      simp [closed]

/-- A step goes on with the word being read, or it begins something behind that word. -/
theorem step_cases {scan next : Scan} {c : Char} (moved : step scan c = .ok next) :
    (∃ start letters, scan.held = some (start, letters) ∧ WordCharacter c ∧
      next = ⟨scan.position + c.utf8Size, some (start, c :: letters), scan.done⟩) ∨
    (scan.held ≠ none → ¬ WordCharacter c) ∧ Begins scan.position scan.closed c next := by
  obtain ⟨position, held, done⟩ := scan
  cases held with
  | none => exact .inr ⟨fun absent => absurd rfl absent, step_outside.mp moved⟩
  | some word =>
      obtain ⟨start, letters⟩ := word
      by_cases continues : WordCharacter c
      · rw [step_inside continues] at moved
        cases moved
        exact .inl ⟨start, letters, rfl, continues, rfl⟩
      · rw [step_behind continues] at moved
        exact .inr ⟨fun _ => continues, step_outside.mp moved⟩

theorem step_adds {scan next : Scan} {c : Char} (moved : step scan c = .ok next) {text : List Char}
    {lexemes : List Lexeme} (later : next.Adds text lexemes) :
    ∃ added, scan.Adds (c :: text) added ∧
      scan.done.reverse ++ added = next.done.reverse ++ lexemes := by
  rcases step_cases moved with ⟨start, letters, held, continues, rfl⟩ | ⟨behind, begins⟩
  · obtain ⟨position, _, done⟩ := scan
    cases held
    obtain ⟨more, rest, others, rfl, inWord, longest, spelled, rfl⟩ := later
    refine ⟨_, ⟨c :: more, rest, others, rfl, ?_, longest, ?_, rfl⟩, by simp⟩
    · exact List.forall_mem_cons.mpr ⟨continues, inWord⟩
    · rwa [Text.byteLength_cons, ← Nat.add_assoc]
  · -- The held word ends here, and the character begins something behind it.
    obtain ⟨added, spelled, same⟩ := begins.adds later
    have outside : scan.held ≠ none → ∀ d ∈ (c :: text).head?, ¬ WordCharacter d := by
      simpa using behind
    obtain ⟨whole, adds, equal⟩ := adds_of_spells outside spelled
    exact ⟨whole, adds, equal.trans same⟩

theorem step_room {scan next : Scan} {c : Char} (moved : step scan c = .ok next)
    (room : scan.closed.length ≤ tokenLimit) : next.closed.length ≤ tokenLimit := by
  rcases step_cases moved with ⟨start, letters, held, _, rfl⟩ | ⟨_, begins⟩
  · simpa [closed, held] using room
  · -- Outside a word nothing is started without room for it.
    cases begins with
    | blank between => exact room
    | sign more single => exact more
    | letter more begins => exact more

/-- What is added behind a run is added from its beginning on. -/
theorem run_extends {scan middle : Scan} {front text : List Char} {lexemes : List Lexeme}
    (run : front.foldlM step scan = .ok middle) (later : middle.Adds text lexemes) :
    ∃ added, scan.Adds (front ++ text) added ∧
      scan.done.reverse ++ added = middle.done.reverse ++ lexemes := by
  induction front generalizing scan with
  | nil =>
      cases run
      exact ⟨lexemes, later, rfl⟩
  | cons c rest ih =>
      rw [List.foldlM_cons] at run
      obtain ⟨next, moved, others⟩ := Except.bind_eq_ok.mp run
      obtain ⟨between, follows, same⟩ := ih others
      obtain ⟨added, spelled, equal⟩ := step_adds moved follows
      exact ⟨added, spelled, equal.trans same⟩

theorem run_adds {scan final : Scan} {text : List Char}
    (run : text.foldlM step scan = .ok final) :
    ∃ added, scan.Adds text added ∧ scan.done.reverse ++ added = final.closed.reverse := by
  obtain ⟨last, nothing, closed⟩ := final.adds_of_spells (by simp) (.nothing final.position)
  obtain ⟨added, spelled, same⟩ := run_extends run nothing
  rw [List.append_nil] at spelled closed
  exact ⟨added, spelled, same.trans closed⟩

theorem run_word {position start : Nat} {letters more : List Char} {done : List Lexeme}
    (continues : ∀ c ∈ more, WordCharacter c) :
    more.foldlM step ⟨position, some (start, letters), done⟩ =
      .ok ⟨position + Text.byteLength more, some (start, more.reverse ++ letters), done⟩ := by
  induction more generalizing position letters with
  | nil => rfl
  | cons c rest ih =>
      obtain ⟨first, others⟩ := List.forall_mem_cons.mp continues
      rw [List.foldlM_cons, step_inside first]
      change rest.foldlM step _ = _
      rw [ih others, Text.byteLength_cons, Nat.add_assoc]
      simp

/-- Behind a word a run goes on as if the word were done. -/
theorem run_behind {position start : Nat} (letters : List Char) {text : List Char}
    {done : List Lexeme} (longest : ∀ c ∈ text.head?, ¬ WordCharacter c) {final : Scan}
    (run : text.foldlM step ⟨position, none, ⟨start, .word letters.reverse⟩ :: done⟩ = .ok final) :
    ∃ other, text.foldlM step ⟨position, some (start, letters), done⟩ = .ok other ∧
      other.closed = final.closed := by
  cases text with
  | nil =>
      cases run
      exact ⟨_, rfl, rfl⟩
  | cons c rest =>
      refine ⟨final, ?_, rfl⟩
      rw [List.foldlM_cons, step_behind (longest c rfl), ← List.foldlM_cons, run]

theorem run_spelled {position : Nat} {text : List Char} {lexemes : List Lexeme}
    (spelled : Spells position text lexemes) (done : List Lexeme)
    (room : done.length + lexemes.length ≤ tokenLimit) :
    ∃ final, text.foldlM step ⟨position, none, done⟩ = .ok final ∧
      final.closed = lexemes.reverse ++ done := by
  induction spelled generalizing done with
  | nothing position => exact ⟨_, rfl, rfl⟩
  | blank between rest ih =>
      obtain ⟨final, run, closed⟩ := ih done room
      refine ⟨final, ?_, closed⟩
      rw [List.foldlM_cons, step_outside.mpr (.blank between)]
      exact run
  | @sign position c token text lexemes single rest ih =>
      rw [List.length_cons] at room
      obtain ⟨final, run, closed⟩ :=
        ih (⟨position, token⟩ :: done) (by rw [List.length_cons]; omega)
      refine ⟨final, ?_, by simp [closed]⟩
      rw [List.foldlM_cons, step_outside.mpr (.sign (by omega) single)]
      exact run
  | @word position first more text lexemes begins continues longest rest ih =>
      rw [List.length_cons] at room
      obtain ⟨final, run, closed⟩ :=
        ih (⟨position, .word (first :: more)⟩ :: done) (by rw [List.length_cons]; omega)
      -- Letters are held in reverse, and the word is put down when something follows it.
      obtain ⟨other, after, same⟩ :=
        run_behind (more.reverse ++ [first]) longest (by simpa using run)
      refine ⟨other, ?_, by rw [same, closed]; simp⟩
      rw [List.cons_append, List.foldlM_cons, step_outside.mpr (.letter (by omega) begins)]
      change (more ++ text).foldlM step _ = _
      rw [List.foldlM_append, run_word continues]
      change text.foldlM step _ = _
      rwa [Nat.add_assoc, ← Text.byteLength_cons]

end Scan

/-- Scanning accepts the texts that spell lexemes within the limit, and gives them. -/
theorem Lexeme.scan_eq_ok {text : List Char} {lexemes : List Lexeme} :
    scan text = .ok lexemes ↔ Spells 0 text lexemes ∧ lexemes.length ≤ tokenLimit := by
  unfold scan
  rw [Except.bind_eq_ok]
  constructor
  · rintro ⟨final, run, ⟨⟩⟩
    obtain ⟨added, spelled, same⟩ := Scan.run_adds run
    have room : final.closed.length ≤ tokenLimit :=
      Except.foldlM_keeps (fun scan : Scan => scan.closed.length ≤ tokenLimit) text
        (fun _ _ _ _ room moved => Scan.step_room moved room) (Nat.zero_le _) run
    rw [← same]
    refine ⟨spelled, ?_⟩
    rwa [← List.length_reverse, ← same] at room
  · rintro ⟨spelled, room⟩
    obtain ⟨final, run, closed⟩ := Scan.run_spelled spelled [] (by simpa using room)
    refine ⟨final, run, ?_⟩
    rw [closed, List.append_nil, List.reverse_reverse]
    rfl

end JoinEngine
