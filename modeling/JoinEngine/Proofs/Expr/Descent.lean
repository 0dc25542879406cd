import JoinEngine.Proofs.Expr.Grammar
import JoinEngine.Proofs.Expr.Walk

/-!
Reading lexemes by index, with one function for each phrase of the grammar. A function
takes the index at which its phrase begins and gives the index behind it, and looks back
at the lexeme it has just passed where that one is wrong. It takes from the lexemes what
the reader moves over, stops at the same fault, and never looks for a lexeme in vain.
-/

namespace JoinEngine

/-- An expression that is read from an index on, and the index behind it. -/
structure Taken (cursor : Nat) where
  tree : Expr
  next : Nat
  later : cursor < next

def Taken.join {cursor : Nat} (left : Taken cursor) (build : Expr → Expr → Expr)
    (right : Taken (left.next + 1)) : Taken cursor :=
  ⟨build left.tree right.tree, right.next, left.later.trans (Nat.lt_of_succ_lt right.later)⟩

namespace Descent

section Phrases
variable (lexemes : List Lexeme) (ending : Nat)

def token? (cursor : Nat) : Option Token :=
  lexemes[cursor]?.map Lexeme.token

def place (cursor : Nat) : Nat :=
  (lexemes[cursor]?.map Lexeme.position).getD ending

def placeBefore? : Nat → Option Nat
  | 0 => none
  | cursor + 1 => lexemes[cursor]?.map Lexeme.position

def additive? : Token → Option (Expr → Expr → Expr)
  | .plus => some .add
  | .minus => some .sub
  | _ => none

theorem exists_of_token? {lexemes : List Lexeme} {cursor : Nat} {token : Token}
    (found : token? lexemes cursor = some token) :
    ∃ position, lexemes[cursor]? = some ⟨position, token⟩ := by
  obtain ⟨⟨position, _⟩, listed, rfl⟩ := Option.map_eq_some_iff.mp found
  exact ⟨position, listed⟩

variable (term : (cursor : Nat) → Guarded (Taken cursor))

def product (cursor : Nat) : Guarded (Taken cursor) := do
  let left ← term cursor
  if token? lexemes left.next = some .star then
    let right ← term (left.next + 1)
    if token? lexemes right.next = some .star then
      throw ⟨place lexemes ending right.next, .thirdFactor⟩
    else
      return left.join .mul right
  else
    return left

def summands {cursor : Nat} (left : Taken cursor) : Guarded (Taken cursor) :=
  match _ : (token? lexemes left.next).bind additive? with
  | some build => do
      let right ← product lexemes ending term (left.next + 1)
      summands (left.join build right)
  | none => return left
termination_by lexemes.length - left.next
decreasing_by
  rename_i found
  obtain ⟨token, standing, _⟩ := Option.bind_eq_some_iff.mp found
  obtain ⟨position, listed⟩ := exists_of_token? standing
  obtain ⟨inside, _⟩ := List.getElem?_eq_some_iff.mp listed
  have later := right.later
  simp only [Taken.join]
  omega

def sum (cursor : Nat) : Guarded (Taken cursor) := do
  let first ← product lexemes ending term cursor
  summands lexemes ending term first

def close {cursor : Nat} (inner : Taken (cursor + 1)) : Guarded (Taken cursor) :=
  match token? lexemes inner.next with
  | some .rparen =>
      return ⟨inner.tree, inner.next + 1, Nat.lt_succ_of_lt (Nat.lt_of_succ_lt inner.later)⟩
  | some found => do
      let position ← placeBefore? lexemes (inner.next + 1)
      throw ⟨position, .closingExpected found⟩
  | none => throw ⟨ending, .unclosed⟩

end Phrases

/-- A term, with `room` for more minus signs and parentheses around another one. -/
def term (vocabulary : Vocabulary) (lexemes : List Lexeme) (ending room cursor : Nat) :
    Guarded (Taken cursor) :=
  match lexemes[cursor]? with
  | none => throw ⟨ending, .endOfText⟩
  | some lexeme =>
      match lexeme.token, room with
      | .minus, 0 => throw ⟨lexeme.position, .tooDeep⟩
      | .minus, room + 1 => do
          let inner ← term vocabulary lexemes ending room (cursor + 1)
          return ⟨.neg inner.tree, inner.next, Nat.lt_of_succ_lt inner.later⟩
      | .lparen, 0 => throw ⟨lexeme.position, .tooDeep⟩
      | .lparen, room + 1 => do
          let inner ← sum lexemes ending (term vocabulary lexemes ending room) (cursor + 1)
          close lexemes ending inner
      | .word letters, _ =>
          match vocabulary.symbol? letters with
          | some name => return ⟨.symbol name, cursor + 1, Nat.lt_succ_self cursor⟩
          | none => throw ⟨lexeme.position, .unknownSymbol letters vocabulary⟩
      | found, _ => throw ⟨lexeme.position, .termExpected found⟩

def read (vocabulary : Vocabulary) (lexemes : List Lexeme) (ending : Nat) : Guarded Expr := do
  let whole ← sum lexemes ending (term vocabulary lexemes ending nestingLimit) 0
  match token? lexemes whole.next with
  | some found => throw ⟨place lexemes ending whole.next, .leftOver found⟩
  | none => return whole.tree

end Descent

/-- A guarded computation has a result: it finds a value from which a plain one goes on,
or it is refused as the plain one is. -/
inductive Guarded.Agrees {Value Result : Type} (guarded : Guarded Value)
    (plain : Except ParseError Result) (kept : Value → Prop)
    (rest : Value → Except ParseError Result) : Prop where
  | found (value : Value) (given : guarded.run = some (.ok value)) (holds : kept value)
      (same : plain = rest value)
  | refused (error : ParseError) (given : guarded.run = some (.error error))
      (same : plain = .error error)

theorem Guarded.Agrees.bind {Value Next Result : Type} {guarded : Guarded Value}
    {plain : Except ParseError Result} {kept : Value → Prop}
    {rest : Value → Except ParseError Result} {more : Value → Guarded Next}
    {keptNext : Next → Prop} {restNext : Next → Except ParseError Result}
    (first : guarded.Agrees plain kept rest)
    (second : ∀ value, kept value → (more value).Agrees (rest value) keptNext restNext) :
    (guarded >>= more).Agrees plain keptNext restNext := by
  cases first with
  | found value given holds same =>
      have run : guarded >>= more = more value := by
        change guarded = some (.ok value) at given
        rw [given]
        rfl
      rw [run, same]
      exact second value holds
  | refused error given same =>
      refine .refused error ?_ same
      change guarded = some (.error error) at given
      rw [given]
      rfl

namespace Reader
variable {vocabulary : Vocabulary} {lexemes : List Lexeme} {ending cursor : Nat}

def resume (vocabulary : Vocabulary) (lexemes : List Lexeme) (ending : Nat) (reader : Reader)
    (cursor : Nat) : Except ParseError Expr := do
  (← (lexemes.drop cursor).foldlM (step vocabulary) reader).finish ending

theorem resume_at {reader : Reader} {lexeme : Lexeme} (listed : lexemes[cursor]? = some lexeme) :
    resume vocabulary lexemes ending reader cursor =
      step vocabulary reader lexeme >>= fun next =>
        resume vocabulary lexemes ending next (cursor + 1) := by
  obtain ⟨inside, rfl⟩ := List.getElem?_eq_some_iff.mp listed
  rw [resume, List.drop_eq_getElem_cons inside, List.foldlM_cons, bind_assoc]
  rfl

theorem resume_end {reader : Reader} (ended : lexemes[cursor]? = none) :
    resume vocabulary lexemes ending reader cursor = reader.finish ending := by
  rw [resume, List.drop_eq_nil_of_le (List.getElem?_eq_none_iff.mp ended)]
  rfl

/-- Before anything but a star a reader is told apart by its sum only. -/
theorem resume_congr {term other : Expr} {level around : Level} {outer : List Level}
    (unstarred : Descent.token? lexemes cursor ≠ some .star)
    (same : level.total term = around.total other) :
    resume vocabulary lexemes ending (holding term level outer) cursor =
      resume vocabulary lexemes ending (holding other around outer) cursor := by
  cases listed : lexemes[cursor]? with
  | none =>
      rw [resume_end listed, resume_end listed]
      cases outer with
      | nil => exact congrArg Except.ok same
      | cons _ _ => rfl
  | some lexeme =>
      obtain ⟨position, token⟩ := lexeme
      rw [resume_at listed, resume_at listed]
      cases token with
      | star => simp [Descent.token?, listed] at unstarred
      | word letters => cases outer <;> rfl
      | lparen => cases outer <;> rfl
      | plus => simp [step, follow, same]
      | minus => simp [step, follow, same]
      | rparen => cases outer <;> simp [step, follow, same]

/-- The minus signs before a term have no effect behind it. -/
theorem resume_minuses (term : Expr) (level : Level) (outer : List Level) (minuses : Nat) :
    resume vocabulary lexemes ending (holding term { level with minuses := minuses } outer) cursor =
      resume vocabulary lexemes ending (holding term level outer) cursor := by
  cases listed : lexemes[cursor]? with
  | none =>
      rw [resume_end listed, resume_end listed]
      cases outer <;> rfl
  | some lexeme =>
      rw [resume_at listed, resume_at listed]
      rfl

theorem resume_negated (term : Expr) (level : Level) (outer : List Level) :
    resume vocabulary lexemes ending
        (hold term { level with minuses := level.minuses + 1 } outer) cursor =
      resume vocabulary lexemes ending (hold (.neg term) level outer) cursor := by
  rw [hold, resume_minuses, hold, Level.negated_neg]

theorem resume_additive {term : Expr} {outer : List Level} {build : Expr → Expr → Expr}
    (found : (Descent.token? lexemes cursor).bind Descent.additive? = some build) :
    ∃ sum, resume vocabulary lexemes ending (holding term .empty outer) cursor =
        resume vocabulary lexemes ending (wanting ⟨sum, none, 0⟩ outer) (cursor + 1) ∧
      ∀ last, Level.total ⟨sum, none, 0⟩ last = build term last := by
  obtain ⟨token, standing, added⟩ := Option.bind_eq_some_iff.mp found
  obtain ⟨position, listed⟩ := Descent.exists_of_token? standing
  rw [resume_at listed]
  cases token with
  | plus =>
      cases added
      exact ⟨some (term, false), rfl, fun last => rfl⟩
  | minus =>
      cases added
      exact ⟨some (term, true), rfl, fun last => rfl⟩
  | word | star | lparen | rparen => cases added

end Reader

namespace Descent
open Reader
variable {vocabulary : Vocabulary} {lexemes : List Lexeme} {ending : Nat}

def TakesTerm (vocabulary : Vocabulary) (lexemes : List Lexeme) (ending : Nat) (level : Level)
    (outer : List Level) {cursor : Nat} (taken : Guarded (Taken cursor)) : Prop :=
  taken.Agrees (resume vocabulary lexemes ending (wanting level outer) cursor) (fun _ => True)
    (fun taken => resume vocabulary lexemes ending (hold taken.tree level outer) taken.next)

/-- Terms are taken at every index where one is wanted and `room` is left of the nesting. -/
def Terms (vocabulary : Vocabulary) (lexemes : List Lexeme) (ending room : Nat)
    (term : (cursor : Nat) → Guarded (Taken cursor)) : Prop :=
  ∀ cursor level outer, depth level outer + room = nestingLimit →
    TakesTerm vocabulary lexemes ending level outer (term cursor)

section Phrases
variable {room : Nat} {term : (cursor : Nat) → Guarded (Taken cursor)}
  (terms : Terms vocabulary lexemes ending room term) {outer : List Level}
  (deep : depth .empty outer + room = nestingLimit)
include terms deep

theorem product_agrees (sum : Option (Expr × Bool)) (cursor : Nat) :
    (product lexemes ending term cursor).Agrees
      (resume vocabulary lexemes ending (wanting ⟨sum, none, 0⟩ outer) cursor)
      (fun taken => token? lexemes taken.next ≠ some .star)
      (fun taken =>
        resume vocabulary lexemes ending (holding taken.tree ⟨sum, none, 0⟩ outer) taken.next) := by
  unfold product
  apply (terms cursor ⟨sum, none, 0⟩ outer deep).bind
  intro left _
  split
  · rename_i starred
    have times : resume vocabulary lexemes ending (hold left.tree ⟨sum, none, 0⟩ outer) left.next =
        resume vocabulary lexemes ending (wanting ⟨sum, some left.tree, 0⟩ outer)
          (left.next + 1) := by
      obtain ⟨position, listed⟩ := exists_of_token? starred
      rw [resume_at listed]
      rfl
    rw [times]
    apply (terms (left.next + 1) ⟨sum, some left.tree, 0⟩ outer deep).bind
    intro right _
    split
    · rename_i again
      obtain ⟨position, listed⟩ := exists_of_token? again
      refine .refused ⟨position, .thirdFactor⟩ ?_ ?_
      · rw [place, listed]
        rfl
      · rw [resume_at listed]
        rfl
    · rename_i unstarred
      refine .found (left.join .mul right) rfl unstarred (resume_congr unstarred ?_)
      rcases sum with _ | ⟨before, _ | _⟩ <;> rfl
  · rename_i unstarred
    exact .found left rfl unstarred rfl

theorem summands_agrees {cursor : Nat} (left : Taken cursor)
    (unstarred : token? lexemes left.next ≠ some .star) :
    (summands lexemes ending term left).Agrees
      (resume vocabulary lexemes ending (holding left.tree .empty outer) left.next)
      (fun taken => token? lexemes taken.next ≠ some .star ∧
        (token? lexemes taken.next).bind additive? = none)
      (fun taken =>
        resume vocabulary lexemes ending (holding taken.tree .empty outer) taken.next) := by
  fun_induction summands lexemes ending term left with
  | case1 left build found ih =>
      obtain ⟨sum, moved, totals⟩ := resume_additive found
      rw [moved]
      apply (product_agrees terms deep sum (left.next + 1)).bind
      intro right free
      have joined : resume vocabulary lexemes ending (holding right.tree ⟨sum, none, 0⟩ outer)
          right.next = resume vocabulary lexemes ending
            (holding (left.join build right).tree .empty outer) right.next :=
        resume_congr free (totals right.tree)
      rw [joined]
      exact ih right free
  | case2 left ended => exact .found left rfl ⟨unstarred, ended⟩ rfl

theorem sum_agrees (cursor : Nat) :
    (sum lexemes ending term cursor).Agrees
      (resume vocabulary lexemes ending (wanting .empty outer) cursor)
      (fun taken => token? lexemes taken.next ≠ some .star ∧
        (token? lexemes taken.next).bind additive? = none)
      (fun taken =>
        resume vocabulary lexemes ending (holding taken.tree .empty outer) taken.next) :=
  (product_agrees terms deep none cursor).bind fun first unstarred =>
    summands_agrees terms deep first unstarred

end Phrases

theorem close_agrees {cursor : Nat} (inner : Taken (cursor + 1)) (level : Level)
    (outer : List Level) (unstarred : token? lexemes inner.next ≠ some .star)
    (ended : (token? lexemes inner.next).bind additive? = none) :
    (close lexemes ending inner).Agrees
      (resume vocabulary lexemes ending (holding inner.tree .empty (level :: outer)) inner.next)
      (fun _ => True)
      (fun taken => resume vocabulary lexemes ending (hold taken.tree level outer) taken.next) := by
  unfold close
  cases standing : token? lexemes inner.next with
  | none =>
      have missing : lexemes[inner.next]? = none := Option.map_eq_none_iff.mp standing
      exact .refused ⟨ending, .unclosed⟩ rfl (resume_end missing)
  | some token =>
      rw [standing] at unstarred ended
      obtain ⟨position, listed⟩ := exists_of_token? standing
      have before : placeBefore? lexemes (inner.next + 1) = some position :=
        congrArg (Option.map Lexeme.position) listed
      rw [resume_at listed]
      cases token with
      | star => exact absurd rfl unstarred
      | plus => cases ended
      | minus => cases ended
      | rparen => exact .found _ rfl trivial rfl
      | lparen =>
          rw [before]
          exact .refused ⟨position, .closingExpected .lparen⟩ rfl rfl
      | word letters =>
          rw [before]
          exact .refused ⟨position, .closingExpected (.word letters)⟩ rfl rfl

section Term
variable {room cursor position : Nat} {level : Level} {outer : List Level}

theorem term_word {letters : List Char}
    (listed : lexemes[cursor]? = some ⟨position, .word letters⟩) :
    TakesTerm vocabulary lexemes ending level outer
      (term vocabulary lexemes ending room cursor) := by
  unfold TakesTerm term
  rw [resume_at listed, listed]
  cases named : vocabulary.symbol? letters with
  | none =>
      refine .refused ⟨position, .unknownSymbol letters vocabulary⟩ ?_ ?_
      · simp only [named]
        rfl
      · simp only [step, want, named]
        rfl
  | some name =>
      refine .found ⟨.symbol name, cursor + 1, Nat.lt_succ_self cursor⟩ ?_ trivial ?_
      · simp only [named]
        rfl
      · simp only [step, want, named]
        rfl

theorem term_minus (listed : lexemes[cursor]? = some ⟨position, .minus⟩)
    (terms : Terms vocabulary lexemes ending room (term vocabulary lexemes ending room))
    (deep : depth level outer + (room + 1) = nestingLimit) :
    TakesTerm vocabulary lexemes ending level outer
      (term vocabulary lexemes ending (room + 1) cursor) := by
  have moved : step vocabulary (wanting level outer) ⟨position, .minus⟩ =
      .ok (wanting { level with minuses := level.minuses + 1 } outer) := if_pos (by omega)
  have inside : depth { level with minuses := level.minuses + 1 } outer + room = nestingLimit := by
    rw [depth_eq] at deep ⊢
    simp only
    omega
  unfold TakesTerm term
  rw [resume_at listed, listed, moved]
  apply (terms (cursor + 1) _ outer inside).bind
  intro inner _
  exact .found _ rfl trivial (resume_negated inner.tree level outer)

theorem term_lparen (listed : lexemes[cursor]? = some ⟨position, .lparen⟩)
    (terms : Terms vocabulary lexemes ending room (term vocabulary lexemes ending room))
    (deep : depth level outer + (room + 1) = nestingLimit) :
    TakesTerm vocabulary lexemes ending level outer
      (term vocabulary lexemes ending (room + 1) cursor) := by
  have moved : step vocabulary (wanting level outer) ⟨position, .lparen⟩ =
      .ok (wanting .empty (level :: outer)) := if_pos (by omega)
  have inside : depth .empty (level :: outer) + room = nestingLimit := by
    rw [depth_inside]
    omega
  unfold TakesTerm term
  rw [resume_at listed, listed, moved]
  apply (sum_agrees terms inside (cursor + 1)).bind
  rintro inner ⟨unstarred, ended⟩
  exact close_agrees inner level outer unstarred ended

theorem term_too_deep {token : Token} (nests : token = .minus ∨ token = .lparen)
    (listed : lexemes[cursor]? = some ⟨position, token⟩)
    (full : depth level outer + 0 = nestingLimit) :
    TakesTerm vocabulary lexemes ending level outer (term vocabulary lexemes ending 0 cursor) := by
  have refused : step vocabulary (wanting level outer) ⟨position, token⟩ =
      .error ⟨position, .tooDeep⟩ := by
    have deep : ¬ depth level outer < nestingLimit := by omega
    rcases nests with rfl | rfl
    · exact if_neg deep
    · exact if_neg deep
  unfold TakesTerm term
  rw [resume_at listed, listed, refused]
  rcases nests with rfl | rfl
  · exact .refused ⟨position, .tooDeep⟩ rfl rfl
  · exact .refused ⟨position, .tooDeep⟩ rfl rfl

theorem term_refused {token : Token} (wrong : token = .plus ∨ token = .star ∨ token = .rparen)
    (listed : lexemes[cursor]? = some ⟨position, token⟩) :
    TakesTerm vocabulary lexemes ending level outer
      (term vocabulary lexemes ending room cursor) := by
  unfold TakesTerm term
  rw [resume_at listed, listed]
  rcases wrong with rfl | rfl | rfl
  all_goals exact .refused ⟨position, .termExpected _⟩ rfl rfl

theorem term_missing (ended : lexemes[cursor]? = none) :
    TakesTerm vocabulary lexemes ending level outer
      (term vocabulary lexemes ending room cursor) := by
  unfold TakesTerm term
  rw [resume_end ended, ended]
  exact .refused ⟨ending, .endOfText⟩ rfl rfl

end Term

theorem term_takes (vocabulary : Vocabulary) (lexemes : List Lexeme) (ending room : Nat) :
    Terms vocabulary lexemes ending room (term vocabulary lexemes ending room) := by
  intro cursor level outer deep
  cases listed : lexemes[cursor]? with
  | none => exact term_missing listed
  | some lexeme =>
      obtain ⟨position, token⟩ := lexeme
      cases token with
      | word letters => exact term_word listed
      | plus | star | rparen => exact term_refused (by simp) listed
      | minus =>
          cases room with
          | zero => exact term_too_deep (.inl rfl) listed deep
          | succ room =>
              exact term_minus listed (term_takes vocabulary lexemes ending room) deep
      | lparen =>
          cases room with
          | zero => exact term_too_deep (.inr rfl) listed deep
          | succ room =>
              exact term_lparen listed (term_takes vocabulary lexemes ending room) deep

/-- Reading by index has a result, and it is the reader's. -/
theorem read_eq (vocabulary : Vocabulary) (lexemes : List Lexeme) (ending : Nat) :
    (read vocabulary lexemes ending).run = some (Reader.read vocabulary ending lexemes) := by
  have outside : depth .empty [] + nestingLimit = nestingLimit := Nat.zero_add nestingLimit
  have whole := sum_agrees (term_takes vocabulary lexemes ending nestingLimit) outside 0
  have agrees : (read vocabulary lexemes ending).Agrees (Reader.read vocabulary ending lexemes)
      (fun _ => True) .ok := by
    apply whole.bind
    rintro taken ⟨unstarred, ended⟩
    cases standing : token? lexemes taken.next with
    | none =>
        have missing : lexemes[taken.next]? = none := Option.map_eq_none_iff.mp standing
        exact .found taken.tree rfl trivial (resume_end missing)
    | some token =>
        rw [standing] at unstarred ended
        obtain ⟨position, listed⟩ := exists_of_token? standing
        refine .refused ⟨position, .leftOver token⟩ ?_ ?_
        · rw [place, listed]
          rfl
        · rw [resume_at listed]
          cases token with
          | star => exact absurd rfl unstarred
          | plus => cases ended
          | minus => cases ended
          | word | lparen | rparen => rfl
  cases agrees with
  | found tree given _ same => rw [given, same]
  | refused error given same => rw [given, same]

end Descent

end JoinEngine
