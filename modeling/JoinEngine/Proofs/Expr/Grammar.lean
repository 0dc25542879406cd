import JoinEngine.Proofs.Expr.Spelling

/-!
The grammar of expressions as a relation between tokens and trees, and the reader
against it. A reader that has moved over some tokens holds a cut through their
derivation: for each pair of open parentheses the sum, the factor and the minus
signs that stand before the term to come. Every move keeps that, and over a phrase
that is derived there is always a way to move.
-/

namespace JoinEngine

inductive Phrase where
  | sum
  | product
  | term

/-- The trees that tokens stand for, with at most `nesting` minus signs and pairs of
parentheses inside each other. -/
inductive Derives (vocabulary : Vocabulary) : Phrase → Nat → List Token → Expr → Prop where
  | sum {nesting : Nat} {tokens : List Token} {tree : Expr}
      (single : Derives vocabulary .product nesting tokens tree) :
      Derives vocabulary .sum nesting tokens tree
  | plus {nesting : Nat} {left right : List Token} {first second : Expr}
      (before : Derives vocabulary .sum nesting left first)
      (last : Derives vocabulary .product nesting right second) :
      Derives vocabulary .sum nesting (left ++ .plus :: right) (.add first second)
  | minus {nesting : Nat} {left right : List Token} {first second : Expr}
      (before : Derives vocabulary .sum nesting left first)
      (last : Derives vocabulary .product nesting right second) :
      Derives vocabulary .sum nesting (left ++ .minus :: right) (.sub first second)
  | product {nesting : Nat} {tokens : List Token} {tree : Expr}
      (single : Derives vocabulary .term nesting tokens tree) :
      Derives vocabulary .product nesting tokens tree
  | times {nesting : Nat} {left right : List Token} {first second : Expr}
      (before : Derives vocabulary .term nesting left first)
      (last : Derives vocabulary .term nesting right second) :
      Derives vocabulary .product nesting (left ++ .star :: right) (.mul first second)
  | symbol {nesting : Nat} {letters : List Char} {name : Symbol}
      (named : (letters, name) ∈ vocabulary.table) :
      Derives vocabulary .term nesting [.word letters] (.symbol name)
  | negation {nesting : Nat} {tokens : List Token} {tree : Expr}
      (inner : Derives vocabulary .term nesting tokens tree) :
      Derives vocabulary .term (nesting + 1) (.minus :: tokens) (.neg tree)
  | parentheses {nesting : Nat} {tokens : List Token} {tree : Expr}
      (inner : Derives vocabulary .sum nesting tokens tree) :
      Derives vocabulary .term (nesting + 1) (.lparen :: (tokens ++ [.rparen])) tree

/-- No word stands for two symbols, so the first entry of a word is its only one. -/
theorem Vocabulary.symbol?_eq_some (vocabulary : Vocabulary) (letters : List Char)
    (name : Symbol) :
    vocabulary.symbol? letters = some name ↔ (letters, name) ∈ vocabulary.table := by
  have distinct : (vocabulary.table.map Prod.fst).Nodup := by cases vocabulary <;> decide
  unfold symbol?
  generalize vocabulary.table = table at distinct
  induction table with
  | nil => simp
  | cons entry rest ih =>
      obtain ⟨apart, tail⟩ := List.nodup_cons.mp distinct
      rw [List.lookup_cons, List.mem_cons, Prod.ext_iff]
      by_cases same : letters = entry.1
      · have absent : (letters, name) ∉ rest := by
          intro present
          apply apart
          exact List.mem_map.mpr ⟨_, present, same⟩
        simp [← same, absent, eq_comm]
      · simpa [same, beq_false_of_ne same] using ih tail

variable {vocabulary : Vocabulary}

namespace Reader

inductive Moves (vocabulary : Vocabulary) : Reader → Token → Reader → Prop where
  | symbol {letters : List Char} {name : Symbol} {level : Level} {outer : List Level}
      (named : (letters, name) ∈ vocabulary.table) :
      Moves vocabulary (wanting level outer) (.word letters) (hold (.symbol name) level outer)
  | negate {level : Level} {outer : List Level} (room : depth level outer < nestingLimit) :
      Moves vocabulary (wanting level outer) .minus
        (wanting { level with minuses := level.minuses + 1 } outer)
  | opens {level : Level} {outer : List Level} (room : depth level outer < nestingLimit) :
      Moves vocabulary (wanting level outer) .lparen (wanting .empty (level :: outer))
  | times {term : Expr} {level : Level} {outer : List Level} (single : level.factor = none) :
      Moves vocabulary (holding term level outer) .star (wanting ⟨level.sum, some term, 0⟩ outer)
  | plus (term : Expr) (level : Level) (outer : List Level) :
      Moves vocabulary (holding term level outer) .plus
        (wanting ⟨some (level.total term, false), none, 0⟩ outer)
  | minus (term : Expr) (level : Level) (outer : List Level) :
      Moves vocabulary (holding term level outer) .minus
        (wanting ⟨some (level.total term, true), none, 0⟩ outer)
  | closes (term : Expr) (level around : Level) (rest : List Level) :
      Moves vocabulary (holding term level (around :: rest)) .rparen
        (hold (level.total term) around rest)

theorem want_moves {level : Level} {outer : List Level} {lexeme : Lexeme} {after : Reader} :
    want vocabulary level outer lexeme = .ok after ↔
      Moves vocabulary (wanting level outer) lexeme.token after := by
  obtain ⟨position, token⟩ := lexeme
  constructor
  · intro moved
    unfold want at moved
    split at moved
    · rename_i letters same
      cases same
      split at moved
      · rename_i name found
        cases moved
        exact .symbol ((vocabulary.symbol?_eq_some letters name).mp found)
      · cases moved
    · rename_i same
      cases same
      split at moved
      · rename_i room
        cases moved
        exact .negate room
      · cases moved
    · rename_i same
      cases same
      split at moved
      · rename_i room
        cases moved
        exact .opens room
      · cases moved
    · cases moved
  · intro moves
    cases moves with
    | symbol named => simp [want, (vocabulary.symbol?_eq_some _ _).mpr named]
    | negate room => simp [want, room]
    | opens room => simp [want, room]

theorem follow_moves {term : Expr} {level : Level} {outer : List Level} {lexeme : Lexeme}
    {after : Reader} :
    follow term level outer lexeme = .ok after ↔
      Moves vocabulary (holding term level outer) lexeme.token after := by
  obtain ⟨position, token⟩ := lexeme
  constructor
  · intro moved
    unfold follow at moved
    split at moved
    · rename_i same
      cases same
      split at moved
      · rename_i single
        cases moved
        exact .times single
      · cases moved
    · rename_i same
      cases same
      cases moved
      exact .plus term level outer
    · rename_i same
      cases same
      cases moved
      exact .minus term level outer
    · rename_i same
      cases same
      split at moved
      · rename_i around rest
        cases moved
        exact .closes term level around rest
      · cases moved
    · split at moved <;> cases moved
  · intro moves
    cases moves with
    | times single => simp [follow, single]
    | plus => rfl
    | minus => rfl
    | closes => rfl

theorem step_moves {before after : Reader} {lexeme : Lexeme} :
    step vocabulary before lexeme = .ok after ↔ Moves vocabulary before lexeme.token after := by
  cases before with
  | wanting level outer => exact want_moves
  | holding term level outer => exact follow_moves

inductive Reads (vocabulary : Vocabulary) : Reader → List Token → Reader → Prop where
  | none (reader : Reader) : Reads vocabulary reader [] reader
  | next {before middle after : Reader} {token : Token} {tokens : List Token}
      (moves : Moves vocabulary before token middle)
      (rest : Reads vocabulary middle tokens after) :
      Reads vocabulary before (token :: tokens) after

theorem Reads.append {before middle after : Reader} {left right : List Token}
    (first : Reads vocabulary before left middle) (second : Reads vocabulary middle right after) :
    Reads vocabulary before (left ++ right) after := by
  induction first with
  | none reader => exact second
  | next moves _ ih => exact .next moves (ih second)

theorem Reads.single {before after : Reader} {token : Token}
    (moves : Moves vocabulary before token after) : Reads vocabulary before [token] after :=
  .next moves (.none after)

theorem run_reads {before after : Reader} {lexemes : List Lexeme} :
    lexemes.foldlM (step vocabulary) before = .ok after ↔
      Reads vocabulary before (lexemes.map Lexeme.token) after := by
  induction lexemes generalizing before with
  | nil =>
      constructor
      · intro run
        cases run
        exact .none _
      · intro reads
        cases reads
        rfl
  | cons lexeme rest ih =>
      rw [List.foldlM_cons, Except.bind_eq_ok, List.map_cons]
      constructor
      · rintro ⟨middle, moved, others⟩
        exact .next (step_moves.mp moved) (ih.mp others)
      · rintro (_ | ⟨moves, others⟩)
        exact ⟨_, step_moves.mpr moves, ih.mpr others⟩

theorem depth_eq (level : Level) (outer : List Level) :
    depth level outer = depth .empty outer + level.minuses := by
  induction outer with
  | nil => exact (Nat.zero_add _).symm
  | cons around rest ih =>
      simp only [depth, List.foldr_cons] at ih ⊢
      rw [ih]
      omega

theorem depth_inside (level : Level) (outer : List Level) :
    depth .empty (level :: outer) = depth level outer + 1 := by
  rw [depth_eq level outer]
  simp only [depth, List.foldr_cons]
  omega

end Reader

theorem Level.negated_neg (count : Nat) (term : Expr) :
    negated count (.neg term) = negated (count + 1) term := by
  induction count with
  | zero => rfl
  | succ count ih => exact congrArg Expr.neg ih

section Soundness

theorem Derives.negated {nesting : Nat} {tokens : List Token} {term : Expr}
    (inner : Derives vocabulary .term nesting tokens term) (count : Nat) :
    Derives vocabulary .term (nesting + count) (List.replicate count .minus ++ tokens)
      (Level.negated count term) := by
  induction count with
  | zero => exact inner
  | succ count ih => exact .negation ih

/-- The tokens of a level before its minus signs: a sum with the sign behind it, then
a factor with the star behind it. -/
inductive Level.Spans (vocabulary : Vocabulary) (nesting : Nat) : Level → List Token → Prop where
  | empty (minuses : Nat) : Spans vocabulary nesting ⟨none, none, minuses⟩ []
  | plus {left : Expr} {tokens : List Token} (minuses : Nat)
      (sum : Derives vocabulary .sum nesting tokens left) :
      Spans vocabulary nesting ⟨some (left, false), none, minuses⟩ (tokens ++ [.plus])
  | minus {left : Expr} {tokens : List Token} (minuses : Nat)
      (sum : Derives vocabulary .sum nesting tokens left) :
      Spans vocabulary nesting ⟨some (left, true), none, minuses⟩ (tokens ++ [.minus])
  | times {sum : Option (Expr × Bool)} {factor : Expr} {before tokens : List Token}
      {signs : Nat} (minuses : Nat) (outside : Spans vocabulary nesting ⟨sum, none, signs⟩ before)
      (term : Derives vocabulary .term nesting tokens factor) :
      Spans vocabulary nesting ⟨sum, some factor, minuses⟩ (before ++ tokens ++ [.star])

namespace Level

variable {nesting : Nat} {level : Level} {before tokens : List Token} {term : Expr}

theorem Spans.signs (spans : level.Spans vocabulary nesting before) (minuses : Nat) :
    Spans vocabulary nesting { level with minuses := minuses } before := by
  cases spans with
  | empty => exact .empty minuses
  | plus _ sum => exact .plus minuses sum
  | minus _ sum => exact .minus minuses sum
  | times _ outside term => exact .times minuses outside term

/-- The sum that ends with a product. -/
theorem Spans.ending {sum : Option (Expr × Bool)} {minuses : Nat}
    (spans : Spans vocabulary nesting ⟨sum, none, minuses⟩ before)
    (product : Derives vocabulary .product nesting tokens term) :
    Derives vocabulary .sum nesting (before ++ tokens) (total ⟨sum, none, minuses⟩ term) := by
  cases spans with
  | empty => exact .sum product
  | plus _ sum => rw [List.append_assoc]; exact .plus sum product
  | minus _ sum => rw [List.append_assoc]; exact .minus sum product

theorem Spans.total (spans : level.Spans vocabulary nesting before)
    (last : Derives vocabulary .term nesting tokens term) :
    Derives vocabulary .sum nesting (before ++ tokens) (level.total term) := by
  cases spans with
  | times _ outside factor =>
      rename_i sum left signs whole minuses
      have product := outside.ending (.times factor last)
      rcases sum with _ | ⟨first, _ | _⟩ <;>
        simpa [List.append_assoc, Level.total, Level.product] using product
  | empty minuses => exact Spans.ending (.empty minuses) (.product last)
  | plus minuses sum => exact Spans.ending (.plus minuses sum) (.product last)
  | minus minuses sum => exact Spans.ending (.minus minuses sum) (.product last)

end Level

namespace Reader

/-- The tokens before the innermost open parentheses, those included; inside them
`nesting` is left of the limit. -/
inductive Around (vocabulary : Vocabulary) : List Level → Nat → List Token → Prop where
  | outside : Around vocabulary [] nestingLimit []
  | inside {level : Level} {outer : List Level} {nesting : Nat} {before own : List Token}
      (around : Around vocabulary outer (nesting + 1 + level.minuses) before)
      (spans : level.Spans vocabulary (nesting + 1 + level.minuses) own) :
      Around vocabulary (level :: outer) nesting
        (before ++ own ++ List.replicate level.minuses .minus ++ [.lparen])

theorem Around.depth_add {outer : List Level} {nesting : Nat} {before : List Token}
    (around : Around vocabulary outer nesting before) :
    depth .empty outer + nesting = nestingLimit := by
  induction around with
  | outside => rfl
  | inside _ _ ih =>
      rw [depth_inside, depth_eq]
      omega

inductive Spans (vocabulary : Vocabulary) : Reader → List Token → Prop where
  | wanting {level : Level} {outer : List Level} {nesting : Nat} {before own : List Token}
      (around : Around vocabulary outer (nesting + level.minuses) before)
      (spans : level.Spans vocabulary (nesting + level.minuses) own) :
      Spans vocabulary (wanting level outer)
        (before ++ own ++ List.replicate level.minuses .minus)
  | holding {term : Expr} {level : Level} {outer : List Level} {nesting : Nat}
      {before own last : List Token} (around : Around vocabulary outer nesting before)
      (spans : level.Spans vocabulary nesting own)
      (derived : Derives vocabulary .term nesting last term) :
      Spans vocabulary (holding term level outer) (before ++ own ++ last)

theorem start_spans : Spans vocabulary start [] :=
  .wanting .outside (.empty 0)

theorem Spans.hold {term : Expr} {level : Level} {outer : List Level} {nesting : Nat}
    {before own last : List Token}
    (around : Around vocabulary outer (nesting + level.minuses) before)
    (spans : level.Spans vocabulary (nesting + level.minuses) own)
    (derived : Derives vocabulary .term nesting last term) :
    Spans vocabulary (hold term level outer)
      (before ++ own ++ (List.replicate level.minuses .minus ++ last)) :=
  .holding around spans (derived.negated level.minuses)

theorem Moves.spans {before after : Reader} {token : Token} {tokens : List Token}
    (moves : Moves vocabulary before token after) (read : before.Spans vocabulary tokens) :
    after.Spans vocabulary (tokens ++ [token]) := by
  cases read with
  | @wanting level outer nesting outside own around spans =>
      have left := around.depth_add
      cases moves with
      | symbol named =>
          rw [List.append_assoc]
          exact .hold around spans (.symbol named)
      | negate room =>
          -- There is room for one more sign, so part of the nesting is left.
          rw [depth_eq] at room
          obtain ⟨inner, rfl⟩ := Nat.exists_eq_succ_of_ne_zero (show nesting ≠ 0 by omega)
          have more : inner.succ + level.minuses = inner + (level.minuses + 1) := by omega
          rw [more] at around spans
          have longer : Spans vocabulary
              (.wanting { level with minuses := level.minuses + 1 } outer)
              (outside ++ own ++ List.replicate (level.minuses + 1) .minus) :=
            .wanting around (spans.signs (level.minuses + 1))
          rwa [List.replicate_succ', ← List.append_assoc] at longer
      | opens room =>
          rw [depth_eq] at room
          obtain ⟨inner, rfl⟩ := Nat.exists_eq_succ_of_ne_zero (show nesting ≠ 0 by omega)
          have opened : Spans vocabulary (.wanting .empty (level :: outer)) _ :=
            .wanting (.inside around spans) (.empty 0)
          simpa [Level.empty] using opened
  | @holding term level outer nesting outside own last around spans derived =>
      cases moves with
      | times single =>
          obtain ⟨sum, factor, minuses⟩ := level
          cases single
          have started := Spans.wanting around (.times 0 spans derived)
          simpa using started
      | plus =>
          have started := Spans.wanting around (.plus 0 (spans.total derived))
          simpa using started
      | minus =>
          have started := Spans.wanting around (.minus 0 (spans.total derived))
          simpa using started
      | closes =>
          cases around with
          | @inside level outer nesting outside own around spansAround =>
              -- The parentheses become the last term of the level around them.
              have whole := Spans.hold around spansAround (.parentheses (spans.total derived))
              simpa using whole

theorem Reads.spans {before after : Reader} {tokens more : List Token}
    (reads : Reads vocabulary before more after) (read : before.Spans vocabulary tokens) :
    after.Spans vocabulary (tokens ++ more) := by
  induction reads generalizing tokens with
  | none reader => simpa using read
  | next moves _ ih =>
      have whole := ih (moves.spans read)
      rwa [List.append_assoc] at whole

end Reader

end Soundness

section Completeness

open Reader

/-- A reader gets over a phrase wherever the phrase may stand. Its minus signs do not
matter any more once a term is read. -/
def Passes (vocabulary : Vocabulary) (nesting : Nat) (tokens : List Token) (tree : Expr) :
    Phrase → Prop
  | .term => ∀ level outer, depth level outer + nesting ≤ nestingLimit → ∃ signs,
      Reads vocabulary (wanting level outer) tokens
        (holding (Level.negated level.minuses tree) { level with minuses := signs } outer)
  | .product => ∀ sum outer, depth .empty outer + nesting ≤ nestingLimit → ∃ last level,
      Reads vocabulary (wanting ⟨sum, none, 0⟩ outer) tokens (holding last level outer) ∧
        level.sum = sum ∧ level.product last = tree
  | .sum => ∀ outer, depth .empty outer + nesting ≤ nestingLimit → ∃ last level,
      Reads vocabulary (wanting .empty outer) tokens (holding last level outer) ∧
        level.total last = tree

/-- A sum goes on with a sign and a product. -/
theorem Passes.summand {nesting : Nat} {left right : List Token} {first second : Expr}
    (before : Passes vocabulary nesting left first .sum)
    (last : Passes vocabulary nesting right second .product) {sign : Token} {subtract : Bool}
    (moves : ∀ term level outer, Moves vocabulary (holding term level outer) sign
      (wanting ⟨some (level.total term, subtract), none, 0⟩ outer)) :
    Passes vocabulary nesting (left ++ sign :: right)
      (if subtract then .sub first second else .add first second) .sum := by
  intro outer room
  obtain ⟨term, level, reads, total⟩ := before outer room
  obtain ⟨final, after, others, same, product⟩ :=
    last (some (level.total term, subtract)) outer room
  refine ⟨final, after, reads.append (.next (moves term level outer) others), ?_⟩
  rw [Level.total, same, product, total]
  cases subtract <;> rfl

theorem Derives.passes {phrase : Phrase} {nesting : Nat} {tokens : List Token} {tree : Expr}
    (derived : Derives vocabulary phrase nesting tokens tree) :
    Passes vocabulary nesting tokens tree phrase := by
  induction derived with
  | sum _ ih =>
      intro outer room
      obtain ⟨last, level, reads, same, product⟩ := ih none outer room
      exact ⟨last, level, reads, by rw [Level.total, same, product]⟩
  | plus _ _ sumIh productIh => exact sumIh.summand productIh Moves.plus
  | minus _ _ sumIh productIh => exact sumIh.summand productIh Moves.minus
  | product _ ih =>
      intro sum outer room
      obtain ⟨signs, reads⟩ := ih ⟨sum, none, 0⟩ outer (by rwa [depth_eq])
      exact ⟨_, _, reads, rfl, rfl⟩
  | times _ _ firstIh secondIh =>
      intro sum outer room
      obtain ⟨signs, reads⟩ := firstIh ⟨sum, none, 0⟩ outer (by rwa [depth_eq])
      rename_i nesting left right first second _ _
      obtain ⟨others, more⟩ := secondIh ⟨sum, some first, 0⟩ outer (by rwa [depth_eq])
      exact ⟨_, _, reads.append (.next (.times rfl) more), rfl, rfl⟩
  | symbol named =>
      intro level outer _
      exact ⟨level.minuses, .single (.symbol named)⟩
  | negation _ ih =>
      -- A sign is only counted, so what it negates is read at the level with one more.
      intro level outer room
      have sign : Moves vocabulary (wanting level outer) .minus _ := .negate (by omega)
      obtain ⟨signs, reads⟩ := ih { level with minuses := level.minuses + 1 } outer (by
        rw [depth_eq] at room ⊢
        simp only
        omega)
      refine ⟨signs, .next sign ?_⟩
      rw [Level.negated_neg]
      exact reads
  | parentheses _ ih =>
      intro level outer room
      obtain ⟨last, inside, reads, total⟩ := ih (level :: outer) (by
        rw [depth_inside]
        omega)
      have closed := reads.append (.single (.closes last inside level outer))
      rw [total] at closed
      exact ⟨level.minuses, .next (.opens (by omega)) closed⟩

end Completeness

namespace Reader

/-- The derived trees are those that a reader holds behind all tokens, with nothing open
around them. -/
theorem derives_iff_reads {tokens : List Token} {tree : Expr} :
    Derives vocabulary .sum nestingLimit tokens tree ↔ ∃ last level,
      Reads vocabulary start tokens (holding last level []) ∧ level.total last = tree := by
  constructor
  · intro derived
    exact derived.passes [] (Nat.le_refl _)
  · rintro ⟨last, level, reads, rfl⟩
    have spans := reads.spans start_spans
    rw [List.nil_append] at spans
    cases spans with
    | holding around spans derived =>
        cases around with
        | outside => exact spans.total derived

theorem finish_eq_ok {position : Nat} {reader : Reader} {tree : Expr} :
    reader.finish position = .ok tree ↔
      ∃ last level, reader = holding last level [] ∧ level.total last = tree := by
  unfold finish
  split <;> simp

/-- Reading accepts what the grammar derives, and gives its tree. -/
theorem read_eq_ok {position : Nat} {lexemes : List Lexeme} {tree : Expr} :
    read vocabulary position lexemes = .ok tree ↔
      Derives vocabulary .sum nestingLimit (lexemes.map Lexeme.token) tree := by
  unfold read
  simp only [Except.bind_eq_ok, run_reads, finish_eq_ok, derives_iff_reads]
  constructor
  · rintro ⟨reader, reads, last, level, rfl, total⟩
    exact ⟨last, level, reads, total⟩
  · rintro ⟨last, level, reads, total⟩
    exact ⟨_, reads, last, level, rfl, total⟩

end Reader

/-- A text parses to a tree exactly if it spells at most 256 lexemes from which the
grammar derives the tree, with minus signs and parentheses at most 64 deep. -/
theorem parse_iff_derives (vocabulary : Vocabulary) (source : String) (tree : Expr) :
    Expr.parse vocabulary source = .ok tree ↔
      ∃ lexemes, Lexeme.Spells 0 source.toList lexemes ∧ lexemes.length ≤ 256 ∧
        Derives vocabulary .sum 64 (lexemes.map Lexeme.token) tree := by
  unfold Expr.parse
  rw [Except.bind_eq_ok]
  simp only [Lexeme.scan_eq_ok, Reader.read_eq_ok, and_assoc]
  rfl

end JoinEngine
