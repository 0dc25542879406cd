import JoinEngine.Proofs.Expr.Grammar
import Mathlib.Algebra.BigOperators.Group.List.Basic
import Mathlib.Algebra.Ring.Int.Defs
import Mathlib.Data.List.Induction

/-!
An expression that is read has no symbols but those its vocabulary names. Each
lexeme adds at most one symbol to what the reader holds, and only a named one.
-/

namespace JoinEngine

def Expr.Over (allowed : Symbol → Prop) : Expr → Prop
  | symbol name => allowed name
  | neg inner => inner.Over allowed
  | add left right | sub left right | mul left right => left.Over allowed ∧ right.Over allowed

namespace Vocabulary

def Names (vocabulary : Vocabulary) (symbol : Symbol) : Prop :=
  ∃ letters, vocabulary.symbol? letters = some symbol

def Numbered : Symbol → Prop
  | .stream number | .constant number => 1 ≤ number ∧ number ≤ 4

def Placeholder : Symbol → Prop
  | .stream slot => slot < 3
  | .constant slot => slot = 0

theorem Names.mem_table {vocabulary : Vocabulary} {symbol : Symbol}
    (named : vocabulary.Names symbol) : symbol ∈ vocabulary.table.map Prod.snd := by
  obtain ⟨letters, found⟩ := named
  obtain ⟨before, after, split, _⟩ := List.lookup_eq_some_iff.mp found
  rw [split]
  simp

theorem Names.numbered {symbol : Symbol} (named : expression.Names symbol) : Numbered symbol := by
  have listed : ∀ symbol ∈ expression.table.map Prod.snd, Numbered symbol := by
    simp [table, digits, Numbered]
  exact listed symbol named.mem_table

theorem Names.placeholder {symbol : Symbol} (named : pattern.Names symbol) :
    Placeholder symbol := by
  have listed : ∀ symbol ∈ pattern.table.map Prod.snd, Placeholder symbol := by
    simp [table, Placeholder]
  exact listed symbol named.mem_table

end Vocabulary

section Reading
variable {allowed : Symbol → Prop}

structure Level.Over (allowed : Symbol → Prop) (level : Level) : Prop where
  sum : ∀ left taken, level.sum = some (left, taken) → left.Over allowed
  factor : ∀ left, level.factor = some left → left.Over allowed

theorem Level.empty_over : Level.empty.Over allowed := ⟨by simp [empty], by simp [empty]⟩

theorem Level.negated_over (count : Nat) {term : Expr} (inner : term.Over allowed) :
    (negated count term).Over allowed := by
  induction count with
  | zero => exact inner
  | succ count ih => exact ih

theorem Level.Over.product {level : Level} {term : Expr} (limited : level.Over allowed)
    (inner : term.Over allowed) : (level.product term).Over allowed := by
  unfold Level.product
  split
  · exact inner
  · rename_i left present
    exact ⟨limited.factor left present, inner⟩

theorem Level.Over.total {level : Level} {term : Expr} (limited : level.Over allowed)
    (inner : term.Over allowed) : (level.total term).Over allowed := by
  unfold Level.total
  split
  · exact limited.product inner
  · rename_i left present
    exact ⟨limited.sum left false present, limited.product inner⟩
  · rename_i left present
    exact ⟨limited.sum left true present, limited.product inner⟩

namespace Reader

def Over (allowed : Symbol → Prop) : Reader → Prop
  | wanting level outer => level.Over allowed ∧ ∀ around ∈ outer, around.Over allowed
  | holding term level outer =>
      term.Over allowed ∧ level.Over allowed ∧ ∀ around ∈ outer, around.Over allowed

theorem start_over : start.Over allowed := ⟨Level.empty_over, by simp⟩

theorem hold_over {term : Expr} {level : Level} {outer : List Level} (inner : term.Over allowed)
    (limited : level.Over allowed) (around : ∀ level ∈ outer, level.Over allowed) :
    (hold term level outer).Over allowed :=
  ⟨Level.negated_over _ inner, limited, around⟩

theorem want_over {vocabulary : Vocabulary} {level : Level} {outer : List Level} {lexeme : Lexeme}
    {after : Reader} (read : want vocabulary level outer lexeme = .ok after)
    (limited : (wanting level outer).Over vocabulary.Names) : after.Over vocabulary.Names := by
  unfold want at read
  split at read
  · rename_i letters _
    split at read
    · rename_i name found
      cases read
      exact hold_over ⟨letters, found⟩ limited.1 limited.2
    · cases read
  · split at read
    · cases read
      exact ⟨⟨limited.1.sum, limited.1.factor⟩, limited.2⟩
    · cases read
  · split at read
    · cases read
      exact ⟨Level.empty_over, List.forall_mem_cons.mpr limited⟩
    · cases read
  · cases read

theorem follow_over {term : Expr} {level : Level} {outer : List Level} {lexeme : Lexeme}
    {after : Reader} (read : follow term level outer lexeme = .ok after)
    (limited : (holding term level outer).Over allowed) : after.Over allowed := by
  obtain ⟨inner, inLevel, around⟩ := limited
  -- The sum and the product that end with `term` hold nothing new.
  have opened (taken : Bool) : Level.Over allowed ⟨some (level.total term, taken), none, 0⟩ := by
    refine ⟨fun left _ same => ?_, by simp⟩
    cases same
    exact inLevel.total inner
  unfold follow at read
  split at read
  · split at read
    · cases read
      refine ⟨⟨inLevel.sum, fun left same => ?_⟩, around⟩
      cases same
      exact inner
    · cases read
  · cases read
    exact ⟨opened false, around⟩
  · cases read
    exact ⟨opened true, around⟩
  · split at read
    · cases read
      obtain ⟨closed, rest⟩ := List.forall_mem_cons.mp around
      exact hold_over (inLevel.total inner) closed rest
    · cases read
  · split at read <;> cases read

theorem step_over {vocabulary : Vocabulary} {before after : Reader} {lexeme : Lexeme}
    (read : step vocabulary before lexeme = .ok after) (limited : before.Over vocabulary.Names) :
    after.Over vocabulary.Names := by
  cases before with
  | wanting level outer => exact want_over read limited
  | holding term level outer => exact follow_over read limited

theorem finish_over {reader : Reader} {position : Nat} {tree : Expr}
    (ended : reader.finish position = .ok tree) (limited : reader.Over allowed) :
    tree.Over allowed := by
  unfold finish at ended
  split at ended
  · cases ended
  · cases ended
    exact limited.2.1.total limited.1
  · cases ended

end Reader

theorem Expr.parse_over {vocabulary : Vocabulary} {source : String} {tree : Expr}
    (parsed : Expr.parse vocabulary source = .ok tree) : tree.Over vocabulary.Names := by
  obtain ⟨lexemes, _, read⟩ := Except.bind_eq_ok.mp parsed
  obtain ⟨reader, run, ended⟩ := Except.bind_eq_ok.mp read
  refine Reader.finish_over ended ?_
  exact Except.foldlM_keeps (Reader.Over vocabulary.Names) lexemes
    (fun _ _ _ _ limited step => Reader.step_over step limited) Reader.start_over run

end Reading

/-!
Sums of symbols. Every list of symbols that have names can be written as a text, its
names with plus signs between them, which is read as the sum of the symbols.
-/

namespace Expr

def total (sum : Expr) (names : List Symbol) : Expr :=
  names.foldl (fun sum name => .add sum (.symbol name)) sum

theorem eval_total (value : Symbol → Int) (sum : Expr) (names : List Symbol) :
    (sum.total names).eval value = sum.eval value + (names.map value).sum := by
  induction names generalizing sum with
  | nil => exact (Int.add_zero _).symm
  | cons name rest ih =>
      rw [List.map_cons, List.sum_cons, ← Int.add_assoc]
      exact ih _

theorem total_concat (sum : Expr) (names : List Symbol) (name : Symbol) :
    sum.total (names ++ [name]) = .add (sum.total names) (.symbol name) := by
  rw [total, List.foldl_append]
  rfl

theorem total_over {allowed : Symbol → Prop} {sum : Expr} {names : List Symbol}
    (start : sum.Over allowed) (all : ∀ name ∈ names, allowed name) :
    (sum.total names).Over allowed := by
  induction names using List.reverseRecOn with
  | nil => exact start
  | append_singleton names name ih =>
      obtain ⟨before, last⟩ := List.forall_mem_append.mp all
      rw [total_concat]
      exact ⟨ih before, last name List.mem_cons_self⟩

end Expr

variable {vocabulary : Vocabulary}

theorem Derives.total {nesting : Nat} {tokens : List Token} {sum : Expr}
    {words : List (List Char × Symbol)} (derived : Derives vocabulary .sum nesting tokens sum)
    (named : ∀ word ∈ words, word ∈ vocabulary.table) :
    Derives vocabulary .sum nesting (tokens ++ words.flatMap fun word => [.plus, .word word.1])
      (sum.total (words.map Prod.snd)) := by
  induction words generalizing tokens sum with
  | nil => simpa [Expr.total] using derived
  | cons word rest ih =>
      obtain ⟨first, others⟩ := List.forall_mem_cons.mp named
      have longer := ih (.plus derived (.product (.symbol first))) others
      rwa [List.append_assoc] at longer

/-- The names of symbols are words. -/
theorem Vocabulary.table_words {word : List Char × Symbol} (listed : word ∈ vocabulary.table) :
    ∃ first more, word.1 = first :: more ∧ Lexeme.Letter first ∧
      ∀ c ∈ more, Lexeme.WordCharacter c := by
  have checked : ∀ word ∈ vocabulary.table,
      word.1.head?.any Lexeme.startsWord && word.1.tail.all Lexeme.continuesWord := by
    cases vocabulary <;> decide
  have good := checked word listed
  match letters : word.1, good with
  | first :: more, good =>
      simp only [List.head?_cons, Option.any_some, List.tail_cons, Bool.and_eq_true,
        List.all_eq_true] at good
      exact ⟨first, more, rfl, (Lexeme.startsWord_iff first).mp good.1,
        fun c member => (Lexeme.continuesWord_iff c).mp (good.2 c member)⟩

theorem Lexeme.spells_sum {word : List Char × Symbol} {rest : List (List Char × Symbol)}
    (named : ∀ name ∈ word :: rest, name ∈ vocabulary.table) (position : Nat) :
    ∃ lexemes, Spells position (word.1 ++ rest.flatMap fun word => '+' :: word.1) lexemes ∧
      lexemes.map token = .word word.1 :: rest.flatMap fun word => [.plus, .word word.1] := by
  induction rest generalizing word position with
  | nil =>
      obtain ⟨first, more, letters, begins, continues⟩ :=
        Vocabulary.table_words (named word List.mem_cons_self)
      rw [letters]
      exact ⟨_, .word begins continues (by simp) (.nothing _), rfl⟩
  | cons next rest ih =>
      obtain ⟨listed, others⟩ := List.forall_mem_cons.mp named
      obtain ⟨first, more, letters, begins, continues⟩ := Vocabulary.table_words listed
      obtain ⟨lexemes, spelled, tokens⟩ := ih others
        (position + Text.byteLength (first :: more) + '+'.utf8Size)
      have apart : ¬ WordCharacter '+' := by
        rw [← continuesWord_iff]
        decide
      rw [letters]
      refine ⟨_, .word begins continues ?_ (.sign .plus spelled), ?_⟩
      · simpa using apart
      · simp [tokens]

theorem Vocabulary.exists_words {names : List Symbol}
    (named : ∀ name ∈ names, vocabulary.Names name) :
    ∃ words : List (List Char × Symbol), (∀ word ∈ words, word ∈ vocabulary.table) ∧
      words.map Prod.snd = names := by
  induction names with
  | nil => exact ⟨[], by simp, rfl⟩
  | cons name rest ih =>
      obtain ⟨⟨letters, found⟩, others⟩ := List.forall_mem_cons.mp named
      obtain ⟨words, listed, same⟩ := ih others
      have first := (symbol?_eq_some vocabulary letters name).mp found
      exact ⟨(letters, name) :: words, List.forall_mem_cons.mpr ⟨first, listed⟩, by simp [same]⟩

theorem Expr.parse_total {first : Symbol} {rest : List Symbol}
    (named : ∀ name ∈ first :: rest, vocabulary.Names name) (few : rest.length < 128) :
    ∃ source, parse vocabulary source = .ok (total (.symbol first) rest) := by
  obtain ⟨words, listed, same⟩ := Vocabulary.exists_words named
  match words, same with
  | word :: others, rfl =>
      obtain ⟨wordListed, othersListed⟩ := List.forall_mem_cons.mp listed
      obtain ⟨lexemes, spelled, tokens⟩ := Lexeme.spells_sum listed 0
      have derived : Derives vocabulary .sum nestingLimit (lexemes.map Lexeme.token)
          (total (.symbol word.2) (others.map Prod.snd)) := by
        rw [tokens]
        exact Derives.total (.sum (.product (.symbol wordListed))) othersListed
      have room : lexemes.length ≤ tokenLimit := by
        have count := congrArg List.length tokens
        simp at count few
        rw [count, tokenLimit]
        omega
      refine ⟨String.ofList (word.1 ++ others.flatMap fun word => '+' :: word.1), ?_⟩
      refine Except.bind_eq_ok.mpr ⟨lexemes, ?_, Reader.read_eq_ok.mpr derived⟩
      rw [String.toList_ofList]
      exact Lexeme.scan_eq_ok.mpr ⟨spelled, room⟩

end JoinEngine
