import JoinEngine.Proofs.Alu.Compile
import JoinEngine.Proofs.Poly.Norm
import JoinEngine.Proofs.Shape.Invariant

/-!
No text makes a coefficient leave its range. A text has at most 256 lexemes, so the
tree read from it has at most 256 leaves; below the degree of a pattern the
polynomial of such a tree has a norm of at most one, and so has everything that is
computed on the way to it. Therefore neither a table nor an expression is ever
refused for an overflow.
-/

namespace JoinEngine

namespace Expr

def leaves : Expr → Nat
  | symbol _ => 1
  | neg inner => inner.leaves
  | add left right | sub left right | mul left right => left.leaves + right.leaves

/-- Every operation on polynomials that folding the expression comes to has a result. -/
def NeverOverflows (limit : Nat) : Expr → Prop
  | symbol _ => True
  | neg inner => inner.NeverOverflows limit ∧
      ∀ poly, Poly.ofExpr limit inner = .ok poly → ∃ result, poly.neg = some result
  | add left right => left.NeverOverflows limit ∧ right.NeverOverflows limit ∧
      ∀ first second, Poly.ofExpr limit left = .ok first → Poly.ofExpr limit right = .ok second →
        ∃ result, first.add second = some result
  | sub left right => left.NeverOverflows limit ∧ right.NeverOverflows limit ∧
      ∀ first second, Poly.ofExpr limit left = .ok first → Poly.ofExpr limit right = .ok second →
        ∃ opposite result, second.neg = some opposite ∧ first.add opposite = some result
  | mul left right => left.NeverOverflows limit ∧ right.NeverOverflows limit ∧
      ∀ first second, Poly.ofExpr limit left = .ok first → Poly.ofExpr limit right = .ok second →
        first.degree + second.degree ≤ limit → ∃ result, first.mul second = some result

end Expr

namespace Poly

/-- The part that so many leaves are of all that a text can have. -/
def share (leaves : Nat) : ℚ := leaves / 256

theorem share_nonneg (leaves : Nat) : 0 ≤ share leaves := by
  unfold share
  positivity

theorem share_le_one {leaves : Nat} (few : leaves ≤ 256) : share leaves ≤ 1 := by
  have cast : (leaves : ℚ) ≤ 256 := by exact_mod_cast few
  unfold share
  linarith

theorem share_add (left right : Nat) : share (left + right) = share left + share right := by
  unfold share
  push_cast
  ring

section Steps
variable {left right : Nat} {first second : Poly}

theorem bounded_neg (bounded : first.Bounded (share left)) (few : left ≤ 256) :
    ∃ result, first.neg = some result ∧ result.Bounded (share left) :=
  bounded.neg (share_le_one few)

theorem bounded_add (leftBounded : first.Bounded (share left))
    (rightBounded : second.Bounded (share right)) (few : left + right ≤ 256) :
    ∃ result, first.add second = some result ∧ result.Bounded (share (left + right)) := by
  have total := share_le_one few
  rw [share_add] at total ⊢
  exact leftBounded.add rightBounded total

theorem bounded_sub (leftBounded : first.Bounded (share left))
    (rightBounded : second.Bounded (share right)) (few : left + right ≤ 256) :
    ∃ opposite result, second.neg = some opposite ∧ first.add opposite = some result ∧
      result.Bounded (share (left + right)) := by
  obtain ⟨opposite, negated, bounded⟩ := bounded_neg rightBounded (by omega)
  obtain ⟨result, added, small⟩ := bounded_add leftBounded bounded few
  exact ⟨opposite, result, negated, added, small⟩

/-- Each side is at most one, so their product is at most their sum. -/
theorem bounded_mul (leftBounded : first.Bounded (share left))
    (rightBounded : second.Bounded (share right)) (few : left + right ≤ 256)
    (low : first.degree + second.degree ≤ 4) :
    ∃ result, first.mul second = some result ∧ result.Bounded (share (left + right)) := by
  have leftRoom : share left ≤ 1 := share_le_one (by omega)
  have rightRoom : share right ≤ 1 := share_le_one (by omega)
  obtain ⟨result, multiplied, bounded⟩ := leftBounded.mul rightBounded leftRoom rightRoom low
  refine ⟨result, multiplied, bounded.short, bounded.norm_le.trans ?_⟩
  calc share left * share right
      ≤ share left * 1 := mul_le_mul_of_nonneg_left rightRoom (share_nonneg left)
    _ ≤ share left + share right := by linarith [share_nonneg right]
    _ = share (left + right) := (share_add left right).symm

end Steps

variable {limit : Nat} {tree : Expr}

/-- A polynomial is no larger than the share of the leaves it comes from. -/
theorem Folds.bounded {poly : Poly} (folded : Folds limit tree poly) (low : limit ≤ 4)
    (few : tree.leaves ≤ 256) : poly.Bounded (share tree.leaves) := by
  induction folded with
  | symbol name => simpa [share, Expr.leaves] using ofSymbol_bounded name
  | neg _ negated ih =>
      obtain ⟨result, run, bounded⟩ := bounded_neg (ih few) few
      cases negated.symm.trans run
      exact bounded
  | add _ _ added leftIh rightIh =>
      have leftFew := Nat.le_trans (Nat.le_add_right _ _) few
      have rightFew := Nat.le_trans (Nat.le_add_left _ _) few
      obtain ⟨result, run, bounded⟩ := bounded_add (leftIh leftFew) (rightIh rightFew) few
      cases added.symm.trans run
      exact bounded
  | sub _ _ negated added leftIh rightIh =>
      have leftFew := Nat.le_trans (Nat.le_add_right _ _) few
      have rightFew := Nat.le_trans (Nat.le_add_left _ _) few
      obtain ⟨opposite, result, turned, run, bounded⟩ :=
        bounded_sub (leftIh leftFew) (rightIh rightFew) few
      cases negated.symm.trans turned
      cases added.symm.trans run
      exact bounded
  | mul _ _ inLimit multiplied leftIh rightIh =>
      have leftFew := Nat.le_trans (Nat.le_add_right _ _) few
      have rightFew := Nat.le_trans (Nat.le_add_left _ _) few
      obtain ⟨result, run, bounded⟩ :=
        bounded_mul (leftIh leftFew) (rightIh rightFew) few (Nat.le_trans inLimit low)
      cases multiplied.symm.trans run
      exact bounded

theorem neverOverflows (low : limit ≤ 4) (few : tree.leaves ≤ 256) :
    tree.NeverOverflows limit := by
  have bounded {part : Expr} {poly : Poly} (folded : ofExpr limit part = .ok poly)
      (fewer : part.leaves ≤ 256) : poly.Bounded (share part.leaves) :=
    (ofExpr_folds folded).bounded low fewer
  induction tree with
  | symbol name => trivial
  | neg inner ih =>
      refine ⟨ih few, fun poly folded => ?_⟩
      obtain ⟨result, run, _⟩ := bounded_neg (bounded folded few) few
      exact ⟨result, run⟩
  | add left right leftIh rightIh =>
      have leftFew := Nat.le_trans (Nat.le_add_right _ _) few
      have rightFew := Nat.le_trans (Nat.le_add_left _ _) few
      refine ⟨leftIh leftFew, rightIh rightFew, fun first second folded also => ?_⟩
      obtain ⟨result, run, _⟩ :=
        bounded_add (bounded folded leftFew) (bounded also rightFew) few
      exact ⟨result, run⟩
  | sub left right leftIh rightIh =>
      have leftFew := Nat.le_trans (Nat.le_add_right _ _) few
      have rightFew := Nat.le_trans (Nat.le_add_left _ _) few
      refine ⟨leftIh leftFew, rightIh rightFew, fun first second folded also => ?_⟩
      obtain ⟨opposite, result, negated, run, _⟩ :=
        bounded_sub (bounded folded leftFew) (bounded also rightFew) few
      exact ⟨opposite, result, negated, run⟩
  | mul left right leftIh rightIh =>
      have leftFew := Nat.le_trans (Nat.le_add_right _ _) few
      have rightFew := Nat.le_trans (Nat.le_add_left _ _) few
      refine ⟨leftIh leftFew, rightIh rightFew, fun first second folded also inLimit => ?_⟩
      obtain ⟨result, run, _⟩ := bounded_mul (bounded folded leftFew) (bounded also rightFew) few
        (Nat.le_trans inLimit low)
      exact ⟨result, run⟩

theorem ofExpr_ne_overflow (free : tree.NeverOverflows limit) :
    ofExpr limit tree ≠ .error .overflow := by
  induction tree with
  | symbol name => simp [ofExpr]
  | neg inner ih =>
      intro failed
      rcases Except.bind_eq_error.mp failed with inside | ⟨poly, folded, failed⟩
      · exact ih free.1 inside
      · obtain ⟨result, run⟩ := free.2 poly folded
        simp [inRange, run] at failed
  | add left right leftIh rightIh =>
      intro failed
      rcases Except.bind_eq_error.mp failed with inside | ⟨first, folded, failed⟩
      · exact leftIh free.1 inside
      rcases Except.bind_eq_error.mp failed with inside | ⟨second, also, failed⟩
      · exact rightIh free.2.1 inside
      obtain ⟨result, run⟩ := free.2.2 first second folded also
      simp [inRange, run] at failed
  | sub left right leftIh rightIh =>
      intro failed
      rcases Except.bind_eq_error.mp failed with inside | ⟨first, folded, failed⟩
      · exact leftIh free.1 inside
      rcases Except.bind_eq_error.mp failed with inside | ⟨second, also, failed⟩
      · exact rightIh free.2.1 inside
      obtain ⟨opposite, result, negated, run⟩ := free.2.2 first second folded also
      simp [inRange, negated, run] at failed
  | mul left right leftIh rightIh =>
      intro failed
      rcases Except.bind_eq_error.mp failed with inside | ⟨first, folded, failed⟩
      · exact leftIh free.1 inside
      rcases Except.bind_eq_error.mp failed with inside | ⟨second, also, failed⟩
      · exact rightIh free.2.1 inside
      obtain ⟨inLimit, missing⟩ := product_eq_overflow.mp failed
      obtain ⟨result, run⟩ := free.2.2 first second folded also inLimit
      simp [run] at missing

end Poly

theorem Derives.leaves_le {vocabulary : Vocabulary} {phrase : Phrase} {nesting : Nat}
    {tokens : List Token} {tree : Expr} (derived : Derives vocabulary phrase nesting tokens tree) :
    tree.leaves ≤ tokens.length := by
  induction derived with
  | sum _ ih | product _ ih => exact ih
  | plus _ _ leftIh rightIh | minus _ _ leftIh rightIh | times _ _ leftIh rightIh =>
      simp only [Expr.leaves, List.length_append, List.length_cons]
      omega
  | symbol named => exact Nat.le_refl _
  | negation _ ih =>
      simp only [Expr.leaves, List.length_cons]
      omega
  | parentheses _ ih =>
      simp only [List.length_cons, List.length_append]
      omega

theorem Expr.leaves_of_parse {vocabulary : Vocabulary} {source : String} {tree : Expr}
    (parsed : parse vocabulary source = .ok tree) : tree.leaves ≤ 256 := by
  obtain ⟨lexemes, scanned, read⟩ := Except.bind_eq_ok.mp parsed
  have room := (Lexeme.scan_eq_ok.mp scanned).2
  have derived := (Reader.read_eq_ok.mp read).leaves_le
  rw [List.length_map] at derived
  exact Nat.le_trans derived room

section Refusals
variable {shapes : List Shape} {table : ShapeTable} {name : String} {refusal : Poly.Refusal}

namespace ShapeTable

theorem entry_refused {shape : Shape} (failed : entry shape = .error (.refused name refusal)) :
    ∃ tree, Expr.parse .pattern shape.pattern = .ok tree ∧
      Poly.ofExpr patternLimit tree = .error refusal := by
  rcases Except.bind_eq_error.mp failed with unread | ⟨tree, parsed, failed⟩
  · obtain ⟨_, _, impossible⟩ := Except.mapError_eq_error.mp unread
    cases impossible
  rcases Except.bind_eq_error.mp failed with refused | ⟨poly, folded, failed⟩
  · obtain ⟨cause, folded, same⟩ := Except.mapError_eq_error.mp refused
    cases same
    exact ⟨tree, Except.mapError_eq_ok.mp parsed, folded⟩
  · split at failed <;> cases failed

theorem entriesAfter_refused {names : List String} {opcodes : List UInt8}
    (failed : entriesAfter names opcodes shapes = .error (.refused name refusal)) :
    ∃ shape ∈ shapes, entry shape = .error (.refused name refusal) := by
  induction shapes generalizing names opcodes with
  | nil => cases failed
  | cons shape rest ih =>
      rw [entriesAfter] at failed
      split at failed
      · cases failed
      split at failed
      · cases failed
      split at failed
      · cases failed
      rcases Except.bind_eq_error.mp failed with first | ⟨made, _, failed⟩
      · exact ⟨shape, List.mem_cons_self, first⟩
      rcases Except.bind_eq_error.mp failed with later | ⟨others, _, impossible⟩
      · obtain ⟨other, member, refused⟩ := ih later
        exact ⟨other, List.mem_cons_of_mem _ member, refused⟩
      · cases impossible

theorem build_refused (failed : build shapes = .error (.refused name refusal)) :
    ∃ shape ∈ shapes, entry shape = .error (.refused name refusal) := by
  unfold build at failed
  split at failed
  · cases failed
  · cases made : entriesAfter [] [] shapes with
    | ok entries => simp [made, Except.map] at failed
    | error fault =>
        rw [made] at failed
        cases failed
        exact entriesAfter_refused made

end ShapeTable

namespace ExprSpec

theorem constants_eq_error {format : ConstFormat} {registers : Registers} {fault : CompileError}
    (failed : constants format registers = .error fault) :
    ∃ register value, fault = .constantOverflow register value format.constBits := by
  have single {register : Nat} {value : Int64}
      (overfull : format.encode register value = .error fault) :
      ∃ register value, fault = .constantOverflow register value format.constBits := by
    unfold ConstFormat.encode at overfull
    simp only at overfull
    split at overfull
    · cases overfull
    · cases overfull
      exact ⟨register, value, rfl⟩
  rcases Except.bind_eq_error.mp failed with first | ⟨c1, _, failed⟩
  · exact single first
  rcases Except.bind_eq_error.mp failed with second | ⟨c2, _, failed⟩
  · exact single second
  rcases Except.bind_eq_error.mp failed with third | ⟨c3, _, failed⟩
  · exact single third
  rcases Except.bind_eq_error.mp failed with fourth | ⟨c4, _, impossible⟩
  · exact single fourth
  · cases impossible

theorem compile_refused {format : ConstFormat} {spec : ExprSpec} {source : String}
    (failed : spec.compile format table = .error (.unsupported source (.refused refusal))) :
    ∃ tree, Expr.parse .expression spec.source = .ok tree ∧
      Poly.ofExpr table.maxDegree tree = .error refusal := by
  unfold compile at failed
  rcases Except.bind_eq_error.mp failed with invalid | ⟨_, _, failed⟩
  · obtain ⟨_, _, impossible⟩ := Except.mapError_eq_error.mp invalid
    cases impossible
  rcases Except.bind_eq_error.mp failed with unread | ⟨tree, parsed, failed⟩
  · obtain ⟨_, _, impossible⟩ := Except.mapError_eq_error.mp unread
    cases impossible
  rcases Except.bind_eq_error.mp failed with refused | ⟨poly, folded, failed⟩
  · obtain ⟨cause, folded, same⟩ := Except.mapError_eq_error.mp refused
    cases same
    exact ⟨tree, Except.mapError_eq_ok.mp parsed, folded⟩
  -- Behind the polynomial other things can be wrong, but none of them is a refusal.
  exfalso
  cases zero : poly.isZero with
  | true =>
      simp only [zero, if_true] at failed
      cases failed
  | false =>
      cases matched : table.find? poly with
      | none =>
          simp only [zero, matched, Bool.false_eq_true, if_false] at failed
          cases failed
      | some found =>
          cases bound : unbound? spec.registers poly.symbols with
          | some register =>
              simp only [zero, matched, bound, Bool.false_eq_true, if_false] at failed
              cases failed
          | none =>
              simp only [zero, matched, bound, Bool.false_eq_true, if_false] at failed
              rcases Except.bind_eq_error.mp failed with overfull | ⟨values, _, impossible⟩
              · obtain ⟨register, value, impossible⟩ := constants_eq_error overfull
                cases impossible
              · cases impossible

end ExprSpec

end Refusals

/-- Folding what was read from a text never overflows, at no operation on the way. So
no table is refused for it, and no expression under a table. -/
theorem coefficients_never_overflow :
    (∀ vocabulary source tree limit, Expr.parse vocabulary source = .ok tree → limit ≤ 4 →
      tree.NeverOverflows limit ∧ Poly.ofExpr limit tree ≠ .error .overflow) ∧
    (∀ shapes name, ShapeTable.build shapes ≠ .error (.refused name .overflow)) ∧
    ∀ shapes table, ShapeTable.build shapes = .ok table → table.maxDegree ≤ 4 ∧
      ∀ format (spec : ExprSpec) source,
        spec.compile format table ≠ .error (.unsupported source (.refused .overflow)) := by
  have free {vocabulary source tree limit} (parsed : Expr.parse vocabulary source = .ok tree)
      (low : limit ≤ 4) : tree.NeverOverflows limit :=
    Poly.neverOverflows low (Expr.leaves_of_parse parsed)
  refine ⟨fun vocabulary source tree limit parsed low => ?_, fun shapes name failed => ?_,
    fun shapes table built =>
      ⟨ShapeTable.build_maxDegree built, fun format spec source failed => ?_⟩⟩
  · exact ⟨free parsed low, Poly.ofExpr_ne_overflow (free parsed low)⟩
  · obtain ⟨shape, _, refused⟩ := ShapeTable.build_refused failed
    obtain ⟨tree, parsed, overflowed⟩ := ShapeTable.entry_refused refused
    exact Poly.ofExpr_ne_overflow (free parsed (Nat.le_refl 4)) overflowed
  · obtain ⟨tree, parsed, overflowed⟩ := ExprSpec.compile_refused failed
    exact Poly.ofExpr_ne_overflow (free parsed (ShapeTable.build_maxDegree built)) overflowed

theorem doubled_never_overflows :
    let tree : Expr :=
      .mul (.add (.symbol (.stream 1)) (.symbol (.stream 1))) (.symbol (.constant 1))
    let table : ShapeTable := ⟨[⟨⟨"twice", 1, "(a+a)*k"⟩, ⟨[([.stream 0, .constant 0], 2)]⟩⟩]⟩
    (Expr.parse .expression "(strm1+strm1)*c1" = .ok tree ∧ tree.NeverOverflows 4 ∧
      Poly.ofExpr 4 tree ≠ .error .overflow) ∧
    ShapeTable.build [⟨"twice", 1, "(a+a)*k"⟩] = .ok table ∧ table.maxDegree ≤ 4 ∧
      ∀ format (spec : ExprSpec) source,
        spec.compile format table ≠ .error (.unsupported source (.refused .overflow)) := by
  intro tree table
  have parsed : Expr.parse .expression "(strm1+strm1)*c1" = .ok tree := by decide
  have built : ShapeTable.build [⟨"twice", 1, "(a+a)*k"⟩] = .ok table := by decide
  exact ⟨⟨parsed, coefficients_never_overflow.1 _ _ tree 4 parsed (by decide)⟩, built,
    coefficients_never_overflow.2.2 _ table built⟩

end JoinEngine
