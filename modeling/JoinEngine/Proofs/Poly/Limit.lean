import JoinEngine.Proofs.Poly.OfExpr
import Mathlib.Algebra.MvPolynomial.NoZeroDivisors

/-!
What the degree limit does to folding. It is looked at only where a product is made,
so a polynomial stays the same under every higher limit. A product is exactly as high
as its factors together: what a limit refuses does go past it, although the terms that
go past it may still cancel in the expression around the product.
-/

namespace JoinEngine

def Expr.products : Expr → List (Expr × Expr)
  | symbol _ => []
  | neg inner => inner.products
  | add left right | sub left right => left.products ++ right.products
  | mul left right => (left, right) :: (left.products ++ right.products)

/-- Some product in an expression has a polynomial, under the limit, that is higher
than `degree`. -/
def Expr.Exceeds (degree limit : Nat) (tree : Expr) : Prop :=
  ∃ pair ∈ tree.products, ∃ product,
    Poly.ofExpr limit (.mul pair.1 pair.2) = .ok product ∧ degree < product.degree

namespace Poly

section Degrees
open MvPolynomial

variable {left right result poly : Poly}

theorem mem_support_weigh (canonical : Canonical poly.terms) (exponents : Symbol →₀ ℕ) :
    exponents ∈ (weigh (X : Symbol → MvPolynomial Symbol ℤ) poly.terms).support ↔
      ∃ term ∈ poly.terms, Multiset.toFinsupp (term.1 : Multiset Symbol) = exponents := by
  rw [mem_support_iff]
  constructor
  · intro occurs
    -- The exponents are those of some monomial, which can be taken sorted.
    let factors := Monomial.ofSymbols (Finsupp.toMultiset exponents).toList
    have same : Multiset.toFinsupp (factors : Multiset Symbol) = exponents := by
      rw [Multiset.coe_eq_coe.mpr (Monomial.ofSymbols_perm _), Multiset.coe_toList,
        Finsupp.toMultiset_toFinsupp]
    let coefficient := coeff exponents (weigh (X : Symbol → MvPolynomial Symbol ℤ) poly.terms)
    refine ⟨(factors, coefficient), (canonical.mem_iff _).mpr ?_, same⟩
    exact ⟨Monomial.ofSymbols_sorted _, occurs, congrArg (coeff · _) same⟩
  · rintro ⟨term, member, rfl⟩
    obtain ⟨_, nonzero, coefficient⟩ := (canonical.mem_iff term).mp member
    rwa [coefficient]

theorem totalDegree_weigh (canonical : Canonical poly.terms) :
    (weigh (X : Symbol → MvPolynomial Symbol ℤ) poly.terms).totalDegree = poly.degree := by
  apply eq_of_forall_ge_iff
  intro limit
  have count (term : Term) :
      (Multiset.toFinsupp (term.1 : Multiset Symbol)).sum (fun _ exponent => exponent) =
        term.1.length :=
    (Multiset.toFinsupp_sum_eq _).trans (Multiset.coe_card _)
  rw [totalDegree, Finset.sup_le_iff, degree_le_iff]
  constructor
  · intro low term member
    rw [← count term]
    exact low _ ((mem_support_weigh canonical _).mpr ⟨term, member, rfl⟩)
  · intro low exponents occurs
    obtain ⟨term, member, rfl⟩ := (mem_support_weigh canonical _).mp occurs
    rw [count term]
    exact low term member

theorem weigh_X_ne_zero (canonical : Canonical poly.terms) (nonzero : poly.isZero = false) :
    weigh (X : Symbol → MvPolynomial Symbol ℤ) poly.terms ≠ 0 := by
  rw [isZero, List.isEmpty_eq_false_iff_exists_mem] at nonzero
  obtain ⟨term, member⟩ := nonzero
  apply support_nonempty.mp
  exact ⟨_, (mem_support_weigh canonical _).mpr ⟨term, member, rfl⟩⟩

/-- The polynomial as a formal one, in which nothing can overflow. -/
noncomputable def formal (poly : Poly) : MvPolynomial Symbol ℤ := weigh X poly.terms

/-- Coefficients have no zero divisors, so the highest terms of a product stay. -/
theorem totalDegree_formal_mul (leftCanonical : Canonical left.terms)
    (rightCanonical : Canonical right.terms) (leftNonzero : left.isZero = false)
    (rightNonzero : right.isZero = false) :
    (left.formal * right.formal).totalDegree = left.degree + right.degree := by
  unfold formal
  rw [totalDegree_mul_of_isDomain (weigh_X_ne_zero leftCanonical leftNonzero)
      (weigh_X_ne_zero rightCanonical rightNonzero),
    totalDegree_weigh leftCanonical, totalDegree_weigh rightCanonical]

theorem totalDegree_formal_mul_le (leftCanonical : Canonical left.terms)
    (rightCanonical : Canonical right.terms) :
    (left.formal * right.formal).totalDegree ≤ left.degree + right.degree := by
  rw [← totalDegree_weigh leftCanonical, ← totalDegree_weigh rightCanonical]
  exact totalDegree_mul _ _

theorem degree_mul (multiplied : left.mul right = some result)
    (leftCanonical : Canonical left.terms) (rightCanonical : Canonical right.terms)
    (leftNonzero : left.isZero = false) (rightNonzero : right.isZero = false) :
    result.degree = left.degree + right.degree := by
  rw [← totalDegree_weigh (mul_canonical multiplied), mul_weigh X multiplied]
  exact totalDegree_formal_mul leftCanonical rightCanonical leftNonzero rightNonzero

end Degrees

theorem degree_mul_le {left right result : Poly} (multiplied : left.mul right = some result) :
    result.degree ≤ left.degree + right.degree := by
  rw [degree_le_iff]
  refine mul_keeps (Within fun monomial => monomial.length ≤ left.degree + right.degree)
    (by simp [Within]) ?_ multiplied
  intro before first second after present also kept added
  apply added.within kept
  have firstLow := (degree_le_iff left _).mp (Nat.le_refl _) first present
  have secondLow := (degree_le_iff right _).mp (Nat.le_refl _) second also
  rw [(Monomial.ofSymbols_perm _).length_eq, List.length_append]
  exact Nat.add_le_add firstLow secondLow

theorem degree_eq_zero_of_isZero {poly : Poly} (zero : poly.isZero = true) : poly.degree = 0 := by
  rw [isZero, List.isEmpty_iff] at zero
  rw [degree, zero]
  rfl

variable {limit higher : Nat} {tree : Expr} {poly : Poly}

theorem Folds.ofExpr_eq (folded : Folds limit tree poly) : ofExpr limit tree = .ok poly := by
  induction folded with
  | symbol name => rfl
  | neg _ negated ih => exact Except.bind_eq_ok.mpr ⟨_, ih, inRange_eq_ok.mpr negated⟩
  | add _ _ added leftIh rightIh =>
      exact Except.bind_eq_ok.mpr ⟨_, leftIh,
        Except.bind_eq_ok.mpr ⟨_, rightIh, inRange_eq_ok.mpr added⟩⟩
  | sub _ _ negated added leftIh rightIh =>
      refine Except.bind_eq_ok.mpr ⟨_, leftIh,
        Except.bind_eq_ok.mpr ⟨_, rightIh, inRange_eq_ok.mpr ?_⟩⟩
      exact Option.bind_eq_some_iff.mpr ⟨_, negated, added⟩
  | mul _ _ low multiplied leftIh rightIh =>
      exact Except.bind_eq_ok.mpr ⟨_, leftIh,
        Except.bind_eq_ok.mpr ⟨_, rightIh, product_eq_ok.mpr ⟨low, multiplied⟩⟩⟩

theorem Folds.raise (folded : Folds limit tree poly) (raised : limit ≤ higher) :
    Folds higher tree poly := by
  induction folded with
  | symbol name => exact .symbol name
  | neg _ negated ih => exact .neg ih negated
  | add _ _ added leftIh rightIh => exact .add leftIh rightIh added
  | sub _ _ negated added leftIh rightIh => exact .sub leftIh rightIh negated added
  | mul _ _ low multiplied leftIh rightIh =>
      exact .mul leftIh rightIh (Nat.le_trans low raised) multiplied

theorem ofExpr_raise (folded : ofExpr limit tree = .ok poly) (raised : limit ≤ higher) :
    ofExpr higher tree = .ok poly :=
  ((ofExpr_folds folded).raise raised).ofExpr_eq

/-- Symbols alone have a degree that no limit looks at. -/
theorem Folds.degree_le (folded : Folds limit tree poly) (positive : 1 ≤ limit) :
    poly.degree ≤ limit := by
  rw [degree_le_iff]
  change Within (fun monomial => monomial.length ≤ limit) poly.terms
  induction folded with
  | symbol name => simpa [Within, ofSymbol] using positive
  | neg _ negated ih => exact neg_within negated ih
  | add _ _ added leftIh rightIh => exact add_within added leftIh rightIh
  | sub _ _ negated added leftIh rightIh =>
      exact add_within added leftIh (neg_within negated rightIh)
  | mul _ _ low multiplied _ _ =>
      exact (degree_le_iff _ _).mp (Nat.le_trans (degree_mul_le multiplied) low)

/-- Where an expression has a polynomial, so has every product in it. -/
theorem Folds.of_product {pair : Expr × Expr} (folded : Folds limit tree poly)
    (member : pair ∈ tree.products) : ∃ product, Folds limit (.mul pair.1 pair.2) product := by
  induction folded with
  | symbol name => exact absurd member List.not_mem_nil
  | neg _ _ ih => exact ih member
  | add _ _ _ leftIh rightIh | sub _ _ _ _ leftIh rightIh =>
      exact (List.mem_append.mp member).elim leftIh rightIh
  | mul leftFolded rightFolded low multiplied leftIh rightIh =>
      rcases List.mem_cons.mp member with same | deeper
      · subst same
        exact ⟨_, .mul leftFolded rightFolded low multiplied⟩
      · exact (List.mem_append.mp deeper).elim leftIh rightIh

/-- A refusal for the degree names the first product past the limit. -/
theorem ofExpr_eq_degree {found bound : Nat}
    (refused : ofExpr limit tree = .error (.degree found bound)) :
    bound = limit ∧ limit < found ∧ ∃ pair ∈ tree.products, ∃ first second,
      Folds limit pair.1 first ∧ Folds limit pair.2 second ∧
        found = first.degree + second.degree := by
  induction tree with
  | symbol name => cases refused
  | neg inner ih =>
      rcases Except.bind_eq_error.mp refused with inside | ⟨poly, folded, failed⟩
      · exact ih inside
      · cases (inRange_eq_error.mp failed).2
  | add left right leftIh rightIh | sub left right leftIh rightIh =>
      rcases Except.bind_eq_error.mp refused with inside | ⟨first, folded, refused⟩
      · obtain ⟨same, past, pair, member, rest⟩ := leftIh inside
        exact ⟨same, past, pair, List.mem_append_left _ member, rest⟩
      rcases Except.bind_eq_error.mp refused with inside | ⟨second, also, failed⟩
      · obtain ⟨same, past, pair, member, rest⟩ := rightIh inside
        exact ⟨same, past, pair, List.mem_append_right _ member, rest⟩
      · cases (inRange_eq_error.mp failed).2
  | mul left right leftIh rightIh =>
      rcases Except.bind_eq_error.mp refused with inside | ⟨first, folded, refused⟩
      · obtain ⟨same, past, pair, member, rest⟩ := leftIh inside
        exact ⟨same, past, pair, .tail _ (List.mem_append_left _ member), rest⟩
      rcases Except.bind_eq_error.mp refused with inside | ⟨second, also, failed⟩
      · obtain ⟨same, past, pair, member, rest⟩ := rightIh inside
        exact ⟨same, past, pair, .tail _ (List.mem_append_right _ member), rest⟩
      · obtain ⟨past, sum, same⟩ := product_eq_degree.mp failed
        exact ⟨same, sum ▸ past, (left, right), .head _, first, second, ofExpr_folds folded,
          ofExpr_folds also, sum⟩

/-- A factor that is zero adds nothing, and one factor alone stays below the limit. -/
theorem Folds.nonzero_of_past {left right : Expr} {first second : Poly}
    (leftFolded : Folds limit left first) (rightFolded : Folds limit right second)
    (positive : 1 ≤ limit) (past : limit < first.degree + second.degree) :
    first.isZero = false ∧ second.isZero = false := by
  have leftLow := leftFolded.degree_le positive
  have rightLow := rightFolded.degree_le positive
  have nonzero {factor : Poly} (adds : factor.degree ≠ 0) : factor.isZero = false :=
    Bool.eq_false_iff.mpr fun zero => adds (degree_eq_zero_of_isZero zero)
  exact ⟨nonzero (by omega), nonzero (by omega)⟩

/-- The product that is refused is exactly as high as the refusal says. -/
theorem Folds.degree_product {left right : Expr} {first second product : Poly}
    (leftFolded : Folds limit left first) (rightFolded : Folds limit right second)
    (positive : 1 ≤ limit) (past : limit < first.degree + second.degree)
    (multiplied : first.mul second = some product) :
    product.degree = first.degree + second.degree := by
  obtain ⟨leftNonzero, rightNonzero⟩ := leftFolded.nonzero_of_past rightFolded positive past
  exact degree_mul multiplied leftFolded.canonical rightFolded.canonical leftNonzero rightNonzero

/-- A product that was made is the one of the polynomials of its factors. -/
theorem Folds.of_factors {left right : Expr} {first second product : Poly}
    (whole : Folds limit (.mul left right) product) (leftFolded : ofExpr limit left = .ok first)
    (rightFolded : ofExpr limit right = .ok second) :
    first.degree + second.degree ≤ limit ∧ first.mul second = some product := by
  cases whole with
  | mul leftFolds rightFolds low multiplied =>
      cases leftFolded.symm.trans leftFolds.ofExpr_eq
      cases rightFolded.symm.trans rightFolds.ofExpr_eq
      exact ⟨low, multiplied⟩

def Settled (limit : Nat) (outcome : Except Refusal Poly) (poly : Poly) : Prop :=
  outcome = .ok poly ∨ ∃ found, outcome = .error (.degree found limit)

theorem Settled.bind {first : Except Refusal Poly} {next : Poly → Except Refusal Poly}
    {result : Poly} (settled : Settled limit first poly)
    (later : Settled limit (next poly) result) : Settled limit (first >>= next) result := by
  rcases settled with rfl | ⟨found, rfl⟩
  · exact later
  · exact .inr ⟨found, rfl⟩

/-- Under another limit an expression keeps its polynomial or goes past the limit. It
does not overflow there, as the same sums and products are computed. -/
theorem Folds.settled (folded : Folds limit tree poly) (other : Nat) :
    Settled other (ofExpr other tree) poly := by
  induction folded with
  | symbol name => exact .inl rfl
  | neg _ negated ih => exact ih.bind (.inl (inRange_eq_ok.mpr negated))
  | add _ _ added leftIh rightIh =>
      exact leftIh.bind (rightIh.bind (.inl (inRange_eq_ok.mpr added)))
  | sub _ _ negated added leftIh rightIh =>
      have taken := Option.bind_eq_some_iff.mpr ⟨_, negated, added⟩
      exact leftIh.bind (rightIh.bind (.inl (inRange_eq_ok.mpr taken)))
  | @mul _ _ first second _ _ _ _ multiplied leftIh rightIh =>
      refine leftIh.bind (rightIh.bind ?_)
      by_cases low : first.degree + second.degree ≤ other
      · exact .inl (product_eq_ok.mpr ⟨low, multiplied⟩)
      · exact .inr ⟨_, product_eq_degree.mpr ⟨Nat.not_le.mp low, rfl, rfl⟩⟩

/-- Whatever becomes of it later, a product past the limit is refused, and nothing else
is refused for the degree. -/
theorem refused_iff_exceeds {low : Nat} (folded : ofExpr limit tree = .ok poly)
    (positive : 1 ≤ low) (raised : low ≤ limit) :
    (∃ found bound, ofExpr low tree = .error (.degree found bound)) ↔ tree.Exceeds low limit := by
  constructor
  · rintro ⟨found, bound, refused⟩
    obtain ⟨_, past, pair, member, first, second, leftFolded, rightFolded, rfl⟩ :=
      ofExpr_eq_degree refused
    obtain ⟨product, whole⟩ := (ofExpr_folds folded).of_product member
    refine ⟨pair, member, product, whole.ofExpr_eq, ?_⟩
    have made := whole.of_factors (leftFolded.raise raised).ofExpr_eq
      (rightFolded.raise raised).ofExpr_eq
    rw [leftFolded.degree_product rightFolded positive past made.2]
    exact past
  · rintro ⟨pair, member, product, whole, past⟩
    rcases (ofExpr_folds folded).settled low with kept | ⟨found, refused⟩
    · exfalso
      obtain ⟨same, lowFolded⟩ := (ofExpr_folds kept).of_product member
      obtain rfl : same = product :=
        Except.ok.inj ((lowFolded.raise raised).ofExpr_eq.symm.trans whole)
      exact absurd (lowFolded.degree_le positive) (Nat.not_le.mpr past)
    · exact ⟨found, low, refused⟩

end Poly

/-- A polynomial is never above the limit it was folded under, and no higher limit changes
it. A refusal for the degree names the limit and the exact degree of a product in the
expression whose factors are not zero, and a product above the limit is never let through. -/
theorem degree_limit_exact (tree : Expr) (limit : Nat) (positive : 1 ≤ limit) :
    (∀ poly, Poly.ofExpr limit tree = .ok poly →
      poly.degree ≤ limit ∧ ∀ higher, limit ≤ higher → Poly.ofExpr higher tree = .ok poly) ∧
    (∀ found bound, Poly.ofExpr limit tree = .error (.degree found bound) →
      bound = limit ∧ limit < found ∧ ∃ pair ∈ tree.products, ∃ first second,
        Poly.ofExpr limit pair.1 = .ok first ∧ Poly.ofExpr limit pair.2 = .ok second ∧
        first.isZero = false ∧ second.isZero = false ∧
        (first.formal * second.formal).totalDegree = found) ∧
    ∀ pair ∈ tree.products, ∀ first second,
      Poly.ofExpr limit pair.1 = .ok first → Poly.ofExpr limit pair.2 = .ok second →
      limit < (first.formal * second.formal).totalDegree →
      ∃ refusal, Poly.ofExpr limit tree = .error refusal := by
  refine ⟨fun poly folded => ?_, fun found bound refused => ?_, ?_⟩
  · have folds := Poly.ofExpr_folds folded
    exact ⟨folds.degree_le positive, fun higher raised => Poly.ofExpr_raise folded raised⟩
  · obtain ⟨same, past, pair, member, first, second, leftFolds, rightFolds, rfl⟩ :=
      Poly.ofExpr_eq_degree refused
    obtain ⟨leftNonzero, rightNonzero⟩ := leftFolds.nonzero_of_past rightFolds positive past
    have degrees := Poly.totalDegree_formal_mul leftFolds.canonical rightFolds.canonical
      leftNonzero rightNonzero
    exact ⟨same, past, pair, member, first, second, leftFolds.ofExpr_eq, rightFolds.ofExpr_eq,
      leftNonzero, rightNonzero, degrees⟩
  · intro pair member first second leftFolded rightFolded past
    rw [Except.exists_error_iff]
    rintro ⟨poly, folded⟩
    -- The product would have been made, and then the degrees of its factors were within the limit.
    obtain ⟨product, whole⟩ := (Poly.ofExpr_folds folded).of_product member
    have low := (whole.of_factors leftFolded rightFolded).1
    have high := Poly.totalDegree_formal_mul_le (Poly.ofExpr_folds leftFolded).canonical
      (Poly.ofExpr_folds rightFolded).canonical
    omega

/-- Under limit two a product of three symbols is refused for its degree. Under limit three
it is not, and more room changes nothing. -/
theorem triple_product_refused :
    let stream (number : UInt8) : Expr := .symbol (.stream number)
    let sum : Expr := .sub (stream 1) (stream 2)
    let product : Expr := .mul (stream 3) (stream 3)
    let tree : Expr := .add (stream 4) (.mul sum product)
    Poly.ofExpr 2 tree = .error (.degree 3 2) ∧
      (∃ pair ∈ tree.products, ∃ first second,
        Poly.ofExpr 2 pair.1 = .ok first ∧ Poly.ofExpr 2 pair.2 = .ok second ∧
        first.isZero = false ∧ second.isZero = false ∧
        (first.formal * second.formal).totalDegree = 3) ∧
      ∃ poly, Poly.ofExpr 3 tree = .ok poly ∧ poly.degree ≤ 3 ∧ Poly.ofExpr 9 tree = .ok poly := by
  intro stream sum product tree
  have refused : Poly.ofExpr 2 tree = .error (.degree 3 2) := by decide
  have folded : Poly.ofExpr 3 tree = .ok ⟨[([.stream 1, .stream 3, .stream 3], 1),
      ([.stream 2, .stream 3, .stream 3], -1), ([.stream 4], 1)]⟩ := by decide
  have under := degree_limit_exact tree 2 (by decide)
  have above := (degree_limit_exact tree 3 (by decide)).1 _ folded
  exact ⟨refused, (under.2.1 3 2 refused).2.2, _, folded, above.1, above.2 9 (by decide)⟩

end JoinEngine
