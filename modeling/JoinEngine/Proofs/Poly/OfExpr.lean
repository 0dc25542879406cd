import JoinEngine.Proofs.Expr.Vocabulary
import JoinEngine.Proofs.Poly.Value
import Mathlib.Logic.Function.Basic

/-!
The polynomial of an expression has its value at every point, is canonical, and
has no symbols but those of the expression. So two expressions that have
polynomials have the same one exactly if they have the same value everywhere.
-/

namespace JoinEngine.Poly

theorem inRange_eq_ok {result : Option Poly} {poly : Poly} :
    inRange result = .ok poly ↔ result = some poly := by
  cases result <;> simp [inRange]

theorem product_eq_ok {limit : Nat} {left right result : Poly} :
    product limit left right = .ok result ↔
      left.degree + right.degree ≤ limit ∧ left.mul right = some result := by
  unfold product
  simp only
  split
  · rename_i above
    constructor
    · intro impossible
      cases impossible
    · rintro ⟨below, _⟩
      omega
  · rename_i below
    rw [inRange_eq_ok]
    exact ⟨fun multiplied => ⟨by omega, multiplied⟩, And.right⟩

theorem inRange_eq_error {result : Option Poly} {refusal : Refusal} :
    inRange result = .error refusal ↔ result = none ∧ refusal = .overflow := by
  cases result <;> simp [inRange, eq_comm]

theorem product_eq_overflow {limit : Nat} {left right : Poly} :
    product limit left right = .error .overflow ↔
      left.degree + right.degree ≤ limit ∧ left.mul right = none := by
  unfold product
  simp only
  split
  · rename_i above
    simp
    omega
  · rename_i below
    simp [inRange_eq_error]
    omega

theorem product_eq_degree {limit found bound : Nat} {left right : Poly} :
    product limit left right = .error (.degree found bound) ↔
      limit < left.degree + right.degree ∧ found = left.degree + right.degree ∧ bound = limit := by
  unfold product
  simp only
  split
  · rename_i above
    simp [above, eq_comm]
  · rename_i below
    simp [inRange_eq_error, below]

inductive Folds (limit : Nat) : Expr → Poly → Prop where
  | symbol (name : Symbol) : Folds limit (.symbol name) (ofSymbol name)
  | neg {inner : Expr} {poly result : Poly} (folded : Folds limit inner poly)
      (negated : poly.neg = some result) : Folds limit (.neg inner) result
  | add {left right : Expr} {first second result : Poly} (leftFolded : Folds limit left first)
      (rightFolded : Folds limit right second) (added : first.add second = some result) :
      Folds limit (.add left right) result
  | sub {left right : Expr} {first second opposite result : Poly}
      (leftFolded : Folds limit left first) (rightFolded : Folds limit right second)
      (negated : second.neg = some opposite) (added : first.add opposite = some result) :
      Folds limit (.sub left right) result
  | mul {left right : Expr} {first second result : Poly} (leftFolded : Folds limit left first)
      (rightFolded : Folds limit right second) (low : first.degree + second.degree ≤ limit)
      (multiplied : first.mul second = some result) : Folds limit (.mul left right) result

theorem ofExpr_folds {limit : Nat} {tree : Expr} {poly : Poly}
    (folded : ofExpr limit tree = .ok poly) : Folds limit tree poly := by
  induction tree generalizing poly with
  | symbol name =>
      cases folded
      exact .symbol name
  | neg inner ih =>
      obtain ⟨first, innerFolded, negated⟩ := Except.bind_eq_ok.mp folded
      exact .neg (ih innerFolded) (inRange_eq_ok.mp negated)
  | add left right leftIh rightIh =>
      obtain ⟨first, leftFolded, rest⟩ := Except.bind_eq_ok.mp folded
      obtain ⟨second, rightFolded, added⟩ := Except.bind_eq_ok.mp rest
      exact .add (leftIh leftFolded) (rightIh rightFolded) (inRange_eq_ok.mp added)
  | sub left right leftIh rightIh =>
      obtain ⟨first, leftFolded, rest⟩ := Except.bind_eq_ok.mp folded
      obtain ⟨second, rightFolded, taken⟩ := Except.bind_eq_ok.mp rest
      obtain ⟨opposite, negated, added⟩ := Option.bind_eq_some_iff.mp (inRange_eq_ok.mp taken)
      exact .sub (leftIh leftFolded) (rightIh rightFolded) negated added
  | mul left right leftIh rightIh =>
      obtain ⟨first, leftFolded, rest⟩ := Except.bind_eq_ok.mp folded
      obtain ⟨second, rightFolded, multiplied⟩ := Except.bind_eq_ok.mp rest
      obtain ⟨low, multiplied⟩ := product_eq_ok.mp multiplied
      exact .mul (leftIh leftFolded) (rightIh rightFolded) low multiplied

variable {limit : Nat} {tree : Expr} {poly : Poly}

theorem Folds.canonical (folded : Folds limit tree poly) : Canonical poly.terms := by
  induction folded with
  | symbol name => exact ofSymbol_canonical name
  | neg _ negated ih => exact neg_canonical negated ih
  | add _ _ added leftIh rightIh => exact add_canonical added leftIh rightIh
  | sub _ _ negated added leftIh rightIh =>
      exact add_canonical added leftIh (neg_canonical negated rightIh)
  | mul _ _ _ multiplied _ _ => exact mul_canonical multiplied

theorem Folds.weigh_eq (folded : Folds limit tree poly) (value : Symbol → Int) :
    weigh value poly.terms = tree.eval value := by
  induction folded with
  | symbol name => simp [ofSymbol, Monomial.denote, Expr.eval]
  | neg _ negated ih => rw [neg_weigh value negated, ih, Expr.eval]
  | add _ _ added leftIh rightIh => rw [add_weigh value added, leftIh, rightIh, Expr.eval]
  | sub _ _ negated added leftIh rightIh =>
      rw [add_weigh value added, neg_weigh value negated, leftIh, rightIh, Expr.eval,
        sub_eq_add_neg]
  | mul _ _ _ multiplied leftIh rightIh =>
      rw [mul_weigh value multiplied, leftIh, rightIh, Expr.eval]

theorem Folds.within {allowed : Symbol → Prop} (folded : Folds limit tree poly)
    (limited : tree.Over allowed) :
    Within (fun monomial => ∀ symbol ∈ monomial, allowed symbol) poly.terms := by
  induction folded with
  | symbol name => simpa [Within, ofSymbol, Expr.Over] using limited
  | neg _ negated ih => exact neg_within negated (ih limited)
  | add _ _ added leftIh rightIh => exact add_within added (leftIh limited.1) (rightIh limited.2)
  | sub _ _ negated added leftIh rightIh =>
      exact add_within added (leftIh limited.1) (neg_within negated (rightIh limited.2))
  | mul _ _ _ multiplied leftIh rightIh =>
      refine mul_within (fun first second firstOver secondOver symbol member => ?_) multiplied
        (leftIh limited.1) (rightIh limited.2)
      rcases List.mem_append.mp ((Monomial.ofSymbols_perm _).mem_iff.mp member) with one | other
      · exact firstOver symbol one
      · exact secondOver symbol other

/-- There is no term without symbols. -/
theorem Folds.proper (folded : Folds limit tree poly) :
    Within (fun monomial => monomial ≠ []) poly.terms := by
  induction folded with
  | symbol name => simp [Within, ofSymbol]
  | neg _ negated ih => exact neg_within negated ih
  | add _ _ added leftIh rightIh => exact add_within added leftIh rightIh
  | sub _ _ negated added leftIh rightIh =>
      exact add_within added leftIh (neg_within negated rightIh)
  | mul _ _ _ multiplied leftIh rightIh =>
      refine mul_within (fun first second proper _ empty => ?_) multiplied leftIh rightIh
      have none := (Monomial.ofSymbols_perm (first ++ second)).symm
      rw [empty, List.perm_nil, List.append_eq_nil_iff] at none
      exact proper none.1

theorem Folds.symbols_ne_nil (folded : Folds limit tree poly) (nonzero : poly.isZero = false) :
    ∃ symbol, symbol ∈ poly.symbols := by
  rw [isZero, List.isEmpty_eq_false_iff_exists_mem] at nonzero
  obtain ⟨term, member⟩ := nonzero
  obtain ⟨symbol, inside⟩ := List.exists_mem_of_ne_nil _ (folded.proper term member)
  exact ⟨symbol, (mem_symbols poly symbol).mpr ⟨term, member, inside⟩⟩

theorem ofExpr_eval (folded : ofExpr limit tree = .ok poly) (value : Symbol → Int) :
    poly.eval value = tree.eval value := by
  rw [eval_eq_weigh, (ofExpr_folds folded).weigh_eq value]

theorem ofExpr_symbols {allowed : Symbol → Prop} (folded : ofExpr limit tree = .ok poly)
    (limited : tree.Over allowed) : ∀ symbol ∈ poly.symbols, allowed symbol := by
  intro symbol member
  obtain ⟨term, present, inside⟩ := (mem_symbols poly symbol).mp member
  exact (ofExpr_folds folded).within limited term present symbol inside

theorem ofExpr_eq_iff {otherLimit : Nat} {other : Expr} {second : Poly}
    (folded : ofExpr limit tree = .ok poly) (otherFolded : ofExpr otherLimit other = .ok second) :
    poly = second ↔ ∀ value : Symbol → Int, tree.eval value = other.eval value := by
  have first := ofExpr_folds folded
  have also := ofExpr_folds otherFolded
  constructor
  · rintro rfl value
    rw [← first.weigh_eq value, also.weigh_eq value]
  · intro agree
    refine congrArg Poly.mk (first.canonical.eq_of_weigh_eq also.canonical fun value => ?_)
    rw [first.weigh_eq value, also.weigh_eq value, agree value]

end JoinEngine.Poly

/-!
The symbols that matter. With zero for a symbol, only the terms without it are left;
if that never changes the value, there are no other terms. So the polynomial of an
expression holds the symbols on which the value of the expression depends, and the
symbols that cancel are gone.
-/

namespace JoinEngine

/-- Some change of the symbol alone changes the value. -/
def Expr.DependsOn (tree : Expr) (symbol : Symbol) : Prop :=
  ∃ value other : Symbol → Int,
    (∀ rest, rest ≠ symbol → value rest = other rest) ∧ tree.eval value ≠ tree.eval other

theorem Monomial.denote_update_zero (value : Symbol → Int) (symbol : Symbol) (monomial : Monomial) :
    monomial.denote (Function.update value symbol 0) =
      if symbol ∈ monomial then 0 else monomial.denote value := by
  by_cases occurs : symbol ∈ monomial
  · have zero : (0 : Int) ∈ monomial.map (Function.update value symbol 0) :=
      List.mem_map.mpr ⟨symbol, occurs, Function.update_self ..⟩
    simp [Monomial.denote, occurs, List.prod_eq_zero zero]
  · have kept : monomial.map (Function.update value symbol 0) = monomial.map value := by
      apply List.map_congr_left
      intro other inside
      have different : other ≠ symbol := fun same => occurs (same ▸ inside)
      exact Function.update_of_ne different ..
    simp [Monomial.denote, occurs, kept]

namespace Poly

def without (symbol : Symbol) (terms : List Term) : List Term :=
  terms.filter fun term => symbol ∉ term.1

theorem weigh_update_zero (value : Symbol → Int) (symbol : Symbol) (terms : List Term) :
    weigh (Function.update value symbol 0) terms = weigh value (without symbol terms) := by
  induction terms with
  | nil => rfl
  | cons term rest ih =>
      by_cases occurs : symbol ∈ term.1 <;>
        simpa [without, occurs, Monomial.denote_update_zero] using ih

theorem Canonical.without {terms : List Term} (canonical : Canonical terms) (symbol : Symbol) :
    Canonical (without symbol terms) where
  ascending := canonical.ascending.filter _
  sorted := fun term member => canonical.sorted term (List.mem_of_mem_filter member)
  nonzero := fun term member => canonical.nonzero term (List.mem_of_mem_filter member)

/-- A symbol that makes no difference occurs in no term. -/
theorem Canonical.absent_of_unchanged {terms : List Term} (canonical : Canonical terms)
    {symbol : Symbol}
    (unchanged : ∀ value : Symbol → Int,
      weigh (Function.update value symbol 0) terms = weigh value terms) :
    ∀ term ∈ terms, symbol ∉ term.1 := by
  have same : Poly.without symbol terms = terms := by
    apply (canonical.without symbol).eq_of_weigh_eq canonical
    intro value
    rw [← weigh_update_zero, unchanged]
  intro term member
  simpa using List.filter_eq_self.mp same term member

theorem ofExpr_dependsOn {limit : Nat} {tree : Expr} {poly : Poly}
    (folded : ofExpr limit tree = .ok poly) (symbol : Symbol) :
    tree.DependsOn symbol ↔ symbol ∈ poly.symbols := by
  have folds := ofExpr_folds folded
  constructor
  · rintro ⟨value, other, agree, differ⟩
    by_contra absent
    apply differ
    rw [← folds.weigh_eq value, ← folds.weigh_eq other]
    apply weigh_congr
    intro rest occurs
    exact agree rest fun same => absent (same ▸ occurs)
  · intro occurs
    by_contra independent
    have unchanged : ∀ value : Symbol → Int,
        weigh (Function.update value symbol 0) poly.terms = weigh value poly.terms := by
      intro value
      by_contra changed
      apply independent
      rw [folds.weigh_eq, folds.weigh_eq] at changed
      exact ⟨Function.update value symbol 0, value,
        fun rest different => Function.update_of_ne different .., changed⟩
    have absent := folds.canonical.absent_of_unchanged unchanged
    obtain ⟨term, member, inside⟩ := (mem_symbols poly symbol).mp occurs
    exact absent term member inside

end Poly

end JoinEngine
