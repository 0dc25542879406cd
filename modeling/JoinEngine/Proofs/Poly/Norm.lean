import JoinEngine.Proofs.Poly.OfExpr
import Mathlib.Algebra.Order.BigOperators.Group.List
import Mathlib.Algebra.Order.Field.Rat
import Mathlib.Tactic.FieldSimp
import Mathlib.Tactic.Linarith
import Mathlib.Tactic.Positivity

/-!
How large coefficients can become. A coefficient counts for less the more factors
its monomial has, and counted so, the terms of a sum are no larger than its two
sides together and those of a product no larger than its two sides multiplied,
whatever cancels. Terms of at most four factors that are small in this measure
have coefficients far inside the range, so operations on them have a result.
-/

namespace JoinEngine.Poly

def size (term : Term) : ℚ := |(term.2 : ℚ)| / 256 ^ term.1.length

def norm (terms : List Term) : ℚ := (terms.map size).sum

theorem size_nonneg (term : Term) : 0 ≤ size term := by
  unfold size
  positivity

@[simp] theorem norm_nil : norm [] = 0 := rfl

@[simp] theorem norm_cons (term : Term) (rest : List Term) :
    norm (term :: rest) = size term + norm rest := List.sum_cons

@[simp] theorem norm_append (left right : List Term) :
    norm (left ++ right) = norm left + norm right := by
  simp [norm]

@[simp] theorem norm_keep (term : Term) (rest : List Term) :
    norm (keep term rest) = size term + norm rest := by
  unfold keep
  split
  · rename_i zero
    simp [size, zero]
  · rfl

theorem norm_nonneg (terms : List Term) : 0 ≤ norm terms := by
  refine List.sum_nonneg fun value member => ?_
  obtain ⟨term, _, rfl⟩ := List.mem_map.mp member
  exact size_nonneg term

/-- Equal monomials are added coefficient by coefficient. -/
theorem size_add_le (monomial : Monomial) (first second : Int) :
    size (monomial, first + second) ≤ size (monomial, first) + size (monomial, second) := by
  unfold size
  rw [← add_div]
  push_cast
  gcongr
  exact abs_add_le _ _

def termProduct (first second : Term) : Term :=
  (Monomial.ofSymbols (first.1 ++ second.1), first.2 * second.2)

theorem length_termProduct (first second : Term) :
    (termProduct first second).1.length = first.1.length + second.1.length := by
  rw [termProduct, (Monomial.ofSymbols_perm _).length_eq, List.length_append]

theorem size_termProduct (first second : Term) :
    size (termProduct first second) = size first * size second := by
  unfold size
  rw [length_termProduct, pow_add, termProduct]
  push_cast
  rw [abs_mul, mul_div_mul_comm]

theorem fit_of_size {monomial : Monomial} {coefficient : Int} (short : monomial.length ≤ 4)
    (small : size (monomial, coefficient) ≤ 1) : fit coefficient = some coefficient := by
  have room : (256 : ℚ) ^ monomial.length ≤ 256 ^ 4 := by gcongr; norm_num
  unfold size at small
  rw [div_le_one (by positivity)] at small
  have bounded : |(coefficient : ℚ)| ≤ 256 ^ 4 := small.trans room
  obtain ⟨above, below⟩ := abs_le.mp bounded
  have low : -256 ^ 4 ≤ coefficient := by exact_mod_cast above
  have high : coefficient ≤ 256 ^ 4 := by exact_mod_cast below
  unfold fit
  rw [if_pos (by omega)]

theorem Accumulated.norm_le {term : Term} {terms result : List Term}
    (added : Accumulated term terms result) : norm result ≤ norm terms + size term := by
  induction added with
  | last => simp
  | before first rest below => simp [add_comm]
  | onto first rest same =>
      have sum := size_add_le first.1 first.2 term.2
      have sizes : size (first.1, term.2) = size term := by rw [← same]
      rw [norm_keep, norm_cons]
      linarith
  | past first rest result above tail ih =>
      rw [norm_cons, norm_cons]
      linarith

theorem accumulate_runs {terms : List Term} {term : Term} (short : term.1.length ≤ 4)
    (room : norm terms + size term ≤ 1) :
    ∃ result, accumulate terms term = some result ∧ norm result ≤ norm terms + size term := by
  have runs : ∃ result, accumulate terms term = some result := by
    induction terms with
    | nil => exact ⟨_, rfl⟩
    | cons first rest ih =>
        rw [norm_cons] at room
        simp only [accumulate]
        split
        · exact ⟨_, rfl⟩
        · rename_i same
          have equal := (Monomial.order_eq_iff _ _).mp same
          have sum := size_add_le first.1 first.2 term.2
          have sizes : size (first.1, term.2) = size term := by rw [← equal]
          have others := norm_nonneg rest
          have fits : fit (first.2 + term.2) = some (first.2 + term.2) :=
            fit_of_size (equal ▸ short) (by linarith)
          exact ⟨_, by rw [fits]; rfl⟩
        · have others := size_nonneg first
          obtain ⟨result, run⟩ := ih (by linarith)
          exact ⟨first :: result, by rw [run]; rfl⟩
  obtain ⟨result, run⟩ := runs
  exact ⟨result, run, (accumulate_cases run).norm_le⟩

theorem foldlM_accumulate_runs {terms added : List Term}
    (short : Within (fun monomial => monomial.length ≤ 4) added)
    (room : norm terms + norm added ≤ 1) :
    ∃ result, added.foldlM accumulate terms = some result ∧
      norm result ≤ norm terms + norm added := by
  induction added generalizing terms with
  | nil => exact ⟨terms, rfl, by simp⟩
  | cons term rest ih =>
      obtain ⟨head, others⟩ := List.forall_mem_cons.mp short
      rw [norm_cons] at room ⊢
      have later := norm_nonneg rest
      have headRoom : norm terms + size term ≤ 1 := by linarith
      obtain ⟨middle, first, grown⟩ := accumulate_runs head headRoom
      have restRoom : norm middle + norm rest ≤ 1 := by linarith
      obtain ⟨result, run, bounded⟩ := ih others restRoom
      exact ⟨result, by rw [List.foldlM_cons, first]; exact run, by linarith⟩

def products (left right : List Term) : List Term :=
  left.flatMap fun first => right.map (termProduct first)

theorem norm_products (left right : List Term) :
    norm (products left right) = norm left * norm right := by
  have row (first : Term) : norm (right.map (termProduct first)) = size first * norm right := by
    unfold norm
    rw [List.map_map, ← List.sum_map_mul_left]
    exact congrArg List.sum (List.map_congr_left fun second _ => size_termProduct first second)
  induction left with
  | nil => simp [products]
  | cons first rest ih =>
      rw [products, List.flatMap_cons, norm_append, row, norm_cons, add_mul, ← ih]
      rfl

theorem size_le_norm {terms : List Term} {term : Term} (member : term ∈ terms) :
    size term ≤ norm terms := by
  refine List.single_le_sum (fun value listed => ?_) _ (List.mem_map_of_mem member)
  obtain ⟨other, _, rfl⟩ := List.mem_map.mp listed
  exact size_nonneg other

/-- A row of products whose coefficients fit is a run of additions. -/
theorem row_eq {first : Term} {right : List Term}
    (fits : ∀ second ∈ right, fit (first.2 * second.2) = some (first.2 * second.2))
    (terms : List Term) :
    right.foldlM (accumulateProduct first) terms =
      (right.map (termProduct first)).foldlM accumulate terms := by
  induction right generalizing terms with
  | nil => rfl
  | cons second rest ih =>
      obtain ⟨head, others⟩ := List.forall_mem_cons.mp fits
      have step : accumulateProduct first terms second =
          accumulate terms (termProduct first second) := by
        rw [accumulateProduct, head]
        rfl
      rw [List.map_cons, List.foldlM_cons, List.foldlM_cons, step]
      exact bind_congr (ih others)

theorem rows_eq {left right : List Term}
    (fits : ∀ first ∈ left, ∀ second ∈ right,
      fit (first.2 * second.2) = some (first.2 * second.2)) (terms : List Term) :
    left.foldlM (fun terms term => right.foldlM (accumulateProduct term) terms) terms =
      (products left right).foldlM accumulate terms := by
  induction left generalizing terms with
  | nil => rfl
  | cons first rest ih =>
      obtain ⟨head, others⟩ := List.forall_mem_cons.mp fits
      rw [products, List.flatMap_cons, List.foldlM_append, List.foldlM_cons, row_eq head]
      exact bind_congr (ih others)

/-- At most four factors in each monomial, and a norm of at most `bound`. -/
structure Bounded (poly : Poly) (bound : ℚ) : Prop where
  short : Within (fun monomial => monomial.length ≤ 4) poly.terms
  norm_le : norm poly.terms ≤ bound

theorem ofSymbol_bounded (symbol : Symbol) : (ofSymbol symbol).Bounded (1 / 256) :=
  ⟨by simp [Within, ofSymbol], by simp [ofSymbol, size]⟩

section Operations
variable {left right poly : Poly} {bound other : ℚ}

theorem neg_eq (fits : ∀ term ∈ poly.terms, fit (-term.2) = some (-term.2)) :
    poly.neg = some ⟨poly.terms.map fun term => (term.1, -term.2)⟩ := by
  obtain ⟨terms⟩ := poly
  simp only [Poly.neg, Option.map_eq_some_iff, mk.injEq, exists_eq_right]
  induction terms with
  | nil => rfl
  | cons term rest ih =>
      obtain ⟨head, others⟩ := List.forall_mem_cons.mp fits
      rw [List.mapM_cons, head, ih others]
      rfl

theorem Bounded.neg (bounded : poly.Bounded bound) (room : bound ≤ 1) :
    ∃ result, poly.neg = some result ∧ result.Bounded bound := by
  have opposite (term : Term) : size (term.1, -term.2) = size term := by simp [size]
  have fits (term : Term) (member : term ∈ poly.terms) : fit (-term.2) = some (-term.2) := by
    refine fit_of_size (bounded.short term member) ?_
    rw [opposite]
    exact (size_le_norm member).trans (bounded.norm_le.trans room)
  refine ⟨_, neg_eq fits, neg_within (neg_eq fits) bounded.short, ?_⟩
  have same : norm (poly.terms.map fun term => (term.1, -term.2)) = norm poly.terms := by
    unfold norm
    rw [List.map_map]
    exact congrArg List.sum (List.map_congr_left fun term _ => opposite term)
  exact same.trans_le bounded.norm_le

theorem Bounded.add (first : left.Bounded bound) (second : right.Bounded other)
    (room : bound + other ≤ 1) :
    ∃ result, left.add right = some result ∧ result.Bounded (bound + other) := by
  have sum := add_le_add first.norm_le second.norm_le
  obtain ⟨terms, run, small⟩ := foldlM_accumulate_runs second.short (sum.trans room)
  have added : left.add right = some ⟨terms⟩ := by
    rw [Poly.add, run]
    rfl
  exact ⟨⟨terms⟩, added, add_within added first.short second.short, small.trans sum⟩

theorem products_short (low : left.degree + right.degree ≤ 4) :
    Within (fun monomial => monomial.length ≤ 4) (products left.terms right.terms) := by
  intro term member
  obtain ⟨first, present, inRow⟩ := List.mem_flatMap.mp member
  obtain ⟨second, also, rfl⟩ := List.mem_map.mp inRow
  have firstShort := (degree_le_iff left _).mp (Nat.le_refl _) first present
  have secondShort := (degree_le_iff right _).mp (Nat.le_refl _) second also
  rw [length_termProduct]
  omega

theorem products_fit {left right : List Term}
    (short : Within (fun monomial => monomial.length ≤ 4) (products left right))
    (small : norm (products left right) ≤ 1) :
    ∀ first ∈ left, ∀ second ∈ right, fit (first.2 * second.2) = some (first.2 * second.2) := by
  intro first present second also
  have member : termProduct first second ∈ products left right :=
    List.mem_flatMap.mpr ⟨first, present, List.mem_map_of_mem also⟩
  exact fit_of_size (short _ member) ((size_le_norm member).trans small)

theorem Bounded.mul (first : left.Bounded bound) (second : right.Bounded other)
    (room : bound ≤ 1) (otherRoom : other ≤ 1) (low : left.degree + right.degree ≤ 4) :
    ∃ result, left.mul right = some result ∧ result.Bounded (bound * other) := by
  have positive : 0 ≤ bound := (norm_nonneg _).trans first.norm_le
  have otherPositive : 0 ≤ other := (norm_nonneg _).trans second.norm_le
  have small : norm (products left.terms right.terms) ≤ bound * other := by
    rw [norm_products]
    exact mul_le_mul first.norm_le second.norm_le (norm_nonneg _) positive
  have unit := small.trans (mul_le_one₀ room otherPositive otherRoom)
  have short := products_short low
  have start : norm [] + norm (products left.terms right.terms) ≤ 1 := by simpa using unit
  obtain ⟨terms, run, grown⟩ := foldlM_accumulate_runs short start
  have multiplied : left.mul right = some ⟨terms⟩ := by
    rw [Poly.mul, rows_eq (products_fit short unit), run]
    rfl
  refine ⟨⟨terms⟩, multiplied, foldlM_accumulate_within run (by simp [Within]) short, ?_⟩
  rw [norm_nil, zero_add] at grown
  exact grown.trans small

end Operations

end JoinEngine.Poly
