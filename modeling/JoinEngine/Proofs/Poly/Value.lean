import JoinEngine.Proofs.Poly.Canonical
import Mathlib.Algebra.BigOperators.Group.List.Basic
import Mathlib.Algebra.MvPolynomial.Funext
import Mathlib.Tactic.Ring

/-!
The value of terms in a commutative ring. Sums, opposites and products of
polynomials have the values of these operations, whatever cancels on the way, and
renaming symbols is the same as giving them other values. The ring is left open:
integers give the meaning of a polynomial, formal polynomials its coefficients.
-/

namespace JoinEngine

section Denotation
variable {R : Type*} [CommRing R]

namespace Monomial

def denote (value : Symbol → R) (monomial : Monomial) : R :=
  (monomial.map value).prod

theorem denote_ofSymbols (value : Symbol → R) (symbols : List Symbol) :
    (ofSymbols symbols).denote value = (symbols.map value).prod :=
  ((ofSymbols_perm symbols).map value).prod_eq

theorem eval_eq_denote (value : Symbol → Int) (monomial : Monomial) :
    monomial.eval value = monomial.denote value := by
  rw [eval, denote, List.prod_eq_foldr, List.foldr_map]

end Monomial

namespace Poly

def weigh (value : Symbol → R) (terms : List Term) : R :=
  (terms.map fun term => (term.2 : R) * term.1.denote value).sum

@[simp] theorem weigh_nil (value : Symbol → R) : weigh value [] = 0 := rfl

@[simp] theorem weigh_cons (value : Symbol → R) (term : Term) (rest : List Term) :
    weigh value (term :: rest) = term.2 * term.1.denote value + weigh value rest := rfl

/-- A term that is left out counts for nothing. -/
@[simp] theorem weigh_keep (value : Symbol → R) (term : Term) (rest : List Term) :
    weigh value (keep term rest) = term.2 * term.1.denote value + weigh value rest := by
  unfold keep
  split
  · rename_i zero
    simp [zero]
  · rfl

theorem eval_eq_weigh (value : Symbol → Int) (poly : Poly) :
    poly.eval value = weigh value poly.terms := by
  obtain ⟨terms⟩ := poly
  induction terms with
  | nil => rfl
  | cons term rest ih =>
      simp only [eval, List.foldr_cons, weigh_cons, Monomial.eval_eq_denote, Int.cast_eq] at ih ⊢
      rw [ih]

theorem map_weigh {S : Type*} [CommRing S] (hom : R →+* S) (value : Symbol → R)
    (terms : List Term) :
    hom (weigh value terms) = weigh (fun symbol => hom (value symbol)) terms := by
  simp [weigh, Monomial.denote, map_list_sum, map_list_prod, Function.comp_def]

theorem weigh_congr {left right : Symbol → R} (poly : Poly)
    (agree : ∀ symbol ∈ poly.symbols, left symbol = right symbol) :
    weigh left poly.terms = weigh right poly.terms := by
  unfold weigh
  refine congrArg List.sum (List.map_congr_left fun term member => ?_)
  have same : term.1.map left = term.1.map right :=
    List.map_congr_left fun symbol inside =>
      agree symbol ((mem_symbols poly symbol).mpr ⟨term, member, inside⟩)
  rw [Monomial.denote, Monomial.denote, same]

theorem Accumulated.weigh {term : Term} {terms result : List Term} (value : Symbol → R)
    (added : Accumulated term terms result) :
    weigh value result = weigh value terms + term.2 * term.1.denote value := by
  induction added with
  | last => simp
  | before first rest below => simp [add_comm]
  | onto first rest same =>
      simp only [weigh_keep, weigh_cons, same]
      push_cast
      ring
  | past first rest result above tail ih => simp [ih, add_assoc]

theorem foldlM_accumulate_weigh (value : Symbol → R) {terms added result : List Term}
    (run : added.foldlM accumulate terms = some result) :
    weigh value result = weigh value terms + weigh value added := by
  induction added generalizing terms with
  | nil =>
      cases run
      simp
  | cons term rest ih =>
      rw [List.foldlM_cons] at run
      obtain ⟨middle, first, others⟩ := Option.bind_eq_some_iff.mp run
      rw [ih others, (accumulate_cases first).weigh value, weigh_cons, add_assoc]

theorem accumulateProduct_weigh (value : Symbol → R) {left right : Term}
    {terms result : List Term} (run : accumulateProduct left terms right = some result) :
    weigh value result = weigh value terms +
      left.2 * left.1.denote value * (right.2 * right.1.denote value) := by
  obtain ⟨coefficient, fits, added⟩ := Option.bind_eq_some_iff.mp run
  rw [(accumulate_cases added).weigh value, fit_eq_some fits, Monomial.denote_ofSymbols,
    List.map_append, List.prod_append]
  simp only [Monomial.denote, Int.cast_mul]
  ring

theorem row_weigh (value : Symbol → R) {left : Term} {right terms result : List Term}
    (run : right.foldlM (accumulateProduct left) terms = some result) :
    weigh value result = weigh value terms + left.2 * left.1.denote value * weigh value right := by
  induction right generalizing terms with
  | nil =>
      cases run
      simp
  | cons term rest ih =>
      rw [List.foldlM_cons] at run
      obtain ⟨middle, first, others⟩ := Option.bind_eq_some_iff.mp run
      rw [ih others, accumulateProduct_weigh value first, weigh_cons]
      ring

theorem rows_weigh (value : Symbol → R) {left right terms result : List Term}
    (run : left.foldlM (fun terms term => right.foldlM (accumulateProduct term) terms) terms =
      some result) :
    weigh value result = weigh value terms + weigh value left * weigh value right := by
  induction left generalizing terms with
  | nil =>
      cases run
      simp
  | cons term rest ih =>
      rw [List.foldlM_cons] at run
      obtain ⟨middle, first, others⟩ := Option.bind_eq_some_iff.mp run
      rw [ih others, row_weigh value first, weigh_cons]
      ring

theorem neg_weigh (value : Symbol → R) {poly result : Poly} (negated : poly.neg = some result) :
    weigh value result.terms = -weigh value poly.terms := by
  rw [neg_terms negated]
  induction poly.terms with
  | nil => simp
  | cons term rest ih =>
      rw [List.map_cons, weigh_cons, weigh_cons, ih]
      push_cast
      ring

theorem add_weigh (value : Symbol → R) {left right sum : Poly} (added : left.add right = some sum) :
    weigh value sum.terms = weigh value left.terms + weigh value right.terms := by
  obtain ⟨terms, run, rfl⟩ := Option.map_eq_some_iff.mp added
  exact foldlM_accumulate_weigh value run

theorem mul_weigh (value : Symbol → R) {left right result : Poly}
    (multiplied : left.mul right = some result) :
    weigh value result.terms = weigh value left.terms * weigh value right.terms := by
  obtain ⟨terms, run, rfl⟩ := Option.map_eq_some_iff.mp multiplied
  rw [rows_weigh value run, weigh_nil, zero_add]

/-- A renaming that gives anything but zero had a result. -/
theorem rename_run (image : Symbol → Symbol) (poly : Poly) (nonzero : poly.rename image ≠ zero) :
    (poly.terms.map fun term => (Monomial.ofSymbols (term.1.map image), term.2)).foldlM
      accumulate [] = some (poly.rename image).terms := by
  unfold rename at nonzero ⊢
  cases run : (poly.terms.map fun term =>
      (Monomial.ofSymbols (term.1.map image), term.2)).foldlM accumulate [] with
  | none => simp [run] at nonzero
  | some terms => simp [run]

theorem rename_weigh (value : Symbol → R) (image : Symbol → Symbol) (poly : Poly)
    (nonzero : poly.rename image ≠ zero) :
    weigh value (poly.rename image).terms =
      weigh (fun symbol => value (image symbol)) poly.terms := by
  rw [foldlM_accumulate_weigh value (rename_run image poly nonzero), weigh_nil, zero_add]
  unfold weigh
  rw [List.map_map]
  refine congrArg List.sum (List.map_congr_left fun term _ => ?_)
  rw [Function.comp_apply, Monomial.denote_ofSymbols, List.map_map]
  rfl

end Poly
end Denotation

end JoinEngine

/-!
A canonical form is determined by its values: the terms can be read off the formal
polynomial they add up to, and a formal polynomial over the integers is
determined by its values at integer points.
-/

namespace JoinEngine.Poly

open MvPolynomial

theorem denote_X (symbols : Monomial) :
    symbols.denote (X : Symbol → MvPolynomial Symbol ℤ) =
      monomial (Multiset.toFinsupp (symbols : Multiset Symbol)) 1 := by
  induction symbols with
  | nil => simp [Monomial.denote]
  | cons symbol rest ih =>
      simp only [Monomial.denote, List.map_cons, List.prod_cons] at ih ⊢
      rw [ih, ← Multiset.cons_coe, ← Multiset.singleton_add, Multiset.toFinsupp_add,
        Multiset.toFinsupp_singleton, X, monomial_mul, one_mul]

theorem coeff_weigh_X (monomial : Monomial) (terms : List Term) (sorted : monomial.Sorted)
    (allSorted : Within Monomial.Sorted terms) :
    coeff (Multiset.toFinsupp (monomial : Multiset Symbol))
      (weigh (X : Symbol → MvPolynomial Symbol ℤ) terms) =
      (terms.map fun term => if term.1 = monomial then term.2 else 0).sum := by
  induction terms with
  | nil => simp
  | cons term rest ih =>
      have same : Multiset.toFinsupp (term.1 : Multiset Symbol) =
          Multiset.toFinsupp (monomial : Multiset Symbol) ↔ term.1 = monomial := by
        rw [Multiset.toFinsupp.injective.eq_iff, Multiset.coe_eq_coe]
        constructor
        · exact (allSorted term List.mem_cons_self).eq_of_perm sorted
        · rintro rfl
          exact .refl _
      have tail := ih fun other member => allSorted other (.tail _ member)
      rw [weigh_cons, coeff_add, tail, denote_X, List.map_cons, List.sum_cons,
        ← eq_intCast (C : ℤ →+* MvPolynomial Symbol ℤ), coeff_C_mul, coeff_monomial]
      simp only [same, mul_ite, mul_one, mul_zero]

theorem Canonical.coefficient {terms : List Term} (canonical : Canonical terms) {term : Term}
    (member : term ∈ terms) :
    (terms.map fun other => if other.1 = term.1 then other.2 else 0).sum = term.2 := by
  induction terms with
  | nil => exact absurd member List.not_mem_nil
  | cons first rest ih =>
      have apart : ∀ other ∈ rest, other.1 ≠ first.1 := by
        intro other later same
        have below := List.rel_of_pairwise_cons canonical.ascending later
        rw [same] at below
        exact Monomial.order_irrefl _ below
      rw [List.map_cons, List.sum_cons]
      rcases List.mem_cons.mp member with same | later
      · subst term
        have none : (rest.map fun other => if other.1 = first.1 then other.2 else 0).sum = 0 := by
          refine List.sum_eq_zero fun value listed => ?_
          obtain ⟨other, later, rfl⟩ := List.mem_map.mp listed
          exact if_neg (apart other later)
        rw [if_pos rfl, none, add_zero]
      · rw [if_neg (apart term later).symm, zero_add]
        exact ih canonical.tail later

/-- The terms are the coefficients of the formal polynomial that are not zero. -/
theorem Canonical.mem_iff {terms : List Term} (canonical : Canonical terms) (term : Term) :
    term ∈ terms ↔ term.1.Sorted ∧ term.2 ≠ 0 ∧
      coeff (Multiset.toFinsupp (term.1 : Multiset Symbol))
        (weigh (X : Symbol → MvPolynomial Symbol ℤ) terms) = term.2 := by
  constructor
  · intro member
    refine ⟨canonical.sorted term member, canonical.nonzero term member, ?_⟩
    rw [coeff_weigh_X _ _ (canonical.sorted term member) canonical.sorted]
    exact canonical.coefficient member
  · rintro ⟨sorted, nonzero, equal⟩
    rw [coeff_weigh_X _ _ sorted canonical.sorted] at equal
    by_cases present : ∃ other ∈ terms, other.1 = term.1
    · obtain ⟨other, member, same⟩ := present
      have found := canonical.coefficient member
      rw [same, equal] at found
      exact Prod.ext same found.symm ▸ member
    · refine absurd (equal.symm.trans (List.sum_eq_zero fun value listed => ?_)) nonzero
      obtain ⟨other, member, rfl⟩ := List.mem_map.mp listed
      exact if_neg fun same => present ⟨other, member, same⟩

theorem Canonical.eq_of_weigh_eq {left right : List Term} (leftCanonical : Canonical left)
    (rightCanonical : Canonical right)
    (agree : ∀ value : Symbol → Int, weigh value left = weigh value right) : left = right := by
  have same : weigh (X : Symbol → MvPolynomial Symbol ℤ) left = weigh X right := by
    refine MvPolynomial.funext fun value => ?_
    simpa [map_weigh] using agree value
  have members : ∀ term, term ∈ left ↔ term ∈ right := by
    intro term
    rw [leftCanonical.mem_iff, rightCanonical.mem_iff, same]
  have perm := (List.perm_ext_iff_of_nodup leftCanonical.nodup rightCanonical.nodup).mpr members
  refine perm.eq_of_pairwise (fun first second _ _ below above => ?_) leftCanonical.ascending
    rightCanonical.ascending
  exact absurd (Monomial.order_lt_trans below above) (Monomial.order_irrefl _)

end JoinEngine.Poly

/-!
Renaming the symbols of a polynomial. Under a renaming that keeps its symbols apart
no two terms meet: nothing is added up, nothing cancels and nothing overflows, so
the renamed polynomial has the same terms up to their order. Such a renaming is
therefore determined by the values it gives.
-/

namespace JoinEngine

def KeepsApart (image : Symbol → Symbol) (symbols : List Symbol) : Prop :=
  ∀ first ∈ symbols, ∀ second ∈ symbols, image first = image second → first = second

instance (image : Symbol → Symbol) (symbols : List Symbol) : Decidable (KeepsApart image symbols) :=
  inferInstanceAs (Decidable (∀ first ∈ symbols, ∀ second ∈ symbols,
    image first = image second → first = second))

theorem KeepsApart.inverse {image : Symbol → Symbol} {symbols : List Symbol}
    (apart : KeepsApart image symbols) :
    ∃ back : Symbol → Symbol, ∀ symbol ∈ symbols, back (image symbol) = symbol := by
  refine ⟨fun target => (symbols.find? fun symbol => image symbol = target).getD target, ?_⟩
  intro symbol member
  cases found : symbols.find? fun other => image other = image symbol with
  | none =>
      have missed := List.find?_eq_none.mp found symbol member
      simp at missed
  | some other =>
      have same : image other = image symbol := by simpa using List.find?_some found
      simp only [found, Option.getD_some]
      exact apart other (List.mem_of_find?_eq_some found) symbol member same

/-- Sorted monomials over symbols that are kept apart can be told from their images. -/
theorem KeepsApart.monomial_inj {image : Symbol → Symbol} {symbols : List Symbol}
    (apart : KeepsApart image symbols) {left right : Monomial} (leftSorted : left.Sorted)
    (rightSorted : right.Sorted)
    (leftIn : ∀ symbol ∈ left, symbol ∈ symbols) (rightIn : ∀ symbol ∈ right, symbol ∈ symbols)
    (same : Monomial.ofSymbols (left.map image) = Monomial.ofSymbols (right.map image)) :
    left = right := by
  obtain ⟨back, inverse⟩ := apart.inverse
  have restored : ∀ monomial : Monomial, (∀ symbol ∈ monomial, symbol ∈ symbols) →
      ((Monomial.ofSymbols (monomial.map image)).map back).Perm monomial := by
    intro monomial inside
    have undone : (monomial.map image).map back = monomial := by
      have fixed : ∀ symbol ∈ monomial, (back ∘ image) symbol = id symbol :=
        fun symbol member => inverse symbol (inside symbol member)
      rw [List.map_map, List.map_congr_left fixed, List.map_id]
    have moved := (Monomial.ofSymbols_perm (monomial.map image)).map back
    rwa [undone] at moved
  apply leftSorted.eq_of_perm rightSorted
  have first := restored left leftIn
  rw [same] at first
  exact first.symm.trans (restored right rightIn)

namespace Poly

theorem enlist_ascending (symbol : Symbol) (symbols : List Symbol)
    (ascending : symbols.Pairwise fun left right => left.rank < right.rank) :
    (enlist symbol symbols).Pairwise fun left right => left.rank < right.rank := by
  induction symbols with
  | nil => simp [enlist]
  | cons first rest ih =>
      obtain ⟨above, tail⟩ := List.pairwise_cons.mp ascending
      simp only [enlist]
      split
      · exact ascending
      · rename_i different
        split
        · rename_i below
          apply List.pairwise_cons.mpr
          refine ⟨fun other member => ?_, ascending⟩
          rcases List.mem_cons.mp member with same | later
          · exact same ▸ below
          · exact Nat.lt_trans below (above other later)
        · rename_i notBelow
          apply List.pairwise_cons.mpr
          refine ⟨fun other member => ?_, ih tail⟩
          rcases (mem_enlist symbol other rest).mp member with same | later
          · subst other
            have unequal : symbol.rank ≠ first.rank := fun same =>
              different (Symbol.rank_injective same)
            omega
          · exact above other later

theorem symbols_ascending (poly : Poly) :
    poly.symbols.Pairwise fun left right => left.rank < right.rank := by
  unfold symbols
  induction poly.terms.flatMap Prod.fst with
  | nil => exact .nil
  | cons symbol rest ih => exact enlist_ascending symbol _ ih

theorem symbols_nodup (poly : Poly) : poly.symbols.Nodup := by
  refine poly.symbols_ascending.imp fun {left right} below same => ?_
  rw [same] at below
  exact Nat.lt_irrefl _ below

theorem degree_le_iff (poly : Poly) (limit : Nat) :
    poly.degree ≤ limit ↔ ∀ term ∈ poly.terms, term.1.length ≤ limit := by
  unfold degree
  induction poly.terms with
  | nil => simp
  | cons term rest ih => simp only [List.foldr_cons, Nat.max_le, ih, List.forall_mem_cons]

theorem accumulate_fresh {terms : List Term} {term : Term} (nonzero : term.2 ≠ 0)
    (fresh : ∀ other ∈ terms, other.1 ≠ term.1) :
    ∃ result, accumulate terms term = some result ∧ result.Perm (term :: terms) := by
  induction terms with
  | nil => exact ⟨[term], by simp [accumulate, keep, nonzero], .refl _⟩
  | cons first rest ih =>
      obtain ⟨different, others⟩ := List.forall_mem_cons.mp fresh
      simp only [accumulate]
      split
      · exact ⟨term :: first :: rest, by simp [keep, nonzero], .refl _⟩
      · rename_i same
        exact absurd ((Monomial.order_eq_iff _ _).mp same).symm different
      · obtain ⟨result, added, perm⟩ := ih others
        exact ⟨first :: result, by simp [added], (perm.cons first).trans (.swap term first rest)⟩

theorem foldlM_accumulate_fresh (terms : List Term) {added : List Term}
    (nonzero : ∀ term ∈ added, term.2 ≠ 0) (distinct : ((added ++ terms).map Prod.fst).Nodup) :
    ∃ result, added.foldlM accumulate terms = some result ∧ result.Perm (added ++ terms) := by
  -- The monomials are told apart as a whole, so that the order of adding does not matter.
  induction added generalizing terms with
  | nil => exact ⟨terms, rfl, .refl _⟩
  | cons term rest ih =>
      obtain ⟨first, others⟩ := List.forall_mem_cons.mp nonzero
      have fresh : ∀ other ∈ terms, other.1 ≠ term.1 := by
        intro other member same
        rw [List.cons_append, List.map_cons] at distinct
        apply (List.nodup_cons.mp distinct).1
        exact List.mem_map.mpr ⟨other, List.mem_append_right _ member, same⟩
      obtain ⟨middle, step, permStep⟩ := accumulate_fresh first fresh
      have moved : (rest ++ middle).Perm (term :: (rest ++ terms)) :=
        (permStep.append_left rest).trans List.perm_middle
      obtain ⟨result, run, perm⟩ := ih middle others
        ((moved.map Prod.fst).nodup_iff.mpr distinct)
      refine ⟨result, ?_, perm.trans moved⟩
      rw [List.foldlM_cons, step]
      exact run

def renameTerm (image : Symbol → Symbol) (term : Term) : Term :=
  (Monomial.ofSymbols (term.1.map image), term.2)

theorem rename_eq (image : Symbol → Symbol) (poly : Poly) :
    poly.rename image =
      (((poly.terms.map (renameTerm image)).foldlM accumulate []).map Poly.mk).getD zero := rfl

variable {image : Symbol → Symbol} {poly : Poly}

theorem rename_congr {other : Symbol → Symbol}
    (agree : ∀ symbol ∈ poly.symbols, image symbol = other symbol) :
    poly.rename image = poly.rename other := by
  have terms : poly.terms.map (renameTerm image) = poly.terms.map (renameTerm other) := by
    refine List.map_congr_left fun term member => ?_
    have same : term.1.map image = term.1.map other :=
      List.map_congr_left fun symbol inside =>
        agree symbol ((mem_symbols poly symbol).mpr ⟨term, member, inside⟩)
    rw [renameTerm, renameTerm, same]
  rw [rename_eq, rename_eq, terms]

theorem rename_canonical (image : Symbol → Symbol) (poly : Poly) :
    Canonical (poly.rename image).terms := by
  rw [rename_eq]
  cases run : (poly.terms.map (renameTerm image)).foldlM accumulate [] with
  | none => exact .nil
  | some terms =>
      refine foldlM_accumulate_canonical run .nil fun term member => ?_
      obtain ⟨old, _, rfl⟩ := List.mem_map.mp member
      exact Monomial.ofSymbols_sorted _

theorem Canonical.monomials_nodup {terms : List Term} (canonical : Canonical terms) :
    (terms.map Prod.fst).Nodup := by
  apply List.pairwise_map.mpr
  refine canonical.ascending.imp fun {left right} below same => ?_
  rw [same] at below
  exact Monomial.order_irrefl _ below

theorem renamed_monomials_nodup (canonical : Canonical poly.terms)
    (apart : KeepsApart image poly.symbols) :
    ((poly.terms.map (renameTerm image)).map Prod.fst).Nodup := by
  have split : (poly.terms.map (renameTerm image)).map Prod.fst =
      (poly.terms.map Prod.fst).map fun monomial => Monomial.ofSymbols (monomial.map image) := by
    rw [List.map_map, List.map_map]
    rfl
  have listed : ∀ monomial ∈ poly.terms.map Prod.fst,
      monomial.Sorted ∧ ∀ symbol ∈ monomial, symbol ∈ poly.symbols := by
    intro monomial member
    obtain ⟨term, present, rfl⟩ := List.mem_map.mp member
    exact ⟨canonical.sorted term present,
      fun symbol inside => (mem_symbols poly symbol).mpr ⟨term, present, inside⟩⟩
  rw [split]
  refine List.Nodup.map_on (fun left leftIn right rightIn same => ?_) canonical.monomials_nodup
  obtain ⟨leftSorted, leftSymbols⟩ := listed left leftIn
  obtain ⟨rightSorted, rightSymbols⟩ := listed right rightIn
  exact apart.monomial_inj leftSorted rightSorted leftSymbols rightSymbols same

theorem rename_perm (canonical : Canonical poly.terms) (apart : KeepsApart image poly.symbols) :
    (poly.rename image).terms.Perm (poly.terms.map (renameTerm image)) := by
  have nonzero : ∀ term ∈ poly.terms.map (renameTerm image), term.2 ≠ 0 := by
    intro term member
    obtain ⟨old, present, rfl⟩ := List.mem_map.mp member
    exact canonical.nonzero old present
  obtain ⟨result, run, perm⟩ := foldlM_accumulate_fresh [] nonzero
    (by rw [List.append_nil]; exact renamed_monomials_nodup canonical apart)
  rw [rename_eq, run]
  rwa [List.append_nil] at perm

theorem mem_symbols_rename (canonical : Canonical poly.terms)
    (apart : KeepsApart image poly.symbols) (symbol : Symbol) :
    symbol ∈ (poly.rename image).symbols ↔ symbol ∈ poly.symbols.map image := by
  have perm := rename_perm canonical apart
  simp only [mem_symbols, perm.mem_iff, List.mem_map]
  constructor
  · rintro ⟨_, ⟨term, present, rfl⟩, inside⟩
    obtain ⟨old, member, rfl⟩ :=
      List.mem_map.mp ((Monomial.ofSymbols_perm (term.1.map image)).mem_iff.mp inside)
    exact ⟨old, ⟨term, present, member⟩, rfl⟩
  · rintro ⟨old, ⟨term, present, member⟩, rfl⟩
    refine ⟨_, ⟨term, present, rfl⟩, ?_⟩
    exact (Monomial.ofSymbols_perm (term.1.map image)).mem_iff.mpr (List.mem_map_of_mem member)

theorem symbols_rename_perm (canonical : Canonical poly.terms)
    (apart : KeepsApart image poly.symbols) :
    (poly.rename image).symbols.Perm (poly.symbols.map image) := by
  have images : (poly.symbols.map image).Nodup :=
    List.Nodup.map_on (fun first firstIn second secondIn => apart first firstIn second secondIn)
      poly.symbols_nodup
  exact (List.perm_ext_iff_of_nodup (symbols_nodup _) images).mpr
    (mem_symbols_rename canonical apart)

theorem degree_rename (canonical : Canonical poly.terms)
    (apart : KeepsApart image poly.symbols) : (poly.rename image).degree = poly.degree := by
  have perm := rename_perm canonical apart
  apply eq_of_forall_ge_iff
  intro limit
  rw [degree_le_iff, degree_le_iff]
  simp only [perm.mem_iff, List.forall_mem_map]
  refine forall_congr' fun term => imp_congr_right fun _ => ?_
  have length := (Monomial.ofSymbols_perm (term.1.map image)).length_eq
  rw [List.length_map] at length
  rw [renameTerm, length]

/-- Nothing is lost on the way, so the value is that at the renamed point. -/
theorem weigh_rename_apart {R : Type*} [CommRing R] (canonical : Canonical poly.terms)
    (apart : KeepsApart image poly.symbols) (value : Symbol → R) :
    weigh value (poly.rename image).terms =
      weigh (fun symbol => value (image symbol)) poly.terms := by
  unfold weigh
  rw [((rename_perm canonical apart).map _).sum_eq, List.map_map]
  refine congrArg List.sum (List.map_congr_left fun term _ => ?_)
  rw [Function.comp_apply, renameTerm, Monomial.denote_ofSymbols, List.map_map]
  rfl

/-- A renaming that keeps symbols apart gives the one polynomial with its values. -/
theorem rename_eq_of_weigh_eq {other : Poly} (canonical : Canonical poly.terms)
    (otherCanonical : Canonical other.terms) (apart : KeepsApart image poly.symbols)
    (agree : ∀ value : Symbol → Int,
      weigh (fun symbol => value (image symbol)) poly.terms = weigh value other.terms) :
    poly.rename image = other := by
  -- Both sides are canonical, so it is enough that they have the same values.
  refine congrArg Poly.mk ((rename_canonical image poly).eq_of_weigh_eq otherCanonical ?_)
  intro value
  rw [weigh_rename_apart canonical apart, agree value]

/-- Symbols that a renaming keeps apart can be renamed back. -/
theorem rename_back {back : Symbol → Symbol} (canonical : Canonical poly.terms)
    (inverse : ∀ symbol ∈ poly.symbols, back (image symbol) = symbol) :
    (poly.rename image).rename back = poly := by
  have apart : KeepsApart image poly.symbols := by
    intro first occurs second also same
    rw [← inverse first occurs, same, inverse second also]
  -- Only images occur now, and each of them goes back to where it came from.
  have backApart : KeepsApart back (poly.rename image).symbols := by
    intro first occurs second also same
    obtain ⟨one, member, rfl⟩ := List.mem_map.mp ((mem_symbols_rename canonical apart _).mp occurs)
    obtain ⟨two, another, rfl⟩ := List.mem_map.mp ((mem_symbols_rename canonical apart _).mp also)
    rw [← inverse one member, ← inverse two another, same]
  refine rename_eq_of_weigh_eq (rename_canonical image poly) canonical backApart fun value => ?_
  rw [weigh_rename_apart canonical apart]
  apply weigh_congr
  intro symbol occurs
  rw [inverse symbol occurs]

end Poly

end JoinEngine
