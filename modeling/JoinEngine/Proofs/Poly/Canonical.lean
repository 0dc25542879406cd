import JoinEngine.Poly
import JoinEngine.Proofs.Outcome
import Mathlib.Data.List.Basic

/-!
Every operation on polynomials keeps their canonical form. Adding one term is the
only step that all of them are made of: what it can do to a list of terms is said
once, and whatever it keeps is kept by sums and products.
-/

namespace JoinEngine

theorem Symbol.rank_injective : Function.Injective Symbol.rank := by
  intro left right same
  cases left with
  | stream a =>
      cases right with
      | stream b => exact congrArg Symbol.stream (UInt8.toNat_inj.mp same)
      | constant b =>
          have below := a.toNat_lt
          simp only [rank] at same
          omega
  | constant a =>
      cases right with
      | stream b =>
          have below := b.toNat_lt
          simp only [rank] at same
          omega
      | constant b =>
          exact congrArg Symbol.constant (UInt8.toNat_inj.mp (Nat.add_left_cancel same))

namespace Monomial

def Sorted (monomial : Monomial) : Prop :=
  monomial.Pairwise fun left right => left.rank ≤ right.rank

theorem insert_perm (symbol : Symbol) (monomial : Monomial) :
    (insert symbol monomial).Perm (symbol :: monomial) := by
  induction monomial with
  | nil => exact .refl _
  | cons first rest ih =>
      simp only [insert]
      split
      · exact .refl _
      · exact (ih.cons first).trans (.swap symbol first rest)

theorem insert_sorted (symbol : Symbol) (monomial : Monomial) (sorted : monomial.Sorted) :
    (insert symbol monomial).Sorted := by
  induction monomial with
  | nil => exact List.pairwise_singleton _ _
  | cons first rest ih =>
      obtain ⟨above, tail⟩ := List.pairwise_cons.mp sorted
      simp only [insert]
      split
      · rename_i below
        refine List.pairwise_cons.mpr ⟨fun other member => ?_, sorted⟩
        rcases List.mem_cons.mp member with same | later
        · exact same ▸ below
        · exact Nat.le_trans below (above other later)
      · rename_i notBelow
        refine List.pairwise_cons.mpr ⟨fun other member => ?_, ih tail⟩
        rcases List.mem_cons.mp ((insert_perm symbol rest).mem_iff.mp member) with same | later
        · subst other
          omega
        · exact above other later

theorem ofSymbols_perm (symbols : List Symbol) : (ofSymbols symbols).Perm symbols := by
  induction symbols with
  | nil => exact .refl _
  | cons symbol rest ih => exact (insert_perm symbol _).trans (ih.cons symbol)

theorem ofSymbols_sorted (symbols : List Symbol) : (ofSymbols symbols).Sorted := by
  induction symbols with
  | nil => exact .nil
  | cons symbol rest ih => exact insert_sorted symbol _ ih

theorem Sorted.eq_of_perm {left right : Monomial} (leftSorted : left.Sorted)
    (rightSorted : right.Sorted) (same : left.Perm right) : left = right := by
  refine same.eq_of_pairwise (fun first second _ _ below above => ?_) leftSorted rightSorted
  exact Symbol.rank_injective (Nat.le_antisymm below above)

theorem order_lt_iff (left right : Monomial) :
    order left right = .lt ↔ left.map Symbol.rank < right.map Symbol.rank := by
  induction left generalizing right with
  | nil => cases right <;> simp [order]
  | cons a left ih =>
      cases right with
      | nil => simp [order]
      | cons b right =>
          simp only [order, Ordering.then_eq_lt, Nat.compare_eq_lt, Nat.compare_eq_eq, ih,
            List.map_cons, List.cons_lt_cons_iff]

theorem order_eq_iff (left right : Monomial) : order left right = .eq ↔ left = right := by
  induction left generalizing right with
  | nil => cases right <;> simp [order]
  | cons a left ih =>
      cases right with
      | nil => simp [order]
      | cons b right =>
          simp only [order, Ordering.then_eq_eq, Nat.compare_eq_eq, ih, List.cons.injEq,
            Symbol.rank_injective.eq_iff]

theorem order_gt_iff (left right : Monomial) : order left right = .gt ↔ order right left = .lt := by
  induction left generalizing right with
  | nil => cases right <;> simp [order]
  | cons a left ih =>
      cases right with
      | nil => simp [order]
      | cons b right =>
          simp only [order, Ordering.then_eq_gt, Ordering.then_eq_lt, ih, Nat.compare_eq_gt,
            Nat.compare_eq_lt, Nat.compare_eq_eq]
          rw [@eq_comm _ a.rank]

theorem order_irrefl (monomial : Monomial) : order monomial monomial ≠ .lt := by
  intro below
  rw [(order_eq_iff monomial monomial).mpr rfl] at below
  cases below

theorem order_lt_trans {left middle right : Monomial} (first : order left middle = .lt)
    (second : order middle right = .lt) : order left right = .lt := by
  rw [order_lt_iff] at *
  exact List.lt_trans first second

end Monomial

namespace Poly

def Within (allowed : Monomial → Prop) (terms : List Term) : Prop :=
  ∀ term ∈ terms, allowed term.1

structure Canonical (terms : List Term) : Prop where
  ascending : terms.Pairwise fun left right => left.1.order right.1 = .lt
  sorted : Within Monomial.Sorted terms
  nonzero : ∀ term ∈ terms, term.2 ≠ 0

theorem Canonical.nil : Canonical [] := ⟨.nil, by simp [Within], by simp⟩

theorem Canonical.tail {first : Term} {rest : List Term} (canonical : Canonical (first :: rest)) :
    Canonical rest :=
  ⟨canonical.ascending.tail, fun term member => canonical.sorted term (.tail _ member),
    fun term member => canonical.nonzero term (.tail _ member)⟩

theorem Canonical.nodup {terms : List Term} (canonical : Canonical terms) : terms.Nodup := by
  refine canonical.ascending.imp fun {left right} below same => ?_
  subst same
  exact Monomial.order_irrefl _ below

theorem fit_eq_some {coefficient fitted : Int} (fits : fit coefficient = some fitted) :
    fitted = coefficient := by
  unfold fit at fits
  split at fits
  · exact (Option.some.inj fits).symm
  · cases fits

theorem mem_keep {term other : Term} {rest : List Term} (member : other ∈ keep term rest) :
    (other = term ∧ term.2 ≠ 0) ∨ other ∈ rest := by
  unfold keep at member
  split at member
  · exact Or.inr member
  · rename_i nonzero
    rcases List.mem_cons.mp member with same | later
    · exact Or.inl ⟨same, nonzero⟩
    · exact Or.inr later

theorem keep_canonical {term : Term} {rest : List Term} (sorted : term.1.Sorted)
    (below : ∀ other ∈ rest, term.1.order other.1 = .lt) (canonical : Canonical rest) :
    Canonical (keep term rest) := by
  unfold keep
  split
  · exact canonical
  · rename_i nonzero
    exact ⟨List.pairwise_cons.mpr ⟨below, canonical.ascending⟩,
      List.forall_mem_cons.mpr ⟨sorted, canonical.sorted⟩,
      List.forall_mem_cons.mpr ⟨nonzero, canonical.nonzero⟩⟩

/-- What adding one term can do to a list of terms. -/
inductive Accumulated (term : Term) : List Term → List Term → Prop where
  | last : Accumulated term [] (keep term [])
  | before (first : Term) (rest : List Term) (below : term.1.order first.1 = .lt) :
      Accumulated term (first :: rest) (keep term (first :: rest))
  | onto (first : Term) (rest : List Term) (same : term.1 = first.1) :
      Accumulated term (first :: rest) (keep (first.1, first.2 + term.2) rest)
  | past (first : Term) (rest result : List Term) (above : first.1.order term.1 = .lt)
      (tail : Accumulated term rest result) : Accumulated term (first :: rest) (first :: result)

theorem accumulate_cases {terms result : List Term} {term : Term}
    (added : accumulate terms term = some result) : Accumulated term terms result := by
  induction terms generalizing result with
  | nil =>
      cases added
      exact .last
  | cons first rest ih =>
      simp only [accumulate] at added
      split at added
      · rename_i below
        cases added
        exact .before first rest below
      · rename_i same
        obtain ⟨sum, fits, kept⟩ := Option.map_eq_some_iff.mp added
        cases fit_eq_some fits
        cases kept
        exact .onto first rest ((Monomial.order_eq_iff _ _).mp same)
      · rename_i above
        obtain ⟨tail, accumulated, extended⟩ := Option.map_eq_some_iff.mp added
        cases extended
        exact .past first rest tail ((Monomial.order_gt_iff _ _).mp above) (ih accumulated)

theorem keep_within {allowed : Monomial → Prop} {term : Term} {rest : List Term}
    (admitted : allowed term.1) (inside : Within allowed rest) :
    Within allowed (keep term rest) := by
  intro other member
  rcases mem_keep member with ⟨same, _⟩ | old
  · exact same ▸ admitted
  · exact inside other old

theorem Accumulated.within {allowed : Monomial → Prop} {term : Term} {terms result : List Term}
    (added : Accumulated term terms result) (inside : Within allowed terms)
    (admitted : allowed term.1) : Within allowed result := by
  induction added with
  | last => exact keep_within admitted inside
  | before first rest below => exact keep_within admitted inside
  | onto first rest same =>
      obtain ⟨head, tail⟩ := List.forall_mem_cons.mp inside
      exact keep_within head tail
  | past first rest result above tail ih =>
      obtain ⟨head, others⟩ := List.forall_mem_cons.mp inside
      exact List.forall_mem_cons.mpr ⟨head, ih others⟩

theorem Accumulated.canonical {term : Term} {terms result : List Term}
    (added : Accumulated term terms result) (canonical : Canonical terms)
    (sorted : term.1.Sorted) : Canonical result := by
  induction added with
  | last => exact keep_canonical sorted (by simp) canonical
  | before first rest below =>
      refine keep_canonical sorted (List.forall_mem_cons.mpr ⟨below, ?_⟩) canonical
      intro other member
      exact Monomial.order_lt_trans below (List.rel_of_pairwise_cons canonical.ascending member)
  | onto first rest same =>
      exact keep_canonical (canonical.sorted first List.mem_cons_self)
        (fun other member => List.rel_of_pairwise_cons canonical.ascending member) canonical.tail
  | past first rest result above tail ih =>
      have done := ih canonical.tail
      -- Order in the tail is not enough: what was added there may not come before `first`.
      have behind : Within (fun monomial => first.1.order monomial = .lt) result :=
        tail.within (fun other member => List.rel_of_pairwise_cons canonical.ascending member) above
      exact ⟨List.pairwise_cons.mpr ⟨behind, done.ascending⟩,
        List.forall_mem_cons.mpr ⟨canonical.sorted first List.mem_cons_self, done.sorted⟩,
        List.forall_mem_cons.mpr ⟨canonical.nonzero first List.mem_cons_self, done.nonzero⟩⟩

theorem foldlM_accumulate_within {allowed : Monomial → Prop} {terms added result : List Term}
    (run : added.foldlM accumulate terms = some result) (inside : Within allowed terms)
    (admitted : Within allowed added) : Within allowed result :=
  Option.foldlM_keeps (Within allowed) added
    (fun _ term _ member kept step => (accumulate_cases step).within kept (admitted term member))
    inside run

theorem foldlM_accumulate_canonical {terms added result : List Term}
    (run : added.foldlM accumulate terms = some result) (canonical : Canonical terms)
    (sorted : Within Monomial.Sorted added) : Canonical result :=
  Option.foldlM_keeps Canonical added
    (fun _ term _ member kept step => (accumulate_cases step).canonical kept (sorted term member))
    canonical run

theorem ofSymbol_canonical (symbol : Symbol) : Canonical (ofSymbol symbol).terms :=
  ⟨List.pairwise_singleton _ _, by simp [ofSymbol, Within, Monomial.Sorted], by simp [ofSymbol]⟩

theorem neg_terms {poly result : Poly} (negated : poly.neg = some result) :
    result.terms = poly.terms.map fun term => (term.1, -term.2) := by
  obtain ⟨terms, run, rfl⟩ := Option.map_eq_some_iff.mp negated
  obtain ⟨source⟩ := poly
  clear negated
  induction source generalizing terms with
  | nil =>
      cases run
      rfl
  | cons term rest ih =>
      rw [List.mapM_cons] at run
      obtain ⟨first, negated, later⟩ := Option.bind_eq_some_iff.mp run
      obtain ⟨others, tail, extended⟩ := Option.bind_eq_some_iff.mp later
      obtain ⟨coefficient, fits, rfl⟩ := Option.map_eq_some_iff.mp negated
      cases extended
      rw [List.map_cons, ← ih others tail, fit_eq_some fits]

theorem neg_within {allowed : Monomial → Prop} {poly result : Poly}
    (negated : poly.neg = some result) (inside : Within allowed poly.terms) :
    Within allowed result.terms := by
  rw [neg_terms negated]
  intro term member
  obtain ⟨old, present, rfl⟩ := List.mem_map.mp member
  exact inside old present

theorem neg_canonical {poly result : Poly} (negated : poly.neg = some result)
    (canonical : Canonical poly.terms) : Canonical result.terms := by
  refine ⟨?_, neg_within negated canonical.sorted, ?_⟩
  · rw [neg_terms negated, List.pairwise_map]
    exact canonical.ascending
  · rw [neg_terms negated]
    intro term member
    obtain ⟨old, present, rfl⟩ := List.mem_map.mp member
    exact Int.neg_ne_zero.mpr (canonical.nonzero old present)

theorem add_within {allowed : Monomial → Prop} {left right sum : Poly}
    (added : left.add right = some sum) (leftInside : Within allowed left.terms)
    (rightInside : Within allowed right.terms) : Within allowed sum.terms := by
  obtain ⟨terms, run, rfl⟩ := Option.map_eq_some_iff.mp added
  exact foldlM_accumulate_within run leftInside rightInside

theorem add_canonical {left right sum : Poly} (added : left.add right = some sum)
    (leftCanonical : Canonical left.terms) (rightCanonical : Canonical right.terms) :
    Canonical sum.terms := by
  obtain ⟨terms, run, rfl⟩ := Option.map_eq_some_iff.mp added
  exact foldlM_accumulate_canonical run leftCanonical rightCanonical.sorted

/-- A product is a run of additions, one for each pair of terms. -/
theorem mul_keeps (kept : List Term → Prop) {left right result : Poly} (start : kept [])
    (keeps : ∀ before first second after, first ∈ left.terms → second ∈ right.terms → kept before →
      Accumulated (Monomial.ofSymbols (first.1 ++ second.1), first.2 * second.2) before after →
      kept after)
    (multiplied : left.mul right = some result) : kept result.terms := by
  obtain ⟨terms, run, rfl⟩ := Option.map_eq_some_iff.mp multiplied
  refine Option.foldlM_keeps kept left.terms ?_ start run
  intro before first after present old row
  refine Option.foldlM_keeps kept right.terms ?_ old row
  intro before second after also old step
  obtain ⟨coefficient, fits, added⟩ := Option.bind_eq_some_iff.mp step
  cases fit_eq_some fits
  exact keeps before first second after present also old (accumulate_cases added)

theorem mul_within {allowed : Monomial → Prop} {left right result : Poly}
    (products : ∀ first second, allowed first → allowed second →
      allowed (Monomial.ofSymbols (first ++ second)))
    (multiplied : left.mul right = some result) (leftInside : Within allowed left.terms)
    (rightInside : Within allowed right.terms) : Within allowed result.terms := by
  refine mul_keeps (Within allowed) (by simp [Within]) ?_ multiplied
  intro before first second after present also kept added
  exact added.within kept (products _ _ (leftInside first present) (rightInside second also))

theorem mul_canonical {left right result : Poly} (multiplied : left.mul right = some result) :
    Canonical result.terms :=
  mul_keeps Canonical .nil
    (fun _ _ _ _ _ _ kept added => added.canonical kept (Monomial.ofSymbols_sorted _)) multiplied

theorem mem_enlist (symbol other : Symbol) (symbols : List Symbol) :
    other ∈ enlist symbol symbols ↔ other = symbol ∨ other ∈ symbols := by
  induction symbols with
  | nil => simp [enlist]
  | cons first rest ih =>
      simp only [enlist]
      split
      · rename_i same
        simp [same]
      · split
        · simp
        · simp only [List.mem_cons, ih]
          exact or_left_comm

theorem mem_symbols (poly : Poly) (symbol : Symbol) :
    symbol ∈ poly.symbols ↔ ∃ term ∈ poly.terms, symbol ∈ term.1 := by
  have listed (symbols : List Symbol) : symbol ∈ symbols.foldr enlist [] ↔ symbol ∈ symbols := by
    induction symbols with
    | nil => simp
    | cons first rest ih => simp [mem_enlist, ih]
  simp [symbols, listed]

end Poly

end JoinEngine
