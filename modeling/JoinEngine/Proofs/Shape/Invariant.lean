import JoinEngine.Proofs.Poly.Limit
import JoinEngine.Proofs.Shape.Match

/-!
What building a table establishes for the search in it. The lists of shapes that make a
table are described without the order of the checks. From the vocabulary of patterns a
shape has no more placeholders than there are ports and constants, from the limit of
folding no higher degree, and from not being zero at least one placeholder, so the search
only ever writes to ports that exist.
-/

namespace JoinEngine

def Shape.Means (shape : Shape) (poly : Poly) : Prop :=
  ∃ tree, Expr.parse .pattern shape.pattern = .ok tree ∧ Poly.ofExpr 4 tree = .ok poly ∧
    poly.isZero = false

theorem Shape.Means.unique {shape : Shape} {poly other : Poly} (means : shape.Means poly)
    (also : shape.Means other) : poly = other := by
  obtain ⟨tree, parsed, folded, _⟩ := means
  obtain ⟨same, again, refolded, _⟩ := also
  cases parsed.symm.trans again
  exact Except.ok.inj (folded.symm.trans refolded)

namespace ShapeMatch

def port? : Symbol × Symbol → Option Nat
  | (.stream slot, .stream _) => some slot.toNat
  | _ => none

def route? (found : ShapeMatch) (pair : Symbol × Symbol) : Option ShapeMatch :=
  if (port? pair).all (· < 3) then some (found.route pair) else none

def ofRenaming? (shape : Shape) (pairs : Renaming) : Option ShapeMatch :=
  pairs.foldlM route? ⟨shape, .replicate 3 0, 0⟩

theorem port?_exists {pair : Symbol × Symbol} (placed : Vocabulary.Placeholder pair.1) :
    (port? pair).all (· < 3) = true := by
  obtain ⟨source, target⟩ := pair
  cases source with
  | constant slot => rfl
  | stream slot =>
      have inside : slot.toNat < 3 := UInt8.lt_iff_toNat_lt.mp placed
      cases target with
      | constant number => rfl
      | stream number => simpa [port?] using inside

theorem ofRenaming?_eq {pairs : Renaming}
    (placed : ∀ pair ∈ pairs, Vocabulary.Placeholder pair.1) (shape : Shape) :
    ofRenaming? shape pairs = some (ofRenaming shape pairs) := by
  unfold ofRenaming? ofRenaming
  generalize (⟨shape, .replicate 3 0, 0⟩ : ShapeMatch) = start
  induction pairs generalizing start with
  | nil => rfl
  | cons pair rest ih =>
      obtain ⟨first, others⟩ := List.forall_mem_cons.mp placed
      have routed : start.route? pair = some (start.route pair) := if_pos (port?_exists first)
      rw [List.foldlM_cons, routed, List.foldl_cons]
      exact ih others _

end ShapeMatch

namespace ShapeTable

/-- The search with a check in front of every port it writes. -/
def checkedFind? (table : ShapeTable) (poly : Poly) : Option (Option ShapeMatch) :=
  table.entries.findSomeM? fun entry =>
    (chosen? poly entry).mapM (ShapeMatch.ofRenaming? entry.shape)

structure WellFormed (shapes : List Shape) : Prop where
  nonempty : shapes ≠ []
  opcodes : ∀ shape ∈ shapes, shape.opcode ≠ 0
  namesDistinct : (shapes.map Shape.name).Nodup
  opcodesDistinct : (shapes.map Shape.opcode).Nodup
  patterns : ∀ shape ∈ shapes, ∃ poly, shape.Means poly

/-- What holds of the table of a list of shapes. -/
structure Invariant (table : ShapeTable) (shapes : List Shape) : Prop where
  verbatim : table.shapes = shapes
  means : ∀ made ∈ table.entries, made.shape.Means made.poly
  found : ∀ shape ∈ shapes, table.byOpcode? shape.opcode = some shape
  missing : ∀ opcode, (∀ shape ∈ shapes, shape.opcode ≠ opcode) → table.byOpcode? opcode = none
  highest : ∀ shape ∈ shapes, ∀ poly, shape.Means poly → poly.degree ≤ table.maxDegree
  attained : ∃ shape ∈ shapes, ∃ poly, shape.Means poly ∧ poly.degree = table.maxDegree
  degree : 1 ≤ table.maxDegree ∧ table.maxDegree ≤ 4
  streams : ∀ made ∈ table.entries, made.streams.length ≤ 3
  constants : ∀ made ∈ table.entries, made.constants.length ≤ 1
  placeholders : ∀ made ∈ table.entries, 1 ≤ made.streams.length + made.constants.length
  ports : ∀ poly, table.checkedFind? poly = some (table.find? poly)

theorem entry_eq_ok_iff_means {shape : Shape} {made : ShapeEntry} :
    entry shape = .ok made ↔ made.shape = shape ∧ shape.Means made.poly := by
  rw [entry_eq_ok]
  constructor
  · rintro ⟨tree, poly, parsed, folded, nonzero, rfl⟩
    exact ⟨rfl, tree, parsed, folded, nonzero⟩
  · rintro ⟨rfl, tree, parsed, folded, nonzero⟩
    exact ⟨tree, made.poly, parsed, folded, nonzero, rfl⟩

theorem build_isOk {shapes : List Shape} :
    (∃ table, build shapes = .ok table) ↔ WellFormed shapes := by
  constructor
  · rintro ⟨table, built⟩
    have checked := build_checked built
    have nonempty : shapes ≠ [] := by
      rintro rfl
      cases built
    refine ⟨nonempty, fun shape member => (checked.opcode shape member).1, checked.namesDistinct,
      checked.opcodesDistinct, fun shape member => ?_⟩
    obtain ⟨made, entered⟩ := List.exists_forall₂_iff.mp ⟨_, checked.made⟩ shape member
    exact ⟨made.poly, (entry_eq_ok_iff_means.mp entered).2⟩
  · intro wellFormed
    have made : ∀ shape ∈ shapes, ∃ made, entry shape = .ok made := by
      intro shape member
      obtain ⟨poly, means⟩ := wellFormed.patterns shape member
      exact ⟨⟨shape, poly⟩, entry_eq_ok_iff_means.mpr ⟨rfl, means⟩⟩
    obtain ⟨entries, all⟩ := List.exists_forall₂_iff.mpr made
    have checked : Checked [] [] shapes entries :=
      ⟨all, fun shape member => ⟨wellFormed.opcodes shape member, List.not_mem_nil⟩,
        fun _ _ => List.not_mem_nil, wellFormed.opcodesDistinct, wellFormed.namesDistinct⟩
    have some : shapes.isEmpty = false := List.isEmpty_eq_false_iff.mpr wellFormed.nonempty
    refine ⟨⟨entries⟩, ?_⟩
    rw [build, some, checked.entriesAfter_eq]
    rfl

variable {shapes : List Shape} {table : ShapeTable} {made : ShapeEntry}

theorem byOpcode?_eq_none (built : build shapes = .ok table) {opcode : UInt8}
    (unused : ∀ shape ∈ shapes, shape.opcode ≠ opcode) : table.byOpcode? opcode = none := by
  unfold byOpcode?
  rw [build_shapes built, List.find?_eq_none]
  intro shape member
  simpa using unused shape member

theorem maxDegree_le_iff (table : ShapeTable) (limit : Nat) :
    table.maxDegree ≤ limit ↔ ∀ made ∈ table.entries, made.poly.degree ≤ limit := by
  unfold maxDegree
  induction table.entries with
  | nil => simp
  | cons made rest ih => simp only [List.foldr_cons, Nat.max_le, ih, List.forall_mem_cons]

theorem degree_le_maxDegree (member : made ∈ table.entries) :
    made.poly.degree ≤ table.maxDegree :=
  (maxDegree_le_iff table _).mp (Nat.le_refl _) made member

/-- The highest degree is that of a shape, but for the zero that the search for it starts
with. -/
theorem maxDegree_attained (table : ShapeTable) :
    table.maxDegree = 0 ∨ ∃ made ∈ table.entries, made.poly.degree = table.maxDegree := by
  unfold maxDegree
  induction table.entries with
  | nil => exact .inl rfl
  | cons made rest ih =>
      rw [List.foldr_cons]
      rcases max_choice made.poly.degree
        (rest.foldr (fun entry highest => max entry.poly.degree highest) 0) with first | later
      · exact .inr ⟨made, List.mem_cons_self, first.symm⟩
      · rw [later]
        exact ih.imp_right fun ⟨other, member, same⟩ => ⟨other, .tail _ member, same⟩

theorem build_means (built : build shapes = .ok table) (member : made ∈ table.entries) :
    made.shape.Means made.poly :=
  (entry_eq_ok_iff_means.mp (build_entry built member).2).2

/-- What is accepted as a pattern has at most its degree. -/
theorem build_maxDegree (built : build shapes = .ok table) : table.maxDegree ≤ patternLimit := by
  refine (maxDegree_le_iff table _).mpr fun made member => ?_
  obtain ⟨tree, _, folded, _⟩ := build_means built member
  exact (Poly.ofExpr_folds folded).degree_le (by decide)

theorem build_nonempty (built : build shapes = .ok table) : ∃ made, made ∈ table.entries := by
  apply List.exists_mem_of_ne_nil
  intro empty
  have none := build_shapes built
  rw [ShapeTable.shapes, empty] at none
  subst none
  cases built

/-- A table has a shape, and no shape is constant. -/
theorem one_le_maxDegree (built : build shapes = .ok table) : 1 ≤ table.maxDegree := by
  obtain ⟨made, member⟩ := build_nonempty built
  obtain ⟨tree, _, folded, nonzero⟩ := build_means built member
  rw [Poly.isZero, List.isEmpty_eq_false_iff_exists_mem] at nonzero
  obtain ⟨term, present⟩ := nonzero
  have proper := (Poly.ofExpr_folds folded).proper term present
  calc 1 ≤ term.1.length := List.length_pos_iff.mpr proper
    _ ≤ made.poly.degree := (Poly.degree_le_iff made.poly _).mp (Nat.le_refl _) term present
    _ ≤ table.maxDegree := degree_le_maxDegree member

theorem degree_le_of_means (built : build shapes = .ok table) (shape : Shape)
    (listed : shape ∈ shapes) (poly : Poly) (means : shape.Means poly) :
    poly.degree ≤ table.maxDegree := by
  obtain ⟨made, member, rfl, _⟩ := build_shape built listed
  rw [means.unique (build_means built member)]
  exact degree_le_maxDegree member

theorem exists_highest (built : build shapes = .ok table) :
    ∃ shape ∈ shapes, ∃ poly, shape.Means poly ∧ poly.degree = table.maxDegree := by
  have positive := one_le_maxDegree built
  rcases table.maxDegree_attained with zero | ⟨made, member, same⟩
  · omega
  · exact ⟨made.shape, (build_entry built member).1, made.poly, build_means built member, same⟩

/-- There are three placeholders for streams and one for a constant. -/
theorem placeholder_counts (placed : ∀ symbol ∈ made.poly.symbols, Vocabulary.Placeholder symbol) :
    made.streams.length ≤ 3 ∧ made.constants.length ≤ 1 := by
  have streams : made.streams ⊆ [.stream 0, .stream 1, .stream 2] := by
    intro symbol member
    obtain ⟨occurs, kind⟩ := List.mem_filter.mp member
    rcases (placed symbol occurs).cases with ⟨port, rfl⟩ | rfl
    · have listed : ∀ port, Symbol.onPort port ∈ [.stream 0, .stream 1, .stream 2] := by decide
      exact listed port
    · cases kind
  have constants : made.constants ⊆ [.constant 0] := by
    intro symbol member
    obtain ⟨occurs, kind⟩ := List.mem_filter.mp member
    rcases (placed symbol occurs).cases with ⟨port, rfl⟩ | rfl
    · cases kind
    · exact List.mem_singleton_self _
  exact ⟨(List.subperm_of_subset (made.poly.symbols_nodup.filter _) streams).length_le,
    (List.subperm_of_subset (made.poly.symbols_nodup.filter _) constants).length_le⟩

theorem one_le_placeholders (built : build shapes = .ok table) (member : made ∈ table.entries) :
    1 ≤ made.streams.length + made.constants.length := by
  obtain ⟨tree, _, folded, nonzero⟩ := build_means built member
  obtain ⟨symbol, occurs⟩ := (Poly.ofExpr_folds folded).symbols_ne_nil nonzero
  have all : (made.streams ++ made.constants).Perm made.poly.symbols := List.filter_append_perm _ _
  rw [← List.length_append, all.length_eq]
  exact List.length_pos_of_mem occurs

theorem checkedFind?_eq (built : build shapes = .ok table) (poly : Poly) :
    table.checkedFind? poly = some (table.find? poly) := by
  have each : ∀ made ∈ table.entries,
      (chosen? poly made).mapM (ShapeMatch.ofRenaming? made.shape) =
        some (instanceOf? poly made) := by
    intro made member
    rw [instanceOf?_eq_chosen]
    cases chosen : chosen? poly made with
    | none => rfl
    | some pairs =>
        have placed : ∀ pair ∈ pairs, Vocabulary.Placeholder pair.1 := fun pair replaced =>
          (build_poly built member).2 pair.1 ((chosen?_between chosen).sources pair replaced)
        rw [Option.mapM_some, ShapeMatch.ofRenaming?_eq placed]
        rfl
  unfold checkedFind? find?
  generalize table.entries = entries at each
  induction entries with
  | nil => rfl
  | cons made rest ih =>
      obtain ⟨first, others⟩ := List.forall_mem_cons.mp each
      rw [List.findSomeM?_cons, first, List.findSome?_cons]
      cases instanceOf? poly made with
      | none => exact ih others
      | some found => rfl

end ShapeTable

/-- A list of shapes makes a table exactly if it is not empty, its names and its opcodes are
distinct, no opcode is zero and every pattern has a polynomial that is not zero. The table
then has all that the search in it takes for granted. -/
theorem table_build_establishes (shapes : List Shape) :
    ((∃ table, ShapeTable.build shapes = .ok table) ↔ ShapeTable.WellFormed shapes) ∧
    ∀ table, ShapeTable.build shapes = .ok table → table.Invariant shapes := by
  refine ⟨ShapeTable.build_isOk, fun table built => ?_⟩
  have counts : ∀ made ∈ table.entries, made.streams.length ≤ 3 ∧ made.constants.length ≤ 1 :=
    fun made member => ShapeTable.placeholder_counts (ShapeTable.build_poly built member).2
  exact
    { verbatim := ShapeTable.build_shapes built
      means := fun made => ShapeTable.build_means built
      found := fun shape => ShapeTable.byOpcode?_of_mem built
      missing := fun opcode => ShapeTable.byOpcode?_eq_none built
      highest := ShapeTable.degree_le_of_means built
      attained := ShapeTable.exists_highest built
      degree := ⟨ShapeTable.one_le_maxDegree built, ShapeTable.build_maxDegree built⟩
      streams := fun made member => (counts made member).1
      constants := fun made member => (counts made member).2
      placeholders := fun made => ShapeTable.one_le_placeholders built
      ports := ShapeTable.checkedFind?_eq built }

/-- One pattern uses every placeholder at once and has the highest degree there can be. -/
theorem full_pattern_establishes :
    let shapes : List Shape := [⟨"scaled", 7, "a*(b*(c*k))"⟩, ⟨"offset", 9, "k-c"⟩]
    let table : ShapeTable :=
      ⟨[⟨⟨"scaled", 7, "a*(b*(c*k))"⟩, ⟨[([.stream 0, .stream 1, .stream 2, .constant 0], 1)]⟩⟩,
        ⟨⟨"offset", 9, "k-c"⟩, ⟨[([.stream 2], -1), ([.constant 0], 1)]⟩⟩]⟩
    ShapeTable.build shapes = .ok table ∧ ShapeTable.WellFormed shapes ∧ table.maxDegree = 4 ∧
      table.Invariant shapes := by
  intro shapes table
  have built : ShapeTable.build shapes = .ok table := by decide
  obtain ⟨wellFormed, invariant⟩ := table_build_establishes shapes
  exact ⟨built, wellFormed.mp ⟨table, built⟩, rfl, invariant table built⟩

end JoinEngine
