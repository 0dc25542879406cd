import JoinEngine.Proofs.Alu.Constant
import JoinEngine.Proofs.Alu.Overflow
import JoinEngine.Proofs.Shape.Search

/-!
Which expressions a table covers. Nothing that the arithmetic unit can run is refused:
an expression that computes what some shape computes, with its placeholders renamed one
to one, compiles.
-/

namespace JoinEngine

/-- An expression compiles if some shape computes the same under a renaming of the
placeholders in its polynomial, and if the constants are bound and fit. That the
expression is not zero need not be said: no shape is. -/
theorem instance_compiles (options : Options) (shapes : List Shape)
    (built : ShapeTable.build shapes = .ok options.shapes)
    (valid : options.format.validate = .ok ()) (spec : ExprSpec) (tree : Expr) (poly : Poly)
    (parsed : Expr.parse .expression spec.source = .ok tree)
    (folded : Poly.ofExpr options.shapes.maxDegree tree = .ok poly)
    (shape : Shape) (listed : shape ∈ shapes) (pattern : Expr) (form : Poly)
    (patternParsed : Expr.parse .pattern shape.pattern = .ok pattern)
    (patternFolded : Poly.ofExpr ShapeTable.patternLimit pattern = .ok form)
    (image : Symbol → Symbol) (apart : KeepsApart image form.symbols)
    (kinds : ∀ symbol ∈ form.symbols, (image symbol).isStream = symbol.isStream)
    (agree : ∀ value : Symbol → Int,
      pattern.eval (fun symbol => value (image symbol)) = tree.eval value)
    (bound : ∀ number, .constant number ∈ poly.symbols →
      (spec.registers.get? number.toNat).isSome)
    (fits : ∀ register value, spec.registers.get? register = some value →
      options.format.Fits value) :
    ∃ word, spec.compile options.format options.shapes = .ok word := by
  obtain ⟨made, member, _, entered⟩ := ShapeTable.build_shape built listed
  obtain ⟨again, same, reparsed, refolded, nonzero, rfl⟩ := ShapeTable.entry_eq_ok.mp entered
  obtain rfl : again = pattern := Except.ok.inj (reparsed.symm.trans patternParsed)
  obtain rfl : same = form := Except.ok.inj (refolded.symm.trans patternFolded)
  have shapeFolds := Poly.ofExpr_folds patternFolded
  have folds := Poly.ofExpr_folds folded
  have renamed : same.rename image = poly := by
    apply Poly.rename_eq_of_weigh_eq shapeFolds.canonical folds.canonical apart
    intro value
    rw [shapeFolds.weigh_eq, folds.weigh_eq, agree]
  have polyNonzero : poly.isZero = false := by
    have count := (Poly.rename_perm shapeFolds.canonical apart).length_eq
    rw [renamed, List.length_map] at count
    simp only [Poly.isZero, List.isEmpty_eq_false_iff, ne_eq] at nonzero ⊢
    rwa [← List.length_eq_zero_iff, count, List.length_eq_zero_iff]
  obtain ⟨found, matched⟩ :=
    ShapeTable.find?_of_rename member shapeFolds.canonical apart kinds renamed
  obtain ⟨values, encoded⟩ :=
    (ExprSpec.constants_isOk (ConstFormat.validate_eq_ok.mp valid) spec.registers).mpr fits
  exact ⟨_, ExprSpec.compile_eq_ok.mpr ⟨tree, poly, found, values, valid, parsed, folded,
    polyNonzero, matched, ExprSpec.unbound?_eq_none.mpr bound, encoded, rfl⟩⟩

/-- The common factor is spread over the expression, and `c1` is bound without being
used. -/
theorem factored_instance_compiles :
    let shape : Shape := ⟨"blend", 7, "a*(k-b)+c*k"⟩
    let form : Poly := ⟨[([.stream 0, .stream 1], -1), ([.stream 0, .constant 0], 1),
      ([.stream 2, .constant 0], 1)]⟩
    let table : ShapeTable := ⟨[⟨⟨"pass", 1, "a"⟩, ⟨[([.stream 0], 1)]⟩⟩, ⟨shape, form⟩]⟩
    let image := Renaming.image [(.stream 0, .stream 1), (.stream 1, .stream 2),
      (.stream 2, .stream 4), (.constant 0, .constant 3)]
    let registers := (Registers.empty.bind 3 (-16)).bind 1 15
    ShapeTable.build [⟨"pass", 1, "a"⟩, shape] = .ok table ∧
      KeepsApart image form.symbols ∧ ConstFormat.Fits ⟨8, 3⟩ (-16) ∧ ConstFormat.Fits ⟨8, 3⟩ 15 ∧
      ∃ word, ExprSpec.compile ⟨8, 3⟩ table ⟨"c3*(strm4+strm1)-strm1*strm2", registers⟩ =
        .ok word := by
  intro shape form table image registers
  let tree : Expr := .sub
    (.mul (.symbol (.constant 3)) (.add (.symbol (.stream 4)) (.symbol (.stream 1))))
    (.mul (.symbol (.stream 1)) (.symbol (.stream 2)))
  let pattern : Expr := .add
    (.mul (.symbol (.stream 0)) (.sub (.symbol (.constant 0)) (.symbol (.stream 1))))
    (.mul (.symbol (.stream 2)) (.symbol (.constant 0)))
  let poly : Poly := ⟨[([.stream 1, .stream 2], -1), ([.stream 1, .constant 3], 1),
    ([.stream 4, .constant 3], 1)]⟩
  have built : ShapeTable.build [⟨"pass", 1, "a"⟩, shape] = .ok table := by decide
  have parsed : Expr.parse .expression "c3*(strm4+strm1)-strm1*strm2" = .ok tree := by decide
  have patternParsed : Expr.parse .pattern shape.pattern = .ok pattern := by decide
  have apart : KeepsApart image form.symbols := by decide
  have least : ConstFormat.Fits ⟨8, 3⟩ (-16) := by decide
  have greatest : ConstFormat.Fits ⟨8, 3⟩ 15 := by decide
  have agree : ∀ value : Symbol → Int,
      pattern.eval (fun symbol => value (image symbol)) = tree.eval value := by
    intro value
    have images : image (.stream 0) = .stream 1 ∧ image (.stream 1) = .stream 2 ∧
        image (.stream 2) = .stream 4 ∧ image (.constant 0) = .constant 3 := by decide
    simp only [Expr.eval, images, pattern, tree]
    ring
  have bound : ∀ number, .constant number ∈ poly.symbols →
      (registers.get? number.toNat).isSome := by
    have only : ∀ symbol ∈ poly.symbols, symbol.isStream = false → symbol = .constant 3 := by decide
    intro number member
    cases only _ member rfl
    rfl
  have fits : ∀ register value, registers.get? register = some value →
      ConstFormat.Fits ⟨8, 3⟩ value := by
    have contents : ∀ register ∈ [1, 2, 3, 4],
        registers.get? register ∈ [none, some (-16), some 15] := by decide
    intro register value isBound
    have content := contents register (ExprSpec.get?_range isBound)
    rw [isBound] at content
    simp only [List.mem_cons, List.not_mem_nil, Option.some.injEq, reduceCtorEq, false_or,
      or_false] at content
    rcases content with rfl | rfl
    · exact least
    · exact greatest
  exact ⟨built, apart, least, greatest,
    instance_compiles ⟨⟨8, 3⟩, table, 8⟩ [⟨"pass", 1, "a"⟩, shape] built rfl
      ⟨"c3*(strm4+strm1)-strm1*strm2", registers⟩ tree poly parsed (by decide) shape (by simp)
      pattern form patternParsed (by decide) image apart (by decide) agree bound fits⟩

/-!
Adding shapes behind those of a table changes no word that it compiles. The longer
table may allow higher products, under which an expression keeps its polynomial, and
its first entries are those of the shorter table, so the search stops where it did.
-/

namespace ShapeTable
variable {shapes more : List Shape} {table larger : ShapeTable}

theorem entriesAfter_append {names : List String} {opcodes : List UInt8}
    {entries : List ShapeEntry}
    (built : entriesAfter names opcodes (shapes ++ more) = .ok entries) :
    ∃ first later, entriesAfter names opcodes shapes = .ok first ∧ entries = first ++ later := by
  induction shapes generalizing names opcodes entries with
  | nil => exact ⟨[], entries, rfl, rfl⟩
  | cons shape rest ih =>
      obtain ⟨reserved, named, coded, made, others, entered, later, rfl⟩ :=
        entriesAfter_cons.mp built
      obtain ⟨first, last, kept, rfl⟩ := ih later
      refine ⟨made :: first, last, ?_, rfl⟩
      exact entriesAfter_cons.mpr ⟨reserved, named, coded, made, first, entered, kept, rfl⟩

theorem build_append (built : build shapes = .ok table)
    (extended : build (shapes ++ more) = .ok larger) :
    ∃ later, larger.entries = table.entries ++ later := by
  unfold build at built extended
  split at built
  · cases built
  split at extended
  · cases extended
  obtain ⟨entries, made, rfl⟩ := Except.map_eq_ok.mp built
  obtain ⟨all, madeAll, rfl⟩ := Except.map_eq_ok.mp extended
  obtain ⟨first, later, again, rfl⟩ := entriesAfter_append madeAll
  obtain rfl : first = entries := Except.ok.inj (again.symm.trans made)
  exact ⟨later, rfl⟩

theorem maxDegree_le_of_append {later : List ShapeEntry}
    (longer : larger.entries = table.entries ++ later) : table.maxDegree ≤ larger.maxDegree := by
  rw [maxDegree_le_iff]
  intro made member
  apply degree_le_maxDegree
  rw [longer]
  exact List.mem_append_left _ member

theorem find?_of_append {later : List ShapeEntry} {poly : Poly} {found : ShapeMatch}
    (longer : larger.entries = table.entries ++ later) (matched : table.find? poly = some found) :
    larger.find? poly = some found := by
  unfold find? at matched ⊢
  rw [longer, List.findSome?_append, matched]
  rfl

end ShapeTable

/-- What compiles under a table compiles to the same word under every table that begins
with its shapes. -/
theorem extension_keeps_words (shapes more : List Shape) (table larger : ShapeTable)
    (built : ShapeTable.build shapes = .ok table)
    (extended : ShapeTable.build (shapes ++ more) = .ok larger) (format : ConstFormat)
    (spec : ExprSpec) (word : AluWord) (compiled : spec.compile format table = .ok word) :
    spec.compile format larger = .ok word := by
  obtain ⟨later, longer⟩ := ShapeTable.build_append built extended
  obtain ⟨tree, poly, found, values, valid, parsed, folded, nonzero, matched, bound, encoded,
    made⟩ := ExprSpec.compile_eq_ok.mp compiled
  have refolded := Poly.ofExpr_raise folded (ShapeTable.maxDegree_le_of_append longer)
  have rematched := ShapeTable.find?_of_append longer matched
  exact ExprSpec.compile_eq_ok.mpr ⟨tree, poly, found, values, valid, parsed, refolded, nonzero,
    rematched, bound, encoded, made⟩

/-- One of the new shapes allows higher products, the other fits the expression too. -/
theorem overlapping_extension_keeps_word :
    let shapes : List Shape := [⟨"difference", 9, "a-b"⟩]
    let more : List Shape := [⟨"triple", 4, "a*(b*c)"⟩, ⟨"reversed", 5, "b-a"⟩]
    let entry : ShapeEntry := ⟨⟨"difference", 9, "a-b"⟩, ⟨[([.stream 0], 1), ([.stream 1], -1)]⟩⟩
    let added : List ShapeEntry :=
      [ ⟨⟨"triple", 4, "a*(b*c)"⟩, ⟨[([.stream 0, .stream 1, .stream 2], 1)]⟩⟩,
        ⟨⟨"reversed", 5, "b-a"⟩, ⟨[([.stream 0], -1), ([.stream 1], 1)]⟩⟩ ]
    let word : AluWord := ⟨#v[7, 0, 0, 0], 3, 9, #v[2, 1, 0], 0, true⟩
    let spec : ExprSpec := ⟨"strm2-strm1", Registers.empty.bind 1 7⟩
    ShapeTable.build shapes = .ok ⟨[entry]⟩ ∧
      ShapeTable.build (shapes ++ more) = .ok ⟨entry :: added⟩ ∧
      ShapeTable.maxDegree ⟨[entry]⟩ < ShapeTable.maxDegree ⟨entry :: added⟩ ∧
      spec.compile .default ⟨[entry]⟩ = .ok word ∧
      spec.compile .default ⟨entry :: added⟩ = .ok word := by
  intro shapes more entry added word spec
  have built : ShapeTable.build shapes = .ok ⟨[entry]⟩ := by decide
  have extended : ShapeTable.build (shapes ++ more) = .ok ⟨entry :: added⟩ := by decide
  have compiled : spec.compile .default ⟨[entry]⟩ = .ok word := by decide
  exact ⟨built, extended, by decide, compiled,
    extension_keeps_words shapes more _ _ built extended .default spec word compiled⟩

/-!
What the degree of a table cuts off. Expressions are folded under the highest degree of
a shape. No polynomial above it is an instance of a shape, so the limit costs nothing as
long as what goes past it stays in the polynomial. Where the rest of the expression
cancels it, the expression is refused although it computes what a shape computes.
-/

namespace ShapeTable
variable {shapes : List Shape} {table : ShapeTable} {poly : Poly} {found : ShapeMatch}

theorem degree_le_of_find? (matched : table.find? poly = some found) :
    poly.degree ≤ table.maxDegree := by
  obtain ⟨made, member, tried⟩ := List.exists_of_findSome?_eq_some matched
  obtain ⟨pairs, chosen, _⟩ := instanceOf?_eq_some.mp tried
  rw [← (chosen?_eq_some.mp chosen).1.2.2]
  exact degree_le_maxDegree member

end ShapeTable

/-- Under the degree of the table an expression is refused exactly if a product in it is
higher. Nothing is lost if the polynomial is above the degree, as no shape fits it then.
If a refused polynomial is within the degree, a product above it has cancelled. -/
theorem cutoff_loses_only_cancelled (shapes : List Shape) (table : ShapeTable)
    (built : ShapeTable.build shapes = .ok table) (tree : Expr) (limit : Nat)
    (raised : table.maxDegree < limit) (poly : Poly) (folded : Poly.ofExpr limit tree = .ok poly) :
    ((∃ found bound, Poly.ofExpr table.maxDegree tree = .error (.degree found bound)) ↔
      tree.Exceeds table.maxDegree limit) ∧
    (table.maxDegree < poly.degree → table.find? poly = none) ∧
    ((∃ found bound, Poly.ofExpr table.maxDegree tree = .error (.degree found bound)) →
      poly.degree ≤ table.maxDegree → tree.Exceeds poly.degree limit) := by
  have exceeds := Poly.refused_iff_exceeds folded (ShapeTable.one_le_maxDegree built)
    (Nat.le_of_lt raised)
  refine ⟨exceeds, fun high => ?_, fun refused low => ?_⟩
  · cases matched : table.find? poly with
    | none => rfl
    | some found => exact absurd (ShapeTable.degree_le_of_find? matched) (Nat.not_le.mpr high)
  · obtain ⟨pair, member, product, whole, past⟩ := exceeds.mp refused
    exact ⟨pair, member, product, whole, Nat.lt_of_le_of_lt low past⟩

/-- The product of three streams stays in the polynomial. -/
theorem standing_product_refused :
    let tree : Expr := .sub
      (.mul (.symbol (.stream 1)) (.mul (.symbol (.stream 2)) (.symbol (.stream 3))))
      (.symbol (.stream 4))
    let poly : Poly := ⟨[([.stream 1, .stream 2, .stream 3], 1), ([.stream 4], -1)]⟩
    ShapeTable.build ShapeTable.standardShapes = .ok ShapeTable.standard ∧
      Expr.parse .expression "strm1*(strm2*strm3)-strm4" = .ok tree ∧
      Poly.ofExpr ShapeTable.standard.maxDegree tree = .error (.degree 3 2) ∧
      Poly.ofExpr 3 tree = .ok poly ∧ tree.Exceeds ShapeTable.standard.maxDegree 3 ∧
      ShapeTable.standard.find? poly = none := by
  intro tree poly
  have built : ShapeTable.build ShapeTable.standardShapes = .ok ShapeTable.standard := by decide
  have parsed : Expr.parse .expression "strm1*(strm2*strm3)-strm4" = .ok tree := by decide
  have refused : Poly.ofExpr ShapeTable.standard.maxDegree tree = .error (.degree 3 2) := by decide
  have folded : Poly.ofExpr 3 tree = .ok poly := by decide
  obtain ⟨exceeds, unfit, _⟩ :=
    cutoff_loses_only_cancelled _ _ built tree 3 (by decide) poly folded
  exact ⟨built, parsed, refused, folded, exceeds.mp ⟨3, 2, refused⟩, unfit (by decide)⟩

/-- The expression is the fourth stream alone, which the first shape passes on, but it
is refused for a product that cancels. -/
theorem cancelled_product_refused :
    let source := "strm1*(strm2*strm3)-strm3*(strm1*strm2)+strm4"
    let product (first second third : Symbol) : Expr :=
      .mul (.symbol first) (.mul (.symbol second) (.symbol third))
    let tree : Expr := .add
      (.sub (product (.stream 1) (.stream 2) (.stream 3))
        (product (.stream 3) (.stream 1) (.stream 2)))
      (.symbol (.stream 4))
    ShapeTable.build ShapeTable.standardShapes = .ok ShapeTable.standard ∧
      Expr.parse .expression source = .ok tree ∧
      Poly.ofExpr ShapeTable.standard.maxDegree tree = .error (.degree 3 2) ∧
      Poly.ofExpr 3 tree = .ok (Poly.ofSymbol (.stream 4)) ∧
      ShapeTable.standard.find? (Poly.ofSymbol (.stream 4)) =
        some ⟨⟨"pass", 1, "a"⟩, #v[4, 0, 0], 0⟩ ∧
      ExprSpec.compile .default .standard ⟨source, .empty⟩ =
        .error (.unsupported source (.refused (.degree 3 2))) := by
  decide

end JoinEngine
