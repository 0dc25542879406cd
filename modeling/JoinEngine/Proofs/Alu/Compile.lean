import JoinEngine.Proofs.Bits.Layout
import JoinEngine.Proofs.Shape.Match
import JoinEngine.Stage

/-!
The bytes of an arithmetic word. A word that keeps the rules of the engine is read
back from its bytes, and what is read keeps the rules and has no other bytes.
-/

namespace JoinEngine

namespace AluWord

structure Valid (word : AluWord) : Prop where
  streams : word.streamMask.toNat < 2 ^ 4
  routed : word.isRouted
  off : word.enabled = false → word.isPassThrough
  on : word.enabled → word.opcode ≠ 0

def fields : List Field :=
  (List.range 4).map constantField.element ++ [streamMaskField, opcodeField] ++
    (List.range 3).map portField.element ++ [constSelectField, enableField]

theorem entries_eq (word : AluWord) :
    word.entries = constantField.arrayEntries UInt64.toNat word.constants ++
      [(streamMaskField, word.streamMask.toNat), (opcodeField, word.opcode.toNat)] ++
      portField.arrayEntries UInt8.toNat word.ports ++
      [(constSelectField, word.constSelect.toNat), (enableField, word.enabled.toNat)] :=
  rfl

theorem entries_fields (word : AluWord) : word.entries.map Prod.fst = fields := by
  simp only [entries_eq, List.map_append, Field.arrayEntries_fields]
  rfl

theorem ordered (word : AluWord) :
    Field.ascend (8 * byteCount) 0 (word.entries.map Prod.fst) := by
  rw [entries_fields]
  decide

/-- The bits without a meaning are all that the fields leave free. -/
theorem free_eq_reserved (word : AluWord) :
    Field.free (8 * byteCount) 0 (word.entries.map Prod.fst) = reservedFields := by
  rw [entries_fields]
  decide

theorem length_toBytes (word : AluWord) : word.toBytes.length = byteCount :=
  Bytes.length_layOut word.ordered

theorem ports_le_of_routed {word : AluWord} (routed : word.isRouted) (port : Fin 3) :
    word.ports[port].toNat ≤ 4 := by
  have all := (Bool.and_eq_true_iff.mp routed).1
  have member : word.ports[port] ∈ word.ports.toList := by simp
  have bounded := List.all_eq_true.mp all _ member
  exact UInt8.le_iff_toNat_le.mp (of_decide_eq_true bounded)

theorem constSelect_le_of_routed {word : AluWord} (routed : word.isRouted) :
    word.constSelect.toNat ≤ 4 :=
  UInt8.le_iff_toNat_le.mp (of_decide_eq_true (Bool.and_eq_true_iff.mp routed).2)

theorem Valid.fits {word : AluWord} (valid : word.Valid) : Bytes.Fits byteCount word.entries where
  ordered := word.ordered
  small := by
    intro entry member
    simp only [entries_eq, List.mem_append, Field.mem_arrayEntries, List.mem_cons,
      List.not_mem_nil, or_false] at member
    rcases member with ((⟨index, rfl⟩ | rfl | rfl) | ⟨port, rfl⟩) | rfl | rfl
    · exact word.constants[index].toNat_lt
    · exact valid.streams
    · exact word.opcode.toNat_lt
    · have bounded := ports_le_of_routed valid.routed port
      exact Nat.lt_of_le_of_lt bounded (show 4 < 2 ^ 3 by decide)
    · have bounded := constSelect_le_of_routed valid.routed
      exact Nat.lt_of_le_of_lt bounded (show 4 < 2 ^ 3 by decide)
    · exact Bool.toNat_lt _

theorem read_eq_iff {bytes : Bytes} (long : bytes.length = byteCount) {word : AluWord} :
    read bytes = word ↔ bytes.Stores word.entries := by
  -- What a field holds has room in the type it is read into, so nothing is cut off.
  have inside : ∀ field ∈ fields, field.get bytes < 2 ^ field.width := by
    intro field member
    rw [← entries_fields word] at member
    have bounds := (Field.ascend_bounds word.ordered).2 field member
    exact Field.get_lt (by rw [long]; exact bounds.2)
  simp only [fields, List.forall_mem_append, List.forall_mem_cons, List.not_mem_nil,
    false_implies, implies_true, and_true, List.forall_mem_map, List.mem_range] at inside
  obtain ⟨⟨⟨constants, streams, opcode⟩, ports⟩, select, enable⟩ := inside
  obtain ⟨values, mask, code, inputs, constant, enabled⟩ := word
  simp only [read, AluWord.mk.injEq, entries_eq, Bytes.stores_append, Bytes.stores_cons,
    Bytes.stores_nil, and_true, and_assoc]
  rw [Bytes.ofFn_get_eq_iff (fun _ => UInt64.ofNat_toNat)
      fun index below => UInt64.toNat_ofNat_of_lt' (constants index below),
    Bytes.ofFn_get_eq_iff (fun _ => UInt8.ofNat_toNat) fun index below =>
      UInt8.toNat_ofNat_of_lt'
        (Nat.lt_trans (ports index below) (show 2 ^ 3 < UInt8.size by decide)),
    Bytes.ofNat_eq_iff (Nat.lt_trans streams (by decide)), Bytes.ofNat_eq_iff opcode,
    Bytes.ofNat_eq_iff (Nat.lt_trans select (by decide)), Bytes.flag_eq_iff enable]

/-- Reading accepts the bytes of valid words and nothing else. -/
theorem ofBytes_eq_ok {bytes : Bytes} {word : AluWord} :
    ofBytes bytes = .ok word ↔ word.Valid ∧ bytes = word.toBytes := by
  constructor
  · intro accepted
    unfold ofBytes at accepted
    split at accepted
    · cases accepted
    rename_i length
    split at accepted
    · cases accepted
    rename_i reserved
    simp only at accepted
    split at accepted
    · cases accepted
    rename_i routed
    split at accepted
    · cases accepted
    rename_i disabled
    split at accepted
    · cases accepted
    rename_i opcode
    cases accepted
    have long : bytes.length = byteCount := by simpa using length
    have clear : ∀ field ∈ reservedFields, field.get bytes = 0 := by simpa using reserved
    have stores := (read_eq_iff long).mp rfl
    have streams : streamMaskField.get bytes < 2 ^ 4 :=
      Field.get_lt (show streamMaskField.hi ≤ 8 * bytes.length by rw [long]; decide)
    have valid : (read bytes).Valid :=
      ⟨Nat.lt_of_le_of_lt (Nat.mod_le _ _) streams, by simpa using routed,
        by simpa using disabled, by simpa using opcode⟩
    refine ⟨valid, (Bytes.eq_layOut_iff valid.fits).mpr ⟨long, stores, ?_⟩⟩
    rwa [free_eq_reserved]
  · rintro ⟨valid, rfl⟩
    obtain ⟨long, stores, clear⟩ := (Bytes.eq_layOut_iff valid.fits).mp (Eq.refl word.toBytes)
    rw [free_eq_reserved] at clear
    have reserved : reservedFields.any (·.get word.toBytes ≠ 0) = false := by simpa using clear
    have routed := valid.routed
    have off := valid.off
    have on := valid.on
    unfold ofBytes
    rw [(read_eq_iff long).mpr stores, reserved, long]
    cases enabled : word.enabled <;> simp_all

end AluWord

/-!
What the arithmetic unit computes. A word names a shape by its opcode and feeds the
placeholders of the shape from its ports; the pattern then has the value of the
compiled expression, whatever stands at a placeholder that is not fed. A compiled
word depends on the function an expression computes and not on its spelling.
-/

namespace ExprSpec

theorem compile_eq_ok {format : ConstFormat} {table : ShapeTable} {spec : ExprSpec}
    {word : AluWord} :
    spec.compile format table = .ok word ↔
      ∃ tree poly found values, format.validate = .ok () ∧
        Expr.parse .expression spec.source = .ok tree ∧
        Poly.ofExpr table.maxDegree tree = .ok poly ∧ poly.isZero = false ∧
        table.find? poly = some found ∧ unbound? spec.registers poly.symbols = none ∧
        constants format spec.registers = .ok values ∧
        word = ⟨values, streamMask poly.symbols, found.shape.opcode, found.ports,
          found.constant, true⟩ := by
  unfold compile
  simp only [Except.bind_eq_ok, Except.mapError_eq_ok]
  constructor
  · rintro ⟨⟨⟩, valid, tree, parsed, poly, folded, rest⟩
    cases zero : poly.isZero with
    | true => simp [zero, Except.bind_eq_ok] at rest
    | false =>
        cases matched : table.find? poly with
        | none => simp [zero, matched] at rest
        | some found =>
            cases bound : unbound? spec.registers poly.symbols with
            | some register => simp [zero, matched, bound, Except.bind_eq_ok] at rest
            | none =>
                simp only [zero, matched, bound, Bool.false_eq_true, if_false] at rest
                obtain ⟨values, encoded, made⟩ := Except.bind_eq_ok.mp rest
                cases made
                exact ⟨tree, poly, found, values, valid, parsed, folded, zero, matched, bound,
                  encoded, rfl⟩
  · rintro ⟨tree, poly, found, values, valid, parsed, folded, zero, matched, bound, encoded, rfl⟩
    refine ⟨(), valid, tree, parsed, poly, folded, ?_⟩
    simp only [zero, matched, bound, Bool.false_eq_true, if_false]
    exact Except.bind_eq_ok.mpr ⟨values, encoded, rfl⟩

/-- Behind the polynomial nothing looks at the text any more. -/
theorem compile_of_poly {format : ConstFormat} {table : ShapeTable} {registers : Registers}
    {source other : String} {tree second : Expr} {poly : Poly} {word : AluWord}
    (parsed : Expr.parse .expression source = .ok tree)
    (folded : Poly.ofExpr table.maxDegree tree = .ok poly)
    (otherParsed : Expr.parse .expression other = .ok second)
    (otherFolded : Poly.ofExpr table.maxDegree second = .ok poly)
    (compiled : compile format table ⟨source, registers⟩ = .ok word) :
    compile format table ⟨other, registers⟩ = .ok word := by
  obtain ⟨again, same, found, values, valid, reparsed, refolded, nonzero, matched, bound, encoded,
    made⟩ := compile_eq_ok.mp compiled
  obtain rfl : again = tree := Except.ok.inj (reparsed.symm.trans parsed)
  obtain rfl : same = poly := Except.ok.inj (refolded.symm.trans folded)
  exact compile_eq_ok.mpr ⟨second, same, found, values, valid, otherParsed, otherFolded, nonzero,
    matched, bound, encoded, made⟩

theorem stream_bit_small :
    ∀ number : Fin 4, ((1 : UInt8) <<< UInt8.ofNat number).toNat < 2 ^ 4 := by
  decide

/-- Streams are numbered up to four, so four bits name those that occur. -/
theorem streamMask_small {symbols : List Symbol}
    (numbered : ∀ symbol ∈ symbols, Vocabulary.Numbered symbol) :
    (streamMask symbols).toNat < 2 ^ 4 := by
  refine List.foldlRecOn _ _ (motive := fun mask : UInt8 => mask.toNat < 2 ^ 4) (by decide) ?_
  intro mask small symbol occurs
  cases symbol with
  | constant number => exact small
  | stream number =>
      obtain ⟨least, greatest⟩ := numbered _ occurs
      have below : (number - 1).toNat < 4 := by
        rw [UInt8.toNat_sub_of_le _ _ least]
        have most := UInt8.le_iff_toNat_le.mp greatest
        simp at most ⊢
        omega
      have shifted := stream_bit_small ⟨(number - 1).toNat, below⟩
      rw [UInt8.toNat_or]
      exact Nat.or_lt_two_pow small (by simpa using shifted)

/-- Compiled words keep the rules of the engine. -/
theorem compile_valid {format : ConstFormat} {shapes : List Shape} {table : ShapeTable}
    (built : ShapeTable.build shapes = .ok table) {spec : ExprSpec} {word : AluWord}
    (compiled : spec.compile format table = .ok word) : word.Valid := by
  obtain ⟨tree, poly, found, values, _, parsed, folded, _, matched, _, _, rfl⟩ :=
    compile_eq_ok.mp compiled
  obtain ⟨made, member, pairs, between, _, rfl⟩ := ShapeTable.find?_instance matched
  have named := Poly.ofExpr_symbols folded (Expr.parse_over parsed)
  have numbered : ∀ symbol ∈ poly.symbols, Vocabulary.Numbered symbol :=
    fun symbol occurs => (named symbol occurs).numbered
  have routed : ∀ pair ∈ pairs, Vocabulary.Numbered pair.2 :=
    fun pair present => numbered pair.2 (between.targets pair present)
  have ports : ∀ port (inside : port < 3),
      (ShapeMatch.ofRenaming made.shape pairs).ports[port] ≤ 4 := by
    intro port inside
    rcases ShapeMatch.port_cases made.shape pairs port inside with off | ⟨pair, present, same⟩
    · rw [off]
      decide
    · have range := routed pair present
      rw [same] at range
      exact range.2
  have constant : (ShapeMatch.ofRenaming made.shape pairs).constant ≤ 4 := by
    rcases ShapeMatch.constant_cases made.shape pairs with off | ⟨pair, present, same⟩
    · rw [off]
      decide
    · have range := routed pair present
      rw [same] at range
      exact range.2
  refine ⟨streamMask_small numbered, ?_, by simp, fun _ => ?_⟩
  · simp only [AluWord.isRouted, Bool.and_eq_true, List.all_eq_true, decide_eq_true_eq]
    refine ⟨fun stream listed => ?_, constant⟩
    obtain ⟨port, inside, rfl⟩ := List.getElem_of_mem listed
    simpa using ports port (by simpa using inside)
  · rw [ShapeMatch.ofRenaming_shape]
    exact ((ShapeTable.build_checked built).opcode made.shape
      (ShapeTable.build_entry built member).1).1

end ExprSpec

/-- The placeholders on the ports of a word have the values of the streams and of
the register that are routed to them. Nothing is said of the others. -/
def AluWord.Feeds (word : AluWord) (value placeholder : Symbol → Int) : Prop :=
  (∀ port : Fin 3, word.ports.get port ≠ 0 →
    placeholder (.stream (UInt8.ofNat port)) = value (.stream (word.ports.get port))) ∧
  (word.constSelect ≠ 0 → placeholder (.constant 0) = value (.constant word.constSelect))

section Meaning
variable {word : AluWord} {source target : List Symbol} {pairs : Renaming} {shape : Shape}
  {value placeholder : Symbol → Int}

/-- Numbers of streams and registers start at one, so no placeholder that occurs is
left without a value. -/
theorem AluWord.Feeds.of_image (feeds : word.Feeds value placeholder)
    (ports : word.ports = (ShapeMatch.ofRenaming shape pairs).ports)
    (select : word.constSelect = (ShapeMatch.ofRenaming shape pairs).constant)
    (between : pairs.Between source target)
    (placeholders : ∀ symbol ∈ source, Vocabulary.Placeholder symbol)
    (numbered : ∀ symbol ∈ target, Vocabulary.Numbered symbol) :
    ∀ symbol ∈ source, placeholder symbol = value (Renaming.image pairs symbol) := by
  intro symbol occurs
  have covered := between.covers symbol occurs
  have routed := numbered _ (between.targets _ (Renaming.image_mem covered))
  cases symbol with
  | stream slot =>
      have inside : slot.toNat < 3 := UInt8.lt_iff_toNat_lt.mp (placeholders _ occurs)
      have image := ShapeMatch.port_image shape between.kinds inside covered
      rw [image] at routed ⊢
      rw [← ports] at routed ⊢
      have fed := feeds.1 ⟨slot.toNat, inside⟩ (by
        intro off
        change word.ports[slot.toNat] = 0 at off
        simp [off, Vocabulary.Numbered] at routed)
      rw [UInt8.ofNat_toNat] at fed
      exact fed
  | constant slot =>
      have only : ∀ pair ∈ pairs, pair.1.isStream = false → pair.1 = .constant slot := by
        intro pair member kind
        have first := placeholders _ (between.sources pair member)
        have second := placeholders _ occurs
        cases same : pair.1 with
        | stream other => simp [same, Symbol.isStream] at kind
        | constant other =>
            rw [same] at first
            simp only [Vocabulary.Placeholder] at first second
            rw [first, second]
      have image := ShapeMatch.constant_image shape between.kinds only covered
      have first : slot = 0 := placeholders _ occurs
      rw [image] at routed ⊢
      rw [← select] at routed ⊢
      have fed := feeds.2 (by
        intro off
        simp [off, Vocabulary.Numbered] at routed)
      rw [first]
      exact fed

end Meaning

/-- A compiled word computes what its expression says. -/
theorem compile_preserves_value (options : Options) (shapes : List Shape)
    (built : ShapeTable.build shapes = .ok options.shapes) (spec : ExprSpec) (word : AluWord)
    (compiled : spec.compile options.format options.shapes = .ok word) :
    ∃ shape tree pattern, options.shapes.byOpcode? word.opcode = some shape ∧
      Expr.parse .expression spec.source = .ok tree ∧
      Expr.parse .pattern shape.pattern = .ok pattern ∧
      ∀ value placeholder : Symbol → Int, word.Feeds value placeholder →
        tree.eval value = pattern.eval placeholder := by
  obtain ⟨tree, poly, found, values, _, parsed, folded, nonzero, matched, _, _, rfl⟩ :=
    ExprSpec.compile_eq_ok.mp compiled
  obtain ⟨made, member, pairs, between, renamed, rfl⟩ := ShapeTable.find?_instance matched
  obtain ⟨listed, entered⟩ := ShapeTable.build_entry built member
  obtain ⟨pattern, shapePoly, patternParsed, patternFolded, _, entryEq⟩ :=
    ShapeTable.entry_eq_ok.mp entered
  have same : made.poly = shapePoly := congrArg ShapeEntry.poly entryEq
  refine ⟨made.shape, tree, pattern, ?_, parsed, patternParsed, fun value placeholder feeds => ?_⟩
  · simp only [ShapeMatch.ofRenaming_shape]
    exact ShapeTable.byOpcode?_of_mem built listed
  · have placeholders := Poly.ofExpr_symbols patternFolded (Expr.parse_over patternParsed)
    have numbered := Poly.ofExpr_symbols folded (Expr.parse_over parsed)
    have fed := feeds.of_image rfl rfl between
      (fun symbol occurs => (placeholders symbol (same ▸ occurs)).placeholder)
      (fun symbol occurs => (numbered symbol occurs).numbered)
    have kept : made.poly.rename (Renaming.image pairs) ≠ Poly.zero := by
      rw [renamed]
      rintro rfl
      cases nonzero
    calc tree.eval value
        = Poly.weigh value poly.terms := by rw [(Poly.ofExpr_folds folded).weigh_eq value]
      _ = Poly.weigh value (made.poly.rename (Renaming.image pairs)).terms := by rw [renamed]
      _ = Poly.weigh (fun symbol => value (Renaming.image pairs symbol)) made.poly.terms :=
          Poly.rename_weigh value _ made.poly kept
      _ = Poly.weigh placeholder made.poly.terms :=
          Poly.weigh_congr made.poly fun symbol occurs => (fed symbol occurs).symm
      _ = pattern.eval placeholder := by
          rw [same, (Poly.ofExpr_folds patternFolded).weigh_eq placeholder]

/-- The first port is off: the pattern loses its first placeholder, which then may
have any value. -/
theorem cancelled_placeholder_free :
    ShapeTable.build [⟨"second", 9, "a-a+b*k"⟩] =
      .ok ⟨[⟨⟨"second", 9, "a-a+b*k"⟩, ⟨[([.stream 1, .constant 0], 1)]⟩⟩]⟩ ∧
    ∃ shape tree pattern,
      ShapeTable.byOpcode? ⟨[⟨⟨"second", 9, "a-a+b*k"⟩, ⟨[([.stream 1, .constant 0], 1)]⟩⟩]⟩ 9 =
        some shape ∧
      Expr.parse .expression "c3*(strm2+strm1)-strm1*c3" = .ok tree ∧
      Expr.parse .pattern shape.pattern = .ok pattern ∧
      ∀ value placeholder : Symbol → Int,
        AluWord.Feeds ⟨#v[0, 0, 5, 0], 2, 9, #v[0, 2, 0], 3, true⟩ value placeholder →
        tree.eval value = pattern.eval placeholder :=
  ⟨rfl, compile_preserves_value
    ⟨.default, ⟨[⟨⟨"second", 9, "a-a+b*k"⟩, ⟨[([.stream 1, .constant 0], 1)]⟩⟩]⟩, 8⟩
    [⟨"second", 9, "a-a+b*k"⟩] rfl ⟨"c3*(strm2+strm1)-strm1*c3", Registers.empty.bind 3 5⟩
    ⟨#v[0, 0, 5, 0], 2, 9, #v[0, 2, 0], 3, true⟩ rfl⟩

/-- Spelling does not matter: expressions that have polynomials have the same one
exactly if they compute the same function, and then compile to the same word. -/
theorem spellings_agree (first second : Expr) (limit otherLimit : Nat) (poly other : Poly)
    (folded : Poly.ofExpr limit first = .ok poly)
    (otherFolded : Poly.ofExpr otherLimit second = .ok other) :
    (∀ value : Symbol → Int, poly.eval value = first.eval value) ∧
    (poly = other ↔ ∀ value : Symbol → Int, first.eval value = second.eval value) ∧
    ∀ (options : Options) (registers : Registers) (firstText secondText : String),
      Expr.parse .expression firstText = .ok first →
      Expr.parse .expression secondText = .ok second →
      (∃ form, Poly.ofExpr options.shapes.maxDegree first = .ok form) →
      (∃ form, Poly.ofExpr options.shapes.maxDegree second = .ok form) →
      (∀ value : Symbol → Int, first.eval value = second.eval value) →
      ∀ word,
        ExprSpec.compile options.format options.shapes ⟨firstText, registers⟩ = .ok word ↔
          ExprSpec.compile options.format options.shapes ⟨secondText, registers⟩ = .ok word := by
  refine ⟨Poly.ofExpr_eval folded, Poly.ofExpr_eq_iff folded otherFolded, ?_⟩
  rintro options registers firstText secondText parsed otherParsed ⟨form, firstFolded⟩
    ⟨otherForm, secondFolded⟩ agree word
  obtain rfl := (Poly.ofExpr_eq_iff firstFolded secondFolded).mpr agree
  constructor
  · exact ExprSpec.compile_of_poly parsed firstFolded otherParsed secondFolded
  · exact ExprSpec.compile_of_poly otherParsed secondFolded parsed firstFolded

theorem factored_and_expanded_agree :
    let factored := Expr.mul (.symbol (.stream 1))
      (.sub (.symbol (.constant 2)) (.symbol (.stream 2)))
    let expanded := Expr.add (.mul (.neg (.symbol (.stream 1))) (.symbol (.stream 2)))
      (.mul (.symbol (.constant 2)) (.symbol (.stream 1)))
    let poly : Poly := ⟨[([.stream 1, .stream 2], -1), ([.stream 1, .constant 2], 1)]⟩
    Poly.ofExpr 2 factored = .ok poly ∧ Poly.ofExpr 4 expanded = .ok poly ∧
    (∀ value : Symbol → Int, factored.eval value = expanded.eval value) ∧
    ∀ word,
      ExprSpec.compile .default .standard ⟨"strm1*(c2-strm2)", Registers.empty.bind 2 7⟩ =
          .ok word ↔
        ExprSpec.compile .default .standard ⟨"-strm1*strm2+c2*strm1", Registers.empty.bind 2 7⟩ =
          .ok word := by
  intro factored expanded poly
  have folded : Poly.ofExpr 2 factored = .ok poly := rfl
  have otherFolded : Poly.ofExpr 4 expanded = .ok poly := rfl
  have whole := spellings_agree factored expanded 2 4 poly poly folded otherFolded
  have agree := whole.2.1.mp rfl
  refine ⟨folded, otherFolded, agree,
    whole.2.2 .default (Registers.empty.bind 2 7) _ _ rfl rfl ?_ ?_ agree⟩
  · exact ⟨poly, rfl⟩
  · exact ⟨poly, rfl⟩

end JoinEngine
