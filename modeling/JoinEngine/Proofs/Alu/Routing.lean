import JoinEngine.Proofs.Alu.Constant

/-!
How a compiled word is fed. A placeholder of the shape has a port or the constant
register exactly if it occurs in the polynomial of the pattern, different ports carry
different streams, and the streams that are read are those on the ports.
-/

namespace JoinEngine

namespace Renaming

structure Binds (pairs : Renaming) (source target : List Symbol) : Prop
    extends pairs.Places source target where
  numbered : ∀ symbol ∈ target, Vocabulary.Numbered symbol

namespace Binds
variable {pairs : Renaming} {source target : List Symbol} (shape : Shape)
  (binds : pairs.Binds source target)
include binds

theorem image_numbered {symbol : Symbol} (occurs : symbol ∈ source) :
    Vocabulary.Numbered (image pairs symbol) :=
  binds.numbered _ (binds.targets _ (image_mem (binds.covers symbol occurs)))

/-- A port is on exactly if the placeholder on it occurs. -/
theorem port_ne_zero_iff {port : Fin 3} :
    (ShapeMatch.ofRenaming shape pairs).ports.get port ≠ 0 ↔ .onPort port ∈ source := by
  constructor
  · intro on
    by_contra absent
    exact on (binds.port_absent shape absent)
  · intro occurs off
    have numbered := binds.image_numbered occurs
    rw [binds.port_image shape occurs, off] at numbered
    exact absurd numbered.1 (by decide)

theorem constant_ne_zero_iff :
    (ShapeMatch.ofRenaming shape pairs).constant ≠ 0 ↔ .constant 0 ∈ source := by
  constructor
  · intro on
    by_contra absent
    exact on (binds.constant_absent shape absent)
  · intro occurs off
    have numbered := binds.image_numbered occurs
    rw [binds.constant_image shape occurs, off] at numbered
    exact absurd numbered.1 (by decide)

theorem ports_distinct {first second : Fin 3}
    (same : (ShapeMatch.ofRenaming shape pairs).ports.get first =
      (ShapeMatch.ofRenaming shape pairs).ports.get second)
    (on : (ShapeMatch.ofRenaming shape pairs).ports.get first ≠ 0) : first = second := by
  have occurs := (binds.port_ne_zero_iff shape).mp on
  have also := (binds.port_ne_zero_iff shape).mp (same ▸ on)
  refine Symbol.onPort_injective (binds.apart _ occurs _ also ?_)
  rw [binds.port_image shape occurs, binds.port_image shape also, same]

end Binds

end Renaming

namespace ExprSpec

theorem testBit_mark_stream {number : UInt8} (numbered : Vocabulary.Numbered (.stream number))
    (mask : UInt8) (bit : Nat) :
    (mask ||| (1 <<< (number - 1))).toNat.testBit bit ↔
      mask.toNat.testBit bit ∨ number.toNat = bit + 1 := by
  have least : 1 ≤ number.toNat := UInt8.le_iff_toNat_le.mp numbered.1
  have most : number.toNat ≤ 4 := UInt8.le_iff_toNat_le.mp numbered.2
  have before : number - 1 = UInt8.ofNat (number.toNat - 1) := by
    apply UInt8.toNat_inj.mp
    rw [UInt8.toNat_sub_of_le _ _ numbered.1]
    exact (UInt8.toNat_ofNat_of_lt (show number.toNat - 1 < 256 by omega)).symm
  have inside : number.toNat - 1 < 8 := by omega
  have index : bit = number.toNat - 1 ↔ number.toNat = bit + 1 := by omega
  rw [before, Bytes.testBit_mark mask inside, Bool.or_eq_true, decide_eq_true_eq, index]

theorem testBit_foldl_streams {step : UInt8 → Symbol → UInt8}
    (marks : ∀ mask number, step mask (.stream number) = mask ||| (1 <<< (number - 1)))
    (skips : ∀ mask number, step mask (.constant number) = mask) {symbols : List Symbol}
    (numbered : ∀ symbol ∈ symbols, Vocabulary.Numbered symbol) (mask : UInt8) (bit : Nat) :
    (symbols.foldl step mask).toNat.testBit bit ↔
      mask.toNat.testBit bit ∨ ∃ number, .stream number ∈ symbols ∧ number.toNat = bit + 1 := by
  induction symbols generalizing mask with
  | nil => simp
  | cons symbol rest ih =>
      obtain ⟨first, others⟩ := List.forall_mem_cons.mp numbered
      rw [List.foldl_cons, ih others]
      cases symbol with
      | constant number => simp [skips]
      | stream number =>
          simp only [marks, testBit_mark_stream first, List.mem_cons, Symbol.stream.injEq,
            or_and_right, exists_or, exists_eq_left, or_assoc]

/-- The bit before the number of each stream that occurs. -/
theorem testBit_streamMask {symbols : List Symbol}
    (numbered : ∀ symbol ∈ symbols, Vocabulary.Numbered symbol) (bit : Nat) :
    (streamMask symbols).toNat.testBit bit ↔
      ∃ number, .stream number ∈ symbols ∧ number.toNat = bit + 1 := by
  unfold streamMask
  rw [testBit_foldl_streams (fun _ _ => rfl) (fun _ _ => rfl) numbered]
  simp

end ExprSpec

namespace AluWord

structure Coherent (word : AluWord) : Prop where
  distinct : ∀ first second : Fin 3, word.ports.get first = word.ports.get second →
    word.ports.get first ≠ 0 → first = second
  streams : ∀ bit < 4, word.streamMask.toNat.testBit bit ↔
    ∃ port, (word.ports.get port).toNat = bit + 1
  fed : (∃ port, word.ports.get port ≠ 0) ∨ word.constSelect ≠ 0

def FedAlike (word other : AluWord) : Prop :=
  (∀ port, word.ports.get port = 0 ↔ other.ports.get port = 0) ∧
    (word.constSelect = 0 ↔ other.constSelect = 0)

/-- What a compiled word is made from: an entry of the table, a polynomial and the
renaming that turns the first into the second. -/
structure Runs (word : AluWord) (made : ShapeEntry) (poly : Poly) (pairs : Renaming) : Prop where
  binds : pairs.Binds made.poly.symbols poly.symbols
  renamed : made.poly.rename (Renaming.image pairs) = poly
  onto : ∀ symbol ∈ poly.symbols, ∃ old ∈ made.poly.symbols, Renaming.image pairs old = symbol
  nonempty : ∃ symbol, symbol ∈ poly.symbols
  opcode : word.opcode = made.shape.opcode
  ports : word.ports = (ShapeMatch.ofRenaming made.shape pairs).ports
  constSelect : word.constSelect = (ShapeMatch.ofRenaming made.shape pairs).constant
  streamMask : word.streamMask = ExprSpec.streamMask poly.symbols

namespace Runs
variable {word : AluWord} {made : ShapeEntry} {poly : Poly} {pairs : Renaming}
  (runs : word.Runs made poly pairs)
include runs

theorem port_ne_zero_iff (port : Fin 3) :
    word.ports.get port ≠ 0 ↔ .onPort port ∈ made.poly.symbols := by
  rw [runs.ports]
  exact runs.binds.port_ne_zero_iff made.shape

theorem constSelect_ne_zero_iff : word.constSelect ≠ 0 ↔ .constant 0 ∈ made.poly.symbols := by
  rw [runs.constSelect]
  exact runs.binds.constant_ne_zero_iff made.shape

/-- A stream occurs exactly if some port carries it. -/
theorem stream_mem_iff {number : UInt8} (nonzero : number ≠ 0) :
    .stream number ∈ poly.symbols ↔ ∃ port, word.ports.get port = number := by
  constructor
  · intro occurs
    obtain ⟨old, member, image⟩ := runs.onto _ occurs
    rcases (runs.binds.placeholders old member).cases with ⟨port, rfl⟩ | rfl
    · rw [runs.binds.port_image made.shape member, ← runs.ports] at image
      exact ⟨port, Symbol.stream.inj image⟩
    · rw [runs.binds.constant_image made.shape member] at image
      cases image
  · rintro ⟨port, rfl⟩
    have member := (runs.port_ne_zero_iff port).mp nonzero
    have target := runs.binds.targets _ (Renaming.image_mem (runs.binds.covers _ member))
    rwa [runs.binds.port_image made.shape member, ← runs.ports] at target

/-- No constant occurs but the one of the selected register. -/
theorem constant_mem_iff {number : UInt8} :
    .constant number ∈ poly.symbols ↔ word.constSelect ≠ 0 ∧ number = word.constSelect := by
  constructor
  · intro occurs
    obtain ⟨old, member, image⟩ := runs.onto _ occurs
    rcases (runs.binds.placeholders old member).cases with ⟨port, rfl⟩ | rfl
    · rw [runs.binds.port_image made.shape member] at image
      cases image
    · rw [runs.binds.constant_image made.shape member, ← runs.constSelect] at image
      exact ⟨runs.constSelect_ne_zero_iff.mpr member, (Symbol.constant.inj image).symm⟩
  · rintro ⟨selected, rfl⟩
    have member := runs.constSelect_ne_zero_iff.mp selected
    have target := runs.binds.targets _ (Renaming.image_mem (runs.binds.covers _ member))
    rwa [runs.binds.constant_image made.shape member, ← runs.constSelect] at target

theorem coherent : word.Coherent where
  distinct := by
    rw [runs.ports]
    exact fun first second => runs.binds.ports_distinct made.shape
  streams := by
    intro bit below
    rw [runs.streamMask, ExprSpec.testBit_streamMask runs.binds.numbered]
    constructor
    · rintro ⟨number, occurs, place⟩
      have nonzero : number ≠ 0 := by
        rintro rfl
        cases place
      obtain ⟨port, same⟩ := (runs.stream_mem_iff nonzero).mp occurs
      exact ⟨port, by rw [same, place]⟩
    · rintro ⟨port, place⟩
      have nonzero : word.ports.get port ≠ 0 := by
        intro off
        rw [off] at place
        cases place
      exact ⟨_, (runs.stream_mem_iff nonzero).mpr ⟨port, rfl⟩, place⟩
  fed := by
    obtain ⟨symbol, occurs⟩ := runs.nonempty
    obtain ⟨old, member, _⟩ := runs.onto symbol occurs
    rcases (runs.binds.placeholders old member).cases with ⟨port, rfl⟩ | rfl
    · exact .inl ⟨port, (runs.port_ne_zero_iff port).mpr member⟩
    · exact .inr (runs.constSelect_ne_zero_iff.mpr member)

end Runs

theorem Runs.fedAlike {word other : AluWord} {made : ShapeEntry} {poly second : Poly}
    {pairs others : Renaming} (runs : word.Runs made poly pairs)
    (also : other.Runs made second others) : word.FedAlike other := by
  refine ⟨fun port => not_iff_not.mp ?_, not_iff_not.mp ?_⟩
  · exact (runs.port_ne_zero_iff port).trans (also.port_ne_zero_iff port).symm
  · exact runs.constSelect_ne_zero_iff.trans also.constSelect_ne_zero_iff.symm

end AluWord

namespace ExprSpec
variable {format : ConstFormat} {shapes : List Shape} {table : ShapeTable} {spec other : ExprSpec}
  {word second : AluWord}

theorem compile_runs (built : ShapeTable.build shapes = .ok table)
    (compiled : spec.compile format table = .ok word) :
    ∃ made ∈ table.entries, ∃ tree poly pairs, Expr.parse .expression spec.source = .ok tree ∧
      Poly.ofExpr table.maxDegree tree = .ok poly ∧ word.Runs made poly pairs := by
  obtain ⟨tree, poly, found, values, _, parsed, folded, nonzero, matched, _, _, rfl⟩ :=
    compile_eq_ok.mp compiled
  obtain ⟨made, member, pairs, between, renamed, rfl⟩ := ShapeTable.find?_instance matched
  obtain ⟨canonical, placeholders⟩ := ShapeTable.build_poly built member
  have named := Poly.ofExpr_symbols folded (Expr.parse_over parsed)
  have binds : pairs.Binds made.poly.symbols poly.symbols :=
    { between with
      placeholders := placeholders
      numbered := fun symbol occurs => (named symbol occurs).numbered }
  refine ⟨made, member, tree, poly, pairs, parsed, folded, binds, renamed, fun symbol occurs => ?_,
    (Poly.ofExpr_folds folded).symbols_ne_nil nonzero, ?_, rfl, rfl, rfl⟩
  · rw [← renamed, Poly.mem_symbols_rename canonical between.apart] at occurs
    exact List.mem_map.mp occurs
  · exact congrArg Shape.opcode (ShapeMatch.ofRenaming_shape made.shape pairs)

/-- Words with one opcode run one shape. -/
theorem compile_fedAlike (built : ShapeTable.build shapes = .ok table)
    (compiled : spec.compile format table = .ok word)
    (otherCompiled : other.compile format table = .ok second) (same : word.opcode = second.opcode) :
    word.FedAlike second := by
  obtain ⟨made, member, _, _, _, _, _, runs⟩ := compile_runs built compiled
  obtain ⟨entry, also, _, _, _, _, _, otherRuns⟩ := compile_runs built otherCompiled
  have opcodes : made.shape.opcode = entry.shape.opcode := by
    rw [← runs.opcode, ← otherRuns.opcode, same]
  have distinct := (ShapeTable.build_checked built).opcodesDistinct
  rw [← ShapeTable.build_shapes built, ShapeTable.shapes, List.map_map] at distinct
  obtain rfl : made = entry := List.inj_on_of_nodup_map distinct member also opcodes
  exact runs.fedAlike otherRuns

end ExprSpec

/-!
A compiled word against the function it computes. The mask comes from the polynomial
of the expression, ports and register from the placeholders of the shape; both say
which streams and which constant the function depends on.
-/

/-- A word that agrees with itself, with the shapes and registers it was compiled with
and with the expression. -/
structure AluWord.Consistent (word : AluWord) (table : ShapeTable) (registers : Registers)
    (tree : Expr) : Prop where
  enabled : word.enabled = true
  opcode : word.opcode ≠ 0
  listed : ∃ shape ∈ table.shapes, shape.opcode = word.opcode
  portsNumbered : ∀ port, word.ports.get port ≤ 4
  selectNumbered : word.constSelect ≤ 4
  distinct : ∀ first second, first ≠ second → word.ports.get first ≠ 0 →
    word.ports.get first ≠ word.ports.get second
  marked : ∀ number : UInt8, 1 ≤ number →
    (word.streamMask.toNat.testBit (number.toNat - 1) ↔ ∃ port, word.ports.get port = number)
  streams : ∀ number : UInt8, 1 ≤ number →
    ((∃ port, word.ports.get port = number) ↔ tree.DependsOn (.stream number))
  selected : word.constSelect ≠ 0 ↔ ∃ number, tree.DependsOn (.constant number)
  constant : word.constSelect ≠ 0 → ∀ number,
    tree.DependsOn (.constant number) ↔ number = word.constSelect
  bound : word.constSelect ≠ 0 → (registers.get? word.constSelect.toNat).isSome

namespace AluWord

theorem Valid.ports_le {word : AluWord} (valid : word.Valid) (port : Fin 3) :
    word.ports.get port ≤ 4 :=
  UInt8.le_iff_toNat_le.mpr (ports_le_of_routed valid.routed port)

namespace Runs
variable {word : AluWord} {made : ShapeEntry} {poly : Poly} {pairs : Renaming}
  (runs : word.Runs made poly pairs)
include runs

/-- All bits of the mask are meant here, also those past the fourth. -/
theorem marked_iff {number : UInt8} (numbered : 1 ≤ number) :
    word.streamMask.toNat.testBit (number.toNat - 1) ↔ .stream number ∈ poly.symbols := by
  have least : 1 ≤ number.toNat := UInt8.le_iff_toNat_le.mp numbered
  rw [runs.streamMask, ExprSpec.testBit_streamMask runs.binds.numbered]
  constructor
  · rintro ⟨other, occurs, place⟩
    have same : other = number := UInt8.toNat_inj.mp (by omega)
    exact same ▸ occurs
  · intro occurs
    exact ⟨number, occurs, by omega⟩

theorem stream_iff {number : UInt8} (numbered : 1 ≤ number) :
    .stream number ∈ poly.symbols ↔ ∃ port, word.ports.get port = number := by
  apply runs.stream_mem_iff
  rintro rfl
  exact absurd numbered (by decide)

end Runs

end AluWord

theorem ExprSpec.compile_enabled {format : ConstFormat} {table : ShapeTable} {spec : ExprSpec}
    {word : AluWord} (compiled : spec.compile format table = .ok word) : word.enabled = true := by
  obtain ⟨_, _, _, _, _, _, _, _, _, _, _, rfl⟩ := compile_eq_ok.mp compiled
  rfl

/-- Every constant that is left in the polynomial has a value. -/
theorem ExprSpec.compile_bound {format : ConstFormat} {table : ShapeTable} {spec : ExprSpec}
    {word : AluWord} {tree : Expr} {poly : Poly} (compiled : spec.compile format table = .ok word)
    (parsed : Expr.parse .expression spec.source = .ok tree)
    (folded : Poly.ofExpr table.maxDegree tree = .ok poly) {number : UInt8}
    (occurs : .constant number ∈ poly.symbols) : (spec.registers.get? number.toNat).isSome := by
  obtain ⟨again, same, _, _, _, reparsed, refolded, _, _, bound, _, _⟩ := compile_eq_ok.mp compiled
  cases reparsed.symm.trans parsed
  cases refolded.symm.trans folded
  exact unbound?_eq_none.mp bound number occurs

/-- Ports, mask and register of a compiled word are those of the function that the
expression computes. -/
theorem compiled_word_consistent (options : Options) (shapes : List Shape)
    (built : ShapeTable.build shapes = .ok options.shapes) (spec : ExprSpec) (word : AluWord)
    (compiled : spec.compile options.format options.shapes = .ok word) :
    ∃ tree, Expr.parse .expression spec.source = .ok tree ∧
      word.Consistent options.shapes spec.registers tree := by
  obtain ⟨made, member, tree, poly, pairs, parsed, folded, runs⟩ :=
    ExprSpec.compile_runs built compiled
  have valid := ExprSpec.compile_valid built compiled
  have enabled := ExprSpec.compile_enabled compiled
  have depends := Poly.ofExpr_dependsOn folded
  refine ⟨tree, parsed, {
    enabled := enabled
    opcode := valid.on enabled
    listed := ⟨made.shape, List.mem_map_of_mem member, runs.opcode.symm⟩
    portsNumbered := valid.ports_le
    selectNumbered := of_decide_eq_true (Bool.and_eq_true_iff.mp valid.routed).2
    distinct := ?_
    marked := ?_
    streams := ?_
    selected := ?_
    constant := ?_
    bound := ?_ }⟩
  · intro first second apart on same
    exact apart (runs.coherent.distinct first second same on)
  · intro number numbered
    rw [runs.marked_iff numbered, runs.stream_iff numbered]
  · intro number numbered
    rw [depends, runs.stream_iff numbered]
  · simp only [depends, runs.constant_mem_iff, exists_and_left, exists_eq, and_true]
  · intro selected number
    simp only [depends, runs.constant_mem_iff, selected, ne_eq, not_false_eq_true, true_and]
  · intro selected
    exact ExprSpec.compile_bound compiled parsed folded
      (runs.constant_mem_iff.mpr ⟨selected, rfl⟩)

/-- Two placeholders of the pattern cancel, and so do `strm1` and `c1` in the
expression: only the third port is on, and `c1` needs no value. -/
theorem third_port_word_consistent :
    let shape : Shape := ⟨"scale", 200, "c*(k+b)-b*c+a-a"⟩
    let options : Options := ⟨.default, ⟨[⟨shape, ⟨[([.stream 2, .constant 0], 1)]⟩⟩]⟩, 8⟩
    let spec : ExprSpec := ⟨"c1*strm1+c2*strm4-strm1*c1", Registers.empty.bind 2 7⟩
    let word : AluWord := ⟨#v[0, 7, 0, 0], 8, 200, #v[0, 0, 4], 2, true⟩
    ShapeTable.build [shape] = .ok options.shapes ∧
      spec.compile options.format options.shapes = .ok word ∧
      ∃ tree, Expr.parse .expression spec.source = .ok tree ∧
        word.Consistent options.shapes spec.registers tree := by
  intro shape options spec word
  have built : ShapeTable.build [shape] = .ok options.shapes := by decide
  have compiled : spec.compile options.format options.shapes = .ok word := by decide
  exact ⟨built, compiled, compiled_word_consistent options [shape] built spec word compiled⟩

end JoinEngine
