import JoinEngine.Proofs.Alu.Constant
import Mathlib.Algebra.Group.Nat.Defs
import Mathlib.Data.List.Basic

/-!
What it takes to compile a stage. Its join reads columns that are scanned, its
shuffles read columns that are there, its filters have bounds in range and its
expressions compile. The output slots it writes are known from the bits of their
mask: something feeds them and the join does not suppress them.
-/

namespace JoinEngine

theorem Options.validate_eq_ok {options : Options} :
    options.validate = .ok () ↔ options.format.validate = .ok () ∧
      options.scanColumns ≠ 0 ∧ options.scanColumns ≤ 8 := by
  unfold validate
  rw [Except.bind_eq_ok]
  by_cases outside : options.scanColumns = 0 ∨ 8 < options.scanColumns
  · have range : ¬ (options.scanColumns ≠ 0 ∧ options.scanColumns ≤ 8) := by
      rintro ⟨nonzero, most⟩
      exact outside.elim nonzero (UInt8.not_lt.mpr most)
    simp [outside, range]
  · obtain ⟨nonzero, most⟩ := not_or.mp outside
    rw [if_neg outside]
    constructor
    · rintro ⟨⟨⟩, valid, _⟩
      exact ⟨valid, nonzero, UInt8.not_lt.mp most⟩
    · rintro ⟨valid, _⟩
      exact ⟨(), valid, rfl⟩

namespace Join

theorem validate_eq_ok {join : Join} {scanColumns : UInt8} :
    join.validate scanColumns = .ok () ↔ ∀ fault ∈ join.faults scanColumns, fault = none := by
  unfold validate
  split
  · rename_i found
    obtain ⟨fault, member, same⟩ := List.exists_of_findSome?_eq_some found
    simp only [reduceCtorEq, false_iff]
    intro all
    rw [all fault member] at same
    cases same
  · rename_i passed
    simpa using List.findSome?_eq_none_iff.mp passed

theorem columnFault?_eq_none {join : Join} {scanColumns : UInt8} {side : Side} :
    join.columnFault? scanColumns side = none ↔
      ∀ column ∈ join.columns side, column < scanColumns := by
  simp [columnFault?]

theorem columns_scanned {join : Join} {scanColumns : UInt8}
    (valid : join.validate scanColumns = .ok ()) (side : Side) :
    ∀ column ∈ join.columns side, column < scanColumns := by
  apply columnFault?_eq_none.mp
  apply validate_eq_ok.mp valid
  cases side <;> simp [faults]

theorem testBit_mark (mask : UInt8) {slot : Nat} (inside : slot < 8) (bit : Nat) :
    (mark mask slot).toNat.testBit bit ↔ mask.toNat.testBit bit ∨ bit = slot := by
  rw [mark, Bytes.testBit_mark mask inside, Bool.or_eq_true, decide_eq_true_iff]

/-- A fold that marks a place for each item. -/
theorem testBit_foldl_mark {Item : Type} (place : Item → Nat) {items : List Item}
    (inside : ∀ item ∈ items, place item < 8) (mask : UInt8) (bit : Nat) :
    (items.foldl (fun mask item => mark mask (place item)) mask).toNat.testBit bit ↔
      mask.toNat.testBit bit ∨ ∃ item ∈ items, place item = bit := by
  induction items generalizing mask with
  | nil => simp
  | cons item rest ih =>
      obtain ⟨first, others⟩ := List.forall_mem_cons.mp inside
      rw [List.foldl_cons, ih others, testBit_mark mask first, List.exists_mem_cons_iff, or_assoc,
        eq_comm (a := bit)]

/-- The first entries of the right payload mark their own places. -/
theorem testBit_carried (right : List ColumnRef) (slot : Nat) :
    (((right.take 3).zipIdx.filter fun entry => entry.1.isMaterialized).foldl
      (fun mask entry => mark mask entry.2) 0).toNat.testBit slot ↔
        slot < 3 ∧ right[slot]?.any ColumnRef.isMaterialized := by
  have placed : ∀ entry ∈ (right.take 3).zipIdx,
      entry.2 < 3 ∧ right[entry.2]? = some entry.1 := by
    intro entry member
    have found := List.mem_zipIdx_iff_getElem?.mp member
    have below := (List.getElem?_eq_some_iff.mp found).1
    rw [List.length_take] at below
    rw [List.getElem?_take_of_lt (by omega)] at found
    exact ⟨by omega, found⟩
  rw [testBit_foldl_mark Prod.snd]
  · simp only [List.mem_filter, Option.any_eq_true]
    constructor
    · rintro (zero | ⟨entry, ⟨member, held⟩, rfl⟩)
      · simp at zero
      · obtain ⟨below, found⟩ := placed entry member
        exact ⟨below, entry.1, found, held⟩
    · rintro ⟨below, ref, found, held⟩
      refine .inr ⟨(ref, slot), ⟨?_, held⟩, rfl⟩
      rw [List.mem_zipIdx_iff_getElem?, List.getElem?_take_of_lt below, found]
  · intro entry member
    have below := (placed entry (List.mem_filter.mp member).1).1
    omega

def feeds (left right : List ColumnRef) (result : Bool) : Nat → Bool
  | 0 => right[0]?.any ColumnRef.isMaterialized
  | 1 => right[1]?.any ColumnRef.isMaterialized
  | 2 => right[2]?.any ColumnRef.isMaterialized
  | 3 => left[0]?.any ColumnRef.isMaterialized
  | 4 => result
  | _ => false

/-- The mask has the bits of the slots that something feeds. -/
theorem testBit_feedMask (left right : List ColumnRef) (result : Bool) (slot : Nat) :
    (feedMask left right result).toNat.testBit slot ↔ feeds left right result slot := by
  have marked : (feedMask left right result).toNat.testBit slot ↔
      (slot < 3 ∧ right[slot]?.any ColumnRef.isMaterialized) ∨
        (left[0]?.any ColumnRef.isMaterialized ∧ slot = 3) ∨ (result ∧ slot = 4) := by
    rw [← testBit_carried, ← List.head?_eq_getElem?]
    unfold feedMask
    cases left.head?.any ColumnRef.isMaterialized <;> cases result <;>
      simp [testBit_mark, or_assoc]
  rw [marked]
  match slot with
  | 0 | 1 | 2 | 3 | 4 => simp [feeds]
  | slot + 5 =>
      have past : ¬ slot + 5 < 3 := by omega
      simp [feeds, past]

theorem testBit_suppressedMask (join : Join) {slot : Nat} (inside : slot < 5) :
    join.suppressedMask.toNat.testBit slot ↔ UInt8.ofNat slot ∈ join.suppressed.slots := by
  have placed : ∀ slot ∈ join.suppressed.slots.filter (· < outputSlots), slot.toNat < 8 := by
    intro slot member
    have below := of_decide_eq_true (List.mem_filter.mp member).2
    exact Nat.lt_trans (UInt8.lt_iff_toNat_lt.mp below) (by decide)
  rw [suppressedMask, testBit_foldl_mark UInt8.toNat placed]
  simp only [List.mem_filter, decide_eq_true_iff]
  constructor
  · rintro (zero | ⟨other, ⟨member, _⟩, rfl⟩)
    · simp at zero
    · rwa [UInt8.ofNat_toNat]
  · intro member
    have small : (UInt8.ofNat slot).toNat = slot :=
      UInt8.toNat_ofNat_of_lt (Nat.lt_trans inside (by decide))
    exact .inr ⟨_, ⟨member, by rw [UInt8.lt_iff_toNat_lt, small]; exact inside⟩, small⟩

/-- A slot is written if something feeds it and it is not suppressed. -/
theorem testBit_writeMask (join : Join) (hasExpr : Bool) (slot : Nat) :
    (join.writeMask hasExpr).toNat.testBit slot ↔
      feeds join.payload.left join.payload.right (hasExpr || join.aggregate) slot ∧
        UInt8.ofNat slot ∉ join.suppressed.slots := by
  by_cases inside : slot < 5
  · rw [writeMask, UInt8.toNat_and, Nat.testBit_and, Bool.and_eq_true, testBit_feedMask,
      Bytes.testBit_not _ (Nat.lt_trans inside (by decide)), Bool.not_eq_true',
      ← Bool.not_eq_true, testBit_suppressedMask join inside]
  · -- Behind the last output slot there is nothing to suppress.
    have unfed : ∀ left right result, feeds left right result slot = false := by
      obtain ⟨past, rfl⟩ := Nat.exists_eq_add_of_le' (Nat.not_lt.mp inside)
      exact fun _ _ _ => rfl
    rw [writeMask, UInt8.toNat_and, Nat.testBit_and, Bool.and_eq_true, testBit_feedMask, unfed]
    simp

theorem writeMask_range (join : Join) (hasExpr : Bool) :
    join.writeMask hasExpr >>> outputSlots = 0 := by
  have small : (join.writeMask hasExpr).toNat < 2 ^ 5 := by
    apply Nat.lt_pow_two_of_testBit
    intro slot past
    obtain ⟨more, rfl⟩ := Nat.exists_eq_add_of_le' past
    rw [← Bool.not_eq_true, testBit_writeMask]
    rintro ⟨fed, _⟩
    cases fed
  apply UInt8.toNat_inj.mp
  rw [UInt8.toNat_shiftRight]
  exact Nat.shiftRight_eq_zero _ _ small

end Join

theorem ShufflePoint.mem_all (point : ShufflePoint) : point ∈ all := by
  cases point <;> decide

namespace Stage

theorem compile_eq_ok {options : Options} {stage : Stage} {config : Config} :
    stage.compile options = .ok config ↔
      options.validate = .ok () ∧ stage.join.validate options.scanColumns = .ok () ∧
      stage.shuffleFault? = none ∧ ∃ left right alu secondAlu,
        stage.filters.left.encode .left = .ok left ∧
        stage.filters.right.encode .right = .ok right ∧
        compileExpr options stage.expr = .ok alu ∧
        compileExpr options stage.secondExpr = .ok secondAlu ∧
        config = ⟨stage.control, ⟨stage.columnMap .left, stage.columnMap .right⟩,
          stage.join.writeMask stage.expr.isSome, alu, secondAlu, ⟨left, right⟩,
          stage.shuffles⟩ := by
  unfold compile
  simp only [Except.bind_eq_ok, Except.mapError_eq_ok]
  constructor
  · rintro ⟨⟨⟩, valid, ⟨⟩, joinValid, rest⟩
    cases shuffled : stage.shuffleFault? with
    | some fault => simp [shuffled, Except.bind_eq_ok] at rest
    | none =>
        simp only [shuffled, Except.bind_eq_ok] at rest
        obtain ⟨left, leftMade, right, rightMade, alu, first, secondAlu, second, made⟩ := rest
        cases made
        exact ⟨valid, joinValid, rfl, left, right, alu, secondAlu, leftMade, rightMade, first,
          second, rfl⟩
  · rintro ⟨valid, joinValid, shuffled, left, right, alu, secondAlu, leftMade, rightMade, first,
      second, rfl⟩
    refine ⟨(), valid, (), joinValid, ?_⟩
    simp only [shuffled, Except.bind_eq_ok]
    exact ⟨left, leftMade, right, rightMade, alu, first, secondAlu, second, rfl⟩

theorem shuffleFault?_eq_none {stage : Stage} :
    stage.shuffleFault? = none ↔ ∀ point,
      ShuffleTable.fault? (some point) ((stage.shuffle point).slots.toList.map some) = none := by
  simp only [shuffleFault?, List.findSome?_eq_none_iff, ShufflePoint.mem_all, true_implies]

end Stage

/-!
Legal stages. What a stage has to satisfy is said here without the checks, their
order or the limits they compute; the compiler accepts the legal stages and no
others.
-/

namespace Comparison

/-- The bounds a comparison can be made with. Ordering has 32 bits with or without a
sign, and equality takes a number that is either. -/
def Takes (value : Int64) : Comparison → Prop
  | dontCare => True
  | gt | lt | ge | le => -2 ^ 31 ≤ value.toInt ∧ value.toInt < 2 ^ 31
  | gtu | ltu | geu | leu => 0 ≤ value.toInt ∧ value.toInt < 2 ^ 32
  | eq | ne =>
      (-2 ^ 31 ≤ value.toInt ∧ value.toInt < 2 ^ 31) ∨ (0 ≤ value.toInt ∧ value.toInt < 2 ^ 32)

theorem takes_iff_range {op : Comparison} {value : Int64} :
    op.Takes value ↔ ∀ least greatest, op.range? = some (least, greatest) →
      least ≤ value.toInt ∧ value.toInt ≤ greatest := by
  cases op with
  | dontCare => simp [Takes, range?]
  | gt | lt | ge | le | gtu | ltu | geu | leu | eq | ne =>
      -- The two ranges of an equality overlap, so they are one range.
      simp only [Takes, range?, Option.some.injEq, Prod.mk.injEq, and_imp, forall_eq',
        forall_apply_eq_imp_iff]
      omega

end Comparison

namespace BlockEntry

theorem bound_isOk {side : Side} {slot : Nat} {kind : BoundKind} {op : Comparison} {value : Int64} :
    (∃ word, bound side slot kind op value = .ok word) ↔ op.Takes value := by
  rw [Comparison.takes_iff_range]
  unfold bound
  cases op.range? with
  | none => simp
  | some range =>
      obtain ⟨least, greatest⟩ := range
      by_cases inside : least ≤ value.toInt ∧ value.toInt ≤ greatest
      · simp [inside]
      · simp [inside]

theorem encode_isOk {side : Side} {slot : Nat} {condition : Condition} :
    (∃ entry, encode side slot condition = .ok entry) ↔
      condition.lowOp.Takes condition.low ∧ condition.highOp.Takes condition.high := by
  unfold encode
  simp only [Except.bind_eq_ok]
  constructor
  · rintro ⟨entry, low, lowMade, high, highMade, _⟩
    exact ⟨bound_isOk.mp ⟨low, lowMade⟩, bound_isOk.mp ⟨high, highMade⟩⟩
  · rintro ⟨lowTaken, highTaken⟩
    obtain ⟨low, lowMade⟩ := bound_isOk.mpr lowTaken
    obtain ⟨high, highMade⟩ := bound_isOk.mpr highTaken
    exact ⟨_, low, lowMade, high, highMade, rfl⟩

end BlockEntry

namespace Filter

/-- Every bound can be compared with, the ones that are ignored whatever they are. -/
def Legal (filter : Filter) : Prop :=
  ∀ condition ∈ filter.conditions,
    condition.lowOp.Takes condition.low ∧ condition.highOp.Takes condition.high

/-- A block is made slot by slot. -/
theorem encode_eq_ok {side : Side} {filter : Filter} {block : FilterBlock} :
    filter.encode side = .ok block ↔
      (∀ slot : Fin 4, BlockEntry.encode side slot (filter.conditions.get slot) =
        .ok (block.entries.get slot)) ∧
      block.combine = filter.combine := by
  unfold encode
  simp only [Except.bind_eq_ok]
  constructor
  · rintro ⟨first, firstMade, second, secondMade, third, thirdMade, fourth, fourthMade, made⟩
    cases made
    have numbered : ∀ slot : Fin 4, slot = 0 ∨ slot = 1 ∨ slot = 2 ∨ slot = 3 := by decide
    refine ⟨fun slot => ?_, rfl⟩
    rcases numbered slot with rfl | rfl | rfl | rfl
    · exact firstMade
    · exact secondMade
    · exact thirdMade
    · exact fourthMade
  · rintro ⟨made, combine⟩
    refine ⟨_, made 0, _, made 1, _, made 2, _, made 3, ?_⟩
    rw [← combine]
    exact congrArg (fun entries => Except.ok (FilterBlock.mk entries block.combine))
      block.entries.four_listed

theorem encode_isOk {side : Side} {filter : Filter} :
    (∃ block, filter.encode side = .ok block) ↔ filter.Legal := by
  constructor
  · rintro ⟨block, made⟩ condition member
    obtain ⟨slot, inside, rfl⟩ := Vector.mem_iff_getElem.mp member
    exact BlockEntry.encode_isOk.mp ⟨_, (encode_eq_ok.mp made).1 ⟨slot, inside⟩⟩
  · intro legal
    have each : ∀ slot : Fin 4, ∃ entry,
        BlockEntry.encode side slot (filter.conditions.get slot) = .ok entry :=
      fun slot => BlockEntry.encode_isOk.mpr (legal _ (Vector.getElem_mem slot.isLt))
    choose entries made using each
    refine ⟨⟨.ofFn entries, filter.combine⟩, encode_eq_ok.mpr ⟨fun slot => ?_, rfl⟩⟩
    rw [made slot]
    exact congrArg Except.ok (Vector.getElem_ofFn slot.isLt).symm

end Filter

namespace Join

/-- A join over relations of which `scanColumns` columns are read. -/
structure Legal (scanColumns : Nat) (join : Join) : Prop where
  rightless : join.mode = .semi ∨ join.mode = .anti → join.payload.right = []
  paired : join.keys.left.length = join.keys.right.length
  keyed : ∀ side, (join.keys.get side).length = 1 ∨ (join.keys.get side).length = 2
  keysScanned : ∀ side, ∀ column ∈ join.keys.get side, column.toNat < scanColumns
  payloadScanned : ∀ side column, .used column ∈ join.payload.get side →
    column.toNat < scanColumns
  room : ∀ side, (join.keys.get side).length + (join.payload.get side).length ≤ 8
  suppressed : ∀ slot ∈ join.suppressed.slots, slot.toNat < 5

variable {join : Join}

theorem modeFault?_eq_none :
    join.modeFault? = none ↔ (join.mode = .semi ∨ join.mode = .anti → join.payload.right = []) := by
  unfold modeFault?
  cases join.mode <;> simp [JoinMode.dropsRight]

theorem keyFault?_eq_none :
    join.keyFault? = none ↔ join.keys.left.length = join.keys.right.length ∧
      (join.keys.left.length = 1 ∨ join.keys.left.length = 2) := by
  unfold keyFault?
  by_cases counted : join.keys.left.length = join.keys.right.length ∧
      (join.keys.left.length = 1 ∨ join.keys.left.length = 2)
  · exact iff_of_true (if_pos counted) counted
  · simp only [counted, if_false, reduceCtorEq]

theorem payloadFault?_eq_none {side : Side} :
    join.payloadFault? side = none ↔
      (join.payload.get side).length ≤ 8 - (join.keys.get side).length := by
  unfold payloadFault?
  by_cases full : mapSlots - (join.keys.get side).length < (join.payload.get side).length
  · simp only [full, if_true, reduceCtorEq, false_iff]
    exact Nat.not_le.mpr full
  · simp only [full, if_false, true_iff]
    exact Nat.not_lt.mp full

theorem suppressedFault?_eq_none :
    join.suppressedFault? = none ↔ ∀ slot ∈ join.suppressed.slots, slot < outputSlots := by
  simp [suppressedFault?]

theorem mem_columns {side : Side} {column : UInt8} :
    column ∈ join.columns side ↔
      column ∈ join.keys.get side ∨ .used column ∈ join.payload.get side := by
  rw [columns, List.mem_append, List.mem_filterMap]
  apply or_congr Iff.rfl
  constructor
  · rintro ⟨ref, member, named⟩
    cases ref with
    | used other =>
        cases named
        exact member
    | unused => cases named
    | duplicateKey => cases named
  · intro member
    exact ⟨.used column, member, rfl⟩

theorem validate_iff_legal {scanColumns : UInt8} :
    join.validate scanColumns = .ok () ↔ join.Legal scanColumns.toNat := by
  rw [validate_eq_ok]
  constructor
  · intro passed
    obtain ⟨paired, keyed⟩ := keyFault?_eq_none.mp (passed join.keyFault? (by simp [faults]))
    have bothKeyed : ∀ side, (join.keys.get side).length = 1 ∨ (join.keys.get side).length = 2 := by
      intro side
      cases side with
      | left => exact keyed
      | right => exact paired ▸ keyed
    have scanned : ∀ side, ∀ column ∈ join.columns side, column < scanColumns := by
      intro side
      apply columnFault?_eq_none.mp
      apply passed
      cases side <;> simp [faults]
    have carried : ∀ side, (join.payload.get side).length ≤ 8 - (join.keys.get side).length := by
      intro side
      apply payloadFault?_eq_none.mp
      apply passed
      cases side <;> simp [faults]
    exact {
      rightless := modeFault?_eq_none.mp (passed _ (by simp [faults]))
      paired := paired
      keyed := bothKeyed
      keysScanned := fun side column member =>
        UInt8.lt_iff_toNat_lt.mp (scanned side column (mem_columns.mpr (.inl member)))
      payloadScanned := fun side column member =>
        UInt8.lt_iff_toNat_lt.mp (scanned side column (mem_columns.mpr (.inr member)))
      -- The number of free slots is a difference that the key count keeps positive.
      room := fun side => by
        have keys := bothKeyed side
        have payload := carried side
        omega
      suppressed := fun slot member =>
        UInt8.lt_iff_toNat_lt.mp
          (suppressedFault?_eq_none.mp (passed _ (by simp [faults])) slot member) }
  · intro legal
    have columns : ∀ side, join.columnFault? scanColumns side = none := by
      intro side
      apply columnFault?_eq_none.mpr
      intro column member
      apply UInt8.lt_iff_toNat_lt.mpr
      cases mem_columns.mp member with
      | inl key => exact legal.keysScanned side column key
      | inr carried => exact legal.payloadScanned side column carried
    have payload : ∀ side, join.payloadFault? side = none := by
      intro side
      apply payloadFault?_eq_none.mpr
      have room := legal.room side
      omega
    have suppressed : join.suppressedFault? = none := by
      apply suppressedFault?_eq_none.mpr
      intro slot member
      exact UInt8.lt_iff_toNat_lt.mpr (legal.suppressed slot member)
    simp [faults, modeFault?_eq_none.mpr legal.rightless,
      keyFault?_eq_none.mpr ⟨legal.paired, legal.keyed .left⟩, columns, payload, suppressed]

end Join

theorem ShuffleTable.fault?_eq_none_of_sparse {point : Option ShufflePoint}
    {sources : List (Option UInt8)} :
    fault? point sources = none ↔ ∀ source, some source ∈ sources → source < limitAt point := by
  unfold fault?
  rw [List.findSome?_eq_none_iff]
  constructor
  · intro passed source member
    obtain ⟨slot, listed⟩ := List.mem_iff_getElem?.mp member
    have checked := passed (some source, slot) (List.mk_mem_zipIdx_iff_getElem?.mpr listed)
    simpa using checked
  · rintro small ⟨entry, slot⟩ member
    cases entry with
    | none => rfl
    | some source => simp [small source (List.fst_mem_of_mem_zipIdx member)]

theorem ShuffleTable.fault?_eq_none {point : Option ShufflePoint} {sources : List UInt8} :
    fault? point (sources.map some) = none ↔ ∀ source ∈ sources, source < limitAt point := by
  simp [fault?_eq_none_of_sparse]

theorem Options.validate_iff {options : Options} :
    options.validate = .ok () ↔ options.format.Valid ∧
      1 ≤ options.scanColumns.toNat ∧ options.scanColumns.toNat ≤ 8 := by
  have nonzero : options.scanColumns ≠ 0 ↔ 1 ≤ options.scanColumns.toNat := by
    rw [ne_eq, ← UInt8.toNat_inj]
    exact Nat.one_le_iff_ne_zero.symm
  rw [validate_eq_ok, ConstFormat.validate_eq_ok, nonzero, UInt8.le_iff_toNat_le]
  rfl

namespace Stage

/-- Everything a stage and its options are asked for. An expression is judged by
itself: neither the join nor the other expression bears on it. -/
structure Legal (options : Options) (stage : Stage) : Prop where
  format : options.format.Valid
  scanned : 1 ≤ options.scanColumns.toNat ∧ options.scanColumns.toNat ≤ 8
  join : stage.join.Legal options.scanColumns.toNat
  shuffles : ∀ point, ∀ source ∈ (stage.shuffle point).slots, source < point.width
  filters : ∀ side, (stage.filters.get side).Legal
  expr : ∀ spec, stage.expr = some spec →
    ∃ word, spec.compile options.format options.shapes = .ok word
  secondExpr : ∀ spec, stage.secondExpr = some spec →
    ∃ word, spec.compile options.format options.shapes = .ok word

theorem compileExpr_isOk {options : Options} {expr : Option ExprSpec} :
    (∃ word, compileExpr options expr = .ok word) ↔ ∀ spec, expr = some spec →
      ∃ word, spec.compile options.format options.shapes = .ok word := by
  cases expr with
  | none => simp [compileExpr]
  | some spec => simp [compileExpr]

end Stage

/-- A stage compiles exactly if it is legal. -/
theorem stage_compiles_iff_legal (options : Options) (stage : Stage) :
    (∃ config, stage.compile options = .ok config) ↔ stage.Legal options := by
  simp only [Stage.compile_eq_ok]
  constructor
  · rintro ⟨config, valid, joinValid, shuffled, left, right, alu, secondAlu, leftMade, rightMade,
      first, second, _⟩
    obtain ⟨format, scanned⟩ := Options.validate_iff.mp valid
    exact {
      format := format
      scanned := scanned
      join := Join.validate_iff_legal.mp joinValid
      shuffles := fun point source member =>
        ShuffleTable.fault?_eq_none.mp (Stage.shuffleFault?_eq_none.mp shuffled point) source
          (Vector.mem_toList_iff.mpr member)
      filters := fun side => by
        cases side with
        | left => exact Filter.encode_isOk.mp ⟨left, leftMade⟩
        | right => exact Filter.encode_isOk.mp ⟨right, rightMade⟩
      expr := Stage.compileExpr_isOk.mp ⟨alu, first⟩
      secondExpr := Stage.compileExpr_isOk.mp ⟨secondAlu, second⟩ }
  · intro legal
    have valid : options.validate = .ok () :=
      Options.validate_iff.mpr ⟨legal.format, legal.scanned⟩
    have shuffled : stage.shuffleFault? = none := by
      apply Stage.shuffleFault?_eq_none.mpr
      intro point
      apply ShuffleTable.fault?_eq_none.mpr
      intro source member
      exact legal.shuffles point source (Vector.mem_toList_iff.mp member)
    obtain ⟨left, leftMade⟩ := Filter.encode_isOk.mpr (legal.filters .left)
    obtain ⟨right, rightMade⟩ := Filter.encode_isOk.mpr (legal.filters .right)
    obtain ⟨alu, first⟩ := Stage.compileExpr_isOk.mpr legal.expr
    obtain ⟨secondAlu, second⟩ := Stage.compileExpr_isOk.mpr legal.secondExpr
    exact ⟨_, valid, Join.validate_iff_legal.mpr legal.join, shuffled, left, right, alu, secondAlu,
      leftMade, rightMade, first, second, rfl⟩

end JoinEngine
