import JoinEngine.Proofs.Alu.Realize
import JoinEngine.Proofs.Filter.Encode
import JoinEngine.Proofs.Stage.Columns

/-!
Coherent configurations. The parts of a compiled configuration agree with each other:
the key count with the column maps, the join mode with the payload, the mask with what
feeds the output slots, bounds with comparisons and the two arithmetic stages with one
table of shapes.
-/

namespace JoinEngine

namespace ColumnMap

def Keyed (map : ColumnMap) (count : Nat) : Prop :=
  ∀ slot < count, ∃ column, map.slots[slot]? = some (.used column)

variable {keys : List UInt8} {payload : List ColumnRef}

theorem keyed_ofParts (room : keys.length ≤ 8) : (ofParts keys payload).Keyed keys.length := by
  intro slot inside
  have placed : slot < 8 := Nat.lt_of_lt_of_le inside room
  have first : (keys.map ColumnRef.used ++ payload)[slot]? = some (.used keys[slot]) := by
    rw [List.getElem?_append_left (by simpa using inside), List.getElem?_map,
      List.getElem?_eq_getElem inside, Option.map_some]
  exact ⟨keys[slot], by simp [ofParts, placed, first]⟩

theorem not_holds_ofParts_nil (slot : Nat) : ¬ (ofParts keys []).Holds (keys.length + slot) := by
  intro holds
  by_cases inside : keys.length + slot < 8
  · simpa using (holds_ofParts inside).mp holds
  · obtain ⟨ref, found, _⟩ := holds
    simp [inside] at found

theorem used_mem_ofParts {column : UInt8}
    (member : .used column ∈ (ofParts keys payload).slots) :
    column ∈ keys ∨ .used column ∈ payload := by
  obtain ⟨slot, inside, found⟩ := Vector.mem_iff_getElem.mp member
  simp only [ofParts, Vector.getElem_ofFn] at found
  have entered : .used column ∈ keys.map ColumnRef.used ++ payload := by
    cases entry : (keys.map ColumnRef.used ++ payload)[slot]? with
    | none => simp [entry] at found
    | some ref =>
        rw [entry, Option.getD_some] at found
        exact found ▸ List.mem_of_getElem? entry
  simpa using entered

end ColumnMap

namespace Config

/-- What feeds an output slot is there: payload of the right relation for the first
three, of the left for the next, a computed result for the last. -/
def Fed (config : Config) : Nat → Prop
  | 3 => config.columnMaps.left.Holds config.control.keyCount
  | 4 => config.alu.enabled ∨ config.control.aggregate
  | slot => slot < 3 ∧ config.columnMaps.right.Holds (config.control.keyCount + slot)

structure Coherent (config : Config) : Prop where
  keyed : ∀ side, (config.columnMaps.get side).Keyed config.control.keyCount
  scanned : ∀ side column, .used column ∈ (config.columnMaps.get side).slots → column.toNat < 8
  rightless : config.control.mode = .semi ∨ config.control.mode = .anti →
    ∀ slot, ¬ config.columnMaps.right.Holds (config.control.keyCount + slot)
  fed : ∀ slot, config.writeMask.toNat.testBit slot → config.Fed slot
  clean : ∀ side, (config.filters.get side).Clean
  alu : config.alu.enabled → config.alu.Coherent
  secondAlu : config.secondAlu.enabled → config.secondAlu.Coherent
  /-- An opcode belongs to one shape, which has the same placeholders in both stages. -/
  shared : config.alu.enabled → config.secondAlu.enabled →
    config.alu.opcode = config.secondAlu.opcode → config.alu.FedAlike config.secondAlu

end Config

namespace Stage

variable {stage : Stage} {config : Config} {scanColumns : Nat}

/-- The lists that a stage gives as payload and the slots of its column maps tell the
same about the output. -/
theorem feeds_iff_fed (legal : stage.join.Legal scanColumns)
    (control : stage.control = config.control)
    (columnMaps : ∀ side, stage.columnMap side = config.columnMaps.get side)
    (enabled : config.alu.enabled = stage.expr.isSome) (slot : Nat) :
    Join.feeds stage.join.payload.left stage.join.payload.right
      (stage.expr.isSome || stage.join.aggregate) slot ↔ config.Fed slot := by
  have count : stage.join.keys.left.length = config.control.keyCount :=
    control ▸ key_length legal .left
  have carried : ∀ side entry, entry < 6 →
      ((config.columnMaps.get side).Holds (config.control.keyCount + entry) ↔
        (stage.join.payload.get side)[entry]?.any ColumnRef.isMaterialized) := by
    intro side entry below
    rw [← columnMaps side, ← count]
    exact payload_slot_holds legal side below
  -- The output slots are numbered across both relations, so each is looked up by itself.
  match slot with
  | 0 => exact (carried .right 0 (by decide)).symm.trans (and_iff_right (by decide)).symm
  | 1 => exact (carried .right 1 (by decide)).symm.trans (and_iff_right (by decide)).symm
  | 2 => exact (carried .right 2 (by decide)).symm.trans (and_iff_right (by decide)).symm
  | 3 => exact (carried .left 0 (by decide)).symm
  | 4 => simp [Join.feeds, Config.Fed, enabled, ← control, Stage.control]
  | slot + 5 => simp [Join.feeds, Config.Fed]

variable {options : Options} {shapes : List Shape}

theorem compileExpr_coherent (built : ShapeTable.build shapes = .ok options.shapes)
    {expr : Option ExprSpec} {word : AluWord} (compiled : compileExpr options expr = .ok word)
    (enabled : word.enabled) : word.Coherent := by
  cases expr with
  | none =>
      cases compiled
      cases enabled
  | some spec =>
      obtain ⟨_, _, _, _, _, _, _, runs⟩ := ExprSpec.compile_runs built compiled
      exact runs.coherent

theorem compileExpr_fedAlike (built : ShapeTable.build shapes = .ok options.shapes)
    {expr secondExpr : Option ExprSpec} {word second : AluWord}
    (compiled : compileExpr options expr = .ok word)
    (otherCompiled : compileExpr options secondExpr = .ok second)
    (enabled : word.enabled) (otherEnabled : second.enabled)
    (same : word.opcode = second.opcode) : word.FedAlike second := by
  cases expr with
  | none =>
      cases compiled
      cases enabled
  | some spec =>
      cases secondExpr with
      | none =>
          cases otherCompiled
          cases otherEnabled
      | some other => exact ExprSpec.compile_fedAlike built compiled otherCompiled same

/-- What is compiled is coherent. -/
theorem compile_coherent (built : ShapeTable.build shapes = .ok options.shapes)
    (compiled : stage.compile options = .ok config) : config.Coherent := by
  obtain ⟨valid, joinValid, _, left, right, alu, secondAlu, leftMade, rightMade, first, second,
    rfl⟩ := compile_eq_ok.mp compiled
  have legal := Join.validate_iff_legal.mp joinValid
  have width := (Options.validate_iff.mp valid).2.2
  have maps : ∀ side, (⟨stage.columnMap .left, stage.columnMap .right⟩ : Sides _).get side =
      stage.columnMap side := by
    intro side
    cases side <;> rfl
  constructor
  case keyed =>
    intro side
    rw [maps side]
    have room := legal.room side
    have keyed : (stage.columnMap side).Keyed (stage.join.keys.get side).length :=
      ColumnMap.keyed_ofParts (by omega)
    rwa [key_length legal side] at keyed
  case scanned =>
    intro side column member
    rw [maps side] at member
    rcases ColumnMap.used_mem_ofParts member with key | carried
    · exact Nat.lt_of_lt_of_le (legal.keysScanned side column key) width
    · exact Nat.lt_of_lt_of_le (legal.payloadScanned side column carried) width
  case rightless =>
    intro drops slot
    have none : stage.join.payload.right = [] := legal.rightless drops
    have count : stage.join.keys.right.length = stage.control.keyCount := key_length legal .right
    change ¬ (ColumnMap.ofParts stage.join.keys.right stage.join.payload.right).Holds
      (stage.control.keyCount + slot)
    rw [none, ← count]
    exact ColumnMap.not_holds_ofParts_nil slot
  case fed =>
    intro slot written
    apply (feeds_iff_fed legal rfl (fun side => (maps side).symm) (compileExpr_enabled first)
      slot).mp
    exact ((Join.testBit_writeMask _ _ slot).mp written).1
  case clean =>
    intro side
    cases side with
    | left => exact Filter.encode_clean leftMade
    | right => exact Filter.encode_clean rightMade
  case alu => exact compileExpr_coherent built first
  case secondAlu => exact compileExpr_coherent built second
  case shared => exact compileExpr_fedAlike built first second

end Stage

/-!
Stages rebuilt from configurations. A record is read part by part, so a configuration
can be read whose parts do not agree and which no stage has; the coherent ones are
compiled from a stage each.
-/

namespace ColumnMap

def keys (map : ColumnMap) (count : Nat) : List UInt8 :=
  (map.slots.toList.take count).filterMap ColumnRef.column?

variable {map : ColumnMap} {count : Nat}

theorem Keyed.map_keys (keyed : map.Keyed count) :
    (map.keys count).map ColumnRef.used = map.slots.toList.take count := by
  have used : ∀ ref ∈ map.slots.toList.take count, ref.column?.map ColumnRef.used = some ref := by
    intro ref member
    obtain ⟨slot, inside, rfl⟩ := List.mem_iff_getElem.mp member
    have bounds : slot < count ∧ slot < 8 := by simpa using inside
    obtain ⟨column, found⟩ := keyed slot bounds.1
    rw [Vector.getElem?_eq_getElem bounds.2, Option.some.injEq] at found
    rw [List.getElem_take, Vector.getElem_toList, found]
    rfl
  rw [keys, List.map_filterMap, List.filterMap_congr used, List.filterMap_some]

theorem Keyed.length_keys (keyed : map.Keyed count) (room : count ≤ 8) :
    (map.keys count).length = count := by
  have same := congrArg List.length keyed.map_keys
  simpa [room] using same

/-- Slots behind the key are the payload. -/
theorem Keyed.ofParts_eq (keyed : map.Keyed count) (room : count ≤ 8) {payload : List ColumnRef}
    (carried : ∀ slot, map.slots[count + slot]?.getD .unused = payload[slot]?.getD .unused) :
    ofParts (map.keys count) payload = map := by
  have slots : (ofParts (map.keys count) payload).slots = map.slots := by
    apply Vector.ext
    intro slot inside
    simp only [ofParts, Vector.getElem_ofFn, keyed.map_keys]
    by_cases first : slot < count
    · rw [List.getElem?_append_left (by simp; omega), List.getElem?_take_of_lt first,
        Vector.getElem?_toList, Vector.getElem?_eq_getElem inside, Option.getD_some]
    · have behind := carried (slot - count)
      rw [Nat.add_sub_cancel' (by omega), Vector.getElem?_eq_getElem inside,
        Option.getD_some] at behind
      rw [List.getElem?_append_right (by simp; omega), behind]
      simp [room]
  exact congrArg ColumnMap.mk slots

theorem Keyed.ofParts_drop (keyed : map.Keyed count) (room : count ≤ 8) :
    ofParts (map.keys count) (map.slots.toList.drop count) = map := by
  apply keyed.ofParts_eq room
  intro slot
  simp

theorem Keyed.ofParts_nil (keyed : map.Keyed count) (room : count ≤ 8)
    (free : ∀ slot, ¬ map.Holds (count + slot)) : ofParts (map.keys count) [] = map := by
  apply keyed.ofParts_eq room
  intro slot
  cases found : map.slots[count + slot]? with
  | none => rfl
  | some ref =>
      by_contra held
      exact free slot ⟨ref, found, held⟩

end ColumnMap

theorem Control.keyCount_cases (control : Control) :
    control.keyCount = 1 ∨ control.keyCount = 2 := by
  unfold keyCount
  split <;> simp

theorem JoinMode.dropsRight_iff {mode : JoinMode} :
    mode.dropsRight ↔ mode = .semi ∨ mode = .anti := by
  cases mode <;> simp [dropsRight]

namespace Config

/-- The payload of a relation, none of the right one if its rows are dropped. -/
def payload (config : Config) (side : Side) : List ColumnRef :=
  if side = .right ∧ config.control.mode.dropsRight then []
  else (config.columnMaps.get side).slots.toList.drop config.control.keyCount

def suppressed (config : Config) : SlotSet :=
  ⟨([0, 1, 2, 3, 4] : List UInt8).filter fun slot => !config.writeMask.toNat.testBit slot.toNat,
    .filter _ (by decide)⟩

def join (config : Config) : Join where
  keys := ⟨config.columnMaps.left.keys config.control.keyCount,
    config.columnMaps.right.keys config.control.keyCount⟩
  payload := ⟨config.payload .left, config.payload .right⟩
  mode := config.control.mode
  aggregate := config.control.aggregate
  hashSize := config.control.hashSize
  enabled := config.control.joinEnabled
  suppressed := config.suppressed

/-- The stage of a configuration but for its expressions, which a configuration does
not keep. -/
def stage (config : Config) (expr secondExpr : Option ExprSpec) : Stage where
  join := config.join
  filters := ⟨config.filters.left.filter, config.filters.right.filter⟩
  expr := expr
  secondExpr := secondExpr
  shuffles := config.shuffles

variable {config : Config}

theorem keys_get (side : Side) : config.join.keys.get side =
    (config.columnMaps.get side).keys config.control.keyCount := by
  cases side <;> rfl

theorem payload_get (side : Side) : config.join.payload.get side = config.payload side := by
  cases side <;> rfl

theorem ofNat_mem_suppressed {slot : Nat} (inside : slot < 5) :
    UInt8.ofNat slot ∈ config.join.suppressed.slots ↔ ¬ config.writeMask.toNat.testBit slot := by
  have listed : UInt8.ofNat slot ∈ ([0, 1, 2, 3, 4] : List UInt8) := by
    decide +revert
  have same : (UInt8.ofNat slot).toNat = slot := Nat.mod_eq_of_lt (by omega)
  simp [join, suppressed, List.mem_filter, listed, same]

namespace Coherent

theorem length_keys (coherent : config.Coherent) (side : Side) :
    (config.join.keys.get side).length = config.control.keyCount := by
  have few := config.control.keyCount_cases
  rw [keys_get]
  exact (coherent.keyed side).length_keys (by omega)

theorem columnMap_eq (coherent : config.Coherent) (expr secondExpr : Option ExprSpec)
    (side : Side) :
    (config.stage expr secondExpr).columnMap side = config.columnMaps.get side := by
  have few := config.control.keyCount_cases
  change ColumnMap.ofParts (config.join.keys.get side) (config.join.payload.get side) = _
  rw [keys_get, payload_get, payload]
  by_cases dropped : side = .right ∧ config.control.mode.dropsRight
  · rw [if_pos dropped]
    obtain ⟨rfl, drops⟩ := dropped
    exact (coherent.keyed .right).ofParts_nil (by omega)
      (coherent.rightless (JoinMode.dropsRight_iff.mp drops))
  · rw [if_neg dropped]
    exact (coherent.keyed side).ofParts_drop (by omega)

theorem control_eq (coherent : config.Coherent) (expr secondExpr : Option ExprSpec) :
    (config.stage expr secondExpr).control = config.control := by
  have dual : config.join.isDualKey = config.control.dualKey := by
    have count : config.join.keys.left.length = config.control.keyCount :=
      coherent.length_keys .left
    rw [Join.isDualKey, count, Control.keyCount]
    cases config.control.dualKey <;> rfl
  change Control.mk _ _ config.join.isDualKey _ _ = _
  rw [dual]
  rfl

theorem join_legal (coherent : config.Coherent) : config.join.Legal 8 := by
  have few := config.control.keyCount_cases
  have room : ∀ side,
      (config.join.keys.get side).length + (config.join.payload.get side).length ≤ 8 := by
    intro side
    rw [coherent.length_keys side, payload_get, payload]
    split
    · simp
      omega
    · simp
      omega
  -- The key and the payload are the slots of the column map, whose columns are scanned.
  have slots : ∀ side, (config.columnMaps.get side).slots.toList =
      (config.join.keys.get side).map ColumnRef.used ++ config.join.payload.get side ++
        List.replicate (8 - ((config.join.keys.get side).length +
          (config.join.payload.get side).length)) .unused := by
    intro side
    rw [← coherent.columnMap_eq none none side]
    exact ColumnMap.ofParts_slots (room side)
  constructor
  case rightless =>
    intro drops
    exact if_pos ⟨rfl, JoinMode.dropsRight_iff.mpr drops⟩
  case paired => exact (coherent.length_keys .left).trans (coherent.length_keys .right).symm
  case keyed =>
    intro side
    rwa [coherent.length_keys side]
  case keysScanned =>
    intro side column member
    apply coherent.scanned side column
    rw [← Vector.mem_toList_iff, slots side]
    simp [member]
  case payloadScanned =>
    intro side column member
    apply coherent.scanned side column
    rw [← Vector.mem_toList_iff, slots side]
    simp [member]
  case room => exact room
  case suppressed =>
    intro slot member
    have listed := (List.mem_filter.mp member).1
    simp only [List.mem_cons, List.not_mem_nil, or_false] at listed
    rcases listed with rfl | rfl | rfl | rfl | rfl <;> decide

theorem writeMask_eq (coherent : config.Coherent) (representable : config.Representable)
    {expr : Option ExprSpec} (enabled : config.alu.enabled = expr.isSome) :
    config.join.writeMask expr.isSome = config.writeMask := by
  apply UInt8.toNat_inj.mp
  apply Nat.eq_of_testBit_eq
  intro slot
  by_cases inside : slot < 5
  · -- Whatever is written is fed, and the rest of what is fed is suppressed.
    have feeds := Stage.feeds_iff_fed coherent.join_legal (coherent.control_eq expr none)
      (coherent.columnMap_eq expr none) enabled slot
    rw [Bool.eq_iff_iff, Join.testBit_writeMask, ofNat_mem_suppressed inside,
      Classical.not_not]
    constructor
    · intro fed
      exact fed.2
    · intro written
      exact ⟨feeds.mpr (coherent.fed slot written), written⟩
  · have clear : config.writeMask.toNat.testBit slot = false := by
      have shifted : config.writeMask.toNat >>> 5 = 0 :=
        congrArg UInt8.toNat representable.mask
      rw [Nat.shiftRight_eq_div_pow] at shifted
      apply Nat.testBit_lt_two_pow
      calc config.writeMask.toNat < 2 ^ 5 := by omega
        _ ≤ 2 ^ slot := Nat.pow_le_pow_right (by decide) (Nat.not_lt.mp inside)
    obtain ⟨more, rfl⟩ := Nat.exists_eq_add_of_le' (Nat.not_lt.mp inside)
    rw [clear, ← Bool.not_eq_true, Join.testBit_writeMask]
    simp [Join.feeds]

/-- A table and expressions for the words that are enabled. -/
theorem exists_specs (coherent : config.Coherent) (representable : config.Representable) :
    ∃ shapes table, ShapeTable.build shapes = .ok table ∧
      (config.alu.enabled → ∃ spec : ExprSpec, spec.compile .full table = .ok config.alu) ∧
      (config.secondAlu.enabled →
        ∃ spec : ExprSpec, spec.compile .full table = .ok config.secondAlu) := by
  have running : config.alu.enabled → config.alu.Running := fun enabled =>
    ⟨representable.alu, coherent.alu enabled, enabled⟩
  have also : config.secondAlu.enabled → config.secondAlu.Running := fun enabled =>
    ⟨representable.secondAlu, coherent.secondAlu enabled, enabled⟩
  -- A table has one entry for an opcode, so the opcodes say how many it needs.
  by_cases first : config.alu.enabled
  · by_cases second : config.secondAlu.enabled
    · by_cases opcodes : config.alu.opcode = config.secondAlu.opcode
      · obtain ⟨shapes, table, built, made, otherMade⟩ :=
          (running first).exists_single (also second) opcodes
            (coherent.shared first second opcodes)
        exact ⟨shapes, table, built, fun _ => made, fun _ => otherMade⟩
      · obtain ⟨shapes, table, built, made, otherMade⟩ :=
          (running first).exists_pair (also second) opcodes
        exact ⟨shapes, table, built, fun _ => made, fun _ => otherMade⟩
    · obtain ⟨shapes, table, built, made, _⟩ :=
        (running first).exists_single (running first) rfl ⟨fun _ => Iff.rfl, Iff.rfl⟩
      exact ⟨shapes, table, built, fun _ => made, fun enabled => absurd enabled second⟩
  · by_cases second : config.secondAlu.enabled
    · obtain ⟨shapes, table, built, made, _⟩ :=
        (also second).exists_single (also second) rfl ⟨fun _ => Iff.rfl, Iff.rfl⟩
      exact ⟨shapes, table, built, fun enabled => absurd enabled first, fun _ => made⟩
    · exact ⟨ShapeTable.standardShapes, .standard, rfl, fun enabled => absurd enabled first,
        fun enabled => absurd enabled second⟩

end Coherent

/-- A word that is off is compiled from no expression. -/
theorem exists_expr {word : AluWord} (valid : word.Valid) {table : ShapeTable}
    (made : word.enabled → ∃ spec : ExprSpec, spec.compile .full table = .ok word) :
    ∃ expr, Stage.compileExpr ⟨.full, table, 8⟩ expr = .ok word := by
  by_cases enabled : word.enabled
  · obtain ⟨spec, compiled⟩ := made enabled
    exact ⟨some spec, compiled⟩
  · have off : word = .passThrough := by
      simpa [AluWord.isPassThrough] using valid.off (by simpa using enabled)
    exact ⟨none, congrArg Except.ok off.symm⟩

def IsCompiled (config : Config) : Prop :=
  ∃ (options : Options) (shapes : List Shape) (stage : Stage),
    ShapeTable.build shapes = .ok options.shapes ∧ stage.compile options = .ok config

theorem Coherent.isCompiled (coherent : config.Coherent)
    (representable : config.Representable) : config.IsCompiled := by
  obtain ⟨shapes, table, built, first, second⟩ := coherent.exists_specs representable
  obtain ⟨expr, made⟩ := exists_expr representable.alu first
  obtain ⟨secondExpr, otherMade⟩ := exists_expr representable.secondAlu second
  have shuffled : (config.stage expr secondExpr).shuffleFault? = none :=
    Stage.shuffleFault?_eq_none.mpr representable.shuffles
  let options : Options := ⟨.full, table, 8⟩
  have valid : options.validate = .ok () :=
    Options.validate_iff.mpr ⟨ConstFormat.full_valid, Nat.one_le_ofNat, Nat.le_refl 8⟩
  have joinValid : config.join.validate options.scanColumns = .ok () :=
    Join.validate_iff_legal.mpr coherent.join_legal
  have mask : config.join.writeMask expr.isSome = config.writeMask :=
    coherent.writeMask_eq representable (Stage.compileExpr_enabled made)
  refine ⟨options, shapes, config.stage expr secondExpr, built, Stage.compile_eq_ok.mpr ⟨valid,
    joinValid, shuffled, _, _, _, _, (coherent.clean .left).encode_filter .left,
    (coherent.clean .right).encode_filter .right, made, otherMade, ?_⟩⟩
  rw [coherent.control_eq, coherent.columnMap_eq, coherent.columnMap_eq]
  change config = ⟨_, _, config.join.writeMask expr.isSome, _, _, _, _⟩
  rw [mask]
  rfl

end Config

/-- A record that is accepted is the record of a stage exactly if its parts agree. -/
theorem accepted_compiles_iff_coherent (bytes : Bytes) (config : Config)
    (accepted : Config.ofBytes bytes = .ok config) :
    config.IsCompiled ↔ config.Coherent := by
  constructor
  · rintro ⟨options, shapes, stage, built, compiled⟩
    exact Stage.compile_coherent built compiled
  · intro coherent
    -- Reading has checked the parts one by one, which is all that coherence leaves open.
    have representable := (Config.ofBytes_eq_ok.mp accepted).1
    exact coherent.isCompiled representable

/-- Two words with one opcode that no standard shape has. They feed the same
placeholders from different streams. -/
theorem routed_record_compiles :
    let config : Config :=
      { control := ⟨true, false, false, .anti, 7⟩
        columnMaps := ⟨.ofParts [5] [.used 2, .duplicateKey], .ofParts [0] []⟩
        writeMask := 0b11000
        alu := ⟨#v[0, 3, 0, 0xffffffffffffffff], 0b0101, 200, #v[3, 0, 1], 2, true⟩
        secondAlu := ⟨#v[9, 0, 0, 0], 0b1010, 200, #v[2, 0, 4], 1, true⟩
        filters := .both .pass
        shuffles := Stage.neutralShuffles }
    Config.ofBytes config.toBytes = .ok config ∧ config.Coherent ∧ config.IsCompiled := by
  intro config
  have representable : config.Representable := by
    constructor
    case columns =>
      intro side
      cases side with
      | left => exact ColumnMap.ofParts_inRange (by simp [ColumnRef.column?])
      | right => exact ColumnMap.ofParts_inRange (by simp)
    case mask => decide
    case shuffles =>
      intro point
      cases point <;> decide
    case alu => exact ⟨by decide, by decide, by decide, by decide⟩
    case secondAlu => exact ⟨by decide, by decide, by decide, by decide⟩
  have coherent : config.Coherent := by
    constructor
    case keyed =>
      intro side
      cases side with
      | left => exact ColumnMap.keyed_ofParts (by decide)
      | right => exact ColumnMap.keyed_ofParts (by decide)
    case scanned =>
      intro side column member
      cases side with
      | left =>
          have named : column = 5 ∨ column = 2 := by
            simpa using ColumnMap.used_mem_ofParts member
          rcases named with rfl | rfl <;> decide
      | right =>
          obtain rfl : column = 0 := by simpa using ColumnMap.used_mem_ofParts member
          decide
    case rightless => exact fun _ => ColumnMap.not_holds_ofParts_nil
    case fed =>
      intro slot written
      have low : 2 ^ slot < 2 ^ 5 :=
        Nat.lt_of_le_of_lt (Nat.ge_two_pow_of_testBit written) (by decide)
      have below : slot < 5 := (Nat.pow_lt_pow_iff_right (by decide)).mp low
      match slot, below with
      | 0, _ | 1, _ | 2, _ => exact absurd written (by decide)
      | 3, _ => exact ⟨.used 2, rfl, by decide⟩
      | 4, _ => exact .inl rfl
    case clean =>
      have passes : FilterBlock.pass.Clean :=
        Filter.encode_clean (rfl : Filter.pass.encode .left = .ok .pass)
      intro side
      cases side <;> exact passes
    case alu => exact fun _ => ⟨by decide, by decide, by decide⟩
    case secondAlu => exact fun _ => ⟨by decide, by decide, by decide⟩
    case shared => exact fun _ _ _ => ⟨by decide, by decide⟩
  have accepted : Config.ofBytes config.toBytes = .ok config :=
    Config.ofBytes_eq_ok.mpr ⟨representable, rfl⟩
  exact ⟨accepted, coherent,
    (accepted_compiles_iff_coherent config.toBytes config accepted).mpr coherent⟩

/-- The record of a semi join that carries payload of the right relation is accepted,
although no stage has it. -/
theorem semi_record_not_compiled :
    let filter : Bytes := List.replicate 179 0 ++ [0x80] ++ List.replicate 12 0
    let record : Bytes := [0b001001, 32, 0, 0, 0, 0, 0] ++
      [0, 255, 255, 255, 255, 255, 255, 255] ++ [0, 1, 255, 255, 255, 255, 255, 255] ++ [1] ++
      [0, 1, 2, 3, 4, 5, 6, 7] ++ [0, 1, 2, 3, 4, 5, 6, 7] ++ [0, 1, 2, 6, 7, 8, 9, 10] ++
      [0, 1, 2, 3, 4, 5, 6, 7] ++ [0, 1, 2, 3, 4, 5, 6, 7] ++ List.replicate 128 0 ++
      filter ++ filter
    let config : Config :=
      ⟨⟨true, false, false, .semi, 32⟩, ⟨.ofParts [0] [], .ofParts [0] [.used 1]⟩, 1,
        .passThrough, .passThrough, ⟨.pass, .pass⟩, Stage.neutralShuffles⟩
    Config.ofBytes record = .ok config ∧ ¬ config.IsCompiled := by
  intro filter record config
  have accepted : Config.ofBytes record = .ok config := by decide +kernel
  refine ⟨accepted, ?_⟩
  rintro ⟨options, shapes, stage, built, compiled⟩
  have coherent := Stage.compile_coherent built compiled
  exact coherent.rightless (.inl rfl) 0 ⟨.used 1, rfl, by decide⟩

end JoinEngine
