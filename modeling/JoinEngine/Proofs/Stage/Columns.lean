import JoinEngine.Proofs.Record.RoundTrip

/-!
Columns on their way through the record. What a join reads of a relation comes back
slot by slot: its key, its payload and then nothing.
-/

namespace JoinEngine

/-- Nothing is dropped where the parts have room. -/
theorem ColumnMap.ofParts_slots {keys : List UInt8} {payload : List ColumnRef}
    (room : keys.length + payload.length ≤ 8) :
    (ofParts keys payload).slots.toList =
      keys.map ColumnRef.used ++ payload ++
        List.replicate (8 - (keys.length + payload.length)) .unused := by
  have entries : (keys.map ColumnRef.used ++ payload).length = keys.length + payload.length := by
    simp
  apply List.ext_getElem
  · simp
    omega
  · intro slot inLeft inRight
    simp only [ofParts, Vector.getElem_toList, Vector.getElem_ofFn]
    by_cases named : slot < (keys.map ColumnRef.used ++ payload).length
    · rw [List.getElem_append_left named, List.getElem?_eq_getElem named, Option.getD_some]
    · rw [List.getElem_append_right (Nat.not_lt.mp named), List.getElem_replicate,
        List.getElem?_eq_none (Nat.not_lt.mp named), Option.getD_none]

theorem ShuffleTable.shuffled?_identity {α : Type} {row : List α} (full : row.length = 8) :
    identity.shuffled? row = some row := by
  match row, full with
  | [_, _, _, _, _, _, _, _], _ => rfl

def Control.keyCount (control : Control) : Nat := if control.dualKey then 2 else 1

/-- One bit stands for the keys of both relations, although it is set by the left key
alone. -/
theorem Stage.key_length {stage : Stage} {scanColumns : Nat}
    (legal : stage.join.Legal scanColumns) (side : Side) :
    (stage.join.keys.get side).length = stage.control.keyCount := by
  have left : stage.join.keys.left.length = stage.control.keyCount := by
    by_cases dual : stage.join.keys.left.length = 2
    · simp [Control.keyCount, control, Join.isDualKey, dual]
    · have single : stage.join.keys.left.length = 1 := (legal.keyed .left).resolve_right dual
      simp [Control.keyCount, control, Join.isDualKey, single]
  cases side with
  | left => exact left
  | right => exact legal.paired ▸ left

/-- The columns of both relations, as they are read back from the record. Shuffles
that change nothing leave them where they are. -/
theorem columns_read_back (options : Options) (shapes : List Shape)
    (built : ShapeTable.build shapes = .ok options.shapes) (stage : Stage) (config : Config)
    (compiled : stage.compile options = .ok config) :
    ∃ decoded, Config.ofBytes config.toBytes = .ok decoded ∧
      (∀ side, (stage.join.keys.get side).length = decoded.control.keyCount ∧
        (decoded.columnMaps.get side).slots.toList =
          (stage.join.keys.get side).map ColumnRef.used ++ stage.join.payload.get side ++
            List.replicate
              (8 - (decoded.control.keyCount + (stage.join.payload.get side).length)) .unused) ∧
      ((∀ point, stage.shuffle point = .identity) → ∀ point side,
        (decoded.shuffle point).shuffled? (decoded.columnMaps.get side).slots.toList =
          some (decoded.columnMaps.get side).slots.toList) := by
  have representable := Stage.compile_representable built compiled
  obtain ⟨_, joinValid, _, left, right, alu, secondAlu, _, _, _, _, rfl⟩ :=
    Stage.compile_eq_ok.mp compiled
  have legal := Join.validate_iff_legal.mp joinValid
  refine ⟨_, Config.ofBytes_eq_ok.mpr ⟨representable, rfl⟩, ?_, ?_⟩
  · intro side
    have slots := ColumnMap.ofParts_slots (legal.room side)
    rw [Stage.key_length legal side] at slots
    apply And.intro (Stage.key_length legal side)
    cases side with
    | left => exact slots
    | right => exact slots
  · intro identity point side
    change (stage.shuffle point).shuffled? _ = _
    rw [identity point]
    apply ShuffleTable.shuffled?_identity
    simp

/-- A full right relation beside a left one with room, and a payload that names the
key, a column of the key and nothing. -/
theorem full_relation_reads_back :
    let stage : Stage :=
      { Stage.ofJoin
          { Join.onKeys [4, 0] [1, 6] with
            payload := ⟨[.duplicateKey, .used 4, .unused, .used 7],
              [.used 0, .used 1, .unused, .used 3, .used 3, .duplicateKey]⟩ } with
        shuffles := Vector.replicate 5 .identity }
    let left : List ColumnRef :=
      [.used 4, .used 0, .duplicateKey, .used 4, .unused, .used 7, .unused, .unused]
    let right : List ColumnRef :=
      [.used 1, .used 6, .used 0, .used 1, .unused, .used 3, .used 3, .duplicateKey]
    ∃ config decoded, stage.compile .default = .ok config ∧
      Config.ofBytes config.toBytes = .ok decoded ∧ decoded.control.keyCount = 2 ∧
      (decoded.columnMaps.get .left).slots.toList = left ∧
      (decoded.columnMaps.get .right).slots.toList = right ∧
      ∀ point, (decoded.shuffle point).shuffled? right = some right := by
  intro stage left right
  let config : Config :=
    { control := ⟨true, false, true, .inner, 32⟩
      columnMaps := ⟨stage.columnMap .left, stage.columnMap .right⟩
      writeMask := 0b01011
      alu := .passThrough
      secondAlu := .passThrough
      filters := .both .pass
      shuffles := Vector.replicate 5 .identity }
  have compiled : stage.compile .default = .ok config := by decide +kernel
  have plain : ∀ point, stage.shuffle point = .identity := by
    intro point
    cases point <;> rfl
  obtain ⟨decoded, accepted, columns, shuffled⟩ :=
    columns_read_back .default ShapeTable.standardShapes rfl stage config compiled
  have dual : decoded.control.keyCount = 2 := (columns .left).1.symm
  have leftSlots : (decoded.columnMaps.get .left).slots.toList = left := by
    rw [(columns .left).2, dual]
    rfl
  have rightSlots : (decoded.columnMaps.get .right).slots.toList = right := by
    rw [(columns .right).2, dual]
    rfl
  refine ⟨config, decoded, compiled, accepted, dual, leftSlots, rightSlots, ?_⟩
  intro point
  have kept := shuffled plain point .right
  rwa [rightSlots] at kept

/-!
The output slots that a compiled stage writes. The mask, the column maps and the word
of the first arithmetic stage are made apart from each other; a slot is written
exactly if the others hold what feeds it and the join does not suppress it.
-/

namespace Join

/-- The payload bears on the mask only by which of its first entries hold something. -/
theorem writeMask_congr {join other : Join} {hasExpr otherExpr : Bool}
    (suppressed : other.suppressed = join.suppressed)
    (result : (otherExpr || other.aggregate) = (hasExpr || join.aggregate))
    (right : ∀ slot < 3, other.payload.right[slot]?.any ColumnRef.isMaterialized =
      join.payload.right[slot]?.any ColumnRef.isMaterialized)
    (left : other.payload.left[0]?.any ColumnRef.isMaterialized =
      join.payload.left[0]?.any ColumnRef.isMaterialized) :
    other.writeMask otherExpr = join.writeMask hasExpr := by
  have fed : ∀ slot, feeds other.payload.left other.payload.right
      (otherExpr || other.aggregate) slot =
        feeds join.payload.left join.payload.right (hasExpr || join.aggregate) slot := by
    intro slot
    match slot with
    | 0 => exact right 0 (by decide)
    | 1 => exact right 1 (by decide)
    | 2 => exact right 2 (by decide)
    | 3 => exact left
    | 4 => exact result
    | _ + 5 => rfl
  apply UInt8.toNat_inj.mp
  refine Nat.eq_of_testBit_eq fun slot => ?_
  rw [Bool.eq_iff_iff, testBit_writeMask, testBit_writeMask, fed, suppressed]

end Join

namespace ColumnMap

def Holds (map : ColumnMap) (slot : Nat) : Prop :=
  ∃ ref, map.slots[slot]? = some ref ∧ ref ≠ .unused

/-- Behind the key stands the payload, entry by entry. -/
theorem holds_ofParts {keys : List UInt8} {payload : List ColumnRef} {slot : Nat}
    (inside : keys.length + slot < 8) :
    (ofParts keys payload).Holds (keys.length + slot) ↔
      payload[slot]?.any ColumnRef.isMaterialized := by
  have placed : (ofParts keys payload).slots[keys.length + slot]? =
      some (payload[slot]?.getD .unused) := by
    simp [ofParts, inside, List.getElem?_append_right]
  rw [Holds, placed]
  cases payload[slot]? with
  | none => simp
  | some ref => cases ref <;> simp [ColumnRef.isMaterialized]

end ColumnMap

namespace Stage

theorem compileExpr_enabled {options : Options} {expr : Option ExprSpec} {word : AluWord}
    (compiled : compileExpr options expr = .ok word) : word.enabled = expr.isSome := by
  cases expr with
  | none =>
      cases compiled
      rfl
  | some spec =>
      obtain ⟨_, _, _, _, _, _, _, _, _, _, _, rfl⟩ := ExprSpec.compile_eq_ok.mp compiled
      rfl

variable {stage : Stage} {scanColumns : Nat}

theorem keys_even (legal : stage.join.Legal scanColumns) (side : Side) :
    (stage.join.keys.get side).length = stage.join.keys.left.length := by
  cases side with
  | left => rfl
  | right => exact legal.paired.symm

/-- A key has at most two columns, so the first six entries of a payload have slots. -/
theorem payload_slot_holds (legal : stage.join.Legal scanColumns) (side : Side) {entry : Nat}
    (below : entry < 6) :
    (stage.columnMap side).Holds (stage.join.keys.left.length + entry) ↔
      (stage.join.payload.get side)[entry]?.any ColumnRef.isMaterialized := by
  have few := legal.keyed side
  rw [← keys_even legal side]
  exact ColumnMap.holds_ofParts (by omega)

end Stage

/-- The mask agrees with the rest of a compiled configuration. -/
theorem mask_agrees_with_config (options : Options) (stage : Stage) (config : Config)
    (compiled : stage.compile options = .ok config) :
    ∃ keys, (∀ side, (stage.join.keys.get side).length = keys) ∧
      (∀ slot < 3, config.writeMask.toNat.testBit slot ↔
        config.columnMaps.right.Holds (keys + slot) ∧
          UInt8.ofNat slot ∉ stage.join.suppressed.slots) ∧
      (config.writeMask.toNat.testBit 3 ↔
        config.columnMaps.left.Holds keys ∧ 3 ∉ stage.join.suppressed.slots) ∧
      (config.writeMask.toNat.testBit 4 ↔
        (config.alu.enabled ∨ config.control.aggregate) ∧ 4 ∉ stage.join.suppressed.slots) ∧
      (∀ slot, 5 ≤ slot → config.writeMask.toNat.testBit slot = false) ∧
      (config.control.mode = .semi ∨ config.control.mode = .anti →
        ∀ slot < 3, config.writeMask.toNat.testBit slot = false) ∧
      ∀ (payload : Sides (List ColumnRef)) (otherOptions : Options) (other : Config),
        { stage with join.payload := payload }.compile otherOptions = .ok other →
        (∀ slot < 3, payload.right[slot]?.any ColumnRef.isMaterialized =
          stage.join.payload.right[slot]?.any ColumnRef.isMaterialized) →
        payload.left[0]?.any ColumnRef.isMaterialized =
          stage.join.payload.left[0]?.any ColumnRef.isMaterialized →
        other.writeMask = config.writeMask := by
  obtain ⟨_, joinValid, _, left, right, alu, secondAlu, _, _, first, _, rfl⟩ :=
    Stage.compile_eq_ok.mp compiled
  have legal := Join.validate_iff_legal.mp joinValid
  have written := stage.join.testBit_writeMask stage.expr.isSome
  refine ⟨_, Stage.keys_even legal, ?_, ?_, ?_, ?_, ?_, ?_⟩
  · intro slot below
    rw [Stage.payload_slot_holds legal .right (by omega)]
    match slot, below with
    | 0, _ => exact written 0
    | 1, _ => exact written 1
    | 2, _ => exact written 2
  · have fed := Stage.payload_slot_holds legal .left (show 0 < 6 by decide)
    rw [Nat.add_zero] at fed
    rw [fed]
    exact written 3
  · rw [Stage.compileExpr_enabled first]
    simpa [Join.feeds, Stage.control] using written 4
  · intro slot above
    obtain ⟨more, rfl⟩ := Nat.exists_eq_add_of_le' above
    rw [← Bool.not_eq_true, written]
    simp [Join.feeds]
  · intro rightless slot below
    have none : stage.join.payload.right = [] := legal.rightless rightless
    rw [← Bool.not_eq_true, written slot, none]
    match slot, below with
    | 0, _ => simp [Join.feeds]
    | 1, _ => simp [Join.feeds]
    | 2, _ => simp [Join.feeds]
  · intro payload otherOptions other otherCompiled sameRight sameLeft
    obtain ⟨_, _, _, _, _, _, _, _, _, _, _, rfl⟩ := Stage.compile_eq_ok.mp otherCompiled
    exact Join.writeMask_congr rfl rfl sameRight sameLeft

/-- The first entry of each payload is a hole, the second of the right one is
suppressed, and there is more payload than output slots. Other columns in the same
places are written the same way. -/
theorem holes_agree_with_config :
    let stage : Stage := .ofJoin
      { Join.onKeys [4, 0] [1, 6] with
        payload := ⟨[.unused, .used 2], [.unused, .used 4, .duplicateKey, .used 1]⟩
        aggregate := true
        suppressed := ⟨[1], by decide⟩ }
    let other : Stage :=
      { stage with join.payload := ⟨[], [.unused, .duplicateKey, .used 7]⟩ }
    ∃ config second, stage.compile .default = .ok config ∧ config.writeMask = 0b10100 ∧
      config.columnMaps.right.Holds 4 ∧ ¬ config.columnMaps.left.Holds 2 ∧
      other.compile .default = .ok second ∧ second.writeMask = config.writeMask := by
  intro stage other
  let config : Config :=
    { control := ⟨true, true, true, .inner, 32⟩
      columnMaps := ⟨stage.columnMap .left, stage.columnMap .right⟩
      writeMask := 0b10100
      alu := .passThrough
      secondAlu := .passThrough
      filters := .both .pass
      shuffles := Stage.neutralShuffles }
  let second : Config :=
    { config with columnMaps := ⟨other.columnMap .left, other.columnMap .right⟩ }
  have compiled : stage.compile .default = .ok config := by decide +kernel
  have otherCompiled : other.compile .default = .ok second := by decide +kernel
  obtain ⟨keys, counted, right, left, _, _, _, payload⟩ :=
    mask_agrees_with_config .default stage config compiled
  obtain rfl : 2 = keys := counted .left
  refine ⟨config, second, compiled, rfl, ((right 2 (by decide)).mp (by decide)).1, ?_,
    otherCompiled, payload _ .default second otherCompiled (by decide) rfl⟩
  intro holds
  exact absurd (left.mpr ⟨holds, by decide⟩) (by decide)

end JoinEngine
