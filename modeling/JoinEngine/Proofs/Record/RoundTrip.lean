import JoinEngine.Proofs.Record.Layout

/-!
Reading undoes writing on every configuration that is compiled or read, and writing
undoes reading on every record that is accepted.
-/

namespace JoinEngine

/-- No slot names a column that the parts do not name. -/
theorem ColumnMap.ofParts_inRange {keys : List UInt8} {payload : List ColumnRef}
    (small : ∀ column ∈ keys ++ payload.filterMap ColumnRef.column?, column < 0x80) :
    (ofParts keys payload).InRange := by
  intro slot inside
  simp only [ofParts, Vector.getElem_ofFn]
  cases found : (keys.map ColumnRef.used ++ payload)[slot]? with
  | none => trivial
  | some ref =>
      rw [Option.getD_some]
      cases ref with
      | unused => trivial
      | duplicateKey => trivial
      | used column =>
          refine small column (List.mem_append.mpr ?_)
          rcases List.mem_append.mp (List.mem_of_getElem? found) with key | carried
          · obtain ⟨same, member, equal⟩ := List.mem_map.mp key
            cases equal
            exact .inl member
          · exact .inr (List.mem_filterMap.mpr ⟨.used column, carried, rfl⟩)

theorem Stage.compileExpr_valid {options : Options} {shapes : List Shape}
    (built : ShapeTable.build shapes = .ok options.shapes) {expr : Option ExprSpec}
    {word : AluWord} (compiled : compileExpr options expr = .ok word) : word.Valid := by
  cases expr with
  | some spec => exact ExprSpec.compile_valid built compiled
  | none =>
      cases compiled
      exact ⟨by decide, by decide, by decide, by decide⟩

/-- The checks made when a stage is compiled imply those made when a record is read. -/
theorem Stage.compile_representable {options : Options} {shapes : List Shape}
    (built : ShapeTable.build shapes = .ok options.shapes) {stage : Stage} {config : Config}
    (compiled : stage.compile options = .ok config) : config.Representable := by
  obtain ⟨valid, joinValid, shuffled, left, right, alu, secondAlu, _, _, first, second, rfl⟩ :=
    compile_eq_ok.mp compiled
  have scanned : ∀ side, ∀ column ∈ stage.join.columns side, column < 0x80 := by
    intro side column member
    have below := Join.columns_scanned joinValid side column member
    have most := (Options.validate_eq_ok.mp valid).2.2
    exact UInt8.lt_of_lt_of_le below (UInt8.le_trans most (by decide))
  refine ⟨fun side => ?_, Join.writeMask_range _ _, shuffleFault?_eq_none.mp shuffled,
    compileExpr_valid built first, compileExpr_valid built second⟩
  cases side with
  | left => exact ColumnMap.ofParts_inRange (scanned .left)
  | right => exact ColumnMap.ofParts_inRange (scanned .right)

/-- Configurations come from stages, those with one expression among them, and from
records. -/
inductive Config.Produced (config : Config) : Prop where
  | compiled (options : Options) (shapes : List Shape) (stage : Stage)
      (built : ShapeTable.build shapes = .ok options.shapes)
      (made : stage.compile options = .ok config)
  | decoded (bytes : Bytes) (accepted : Config.ofBytes bytes = .ok config)

theorem Config.Produced.representable {config : Config} (produced : config.Produced) :
    config.Representable := by
  cases produced with
  | compiled options shapes stage built made => exact Stage.compile_representable built made
  | decoded bytes accepted => exact (Config.ofBytes_eq_ok.mp accepted).1

/-- Every configuration is read back from its record. -/
theorem record_reads_back (config : Config) (produced : config.Produced) :
    Config.ofBytes config.toBytes = .ok config :=
  Config.ofBytes_eq_ok.mpr ⟨produced.representable, rfl⟩

/-- A stage that uses every part of a record: a key of two columns, bounds with and
without sign, a negative constant and two expressions. -/
theorem full_stage_reads_back :
    let stage : Stage :=
      { join :=
          { keys := ⟨[0, 7], [3, 2]⟩
            payload := ⟨[.used 4, .duplicateKey, .unused], [.used 5, .unused, .used 6]⟩
            mode := .inner
            aggregate := true
            hashSize := 0xffffffff
            enabled := true
            suppressed := ⟨[2], by decide⟩ }
        filters :=
          ⟨⟨#v[⟨.ge, .lt, -40, 40⟩, .pass, .pass, ⟨.ne, .dontCare, 0, 0⟩],
              (Combine.all .dontCare).relate 0 3 .xnor⟩,
            ⟨#v[.pass, ⟨.gtu, .leu, 7, 4294967295⟩, .pass, .pass], .all .and⟩⟩
        expr := some ⟨"strm1*(c2-strm2)", Registers.empty.bind 2 (-7)⟩
        secondExpr := some ⟨"strm4+strm1+strm3", .empty⟩
        shuffles := Stage.neutralShuffles.set 2 ⟨#v[13, 0, 0, 6, 7, 8, 9, 10]⟩ }
    let config : Config :=
      { control := ⟨true, true, true, .inner, 0xffffffff⟩
        columnMaps :=
          ⟨⟨#v[.used 0, .used 7, .used 4, .duplicateKey, .unused, .unused, .unused, .unused]⟩,
            ⟨#v[.used 3, .used 2, .used 5, .unused, .used 6, .unused, .unused, .unused]⟩⟩
        writeMask := 0b11001
        alu := ⟨#v[0, -7, 0, 0], 0b0011, 11, #v[1, 2, 0], 2, true⟩
        secondAlu := ⟨#v[0, 0, 0, 0], 0b1101, 14, #v[1, 3, 4], 0, true⟩
        filters :=
          ⟨⟨#v[⟨.ge, .lt, 0xffffffd8, 40⟩, .pass, .pass, ⟨.ne, .dontCare, 0, 0⟩],
              (Combine.all .dontCare).relate 0 3 .xnor⟩,
            ⟨#v[.pass, ⟨.gtu, .leu, 7, 0xffffffff⟩, .pass, .pass], .all .and⟩⟩
        shuffles := Stage.neutralShuffles.set 2 ⟨#v[13, 0, 0, 6, 7, 8, 9, 10]⟩ }
    stage.compile .default = .ok config ∧ config.Produced ∧
      Config.ofBytes config.toBytes = .ok config := by
  intro stage config
  have made : stage.compile .default = .ok config := by decide +kernel
  have produced : config.Produced :=
    .compiled .default ShapeTable.standardShapes stage rfl made
  exact ⟨made, produced, record_reads_back config produced⟩

/-- An accepted record is the record of what is read from it: there is no other
record of that, and no bit that writing leaves unset. -/
theorem accepted_record_exact (bytes : Bytes) (config : Config)
    (accepted : Config.ofBytes bytes = .ok config) :
    bytes.length = 576 ∧ config.toBytes = bytes ∧
      (∀ other, Config.ofBytes other = .ok config → other = bytes) ∧
      ∀ index, bytes.bit? index = some true → config.toBytes.bit? index = some true := by
  obtain ⟨_, same⟩ := Config.ofBytes_eq_ok.mp accepted
  refine ⟨?_, same.symm, fun other alike => ?_, fun index set => by rwa [← same]⟩
  · rw [same]
    exact Config.length_toBytes config
  · rw [same]
    exact (Config.ofBytes_eq_ok.mp alike).2

/-- The record of a join that neither filters nor computes. -/
theorem plain_record_exact :
    let filter : Bytes := List.replicate 179 0 ++ [0x80] ++ List.replicate 12 0
    let record : Bytes := [0b101, 32, 0, 0, 0, 0, 0] ++
      [0, 7, 255, 255, 255, 255, 255, 255] ++ [7, 3, 255, 255, 255, 255, 255, 255] ++ [0] ++
      [0, 1, 2, 3, 4, 5, 6, 7] ++ [0, 1, 2, 3, 4, 5, 6, 7] ++ [0, 1, 2, 6, 7, 8, 9, 10] ++
      [0, 1, 2, 3, 4, 5, 6, 7] ++ [0, 1, 2, 3, 4, 5, 6, 7] ++ List.replicate 128 0 ++
      filter ++ filter
    let config : Config :=
      ⟨⟨true, false, true, .inner, 32⟩, ⟨.ofParts [0, 7] [], .ofParts [7, 3] []⟩, 0,
        .passThrough, .passThrough, ⟨.pass, .pass⟩, Stage.neutralShuffles⟩
    Config.ofBytes record = .ok config ∧ record.length = 576 ∧ config.toBytes = record ∧
      (∀ other, Config.ofBytes other = .ok config → other = record) ∧
      ∀ index, record.bit? index = some true → config.toBytes.bit? index = some true := by
  intro filter record config
  have accepted : Config.ofBytes record = .ok config := by decide +kernel
  exact ⟨accepted, accepted_record_exact record config accepted⟩

/-!
Shuffles and the rows they read. A table passes the check of a point exactly if it lays
out every row of that point's width, and whichever way a table came into a configuration,
it was checked at its own point.
-/

namespace ShuffleTable
variable {α : Type} {table : ShuffleTable} {row out : List α} {point : ShufflePoint}

theorem shuffled?_eq_some :
    table.shuffled? row = some out ↔ out.length = 8 ∧
      ∀ slot (inside : slot < 8), out[slot]? = row[table.slots[slot].toNat]? := by
  unfold shuffled?
  rw [Option.mapM_eq_some]
  constructor
  · intro same
    have length : out.length = 8 := by simpa using (congrArg List.length same).symm
    refine ⟨length, fun slot inside => ?_⟩
    have copied := congrArg (·[slot]?) same
    simpa [inside, length] using copied.symm
  · rintro ⟨length, copied⟩
    apply List.ext_getElem
    · simp [length]
    · intro slot inLeft inRight
      have inside : slot < 8 := by simpa using inLeft
      have same := copied slot inside
      rw [List.getElem?_eq_getElem (by omega)] at same
      simp [same]

theorem shuffled?_isSome :
    (∃ out, table.shuffled? row = some out) ↔
      ∀ source ∈ table.slots, source.toNat < row.length := by
  unfold shuffled?
  rw [Option.mapM_isSome]
  simp [← Option.isSome_iff_exists]

theorem fault?_slots_eq_none :
    fault? (some point) (table.slots.toList.map some) = none ↔
      ∀ source ∈ table.slots, source < point.width := by
  rw [fault?_eq_none]
  simp only [Vector.mem_toList_iff]
  rfl

theorem validate_eq_ok :
    table.validate point = .ok () ↔ ∀ source ∈ table.slots, source < point.width := by
  unfold validate
  rw [Except.map_eq_ok, ← fault?_slots_eq_none]
  constructor
  · rintro ⟨checked, made, _⟩
    obtain ⟨sound, same⟩ := ofSlots_eq_ok.mp made
    rwa [← same] at sound
  · intro sound
    exact ⟨table, ofSlots_eq_ok.mpr ⟨sound, rfl⟩, rfl⟩

/-- A row of the width is all it takes to find out a source that is not there. -/
theorem validate_iff_lays_out [Nonempty α] :
    table.validate point = .ok () ↔
      ∀ row : List α, row.length = point.width.toNat → ∃ out, table.shuffled? row = some out := by
  simp only [validate_eq_ok, shuffled?_isSome, UInt8.lt_iff_toNat_lt]
  constructor
  · intro small row length source member
    rw [length]
    exact small source member
  · intro lays source member
    obtain ⟨item⟩ := ‹Nonempty α›
    have reached := lays (List.replicate point.width.toNat item) List.length_replicate source member
    rwa [List.length_replicate] at reached

theorem resolve_eq_ok {sources : Vector (Option UInt8) 8} :
    resolve (some point) sources = .ok table ↔
      (∀ slot (inside : slot < 8) source, sources[slot] = some source → source < point.width) ∧
        ∀ slot (inside : slot < 8), table.slots[slot] = sources[slot].getD (UInt8.ofNat slot) := by
  have sound : fault? (some point) sources.toList = none ↔
      ∀ slot (inside : slot < 8) source, sources[slot] = some source → source < point.width := by
    rw [fault?_eq_none_of_sparse]
    constructor
    · intro small slot inside source given
      exact small source (Vector.mem_toList_iff.mpr (given ▸ Vector.getElem_mem inside))
    · intro small source member
      obtain ⟨slot, inside, given⟩ := Vector.mem_iff_getElem.mp (Vector.mem_toList_iff.mp member)
      exact small slot inside source given
  rw [← sound]
  unfold resolve
  cases fault? (some point) sources.toList with
  | some fault => simp
  | none =>
      obtain ⟨slots⟩ := table
      simp [Vector.ext_iff, eq_comm]

end ShuffleTable

/-- A shuffle that is accepted never reads past its row. -/
theorem shuffles_read_inside :
    (∀ (table : ShuffleTable) (point : ShufflePoint) (α : Type) [Nonempty α],
      table.validate point = .ok () ↔
        ∀ row : List α, row.length = point.width.toNat →
          ∃ out, table.shuffled? row = some out) ∧
    (∀ config : Config, config.Produced → ∀ (point : ShufflePoint) (α : Type) (row : List α),
      point.width.toNat ≤ row.length →
        ∃ out, (config.shuffle point).shuffled? row = some out ∧ out.length = 8 ∧
          ∀ slot (inside : slot < 8),
            out[slot]? = row[(config.shuffle point).slots[slot].toNat]?) ∧
    ∀ (point : ShufflePoint) (sources : Vector (Option UInt8) 8),
      ((∃ table, ShuffleTable.resolve (some point) sources = .ok table) ↔
        ∀ slot (inside : slot < 8) source, sources[slot] = some source → source < point.width) ∧
      ∀ table, ShuffleTable.resolve (some point) sources = .ok table →
        ∀ slot (inside : slot < 8), table.slots[slot] = sources[slot].getD (UInt8.ofNat slot) := by
  refine ⟨fun table point α _ => ShuffleTable.validate_iff_lays_out, ?_, ?_⟩
  · intro config produced point α row wide
    have small := ShuffleTable.fault?_slots_eq_none.mp (produced.representable.shuffles point)
    have inside : ∀ source ∈ (config.shuffle point).slots, source.toNat < row.length := by
      intro source member
      exact Nat.lt_of_lt_of_le (UInt8.lt_iff_toNat_lt.mp (small source member)) wide
    obtain ⟨out, laid⟩ := ShuffleTable.shuffled?_isSome.mpr inside
    exact ⟨out, laid, ShuffleTable.shuffled?_eq_some.mp laid⟩
  · intro point sources
    refine ⟨⟨?_, ?_⟩, fun table made => (ShuffleTable.resolve_eq_ok.mp made).2⟩
    · rintro ⟨table, made⟩
      exact (ShuffleTable.resolve_eq_ok.mp made).1
    · intro small
      refine ⟨⟨Vector.ofFn fun slot => sources[slot].getD (UInt8.ofNat slot)⟩, ?_⟩
      exact ShuffleTable.resolve_eq_ok.mpr ⟨small, by simp⟩

/-- A table for the joined row that reaches its last column. -/
theorem last_column_reads_inside :
    let table : ShuffleTable := ⟨#v[13, 0, 0, 6, 7, 8, 9, 10]⟩
    let stage := (Stage.ofJoin (.onKeys [0] [3])).withShuffle .joined table
    ∃ config, stage.compile .default = .ok config ∧ config.shuffle .joined = table ∧
      config.Produced ∧ ∀ row : List String, 14 ≤ row.length →
        ∃ out, table.shuffled? row = some out ∧ out.length = 8 ∧
          ∀ slot (inside : slot < 8), out[slot]? = row[table.slots[slot].toNat]? := by
  intro table stage
  let config : Config :=
    { control := ⟨true, false, false, .inner, 32⟩
      columnMaps := ⟨stage.columnMap .left, stage.columnMap .right⟩
      writeMask := 0
      alu := .passThrough
      secondAlu := .passThrough
      filters := .both .pass
      shuffles := Stage.neutralShuffles.set 2 table }
  have made : stage.compile .default = .ok config := by decide +kernel
  have produced : config.Produced := .compiled .default ShapeTable.standardShapes stage rfl made
  have inside := shuffles_read_inside.2.1 config produced .joined String
  exact ⟨config, made, rfl, produced, inside⟩

end JoinEngine
