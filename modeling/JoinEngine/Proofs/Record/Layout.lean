import JoinEngine.Proofs.Filter.Block
import JoinEngine.Proofs.Stage.Legal
import JoinEngine.Record
import Mathlib.Tactic.SplitIfs
import Mathlib.Tactic.Tauto

/-!
Records and configurations. Each part of a record is read exactly if it keeps the
rules of its kind and the bytes store its entries. So a record is read exactly if it
is the record of a configuration that keeps the rules, and reading and writing undo
each other.
-/

namespace JoinEngine

def ColumnRef.InRange : ColumnRef → Prop
  | used column => column < 0x80
  | unused | duplicateKey => True

theorem ColumnRef.ofByte_eq_ok {byte : UInt8} {ref : ColumnRef} :
    ofByte byte = .ok ref ↔ ref.InRange ∧ byte = ref.toByte := by
  constructor
  · intro accepted
    unfold ofByte at accepted
    split at accepted
    · cases accepted
      exact ⟨trivial, by assumption⟩
    split at accepted
    · cases accepted
      exact ⟨trivial, by assumption⟩
    split at accepted
    · cases accepted
      exact ⟨by assumption, rfl⟩
    · cases accepted
  · rintro ⟨range, rfl⟩
    cases ref with
    | unused => rfl
    | duplicateKey => rfl
    | used column =>
        have below : column < 0x80 := range
        have notUnused : column ≠ 0xff := by rintro rfl; exact absurd below (by decide)
        have notKey : column ≠ 0xfe := by rintro rfl; exact absurd below (by decide)
        simp [ofByte, toByte, notUnused, notKey, below]

namespace ColumnMap

def InRange (map : ColumnMap) : Prop := ∀ slot (inside : slot < 8), map.slots[slot].InRange

theorem fault?_eq_none {bytes : List UInt8} :
    fault? bytes = none ↔ ∀ byte ∈ bytes, ∃ ref, ColumnRef.ofByte byte = .ok ref := by
  simp only [fault?, List.findSome?_eq_none_iff]
  refine forall_congr' fun byte => imp_congr_right fun _ => ?_
  cases ColumnRef.ofByte byte <;> simp

theorem ofBytes_eq_ok {bytes : Vector UInt8 8} {map : ColumnMap} :
    ofBytes bytes = .ok map ↔ map.InRange ∧ bytes = map.toBytes := by
  constructor
  · intro accepted
    unfold ofBytes at accepted
    split at accepted
    · cases accepted
    rename_i sound
    cases accepted
    have read : ∀ slot (inside : slot < 8),
        ∃ ref, ColumnRef.ofByte bytes[slot] = .ok ref :=
      fun slot inside => fault?_eq_none.mp sound _ (by simp)
    refine ⟨fun slot inside => ?_, Vector.ext fun slot inside => ?_⟩
    · obtain ⟨ref, found⟩ := read slot inside
      simpa [found, Except.toOption] using (ColumnRef.ofByte_eq_ok.mp found).1
    · obtain ⟨ref, found⟩ := read slot inside
      simpa [toBytes, found, Except.toOption] using (ColumnRef.ofByte_eq_ok.mp found).2
  · rintro ⟨range, rfl⟩
    have read : ∀ slot (inside : slot < 8),
        ColumnRef.ofByte map.slots[slot].toByte = .ok map.slots[slot] :=
      fun slot inside => ColumnRef.ofByte_eq_ok.mpr ⟨range slot inside, rfl⟩
    have sound : fault? map.toBytes.toList = none := by
      refine fault?_eq_none.mpr fun byte member => ?_
      obtain ⟨slot, inside, rfl⟩ := List.getElem_of_mem member
      exact ⟨_, by simpa [toBytes] using read slot (by simpa using inside)⟩
    simp only [ofBytes, sound]
    refine congrArg (Except.ok ∘ ColumnMap.mk) (Vector.ext fun slot inside => ?_)
    simp [toBytes, read slot inside, Except.toOption]

end ColumnMap

theorem ShuffleTable.ofSlots_eq_ok {point : ShufflePoint} {slots : Vector UInt8 8}
    {table : ShuffleTable} :
    ofSlots point slots = .ok table ↔
      fault? (some point) (table.slots.toList.map some) = none ∧ slots = table.slots := by
  have whole : Vector.ofFn (fun slot : Fin 8 => (slots.map some)[slot].getD (UInt8.ofNat slot)) =
      slots := by
    refine Vector.ext fun slot inside => ?_
    simp
  simp only [ofSlots, resolve, whole, Vector.toList_map]
  constructor
  · intro accepted
    split at accepted
    · cases accepted
    · cases accepted
      exact ⟨by assumption, rfl⟩
  · rintro ⟨sound, rfl⟩
    rw [sound]

theorem JoinMode.ofCode?_eq_some {code : UInt8} {mode : JoinMode} :
    ofCode? code = some mode ↔ mode.code = code :=
  getElem?_code_eq_some (by decide) fun mode => by cases mode <;> rfl

section Entries
variable {bytes : Bytes}

theorem Control.ofBytes_eq_ok (long : 5 ≤ bytes.length) {control : Control} :
    ofBytes bytes = .ok control ↔ bytes.Stores control.entries := by
  -- The flags, the mode and the size of the hash table stand in the first five bytes.
  have join : joinField.get bytes < 2 := Field.get_lt (by simp [Field.hi, joinField]; omega)
  have aggregate : aggregateField.get bytes < 2 :=
    Field.get_lt (by simp [Field.hi, aggregateField]; omega)
  have dual : dualKeyField.get bytes < 2 :=
    Field.get_lt (by simp [Field.hi, dualKeyField]; omega)
  have mode : modeField.get bytes < 2 ^ 3 := Field.get_lt (by simp [Field.hi, modeField]; omega)
  have hash : hashField.get bytes < 2 ^ 32 := Field.get_lt (by simp [Field.hi, hashField]; omega)
  have size : UInt32.ofNat (hashField.get bytes) = control.hashSize ↔
      hashField.get bytes = control.hashSize.toNat := by
    rw [← UInt32.toNat_inj, UInt32.toNat_ofNat_of_lt' hash]
  have code : JoinMode.ofCode? (UInt8.ofNat (modeField.get bytes)) = some control.mode ↔
      modeField.get bytes = control.mode.code.toNat := by
    rw [JoinMode.ofCode?_eq_some, eq_comm, Bytes.ofNat_eq_iff (Nat.lt_trans mode (by decide))]
  obtain ⟨joinEnabled, aggregates, dualKey, kind, hashSize⟩ := control
  simp only [entries, Bytes.stores_cons, Bytes.stores_nil, and_true, ← code, ← size,
    ← Bytes.flag_eq_iff join, ← Bytes.flag_eq_iff aggregate, ← Bytes.flag_eq_iff dual]
  unfold ofBytes
  cases found : JoinMode.ofCode? (UInt8.ofNat (modeField.get bytes)) with
  | none => simp [found]
  | some other => simp [found, Control.mk.injEq]

namespace Config

theorem readBytes_eq_iff {field : Field} (width : field.width = 8)
    (room : field.lo + 64 ≤ 8 * bytes.length) {values : Vector UInt8 8} :
    readBytes field bytes = values ↔ bytes.Stores (byteEntries field values) := by
  refine Bytes.ofFn_get_eq_iff (fun _ => UInt8.ofNat_toNat) fun index below => ?_
  have inside : (field.element index).hi ≤ 8 * bytes.length := by
    simp only [Field.hi, Field.element, width]
    omega
  have small := Field.get_lt inside
  rw [show (field.element index).width = 8 from width] at small
  exact UInt8.toNat_ofNat_of_lt' small

theorem readMap_eq_ok (long : 64 ≤ bytes.length) (side : Side) {map : ColumnMap} :
    ColumnMap.ofBytes (readBytes (mapField side) bytes) = .ok map ↔
      map.InRange ∧ bytes.Stores (byteEntries (mapField side) map.toBytes) := by
  rw [ColumnMap.ofBytes_eq_ok, readBytes_eq_iff]
  · cases side <;> rfl
  · cases side <;> simp [mapField] <;> omega

theorem readShuffle_eq_ok (long : 64 ≤ bytes.length) (point : ShufflePoint)
    {table : ShuffleTable} :
    readShuffle bytes point = .ok table ↔
      ShuffleTable.fault? (some point) (table.slots.toList.map some) = none ∧
        bytes.Stores (byteEntries (shuffleField point) table.slots) := by
  rw [readShuffle, Except.mapError_eq_ok, ShuffleTable.ofSlots_eq_ok, readBytes_eq_iff rfl]
  simp only [shuffleField]
  omega

end Config

end Entries

namespace Config

/-- The rules for a configuration that has a record. -/
structure Representable (config : Config) : Prop where
  columns : ∀ side, (config.columnMaps.get side).InRange
  mask : config.writeMask >>> Join.outputSlots = 0
  shuffles : ∀ point,
    ShuffleTable.fault? (some point) ((config.shuffle point).slots.toList.map some) = none
  alu : config.alu.Valid
  secondAlu : config.secondAlu.Valid

structure Reads (bytes : Bytes) (config : Config) : Prop where
  length : bytes.length = Bytes.recordLength
  clear : ∀ gap ∈ gaps, gap.get bytes = 0
  control : Control.ofBytes bytes = .ok config.control
  columns : ∀ side,
    ColumnMap.ofBytes (readBytes (mapField side) bytes) = .ok (config.columnMaps.get side)
  mask : UInt8.ofNat (maskField.get bytes) = config.writeMask
  maskRange : config.writeMask >>> Join.outputSlots = 0
  shuffles : ∀ point, readShuffle bytes point = .ok (config.shuffle point)
  alu : AluWord.ofBytes (engineWords bytes 1 1) = .ok config.alu
  secondAlu : AluWord.ofBytes (engineWords bytes 2 1) = .ok config.secondAlu
  left : readFilter .left (engineWords bytes 3 3) = .ok config.filters.left
  right : readFilter .right (engineWords bytes 6 3) = .ok config.filters.right

theorem shuffles_listed (config : Config) :
    #v[config.shuffle .leftScan, config.shuffle .rightScan, config.shuffle .joined,
      config.shuffle .firstResult, config.shuffle .secondResult] = config.shuffles := by
  refine Vector.ext fun index inside => ?_
  match index, inside with
  | 0, _ => rfl
  | 1, _ => rfl
  | 2, _ => rfl
  | 3, _ => rfl
  | 4, _ => rfl

theorem ofBytes_eq_ok_reads {bytes : Bytes} {config : Config} :
    ofBytes bytes = .ok config ↔ Reads bytes config := by
  unfold ofBytes
  simp only [Except.check_eq_ok, Except.bind_eq_ok, not_not]
  constructor
  · rintro ⟨length, clear, control, controlRead, leftMap, leftMapRead, rightMap, rightMapRead,
      maskRange, leftScan, first, rightScan, second, joined, third, firstResult, fourth,
      secondResult, fifth, alu, aluRead, secondAlu, secondRead, left, leftRead, right, rightRead,
      made⟩
    cases made
    refine ⟨length, by simpa using clear, controlRead, fun side => ?_, rfl, maskRange,
      fun point => ?_, aluRead, secondRead, leftRead, rightRead⟩
    · cases side with
      | left => exact leftMapRead
      | right => exact rightMapRead
    · cases point with
      | leftScan => exact first
      | rightScan => exact second
      | joined => exact third
      | firstResult => exact fourth
      | secondResult => exact fifth
  · rintro ⟨length, clear, control, columns, mask, maskRange, shuffles, alu, secondAlu, left, right⟩
    refine ⟨length, by simpa using clear, _, control, _, columns .left, _, columns .right,
      by rwa [mask], _, shuffles .leftScan, _, shuffles .rightScan, _, shuffles .joined, _,
      shuffles .firstResult, _, shuffles .secondResult, _, alu, _, secondAlu, _, left, _, right, ?_⟩
    rw [mask, shuffles_listed]
    rfl

section ControlWord
variable {config : Config} {bytes : Bytes}

def controlFields : List Field :=
  [Control.joinField, Control.aggregateField, Control.dualKeyField, Control.modeField,
      Control.hashField] ++
    (List.range 8).map (mapField .left).element ++ (List.range 8).map (mapField .right).element ++
    [maskField] ++
    ShufflePoint.all.flatMap fun point => (List.range 8).map (shuffleField point).element

theorem byteEntries_fields (field : Field) (values : Vector UInt8 8) :
    (byteEntries field values).map Prod.fst = (List.range 8).map field.element :=
  Field.arrayEntries_fields

theorem controlEntries_fields (config : Config) :
    config.controlEntries.map Prod.fst = controlFields := by
  simp only [controlEntries, List.map_append, List.map_flatMap, byteEntries_fields]
  rfl

theorem control_ordered (config : Config) :
    Field.ascend (8 * 64) 0 (config.controlEntries.map Prod.fst) := by
  rw [controlEntries_fields]
  decide

theorem control_free (config : Config) :
    Field.free (8 * 64) 0 (config.controlEntries.map Prod.fst) = gaps := by
  rw [controlEntries_fields]
  decide

theorem byteEntries_small {field : Field} (width : field.width = 8) (values : Vector UInt8 8) :
    ∀ entry ∈ byteEntries field values, entry.2 < 2 ^ entry.1.width := by
  intro entry member
  obtain ⟨index, rfl⟩ := Field.mem_arrayEntries.mp member
  rw [show (field.element index).width = 8 from width]
  exact UInt8.toNat_lt _

theorem control_fits (config : Config) : Bytes.Fits 64 config.controlEntries where
  ordered := config.control_ordered
  small := by
    have mode : config.control.mode.code.toNat < 2 ^ 3 := by cases config.control.mode <;> decide
    simp only [controlEntries, Control.entries, List.forall_mem_append, List.forall_mem_cons,
      List.forall_mem_flatMap, List.not_mem_nil, false_implies, implies_true, and_true]
    exact ⟨⟨⟨⟨⟨Bool.toNat_lt _, Bool.toNat_lt _, Bool.toNat_lt _, mode, UInt32.toNat_lt _⟩,
      byteEntries_small rfl _⟩, byteEntries_small rfl _⟩, UInt8.toNat_lt _⟩,
      fun point _ => byteEntries_small rfl _⟩

theorem stores_controlEntries :
    bytes.Stores config.controlEntries ↔ bytes.Stores config.control.entries ∧
      (∀ side, bytes.Stores
        (byteEntries (mapField side) (config.columnMaps.get side).toBytes)) ∧
      maskField.get bytes = config.writeMask.toNat ∧
      ∀ point, bytes.Stores (byteEntries (shuffleField point) (config.shuffle point).slots) := by
  have sides : (∀ side, bytes.Stores
      (byteEntries (mapField side) (config.columnMaps.get side).toBytes)) ↔
      bytes.Stores (byteEntries (mapField .left) config.columnMaps.left.toBytes) ∧
        bytes.Stores (byteEntries (mapField .right) config.columnMaps.right.toBytes) :=
    ⟨fun all => ⟨all .left, all .right⟩, fun both side => by
      cases side with
      | left => exact both.1
      | right => exact both.2⟩
  have points : bytes.Stores (ShufflePoint.all.flatMap fun point =>
        byteEntries (shuffleField point) (config.shuffle point).slots) ↔
      ∀ point, bytes.Stores (byteEntries (shuffleField point) (config.shuffle point).slots) := by
    simp only [Bytes.Stores, List.forall_mem_flatMap, ShufflePoint.mem_all, true_implies]
  simp only [controlEntries, Bytes.stores_append, Bytes.stores_cons, Bytes.stores_nil, and_true,
    sides, points, and_assoc]

theorem stores_take (long : 64 ≤ bytes.length) :
    Bytes.Stores (bytes.take 64) config.controlEntries ↔ bytes.Stores config.controlEntries := by
  refine forall_congr' fun entry => imp_congr_right fun member => ?_
  have bounds := (Field.ascend_bounds config.control_ordered).2 entry.1
    (List.mem_map_of_mem member)
  rw [Field.get_take bounds.2 long]

/-- The control word of a configuration is read from the first engine word. -/
theorem eq_control_iff (long : 64 ≤ bytes.length) :
    bytes.take 64 = Bytes.layOut 64 config.controlEntries ↔
      bytes.Stores config.controlEntries ∧ ∀ gap ∈ gaps, gap.get bytes = 0 := by
  have length : (bytes.take 64).length = 64 := List.length_take_of_le long
  have inGaps : ∀ gap ∈ gaps, Field.get gap (bytes.take 64) = gap.get bytes := by
    intro gap member
    rw [← control_free config] at member
    exact Field.get_take (Field.free_bounds config.control_ordered member).2 long
  rw [Bytes.eq_layOut_iff config.control_fits, control_free, stores_take long]
  constructor
  · rintro ⟨_, stores, clear⟩
    exact ⟨stores, fun gap member => (inGaps gap member).symm.trans (clear gap member)⟩
  · rintro ⟨stores, clear⟩
    exact ⟨length, stores, fun gap member => (inGaps gap member).trans (clear gap member)⟩

end ControlWord

section FilterWords

theorem filter_fits (words : Vector UInt32 45) :
    Bytes.Fits 192 (filterField.arrayEntries UInt32.toNat words) where
  ordered := by
    rw [Field.arrayEntries_fields]
    decide
  small := by
    intro entry member
    obtain ⟨index, rfl⟩ := Field.mem_arrayEntries.mp member
    exact words[index].toNat_lt

/-- Behind its words a filter block is padded with zeros. -/
theorem filter_free (words : Vector UInt32 45) :
    Field.free (8 * 192) 0 ((filterField.arrayEntries UInt32.toNat words).map Prod.fst) =
      [⟨8 * 180, 8 * 12⟩] := by
  rw [Field.arrayEntries_fields]
  decide

theorem length_filterBytes (block : FilterBlock) : (filterBytes block).length = 192 :=
  Bytes.length_layOut (filter_fits block.words).ordered

theorem readFilter_eq_ok {side : Side} {bytes : Bytes} (long : bytes.length = 192)
    {block : FilterBlock} : readFilter side bytes = .ok block ↔ bytes = filterBytes block := by
  have words : Vector.ofFn (fun index : Fin 45 =>
        UInt32.ofNat ((filterField.element index).get bytes)) = block.words ↔
      bytes.Stores (filterField.arrayEntries UInt32.toNat block.words) := by
    refine Bytes.ofFn_get_eq_iff (fun _ => UInt32.ofNat_toNat) fun index below => ?_
    have inside : (filterField.element index).hi ≤ 8 * bytes.length := by
      simp only [Field.hi, Field.element, filterField]
      omega
    exact UInt32.toNat_ofNat_of_lt' (Field.get_lt inside)
  have padding : Field.get ⟨8 * 180, 8 * 12⟩ bytes = 0 ↔
      ¬ (bytes.drop 180).any (· ≠ 0) = true := by
    have rest := Field.get_rest_eq_zero_iff (show 180 ≤ bytes.length by omega)
    rw [long] at rest
    simpa using rest
  change _ ↔ bytes = .layOut 192 (filterField.arrayEntries UInt32.toNat block.words)
  rw [Bytes.eq_layOut_iff (filter_fits block.words), filter_free, List.forall_mem_singleton,
    padding, ← words, ← FilterBlock.ofWords_eq_ok]
  unfold readFilter
  by_cases padded : (bytes.drop 180).any (· ≠ 0) = true
  · simp only [padded, if_true, reduceCtorEq, not_true_eq_false, and_false]
  · simp only [padded, Bool.false_eq_true, if_false, long, not_false_eq_true, and_true, true_and]

end FilterWords

section Record
variable {bytes : Bytes} {config : Config}

theorem length_engineWords (word count : Nat) (inside : 64 * (word + count) ≤ bytes.length) :
    (engineWords bytes word count).length = 64 * count := by
  rw [engineWords, List.length_take_of_le]
  rw [List.length_drop]
  omega

theorem record_pieces (long : bytes.length = Bytes.recordLength) :
    bytes.take 64 ++ engineWords bytes 1 1 ++ engineWords bytes 2 1 ++ engineWords bytes 3 3 ++
      engineWords bytes 6 3 = bytes := by
  simp only [engineWords, Nat.reduceMul, ← List.take_add, Nat.reduceAdd]
  exact List.take_of_length_le (Nat.le_of_eq long)

theorem length_toBytes (config : Config) : config.toBytes.length = Bytes.recordLength := by
  simp only [toBytes, List.length_append, Bytes.length_layOut config.control_ordered,
    AluWord.length_toBytes, length_filterBytes]
  rfl

theorem eq_toBytes_iff (long : bytes.length = Bytes.recordLength) :
    bytes = config.toBytes ↔ bytes.take 64 = Bytes.layOut 64 config.controlEntries ∧
      engineWords bytes 1 1 = config.alu.toBytes ∧
      engineWords bytes 2 1 = config.secondAlu.toBytes ∧
      engineWords bytes 3 3 = filterBytes config.filters.left ∧
      engineWords bytes 6 3 = filterBytes config.filters.right := by
  have size : bytes.length = 576 := long
  constructor
  · intro same
    have whole : _ = _ ++ config.alu.toBytes ++ config.secondAlu.toBytes ++
        filterBytes config.filters.left ++ filterBytes config.filters.right :=
      (record_pieces long).trans same
    obtain ⟨whole, right⟩ := List.append_inj' whole (by
      rw [length_engineWords 6 3 (by omega), length_filterBytes])
    obtain ⟨whole, left⟩ := List.append_inj' whole (by
      rw [length_engineWords 3 3 (by omega), length_filterBytes])
    obtain ⟨whole, secondAlu⟩ := List.append_inj' whole (by
      rw [length_engineWords 2 1 (by omega), AluWord.length_toBytes]
      rfl)
    obtain ⟨control, alu⟩ := List.append_inj' whole (by
      rw [length_engineWords 1 1 (by omega), AluWord.length_toBytes]
      rfl)
    exact ⟨control, alu, secondAlu, left, right⟩
  · rintro ⟨control, alu, secondAlu, left, right⟩
    rw [← record_pieces long, control, alu, secondAlu, left, right]
    rfl

/-- What is read from the first engine word. -/
theorem reads_control_iff (long : 64 ≤ bytes.length) :
    ((∀ gap ∈ gaps, gap.get bytes = 0) ∧ Control.ofBytes bytes = .ok config.control ∧
      (∀ side, ColumnMap.ofBytes (readBytes (mapField side) bytes) =
        .ok (config.columnMaps.get side)) ∧
      UInt8.ofNat (maskField.get bytes) = config.writeMask ∧
      ∀ point, readShuffle bytes point = .ok (config.shuffle point)) ↔
    (∀ side, (config.columnMaps.get side).InRange) ∧
      (∀ point,
        ShuffleTable.fault? (some point) ((config.shuffle point).slots.toList.map some) = none) ∧
      bytes.take 64 = Bytes.layOut 64 config.controlEntries := by
  have mask : maskField.get bytes < UInt8.size :=
    Field.get_lt (show maskField.hi ≤ 8 * bytes.length by simp only [maskField, Field.hi]; omega)
  rw [eq_control_iff long, stores_controlEntries, Control.ofBytes_eq_ok (by omega),
    Bytes.ofNat_eq_iff mask]
  simp only [readMap_eq_ok long, readShuffle_eq_ok long, forall_and]
  tauto

/-- Reading accepts the records of configurations that keep the rules and nothing
else. -/
theorem ofBytes_eq_ok :
    ofBytes bytes = .ok config ↔ config.Representable ∧ bytes = config.toBytes := by
  rw [ofBytes_eq_ok_reads]
  have filters : ∀ word, 64 * (word + 3) ≤ bytes.length →
      (engineWords bytes word 3).length = 192 :=
    fun word inside => length_engineWords word 3 inside
  constructor
  · rintro ⟨length, clear, control, columns, mask, maskRange, shuffles, alu, secondAlu, left,
      right⟩
    have size : bytes.length = 576 := length
    obtain ⟨inRange, sound, first⟩ :=
      (reads_control_iff (by omega)).mp ⟨clear, control, columns, mask, shuffles⟩
    obtain ⟨valid, aluBytes⟩ := AluWord.ofBytes_eq_ok.mp alu
    obtain ⟨secondValid, secondBytes⟩ := AluWord.ofBytes_eq_ok.mp secondAlu
    exact ⟨⟨inRange, maskRange, sound, valid, secondValid⟩, (eq_toBytes_iff length).mpr
      ⟨first, aluBytes, secondBytes, (readFilter_eq_ok (filters 3 (by omega))).mp left,
        (readFilter_eq_ok (filters 6 (by omega))).mp right⟩⟩
  · rintro ⟨⟨inRange, maskRange, sound, valid, secondValid⟩, same⟩
    have length : bytes.length = Bytes.recordLength := by rw [same, length_toBytes]
    have size : bytes.length = 576 := length
    obtain ⟨first, alu, secondAlu, left, right⟩ := (eq_toBytes_iff length).mp same
    obtain ⟨clear, control, columns, mask, shuffles⟩ :=
      (reads_control_iff (by omega)).mpr ⟨inRange, sound, first⟩
    exact ⟨length, clear, control, columns, mask, maskRange, shuffles,
      AluWord.ofBytes_eq_ok.mpr ⟨valid, alu⟩, AluWord.ofBytes_eq_ok.mpr ⟨secondValid, secondAlu⟩,
      (readFilter_eq_ok (filters 3 (by omega))).mpr left,
      (readFilter_eq_ok (filters 6 (by omega))).mpr right⟩

end Record

end Config

/-!
The bits of a record. The layout of the engine is stated bit by bit, with the
numbers of the bits written out, and every bit of a record is the one that the
layout has there.
-/

def Control.layoutBit (control : Control) (index : Nat) : Bool :=
  if index = 0 then control.joinEnabled
  else if index = 1 then control.aggregate
  else if index = 2 then control.dualKey
  else if index < 6 then control.mode.code.toNat.testBit (index - 3)
  else if index < 8 then false
  else if index < 40 then control.hashSize.toNat.testBit (index - 8)
  else false

def AluWord.layoutBit (word : AluWord) (index : Nat) : Bool :=
  if index < 256 then word.constants[index / 64]?.any (·.toNat.testBit (index % 64))
  else if index < 260 then word.streamMask.toNat.testBit (index - 256)
  else if index < 268 then word.opcode.toNat.testBit (index - 260)
  else if index < 271 then (word.ports.get 0).toNat.testBit (index - 268)
  else if index < 274 then (word.ports.get 1).toNat.testBit (index - 271)
  else if index < 277 then (word.ports.get 2).toNat.testBit (index - 274)
  else if index < 280 then word.constSelect.toNat.testBit (index - 277)
  else if index = 288 then word.enabled
  else false

/-- Bit `index` of a filter block. Behind its 45 words there are zeros. -/
def FilterBlock.layoutBit (block : FilterBlock) (index : Nat) : Bool :=
  block.words[index / 32]?.any (·.toNat.testBit (index % 32))

namespace Config

def slotBit (slots : Vector UInt8 8) (index : Nat) : Bool :=
  slots[index / 8]?.any (·.toNat.testBit (index % 8))

def controlBit (config : Config) (index : Nat) : Bool :=
  if index < 56 then config.control.layoutBit index
  else if index < 120 then slotBit config.columnMaps.left.toBytes (index - 56)
  else if index < 184 then slotBit config.columnMaps.right.toBytes (index - 120)
  else if index < 192 then config.writeMask.toNat.testBit (index - 184)
  else if index < 256 then slotBit (config.shuffle .leftScan).slots (index - 192)
  else if index < 320 then slotBit (config.shuffle .rightScan).slots (index - 256)
  else if index < 384 then slotBit (config.shuffle .joined).slots (index - 320)
  else if index < 448 then slotBit (config.shuffle .firstResult).slots (index - 384)
  else slotBit (config.shuffle .secondResult).slots (index - 448)

def layoutBit (config : Config) (index : Nat) : Bool :=
  if index < 512 then config.controlBit index
  else if index < 1024 then config.alu.layoutBit (index - 512)
  else if index < 1536 then config.secondAlu.layoutBit (index - 1024)
  else if index < 3072 then config.filters.left.layoutBit (index - 1536)
  else config.filters.right.layoutBit (index - 3072)

end Config

section Words
variable {index : Nat}

theorem AluWord.bit_toBytes (word : AluWord) (inside : index < 512) :
    word.toBytes.bit index = word.layoutBit index := by
  have atField (field : Field) {value : Nat} (member : (field, value) ∈ word.entries)
      (holds : field.Holds index) : word.toBytes.bit index = value.testBit (index - field.lo) :=
    Bytes.bit_layOut_of_mem word.ordered member holds
  have atGap (gap : Field) (member : gap ∈ reservedFields) (holds : gap.Holds index) :
      word.toBytes.bit index = false :=
    Bytes.bit_layOut_of_free word.ordered (word.free_eq_reserved ▸ member) holds
  have registers : constantField.arrayEntries UInt64.toNat word.constants ⊆ word.entries := by
    intro entry member
    simp only [entries_eq, List.mem_append, member, true_or]
  have ports : portField.arrayEntries UInt8.toNat word.ports ⊆ word.entries := by
    intro entry member
    simp only [entries_eq, List.mem_append, member, or_true, true_or]
  have atPort (port : Fin 3) (holds : (portField.element port).Holds index) :=
    atField (portField.element port) (ports (Field.mem_arrayEntries.mpr ⟨port, rfl⟩)) holds
  unfold layoutBit
  split_ifs with constants streams opcode first second third select enable
  · exact Bytes.bit_layOut_of_array word.ordered constantField registers (Nat.zero_le _) constants
  · exact atField streamMaskField (by simp [entries]) ⟨Nat.not_lt.mp constants, streams⟩
  · exact atField opcodeField (by simp [entries]) ⟨Nat.not_lt.mp streams, opcode⟩
  · exact atPort 0 ⟨Nat.not_lt.mp opcode, first⟩
  · exact atPort 1 ⟨Nat.not_lt.mp first, second⟩
  · exact atPort 2 ⟨Nat.not_lt.mp second, third⟩
  · exact atField constSelectField (by simp [entries]) ⟨Nat.not_lt.mp third, select⟩
  · subst enable
    exact Bytes.bit_layOut_of_flag word.ordered (by simp [entries, enableField])
  · -- What is left stands before the enable bit or behind it.
    by_cases before : index < 288
    · exact atGap ⟨280, 8⟩ (by decide) ⟨Nat.not_lt.mp select, before⟩
    · exact atGap ⟨289, 223⟩ (by decide) ⟨show 289 ≤ index by omega, inside⟩

namespace Config
variable (config : Config)

theorem bit_filterBytes (block : FilterBlock) (inside : index < 1536) :
    (filterBytes block).bit index = block.layoutBit index := by
  have ordered := (filter_fits block.words).ordered
  by_cases low : index < 1440
  · exact Bytes.bit_layOut_of_array ordered filterField (List.Subset.refl _) (Nat.zero_le _) low
  · have padding := List.mem_singleton_self (⟨8 * 180, 8 * 12⟩ : Field)
    rw [← filter_free block.words] at padding
    have missing : block.words[index / 32]? = none := Vector.getElem?_eq_none_iff.mpr (by omega)
    rw [FilterBlock.layoutBit, missing]
    exact Bytes.bit_layOut_of_free ordered padding ⟨Nat.not_lt.mp low, inside⟩

theorem bit_columnMap (side : Side) (above : (mapField side).lo ≤ index)
    (below : index - (mapField side).lo < 64) :
    (Bytes.layOut 64 config.controlEntries).bit index =
      slotBit (config.columnMaps.get side).toBytes (index - (mapField side).lo) := by
  have listed : byteEntries (mapField side) (config.columnMaps.get side).toBytes ⊆
      config.controlEntries := by
    intro entry member
    cases side <;> simp_all [controlEntries, Sides.get]
  have bit := Bytes.bit_layOut_of_array config.control_ordered (mapField side) listed above
  cases side <;> exact bit below

theorem bit_shuffle (point : ShufflePoint) (above : (shuffleField point).lo ≤ index)
    (below : index - (shuffleField point).lo < 64) :
    (Bytes.layOut 64 config.controlEntries).bit index =
      slotBit (config.shuffle point).slots (index - (shuffleField point).lo) := by
  have listed : byteEntries (shuffleField point) (config.shuffle point).slots ⊆
      config.controlEntries := fun entry member =>
    List.mem_append_right _ (List.mem_flatMap.mpr ⟨point, ShufflePoint.mem_all point, member⟩)
  exact Bytes.bit_layOut_of_array config.control_ordered (shuffleField point) listed above below

theorem bit_control (inside : index < 56) :
    (Bytes.layOut 64 config.controlEntries).bit index = config.control.layoutBit index := by
  have ordered := config.control_ordered
  have listed {entry : Field × Nat} (member : entry ∈ config.control.entries) :
      entry ∈ config.controlEntries := by
    simp only [controlEntries, List.mem_append, member, true_or]
  have atGap (gap : Field) (member : gap ∈ gaps) (holds : gap.Holds index) :
      (Bytes.layOut 64 config.controlEntries).bit index = false :=
    Bytes.bit_layOut_of_free ordered (config.control_free ▸ member) holds
  have mode : (Control.modeField, config.control.mode.code.toNat) ∈ config.controlEntries :=
    listed (by simp [Control.entries])
  have hash : (Control.hashField, config.control.hashSize.toNat) ∈ config.controlEntries :=
    listed (by simp [Control.entries])
  unfold Control.layoutBit
  split_ifs with join aggregate dual below6 below8 below40
  · subst join
    exact Bytes.bit_layOut_of_flag ordered (listed (by simp [Control.entries, Control.joinField]))
  · subst aggregate
    exact Bytes.bit_layOut_of_flag ordered
      (listed (by simp [Control.entries, Control.aggregateField]))
  · subst dual
    exact Bytes.bit_layOut_of_flag ordered
      (listed (by simp [Control.entries, Control.dualKeyField]))
  · exact Bytes.bit_layOut_of_mem ordered mode ⟨show 3 ≤ index by omega, below6⟩
  · exact atGap ⟨6, 2⟩ (by decide) ⟨Nat.not_lt.mp below6, below8⟩
  · exact Bytes.bit_layOut_of_mem ordered hash ⟨Nat.not_lt.mp below8, below40⟩
  · exact atGap ⟨40, 16⟩ (by decide) ⟨Nat.not_lt.mp below40, inside⟩

theorem bit_controlWord (inside : index < 512) :
    (Bytes.layOut 64 config.controlEntries).bit index = config.controlBit index := by
  have mask : (maskField, config.writeMask.toNat) ∈ config.controlEntries := by
    simp [controlEntries]
  unfold controlBit
  split_ifs with below56 below120 below184 below192 below256 below320 below384 below448
  · exact config.bit_control below56
  · exact config.bit_columnMap .left (Nat.not_lt.mp below56) (show index - 56 < 64 by omega)
  · exact config.bit_columnMap .right (Nat.not_lt.mp below120) (show index - 120 < 64 by omega)
  · exact Bytes.bit_layOut_of_mem config.control_ordered mask
      ⟨Nat.not_lt.mp below184, below192⟩
  · exact config.bit_shuffle .leftScan (Nat.not_lt.mp below192) (show index - 192 < 64 by omega)
  · exact config.bit_shuffle .rightScan (Nat.not_lt.mp below256) (show index - 256 < 64 by omega)
  · exact config.bit_shuffle .joined (Nat.not_lt.mp below320) (show index - 320 < 64 by omega)
  · exact config.bit_shuffle .firstResult (Nat.not_lt.mp below384) (show index - 384 < 64 by omega)
  · exact config.bit_shuffle .secondResult (Nat.not_lt.mp below448) (show index - 448 < 64 by omega)

theorem bit_toBytes (inside : index < 4608) :
    config.toBytes.bit index = config.layoutBit index := by
  have control : 0 + 8 * (Bytes.layOut 64 config.controlEntries).length = 512 := by
    rw [Bytes.length_layOut config.control_ordered]
  have alu (start : Nat) (word : AluWord) : start + 8 * word.toBytes.length = start + 512 := by
    rw [AluWord.length_toBytes, AluWord.byteCount]
  have filter : 1536 + 8 * (filterBytes config.filters.left).length = 3072 := by
    rw [length_filterBytes]
  unfold layoutBit
  rw [toBytes, List.append_assoc, List.append_assoc, List.append_assoc]
  refine (Bytes.bit_append _ control (Nat.zero_le index)).trans ?_
  refine ite_congr rfl (fun word0 => config.bit_controlWord word0) fun behind => ?_
  refine (Bytes.bit_append _ (alu 512 config.alu) (Nat.not_lt.mp behind)).trans ?_
  refine ite_congr rfl (fun word1 => config.alu.bit_toBytes (by omega)) fun behind => ?_
  refine (Bytes.bit_append _ (alu 1024 config.secondAlu) (Nat.not_lt.mp behind)).trans ?_
  refine ite_congr rfl (fun word2 => config.secondAlu.bit_toBytes (by omega)) fun behind => ?_
  refine (Bytes.bit_append _ filter (Nat.not_lt.mp behind)).trans ?_
  exact ite_congr rfl (fun left => bit_filterBytes _ (by omega))
    fun behind => bit_filterBytes _ (by omega)

end Config

end Words

/-- Every bit of a record is the one that the layout has there, and there are 4608 bits. -/
theorem record_bit_exact (config : Config) (index : Nat) :
    config.toBytes.bit? index =
      if index < 4608 then some (config.layoutBit index) else none := by
  have length : config.toBytes.length = 576 := config.length_toBytes
  split_ifs with inside
  · rw [Bytes.bit?_eq (by omega), config.bit_toBytes inside]
  · have missing : config.toBytes[index / 8]? = none := List.getElem?_eq_none (by omega)
    rw [Bytes.bit?, missing]
    rfl

end JoinEngine
