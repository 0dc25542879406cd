import JoinEngine.Description
import JoinEngine.Proofs.Json.Codec
import JoinEngine.Proofs.Shape.Match

/-!
Descriptions are read back from the text they are written as: stages with whatever
columns, filters, expressions and shuffles, joins by column name, and options that
are valid and have a table that was built. So is a table alone, which is exported with
one field a line.
-/

namespace JoinEngine

open Json (Codec Restores Slot)

variable {Reason : Type}

section Filters

theorem Comparison.keeps (op : Comparison) : (codec : Codec Reason Comparison).Keeps op := by
  apply Codec.keeps_named
  cases op <;> rfl

theorem Connective.keeps (op : Connective) : (codec : Codec Reason Connective).Keeps op := by
  apply Codec.keeps_named
  cases op <;> rfl

theorem Condition.keeps (condition : Condition) :
    (codec : Codec Reason Condition).Keeps condition := by
  have restores : Restores condition (slots : List (Slot Reason Condition)) .pass condition :=
    .cons (Slot.restores_optional (Comparison.keeps _)) <|
    .cons (Slot.restores_optional (Comparison.keeps _)) <|
    .cons (Slot.restores_optional (Codec.keeps_int64 _)) <|
    .cons (Slot.restores_optional (Codec.keeps_int64 _)) <|
    .nil _
  exact Codec.keeps_record restores (by simp [slots])

theorem Combine.keeps (combine : Combine) : (codec : Codec Reason Combine).Keeps combine := by
  have restores : Restores combine (slots : List (Slot Reason Combine)) (.all .dontCare) combine :=
    .cons (Slot.restores_mandatory (Codec.keeps_vector fun op _ => op.keeps)) <|
    .nil _
  exact Codec.keeps_record restores (by simp [slots])

theorem Filter.keeps (filter : Filter) : (codec : Codec Reason Filter).Keeps filter := by
  have restores : Restores filter (slots : List (Slot Reason Filter)) .pass filter :=
    .cons (Slot.restores_optional (Codec.keeps_vector fun condition _ => condition.keeps)) <|
    .cons (Slot.restores_optional (Combine.keeps _)) <|
    .nil _
  exact Codec.keeps_record restores (by simp [slots])

end Filters

section Joins

theorem JoinMode.keeps (mode : JoinMode) : (codec : Codec Reason JoinMode).Keeps mode := by
  apply Codec.keeps_named
  cases mode <;> rfl

theorem ColumnRef.keeps (reference : ColumnRef) :
    (codec : Codec Reason ColumnRef).Keeps reference := by
  cases reference with
  | used column =>
      have kept : (Codec.byte : Codec Reason UInt8).Keeps column := Codec.keeps_byte column
      refine ⟨.fields (by simpa using kept.plain), ?_⟩
      exact congrArg (Except.map used) kept.decode
  | unused => exact ⟨.text _, rfl⟩
  | duplicateKey => exact ⟨.text _, rfl⟩

theorem SlotSet.place_last {slot : UInt8} {slots : List UInt8}
    (above : ∀ other ∈ slots, other < slot) :
    place slot slots = slots ++ [slot] := by
  induction slots with
  | nil => rfl
  | cons first rest ih =>
      have below : first < slot := above first List.mem_cons_self
      have notBefore : ¬ slot < first := UInt8.lt_asymm below
      have different : slot ≠ first := (UInt8.ne_of_lt below).symm
      rw [place, if_neg notBefore, if_neg different,
        ih fun other member => above other (List.mem_cons_of_mem _ member), List.cons_append]

theorem SlotSet.foldl_insert {front rest : List UInt8}
    (ascending : (front ++ rest).Pairwise (· < ·)) {set : SlotSet} (placed : set.slots = front) :
    (rest.foldl insert set).slots = front ++ rest := by
  induction rest generalizing front set with
  | nil => rw [List.append_nil, List.foldl_nil, placed]
  | cons slot rest ih =>
      have above : ∀ other ∈ front, other < slot := fun other member =>
        (List.pairwise_append.mp ascending).2.2 other member slot List.mem_cons_self
      have inserted : (set.insert slot).slots = front ++ [slot] := by
        change place slot set.slots = _
        rw [placed, place_last above]
      rw [List.foldl_cons, ih (by simpa using ascending) inserted]
      simp

theorem SlotSet.ofList_slots (set : SlotSet) : ofList set.slots = set := by
  have same : (ofList set.slots).slots = set.slots :=
    foldl_insert (List.nil_append set.slots ▸ set.ascending) rfl
  generalize ofList set.slots = again at same
  cases again
  cases set
  cases same
  rfl

theorem SlotSet.keeps (set : SlotSet) : (codec : Codec Reason SlotSet).Keeps set :=
  (Codec.keeps_items fun slot _ => Codec.keeps_byte slot).alter set.ofList_slots

theorem Join.keeps (join : Join) : (codec : Codec Reason Join).Keeps join := by
  have restores : Restores join (slots : List (Slot Reason Join)) (onKeys [] []) join :=
    .cons (Slot.restores_mandatory (Codec.keeps_items fun column _ => Codec.keeps_byte column)) <|
    .cons (Slot.restores_mandatory (Codec.keeps_items fun column _ => Codec.keeps_byte column)) <|
    .cons (Slot.restores_optional (Codec.keeps_items fun column _ => column.keeps)) <|
    .cons (Slot.restores_optional (Codec.keeps_items fun column _ => column.keeps)) <|
    .cons (Slot.restores_optional (JoinMode.keeps _)) <|
    .cons (Slot.restores_optional (Codec.keeps_bool _)) <|
    .cons (Slot.restores_optional (Codec.keeps_word _)) <|
    .cons (Slot.restores_optional (Codec.keeps_bool _)) <|
    .cons (Slot.restores_optional (SlotSet.keeps _)) <|
    .nil _
  exact Codec.keeps_record restores (by simp [slots])

theorem NamedJoin.keeps (join : NamedJoin) : (codec : Codec Reason NamedJoin).Keeps join := by
  have texts (names : List String) : (Codec.items .text : Codec Reason (List String)).Keeps names :=
    Codec.keeps_items fun name _ => Codec.keeps_text name
  have restores : Restores join (columnSlots ++ joinSlots : List (Slot Reason NamedJoin))
      (ofColumns [] []) join :=
    .cons (Slot.restores_mandatory (texts _)) <|
    .cons (Slot.restores_mandatory (texts _)) <|
    .cons (Slot.restores_optional (Codec.keeps_items fun _ _ =>
      Codec.keeps_pair (Codec.keeps_text _) (Codec.keeps_text _))) <|
    .cons (Slot.restores_optional (texts _)) <|
    .cons (Slot.restores_optional (texts _)) <|
    .cons (Slot.restores_optional (JoinMode.keeps _)) <|
    .cons (Slot.restores_optional (Codec.keeps_bool _)) <|
    .nil _
  exact Codec.keeps_record restores (by simp [columnSlots, joinSlots])

end Joins

section Stages

theorem Registers.put_get? (registers : Registers) :
    (((empty.put 1 (registers.get? 1)).put 2 (registers.get? 2)).put 3 (registers.get? 3)).put 4
      (registers.get? 4) = registers := by
  obtain ⟨values⟩ := registers
  apply congrArg Registers.mk
  apply Vector.ext
  intro register inside
  obtain rfl | rfl | rfl | rfl : register = 0 ∨ register = 1 ∨ register = 2 ∨ register = 3 := by
    omega
  all_goals simp [empty, put, get?]

theorem Registers.keeps (registers : Registers) :
    (codec : Codec Reason Registers).Keeps registers := by
  have numbers (value : Int64) : (Codec.int64 : Codec Reason Int64).Keeps value ∧
      (Codec.int64 : Codec Reason Int64).encode value ≠ .null :=
    ⟨Codec.keeps_int64 value, nofun⟩
  have restores : Restores registers (slots : List (Slot Reason Registers)) .empty _ :=
    .cons (Slot.restores_possible numbers rfl) <|
    .cons (Slot.restores_possible numbers rfl) <|
    .cons (Slot.restores_possible numbers rfl) <|
    .cons (Slot.restores_possible numbers rfl) <|
    .nil _
  -- A register that is left out was empty to begin with.
  rw [registers.put_get?] at restores
  exact Codec.keeps_record restores (by simp [slots])

theorem ExprSpec.keeps (spec : ExprSpec) : (codec : Codec Reason ExprSpec).Keeps spec := by
  have restores : Restores spec (slots : List (Slot Reason ExprSpec)) ⟨"", .empty⟩ spec :=
    .cons (Slot.restores_mandatory (Codec.keeps_text _)) <|
    .cons (Slot.restores_optional (Registers.keeps _)) <|
    .nil _
  exact Codec.keeps_record restores (by simp [slots])

theorem ExprSpec.keeps_option (spec : Option ExprSpec) :
    (codec.option : Codec Reason (Option ExprSpec)).Keeps spec := by
  cases spec with
  | none => exact Codec.keeps_none
  | some spec => exact spec.keeps.option nofun

theorem ShuffleTable.keeps (table : ShuffleTable) :
    (codec : Codec Reason ShuffleTable).Keeps table :=
  (Codec.keeps_vector fun slot _ => Codec.keeps_byte slot).alter rfl

theorem Stage.keeps (stage : Stage) : (codec : Codec Reason Stage).Keeps stage := by
  have restores : Restores stage (slots : List (Slot Reason Stage)) (ofJoin (.onKeys [] []))
      stage :=
    .cons (Slot.restores_mandatory (Join.keeps _)) <|
    .cons (Slot.restores_optional (Filter.keeps _)) <|
    .cons (Slot.restores_optional (Filter.keeps _)) <|
    .cons (Slot.restores_optional (ExprSpec.keeps_option _)) <|
    .cons (Slot.restores_optional (ExprSpec.keeps_option _)) <|
    .cons (Slot.restores_optional (Codec.keeps_vector fun table _ => table.keeps)) <|
    .nil _
  exact Codec.keeps_record restores (by simp [slots])

end Stages

section Options

theorem Shape.keeps (shape : Shape) : (codec : Codec Reason Shape).Keeps shape := by
  have restores : Restores shape (slots : List (Slot Reason Shape)) ⟨"", 0, ""⟩ shape :=
    .cons (Slot.restores_mandatory (Codec.keeps_text _)) <|
    .cons (Slot.restores_mandatory (Codec.keeps_byte _)) <|
    .cons (Slot.restores_mandatory (Codec.keeps_text _)) <|
    .nil _
  exact Codec.keeps_record restores (by simp [slots])

theorem Shape.keeps_items (shapes : List Shape) :
    (Codec.items codec : Codec Reason (List Shape)).Keeps shapes :=
  Codec.keeps_items fun shape _ => shape.keeps

/-- Reading checks the table again, and it was accepted before. -/
theorem ShapeTable.keeps {shapes : List Shape} {table : ShapeTable}
    (built : build shapes = .ok table) : codec.Keeps table := by
  apply (Shape.keeps_items _).refine
  rw [build_shapes built, built]

theorem ConstFormat.keeps (format : ConstFormat) :
    (codec : Codec Reason ConstFormat).Keeps format := by
  have restores : Restores format (slots : List (Slot Reason ConstFormat)) .default format :=
    .cons (Slot.restores_optional (Codec.keeps_word _)) <|
    .cons (Slot.restores_optional (Codec.keeps_word _)) <|
    .nil _
  exact Codec.keeps_record restores (by simp [slots])

theorem Options.keeps {shapes : List Shape} {options : Options}
    (built : ShapeTable.build shapes = .ok options.shapes) : codec.Keeps options := by
  have restores : Restores options slots .default options :=
    .cons (Slot.restores_optional (ConstFormat.keeps _)) <|
    .cons (Slot.restores_optional (ShapeTable.keeps built)) <|
    .cons (Slot.restores_optional (Codec.keeps_byte _)) <|
    .nil _
  exact Codec.keeps_record restores (by simp [slots])

end Options

/-- A description is read back from its text. Of options this can be said only if
reading accepts them: they are valid and their table passes its check. -/
theorem descriptions_read_back :
    (∀ stage : Stage, Stage.ofJson ((Stage.codec : Codec Empty Stage).write stage) = .ok stage) ∧
    (∀ join : NamedJoin, (NamedJoin.codec : Codec Empty NamedJoin).read
      ((NamedJoin.codec : Codec Empty NamedJoin).write join) = .ok join) ∧
    ∀ (options : Options) (shapes : List Shape), options.validate = .ok () →
      ShapeTable.build shapes = .ok options.shapes →
        Options.ofJson (Options.codec.write options) = .ok options := by
  refine ⟨fun stage => ?_, fun join => join.keeps.read_write, fun options shapes valid built => ?_⟩
  · rw [Stage.ofJson, stage.keeps.read_write]
  · rw [Options.ofJson, (Options.keeps built).read_write]
    simp only [valid]
    rfl

/-- A table of its own and a name with characters that are escaped. -/
theorem own_table_reads_back :
    let shapes : List Shape := [⟨"pa\"ss\n", 1, "a"⟩, ⟨"µ", 9, "k - a"⟩]
    let table : ShapeTable := ⟨[⟨⟨"pa\"ss\n", 1, "a"⟩, ⟨[([.stream 0], 1)]⟩⟩,
      ⟨⟨"µ", 9, "k - a"⟩, ⟨[([.stream 0], -1), ([.constant 0], 1)]⟩⟩]⟩
    let options : Options := ⟨⟨16, 4⟩, table, 6⟩
    options.validate = .ok () ∧ ShapeTable.build shapes = .ok options.shapes ∧
      Options.ofJson (Options.codec.write options) = .ok options := by
  intro shapes table options
  have valid : options.validate = .ok () := by decide
  have built : ShapeTable.build shapes = .ok options.shapes := by decide
  exact ⟨valid, built, descriptions_read_back.2.2 options shapes valid built⟩

/-- A table is read back from the text it is exported as, with the polynomials of its
patterns and in the order in which its shapes are tried. -/
theorem exported_table_reads_back (shapes : List Shape) (table : ShapeTable)
    (built : ShapeTable.build shapes = .ok table) :
    ShapeTable.ofJson table.toJson = .ok table := by
  have exported : table.toJson =
      ((Codec.items Shape.codec : Codec Empty (List Shape)).encode shapes).indented := by
    rw [← ShapeTable.build_shapes built]
    rfl
  rw [ShapeTable.ofJson, exported, (Shape.keeps_items shapes).read_indented]
  exact built

/-- Names with characters that are escaped and with one beyond sixteen bits. -/
theorem escaped_names_read_back :
    let shapes : List Shape := [⟨"\"\\\n\x01", 255, "a*(b-\tk)"⟩, ⟨"𝒳", 1, " c"⟩]
    let table : ShapeTable := ⟨[
      ⟨⟨"\"\\\n\x01", 255, "a*(b-\tk)"⟩,
        ⟨[([.stream 0, .stream 1], 1), ([.stream 0, .constant 0], -1)]⟩⟩,
      ⟨⟨"𝒳", 1, " c"⟩, ⟨[([.stream 2], 1)]⟩⟩]⟩
    ShapeTable.build shapes = .ok table ∧ ShapeTable.ofJson table.toJson = .ok table := by
  intro shapes table
  have built : ShapeTable.build shapes = .ok table := by decide
  exact ⟨built, exported_table_reads_back shapes table built⟩

end JoinEngine
