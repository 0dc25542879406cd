import JoinEngine.Json.Codec
import JoinEngine.Proofs.Json.Document
import JoinEngine.Proofs.Outcome

/-!
When a codec reads back what it writes. Each way to build a codec keeps a value if its
parts keep the parts of the value. A structure is read slot by slot: what a slot has
written puts its part into the record, and a slot that wrote nothing leaves the record
as it is.
-/

namespace JoinEngine.Json

variable {Reason α β Record : Type}

/-- What the codec writes of the value determines it. -/
structure Codec.Keeps (codec : Codec Reason α) (value : α) : Prop where
  plain : (codec.encode value).Plain
  decode : codec.decode (codec.encode value) = .ok value

namespace Codec

section Texts
variable {codec : Codec Reason α} {value : α} (keeps : codec.Keeps value)
include keeps

theorem Keeps.read_of_document {source : String}
    (whole : Document.read source = ⟨codec.encode value, true⟩) :
    codec.read source = .ok value := by
  simp only [read, whole, keeps.decode]
  rfl

theorem Keeps.read_write : codec.read (codec.write value) = .ok value :=
  keeps.read_of_document keeps.plain.read_compact

theorem Keeps.read_indented : codec.read (codec.encode value).indented = .ok value :=
  keeps.read_of_document keeps.plain.read_indented

end Texts

theorem keeps_bool (value : Bool) : (bool : Codec Reason Bool).Keeps value := ⟨.bool value, rfl⟩

theorem keeps_text (value : String) : (text : Codec Reason String).Keeps value :=
  ⟨.text value, rfl⟩

theorem keeps_range {least greatest value : Int} (inside : least ≤ value ∧ value ≤ greatest) :
    (range least greatest : Codec Reason Int).Keeps value :=
  ⟨.int value, if_pos inside⟩

section Parts
variable {codec : Codec Reason α}

theorem Keeps.alter {pack : α → β} {unpack : β → α} {value : β}
    (keeps : codec.Keeps (unpack value)) (packed : pack (unpack value) = value) :
    (codec.alter pack unpack).Keeps value where
  plain := keeps.plain
  decode := by
    change (codec.decode (codec.encode (unpack value))).map pack = _
    rw [keeps.decode, Except.map, packed]

theorem Keeps.refine {check : α → Except Reason β} {unpack : β → α} {value : β}
    (keeps : codec.Keeps (unpack value)) (checked : check (unpack value) = .ok value) :
    (codec.refine check unpack).Keeps value where
  plain := keeps.plain
  decode := by
    change (codec.decode (codec.encode (unpack value))).bind
      (fun read => (check read).mapError Fault.refused) = _
    rw [keeps.decode, Except.bind, checked]
    rfl

theorem keeps_items {values : List α} (each : ∀ value ∈ values, codec.Keeps value) :
    codec.items.Keeps values where
  plain := by
    apply Plain.array
    intro item member
    obtain ⟨value, listed, rfl⟩ := List.mem_map.mp member
    exact (each value listed).plain
  decode := by
    change (values.map codec.encode).mapM codec.decode = _
    induction values with
    | nil => rfl
    | cons value rest ih =>
        have later := ih fun value member => each value (List.mem_cons_of_mem _ member)
        rw [List.map_cons, List.mapM_cons, (each value List.mem_cons_self).decode, later]
        rfl

theorem keeps_vector {count : Nat} {values : Vector α count}
    (each : ∀ value ∈ values.toList, codec.Keeps value) :
    (codec.vector count).Keeps values where
  plain := (keeps_items each).plain
  decode := by
    change ((codec.items.decode (codec.items.encode values.toList)).bind _) = _
    rw [(keeps_items each).decode, Except.bind, dif_pos values.length_toList]
    congr 1

theorem keeps_pair {second : Codec Reason β} {value : α × β} (first : codec.Keeps value.1)
    (other : second.Keeps value.2) : (codec.pair second).Keeps value where
  plain := .array (by simp [first.plain, other.plain])
  decode := by
    simp only [pair, first.decode, other.decode]
    rfl

theorem keeps_none : codec.option.Keeps none := ⟨.null, rfl⟩

theorem Keeps.option {value : α} (keeps : codec.Keeps value)
    (present : codec.encode value ≠ .null) :
    codec.option.Keeps (some value) where
  plain := keeps.plain
  decode := by
    have decoded : codec.option.decode (codec.encode value) =
        (codec.decode (codec.encode value)).map some := by
      simp only [Codec.option]
    change codec.option.decode (codec.encode value) = _
    rw [decoded, keeps.decode]
    rfl

end Parts

theorem keeps_named {values : List α} {name : α → String} {value : α}
    (found : values.find? (name · = name value) = some value) :
    (named values name : Codec Reason α).Keeps value where
  plain := .text _
  decode := by
    change byName values name (name value) = _
    rw [byName, found]

theorem keeps_byte (value : UInt8) : (byte : Codec Reason UInt8).Keeps value := by
  have below := value.toNat_lt
  unfold byte
  apply Keeps.alter
  · exact keeps_range ⟨by omega, by omega⟩
  · apply UInt8.toNat_inj.mp
    simp only [UInt8.ofInt, UInt8.toNat_ofNat']
    omega

theorem keeps_word (value : UInt32) : (word : Codec Reason UInt32).Keeps value := by
  have below := value.toNat_lt
  unfold word
  apply Keeps.alter
  · exact keeps_range ⟨by omega, by omega⟩
  · apply UInt32.toNat_inj.mp
    simp only [UInt32.ofInt, UInt32.toNat_ofNat']
    omega

theorem keeps_int64 (value : Int64) : (int64 : Codec Reason Int64).Keeps value := by
  unfold int64
  apply Keeps.alter
  · exact keeps_range ⟨value.le_toInt, Int.le_of_lt_add_one value.toInt_lt⟩
  · simp

end Codec

/-- What the slot writes of the value takes the record from `before` to `after`. -/
inductive Slot.Restores (slot : Slot Reason Record) (value before after : Record) : Prop where
  | written (field : Json) (written : slot.write value = some field) (plain : field.Plain)
      (read : slot.read field before = .ok after)
  | absent (absent : slot.write value = none) (free : slot.required = false)
      (same : before = after)

namespace Slot
variable {codec : Codec Reason α} {value before : Record} {key : String}

theorem restores_optional {get : Record → α} {set : Record → α → Record}
    (keeps : codec.Keeps (get value)) :
    (optional key codec get set).Restores value before (set before (get value)) := by
  refine .written _ rfl keeps.plain ?_
  simp only [optional, keeps.decode]
  rfl

theorem restores_mandatory {get : Record → α} {set : Record → α → Record}
    (keeps : codec.Keeps (get value)) :
    (mandatory key codec get set).Restores value before (set before (get value)) := by
  refine .written _ rfl keeps.plain ?_
  simp only [mandatory, optional, keeps.decode]
  rfl

/-- Leaving a field out says that it holds nothing, if it does so to begin with. -/
theorem restores_possible {get : Record → Option α} {set : Record → Option α → Record}
    (keeps : ∀ held, codec.Keeps held ∧ codec.encode held ≠ .null)
    (unset : set before none = before) :
    (possible key codec get set).Restores value before (set before (get value)) := by
  cases held : get value with
  | none =>
      refine .absent ?_ rfl unset.symm
      simp only [possible, held, Option.map_none]
  | some inner =>
      obtain ⟨kept, present⟩ := keeps inner
      refine .written (codec.encode inner) ?_ kept.plain ?_
      · simp only [possible, held, Option.map_some]
      · have decoded : codec.option.decode (codec.encode inner) = .ok (some inner) :=
          (kept.option present).decode
        simp only [possible, optional, decoded]
        rfl

end Slot

inductive Restores (value : Record) : List (Slot Reason Record) → Record → Record → Prop where
  | nil (record : Record) : Restores value [] record record
  | cons {slot : Slot Reason Record} {slots : List (Slot Reason Record)}
      {before between after : Record} (first : slot.Restores value before between)
      (others : Restores value slots between after) : Restores value (slot :: slots) before after

def entries (slots : List (Slot Reason Record)) (value : Record) : List (String × Json) :=
  slots.filterMap fun slot => (slot.write value).map fun field => (slot.key, field)

theorem Restores.plain {slots : List (Slot Reason Record)} {value before after : Record}
    (restores : Restores value slots before after) :
    ∀ entry ∈ entries slots value, entry.2.Plain := by
  induction restores with
  | nil => simp [entries]
  | cons first _ ih =>
      cases first with
      | written field written plain read =>
          simp only [entries, List.filterMap_cons, written, Option.map_some]
          exact List.forall_mem_cons.mpr ⟨plain, ih⟩
      | absent absent =>
          simp only [entries, List.filterMap_cons, absent, Option.map_none]
          exact ih

/-- The keys that came while the fields of these slots were read: keys of theirs, and
all that have to be there. -/
structure Seen (slots : List (Slot Reason Record)) (keys : List String) : Prop where
  known : ∀ key ∈ keys, key ∈ slots.map Slot.key
  complete : ∀ slot ∈ slots, slot.required = true → slot.key ∈ keys

namespace Seen
variable {slots : List (Slot Reason Record)} {slot : Slot Reason Record} {keys : List String}

theorem empty : Seen ([] : List (Slot Reason Record)) [] := ⟨by simp, by simp⟩

theorem written (seen : Seen slots keys) : Seen (slots ++ [slot]) (slot.key :: keys) where
  known key member := by
    rw [List.map_append]
    rcases List.mem_cons.mp member with same | before
    · exact List.mem_append_right _ (List.mem_singleton.mpr same)
    · exact List.mem_append_left _ (seen.known key before)
  complete other member required := by
    rcases List.mem_append.mp member with before | last
    · exact List.mem_cons_of_mem _ (seen.complete other before required)
    · cases List.mem_singleton.mp last
      exact List.mem_cons_self

theorem absent (seen : Seen slots keys) (free : slot.required = false) :
    Seen (slots ++ [slot]) keys where
  known key member := by
    rw [List.map_append]
    exact List.mem_append_left _ (seen.known key member)
  complete other member required := by
    rcases List.mem_append.mp member with before | last
    · exact seen.complete other before required
    · cases List.mem_singleton.mp last
      rw [free] at required
      cases required

end Seen

section Fields
variable {slots earlier later : List (Slot Reason Record)} {slot : Slot Reason Record}
  (distinct : (slots.map Slot.key).Nodup)
include distinct

theorem key_not_earlier (listed : slots = earlier ++ slot :: later) :
    slot.key ∉ earlier.map Slot.key := by
  rw [listed, List.map_append, List.map_cons] at distinct
  intro member
  exact (List.nodup_append.mp distinct).2.2 _ member _ List.mem_cons_self rfl

theorem find?_key (listed : slots = earlier ++ slot :: later) :
    slots.find? (·.key = slot.key) = some slot := by
  have passed : earlier.find? (·.key = slot.key) = none := by
    rw [List.find?_eq_none]
    intro other member same
    have equal : other.key = slot.key := by simpa using same
    exact key_not_earlier distinct listed (equal ▸ List.mem_map_of_mem member)
  rw [listed, List.find?_append, passed]
  simp

/-- Reading the rest of an object behind the fields of the slots that come first. -/
theorem Restores.readFields {value before after : Record}
    (restores : Restores value later before after) (listed : slots = earlier ++ later)
    {keys : List String} (seen : Seen earlier keys) :
    Json.readFields slots ((entries later value).map fun entry => (some entry.1, entry.2)) keys
      before = .ok after := by
  -- On the slots that are still to come; those that are done move to `earlier`.
  induction restores generalizing earlier keys with
  | nil record =>
      rw [List.append_nil] at listed
      subst listed
      have all : (slots.all fun slot => !slot.required || keys.contains slot.key) = true := by
        rw [List.all_eq_true]
        intro slot member
        cases required : slot.required with
        | false => rfl
        | true => simpa using seen.complete slot member required
      exact if_pos all
  | @cons slot others before between after first _ ih =>
      have following : slots = (earlier ++ [slot]) ++ others := by simp [listed]
      cases first with
      | written field written plain read =>
          have fresh : keys.contains slot.key = false := by
            rw [Bool.eq_false_iff, Ne, List.contains_iff_mem]
            exact fun member => key_not_earlier distinct listed (seen.known _ member)
          simp only [entries, List.filterMap_cons, written, Option.map_some, List.map_cons,
            Json.readFields, find?_key distinct listed, fresh, read]
          exact ih following seen.written
      | absent absent free same =>
          subst same
          simp only [entries, List.filterMap_cons, absent, Option.map_none]
          exact ih following (seen.absent free)

end Fields

theorem Codec.keeps_record {slots : List (Slot Reason Record)} {value initial : Record}
    (restores : Restores value slots initial value) (distinct : (slots.map Slot.key).Nodup) :
    (Codec.record slots initial).Keeps value where
  plain := .fields restores.plain
  decode := restores.readFields distinct (List.nil_append slots).symm .empty

end JoinEngine.Json
