import JoinEngine.Proofs.Bits.Field

/-!
Layouts. Fields in ascending order do not overlap, and between them they leave
gaps; every bit is in a field or in a gap. A string that is laid out from such
fields holds their numbers and zeros in the gaps, and no other string does.
-/

namespace JoinEngine

namespace Field

/-- The fields stand one behind the other in the bits from `start` to `stop`. -/
def ascend (stop : Nat) : Nat → List Field → Bool
  | start, [] => start ≤ stop
  | start, field :: rest => start ≤ field.lo && ascend stop field.hi rest

def free (stop : Nat) : Nat → List Field → List Field
  | start, [] => if start < stop then [⟨start, stop - start⟩] else []
  | start, field :: rest =>
      (if start < field.lo then [⟨start, field.lo - start⟩] else []) ++ free stop field.hi rest

theorem lo_le_hi (field : Field) : field.lo ≤ field.hi := Nat.le_add_right _ _

section Ascend
variable {start stop : Nat} {fields : List Field}

theorem ascend_cons {field : Field} :
    ascend stop start (field :: fields) = true ↔
      start ≤ field.lo ∧ ascend stop field.hi fields = true := by
  simp [ascend]

theorem ascend_bounds (ordered : ascend stop start fields) :
    start ≤ stop ∧ ∀ field ∈ fields, start ≤ field.lo ∧ field.hi ≤ stop := by
  induction fields generalizing start with
  | nil => simpa [ascend] using ordered
  | cons field rest ih =>
      obtain ⟨behind, later⟩ := ascend_cons.mp ordered
      obtain ⟨room, bounds⟩ := ih later
      have extent := lo_le_hi field
      refine ⟨by omega, fun other member => ?_⟩
      rcases List.mem_cons.mp member with rfl | inRest
      · exact ⟨behind, room⟩
      · have limits := bounds other inRest
        exact ⟨by omega, limits.2⟩

/-- No bit is in two of the fields. -/
theorem ascend_apart (ordered : ascend stop start fields) :
    fields.Pairwise fun field other => ∀ index, other.Holds index → ¬ field.Holds index := by
  induction fields generalizing start with
  | nil => exact .nil
  | cons field rest ih =>
      obtain ⟨_, later⟩ := ascend_cons.mp ordered
      refine List.pairwise_cons.mpr ⟨fun other member index holds also => ?_, ih later⟩
      have behind := ((ascend_bounds later).2 other member).1
      exact absurd also.2 (by have := holds.1; omega)

theorem mem_free_cons {field gap : Field} :
    gap ∈ free stop start (field :: fields) ↔
      (start < field.lo ∧ gap = ⟨start, field.lo - start⟩) ∨ gap ∈ free stop field.hi fields := by
  by_cases before : start < field.lo <;> simp [free, before]

theorem free_bounds (ordered : ascend stop start fields) {gap : Field}
    (member : gap ∈ free stop start fields) : start ≤ gap.lo ∧ gap.hi ≤ stop := by
  induction fields generalizing start with
  | nil =>
      simp only [free] at member
      split at member
      · obtain rfl := List.mem_singleton.mp member
        simp only [hi]
        omega
      · cases member
  | cons field rest ih =>
      obtain ⟨behind, later⟩ := ascend_cons.mp ordered
      have room := (ascend_bounds later).1
      have extent := lo_le_hi field
      rcases mem_free_cons.mp member with ⟨before, rfl⟩ | after
      · simp only [hi] at *
        omega
      · have limits := ih later after
        exact ⟨by omega, limits.2⟩

theorem free_apart (ordered : ascend stop start fields) {gap : Field}
    (member : gap ∈ free stop start fields) {index : Nat} (holds : gap.Holds index) :
    ∀ field ∈ fields, ¬ field.Holds index := by
  induction fields generalizing start with
  | nil => simp
  | cons field rest ih =>
      obtain ⟨_, later⟩ := ascend_cons.mp ordered
      have bounds := (ascend_bounds later).2
      have extent := lo_le_hi field
      intro other inFields also
      rcases mem_free_cons.mp member with ⟨before, rfl⟩ | after
      · -- The gap ends where the first field begins, and all others stand behind that.
        have limit : index < field.lo := by
          have := holds.2
          simp only [hi] at this
          omega
        rcases List.mem_cons.mp inFields with rfl | inRest
        · exact absurd also.1 (by omega)
        · have := (bounds other inRest).1
          exact absurd also.1 (by omega)
      · rcases List.mem_cons.mp inFields with rfl | inRest
        · have := (free_bounds later after).1
          exact absurd also.2 (by have := holds.1; omega)
        · exact ih later after other inRest also

theorem field_or_free {index : Nat} (above : start ≤ index) (below : index < stop) :
    (∃ field ∈ fields, field.Holds index) ∨ ∃ gap ∈ free stop start fields, gap.Holds index := by
  induction fields generalizing start with
  | nil =>
      refine .inr ⟨⟨start, stop - start⟩, ?_, above, ?_⟩
      · simp [free, Nat.lt_of_le_of_lt above below]
      · simp only [hi]
        omega
  | cons field rest ih =>
      by_cases before : index < field.lo
      · refine .inr ⟨⟨start, field.lo - start⟩, mem_free_cons.mpr (.inl ⟨by omega, rfl⟩), above, ?_⟩
        simp only [hi]
        omega
      · by_cases within : index < field.hi
        · exact .inl ⟨field, List.mem_cons_self, by omega, within⟩
        · have behind : field.hi ≤ index := by omega
          rcases ih behind with ⟨other, member, holds⟩ | ⟨gap, member, holds⟩
          · exact .inl ⟨other, List.mem_cons_of_mem _ member, holds⟩
          · exact .inr ⟨gap, mem_free_cons.mpr (.inr member), holds⟩

end Ascend

def arrayEntries {Value : Type} {count : Nat} (field : Field) (number : Value → Nat)
    (values : Vector Value count) : List (Field × Nat) :=
  values.toList.zipIdx.map fun (value, index) => (field.element index, number value)

section Array
variable {Value : Type} {count : Nat} {field : Field} {number : Value → Nat}
  {values : Vector Value count}

theorem mem_arrayEntries {entry : Field × Nat} :
    entry ∈ arrayEntries field number values ↔
      ∃ index : Fin count, entry = (field.element index, number values[index]) := by
  simp only [arrayEntries, List.mem_map, List.mem_zipIdx_iff_getElem?, Prod.exists]
  constructor
  · rintro ⟨value, index, found, rfl⟩
    obtain ⟨inside, rfl⟩ := List.getElem?_eq_some_iff.mp found
    exact ⟨⟨index, by simpa using inside⟩, by simp⟩
  · rintro ⟨index, rfl⟩
    exact ⟨values[index], index, by simp, rfl⟩

theorem arrayEntries_fields :
    (arrayEntries field number values).map Prod.fst = (List.range count).map field.element := by
  have indices : values.toList.zipIdx.map Prod.snd = List.range count := by
    rw [List.zipIdx_map_snd, List.range_eq_range']
    simp
  rw [← indices, arrayEntries, List.map_map, List.map_map]
  rfl

end Array

end Field

namespace Bytes

def putAll (entries : List (Field × Nat)) (bytes : Bytes) : Bytes :=
  entries.foldl (fun bytes entry => entry.1.put entry.2 bytes) bytes

section PutAll
variable {entries : List (Field × Nat)} {bytes : Bytes}

theorem length_putAll (inside : ∀ entry ∈ entries, entry.1.hi ≤ 8 * bytes.length) :
    (putAll entries bytes).length = bytes.length := by
  induction entries generalizing bytes with
  | nil => rfl
  | cons entry rest ih =>
      obtain ⟨first, others⟩ := List.forall_mem_cons.mp inside
      have kept := Field.length_put entry.2 first
      exact (ih (by rw [kept]; exact others)).trans kept

theorem bit_putAll_of_not_holds (inside : ∀ entry ∈ entries, entry.1.hi ≤ 8 * bytes.length)
    {index : Nat} (outside : ∀ entry ∈ entries, ¬ entry.1.Holds index) :
    (putAll entries bytes).bit index = bytes.bit index := by
  induction entries generalizing bytes with
  | nil => rfl
  | cons entry rest ih =>
      obtain ⟨first, others⟩ := List.forall_mem_cons.mp inside
      obtain ⟨notFirst, notOthers⟩ := List.forall_mem_cons.mp outside
      have kept := Field.length_put entry.2 first
      exact (ih (by rw [kept]; exact others) notOthers).trans
        (Field.bit_put_of_not_holds entry.2 first notFirst)

theorem bit_putAll_of_mem (inside : ∀ entry ∈ entries, entry.1.hi ≤ 8 * bytes.length)
    (apart : (entries.map Prod.fst).Pairwise fun field other =>
      ∀ index, other.Holds index → ¬ field.Holds index)
    {entry : Field × Nat} (member : entry ∈ entries) {index : Nat} (holds : entry.1.Holds index) :
    (putAll entries bytes).bit index = entry.2.testBit (index - entry.1.lo) := by
  induction entries generalizing bytes with
  | nil => cases member
  | cons head rest ih =>
      obtain ⟨first, others⟩ := List.forall_mem_cons.mp inside
      obtain ⟨fromHead, restApart⟩ := List.pairwise_cons.mp apart
      have kept := Field.length_put head.2 first
      have room : ∀ other ∈ rest, other.1.hi ≤ 8 * (head.1.put head.2 bytes).length := by
        rw [kept]
        exact others
      rcases List.mem_cons.mp member with rfl | later
      · -- What is written later lies elsewhere.
        have untouched : ∀ other ∈ rest, ¬ other.1.Holds index := fun other inRest also =>
          fromHead other.1 (List.mem_map_of_mem inRest) index also holds
        exact (bit_putAll_of_not_holds room untouched).trans
          (Field.bit_put_of_holds entry.2 first holds)
      · exact ih room restApart later

end PutAll

section LayOut
variable {length : Nat} {entries : List (Field × Nat)}

/-- The entries fit the layout: their fields ascend and their numbers have room. -/
structure Fits (length : Nat) (entries : List (Field × Nat)) : Prop where
  ordered : Field.ascend (8 * length) 0 (entries.map Prod.fst)
  small : ∀ entry ∈ entries, entry.2 < 2 ^ entry.1.width

theorem inside_of_ascend (ordered : Field.ascend (8 * length) 0 (entries.map Prod.fst)) :
    ∀ entry ∈ entries, entry.1.hi ≤ 8 * (List.replicate length (0 : UInt8)).length := by
  intro entry member
  simpa using ((Field.ascend_bounds ordered).2 entry.1 (List.mem_map_of_mem member)).2

theorem length_layOut (ordered : Field.ascend (8 * length) 0 (entries.map Prod.fst)) :
    (layOut length entries).length = length :=
  (length_putAll (inside_of_ascend ordered)).trans (by simp)

/-- A bit of a field is the bit of the number that is written there. -/
theorem bit_layOut_of_mem (ordered : Field.ascend (8 * length) 0 (entries.map Prod.fst))
    {entry : Field × Nat} (member : entry ∈ entries) {index : Nat} (holds : entry.1.Holds index) :
    (layOut length entries).bit index = entry.2.testBit (index - entry.1.lo) :=
  bit_putAll_of_mem (inside_of_ascend ordered) (Field.ascend_apart ordered) member holds

theorem bit_layOut_of_free (ordered : Field.ascend (8 * length) 0 (entries.map Prod.fst))
    {gap : Field} (member : gap ∈ Field.free (8 * length) 0 (entries.map Prod.fst)) {index : Nat}
    (holds : gap.Holds index) : (layOut length entries).bit index = false := by
  have outside : ∀ entry ∈ entries, ¬ entry.1.Holds index := fun entry inEntries =>
    Field.free_apart ordered member holds entry.1 (List.mem_map_of_mem inEntries)
  exact (bit_putAll_of_not_holds (inside_of_ascend ordered) outside).trans
    (bit_replicate_zero length index)

/-- A field of one bit holds a flag. -/
theorem bit_layOut_of_flag (ordered : Field.ascend (8 * length) 0 (entries.map Prod.fst))
    {lo : Nat} {on : Bool} (member : (⟨lo, 1⟩, on.toNat) ∈ entries) :
    (layOut length entries).bit lo = on := by
  rw [bit_layOut_of_mem ordered member ⟨Nat.le_refl lo, Nat.lt_add_one lo⟩, Nat.sub_self]
  cases on <;> simp

/-- In an array the quotient by the width is the element, and the remainder the bit. -/
theorem bit_layOut_of_array (ordered : Field.ascend (8 * length) 0 (entries.map Prod.fst))
    {Value : Type} {count : Nat} (field : Field) {number : Value → Nat}
    {values : Vector Value count} (listed : field.arrayEntries number values ⊆ entries)
    {index : Nat} (above : field.lo ≤ index) (below : index - field.lo < field.width * count) :
    (layOut length entries).bit index =
      values[(index - field.lo) / field.width]?.any fun value =>
        (number value).testBit ((index - field.lo) % field.width) := by
  generalize place : (index - field.lo) / field.width = element
  generalize rest : (index - field.lo) % field.width = offset
  have wide : 0 < field.width := Nat.pos_of_lt_mul_right below
  have inside : element < count := place ▸ Nat.div_lt_of_lt_mul below
  have short : offset < field.width := rest ▸ Nat.mod_lt _ wide
  have split : element * field.width + offset = index - field.lo := by
    rw [← place, ← rest]
    exact Nat.div_add_mod' _ _
  have member := listed (Field.mem_arrayEntries.mpr ⟨⟨element, inside⟩, rfl⟩)
  have holds : (field.element element).Holds index := by
    simp only [Field.Holds, Field.hi, Field.element]
    omega
  have behind : index - (field.element element).lo = offset := by
    simp only [Field.element]
    omega
  rw [bit_layOut_of_mem ordered member holds, behind]
  simp [inside]

def Stores (bytes : Bytes) (entries : List (Field × Nat)) : Prop :=
  ∀ entry ∈ entries, entry.1.get bytes = entry.2

@[simp] theorem stores_nil (bytes : Bytes) : bytes.Stores [] := by simp [Stores]

@[simp] theorem stores_cons {bytes : Bytes} {field : Field} {value : Nat} :
    bytes.Stores ((field, value) :: entries) ↔ field.get bytes = value ∧ bytes.Stores entries := by
  simp [Stores]

@[simp] theorem stores_append {bytes : Bytes} {others : List (Field × Nat)} :
    bytes.Stores (entries ++ others) ↔ bytes.Stores entries ∧ bytes.Stores others :=
  List.forall_mem_append

theorem layOut_stores (fits : Fits length entries) : (layOut length entries).Stores entries := by
  intro entry member
  have room : entry.1.hi ≤ 8 * (layOut length entries).length := by
    simpa [length_layOut fits.ordered] using inside_of_ascend fits.ordered entry member
  exact Field.get_eq room (fits.small entry member) fun index holds =>
    bit_layOut_of_mem fits.ordered member holds

theorem get_layOut_free (ordered : Field.ascend (8 * length) 0 (entries.map Prod.fst))
    {gap : Field} (member : gap ∈ Field.free (8 * length) 0 (entries.map Prod.fst)) :
    gap.get (layOut length entries) = 0 := by
  have room : gap.hi ≤ 8 * (layOut length entries).length := by
    simpa [length_layOut ordered] using (Field.free_bounds ordered member).2
  exact (Field.get_eq_zero_iff room).mpr fun index holds => bit_layOut_of_free ordered member holds

theorem eq_layOut (ordered : Field.ascend (8 * length) 0 (entries.map Prod.fst)) {bytes : Bytes}
    (long : bytes.length = length) (stores : bytes.Stores entries)
    (clear : ∀ gap ∈ Field.free (8 * length) 0 (entries.map Prod.fst), gap.get bytes = 0) :
    bytes = layOut length entries := by
  refine ext_bit (by rw [length_layOut ordered, long]) fun index below => ?_
  rw [long] at below
  rcases Field.field_or_free (Nat.zero_le index) below with
    ⟨field, member, holds⟩ | ⟨gap, member, holds⟩
  · obtain ⟨entry, inEntries, rfl⟩ := List.mem_map.mp member
    have room := inside_of_ascend ordered entry inEntries
    rw [List.length_replicate, ← long] at room
    rw [bit_layOut_of_mem ordered inEntries holds, ← stores entry inEntries,
      Field.testBit_get room holds]
  · have given : gap.hi ≤ 8 * bytes.length := by
      simpa [long] using (Field.free_bounds ordered member).2
    rw [bit_layOut_of_free ordered member holds,
      (Field.get_eq_zero_iff given).mp (clear gap member) index holds]

/-- The only string with the given numbers in the fields and zeros in the gaps. -/
theorem eq_layOut_iff (fits : Fits length entries) {bytes : Bytes} :
    bytes = layOut length entries ↔ bytes.length = length ∧ bytes.Stores entries ∧
      ∀ gap ∈ Field.free (8 * length) 0 (entries.map Prod.fst), gap.get bytes = 0 := by
  constructor
  · rintro rfl
    exact ⟨length_layOut fits.ordered, layOut_stores fits,
      fun gap member => get_layOut_free fits.ordered member⟩
  · rintro ⟨long, stores, clear⟩
    exact eq_layOut fits.ordered long stores clear

theorem ofNat_eq_iff {value : Nat} (small : value < UInt8.size) {byte : UInt8} :
    UInt8.ofNat value = byte ↔ value = byte.toNat := by
  rw [← UInt8.toNat_inj, UInt8.toNat_ofNat_of_lt' small]

theorem flag_eq_iff {value : Nat} (small : value < 2) {on : Bool} :
    decide (value = 1) = on ↔ value = on.toNat := by
  cases on with
  | false =>
      simp
      omega
  | true => simp

/-- An array is read element by element. -/
theorem ofFn_get_eq_iff {Value : Type} {count : Nat} {field : Field} {number : Value → Nat}
    {ofNumber : Nat → Value} {bytes : Bytes} {values : Vector Value count}
    (inverse : ∀ value, ofNumber (number value) = value)
    (kept : ∀ index < count, number (ofNumber ((field.element index).get bytes)) =
      (field.element index).get bytes) :
    Vector.ofFn (fun index : Fin count => ofNumber ((field.element index).get bytes)) = values ↔
      bytes.Stores (field.arrayEntries number values) := by
  constructor
  · rintro rfl entry member
    obtain ⟨index, rfl⟩ := Field.mem_arrayEntries.mp member
    simpa using (kept index index.isLt).symm
  · intro stores
    refine Vector.ext fun index inside => ?_
    have held := stores _ (Field.mem_arrayEntries.mpr ⟨⟨index, inside⟩, rfl⟩)
    rw [Vector.getElem_ofFn, held, inverse]
    rfl

end LayOut

end Bytes

end JoinEngine
