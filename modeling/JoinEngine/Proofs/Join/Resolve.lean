import JoinEngine.Join
import JoinEngine.Proofs.Outcome
import Mathlib.Data.List.Basic

/-!
Names that cannot be resolved. Resolving a join fails because of an unknown name only,
and the name it reports is missing from the relation it reports, with one exception: if
one name of a key pair is unknown to both relations and the other, written second, is
known to both, the report blames the known one.
-/

namespace JoinEngine

theorem Side.forall_iff {property : Side → Prop} :
    (∀ side, property side) ↔ property .left ∧ property .right := by
  constructor
  · intro all
    exact ⟨all .left, all .right⟩
  · rintro ⟨left, right⟩ (_ | _)
    · exact left
    · exact right

namespace NamedJoin

def Known (join : NamedJoin) (side : Side) (name : String) : Prop :=
  name ∈ (join.columns.get side).take 256

def Resolvable (join : NamedJoin) (pair : String × String) : Prop :=
  (join.Known .left pair.1 ∧ join.Known .right pair.2) ∨
    (join.Known .left pair.2 ∧ join.Known .right pair.1)

/-- The first key pair that cannot be resolved has a name that no relation knows and,
behind it, one that both know. -/
structure Misjudged (join : NamedJoin) (unknown shared : String) : Prop where
  first : ∃ before after, join.keys = before ++ (unknown, shared) :: after ∧
    ∀ pair ∈ before, join.Resolvable pair
  unknown : ∀ side, ¬ join.Known side unknown
  shared : ∀ side, join.Known side shared

variable {join : NamedJoin} {side : Side} {name : String} {fault : CompileError}

/-- The first column with a name is looked up, so a name of a numbered column has one. -/
theorem has_iff : join.has side name ↔ join.Known side name := by
  unfold has index? Known
  rw [List.mem_take_iff_getElem]
  cases found : (join.columns.get side).idxOf? name with
  | none =>
      have absent := List.idxOf?_eq_none_iff.mp found
      simp only [Option.isSome_none, Bool.false_eq_true, false_iff]
      rintro ⟨index, inside, same⟩
      exact absent (same ▸ List.getElem_mem _)
  | some index =>
      rcases List.idxOf?_eq_some_iff.mp found with ⟨inside, same, earlier⟩
      by_cases numbered : index < 256
      · simp only [numbered, if_true, Option.isSome_some, true_iff]
        exact ⟨index, by omega, same⟩
      · simp only [numbered, if_false, Option.isSome_none, Bool.false_eq_true, false_iff]
        rintro ⟨other, below, also⟩
        exact earlier other (by omega) also

theorem index_eq_error :
    join.index side name = .error fault ↔
      ¬ join.Known side name ∧ fault = .unknownColumn side name := by
  rw [← has_iff, index, has]
  cases join.index? side name <;> simp [eq_comm]

theorem columnRef_eq_error {keys : List String}
    (failed : join.columnRef side keys name = .error fault) :
    ¬ join.Known side name ∧ fault = .unknownColumn side name := by
  unfold columnRef at failed
  split at failed
  · cases failed
  · split at failed
    · cases failed
    · exact index_eq_error.mp (Except.map_eq_error.mp failed)

section Orient
variable {first second : String}

theorem orient_isOk :
    (∃ names, join.orient (first, second) = .ok names) ↔ join.Resolvable (first, second) := by
  simp only [orient, Resolvable, ← has_iff, Bool.and_eq_true]
  by_cases written : join.has .left first ∧ join.has .right second
  · simp [written]
  · by_cases swapped : join.has .left second ∧ join.has .right first
    · simp [written, swapped]
    · simp only [written, swapped, if_false, or_self, iff_false]
      rintro ⟨names, resolved⟩
      split at resolved <;> cases resolved

theorem orient_eq_error :
    join.orient (first, second) = .error fault ↔ ¬ join.Resolvable (first, second) ∧
      ((¬ join.Known .left first ∧ ¬ join.Known .left second ∧
          fault = .unknownColumn .left first) ∨
        ((join.Known .left first ∨ join.Known .left second) ∧
          fault = .unknownColumn .right second)) := by
  simp only [orient, Resolvable, ← has_iff]
  -- Each name is known to either relation or not, whatever the other name is.
  cases join.has .left first <;> cases join.has .left second <;> cases join.has .right first <;>
    cases join.has .right second <;> simp [eq_comm]

end Orient

def ReportsMissing (join : NamedJoin) (fault : CompileError) : Prop :=
  ∃ side name, fault = .unknownColumn side name ∧ ¬ join.Known side name

theorem mapM_reportsMissing {Value : Type} {step : String → Except CompileError Value}
    {names : List String}
    (missing : ∀ name fault, step name = .error fault →
      ¬ join.Known side name ∧ fault = .unknownColumn side name)
    (failed : names.mapM step = .error fault) : join.ReportsMissing fault := by
  rcases Except.mapM_eq_error.mp failed with ⟨_, name, _, _, _, found⟩
  have report := missing name fault found
  exact ⟨side, name, report.2, report.1⟩

/-- Behind the key pairs every report is right. -/
theorem resolve_error_cases (failed : join.resolve = .error fault) :
    join.keys.mapM join.orient = .error fault ∨ join.ReportsMissing fault := by
  unfold resolve at failed
  rcases Except.bind_eq_error.mp failed with keys | ⟨pairs, _, failed⟩
  · exact .inl keys
  apply Or.inr
  rcases Except.bind_eq_error.mp failed with leftKeys | ⟨_, _, failed⟩
  · exact mapM_reportsMissing (fun _ _ => index_eq_error.mp) leftKeys
  rcases Except.bind_eq_error.mp failed with rightKeys | ⟨_, _, failed⟩
  · exact mapM_reportsMissing (fun _ _ => index_eq_error.mp) rightKeys
  rcases Except.bind_eq_error.mp failed with leftPayload | ⟨_, _, failed⟩
  · exact mapM_reportsMissing (fun _ _ => columnRef_eq_error) leftPayload
  rcases Except.bind_eq_error.mp failed with rightPayload | ⟨_, _, failed⟩
  · exact mapM_reportsMissing (fun _ _ => columnRef_eq_error) rightPayload
  cases failed

/-- A pair that cannot be resolved is reported by a missing name, or by its second name
although both relations have it. -/
theorem orient_report {first second : String}
    (failed : join.orient (first, second) = .error fault) :
    join.ReportsMissing fault ∨ fault = .unknownColumn .right second ∧
      (∀ side, ¬ join.Known side first) ∧ ∀ side, join.Known side second := by
  rcases orient_eq_error.mp failed with ⟨unresolved, ⟨firstUnknown, _, rfl⟩ | ⟨either, rfl⟩⟩
  · exact .inl ⟨.left, first, rfl, firstUnknown⟩
  · by_cases known : join.Known .right second
    · have firstLeft : ¬ join.Known .left first := fun left => unresolved (.inl ⟨left, known⟩)
      have secondLeft : join.Known .left second := either.resolve_left firstLeft
      have firstRight : ¬ join.Known .right first := fun right =>
        unresolved (.inr ⟨secondLeft, right⟩)
      exact .inr ⟨rfl, Side.forall_iff.mpr ⟨firstLeft, firstRight⟩,
        Side.forall_iff.mpr ⟨secondLeft, known⟩⟩
    · exact .inl ⟨.right, second, rfl, known⟩

theorem Misjudged.resolve {unknown shared : String} (misjudged : join.Misjudged unknown shared) :
    join.resolve = .error (.unknownColumn .right shared) := by
  rcases misjudged.first with ⟨before, after, keys, resolvable⟩
  have unresolved : ¬ join.Resolvable (unknown, shared) := by
    rintro (⟨left, _⟩ | ⟨_, right⟩)
    · exact misjudged.unknown .left left
    · exact misjudged.unknown .right right
  have failed : join.orient (unknown, shared) = .error (.unknownColumn .right shared) :=
    orient_eq_error.mpr ⟨unresolved, .inr ⟨.inr (misjudged.shared .left), rfl⟩⟩
  have oriented : join.keys.mapM join.orient = .error (.unknownColumn .right shared) :=
    Except.mapM_eq_error.mpr ⟨before, _, after, keys,
      fun pair member => orient_isOk.mpr (resolvable pair member), failed⟩
  exact Except.bind_eq_error.mpr (.inl oriented)

/-- Why resolving fails. -/
theorem resolve_report (failed : join.resolve = .error fault) :
    join.ReportsMissing fault ∨
      ∃ unknown shared, fault = .unknownColumn .right shared ∧ join.Misjudged unknown shared := by
  rcases resolve_error_cases failed with oriented | missing
  · rcases Except.mapM_eq_error.mp oriented with ⟨before, pair, after, keys, passed, failed⟩
    rcases orient_report failed with missing | ⟨report, unknown, shared⟩
    · exact .inl missing
    · exact .inr ⟨pair.1, pair.2, report, {
        first := ⟨before, after, keys, fun pair member => orient_isOk.mp (passed pair member)⟩
        unknown := unknown
        shared := shared }⟩
  · exact .inl missing

end NamedJoin

/-- Resolving fails with a report of an unknown column, and the column is unknown unless
the first key pair that cannot be resolved is misjudged; such a pair is reported by the
name that both relations have. -/
theorem reported_column_missing_unless_misjudged (join : NamedJoin) :
    (∀ fault, join.resolve = .error fault → ∃ side name, fault = .unknownColumn side name ∧
      (name ∈ (join.columns.get side).take 256 ↔
        side = .right ∧ ∃ unknown, join.Misjudged unknown name)) ∧
    ∀ unknown shared, join.Misjudged unknown shared →
      join.resolve = .error (.unknownColumn .right shared) := by
  refine ⟨fun fault failed => ?_, fun unknown shared => NamedJoin.Misjudged.resolve⟩
  rcases NamedJoin.resolve_report failed with ⟨side, name, report, missing⟩ |
    ⟨unknown, shared, report, misjudged⟩
  · refine ⟨side, name, report, fun known => absurd known missing, ?_⟩
    rintro ⟨rfl, _, misjudged⟩
    exact misjudged.shared .right
  · exact ⟨.right, shared, report, fun _ => ⟨rfl, unknown, misjudged⟩,
      fun _ => misjudged.shared .right⟩

/-- Both relations have a column `id`, and the report is that the right one has none. -/
theorem shared_name_reported_missing :
    let join := (NamedJoin.ofColumns ["id"] ["id", "total"]).withKey "customer" "id"
    join.resolve = .error (.unknownColumn .right "id") ∧
      "id" ∈ (join.columns.get .right).take 256 := by
  decide

/-!
What a join by names stands for. It can be resolved exactly if every key pair names a
column of each relation and every payload name is empty, a key or a column; each name
then stands for the first column that has it. A key pair may be written either way round
unless both relations have both of its names.
-/

/-- Values for both relations are found side by side. -/
theorem Sides.exists_get {Value : Type} {holds : Side → Value → Prop}
    (each : ∀ side, ∃ value, holds side value) :
    ∃ values : Sides Value, ∀ side, holds side (values.get side) := by
  obtain ⟨left, onLeft⟩ := each .left
  obtain ⟨right, onRight⟩ := each .right
  exact ⟨⟨left, right⟩, Side.forall_iff.mpr ⟨onLeft, onRight⟩⟩

namespace NamedJoin

instance (join : NamedJoin) (side : Side) (name : String) : Decidable (join.Known side name) :=
  inferInstanceAs (Decidable (_ ∈ _))

structure Numbers (join : NamedJoin) (side : Side) (name : String) (column : UInt8) : Prop where
  named : (join.columns.get side)[column.toNat]? = some name
  first : ∀ earlier < column.toNat, (join.columns.get side)[earlier]? ≠ some name

/-- A key pair with the name of the left relation in front: as written if both names can be
looked up that way, and the other way round if not. -/
def oriented (join : NamedJoin) (pair : String × String) : String × String :=
  if join.Known .left pair.1 ∧ join.Known .right pair.2 then pair else pair.swap

def keyName (join : NamedJoin) (pair : String × String) : Side → String
  | .left => (join.oriented pair).1
  | .right => (join.oriented pair).2

def keyNames (join : NamedJoin) (side : Side) : List String :=
  join.keys.map (join.keyName · side)

inductive StandsFor (join : NamedJoin) (side : Side) : String → ColumnRef → Prop where
  | hole : StandsFor join side "-" .unused
  | key {name : String} (filled : name ≠ "-") (chosen : name ∈ join.keyNames side) :
      StandsFor join side name .duplicateKey
  | column {name : String} {column : UInt8} (filled : name ≠ "-")
      (apart : name ∉ join.keyNames side) (numbered : join.Numbers side name column) :
      StandsFor join side name (.used column)

structure Describes (join : NamedJoin) (result : Join) : Prop where
  keys : ∀ side, List.Forall₂ (fun pair column => join.Numbers side (join.keyName pair side) column)
    join.keys (result.keys.get side)
  payload : ∀ side, List.Forall₂ (join.StandsFor side) (join.payload.get side)
    (result.payload.get side)
  others : result = { Join.onKeys result.keys.left result.keys.right with
    payload := result.payload, mode := join.mode, aggregate := join.aggregate }

variable {join : NamedJoin} {side : Side} {name : String} {pair : String × String}

theorem index?_eq_some {column : UInt8} :
    join.index? side name = some column ↔
      (join.columns.get side).idxOf? name = some column.toNat := by
  unfold index?
  cases found : (join.columns.get side).idxOf? name with
  | none => simp
  | some index =>
      have small := column.toNat_lt
      by_cases numbered : index < 256
      · simp only [numbered, if_true, Option.some.injEq]
        rw [← UInt8.toNat_inj, UInt8.toNat_ofNat_of_lt' numbered]
      · simp only [numbered, if_false, reduceCtorEq, Option.some.injEq, false_iff]
        omega

theorem index_eq_ok {column : UInt8} :
    join.index side name = .ok column ↔ join.Numbers side name column := by
  have looked : join.index side name = .ok column ↔ join.index? side name = some column := by
    unfold index
    cases join.index? side name <;> simp
  rw [looked, index?_eq_some, List.idxOf?_eq_some_iff]
  constructor
  · rintro ⟨inside, same, earlier⟩
    refine ⟨List.getElem?_eq_some_iff.mpr ⟨inside, same⟩, fun other before found => ?_⟩
    obtain ⟨_, also⟩ := List.getElem?_eq_some_iff.mp found
    exact earlier other before also
  · rintro ⟨named, first⟩
    obtain ⟨inside, same⟩ := List.getElem?_eq_some_iff.mp named
    exact ⟨inside, same, fun other before found =>
      first other before (List.getElem?_eq_some_iff.mpr ⟨by omega, found⟩)⟩

theorem index_isOk :
    (∃ column, join.index side name = .ok column) ↔ join.Known side name := by
  rw [← has_iff, has, index]
  cases join.index? side name <;> simp

theorem orient_eq_ok {names : String × String} :
    join.orient pair = .ok names ↔ join.Resolvable pair ∧ join.oriented pair = names := by
  obtain ⟨first, second⟩ := pair
  simp only [orient, Resolvable, oriented, ← has_iff]
  -- Nothing but the four look-ups decides.
  cases join.has .left first <;> cases join.has .left second <;> cases join.has .right first <;>
    cases join.has .right second <;> simp

/-- A pair can be resolved if each relation has the column it is read by. -/
theorem resolvable_iff :
    join.Resolvable pair ↔ ∀ side, join.Known side (join.keyName pair side) := by
  rw [Side.forall_iff]
  by_cases written : join.Known .left pair.1 ∧ join.Known .right pair.2
  · have same : join.oriented pair = pair := if_pos written
    simp only [keyName, same]
    exact ⟨fun _ => written, .inl⟩
  · have swapped : join.oriented pair = pair.swap := if_neg written
    simp only [keyName, swapped, Prod.fst_swap, Prod.snd_swap]
    exact ⟨fun resolvable => resolvable.resolve_left written, .inr⟩

theorem columnRef_eq_ok {ref : ColumnRef} :
    join.columnRef side (join.keyNames side) name = .ok ref ↔ join.StandsFor side name ref := by
  unfold columnRef
  -- A hole is a hole even if a key column has its name.
  by_cases empty : name = "-"
  · subst empty
    rw [hole, if_pos rfl]
    constructor
    · intro same
      cases same
      exact .hole
    · rintro (_ | ⟨filled, _⟩ | ⟨filled, _, _⟩)
      · rfl
      · exact absurd rfl filled
      · exact absurd rfl filled
  rw [hole, if_neg empty]
  by_cases chosen : name ∈ join.keyNames side
  · rw [if_pos (List.contains_iff_mem.mpr chosen)]
    constructor
    · intro same
      cases same
      exact .key empty chosen
    · rintro (_ | _ | ⟨_, apart, _⟩)
      · exact absurd rfl empty
      · rfl
      · exact absurd chosen apart
  · rw [if_neg (mt List.contains_iff_mem.mp chosen), Except.map_eq_ok]
    constructor
    · rintro ⟨column, found, rfl⟩
      exact .column empty chosen (index_eq_ok.mp found)
    · rintro (_ | ⟨_, also⟩ | ⟨_, _, numbered⟩)
      · exact absurd rfl empty
      · exact absurd also chosen
      · exact ⟨_, index_eq_ok.mpr numbered, rfl⟩

theorem columnRef_isOk :
    (∃ ref, join.columnRef side (join.keyNames side) name = .ok ref) ↔
      (name ≠ "-" → name ∈ join.keyNames side ∨ join.Known side name) := by
  simp only [columnRef_eq_ok]
  constructor
  · rintro ⟨_, _ | ⟨_, chosen⟩ | ⟨_, _, numbered⟩⟩ filled
    · exact absurd rfl filled
    · exact .inl chosen
    · exact .inr (index_isOk.mp ⟨_, index_eq_ok.mpr numbered⟩)
  · intro looked
    by_cases empty : name = "-"
    · exact ⟨.unused, empty ▸ .hole⟩
    by_cases chosen : name ∈ join.keyNames side
    · exact ⟨.duplicateKey, .key empty chosen⟩
    · obtain ⟨column, found⟩ := index_isOk.mpr ((looked empty).resolve_left chosen)
      exact ⟨.used column, .column empty chosen (index_eq_ok.mp found)⟩

theorem orient_keys_eq_ok {pairs : List (String × String)} :
    join.keys.mapM join.orient = .ok pairs ↔
      (∀ pair ∈ join.keys, join.Resolvable pair) ∧ join.keys.map join.oriented = pairs := by
  simp only [Except.mapM_eq_ok, orient_eq_ok, List.forall₂_and_left]
  rw [← List.forall₂_map_left_iff, List.forall₂_eq_eq_eq]

/-- Resolving looks the columns of both relations up in the same way. -/
theorem resolve_eq_ok {result : Join} :
    join.resolve = .ok result ↔
      (∀ pair ∈ join.keys, join.Resolvable pair) ∧
      (∃ keys : Sides (List UInt8),
        (∀ side, (join.keyNames side).mapM (join.index side) = .ok (keys.get side)) ∧
        ∃ payload : Sides (List ColumnRef),
          (∀ side, (join.payload.get side).mapM (join.columnRef side (join.keyNames side)) =
            .ok (payload.get side)) ∧
          { Join.onKeys keys.left keys.right with
            payload := payload, mode := join.mode, aggregate := join.aggregate } = result) := by
  have left : (join.keys.map join.oriented).map Prod.fst = join.keyNames .left := List.map_map
  have right : (join.keys.map join.oriented).map Prod.snd = join.keyNames .right := List.map_map
  unfold resolve
  simp only [Except.bind_eq_ok, orient_keys_eq_ok, Side.forall_iff]
  constructor
  · rintro ⟨_, ⟨resolvable, rfl⟩, leftKeys, first, rightKeys, second, leftPayload, third,
      rightPayload, fourth, same⟩
    rw [left] at first third
    rw [right] at second fourth
    exact ⟨resolvable, ⟨leftKeys, rightKeys⟩, ⟨first, second⟩, ⟨leftPayload, rightPayload⟩,
      ⟨third, fourth⟩, Except.ok.inj same⟩
  · rintro ⟨resolvable, ⟨leftKeys, rightKeys⟩, ⟨first, second⟩, ⟨leftPayload, rightPayload⟩,
      ⟨third, fourth⟩, rfl⟩
    refine ⟨_, ⟨resolvable, rfl⟩, leftKeys, ?_, rightKeys, ?_, leftPayload, ?_, rightPayload, ?_,
      rfl⟩
    · rwa [left]
    · rwa [right]
    · rwa [left]
    · rwa [right]

theorem keyNames_eq_ok {columns : List UInt8} :
    (join.keyNames side).mapM (join.index side) = .ok columns ↔
      List.Forall₂ (fun pair column => join.Numbers side (join.keyName pair side) column)
        join.keys columns := by
  rw [Except.mapM_eq_ok, keyNames, List.forall₂_map_left_iff]
  simp only [index_eq_ok]

theorem keyNames_isOk :
    (∀ side, ∃ columns, (join.keyNames side).mapM (join.index side) = .ok columns) ↔
      ∀ pair ∈ join.keys, join.Resolvable pair := by
  simp only [Except.mapM_isOk, index_isOk, keyNames, List.forall_mem_map, resolvable_iff]
  exact ⟨fun known pair member side => known side pair member,
    fun known side pair member => known pair member side⟩

theorem resolve_iff_describes {result : Join} :
    join.resolve = .ok result ↔ join.Describes result := by
  rw [resolve_eq_ok]
  constructor
  · rintro ⟨_, keys, keysFound, payload, payloadFound, rfl⟩
    exact {
      keys := fun side => keyNames_eq_ok.mp (keysFound side)
      payload := fun side =>
        (Except.mapM_eq_ok.mp (payloadFound side)).imp fun _ _ => columnRef_eq_ok.mp
      others := rfl }
  · intro described
    -- Both names of a pair are found, so the pair can be resolved.
    have keysFound := fun side => keyNames_eq_ok.mpr (described.keys side)
    have payloadFound := fun side =>
      Except.mapM_eq_ok.mpr ((described.payload side).imp fun _ _ => columnRef_eq_ok.mpr)
    exact ⟨keyNames_isOk.mp fun side => ⟨_, keysFound side⟩, result.keys, keysFound,
      result.payload, payloadFound, described.others.symm⟩

theorem resolve_isOk :
    (∃ result, join.resolve = .ok result) ↔
      (∀ pair ∈ join.keys, join.Resolvable pair) ∧
      ∀ side, ∀ name ∈ join.payload.get side, name ≠ "-" →
        name ∈ join.keyNames side ∨ join.Known side name := by
  have payload_isOk : (∀ side, ∃ refs, (join.payload.get side).mapM
      (join.columnRef side (join.keyNames side)) = .ok refs) ↔
        ∀ side, ∀ name ∈ join.payload.get side, name ≠ "-" →
          name ∈ join.keyNames side ∨ join.Known side name := by
    simp only [Except.mapM_isOk, columnRef_isOk]
  simp only [resolve_eq_ok]
  rw [← payload_isOk]
  constructor
  · rintro ⟨_, resolvable, _, _, payload, found, _⟩
    exact ⟨resolvable, fun side => ⟨payload.get side, found side⟩⟩
  · rintro ⟨resolvable, found⟩
    obtain ⟨keys, keysFound⟩ := Sides.exists_get (keyNames_isOk.mpr resolvable)
    obtain ⟨payload, payloadFound⟩ := Sides.exists_get found
    exact ⟨_, resolvable, keys, keysFound, payload, payloadFound, rfl⟩

end NamedJoin

/-- Resolving succeeds exactly on names that stand for something, and its result is the join
that the names describe. -/
theorem names_resolve_exactly (join : NamedJoin) :
    ((∃ result, join.resolve = .ok result) ↔
      (∀ pair ∈ join.keys, join.Resolvable pair) ∧
      ∀ side, ∀ name ∈ join.payload.get side, name ≠ "-" →
        name ∈ join.keyNames side ∨ join.Known side name) ∧
    ∀ result, join.resolve = .ok result ↔ join.Describes result :=
  ⟨NamedJoin.resolve_isOk, fun _ => NamedJoin.resolve_iff_describes⟩

namespace NamedJoin

def Ambiguous (join : NamedJoin) (pair : String × String) : Prop :=
  ∀ side, join.Known side pair.1 ∧ join.Known side pair.2

/-- The key with some of its pairs the other way round, none of them ambiguous. -/
def Turns (join : NamedJoin) : List (String × String) → Prop :=
  List.Forall₂ (fun pair written => written = pair ∨ written = pair.swap ∧ ¬ join.Ambiguous pair)
    join.keys

variable {join : NamedJoin} {pair : String × String}

theorem resolvable_swap : join.Resolvable pair.swap ↔ join.Resolvable pair := or_comm

theorem oriented_swap (resolvable : join.Resolvable pair) (clear : ¬ join.Ambiguous pair) :
    join.oriented pair.swap = join.oriented pair := by
  by_cases written : join.Known .left pair.1 ∧ join.Known .right pair.2
  · -- The other way round is impossible, or both relations would have both names.
    have unswapped : ¬ (join.Known .left pair.2 ∧ join.Known .right pair.1) := by
      rintro ⟨secondLeft, firstRight⟩
      exact clear (Side.forall_iff.mpr ⟨⟨written.1, secondLeft⟩, firstRight, written.2⟩)
    calc join.oriented pair.swap
      _ = pair.swap.swap := if_neg unswapped
      _ = pair := pair.swap_swap
      _ = join.oriented pair := (if_pos written).symm
  · have swapped : join.Known .left pair.2 ∧ join.Known .right pair.1 :=
      resolvable.resolve_left written
    calc join.oriented pair.swap
      _ = pair.swap := if_pos swapped
      _ = join.oriented pair := (if_neg written).symm

theorem orient_swap (clear : ¬ join.Ambiguous pair) {names : String × String} :
    join.orient pair.swap = .ok names ↔ join.orient pair = .ok names := by
  rw [orient_eq_ok, orient_eq_ok, resolvable_swap]
  exact and_congr_right fun resolvable => by rw [oriented_swap resolvable clear]

theorem Turns.orient_keys {keys : List (String × String)} (turns : join.Turns keys)
    {pairs : List (String × String)} :
    keys.mapM join.orient = .ok pairs ↔ join.keys.mapM join.orient = .ok pairs := by
  apply Except.mapM_congr
  refine turns.imp fun pair written => ?_
  rintro (rfl | ⟨rfl, clear⟩) names
  · exact Iff.rfl
  · exact orient_swap clear

end NamedJoin

/-- Turning key pairs round changes neither the key nor what the payload stands for. -/
theorem keys_turn_freely (join : NamedJoin) (keys : List (String × String))
    (turns : join.Turns keys) (result : Join) :
    { join with keys := keys }.resolve = .ok result ↔ join.resolve = .ok result := by
  unfold NamedJoin.resolve
  rw [Except.bind_eq_ok, Except.bind_eq_ok]
  -- Behind the oriented pairs nothing looks at the order in which a pair was written.
  exact exists_congr fun pairs => and_congr_left fun _ => turns.orient_keys

/-- The first pair is turned round. The second has to stay as it is: both relations have
a region and an identifier. -/
theorem customer_pair_turns :
    let join : NamedJoin :=
      { columns := ⟨["id", "region"], ["total", "customer", "region", "id"]⟩
        keys := [("id", "customer"), ("region", "id")]
        payload := ⟨["id", "-"], ["total", "region", "id"]⟩
        mode := .inner
        aggregate := true }
    let keys := [("customer", "id"), ("region", "id")]
    join.Turns keys ∧ { join with keys := keys }.resolve = .ok
      { Join.onKeys [0, 1] [1, 3] with
        payload := ⟨[.duplicateKey, .unused], [.used 0, .used 2, .duplicateKey]⟩
        aggregate := true } := by
  intro join keys
  have turns : join.Turns keys := by
    refine .cons (.inr ⟨rfl, fun both => ?_⟩) (.cons (.inl rfl) .nil)
    exact absurd (both .left).2 (by decide)
  exact ⟨turns, (keys_turn_freely join keys turns _).mpr (by decide)⟩

end JoinEngine
