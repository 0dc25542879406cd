import JoinEngine.Join
import JoinEngine.Proofs.Outcome
import JoinEngine.Proofs.Text

/-!
Which conditions add key pairs. A condition is read piece by piece between its commas,
and every piece has to be an equation between two names. The first piece that is none is
reported by the byte at which it begins.
-/

namespace JoinEngine

namespace NamedJoin

structure Equates (piece : List Char) (names : String × String) : Prop where
  sides : ∃ left right, piece = left ++ '=' :: right ∧ '=' ∉ left ∧ '=' ∉ right ∧
    Text.Trims left names.1.toList ∧ Text.Trims right names.2.toList
  first : names.1 ≠ ""
  second : names.2 ≠ ""

/-- A piece with a single equals sign and more than blanks on both sides of it. -/
def IsEquation (piece : List Char) : Prop :=
  piece.count '=' = 1 ∧
    ∃ left right, piece = left ++ '=' :: right ∧ Text.trim left ≠ [] ∧ Text.trim right ≠ []

section Piece
variable {piece : List Char} {names : String × String}

/-- The blanks around a name are no equals signs, so the check for a second one sees the
whole text behind the first. -/
theorem equation?_eq_some :
    equation? piece = some names ↔ ∃ left right,
      (piece = left ++ '=' :: right ∧ '=' ∉ left ∧ '=' ∉ right) ∧
      Text.trim left ≠ [] ∧ Text.trim right ≠ [] ∧
      (String.ofList (Text.trim left), String.ofList (Text.trim right)) = names := by
  have sign : ∀ right, '=' ∈ Text.trim right ↔ '=' ∈ right := fun _ =>
    Text.mem_trim (by decide)
  unfold equation?
  rw [Option.bind_eq_bind, Option.bind_eq_some_iff, Prod.exists]
  refine exists_congr fun left => exists_congr fun right => ?_
  rw [Text.splitOnce?_eq_some]
  simp only [← sign right, Option.ite_none_left_eq_some, Bool.or_eq_true, List.isEmpty_iff,
    List.contains_iff_mem, not_or, Option.pure_def, Option.some.injEq]
  constructor
  · rintro ⟨⟨parts, before⟩, ⟨⟨first, second⟩, behind⟩, same⟩
    exact ⟨⟨parts, before, behind⟩, first, second, same⟩
  · rintro ⟨⟨parts, before, behind⟩, first, second, same⟩
    exact ⟨⟨parts, before⟩, ⟨⟨first, second⟩, behind⟩, same⟩

theorem equation?_iff_equates : equation? piece = some names ↔ Equates piece names := by
  simp only [equation?_eq_some]
  constructor
  · rintro ⟨left, right, ⟨parts, before, behind⟩, first, second, rfl⟩
    refine ⟨⟨left, right, parts, before, behind, ?_, ?_⟩, ?_, ?_⟩
    · rw [String.toList_ofList]
      exact Text.trims_trim left
    · rw [String.toList_ofList]
      exact Text.trims_trim right
    · simpa using first
    · simpa using second
  · rintro ⟨⟨left, right, parts, before, behind, first, second⟩, firstFilled, secondFilled⟩
    refine ⟨left, right, ⟨parts, before, behind⟩, ?_⟩
    rw [first.trim_eq, second.trim_eq]
    simpa using ⟨firstFilled, secondFilled⟩

theorem equation?_isSome : (∃ names, equation? piece = some names) ↔ IsEquation piece := by
  have once : ∀ left right : List Char,
      (left ++ '=' :: right).count '=' = 1 ↔ '=' ∉ left ∧ '=' ∉ right := by
    intro left right
    rw [List.count_append, List.count_cons_self, ← List.count_eq_zero, ← List.count_eq_zero]
    omega
  simp only [equation?_eq_some]
  constructor
  · rintro ⟨_, left, right, ⟨rfl, before, behind⟩, first, second, _⟩
    exact ⟨(once left right).mpr ⟨before, behind⟩, left, right, rfl, first, second⟩
  · rintro ⟨single, left, right, rfl, first, second⟩
    exact ⟨_, left, right, ⟨rfl, (once left right).mp single⟩, first, second, rfl⟩

end Piece

/-- The text in front of a piece: the pieces before it, each with the comma behind it. -/
def front (before : List (List Char)) : List Char := before.flatMap (· ++ [','])

theorem byteLength_front (piece : List Char) (before : List (List Char)) :
    Text.byteLength (front (piece :: before)) =
      Text.byteLength piece + 1 + Text.byteLength (front before) := by
  rw [front, List.flatMap_cons, Text.byteLength_append, Text.byteLength_append]
  rfl

theorem intercalate_front (before : List (List Char)) (piece : List Char)
    (after : List (List Char)) :
    [','].intercalate (before ++ piece :: after) =
      front before ++ [','].intercalate (piece :: after) := by
  induction before with
  | nil => rfl
  | cons first rest ih =>
      rw [front, List.flatMap_cons, ← front, List.append_assoc, ← ih]
      cases rest with
      | nil => exact List.intercalate_cons_cons
      | cons second more => exact List.intercalate_cons_cons

section Equations
variable {source : String} {position : Nat} {pieces : List (List Char)}

theorem equations_eq_ok {pairs : List (String × String)} :
    equations source position pieces = .ok pairs ↔ List.Forall₂ Equates pieces pairs := by
  induction pieces generalizing position pairs with
  | nil => simp [equations, eq_comm]
  | cons piece rest ih =>
      rw [List.forall₂_cons_left_iff, equations]
      simp only [← equation?_iff_equates]
      cases equation? piece with
      | none => simp
      | some names =>
          simp only [Except.map_eq_ok, ih, Option.some.injEq]
          constructor
          · rintro ⟨others, later, rfl⟩
            exact ⟨names, others, rfl, later, rfl⟩
          · rintro ⟨_, others, rfl, later, rfl⟩
            exact ⟨others, later, rfl⟩

/-- A run over the pieces stops at the first that is no equation. -/
theorem equations_eq_error {fault : CompileError} :
    equations source position pieces = .error fault ↔
      ∃ before piece after, pieces = before ++ piece :: after ∧
        (∀ earlier ∈ before, IsEquation earlier) ∧ ¬ IsEquation piece ∧
        fault = .keyCondition source (position + Text.byteLength (front before)) := by
  induction pieces generalizing position with
  | nil => simp [equations]
  | cons piece rest ih =>
      rw [equations]
      cases read : equation? piece with
      | none =>
          have bad : ¬ IsEquation piece := by
            rw [← equation?_isSome, read]
            simp
          constructor
          · intro failed
            cases failed
            exact ⟨[], piece, rest, rfl, by simp, bad, rfl⟩
          · rintro ⟨before, found, after, parts, earlier, _, rfl⟩
            cases before with
            | nil => rfl
            | cons head tail =>
                cases parts
                exact absurd (earlier piece List.mem_cons_self) bad
      | some names =>
          have good : IsEquation piece := equation?_isSome.mp ⟨names, read⟩
          -- The next piece begins behind this one and its comma.
          have next : ∀ before, position + Text.byteLength piece + 1 +
              Text.byteLength (front before) =
                position + Text.byteLength (front (piece :: before)) := by
            intro before
            rw [byteLength_front]
            omega
          simp only [Except.map_eq_error, ih, next]
          constructor
          · rintro ⟨before, found, after, rfl, earlier, bad, rfl⟩
            exact ⟨piece :: before, found, after, rfl,
              List.forall_mem_cons.mpr ⟨good, earlier⟩, bad, rfl⟩
          · rintro ⟨before, found, after, parts, earlier, bad, rfl⟩
            cases before with
            | nil =>
                cases parts
                exact absurd good bad
            | cons head tail =>
                cases parts
                exact ⟨tail, found, after, rfl, (List.forall_mem_cons.mp earlier).2, bad, rfl⟩

end Equations

variable {join : NamedJoin} {condition : String}

theorem withCondition_eq_ok {result : NamedJoin} :
    join.withCondition condition = .ok result ↔
      ∃ pairs, List.Forall₂ Equates (condition.toList.splitOn ',') pairs ∧
        { join with keys := join.keys ++ pairs } = result := by
  rw [withCondition, Except.map_eq_ok, Text.pieces_eq_splitOn]
  simp only [equations_eq_ok]

theorem withCondition_isOk :
    (∃ result, join.withCondition condition = .ok result) ↔
      ∀ piece ∈ condition.toList.splitOn ',', IsEquation piece := by
  have pairs_iff : (∃ pairs, List.Forall₂ Equates (condition.toList.splitOn ',') pairs) ↔
      ∀ piece ∈ condition.toList.splitOn ',', IsEquation piece := by
    simp only [List.exists_forall₂_iff, ← equation?_iff_equates, equation?_isSome]
  simp only [withCondition_eq_ok]
  rw [← pairs_iff]
  constructor
  · rintro ⟨_, pairs, equations, _⟩
    exact ⟨pairs, equations⟩
  · rintro ⟨pairs, equations⟩
    exact ⟨_, pairs, equations, rfl⟩

theorem withCondition_eq_error {fault : CompileError} :
    join.withCondition condition = .error fault ↔
      ∃ before piece after, condition.toList.splitOn ',' = before ++ piece :: after ∧
        (∀ earlier ∈ before, IsEquation earlier) ∧ ¬ IsEquation piece ∧
        ∃ start, condition.toList = start ++ [','].intercalate (piece :: after) ∧
          fault = .keyCondition condition (String.ofList start).utf8ByteSize := by
  rw [withCondition, Except.map_eq_error, Text.pieces_eq_splitOn, equations_eq_error]
  refine exists_congr fun before => exists_congr fun piece => exists_congr fun after =>
    and_congr_right fun parts => and_congr_right fun _ => and_congr_right fun _ => ?_
  -- The rest of the condition leaves only one text that can stand in front of it.
  have whole : condition.toList = front before ++ [','].intercalate (piece :: after) := by
    rw [← intercalate_front, ← parts, List.intercalate_splitOn]
  rw [Nat.zero_add, Text.byteLength_eq_utf8ByteSize]
  constructor
  · intro same
    exact ⟨front before, whole, same⟩
  · rintro ⟨start, also, rfl⟩
    rw [List.append_cancel_right (also.symm.trans whole)]

end NamedJoin

/-- A condition is accepted exactly if every piece between its commas is an equation, and
adds the names of the equations behind the key pairs that are there. Otherwise the report
has the condition and the number of bytes in front of the first piece that is none. -/
theorem conditions_read_exactly (join : NamedJoin) (condition : String) :
    ((∃ result, join.withCondition condition = .ok result) ↔
      ∀ piece ∈ condition.toList.splitOn ',', NamedJoin.IsEquation piece) ∧
    (∀ result, join.withCondition condition = .ok result ↔
      ∃ pairs, List.Forall₂ NamedJoin.Equates (condition.toList.splitOn ',') pairs ∧
        { join with keys := join.keys ++ pairs } = result) ∧
    ∀ fault, join.withCondition condition = .error fault ↔
      ∃ before piece after, condition.toList.splitOn ',' = before ++ piece :: after ∧
        (∀ earlier ∈ before, NamedJoin.IsEquation earlier) ∧ ¬ NamedJoin.IsEquation piece ∧
        ∃ start, condition.toList = start ++ [','].intercalate (piece :: after) ∧
          fault = .keyCondition condition (String.ofList start).utf8ByteSize :=
  ⟨NamedJoin.withCondition_isOk, fun _ => NamedJoin.withCondition_eq_ok,
    fun _ => NamedJoin.withCondition_eq_error⟩

/-- The first letter takes two bytes, and the second piece begins with the blank. -/
example : (NamedJoin.ofColumns [] []).withCondition "é = b, c" =
    .error (.keyCondition "é = b, c" 7) := by
  decide

end JoinEngine
