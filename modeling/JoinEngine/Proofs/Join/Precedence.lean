import JoinEngine.Proofs.Stage.Legal

/-!
Which fault of a join is reported. Kinds of faults have an order of precedence: mode,
key count, columns, payload, output slots. The checks are made in another order, side
by side: the payload of the left relation comes before the columns of the right one.
The report keeps to the precedence except where exactly these two meet.
-/

namespace JoinEngine

/-- The first hit of a search, by its place in the list. -/
theorem findSome?_first {Item Value : Type} [DecidableEq Item] {items : List Item}
    {value? : Item → Option Value} {value : Value} (found : items.findSome? value? = some value) :
    ∃ item, value? item = some value ∧
      ∀ other ∈ items, items.idxOf other < items.idxOf item → value? other = none := by
  induction items with
  | nil => cases found
  | cons first rest ih =>
      rw [List.findSome?_cons] at found
      cases hit : value? first with
      | some result =>
          rw [hit] at found
          cases found
          exact ⟨first, hit, fun other _ before => by simp at before⟩
      | none =>
          rw [hit] at found
          rcases ih found with ⟨item, made, earlier⟩
          have different : first ≠ item := by
            rintro rfl
            rw [hit] at made
            cases made
          refine ⟨item, made, fun other member before => ?_⟩
          by_cases same : first = other
          · exact same ▸ hit
          · rw [List.idxOf_cons_ne _ same, List.idxOf_cons_ne _ different] at before
            have inside := (List.mem_cons.mp member).resolve_left (Ne.symm same)
            exact earlier other inside (Nat.lt_of_succ_lt_succ before)

namespace Join

inductive Check where
  | mode
  | keys
  | columns (side : Side)
  | payload (side : Side)
  | suppressed
  deriving DecidableEq

namespace Check

def fault? (join : Join) (scanColumns : UInt8) : Check → Option CompileError
  | mode => join.modeFault?
  | keys => join.keyFault?
  | columns side => join.columnFault? scanColumns side
  | payload side => join.payloadFault? side
  | suppressed => join.suppressedFault?

/-- The place of a kind of fault in the order of precedence. -/
def rank : Check → Nat
  | mode => 0
  | keys => 1
  | columns _ => 2
  | payload _ => 3
  | suppressed => 4

def order : List Check :=
  [mode, keys, columns .left, payload .left, columns .right, payload .right, suppressed]

theorem mem_order (check : Check) : check ∈ order := by
  cases check with
  | mode | keys | suppressed => decide
  | columns side | payload side => cases side <;> decide

/-- One pair of checks is made against the precedence. -/
theorem rank_le_of_before (check later : Check)
    (before : order.idxOf check ≤ order.idxOf later) :
    check.rank ≤ later.rank ∨ check = payload .left ∧ later = columns .right := by
  have pairs : ∀ first ∈ order, ∀ second ∈ order, order.idxOf first ≤ order.idxOf second →
      first.rank ≤ second.rank ∨ first = payload .left ∧ second = columns .right := by decide
  exact pairs check check.mem_order later later.mem_order before

end Check

/-- The fault of a failing check that no failing check goes before. -/
def Foremost (join : Join) (scanColumns : UInt8) (fault : CompileError) : Prop :=
  ∃ check : Check, check.fault? join scanColumns = some fault ∧
    ∀ other : Check, other.fault? join scanColumns ≠ none → check.rank ≤ other.rank

/-- Mode and keys are fine, and of the columns only some of the right relation are out
of range, but the payload of the left relation is too long. -/
structure Crossed (join : Join) (scanColumns : UInt8) : Prop where
  rightless : join.mode = .semi ∨ join.mode = .anti → join.payload.right = []
  paired : join.keys.left.length = join.keys.right.length
  keyed : join.keys.left.length = 1 ∨ join.keys.left.length = 2
  leftScanned : ∀ column ∈ join.columns .left, column < scanColumns
  leftFull : 8 < join.keys.left.length + join.payload.left.length
  rightBeyond : ∃ column ∈ join.columns .right, scanColumns ≤ column

variable {join : Join} {scanColumns : UInt8}

theorem faults_eq : join.faults scanColumns = Check.order.map (Check.fault? join scanColumns) := rfl

theorem validate_ok_iff_checks :
    join.validate scanColumns = .ok () ↔ ∀ check : Check, check.fault? join scanColumns = none := by
  rw [validate_eq_ok, faults_eq]
  constructor
  · intro passed check
    exact passed _ (List.mem_map_of_mem check.mem_order)
  · intro passed fault member
    rcases List.mem_map.mp member with ⟨check, _, rfl⟩
    exact passed check

/-- The reported fault is that of the first check that fails. -/
theorem validate_error_first {fault : CompileError}
    (failed : join.validate scanColumns = .error fault) :
    ∃ check : Check, check.fault? join scanColumns = some fault ∧
      ∀ other : Check, Check.order.idxOf other < Check.order.idxOf check →
        other.fault? join scanColumns = none := by
  have found : Check.order.findSome? (Check.fault? join scanColumns) = some fault := by
    unfold validate at failed
    rw [faults_eq, List.findSome?_map] at failed
    split at failed
    · rename_i first hit
      cases failed
      exact hit
    · cases failed
  rcases findSome?_first found with ⟨check, made, earlier⟩
  exact ⟨check, made, fun other before => earlier other other.mem_order before⟩

theorem crossed_iff :
    join.Crossed scanColumns ↔ join.modeFault? = none ∧ join.keyFault? = none ∧
      join.columnFault? scanColumns .left = none ∧ join.payloadFault? .left ≠ none ∧
      join.columnFault? scanColumns .right ≠ none := by
  rw [modeFault?_eq_none, keyFault?_eq_none, columnFault?_eq_none, ne_eq, payloadFault?_eq_none,
    ne_eq, columnFault?_eq_none]
  constructor
  · intro crossed
    rcases crossed.rightBeyond with ⟨column, member, beyond⟩
    have full := crossed.leftFull
    have keyed := crossed.keyed
    refine ⟨crossed.rightless, ⟨crossed.paired, crossed.keyed⟩, crossed.leftScanned, ?_, ?_⟩
    · change ¬ join.payload.left.length ≤ 8 - join.keys.left.length
      omega
    · intro scanned
      exact UInt8.not_le.mpr (scanned column member) beyond
  · rintro ⟨rightless, ⟨paired, keyed⟩, leftScanned, full, beyond⟩
    change ¬ join.payload.left.length ≤ 8 - join.keys.left.length at full
    exact {
      rightless := rightless
      paired := paired
      keyed := keyed
      leftScanned := leftScanned
      leftFull := by omega
      rightBeyond := by simpa only [not_forall, UInt8.not_lt, exists_prop] using beyond }

/-- Only the check of a payload finds it too long. -/
theorem check_of_overflow {check : Check} {side : Side} {count limit : Nat}
    (made : check.fault? join scanColumns = some (.payloadOverflow side count limit)) :
    check = .payload side := by
  cases check with
  | mode =>
      simp only [Check.fault?, modeFault?] at made
      split at made <;> cases made
  | keys =>
      simp only [Check.fault?, keyFault?] at made
      split at made <;> cases made
  | columns other => simp [Check.fault?, columnFault?] at made
  | payload other =>
      simp only [Check.fault?, payloadFault?] at made
      split at made <;> cases made
      rfl
  | suppressed => simp [Check.fault?, suppressedFault?] at made

theorem payloadFault?_of_ne_none {side : Side} (failed : join.payloadFault? side ≠ none) :
    join.payloadFault? side = some (.payloadOverflow side (join.payload.get side).length
      (8 - (join.keys.get side).length)) := by
  simp only [payloadFault?] at failed ⊢
  split at failed
  · rename_i full
    rw [if_pos full]
    rfl
  · exact absurd rfl failed

theorem Crossed.validate (crossed : join.Crossed scanColumns) :
    join.validate scanColumns =
      .error (.payloadOverflow .left join.payload.left.length (8 - join.keys.left.length)) := by
  rcases crossed_iff.mp crossed with ⟨mode, keys, columns, full, _⟩
  have overflow := payloadFault?_of_ne_none full
  simp [Join.validate, faults, mode, keys, columns, overflow, Sides.get]

theorem foremost_iff {fault : CompileError} (failed : join.validate scanColumns = .error fault) :
    join.Foremost scanColumns fault ↔ ¬ join.Crossed scanColumns := by
  constructor
  · rintro ⟨check, made, foremost⟩ crossed
    rw [crossed.validate] at failed
    cases failed
    cases check_of_overflow made
    have beyond := (crossed_iff.mp crossed).2.2.2.2
    exact absurd (foremost (.columns .right) beyond) (by decide)
  · intro straight
    rcases validate_error_first failed with ⟨check, made, earlier⟩
    refine ⟨check, made, fun other fails => ?_⟩
    have later : Check.order.idxOf check ≤ Check.order.idxOf other := by
      apply Nat.le_of_not_lt
      intro before
      exact fails (earlier other before)
    rcases Check.rank_le_of_before check other later with kept | ⟨rfl, rfl⟩
    · exact kept
    · -- The checks in front of the left payload have passed, so the faults cross.
      have full : join.payloadFault? .left ≠ none := by
        intro passed
        cases passed.symm.trans made
      exact absurd (crossed_iff.mpr ⟨earlier .mode (by decide), earlier .keys (by decide),
        earlier (.columns .left) (by decide), full, fails⟩) straight

end Join

/-- A join is refused if some check fails. The fault that is reported is of the first
kind among those there are, unless the left payload is too long and a right column out
of range while nothing before is wrong; then the left payload is reported. -/
theorem precedence_unless_crossed (join : Join) (scanColumns : UInt8) :
    (join.validate scanColumns = .ok () ↔
      ∀ check : Join.Check, check.fault? join scanColumns = none) ∧
    (∀ fault, join.validate scanColumns = .error fault →
      (join.Foremost scanColumns fault ↔ ¬ join.Crossed scanColumns)) ∧
    (join.Crossed scanColumns → join.validate scanColumns =
      .error (.payloadOverflow .left join.payload.left.length (8 - join.keys.left.length))) :=
  ⟨Join.validate_ok_iff_checks, fun _ => Join.foremost_iff, Join.Crossed.validate⟩

/-- A column of the right relation is out of range, and the report is about the length
of the left payload. -/
theorem left_overflow_hides_right_column :
    let join : Join := { Join.onKeys [0] [9] with payload := ⟨List.replicate 8 .unused, []⟩ }
    join.modeFault? = none ∧ join.keyFault? = none ∧
      join.columnFault? 8 .right = some (.columnRange .right 9 8) ∧
      join.validate 8 = .error (.payloadOverflow .left 8 7) ∧
      ¬ join.Foremost 8 (.payloadOverflow .left 8 7) := by
  intro join
  have beyond : join.columnFault? 8 .right = some (.columnRange .right 9 8) := by decide
  refine ⟨by decide, by decide, beyond, by decide, ?_⟩
  rintro ⟨check, made, foremost⟩
  cases Join.check_of_overflow made
  have fails : Join.Check.fault? join 8 (.columns .right) ≠ none := by
    intro passed
    cases passed.symm.trans beyond
  exact absurd (foremost (.columns .right) fails) (by decide)

end JoinEngine
