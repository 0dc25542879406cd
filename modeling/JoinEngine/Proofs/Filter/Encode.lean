import JoinEngine.Proofs.Stage.Legal
import Mathlib.Data.List.FinRange

/-!
Which bounds a filter is refused for, and what the refusal says. Each of the eight
bounds is judged by the comparison next to it and by nothing else. The report is about
the first bound that is out of range, the slots in order and the low bound of a slot
before its high one.
-/

namespace JoinEngine

namespace Condition

def op (condition : Condition) : BoundKind → Comparison
  | .low => condition.lowOp
  | .high => condition.highOp

def bound (condition : Condition) : BoundKind → Int64
  | .low => condition.low
  | .high => condition.high

def Rejects (condition : Condition) (kind : BoundKind) : Prop :=
  ¬ (condition.op kind).Takes (condition.bound kind)

end Condition

namespace BlockEntry

theorem bound_eq_error {side : Side} {slot : Nat} {kind : BoundKind} {op : Comparison}
    {value : Int64} {fault : CompileError} :
    bound side slot kind op value = .error fault ↔
      ¬ op.Takes value ∧ fault = .bound side slot kind value op := by
  rw [Comparison.takes_iff_range]
  unfold bound
  cases op.range? with
  | none => simp
  | some range =>
      obtain ⟨least, greatest⟩ := range
      by_cases inside : least ≤ value.toInt ∧ value.toInt ≤ greatest
      · simp [inside]
      · simp [inside, eq_comm]

theorem encode_eq_error {side : Side} {slot : Nat} {condition : Condition} {fault : CompileError} :
    encode side slot condition = .error fault ↔
      ∃ kind, condition.Rejects kind ∧ (condition.Rejects .low → kind = .low) ∧
        fault = .bound side slot kind (condition.bound kind) (condition.op kind) := by
  unfold encode
  simp only [Except.bind_eq_error, bound_eq_error]
  constructor
  · rintro (⟨rejected, rfl⟩ | ⟨low, lowMade, ⟨rejected, rfl⟩ | ⟨high, _, impossible⟩⟩)
    · exact ⟨.low, rejected, fun _ => rfl, rfl⟩
    · have taken := bound_isOk.mp ⟨low, lowMade⟩
      exact ⟨.high, rejected, fun lowRejected => absurd taken lowRejected, rfl⟩
    · cases impossible
  · rintro ⟨kind, rejected, first, rfl⟩
    cases kind with
    | low => exact .inl ⟨rejected, rfl⟩
    | high =>
        have taken : condition.lowOp.Takes condition.low := by
          by_contra lowRejected
          cases first lowRejected
        obtain ⟨low, lowMade⟩ := bound_isOk.mpr taken
        exact .inr ⟨low, lowMade, .inl ⟨rejected, rfl⟩⟩

end BlockEntry

namespace Condition
variable {side : Side} {slot : Nat} {condition : Condition}

theorem takes_both_iff :
    condition.lowOp.Takes condition.low ∧ condition.highOp.Takes condition.high ↔
      ∀ kind, ¬ condition.Rejects kind := by
  constructor
  · rintro ⟨low, high⟩ kind rejected
    cases kind with
    | low => exact rejected low
    | high => exact rejected high
  · intro taken
    exact ⟨not_not.mp (taken .low), not_not.mp (taken .high)⟩

theorem encodes_iff :
    (∃ entry, BlockEntry.encode side slot condition = .ok entry) ↔
      ∀ kind, ¬ condition.Rejects kind :=
  BlockEntry.encode_isOk.trans takes_both_iff

end Condition

/-- What stands in front of a slot are the slots below it. -/
theorem mem_before_iff {count : Nat} {before after : List (Fin count)} {slot : Fin count}
    (parts : List.finRange count = before ++ slot :: after) (other : Fin count) :
    other ∈ before ↔ other < slot := by
  have ascending := List.pairwise_lt_finRange count
  rw [parts, List.pairwise_append, List.pairwise_cons] at ascending
  obtain ⟨_, ⟨behind, _⟩, below⟩ := ascending
  constructor
  · intro early
    exact below other early slot List.mem_cons_self
  · intro lower
    have listed := List.mem_finRange other
    rw [parts, List.mem_append, List.mem_cons] at listed
    rcases listed with early | rfl | late
    · exact early
    · exact absurd lower (lt_irrefl _)
    · exact absurd lower (lt_asymm (behind other late))

namespace Filter

structure FirstRejected (filter : Filter) (slot : Fin 4) (kind : BoundKind) : Prop where
  rejected : (filter.conditions.get slot).Rejects kind
  slots : ∀ earlier < slot, ∀ either, ¬ (filter.conditions.get earlier).Rejects either
  low : (filter.conditions.get slot).Rejects .low → kind = .low

variable {side : Side} {filter : Filter} {fault : CompileError}

/-- The slots are encoded one after the other. -/
theorem encode_eq_error_iff_mapM :
    filter.encode side = .error fault ↔
      (List.finRange 4).mapM
        (fun slot : Fin 4 => BlockEntry.encode side slot (filter.conditions.get slot)) =
          .error fault := by
  have listed : List.finRange 4 = [0, 1, 2, 3] := by decide
  have never {Value : Type} {value : Value} :
      (pure value : Except CompileError Value) = .error fault ↔ False := by
    refine iff_of_false (fun impossible => ?_) id
    cases impossible
  rw [listed]
  simp only [Filter.encode, List.mapM_cons, List.mapM_nil, Except.bind_eq_error, never, and_false,
    exists_false, or_false]
  rfl

theorem encode_eq_error :
    filter.encode side = .error fault ↔ ∃ slot kind, filter.FirstRejected slot kind ∧
      fault = .bound side slot kind ((filter.conditions.get slot).bound kind)
        ((filter.conditions.get slot).op kind) := by
  rw [encode_eq_error_iff_mapM, Except.mapM_eq_error]
  -- The run stops at one slot, with the slots below it encoded and the rest not looked at.
  constructor
  · rintro ⟨before, slot, after, parts, passed, failed⟩
    obtain ⟨kind, rejected, low, rfl⟩ := BlockEntry.encode_eq_error.mp failed
    refine ⟨slot, kind, ⟨rejected, fun earlier lower => ?_, low⟩, rfl⟩
    exact Condition.encodes_iff.mp (passed earlier ((mem_before_iff parts earlier).mpr lower))
  · rintro ⟨slot, kind, first, rfl⟩
    obtain ⟨before, after, parts⟩ := List.append_of_mem (List.mem_finRange slot)
    refine ⟨before, slot, after, parts, fun earlier early => ?_, ?_⟩
    · exact Condition.encodes_iff.mpr
        (first.slots earlier ((mem_before_iff parts earlier).mp early))
    · exact BlockEntry.encode_eq_error.mpr ⟨kind, first.rejected, first.low, rfl⟩

theorem legal_iff : filter.Legal ↔ ∀ slot kind, ¬ (filter.conditions.get slot).Rejects kind := by
  constructor
  · intro legal slot
    exact Condition.takes_both_iff.mp (legal _ (Vector.getElem_mem slot.isLt))
  · intro taken condition member
    obtain ⟨slot, inside, rfl⟩ := Vector.mem_iff_getElem.mp member
    exact Condition.takes_both_iff.mpr (taken ⟨slot, inside⟩)

end Filter

/-- A filter is refused exactly if some bound is out of the range of its own comparison.
The refusal names the relation, the first slot with such a bound, the low bound of that
slot if it is one and the high bound otherwise, and the value and the comparison. -/
theorem bounds_rejected_precisely (side : Side) (filter : Filter) :
    ((∃ fault, filter.encode side = .error fault) ↔
      ∃ slot kind, (filter.conditions.get slot).Rejects kind) ∧
    ∀ fault, filter.encode side = .error fault ↔
      ∃ slot kind, filter.FirstRejected slot kind ∧
        let value := (filter.conditions.get slot).bound kind
        let op := (filter.conditions.get slot).op kind
        fault = .bound side slot kind value op ∧
        fault.message =
          s!"{side.label} filter condition {slot.val}: {kind.label} {value.toInt} does not fit " ++
            s!"operator {op.mnemonic}" := by
  constructor
  · rw [Except.exists_error_iff, Filter.encode_isOk, Filter.legal_iff]
    simp only [not_forall, not_not]
  · intro fault
    rw [Filter.encode_eq_error]
    constructor
    · rintro ⟨slot, kind, first, rfl⟩
      exact ⟨slot, kind, first, rfl, rfl⟩
    · rintro ⟨slot, kind, first, same, _⟩
      exact ⟨slot, kind, first, same⟩

/-- Three slots have a bound out of range. The first of them is named, with its high bound
since the low one is ignored. -/
example :
    let filter : Filter :=
      ⟨#v[⟨.eq, .ne, -1, 4294967295⟩, ⟨.dontCare, .lt, -9000000000, 2147483648⟩,
        ⟨.geu, .leu, -1, 4294967296⟩, ⟨.gt, .dontCare, -2147483649, 0⟩], .all .and⟩
    filter.encode .right = .error (.bound .right 1 .high 2147483648 .lt) ∧
      (CompileError.bound .right 1 .high 2147483648 .lt).message =
        "right filter condition 1: bound_high 2147483648 does not fit operator LT" := by
  decide

/-!
The blocks that filters are encoded to. A word that is compared with can be any, for
it is the bound of the number that the comparison takes it for; a word that is
ignored is zero.
-/

/-- Two's complement: the upper half of the words is negative. -/
theorem signed_word (word : UInt32) :
    word.toInt32.toInt =
      if 2 * word.toNat < 2 ^ 32 then (word.toNat : Int) else word.toNat - (2 ^ 32 : Nat) :=
  BitVec.toInt_eq_toNat_cond word.toBitVec

namespace Comparison

theorem range?_eq_none {op : Comparison} : op.range? = none ↔ op = .dontCare := by
  cases op <;> simp [range?]

/-- The number that a comparison takes a word for. Only ordering with a sign reads it
in two's complement. -/
def reading (word : UInt32) : Comparison → Int
  | gt | lt | ge | le => word.toInt32.toInt
  | dontCare | eq | ne | gtu | ltu | geu | leu => word.toNat

theorem toInt_reading (op : Comparison) (word : UInt32) :
    (Int64.ofInt (op.reading word)).toInt = op.reading word := by
  have signed := And.intro word.toInt32.le_toInt word.toInt32.toInt_lt
  have unsigned := word.toNat_lt
  have inside : -2 ^ 63 ≤ op.reading word ∧ op.reading word < 2 ^ 63 := by
    cases op <;> simp only [reading] <;> omega
  exact Int64.toInt_ofInt_of_le inside.1 inside.2

theorem takes_reading (op : Comparison) (word : UInt32) :
    op.Takes (Int64.ofInt (op.reading word)) := by
  have signed := And.intro word.toInt32.le_toInt word.toInt32.toInt_lt
  have unsigned := word.toNat_lt
  cases op with
  | dontCare => trivial
  | gt | lt | ge | le | gtu | ltu | geu | leu | eq | ne =>
      simp only [Takes, toInt_reading]
      simp only [reading]
      omega

theorem ofInt_reading (op : Comparison) (word : UInt32) :
    UInt32.ofInt (op.reading word) = word := by
  have signed := signed_word word
  have below := word.toNat_lt
  -- With or without a sign, the reading is the word up to a multiple of its range.
  have kept : (op.reading word % 2 ^ 32).toNat = word.toNat := by
    cases op <;> simp only [reading] <;> omega
  rw [UInt32.ofInt, kept, UInt32.ofNat_toNat]

end Comparison

namespace BlockEntry

/-- No bound is kept that nothing is compared with. -/
structure Clean (entry : BlockEntry) : Prop where
  low : entry.lowOp = .dontCare → entry.low = 0
  high : entry.highOp = .dontCare → entry.high = 0

section

variable {side : Side} {slot : Nat} {kind : BoundKind} {op : Comparison}

theorem bound_eq_ok {value : Int64} {word : UInt32} :
    bound side slot kind op value = .ok word ↔
      op.Takes value ∧ word = if op = .dontCare then 0 else UInt32.ofInt value.toInt := by
  rw [Comparison.takes_iff_range]
  unfold bound
  cases limits : op.range? with
  | none =>
      have ignored := Comparison.range?_eq_none.mp limits
      simp [ignored, eq_comm]
  | some range =>
      obtain ⟨least, greatest⟩ := range
      have compared : op ≠ .dontCare := by
        rintro rfl
        cases limits
      by_cases inside : least ≤ value.toInt ∧ value.toInt ≤ greatest
      · simp [inside, compared, eq_comm]
      · simp [inside]

/-- A bound is zero or anything. -/
theorem bound_reading {word : UInt32} (clean : op = .dontCare → word = 0) :
    bound side slot kind op (Int64.ofInt (op.reading word)) = .ok word := by
  refine bound_eq_ok.mpr ⟨op.takes_reading word, ?_⟩
  by_cases ignored : op = .dontCare
  · rw [if_pos ignored, clean ignored]
  · rw [if_neg ignored, op.toInt_reading, op.ofInt_reading]

end

theorem encode_clean {side : Side} {slot : Nat} {condition : Condition} {entry : BlockEntry}
    (made : encode side slot condition = .ok entry) : entry.Clean := by
  simp only [encode, Except.bind_eq_ok] at made
  obtain ⟨low, lowMade, high, highMade, made⟩ := made
  cases made
  constructor
  · intro ignored
    rw [(bound_eq_ok.mp lowMade).2, if_pos ignored]
  · intro ignored
    rw [(bound_eq_ok.mp highMade).2, if_pos ignored]

def condition (entry : BlockEntry) : Condition :=
  ⟨entry.lowOp, entry.highOp, Int64.ofInt (entry.lowOp.reading entry.low),
    Int64.ofInt (entry.highOp.reading entry.high)⟩

theorem Clean.encode_condition {entry : BlockEntry} (clean : entry.Clean) (side : Side)
    (slot : Nat) : encode side slot entry.condition = .ok entry := by
  simp only [encode, Except.bind_eq_ok]
  exact ⟨entry.low, bound_reading clean.low, entry.high, bound_reading clean.high, rfl⟩

end BlockEntry

namespace FilterBlock

/-- No slot keeps a bound that nothing is compared with. -/
def Clean (block : FilterBlock) : Prop := ∀ entry ∈ block.entries, entry.Clean

def filter (block : FilterBlock) : Filter :=
  ⟨block.entries.map BlockEntry.condition, block.combine⟩

theorem Clean.encode_filter {block : FilterBlock} (clean : block.Clean) (side : Side) :
    block.filter.encode side = .ok block := by
  refine Filter.encode_eq_ok.mpr ⟨fun slot => ?_, rfl⟩
  have condition : block.filter.conditions.get slot = (block.entries.get slot).condition :=
    Vector.getElem_map _ slot.isLt
  rw [condition]
  exact (clean _ (Vector.getElem_mem slot.isLt)).encode_condition side slot

end FilterBlock

theorem Filter.encode_clean {side : Side} {filter : Filter} {block : FilterBlock}
    (made : filter.encode side = .ok block) : block.Clean := by
  intro entry member
  obtain ⟨slot, inside, rfl⟩ := Vector.mem_iff_getElem.mp member
  exact BlockEntry.encode_clean ((encode_eq_ok.mp made).1 ⟨slot, inside⟩)

end JoinEngine
