import JoinEngine.Proofs.Filter.Block
import JoinEngine.Proofs.Filter.Encode

/-!
What a block keeps of a filter: operators and connectives as they are, and each bound
as far as its comparison can tell bounds apart. One word is read with a sign, without
one, up to a multiple of its range, or not at all, and the operator beside it says
which.
-/

namespace JoinEngine

theorem unsigned_cut (number : Int) : ((UInt32.ofInt number).toNat : Int) = number % 2 ^ 32 := by
  have small : (number % 2 ^ 32).toNat < 4294967296 := by omega
  rw [UInt32.ofInt, UInt32.toNat_ofNat_of_lt' small]
  omega

namespace Comparison

/-- A word stands for a bound, in the way that the comparison reads words. -/
def Stands (word : UInt32) (bound : Int64) : Comparison → Prop
  | dontCare => word = 0
  | gt | lt | ge | le => word.toInt32.toInt = bound.toInt
  | gtu | ltu | geu | leu => (word.toNat : Int) = bound.toInt
  | eq | ne => (word.toNat : Int) % 2 ^ 32 = bound.toInt % 2 ^ 32

/-- Bounds that the comparison cannot tell apart. -/
def SameBound (first second : Int64) : Comparison → Prop
  | dontCare => True
  | gt | lt | ge | le | gtu | ltu | geu | leu => first = second
  | eq | ne => first.toInt % 2 ^ 32 = second.toInt % 2 ^ 32

/-- Cutting a bound to 32 bits loses nothing that its comparison reads. -/
theorem stands_cut {op : Comparison} {bound : Int64} (compared : op ≠ .dontCare)
    (taken : op.Takes bound) : op.Stands (UInt32.ofInt bound.toInt) bound := by
  have signed := signed_word (UInt32.ofInt bound.toInt)
  have unsigned := unsigned_cut bound.toInt
  cases op with
  | dontCare => exact absurd rfl compared
  | gt | lt | ge | le | gtu | ltu | geu | leu | eq | ne =>
      simp only [Takes] at taken
      simp only [Stands]
      omega

theorem stands_of_bound {side : Side} {slot : Nat} {kind : BoundKind} {op : Comparison}
    {value : Int64} {word : UInt32} (made : BlockEntry.bound side slot kind op value = .ok word) :
    op.Stands word value := by
  rcases BlockEntry.bound_eq_ok.mp made with ⟨taken, rfl⟩
  by_cases ignored : op = .dontCare
  · subst ignored
    rfl
  · rw [if_neg ignored]
    exact stands_cut ignored taken

/-- The word is known from the bound, and the bound from the word as far as it matters. -/
theorem Stands.eq_iff {op : Comparison} {word other : UInt32} {bound second : Int64}
    (stands : op.Stands word bound) (also : op.Stands other second) :
    word = other ↔ op.SameBound bound second := by
  have signed := signed_word word
  have otherSigned := signed_word other
  have small := word.toNat_lt
  have otherSmall := other.toNat_lt
  rw [← UInt32.toNat_inj]
  cases op with
  | dontCare =>
      cases stands
      cases also
      simp [SameBound]
  | gt | lt | ge | le | gtu | ltu | geu | leu =>
      simp only [Stands] at stands also
      simp only [SameBound, ← Int64.toInt_inj]
      omega
  | eq | ne =>
      simp only [Stands] at stands also
      simp only [SameBound]
      omega

end Comparison

structure Condition.Alike (condition other : Condition) : Prop where
  lowOp : condition.lowOp = other.lowOp
  highOp : condition.highOp = other.highOp
  low : condition.lowOp.SameBound condition.low other.low
  high : condition.highOp.SameBound condition.high other.high

structure BlockEntry.Keeps (entry : BlockEntry) (condition : Condition) : Prop where
  lowOp : entry.lowOp = condition.lowOp
  highOp : entry.highOp = condition.highOp
  low : condition.lowOp.Stands entry.low condition.low
  high : condition.highOp.Stands entry.high condition.high

namespace BlockEntry

theorem encode_keeps {side : Side} {slot : Nat} {condition : Condition} {entry : BlockEntry}
    (made : encode side slot condition = .ok entry) : entry.Keeps condition := by
  simp only [encode, Except.bind_eq_ok] at made
  rcases made with ⟨low, lowMade, high, highMade, made⟩
  cases made
  exact ⟨rfl, rfl, Comparison.stands_of_bound lowMade, Comparison.stands_of_bound highMade⟩

theorem Keeps.eq_iff {entry other : BlockEntry} {condition second : Condition}
    (keeps : entry.Keeps condition) (also : other.Keeps second) :
    entry = other ↔ condition.Alike second := by
  constructor
  · rintro rfl
    have lowOp : condition.lowOp = second.lowOp := keeps.lowOp.symm.trans also.lowOp
    have highOp : condition.highOp = second.highOp := keeps.highOp.symm.trans also.highOp
    have low := also.low
    have high := also.high
    rw [← lowOp] at low
    rw [← highOp] at high
    exact ⟨lowOp, highOp, (keeps.low.eq_iff low).mp rfl, (keeps.high.eq_iff high).mp rfl⟩
  · intro alike
    have low := also.low
    have high := also.high
    rw [← alike.lowOp] at low
    rw [← alike.highOp] at high
    have sameLow := (keeps.low.eq_iff low).mpr alike.low
    have sameHigh := (keeps.high.eq_iff high).mpr alike.high
    have lowOp : entry.lowOp = other.lowOp := by rw [keeps.lowOp, also.lowOp, alike.lowOp]
    have highOp : entry.highOp = other.highOp := by rw [keeps.highOp, also.highOp, alike.highOp]
    exact (BlockEntry.mk.injEq ..).mpr ⟨lowOp, highOp, sameLow, sameHigh⟩

theorem ops_opWord (entry : BlockEntry) : ops entry.opWord = (entry.lowOp, entry.highOp) := by
  exact congrArg (fun read : BlockEntry => (read.lowOp, read.highOp)) entry.ofWords_opWord

end BlockEntry

structure Filter.Alike (filter other : Filter) : Prop where
  conditions : ∀ slot, (filter.conditions.get slot).Alike (other.conditions.get slot)
  combine : filter.combine = other.combine

structure FilterBlock.Keeps (block : FilterBlock) (filter : Filter) : Prop where
  entries : ∀ slot, (block.entries.get slot).Keeps (filter.conditions.get slot)
  combine : block.combine = filter.combine

theorem Filter.encode_keeps {side : Side} {filter : Filter} {block : FilterBlock}
    (made : filter.encode side = .ok block) : block.Keeps filter := by
  obtain ⟨slots, combine⟩ := encode_eq_ok.mp made
  exact ⟨fun slot => BlockEntry.encode_keeps (slots slot), combine⟩

namespace FilterBlock

theorem ext_get {block other : FilterBlock}
    (entries : ∀ slot, block.entries.get slot = other.entries.get slot)
    (combine : block.combine = other.combine) : block = other := by
  have same : block.entries = other.entries :=
    Vector.ext fun slot inside => entries ⟨slot, inside⟩
  exact (FilterBlock.mk.injEq ..).mpr ⟨same, combine⟩

theorem Keeps.eq_iff {block other : FilterBlock} {filter second : Filter}
    (keeps : block.Keeps filter) (also : other.Keeps second) :
    block = other ↔ filter.Alike second := by
  constructor
  · rintro rfl
    exact ⟨fun slot => ((keeps.entries slot).eq_iff (also.entries slot)).mp rfl,
      keeps.combine.symm.trans also.combine⟩
  · intro alike
    apply ext_get
    · intro slot
      exact ((keeps.entries slot).eq_iff (also.entries slot)).mpr (alike.conditions slot)
    · rw [keeps.combine, also.combine, alike.combine]

theorem words_eq_iff {block other : FilterBlock} : block.words = other.words ↔ block = other := by
  constructor
  · intro same
    rw [← read_words block, same, read_words]
  · rintro rfl
    rfl

theorem ops?_eq (block : FilterBlock) (slot : Fin 4) :
    block.ops? slot = some ((block.entries.get slot).lowOp, (block.entries.get slot).highOp) := by
  have inside : 3 * slot.val + 2 < 45 := by omega
  have word := (words_entry block slot slot.isLt).2.2
  rw [ops?, Nat.mul_comm, Vector.getElem?_eq_getElem inside, word, Option.map_some,
    BlockEntry.ops_opWord]
  rfl

theorem bounds?_eq (block : FilterBlock) (slot : Fin 4) :
    block.bounds? slot = some ((block.entries.get slot).low, (block.entries.get slot).high) := by
  have low : 3 * slot.val < 45 := by omega
  have high : 3 * slot.val + 1 < 45 := by omega
  have words := words_entry block slot slot.isLt
  rw [bounds?, Nat.mul_comm, Vector.getElem?_eq_getElem low, Vector.getElem?_eq_getElem high,
    words.1, words.2.1]
  rfl

theorem ofWord_combine (block : FilterBlock) :
    Combine.ofWord (block.words.get 12) = .ok block.combine := by
  rw [words_combine, Combine.ofWord, Combine.fault?_word, Combine.read_word]

theorem pass_keeps : pass.Keeps .pass := by
  have made : Filter.encode .left .pass = .ok pass := rfl
  exact Filter.encode_keeps made

end FilterBlock

/-- Every bound is ignored and no two conditions are related. -/
theorem Filter.alike_pass_iff {filter : Filter} :
    filter.Alike .pass ↔
      (∀ slot, (filter.conditions.get slot).lowOp = .dontCare ∧
        (filter.conditions.get slot).highOp = .dontCare) ∧
      ∀ pair, filter.combine.pairs.get pair = .dontCare := by
  have slots : ∀ slot, Filter.pass.conditions.get slot = Condition.pass := by decide
  have pairs : ∀ pair, Filter.pass.combine.pairs.get pair = .dontCare := by decide
  constructor
  · intro alike
    constructor
    · intro slot
      have condition := alike.conditions slot
      rw [slots] at condition
      exact ⟨condition.lowOp, condition.highOp⟩
    · intro pair
      rw [alike.combine, pairs]
  · rintro ⟨ignored, unrelated⟩
    constructor
    · intro slot
      have low := (ignored slot).1
      have high := (ignored slot).2
      rw [slots]
      exact ⟨low, high, low ▸ trivial, high ▸ trivial⟩
    · have same : filter.combine.pairs = Filter.pass.combine.pairs := by
        apply Vector.ext
        intro pair inside
        exact (unrelated ⟨pair, inside⟩).trans (pairs ⟨pair, inside⟩).symm
      exact congrArg Combine.mk same

/-- A block has the operators and connectives of its filter, words that stand for its
bounds, and nothing else: blocks differ exactly if some comparison or connective sees a
difference, and a block lets every row pass exactly if there is nothing to see. -/
theorem filter_encoding_faithful (side : Side) (filter : Filter) (block : FilterBlock)
    (made : filter.encode side = .ok block) :
    (∀ slot : Fin 4, ∃ low high,
      block.ops? slot =
        some ((filter.conditions.get slot).lowOp, (filter.conditions.get slot).highOp) ∧
      block.bounds? slot = some (low, high) ∧
      (filter.conditions.get slot).lowOp.Stands low (filter.conditions.get slot).low ∧
      (filter.conditions.get slot).highOp.Stands high (filter.conditions.get slot).high) ∧
    Combine.ofWord (block.words.get 12) = .ok filter.combine ∧
    FilterBlock.ofWords block.words = .ok block ∧
    (∀ (otherSide : Side) (other : Filter) (otherBlock : FilterBlock),
      other.encode otherSide = .ok otherBlock →
        (block = otherBlock ↔ filter.Alike other) ∧
        (block.words = otherBlock.words ↔ filter.Alike other)) ∧
    (block.isPass ↔
      (∀ slot, (filter.conditions.get slot).lowOp = .dontCare ∧
        (filter.conditions.get slot).highOp = .dontCare) ∧
      ∀ pair, filter.combine.pairs.get pair = .dontCare) := by
  have keeps := Filter.encode_keeps made
  refine ⟨fun slot => ?_, ?_, FilterBlock.ofWords_eq_ok.mpr rfl, ?_, ?_⟩
  · have entry := keeps.entries slot
    have ops := block.ops?_eq slot
    rw [entry.lowOp, entry.highOp] at ops
    exact ⟨_, _, ops, block.bounds?_eq slot, entry.low, entry.high⟩
  · rw [block.ofWord_combine, keeps.combine]
  · intro otherSide other otherBlock otherMade
    have alike := keeps.eq_iff (Filter.encode_keeps otherMade)
    exact ⟨alike, FilterBlock.words_eq_iff.trans alike⟩
  · have alike := keeps.eq_iff FilterBlock.pass_keeps
    rw [← Filter.alike_pass_iff, ← alike, FilterBlock.isPass, decide_eq_true_eq]

/-- An equality with -1 is one with the greatest word, and a bound beside no comparison
is any bound. -/
theorem wrapped_bounds_share_block :
    let combine := (Combine.all .and).relate 2 1 .xor
    let filter : Filter :=
      ⟨#v[.pass, ⟨.eq, .dontCare, -1, 99⟩, ⟨.ge, .ltu, -5, 4294967295⟩, .pass], combine⟩
    let other : Filter :=
      ⟨#v[.pass, ⟨.eq, .dontCare, 4294967295, 0⟩, ⟨.ge, .ltu, -5, 4294967295⟩, .pass], combine⟩
    let block : FilterBlock :=
      ⟨#v[.pass, ⟨.eq, .dontCare, 4294967295, 0⟩, ⟨.ge, .ltu, 4294967291, 4294967295⟩, .pass],
        combine⟩
    filter.encode .left = .ok block ∧ other.encode .right = .ok block ∧ filter ≠ other ∧
      filter.Alike other ∧ FilterBlock.ofWords block.words = .ok block := by
  intro combine filter other block
  have made : filter.encode .left = .ok block := rfl
  have otherMade : other.encode .right = .ok block := rfl
  have faithful := filter_encoding_faithful .left filter block made
  have alike := (faithful.2.2.2.1 .right other block otherMade).1.mp rfl
  exact ⟨made, otherMade, by decide, alike, faithful.2.2.1⟩

end JoinEngine
