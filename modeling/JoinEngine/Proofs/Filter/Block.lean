import JoinEngine.Filter.Block
import Mathlib.Algebra.Group.Nat.Defs
import Mathlib.Data.List.Basic

/-!
Words of four-bit codes. Codes that are packed into a word stand there in order,
and a word is known from its codes. Comparisons and connectives are known from
their codes.
-/

namespace JoinEngine

theorem shiftRight_eq_zero_iff {word shift : UInt32} (inside : shift.toNat < 32) :
    word >>> shift = 0 ↔ word.toNat < 2 ^ shift.toNat := by
  rw [← UInt32.toNat_inj, UInt32.toNat_shiftRight, Nat.mod_eq_of_lt inside,
    Nat.shiftRight_eq_div_pow, UInt32.toNat_zero, Nat.div_eq_zero_iff_lt (Nat.two_pow_pos _)]

theorem codeAt_toNat (word : UInt32) (index : Nat) :
    (codeAt word index).toNat = word.toNat / 16 ^ index % 16 := by
  rw [codeAt, Nat.shiftRight_eq_div_pow, Nat.pow_mul]
  exact UInt8.toNat_ofNat_of_lt' (Nat.lt_trans (Nat.mod_lt _ (by decide)) (by decide))

def packed (codes : List UInt8) : UInt32 :=
  codes.foldr (fun code rest => rest <<< 4 ||| code.toUInt32) 0

section Packed
variable {code : UInt8} {codes : List UInt8}

theorem packed_cons_toNat (small : code.toNat < 16) (room : (packed codes).toNat < 2 ^ 28) :
    (packed (code :: codes)).toNat = 16 * (packed codes).toNat + code.toNat := by
  change (packed codes <<< 4 ||| code.toUInt32).toNat = _
  have shifted : (packed codes <<< 4).toNat = (packed codes).toNat <<< 4 := by
    rw [UInt32.toNat_shiftLeft]
    simp only [Nat.shiftLeft_eq]
    exact Nat.mod_eq_of_lt (by simp; omega)
  rw [UInt32.toNat_or, shifted, UInt8.toNat_toUInt32,
    ← Nat.shiftLeft_add_eq_or_of_lt (show code.toNat < 2 ^ 4 from small), Nat.shiftLeft_eq]
  omega

theorem packed_lt (short : codes.length ≤ 8) (small : ∀ code ∈ codes, code.toNat < 16) :
    (packed codes).toNat < 16 ^ codes.length := by
  induction codes with
  | nil => decide
  | cons code rest ih =>
      obtain ⟨first, others⟩ := List.forall_mem_cons.mp small
      have below := ih (by simp at short; omega) others
      have room : 16 ^ rest.length ≤ 16 ^ 7 :=
        Nat.pow_le_pow_right (by decide) (by simp at short; omega)
      rw [packed_cons_toNat first (by omega), List.length_cons, Nat.pow_succ]
      omega

theorem codeAt_packed (short : codes.length ≤ 8) (small : ∀ code ∈ codes, code.toNat < 16)
    {index : Nat} (inside : index < codes.length) : codeAt (packed codes) index = codes[index] := by
  induction codes generalizing index with
  | nil => cases inside
  | cons code rest ih =>
      obtain ⟨first, others⟩ := List.forall_mem_cons.mp small
      have shorter : rest.length ≤ 7 := Nat.le_of_succ_le_succ short
      have below := packed_lt (by omega) others
      have room : 16 ^ rest.length ≤ 16 ^ 7 := Nat.pow_le_pow_right (by decide) shorter
      have whole := packed_cons_toNat first (show (packed rest).toNat < 2 ^ 28 by omega)
      apply UInt8.toNat_inj.mp
      cases index with
      | zero =>
          rw [codeAt_toNat, whole, List.getElem_cons_zero]
          omega
      | succ index =>
          rw [List.getElem_cons_succ, ← ih (by omega) others (by simpa using inside), codeAt_toNat,
            codeAt_toNat, whole, Nat.pow_succ', ← Nat.div_div_eq_div_mul]
          have lower : (16 * (packed rest).toNat + code.toNat) / 16 = (packed rest).toNat := by
            omega
          rw [lower]

end Packed

theorem digits_unique {count left right : Nat} (inLeft : left < 16 ^ count)
    (inRight : right < 16 ^ count)
    (agree : ∀ index < count, left / 16 ^ index % 16 = right / 16 ^ index % 16) :
    left = right := by
  induction count generalizing left right with
  | zero => simp at inLeft inRight; omega
  | succ count ih =>
      have lowest := agree 0 (by omega)
      rw [Nat.pow_succ] at inLeft inRight
      have higher : left / 16 = right / 16 := by
        refine ih (by omega) (by omega) fun index below => ?_
        have digit := agree (index + 1) (by omega)
        rwa [Nat.pow_succ', ← Nat.div_div_eq_div_mul, ← Nat.div_div_eq_div_mul] at digit
      simp at lowest
      omega

/-- A word that has no more than some codes is these codes. -/
theorem packed_codeAt {word : UInt32} {count : Nat} (short : count ≤ 8)
    (below : word.toNat < 16 ^ count) :
    packed ((List.range count).map (codeAt word)) = word := by
  have small : ∀ code ∈ (List.range count).map (codeAt word), code.toNat < 16 := by
    intro code member
    obtain ⟨index, _, rfl⟩ := List.mem_map.mp member
    rw [codeAt_toNat]
    exact Nat.mod_lt _ (by decide)
  have length : ((List.range count).map (codeAt word)).length = count := by simp
  have bounded := packed_lt (by omega) small
  rw [length] at bounded
  refine UInt32.toNat_inj.mp (digits_unique bounded below fun index inside => ?_)
  rw [← codeAt_toNat, ← codeAt_toNat, codeAt_packed (by omega) small (by omega)]
  simp

/-- A table of codes, in which everything stands at the index that is its code. -/
theorem getElem?_code_eq_some {Item : Type} {all : List Item} {code : Item → UInt8}
    (listed : ∀ index (inside : index < all.length), (code all[index]).toNat = index)
    (complete : ∀ item, all[(code item).toNat]? = some item) {byte : UInt8} {item : Item} :
    all[byte.toNat]? = some item ↔ code item = byte := by
  constructor
  · intro found
    obtain ⟨inside, rfl⟩ := List.getElem?_eq_some_iff.mp found
    exact UInt8.toNat_inj.mp (listed byte.toNat inside)
  · rintro rfl
    exact complete item

namespace Comparison

theorem code_lt (op : Comparison) : op.code.toNat < 16 := by
  cases op <;> decide

theorem ofCode?_eq_some {code : UInt8} {op : Comparison} :
    ofCode? code = some op ↔ op.code = code :=
  getElem?_code_eq_some (by decide) fun op => by cases op <;> rfl

@[simp] theorem ofCode?_code (op : Comparison) : ofCode? op.code = some op :=
  ofCode?_eq_some.mpr rfl

end Comparison

namespace Connective

theorem code_lt (connective : Connective) : connective.code.toNat < 16 := by
  cases connective <;> decide

theorem ofCode?_eq_some {code : UInt8} {connective : Connective} :
    ofCode? code = some connective ↔ connective.code = code :=
  getElem?_code_eq_some (by decide) fun connective => by cases connective <;> rfl

@[simp] theorem ofCode?_code (connective : Connective) :
    ofCode? connective.code = some connective :=
  ofCode?_eq_some.mpr rfl

end Connective

/-!
The words of a filter block. Reading accepts the words of blocks and nothing else,
and gives the block back.
-/

namespace Combine

theorem word_eq (combine : Combine) :
    combine.word = packed (combine.pairs.toList.map Connective.code) := by
  rw [word, packed, List.foldr_map]

theorem codes_small (combine : Combine) :
    ∀ code ∈ combine.pairs.toList.map Connective.code, code.toNat < 16 := by
  intro code member
  obtain ⟨connective, _, rfl⟩ := List.mem_map.mp member
  exact connective.code_lt

theorem codeAt_word (combine : Combine) (index : Nat) (inside : index < 6) :
    codeAt combine.word index = combine.pairs[index].code := by
  rw [word_eq, codeAt_packed (by simp) combine.codes_small (by simpa using inside)]
  simp

theorem read_word (combine : Combine) : read combine.word = combine := by
  obtain ⟨pairs⟩ := combine
  refine congrArg Combine.mk (Vector.ext fun index inside => ?_)
  have code := codeAt_word ⟨pairs⟩ index inside
  rw [Vector.getElem_ofFn, code, Connective.ofCode?_code, Option.getD_some]

theorem fault?_eq_none {word : UInt32} :
    fault? word = none ↔
      ∀ index < 6, ∃ connective, Connective.ofCode? (codeAt word index) = some connective := by
  simp only [fault?, List.findSome?_eq_none_iff, List.mem_range]
  refine forall_congr' fun index => imp_congr_right fun _ => ?_
  cases Connective.ofCode? (codeAt word index) <;> simp

theorem fault?_word (combine : Combine) : fault? combine.word = none :=
  fault?_eq_none.mpr fun index inside =>
    ⟨combine.pairs[index], by rw [codeAt_word combine index inside, Connective.ofCode?_code]⟩

end Combine

namespace FilterBlock

theorem combineFault?_word (combine : Combine) : combineFault? combine.word = none := by
  have below : combine.word.toNat < 16 ^ 6 := by
    rw [Combine.word_eq]
    simpa using packed_lt (by simp) combine.codes_small
  have clear : combine.word >>> 24 = 0 := (shiftRight_eq_zero_iff (by decide)).mpr below
  rw [combineFault?, if_neg (by simpa using clear)]
  exact combine.fault?_word

theorem word_read {word : UInt32} (sound : combineFault? word = none) :
    (Combine.read word).word = word := by
  unfold combineFault? at sound
  split at sound
  · cases sound
  rename_i clear
  rw [not_not] at clear
  have below : word.toNat < 16 ^ 6 := (shiftRight_eq_zero_iff (by decide)).mp clear
  have known := Combine.fault?_eq_none.mp sound
  have codes : (Combine.read word).pairs.toList.map Connective.code =
      (List.range 6).map (codeAt word) := by
    refine List.ext_getElem (by simp) fun index inLeft inRight => ?_
    obtain ⟨connective, found⟩ := known index (by simpa using inRight)
    simp [Combine.read, found, Connective.ofCode?_eq_some.mp found]
  rw [Combine.word_eq, codes, packed_codeAt (by decide) below]

end FilterBlock

namespace BlockEntry

theorem opWord_eq (entry : BlockEntry) :
    entry.opWord = packed [entry.highOp.code, entry.lowOp.code] := by
  simp [opWord, packed]

theorem codes_small (entry : BlockEntry) :
    ∀ code ∈ [entry.highOp.code, entry.lowOp.code], code.toNat < 16 := by
  simp [Comparison.code_lt]

theorem codeAt_opWord (entry : BlockEntry) :
    codeAt entry.opWord 0 = entry.highOp.code ∧ codeAt entry.opWord 1 = entry.lowOp.code := by
  rw [opWord_eq]
  exact ⟨codeAt_packed (by simp) entry.codes_small (by simp),
    codeAt_packed (by simp) entry.codes_small (by simp)⟩

theorem ofWords_opWord (entry : BlockEntry) :
    ofWords entry.low entry.high entry.opWord = entry := by
  obtain ⟨high, low⟩ := entry.codeAt_opWord
  simp [ofWords, ops, high, low]

theorem fault?_eq_none {slot : Nat} {word : UInt32} :
    fault? slot word = none ↔ word >>> 8 = 0 ∧
      (∃ op, Comparison.ofCode? (codeAt word 1) = some op) ∧
      ∃ op, Comparison.ofCode? (codeAt word 0) = some op := by
  unfold fault?
  split
  · rename_i high
    simp [high]
  · rename_i clear
    rw [not_not] at clear
    cases low : Comparison.ofCode? (codeAt word 1) <;>
      cases high : Comparison.ofCode? (codeAt word 0) <;> simp [clear, low, high]

theorem fault?_opWord (slot : Nat) (entry : BlockEntry) : fault? slot entry.opWord = none := by
  obtain ⟨high, low⟩ := entry.codeAt_opWord
  have below : entry.opWord.toNat < 16 ^ 2 := by
    rw [opWord_eq]
    exact packed_lt (by simp) entry.codes_small
  exact fault?_eq_none.mpr ⟨(shiftRight_eq_zero_iff (by decide)).mpr below,
    ⟨entry.lowOp, by simp [low]⟩, ⟨entry.highOp, by simp [high]⟩⟩

theorem opWord_ofWords {slot : Nat} {word : UInt32} (sound : fault? slot word = none)
    (low high : UInt32) : (ofWords low high word).opWord = word := by
  obtain ⟨clear, ⟨lowOp, lowFound⟩, highOp, highFound⟩ := fault?_eq_none.mp sound
  have below : word.toNat < 16 ^ 2 := (shiftRight_eq_zero_iff (by decide)).mp clear
  have codes : [(ofWords low high word).highOp.code, (ofWords low high word).lowOp.code] =
      (List.range 2).map (codeAt word) := by
    simp [ofWords, ops, lowFound, highFound, Comparison.ofCode?_eq_some.mp lowFound,
      Comparison.ofCode?_eq_some.mp highFound, List.range_succ]
  rw [opWord_eq, codes, packed_codeAt (by decide) below]

end BlockEntry

namespace FilterBlock

theorem fault?_eq_none {words : Vector UInt32 45} :
    fault? words = none ↔
      (∀ slot : Fin 4, BlockEntry.fault? slot words[3 * slot.val + 2] = none) ∧
      combineFault? (words.get 12) = none ∧
      words.toList.drop 13 = List.replicate 31 0 ++ [endMark] := by
  change _ ↔ _ ∧ combineFault? words[12] = none ∧ _
  simp [fault?, Fin.forall_fin_succ, tailFault?, and_assoc]

theorem words_entry (block : FilterBlock) (slot : Nat) (inside : slot < 4) :
    block.words[3 * slot] = block.entries[slot].low ∧
      block.words[3 * slot + 1] = block.entries[slot].high ∧
      block.words[3 * slot + 2] = block.entries[slot].opWord := by
  have first : (3 * slot + 1) / 3 = slot := by omega
  have second : (3 * slot + 2) / 3 = slot := by omega
  have rest : (3 * slot + 1) % 3 = 1 ∧ (3 * slot + 2) % 3 = 2 := by omega
  simp [words, first, second, rest, inside]

theorem words_combine (block : FilterBlock) : block.words.get 12 = block.combine.word := by
  change block.words[12] = block.combine.word
  simp [words]

theorem words_tail (block : FilterBlock) :
    block.words.toList.drop 13 = List.replicate 31 0 ++ [endMark] := by
  refine List.ext_getElem (by simp) fun index inLeft inRight => ?_
  have behind : ¬ (13 + index) / 3 < 4 := by omega
  have combine : 13 + index ≠ 12 := by omega
  by_cases last : index = 31
  · simp [words, last]
  · have mark : 13 + index ≠ 44 := by omega
    have zero : index < (List.replicate 31 (0 : UInt32)).length := by
      simp at inRight ⊢
      omega
    rw [List.getElem_append_left zero, List.getElem_replicate]
    simp [words, behind, combine, mark]

theorem words_ext {left right : Vector UInt32 45}
    (entries : ∀ slot (inside : slot < 4), left[3 * slot] = right[3 * slot] ∧
      left[3 * slot + 1] = right[3 * slot + 1] ∧ left[3 * slot + 2] = right[3 * slot + 2])
    (combine : left.get 12 = right.get 12)
    (tail : left.toList.drop 13 = right.toList.drop 13) : left = right := by
  refine Vector.ext fun index inside => ?_
  by_cases entry : index < 12
  · obtain ⟨low, high, op⟩ := entries (index / 3) (by omega)
    have place : index = 3 * (index / 3) ∨ index = 3 * (index / 3) + 1 ∨
        index = 3 * (index / 3) + 2 := by omega
    rcases place with first | second | third
    · simpa only [← first] using low
    · simpa only [← second] using high
    · simpa only [← third] using op
  · by_cases twelfth : index = 12
    · subst twelfth
      exact combine
    · have behind : 13 + (index - 13) = index := by omega
      have same := congrArg (fun words : List UInt32 => words[index - 13]?) tail
      simpa [List.getElem?_drop, behind, inside] using same

theorem read_entry (words : Vector UInt32 45) (slot : Nat) (inside : slot < 4) :
    (read words).entries[slot] =
      .ofWords words[3 * slot] words[3 * slot + 1] words[3 * slot + 2] := by
  match slot, inside with
  | 0, _ => rfl
  | 1, _ => rfl
  | 2, _ => rfl
  | 3, _ => rfl

theorem read_words (block : FilterBlock) : read block.words = block := by
  have entries : (read block.words).entries = block.entries := by
    refine Vector.ext fun slot inside => ?_
    obtain ⟨low, high, op⟩ := words_entry block slot inside
    rw [read_entry _ slot inside, low, high, op, BlockEntry.ofWords_opWord]
  have combine : (read block.words).combine = block.combine := by
    change Combine.read (block.words.get 12) = block.combine
    rw [words_combine, Combine.read_word]
  obtain ⟨_, _⟩ := block
  exact (FilterBlock.mk.injEq ..).mpr ⟨entries, combine⟩

/-- Reading accepts the words of blocks and nothing else. -/
theorem ofWords_eq_ok {words : Vector UInt32 45} {block : FilterBlock} :
    ofWords words = .ok block ↔ words = block.words := by
  constructor
  · intro accepted
    unfold ofWords at accepted
    split at accepted
    · cases accepted
    rename_i sound
    cases accepted
    obtain ⟨operators, combine, tail⟩ := fault?_eq_none.mp sound
    refine words_ext (fun slot inside => ?_) ?_ (by rw [tail, words_tail])
    · obtain ⟨low, high, op⟩ := words_entry (read words) slot inside
      rw [low, high, op, read_entry]
      exact ⟨rfl, rfl, (BlockEntry.opWord_ofWords (operators ⟨slot, inside⟩) _ _).symm⟩
    · rw [words_combine]
      exact (word_read combine).symm
  · rintro rfl
    have sound : fault? block.words = none := by
      refine fault?_eq_none.mpr ⟨fun slot => ?_, ?_, block.words_tail⟩
      · rw [(words_entry block slot slot.isLt).2.2]
        exact BlockEntry.fault?_opWord slot _
      · rw [words_combine]
        exact combineFault?_word _
    simp only [ofWords, sound, read_words]

end FilterBlock

end JoinEngine
