import JoinEngine.Expr
import Mathlib.Data.List.DropRight
import Mathlib.Data.String.Basic

/-!
Texts in bytes, in pieces and without the blanks around them. The pieces of a text are
those of `List.splitOn`, and a trimmed text is the part between the blanks at its ends.
-/

namespace JoinEngine.Text

theorem byteLength_cons (c : Char) (text : List Char) :
    byteLength (c :: text) = c.utf8Size + byteLength text := by
  have shifted : ∀ (text : List Char) (start : Nat),
      text.foldl (fun length c => length + c.utf8Size) start = start + byteLength text := by
    intro text
    induction text with
    | nil => intro start; rfl
    | cons first rest ih =>
        intro start
        simp only [byteLength, List.foldl_cons]
        rw [ih, ih (0 + first.utf8Size)]
        omega
  rw [byteLength, List.foldl_cons, shifted, Nat.zero_add]

theorem byteLength_eq_utf8ByteSize (text : List Char) :
    byteLength text = (String.ofList text).utf8ByteSize := by
  rw [String.utf8ByteSize_ofList]
  induction text with
  | nil => rfl
  | cons c rest ih => rw [byteLength_cons, ih, String.utf8Len_cons, Nat.add_comm]

theorem byteLength_append (text more : List Char) :
    byteLength (text ++ more) = byteLength text + byteLength more := by
  simp only [byteLength_eq_utf8ByteSize, String.ofList_append, String.utf8ByteSize_append]

section Pieces
variable {separator : Char} {text left right : List Char}

theorem pieces_eq_splitOn : pieces separator text = text.splitOn separator := by
  induction text with
  | nil => rfl
  | cons c rest ih =>
      rw [pieces, ih, List.splitOn_cons_eq_if_modifyHead]
      by_cases same : c = separator
      · rw [if_pos same, if_pos (beq_iff_eq.mpr same)]
      · rw [if_neg same, if_neg (mt beq_iff_eq.mp same)]
        cases split : rest.splitOn separator with
        | nil => exact absurd split (List.splitOn_ne_nil _ _)
        | cons first others => rfl

theorem splitOnce?_eq_some :
    splitOnce? separator text = some (left, right) ↔
      text = left ++ separator :: right ∧ separator ∉ left := by
  induction text generalizing left with
  | nil => simp [splitOnce?]
  | cons c rest ih =>
      by_cases same : c = separator
      · -- The first separator is here, so nothing is in front of it.
        rw [splitOnce?, if_pos same, same]
        cases left with
        | nil => simp [eq_comm]
        | cons first more =>
            simp only [Option.some.injEq, Prod.mk.injEq, List.cons_append, List.cons.injEq,
              List.mem_cons, reduceCtorEq, false_and, false_iff]
            rintro ⟨⟨rfl, _⟩, absent⟩
            exact absent (.inl rfl)
      · rw [splitOnce?, if_neg same, Option.map_eq_some_iff]
        cases left with
        | nil => simp [same]
        | cons first more =>
            simp only [Prod.exists, Prod.mk.injEq, List.cons.injEq, List.cons_append, List.mem_cons,
              not_or]
            constructor
            · rintro ⟨front, back, split, ⟨rfl, rfl⟩, rfl⟩
              obtain ⟨rfl, absent⟩ := ih.mp split
              exact ⟨⟨rfl, rfl⟩, Ne.symm same, absent⟩
            · rintro ⟨⟨rfl, parts⟩, _, absent⟩
              exact ⟨more, right, ih.mpr ⟨parts, absent⟩, ⟨rfl, rfl⟩, rfl⟩

end Pieces

section Trim
variable {text core : List Char}

/-- A text with blanks around a core that neither begins nor ends with one. -/
structure Trims (text core : List Char) : Prop where
  around : ∃ before after, text = before ++ core ++ after ∧
    (∀ c ∈ before, isBlank c) ∧ ∀ c ∈ after, isBlank c
  head : ∀ c ∈ core.head?, ¬ isBlank c
  last : ∀ c ∈ core.getLast?, ¬ isBlank c

theorem trims_trim (text : List Char) : Trims text (trim text) := by
  change Trims text ((text.dropWhile isBlank).rdropWhile isBlank)
  refine ⟨⟨text.takeWhile isBlank, (text.dropWhile isBlank).rtakeWhile isBlank, ?_,
    fun _ => List.mem_takeWhile_imp, fun _ => List.mem_rtakeWhile_imp⟩, fun c first => ?_,
    fun c last => ?_⟩
  · rw [List.append_assoc, List.rdropWhile_append_rtakeWhile, List.takeWhile_append_dropWhile]
  · -- Without the blanks at its end the text begins as it did with them.
    obtain ⟨rest, same⟩ := List.rdropWhile_prefix isBlank (text.dropWhile isBlank)
    have front : (text.dropWhile isBlank).head? = some c := by
      rw [← same, List.head?_append, first]
      rfl
    have filled := List.head?_dropWhile_not isBlank text
    rw [front] at filled
    simp [filled]
  · obtain ⟨filled, rfl⟩ := List.mem_getLast?_eq_getLast last
    exact List.rdropWhile_last_not isBlank _ filled

/-- Only blanks are trimmed away. -/
theorem mem_trim {c : Char} (filled : ¬ isBlank c) : c ∈ trim text ↔ c ∈ text := by
  obtain ⟨before, after, parts, blankBefore, blankAfter⟩ := (trims_trim text).around
  have notBefore : c ∉ before := fun member => filled (blankBefore c member)
  have notAfter : c ∉ after := fun member => filled (blankAfter c member)
  constructor
  · intro member
    rw [parts]
    exact List.mem_append_left _ (List.mem_append_right _ member)
  · intro member
    rw [parts] at member
    rcases List.mem_append.mp member with front | behind
    · exact (List.mem_append.mp front).resolve_left notBefore
    · exact absurd behind notAfter

theorem Trims.trim_eq (trims : Trims text core) : trim text = core := by
  obtain ⟨before, after, rfl, blankBefore, blankAfter⟩ := trims.around
  change ((before ++ core ++ after).dropWhile isBlank).rdropWhile isBlank = core
  rw [List.append_assoc, List.dropWhile_append_of_pos blankBefore]
  cases core with
  | nil =>
      rw [List.nil_append, List.dropWhile_eq_nil_iff.mpr blankAfter]
      rfl
  | cons c rest =>
      rw [List.cons_append, List.dropWhile_cons_of_neg (trims.head c rfl), ← List.cons_append,
        List.rdropWhile, List.reverse_append,
        List.dropWhile_append_of_pos (by simpa using blankAfter)]
      exact List.rdropWhile_eq_self_iff.mpr fun filled =>
        trims.last _ (List.getLast?_eq_some_getLast filled)

end Trim

/-!
Texts read byte by byte. A byte and a part of a text are looked up by offset, and there is
nothing to find past the end or, for a part, off the boundaries between characters. Behind
a front of whole characters stands the first byte of the next one, which tells an ASCII
character from all others.
-/

def byteAt? (source : String) (position : Nat) : Option UInt8 :=
  source.toByteArray[position]?

/-- The part between two offsets, if both are boundaries and in order. -/
def slice? (source : String) (first last : Nat) : Option (List Char) := do
  let start ← source.pos? ⟨first⟩
  let stop ← source.pos? ⟨last⟩
  let part ← source.slice? start stop
  return part.copy.toList

def ascii? (byte : UInt8) : Option Char :=
  if byte < 128 then some (Char.ofUInt8 byte) else none

def lead (c : Char) : UInt8 :=
  (String.utf8EncodeChar c).head String.utf8EncodeChar_ne_nil

theorem byteLength_toList (source : String) : byteLength source.toList = source.utf8ByteSize := by
  rw [byteLength_eq_utf8ByteSize, String.ofList_toList]

theorem byteLength_singleton (c : Char) : byteLength [c] = c.utf8Size :=
  Nat.zero_add c.utf8Size

theorem byteLength_concat (front : List Char) (c : Char) :
    byteLength (front ++ [c]) = byteLength front + c.utf8Size := by
  rw [byteLength_append, byteLength_singleton]

section Lead
variable {c : Char}

theorem ascii?_lead_of_single (single : c.utf8Size = 1) : ascii? (lead c) = some c := by
  have small : c.val.toNat ≤ 127 := UInt32.le_iff_toNat_le.mp (Char.utf8Size_eq_one_iff.mp single)
  have same : lead c = c.val.toUInt8 := by
    simp only [lead, String.utf8EncodeChar_eq_singleton single, List.head_cons]
  have number : c.val.toUInt8.toNat = c.val.toNat := by
    rw [UInt32.toNat_toUInt8]
    omega
  have below : c.val.toUInt8 < 128 := by
    rw [UInt8.lt_iff_toNat_lt, number]
    exact Nat.lt_succ_of_le small
  rw [ascii?, same, if_pos below]
  refine congrArg some (Char.ext (UInt32.toNat_inj.mp ?_))
  change c.val.toUInt8.toUInt32.toNat = c.val.toNat
  rw [UInt8.toNat_toUInt32, number]

/-- The first byte of a longer character has its two highest bits set. -/
theorem lead_of_wide (wide : c.utf8Size ≠ 1) : ∃ bits, lead c = bits ||| 0xc0 := by
  rcases c.utf8Size_eq with one | two | three | four
  · exact absurd one wide
  · refine ⟨(c.val >>> 6).toUInt8 &&& 0x1f, ?_⟩
    simp only [lead, String.utf8EncodeChar_eq_cons_cons two, List.head_cons]
  · refine ⟨(c.val >>> 12).toUInt8 &&& 0x0f ||| 0xe0, ?_⟩
    simp only [lead, String.utf8EncodeChar_eq_cons_cons_cons three, List.head_cons, UInt8.or_assoc]
    rfl
  · refine ⟨(c.val >>> 18).toUInt8 &&& 0x07 ||| 0xf0, ?_⟩
    simp only [lead, String.utf8EncodeChar_eq_cons_cons_cons_cons four, List.head_cons,
      UInt8.or_assoc]
    rfl

theorem ascii?_lead_of_wide (wide : c.utf8Size ≠ 1) : ascii? (lead c) = none := by
  obtain ⟨bits, same⟩ := lead_of_wide wide
  have high : 0xc0 ≤ bits.toNat ||| 0xc0 := Nat.right_le_or
  apply if_neg
  rw [same, UInt8.lt_iff_toNat_lt, UInt8.toNat_or]
  exact Nat.not_lt.mpr (Nat.le_trans (by decide) high)

end Lead

theorem byteAt?_eq_getElem? (source : String) (position : Nat) :
    byteAt? source position = source.toByteArray.data.toList[position]? := by
  rw [Array.getElem?_toList]
  rfl

theorem byteAt?_append (front back : String) :
    byteAt? (front ++ back) front.utf8ByteSize = byteAt? back 0 := by
  rw [byteAt?_eq_getElem?, byteAt?_eq_getElem?, String.toByteArray_append, ByteArray.data_append,
    Array.toList_append, List.getElem?_append_right, ← String.size_toByteArray]
  · simp
  · simp

theorem pos?_offset {source : String} (place : source.Pos) :
    source.pos? place.offset = some place := by
  have valid : place.offset.isValidForSlice source.toSlice = true :=
    String.Pos.Raw.isValidForSlice_eq_true_iff.mpr place.toSlice.isValidForSlice
  change Option.map _ (dite _ _ _) = _
  rw [dif_pos valid]
  rfl

section Parts
variable {source : String} {front middle back : List Char}

theorem eq_append_of_toList (parts : source.toList = front ++ back) :
    source = String.ofList front ++ String.ofList back := by
  rw [← String.ofList_append, ← parts, String.ofList_toList]

theorem byteLength_lt {c : Char} (parts : source.toList = front ++ c :: back) :
    byteLength front < source.utf8ByteSize := by
  have filled := c.utf8Size_pos
  rw [← byteLength_toList, parts, byteLength_append, byteLength_cons]
  omega

theorem byteLength_not_lt (whole : source.toList = front) :
    ¬ byteLength front < source.utf8ByteSize := by
  rw [← byteLength_toList, whole]
  exact Nat.lt_irrefl (byteLength front)

theorem byteAt?_front {c : Char} (parts : source.toList = front ++ c :: back) :
    byteAt? source (byteLength front) = some (lead c) := by
  rw [eq_append_of_toList parts, byteLength_eq_utf8ByteSize, byteAt?_append, byteAt?_eq_getElem?,
    String.toByteArray_ofList, List.utf8Encode_cons, List.utf8Encode_singleton,
    ByteArray.data_append, Array.toList_append, List.toList_data_toByteArray,
    ← List.head?_eq_getElem?, List.head?_append,
    List.head?_eq_some_head String.utf8EncodeChar_ne_nil]
  rfl

/-- A front of whole characters ends on a boundary. -/
theorem pos?_front (parts : source.toList = front ++ back) :
    ∃ place : source.Pos, source.pos? ⟨byteLength front⟩ = some place ∧
      place.Splits (String.ofList front) (String.ofList back) := by
  have splits := String.Pos.splits_ofEqAppend (eq_append_of_toList parts)
  refine ⟨_, ?_, splits⟩
  rw [← pos?_offset, splits.offset_eq_rawEndPos, byteLength_eq_utf8ByteSize]
  rfl

theorem isValid_front (parts : source.toList = front ++ back) :
    String.Pos.Raw.IsValid source ⟨byteLength front⟩ := by
  refine String.Pos.Raw.isValid_iff_exists_append.mpr ⟨_, _, eq_append_of_toList parts, ?_⟩
  rw [byteLength_eq_utf8ByteSize]
  rfl

theorem slice?_between (parts : source.toList = front ++ middle ++ back) :
    slice? source (byteLength front) (byteLength (front ++ middle)) = some middle := by
  obtain ⟨start, first, starts⟩ := pos?_front (parts.trans (List.append_assoc _ _ _))
  obtain ⟨stop, last, stops⟩ := pos?_front parts
  rw [String.ofList_append] at starts stops
  obtain ⟨ordered, copied⟩ := String.copy_slice_eq_iff_splits.mpr ⟨_, _, starts, stops⟩
  have cut : source.slice? start stop = some (source.slice start stop ordered) := dif_pos ordered
  rw [slice?, first, last]
  change (source.slice? start stop).bind _ = _
  rw [cut]
  change some (source.slice start stop ordered).copy.toList = _
  rw [copied, String.toList_ofList]

theorem slice?_behind (parts : source.toList = front ++ back) :
    slice? source (byteLength front) source.utf8ByteSize = some back := by
  rw [← byteLength_toList, parts]
  exact slice?_between (parts.trans (List.append_nil _).symm)

/-- A cut inside a character finds nothing. -/
example : slice? "aλ" 0 2 = none := by decide

end Parts

end JoinEngine.Text
