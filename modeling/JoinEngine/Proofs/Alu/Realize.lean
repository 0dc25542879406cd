import JoinEngine.Proofs.Alu.Overflow
import JoinEngine.Proofs.Alu.Routing
import JoinEngine.Proofs.Shape.Search

/-!
Every coherent word is compiled from some expression under some table. The pattern
adds up the placeholders that the word feeds, each a different number of times, and
the expression adds up what is fed to them; so there is no other way to match them.
-/

namespace JoinEngine

namespace Poly

structure IsSum (poly : Poly) (weight : Symbol → Nat) (slots : List Symbol)
    (image : Symbol → Symbol) : Prop where
  canonical : Canonical poly.terms
  symbols : ∀ symbol ∈ poly.symbols, symbol ∈ slots.map image
  weigh_eq : ∀ value : Symbol → Int,
    weigh value poly.terms = (slots.map fun slot => weight slot * value (image slot)).sum

variable {weight : Symbol → Nat} {slots : List Symbol} {image : Symbol → Symbol}

theorem sum_indicator (weight : Symbol → Nat) (apart : KeepsApart image slots)
    (distinct : slots.Nodup) {slot : Symbol} (member : slot ∈ slots) :
    (slots.map fun other => (weight other : Int) * if image other = image slot then 1 else 0).sum =
      weight slot := by
  have same : ∀ other ∈ slots, (weight other : Int) * (if image other = image slot then 1 else 0) =
      if other = slot then (weight other : Int) else 0 := by
    intro other listed
    by_cases equal : other = slot
    · simp [equal]
    · have different : image other ≠ image slot :=
        fun images => equal (apart other listed slot member images)
      simp [equal, different]
  rw [List.map_congr_left same, List.sum_map_ite_eq, List.count_eq_one_of_mem distinct member]
  simp

theorem sum_eq_zero {target : Symbol} (weight : Symbol → Nat)
    (absent : target ∉ slots.map image) :
    (slots.map fun other => (weight other : Int) * if image other = target then 1 else 0).sum =
      0 := by
  refine List.sum_eq_zero fun value listed => ?_
  obtain ⟨other, member, rfl⟩ := List.mem_map.mp listed
  have different : image other ≠ target := fun same => absent (same ▸ List.mem_map_of_mem member)
  simp [different]

section Unique
variable {poly : Poly} (sum : poly.IsSum weight slots image) (apart : KeepsApart image slots)
  (distinct : slots.Nodup) (positive : ∀ slot ∈ slots, 0 < weight slot)
include sum apart distinct positive

theorem IsSum.mem_symbols (symbol : Symbol) :
    symbol ∈ poly.symbols ↔ symbol ∈ slots.map image := by
  refine ⟨sum.symbols symbol, fun listed => ?_⟩
  obtain ⟨slot, member, rfl⟩ := List.mem_map.mp listed
  by_contra absent
  -- A symbol that does not occur has no bearing on the value.
  have agree : ∀ other ∈ poly.symbols, (if other = image slot then (1 : Int) else 0) = 0 := by
    intro other occurs
    exact if_neg fun equal : other = image slot => absent (equal ▸ occurs)
  have same := weigh_congr poly agree
  have nothing : (slots.map fun other => (weight other : Int) * 0).sum = 0 := by simp
  rw [sum.weigh_eq, sum.weigh_eq, sum_indicator weight apart distinct member, nothing] at same
  have heavy := positive slot member
  omega

/-- Under any renaming of a sum into another, each symbol comes from one of its weight. -/
theorem IsSum.matched {pattern : Poly} {otherWeight : Symbol → Nat} {otherSlots : List Symbol}
    {rename : Symbol → Symbol} (other : pattern.IsSum otherWeight otherSlots id)
    (otherApart : KeepsApart rename otherSlots) (otherDistinct : otherSlots.Nodup)
    (renamed : pattern.rename rename = poly) :
    ∀ slot ∈ slots,
      ∃ old ∈ otherSlots, rename old = image slot ∧ otherWeight old = weight slot := by
  intro slot member
  have heavy := positive slot member
  -- Where one symbol counts and no other does, each sum is worth the weight of that symbol.
  have weighed := sum.weigh_eq fun symbol => if symbol = image slot then 1 else 0
  rw [sum_indicator weight apart distinct member] at weighed
  have kept : pattern.rename rename ≠ zero := by
    rw [renamed]
    rintro rfl
    have nothing : (0 : Int) = weight slot := weighed
    omega
  rw [← renamed, rename_weigh _ rename pattern kept, other.weigh_eq] at weighed
  by_cases present : image slot ∈ otherSlots.map rename
  · obtain ⟨old, listed, same⟩ := List.mem_map.mp present
    refine ⟨old, listed, same, ?_⟩
    have once := sum_indicator otherWeight otherApart otherDistinct listed
    rw [same] at once
    exact_mod_cast once.symm.trans weighed
  · have nothing := sum_eq_zero otherWeight present
    have impossible := nothing.symm.trans weighed
    omega

end Unique

theorem isZero_of_mem_symbols {poly : Poly} {symbol : Symbol} (occurs : symbol ∈ poly.symbols) :
    poly.isZero = false := by
  obtain ⟨term, present, _⟩ := (Poly.mem_symbols poly symbol).mp occurs
  exact List.isEmpty_eq_false_iff_exists_mem.mpr ⟨term, present⟩

theorem ofExpr_total {limit : Nat} {sum : Expr} {names : List Symbol}
    (free : (sum.total names).NeverOverflows limit)
    (folded : ∃ poly, ofExpr limit sum = .ok poly) :
    ∃ poly, ofExpr limit (sum.total names) = .ok poly := by
  induction names using List.reverseRecOn with
  | nil => exact folded
  | append_singleton names name ih =>
      rw [Expr.total_concat] at free ⊢
      obtain ⟨first, leftFolded⟩ := ih free.1
      obtain ⟨result, added⟩ := free.2.2 first (ofSymbol name) leftFolded rfl
      refine ⟨result, Except.bind_eq_ok.mpr ⟨first, leftFolded, ?_⟩⟩
      exact Except.bind_eq_ok.mpr ⟨ofSymbol name, rfl, inRange_eq_ok.mpr added⟩

def repeated (weight : Symbol → Nat) (slots : List Symbol) (image : Symbol → Symbol) :
    List Symbol :=
  slots.flatMap fun slot => List.replicate (weight slot) (image slot)

theorem sum_repeated (value : Symbol → Int) :
    ((repeated weight slots image).map value).sum =
      (slots.map fun slot => weight slot * value (image slot)).sum := by
  induction slots with
  | nil => rfl
  | cons slot rest ih => simp [repeated, ← ih]

/-- Such sums can be written. -/
theorem exists_sum {vocabulary : Vocabulary} (nonempty : slots ≠ [])
    (positive : ∀ slot ∈ slots, 0 < weight slot)
    (named : ∀ slot ∈ slots, vocabulary.Names (image slot)) (few : (slots.map weight).sum ≤ 128) :
    ∃ source tree, Expr.parse vocabulary source = .ok tree ∧
      ∀ limit ≤ 4, ∃ poly, ofExpr limit tree = .ok poly ∧ poly.IsSum weight slots image := by
  have inside : ∀ name ∈ repeated weight slots image, name ∈ slots.map image := by
    intro name listed
    obtain ⟨slot, member, copied⟩ := List.mem_flatMap.mp listed
    rw [List.eq_of_mem_replicate copied]
    exact List.mem_map_of_mem member
  have length : (repeated weight slots image).length = (slots.map weight).sum := by
    simp [repeated, List.length_flatMap]
  cases listed : repeated weight slots image with
  | nil =>
      -- There is no text for an empty sum, but some symbol has a weight.
      obtain ⟨slot, member⟩ := List.exists_mem_of_ne_nil _ nonempty
      have heavy := positive slot member
      have none := List.flatMap_eq_nil_iff.mp listed slot member
      rw [List.replicate_eq_nil_iff] at none
      omega
  | cons first rest =>
      rw [listed] at inside length
      have names : ∀ name ∈ first :: rest, vocabulary.Names name := by
        intro name present
        obtain ⟨slot, member, rfl⟩ := List.mem_map.mp (inside name present)
        exact named slot member
      rw [List.length_cons] at length
      obtain ⟨source, parsed⟩ := Expr.parse_total names (by omega)
      refine ⟨source, _, parsed, fun limit low => ?_⟩
      have free := neverOverflows low (Expr.leaves_of_parse parsed)
      obtain ⟨poly, folded⟩ := ofExpr_total free ⟨ofSymbol first, rfl⟩
      obtain ⟨head, tail⟩ := List.forall_mem_cons.mp inside
      refine ⟨poly, folded, (ofExpr_folds folded).canonical,
        ofExpr_symbols folded (Expr.total_over head tail), fun value => ?_⟩
      rw [(ofExpr_folds folded).weigh_eq, Expr.eval_total, ← sum_repeated, listed]
      rfl

end Poly

theorem Vocabulary.names_of_numbered {symbol : Symbol} (numbered : Numbered symbol) :
    expression.Names symbol := by
  have range {number : UInt8} (least : 1 ≤ number) (most : number ≤ 4) :
      number = 1 ∨ number = 2 ∨ number = 3 ∨ number = 4 := by
    have low := UInt8.le_iff_toNat_le.mp least
    have high := UInt8.le_iff_toNat_le.mp most
    simp only [← UInt8.toNat_inj, UInt8.reduceToNat] at low high ⊢
    omega
  cases symbol with
  | stream number =>
      rcases range numbered.1 numbered.2 with rfl | rfl | rfl | rfl
      · exact ⟨['s', 't', 'r', 'm', '1'], by decide⟩
      · exact ⟨['s', 't', 'r', 'm', '2'], by decide⟩
      · exact ⟨['s', 't', 'r', 'm', '3'], by decide⟩
      · exact ⟨['s', 't', 'r', 'm', '4'], by decide⟩
  | constant number =>
      rcases range numbered.1 numbered.2 with rfl | rfl | rfl | rfl
      · exact ⟨['c', '1'], by decide⟩
      · exact ⟨['c', '2'], by decide⟩
      · exact ⟨['c', '3'], by decide⟩
      · exact ⟨['c', '4'], by decide⟩

namespace Symbol

def placeholders : List Symbol := [.stream 0, .stream 1, .stream 2, .constant 0]

/-- How often a placeholder is added up, from `base` on another number for each port. -/
def weight (base : Nat) : Symbol → Nat
  | .stream slot => base + slot.toNat + 1
  | .constant _ => base + 1

theorem weight_pos (base : Nat) (symbol : Symbol) : 0 < weight base symbol := by
  cases symbol <;> exact Nat.succ_pos _

theorem placeholder_of_mem {symbol : Symbol} (listed : symbol ∈ placeholders) :
    Vocabulary.Placeholder symbol := by
  have all : ∀ symbol ∈ placeholders, Vocabulary.Placeholder symbol := by
    simp [placeholders, Vocabulary.Placeholder]
  exact all symbol listed

theorem names_of_mem {symbol : Symbol} (listed : symbol ∈ placeholders) :
    Vocabulary.pattern.Names symbol := by
  have all : ∀ symbol ∈ placeholders, symbol ∈ Vocabulary.pattern.table.map Prod.snd := by decide
  obtain ⟨⟨letters, same⟩, member, rfl⟩ := List.mem_map.mp (all symbol listed)
  exact ⟨letters, (Vocabulary.symbol?_eq_some _ _ _).mpr member⟩

/-- Weights tell placeholders of one kind apart, and bases that are three apart. -/
theorem weight_unique {base other : Nat} {first second : Symbol}
    (placed : Vocabulary.Placeholder first) (also : Vocabulary.Placeholder second)
    (kinds : first.isStream = second.isStream) (same : weight base first = weight other second) :
    base < other + 3 ∧ other < base + 3 ∧ (base = other → first = second) := by
  cases first with
  | stream slot =>
      cases second with
      | constant _ => cases kinds
      | stream number =>
          have inside : slot.toNat < 3 := UInt8.lt_iff_toNat_lt.mp placed
          have otherInside : number.toNat < 3 := UInt8.lt_iff_toNat_lt.mp also
          simp only [weight] at same
          refine ⟨by omega, by omega, fun equal => ?_⟩
          exact congrArg Symbol.stream (UInt8.toNat_inj.mp (by omega))
  | constant slot =>
      cases second with
      | stream _ => cases kinds
      | constant number =>
          simp only [weight] at same
          refine ⟨by omega, by omega, fun _ => ?_⟩
          exact congrArg Symbol.constant (placed.trans also.symm)

end Symbol

namespace AluWord

def image (word : AluWord) : Symbol → Symbol
  | .stream slot => .stream (word.ports[slot.toNat]?.getD 0)
  | .constant _ => .constant word.constSelect

def isFed (word : AluWord) : Symbol → Bool
  | .stream slot => word.ports[slot.toNat]?.getD 0 ≠ 0
  | .constant _ => word.constSelect ≠ 0

def slots (word : AluWord) : List Symbol := Symbol.placeholders.filter word.isFed

variable {word other : AluWord}

theorem port_getD (word : AluWord) (port : Fin 3) :
    word.ports[(UInt8.ofNat port).toNat]?.getD 0 = word.ports.get port := by
  rw [Symbol.slot_toNat, Vector.getElem?_eq_getElem port.isLt]
  rfl

theorem image_onPort (word : AluWord) (port : Fin 3) :
    word.image (.onPort port) = .stream (word.ports.get port) :=
  congrArg Symbol.stream (word.port_getD port)

theorem image_isStream (word : AluWord) (symbol : Symbol) :
    (word.image symbol).isStream = symbol.isStream := by
  cases symbol <;> rfl

theorem isFed_onPort (word : AluWord) (port : Fin 3) :
    word.isFed (.onPort port) ↔ word.ports.get port ≠ 0 := by
  rw [← word.port_getD port]
  exact decide_eq_true_iff

theorem isFed_constant (word : AluWord) : word.isFed (.constant 0) ↔ word.constSelect ≠ 0 :=
  decide_eq_true_iff

theorem onPort_mem (port : Fin 3) : .onPort port ∈ Symbol.placeholders := by
  match port with
  | 0 => decide
  | 1 => decide
  | 2 => decide

theorem slots_nodup (word : AluWord) : word.slots.Nodup :=
  List.Nodup.filter _ (by decide)

theorem slots_placeholder {symbol : Symbol} (listed : symbol ∈ word.slots) :
    Vocabulary.Placeholder symbol :=
  Symbol.placeholder_of_mem (List.mem_filter.mp listed).1

theorem onPort_mem_slots (port : Fin 3) :
    .onPort port ∈ word.slots ↔ word.ports.get port ≠ 0 := by
  rw [slots, List.mem_filter, isFed_onPort]
  exact and_iff_right (onPort_mem port)

theorem constant_mem_slots : .constant 0 ∈ word.slots ↔ word.constSelect ≠ 0 := by
  rw [slots, List.mem_filter, isFed_constant]
  exact and_iff_right (by decide)

theorem FedAlike.slots_eq (alike : word.FedAlike other) : word.slots = other.slots := by
  refine List.filter_congr fun symbol listed => Bool.eq_iff_iff.mpr ?_
  rcases (Symbol.placeholder_of_mem listed).cases with ⟨port, rfl⟩ | rfl
  · rw [isFed_onPort, isFed_onPort]
    exact not_iff_not.mpr (alike.1 port)
  · rw [isFed_constant, isFed_constant]
    exact not_iff_not.mpr alike.2

theorem Coherent.slots_ne_nil (coherent : word.Coherent) : word.slots ≠ [] := by
  rcases coherent.fed with ⟨port, on⟩ | on
  · exact List.ne_nil_of_mem ((onPort_mem_slots port).mpr on)
  · exact List.ne_nil_of_mem (constant_mem_slots.mpr on)

theorem Coherent.apart (coherent : word.Coherent) : KeepsApart word.image word.slots := by
  intro first listed second also same
  have kinds := word.image_isStream first
  rw [same, word.image_isStream second] at kinds
  rcases (slots_placeholder listed).cases with ⟨port, rfl⟩ | rfl
  · rcases (slots_placeholder also).cases with ⟨otherPort, rfl⟩ | rfl
    · rw [image_onPort, image_onPort] at same
      have on := (onPort_mem_slots port).mp listed
      rw [coherent.distinct port otherPort (Symbol.stream.inj same) on]
    · cases kinds
  · rcases (slots_placeholder also).cases with ⟨otherPort, rfl⟩ | rfl
    · cases kinds
    · rfl

/-- What is fed is a stream or a register of the engine. -/
theorem Valid.image_numbered (valid : word.Valid) {symbol : Symbol} (listed : symbol ∈ word.slots) :
    Vocabulary.Numbered (word.image symbol) := by
  have range {number : UInt8} (on : number ≠ 0) (most : number.toNat ≤ 4) :
      1 ≤ number ∧ number ≤ 4 := by
    have positive : number.toNat ≠ 0 := fun zero => on (UInt8.toNat_inj.mp zero)
    exact ⟨UInt8.le_iff_toNat_le.mpr (by simpa using Nat.one_le_iff_ne_zero.mpr positive),
      UInt8.le_iff_toNat_le.mpr most⟩
  rcases (slots_placeholder listed).cases with ⟨port, rfl⟩ | rfl
  · rw [image_onPort]
    exact range ((onPort_mem_slots port).mp listed) (ports_le_of_routed valid.routed port)
  · exact range (constant_mem_slots.mp listed) (constSelect_le_of_routed valid.routed)

theorem weights_le (word : AluWord) {base : Nat} (low : base ≤ 3) :
    (word.slots.map (Symbol.weight base)).sum ≤ 128 := by
  have part : word.slots.Sublist Symbol.placeholders := List.filter_sublist
  have all : (Symbol.placeholders.map (Symbol.weight base)).sum ≤ 128 := by
    simp only [Symbol.placeholders, List.map_cons, List.map_nil, List.sum_cons, List.sum_nil,
      Symbol.weight, UInt8.reduceToNat]
    omega
  exact ((part.map _).sum_le_sum (by simp)).trans all

/-- A word that puts the same in the same places has the same ports and register. -/
theorem Runs.fed_eq {made : ShapeEntry} {poly : Poly} {pairs : Renaming}
    (runs : other.Runs made poly pairs)
    (symbols : ∀ symbol, symbol ∈ made.poly.symbols ↔ symbol ∈ word.slots)
    (images : ∀ symbol ∈ word.slots, Renaming.image pairs symbol = word.image symbol) :
    other.ports = word.ports ∧ other.constSelect = word.constSelect := by
  constructor
  · refine Vector.ext fun index inside => ?_
    have fed := (runs.port_ne_zero_iff ⟨index, inside⟩).trans
      ((symbols _).trans (onPort_mem_slots ⟨index, inside⟩))
    -- A port without a placeholder is free in both words.
    by_cases off : word.ports.get ⟨index, inside⟩ = 0
    · exact (not_not.mp (mt fed.mp (not_not.mpr off))).trans off.symm
    · have listed := (onPort_mem_slots ⟨index, inside⟩).mpr off
      have image := runs.binds.port_image made.shape ((symbols _).mpr listed)
      rw [images _ listed, image_onPort, ← runs.ports] at image
      exact (Symbol.stream.inj image).symm
  · have fed := runs.constSelect_ne_zero_iff.trans ((symbols _).trans constant_mem_slots)
    by_cases off : word.constSelect = 0
    · exact (not_not.mp (mt fed.mp (not_not.mpr off))).trans off.symm
    · have listed := constant_mem_slots.mpr off
      have image := runs.binds.constant_image made.shape ((symbols _).mpr listed)
      rw [images _ listed, ← runs.constSelect] at image
      exact (Symbol.constant.inj image).symm

/-- The ports say which streams are read. -/
theorem Coherent.streamMask_eq (coherent : word.Coherent) (also : other.Coherent)
    (small : word.streamMask.toNat < 2 ^ 4) (otherSmall : other.streamMask.toNat < 2 ^ 4)
    (ports : other.ports = word.ports) : other.streamMask = word.streamMask := by
  apply UInt8.toNat_inj.mp
  apply Nat.eq_of_testBit_eq
  intro bit
  by_cases below : bit < 4
  · have first := coherent.streams bit below
    have second := also.streams bit below
    rw [ports] at second
    exact Bool.eq_iff_iff.mpr (second.trans first.symm)
  · have high : 2 ^ 4 ≤ 2 ^ bit := Nat.pow_le_pow_right (by decide) (by omega)
    rw [Nat.testBit_lt_two_pow (by omega), Nat.testBit_lt_two_pow (by omega)]

end AluWord

structure ShapeEntry.Adds (made : ShapeEntry) (base : Nat) (slots : List Symbol) : Prop where
  sum : made.poly.IsSum (Symbol.weight base) slots id
  part : slots.Sublist Symbol.placeholders

namespace ShapeEntry.Adds
variable {made : ShapeEntry} {base : Nat} {slots : List Symbol} (adds : made.Adds base slots)
include adds

theorem nodup : slots.Nodup := adds.part.nodup (by decide)

theorem mem_symbols (symbol : Symbol) : symbol ∈ made.poly.symbols ↔ symbol ∈ slots := by
  have apart : KeepsApart id slots := fun _ _ _ _ same => same
  rw [adds.sum.mem_symbols apart adds.nodup (fun slot _ => Symbol.weight_pos base slot),
    List.map_id]

end ShapeEntry.Adds

theorem AluWord.Coherent.exists_entry {word : AluWord} (coherent : word.Coherent) {base : Nat}
    (low : base ≤ 3) (name : String) :
    ∃ pattern made, ShapeTable.entry ⟨name, word.opcode, pattern⟩ = .ok made ∧
      made.shape.opcode = word.opcode ∧ made.Adds base word.slots := by
  have named : ∀ slot ∈ word.slots, Vocabulary.pattern.Names (id slot) :=
    fun slot listed => Symbol.names_of_mem (List.mem_filter.mp listed).1
  obtain ⟨pattern, tree, parsed, folds⟩ := Poly.exists_sum coherent.slots_ne_nil
    (fun slot _ => Symbol.weight_pos base slot) named (word.weights_le low)
  obtain ⟨poly, folded, sum⟩ := folds ShapeTable.patternLimit (Nat.le_refl 4)
  have adds : ShapeEntry.Adds ⟨⟨name, word.opcode, pattern⟩, poly⟩ base word.slots :=
    ⟨sum, List.filter_sublist⟩
  obtain ⟨slot, listed⟩ := List.exists_mem_of_ne_nil _ coherent.slots_ne_nil
  have nonzero := Poly.isZero_of_mem_symbols ((adds.mem_symbols slot).mpr listed)
  exact ⟨pattern, _, ShapeTable.entry_eq_ok.mpr ⟨tree, poly, parsed, folded, nonzero, rfl⟩, rfl,
    adds⟩

namespace ConstFormat

/-- The widest format, in which every content of a register is a constant. -/
def full : ConstFormat := ⟨64, 0⟩

theorem full_valid : full.Valid := ⟨by decide, by decide, by decide⟩

theorem encode_full (register : Nat) (content : UInt64) :
    full.encode register content.toInt64 = .ok content := by
  have units : full.units content.toInt64 = content.toInt64.toInt := by simp [units, full]
  refine (encode_eq_ok full_valid).mpr ⟨?_, ?_⟩
  · rw [Fits, units]
    exact ⟨content.toInt64.le_toInt, content.toInt64.toInt_lt⟩
  · rw [units, ofInt_toInt64]

end ConstFormat

def Registers.holding (contents : Vector UInt64 4) : Registers :=
  .ofValues (contents.map UInt64.toInt64)

theorem Registers.get?_holding (contents : Vector UInt64 4) (index : Nat) :
    (holding contents).get? (index + 1) = contents[index]?.map UInt64.toInt64 := by
  simp only [get?, holding, ofValues, Vector.getElem?_map]
  cases contents[index]? <;> rfl

theorem ExprSpec.constants_holding (contents : Vector UInt64 4) :
    constants .full (.holding contents) = .ok contents := by
  refine constants_eq_ok.mpr fun index => ?_
  rw [Registers.get?_holding, Vector.getElem?_eq_getElem index.isLt]
  exact ConstFormat.encode_full _ _

section Compile
variable {shapes : List Shape} {table : ShapeTable} {word : AluWord} {base : Nat}
  {made : ShapeEntry}

theorem ShapeEntry.Adds.rename_image (adds : made.Adds base word.slots) (coherent : word.Coherent)
    {poly : Poly} (sum : poly.IsSum (Symbol.weight base) word.slots word.image) :
    KeepsApart word.image made.poly.symbols ∧ made.poly.rename word.image = poly := by
  have apart : KeepsApart word.image made.poly.symbols := fun first occurs second also =>
    coherent.apart first ((adds.mem_symbols first).mp occurs) second
      ((adds.mem_symbols second).mp also)
  refine ⟨apart, Poly.rename_eq_of_weigh_eq adds.sum.canonical sum.canonical apart fun value => ?_⟩
  rw [adds.sum.weigh_eq, sum.weigh_eq]
  rfl

/-- What the search finds for the sum of a word has weights that fit, and with the same
base it is found in one way only. -/
theorem AluWord.Runs.matched {other : AluWord} {poly : Poly} {pairs : Renaming} {otherBase : Nat}
    {slots : List Symbol} (runs : other.Runs made poly pairs) (adds : made.Adds otherBase slots)
    (coherent : word.Coherent) (sum : poly.IsSum (Symbol.weight base) word.slots word.image)
    {slot : Symbol} (listed : slot ∈ word.slots) :
    otherBase < base + 3 ∧ base < otherBase + 3 ∧
      (otherBase = base → Renaming.image pairs slot = word.image slot) := by
  have otherApart : KeepsApart (Renaming.image pairs) slots := fun first occurs second also =>
    runs.binds.apart first ((adds.mem_symbols first).mpr occurs) second
      ((adds.mem_symbols second).mpr also)
  obtain ⟨old, present, image, weights⟩ := sum.matched coherent.apart word.slots_nodup
    (fun slot _ => Symbol.weight_pos base slot) adds.sum otherApart adds.nodup runs.renamed slot
    listed
  have covered := runs.binds.covers old ((adds.mem_symbols old).mpr present)
  have kinds : old.isStream = slot.isStream := by
    rw [runs.binds.kinds _ (Renaming.image_mem covered), image, word.image_isStream]
  have placed := Symbol.placeholder_of_mem (adds.part.subset present)
  obtain ⟨below, above, unique⟩ :=
    Symbol.weight_unique placed (AluWord.slots_placeholder listed) kinds weights
  exact ⟨below, above, fun same => unique same ▸ image⟩

theorem AluWord.Valid.bound (valid : word.Valid) {poly : Poly} {weight : Symbol → Nat}
    (sum : poly.IsSum weight word.slots word.image) (contents : Vector UInt64 4) :
    ExprSpec.unbound? (.holding contents) poly.symbols = none := by
  refine ExprSpec.unbound?_eq_none.mpr fun number occurs => ?_
  obtain ⟨slot, listed, same⟩ := List.mem_map.mp (sum.symbols _ occurs)
  have numbered := valid.image_numbered listed
  rw [same] at numbered
  have least : 1 ≤ number.toNat := UInt8.le_iff_toNat_le.mp numbered.1
  have most : number.toNat ≤ 4 := UInt8.le_iff_toNat_le.mp numbered.2
  obtain ⟨index, place⟩ := Nat.exists_eq_add_of_le' least
  rw [place, Registers.get?_holding, Vector.getElem?_eq_getElem (by omega)]
  rfl

/-- The sum of what a word feeds compiles under a table with an entry for it, if only
to a word that holds the same constants. -/
theorem AluWord.Coherent.exists_result (coherent : word.Coherent) (valid : word.Valid)
    (built : ShapeTable.build shapes = .ok table) (low : base ≤ 3) (member : made ∈ table.entries)
    (adds : made.Adds base word.slots) :
    ∃ (spec : ExprSpec) (result : AluWord) (poly : Poly), spec.compile .full table = .ok result ∧
      result.constants = word.constants ∧ result.enabled = true ∧
      poly.IsSum (Symbol.weight base) word.slots word.image ∧
      ∃ entry ∈ table.entries, ∃ pairs, result.Runs entry poly pairs := by
  have positive : ∀ slot ∈ word.slots, 0 < Symbol.weight base slot :=
    fun slot _ => Symbol.weight_pos base slot
  have named : ∀ slot ∈ word.slots, Vocabulary.expression.Names (word.image slot) :=
    fun slot listed => Vocabulary.names_of_numbered (valid.image_numbered listed)
  obtain ⟨source, tree, parsed, folds⟩ :=
    Poly.exists_sum coherent.slots_ne_nil positive named (word.weights_le low)
  obtain ⟨poly, folded, sum⟩ := folds table.maxDegree (ShapeTable.build_maxDegree built)
  obtain ⟨apart, renamed⟩ := adds.rename_image coherent sum
  obtain ⟨found, matched⟩ := ShapeTable.find?_of_rename member adds.sum.canonical apart
    (fun symbol _ => word.image_isStream symbol) renamed
  obtain ⟨slot, listed⟩ := List.exists_mem_of_ne_nil _ coherent.slots_ne_nil
  have occurs := (sum.mem_symbols coherent.apart word.slots_nodup positive _).mpr
    (List.mem_map_of_mem listed)
  have compiled : ExprSpec.compile .full table ⟨source, .holding word.constants⟩ =
      .ok ⟨word.constants, ExprSpec.streamMask poly.symbols, found.shape.opcode, found.ports,
        found.constant, true⟩ :=
    ExprSpec.compile_eq_ok.mpr ⟨tree, poly, found, word.constants,
      ConstFormat.validate_eq_ok.mpr ConstFormat.full_valid, parsed, folded,
      Poly.isZero_of_mem_symbols occurs, matched, valid.bound sum _,
      ExprSpec.constants_holding word.constants, rfl⟩
  obtain ⟨entry, present, again, same, pairs, reparsed, refolded, runs⟩ :=
    ExprSpec.compile_runs built compiled
  obtain rfl : again = tree := Except.ok.inj (reparsed.symm.trans parsed)
  obtain rfl : same = poly := Except.ok.inj (refolded.symm.trans folded)
  exact ⟨⟨source, .holding word.constants⟩, _, same, compiled, rfl, rfl, sum, entry, present,
    pairs, runs⟩

/-- A word is compiled where the table has an entry for what it feeds, and all other
entries have weights of their own. -/
theorem AluWord.Coherent.compiles (coherent : word.Coherent) (valid : word.Valid)
    (enabled : word.enabled = true) (built : ShapeTable.build shapes = .ok table)
    (low : base ≤ 3) (member : made ∈ table.entries) (adds : made.Adds base word.slots)
    (opcode : made.shape.opcode = word.opcode)
    (others : ∀ entry ∈ table.entries, entry = made ∨ ∃ otherBase slots,
      entry.Adds otherBase slots ∧ (base + 3 ≤ otherBase ∨ otherBase + 3 ≤ base)) :
    ∃ spec : ExprSpec, spec.compile .full table = .ok word := by
  obtain ⟨spec, result, poly, compiled, constants, on, sum, entry, present, pairs, runs⟩ :=
    coherent.exists_result valid built low member adds
  obtain ⟨slot, listed⟩ := List.exists_mem_of_ne_nil _ coherent.slots_ne_nil
  -- Weights that are out of reach keep the search from any other entry.
  have only : entry = made := by
    rcases others entry present with only | ⟨otherBase, slots, otherAdds, gap⟩
    · exact only
    · have range := runs.matched otherAdds coherent sum listed
      omega
  subst only
  obtain ⟨ports, constSelect⟩ := runs.fed_eq adds.mem_symbols fun slot listed =>
    (runs.matched adds coherent sum listed).2.2 rfl
  have streams := coherent.streamMask_eq runs.coherent valid.streams
    (ExprSpec.compile_valid built compiled).streams ports
  have codes := runs.opcode.trans opcode
  refine ⟨spec, compiled.trans (congrArg Except.ok ?_)⟩
  obtain ⟨_, _, _, _, _, _⟩ := word
  obtain ⟨_, _, _, _, _, _⟩ := result
  simp only at constants streams codes ports constSelect on enabled
  rw [constants, streams, codes, ports, constSelect, on, enabled]

end Compile

section Tables
variable {first second : AluWord}

structure AluWord.Running (word : AluWord) : Prop where
  valid : word.Valid
  coherent : word.Coherent
  enabled : word.enabled = true

theorem AluWord.Running.opcode_ne_zero {word : AluWord} (running : word.Running) :
    word.opcode ≠ 0 := running.valid.on running.enabled

/-- One entry is enough for words that feed the same placeholders. -/
theorem AluWord.Running.exists_single (running : first.Running) (also : second.Running)
    (opcodes : first.opcode = second.opcode) (alike : first.FedAlike second) :
    ∃ shapes table, ShapeTable.build shapes = .ok table ∧
      (∃ spec : ExprSpec, spec.compile .full table = .ok first) ∧
      ∃ spec : ExprSpec, spec.compile .full table = .ok second := by
  obtain ⟨pattern, made, entered, opcode, adds⟩ :=
    running.coherent.exists_entry (Nat.zero_le 3) "first"
  have built : ShapeTable.build [⟨"first", first.opcode, pattern⟩] = .ok ⟨[made]⟩ := by
    refine Except.map_eq_ok.mpr ⟨[made], ShapeTable.entriesAfter_cons.mpr
      ⟨running.opcode_ne_zero, by simp, by simp, made, [], entered, rfl, rfl⟩, rfl⟩
  have only : ∀ entry ∈ [made], entry = made ∨ ∃ otherBase slots,
      entry.Adds otherBase slots ∧ (0 + 3 ≤ otherBase ∨ otherBase + 3 ≤ 0) :=
    fun entry member => .inl (List.mem_singleton.mp member)
  refine ⟨_, _, built, ?_, ?_⟩
  · exact running.coherent.compiles running.valid running.enabled built (Nat.zero_le 3)
      List.mem_cons_self adds opcode only
  · rw [alike.slots_eq] at adds
    exact also.coherent.compiles also.valid also.enabled built (Nat.zero_le 3)
      List.mem_cons_self adds (opcode.trans opcodes) only

theorem AluWord.Running.exists_pair (running : first.Running) (also : second.Running)
    (different : first.opcode ≠ second.opcode) :
    ∃ shapes table, ShapeTable.build shapes = .ok table ∧
      (∃ spec : ExprSpec, spec.compile .full table = .ok first) ∧
      ∃ spec : ExprSpec, spec.compile .full table = .ok second := by
  -- Three ports have three weights, so the second entry counts on from three.
  obtain ⟨pattern, made, entered, opcode, adds⟩ :=
    running.coherent.exists_entry (Nat.zero_le 3) "first"
  obtain ⟨otherPattern, other, otherEntered, otherOpcode, otherAdds⟩ :=
    also.coherent.exists_entry (Nat.le_refl 3) "second"
  have built : ShapeTable.build [⟨"first", first.opcode, pattern⟩,
      ⟨"second", second.opcode, otherPattern⟩] = .ok ⟨[made, other]⟩ := by
    refine Except.map_eq_ok.mpr ⟨[made, other], ShapeTable.entriesAfter_cons.mpr
      ⟨running.opcode_ne_zero, by simp, by simp, made, [other], entered,
        ShapeTable.entriesAfter_cons.mpr ⟨also.opcode_ne_zero, by simp, by simp [different.symm],
          other, [], otherEntered, rfl, rfl⟩, rfl⟩, rfl⟩
  refine ⟨_, _, built, ?_, ?_⟩
  · refine running.coherent.compiles running.valid running.enabled built (Nat.zero_le 3)
      List.mem_cons_self adds opcode fun entry member => ?_
    rcases List.mem_cons.mp member with same | later
    · exact .inl same
    · exact .inr ⟨3, _, List.mem_singleton.mp later ▸ otherAdds, .inl (Nat.le_refl 3)⟩
  · refine also.coherent.compiles also.valid also.enabled built (Nat.le_refl 3)
      (List.mem_cons_of_mem _ List.mem_cons_self) otherAdds otherOpcode fun entry member => ?_
    rcases List.mem_cons.mp member with same | later
    · exact .inr ⟨0, _, same ▸ adds, .inr (Nat.le_refl 3)⟩
    · exact .inl (List.mem_singleton.mp later)

end Tables

end JoinEngine
