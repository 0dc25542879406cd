import JoinEngine.Proofs.Poly.OfExpr
import JoinEngine.Shape

/-!
What building a table checks. Every entry of a table that was built is the entry
of its shape, opcodes are not zero and stand for one shape each.
-/

namespace JoinEngine.ShapeTable

theorem entry_eq_ok {shape : Shape} {made : ShapeEntry} :
    entry shape = .ok made ↔
      ∃ tree poly, Expr.parse .pattern shape.pattern = .ok tree ∧
        Poly.ofExpr patternLimit tree = .ok poly ∧ poly.isZero = false ∧ made = ⟨shape, poly⟩ := by
  unfold entry
  constructor
  · intro built
    obtain ⟨tree, parsed, rest⟩ := Except.bind_eq_ok.mp built
    obtain ⟨poly, folded, kept⟩ := Except.bind_eq_ok.mp rest
    refine ⟨tree, poly, Except.mapError_eq_ok.mp parsed, Except.mapError_eq_ok.mp folded, ?_⟩
    split at kept
    · cases kept
    · rename_i nonzero
      cases kept
      exact ⟨by simpa using nonzero, rfl⟩
  · rintro ⟨tree, poly, parsed, folded, nonzero, rfl⟩
    refine Except.bind_eq_ok.mpr ⟨tree, Except.mapError_eq_ok.mpr parsed, ?_⟩
    refine Except.bind_eq_ok.mpr ⟨poly, Except.mapError_eq_ok.mpr folded, ?_⟩
    simp [nonzero]

theorem entriesAfter_cons {names : List String} {opcodes : List UInt8} {shape : Shape}
    {rest : List Shape} {entries : List ShapeEntry} :
    entriesAfter names opcodes (shape :: rest) = .ok entries ↔
      shape.opcode ≠ 0 ∧ shape.name ∉ names ∧ shape.opcode ∉ opcodes ∧
        ∃ first others, entry shape = .ok first ∧
          entriesAfter (shape.name :: names) (shape.opcode :: opcodes) rest = .ok others ∧
          entries = first :: others := by
  rw [entriesAfter]
  by_cases reserved : shape.opcode = 0
  · simp [reserved]
  by_cases named : shape.name ∈ names
  · simp [reserved, named]
  by_cases coded : shape.opcode ∈ opcodes
  · simp [reserved, named, coded]
  simp only [reserved, named, coded, if_false, List.contains_iff_mem, not_false_iff, ne_eq,
    true_and]
  constructor
  · intro built
    obtain ⟨first, made, more⟩ := Except.bind_eq_ok.mp built
    obtain ⟨others, later, joined⟩ := Except.bind_eq_ok.mp more
    cases joined
    exact ⟨first, others, made, later, rfl⟩
  · rintro ⟨first, others, made, later, rfl⟩
    exact Except.bind_eq_ok.mpr ⟨first, made, Except.bind_eq_ok.mpr ⟨others, later, rfl⟩⟩

structure Checked (names : List String) (opcodes : List UInt8) (shapes : List Shape)
    (entries : List ShapeEntry) : Prop where
  made : List.Forall₂ (fun shape made => entry shape = .ok made) shapes entries
  opcode : ∀ shape ∈ shapes, shape.opcode ≠ 0 ∧ shape.opcode ∉ opcodes
  name : ∀ shape ∈ shapes, shape.name ∉ names
  opcodesDistinct : (shapes.map Shape.opcode).Nodup
  namesDistinct : (shapes.map Shape.name).Nodup

theorem entriesAfter_checked {names : List String} {opcodes : List UInt8} {shapes : List Shape}
    {entries : List ShapeEntry} (built : entriesAfter names opcodes shapes = .ok entries) :
    Checked names opcodes shapes entries := by
  induction shapes generalizing names opcodes entries with
  | nil =>
      cases built
      exact ⟨.nil, by simp, by simp, by simp, by simp⟩
  | cons shape rest ih =>
      obtain ⟨reserved, named, coded, first, others, made, later, rfl⟩ :=
        entriesAfter_cons.mp built
      have tail := ih later
      refine ⟨.cons made tail.made, ?_, ?_, ?_, ?_⟩
      · refine List.forall_mem_cons.mpr ⟨⟨reserved, coded⟩, fun other member => ?_⟩
        exact ⟨(tail.opcode other member).1, fun old => (tail.opcode other member).2 (.tail _ old)⟩
      · refine List.forall_mem_cons.mpr ⟨named, fun other member old => ?_⟩
        exact tail.name other member (.tail _ old)
      · refine List.nodup_cons.mpr ⟨fun repeated => ?_, tail.opcodesDistinct⟩
        obtain ⟨other, member, same⟩ := List.mem_map.mp repeated
        exact (tail.opcode other member).2 (same ▸ List.mem_cons_self)
      · refine List.nodup_cons.mpr ⟨fun repeated => ?_, tail.namesDistinct⟩
        obtain ⟨other, member, same⟩ := List.mem_map.mp repeated
        exact tail.name other member (same ▸ List.mem_cons_self)

theorem Checked.tail {names : List String} {opcodes : List UInt8} {shape : Shape}
    {rest : List Shape} {first : ShapeEntry} {others : List ShapeEntry}
    (checked : Checked names opcodes (shape :: rest) (first :: others)) :
    Checked (shape.name :: names) (shape.opcode :: opcodes) rest others := by
  obtain ⟨coded, opcodes⟩ := List.nodup_cons.mp checked.opcodesDistinct
  obtain ⟨named, distinct⟩ := List.nodup_cons.mp checked.namesDistinct
  cases checked.made with
  | cons _ made =>
      -- The shape in front joins the earlier ones, which the rest has to differ from.
      refine ⟨made, fun other later => ?_, fun other later => ?_, opcodes, distinct⟩
      · obtain ⟨nonzero, fresh⟩ := checked.opcode other (.tail _ later)
        refine ⟨nonzero, fun old => ?_⟩
        rcases List.mem_cons.mp old with same | before
        · exact coded (same ▸ List.mem_map_of_mem later)
        · exact fresh before
      · intro old
        rcases List.mem_cons.mp old with same | before
        · exact named (same ▸ List.mem_map_of_mem later)
        · exact checked.name other (.tail _ later) before

theorem Checked.entriesAfter_eq {names : List String} {opcodes : List UInt8} {shapes : List Shape}
    {entries : List ShapeEntry} (checked : Checked names opcodes shapes entries) :
    entriesAfter names opcodes shapes = .ok entries := by
  induction shapes generalizing names opcodes entries with
  | nil =>
      cases checked.made
      rfl
  | cons shape rest ih =>
      obtain ⟨nonzero, coded⟩ := checked.opcode shape List.mem_cons_self
      have named := checked.name shape List.mem_cons_self
      obtain ⟨first, others, made, _, rfl⟩ := List.forall₂_cons_left_iff.mp checked.made
      exact entriesAfter_cons.mpr ⟨nonzero, named, coded, first, others, made, ih checked.tail, rfl⟩

theorem build_checked {shapes : List Shape} {table : ShapeTable}
    (built : build shapes = .ok table) : Checked [] [] shapes table.entries := by
  unfold build at built
  split at built
  · cases built
  · obtain ⟨entries, made, rfl⟩ := Except.map_eq_ok.mp built
    exact entriesAfter_checked made

theorem made_shapes {shapes : List Shape} {entries : List ShapeEntry}
    (made : List.Forall₂ (fun shape made => entry shape = .ok made) shapes entries) :
    entries.map ShapeEntry.shape = shapes := by
  induction made with
  | nil => rfl
  | cons first _ ih =>
      obtain ⟨_, _, _, _, _, rfl⟩ := entry_eq_ok.mp first
      rw [List.map_cons, ih]

variable {shapes : List Shape} {table : ShapeTable}

theorem build_shapes (built : build shapes = .ok table) : table.shapes = shapes :=
  made_shapes (build_checked built).made

theorem build_entry (built : build shapes = .ok table) {made : ShapeEntry}
    (member : made ∈ table.entries) : made.shape ∈ shapes ∧ entry made.shape = .ok made := by
  refine ⟨build_shapes built ▸ List.mem_map_of_mem member, ?_⟩
  have all := (build_checked built).made
  clear built
  generalize table.entries = entries at all member
  induction all with
  | nil => exact absurd member List.not_mem_nil
  | cons first _ ih =>
      rcases List.mem_cons.mp member with same | later
      · subst same
        obtain ⟨_, _, _, _, _, rfl⟩ := entry_eq_ok.mp first
        exact first
      · exact ih later

theorem build_shape (built : build shapes = .ok table) {shape : Shape} (listed : shape ∈ shapes) :
    ∃ made ∈ table.entries, made.shape = shape ∧ entry shape = .ok made := by
  rw [← build_shapes built] at listed
  obtain ⟨made, member, rfl⟩ := List.mem_map.mp listed
  exact ⟨made, member, rfl, (build_entry built member).2⟩

theorem byOpcode?_of_mem (built : build shapes = .ok table) {shape : Shape}
    (member : shape ∈ shapes) : table.byOpcode? shape.opcode = some shape := by
  have distinct := (build_checked built).opcodesDistinct
  unfold byOpcode?
  rw [build_shapes built]
  clear built
  induction shapes with
  | nil => exact absurd member List.not_mem_nil
  | cons first rest ih =>
      obtain ⟨apart, tail⟩ := List.nodup_cons.mp distinct
      rcases List.mem_cons.mp member with same | later
      · subst same
        simp
      · have different : first.opcode ≠ shape.opcode := by
          intro same
          exact apart (same ▸ List.mem_map_of_mem later)
        rw [List.find?_cons_of_neg (by simpa using different)]
        exact ih later tail

end JoinEngine.ShapeTable

/-!
A shape that is found is an instance: some renaming of its placeholders by symbols
of the polynomial, each by one of its kind, turns the polynomial of the shape into
it, and the ports and the constant of the match are the images of the placeholders.
-/

namespace JoinEngine

namespace Renaming

theorem image_concat (pairs : Renaming) (pair : Symbol × Symbol) (symbol : Symbol) :
    image (pairs ++ [pair]) symbol = if symbol = pair.1 then pair.2 else image pairs symbol := by
  unfold image
  rw [List.reverse_append, List.reverse_singleton, List.singleton_append, List.lookup_cons]
  by_cases same : symbol = pair.1
  · simp [same]
  · simp [same, beq_false_of_ne same]

theorem image_mem {pairs : Renaming} {symbol : Symbol} (covered : symbol ∈ pairs.map Prod.fst) :
    (symbol, image pairs symbol) ∈ pairs := by
  induction pairs using List.reverseRecOn with
  | nil => simp at covered
  | append_singleton pairs pair ih =>
      rw [image_concat]
      split
      · rename_i same
        subst same
        simp
      · rename_i different
        have before : symbol ∈ pairs.map Prod.fst := by simpa [different] using covered
        exact List.mem_append_left _ (ih before)

/-- Replaces every symbol of one list by a symbol of the other that is of its kind,
no two by the same. -/
structure Between (pairs : Renaming) (source target : List Symbol) : Prop where
  covers : ∀ symbol ∈ source, symbol ∈ pairs.map Prod.fst
  sources : ∀ pair ∈ pairs, pair.1 ∈ source
  targets : ∀ pair ∈ pairs, pair.2 ∈ target
  kinds : ∀ pair ∈ pairs, pair.1.isStream = pair.2.isStream
  distinct : (pairs.map Prod.snd).Nodup

theorem Between.apart {pairs : Renaming} {source target : List Symbol}
    (between : pairs.Between source target) : KeepsApart (image pairs) source := by
  intro first occurs second also same
  have one := image_mem (between.covers first occurs)
  have two := image_mem (between.covers second also)
  exact congrArg Prod.fst (List.inj_on_of_nodup_map between.distinct one two same)

end Renaming

namespace ShapeMatch
variable {shape : Shape} {pairs : Renaming}

theorem ofRenaming_concat (shape : Shape) (pairs : Renaming) (pair : Symbol × Symbol) :
    ofRenaming shape (pairs ++ [pair]) = (ofRenaming shape pairs).route pair := by
  rw [ofRenaming, List.foldl_append]
  rfl

theorem route_shape (found : ShapeMatch) (pair : Symbol × Symbol) :
    (found.route pair).shape = found.shape := by
  unfold route
  split <;> rfl

theorem ofRenaming_shape (shape : Shape) (pairs : Renaming) :
    (ofRenaming shape pairs).shape = shape := by
  induction pairs using List.reverseRecOn with
  | nil => rfl
  | append_singleton pairs pair ih => rw [ofRenaming_concat, route_shape, ih]

theorem route_port (found : ShapeMatch) (slot number : UInt8) (port : Nat) (inside : port < 3) :
    (found.route (.stream slot, .stream number)).ports[port] =
      if slot.toNat = port then number else found.ports[port] := by
  simp only [route, Vector.getElem_setIfInBounds]

/-- Whatever else is routed, a port keeps its stream. -/
theorem route_port_of_ne (found : ShapeMatch) {source target : Symbol} {slot : UInt8}
    (inside : slot.toNat < 3) (different : source ≠ .stream slot) :
    (found.route (source, target)).ports[slot.toNat] = found.ports[slot.toNat] := by
  cases source with
  | constant other => cases target <;> rfl
  | stream other =>
      cases target with
      | constant number => rfl
      | stream number =>
          have apart : other.toNat ≠ slot.toNat := fun same =>
            different (congrArg Symbol.stream (UInt8.toNat_inj.mp same))
          rw [route_port, if_neg apart]

theorem port_image (shape : Shape)
    (kinds : ∀ pair ∈ pairs, pair.1.isStream = pair.2.isStream) {slot : UInt8}
    (inside : slot.toNat < 3) (covered : .stream slot ∈ pairs.map Prod.fst) :
    Renaming.image pairs (.stream slot) =
      .stream ((ofRenaming shape pairs).ports[slot.toNat]) := by
  induction pairs using List.reverseRecOn with
  | nil => simp at covered
  | append_singleton pairs pair ih =>
      obtain ⟨source, target⟩ := pair
      rw [Renaming.image_concat, ofRenaming_concat]
      by_cases same : Symbol.stream slot = source
      · subst same
        have kind := kinds (.stream slot, target) (by simp)
        cases target with
        | constant number => cases kind
        | stream number => simp [route_port]
      · have before : Symbol.stream slot ∈ pairs.map Prod.fst := by simpa [same] using covered
        rw [if_neg same, route_port_of_ne _ inside (Ne.symm same)]
        exact ih (fun pair member => kinds pair (List.mem_append_left _ member)) before

theorem constant_image (shape : Shape)
    (kinds : ∀ pair ∈ pairs, pair.1.isStream = pair.2.isStream) {slot : UInt8}
    (only : ∀ pair ∈ pairs, pair.1.isStream = false → pair.1 = .constant slot)
    (covered : .constant slot ∈ pairs.map Prod.fst) :
    Renaming.image pairs (.constant slot) = .constant (ofRenaming shape pairs).constant := by
  induction pairs using List.reverseRecOn with
  | nil => simp at covered
  | append_singleton pairs pair ih =>
      obtain ⟨source, target⟩ := pair
      rw [Renaming.image_concat, ofRenaming_concat]
      have kind := kinds (source, target) (by simp)
      have placed := only (source, target) (by simp)
      cases source with
      | constant other =>
          cases placed rfl
          cases target with
          | stream number => cases kind
          | constant number => simp [route]
      | stream other =>
          have before : Symbol.constant slot ∈ pairs.map Prod.fst := by simpa using covered
          rw [if_neg (by simp)]
          cases target with
          | constant number => cases kind
          | stream number =>
              exact ih (fun pair member => kinds pair (List.mem_append_left _ member))
                (fun pair member => only pair (List.mem_append_left _ member)) before

/-- A port is off or carries a stream that a placeholder stands for. -/
theorem port_cases (shape : Shape) (pairs : Renaming) (port : Nat) (inside : port < 3) :
    (ofRenaming shape pairs).ports[port] = 0 ∨
      ∃ pair ∈ pairs, pair.2 = .stream ((ofRenaming shape pairs).ports[port]) := by
  induction pairs using List.reverseRecOn with
  | nil =>
      left
      simp [ofRenaming]
  | append_singleton pairs pair ih =>
      have older : (ofRenaming shape pairs).ports[port] = 0 ∨ ∃ other ∈ pairs ++ [pair],
          other.2 = .stream ((ofRenaming shape pairs).ports[port]) :=
        ih.imp_right fun ⟨other, member, same⟩ => ⟨other, List.mem_append_left _ member, same⟩
      obtain ⟨source, target⟩ := pair
      rw [ofRenaming_concat]
      cases source with
      | constant slot => cases target <;> exact older
      | stream slot =>
          cases target with
          | constant number => exact older
          | stream number =>
              rw [route_port]
              split
              · exact Or.inr ⟨_, List.mem_append_right _ List.mem_cons_self, rfl⟩
              · exact older

theorem constant_cases (shape : Shape) (pairs : Renaming) :
    (ofRenaming shape pairs).constant = 0 ∨
      ∃ pair ∈ pairs, pair.2 = .constant (ofRenaming shape pairs).constant := by
  induction pairs using List.reverseRecOn with
  | nil => exact Or.inl rfl
  | append_singleton pairs pair ih =>
      have older : (ofRenaming shape pairs).constant = 0 ∨ ∃ other ∈ pairs ++ [pair],
          other.2 = .constant (ofRenaming shape pairs).constant :=
        ih.imp_right fun ⟨other, member, same⟩ => ⟨other, List.mem_append_left _ member, same⟩
      obtain ⟨source, target⟩ := pair
      rw [ofRenaming_concat]
      cases source with
      | stream slot => cases target <;> exact older
      | constant slot =>
          cases target with
          | stream number => exact older
          | constant number => exact Or.inr ⟨_, List.mem_append_right _ List.mem_cons_self, rfl⟩

theorem port_uncovered (shape : Shape) {slot : UInt8} (inside : slot.toNat < 3)
    (uncovered : .stream slot ∉ pairs.map Prod.fst) :
    (ofRenaming shape pairs).ports[slot.toNat] = 0 := by
  induction pairs using List.reverseRecOn with
  | nil => simp [ofRenaming]
  | append_singleton pairs pair ih =>
      rw [List.map_append, List.mem_append, not_or] at uncovered
      obtain ⟨before, last⟩ := uncovered
      have different : pair.1 ≠ .stream slot := fun same => last (by simp [same])
      rw [ofRenaming_concat, route_port_of_ne _ inside different]
      exact ih before

theorem constant_uncovered (shape : Shape) (streams : ∀ pair ∈ pairs, pair.1.isStream = true) :
    (ofRenaming shape pairs).constant = 0 := by
  induction pairs using List.reverseRecOn with
  | nil => rfl
  | append_singleton pairs pair ih =>
      obtain ⟨source, target⟩ := pair
      have kind := streams (source, target) (by simp)
      have before := ih fun pair member => streams pair (List.mem_append_left _ member)
      rw [ofRenaming_concat]
      cases source with
      | constant slot => cases kind
      | stream slot => cases target <;> exact before

end ShapeMatch

def Symbol.onPort (port : Fin 3) : Symbol := .stream (UInt8.ofNat port)

theorem Symbol.slot_toNat (port : Fin 3) : (UInt8.ofNat port).toNat = port :=
  UInt8.toNat_ofNat_of_lt' (Nat.lt_trans port.isLt (by decide))

theorem Symbol.onPort_injective : Function.Injective onPort := by
  intro first second same
  have slots : UInt8.ofNat first = UInt8.ofNat second := Symbol.stream.inj same
  rw [Fin.ext_iff, ← slot_toNat first, ← slot_toNat second, slots]

theorem Vocabulary.Placeholder.cases {symbol : Symbol} (placed : Placeholder symbol) :
    (∃ port, symbol = .onPort port) ∨ symbol = .constant 0 := by
  cases symbol with
  | stream slot =>
      have inside : slot.toNat < 3 := UInt8.lt_iff_toNat_lt.mp placed
      exact .inl ⟨⟨slot.toNat, inside⟩, by simp [Symbol.onPort]⟩
  | constant slot => exact .inr (congrArg Symbol.constant placed)

namespace Renaming

structure Places (pairs : Renaming) (source target : List Symbol) : Prop
    extends pairs.Between source target where
  placeholders : ∀ symbol ∈ source, Vocabulary.Placeholder symbol

namespace Places
variable {pairs : Renaming} {source target : List Symbol} (shape : Shape)
  (places : pairs.Places source target)
include places

theorem port_image {port : Fin 3} (occurs : .onPort port ∈ source) :
    image pairs (.onPort port) = .stream ((ShapeMatch.ofRenaming shape pairs).ports.get port) := by
  have inside : (UInt8.ofNat port).toNat < 3 := by
    rw [Symbol.slot_toNat]
    exact port.isLt
  have routed := ShapeMatch.port_image shape places.kinds inside (places.covers _ occurs)
  simp only [Symbol.slot_toNat] at routed
  exact routed

theorem constant_image (occurs : .constant 0 ∈ source) :
    image pairs (.constant 0) = .constant (ShapeMatch.ofRenaming shape pairs).constant := by
  refine ShapeMatch.constant_image shape places.kinds (fun pair member kind => ?_)
    (places.covers _ occurs)
  rcases (places.placeholders _ (places.sources pair member)).cases with ⟨port, same⟩ | same
  · rw [same] at kind
    cases kind
  · exact same

theorem port_absent {port : Fin 3} (absent : .onPort port ∉ source) :
    (ShapeMatch.ofRenaming shape pairs).ports.get port = 0 := by
  have uncovered : .stream (UInt8.ofNat port) ∉ pairs.map Prod.fst := by
    intro covered
    obtain ⟨pair, member, same⟩ := List.mem_map.mp covered
    have occurs := places.sources pair member
    rw [same] at occurs
    exact absent occurs
  have inside : (UInt8.ofNat port).toNat < 3 := by
    rw [Symbol.slot_toNat]
    exact port.isLt
  have off := ShapeMatch.port_uncovered shape inside uncovered
  simp only [Symbol.slot_toNat] at off
  exact off

theorem constant_absent (absent : .constant 0 ∉ source) :
    (ShapeMatch.ofRenaming shape pairs).constant = 0 := by
  refine ShapeMatch.constant_uncovered shape fun pair member => ?_
  rcases (places.placeholders _ (places.sources pair member)).cases with ⟨port, same⟩ | same
  · rw [same]
    rfl
  · exact absurd (same ▸ places.sources pair member) absent

end Places

end Renaming

namespace ShapeTable

theorem build_poly {shapes : List Shape} {table : ShapeTable} {made : ShapeEntry}
    (built : build shapes = .ok table) (member : made ∈ table.entries) :
    Poly.Canonical made.poly.terms ∧
      ∀ symbol ∈ made.poly.symbols, Vocabulary.Placeholder symbol := by
  obtain ⟨pattern, form, parsed, folded, _, entered⟩ :=
    entry_eq_ok.mp (build_entry built member).2
  have same : made.poly = form := congrArg ShapeEntry.poly entered
  have named := Poly.ofExpr_symbols folded (Expr.parse_over parsed)
  rw [same]
  exact ⟨(Poly.ofExpr_folds folded).canonical,
    fun symbol occurs => (named symbol occurs).placeholder⟩

theorem picks_perm {α : Type} {items : List α} {pick : α × List α} (member : pick ∈ picks items) :
    (pick.1 :: pick.2).Perm items := by
  induction items generalizing pick with
  | nil => simp [picks] at member
  | cons first rest ih =>
      rcases List.mem_cons.mp member with same | later
      · subst same
        exact .refl _
      · obtain ⟨inner, inside, rfl⟩ := List.mem_map.mp later
        exact (List.Perm.swap first inner.1 inner.2).trans ((ih inside).cons first)

theorem arrangements_perm {α : Type} {items order : List α}
    (member : order ∈ arrangements items.length items) : order.Perm items := by
  generalize count : items.length = size at member
  induction size generalizing items order with
  | zero =>
      cases List.length_eq_zero_iff.mp count
      simp [arrangements] at member
      exact member ▸ .refl _
  | succ size ih =>
      obtain ⟨pick, picked, placed⟩ := List.mem_flatMap.mp member
      obtain ⟨tail, arranged, rfl⟩ := List.mem_map.mp placed
      have whole := picks_perm picked
      have left : pick.2.length = size := by
        have same := whole.length_eq
        rw [List.length_cons, count] at same
        omega
      exact ((ih left arranged).cons pick.1).trans whole

theorem renamings_between {made : ShapeEntry} {poly : Poly} {pairs : Renaming}
    (streams : made.streams.length = (poly.symbols.filter Symbol.isStream).length)
    (constants : made.constants.length = (poly.symbols.filter (!·.isStream)).length)
    (member : pairs ∈ renamings made (poly.symbols.filter Symbol.isStream)
      (poly.symbols.filter (!·.isStream))) :
    pairs.Between made.poly.symbols poly.symbols := by
  obtain ⟨streamOrder, streamsPlaced, rest⟩ := List.mem_flatMap.mp member
  obtain ⟨constantOrder, constantsPlaced, rfl⟩ := List.mem_map.mp rest
  have streamPerm := arrangements_perm streamsPlaced
  have constantPerm := arrangements_perm constantsPlaced
  have pair_cases : ∀ pair ∈ made.streams.zip streamOrder ++ made.constants.zip constantOrder,
      (pair.1 ∈ made.streams ∧ pair.2 ∈ poly.symbols.filter Symbol.isStream) ∨
        (pair.1 ∈ made.constants ∧ pair.2 ∈ poly.symbols.filter (!·.isStream)) := by
    rintro ⟨source, target⟩ present
    rcases List.mem_append.mp present with stream | constant
    · exact Or.inl ⟨(List.of_mem_zip stream).1, streamPerm.mem_iff.mp (List.of_mem_zip stream).2⟩
    · exact Or.inr ⟨(List.of_mem_zip constant).1,
        constantPerm.mem_iff.mp (List.of_mem_zip constant).2⟩
  have streamCount : made.streams.length = streamOrder.length := by
    rw [streams, streamPerm.length_eq]
  have constantCount : made.constants.length = constantOrder.length := by
    rw [constants, constantPerm.length_eq]
  refine ⟨fun symbol occurs => ?_, fun pair present => ?_, fun pair present => ?_,
    fun pair present => ?_, ?_⟩
  · rw [List.map_append, List.map_fst_zip streamCount.le, List.map_fst_zip constantCount.le]
    cases kind : symbol.isStream with
    | true => exact List.mem_append_left _ (List.mem_filter.mpr ⟨occurs, kind⟩)
    | false => exact List.mem_append_right _ (List.mem_filter.mpr ⟨occurs, by simp [kind]⟩)
  · rcases pair_cases pair present with ⟨source, _⟩ | ⟨source, _⟩ <;>
      exact (List.mem_filter.mp source).1
  · rcases pair_cases pair present with ⟨_, target⟩ | ⟨_, target⟩ <;>
      exact (List.mem_filter.mp target).1
  · rcases pair_cases pair present with ⟨source, target⟩ | ⟨source, target⟩
    · rw [(List.mem_filter.mp source).2, (List.mem_filter.mp target).2]
    · have first := (List.mem_filter.mp source).2
      have second := (List.mem_filter.mp target).2
      simp only [Bool.not_eq_true'] at first second
      rw [first, second]
  · have whole : (streamOrder ++ constantOrder).Perm poly.symbols :=
      (streamPerm.append constantPerm).trans (List.filter_append_perm _ _)
    rw [List.map_append, List.map_snd_zip streamCount.ge, List.map_snd_zip constantCount.ge]
    exact whole.nodup_iff.mpr poly.symbols_nodup

def chosen? (poly : Poly) (entry : ShapeEntry) : Option Renaming :=
  let streams := poly.symbols.filter Symbol.isStream
  let constants := poly.symbols.filter (!·.isStream)
  if entry.streams.length = streams.length ∧ entry.constants.length = constants.length ∧
      entry.poly.degree = poly.degree then
    (renamings entry streams constants).find? fun pairs =>
      entry.poly.rename (Renaming.image pairs) = poly
  else none

theorem instanceOf?_eq_chosen (poly : Poly) (made : ShapeEntry) :
    instanceOf? poly made = (chosen? poly made).map (ShapeMatch.ofRenaming made.shape) := by
  unfold instanceOf? chosen?
  simp only
  split <;> rfl

section Chosen
variable {table : ShapeTable} {poly : Poly} {made : ShapeEntry} {found : ShapeMatch}
  {pairs : Renaming}

theorem chosen?_eq_some :
    chosen? poly made = some pairs ↔
      (made.streams.length = (poly.symbols.filter Symbol.isStream).length ∧
        made.constants.length = (poly.symbols.filter (!·.isStream)).length ∧
        made.poly.degree = poly.degree) ∧
      (renamings made (poly.symbols.filter Symbol.isStream)
        (poly.symbols.filter (!·.isStream))).find?
          (fun pairs => made.poly.rename (Renaming.image pairs) = poly) = some pairs := by
  unfold chosen?
  simp only [Option.ite_none_right_eq_some]

theorem chosen?_between (chosen : chosen? poly made = some pairs) :
    pairs.Between made.poly.symbols poly.symbols := by
  obtain ⟨alike, first⟩ := chosen?_eq_some.mp chosen
  exact renamings_between alike.1 alike.2.1 (List.mem_of_find?_eq_some first)

theorem chosen?_renames (chosen : chosen? poly made = some pairs) :
    made.poly.rename (Renaming.image pairs) = poly := by
  simpa using List.find?_some (chosen?_eq_some.mp chosen).2

theorem instanceOf?_eq_some :
    instanceOf? poly made = some found ↔
      ∃ pairs, chosen? poly made = some pairs ∧ ShapeMatch.ofRenaming made.shape pairs = found := by
  rw [instanceOf?_eq_chosen, Option.map_eq_some_iff]

theorem find?_instance (matched : table.find? poly = some found) :
    ∃ made ∈ table.entries, ∃ pairs : Renaming,
      pairs.Between made.poly.symbols poly.symbols ∧
      made.poly.rename (Renaming.image pairs) = poly ∧
      found = ShapeMatch.ofRenaming made.shape pairs := by
  obtain ⟨made, member, tried⟩ := List.exists_of_findSome?_eq_some matched
  obtain ⟨pairs, chosen, rfl⟩ := instanceOf?_eq_some.mp tried
  exact ⟨made, member, pairs, chosen?_between chosen, chosen?_renames chosen, rfl⟩

end Chosen

end ShapeTable

end JoinEngine
