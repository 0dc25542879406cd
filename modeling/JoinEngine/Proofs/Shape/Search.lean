import JoinEngine.Proofs.Shape.Match
import Mathlib.Data.List.Lex

/-!
Renamings and the search for one. As long as a renaming keeps the symbols of a polynomial
apart, the terms are the old ones with other symbols in them, and they can be renamed
back. A renaming that brings symbols together may merge terms or cancel them, and gives
zero if a merged coefficient overflows; any other result still has the value at the
renamed point.
-/

namespace JoinEngine

namespace Renaming

def inverse (pairs : Renaming) (symbols : List Symbol) : Renaming :=
  symbols.map fun symbol => (pairs.image symbol, symbol)

theorem image_inverse {pairs : Renaming} {symbols : List Symbol}
    (apart : KeepsApart pairs.image symbols) {symbol : Symbol} (member : symbol ∈ symbols) :
    (pairs.inverse symbols).image (pairs.image symbol) = symbol := by
  have covered : pairs.image symbol ∈ (pairs.inverse symbols).map Prod.fst := by
    rw [inverse, List.map_map]
    exact List.mem_map.mpr ⟨symbol, member, rfl⟩
  obtain ⟨origin, listed, pair⟩ := List.mem_map.mp (image_mem covered)
  obtain ⟨same, found⟩ := Prod.mk.inj pair
  exact found.symm.trans (apart origin listed symbol member same)

end Renaming

namespace Poly
variable {image : Symbol → Symbol} {poly : Poly}

theorem mem_terms_rename (canonical : Canonical poly.terms)
    (apart : KeepsApart image poly.symbols) (term : Term) :
    term ∈ (poly.rename image).terms ↔
      ∃ old ∈ poly.terms, term = (Monomial.ofSymbols (old.1.map image), old.2) := by
  rw [(rename_perm canonical apart).mem_iff, List.mem_map]
  simp only [renameTerm, eq_comm]

theorem length_terms_rename (canonical : Canonical poly.terms)
    (apart : KeepsApart image poly.symbols) :
    (poly.rename image).terms.length = poly.terms.length := by
  rw [(rename_perm canonical apart).length_eq, List.length_map]

theorem eval_rename_apart (canonical : Canonical poly.terms)
    (apart : KeepsApart image poly.symbols) (value : Symbol → Int) :
    (poly.rename image).eval value = poly.eval (value ∘ image) := by
  rw [eval_eq_weigh, eval_eq_weigh]
  exact weigh_rename_apart canonical apart value

theorem eval_rename (nonzero : (poly.rename image).isZero = false) (value : Symbol → Int) :
    (poly.rename image).eval value = poly.eval (value ∘ image) := by
  have made : poly.rename image ≠ zero := by
    intro zero
    rw [zero] at nonzero
    cases nonzero
  rw [eval_eq_weigh, eval_eq_weigh]
  exact rename_weigh value image poly made

end Poly

/-- A renaming of the polynomial of an expression that keeps its symbols apart changes the
symbols in its terms and nothing else, and whatever undoes it on the symbols gives the
polynomial back. Any renaming gives a canonical polynomial, which has the value at the
renamed point unless it is zero. -/
theorem renaming_preserves_meaning (limit : Nat) (tree : Expr) (poly : Poly)
    (folded : Poly.ofExpr limit tree = .ok poly) (pairs : Renaming) :
    (KeepsApart pairs.image poly.symbols →
      (∀ term, term ∈ (poly.rename pairs.image).terms ↔
        ∃ old ∈ poly.terms, term = (Monomial.ofSymbols (old.1.map pairs.image), old.2)) ∧
      (poly.rename pairs.image).terms.length = poly.terms.length ∧
      (poly.rename pairs.image).degree = poly.degree ∧
      (∀ symbol, symbol ∈ (poly.rename pairs.image).symbols ↔
        symbol ∈ poly.symbols.map pairs.image) ∧
      (∀ value : Symbol → Int,
        (poly.rename pairs.image).eval value = poly.eval (value ∘ pairs.image)) ∧
      (∀ symbol ∈ poly.symbols,
        (pairs.inverse poly.symbols).image (pairs.image symbol) = symbol) ∧
      ∀ back : Renaming, (∀ symbol ∈ poly.symbols, back.image (pairs.image symbol) = symbol) →
        (poly.rename pairs.image).rename back.image = poly) ∧
    ((poly.rename pairs.image).isZero = false → ∀ value : Symbol → Int,
      (poly.rename pairs.image).eval value = poly.eval (value ∘ pairs.image)) ∧
    Poly.Canonical (poly.rename pairs.image).terms := by
  have canonical := (Poly.ofExpr_folds folded).canonical
  refine ⟨fun apart => ?_, Poly.eval_rename, Poly.rename_canonical pairs.image poly⟩
  exact ⟨Poly.mem_terms_rename canonical apart, Poly.length_terms_rename canonical apart,
    Poly.degree_rename canonical apart, Poly.mem_symbols_rename canonical apart,
    Poly.eval_rename_apart canonical apart, fun _ => Renaming.image_inverse apart,
    fun _ undone => Poly.rename_back canonical undone⟩

/-- Two streams that change places do so again on the way back. With the constant in the
place of a stream two terms become one, of the same value. -/
theorem swapped_and_merged_streams :
    let tree : Expr := .mul (.symbol (.stream 1))
      (.add (.symbol (.stream 2)) (.symbol (.constant 1)))
    let poly : Poly := ⟨[([.stream 1, .stream 2], 1), ([.stream 1, .constant 1], 1)]⟩
    let swap : Renaming := [(.stream 1, .stream 2), (.stream 2, .stream 1)]
    let merge : Renaming := [(.constant 1, .stream 2)]
    Poly.ofExpr 2 tree = .ok poly ∧ KeepsApart swap.image poly.symbols ∧
      (poly.rename swap.image).rename swap.image = poly ∧
      poly.rename merge.image = ⟨[([.stream 1, .stream 2], 2)]⟩ ∧
      ∀ value : Symbol → Int,
        (poly.rename merge.image).eval value = poly.eval (value ∘ merge.image) := by
  intro tree poly swap merge
  have folded : Poly.ofExpr 2 tree = .ok poly := by decide
  have apart : KeepsApart swap.image poly.symbols := by decide
  have undone : ∀ symbol ∈ poly.symbols, swap.image (swap.image symbol) = symbol := by decide
  have restored := ((renaming_preserves_meaning 2 tree poly folded swap).1 apart).2.2.2.2.2.2
  have merged := (renaming_preserves_meaning 2 tree poly folded merge).2.1
  exact ⟨folded, apart, restored swap undone, by decide, merged (by decide)⟩

end JoinEngine

/-!
The search for a shape misses no instance. Every order of the symbols is tried, and
an instance has as many streams and constants and the same degree as its shape, so
it is not passed over before the orders are looked at.
-/

namespace JoinEngine.ShapeTable

theorem mem_picks {α : Type} {items : List α} {item : α} (member : item ∈ items) :
    ∃ others, (item, others) ∈ picks items := by
  induction items with
  | nil => exact absurd member List.not_mem_nil
  | cons first rest ih =>
      rcases List.mem_cons.mp member with same | later
      · subst same
        exact ⟨rest, List.mem_cons_self⟩
      · obtain ⟨others, picked⟩ := ih later
        refine ⟨first :: others, List.mem_cons_of_mem _ ?_⟩
        exact List.mem_map.mpr ⟨(item, others), picked, rfl⟩

theorem mem_arrangements {α : Type} {items order : List α} (perm : order.Perm items) :
    order ∈ arrangements items.length items := by
  rw [← perm.length_eq]
  induction order generalizing items with
  | nil => simp [arrangements]
  | cons first rest ih =>
      obtain ⟨others, picked⟩ := mem_picks (perm.mem_iff.mp List.mem_cons_self)
      have left : rest.Perm others := (perm.trans (picks_perm picked).symm).cons_inv
      exact List.mem_flatMap.mpr ⟨_, picked, List.mem_map.mpr ⟨rest, ih left, rfl⟩⟩

variable {made : ShapeEntry} {poly : Poly} {image : Symbol → Symbol}

def pairing (made : ShapeEntry) (image : Symbol → Symbol) : Renaming :=
  made.streams.zip (made.streams.map image) ++ made.constants.zip (made.constants.map image)

theorem pairing_eq : pairing made image =
    (made.streams ++ made.constants).map fun symbol => (symbol, image symbol) := by
  rw [List.map_append, List.map_prod_left_eq_zip, List.map_prod_left_eq_zip]
  rfl

theorem pairing_image {symbol : Symbol} (occurs : symbol ∈ made.poly.symbols) :
    Renaming.image (pairing made image) symbol = image symbol := by
  have covered : symbol ∈ (pairing made image).map Prod.fst := by
    rw [pairing_eq, List.map_map]
    refine List.mem_map.mpr ⟨symbol, ?_, rfl⟩
    cases kind : symbol.isStream with
    | true => exact List.mem_append_left _ (List.mem_filter.mpr ⟨occurs, kind⟩)
    | false => exact List.mem_append_right _ (List.mem_filter.mpr ⟨occurs, by simp [kind]⟩)
  have member := Renaming.image_mem covered
  obtain ⟨source, _, same⟩ := List.mem_map.mp (pairing_eq ▸ member)
  obtain ⟨rfl, value⟩ := Prod.mk.inj same
  rw [pairing_eq]
  exact value.symm

/-- The pairs of a renaming that makes the polynomial are among those that are tried. -/
theorem pairing_tried (canonical : Poly.Canonical made.poly.terms)
    (apart : KeepsApart image made.poly.symbols)
    (kinds : ∀ symbol ∈ made.poly.symbols, (image symbol).isStream = symbol.isStream)
    (renamed : made.poly.rename image = poly) :
    (made.streams.length = (poly.symbols.filter Symbol.isStream).length ∧
      made.constants.length = (poly.symbols.filter (!·.isStream)).length ∧
      made.poly.degree = poly.degree) ∧
    pairing made image ∈ renamings made (poly.symbols.filter Symbol.isStream)
      (poly.symbols.filter (!·.isStream)) ∧
    made.poly.rename (Renaming.image (pairing made image)) = poly := by
  have symbols : poly.symbols.Perm (made.poly.symbols.map image) := by
    rw [← renamed]
    exact Poly.symbols_rename_perm canonical apart
  -- Both counts, as the renaming sends each kind of symbol to its own kind.
  have sorted : ∀ kind : Symbol → Bool,
      (∀ symbol ∈ made.poly.symbols, kind (image symbol) = kind symbol) →
        (poly.symbols.filter kind).Perm ((made.poly.symbols.filter kind).map image) := by
    intro kind kept
    apply (symbols.filter kind).trans
    rw [List.filter_map]
    exact .of_eq (congrArg _ (List.filter_congr kept))
  have streams : (poly.symbols.filter Symbol.isStream).Perm (made.streams.map image) :=
    sorted Symbol.isStream kinds
  have constants : (poly.symbols.filter (!·.isStream)).Perm (made.constants.map image) :=
    sorted (!·.isStream) fun symbol occurs => congrArg _ (kinds symbol occurs)
  have degrees : made.poly.degree = poly.degree := by
    rw [← renamed]
    exact (Poly.degree_rename canonical apart).symm
  have tried : pairing made image ∈ renamings made (poly.symbols.filter Symbol.isStream)
      (poly.symbols.filter (!·.isStream)) :=
    List.mem_flatMap.mpr ⟨_, mem_arrangements streams.symm,
      List.mem_map.mpr ⟨_, mem_arrangements constants.symm, rfl⟩⟩
  have fits : made.poly.rename (Renaming.image (pairing made image)) = poly := by
    rw [← renamed]
    exact Poly.rename_congr fun symbol occurs => pairing_image occurs
  have streamCount : made.streams.length = (poly.symbols.filter Symbol.isStream).length := by
    rw [streams.length_eq, List.length_map]
  have constantCount :
      made.constants.length = (poly.symbols.filter (!·.isStream)).length := by
    rw [constants.length_eq, List.length_map]
  exact ⟨⟨streamCount, constantCount, degrees⟩, tried, fits⟩

theorem instanceOf?_of_rename (canonical : Poly.Canonical made.poly.terms)
    (apart : KeepsApart image made.poly.symbols)
    (kinds : ∀ symbol ∈ made.poly.symbols, (image symbol).isStream = symbol.isStream)
    (renamed : made.poly.rename image = poly) :
    ∃ found, instanceOf? poly made = some found := by
  obtain ⟨alike, tried, fits⟩ := pairing_tried canonical apart kinds renamed
  cases first : (renamings made (poly.symbols.filter Symbol.isStream)
      (poly.symbols.filter (!·.isStream))).find? fun pairs =>
        made.poly.rename (Renaming.image pairs) = poly with
  | some pairs =>
      exact ⟨_, instanceOf?_eq_some.mpr ⟨pairs, chosen?_eq_some.mpr ⟨alike, first⟩, rfl⟩⟩
  | none =>
      have missed := List.find?_eq_none.mp first _ tried
      simp [fits] at missed

theorem find?_of_rename {table : ShapeTable} (member : made ∈ table.entries)
    (canonical : Poly.Canonical made.poly.terms) (apart : KeepsApart image made.poly.symbols)
    (kinds : ∀ symbol ∈ made.poly.symbols, (image symbol).isStream = symbol.isStream)
    (renamed : made.poly.rename image = poly) : ∃ found, table.find? poly = some found := by
  obtain ⟨found, tried⟩ := instanceOf?_of_rename canonical apart kinds renamed
  cases matched : table.find? poly with
  | some first => exact ⟨first, rfl⟩
  | none =>
      have missed := List.findSome?_eq_none_iff.mp matched made member
      rw [tried] at missed
      cases missed

end JoinEngine.ShapeTable

/-!
Which match is found. The orders of the symbols are tried in ascending order, so of
the renamings that turn the first fitting shape into the polynomial the one with the
least numbers is taken: the streams of `a`, `b` and `c` are compared first, then the
constant of `k`.
-/

namespace JoinEngine

def Symbol.number : Symbol → UInt8
  | stream number => number
  | constant number => number

namespace ShapeEntry

/-- A renaming of the placeholders onto the symbols of the polynomial, one to one and
each by a symbol of its kind, that turns the polynomial of the shape into it. -/
structure Fits (made : ShapeEntry) (poly : Poly) (image : Symbol → Symbol) : Prop where
  apart : KeepsApart image made.poly.symbols
  kinds : ∀ symbol ∈ made.poly.symbols, (image symbol).isStream = symbol.isStream
  onto : ∀ symbol, symbol ∈ poly.symbols ↔ symbol ∈ made.poly.symbols.map image
  renamed : made.poly.rename image = poly

/-- The numbers of the streams and then of the constant that stand for the
placeholders, in the order of these. -/
def targets (made : ShapeEntry) (image : Symbol → Symbol) : List Nat :=
  (made.streams ++ made.constants).map fun symbol => (image symbol).number.toNat

/-- The match of a renaming: zero for a placeholder that the pattern does not have. -/
def bound (made : ShapeEntry) (image : Symbol → Symbol) : ShapeMatch where
  shape := made.shape
  ports := .ofFn fun port =>
    if .onPort port ∈ made.poly.symbols then (image (.onPort port)).number else 0
  constant := if .constant 0 ∈ made.poly.symbols then (image (.constant 0)).number else 0

end ShapeEntry

theorem Renaming.image_of_mem {pairs : Renaming} (distinct : (pairs.map Prod.fst).Nodup)
    {pair : Symbol × Symbol} (member : pair ∈ pairs) : image pairs pair.1 = pair.2 := by
  have chosen := image_mem (List.mem_map_of_mem member)
  exact congrArg Prod.snd (List.inj_on_of_nodup_map distinct chosen member rfl)

theorem Renaming.Places.ofRenaming_eq {pairs : Renaming} {made : ShapeEntry} {target : List Symbol}
    (places : pairs.Places made.poly.symbols target) :
    ShapeMatch.ofRenaming made.shape pairs = made.bound (image pairs) := by
  have ports : (ShapeMatch.ofRenaming made.shape pairs).ports =
      (made.bound (image pairs)).ports := by
    apply Vector.ext
    intro slot inside
    simp only [ShapeEntry.bound, Vector.getElem_ofFn]
    split
    · rename_i occurs
      rw [places.port_image made.shape occurs]
      rfl
    · rename_i absent
      exact places.port_absent made.shape absent
  have constant :
      (ShapeMatch.ofRenaming made.shape pairs).constant = (made.bound (image pairs)).constant := by
    simp only [ShapeEntry.bound]
    split
    · rename_i occurs
      rw [places.constant_image made.shape occurs]
      rfl
    · rename_i absent
      exact places.constant_absent made.shape absent
  have shape := ShapeMatch.ofRenaming_shape made.shape pairs
  generalize ShapeMatch.ofRenaming made.shape pairs = found at shape ports constant
  cases found
  cases shape
  cases ports
  cases constant
  rfl

/-- The first item that passes is the least one, in a list that ascends. -/
theorem least_of_find? {α : Type} {below : α → α → Prop} {passes : α → Bool} {items : List α}
    {first other : α} (ascending : items.Pairwise below) (found : items.find? passes = some first)
    (member : other ∈ items) (also : passes other = true) : other = first ∨ below first other := by
  obtain ⟨_, before, after, rfl, failed⟩ := List.find?_eq_some_iff_append.mp found
  rcases List.mem_append.mp member with early | late
  · have fails := failed other early
    simp [also] at fails
  · rcases List.mem_cons.mp late with same | later
    · exact .inl same
    · have rest := (List.pairwise_append.mp ascending).2.1
      exact .inr (List.rel_of_pairwise_cons rest later)

theorem append_lt_append {one two : List Nat} (before : one < two)
    (length : one.length = two.length) (left right : List Nat) : one ++ left < two ++ right := by
  induction one generalizing two with
  | nil =>
      cases List.length_eq_zero_iff.mp length.symm
      exact absurd before (List.not_lt_nil _)
  | cons head tail ih =>
      cases two with
      | nil => exact absurd before (List.not_lt_nil _)
      | cons other rest =>
          rcases List.cons_lt_cons_iff.mp before with below | ⟨same, later⟩
          · exact List.cons_lt_cons_iff.mpr (.inl below)
          · exact List.cons_lt_cons_iff.mpr (.inr ⟨same, ih later (Nat.succ.inj length)⟩)

namespace ShapeTable

section Orders
variable {α : Type} {number : α → Nat} {items : List α}

theorem picks_sublist {pick : α × List α} (member : pick ∈ picks items) :
    pick.2.Sublist items := by
  induction items generalizing pick with
  | nil => simp [picks] at member
  | cons first rest ih =>
      rcases List.mem_cons.mp member with same | later
      · subst same
        exact List.sublist_cons_self first rest
      · obtain ⟨inner, inside, rfl⟩ := List.mem_map.mp later
        exact (ih inside).cons_cons first

theorem picks_ascending (ascending : items.Pairwise fun one two => number one < number two) :
    (picks items).Pairwise fun one two => number one.1 < number two.1 := by
  induction items with
  | nil => exact .nil
  | cons first rest ih =>
      obtain ⟨above, tail⟩ := List.pairwise_cons.mp ascending
      apply List.pairwise_cons.mpr
      constructor
      · intro pick later
        obtain ⟨inner, inside, rfl⟩ := List.mem_map.mp later
        exact above _ ((picks_perm inside).mem_iff.mp List.mem_cons_self)
      · exact List.pairwise_map.mpr (ih tail)

theorem arrangements_length {count : Nat} {order : List α}
    (member : order ∈ arrangements count items) : order.length = count := by
  induction count generalizing items order with
  | zero =>
      cases List.mem_singleton.mp member
      rfl
  | succ count ih =>
      obtain ⟨pick, _, placed⟩ := List.mem_flatMap.mp member
      obtain ⟨tail, arranged, rfl⟩ := List.mem_map.mp placed
      rw [List.length_cons, ih arranged]

theorem arrangements_ascending (count : Nat)
    (ascending : items.Pairwise fun one two => number one < number two) :
    (arrangements count items).Pairwise fun one two => one.map number < two.map number := by
  induction count generalizing items with
  | zero => exact List.pairwise_singleton _ _
  | succ count ih =>
      apply List.pairwise_flatMap.mpr
      constructor
      · intro pick picked
        apply List.pairwise_map.mpr
        refine (ih (ascending.sublist (picks_sublist picked))).imp fun later => ?_
        exact List.cons_lt_cons_iff.mpr (.inr ⟨rfl, later⟩)
      · refine (picks_ascending ascending).imp fun below first placed second alsoPlaced => ?_
        obtain ⟨_, _, rfl⟩ := List.mem_map.mp placed
        obtain ⟨_, _, rfl⟩ := List.mem_map.mp alsoPlaced
        exact List.cons_lt_cons_iff.mpr (.inl below)

end Orders

variable {made : ShapeEntry} {poly : Poly} {pairs : Renaming} {image : Symbol → Symbol}

theorem numbers_ascending (poly : Poly) {kind : Symbol → Bool}
    (alike : ∀ one two, kind one = true → kind two = true → one.isStream = two.isStream) :
    (poly.symbols.filter kind).Pairwise fun one two => one.number.toNat < two.number.toNat := by
  refine (poly.symbols_ascending.filter kind).imp_of_mem fun {one two} first second below => ?_
  have same := alike one two (List.mem_filter.mp first).2 (List.mem_filter.mp second).2
  cases one <;> cases two <;>
    simp_all [Symbol.rank, Symbol.number, Symbol.isStream]

def numbers (pairs : Renaming) : List Nat := (pairs.map Prod.snd).map (·.number.toNat)

theorem renamings_ascending
    (streams : made.streams.length = (poly.symbols.filter Symbol.isStream).length)
    (constants : made.constants.length = (poly.symbols.filter (!·.isStream)).length) :
    (renamings made (poly.symbols.filter Symbol.isStream)
      (poly.symbols.filter (!·.isStream))).Pairwise fun one two => numbers one < numbers two := by
  have streamOrders := arrangements_ascending (poly.symbols.filter Symbol.isStream).length
    (numbers_ascending poly fun _ _ first second => first.trans second.symm)
  have constantOrders := arrangements_ascending (poly.symbols.filter (!·.isStream)).length
    (numbers_ascending poly fun _ _ first second => Bool.not_inj (first.trans second.symm))
  have listed {streamOrder constantOrder : List Symbol}
      (streamCount : streamOrder.length = (poly.symbols.filter Symbol.isStream).length)
      (constantCount : constantOrder.length = (poly.symbols.filter (!·.isStream)).length) :
      numbers (made.streams.zip streamOrder ++ made.constants.zip constantOrder) =
        streamOrder.map (·.number.toNat) ++ constantOrder.map (·.number.toNat) := by
    rw [numbers, List.map_append, List.map_snd_zip (streams.trans streamCount.symm).ge,
      List.map_snd_zip (constants.trans constantCount.symm).ge, List.map_append]
  apply List.pairwise_flatMap.mpr
  constructor
  -- Under one order of the streams the constants decide.
  · intro streamOrder streamsPlaced
    apply List.pairwise_map.mpr
    refine constantOrders.imp_of_mem fun first second below => ?_
    rw [listed (arrangements_length streamsPlaced) (arrangements_length first),
      listed (arrangements_length streamsPlaced) (arrangements_length second)]
    exact List.append_left_lt below
  -- Two orders of the streams are equally long, so the constants behind do not matter.
  · refine streamOrders.imp_of_mem fun {one two} first second below left placed right also => ?_
    obtain ⟨constantOrder, constantsPlaced, rfl⟩ := List.mem_map.mp placed
    obtain ⟨otherOrder, otherPlaced, rfl⟩ := List.mem_map.mp also
    rw [listed (arrangements_length first) (arrangements_length constantsPlaced),
      listed (arrangements_length second) (arrangements_length otherPlaced)]
    apply append_lt_append below
    rw [List.length_map, List.length_map, arrangements_length first, arrangements_length second]

theorem renamings_fst (streams : made.streams.length = (poly.symbols.filter Symbol.isStream).length)
    (constants : made.constants.length = (poly.symbols.filter (!·.isStream)).length)
    (member : pairs ∈ renamings made (poly.symbols.filter Symbol.isStream)
      (poly.symbols.filter (!·.isStream))) :
    pairs.map Prod.fst = made.streams ++ made.constants := by
  obtain ⟨streamOrder, streamsPlaced, rest⟩ := List.mem_flatMap.mp member
  obtain ⟨constantOrder, constantsPlaced, rfl⟩ := List.mem_map.mp rest
  rw [List.map_append,
    List.map_fst_zip (streams.trans (arrangements_length streamsPlaced).symm).le,
    List.map_fst_zip (constants.trans (arrangements_length constantsPlaced).symm).le]

theorem numbers_eq_targets (firsts : pairs.map Prod.fst = made.streams ++ made.constants) :
    numbers pairs = made.targets (Renaming.image pairs) := by
  have distinct : (pairs.map Prod.fst).Nodup := by
    rw [firsts]
    exact (List.filter_append_perm _ _).nodup_iff.mpr made.poly.symbols_nodup
  rw [numbers, ShapeEntry.targets, ← firsts, List.map_map, List.map_map]
  refine List.map_congr_left fun pair member => ?_
  rw [Function.comp_apply, Function.comp_apply, Renaming.image_of_mem distinct member]

theorem numbers_pairing : numbers (pairing made image) = made.targets image := by
  rw [pairing_eq, numbers, List.map_map, List.map_map]
  rfl

theorem fits_of_between (canonical : Poly.Canonical made.poly.terms)
    (between : pairs.Between made.poly.symbols poly.symbols)
    (renamed : made.poly.rename (Renaming.image pairs) = poly) :
    made.Fits poly (Renaming.image pairs) where
  apart := between.apart
  kinds symbol occurs := (between.kinds _ (Renaming.image_mem (between.covers symbol occurs))).symm
  onto symbol := by
    conv_lhs => rw [← renamed]
    exact Poly.mem_symbols_rename canonical between.apart symbol
  renamed := renamed

theorem instanceOf?_least (canonical : Poly.Canonical made.poly.terms)
    (placeholders : ∀ symbol ∈ made.poly.symbols, Vocabulary.Placeholder symbol)
    {found : ShapeMatch} (tried : instanceOf? poly made = some found) :
    ∃ image, made.Fits poly image ∧
      (∀ other, made.Fits poly other → made.targets image ≤ made.targets other) ∧
      found = made.bound image := by
  obtain ⟨pairs, chosen, rfl⟩ := instanceOf?_eq_some.mp tried
  obtain ⟨alike, first⟩ := chosen?_eq_some.mp chosen
  have between := chosen?_between chosen
  refine ⟨Renaming.image pairs, fits_of_between canonical between (chosen?_renames chosen), ?_, ?_⟩
  · intro other fits
    obtain ⟨_, among, makes⟩ := pairing_tried canonical fits.apart fits.kinds fits.renamed
    have firsts := renamings_fst alike.1 alike.2.1 (List.mem_of_find?_eq_some first)
    rw [← numbers_eq_targets firsts, ← numbers_pairing]
    rcases least_of_find? (renamings_ascending alike.1 alike.2.1) first among (by simp [makes])
      with same | below
    · exact (congrArg numbers same).ge
    · exact below.le
  · exact Renaming.Places.ofRenaming_eq { between with placeholders := placeholders }

theorem find?_first {shapes : List Shape} {table : ShapeTable} (built : build shapes = .ok table)
    {found : ShapeMatch} (matched : table.find? poly = some found) :
    ∃ before made after image, table.entries = before ++ made :: after ∧
      (∀ earlier ∈ before, ∀ other, ¬ earlier.Fits poly other) ∧
      made.Fits poly image ∧
      (∀ other, made.Fits poly other → made.targets image ≤ made.targets other) ∧
      found = made.bound image := by
  obtain ⟨before, made, after, listed, tried, failed⟩ := List.findSome?_eq_some_iff.mp matched
  have member : made ∈ table.entries := by simp [listed]
  obtain ⟨canonical, placeholders⟩ := build_poly built member
  obtain ⟨image, fits, least, rfl⟩ := instanceOf?_least canonical placeholders tried
  refine ⟨before, made, after, image, listed, ?_, fits, least, rfl⟩
  intro earlier early other alsoFits
  have present : earlier ∈ table.entries := by simp [listed, early]
  obtain ⟨_, instanced⟩ := instanceOf?_of_rename (build_poly built present).1
    alsoFits.apart alsoFits.kinds alsoFits.renamed
  rw [failed earlier early] at instanced
  cases instanced

end ShapeTable

/-- A polynomial is found exactly if it is an instance of some shape. The match is of
the first such shape, with the least of the renamings that make the polynomial of it. -/
theorem first_shape_least_binding (shapes : List Shape) (table : ShapeTable)
    (built : ShapeTable.build shapes = .ok table) (poly : Poly) :
    ((∃ found, table.find? poly = some found) ↔
      ∃ made ∈ table.entries, ∃ image, made.Fits poly image) ∧
    ∀ found, table.find? poly = some found →
      ∃ before made after image, table.entries = before ++ made :: after ∧
        (∀ earlier ∈ before, ∀ other, ¬ earlier.Fits poly other) ∧
        made.Fits poly image ∧
        (∀ other, made.Fits poly other → made.targets image ≤ made.targets other) ∧
        found = made.bound image := by
  refine ⟨⟨?_, ?_⟩, fun found matched => ShapeTable.find?_first built matched⟩
  · rintro ⟨found, matched⟩
    obtain ⟨_, made, _, image, listed, _, fits, _⟩ := ShapeTable.find?_first built matched
    exact ⟨made, by simp [listed], image, fits⟩
  · rintro ⟨made, member, image, fits⟩
    exact ShapeTable.find?_of_rename member (ShapeTable.build_poly built member).1 fits.apart
      fits.kinds fits.renamed

/-- Two shapes and two renamings of each make the sum: the first shape is taken, with
the smaller stream on the first port. -/
theorem commuted_sum_least_binding :
    let sum : Poly := ⟨[([.stream 0], 1), ([.stream 1], 1)]⟩
    let table : ShapeTable := ⟨[⟨⟨"add", 2, "a+b"⟩, sum⟩, ⟨⟨"join", 9, "b+a"⟩, sum⟩]⟩
    let poly : Poly := ⟨[([.stream 2], 1), ([.stream 5], 1)]⟩
    ShapeTable.build [⟨"add", 2, "a+b"⟩, ⟨"join", 9, "b+a"⟩] = .ok table ∧
      table.find? poly = some ⟨⟨"add", 2, "a+b"⟩, #v[2, 5, 0], 0⟩ ∧
      ∃ before made after image, table.entries = before ++ made :: after ∧
        (∀ earlier ∈ before, ∀ other, ¬ earlier.Fits poly other) ∧
        made.Fits poly image ∧
        (∀ other, made.Fits poly other → made.targets image ≤ made.targets other) ∧
        ⟨⟨"add", 2, "a+b"⟩, #v[2, 5, 0], 0⟩ = made.bound image := by
  intro sum table poly
  have built : ShapeTable.build [⟨"add", 2, "a+b"⟩, ⟨"join", 9, "b+a"⟩] = .ok table := by decide
  have matched : table.find? poly = some ⟨⟨"add", 2, "a+b"⟩, #v[2, 5, 0], 0⟩ := by decide
  exact ⟨built, matched, (first_shape_least_binding _ _ built poly).2 _ matched⟩

end JoinEngine
