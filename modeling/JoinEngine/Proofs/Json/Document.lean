import JoinEngine.Proofs.Json.Scan

/-!
Reading a text back as the value it was written from. The builder that is given the
tokens of a value puts the value into its place, whatever array or object that is in,
so the text of a plain value is one whole document that holds the value.
-/

namespace JoinEngine.Json

/-- Values that their texts determine: integers are the only numbers and no string
is lost. -/
inductive Plain : Json → Prop where
  | null : Plain .null
  | bool (value : Bool) : Plain (.bool value)
  | int (value : Int) : Plain (.int value)
  | text (value : String) : Plain (.text value)
  | array {items : List Json} (each : ∀ item ∈ items, Plain item) : Plain (.array items)
  | fields {entries : List (String × Json)} (each : ∀ entry ∈ entries, Plain entry.2) :
      Plain (.fields entries)

namespace Token

def starts : Token → Bool
  | null | bool _ | int _ | real _ | string _ | lbracket | lbrace => true
  | _ => false

/-- Tokens that can be read back behind any other. -/
structure Follows (tokens : List Token) : Prop extends Readable tokens where
  closed : ∀ first ∈ tokens.head?, first.isOpen = false

theorem follows_nil : Follows [] where
  plain := by simp
  apart := .nil
  closed := by simp

theorem Follows.cons {token : Token} {rest : List Token} (follows : Follows rest)
    (plain : token.isPlain = true) : Readable (token :: rest) where
  plain := List.forall_mem_cons.mpr ⟨plain, follows.plain⟩
  apart := List.isChain_cons.mpr ⟨fun first member => .inr (follows.closed first member),
    follows.apart⟩

theorem Readable.cons {token : Token} {rest : List Token} (readable : Readable rest)
    (plain : token.isPlain = true) (closed : token.isOpen = false) : Follows (token :: rest) where
  plain := List.forall_mem_cons.mpr ⟨plain, readable.plain⟩
  apart := List.isChain_cons.mpr ⟨fun _ _ => .inl closed, readable.apart⟩
  closed := by
    intro first member
    cases member
    exact closed

end Token

theorem readable_items {items : List Json} {rest : List Token} (follows : Token.Follows rest)
    (each : ∀ item ∈ items, ∀ rest, Token.Follows rest → Token.Readable (item.tokens ++ rest)) :
    Token.Follows (itemTokens items ++ rest) := by
  induction items with
  | nil =>
      rw [itemTokens]
      exact follows.toReadable.cons rfl rfl
  | cons item others ih =>
      have later := ih fun item member => each item (List.mem_cons_of_mem _ member)
      have first := each item List.mem_cons_self _ later
      rw [itemTokens, List.cons_append, List.append_assoc]
      exact first.cons rfl rfl

theorem readable_field {key : String} {value : Json} {rest : List Token}
    (readable : Token.Readable (value.tokens ++ rest)) :
    Token.Follows (fieldTokens (some key, value) ++ rest) := by
  rw [fieldTokens]
  exact (readable.cons rfl rfl).toReadable.cons rfl rfl

theorem readable_fields {entries : List (String × Json)} {rest : List Token}
    (follows : Token.Follows rest) (each : ∀ entry ∈ entries, ∀ rest, Token.Follows rest →
      Token.Readable (entry.2.tokens ++ rest)) :
    Token.Follows
      (moreFieldTokens (entries.map fun entry => (some entry.1, entry.2)) ++ rest) := by
  induction entries with
  | nil =>
      rw [List.map_nil, moreFieldTokens]
      exact follows.toReadable.cons rfl rfl
  | cons entry others ih =>
      have later := ih fun entry member => each entry (List.mem_cons_of_mem _ member)
      have first := each entry List.mem_cons_self _ later
      rw [List.map_cons, moreFieldTokens, List.cons_append, List.append_assoc]
      exact (readable_field first).toReadable.cons rfl rfl

namespace Plain
variable {value : Json} (plain : value.Plain)
include plain

theorem readable {rest : List Token} (follows : Token.Follows rest) :
    Token.Readable (value.tokens ++ rest) := by
  induction plain generalizing rest with
  | null | bool flag | int number | text content =>
      simp only [Json.text, tokens, List.singleton_append]
      exact follows.cons rfl
  | array each ih =>
      rename_i items
      cases items with
      | nil =>
          rw [tokens]
          exact ((follows.toReadable.cons rfl rfl).toReadable.cons rfl rfl).toReadable
      | cons item others =>
          have later := readable_items follows fun item member _ =>
            ih item (List.mem_cons_of_mem _ member)
          have first := ih item List.mem_cons_self later
          rw [tokens, List.cons_append, List.append_assoc]
          exact (first.cons rfl rfl).toReadable
  | fields each ih =>
      rename_i entries
      cases entries with
      | nil =>
          rw [Json.fields, List.map_nil, tokens]
          exact ((follows.toReadable.cons rfl rfl).toReadable.cons rfl rfl).toReadable
      | cons entry others =>
          have later := readable_fields follows fun entry member _ =>
            ih entry (List.mem_cons_of_mem _ member)
          have first := ih entry List.mem_cons_self later
          rw [Json.fields, List.map_cons, tokens, List.cons_append, List.append_assoc]
          exact ((readable_field first).toReadable.cons rfl rfl).toReadable

theorem tokens_start : ∃ first rest, value.tokens = first :: rest ∧ first.starts = true := by
  cases plain with
  | null | bool flag | int number | text content =>
      simp only [Json.text, tokens]
      exact ⟨_, _, rfl, rfl⟩
  | array each =>
      rename_i items
      cases items <;> rw [tokens] <;> exact ⟨_, _, rfl, rfl⟩
  | fields each =>
      rename_i entries
      cases entries <;> simp only [Json.fields, List.map_nil, List.map_cons, tokens] <;>
        exact ⟨_, _, rfl, rfl⟩

end Plain

namespace Builder

theorem step_firstItem (frames : List Frame) {token : Token} (starts : token.starts = true) :
    (firstItem frames).step token = (value (.items [] :: frames)).step token := by
  cases token <;> first | rfl | cases starts

def Takes (read : Json) : Prop :=
  ∀ frames, read.tokens.foldl step (value frames) = place read frames

theorem foldl_items {items : List Json} (each : ∀ item ∈ items, Takes item)
    (before : List Json) (frames : List Frame) :
    (itemTokens items).foldl step (nextItem before frames) =
      place (.array (before.reverse ++ items)) frames := by
  induction items generalizing before with
  | nil =>
      rw [itemTokens, List.append_nil]
      rfl
  | cons item others ih =>
      rw [itemTokens, List.foldl_cons, List.foldl_append]
      have first := each item List.mem_cons_self (.items before :: frames)
      have later := ih (fun item member => each item (List.mem_cons_of_mem _ member))
        (item :: before)
      rw [List.reverse_cons, List.append_assoc] at later
      change (itemTokens others).foldl step
        (item.tokens.foldl step (value (.items before :: frames))) = _
      rw [first]
      exact later

theorem foldl_fields {entries : List (Option String × Json)}
    (each : ∀ entry ∈ entries, Takes entry.2) (before : List (Option String × Json))
    (frames : List Frame) :
    (moreFieldTokens entries).foldl step (nextField before frames) =
      place (.object (before.reverse ++ entries)) frames := by
  induction entries generalizing before with
  | nil =>
      rw [moreFieldTokens, List.append_nil]
      rfl
  | cons entry others ih =>
      obtain ⟨key, read⟩ := entry
      rw [moreFieldTokens, List.foldl_cons, List.foldl_append, fieldTokens]
      have first := each (key, read) List.mem_cons_self (.field before key :: frames)
      have later := ih (fun entry member => each entry (List.mem_cons_of_mem _ member))
        ((key, read) :: before)
      rw [List.reverse_cons, List.append_assoc] at later
      change (moreFieldTokens others).foldl step
        (read.tokens.foldl step (value (.field before key :: frames))) = _
      rw [first]
      exact later

theorem takes_array {items : List Json} (each : ∀ item ∈ items, Takes item)
    (plain : ∀ item ∈ items, item.Plain) : Takes (.array items) := by
  intro frames
  cases items with
  | nil =>
      rw [tokens]
      rfl
  | cons item others =>
      obtain ⟨start, rest, spelled, starts⟩ := (plain item List.mem_cons_self).tokens_start
      have first := each item List.mem_cons_self (.items [] :: frames)
      have later := foldl_items (fun item member => each item (List.mem_cons_of_mem _ member))
        [item] frames
      rw [tokens, List.foldl_cons, List.foldl_append]
      -- An array may end at once, so its first item is met in a place of its own.
      change (itemTokens others).foldl step (item.tokens.foldl step (firstItem frames)) = _
      rw [spelled, List.foldl_cons] at first ⊢
      rw [step_firstItem frames starts, first]
      exact later

theorem takes_object {entries : List (Option String × Json)}
    (each : ∀ entry ∈ entries, Takes entry.2) : Takes (.object entries) := by
  intro frames
  cases entries with
  | nil =>
      rw [tokens]
      rfl
  | cons entry others =>
      obtain ⟨key, read⟩ := entry
      have first := each (key, read) List.mem_cons_self (.field [] key :: frames)
      have later := foldl_fields (fun entry member => each entry (List.mem_cons_of_mem _ member))
        [(key, read)] frames
      rw [tokens, List.foldl_cons, List.foldl_append, fieldTokens]
      change (moreFieldTokens others).foldl step
        (read.tokens.foldl step (value (.field [] key :: frames))) = _
      rw [first]
      exact later

end Builder

theorem Plain.takes {value : Json} (plain : value.Plain) : Builder.Takes value := by
  induction plain with
  | null | bool flag | int number | text content =>
      intro frames
      simp only [Json.text, tokens]
      rfl
  | array each ih => exact Builder.takes_array ih each
  | fields each ih =>
      apply Builder.takes_object
      intro entry member
      obtain ⟨inner, inside, rfl⟩ := List.mem_map.mp member
      exact ih inner inside

theorem Plain.ofTokens {value : Json} (plain : value.Plain) :
    Document.ofTokens value.tokens = ⟨value, true⟩ := by
  rw [Document.ofTokens, Builder.start, plain.takes]
  rfl

/-- The text of a plain value is read back, whatever blanks are between its tokens. -/
theorem Plain.read_layOut {value : Json} (plain : value.Plain)
    {gap : Nat → Token → Token → List Char}
    (blank : ∀ depth before after, ∀ c ∈ gap depth before after, Scan.isBlank c = true) :
    Document.read (String.ofList (layOut gap value.tokens)) = ⟨value, true⟩ := by
  have readable := plain.readable Token.follows_nil
  rw [List.append_nil] at readable
  rw [Document.read, String.toList_ofList, scan_layOut blank readable, plain.ofTokens]

theorem Plain.read_compact {value : Json} (plain : value.Plain) :
    Document.read value.compact = ⟨value, true⟩ :=
  plain.read_layOut (by simp)

theorem isBlank_of_mem_indentation {depth : Nat} {before after : Token} {c : Char}
    (member : c ∈ indentation depth before after) : Scan.isBlank c = true := by
  unfold indentation at member
  split at member
  · cases member
  split at member
  · rcases List.mem_cons.mp member with rfl | blank
    · rfl
    · cases List.eq_of_mem_replicate blank
      rfl
  split at member
  · cases List.mem_singleton.mp member
    rfl
  · cases member

theorem Plain.read_indented {value : Json} (plain : value.Plain) :
    Document.read value.indented = ⟨value, true⟩ :=
  plain.read_layOut fun _ _ _ _ => isBlank_of_mem_indentation

end JoinEngine.Json
