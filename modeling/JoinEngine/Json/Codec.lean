import JoinEngine.Json

/-!
Values of the library's own types as JSON. A codec reads a value and writes it. A
structure is described by its slots, one for each field in order. It is written as
an object, and read from an object with those keys or from an array with the
fields by position, always from left to right; the first thing wrong is what is
reported. These are the rules that the serialization library documents for the
readers and writers it derives from a type, and they are taken as given here.
-/

namespace JoinEngine.Json

/-- Why a JSON text gives no value. `refused` is the reason of a type that looks
at more than the form. -/
inductive Fault (Reason : Type) where
  | malformed
  | refused (reason : Reason)
  deriving DecidableEq

structure Codec (Reason α : Type) where
  decode : Json → Except (Fault Reason) α
  encode : α → Json

variable {Reason α β Record : Type}

def malformed : Except (Fault Reason) α := .error .malformed

namespace Codec

def bool : Codec Reason Bool where
  decode
    | .bool value => .ok value
    | _ => malformed
  encode := .bool

def text : Codec Reason String where
  decode
    | .string (some value) => .ok value
    | _ => malformed
  encode := Json.text

def range (least greatest : Int) : Codec Reason Int where
  decode
    | .int value => if least ≤ value ∧ value ≤ greatest then .ok value else malformed
    | _ => malformed
  encode := .int

def alter (codec : Codec Reason α) (pack : α → β) (unpack : β → α) : Codec Reason β where
  decode value := (codec.decode value).map pack
  encode value := codec.encode (unpack value)

def refine (codec : Codec Reason α) (check : α → Except Reason β) (unpack : β → α) :
    Codec Reason β where
  decode value := do (check (← codec.decode value)).mapError .refused
  encode value := codec.encode (unpack value)

def byte : Codec Reason UInt8 :=
  (range 0 0xff).alter UInt8.ofInt fun value => value.toNat

def word : Codec Reason UInt32 :=
  (range 0 0xffffffff).alter UInt32.ofInt fun value => value.toNat

def int64 : Codec Reason Int64 :=
  (range (-0x8000000000000000) 0x7fffffffffffffff).alter Int64.ofInt Int64.toInt

def items (codec : Codec Reason α) : Codec Reason (List α) where
  decode
    | .array entries => entries.mapM codec.decode
    | _ => malformed
  encode values := .array (values.map codec.encode)

def vector (count : Nat) (codec : Codec Reason α) : Codec Reason (Vector α count) where
  decode value := do
    let entries ← codec.items.decode value
    if size : entries.length = count then .ok ⟨entries.toArray, by simpa using size⟩
    else malformed
  encode values := codec.items.encode values.toList

def pair (first : Codec Reason α) (second : Codec Reason β) : Codec Reason (α × β) where
  decode
    | .array [a, b] => do return (← first.decode a, ← second.decode b)
    | _ => malformed
  encode value := .array [first.encode value.1, second.encode value.2]

def option (codec : Codec Reason α) : Codec Reason (Option α) where
  decode
    | .null => .ok none
    | value => (codec.decode value).map some
  encode
    | none => .null
    | some value => codec.encode value

def byName (values : List α) (name : α → String) (given : String) : Except (Fault Reason) α :=
  match values.find? (name · = given) with
  | some value => .ok value
  | none => malformed

/-- One of a list of values by its name, read from a string or from the only key
of an object that holds nothing. -/
def named (values : List α) (name : α → String) : Codec Reason α where
  decode
    | .string (some given) => byName values name given
    | .object [(some given, .null)] => byName values name given
    | _ => malformed
  encode value := Json.text (name value)

end Codec

/-- One field of a structure: its key, whether it has to be there, how it is read
into the structure and how it is written. A field that writes nothing is left
out. -/
structure Slot (Reason Record : Type) where
  key : String
  required : Bool
  read : Json → Record → Except (Fault Reason) Record
  write : Record → Option Json

namespace Slot

def optional (key : String) (codec : Codec Reason α) (get : Record → α)
    (set : Record → α → Record) : Slot Reason Record where
  key := key
  required := false
  read value record := (codec.decode value).map (set record)
  write record := some (codec.encode (get record))

def mandatory (key : String) (codec : Codec Reason α) (get : Record → α)
    (set : Record → α → Record) : Slot Reason Record :=
  { optional key codec get set with required := true }

/-- A field that may hold nothing and is then left out. -/
def possible (key : String) (codec : Codec Reason α) (get : Record → Option α)
    (set : Record → Option α → Record) : Slot Reason Record :=
  { optional key codec.option get set with write := fun record => (get record).map codec.encode }

section Keys
variable (key : String) (codec : Codec Reason α)

@[simp] theorem key_optional (get : Record → α) (set : Record → α → Record) :
    (optional key codec get set).key = key := rfl

@[simp] theorem key_mandatory (get : Record → α) (set : Record → α → Record) :
    (mandatory key codec get set).key = key := rfl

@[simp] theorem key_possible (get : Record → Option α) (set : Record → Option α → Record) :
    (possible key codec get set).key = key := rfl

end Keys

end Slot

/-- The fields of an object. A key no slot has is passed over, a key of a slot may
come once; `seen` holds the keys of slots that came. -/
def readFields (slots : List (Slot Reason Record)) :
    List (Option String × Json) → List String → Record → Except (Fault Reason) Record
  | [], seen, record =>
      if slots.all fun slot => !slot.required || seen.contains slot.key then .ok record
      else malformed
  | (none, _) :: _, _, _ => malformed
  | (some key, value) :: rest, seen, record =>
      match slots.find? (·.key = key) with
      | none => readFields slots rest seen record
      | some slot =>
          if seen.contains key then malformed
          else do readFields slots rest (key :: seen) (← slot.read value record)

/-- The fields by position. Fields at the end may be missing if they have
defaults. -/
def readItems : List (Slot Reason Record) → List Json → Record → Except (Fault Reason) Record
  | slots, [], record => if slots.all (!·.required) then .ok record else malformed
  | [], _ :: _, _ => malformed
  | slot :: slots, item :: rest, record => do readItems slots rest (← slot.read item record)

def Codec.record (slots : List (Slot Reason Record)) (initial : Record) : Codec Reason Record where
  decode
    | .object fields => readFields slots fields [] initial
    | .array entries => readItems slots entries initial
    | _ => malformed
  encode value :=
    fields (slots.filterMap fun slot => (slot.write value).map fun field => (slot.key, field))

def Codec.read (codec : Codec Reason α) (source : String) : Except (Fault Reason) α := do
  let document := Document.read source
  let value ← codec.decode document.value
  if document.whole then .ok value else malformed

def Codec.write (codec : Codec Reason α) (value : α) : String := (codec.encode value).compact

end JoinEngine.Json
