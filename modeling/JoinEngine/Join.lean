import JoinEngine.Error

/-!
Joins by column number and by column name. Each relation brings eight columns to a
join, named by a byte each: first the columns of the key, then the payload. A
payload slot may be left empty or repeat the key. A join says which columns these
are, how matched rows leave and which of the five output slots are written.
-/

namespace JoinEngine

inductive ColumnRef where
  | used (column : UInt8)
  | unused
  | duplicateKey
  deriving DecidableEq

namespace ColumnRef

def toByte : ColumnRef → UInt8
  | used column => column
  | unused => 0xff
  | duplicateKey => 0xfe

/-- Bytes from 128 on are no columns. -/
def ofByte (byte : UInt8) : Except CompileError ColumnRef :=
  if byte = 0xff then .ok unused
  else if byte = 0xfe then .ok duplicateKey
  else if byte < 0x80 then .ok (used byte)
  else .error (.record (.columnByte byte))

def column? : ColumnRef → Option UInt8
  | used column => some column
  | unused | duplicateKey => none

def isMaterialized : ColumnRef → Bool
  | unused => false
  | used _ | duplicateKey => true

end ColumnRef

structure ColumnMap where
  slots : Vector ColumnRef 8
  deriving DecidableEq

namespace ColumnMap

/-- The key, then the payload, then empty slots. What is beyond the eighth slot
is dropped. -/
def ofParts (keys : List UInt8) (payload : List ColumnRef) : ColumnMap :=
  let entries := keys.map ColumnRef.used ++ payload
  ⟨Vector.ofFn fun slot => entries[slot.val]?.getD .unused⟩

def toBytes (map : ColumnMap) : Vector UInt8 8 := map.slots.map ColumnRef.toByte

def fault? (bytes : List UInt8) : Option CompileError :=
  bytes.findSome? fun byte =>
    match ColumnRef.ofByte byte with
    | .ok _ => none
    | .error fault => some fault

def ofBytes (bytes : Vector UInt8 8) : Except CompileError ColumnMap :=
  match fault? bytes.toList with
  | some fault => .error fault
  | none => .ok ⟨bytes.map fun byte => (ColumnRef.ofByte byte).toOption.getD .unused⟩

end ColumnMap

/-- Output slots, as an ascending list. -/
structure SlotSet where
  slots : List UInt8
  ascending : slots.Pairwise (· < ·)
  deriving DecidableEq

namespace SlotSet

def empty : SlotSet := ⟨[], .nil⟩

def place (slot : UInt8) : List UInt8 → List UInt8
  | [] => [slot]
  | first :: rest =>
      if slot < first then slot :: first :: rest
      else if slot = first then first :: rest
      else first :: place slot rest

theorem mem_place {slot other : UInt8} {slots : List UInt8} :
    other ∈ place slot slots ↔ other = slot ∨ other ∈ slots := by
  induction slots with
  | nil => simp [place]
  | cons first rest ih =>
    unfold place
    split
    · simp
    · split
      · rename_i same
        simp [same]
      · simp only [List.mem_cons, ih]
        exact or_left_comm

theorem place_ascending {slot : UInt8} {slots : List UInt8}
    (ascending : slots.Pairwise (· < ·)) : (place slot slots).Pairwise (· < ·) := by
  induction slots with
  | nil => simp [place]
  | cons first rest ih =>
    obtain ⟨above, tail⟩ := List.pairwise_cons.mp ascending
    unfold place
    split
    · rename_i less
      refine List.pairwise_cons.mpr ⟨fun other member => ?_, ascending⟩
      rcases List.mem_cons.mp member with same | member
      · exact same ▸ less
      · exact UInt8.lt_trans less (above other member)
    · split
      · exact ascending
      · rename_i notLess notSame
        refine List.pairwise_cons.mpr ⟨fun other member => ?_, ih tail⟩
        rcases mem_place.mp member with same | member
        · subst same
          exact UInt8.lt_of_le_of_ne (UInt8.not_lt.mp notLess) (Ne.symm notSame)
        · exact above other member

def insert (set : SlotSet) (slot : UInt8) : SlotSet :=
  ⟨place slot set.slots, place_ascending set.ascending⟩

def ofList (slots : List UInt8) : SlotSet := slots.foldl insert empty

end SlotSet

structure Join where
  keys : Sides (List UInt8)
  payload : Sides (List ColumnRef)
  mode : JoinMode
  aggregate : Bool
  hashSize : UInt32
  /-- Without it the rows of the left relation pass by. -/
  enabled : Bool
  /-- Output slots that are not written although something feeds them. -/
  suppressed : SlotSet
  deriving DecidableEq

namespace Join

def onKeys (left right : List UInt8) : Join where
  keys := ⟨left, right⟩
  payload := .both []
  mode := .inner
  aggregate := false
  hashSize := 32
  enabled := true
  suppressed := .empty

def isDualKey (join : Join) : Bool := join.keys.left.length = 2

def mapSlots : Nat := 8

def outputSlots : UInt8 := 5

def modeFault? (join : Join) : Option CompileError :=
  if join.mode.dropsRight && !join.payload.right.isEmpty then
    some (.rightPayload join.mode join.payload.right.length)
  else none

def keyFault? (join : Join) : Option CompileError :=
  let left := join.keys.left.length
  let right := join.keys.right.length
  if left = right ∧ (left = 1 ∨ left = 2) then none else some (.keyCount left right)

def columns (join : Join) (side : Side) : List UInt8 :=
  join.keys.get side ++ (join.payload.get side).filterMap ColumnRef.column?

def columnFault? (join : Join) (scanColumns : UInt8) (side : Side) : Option CompileError :=
  ((join.columns side).find? (scanColumns ≤ ·)).map fun column =>
    .columnRange side column scanColumns

def payloadFault? (join : Join) (side : Side) : Option CompileError :=
  let limit := mapSlots - (join.keys.get side).length
  let count := (join.payload.get side).length
  if limit < count then some (.payloadOverflow side count limit) else none

def suppressedFault? (join : Join) : Option CompileError :=
  (join.suppressed.slots.find? (outputSlots ≤ ·)).map CompileError.outputSlot

/-- The checks in the order in which they are made. -/
def faults (join : Join) (scanColumns : UInt8) : List (Option CompileError) :=
  [ join.modeFault?,
    join.keyFault?,
    join.columnFault? scanColumns .left,
    join.payloadFault? .left,
    join.columnFault? scanColumns .right,
    join.payloadFault? .right,
    join.suppressedFault? ]

def validate (join : Join) (scanColumns : UInt8) : Except CompileError Unit :=
  match (join.faults scanColumns).findSome? id with
  | some fault => .error fault
  | none => .ok ()

def mark (mask : UInt8) (slot : Nat) : UInt8 := mask ||| (1 <<< UInt8.ofNat slot)

/-- The output slots that something feeds: the first three slots the payload of the right
relation, the next the first payload of the left, the last a computed result. -/
def feedMask (left right : List ColumnRef) (result : Bool) : UInt8 :=
  let carried := (right.take 3).zipIdx.filter fun entry => entry.1.isMaterialized
  let mask := carried.foldl (fun mask entry => mark mask entry.2) 0
  let mask := if left.head?.any ColumnRef.isMaterialized then mark mask 3 else mask
  if result then mark mask 4 else mask

def suppressedMask (join : Join) : UInt8 :=
  (join.suppressed.slots.filter (· < outputSlots)).foldl (fun mask slot => mark mask slot.toNat) 0

def writeMask (join : Join) (hasExpr : Bool) : UInt8 :=
  feedMask join.payload.left join.payload.right (hasExpr || join.aggregate) &&&
    ~~~join.suppressedMask

end Join

/-!
Joins by column name. Both relations name their columns, the key is a list of
pairs of names and the payload a list of names; resolving a join looks the names
up and gives the join by column number.
-/

structure NamedJoin where
  columns : Sides (List String)
  /-- The key pairs, each in either order. -/
  keys : List (String × String)
  payload : Sides (List String)
  mode : JoinMode
  aggregate : Bool
  deriving DecidableEq

namespace NamedJoin

def ofColumns (left right : List String) : NamedJoin where
  columns := ⟨left, right⟩
  keys := []
  payload := .both []
  mode := .inner
  aggregate := false

def withKey (join : NamedJoin) (first second : String) : NamedJoin :=
  { join with keys := join.keys ++ [(first, second)] }

def equation? (piece : List Char) : Option (String × String) := do
  let (left, right) ← Text.splitOnce? '=' piece
  let first := Text.trim left
  let second := Text.trim right
  if first.isEmpty || second.isEmpty || second.contains '=' then none
  else return (String.ofList first, String.ofList second)

def equations (source : String) : Nat → List (List Char) →
    Except CompileError (List (String × String))
  | _, [] => .ok []
  | position, piece :: rest =>
      match equation? piece with
      | none => .error (.keyCondition source position)
      | some pair =>
          (equations source (position + Text.byteLength piece + 1) rest).map (pair :: ·)

def withCondition (join : NamedJoin) (condition : String) : Except CompileError NamedJoin :=
  (equations condition 0 (Text.pieces ',' condition.toList)).map fun pairs =>
    { join with keys := join.keys ++ pairs }

def hole : String := "-"

/-- The number of the first column with a name. Columns from the 257th on have no
number. -/
def index? (join : NamedJoin) (side : Side) (name : String) : Option UInt8 :=
  match (join.columns.get side).idxOf? name with
  | some index => if index < 256 then some (UInt8.ofNat index) else none
  | none => none

def has (join : NamedJoin) (side : Side) (name : String) : Bool := (join.index? side name).isSome

def index (join : NamedJoin) (side : Side) (name : String) : Except CompileError UInt8 :=
  match join.index? side name with
  | some column => .ok column
  | none => .error (.unknownColumn side name)

/-- The names of a key pair, the one of the left relation first. A pair is taken
as written if it can be. -/
def orient (join : NamedJoin) : String × String → Except CompileError (String × String)
  | (first, second) =>
      if join.has .left first && join.has .right second then .ok (first, second)
      else if join.has .left second && join.has .right first then .ok (second, first)
      else if !join.has .left first && !join.has .left second then
        .error (.unknownColumn .left first)
      else .error (.unknownColumn .right second)

def columnRef (join : NamedJoin) (side : Side) (keys : List String) (name : String) :
    Except CompileError ColumnRef :=
  if name = hole then .ok .unused
  else if keys.contains name then .ok .duplicateKey
  else (join.index side name).map ColumnRef.used

def resolve (join : NamedJoin) : Except CompileError Join := do
  let pairs ← join.keys.mapM join.orient
  let leftNames := pairs.map Prod.fst
  let rightNames := pairs.map Prod.snd
  let leftKeys ← leftNames.mapM (join.index .left)
  let rightKeys ← rightNames.mapM (join.index .right)
  let leftPayload ← join.payload.left.mapM (join.columnRef .left leftNames)
  let rightPayload ← join.payload.right.mapM (join.columnRef .right rightNames)
  return { Join.onKeys leftKeys rightKeys with
    payload := ⟨leftPayload, rightPayload⟩
    mode := join.mode
    aggregate := join.aggregate }

end NamedJoin

end JoinEngine
