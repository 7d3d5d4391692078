import Transmogr.Fallible
import Transmogr.Replication

/-! The protobuf codec of `transport/grpc/protocol/messages.go`: primary keys
travel as typed values and are encoded to JSON again on the receiving side. -/
namespace Transmogr

/-- The `%q` verb on a name without characters that need an escape. -/
def quoted (name : String) : String := "\"" ++ name ++ "\""

inductive ProtoPrimaryKeyValue where
  | integerValue (value : Int64)
  | booleanValue (value : Bool)
  | stringValue (value : String)
  deriving DecidableEq

structure ProtoPrimaryKeyPart where
  column : String
  value : Option ProtoPrimaryKeyValue
  deriving DecidableEq

/-- `string(bytes)`, read as characters. -/
def stringOfBytes (bytes : Bytes) : String := String.ofList (go bytes.length bytes)
where
  go : Nat → Bytes → List Char
    | 0, _ => []
    | _, [] => []
    | fuel + 1, b :: rest =>
      match (b :: rest).toByteArray.utf8DecodeChar? 0 with
      | some c => c :: go fuel ((b :: rest).drop c.utf8Size)
      | none => Json.replacement :: go fuel rest

/-- A value that does not decode as its type travels as the string of its bytes. -/
def assignProtoPrimaryKeyValue (part : PrimaryKeyPart) : ProtoPrimaryKeyValue :=
  let decoded : Option ProtoPrimaryKeyValue := match part.type with
    | .integer => (Json.unmarshalInt64 part.value).map fun v => .integerValue (Int64.ofInt v)
    | .boolean => (Json.unmarshalBool part.value).map .booleanValue
    | _ => (Json.unmarshalString part.value).map .stringValue
  decoded.getD (.stringValue (stringOfBytes part.value))

def toProtoPrimaryKey (parts : PrimaryKey) : List ProtoPrimaryKeyPart :=
  parts.map fun part => ⟨part.column, some (assignProtoPrimaryKeyValue part)⟩

def inferPrimaryKeyType (part : ProtoPrimaryKeyPart) : PrimaryKeyType :=
  match part.value with
  | some (.integerValue _) => .integer
  | some (.booleanValue _) => .boolean
  | some (.stringValue _) => .string
  | none => .unspecified

def fromProtoPrimaryKeyValue (part : ProtoPrimaryKeyPart) : Except String Bytes :=
  match part.value with
  | some (.integerValue v) => .ok (Json.formatInt v.toInt)
  | some (.booleanValue b) => .ok (Json.formatBool b)
  | some (.stringValue s) => .ok (Json.quote s)
  | none => .error ("primary key part " ++ quoted part.column ++ " missing typed value")

def fromProtoPrimaryKey (parts : List ProtoPrimaryKeyPart) : Except String PrimaryKey :=
  parts.mapM fun part => do
    let value ← fromProtoPrimaryKeyValue part
    return ⟨part.column, inferPrimaryKeyType part, value⟩

inductive ProtoOperation where
  | unspecified
  | insert
  | update
  | delete
  deriving DecidableEq

def toProtoOperation : ReplicationOperation → ProtoOperation
  | .insert => .insert
  | .update => .update
  | .delete => .delete
  | _ => .unspecified

def fromProtoOperation : ProtoOperation → ReplicationOperation
  | .insert => .insert
  | .update => .update
  | .delete => .delete
  | .unspecified => .upsert

structure ProtoEvent where
  eventId : String
  originRegion : String
  table : String
  primaryKey : List ProtoPrimaryKeyPart
  fields : Fields
  version : Int
  operation : ProtoOperation

def toProtoEvents (events : List ReplicationEvent) : List ProtoEvent :=
  events.map fun event =>
    { eventId := event.eventID
      originRegion := event.peerRegion
      table := event.table
      primaryKey := toProtoPrimaryKey event.primaryKey
      fields := event.fields
      version := event.version
      operation := toProtoOperation event.operation }

def toReplicationEvent (event : ProtoEvent) : Except String ReplicationEvent :=
  match fromProtoPrimaryKey event.primaryKey with
  | .error err => .error ("decode event primary key for " ++ event.table ++ " event " ++
      quoted event.eventId ++ ": " ++ err)
  | .ok primaryKey => .ok
    { peerRegion := event.originRegion
      table := event.table
      eventID := event.eventId
      primaryKey
      operation := fromProtoOperation event.operation
      version := event.version
      fields := event.fields }

def toReplicationEvents (events : List ProtoEvent) : Except String (List ReplicationEvent) :=
  events.mapM toReplicationEvent

/-- A key the receiver decoded from the wire. -/
def WireKey (key : PrimaryKey) : Prop := ∃ parts, fromProtoPrimaryKey parts = .ok key

/-- The value is written as the codec writes it. -/
def PrimaryKeyPart.Canonical (part : PrimaryKeyPart) : Prop :=
  match part.type with
  | .integer => part.value = Json.formatInt part.rank.number
  | .boolean => part.value = Json.formatBool (part.rank.number = 1)
  | _ => True

theorem decodedPart_spec {part : ProtoPrimaryKeyPart} {value : Bytes}
    (ok : fromProtoPrimaryKeyValue part = .ok value) :
    PrimaryKeyPart.Typed ⟨part.column, inferPrimaryKeyType part, value⟩ ∧
      PrimaryKeyPart.Canonical ⟨part.column, inferPrimaryKeyType part, value⟩ := by
  obtain ⟨column, assigned⟩ := part
  simp only [PrimaryKeyPart.Typed, PrimaryKeyPart.Canonical, PrimaryKeyPart.rank]
  cases assigned with
  | none => cases ok
  | some assigned =>
    cases assigned with
    | integerValue v =>
      cases ok
      have read := Json.unmarshalInt64_formatInt (Int64.le_toInt v)
        (Int.le_sub_one_of_lt (Int64.toInt_lt v))
      simp [inferPrimaryKeyType, read]
    | booleanValue b =>
      cases ok
      cases b <;> simp [inferPrimaryKeyType, Json.unmarshalBool_formatBool]
    | stringValue s => simp [inferPrimaryKeyType]

/-- What holds of every decoded part holds of the parts of a decoded key. -/
theorem WireKey.forall_part {key : PrimaryKey} {p : PrimaryKeyPart → Prop} (wire : WireKey key)
    (decoded : ∀ (part : ProtoPrimaryKeyPart) (value : Bytes),
      fromProtoPrimaryKeyValue part = .ok value → p ⟨part.column, inferPrimaryKeyType part, value⟩) :
    ∀ part ∈ key, p part := by
  obtain ⟨parts, ok⟩ := wire
  intro part mem
  obtain ⟨proto, _, made⟩ := Fallible.mem_of_mapM ok mem
  obtain ⟨value, decodedValue, eq⟩ := Fallible.bind_eq_ok.mp made
  cases eq
  exact decoded proto value decodedValue

theorem WireKey.typed {key : PrimaryKey} (wire : WireKey key) : TypedKey key :=
  wire.forall_part fun _ _ decoded => (decodedPart_spec decoded).1

theorem compareRank_eq {a b : PartRank} (same : compareRank a b = .eq) : a = b := by
  obtain ⟨column, type, number, bytes⟩ := a
  obtain ⟨column', type', number', bytes'⟩ := b
  simp only [compareRank, compareLex, compareOn, Ordering.then_eq_eq,
    Std.LawfulEqCmp.compare_eq_iff_eq] at same
  simp [same]

instance : Std.LawfulEqOrd PartRank where
  eq_of_compare := compareRank_eq

theorem PrimaryKeyPart.eq_of_rank {left right : PrimaryKeyPart} (l : left.Canonical)
    (r : right.Canonical) (same : left.rank = right.rank) : left = right := by
  obtain ⟨column, type, value⟩ := left
  obtain ⟨column', type', value'⟩ := right
  obtain rfl : column = column' := congrArg PartRank.column same
  obtain rfl : type = type' := PrimaryKeyType.name_injective (congrArg PartRank.type same)
  have numbers := congrArg PartRank.number same
  cases type with
  | integer | boolean =>
    simp only [Canonical] at l r
    rw [l, r, numbers]
  | unspecified | string =>
    have bytes : value = value' := congrArg PartRank.bytes same
    rw [bytes]

theorem eq_of_map_rank {left right : PrimaryKey} (l : ∀ part ∈ left, part.Canonical)
    (r : ∀ part ∈ right, part.Canonical) (same : left.map (·.rank) = right.map (·.rank)) :
    left = right := by
  induction left generalizing right with
  | nil => exact (List.map_eq_nil_iff.mp same.symm).symm
  | cons part left ih =>
    cases right with
    | nil => cases same
    | cons other right =>
      obtain ⟨head, tail⟩ := List.cons.inj same
      obtain ⟨lHead, lTail⟩ := List.forall_mem_cons.mp l
      obtain ⟨rHead, rTail⟩ := List.forall_mem_cons.mp r
      rw [PrimaryKeyPart.eq_of_rank lHead rHead head, ih lTail rTail tail]

theorem WireKey.eq_of_compare {left right : PrimaryKey} (l : WireKey left) (r : WireKey right)
    (same : comparePrimaryKeys left right = .eq) : left = right := by
  rw [comparePrimaryKeys_eq_rank l.typed r.typed] at same
  exact eq_of_map_rank (l.forall_part fun _ _ decoded => (decodedPart_spec decoded).2)
    (r.forall_part fun _ _ decoded => (decodedPart_spec decoded).2) (Std.LawfulEqCmp.eq_of_compare same)

/-- What a key becomes on the receiving side. -/
def throughWire (key : PrimaryKey) : PrimaryKey :=
  key.map fun part => match assignProtoPrimaryKeyValue part with
    | .integerValue v => ⟨part.column, .integer, Json.formatInt v.toInt⟩
    | .booleanValue b => ⟨part.column, .boolean, Json.formatBool b⟩
    | .stringValue s => ⟨part.column, .string, Json.quote s⟩

/-- Keys the sender encoded always decode. -/
theorem fromProtoPrimaryKey_toProto (key : PrimaryKey) :
    fromProtoPrimaryKey (toProtoPrimaryKey key) = .ok (throughWire key) := by
  refine Fallible.mapM_eq_ok.mpr ?_
  induction key with
  | nil => exact .nil
  | cons part key ih =>
    refine .cons ?_ ih
    simp only [fromProtoPrimaryKeyValue, inferPrimaryKeyType]
    cases assignProtoPrimaryKeyValue part <;> rfl

theorem throughWire_wireKey (key : PrimaryKey) : WireKey (throughWire key) :=
  ⟨toProtoPrimaryKey key, fromProtoPrimaryKey_toProto key⟩

/-- What an event becomes on the receiving side. -/
def ReplicationEvent.received (event : ReplicationEvent) : ReplicationEvent :=
  { event with
    primaryKey := throughWire event.primaryKey
    operation := fromProtoOperation (toProtoOperation event.operation) }

theorem toReplicationEvents_toProto (events : List ReplicationEvent) :
    toReplicationEvents (toProtoEvents events) = .ok (events.map (·.received)) := by
  refine Fallible.mapM_eq_ok.mpr ?_
  induction events with
  | nil => exact .nil
  | cons event events ih =>
    refine .cons ?_ ih
    simp only [toReplicationEvent, fromProtoPrimaryKey_toProto]
    rfl

/-- Batches the sender encoded always decode. -/
theorem decodeBatches_eq (batches : List (List ReplicationEvent)) :
    batches.mapM (fun batch => toReplicationEvents (toProtoEvents batch)) =
      .ok (batches.map (·.map (·.received))) := by
  refine Fallible.mapM_eq_ok.mpr ?_
  rw [List.forall₂_map_right_iff, List.forall₂_same]
  exact fun batch _ => toReplicationEvents_toProto batch

end Transmogr
