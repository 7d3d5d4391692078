import Transmogr.Apply
import Transmogr.Changefeed

/-! The formats an event passes on its way to a peer: JSON in the outbox
(`models/replication.go`), then protobuf (`protocol/messages.go`); and the protobuf form
of snapshot rows. -/
namespace Transmogr

namespace Json

/-- What is assumed of encoding/json and of JSONB columns: a raw text has a JSON value or
is no JSON, reading it as a Go string or bool gives that value, and writing it anew, by
`json.Marshal` of a raw message or by storing it, keeps the value. Integer literals stay
integer literals. -/
structure Values (J : Type) where
  value : Bytes → Option J
  ofString : String → J
  ofInt : Int → J
  ofBool : Bool → J
  compact : Bytes → Bytes
  store : Bytes → Bytes
  value_quote : ∀ s, value (quote s) = some (ofString s)
  value_formatInt : ∀ n, value (formatInt n) = some (ofInt n)
  value_formatBool : ∀ b, value (formatBool b) = some (ofBool b)
  read_string : ∀ {raw s}, value raw = some (ofString s) → unmarshalString raw = some s
  read_bool : ∀ {raw b}, value raw = some (ofBool b) → unmarshalBool raw = some b
  value_compact : ∀ {raw v}, value raw = some v → value (compact raw) = some v
  value_store : ∀ {raw v}, value raw = some v → value (store raw) = some v
  int_compact : ∀ {raw n}, value raw = some (ofInt n) → unmarshalInt64 raw = some n →
    unmarshalInt64 (compact raw) = some n
  int_store : ∀ {raw n}, value raw = some (ofInt n) → unmarshalInt64 raw = some n →
    unmarshalInt64 (store raw) = some n

variable {J : Type} (json : Values J)

/-- The text is JSON. -/
def Values.Valid (raw : Bytes) : Prop := (json.value raw).isSome

/-- Every value of a map is JSON. -/
def Values.ValidMap (fields : Fields) : Prop :=
  ∀ (name : String) raw, fields[name]? = some raw → json.Valid raw

/-- Two maps with equal JSON values under equal names. -/
def Values.SameMap (fields others : Fields) : Prop :=
  ∀ name : String, (others[name]?).map json.value = (fields[name]?).map json.value

theorem Values.SameMap.refl (fields : Fields) : json.SameMap fields fields := fun _ => rfl

theorem Values.SameMap.trans {json : Values J} {a b c : Fields} (first : json.SameMap a b)
    (second : json.SameMap b c) : json.SameMap a c :=
  fun name => (second name).trans (first name)

/-- Each value is replaced by a text of the same value. -/
theorem Values.sameMap_map {json : Values J} {fields : Fields} {f : Bytes → Bytes}
    (keeps : ∀ {raw v}, json.value raw = some v → json.value (f raw) = some v)
    (valid : json.ValidMap fields) : json.SameMap fields (fields.map fun _ raw => f raw) := by
  intro name
  rw [Std.ExtTreeMap.getElem?_map]
  cases present : fields[name]? with
  | none => rfl
  | some raw =>
    obtain ⟨v, has⟩ := Option.isSome_iff_exists.mp (valid name raw present)
    simp [has, keeps has]

theorem Values.ValidMap.of_same {json : Values J} {fields others : Fields}
    (valid : json.ValidMap fields) (same : json.SameMap fields others) : json.ValidMap others := by
  intro name raw present
  have equal := same name
  rw [present] at equal
  cases original : fields[name]? with
  | none => simp [original] at equal
  | some old =>
    rw [original] at equal
    rw [Values.Valid, Option.some.inj equal]
    exact valid name old original

end Json

open Json Sql

structure MetaEvent extends ReplicationEvent where
  metadata : Fields

structure MetaSnapshotRow extends SnapshotRow where
  metadata : Fields

/-- `replicationEventJSON`, as the outbox column holds it; empty metadata is omitted. -/
structure ReplicationEventJSON where
  peerRegion : String
  table : String
  eventID : String
  primaryKey : PrimaryKey
  operation : ReplicationOperation
  version : Int
  fields : Fields
  metadata : Option Fields

section Json

variable {J : Type} (json : Values J)

/-- All raw values of an event. -/
def MetaEvent.raws (event : MetaEvent) : List Bytes :=
  event.primaryKey.map (·.value) ++ event.fields.toList.map (·.2) ++ event.metadata.toList.map (·.2)

/-- `MarshalJSON` and the JSONB column: raw values are compacted and then normalised. -/
def marshalJSON (event : MetaEvent) : Except String ReplicationEventJSON :=
  if event.raws.all fun raw => (json.value raw).isSome then
    let encode (raw : Bytes) : Bytes := json.store (json.compact raw)
    let metadata := event.metadata.map fun _ raw => encode raw
    .ok { peerRegion := event.peerRegion
          table := event.table
          eventID := event.eventID
          primaryKey := event.primaryKey.map fun part => { part with value := encode part.value }
          operation := event.operation
          version := event.version
          fields := event.fields.map fun _ raw => encode raw
          metadata := if event.metadata.isEmpty then none else some metadata }
  else .error "json: error calling MarshalJSON for type json.RawMessage"

def unmarshalJSON (stored : ReplicationEventJSON) : MetaEvent :=
  { peerRegion := stored.peerRegion
    table := stored.table
    eventID := stored.eventID
    primaryKey := stored.primaryKey
    operation := stored.operation
    version := stored.version
    fields := stored.fields
    metadata := stored.metadata.getD ∅ }

/-- `FieldsToPayload` -/
def marshalPayload (fields : Fields) : Except String (Option Object) :=
  if fields.isEmpty then .ok none
  else if fields.toList.all fun entry => (json.value entry.2).isSome then
    .ok (some (fields.map fun _ raw => json.compact raw))
  else .error "json: error calling MarshalJSON for type json.RawMessage"

end Json

structure MetaProtoEvent extends ProtoEvent where
  metadata : Fields

def toProtoMetaEvents (events : List MetaEvent) : List MetaProtoEvent :=
  events.map fun event =>
    { eventId := event.eventID
      originRegion := event.peerRegion
      table := event.table
      primaryKey := toProtoPrimaryKey event.primaryKey
      fields := event.fields
      version := event.version
      operation := toProtoOperation event.operation
      metadata := event.metadata }

def toReplicationMetaEvents (events : List MetaProtoEvent) : Except String (List MetaEvent) :=
  events.mapM fun event => do
    let decoded ← toReplicationEvent event.toProtoEvent
    return { toReplicationEvent := decoded, metadata := event.metadata }

structure ProtoSnapshotRow where
  primaryKey : List ProtoPrimaryKeyPart
  fields : Fields
  metadata : Fields

def toProtoSnapshotRows (rows : List MetaSnapshotRow) : List ProtoSnapshotRow :=
  rows.map fun row =>
    ⟨toProtoPrimaryKey row.primaryKey, payloadToFields row.payload, row.metadata⟩

/-- An error of `FieldsToPayload` is ignored and leaves no payload. -/
def toSnapshotRow {J : Type} (json : Values J) (row : ProtoSnapshotRow) (index : Nat) :
    Except String MetaSnapshotRow :=
  match fromProtoPrimaryKey row.primaryKey with
  | .error err => .error ("decode snapshot row primary key at index " ++ toString index ++ ": " ++ err)
  | .ok primaryKey => .ok
    { primaryKey
      payload := (marshalPayload json row.fields).toOption.join
      version := 0
      metadata := row.metadata }

def toSnapshotRows {J : Type} (json : Values J) (rows : List ProtoSnapshotRow) :
    Except String (List MetaSnapshotRow) :=
  rows.zipIdx.mapM fun entry => toSnapshotRow json entry.1 entry.2

/-! ## Round trips -/

section Lossless

variable {J : Type} (json : Values J)

/-- The value of a key part is JSON of the part's type. -/
def PrimaryKeyPart.OfType (part : PrimaryKeyPart) : Prop :=
  match part.type with
  | .integer => ∃ n, json.value part.value = some (json.ofInt n) ∧
      Json.unmarshalInt64 part.value = some n
  | .boolean => ∃ b, json.value part.value = some (json.ofBool b)
  | .string => ∃ s, json.value part.value = some (json.ofString s)
  | .unspecified => False

def PrimaryKeyPart.Same (part other : PrimaryKeyPart) : Prop :=
  other.column = part.column ∧ other.type = part.type ∧ json.value other.value = json.value part.value

structure MetaEvent.Encodable (event : MetaEvent) : Prop where
  operation : event.operation ≠ .unset
  primaryKey : ∀ part ∈ event.primaryKey, part.OfType json
  fields : json.ValidMap event.fields
  metadata : json.ValidMap event.metadata

/-- Equal up to the text of raw values. -/
structure MetaEvent.Same (event other : MetaEvent) : Prop where
  peerRegion : other.peerRegion = event.peerRegion
  table : other.table = event.table
  eventID : other.eventID = event.eventID
  operation : other.operation = event.operation
  version : other.version = event.version
  primaryKey : List.Forall₂ (PrimaryKeyPart.Same json) event.primaryKey other.primaryKey
  fields : json.SameMap event.fields other.fields
  metadata : json.SameMap event.metadata other.metadata

structure MetaSnapshotRow.Encodable (row : MetaSnapshotRow) : Prop where
  primaryKey : ∀ part ∈ row.primaryKey, part.OfType json
  payload : json.ValidMap (payloadToFields row.payload)
  metadata : json.ValidMap row.metadata

structure MetaSnapshotRow.Same (row other : MetaSnapshotRow) : Prop where
  primaryKey : List.Forall₂ (PrimaryKeyPart.Same json) row.primaryKey other.primaryKey
  payload : json.SameMap (payloadToFields row.payload) (payloadToFields other.payload)
  metadata : json.SameMap row.metadata other.metadata

variable {json}

theorem PrimaryKeyPart.OfType.valid {part : PrimaryKeyPart} (typed : part.OfType json) :
    json.Valid part.value := by
  unfold PrimaryKeyPart.OfType at typed
  split at typed
  · obtain ⟨n, has, -⟩ := typed
    simp [Values.Valid, has]
  · obtain ⟨b, has⟩ := typed
    simp [Values.Valid, has]
  · obtain ⟨s, has⟩ := typed
    simp [Values.Valid, has]
  · exact typed.elim

theorem PrimaryKeyPart.Same.trans {a b c : PrimaryKeyPart} (first : a.Same json b)
    (second : b.Same json c) : a.Same json c :=
  ⟨second.1.trans first.1, second.2.1.trans first.2.1, second.2.2.trans first.2.2⟩

/-- Storing a part keeps its value and its type. -/
theorem PrimaryKeyPart.OfType.stored {part : PrimaryKeyPart} (typed : part.OfType json) :
    let stored : PrimaryKeyPart := { part with value := json.store (json.compact part.value) }
    stored.OfType json ∧ part.Same json stored := by
  have keeps {v : J} (has : json.value part.value = some v) :
      json.value (json.store (json.compact part.value)) = some v :=
    json.value_store (json.value_compact has)
  obtain ⟨v, has⟩ := Option.isSome_iff_exists.mp typed.valid
  refine ⟨?_, rfl, rfl, (keeps has).trans has.symm⟩
  unfold PrimaryKeyPart.OfType at typed ⊢
  cases kind : part.type with
  | integer =>
    simp only [kind] at typed ⊢
    obtain ⟨n, has, reads⟩ := typed
    exact ⟨n, keeps has, json.int_store (json.value_compact has) (json.int_compact has reads)⟩
  | boolean =>
    simp only [kind] at typed ⊢
    obtain ⟨b, has⟩ := typed
    exact ⟨b, keeps has⟩
  | string =>
    simp only [kind] at typed ⊢
    obtain ⟨s, has⟩ := typed
    exact ⟨s, keeps has⟩
  | unspecified => simp only [kind] at typed

theorem int64_of_unmarshal {raw : Bytes} {n : Int} (reads : Json.unmarshalInt64 raw = some n) :
    (Int64.ofInt n).toInt = n := by
  simp only [Json.unmarshalInt64] at reads
  split at reads
  · cases reads
    rfl
  · obtain ⟨m, -, bounded⟩ := Option.bind_eq_some_iff.mp reads
    split at bounded
    · next range =>
      cases bounded
      simp only [Json.minInt64, Json.maxInt64] at range
      exact Int64.toInt_ofInt_of_le range.1 (by omega)
    · cases bounded

/-- A part of a known type comes back from the wire with its type and value. -/
theorem throughWire_same {key : PrimaryKey} (typed : ∀ part ∈ key, part.OfType json) :
    List.Forall₂ (PrimaryKeyPart.Same json) key (throughWire key) := by
  rw [throughWire, List.forall₂_map_right_iff, List.forall₂_same]
  intro part mem
  have ofType := typed part mem
  unfold PrimaryKeyPart.OfType at ofType
  unfold assignProtoPrimaryKeyValue
  cases kind : part.type with
  | integer =>
    simp only [kind] at ofType ⊢
    obtain ⟨n, has, reads⟩ := ofType
    simp only [reads, Option.map_some, Option.getD_some]
    exact ⟨rfl, kind.symm, by rw [int64_of_unmarshal reads, json.value_formatInt, has]⟩
  | boolean =>
    simp only [kind] at ofType ⊢
    obtain ⟨b, has⟩ := ofType
    simp only [json.read_bool has, Option.map_some, Option.getD_some]
    exact ⟨rfl, kind.symm, by rw [json.value_formatBool, has]⟩
  | string =>
    simp only [kind] at ofType ⊢
    obtain ⟨s, has⟩ := ofType
    simp only [json.read_string has, Option.map_some, Option.getD_some]
    exact ⟨rfl, kind.symm, by rw [json.value_quote, has]⟩
  | unspecified => simp only [kind] at ofType

theorem Json.Values.ValidMap.all {fields : Fields} (valid : json.ValidMap fields) :
    (fields.toList.all fun entry => (json.value entry.2).isSome) = true := by
  refine List.all_eq_true.mpr fun entry mem => ?_
  exact valid entry.1 entry.2 (Std.ExtTreeMap.mem_toList_iff_getElem?_eq_some.mp mem)

theorem Json.Values.validMap_of_all {fields : Fields}
    (all : (fields.toList.all fun entry => (json.value entry.2).isSome) = true) :
    json.ValidMap fields := fun name raw present =>
  List.all_eq_true.mp all (name, raw) (Std.ExtTreeMap.mem_toList_iff_getElem?_eq_some.mpr present)

/-- The outbox keeps an event up to the text of its raw values. -/
theorem outbox_keeps {event : MetaEvent} (encodable : event.Encodable json) :
    ∃ stored, marshalJSON json event = .ok stored ∧
      (unmarshalJSON stored).Encodable json ∧ event.Same json (unmarshalJSON stored) := by
  have keys : (event.primaryKey.all fun part => (json.value part.value).isSome) = true :=
    List.all_eq_true.mpr fun part mem => (encodable.primaryKey part mem).valid
  have all : (event.raws.all fun raw => (json.value raw).isSome) = true := by
    simp only [MetaEvent.raws, List.all_append, List.all_map, Bool.and_eq_true]
    exact ⟨⟨keys, encodable.fields.all⟩, encodable.metadata.all⟩
  have keeps {raw : Bytes} {v : J} (has : json.value raw = some v) :
      json.value (json.store (json.compact raw)) = some v := json.value_store (json.value_compact has)
  have fields := Json.Values.sameMap_map keeps encodable.fields
  have metadata : json.SameMap event.metadata ((if event.metadata.isEmpty then none else
      some (event.metadata.map fun _ raw => json.store (json.compact raw))).getD ∅) := by
    split
    · next empty => rw [Std.ExtTreeMap.isEmpty_iff.mp empty]; exact .refl json _
    · exact Json.Values.sameMap_map keeps encodable.metadata
  rw [marshalJSON, if_pos all]
  refine ⟨_, rfl, ⟨encodable.operation, ?_, ?_, ?_⟩, ⟨rfl, rfl, rfl, rfl, rfl, ?_, fields, metadata⟩⟩
  · intro part mem
    obtain ⟨original, inside, rfl⟩ := List.mem_map.mp mem
    exact (encodable.primaryKey original inside).stored.1
  · exact encodable.fields.of_same fields
  · exact encodable.metadata.of_same metadata
  · simp only [unmarshalJSON, List.forall₂_map_right_iff, List.forall₂_same]
    exact fun part mem => (encodable.primaryKey part mem).stored.2

/-- What an event with metadata becomes on the receiving side. -/
def MetaEvent.received (event : MetaEvent) : MetaEvent :=
  { toReplicationEvent := event.toReplicationEvent.received, metadata := event.metadata }

theorem toReplicationMetaEvents_toProto (events : List MetaEvent) :
    toReplicationMetaEvents (toProtoMetaEvents events) = .ok (events.map (·.received)) := by
  refine Fallible.mapM_eq_ok.mpr ?_
  rw [toProtoMetaEvents, List.forall₂_map_left_iff, List.forall₂_map_right_iff, List.forall₂_same]
  intro event _
  simp only [toReplicationEvent, fromProtoPrimaryKey_toProto]
  rfl

theorem received_same {event : MetaEvent} (encodable : event.Encodable json) :
    event.Same json event.received where
  peerRegion := rfl
  table := rfl
  eventID := rfl
  operation := by
    -- the wire has no upsert, and reads what it has no member for as one
    have set := encodable.operation
    simp only [MetaEvent.received, ReplicationEvent.received]
    cases operation : event.operation <;> simp_all [toProtoOperation, fromProtoOperation]
  version := rfl
  primaryKey := throughWire_same encodable.primaryKey
  fields := .refl json _
  metadata := .refl json _

theorem sameKey_trans {a b c : PrimaryKey} (first : List.Forall₂ (PrimaryKeyPart.Same json) a b)
    (second : List.Forall₂ (PrimaryKeyPart.Same json) b c) :
    List.Forall₂ (PrimaryKeyPart.Same json) a c := by
  induction first generalizing c with
  | nil => exact second
  | cons head _ ih =>
    obtain ⟨part, rest, next, others, rfl⟩ := List.forall₂_cons_left_iff.mp second
    exact .cons (head.trans next) (ih others)

theorem MetaEvent.Same.trans {a b c : MetaEvent} (first : a.Same json b) (second : b.Same json c) :
    a.Same json c where
  peerRegion := second.peerRegion.trans first.peerRegion
  table := second.table.trans first.table
  eventID := second.eventID.trans first.eventID
  operation := second.operation.trans first.operation
  version := second.version.trans first.version
  primaryKey := sameKey_trans first.primaryKey second.primaryKey
  fields := first.fields.trans second.fields
  metadata := first.metadata.trans second.metadata

theorem marshalPayload_eq_ok {fields : Fields} {payload : Option Object}
    (made : marshalPayload json fields = .ok payload) :
    json.SameMap fields (payloadToFields payload) := by
  unfold marshalPayload at made
  split at made
  · next empty =>
    cases made
    rw [Std.ExtTreeMap.isEmpty_iff.mp empty]
    exact .refl json _
  · split at made
    · next valid =>
      cases made
      exact Json.Values.sameMap_map json.value_compact (Json.Values.validMap_of_all valid)
    · cases made

theorem marshalPayload_same {fields : Fields} (valid : json.ValidMap fields) :
    ∃ payload, marshalPayload json fields = .ok payload ∧
      json.SameMap fields (payloadToFields payload) := by
  have made : ∃ payload, marshalPayload json fields = .ok payload := by
    unfold marshalPayload
    split
    · exact ⟨none, rfl⟩
    · exact ⟨_, if_pos valid.all⟩
  exact made.imp fun _ made => ⟨made, marshalPayload_eq_ok made⟩

/-- What a snapshot row becomes on the receiving side. -/
def MetaSnapshotRow.received (json : Values J) (row : MetaSnapshotRow) : MetaSnapshotRow where
  primaryKey := throughWire row.primaryKey
  payload := (marshalPayload json (payloadToFields row.payload)).toOption.join
  version := 0
  metadata := row.metadata

theorem toSnapshotRows_toProto (rows : List MetaSnapshotRow) :
    toSnapshotRows json (toProtoSnapshotRows rows) = .ok (rows.map (·.received json)) := by
  refine Fallible.mapM_eq_ok.mpr ?_
  rw [toProtoSnapshotRows, List.zipIdx_map, List.forall₂_map_left_iff]
  nth_rewrite 2 [← List.zipIdx_map_fst 0 rows]
  rw [List.map_map, List.forall₂_map_right_iff, List.forall₂_same]
  intro entry _
  simp only [toSnapshotRow, Prod.map, fromProtoPrimaryKey_toProto]
  rfl

theorem receivedRow_same {row : MetaSnapshotRow} (encodable : row.Encodable json) :
    row.Same json (row.received json) := by
  obtain ⟨payload, made, same⟩ := marshalPayload_same encodable.payload
  refine ⟨throughWire_same encodable.primaryKey, ?_, .refl json _⟩
  simp only [MetaSnapshotRow.received, made]
  exact same

end Lossless

/-- Events survive the outbox and the wire, and snapshot rows the wire: the same list in
the same order, with equal JSON values. -/
theorem codecs_lossless {J : Type} (json : Values J) {events : List MetaEvent}
    {rows : List MetaSnapshotRow} (eventsEncodable : ∀ event ∈ events, event.Encodable json)
    (rowsEncodable : ∀ row ∈ rows, row.Encodable json) :
    (∃ stored decoded, events.mapM (marshalJSON json) = .ok stored ∧
      toReplicationMetaEvents (toProtoMetaEvents (stored.map unmarshalJSON)) = .ok decoded ∧
      List.Forall₂ (MetaEvent.Same json) events decoded) ∧
    ∃ decoded, toSnapshotRows json (toProtoSnapshotRows rows) = .ok decoded ∧
      List.Forall₂ (MetaSnapshotRow.Same json) rows decoded := by
  constructor
  · obtain ⟨stored, made, kept⟩ := Fallible.mapM_forall₂ fun event mem =>
      outbox_keeps (eventsEncodable event mem)
    refine ⟨stored, _, made, toReplicationMetaEvents_toProto _, ?_⟩
    rw [List.map_map, List.forall₂_map_right_iff]
    exact kept.imp fun event stored both => both.2.trans (received_same both.1)
  · refine ⟨_, toSnapshotRows_toProto rows, ?_⟩
    rw [List.forall₂_map_right_iff, List.forall₂_same]
    exact fun row mem => receivedRow_same (rowsEncodable row mem)

/-! Scalars by their value, other texts by themselves, for concrete runs. -/

inductive Scalar
  | string (s : String)
  | int (n : Int)
  | bool (b : Bool)
  | other (text : Bytes)
  deriving DecidableEq

def scalarValue (raw : Bytes) : Option Scalar :=
  let text := Json.trimSpace raw
  match text with
  | [] => none
  | 0x22 :: _ => (Json.unmarshalString raw).map .string
  | _ =>
    match Json.readInt text with
    | some n => some (.int n)
    | none =>
      if text = Json.trueText then some (.bool true)
      else if text = Json.falseText then some (.bool false)
      else some (.other text)

theorem scalarValue_string (rest : Bytes) :
    scalarValue (0x22 :: rest) = (Json.unmarshalString (0x22 :: rest)).map .string := by
  obtain ⟨tail, trimmed⟩ := Json.trimSpace_string rest
  simp only [scalarValue, trimmed]

theorem scalarValue_formatInt (n : Int) : scalarValue (Json.formatInt n) = some (.int n) := by
  simp only [scalarValue, Json.formatInt_trim, Json.readInt_formatInt]
  split
  · next empty =>
    have reads := Json.readInt_formatInt n
    rw [empty] at reads
    cases reads
  · next rest quoted =>
    have bytes := Json.formatInt_bytes n 0x22 (by rw [quoted]; exact List.mem_cons_self)
    exact absurd bytes (by decide)
  · rfl

theorem scalarValue_eq_string {raw : Bytes} {s : String} (has : scalarValue raw = some (.string s)) :
    Json.unmarshalString raw = some s := by
  simp only [scalarValue] at has
  split at has
  · cases has
  · obtain ⟨t, reads, same⟩ := Option.map_eq_some_iff.mp has
    cases same
    exact reads
  · split at has
    · cases has
    · split_ifs at has <;> cases has

theorem scalarValue_eq_bool {raw : Bytes} {b : Bool} (has : scalarValue raw = some (.bool b)) :
    Json.unmarshalBool raw = some b := by
  simp only [scalarValue] at has
  split at has
  · cases has
  · obtain ⟨t, reads, same⟩ := Option.map_eq_some_iff.mp has
    cases same
  · split at has
    · cases has
    · split_ifs at has with yes no
      · cases has
        simp only [Json.unmarshalBool, yes]
        rfl
      · cases has
        simp only [Json.unmarshalBool, no]
        rfl
      · cases has

theorem scalarValue_jsonb (raw : Bytes) : scalarValue (Json.jsonb raw) = scalarValue raw := by
  unfold Json.jsonb
  split
  · next rest =>
    split
    · next s reads =>
      rw [scalarValue_string, reads, Json.jsonbString, Json.encodeString, List.cons_append,
        scalarValue_string]
      exact congrArg (Option.map Scalar.string) (Json.unmarshalString_jsonbString s)
    · rfl
  · rfl

def scalarValues : Values Scalar where
  value := scalarValue
  ofString := .string
  ofInt := .int
  ofBool := .bool
  compact := id
  store := Json.jsonb
  value_quote s := by
    rw [Json.quote, Json.encodeString, List.cons_append, scalarValue_string]
    exact congrArg (Option.map Scalar.string) (Json.unmarshalString_quote s)
  value_formatInt := scalarValue_formatInt
  value_formatBool b := by cases b <;> rfl
  read_string := scalarValue_eq_string
  read_bool := scalarValue_eq_bool
  value_compact := id
  value_store has := by rw [scalarValue_jsonb, has]
  int_compact _ reads := reads
  int_store has reads := by
    rw [Json.jsonb_of_not_string, reads]
    rintro rest rfl
    rw [Json.unmarshalInt64_string] at reads
    cases reads

/-- An upsert with a composite key and metadata, and a delete. -/
def carriedEvents : List MetaEvent :=
  [{ toReplicationEvent := { userEvent "us" "7" 3 "ann" with
       primaryKey := [⟨"id", .string, Json.quote "7"⟩, ⟨"n", .integer, Json.formatInt (-4)⟩] }
     metadata := .ofList [("transit.crypto.ssn", Json.quote "12")] },
   { toReplicationEvent := { userEvent "us" "8" 4 "bob" with operation := .delete, fields := ∅ }
     metadata := ∅ }]

def carriedRow : MetaSnapshotRow where
  primaryKey := userKey "7"
  payload := some (userEvent "us" "7" 3 "ann").fields
  version := 0
  metadata := .ofList [("transit.crypto.ssn", Json.quote "12")]

theorem codecs_lossless_users :
    (∃ stored decoded, carriedEvents.mapM (marshalJSON scalarValues) = .ok stored ∧
      toReplicationMetaEvents (toProtoMetaEvents (stored.map unmarshalJSON)) = .ok decoded ∧
      List.Forall₂ (MetaEvent.Same scalarValues) carriedEvents decoded) ∧
    ∃ decoded, toSnapshotRows scalarValues (toProtoSnapshotRows [carriedRow]) = .ok decoded ∧
      List.Forall₂ (MetaSnapshotRow.Same scalarValues) [carriedRow] decoded := by
  apply codecs_lossless
  · intro event mem
    simp only [carriedEvents, List.mem_cons, List.not_mem_nil, or_false] at mem
    rcases mem with rfl | rfl
    · refine ⟨by decide, ?_, Values.validMap_of_all (by decide), Values.validMap_of_all (by decide)⟩
      simp only [List.forall_mem_cons]
      exact ⟨⟨"7", scalarValues.value_quote "7"⟩, ⟨-4, scalarValues.value_formatInt (-4), by decide⟩,
        nofun⟩
    · refine ⟨by decide, ?_, Values.validMap_of_all (by decide), Values.validMap_of_all (by decide)⟩
      exact List.forall_mem_singleton.mpr ⟨"8", scalarValues.value_quote "8"⟩
  · refine List.forall_mem_singleton.mpr
      ⟨?_, Values.validMap_of_all (by decide), Values.validMap_of_all (by decide)⟩
    exact List.forall_mem_singleton.mpr ⟨"7", scalarValues.value_quote "7"⟩

end Transmogr
