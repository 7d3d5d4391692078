import Transmogr.Handshake
import Transmogr.Transformers

/-! Encrypted fields between two regions: what the sender decrypts and moves into transit
metadata, the receiver restores and encrypts with its own key. -/
namespace Transmogr

open Json Sql

/-- The text is what `Service.Encrypt` made of a plaintext for the field. -/
def CryptoService.Stored (service : CryptoService) (table name : String) (plaintext raw : Bytes) :
    Prop :=
  ∃ random fields stored, service.encrypt random table fields = .ok stored ∧
    fields[name]? = some plaintext ∧ stored[name]? = some raw

def CryptoService.Encrypts (service : CryptoService) (table name : String) : Prop :=
  (service.policy table)[name]?.isSome

/-- The service has a key that fits for each field it encrypts. -/
def CryptoService.Keyed (service : CryptoService) (table : String) : Prop :=
  ∀ (name : String) cfg, (service.policy table)[name]? = some cfg → service.Usable table cfg

/-- Both sides encrypt the same fields of a table, under names that can travel, with keys that
fit. -/
structure SameFields (sender receiver : CryptoService) (table : String) : Prop where
  same : ∀ name, sender.Encrypts table name ↔ receiver.Encrypts table name
  accepted : ∀ name, sender.Encrypts table name → parseTransitKey (transitKey name) = some name
  keyed : sender.Keyed table
  usable : receiver.Keyed table

/-- Metadata of its own that the inbound pipeline accepts and does not take for a field. -/
def OwnMetadata (classes : CharClasses) (metadata : Fields) : Prop :=
  ∀ (key : String) value, metadata[key]? = some value →
    classes.isValidMetadataKey key = true ∧ parseTransitKey key = none

/-- Encrypted fields have the plaintexts they had and a null is still null, the others have their
JSON values. -/
structure Survives {J : Type} (json : Values J) (sender receiver : CryptoService) (table : String)
    (fields received : Fields) : Prop where
  encrypted : ∀ (name : String) plaintext raw, sender.Encrypts table name →
    fields[name]? = some raw → sender.Stored table name plaintext raw →
      ∃ plain, receiver.decrypt table received = .ok plain ∧ plain[name]? = some plaintext
  null : ∀ name : String, sender.Encrypts table name → fields[name]? = some nullText →
    (received[name]?).map json.value = some (json.value nullText)
  absent : ∀ name : String, sender.Encrypts table name → fields[name]? = none →
    received[name]? = none
  others : ∀ name : String, ¬sender.Encrypts table name →
    (received[name]?).map json.value = (fields[name]?).map json.value

section Fields

variable {sender receiver : CryptoService} {table name : String} {fields metadata : Fields}
  {plaintext raw : Bytes}

/-- Every encrypted field that is there is null or stored encrypted. -/
def StoredFields (sender : CryptoService) (table : String) (fields : Fields) : Prop :=
  ∀ (name : String) raw, sender.Encrypts table name → fields[name]? = some raw →
    raw = nullText ∨ ∃ plaintext, sender.Stored table name plaintext raw

def NoNull (sender : CryptoService) (table : String) (fields : Fields) : Prop :=
  ∀ name : String, sender.Encrypts table name → fields[name]? ≠ some nullText

/-- The service decrypts the text of the field to the plaintext. -/
def CryptoService.Opens (service : CryptoService) (table name : String) (raw plaintext : Bytes) : Prop :=
  ∀ cfg, (service.policy table)[name]? = some cfg →
    service.decryptField table name cfg raw = .ok plaintext

theorem CryptoService.Stored.encryptField (stored : sender.Stored table name plaintext raw)
    {cfg : FieldCryptoConfig} (configured : (sender.policy table)[name]? = some cfg) :
    ∃ random, sender.encryptField random table name cfg plaintext = .ok raw := by
  obtain ⟨random, fields, all, ran, had, has⟩ := stored
  obtain ⟨value, made, replaced⟩ := CryptoService.replaceFields_present ran configured had
  cases replaced.symm.trans has
  exact ⟨random, made⟩

theorem CryptoService.Stored.opens (stored : sender.Stored table name plaintext raw) :
    sender.Opens table name raw plaintext := by
  intro cfg configured
  obtain ⟨random, made⟩ := stored.encryptField configured
  exact CryptoService.decryptField_encryptField made

/-- Null is read as the empty string, and an empty value is passed on. -/
theorem CryptoService.Keyed.opens_null (keyed : sender.Keyed table) :
    sender.Opens table name nullText [] := by
  intro cfg configured
  obtain ⟨key, aead, loaded, -⟩ := keyed name cfg configured
  have reads : Json.unmarshalString nullText = some "" := by decide
  rw [CryptoService.decryptField, reads]
  exact Fallible.bind_eq_ok.mpr ⟨key, loaded, rfl⟩

theorem StoredFields.opens (stored : StoredFields sender table fields) (keyed : sender.Keyed table)
    (encrypts : sender.Encrypts table name) (present : fields[name]? = some raw) :
    ∃ plaintext, sender.Opens table name raw plaintext := by
  rcases stored name raw encrypts present with rfl | ⟨plaintext, was⟩
  · exact ⟨[], keyed.opens_null⟩
  · exact ⟨plaintext, was.opens⟩

theorem not_encrypts : ¬sender.Encrypts table name ↔ (sender.policy table)[name]? = none := by
  rw [CryptoService.Encrypts, Option.not_isSome_iff_eq_none]

theorem mem_encryptedFieldNames :
    name ∈ sender.encryptedFieldNames table ↔ sender.Encrypts table name := by
  rw [CryptoService.encryptedFieldNames, Std.ExtTreeMap.mem_keys, CryptoService.Encrypts,
    Std.ExtTreeMap.mem_iff_isSome_getElem?]

/-- What the sender puts on the wire for one field map. -/
structure OnWire (sender : CryptoService) (table : String) (fields metadata : Fields)
    (sent : Fields × Fields) : Prop where
  removed : ∀ name : String, sender.Encrypts table name → sent.1[name]? = none
  kept : ∀ name : String, ¬sender.Encrypts table name → sent.1[name]? = fields[name]?
  moved : ∀ (name : String) plaintext raw, sender.Encrypts table name → fields[name]? = some raw →
    sender.Opens table name raw plaintext → sent.2[transitKey name]? = some plaintext
  own : ∀ key : String, (∀ name, sender.Encrypts table name → fields[name]?.isSome →
    transitKey name ≠ key) → sent.2[key]? = metadata[key]?

theorem outboundFields_onWire (stored : StoredFields sender table fields)
    (keyed : sender.Keyed table) : ∃ sent, outboundFields sender table fields metadata = .ok sent ∧
      OnWire sender table fields metadata sent := by
  have decrypts : ∃ plain, sender.decrypt table fields = .ok plain := by
    apply CryptoService.exists_replaceFields
    intro name cfg raw configured present
    obtain ⟨plaintext, opens⟩ := stored.opens keyed (by simp [CryptoService.Encrypts, configured]) present
    exact ⟨plaintext, opens cfg configured⟩
  obtain ⟨plain, decrypted⟩ := decrypts
  refine ⟨_, Fallible.bind_eq_ok.mpr ⟨plain, decrypted, rfl⟩, ⟨?_, ?_, ?_, ?_⟩⟩
  · intro name encrypts
    rw [moveToTransit_fields, if_pos (mem_encryptedFieldNames.mpr encrypts)]
  · intro name unencrypted
    rw [moveToTransit_fields, if_neg (mt mem_encryptedFieldNames.mp unencrypted)]
    exact CryptoService.replaceFields_unconfigured decrypted (not_encrypts.mp unencrypted)
  · intro name plaintext raw encrypts present opens
    obtain ⟨cfg, configured⟩ := Option.isSome_iff_exists.mp encrypts
    obtain ⟨value, opened, has⟩ := CryptoService.replaceFields_present decrypted configured present
    cases opened.symm.trans (opens cfg configured)
    exact moveToTransit_metadata Std.ExtTreeMap.nodup_keys (mem_encryptedFieldNames.mpr encrypts) has
  · intro key other
    apply moveToTransit_metadata_other
    intro name mem present
    refine other name (mem_encryptedFieldNames.mp mem) ?_
    by_contra missing
    rw [CryptoService.replaceFields_absent decrypted (Option.not_isSome_iff_eq_none.mp missing)]
      at present
    cases present

/-- A service decrypts what it encrypted, also after the texts were written anew. -/
theorem decrypt_encrypt {J : Type} {json : Values J} {random : String → Random}
    {stored kept : Fields} (ran : receiver.encrypt random table fields = .ok stored)
    (same : json.SameMap stored kept) :
    ∃ plain, receiver.decrypt table kept = .ok plain ∧
      ∀ name, receiver.Encrypts table name → plain[name]? = fields[name]? := by
  -- each encrypted field is a JSON string that opens to the field it was made from
  have opens (name : String) (cfg : FieldCryptoConfig) (raw : Bytes)
      (configured : (receiver.policy table)[name]? = some cfg) (has : kept[name]? = some raw) :
      ∃ value, fields[name]? = some value ∧ receiver.decryptField table name cfg raw = .ok value := by
    have equal := same name
    cases had : fields[name]? with
    | none =>
      rw [CryptoService.replaceFields_absent ran had, has] at equal
      cases equal
    | some value =>
      obtain ⟨text, made, placed⟩ := CryptoService.replaceFields_present ran configured had
      obtain ⟨string, rfl⟩ := CryptoService.encryptField_string made
      rw [placed, has] at equal
      have value_eq : json.value raw = some (json.ofString string) := by
        rw [← json.value_quote]
        exact Option.some.inj equal
      refine ⟨value, rfl, ?_⟩
      rw [← CryptoService.decryptField_encryptField made, CryptoService.decryptField,
        CryptoService.decryptField, json.read_string value_eq, Json.unmarshalString_quote]
  have decrypts : ∃ plain, receiver.decrypt table kept = .ok plain := by
    apply CryptoService.exists_replaceFields
    intro name cfg raw configured has
    obtain ⟨value, -, opened⟩ := opens name cfg raw configured has
    exact ⟨value, opened⟩
  obtain ⟨plain, decrypted⟩ := decrypts
  refine ⟨plain, decrypted, fun name encrypts => ?_⟩
  obtain ⟨cfg, configured⟩ := Option.isSome_iff_exists.mp encrypts
  cases has : kept[name]? with
  | none =>
    rw [CryptoService.replaceFields_absent decrypted has]
    cases had : fields[name]? with
    | none => rfl
    | some value =>
      obtain ⟨text, -, placed⟩ := CryptoService.replaceFields_present ran configured had
      have equal := same name
      rw [placed, has] at equal
      cases equal
  | some raw =>
    obtain ⟨value, had, opened⟩ := opens name cfg raw configured has
    obtain ⟨found, opened', placed⟩ := CryptoService.replaceFields_present decrypted configured has
    cases opened.symm.trans opened'
    rw [placed, had]

theorem encrypt_valid {J : Type} {json : Values J} {random : String → Random} {stored : Fields}
    (ran : receiver.encrypt random table fields = .ok stored)
    (others : ∀ (name : String) raw, ¬receiver.Encrypts table name → stored[name]? = some raw →
      json.Valid raw) : json.ValidMap stored := by
  intro name raw has
  by_cases encrypts : receiver.Encrypts table name
  · obtain ⟨cfg, configured⟩ := Option.isSome_iff_exists.mp encrypts
    cases had : fields[name]? with
    | none =>
      rw [CryptoService.replaceFields_absent ran had] at has
      cases has
    | some value =>
      obtain ⟨text, made, placed⟩ := CryptoService.replaceFields_present ran configured had
      cases has.symm.trans placed
      obtain ⟨string, rfl⟩ := CryptoService.encryptField_string made
      simp [Values.Valid, json.value_quote]
  · exact others name raw encrypts has

/-- What the receiver restores: the plaintexts under the encrypted names, and nothing else. -/
theorem restored_of_onWire {J : Type} {json : Values J} {classes : CharClasses}
    {sent : Fields × Fields} {arrived : Fields}
    (accepted : ∀ name, sender.Encrypts table name → parseTransitKey (transitKey name) = some name)
    (own : OwnMetadata classes metadata) (wire : OnWire sender table fields metadata sent)
    (same : json.SameMap sent.1 arrived) :
    (∀ name plaintext raw, sender.Encrypts table name → fields[name]? = some raw →
      sender.Opens table name raw plaintext →
        (restoreFromTransit arrived sent.2).1[name]? = some plaintext) ∧
    (∀ name, sender.Encrypts table name → fields[name]? = none →
      (restoreFromTransit arrived sent.2).1[name]? = none) ∧
    (∀ name, ¬sender.Encrypts table name →
      (restoreFromTransit arrived sent.2).1[name]? = arrived[name]?) ∧
    ∀ (key : String) value, (restoreFromTransit arrived sent.2).2[key]? = some value →
      metadata[key]? = some value := by
  -- a transit key that no moved field has was not in the metadata either
  have unmoved (name : String) (valid : isValidCryptoTransitField name.toList = true)
      (other : sender.Encrypts table name → fields[name]? = none) :
      sent.2[transitKey name]? = none := by
    rw [wire.own]
    · cases has : metadata[transitKey name]? with
      | none => rfl
      | some value =>
        have parsed := (own _ _ has).2
        rw [parseTransitKey_eq_some.mpr ⟨rfl, valid⟩] at parsed
        cases parsed
    · intro moved encrypts present clash
      have parsed := accepted moved encrypts
      rw [clash, parseTransitKey_eq_some.mpr ⟨rfl, valid⟩] at parsed
      cases parsed
      rw [other encrypts] at present
      cases present
  refine ⟨?_, ?_, ?_, ?_⟩
  · intro name plaintext raw encrypts present opens
    exact restoreFromTransit_restored (parseTransitKey_eq_some.mp (accepted name encrypts)).2
      (wire.moved name plaintext raw encrypts present opens)
  · intro name encrypts absent
    rw [restoreFromTransit_other fun valid => unmoved name valid fun _ => absent]
    have equal := same name
    rw [wire.removed name encrypts] at equal
    exact Option.map_eq_none_iff.mp equal
  · intro name unencrypted
    exact restoreFromTransit_other fun valid => unmoved name valid fun encrypts =>
      absurd encrypts unencrypted
  · intro key value left
    obtain ⟨had, unparsed⟩ := restoreFromTransit_left left
    rw [← had, wire.own]
    rintro name encrypts - rfl
    rw [accepted name encrypts] at unparsed
    cases unparsed

/-- The ciphertext of nothing is the empty string. -/
theorem encrypt_empty {random : String → Random} {stored : Fields}
    (ran : receiver.encrypt random table fields = .ok stored) (encrypts : receiver.Encrypts table name)
    (empty : fields[name]? = some []) : stored[name]? = some (Json.quote "") := by
  obtain ⟨cfg, configured⟩ := Option.isSome_iff_exists.mp encrypts
  obtain ⟨raw, made, placed⟩ := CryptoService.replaceFields_present ran configured empty
  obtain ⟨key, -, made⟩ := Fallible.bind_eq_ok.mp made
  cases made
  exact placed

/-- One field map, through both crypto transformers. -/
theorem fields_survive {J : Type} {json : Values J} {classes : CharClasses}
    {random : String → Random} {sent : Fields × Fields} {arrived : Fields}
    (apart : json.value nullText ≠ json.value (Json.quote ""))
    (compatible : SameFields sender receiver table) (own : OwnMetadata classes metadata)
    (wire : OnWire sender table fields metadata sent) (same : json.SameMap sent.1 arrived) :
    ∃ result, inboundFields receiver random table arrived sent.2 = .ok result ∧
      (∀ (key : String) value, result.2[key]? = some value → metadata[key]? = some value) ∧
      (json.ValidMap fields → json.ValidMap result.1) ∧
      ∀ kept, json.SameMap result.1 kept →
        (Survives json sender receiver table fields kept ↔ NoNull sender table fields) := by
  obtain ⟨restored, absent, others, left⟩ := restored_of_onWire compatible.accepted own wire same
  have encrypts : ∃ stored, receiver.encrypt random table (restoreFromTransit arrived sent.2).1 =
      .ok stored :=
    CryptoService.exists_replaceFields fun name cfg raw configured _ =>
      (compatible.usable name cfg configured).encrypts raw
  obtain ⟨stored, encrypted⟩ := encrypts
  have others (name : String) (unencrypted : ¬sender.Encrypts table name) :
      (stored[name]?).map json.value = (fields[name]?).map json.value := by
    have untouched := CryptoService.replaceFields_unconfigured encrypted
      (not_encrypts.mp (mt (compatible.same name).mpr unencrypted))
    rw [untouched, others name unencrypted, same name, wire.kept name unencrypted]
  refine ⟨(stored, (restoreFromTransit arrived sent.2).2),
    Fallible.bind_eq_ok.mpr ⟨stored, encrypted, rfl⟩, left, ?_, fun kept rewritten => ⟨?_, fun noNull =>
      ⟨?_, fun name configured null => absurd null (noNull name configured), ?_, ?_⟩⟩⟩
  · exact fun valid => encrypt_valid encrypted fun name raw unencrypted has => by
      have equal := others name (mt (compatible.same name).mp unencrypted)
      rw [has] at equal
      obtain ⟨old, had, sameValue⟩ := Option.map_eq_some_iff.mp equal.symm
      rw [Values.Valid, ← sameValue]
      exact valid name old had
  · -- a null field arrives as the empty string
    intro survives name configured null
    have arrives := encrypt_empty encrypted ((compatible.same name).mp configured)
      (restored name [] _ configured null compatible.keyed.opens_null)
    have equal := rewritten name
    rw [arrives, survives.null name configured null] at equal
    exact apart (Option.some.inj equal)
  · intro name plaintext raw configured present was
    obtain ⟨plain, decrypted, opened⟩ := decrypt_encrypt encrypted rewritten
    refine ⟨plain, decrypted, ?_⟩
    rw [opened name ((compatible.same name).mp configured)]
    exact restored name plaintext raw configured present was.opens
  · intro name configured missing
    have gone := CryptoService.replaceFields_absent encrypted (absent name configured missing)
    have equal := rewritten name
    rw [gone] at equal
    exact Option.map_eq_none_iff.mp equal
  · exact fun name unencrypted => (rewritten name).trans (others name unencrypted)

end Fields

/-- No delete, its encrypted fields null or encrypted. -/
structure MetaEvent.Sendable (classes : CharClasses) (sender receiver : CryptoService)
    (event : MetaEvent) : Prop where
  operation : event.operation ≠ .delete
  compatible : SameFields sender receiver event.table
  own : OwnMetadata classes event.metadata
  stored : StoredFields sender event.table event.fields

structure MetaSnapshotRow.Sendable {J : Type} (json : Values J) (classes : CharClasses)
    (sender : CryptoService) (table : String) (row : MetaSnapshotRow) : Prop where
  valid : json.ValidMap (payloadToFields row.payload)
  own : OwnMetadata classes row.metadata
  stored : StoredFields sender table (payloadToFields row.payload)

section Carried

variable {J : Type} {json : Values J} {classes : CharClasses} {sender receiver : CryptoService}

theorem dropTransitMetadata_ok {context : String} {metadata left : Fields}
    (own : OwnMetadata classes metadata)
    (kept : ∀ (key : String) value, left[key]? = some value → metadata[key]? = some value) :
    ∃ final, dropTransitMetadata classes context left = .ok final := by
  have valid : (left.keys.find? fun key => !classes.isValidMetadataKey key) = none := by
    refine List.find?_eq_none.mpr fun key mem => ?_
    obtain ⟨value, has⟩ := Option.isSome_iff_exists.mp
      (Std.ExtTreeMap.mem_iff_isSome_getElem?.mp (Std.ExtTreeMap.mem_keys.mp mem))
    simp [(own key value (kept key value has)).1]
  exact ⟨_, by rw [dropTransitMetadata, valid]⟩

theorem received_operation {event : MetaEvent} :
    event.received.operation = .delete ↔ event.operation = .delete := by
  simp only [MetaEvent.received, ReplicationEvent.received]
  cases event.operation <;> simp [toProtoOperation, fromProtoOperation]

theorem event_survives {event : MetaEvent} (apart : json.value nullText ≠ json.value (Json.quote ""))
    (sendable : event.Sendable classes sender receiver) :
    ∃ sent, prepareOutboundEvent sender event = .ok sent ∧
      ∀ random, ∃ arrived final, prepareInboundEvent receiver random sent.received = .ok arrived ∧
        dropEventMetadata classes arrived = .ok final ∧
        (Survives json sender receiver event.table event.fields final.fields ↔
          NoNull sender event.table event.fields) := by
  obtain ⟨wire, moved, onWire⟩ := @outboundFields_onWire sender event.table event.fields
    event.metadata sendable.stored sendable.compatible.keyed
  refine ⟨_, Fallible.bind_eq_ok.mpr ⟨wire, wrapError_eq_ok.mpr moved, rfl⟩, fun random => ?_⟩
  obtain ⟨result, restored, left, -, survives⟩ := @fields_survive sender receiver event.table
    event.fields event.metadata J json classes random wire wire.1 apart sendable.compatible
    sendable.own onWire (.refl json _)
  obtain ⟨metadata, dropped⟩ := @dropTransitMetadata_ok classes ("event " ++ quoted event.eventID) _ _
    sendable.own left
  refine ⟨{ event.received with fields := result.1, metadata := result.2 },
    { event.received with fields := result.1, metadata }, ?_, ?_, survives result.1 (.refl json _)⟩
  · unfold prepareInboundEvent
    refine (if_neg (mt received_operation.mp sendable.operation)).trans ?_
    exact Fallible.bind_eq_ok.mpr ⟨result, wrapError_eq_ok.mpr restored, rfl⟩
  · exact Fallible.bind_eq_ok.mpr ⟨metadata, dropped, rfl⟩

theorem row_survives {table : String} {row : MetaSnapshotRow}
    (apart : json.value nullText ≠ json.value (Json.quote "")) (compatible : SameFields sender receiver table)
    (sendable : row.Sendable json classes sender table) :
    ∃ sent, prepareOutboundSnapshotRow json sender table row = .ok sent ∧
      ∀ random, ∃ arrived final,
        prepareInboundSnapshotRow json receiver random table (sent.received json) = .ok arrived ∧
        dropRowMetadata classes arrived = .ok final ∧
        (Survives json sender receiver table (payloadToFields row.payload)
          (payloadToFields final.payload) ↔ NoNull sender table (payloadToFields row.payload)) := by
  obtain ⟨wire, moved, onWire⟩ := @outboundFields_onWire sender table (payloadToFields row.payload)
    row.metadata sendable.stored compatible.keyed
  have validWire : json.ValidMap wire.1 := by
    intro name raw has
    by_cases encrypts : sender.Encrypts table name
    · rw [onWire.removed name encrypts] at has
      cases has
    · rw [onWire.kept name encrypts] at has
      exact sendable.valid name raw has
  -- the payload is written when it is sent, when it arrives and before it is applied
  obtain ⟨payload, written, sameSent⟩ := marshalPayload_same validWire
  obtain ⟨payload', written', sameArrived⟩ := marshalPayload_same (validWire.of_same sameSent)
  refine ⟨{ row with payload, metadata := wire.2 }, Fallible.bind_eq_ok.mpr
    ⟨wire, wrapError_eq_ok.mpr moved, Fallible.bind_eq_ok.mpr
      ⟨payload, wrapError_eq_ok.mpr written, rfl⟩⟩, fun random => ?_⟩
  obtain ⟨result, restored, left, valid, survives⟩ := @fields_survive sender receiver table
    (payloadToFields row.payload) row.metadata J json classes random wire (payloadToFields payload')
    apart compatible sendable.own onWire (sameSent.trans sameArrived)
  obtain ⟨stored, writtenStored, sameStored⟩ := marshalPayload_same (valid sendable.valid)
  obtain ⟨metadata, dropped⟩ := @dropTransitMetadata_ok classes "snapshot row" _ _ sendable.own left
  refine ⟨⟨⟨throughWire row.primaryKey, stored, 0⟩, result.2⟩,
    ⟨⟨throughWire row.primaryKey, stored, 0⟩, metadata⟩, ?_, ?_, survives _ sameStored⟩
  · simp only [prepareInboundSnapshotRow, MetaSnapshotRow.received, written']
    exact Fallible.bind_eq_ok.mpr ⟨result, wrapError_eq_ok.mpr restored, Fallible.bind_eq_ok.mpr
      ⟨stored, wrapError_eq_ok.mpr writtenStored, rfl⟩⟩
  · exact Fallible.bind_eq_ok.mpr ⟨metadata, dropped, rfl⟩

end Carried

/-- Encrypted fields survive replication if and only if none of them is null: the receiver then
decrypts the plaintexts the sender would, and the other fields keep their JSON values. -/
theorem encrypted_fields_survive {J : Type} (json : Values J)
    (apart : json.value nullText ≠ json.value (Json.quote "")) {classes : CharClasses}
    {sender receiver : CryptoService} (random : Nat → String → Random) {events : List MetaEvent}
    {table : String} {rows : List MetaSnapshotRow}
    (sendable : ∀ event ∈ events, event.Sendable classes sender receiver)
    (compatible : SameFields sender receiver table)
    (rowsSendable : ∀ row ∈ rows, row.Sendable json classes sender table) :
    (∃ sent decoded applied, prepareOutboundBatch sender events = .ok sent ∧
      toReplicationMetaEvents (toProtoMetaEvents sent) = .ok decoded ∧
      prepareInboundEvents classes receiver random decoded = .ok applied ∧
      List.Forall₂ (fun event received =>
        Survives json sender receiver event.table event.fields received.fields ↔
          NoNull sender event.table event.fields) events applied) ∧
    ∃ sent decoded applied, prepareOutboundSnapshotRows json sender table rows = .ok sent ∧
      toSnapshotRows json (toProtoSnapshotRows sent) = .ok decoded ∧
      prepareInboundSnapshotRows json classes receiver random table decoded = .ok applied ∧
      List.Forall₂ (fun row received => Survives json sender receiver table
        (payloadToFields row.payload) (payloadToFields received.payload) ↔
          NoNull sender table (payloadToFields row.payload)) rows applied := by
  constructor
  · obtain ⟨sent, arrived, applied, outbound, inbound, dropped, all⟩ := Fallible.mapM_carry
      (fun event mem => (event_survives apart (sendable event mem)).imp
        fun _ both => ⟨both.1, fun index => both.2 (random index)⟩) 0
    exact ⟨sent, _, applied, outbound, toReplicationMetaEvents_toProto sent,
      Fallible.bind_eq_ok.mpr ⟨arrived, inbound, dropped⟩, all⟩
  · obtain ⟨sent, arrived, applied, outbound, inbound, dropped, all⟩ := Fallible.mapM_carry
      (fun row mem => (row_survives apart compatible (rowsSendable row mem)).imp
        fun _ both => ⟨both.1, fun index => both.2 (random index)⟩) 0
    exact ⟨sent, _, applied, outbound, toSnapshotRows_toProto sent,
      Fallible.bind_eq_ok.mpr ⟨arrived, inbound, dropped⟩, all⟩

/-! Users with an encrypted name, under ciphers that only prepend the nonce. -/

def openCiphers : Ciphers := fun _ _ =>
  { nonceSize := 12
    sealWith := fun _ plaintext => plaintext
    openWith := fun _ ciphertext => some ciphertext
    nonceSize_pos := by decide
    openWith_sealWith := fun _ _ _ => rfl
    length_sealWith := fun _ _ => le_rfl }

def zeros : Random := ⟨fun size => List.replicate size 0, fun _ => List.length_replicate⟩

def asciiClasses : CharClasses := ⟨Char.isLower, Char.isDigit⟩

def namesPolicy : FieldPolicy := .ofList [("name", FieldCryptoConfig.mk "aes-gcm" "k" .aesGcm)]

/-- A region that encrypts names with a key of its own. -/
def namesService (key : Bytes) : CryptoService :=
  ⟨openCiphers, .ofList [("k", key)], .ofList [("users", namesPolicy)]⟩

def senderNames : CryptoService := namesService (List.replicate 16 1)

def receiverNames : CryptoService := namesService (List.replicate 32 2)

/-- A user whose name is stored as given. -/
def namedUser (name : Bytes) : MetaEvent where
  toReplicationEvent := { userEvent "us" "1" 1 "" with
    fields := .ofList [("id", Json.quote "1"), ("name", name), ("region", Json.quote "us")] }
  metadata := ∅

/-- `"ann"`, encrypted by the sender. -/
def storedAnn : Bytes :=
  Json.quote (stringOfBytes (Base64.encode (List.replicate 12 0 ++ Json.quote "ann")))

theorem storedAnn_stored : senderNames.Stored "users" "name" (Json.quote "ann") storedAnn :=
  ⟨fun _ => zeros, .ofList [("name", Json.quote "ann")], .ofList [("name", storedAnn)],
    by decide, by decide, by decide⟩

theorem namesService_encrypts {key : Bytes} {table name : String}
    (encrypts : (namesService key).Encrypts table name) : table = "users" ∧ name = "name" := by
  unfold CryptoService.Encrypts CryptoService.policy namesService at encrypts
  by_cases users : table = "users"
  · subst users
    refine ⟨rfl, ?_⟩
    by_contra other
    change namesPolicy[name]?.isSome = true at encrypts
    rw [namesPolicy, Std.ExtTreeMap.getElem?_ofList_of_contains_eq_false (by simp [other])] at encrypts
    cases encrypts
  · rw [Std.ExtTreeMap.getElem?_ofList_of_contains_eq_false (by simp [users])] at encrypts
    exact absurd encrypts (by simp)

theorem namesService_covers {key key' : Bytes} {table name : String}
    (encrypts : (namesService key).Encrypts table name) : (namesService key').Encrypts table name :=
  encrypts

theorem namesService_keyed {key : Bytes} {aead : Aead}
    (fits : newAEAD openCiphers .aesGcm key = .ok aead) : (namesService key).Keyed "users" := by
  intro name cfg configured
  obtain ⟨-, rfl⟩ := @namesService_encrypts key "users" name
    (Option.isSome_iff_exists.mpr ⟨cfg, configured⟩)
  cases configured
  exact ⟨key, aead, rfl, fits⟩

theorem names_compatible : SameFields senderNames receiverNames "users" where
  same _ := Iff.rfl
  accepted name encrypts := by
    obtain ⟨-, rfl⟩ := namesService_encrypts encrypts
    decide +kernel
  keyed := namesService_keyed rfl
  usable := namesService_keyed rfl

/-- A name that is NULL arrives as the empty string: reading JSON null as a string gives
an empty one, which both sides pass on. -/
theorem null_arrives_as_empty_string :
    SameFields senderNames receiverNames "users" ∧
    (namedUser Json.nullText).fields["name"]? = some Json.nullText ∧
    ((do
      let sent ← prepareOutboundBatch senderNames [namedUser Json.nullText]
      let decoded ← toReplicationMetaEvents (toProtoMetaEvents sent)
      prepareInboundEvents asciiClasses receiverNames (fun _ _ => zeros) decoded) :
        Except String (List MetaEvent)).toOption.map (fun applied => applied.map (·.fields["name"]?)) =
      some [some (Json.quote "")] :=
  ⟨names_compatible, by decide⟩

def namedRow (name : Bytes) : MetaSnapshotRow :=
  ⟨⟨userKey "1", some (namedUser name).fields, 0⟩, ∅⟩

theorem ann_stored : StoredFields senderNames "users" (namedUser storedAnn).fields := by
  intro name raw encrypts present
  obtain ⟨-, rfl⟩ := namesService_encrypts encrypts
  cases present
  exact .inr ⟨_, storedAnn_stored⟩

theorem ann_noNull : NoNull senderNames "users" (namedUser storedAnn).fields := by
  intro name encrypts null
  obtain ⟨-, rfl⟩ := namesService_encrypts encrypts
  revert null
  decide

/-- A user and a snapshot row of theirs, both with an encrypted name. -/
theorem encrypted_fields_survive_users :
    (∃ sent decoded applied, prepareOutboundBatch senderNames [namedUser storedAnn] = .ok sent ∧
      toReplicationMetaEvents (toProtoMetaEvents sent) = .ok decoded ∧
      prepareInboundEvents asciiClasses receiverNames (fun _ _ => zeros) decoded = .ok applied ∧
      List.Forall₂ (fun event received => Survives scalarValues senderNames receiverNames event.table
        event.fields received.fields) [namedUser storedAnn] applied) ∧
    ∃ sent decoded applied, prepareOutboundSnapshotRows scalarValues senderNames "users"
        [namedRow storedAnn] = .ok sent ∧
      toSnapshotRows scalarValues (toProtoSnapshotRows sent) = .ok decoded ∧
      prepareInboundSnapshotRows scalarValues asciiClasses receiverNames (fun _ _ => zeros) "users"
        decoded = .ok applied ∧
      List.Forall₂ (fun row received => Survives scalarValues senderNames receiverNames "users"
        (payloadToFields row.payload) (payloadToFields received.payload))
        [namedRow storedAnn] applied := by
  have eventOwn : OwnMetadata asciiClasses (namedUser storedAnn).metadata := by
    intro key value has
    simp [namedUser] at has
  have rowOwn : OwnMetadata asciiClasses (namedRow storedAnn).metadata := by
    intro key value has
    simp [namedRow] at has
  obtain ⟨⟨sent, decoded, applied, outbound, carried, inbound, each⟩,
    sentRows, decodedRows, appliedRows, outboundRows, carriedRows, inboundRows, eachRow⟩ :=
    encrypted_fields_survive scalarValues (by decide) (fun _ _ => zeros)
      (List.forall_mem_singleton.mpr ⟨by decide, names_compatible, eventOwn, ann_stored⟩)
      names_compatible
      (List.forall_mem_singleton.mpr ⟨Values.validMap_of_all (by decide), rowOwn, ann_stored⟩)
  refine ⟨⟨sent, decoded, applied, outbound, carried, inbound, ?_⟩,
    sentRows, decodedRows, appliedRows, outboundRows, carriedRows, inboundRows, ?_⟩
  · cases each with
    | cons survives rest =>
      cases rest
      exact .cons (survives.mpr ann_noNull) .nil
  · cases eachRow with
    | cons survives rest =>
      cases rest
      exact .cons (survives.mpr ann_noNull) .nil

/-! ## No plaintext is stored -/

/-- The field is not there, or it holds what the receiver's handler made of the value that
came in transit, which is not that value. -/
def Hidden {J : Type} (json : Values J) (receiver : CryptoService) (table name : String)
    (transit stored : Fields) : Prop :=
  stored[name]? = none ∨ ∃ plaintext random cfg raw kept,
    transit[transitKey name]? = some plaintext ∧
    receiver.encryptField random table name cfg plaintext = .ok raw ∧
    stored[name]? = some kept ∧ json.value kept = json.value raw ∧
    json.value kept ≠ json.value plaintext

section Hidden

variable {J : Type} {json : Values J} {service : CryptoService} {random : String → Random}
  {table name : String} {cfg : FieldCryptoConfig} {plaintext raw : Bytes}

theorem readBody_length {fuel : Nat} {text : Bytes} {cs : List Char}
    (reads : Json.readBody fuel text = some cs) : cs.length ≤ fuel := by
  induction fuel generalizing text cs with
  | zero =>
    unfold Json.readBody at reads
    split at reads
    · cases reads
      exact le_rfl
    · cases reads
    · next h _ => cases h
  | succ fuel ih =>
    unfold Json.readBody at reads
    split at reads
    · cases reads
      exact Nat.zero_le _
    · cases reads
    · next h _ =>
      cases h
      obtain ⟨⟨c, rest⟩, -, reads⟩ := Option.bind_eq_some_iff.mp reads
      obtain ⟨others, tail, reads⟩ := Option.bind_eq_some_iff.mp reads
      cases reads
      exact Nat.succ_le_succ (ih tail)

theorem unmarshalString_length {text : Bytes} {s : String}
    (reads : Json.unmarshalString text = some s) : s.toList.length ≤ text.length := by
  have trimmed : (Json.trimSpace text).length ≤ text.length := by
    rw [Json.trimSpace, List.length_reverse]
    refine (List.dropWhile_sublist _).length_le.trans ?_
    rw [List.length_reverse]
    exact (List.dropWhile_sublist _).length_le
  simp only [Json.unmarshalString] at reads
  split at reads
  · cases reads
    exact Nat.zero_le _
  · split at reads
    · next body start =>
      obtain ⟨cs, read, made⟩ := Option.map_eq_some_iff.mp reads
      cases made
      rw [String.toList_ofList]
      have := readBody_length read
      rw [start, List.length_cons] at trimmed
      omega
    · cases reads

/-- No text is the JSON string of its own ciphertext. -/
theorem encryptField_ne (encrypts : service.encryptField random table name cfg plaintext = .ok raw) :
    json.value raw ≠ json.value plaintext := by
  intro same
  by_cases filled : plaintext = []
  · obtain ⟨text, rfl⟩ := CryptoService.encryptField_string encrypts
    rw [json.value_quote] at same
    have reads := json.read_string same.symm
    rw [filled] at reads
    cases reads
  · obtain ⟨text, rfl, longer⟩ := CryptoService.encryptField_length encrypts filled
    rw [json.value_quote] at same
    have := unmarshalString_length (json.read_string same.symm)
    omega

/-- What the receiver's crypto transformer leaves of a field that came in transit only. -/
theorem hidden_of_inbound {transit arrived kept : Fields} {result : Fields × Fields}
    (encrypts : service.Encrypts table name) (removed : arrived[name]? = none)
    (ran : inboundFields service random table arrived transit = .ok result)
    (rewritten : json.SameMap result.1 kept) : Hidden json service table name transit kept := by
  obtain ⟨cfg, configured⟩ := Option.isSome_iff_exists.mp encrypts
  obtain ⟨stored, encrypted, ran⟩ := Fallible.bind_eq_ok.mp ran
  cases ran
  have equal := rewritten name
  cases restored : (restoreFromTransit arrived transit).1[name]? with
  | none =>
    rw [CryptoService.replaceFields_absent encrypted restored] at equal
    exact .inl (Option.map_eq_none_iff.mp equal)
  | some plaintext =>
    have came : transit[transitKey name]? = some plaintext := by
      by_cases valid : isValidCryptoTransitField name.toList = true
      · cases moved : transit[transitKey name]? with
        | none =>
          rw [restoreFromTransit_other fun _ => moved, removed] at restored
          cases restored
        | some value =>
          rw [restoreFromTransit_restored valid moved] at restored
          exact restored
      · rw [restoreFromTransit_other fun yes => absurd yes valid, removed] at restored
        cases restored
    obtain ⟨raw, made, placed⟩ := CryptoService.replaceFields_present encrypted configured restored
    rw [placed] at equal
    obtain ⟨written, has, sameValue⟩ := Option.map_eq_some_iff.mp equal
    refine .inr ⟨plaintext, random, cfg, raw, written, came, made, has, sameValue, ?_⟩
    rw [sameValue]
    exact encryptField_ne made

theorem restored_none {transit arrived : Fields} (rejected : parseTransitKey (transitKey name) = none)
    (removed : arrived[name]? = none) : (restoreFromTransit arrived transit).1[name]? = none := by
  refine (restoreFromTransit_other fun valid => ?_).trans removed
  rw [parseTransitKey_eq_some.mpr ⟨rfl, valid⟩] at rejected
  cases rejected

/-- A field that came in transit only: it is hidden if and only if its name is not restored or the
receiver encrypts it. -/
theorem inbound_hidden_iff {transit arrived kept : Fields} {result : Fields × Fields}
    (came : transit[transitKey name]?.isSome) (removed : arrived[name]? = none)
    (ran : inboundFields service random table arrived transit = .ok result)
    (rewritten : json.SameMap result.1 kept) :
    Hidden json service table name transit kept ↔
      parseTransitKey (transitKey name) = none ∨ service.Encrypts table name := by
  by_cases encrypts : service.Encrypts table name
  · exact iff_of_true (hidden_of_inbound encrypts removed ran rewritten) (.inr encrypts)
  obtain ⟨stored, encrypted, ran⟩ := Fallible.bind_eq_ok.mp ran
  cases ran
  have equal : (kept[name]?).map json.value =
      ((restoreFromTransit arrived transit).1[name]?).map json.value := by
    rw [rewritten name, CryptoService.replaceFields_unconfigured encrypted (not_encrypts.mp encrypts)]
    rfl
  cases parsed : parseTransitKey (transitKey name) with
  | none =>
    rw [restored_none parsed removed] at equal
    exact iff_of_true (.inl (Option.map_eq_none_iff.mp equal)) (.inl rfl)
  | some parsedName =>
    -- what came is what is kept
    obtain ⟨plaintext, moved⟩ := Option.isSome_iff_exists.mp came
    obtain ⟨same, valid⟩ := parseTransitKey_eq_some.mp parsed
    cases transitKey_injective same
    rw [restoreFromTransit_restored valid moved] at equal
    refine iff_of_false ?_ (by simp [encrypts])
    rintro (absent | ⟨_, _, _, _, written, moved', -, has, -, differs⟩)
    · rw [absent] at equal
      cases equal
    · cases moved.symm.trans moved'
      rw [has] at equal
      exact differs (Option.some.inj equal)

variable {sender receiver : CryptoService} {classes : CharClasses}

/-- The sender's outbound pipeline moves the field into transit metadata. -/
def Moves (sender : CryptoService) (table : String) (fields : Fields) (name : String) : Prop :=
  sender.Encrypts table name ∧ fields[name]?.isSome

theorem Moves.outbound {fields metadata : Fields} {sent : Fields × Fields}
    (moves : Moves sender table fields name)
    (ran : outboundFields sender table fields metadata = .ok sent) :
    sent.1[name]? = none ∧ sent.2[transitKey name]?.isSome := by
  obtain ⟨plain, decrypted, ran⟩ := Fallible.bind_eq_ok.mp ran
  cases ran
  obtain ⟨cfg, configured⟩ := Option.isSome_iff_exists.mp moves.1
  obtain ⟨raw, present⟩ := Option.isSome_iff_exists.mp moves.2
  obtain ⟨value, -, has⟩ := CryptoService.replaceFields_present decrypted configured present
  have listed := mem_encryptedFieldNames.mpr moves.1
  have moved : (moveToTransit (sender.encryptedFieldNames table) plain metadata).2[transitKey name]? =
      some value := moveToTransit_metadata Std.ExtTreeMap.nodup_keys listed has
  rw [moveToTransit_fields, if_pos listed, moved]
  exact ⟨rfl, rfl⟩

theorem event_hidden_iff {event sent arrived final : MetaEvent}
    (outbound : prepareOutboundEvent sender event = .ok sent)
    (inbound : prepareInboundEvent receiver random sent.received = .ok arrived)
    (dropped : dropEventMetadata classes arrived = .ok final)
    (moves : Moves sender event.table event.fields name) :
    Hidden json receiver event.table name sent.metadata final.fields ↔ event.operation = .delete ∨
      parseTransitKey (transitKey name) = none ∨ receiver.Encrypts event.table name := by
  obtain ⟨wire, moved, outbound⟩ := Fallible.bind_eq_ok.mp outbound
  cases outbound
  obtain ⟨metadata, -, dropped⟩ := Fallible.bind_eq_ok.mp dropped
  cases dropped
  obtain ⟨removed, came⟩ := moves.outbound (wrapError_eq_ok.mp moved)
  by_cases delete : event.operation = .delete
  · cases (if_pos (received_operation.mpr delete)).symm.trans inbound
    exact iff_of_true (.inl removed) (.inl delete)
  · obtain ⟨result, restored, inbound⟩ := Fallible.bind_eq_ok.mp
      ((if_neg (mt received_operation.mp delete)).symm.trans inbound)
    cases inbound
    exact (inbound_hidden_iff came removed (wrapError_eq_ok.mp restored) (.refl json _)).trans
      (or_iff_right delete).symm

/-- A payload that is sent has no field when it arrives that was not sent. -/
theorem arrives_without {fields : Fields} {payload : Option Object}
    (written : marshalPayload json fields = .ok payload) (removed : fields[name]? = none) :
    (payloadToFields (marshalPayload json (payloadToFields payload)).toOption.join)[name]? = none := by
  have gone {fields : Fields} {payload : Option Object}
      (written : marshalPayload json fields = .ok payload) (removed : fields[name]? = none) :
      (payloadToFields payload)[name]? = none := by
    have equal := marshalPayload_eq_ok written name
    rw [removed] at equal
    exact Option.map_eq_none_iff.mp equal
  -- a payload that cannot be written when it arrives is lost as a whole
  cases again : marshalPayload json (payloadToFields payload) with
  | error err => rfl
  | ok arrived => exact gone again (gone written removed)

theorem row_hidden_iff {row sent arrived final : MetaSnapshotRow}
    (outbound : prepareOutboundSnapshotRow json sender table row = .ok sent)
    (inbound : prepareInboundSnapshotRow json receiver random table (sent.received json) = .ok arrived)
    (dropped : dropRowMetadata classes arrived = .ok final)
    (moves : Moves sender table (payloadToFields row.payload) name) :
    Hidden json receiver table name sent.metadata (payloadToFields final.payload) ↔
      parseTransitKey (transitKey name) = none ∨ receiver.Encrypts table name := by
  obtain ⟨wire, moved, outbound⟩ := Fallible.bind_eq_ok.mp outbound
  obtain ⟨payload, written, outbound⟩ := Fallible.bind_eq_ok.mp outbound
  cases outbound
  obtain ⟨metadata, -, dropped⟩ := Fallible.bind_eq_ok.mp dropped
  cases dropped
  obtain ⟨result, restored, inbound⟩ := Fallible.bind_eq_ok.mp inbound
  obtain ⟨stored, writtenStored, inbound⟩ := Fallible.bind_eq_ok.mp inbound
  cases inbound
  obtain ⟨removed, came⟩ := moves.outbound (wrapError_eq_ok.mp moved)
  exact inbound_hidden_iff came (arrives_without (wrapError_eq_ok.mp written) removed)
    (wrapError_eq_ok.mp restored) (marshalPayload_eq_ok (wrapError_eq_ok.mp writtenStored))

end Hidden

/-- No plaintext of a field that the sender moves into transit metadata is stored if and only if the
receiver does not restore it (the event is a delete, or the name is not one that it reads back) or
encrypts it; what is stored is then its own ciphertext. -/
theorem no_plaintext_is_stored {J : Type} (json : Values J) {classes : CharClasses}
    {sender receiver : CryptoService} {random : Nat → String → Random} {table : String}
    {events sentEvents decodedEvents appliedEvents : List MetaEvent}
    {rows sentRows decodedRows appliedRows : List MetaSnapshotRow}
    (outbound : prepareOutboundBatch sender events = .ok sentEvents)
    (decoded : toReplicationMetaEvents (toProtoMetaEvents sentEvents) = .ok decodedEvents)
    (inbound : prepareInboundEvents classes receiver random decodedEvents = .ok appliedEvents)
    (outboundRows : prepareOutboundSnapshotRows json sender table rows = .ok sentRows)
    (decodedToo : toSnapshotRows json (toProtoSnapshotRows sentRows) = .ok decodedRows)
    (inboundRows : prepareInboundSnapshotRows json classes receiver random table decodedRows =
      .ok appliedRows) :
    List.Forall₂ (fun event applied => ∃ sent, prepareOutboundEvent sender event = .ok sent ∧
      ∀ name, Moves sender event.table event.fields name →
        (Hidden json receiver event.table name sent.metadata applied.fields ↔
          event.operation = .delete ∨ parseTransitKey (transitKey name) = none ∨
            receiver.Encrypts event.table name)) events appliedEvents ∧
    List.Forall₂ (fun row applied => ∃ sent, prepareOutboundSnapshotRow json sender table row = .ok sent ∧
      ∀ name, Moves sender table (payloadToFields row.payload) name →
        (Hidden json receiver table name sent.metadata (payloadToFields applied.payload) ↔
          parseTransitKey (transitKey name) = none ∨ receiver.Encrypts table name))
      rows appliedRows := by
  constructor
  · cases (toReplicationMetaEvents_toProto sentEvents).symm.trans decoded
    obtain ⟨arrived, restored, dropped⟩ := Fallible.bind_eq_ok.mp inbound
    have ways := Fallible.mapM_carried
      (fun index => prepareInboundEvent receiver (random index)) outbound restored dropped
    apply ways.imp
    rintro event applied ⟨sent, index, between, out, back, last⟩
    exact ⟨sent, out, fun name moves => event_hidden_iff out back last moves⟩
  · cases (toSnapshotRows_toProto sentRows).symm.trans decodedToo
    obtain ⟨arrived, restored, dropped⟩ := Fallible.bind_eq_ok.mp inboundRows
    have ways := Fallible.mapM_carried
      (fun index => prepareInboundSnapshotRow json receiver (random index) table)
      outboundRows restored dropped
    apply ways.imp
    rintro row applied ⟨sent, index, between, out, back, last⟩
    exact ⟨sent, out, fun name moves => row_hidden_iff out back last moves⟩

/-- A node of the users table with the given transformers. -/
def usersNode (region : String) (transformers : List TransformerSpec) : NodeConfig where
  region := region
  version := "1.0.0"
  sourceType := "cdc"
  tables := [usersSpec]
  columns := fun _ => [⟨"id", "text"⟩, ⟨"name", "text"⟩, ⟨"region", "text"⟩]
  transformers := transformers
  keysByID := .ofList [("k", (List.replicate 16 1 : Bytes))]

def encryptNames : TransformerSpec := ⟨"crypto", "users", ["name"], "k", "aes-gcm"⟩

/-- The name travels as plaintext to a peer without transformers, which both handshakes
accept and which stores it as it came. -/
theorem plaintext_is_stored :
    checkHandshakeCompatibility (usersNode "us" [encryptNames]).handshake
      (usersNode "eu" []).handshake = .ok () ∧
    checkHandshakeCompatibility (usersNode "eu" []).handshake
      (usersNode "us" [encryptNames]).handshake = .ok () ∧
    ((do
      let sender ← newCryptoService openCiphers (usersNode "us" [encryptNames]).keysByID [encryptNames]
      let receiver ← newCryptoService openCiphers (usersNode "eu" []).keysByID []
      let sent ← prepareOutboundBatch sender [namedUser storedAnn]
      let decoded ← toReplicationMetaEvents (toProtoMetaEvents sent)
      let applied ← prepareInboundEvents asciiClasses receiver (fun _ _ => zeros) decoded
      return sent.zip applied) : Except String (List (MetaEvent × MetaEvent))).toOption.map
        (fun ways => ways.map fun way => (way.1.metadata[transitKey "name"]?, way.2.fields["name"]?)) =
      some [(some (Json.quote "ann"), some (Json.quote "ann"))] := by
  decide +kernel

/-- The same user and snapshot row between two regions that both encrypt names. -/
theorem no_plaintext_is_stored_users :
    ∃ sent decoded applied sentRows decodedRows appliedRows,
      prepareOutboundBatch senderNames [namedUser storedAnn] = .ok sent ∧
      toReplicationMetaEvents (toProtoMetaEvents sent) = .ok decoded ∧
      prepareInboundEvents asciiClasses receiverNames (fun _ _ => zeros) decoded = .ok applied ∧
      prepareOutboundSnapshotRows scalarValues senderNames "users" [namedRow storedAnn] =
        .ok sentRows ∧
      toSnapshotRows scalarValues (toProtoSnapshotRows sentRows) = .ok decodedRows ∧
      prepareInboundSnapshotRows scalarValues asciiClasses receiverNames (fun _ _ => zeros) "users"
        decodedRows = .ok appliedRows ∧
      List.Forall₂ (fun event applied => ∃ sent, prepareOutboundEvent senderNames event = .ok sent ∧
        ∀ name, Moves senderNames event.table event.fields name →
          Hidden scalarValues receiverNames event.table name sent.metadata applied.fields)
        [namedUser storedAnn] applied ∧
      List.Forall₂ (fun row applied => ∃ sent,
        prepareOutboundSnapshotRow scalarValues senderNames "users" row = .ok sent ∧
        ∀ name, Moves senderNames "users" (payloadToFields row.payload) name →
          Hidden scalarValues receiverNames "users" name sent.metadata (payloadToFields applied.payload))
        [namedRow storedAnn] appliedRows := by
  have ran : ((do
      let sent ← prepareOutboundBatch senderNames [namedUser storedAnn]
      let decoded ← toReplicationMetaEvents (toProtoMetaEvents sent)
      let _ ← prepareInboundEvents asciiClasses receiverNames (fun _ _ => zeros) decoded
      let sentRows ← prepareOutboundSnapshotRows scalarValues senderNames "users" [namedRow storedAnn]
      let decodedRows ← toSnapshotRows scalarValues (toProtoSnapshotRows sentRows)
      prepareInboundSnapshotRows scalarValues asciiClasses receiverNames (fun _ _ => zeros) "users"
        decodedRows) : Except String (List MetaSnapshotRow)).toOption.isSome := by
    decide +kernel
  obtain ⟨appliedRows, ran⟩ := Fallible.exists_ok ran
  obtain ⟨sent, outbound, ran⟩ := Fallible.bind_eq_ok.mp ran
  obtain ⟨decoded, decodes, ran⟩ := Fallible.bind_eq_ok.mp ran
  obtain ⟨applied, inbound, ran⟩ := Fallible.bind_eq_ok.mp ran
  obtain ⟨sentRows, outboundRows, ran⟩ := Fallible.bind_eq_ok.mp ran
  obtain ⟨decodedRows, decodesRows, inboundRows⟩ := Fallible.bind_eq_ok.mp ran
  obtain ⟨events, rows⟩ := no_plaintext_is_stored scalarValues outbound decodes inbound outboundRows
    decodesRows inboundRows
  refine ⟨sent, decoded, applied, sentRows, decodedRows, appliedRows, outbound, decodes, inbound,
    outboundRows, decodesRows, inboundRows, events.imp ?_, rows.imp ?_⟩
  · rintro event applied ⟨sent, out, hidden⟩
    exact ⟨sent, out, fun name moves => (hidden name moves).mpr
      (.inr (.inr (namesService_covers moves.1)))⟩
  · rintro row applied ⟨sent, out, hidden⟩
    exact ⟨sent, out, fun name moves => (hidden name moves).mpr (.inr (namesService_covers moves.1))⟩

end Transmogr
