import Transmogr.InboundPipeline

/-! The crypto transformers are written twice, for events and for snapshot rows. Over any crypto service
the two agree, with nil maps where Go has them. -/
namespace Transmogr.CryptoPaths

open Json Sql Std

/-- The `cryptoService` interface of the transformers. A nil map is `none`. -/
structure FieldCrypto where
  encrypt : String → Option Fields → Except String (Option Fields)
  decrypt : String → Option Fields → Except String (Option Fields)
  encryptedFieldNames : String → List String

/-- The parts of a `models.ReplicationEvent` that the transformers read and write. -/
structure Event where
  table : String
  eventID : String
  operation : ReplicationOperation
  fields : Option Fields
  metadata : Option Fields

/-- The same of a `models.SnapshotRow`; an empty payload is `none`. -/
structure Row where
  payload : Option Object
  metadata : Option Fields

/-- A nil map reads as an empty one, which is also what is made where a map is needed. -/
def entries (fields : Option Fields) : Fields := fields.getD ∅

/-- `PayloadToFields` gives a nil map for an empty payload. -/
def payloadFields (payload : Option Object) : Option Fields := payload

/-- `FieldsToPayload` -/
def fieldsToPayload {J : Type} (json : Values J) (fields : Option Fields) :
    Except String (Option Object) :=
  marshalPayload json (entries fields)

/-- The loop body over the encrypted fields; deleting from a nil map does nothing. -/
def moveField (state : Option Fields × Fields) (field : String) : Option Fields × Fields :=
  match (entries state.1)[field]? with
  | none => state
  | some value => (state.1.map (·.erase field), state.2.insert (transitKey field) value)

variable (crypto : FieldCrypto)

def prepareOutboundEvent (event : Event) : Except String Event := do
  let fields ← wrapError ("prepare outbound batch event " ++ quoted event.eventID)
    (crypto.decrypt event.table event.fields)
  let metadata := entries event.metadata
  let moved := (crypto.encryptedFieldNames event.table).foldl moveField (fields, metadata)
  return { event with fields := moved.1, metadata := some moved.2 }

def prepareOutboundSnapshotRow {J : Type} (json : Values J) (table : String) (row : Row) :
    Except String Row := do
  let fields := payloadFields row.payload
  let fields ← wrapError "prepare outbound snapshot row" (crypto.decrypt table fields)
  let metadata := entries row.metadata
  let moved := (crypto.encryptedFieldNames table).foldl moveField (fields, metadata)
  let payload ← wrapError "encode outbound snapshot row payload" (fieldsToPayload json moved.1)
  return { payload, metadata := some moved.2 }

/-! ## Inbound

`order` is the order in which `range` visits the metadata. -/

def prepareInboundEvent (order : List (String × Bytes)) (event : Event) : Except String Event :=
  if event.operation = .delete then .ok event
  else do
    let fields := entries event.fields
    let restored := order.foldl restoreEntry (fields, entries event.metadata)
    let fields ← wrapError ("prepare inbound event " ++ quoted event.eventID)
      (crypto.encrypt event.table (some restored.1))
    return { event with fields, metadata := event.metadata.map fun _ => restored.2 }

/-- The loop body for rows, which makes the map when it is first written to. -/
def restoreRowEntry (state : Option Fields × Fields) (entry : String × Bytes) :
    Option Fields × Fields :=
  match parseTransitKey entry.1 with
  | none => state
  | some field => (some ((entries state.1).insert field entry.2), state.2.erase entry.1)

def prepareInboundSnapshotRow {J : Type} (json : Values J) (order : List (String × Bytes))
    (table : String) (row : Row) : Except String Row := do
  let fields := payloadFields row.payload
  let restored := order.foldl restoreRowEntry (fields, entries row.metadata)
  let fields ← wrapError "prepare inbound snapshot row" (crypto.encrypt table restored.1)
  let payload ← wrapError "encode inbound snapshot row payload" (fieldsToPayload json fields)
  return { payload, metadata := row.metadata.map fun _ => restored.2 }

/-- Both fail, or both succeed with results that are related. -/
def Together {α β : Type} (R : α → β → Prop) : Except String α → Except String β → Prop
  | .ok a, .ok b => R a b
  | .error _, .error _ => True
  | _, _ => False

/-- What is asked of a crypto service: nil and empty maps are treated alike, only configured fields
change, and what is encrypted is JSON. -/
structure FieldCrypto.Lawful {J : Type} (json : Values J) (crypto : FieldCrypto) : Prop where
  decrypt_nil : ∀ table, Together (fun a b => entries a = entries b) (crypto.decrypt table none)
    (crypto.decrypt table (some ∅))
  encrypt_nil : ∀ table, Together (fun a b => entries a = entries b) (crypto.encrypt table none)
    (crypto.encrypt table (some ∅))
  decrypt_others : ∀ table fields result, crypto.decrypt table fields = .ok result →
    ∀ name ∉ crypto.encryptedFieldNames table, (entries result)[name]? = (entries fields)[name]?
  encrypt_others : ∀ table fields result, crypto.encrypt table fields = .ok result →
    ∀ name ∉ crypto.encryptedFieldNames table, (entries result)[name]? = (entries fields)[name]?
  encrypt_valid : ∀ table fields result, crypto.encrypt table fields = .ok result →
    ∀ name ∈ crypto.encryptedFieldNames table, ∀ raw, (entries result)[name]? = some raw →
      json.Valid raw

/-- The event and the row hold the same fields as JSON values, and the same metadata. -/
def Agree {J : Type} (json : Values J) (event : Event) (row : Row) : Prop :=
  json.SameMap (entries event.fields) (entries (payloadFields row.payload)) ∧
    entries event.metadata = entries row.metadata

section Results

variable {α β : Type} {R : α → β → Prop} {x : Except String α} {y : Except String β}

theorem Together.elim (together : Together R x y) :
    (∃ a b, x = .ok a ∧ y = .ok b ∧ R a b) ∨ ∃ err err', x = .error err ∧ y = .error err' := by
  cases x with
  | error err =>
    cases y with
    | error err' => exact .inr ⟨err, err', rfl, rfl⟩
    | ok b => exact together.elim
  | ok a =>
    cases y with
    | error err' => exact together.elim
    | ok b => exact .inl ⟨a, b, rfl, rfl, together⟩

theorem together_self {x : Except String (Option Fields)} :
    Together (fun a b => entries a = entries b) x x := by
  cases x with
  | error err => trivial
  | ok a => exact rfl

theorem Together.symm {x y : Except String (Option Fields)}
    (together : Together (fun a b => entries a = entries b) x y) :
    Together (fun a b => entries a = entries b) y x := by
  rcases together.elim with ⟨a, b, rfl, rfl, same⟩ | ⟨err, err', rfl, rfl⟩
  · exact same.symm
  · trivial

/-- A call that treats nil and empty maps alike depends on the entries only. -/
theorem together_of_entries {f : Option Fields → Except String (Option Fields)}
    (alike : Together (fun a b => entries a = entries b) (f none) (f (some ∅)))
    {fields others : Option Fields} (same : entries fields = entries others) :
    Together (fun a b => entries a = entries b) (f fields) (f others) := by
  cases fields with
  | none =>
    cases others with
    | none => exact together_self
    | some others =>
      obtain rfl : ∅ = others := same
      exact alike
  | some fields =>
    cases others with
    | none =>
      obtain rfl : fields = ∅ := same
      exact alike.symm
    | some others =>
      obtain rfl : fields = others := same
      exact together_self

theorem Together.wrapError {context context' : String} (together : Together R x y) :
    Together R (wrapError context x) (wrapError context' y) := by
  rcases together.elim with ⟨a, b, rfl, rfl, related⟩ | ⟨err, err', rfl, rfl⟩
  · exact related
  · trivial

/-- Two computations go together when their first steps do and the rest goes together from there. -/
theorem Together.bind {γ δ : Type} {S : γ → δ → Prop} {f : α → Except String γ}
    {g : β → Except String δ} (first : Together R x y)
    (next : ∀ a b, x = .ok a → y = .ok b → R a b → Together S (f a) (g b)) :
    Together S (x >>= f) (y >>= g) := by
  rcases first.elim with ⟨a, b, rfl, rfl, related⟩ | ⟨err, err', rfl, rfl⟩
  · exact next a b rfl rfl related
  · trivial

end Results

section Loops

variable {J : Type} {json : Values J} {state : Option Fields × Fields}

/-- The loops see the entries of a map only. -/
theorem foldl_moveField (names : List String) (fields : Option Fields) (metadata : Fields) :
    ((entries (names.foldl moveField (fields, metadata)).1),
      (names.foldl moveField (fields, metadata)).2) =
      moveToTransit names (entries fields) metadata := by
  refine (List.foldl_hom (fun state : Option Fields × Fields => (entries state.1, state.2)) ?_).symm
  rintro ⟨fields, metadata⟩ field
  unfold moveField
  cases fields with
  | none => simp [entries]
  | some fields =>
    simp only [entries, Option.getD_some]
    cases fields[field]? <;> rfl

theorem foldl_restoreRowEntry (order : List (String × Bytes)) (fields : Option Fields)
    (metadata : Fields) :
    ((entries (order.foldl restoreRowEntry (fields, metadata)).1),
      (order.foldl restoreRowEntry (fields, metadata)).2) =
      order.foldl restoreEntry (entries fields, metadata) := by
  refine (List.foldl_hom (fun state : Option Fields × Fields => (entries state.1, state.2)) ?_).symm
  rintro ⟨fields, metadata⟩ entry
  unfold restoreRowEntry restoreEntry
  cases parseTransitKey entry.1 <;> rfl

end Loops

section Paths

variable {J : Type} {json : Values J} {crypto : FieldCrypto} {event : Event} {row : Row}
  {order order' : List (String × Bytes)}

/-- What is left of the fields is JSON: decryption may only have touched those that are moved. -/
theorem FieldCrypto.Lawful.moved_valid (lawful : crypto.Lawful json) {table : String}
    {fields plain : Option Fields} (metadata : Fields) (valid : json.ValidMap (entries fields))
    (decrypted : crypto.decrypt table fields = .ok plain) :
    json.ValidMap (moveToTransit (crypto.encryptedFieldNames table) (entries plain) metadata).1 := by
  intro name raw present
  rw [moveToTransit_fields] at present
  split at present
  · cases present
  · next unconfigured =>
    rw [lawful.decrypt_others table fields plain decrypted name unconfigured] at present
    exact valid name raw present

theorem FieldCrypto.Lawful.encrypted_valid (lawful : crypto.Lawful json) {table : String}
    {fields stored : Option Fields} (valid : json.ValidMap (entries fields))
    (encrypted : crypto.encrypt table fields = .ok stored) : json.ValidMap (entries stored) := by
  intro name raw present
  by_cases configured : name ∈ crypto.encryptedFieldNames table
  · exact lawful.encrypt_valid table fields stored encrypted name configured raw present
  · rw [lawful.encrypt_others table fields stored encrypted name configured] at present
    exact valid name raw present

/-- Writing the payload of a row keeps it in agreement with the event. -/
theorem together_encoded {context : String} {fields metadata : Option Fields}
    (valid : json.ValidMap (entries event.fields)) (same : entries event.fields = entries fields)
    (sameMetadata : entries event.metadata = entries metadata) :
    Together (Agree json) (.ok event) (do
      let payload ← wrapError context (fieldsToPayload json fields)
      return ⟨payload, metadata⟩) := by
  obtain ⟨payload, written, sameValues⟩ := marshalPayload_same valid
  have encoded : wrapError context (fieldsToPayload json fields) = .ok payload := by
    rw [fieldsToPayload, ← same]
    exact wrapError_eq_ok.mpr written
  rw [encoded]
  exact ⟨sameValues, sameMetadata⟩

theorem outbound_together (lawful : crypto.Lawful json)
    (fields : entries event.fields = entries (payloadFields row.payload))
    (metadata : entries event.metadata = entries row.metadata)
    (valid : json.ValidMap (entries event.fields)) :
    Together (Agree json) (prepareOutboundEvent crypto event)
      (prepareOutboundSnapshotRow crypto json event.table row) := by
  apply (together_of_entries (lawful.decrypt_nil event.table) fields).wrapError.bind
  intro plain plainRow decrypted _ same
  have moved := foldl_moveField (crypto.encryptedFieldNames event.table) plain (entries event.metadata)
  have movedRow := foldl_moveField (crypto.encryptedFieldNames event.table) plainRow
    (entries row.metadata)
  rw [← same, ← metadata, ← moved] at movedRow
  have left := lawful.moved_valid (entries event.metadata) valid (wrapError_eq_ok.mp decrypted)
  rw [← moved] at left
  obtain ⟨sameFields, sameMetadata⟩ := Prod.mk.inj movedRow
  apply together_encoded
  · exact left
  · rw [← metadata]
    exact sameFields.symm
  · rw [← metadata]
    exact sameMetadata.symm

/-- Metadata that was nil stays nil, and had nothing to restore. -/
theorem entries_map_restored {metadata : Option Fields} (fields : Fields)
    (visits : order.Perm (entries metadata).toList) :
    entries (metadata.map fun _ => (order.foldl restoreEntry (fields, entries metadata)).2) =
      (order.foldl restoreEntry (fields, entries metadata)).2 := by
  cases metadata with
  | none =>
    have empty : (entries none).toList = [] := by simp [entries]
    rw [empty, List.perm_nil] at visits
    rw [visits]
    rfl
  | some metadata => rfl

theorem inbound_together (lawful : crypto.Lawful json) (notDelete : event.operation ≠ .delete)
    (fields : entries event.fields = entries (payloadFields row.payload))
    (metadata : entries event.metadata = entries row.metadata)
    (visits : order.Perm (entries event.metadata).toList)
    (visits' : order'.Perm (entries row.metadata).toList)
    (valid : json.ValidMap (entries event.fields)) (validToo : json.ValidMap (entries event.metadata)) :
    Together (Agree json) (prepareInboundEvent crypto order event)
      (prepareInboundSnapshotRow crypto json order' event.table row) := by
  have restored : order.foldl restoreEntry (entries event.fields, entries event.metadata) =
      restoreFromTransit (entries event.fields) (entries event.metadata) := foldl_restore_order visits
  have restoredRow := foldl_restoreRowEntry order' (payloadFields row.payload) (entries row.metadata)
  rw [foldl_restore_order visits', ← fields, ← metadata, ← restored] at restoredRow
  obtain ⟨sameFields, sameMetadata⟩ := Prod.mk.inj restoredRow
  have validRestored : json.ValidMap
      (order.foldl restoreEntry (entries event.fields, entries event.metadata)).1 := by
    rw [restored]
    exact restored_valid valid validToo
  have keptEvent := entries_map_restored (entries event.fields) visits
  have keptRow : entries (row.metadata.map fun _ =>
      (order'.foldl restoreRowEntry (payloadFields row.payload, entries row.metadata)).2) =
      (order'.foldl restoreRowEntry (payloadFields row.payload, entries row.metadata)).2 := by
    have kept := entries_map_restored (entries (payloadFields row.payload)) visits'
    rw [← foldl_restoreRowEntry] at kept
    exact kept
  rw [prepareInboundEvent, if_neg notDelete]
  apply (together_of_entries (lawful.encrypt_nil event.table) ?_).wrapError.bind
  · intro stored storedRow encrypted _ same
    apply together_encoded
    · refine lawful.encrypted_valid ?_ (wrapError_eq_ok.mp encrypted)
      exact validRestored
    · exact same
    · rw [keptRow, ← metadata, sameMetadata]
      exact keptEvent
  · rw [← metadata]
    exact sameFields.symm

/-- An event and a row with the same fields and metadata fare alike in both directions, whatever crypto
service is used and in whatever order the metadata is visited. -/
theorem crypto_paths_agree (lawful : crypto.Lawful json)
    (fields : entries event.fields = entries (payloadFields row.payload))
    (metadata : entries event.metadata = entries row.metadata)
    (valid : json.ValidMap (entries event.fields)) (validToo : json.ValidMap (entries event.metadata)) :
    Together (Agree json) (prepareOutboundEvent crypto event)
      (prepareOutboundSnapshotRow crypto json event.table row) ∧
    (event.operation ≠ .delete →
      ∀ order order', order.Perm (entries event.metadata).toList →
        order'.Perm (entries row.metadata).toList →
          Together (Agree json) (prepareInboundEvent crypto order event)
            (prepareInboundSnapshotRow crypto json order' event.table row)) := by
  constructor
  · exact outbound_together lawful fields metadata valid
  · intro notDelete order order' visits visits'
    exact inbound_together lawful notDelete fields metadata visits visits' valid validToo

end Paths

/-- `Service` behind the interface; `CloneFields` of a nil map is nil. -/
def ofService (service : CryptoService) (random : String → Random) : FieldCrypto where
  encrypt
    | _, none => .ok none
    | table, some fields => (service.encrypt random table fields).map some
  decrypt
    | _, none => .ok none
    | table, some fields => (service.decrypt table fields).map some
  encryptedFieldNames := service.encryptedFieldNames

section Service

variable {J : Type} {json : Values J} {service : CryptoService} {random : String → Random}
  {table : String} {fields result : Option Fields}

theorem replaceFields_empty {replace : String → FieldCryptoConfig → Bytes → Except String Bytes} :
    service.replaceFields table ∅ replace = .ok ∅ := by
  have none_there (name : String) : (∅ : Fields)[name]? = none := ExtTreeMap.getElem?_empty
  obtain ⟨result, ran⟩ : ∃ result, service.replaceFields table ∅ replace = .ok result := by
    apply CryptoService.exists_replaceFields
    intro name cfg raw _ present
    rw [none_there] at present
    cases present
  rw [ran]
  refine congrArg Except.ok (ExtTreeMap.ext_getElem? fun name => ?_)
  rw [CryptoService.replaceFields_absent ran (none_there name), none_there]

theorem decrypt_eq_ok (ran : (ofService service random).decrypt table fields = .ok result) :
    service.decrypt table (entries fields) = .ok (entries result) := by
  cases fields with
  | none =>
    cases ran
    exact replaceFields_empty
  | some fields =>
    obtain ⟨plain, decrypted, rfl⟩ := Fallible.map_eq_ok.mp ran
    exact decrypted

theorem encrypt_eq_ok (ran : (ofService service random).encrypt table fields = .ok result) :
    service.encrypt random table (entries fields) = .ok (entries result) := by
  cases fields with
  | none =>
    cases ran
    exact replaceFields_empty
  | some fields =>
    obtain ⟨stored, encrypted, rfl⟩ := Fallible.map_eq_ok.mp ran
    exact encrypted

theorem ofService_lawful : (ofService service random).Lawful json where
  decrypt_nil table := by
    have empty : (ofService service random).decrypt table (some ∅) = .ok (some ∅) :=
      Fallible.map_eq_ok.mpr ⟨∅, replaceFields_empty, rfl⟩
    rw [empty]
    exact rfl
  encrypt_nil table := by
    have empty : (ofService service random).encrypt table (some ∅) = .ok (some ∅) :=
      Fallible.map_eq_ok.mpr ⟨∅, replaceFields_empty, rfl⟩
    rw [empty]
    exact rfl
  decrypt_others table fields result ran name unconfigured :=
    CryptoService.replaceFields_unconfigured (decrypt_eq_ok ran)
      (not_encrypts.mp (mt mem_encryptedFieldNames.mpr unconfigured))
  encrypt_others table fields result ran name unconfigured :=
    CryptoService.replaceFields_unconfigured (encrypt_eq_ok ran)
      (not_encrypts.mp (mt mem_encryptedFieldNames.mpr unconfigured))
  encrypt_valid table fields result ran name configured raw present := by
    have encrypted := encrypt_eq_ok ran
    obtain ⟨cfg, policy⟩ := Option.isSome_iff_exists.mp (mem_encryptedFieldNames.mp configured)
    cases had : (entries fields)[name]? with
    | none =>
      rw [CryptoService.replaceFields_absent encrypted had] at present
      cases present
    | some value =>
      obtain ⟨text, made, placed⟩ := CryptoService.replaceFields_present encrypted policy had
      cases present.symm.trans placed
      obtain ⟨string, rfl⟩ := CryptoService.encryptField_string made
      simp [Values.Valid, json.value_quote]

/-- With the service behind the interface, an event goes through `outboundFields`. -/
theorem prepareOutboundEvent_ofService {event sent : Event}
    (ran : prepareOutboundEvent (ofService service random) event = .ok sent) :
    outboundFields service event.table (entries event.fields) (entries event.metadata) =
      .ok (entries sent.fields, entries sent.metadata) := by
  obtain ⟨plain, decrypted, ran⟩ := Fallible.bind_eq_ok.mp ran
  cases ran
  have moved := foldl_moveField (service.encryptedFieldNames event.table) plain
    (entries event.metadata)
  exact Fallible.bind_eq_ok.mpr ⟨_, decrypt_eq_ok (wrapError_eq_ok.mp decrypted),
    congrArg Except.ok moved.symm⟩

/-- And a received one through `inboundFields`. -/
theorem prepareInboundEvent_ofService {event arrived : Event} {order : List (String × Bytes)}
    (notDelete : event.operation ≠ .delete) (visits : order.Perm (entries event.metadata).toList)
    (ran : prepareInboundEvent (ofService service random) order event = .ok arrived) :
    inboundFields service random event.table (entries event.fields) (entries event.metadata) =
      .ok (entries arrived.fields, entries arrived.metadata) := by
  rw [prepareInboundEvent, if_neg notDelete] at ran
  obtain ⟨stored, encrypted, ran⟩ := Fallible.bind_eq_ok.mp ran
  cases ran
  have restored : order.foldl restoreEntry (entries event.fields, entries event.metadata) =
      restoreFromTransit (entries event.fields) (entries event.metadata) := foldl_restore_order visits
  have kept := entries_map_restored (entries event.fields) visits
  apply inboundFields_eq_ok.mpr
  rw [← restored]
  exact ⟨encrypt_eq_ok (wrapError_eq_ok.mp encrypted), kept⟩

end Service

def userEvent : Event := ⟨"users", "event", .insert, some (namedUser storedAnn).fields, some travelling⟩

def userRow : Row := ⟨some (namedUser storedAnn).fields, some travelling⟩

theorem namedUser_valid : scalarValues.ValidMap (namedUser storedAnn).fields :=
  Values.validMap_of_all (by decide +kernel)

theorem crypto_paths_agree_users :
    Together (Agree scalarValues) (prepareOutboundEvent (ofService senderNames fun _ => zeros) userEvent)
      (prepareOutboundSnapshotRow (ofService senderNames fun _ => zeros) scalarValues "users" userRow) ∧
    Together (Agree scalarValues)
      (prepareInboundEvent (ofService receiverNames fun _ => zeros) travelling.toList userEvent)
      (prepareInboundSnapshotRow (ofService receiverNames fun _ => zeros) scalarValues
        travelling.toList.reverse "users" userRow) := by
  have fields : entries userEvent.fields = entries (payloadFields userRow.payload) := rfl
  have metadata : entries userEvent.metadata = entries userRow.metadata := rfl
  have valid : scalarValues.ValidMap (entries userEvent.fields) := namedUser_valid
  have validToo : scalarValues.ValidMap (entries userEvent.metadata) := travelling_valid
  have sender : (ofService senderNames fun _ => zeros).Lawful scalarValues := ofService_lawful
  have receiver : (ofService receiverNames fun _ => zeros).Lawful scalarValues := ofService_lawful
  constructor
  · exact (crypto_paths_agree sender fields metadata valid validToo).1
  · apply (crypto_paths_agree receiver fields metadata valid validToo).2
    · nofun
    · exact List.Perm.refl _
    · exact List.reverse_perm _

end Transmogr.CryptoPaths
