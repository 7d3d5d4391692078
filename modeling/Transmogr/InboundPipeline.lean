import Transmogr.EncryptedFields

/-! The inbound pipeline: `CryptoInboundTransformer` restores and encrypts the fields that travelled as
metadata, `InboundMetadataTransformer` checks the keys that are left and drops the transit ones. -/
namespace Transmogr

open Json Sql Std

section Drop

variable {classes : CharClasses} {context : String} {metadata final : Fields} {order : List String}

/-- The loop body of the metadata transformer. -/
def dropEntry (classes : CharClasses) (context : String) (metadata : Fields) (key : String) :
    Except String Fields :=
  if !classes.isValidMetadataKey key then
    .error (context ++ " has invalid metadata key " ++ quoted key)
  else .ok (if isTransitMetadataKey key then metadata.erase key else metadata)

theorem dropTransitMetadata_eq_ok : dropTransitMetadata classes context metadata = .ok final ↔
    (∀ key ∈ metadata, classes.isValidMetadataKey key = true) ∧
      final = metadata.filter fun key _ => !isTransitMetadataKey key := by
  rw [dropTransitMetadata]
  cases found : metadata.keys.find? fun key => !classes.isValidMetadataKey key with
  | some key =>
    have mem := ExtTreeMap.mem_keys.mp (List.mem_of_find?_eq_some found)
    have invalid := List.find?_some found
    constructor
    · intro dropped
      cases dropped
    · rintro ⟨valid, -⟩
      simp [valid key mem] at invalid
  | none =>
    have valid : ∀ key ∈ metadata, classes.isValidMetadataKey key = true := by
      intro key mem
      simpa using List.find?_eq_none.mp found key (ExtTreeMap.mem_keys.mpr mem)
    constructor
    · intro dropped
      cases dropped
      exact ⟨valid, rfl⟩
    · rintro ⟨-, rfl⟩
      rfl

/-- The metadata that is left is put back. -/
theorem withDropped_eq_ok {α : Type} (put : Fields → α) {result : α} :
    (do let metadata ← dropTransitMetadata classes context metadata
        return put metadata) = Except.ok result ↔
      (∀ key ∈ metadata, classes.isValidMetadataKey key = true) ∧
        result = put (metadata.filter fun key _ => !isTransitMetadataKey key) := by
  constructor
  · intro ran
    obtain ⟨left, dropped, ran⟩ := Fallible.bind_eq_ok.mp ran
    cases ran
    obtain ⟨valid, rfl⟩ := dropTransitMetadata_eq_ok.mp dropped
    exact ⟨valid, rfl⟩
  · rintro ⟨valid, rfl⟩
    exact Fallible.bind_eq_ok.mpr ⟨_, dropTransitMetadata_eq_ok.mpr ⟨valid, rfl⟩, rfl⟩

theorem getElem?_dropTransit (key : String) :
    (metadata.filter fun key _ => !isTransitMetadataKey key)[key]? =
      if isTransitMetadataKey key then none else metadata[key]? := by
  rw [ExtTreeMap.getElem?_filter']
  cases metadata[key]? with
  | none => simp
  | some value => cases isTransitMetadataKey key <;> simp [Option.filter]

/-- The map without the transit keys among those visited. -/
def eraseTransit (metadata : Fields) (order : List String) : Fields :=
  order.foldl (fun left key => if isTransitMetadataKey key then left.erase key else left) metadata

theorem getElem?_eraseTransit (key : String) : (eraseTransit metadata order)[key]? =
    if key ∈ order ∧ isTransitMetadataKey key = true then none else metadata[key]? := by
  induction order generalizing metadata with
  | nil => simp [eraseTransit]
  | cons first order ih =>
    rw [eraseTransit, List.foldl_cons]
    change (eraseTransit _ order)[key]? = _
    rw [ih]
    by_cases same : key = first
    · subst same
      cases transit : isTransitMetadataKey key <;> simp
    · cases transit : isTransitMetadataKey first <;>
        simp [same, Ne.symm same, ExtTreeMap.getElem?_erase]

theorem foldlM_dropEntry_eq_ok : order.foldlM (dropEntry classes context) metadata = .ok final ↔
    (∀ key ∈ order, classes.isValidMetadataKey key = true) ∧ final = eraseTransit metadata order := by
  induction order generalizing metadata with
  | nil =>
    constructor
    · intro ran
      cases ran
      exact ⟨by simp, rfl⟩
    · rintro ⟨-, rfl⟩
      rfl
  | cons first order ih =>
    rw [List.foldlM_cons, dropEntry]
    cases valid : classes.isValidMetadataKey first with
    | false => simp [valid, bind, Except.bind]
    | true =>
      change List.foldlM (dropEntry classes context) _ order = Except.ok final ↔ _
      rw [ih, List.forall_mem_cons]
      simp [valid, eraseTransit]

/-- It does not matter in which order `range` visits the keys, apart from the key an error names. -/
theorem foldlM_dropEntry_order (visits : order.Perm metadata.keys) :
    order.foldlM (dropEntry classes context) metadata = .ok final ↔
      dropTransitMetadata classes context metadata = .ok final := by
  have visited (key : String) : key ∈ order ↔ key ∈ metadata := by
    rw [visits.mem_iff, ExtTreeMap.mem_keys]
  have same : eraseTransit metadata order =
      metadata.filter fun key _ => !isTransitMetadataKey key := by
    apply ExtTreeMap.ext_getElem?
    intro key
    rw [getElem?_eraseTransit, getElem?_dropTransit]
    by_cases mem : key ∈ metadata
    · simp [visited, mem]
    · simp [visited, mem]
  rw [foldlM_dropEntry_eq_ok, dropTransitMetadata_eq_ok, same]
  simp only [visited]

end Drop

/-- The fields as received, overridden by the values of the keys that `ParseTransitKey` accepts. -/
structure Restored (fields metadata restored : Fields) : Prop where
  overridden : ∀ (key name : String) value, metadata[key]? = some value →
    parseTransitKey key = some name → restored[name]? = some value
  others : ∀ name : String, (∀ key ∈ metadata, parseTransitKey key ≠ some name) →
    restored[name]? = fields[name]?

/-- Every configured field is replaced by a JSON string that holds what its handler made of it. -/
structure Encrypted (service : CryptoService) (random : String → Random) (table : String)
    (restored stored : Fields) : Prop where
  configured : ∀ (name : String) cfg value, (service.policy table)[name]? = some cfg →
    restored[name]? = some value → ∃ key ciphertext, service.getKey cfg.keyID table = .ok key ∧
      encryptValue service.ciphers cfg.handler (random name) key value = .ok ciphertext ∧
      stored[name]? = some (quote (stringOfBytes ciphertext))
  absent : ∀ name : String, restored[name]? = none → stored[name]? = none
  others : ∀ name : String, (service.policy table)[name]? = none → stored[name]? = restored[name]?

/-- Transit metadata is gone, the rest is as it was. -/
def WithoutTransit (metadata final : Fields) : Prop :=
  ∀ key : String, final[key]? = if isTransitMetadataKey key then none else metadata[key]?

section Stages

variable {J : Type} {json : Values J} {classes : CharClasses} {service : CryptoService}
  {random : String → Random} {table : String} {fields metadata stored : Fields}

theorem restoreFromTransit_spec (fields metadata : Fields) :
    Restored fields metadata (restoreFromTransit fields metadata).1 where
  overridden key name value moved parsed := by
    obtain ⟨rfl, valid⟩ := parseTransitKey_eq_some.mp parsed
    exact restoreFromTransit_restored valid moved
  others name none_parsed := by
    apply restoreFromTransit_other
    intro valid
    cases moved : metadata[transitKey name]? with
    | none => rfl
    | some value =>
      have mem : transitKey name ∈ metadata := by simp [ExtTreeMap.mem_iff_isSome_getElem?, moved]
      exact absurd (parseTransitKey_eq_some.mpr ⟨rfl, valid⟩) (none_parsed _ mem)

theorem encrypt_spec (ran : service.encrypt random table fields = .ok stored) :
    Encrypted service random table fields stored where
  configured name cfg value configured present := by
    obtain ⟨raw, made, placed⟩ := CryptoService.replaceFields_present ran configured present
    obtain ⟨key, loaded, made⟩ := Fallible.bind_eq_ok.mp made
    obtain ⟨ciphertext, encrypted, made⟩ := Fallible.bind_eq_ok.mp made
    cases made
    exact ⟨key, ciphertext, loaded, wrapError_eq_ok.mp encrypted, placed⟩
  absent name absent := CryptoService.replaceFields_absent ran absent
  others name unconfigured := CryptoService.replaceFields_unconfigured ran unconfigured

theorem inboundFields_eq_ok {result : Fields × Fields} :
    inboundFields service random table fields metadata = .ok result ↔
      service.encrypt random table (restoreFromTransit fields metadata).1 = .ok result.1 ∧
        result.2 = (restoreFromTransit fields metadata).2 := by
  constructor
  · intro ran
    obtain ⟨stored, encrypted, ran⟩ := Fallible.bind_eq_ok.mp ran
    cases ran
    exact ⟨encrypted, rfl⟩
  · obtain ⟨stored, left⟩ := result
    rintro ⟨encrypted, rfl⟩
    exact Fallible.bind_eq_ok.mpr ⟨stored, encrypted, rfl⟩

/-- A key that is left is one that `ParseTransitKey` does not accept. -/
theorem mem_restored_metadata {key : String} : key ∈ (restoreFromTransit fields metadata).2 ↔
    key ∈ metadata ∧ parseTransitKey key = none := by
  rw [ExtTreeMap.mem_iff_isSome_getElem?, restoreFromTransit_metadata,
    ExtTreeMap.mem_iff_isSome_getElem?]
  cases parseTransitKey key <;> simp

/-- Crypto transit keys are transit keys, so the second stage decides what is left. -/
theorem isTransitMetadataKey_of_parse {key name : String} (parsed : parseTransitKey key = some name) :
    isTransitMetadataKey key = true := by
  obtain ⟨rfl, valid⟩ := parseTransitKey_eq_some.mp parsed
  have namespaced : "transit.".toList <+: (transitKey name).toList := by
    rw [toList_transitKey (ne_empty_of_valid valid)]
    exact List.IsPrefix.trans (by decide) (List.prefix_append transitNamespace name.toList)
  rw [isTransitMetadataKey, List.isPrefixOf_iff_prefix.mpr namespaced, Bool.or_true]

theorem withoutTransit_restored :
    WithoutTransit metadata ((restoreFromTransit fields metadata).2.filter
      fun key _ => !isTransitMetadataKey key) := by
  intro key
  rw [getElem?_dropTransit, restoreFromTransit_metadata]
  cases parsed : parseTransitKey key with
  | none => rfl
  | some name => simp [isTransitMetadataKey_of_parse parsed]

end Stages

/-- What the pipeline makes of one event. -/
structure EventPrepared (service : CryptoService) (random : String → Random)
    (event final : MetaEvent) : Prop where
  same : final.toReplicationEvent = { event.toReplicationEvent with fields := final.fields }
  metadata : WithoutTransit event.metadata final.metadata
  delete : event.operation = .delete → final.fields = event.fields
  fields : event.operation ≠ .delete → ∃ restored, Restored event.fields event.metadata restored ∧
    Encrypted service random event.table restored final.fields

/-- What it makes of one row, whose payload is decoded and written anew. -/
structure RowPrepared {J : Type} (json : Values J) (service : CryptoService)
    (random : String → Random) (table : String) (row final : MetaSnapshotRow) : Prop where
  primaryKey : final.primaryKey = row.primaryKey
  version : final.version = row.version
  metadata : WithoutTransit row.metadata final.metadata
  fields : ∃ restored stored, Restored (payloadToFields row.payload) row.metadata restored ∧
    Encrypted service random table restored stored ∧
    json.SameMap stored (payloadToFields final.payload)

/-- A metadata key left after the crypto step, which passes deletes on as they are. -/
def MetaEvent.KeyLeft (event : MetaEvent) (key : String) : Prop :=
  key ∈ event.metadata ∧ (event.operation = .delete ∨ parseTransitKey key = none)

def MetaSnapshotRow.KeyLeft (row : MetaSnapshotRow) (key : String) : Prop :=
  key ∈ row.metadata ∧ parseTransitKey key = none

section Elements

variable {J : Type} {json : Values J} {classes : CharClasses} {service : CryptoService}
  {random : String → Random} {table : String} {event arrived final : MetaEvent}
  {row rowArrived rowFinal : MetaSnapshotRow}

theorem prepareInboundEvent_of_delete (delete : event.operation = .delete) :
    prepareInboundEvent service random event = .ok event :=
  if_pos delete

theorem prepareInboundEvent_eq_ok (notDelete : event.operation ≠ .delete) :
    prepareInboundEvent service random event = .ok arrived ↔
      ∃ stored, service.encrypt random event.table
          (restoreFromTransit event.fields event.metadata).1 = .ok stored ∧
        arrived = { event with
          fields := stored, metadata := (restoreFromTransit event.fields event.metadata).2 } := by
  rw [prepareInboundEvent, if_neg notDelete]
  constructor
  · intro ran
    obtain ⟨result, inbound, ran⟩ := Fallible.bind_eq_ok.mp ran
    cases ran
    obtain ⟨encrypted, left⟩ := inboundFields_eq_ok.mp (wrapError_eq_ok.mp inbound)
    exact ⟨result.1, encrypted, by rw [← left]⟩
  · rintro ⟨stored, encrypted, rfl⟩
    have inbound : inboundFields service random event.table event.fields event.metadata =
        .ok (stored, (restoreFromTransit event.fields event.metadata).2) :=
      inboundFields_eq_ok.mpr ⟨encrypted, rfl⟩
    exact Fallible.bind_eq_ok.mpr ⟨_, wrapError_eq_ok.mpr inbound, rfl⟩

theorem dropEventMetadata_eq_ok : dropEventMetadata classes event = .ok final ↔
    (∀ key ∈ event.metadata, classes.isValidMetadataKey key = true) ∧
      final = { event with
        metadata := event.metadata.filter fun key _ => !isTransitMetadataKey key } :=
  withDropped_eq_ok fun metadata => ({ event with metadata } : MetaEvent)

theorem eventPrepared (prepared : prepareInboundEvent service random event = .ok arrived)
    (dropped : dropEventMetadata classes arrived = .ok final) :
    EventPrepared service random event final := by
  obtain ⟨-, rfl⟩ := dropEventMetadata_eq_ok.mp dropped
  by_cases delete : event.operation = .delete
  · rw [prepareInboundEvent_of_delete delete] at prepared
    cases prepared
    exact ⟨rfl, getElem?_dropTransit, fun _ => rfl, fun notDelete => absurd delete notDelete⟩
  · obtain ⟨stored, encrypted, rfl⟩ := (prepareInboundEvent_eq_ok delete).mp prepared
    exact ⟨rfl, withoutTransit_restored, fun is_delete => absurd is_delete delete,
      fun _ => ⟨_, restoreFromTransit_spec event.fields event.metadata, encrypt_spec encrypted⟩⟩

theorem event_succeeds_iff :
    (∃ final arrived, prepareInboundEvent service random event = .ok arrived ∧
      dropEventMetadata classes arrived = .ok final) ↔
    (event.operation ≠ .delete → ∃ stored, service.encrypt random event.table
      (restoreFromTransit event.fields event.metadata).1 = .ok stored) ∧
      ∀ key, event.KeyLeft key → classes.isValidMetadataKey key = true := by
  by_cases delete : event.operation = .delete
  · simp [prepareInboundEvent_of_delete delete, dropEventMetadata_eq_ok, MetaEvent.KeyLeft, delete]
  · constructor
    · rintro ⟨final, arrived, prepared, dropped⟩
      obtain ⟨stored, encrypted, rfl⟩ := (prepareInboundEvent_eq_ok delete).mp prepared
      have valid := (dropEventMetadata_eq_ok.mp dropped).1
      refine ⟨fun _ => ⟨stored, encrypted⟩, ?_⟩
      rintro key ⟨mem, left⟩
      exact valid key (mem_restored_metadata.mpr ⟨mem, left.resolve_left delete⟩)
    · rintro ⟨encrypts, valid⟩
      obtain ⟨stored, encrypted⟩ := encrypts delete
      refine ⟨_, _, (prepareInboundEvent_eq_ok delete).mpr ⟨stored, encrypted, rfl⟩,
        dropEventMetadata_eq_ok.mpr ⟨?_, rfl⟩⟩
      intro key mem
      obtain ⟨mem, left⟩ := mem_restored_metadata.mp mem
      exact valid key ⟨mem, .inr left⟩

theorem prepareInboundSnapshotRow_eq_ok :
    prepareInboundSnapshotRow json service random table row = .ok rowArrived ↔
      ∃ stored payload, service.encrypt random table
          (restoreFromTransit (payloadToFields row.payload) row.metadata).1 = .ok stored ∧
        marshalPayload json stored = .ok payload ∧
        rowArrived = { row with
          payload, metadata := (restoreFromTransit (payloadToFields row.payload) row.metadata).2 } := by
  constructor
  · intro ran
    obtain ⟨result, inbound, ran⟩ := Fallible.bind_eq_ok.mp ran
    obtain ⟨payload, written, ran⟩ := Fallible.bind_eq_ok.mp ran
    cases ran
    obtain ⟨encrypted, left⟩ := inboundFields_eq_ok.mp (wrapError_eq_ok.mp inbound)
    exact ⟨result.1, payload, encrypted, wrapError_eq_ok.mp written, by rw [← left]⟩
  · rintro ⟨stored, payload, encrypted, written, rfl⟩
    have inbound : inboundFields service random table (payloadToFields row.payload) row.metadata =
        .ok (stored, (restoreFromTransit (payloadToFields row.payload) row.metadata).2) :=
      inboundFields_eq_ok.mpr ⟨encrypted, rfl⟩
    exact Fallible.bind_eq_ok.mpr ⟨_, wrapError_eq_ok.mpr inbound,
      Fallible.bind_eq_ok.mpr ⟨payload, wrapError_eq_ok.mpr written, rfl⟩⟩

theorem dropRowMetadata_eq_ok : dropRowMetadata classes row = .ok rowFinal ↔
    (∀ key ∈ row.metadata, classes.isValidMetadataKey key = true) ∧
      rowFinal = { row with
        metadata := row.metadata.filter fun key _ => !isTransitMetadataKey key } :=
  withDropped_eq_ok fun metadata => ({ row with metadata } : MetaSnapshotRow)

theorem rowPrepared
    (prepared : prepareInboundSnapshotRow json service random table row = .ok rowArrived)
    (dropped : dropRowMetadata classes rowArrived = .ok rowFinal) :
    RowPrepared json service random table row rowFinal := by
  obtain ⟨-, rfl⟩ := dropRowMetadata_eq_ok.mp dropped
  obtain ⟨stored, payload, encrypted, written, rfl⟩ := prepareInboundSnapshotRow_eq_ok.mp prepared
  exact ⟨rfl, rfl, withoutTransit_restored, _, stored, restoreFromTransit_spec _ _, encrypt_spec encrypted,
    marshalPayload_eq_ok written⟩

theorem restored_valid {fields metadata : Fields} (valid : json.ValidMap fields)
    (validToo : json.ValidMap metadata) :
    json.ValidMap (restoreFromTransit fields metadata).1 := by
  intro name raw present
  rw [restoreFromTransit_fields] at present
  by_cases named : isValidCryptoTransitField name.toList = true
  · rw [if_pos named] at present
    cases moved : metadata[transitKey name]? with
    | none =>
      rw [moved] at present
      exact valid name raw present
    | some value =>
      rw [moved] at present
      cases present
      exact validToo _ _ moved
  · rw [if_neg named] at present
    exact valid name raw present

/-- The payload of a row of JSON values can always be written. -/
theorem row_succeeds_iff (valid : json.ValidMap (payloadToFields row.payload))
    (validToo : json.ValidMap row.metadata) :
    (∃ final arrived, prepareInboundSnapshotRow json service random table row = .ok arrived ∧
      dropRowMetadata classes arrived = .ok final) ↔
    (∃ stored, service.encrypt random table
      (restoreFromTransit (payloadToFields row.payload) row.metadata).1 = .ok stored) ∧
      ∀ key, row.KeyLeft key → classes.isValidMetadataKey key = true := by
  constructor
  · rintro ⟨final, arrived, prepared, dropped⟩
    obtain ⟨stored, payload, encrypted, -, rfl⟩ := prepareInboundSnapshotRow_eq_ok.mp prepared
    have keys := (dropRowMetadata_eq_ok.mp dropped).1
    exact ⟨⟨stored, encrypted⟩, fun key left => keys key (mem_restored_metadata.mpr left)⟩
  · rintro ⟨⟨stored, encrypted⟩, keys⟩
    have validStored : json.ValidMap stored := by
      apply encrypt_valid encrypted
      intro name raw unconfigured present
      rw [CryptoService.replaceFields_unconfigured encrypted (not_encrypts.mp unconfigured)] at present
      exact restored_valid valid validToo name raw present
    obtain ⟨payload, written, -⟩ := marshalPayload_same validStored
    refine ⟨_, _, prepareInboundSnapshotRow_eq_ok.mpr ⟨stored, payload, encrypted, written, rfl⟩,
      dropRowMetadata_eq_ok.mpr ⟨?_, rfl⟩⟩
    exact fun key mem => keys key (mem_restored_metadata.mp mem)

end Elements

section Lists

variable {J : Type} {json : Values J} {classes : CharClasses} {service : CryptoService}
  {random : Nat → String → Random} {table : String} {events : List MetaEvent}
  {rows : List MetaSnapshotRow}

theorem prepareInboundEvents_eq_ok {final : List MetaEvent} :
    prepareInboundEvents classes service random events = .ok final ↔
      List.Forall₂ (fun entry result => ∃ arrived,
        prepareInboundEvent service (random entry.2) entry.1 = .ok arrived ∧
        dropEventMetadata classes arrived = .ok result) events.zipIdx final :=
  Fallible.mapM_bind_mapM_eq_ok

theorem prepareInboundSnapshotRows_eq_ok {final : List MetaSnapshotRow} :
    prepareInboundSnapshotRows json classes service random table rows = .ok final ↔
      List.Forall₂ (fun entry result => ∃ arrived,
        prepareInboundSnapshotRow json service (random entry.2) table entry.1 = .ok arrived ∧
        dropRowMetadata classes arrived = .ok result) rows.zipIdx final :=
  Fallible.mapM_bind_mapM_eq_ok

/-- The events fail exactly when an encryption fails or a key that is left is not valid. -/
theorem prepareInboundEvents_fails_iff :
    (∃ err, prepareInboundEvents classes service random events = .error err) ↔
      ∃ entry ∈ events.zipIdx,
        (entry.1.operation ≠ .delete ∧ ∃ err, service.encrypt (random entry.2) entry.1.table
          (restoreFromTransit entry.1.fields entry.1.metadata).1 = .error err) ∨
        ∃ key, entry.1.KeyLeft key ∧ classes.isValidMetadataKey key = false := by
  refine Fallible.mapM_bind_mapM_fails_iff.trans (exists_congr fun entry => and_congr_right fun _ => ?_)
  rw [event_succeeds_iff, Fallible.exists_error_iff, not_and_or]
  simp [Classical.not_imp]

theorem prepareInboundSnapshotRows_fails_iff
    (valid : ∀ row ∈ rows, json.ValidMap (payloadToFields row.payload) ∧ json.ValidMap row.metadata) :
    (∃ err, prepareInboundSnapshotRows json classes service random table rows = .error err) ↔
      ∃ entry ∈ rows.zipIdx,
        (∃ err, service.encrypt (random entry.2) table
          (restoreFromTransit (payloadToFields entry.1.payload) entry.1.metadata).1 = .error err) ∨
        ∃ key, entry.1.KeyLeft key ∧ classes.isValidMetadataKey key = false := by
  refine Fallible.mapM_bind_mapM_fails_iff.trans
    (exists_congr fun entry => and_congr_right fun mem => ?_)
  obtain ⟨validPayload, validMetadata⟩ := valid entry.1 (List.fst_mem_of_mem_zipIdx mem)
  rw [row_succeeds_iff validPayload validMetadata, Fallible.exists_error_iff, not_and_or]
  simp

end Lists

/-- The inbound pipeline lets no transit metadata through and loses nothing else: what it returns for
events and rows, and exactly when it fails. -/
theorem inbound_pipeline {J : Type} {json : Values J} {classes : CharClasses}
    {service : CryptoService} {random : Nat → String → Random} {events : List MetaEvent}
    {table : String} {rows : List MetaSnapshotRow}
    (valid : ∀ row ∈ rows, json.ValidMap (payloadToFields row.payload) ∧ json.ValidMap row.metadata) :
    (∀ final, prepareInboundEvents classes service random events = .ok final →
      List.Forall₂ (fun entry result => EventPrepared service (random entry.2) entry.1 result)
        events.zipIdx final) ∧
    ((∃ err, prepareInboundEvents classes service random events = .error err) ↔
      ∃ entry ∈ events.zipIdx,
        (entry.1.operation ≠ .delete ∧ ∃ err, service.encrypt (random entry.2) entry.1.table
          (restoreFromTransit entry.1.fields entry.1.metadata).1 = .error err) ∨
        ∃ key, entry.1.KeyLeft key ∧ classes.isValidMetadataKey key = false) ∧
    (∀ final, prepareInboundSnapshotRows json classes service random table rows = .ok final →
      List.Forall₂ (fun entry result => RowPrepared json service (random entry.2) table entry.1 result)
        rows.zipIdx final) ∧
    ((∃ err, prepareInboundSnapshotRows json classes service random table rows = .error err) ↔
      ∃ entry ∈ rows.zipIdx,
        (∃ err, service.encrypt (random entry.2) table
          (restoreFromTransit (payloadToFields entry.1.payload) entry.1.metadata).1 = .error err) ∨
        ∃ key, entry.1.KeyLeft key ∧ classes.isValidMetadataKey key = false) := by
  refine ⟨?_, prepareInboundEvents_fails_iff, ?_, prepareInboundSnapshotRows_fails_iff valid⟩
  · intro final ran
    apply (prepareInboundEvents_eq_ok.mp ran).imp
    rintro entry result ⟨arrived, prepared, dropped⟩
    exact eventPrepared prepared dropped
  · intro final ran
    apply (prepareInboundSnapshotRows_eq_ok.mp ran).imp
    rintro entry result ⟨arrived, prepared, dropped⟩
    exact rowPrepared prepared dropped

/-- A name that travels as metadata, beside metadata of its own. -/
def travelling : Fields := .ofList [("trace", Json.quote "t"), ("transit.crypto.name", Json.quote "ann"),
  ("transit.other", Json.quote "o")]

def travellingUser : MetaEvent :=
  { toReplicationEvent := { userEvent "us" "1" 1 "" with fields := .ofList [("id", Json.quote "1")] }
    metadata := travelling }

def travellingRow : MetaSnapshotRow :=
  ⟨⟨userKey "1", some (.ofList [("id", Json.quote "1")]), 3⟩, travelling⟩

theorem travelling_valid : scalarValues.ValidMap travelling :=
  Values.validMap_of_all (by decide +kernel)

theorem travellingRow_valid : scalarValues.ValidMap (payloadToFields travellingRow.payload) :=
  Values.validMap_of_all (by decide +kernel)

theorem inbound_pipeline_users :
    (∃ final, prepareInboundEvents asciiClasses receiverNames (fun _ _ => zeros) [travellingUser] =
        .ok final ∧
      List.Forall₂ (fun entry result => EventPrepared receiverNames (fun _ => zeros) entry.1 result)
        [(travellingUser, 0)] final) ∧
    ∃ final, prepareInboundSnapshotRows scalarValues asciiClasses receiverNames (fun _ _ => zeros)
        "users" [travellingRow] = .ok final ∧
      List.Forall₂ (fun entry result =>
        RowPrepared scalarValues receiverNames (fun _ => zeros) "users" entry.1 result)
        [(travellingRow, 0)] final := by
  have pipeline := @inbound_pipeline Scalar scalarValues asciiClasses receiverNames (fun _ _ => zeros)
    [travellingUser] "users" [travellingRow] (by
      intro row mem
      rw [List.mem_singleton.mp mem]
      exact ⟨travellingRow_valid, travelling_valid⟩)
  obtain ⟨events, prepared⟩ := Fallible.exists_ok (x := prepareInboundEvents asciiClasses receiverNames
    (fun _ _ => zeros) [travellingUser]) (by decide +kernel)
  obtain ⟨rows, preparedRows⟩ := Fallible.exists_ok (x := prepareInboundSnapshotRows scalarValues
    asciiClasses receiverNames (fun _ _ => zeros) "users" [travellingRow]) (by decide +kernel)
  exact ⟨⟨events, prepared, pipeline.1 events prepared⟩,
    rows, preparedRows, pipeline.2.2.1 rows preparedRows⟩

end Transmogr
