import Transmogr.InboundPipeline
import Transmogr.KeyManager

/-! Which names of encrypted fields pass through transit. The configuration accepts any name that is
not blank; `ParseTransitKey` accepts lower-case ASCII letters, digits, `_` and `-`. -/
namespace Transmogr

open Json Sql Std

/-- What `unicode.IsLower` and `unicode.IsDigit` say of ASCII. -/
structure CharClasses.Documented (classes : CharClasses) : Prop where
  lower : ∀ c : Char, 'a' ≤ c → c ≤ 'z' → classes.isLower c = true
  digit : ∀ c : Char, '0' ≤ c → c ≤ '9' → classes.isDigit c = true

section Keys

variable {classes : CharClasses} {name : String}

theorem isValidMetadataSegment_of_transit (documented : classes.Documented) {part : List Char}
    (valid : isValidCryptoTransitField part = true) : classes.isValidMetadataSegment part = true := by
  rw [isValidCryptoTransitField, Bool.and_eq_true] at valid
  rw [CharClasses.isValidMetadataSegment, Bool.and_eq_true]
  refine ⟨valid.1, List.all_eq_true.mpr ?_⟩
  intro c mem
  have accepted := List.all_eq_true.mp valid.2 c mem
  simp only [isCryptoTransitChar, Bool.or_eq_true, Bool.and_eq_true, decide_eq_true_eq] at accepted ⊢
  rcases accepted with ((⟨low, high⟩ | ⟨low, high⟩) | underscore) | dash
  · exact .inl (.inl (.inl (documented.lower c low high)))
  · exact .inl (.inl (.inr (documented.digit c low high)))
  · exact .inl (.inr underscore)
  · exact .inr dash

theorem not_mem_dot (valid : isValidCryptoTransitField name.toList = true) : '.' ∉ name.toList := by
  intro mem
  rw [isValidCryptoTransitField, Bool.and_eq_true] at valid
  exact absurd (List.all_eq_true.mp valid.2 '.' mem) (by decide)

/-- The transit key of a name that can travel is a valid metadata key. -/
theorem isValidMetadataKey_transitKey (documented : classes.Documented)
    (valid : isValidCryptoTransitField name.toList = true) :
    classes.isValidMetadataKey (transitKey name) = true := by
  have segments : (transitKey name).toList =
      ['.'].intercalate ["transit".toList, "crypto".toList, name.toList] := by
    have namespaces : transitNamespace = "transit".toList ++ '.' :: ("crypto".toList ++ ['.']) := by
      decide
    rw [toList_transitKey (ne_empty_of_valid valid), namespaces]
    simp only [List.intercalate, List.intersperse, List.flatten_cons, List.flatten_nil,
      List.append_assoc, List.cons_append, List.nil_append, List.append_nil]
  have plain : ∀ part ∈ ["transit".toList, "crypto".toList, name.toList], '.' ∉ part := by
    intro part mem
    simp only [List.mem_cons, List.not_mem_nil, or_false] at mem
    rcases mem with rfl | rfl | rfl
    · decide
    · decide
    · exact not_mem_dot valid
  rw [CharClasses.isValidMetadataKey, segments, List.splitOn_intercalate '.' plain (by simp)]
  simp only [List.all_cons, List.all_nil, Bool.and_true, Bool.and_eq_true]
  refine ⟨?_, ?_, isValidMetadataSegment_of_transit documented valid⟩
  · exact isValidMetadataSegment_of_transit documented (by decide)
  · exact isValidMetadataSegment_of_transit documented (by decide)

end Keys

section Field

variable {service : CryptoService} {table name : String} {fields metadata : Fields}

theorem mem_of_replaceFields {replace : String → FieldCryptoConfig → Bytes → Except String Bytes}
    {result : Fields} (ran : service.replaceFields table fields replace = .ok result) :
    name ∈ result ↔ name ∈ fields := by
  rw [ExtTreeMap.mem_iff_isSome_getElem?, ExtTreeMap.mem_iff_isSome_getElem?]
  cases present : fields[name]? with
  | none => rw [CryptoService.replaceFields_absent ran present]
  | some raw =>
    cases configured : (service.policy table)[name]? with
    | none => rw [CryptoService.replaceFields_unconfigured ran configured, present]
    | some cfg =>
      obtain ⟨value, -, placed⟩ := CryptoService.replaceFields_present ran configured present
      simp [placed]

/-- The receiver finds it again exactly if its name is one that `ParseTransitKey` accepts. -/
theorem mem_restored_iff (gone : fields[name]? = none) (moved : metadata[transitKey name]?.isSome) :
    name ∈ (restoreFromTransit fields metadata).1 ↔ isValidCryptoTransitField name.toList = true := by
  rw [ExtTreeMap.mem_iff_isSome_getElem?, restoreFromTransit_fields, gone]
  by_cases valid : isValidCryptoTransitField name.toList = true
  · simp [valid, moved]
  · simp [valid]

end Field

section Elements

variable {J : Type} {json : Values J} {classes : CharClasses} {sender receiver : CryptoService}
  {table name : String} {random : String → Random}

theorem mem_payloadToFields_iff {fields : Fields} {payload : Option Object}
    (written : marshalPayload json fields = .ok payload) :
    name ∈ payloadToFields payload ↔ name ∈ fields := by
  have same := congrArg Option.isSome (marshalPayload_eq_ok written name)
  rw [Option.isSome_map, Option.isSome_map] at same
  rw [ExtTreeMap.mem_iff_isSome_getElem?, ExtTreeMap.mem_iff_isSome_getElem?, same]

theorem event_field_iff {event sent arrived final : MetaEvent}
    (sends : sender.Encrypts event.table name) (present : name ∈ event.fields)
    (outbound : prepareOutboundEvent sender event = .ok sent)
    (inbound : prepareInboundEvent receiver random sent.received = .ok arrived)
    (dropped : dropEventMetadata classes arrived = .ok final) :
    name ∈ final.fields ↔
      isValidCryptoTransitField name.toList = true ∧ event.operation ≠ .delete := by
  obtain ⟨wire, moves, outbound⟩ := Fallible.bind_eq_ok.mp outbound
  cases outbound
  obtain ⟨gone, moved⟩ := Moves.outbound ⟨sends, ExtTreeMap.mem_iff_isSome_getElem?.mp present⟩
    (wrapError_eq_ok.mp moves)
  obtain ⟨-, rfl⟩ := dropEventMetadata_eq_ok.mp dropped
  by_cases delete : event.operation = .delete
  · cases (if_pos (received_operation.mpr delete)).symm.trans inbound
    refine iff_of_false ?_ fun both => both.2 delete
    simp [ExtTreeMap.mem_iff_isSome_getElem?, MetaEvent.received, ReplicationEvent.received, gone]
  · have notDelete : ({ event with fields := wire.1, metadata := wire.2 } :
        MetaEvent).received.operation ≠ .delete := mt received_operation.mp delete
    obtain ⟨stored, encrypted, rfl⟩ := (prepareInboundEvent_eq_ok notDelete).mp inbound
    change name ∈ stored ↔ _
    rw [mem_of_replaceFields encrypted, and_iff_left delete]
    exact mem_restored_iff gone moved

theorem row_field_iff {row sent arrived final : MetaSnapshotRow} (sends : sender.Encrypts table name)
    (present : name ∈ payloadToFields row.payload)
    (outbound : prepareOutboundSnapshotRow json sender table row = .ok sent)
    (inbound : prepareInboundSnapshotRow json receiver random table (sent.received json) = .ok arrived)
    (dropped : dropRowMetadata classes arrived = .ok final) :
    name ∈ payloadToFields final.payload ↔ isValidCryptoTransitField name.toList = true := by
  obtain ⟨wire, moves, outbound⟩ := Fallible.bind_eq_ok.mp outbound
  obtain ⟨payload, written, outbound⟩ := Fallible.bind_eq_ok.mp outbound
  cases outbound
  obtain ⟨gone, moved⟩ := Moves.outbound ⟨sends, ExtTreeMap.mem_iff_isSome_getElem?.mp present⟩
    (wrapError_eq_ok.mp moves)
  obtain ⟨stored, storedPayload, encrypted, rewritten, rfl⟩ := prepareInboundSnapshotRow_eq_ok.mp inbound
  obtain ⟨-, rfl⟩ := dropRowMetadata_eq_ok.mp dropped
  change name ∈ payloadToFields storedPayload ↔ _
  rw [mem_payloadToFields_iff rewritten, mem_of_replaceFields encrypted]
  exact mem_restored_iff (arrives_without (wrapError_eq_ok.mp written) gone) moved

/-- A row that fails is one that cannot be encrypted or written, or has a key that is not valid. -/
theorem row_fails {row : MetaSnapshotRow}
    (fails : ¬∃ final arrived, prepareInboundSnapshotRow json receiver random table row = .ok arrived ∧
      dropRowMetadata classes arrived = .ok final) :
    (∃ err, receiver.encrypt random table
      (restoreFromTransit (payloadToFields row.payload) row.metadata).1 = .error err) ∨
    (∃ stored err, receiver.encrypt random table
      (restoreFromTransit (payloadToFields row.payload) row.metadata).1 = .ok stored ∧
        marshalPayload json stored = .error err) ∨
    ∃ key, row.KeyLeft key ∧ classes.isValidMetadataKey key = false := by
  cases encrypted : receiver.encrypt random table
      (restoreFromTransit (payloadToFields row.payload) row.metadata).1 with
  | error err => exact .inl ⟨err, rfl⟩
  | ok stored =>
    cases written : marshalPayload json stored with
    | error err => exact .inr (.inl ⟨stored, err, rfl, written⟩)
    | ok payload =>
      by_contra none_invalid
      push Not at none_invalid
      apply fails
      refine ⟨_, _, prepareInboundSnapshotRow_eq_ok.mpr ⟨stored, payload, encrypted, written, rfl⟩,
        dropRowMetadata_eq_ok.mpr ⟨?_, rfl⟩⟩
      intro key mem
      simpa using none_invalid.2.2 key (mem_restored_metadata.mp mem)

end Elements

/-- A configured field is there again after transit exactly if `ParseTransitKey` accepts its name and
it does not travel with a delete, whose fields the receiver does not restore; if the name is accepted,
no error is one about its transit key. -/
theorem transit_names {J : Type} {json : Values J} {classes : CharClasses}
    {sender : CryptoService} (receiver : CryptoService) (random : Nat → String → Random)
    {table name : String} {events sentEvents decodedEvents : List MetaEvent}
    {rows sentRows decodedRows : List MetaSnapshotRow} (documented : classes.Documented)
    (sends : sender.Encrypts table name) (outbound : prepareOutboundBatch sender events = .ok sentEvents)
    (decoded : toReplicationMetaEvents (toProtoMetaEvents sentEvents) = .ok decodedEvents)
    (outboundRows : prepareOutboundSnapshotRows json sender table rows = .ok sentRows)
    (decodedToo : toSnapshotRows json (toProtoSnapshotRows sentRows) = .ok decodedRows) :
    (∀ final, prepareInboundEvents classes receiver random decodedEvents = .ok final →
      List.Forall₂ (fun event result => event.table = table → name ∈ event.fields →
        (name ∈ result.fields ↔
          isValidCryptoTransitField name.toList = true ∧ event.operation ≠ .delete)) events final) ∧
    (∀ final, prepareInboundSnapshotRows json classes receiver random table decodedRows = .ok final →
      List.Forall₂ (fun row result => name ∈ payloadToFields row.payload →
        (name ∈ payloadToFields result.payload ↔ isValidCryptoTransitField name.toList = true))
        rows final) ∧
    (isValidCryptoTransitField name.toList = true →
      (∀ err, prepareInboundEvents classes receiver random decodedEvents = .error err →
        ∃ entry ∈ decodedEvents.zipIdx,
          (entry.1.operation ≠ .delete ∧ ∃ err, receiver.encrypt (random entry.2) entry.1.table
            (restoreFromTransit entry.1.fields entry.1.metadata).1 = .error err) ∨
          ∃ key, key ≠ transitKey name ∧ entry.1.KeyLeft key ∧
            classes.isValidMetadataKey key = false) ∧
      ∀ err, prepareInboundSnapshotRows json classes receiver random table decodedRows = .error err →
        ∃ entry ∈ decodedRows.zipIdx,
          (∃ err, receiver.encrypt (random entry.2) table
            (restoreFromTransit (payloadToFields entry.1.payload) entry.1.metadata).1 = .error err) ∨
          (∃ stored err, receiver.encrypt (random entry.2) table
            (restoreFromTransit (payloadToFields entry.1.payload) entry.1.metadata).1 = .ok stored ∧
              marshalPayload json stored = .error err) ∨
          ∃ key, key ≠ transitKey name ∧ entry.1.KeyLeft key ∧
            classes.isValidMetadataKey key = false) := by
  cases (toReplicationMetaEvents_toProto sentEvents).symm.trans decoded
  cases (toSnapshotRows_toProto sentRows).symm.trans decodedToo
  refine ⟨?_, ?_, ?_⟩
  · intro final inbound
    obtain ⟨arrived, restored, dropped⟩ := Fallible.bind_eq_ok.mp inbound
    apply (Fallible.mapM_carried (fun index => prepareInboundEvent receiver (random index))
      outbound restored dropped).imp
    rintro event result ⟨sent, index, between, out, back, last⟩ rfl present
    exact event_field_iff sends present out back last
  · intro final inbound
    obtain ⟨arrived, restored, dropped⟩ := Fallible.bind_eq_ok.mp inbound
    apply (Fallible.mapM_carried
      (fun index => prepareInboundSnapshotRow json receiver (random index) table)
      outboundRows restored dropped).imp
    rintro row result ⟨sent, index, between, out, back, last⟩ present
    exact row_field_iff sends present out back last
  · intro valid
    have other (key : String) (invalid : classes.isValidMetadataKey key = false) :
        key ≠ transitKey name := by
      rintro rfl
      rw [isValidMetadataKey_transitKey documented valid] at invalid
      cases invalid
    constructor
    · intro err failed
      obtain ⟨entry, mem, fails⟩ := prepareInboundEvents_fails_iff.mp ⟨err, failed⟩
      exact ⟨entry, mem, fails.imp_right fun ⟨key, left, invalid⟩ =>
        ⟨key, other key invalid, left, invalid⟩⟩
    · intro err failed
      obtain ⟨entry, mem, fails⟩ := Fallible.mapM_bind_mapM_fails_iff.mp ⟨err, failed⟩
      refine ⟨entry, mem, (row_fails fails).imp_right fun rest => rest.imp_right ?_⟩
      rintro ⟨key, left, invalid⟩
      exact ⟨key, other key invalid, left, invalid⟩

/-! Users with one encrypted field, between two nodes of the same configuration. -/

def encryptingSpec (field : String) : TransformerSpec := ⟨"crypto", "users", [field], "k", "aes-gcm"⟩

/-- An event whose only field is an encrypted one. -/
def userWith (field : String) (operation : ReplicationOperation) : MetaEvent where
  toReplicationEvent := { userEvent "us" "1" 1 "" with
    operation, fields := .ofList [(field, storedAnn)] }
  metadata := ∅

def roundTrip (field : String) (operation : ReplicationOperation) : Except String (List MetaEvent) := do
  validateCryptoTransformerSpec 0 (encryptingSpec field)
  let node ← newCryptoService openCiphers (usersNode "us" []).keysByID [encryptingSpec field]
  let sent ← prepareOutboundBatch node [userWith field operation]
  let decoded ← toReplicationMetaEvents (toProtoMetaEvents sent)
  prepareInboundEvents asciiClasses node (fun _ _ => zeros) decoded

/-- A name with an upper-case letter is refused as a metadata key, one with a dot is a valid key that
nobody restores, and a delete loses any encrypted field. -/
theorem configured_names_lost :
    validateCryptoTransformerSpec 0 (encryptingSpec "Email") = .ok () ∧
    validateCryptoTransformerSpec 0 (encryptingSpec "home.address") = .ok () ∧
    (match roundTrip "Email" .insert with
      | .error err => some err
      | .ok _ => none) = some "event \"event\" has invalid metadata key \"transit.crypto.Email\"" ∧
    (roundTrip "home.address" .insert).toOption.map (fun final =>
      final.map (·.fields["home.address"]?)) = some [none] ∧
    (roundTrip "name" .insert).toOption.map (fun final =>
      final.map (·.fields["name"]?.isSome)) = some [true] ∧
    (roundTrip "name" .delete).toOption.map (fun final => final.map (·.fields["name"]?)) =
      some [none] := by
  decide +kernel

theorem asciiClasses_documented : asciiClasses.Documented where
  lower _ low high := Bool.and_eq_true_iff.mpr ⟨decide_eq_true low, decide_eq_true high⟩
  digit _ low high := Bool.and_eq_true_iff.mpr ⟨decide_eq_true low, decide_eq_true high⟩

theorem transit_names_users : ∃ sent decoded final,
    prepareOutboundBatch senderNames [namedUser storedAnn, userWith "name" .delete] = .ok sent ∧
      toReplicationMetaEvents (toProtoMetaEvents sent) = .ok decoded ∧
      prepareInboundEvents asciiClasses receiverNames (fun _ _ => zeros) decoded = .ok final ∧
      List.Forall₂ (fun event result => event.table = "users" → "name" ∈ event.fields →
        ("name" ∈ result.fields ↔ isValidCryptoTransitField "name".toList = true ∧
          event.operation ≠ .delete)) [namedUser storedAnn, userWith "name" .delete] final := by
  obtain ⟨sent, outbound⟩ := Fallible.exists_ok (x := prepareOutboundBatch senderNames
    [namedUser storedAnn, userWith "name" .delete]) (by decide +kernel)
  obtain ⟨sentRows, outboundRows⟩ := Fallible.exists_ok (x := prepareOutboundSnapshotRows scalarValues
    senderNames "users" [namedRow storedAnn]) (by decide +kernel)
  have arrives : ((do
      let sent ← prepareOutboundBatch senderNames [namedUser storedAnn, userWith "name" .delete]
      prepareInboundEvents asciiClasses receiverNames (fun _ _ => zeros) (sent.map (·.received))) :
        Except String (List MetaEvent)).toOption.isSome := by decide +kernel
  obtain ⟨final, ran⟩ := Fallible.exists_ok arrives
  obtain ⟨sentToo, again, inbound⟩ := Fallible.bind_eq_ok.mp ran
  cases outbound.symm.trans again
  have decoded := toReplicationMetaEvents_toProto sent
  have sends : senderNames.Encrypts "users" "name" := by
    unfold CryptoService.Encrypts
    decide +kernel
  have names := transit_names receiverNames (fun _ _ => zeros) asciiClasses_documented sends outbound
    decoded outboundRows (toSnapshotRows_toProto sentRows)
  exact ⟨sent, _, final, outbound, decoded, inbound, names.1 final inbound⟩

end Transmogr
