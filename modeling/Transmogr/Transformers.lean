import Transmogr.Codec
import Transmogr.Crypto

/-! The transformers of `replication/transformers`. On the way out encrypted fields are
decrypted and moved into transit metadata; on the way in they are restored from it and
encrypted with the local key, and what is left of the transit metadata is dropped. -/
namespace Transmogr

open Json Sql

def transitNamespace : List Char := "transit.crypto.".toList

def transitKey (field : String) : String :=
  if field = "" then "" else String.ofList (transitNamespace ++ field.toList)

def isCryptoTransitChar (c : Char) : Bool :=
  ('a' ≤ c && c ≤ 'z') || ('0' ≤ c && c ≤ '9') || c == '_' || c == '-'

def isValidCryptoTransitField (field : List Char) : Bool :=
  !field.isEmpty && field.all isCryptoTransitChar

def parseTransitKey (key : String) : Option String :=
  match key.toList.dropPrefix? transitNamespace with
  | none => none
  | some field => if isValidCryptoTransitField field then some (String.ofList field) else none

theorem ne_empty_of_valid {name : String} (valid : isValidCryptoTransitField name.toList = true) :
    name ≠ "" := by
  rintro rfl
  exact absurd valid (by decide)

theorem parseTransitKey_eq_some {key field : String} :
    parseTransitKey key = some field ↔
      key = transitKey field ∧ isValidCryptoTransitField field.toList = true := by
  unfold parseTransitKey
  constructor
  · intro parsed
    split at parsed
    · cases parsed
    · next rest stripped =>
      split at parsed
      · next valid =>
        cases parsed
        obtain ⟨start, split, same⟩ := List.dropPrefix?_eq_some_iff.mp stripped
        have validName : isValidCryptoTransitField (String.ofList rest).toList = true := by
          rw [String.toList_ofList]
          exact valid
        refine ⟨?_, validName⟩
        rw [transitKey, if_neg (ne_empty_of_valid validName), String.toList_ofList, ← eq_of_beq same,
          ← split, String.ofList_toList]
      · cases parsed
  · rintro ⟨rfl, valid⟩
    have stripped : (transitKey field).toList.dropPrefix? transitNamespace = some field.toList := by
      rw [transitKey, if_neg (ne_empty_of_valid valid), String.toList_ofList]
      exact List.dropPrefix?_append_of_beq _ (beq_self_eq_true _)
    rw [stripped]
    simp [valid]

theorem toList_transitKey {field : String} (named : field ≠ "") :
    (transitKey field).toList = transitNamespace ++ field.toList := by
  rw [transitKey, if_neg named, String.toList_ofList]

theorem transitKey_eq_empty {field : String} (empty : transitKey field = "") : field = "" := by
  by_contra named
  have text := congrArg List.length (toList_transitKey named)
  have long : transitNamespace.length = 15 := by decide
  rw [empty, List.length_append, long, String.toList_empty, List.length_nil] at text
  omega

theorem transitKey_injective {a b : String} (same : transitKey a = transitKey b) : a = b := by
  by_cases named : a = ""
  · rw [named, transitKey, if_pos rfl] at same
    rw [named, transitKey_eq_empty same.symm]
  · by_cases namedToo : b = ""
    · rw [namedToo, transitKey, transitKey, if_pos rfl, ← transitKey] at same
      exact absurd (transitKey_eq_empty same) named
    · have texts := congrArg String.toList same
      rw [toList_transitKey named, toList_transitKey namedToo] at texts
      exact String.toList_inj.mp (List.append_cancel_left texts)

/-- `unicode.IsLower` and `unicode.IsDigit` -/
structure CharClasses where
  isLower : Char → Bool
  isDigit : Char → Bool

def CharClasses.isValidMetadataSegment (classes : CharClasses) (part : List Char) : Bool :=
  !part.isEmpty && part.all fun c => classes.isLower c || classes.isDigit c || c == '_' || c == '-'

/-- The empty key, dots at either end and two dots in a row have an empty segment. -/
def CharClasses.isValidMetadataKey (classes : CharClasses) (key : String) : Bool :=
  (key.toList.splitOn '.').all classes.isValidMetadataSegment

def isTransitMetadataKey (key : String) : Bool :=
  key == "transit" || "transit.".toList.isPrefixOf key.toList

def moveToTransit (names : List String) (fields metadata : Fields) : Fields × Fields :=
  names.foldl (fun state field =>
    match state.1[field]? with
    | none => state
    | some value => (state.1.erase field, state.2.insert (transitKey field) value)) (fields, metadata)

/-- What `PrepareOutboundBatch` and `PrepareOutboundSnapshotRows` do with one field map. -/
def outboundFields (service : CryptoService) (table : String) (fields metadata : Fields) :
    Except String (Fields × Fields) := do
  let fields ← service.decrypt table fields
  return moveToTransit (service.encryptedFieldNames table) fields metadata

def prepareOutboundEvent (service : CryptoService) (event : MetaEvent) : Except String MetaEvent := do
  let (fields, metadata) ← wrapError ("prepare outbound batch event " ++ quoted event.eventID)
    (outboundFields service event.table event.fields event.metadata)
  return { event with fields, metadata }

def prepareOutboundBatch (service : CryptoService) (events : List MetaEvent) :
    Except String (List MetaEvent) :=
  events.mapM (prepareOutboundEvent service)

section Rows

variable {J : Type} (json : Values J)

def prepareOutboundSnapshotRow (service : CryptoService) (table : String) (row : MetaSnapshotRow) :
    Except String MetaSnapshotRow := do
  let (fields, metadata) ← wrapError "prepare outbound snapshot row"
    (outboundFields service table (payloadToFields row.payload) row.metadata)
  let payload ← wrapError "encode outbound snapshot row payload" (marshalPayload json fields)
  return { row with payload, metadata }

def prepareOutboundSnapshotRows (service : CryptoService) (table : String)
    (rows : List MetaSnapshotRow) : Except String (List MetaSnapshotRow) :=
  rows.mapM (prepareOutboundSnapshotRow json service table)

end Rows

def restoreEntry (state : Fields × Fields) (entry : String × Bytes) : Fields × Fields :=
  match parseTransitKey entry.1 with
  | none => state
  | some field => (state.1.insert field entry.2, state.2.erase entry.1)

def restoreFromTransit (fields metadata : Fields) : Fields × Fields :=
  metadata.toList.foldl restoreEntry (fields, metadata)

/-- What `PrepareInboundEvents` and `PrepareInboundSnapshotRows` do with one field map. -/
def inboundFields (service : CryptoService) (random : String → Random) (table : String)
    (fields metadata : Fields) : Except String (Fields × Fields) := do
  let (fields, metadata) := restoreFromTransit fields metadata
  let fields ← service.encrypt random table fields
  return (fields, metadata)

/-- Deletes are passed on as they are. -/
def prepareInboundEvent (service : CryptoService) (random : String → Random) (event : MetaEvent) :
    Except String MetaEvent :=
  if event.operation = .delete then .ok event
  else do
    let (fields, metadata) ← wrapError ("prepare inbound event " ++ quoted event.eventID)
      (inboundFields service random event.table event.fields event.metadata)
    return { event with fields, metadata }

/-- The loop of the metadata transformer; `context` says whose metadata it is. -/
def dropTransitMetadata (classes : CharClasses) (context : String) (metadata : Fields) :
    Except String Fields :=
  match metadata.keys.find? fun key => !classes.isValidMetadataKey key with
  | some key => .error (context ++ " has invalid metadata key " ++ quoted key)
  | none => .ok (metadata.filter fun key _ => !isTransitMetadataKey key)

def dropEventMetadata (classes : CharClasses) (event : MetaEvent) : Except String MetaEvent := do
  let metadata ← dropTransitMetadata classes ("event " ++ quoted event.eventID) event.metadata
  return { event with metadata }

/-- `Inbound.PrepareEvents`: the crypto transformer, then the metadata transformer. The
random bytes are those of each event and field. -/
def prepareInboundEvents (classes : CharClasses) (service : CryptoService)
    (random : Nat → String → Random) (events : List MetaEvent) : Except String (List MetaEvent) := do
  let events ← events.zipIdx.mapM fun entry => prepareInboundEvent service (random entry.2) entry.1
  events.mapM (dropEventMetadata classes)

section Rows

variable {J : Type} (json : Values J)

def prepareInboundSnapshotRow (service : CryptoService) (random : String → Random) (table : String)
    (row : MetaSnapshotRow) : Except String MetaSnapshotRow := do
  let (fields, metadata) ← wrapError "prepare inbound snapshot row"
    (inboundFields service random table (payloadToFields row.payload) row.metadata)
  let payload ← wrapError "encode inbound snapshot row payload" (marshalPayload json fields)
  return { row with payload, metadata }

def dropRowMetadata (classes : CharClasses) (row : MetaSnapshotRow) : Except String MetaSnapshotRow := do
  let metadata ← dropTransitMetadata classes "snapshot row" row.metadata
  return { row with metadata }

/-- `Inbound.PrepareSnapshotRows` -/
def prepareInboundSnapshotRows (classes : CharClasses) (service : CryptoService)
    (random : Nat → String → Random) (table : String) (rows : List MetaSnapshotRow) :
    Except String (List MetaSnapshotRow) := do
  let rows ← rows.zipIdx.mapM fun entry =>
    prepareInboundSnapshotRow json service (random entry.2) table entry.1
  rows.mapM (dropRowMetadata classes)

end Rows

section Move

variable {names : List String} {fields metadata : Fields}

theorem moveToTransit_cons (field : String) :
    moveToTransit (field :: names) fields metadata =
      match fields[field]? with
      | none => moveToTransit names fields metadata
      | some value => moveToTransit names (fields.erase field)
          (metadata.insert (transitKey field) value) := by
  simp only [moveToTransit, List.foldl_cons]
  cases fields[field]? <;> rfl

theorem moveToTransit_fields {name : String} :
    (moveToTransit names fields metadata).1[name]? = if name ∈ names then none else fields[name]? := by
  induction names generalizing fields metadata with
  | nil => rfl
  | cons field names ih =>
    rw [moveToTransit_cons]
    cases present : fields[field]? with
    | none =>
      rw [ih]
      by_cases same : name = field
      · subst same
        simp [present]
      · simp [same]
    | some value =>
      rw [ih, Std.ExtTreeMap.getElem?_erase]
      by_cases same : name = field
      · subst same
        simp
      · simp [same, Ne.symm same]

theorem moveToTransit_metadata_other {key : String}
    (other : ∀ name ∈ names, fields[name]?.isSome → transitKey name ≠ key) :
    (moveToTransit names fields metadata).2[key]? = metadata[key]? := by
  induction names generalizing fields metadata with
  | nil => rfl
  | cons field names ih =>
    obtain ⟨head, tail⟩ := List.forall_mem_cons.mp other
    rw [moveToTransit_cons]
    cases present : fields[field]? with
    | none => exact ih tail
    | some value =>
      have differs : transitKey field ≠ key := head (by rw [present]; rfl)
      rw [ih, Std.ExtTreeMap.getElem?_insert]
      · simp [differs]
      · intro name mem kept
        apply tail name mem
        rw [Std.ExtTreeMap.getElem?_erase] at kept
        split at kept
        · cases kept
        · exact kept

theorem moveToTransit_metadata {name : String} {value : Bytes} (distinct : names.Nodup)
    (mem : name ∈ names) (present : fields[name]? = some value) :
    (moveToTransit names fields metadata).2[transitKey name]? = some value := by
  induction names generalizing fields metadata with
  | nil => cases mem
  | cons field names ih =>
    obtain ⟨fresh, distinctRest⟩ := List.nodup_cons.mp distinct
    rw [moveToTransit_cons]
    by_cases same : name = field
    · subst same
      simp only [present]
      -- the names that follow have other keys
      rw [moveToTransit_metadata_other, Std.ExtTreeMap.getElem?_insert_self]
      intro other inside _ clash
      exact fresh (transitKey_injective clash ▸ inside)
    · have later := (List.mem_cons.mp mem).resolve_left same
      cases fields[field]? with
      | none => exact ih distinctRest later present
      | some moved =>
        apply ih distinctRest later
        rw [Std.ExtTreeMap.getElem?_erase]
        simp [Ne.symm same, present]

end Move

section Restore

variable {entries : List (String × Bytes)} {fields metadata : Fields}

theorem foldl_restore_other {name : String} {state : Fields × Fields}
    (other : ∀ entry ∈ entries, parseTransitKey entry.1 ≠ some name) :
    (entries.foldl restoreEntry state).1[name]? = state.1[name]? := by
  induction entries generalizing state with
  | nil => rfl
  | cons entry entries ih =>
    obtain ⟨head, tail⟩ := List.forall_mem_cons.mp other
    rw [List.foldl_cons, ih tail]
    unfold restoreEntry
    cases parsed : parseTransitKey entry.1 with
    | none => rfl
    | some field =>
      have differs : field ≠ name := fun same => head (by rw [parsed, same])
      simp [Std.ExtTreeMap.getElem?_insert, differs]

theorem foldl_restore_mem {name key : String} {value : Bytes} {state : Fields × Fields}
    (distinct : entries.Pairwise fun a b => a.1 ≠ b.1) (mem : (key, value) ∈ entries)
    (parsed : parseTransitKey key = some name) :
    (entries.foldl restoreEntry state).1[name]? = some value := by
  induction entries generalizing state with
  | nil => cases mem
  | cons entry entries ih =>
    obtain ⟨apart, distinctRest⟩ := List.pairwise_cons.mp distinct
    rw [List.foldl_cons]
    cases List.mem_cons.mp mem with
    | inr later => exact ih distinctRest later
    | inl here =>
      subst here
      rw [foldl_restore_other]
      · simp [restoreEntry, parsed]
      · -- a key is parsed to one name only, and comes once
        intro other inside again
        have sameKey := (parseTransitKey_eq_some.mp again).1.trans (parseTransitKey_eq_some.mp parsed).1.symm
        exact apart other inside sameKey.symm

theorem foldl_restore_metadata {key : String} {value : Bytes} {state : Fields × Fields}
    (left : (entries.foldl restoreEntry state).2[key]? = some value) :
    state.2[key]? = some value ∧ ∀ entry ∈ entries, entry.1 = key → parseTransitKey key = none := by
  induction entries generalizing state with
  | nil => exact ⟨left, fun _ mem => (nomatch mem)⟩
  | cons entry entries ih =>
    rw [List.foldl_cons] at left
    obtain ⟨kept, rest⟩ := ih left
    unfold restoreEntry at kept
    cases parsed : parseTransitKey entry.1 with
    | none =>
      rw [parsed] at kept
      exact ⟨kept, List.forall_mem_cons.mpr ⟨fun same => same ▸ parsed, rest⟩⟩
    | some field =>
      simp only [parsed, Std.ExtTreeMap.getElem?_erase] at kept
      split at kept
      · cases kept
      · next differs =>
        refine ⟨kept, List.forall_mem_cons.mpr ⟨fun same => ?_, rest⟩⟩
        exact absurd (Std.LawfulEqOrd.compare_eq_iff_eq.mpr same) differs

theorem metadata_distinct : metadata.toList.Pairwise fun a b => a.1 ≠ b.1 :=
  Std.ExtTreeMap.distinct_keys_toList.imp fun differ same =>
    differ (Std.LawfulEqOrd.compare_eq_iff_eq.mpr same)

theorem foldl_restore_kept {key : String} {state : Fields × Fields}
    (unparsed : parseTransitKey key = none) :
    (entries.foldl restoreEntry state).2[key]? = state.2[key]? := by
  induction entries generalizing state with
  | nil => rfl
  | cons entry entries ih =>
    rw [List.foldl_cons, ih]
    unfold restoreEntry
    cases parsed : parseTransitKey entry.1 with
    | none => rfl
    | some field =>
      have differs : entry.1 ≠ key := by
        rintro rfl
        rw [unparsed] at parsed
        cases parsed
      simp [Std.ExtTreeMap.getElem?_erase, differs]

/-- Of the metadata exactly the crypto transit keys go. -/
theorem getElem?_restored_metadata (order : entries.Perm metadata.toList) (key : String) :
    (entries.foldl restoreEntry (fields, metadata)).2[key]? =
      if (parseTransitKey key).isSome then none else metadata[key]? := by
  cases parsed : parseTransitKey key with
  | none => exact foldl_restore_kept parsed
  | some name =>
    cases left : (entries.foldl restoreEntry (fields, metadata)).2[key]? with
    | none => rfl
    | some value =>
      obtain ⟨kept, unparsed⟩ := foldl_restore_metadata left
      have visited := order.mem_iff.mpr (Std.ExtTreeMap.mem_toList_iff_getElem?_eq_some.mpr kept)
      rw [unparsed _ visited rfl] at parsed
      cases parsed

/-- A field has the value of its transit key if there is one. -/
theorem getElem?_restored_fields (order : entries.Perm metadata.toList) (name : String) :
    (entries.foldl restoreEntry (fields, metadata)).1[name]? =
      ((if isValidCryptoTransitField name.toList then metadata[transitKey name]? else none) <|>
        fields[name]?) := by
  have distinct : entries.Pairwise fun a b => a.1 ≠ b.1 :=
    (order.pairwise_iff fun differ => differ.symm).mpr metadata_distinct
  have other (none_moved : isValidCryptoTransitField name.toList = true →
      metadata[transitKey name]? = none) :
      (entries.foldl restoreEntry (fields, metadata)).1[name]? = fields[name]? := by
    apply foldl_restore_other
    intro entry mem parsed
    obtain ⟨key, valid⟩ := parseTransitKey_eq_some.mp parsed
    have present := Std.ExtTreeMap.mem_toList_iff_getElem?_eq_some.mp (order.mem_iff.mp mem)
    rw [key, none_moved valid] at present
    cases present
  by_cases valid : isValidCryptoTransitField name.toList = true
  · rw [if_pos valid]
    cases moved : metadata[transitKey name]? with
    | none => exact other fun _ => moved
    | some value =>
      apply foldl_restore_mem distinct
      · exact order.mem_iff.mpr (Std.ExtTreeMap.mem_toList_iff_getElem?_eq_some.mpr moved)
      · exact parseTransitKey_eq_some.mpr ⟨rfl, valid⟩
  · rw [if_neg valid]
    exact other fun is_valid => absurd is_valid valid

/-- It does not matter in which order `range` visits the metadata. -/
theorem foldl_restore_order (order : entries.Perm metadata.toList) :
    entries.foldl restoreEntry (fields, metadata) = restoreFromTransit fields metadata := by
  apply Prod.ext
  · apply Std.ExtTreeMap.ext_getElem?
    intro name
    rw [restoreFromTransit, getElem?_restored_fields order, getElem?_restored_fields (List.Perm.refl _)]
  · apply Std.ExtTreeMap.ext_getElem?
    intro key
    rw [restoreFromTransit, getElem?_restored_metadata order,
      getElem?_restored_metadata (List.Perm.refl _)]

theorem restoreFromTransit_fields (name : String) : (restoreFromTransit fields metadata).1[name]? =
    ((if isValidCryptoTransitField name.toList then metadata[transitKey name]? else none) <|>
      fields[name]?) :=
  getElem?_restored_fields (List.Perm.refl _) name

theorem restoreFromTransit_metadata (key : String) : (restoreFromTransit fields metadata).2[key]? =
    if (parseTransitKey key).isSome then none else metadata[key]? :=
  getElem?_restored_metadata (List.Perm.refl _) key

/-- A field is restored from its transit key, if its name can be one. -/
theorem restoreFromTransit_restored {name : String} {value : Bytes}
    (valid : isValidCryptoTransitField name.toList = true)
    (moved : metadata[transitKey name]? = some value) :
    (restoreFromTransit fields metadata).1[name]? = some value := by
  rw [restoreFromTransit_fields, if_pos valid, moved]
  rfl

theorem restoreFromTransit_other {name : String}
    (other : isValidCryptoTransitField name.toList = true → metadata[transitKey name]? = none) :
    (restoreFromTransit fields metadata).1[name]? = fields[name]? := by
  rw [restoreFromTransit_fields]
  split
  · next valid =>
    rw [other valid]
    rfl
  · rfl

/-- What is left of the metadata was there, and is no crypto transit key. -/
theorem restoreFromTransit_left {key : String} {value : Bytes}
    (left : (restoreFromTransit fields metadata).2[key]? = some value) :
    metadata[key]? = some value ∧ parseTransitKey key = none := by
  rw [restoreFromTransit_metadata] at left
  split at left
  · cases left
  · next unparsed => exact ⟨left, Option.not_isSome_iff_eq_none.mp unparsed⟩

end Restore

end Transmogr
