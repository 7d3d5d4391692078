import Transmogr.Changefeed
import Transmogr.CipherColumns
import Transmogr.PrefixCodes

/-! Event ids. `eventIDFromChange` writes the change to a hash, with the length of every string and
the number of key parts in front. A Go string is any bytes here, UTF-8 or not. -/
namespace Transmogr.EventIDs

open CryptoService PrefixCodes

structure KeyPart where
  column : Bytes
  type : Bytes
  value : Bytes
  deriving DecidableEq

/-- What an event id is made of. -/
structure Change where
  table : Bytes
  primaryKey : List KeyPart
  version : Int
  operation : Bytes
  deriving DecidableEq

/-- All that was written to a `hash.Hash`. -/
abbrev Hasher := Bytes

def writeLengthPrefixedBytes (hasher : Hasher) (value : Bytes) : Hasher :=
  hasher ++ Json.formatInt value.length ++ [0x3a] ++ value

def writeLengthPrefixedString (hasher : Hasher) (value : Bytes) : Hasher :=
  writeLengthPrefixedBytes hasher value

def writePrimaryKeyParts (hasher : Hasher) (parts : List KeyPart) : Hasher :=
  parts.foldl (fun hasher part =>
    let hasher := writeLengthPrefixedString hasher part.column
    let hasher := writeLengthPrefixedString hasher part.type
    writeLengthPrefixedBytes hasher part.value) (hasher ++ Json.formatInt parts.length ++ [0x3a])

/-- What `eventIDFromChange` feeds to the hash. -/
def hashed (change : Change) : Hasher :=
  let hasher := writeLengthPrefixedString [] change.table
  let hasher := writePrimaryKeyParts hasher change.primaryKey
  let hasher := writeLengthPrefixedString hasher (Json.formatInt change.version)
  writeLengthPrefixedString hasher change.operation

def eventIDFromChange (sha256 : Bytes → Bytes) (change : Change) : Bytes :=
  hexDigits (sha256 (hashed change))

/-- A length or a count and the colon after it. -/
def countWord (n : Nat) : Bytes := Json.formatInt n ++ [0x3a]

def bytesWord (value : Bytes) : Bytes := countWord value.length ++ value

def partWord (part : KeyPart) : Bytes :=
  bytesWord part.column ++ (bytesWord part.type ++ bytesWord part.value)

def keyWord (parts : List KeyPart) : Bytes := countWord parts.length ++ parts.flatMap partWord

theorem formatInt_injective : Function.Injective Json.formatInt := by
  intro m n same
  have read := congrArg Json.readInt same
  rw [Json.readInt_formatInt, Json.readInt_formatInt] at read
  exact Option.some.inj read

theorem countWord_prefixFree : PrefixFree countWord := by
  apply prefixFree_terminated
  · intro m n same
    exact Int.ofNat.inj (formatInt_injective same)
  · intro n mem
    rcases Json.formatInt_bytes n 0x3a mem with digit | minus
    · cases digit
    · cases minus

theorem bytesWord_prefixFree : PrefixFree bytesWord := by
  have counted := countWord_prefixFree.counted (prefixFree_singleton (γ := UInt8))
  simp only [List.flatMap_singleton'] at counted
  exact counted

theorem partWord_prefixFree : PrefixFree partWord := by
  have columns := bytesWord_prefixFree.pair (bytesWord_prefixFree.pair bytesWord_prefixFree)
  apply columns.comp (f := fun part : KeyPart => (part.column, part.type, part.value))
  rintro ⟨⟩ ⟨⟩ same
  simpa using same

theorem keyWord_prefixFree : PrefixFree keyWord :=
  countWord_prefixFree.counted partWord_prefixFree

theorem writeLengthPrefixedBytes_eq (hasher value : Bytes) :
    writeLengthPrefixedBytes hasher value = hasher ++ bytesWord value := by
  simp [writeLengthPrefixedBytes, bytesWord, countWord]

theorem writePrimaryKeyParts_eq (hasher : Hasher) (parts : List KeyPart) :
    writePrimaryKeyParts hasher parts = hasher ++ keyWord parts := by
  have loop : ∀ written : Hasher, parts.foldl (fun hasher part => hasher ++ partWord part) written =
      written ++ parts.flatMap partWord := by
    induction parts with
    | nil => simp
    | cons part parts ih =>
      intro written
      rw [List.foldl_cons, ih, List.flatMap_cons, List.append_assoc]
  have step (hasher : Hasher) (part : KeyPart) :
      writeLengthPrefixedBytes (writeLengthPrefixedString (writeLengthPrefixedString hasher part.column)
        part.type) part.value = hasher ++ partWord part := by
    simp [writeLengthPrefixedString, writeLengthPrefixedBytes_eq, partWord]
  simp only [writePrimaryKeyParts, step, loop, keyWord, countWord, List.append_assoc]

theorem hashed_eq (change : Change) :
    hashed change = bytesWord change.table ++ (keyWord change.primaryKey ++
      (bytesWord (Json.formatInt change.version) ++ bytesWord change.operation)) := by
  simp [hashed, writeLengthPrefixedString, writeLengthPrefixedBytes_eq, writePrimaryKeyParts_eq]

theorem hashed_injective : Function.Injective hashed := by
  have versions : PrefixFree fun version => bytesWord (Json.formatInt version) :=
    bytesWord_prefixFree.comp formatInt_injective
  have words := bytesWord_prefixFree.pair
    (keyWord_prefixFree.pair (versions.pair bytesWord_prefixFree))
  intro a b same
  rw [hashed_eq, hashed_eq] at same
  have equal := @PrefixFree.injective _ _ _ words
    (a.table, a.primaryKey, a.version, a.operation) (b.table, b.primaryKey, b.version, b.operation) same
  obtain ⟨table, primaryKey, version, operation⟩ := a
  obtain ⟨table', primaryKey', version', operation'⟩ := b
  simpa using equal

theorem hexDigits_injective : Function.Injective hexDigits := by
  intro a b same
  have read := congrArg decodeHex same
  rw [decodeHex_hexDigits, decodeHex_hexDigits] at read
  exact Option.some.inj read

def operationName : ReplicationOperation → String
  | .unset => ""
  | .insert => "insert"
  | .update => "update"
  | .upsert => "upsert"
  | .delete => "delete"

def KeyPart.ofPart (part : PrimaryKeyPart) : KeyPart :=
  ⟨Json.utf8 part.column, Json.utf8 part.type.name, part.value⟩

def Change.ofChange (change : ChangefeedChange) : Change where
  table := Json.utf8 change.table
  primaryKey := change.primaryKey.map .ofPart
  version := change.version
  operation := Json.utf8 (operationName change.operation)

theorem eventIDInput_eq_hashed (change : ChangefeedChange) :
    eventIDInput change = hashed (.ofChange change) := by
  have key : keyWord (change.primaryKey.map .ofPart) =
      Json.formatInt change.primaryKey.length ++ 0x3a :: change.primaryKey.flatMap
        fun part => partWord (.ofPart part) := by
    simp [keyWord, countWord, List.flatMap_map]
  rw [hashed_eq, Change.ofChange, key]
  cases kind : change.operation <;>
    simp [eventIDInput, kind, operationName, bytesWord, countWord, partWord, KeyPart.ofPart]

theorem utf8_injective : Function.Injective Json.utf8 := by
  have chars : PrefixFree String.utf8EncodeChar := by
    intro c d s t same
    have read := congrArg (fun bytes => bytes.toByteArray.utf8DecodeChar? 0) same
    simp only [List.toByteArray_append, ByteArray.utf8DecodeChar?_utf8EncodeChar_append,
      Option.some.injEq] at read
    subst read
    exact ⟨rfl, List.append_cancel_left same⟩
  have filled (c : Char) : String.utf8EncodeChar c ≠ [] := by
    apply List.ne_nil_of_length_pos
    rw [String.length_utf8EncodeChar]
    exact c.utf8Size_pos
  intro s t same
  exact String.toList_inj.mp (chars.flatMap_injective filled same)

/-- The same for the changes of the producer. -/
theorem eventIDInput_eq_iff {a b : ChangefeedChange} :
    eventIDInput a = eventIDInput b ↔ a.table = b.table ∧ a.primaryKey = b.primaryKey ∧
      a.version = b.version ∧ a.operation = b.operation := by
  have parts : Function.Injective KeyPart.ofPart := by
    rintro ⟨column, type, value⟩ ⟨column', type', value'⟩ same
    obtain ⟨columns, types, values⟩ := KeyPart.mk.inj same
    obtain rfl : column = column' := utf8_injective columns
    obtain rfl : type = type' := PrimaryKeyType.name_injective (utf8_injective types)
    obtain rfl : value = value' := values
    rfl
  have operations : Function.Injective operationName := by
    intro a b same
    cases a <;> cases b <;> first | rfl | exact absurd same (by decide)
  rw [eventIDInput_eq_hashed, eventIDInput_eq_hashed, hashed_injective.eq_iff]
  simp only [Change.ofChange, Change.mk.injEq, utf8_injective.eq_iff, operations.eq_iff,
    (List.map_injective_iff.mpr parts).eq_iff]

/-- The bytes that are hashed determine the change, so two changes share an event id only if the hash
of two different inputs is the same. -/
theorem event_ids_distinct (sha256 : Bytes → Bytes) (a b : Change) :
    (hashed a = hashed b ↔ a.table = b.table ∧ a.primaryKey = b.primaryKey ∧ a.version = b.version ∧
      a.operation = b.operation) ∧
    (eventIDFromChange sha256 a = eventIDFromChange sha256 b ↔
      a = b ∨ hashed a ≠ hashed b ∧ sha256 (hashed a) = sha256 (hashed b)) := by
  constructor
  · rw [hashed_injective.eq_iff, Change.mk.injEq]
  · rw [eventIDFromChange, eventIDFromChange, hexDigits_injective.eq_iff]
    constructor
    · intro collision
      by_cases same : a = b
      · exact .inl same
      · exact .inr ⟨hashed_injective.ne same, collision⟩
    · rintro (rfl | ⟨-, collision⟩)
      · rfl
      · exact collision

end Transmogr.EventIDs
