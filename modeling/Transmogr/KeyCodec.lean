import Transmogr.Capture
import Transmogr.Codec
import Transmogr.JsonText

/-! Keys that the capture adapter extracts, and their JSON form. `PrimaryKeyValueFromString` checks a
text with strconv and then takes it for JSON; `EncodePrimaryKey` and `OutboxEnqueue` want JSON. -/
namespace Transmogr.KeyCodec

open Json (Value parse quote)

/-- `PrimaryKeyPart` as encoding/json sees it, where the type is any string. -/
structure JsonPart where
  column : String
  type : String
  value : Bytes
  deriving DecidableEq

def JsonPart.zero : JsonPart := ⟨"", "", []⟩

def jsonPart (part : PrimaryKeyPart) : JsonPart := ⟨part.column, part.type.name, part.value⟩

/-- A member of the object that a part is written as. -/
def memberText (name : String) (raw : Bytes) : Bytes := quote name ++ 0x3a :: raw

def partText (part : JsonPart) (raw : Bytes) : Bytes :=
  0x7b :: Json.commaList [memberText "column" (quote part.column), memberText "type" (quote part.type),
    memberText "json_value" raw] ++ [0x7d]

def encodePart (part : JsonPart) : Except String Bytes :=
  match Json.marshalRaw part.value with
  | none => .error "json: error calling MarshalJSON for type json.RawMessage"
  | some raw => .ok (partText part raw)

def encodePrimaryKey (parts : List JsonPart) : Except String Bytes :=
  if parts = [] then .ok []
  else wrapError "encode primary key" do
    let texts ← parts.mapM encodePart
    return 0x5b :: Json.commaList texts ++ [0x5d]

/-- What kind of value a text holds, in the words of encoding/json. -/
def kindOf (raw : Bytes) : String :=
  match raw.head? with
  | some 0x22 => "string"
  | some 0x7b => "object"
  | some 0x5b => "array"
  | some 0x74 | some 0x66 => "bool"
  | _ => "number"

def typeError (raw : Bytes) (target : String) : String :=
  "json: cannot unmarshal " ++ kindOf raw ++ " into Go " ++ target

/-- Names of fields are matched without regard to case; the long s folds to `s`. -/
def foldName (name : String) : String :=
  String.ofList (name.toList.map fun c => if c.toNat = 0x17f then 's' else c.toLower)

/-- A string is stored and `null` leaves the field as it is. -/
def decodeString (old : String) (raw : Bytes) (target : String) : Except String String :=
  if raw = Json.nullText then .ok old
  else if raw.head? = some 0x22 then .ok ((Json.unmarshalString raw).getD old)
  else .error (typeError raw ("struct field PrimaryKeyPart." ++ target))

/-- One member of an object is stored in the part; unknown names are ignored. -/
def decodeMember (part : JsonPart) (member : String × Bytes) : Except String JsonPart :=
  if foldName member.1 = "column" then do
    let column ← decodeString part.column member.2 "column of type string"
    return { part with column }
  else if foldName member.1 = "type" then do
    let type ← decodeString part.type member.2 "type of type models.PrimaryKeyType"
    return { part with type }
  else if foldName member.1 = "json_value" then .ok { part with value := member.2 }
  else .ok part

def decodePart (raw : Bytes) : Except String JsonPart :=
  if raw = Json.nullText then .ok .zero
  else match raw with
    | 0x7b :: rest =>
      match Json.scanItems (Json.scanMember (Json.scanRaw raw.length)) 0x7d raw.length rest with
      | some (members, []) => members.foldlM decodeMember .zero
      | _ => .error "invalid JSON"
    | _ => .error (typeError raw "value of type models.PrimaryKeyPart")

def decodeParts (text : Bytes) : Except String (List JsonPart) :=
  if text = Json.nullText then .ok []
  else match text with
    | 0x5b :: rest =>
      match Json.scanItems (Json.scanRaw text.length) 0x5d text.length rest with
      | some (raws, []) => raws.mapM decodePart
      | _ => .error "invalid JSON"
    | _ => .error (typeError text "value of type []models.PrimaryKeyPart")

def decodePrimaryKey (data : Bytes) : Except String (List JsonPart) :=
  if data = [] then .ok []
  else wrapError "decode primary key" <|
    if (parse data).isNone then .error "invalid JSON" else decodeParts (Json.trimSpace data)

/-! ## Reading a key back -/

section Members

variable {part : JsonPart} {v : Value}

/-- The members of a part with what a reader makes of their texts. -/
def memberEntries {α : Type} (part : JsonPart) (column type value : α) :
    List (Bytes × (String × α)) :=
  [(memberText "column" (quote part.column), "column", column),
    (memberText "type" (quote part.type), "type", type),
    (memberText "json_value" part.value, "json_value", value)]

theorem partText_eq {α : Type} (part : JsonPart) (column type value : α) (rest : Bytes) :
    partText part part.value ++ rest =
      0x7b :: (Json.commaList ((memberEntries part column type value).map (·.1)) ++ 0x7d :: rest) := by
  simp [partText, memberEntries]

theorem starts_memberEntries {α : Type} (part : JsonPart) (column type value : α) :
    ∀ entry ∈ memberEntries part column type value, Json.Starts 0x7d entry.1 := by
  simp only [memberEntries, List.forall_mem_cons, List.not_mem_nil, false_implies, implies_true, and_true]
  exact ⟨⟨0x22, _, rfl, rfl, by decide⟩, ⟨0x22, _, rfl, rfl, by decide⟩, ⟨0x22, _, rfl, rfl, by decide⟩⟩

/-- A reader of values reads the members. -/
theorem reads_memberEntries {α : Type} {item : Bytes → Option (α × Bytes)} {column type value : α}
    (reads : Json.Reads item 0x7d
      [(quote part.column, column), (quote part.type, type), (part.value, value)]) :
    Json.Reads (Json.scanMember item) 0x7d (memberEntries part column type value) := by
  have member {raw : Bytes} {result : α} (name : String)
      (mem : (raw, result) ∈ [(quote part.column, column), (quote part.type, type), (part.value, value)]) :
      ∀ b tail, b = 0x2c ∨ b = 0x7d →
        Json.scanMember item (memberText name raw ++ b :: tail) = some ((name, result), b :: tail) := by
    intro b tail ends
    rw [memberText, List.append_assoc, List.cons_append, Json.scanMember_quote, reads _ mem b tail ends]
    rfl
  intro entry mem
  simp only [memberEntries, List.mem_cons, List.not_mem_nil, or_false] at mem
  rcases mem with rfl | rfl | rfl
  · exact member "column" (by simp)
  · exact member "type" (by simp)
  · exact member "json_value" (by simp)

/-- What follows a member is no part of a value. -/
theorem follows {b : UInt8} {tail : Bytes} (ends : b = 0x2c ∨ b = 0x7d) :
    ∀ c ∈ (b :: tail).head?, c = 0x2c ∨ c = 0x5d ∨ c = 0x7d := by
  rintro c ⟨⟩
  exact ends.imp_right .inr

/-- The value of a part's object. -/
def partValue (part : JsonPart) (v : Value) : Value :=
  .ofMembers ((memberEntries part (.string part.column) (.string part.type) v).map (·.2))

theorem scanValue_partText (solid : Json.Solid part.value v) (fuel : Nat) (rest : Bytes) :
    Json.scanValue (fuel + 4) (partText part part.value ++ rest) = some (partValue part v, rest) := by
  have reads : Json.Reads (Json.scanValue (fuel + 3)) 0x7d [(quote part.column, .string part.column),
      (quote part.type, .string part.type), (part.value, v)] := by
    intro entry mem b tail ends
    simp only [List.mem_cons, List.not_mem_nil, or_false] at mem
    rcases mem with rfl | rfl | rfl
    · exact (Json.solid_quote _).scan _ _ (follows ends)
    · exact (Json.solid_quote _).scan _ _ (follows ends)
    · exact solid.scan _ _ (follows ends)
  have members := @Json.scanItems_commaList _ _ _ rfl (by decide) _ (starts_memberEntries part _ _ _)
    (reads_memberEntries reads) rest (fuel + 3) (by simp [memberEntries])
  rw [partText_eq part (.string part.column) (.string part.type) v, Json.scanValue,
    Json.dropSpace_cons rfl]
  simp only [members]
  rfl

theorem decodeString_quote (old s target : String) : decodeString old (quote s) target = .ok s := by
  have read := Json.unmarshalString_quote s
  simp only [quote, Json.encodeString, List.cons_append] at read ⊢
  simp [decodeString, Json.nullText, read]

theorem length_partText (part : JsonPart) : 4 ≤ (partText part part.value).length := by
  have members := @Json.length_le_commaList ((memberEntries part 0 0 0).map (·.1)) ?_
  · rw [← List.append_nil (partText part part.value), partText_eq part 0 0 0]
    simp only [memberEntries, List.map_cons, List.map_nil, List.length_cons, List.length_nil,
      List.length_append] at members ⊢
    omega
  · intro text mem
    obtain ⟨entry, known, rfl⟩ := List.mem_map.mp mem
    obtain ⟨b, tail, text, -⟩ := starts_memberEntries part 0 0 0 entry known
    rw [text]
    exact List.cons_ne_nil b tail

theorem decodePart_partText (solid : Json.Solid part.value v) :
    decodePart (partText part part.value) = .ok part := by
  have long := length_partText part
  obtain ⟨fuel, size⟩ : ∃ fuel, (partText part part.value).length = fuel + 4 :=
    ⟨_, (Nat.sub_add_cancel long).symm⟩
  have reads : Json.Reads (Json.scanRaw (fuel + 4)) 0x7d [(quote part.column, quote part.column),
      (quote part.type, quote part.type), (part.value, part.value)] := by
    intro entry mem b tail ends
    simp only [List.mem_cons, List.not_mem_nil, or_false] at mem
    rcases mem with rfl | rfl | rfl
    · exact (Json.solid_quote _).scanRaw _ (follows ends)
    · exact (Json.solid_quote _).scanRaw _ (follows ends)
    · exact solid.scanRaw _ (follows ends)
  have members := @Json.scanItems_commaList _ _ _ rfl (by decide) _ (starts_memberEntries part _ _ _)
    (reads_memberEntries reads) [] (fuel + 4) (by simp [memberEntries])
  have text := partText_eq part (quote part.column) (quote part.type) part.value []
  rw [List.append_nil] at text
  have names : foldName "column" = "column" ∧ foldName "type" = "type" ∧
      foldName "json_value" = "json_value" := by decide
  unfold decodePart
  rw [size, text]
  simp only [members]
  simp [memberEntries, Json.nullText, decodeMember, names, decodeString_quote]
  rfl

theorem scanRaw_partText (solid : Json.Solid part.value v) (fuel : Nat) (rest : Bytes) :
    Json.scanRaw (fuel + 4) (partText part part.value ++ rest) =
      some (partText part part.value, rest) := by
  have front : Json.dropSpace (partText part part.value ++ rest) = partText part part.value ++ rest :=
    Json.dropSpace_cons rfl _
  simp [Json.scanRaw, front, scanValue_partText solid]

end Members

/-- The values of the parts are written as they are and found again. -/
def Solid (parts : List JsonPart) : Prop := ∀ part ∈ parts, ∃ v, Json.Solid part.value v

section Keys

variable {parts : List JsonPart}

/-- The text of a key whose values are written as they are. -/
def keyText (parts : List JsonPart) : Bytes :=
  0x5b :: Json.commaList (parts.map fun part => partText part part.value) ++ [0x5d]

theorem length_keyText (filled : parts ≠ []) :
    5 ≤ (keyText parts).length ∧ parts.length < (keyText parts).length := by
  have texts := @Json.length_le_commaList (parts.map fun part => partText part part.value)
    (by simp [partText])
  obtain ⟨part, rest, rfl⟩ := List.exists_cons_of_ne_nil filled
  have first := length_partText part
  rw [List.length_map] at texts
  simp only [keyText, List.length_append, List.length_cons, List.length_nil] at texts ⊢
  refine ⟨?_, by omega⟩
  cases rest with
  | nil =>
    simp only [List.map_cons, List.map_nil, Json.commaList]
    omega
  | cons more rest =>
    simp only [List.map_cons, Json.commaList, List.length_append]
    omega

/-- A reader of parts reads the key. -/
theorem scanItems_keyText {α : Type} {item : Bytes → Option (α × Bytes)} {result : JsonPart → α}
    (reads : ∀ part ∈ parts, ∀ rest, item (partText part part.value ++ rest) = some (result part, rest))
    {fuel : Nat} (enough : parts.length ≤ fuel) :
    Json.scanItems item 0x5d fuel (keyText parts).tail = some (parts.map result, []) := by
  have entries := @Json.scanItems_commaList _ item 0x5d rfl (by decide)
    (parts.map fun part => (partText part part.value, result part))
  simp only [List.map_map, Function.comp_def, List.length_map] at entries
  apply entries _ _ [] enough
  · intro entry mem
    obtain ⟨part, -, rfl⟩ := List.mem_map.mp mem
    exact ⟨0x7b, _, rfl, rfl, by decide⟩
  · intro entry mem b tail _
    obtain ⟨part, known, rfl⟩ := List.mem_map.mp mem
    exact reads part known (b :: tail)

theorem parse_keyText (filled : parts ≠ []) (solid : Solid parts) : (parse (keyText parts)).isSome := by
  obtain ⟨long, enough⟩ := length_keyText filled
  obtain ⟨fuel, size⟩ : ∃ fuel, (keyText parts).length = fuel + 5 :=
    ⟨_, (Nat.sub_add_cancel long).symm⟩
  choose! value solid using solid
  have trimmed : Json.trimSpace (keyText parts) = keyText parts := Json.trimSpace_eq rfl rfl
  have items := scanItems_keyText (fun part mem rest => scanValue_partText (solid part mem) fuel rest)
    (show parts.length ≤ fuel + 4 by omega)
  have read : parse (keyText parts) = some (.array (parts.map fun part => partValue part (value part))) := by
    rw [parse, trimmed, Json.parseText_eq_some, size]
    change Json.scanValue (fuel + 5) (0x5b :: (keyText parts).tail) = _
    rw [Json.scanValue, Json.dropSpace_cons rfl]
    simp only [items]
    rfl
  rw [read]
  rfl

theorem decodeParts_keyText (filled : parts ≠ []) (solid : Solid parts) :
    decodeParts (keyText parts) = .ok parts := by
  obtain ⟨long, enough⟩ := length_keyText filled
  obtain ⟨fuel, size⟩ : ∃ fuel, (keyText parts).length = fuel + 5 :=
    ⟨_, (Nat.sub_add_cancel long).symm⟩
  have raws : ∀ part ∈ parts, ∀ rest, Json.scanRaw (fuel + 5) (partText part part.value ++ rest) =
      some (partText part part.value, rest) := by
    intro part mem rest
    obtain ⟨v, solid⟩ := solid part mem
    exact scanRaw_partText solid (fuel + 1) rest
  have items := scanItems_keyText raws (show parts.length ≤ fuel + 5 by omega)
  have decoded : (parts.map fun part => partText part part.value).mapM decodePart = .ok parts := by
    apply Fallible.mapM_eq_ok.mpr
    rw [List.forall₂_map_left_iff, List.forall₂_same]
    intro part mem
    obtain ⟨v, solid⟩ := solid part mem
    exact decodePart_partText solid
  have text : keyText parts = 0x5b :: (keyText parts).tail := rfl
  unfold decodeParts
  rw [size]
  generalize (keyText parts).tail = tail at items text
  rw [text]
  simp only [items, decoded, Json.nullText, List.cons.injEq]
  rfl

/-- A key whose values are written as they are comes back from its JSON form. -/
theorem decode_encode (solid : Solid parts) :
    ∃ data, encodePrimaryKey parts = .ok data ∧ decodePrimaryKey data = .ok parts := by
  by_cases empty : parts = []
  · subst empty
    exact ⟨[], rfl, rfl⟩
  refine ⟨keyText parts, ?_, ?_⟩
  · have written : parts.mapM encodePart = .ok (parts.map fun part => partText part part.value) := by
      apply Fallible.mapM_eq_map
      intro part mem
      obtain ⟨v, solid⟩ := solid part mem
      rw [encodePart, solid.marshal]
    rw [encodePrimaryKey, if_neg empty, written]
    rfl
  · have valid : (parse (keyText parts)).isNone = false := by simpa using parse_keyText empty solid
    have trimmed : Json.trimSpace (keyText parts) = keyText parts := Json.trimSpace_eq rfl rfl
    rw [decodePrimaryKey, trimmed, valid, decodeParts_keyText empty solid]
    rfl

end Keys

/-- The JSON value of what a text parses to. -/
def parsedValue (typ : PrimaryKeyType) (value : String) : Option Value :=
  match typ with
  | .integer => (parseInt value).map fun n => .number n
  | .boolean => (parseBool value).map .bool
  | _ => some (.string value)

/-- The text is JSON as it stands: an integer without a plus sign or needless zeros, a boolean written
out in small letters. Other texts are quoted. -/
def PlainText (typ : PrimaryKeyType) (value : String) : Prop :=
  match typ with
  | .integer => (Json.readInt (Json.utf8 value)).isSome
  | .boolean => value = "true" ∨ value = "false"
  | _ => True

section Values

variable {typ : PrimaryKeyType} {value : String} {raw : Bytes}

/-- Digits are a JSON integer of their value, or have a zero too many. -/
theorem readNat_digits {ds : Bytes} :
    Json.readNat ds = none ∨ Json.readNat ds = some (Json.digitsValue ds) := by
  unfold Json.readNat
  split
  · exact .inl rfl
  · exact .inr rfl

/-- An accepted integer is a JSON integer of the same value, or no JSON. -/
theorem parse_of_parseInt {n : Int} (parsed : parseInt value = some n) :
    (Json.readInt (Json.utf8 value) = none ∧ parse (Json.utf8 value) = none) ∨
      Json.readInt (Json.utf8 value) = some n := by
  obtain ⟨ds, filled, digits, text⟩ := parseInt_bytes parsed
  have integer : (Json.utf8 value).all Json.isIntegerByte = true := by
    have all : ds.all Json.isIntegerByte = true := by
      rw [List.all_eq_true] at digits ⊢
      intro b mem
      simp [Json.isIntegerByte, digits b mem]
    rcases text with ⟨same, -⟩ | ⟨same, -⟩ | ⟨same, -⟩
    · rw [same, all]
    · rw [same, List.all_cons, all]
      rfl
    · rw [same, List.all_cons, all]
      rfl
  have read : Json.readInt (Json.utf8 value) = none ∨ Json.readInt (Json.utf8 value) = some n := by
    rcases text with ⟨same, rfl⟩ | ⟨same, rfl⟩ | ⟨same, rfl⟩
    · have unsigned : ∀ tail, ds ≠ 0x2d :: tail := by
        rintro tail rfl
        cases digits
      rw [same, Json.readInt]
      · rcases @readNat_digits ds with none | some
        · simp [none]
        · simp [some]
      · exact unsigned
    · rw [same, Json.readInt]
      rcases @readNat_digits ds with none | some
      · simp [none]
      · simp [some]
    · left
      rw [same]
      rfl
  rcases read with none | some
  · refine .inl ⟨none, ?_⟩
    have trimmed : Json.trimSpace (Json.utf8 value) = Json.utf8 value :=
      Json.trimSpace_of_number fun b mem =>
        Json.isNumberByte_of_integer (List.all_eq_true.mp integer b mem)
    rw [Json.parse_of_integer (trimmed.symm ▸ integer), trimmed, none]
    rfl
  · exact .inr some

/-- A text that is JSON as it stands is stored as the value it parses to. -/
theorem solid_of_plain (accepted : primaryKeyValueFromString typ value = .ok raw)
    (plain : PlainText typ value) :
    ∃ v, parsedValue typ value = some v ∧ Json.Solid raw v := by
  cases typ with
  | integer =>
    simp only [primaryKeyValueFromString] at accepted
    split at accepted
    · next n parsed =>
      cases accepted
      rcases parse_of_parseInt parsed with ⟨none, -⟩ | read
      · simp [PlainText, none] at plain
      · exact ⟨.number n, by simp [parsedValue, parsed], Json.solid_integer read⟩
    · cases accepted
  | boolean =>
    rcases plain with rfl | rfl
    · cases accepted
      exact ⟨.bool true, rfl, Json.solid_formatBool true⟩
    · cases accepted
      exact ⟨.bool false, rfl, Json.solid_formatBool false⟩
  | unspecified | string =>
    cases accepted
    exact ⟨.string value, rfl, Json.solid_quote value⟩

/-- An accepted text becomes JSON of what it parses to exactly if it is JSON as it stands. -/
theorem parse_eq_parsedValue (accepted : primaryKeyValueFromString typ value = .ok raw) :
    parse raw = parsedValue typ value ↔ PlainText typ value := by
  constructor
  · intro denotes
    cases typ with
    | integer =>
      simp only [primaryKeyValueFromString] at accepted
      split at accepted
      · next n parsed =>
        cases accepted
        rcases parse_of_parseInt parsed with ⟨-, none⟩ | read
        · simp [parsedValue, parsed, none] at denotes
        · simp [PlainText, read]
      · cases accepted
    | boolean =>
      simp only [primaryKeyValueFromString] at accepted
      split at accepted
      · next parses =>
        cases accepted
        have spelled : ∀ text ∈ ["1", "t", "T", "TRUE", "true", "True", "0", "f", "F", "FALSE", "false",
            "False"], ∀ b, Json.trimSpace (Json.utf8 text) = Json.formatBool b →
              text = "true" ∨ text = "false" := by
          decide
        rw [parsesBool_eq] at parses
        obtain ⟨b, parsed⟩ := Option.isSome_iff_exists.mp parses
        simp only [parsedValue, parsed, Option.map_some] at denotes
        rw [← parsesBool_eq] at parses
        exact spelled value (of_decide_eq_true parses) b (Json.trimSpace_of_parse_bool denotes)
      · cases accepted
    | unspecified | string => trivial
  · intro plain
    obtain ⟨v, same, solid⟩ := solid_of_plain accepted plain
    rw [same, solid.parsed]

end Values

/-- The text is what PostgreSQL prints for a column that has keys of the type. -/
def PostgresText (typ : PrimaryKeyType) (text : String) : Prop :=
  match typ with
  | .integer => ∃ n, Json.utf8 text = Json.formatInt n
  | .boolean => text = "t" ∨ text = "f"
  | _ => True

/-- The key columns of the tuple are in PostgreSQL's text format. -/
def Printed (relation : PostgresRelation) (tuple : TupleData) : Prop :=
  ∀ pkColumn ∈ relation.primaryKey, ∀ column, relation.column tuple pkColumn = some column →
    PostgresText (relation.primaryKeyTypes[pkColumn]?.getD .unspecified) column.data

/-- The payload of an outbox row. -/
def outboxPayload {J : Type} (json : Json.Values J) (peerRegion table : String)
    (events : List MetaEvent) : Except String (List ReplicationEventJSON) :=
  wrapError ("encode outbox batch for " ++ peerRegion ++ "/" ++ table) (events.mapM (marshalJSON json))

section Extracted

variable {relation : PostgresRelation} {tuple : TupleData} {key : PrimaryKey}

/-- Each part of an extracted key is made of a printed text. -/
theorem printed_of_extracted (extracted : relation.extractPrimaryKey (some tuple) = .ok key)
    (printed : Printed relation tuple) {part : PrimaryKeyPart} (mem : part ∈ key) :
    ∃ text, primaryKeyValueFromString part.type text = .ok part.value ∧
      PostgresText part.type text := by
  obtain ⟨pkColumn, known, made⟩ := Fallible.mem_of_mapM extracted mem
  obtain ⟨-, type, column, found, -, accepted⟩ := PostgresRelation.primaryKeyPart_eq_ok made
  exact ⟨column.data, accepted, type ▸ printed pkColumn known column found⟩

/-- A printed text is JSON as it stands, except for a boolean. -/
theorem plain_of_postgresText {typ : PrimaryKeyType} {text : String} (printed : PostgresText typ text)
    (other : typ ≠ .boolean) : PlainText typ text := by
  cases typ with
  | integer =>
    obtain ⟨n, text⟩ := printed
    simp [PlainText, text, Json.readInt_formatInt]
  | boolean => exact absurd rfl other
  | unspecified | string => trivial

theorem solid_of_extracted (extracted : relation.extractPrimaryKey (some tuple) = .ok key)
    (printed : Printed relation tuple) (others : ∀ part ∈ key, part.type ≠ .boolean)
    {part : PrimaryKeyPart} (mem : part ∈ key) : ∃ v, Json.Solid part.value v := by
  obtain ⟨text, accepted, shown⟩ := printed_of_extracted extracted printed mem
  obtain ⟨v, -, solid⟩ := solid_of_plain accepted (plain_of_postgresText shown (others part mem))
  exact ⟨v, solid⟩

/-- PostgreSQL's booleans are no JSON. -/
theorem boolean_of_extracted (extracted : relation.extractPrimaryKey (some tuple) = .ok key)
    (printed : Printed relation tuple) {part : PrimaryKeyPart} (mem : part ∈ key)
    (boolean : part.type = .boolean) : part.value ≠ [] ∧ (parse part.value).isSome = false := by
  obtain ⟨text, accepted, shown⟩ := printed_of_extracted extracted printed mem
  rw [boolean] at accepted shown
  rcases shown with rfl | rfl
  · have text : Json.utf8 "t" = part.value := Except.ok.inj accepted
    rw [← text]
    decide
  · have text : Json.utf8 "f" = part.value := Except.ok.inj accepted
    rw [← text]
    decide

theorem encodePrimaryKey_fails {parts : List JsonPart} {part : JsonPart} (mem : part ∈ parts)
    (filled : part.value ≠ []) (invalid : (parse part.value).isSome = false) :
    ∃ err, encodePrimaryKey parts = .error err := by
  rw [Fallible.exists_error_iff]
  rintro ⟨data, written⟩
  rw [encodePrimaryKey, if_neg (List.ne_nil_of_mem mem), wrapError_eq_ok] at written
  obtain ⟨texts, each, -⟩ := Fallible.bind_eq_ok.mp written
  obtain ⟨text, -, made⟩ := Fallible.exists_mem_of_mapM each mem
  simp [encodePart, Json.marshalRaw, filled, invalid] at made

section Payloads

variable {J : Type} {json : Json.Values J} {events : List MetaEvent} {peerRegion table : String}

theorem outboxPayload_succeeds (valid : ∀ event ∈ events, ∀ raw ∈ event.raws, json.Valid raw) :
    ∃ payload, outboxPayload json peerRegion table events = .ok payload := by
  have each : ∀ event ∈ events, ∃ stored, marshalJSON json event = .ok stored := by
    intro event mem
    rw [marshalJSON, if_pos (List.all_eq_true.mpr (valid event mem))]
    exact ⟨_, rfl⟩
  obtain ⟨payload, made, -⟩ := Fallible.mapM_of_forall each
  exact ⟨payload, wrapError_eq_ok.mpr made⟩

theorem outboxPayload_fails {event : MetaEvent} (mem : event ∈ events) {raw : Bytes}
    (known : raw ∈ event.raws) (invalid : ¬json.Valid raw) :
    ∃ err, outboxPayload json peerRegion table events = .error err := by
  rw [Fallible.exists_error_iff]
  rintro ⟨payload, written⟩
  obtain ⟨stored, -, made⟩ := Fallible.exists_mem_of_mapM (wrapError_eq_ok.mp written) mem
  rw [marshalJSON, if_neg] at made
  · cases made
  · intro all
    exact invalid (List.all_eq_true.mp all raw known)

end Payloads

end Extracted

/-- Accepted texts become JSON of what they parse to exactly if they are JSON as they stand. So a key
of printed texts comes back from its JSON form and can be enqueued if it has no boolean, and can
neither be encoded nor enqueued if it has one. -/
theorem extracted_keys_stored {J : Type} (json : Json.Values J)
    (reads : ∀ raw, (json.value raw).isSome = (parse raw).isSome) :
    (∀ typ value raw, primaryKeyValueFromString typ value = .ok raw →
      (parse raw = parsedValue typ value ↔ PlainText typ value)) ∧
    ∀ relation tuple key, PostgresRelation.extractPrimaryKey relation (some tuple) = .ok key →
      Printed relation tuple →
      ((∀ part ∈ key, part.type ≠ .boolean) →
        (∃ data, encodePrimaryKey (key.map jsonPart) = .ok data ∧
          decodePrimaryKey data = .ok (key.map jsonPart)) ∧
        ∀ peerRegion table events,
          (∀ event ∈ events, ∀ raw ∈ MetaEvent.raws event, raw ∈ key.map (·.value) ∨ json.Valid raw) →
          ∃ payload, outboxPayload json peerRegion table events = .ok payload) ∧
      ((∃ part ∈ key, part.type = .boolean) →
        (∃ err, encodePrimaryKey (key.map jsonPart) = .error err) ∧
        ∀ peerRegion table events, (∃ event ∈ events, event.primaryKey = key) →
          ∃ err, outboxPayload json peerRegion table events = .error err) := by
  refine ⟨fun typ value raw accepted => parse_eq_parsedValue accepted, ?_⟩
  intro relation tuple key extracted printed
  constructor
  · intro others
    have solid : ∀ part ∈ key, ∃ v, Json.Solid part.value v := fun part mem =>
      solid_of_extracted extracted printed others mem
    refine ⟨decode_encode ?_, fun peerRegion table events raws => outboxPayload_succeeds ?_⟩
    · intro part mem
      obtain ⟨original, known, rfl⟩ := List.mem_map.mp mem
      exact solid original known
    · intro event mem raw known
      rcases raws event mem raw known with inKey | valid
      · obtain ⟨part, inside, rfl⟩ := List.mem_map.mp inKey
        obtain ⟨v, solid⟩ := solid part inside
        rw [Json.Values.Valid, reads, solid.parsed]
        rfl
      · exact valid
  · rintro ⟨part, mem, boolean⟩
    obtain ⟨filled, invalid⟩ := boolean_of_extracted extracted printed mem boolean
    refine ⟨encodePrimaryKey_fails (List.mem_map_of_mem mem) filled invalid, ?_⟩
    rintro peerRegion table events ⟨event, enqueued, rfl⟩
    have known : part.value ∈ event.raws := by
      simp only [MetaEvent.raws, List.mem_append, List.mem_map]
      exact .inl (.inl ⟨part, mem, rfl⟩)
    exact outboxPayload_fails enqueued known (by simp [Json.Values.Valid, reads, invalid])

/-! The values of texts, and a table with a boolean in its key. -/

def textValues : Json.Values Value where
  value := parse
  ofString := .string
  ofInt n := .number n
  ofBool := .bool
  compact := id
  store := id
  value_quote := Json.parse_quote
  value_formatInt := Json.parse_formatInt
  value_formatBool := Json.parse_formatBool
  read_string := Json.unmarshalString_of_parse
  read_bool {raw b} has := by
    have text := Json.trimSpace_of_parse_bool has
    cases b <;> simp only [Json.unmarshalBool, text] <;> rfl
  value_compact := id
  value_store := id
  int_compact _ := id
  int_store _ := id

def flagsRelation (types : List (String × PrimaryKeyType)) : PostgresRelation where
  tableName := "flags"
  primaryKey := types.map (·.1)
  primaryKeyTypes := .ofList types
  columnByName := .ofList [("id", 0), ("active", 1)]
  regionField := ""

def flagTuple : TupleData := [⟨.text, "7"⟩, ⟨.text, "t"⟩]

theorem integer_key_stored :
    primaryKeyValueFromString .integer "7" = .ok (Json.utf8 "7") ∧
    (parse (Json.utf8 "7") = parsedValue .integer "7" ↔ PlainText .integer "7") ∧
    ∃ data, encodePrimaryKey [⟨"id", "integer", Json.utf8 "7"⟩] = .ok data ∧
      decodePrimaryKey data = .ok [⟨"id", "integer", Json.utf8 "7"⟩] := by
  have stored := extracted_keys_stored textValues fun _ => rfl
  have extracted : (flagsRelation [("id", .integer)]).extractPrimaryKey (some flagTuple) =
      .ok [⟨"id", .integer, Json.utf8 "7"⟩] := rfl
  have printed : Printed (flagsRelation [("id", .integer)]) flagTuple := by
    rintro pkColumn mem column found
    cases List.mem_singleton.mp mem
    cases found
    exact ⟨7, by decide⟩
  refine ⟨rfl, stored.1 _ _ _ rfl, ?_⟩
  exact ((stored.2 _ _ _ extracted printed).1 (by simp)).1

theorem printed_flagTuple : Printed (flagsRelation [("id", .integer), ("active", .boolean)]) flagTuple := by
  rintro pkColumn mem column found
  rcases List.mem_pair.mp mem with rfl | rfl
  · cases found
    exact ⟨7, by decide⟩
  · cases found
    exact .inl rfl

theorem boolean_key_not_stored :
    primaryKeyValueFromString .boolean "t" = .ok (Json.utf8 "t") ∧ parse (Json.utf8 "t") = none ∧
    (flagsRelation [("id", .integer), ("active", .boolean)]).extractPrimaryKey (some flagTuple) =
      .ok [⟨"id", .integer, Json.utf8 "7"⟩, ⟨"active", .boolean, Json.utf8 "t"⟩] ∧
    Printed (flagsRelation [("id", .integer), ("active", .boolean)]) flagTuple ∧
    encodePrimaryKey [⟨"id", "integer", Json.utf8 "7"⟩, ⟨"active", "boolean", Json.utf8 "t"⟩] =
      .error "encode primary key: json: error calling MarshalJSON for type json.RawMessage" :=
  ⟨rfl, rfl, rfl, printed_flagTuple, rfl⟩

end Transmogr.KeyCodec
