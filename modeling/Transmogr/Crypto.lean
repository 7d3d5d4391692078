import Transmogr.Apply
import Transmogr.Base64
import Transmogr.Maps

/-! Field encryption: `pkg/crypto` on one value and `service/crypto` on the configured
fields of a table. -/
namespace Transmogr

inductive Algorithm
  | aesGcm
  | chacha20Poly1305
  | xchacha20Poly1305
  deriving DecidableEq, Repr

/-- An AEAD without additional data: opening undoes sealing under the same nonce, and a
ciphertext is no shorter than its plaintext. -/
structure Aead where
  nonceSize : Nat
  sealWith : Bytes → Bytes → Bytes
  openWith : Bytes → Bytes → Option Bytes
  nonceSize_pos : 0 < nonceSize
  openWith_sealWith : ∀ nonce plaintext, nonce.length = nonceSize →
    openWith nonce (sealWith nonce plaintext) = some plaintext
  length_sealWith : ∀ nonce plaintext, plaintext.length ≤ (sealWith nonce plaintext).length

/-- The cipher of each algorithm under a key. -/
abbrev Ciphers := Algorithm → Bytes → Aead

/-- What `io.ReadFull` takes from the random source. -/
structure Random where
  read : Nat → Bytes
  length_read : ∀ size, (read size).length = size

def newAEAD (ciphers : Ciphers) (algorithm : Algorithm) (key : Bytes) : Except String Aead :=
  match algorithm with
  | .aesGcm =>
    if key.length ≠ 16 ∧ key.length ≠ 24 ∧ key.length ≠ 32 then
      .error "aes-gcm key must be 16, 24, or 32 bytes"
    else .ok (ciphers .aesGcm key)
  | .chacha20Poly1305 =>
    if key.length ≠ 32 then .error "chacha20poly1305 key must be 32 bytes"
    else .ok (ciphers .chacha20Poly1305 key)
  | .xchacha20Poly1305 =>
    if key.length ≠ 32 then .error "xchacha20poly1305 key must be 32 bytes"
    else .ok (ciphers .xchacha20Poly1305 key)

/-- The Base64 text of the nonce and the ciphertext; an empty value stays empty. -/
def encryptValue (ciphers : Ciphers) (algorithm : Algorithm) (random : Random) (key value : Bytes) :
    Except String Bytes :=
  if value.isEmpty then .ok value
  else do
    let aead ← newAEAD ciphers algorithm key
    let nonce := random.read aead.nonceSize
    return Base64.encode (nonce ++ aead.sealWith nonce value)

/-- A value that is not Base64 is returned as it is. -/
def decryptValue (ciphers : Ciphers) (algorithm : Algorithm) (key value : Bytes) :
    Except String Bytes :=
  if value.isEmpty then .ok value
  else match Base64.decode value with
    | none => .ok value
    | some buf => do
      let aead ← newAEAD ciphers algorithm key
      if buf.length < aead.nonceSize then .error "encrypted value is truncated"
      else match aead.openWith (buf.take aead.nonceSize) (buf.drop aead.nonceSize) with
        | none => .error "decrypt value: cipher: message authentication failed"
        | some plaintext => .ok plaintext

theorem decryptValue_encryptValue {ciphers : Ciphers} {algorithm : Algorithm} {random : Random}
    {key value text : Bytes} (encrypts : encryptValue ciphers algorithm random key value = .ok text) :
    decryptValue ciphers algorithm key text = .ok value := by
  unfold encryptValue at encrypts
  split at encrypts
  · next empty =>
    cases encrypts
    rw [decryptValue, if_pos empty]
  · obtain ⟨aead, made, encrypts⟩ := Fallible.bind_eq_ok.mp encrypts
    cases encrypts
    have size := random.length_read aead.nonceSize
    have filled : random.read aead.nonceSize ++ aead.sealWith (random.read aead.nonceSize) value ≠ [] := by
      intro empty
      have := aead.nonceSize_pos
      simp [List.append_eq_nil_iff.mp empty |>.1] at size
      omega
    have text : ¬(Base64.encode (random.read aead.nonceSize ++
        aead.sealWith (random.read aead.nonceSize) value)).isEmpty = true := by
      intro empty
      have decoded := Base64.decode_encode (random.read aead.nonceSize ++
        aead.sealWith (random.read aead.nonceSize) value)
      rw [List.isEmpty_iff.mp empty] at decoded
      exact filled (Option.some.inj decoded).symm
    rw [decryptValue, if_neg text]
    simp only [Base64.decode_encode, made]
    change (if _ then _ else _) = _
    rw [if_neg (by rw [List.length_append]; omega), List.take_left' size, List.drop_left' size,
      aead.openWith_sealWith _ _ size]

/-! ## Configured fields -/

structure FieldCryptoConfig where
  typeName : String
  keyID : String
  handler : Algorithm
  deriving DecidableEq, Repr

abbrev FieldPolicy := Std.ExtTreeMap String FieldCryptoConfig

structure TransformerSpec where
  type : String
  table : String
  fields : List String
  keyID : String
  cryptoType : String

def trimmedLower (text : String) : List Char := (trimSpaces text.toList).map Char.toLower

/-- `DefaultRegistry` -/
def registry (cryptoType : List Char) : Option Algorithm :=
  if cryptoType = "aes-gcm".toList then some .aesGcm
  else if cryptoType = "chacha20poly1305".toList then some .chacha20Poly1305
  else if cryptoType = "xchacha20poly1305".toList then some .xchacha20Poly1305
  else none

def encryptedFieldsByTable (transformers : List TransformerSpec) :
    Except String (Std.ExtTreeMap String FieldPolicy) :=
  transformers.foldlM (fun fieldsByTable spec =>
    if trimmedLower spec.type ≠ "crypto".toList then .ok fieldsByTable
    else match registry (trimmedLower spec.cryptoType) with
      | none => .error ("crypto transformer for table " ++ quoted spec.table ++
          " references unsupported crypto type " ++ quoted spec.cryptoType)
      | some handler =>
        let tableName := String.ofList (trimSpaces spec.table.toList)
        let fields := (spec.fields.filter (· ≠ "")).foldl
          (fun fields field => fields.insert field ⟨spec.cryptoType, spec.keyID, handler⟩)
          (fieldsByTable[tableName]?.getD ∅)
        .ok (fieldsByTable.insert tableName fields)) ∅

/-- The service with its ciphers and the static keys. -/
structure CryptoService where
  ciphers : Ciphers
  keysByID : Std.ExtTreeMap String Bytes
  cryptoByTable : Std.ExtTreeMap String FieldPolicy

def newCryptoService (ciphers : Ciphers) (keysByID : Std.ExtTreeMap String Bytes)
    (transformers : List TransformerSpec) : Except String CryptoService := do
  let cryptoByTable ← encryptedFieldsByTable transformers
  return ⟨ciphers, keysByID, cryptoByTable⟩

namespace CryptoService

variable (service : CryptoService)

def getKey (keyID table : String) : Except String Bytes :=
  match service.keysByID[keyID]? with
  | some key => .ok key
  | none => .error ("load crypto key " ++ quoted keyID ++ " for " ++ table ++ ": crypto key " ++
      quoted keyID ++ " is not configured")

def policy (table : String) : FieldPolicy := service.cryptoByTable[table]?.getD ∅

/-- `EncryptedFieldNames` -/
def encryptedFieldNames (table : String) : List String := (service.policy table).keys

/-- The loop of `Encrypt` and `Decrypt`: each configured field that is there is replaced.
The key cache changes nothing, keys being static. -/
def replaceFields (table : String) (fields : Fields)
    (replace : String → FieldCryptoConfig → Bytes → Except String Bytes) : Except String Fields :=
  Maps.replaceEach replace (service.policy table).toList fields

/-- The ciphertext as a JSON string. -/
def encryptField (random : String → Random) (table field : String) (cfg : FieldCryptoConfig)
    (raw : Bytes) : Except String Bytes := do
  let key ← service.getKey cfg.keyID table
  let ciphertext ← wrapError ("encrypt field " ++ quoted field ++ " for " ++ table ++ " using " ++
    cfg.typeName) (encryptValue service.ciphers cfg.handler (random field) key raw)
  return Json.quote (stringOfBytes ciphertext)

/-- `hex.DecodeString` -/
def decodeHex : Bytes → Option Bytes
  | [] => some []
  | high :: low :: rest => do
    let high ← Json.hexValue high
    let low ← Json.hexValue low
    let rest ← decodeHex rest
    return UInt8.ofNat (high * 16 + low) :: rest
  | _ => none

/-- The ciphertext a JSON string holds; a BYTEA column is written as `\x` and hex digits. -/
def storedCiphertext (encoded : String) : Bytes :=
  match Json.utf8 encoded with
  | 0x5c :: 0x78 :: digits => (decodeHex digits).getD (Json.utf8 encoded)
  | text => text

/-- A field that is no JSON string is left as it is. -/
def decryptField (table field : String) (cfg : FieldCryptoConfig) (raw : Bytes) :
    Except String Bytes :=
  match Json.unmarshalString raw with
  | none => .ok raw
  | some encoded => do
    let key ← service.getKey cfg.keyID table
    wrapError ("decrypt field " ++ quoted field ++ " for " ++ table ++ " using " ++ cfg.typeName)
      (decryptValue service.ciphers cfg.handler key (storedCiphertext encoded))

/-- `Service.Encrypt`, with the random bytes of each field. -/
def encrypt (random : String → Random) (table : String) (fields : Fields) : Except String Fields :=
  service.replaceFields table fields (service.encryptField random table)

/-- `Service.Decrypt` -/
def decrypt (table : String) (fields : Fields) : Except String Fields :=
  service.replaceFields table fields (service.decryptField table)

variable {service}

section Replace

variable {table name : String} {fields result : Fields}
  {replace : String → FieldCryptoConfig → Bytes → Except String Bytes}

theorem policy_distinct : (service.policy table).toList.Pairwise fun a b => a.1 ≠ b.1 :=
  Std.ExtTreeMap.distinct_keys_toList.imp fun differ same =>
    differ (Std.LawfulEqOrd.compare_eq_iff_eq.mpr same)

theorem replaceFields_unconfigured (ran : service.replaceFields table fields replace = .ok result)
    (unconfigured : (service.policy table)[name]? = none) : result[name]? = fields[name]? := by
  apply Maps.replaceEach_of_absent ran
  rintro ⟨other, cfg⟩ mem rfl
  rw [Std.ExtTreeMap.mem_toList_iff_getElem?_eq_some.mp mem] at unconfigured
  cases unconfigured

theorem replaceFields_absent (ran : service.replaceFields table fields replace = .ok result)
    (absent : fields[name]? = none) : result[name]? = none := by
  cases configured : (service.policy table)[name]? with
  | none => rw [replaceFields_unconfigured ran configured, absent]
  | some cfg =>
    have replaced := Maps.replaceEach_of_mem policy_distinct ran
      (Std.ExtTreeMap.mem_toList_iff_getElem?_eq_some.mpr configured)
    simpa only [absent] using replaced

theorem replaceFields_present {cfg : FieldCryptoConfig} {raw : Bytes}
    (ran : service.replaceFields table fields replace = .ok result)
    (configured : (service.policy table)[name]? = some cfg) (present : fields[name]? = some raw) :
    ∃ value, replace name cfg raw = .ok value ∧ result[name]? = some value := by
  have replaced := Maps.replaceEach_of_mem policy_distinct ran
    (Std.ExtTreeMap.mem_toList_iff_getElem?_eq_some.mpr configured)
  simpa only [present] using replaced

theorem exists_replaceFields (each : ∀ (name : String) cfg raw,
    (service.policy table)[name]? = some cfg → fields[name]? = some raw →
      ∃ value, replace name cfg raw = .ok value) :
    ∃ result, service.replaceFields table fields replace = .ok result :=
  Maps.exists_replaceEach policy_distinct fun entry mem raw present =>
    each entry.1 entry.2 raw (Std.ExtTreeMap.mem_toList_iff_getElem?_eq_some.mp mem) present

end Replace

/-- A field whose key loads and fits its algorithm. -/
def Usable (service : CryptoService) (table : String) (cfg : FieldCryptoConfig) : Prop :=
  ∃ key aead, service.getKey cfg.keyID table = .ok key ∧
    newAEAD service.ciphers cfg.handler key = .ok aead

end CryptoService

theorem utf8EncodeChar_ascii {b : UInt8} (ascii : b.toNat < 128) :
    String.utf8EncodeChar (Char.ofNat b.toNat) = [b] := by
  have back : UInt8.ofNat b.toNat = b := UInt8.ofNat_toNat
  generalize b.toNat = n at ascii back
  subst back
  interval_cases n <;> rfl

theorem stringOfBytes_ascii {bytes : Bytes} (ascii : ∀ b ∈ bytes, b.toNat < 128) :
    (stringOfBytes bytes).toList = bytes.map fun b => Char.ofNat b.toNat := by
  have read : ∀ fuel, bytes.length ≤ fuel →
      stringOfBytes.go fuel bytes = bytes.map fun b => Char.ofNat b.toNat := by
    induction bytes with
    | nil =>
      intro fuel _
      cases fuel <;> rfl
    | cons b rest ih =>
      intro fuel enough
      obtain ⟨small, tail⟩ := List.forall_mem_cons.mp ascii
      cases fuel with
      | zero => simp at enough
      | succ fuel =>
        have encoded := utf8EncodeChar_ascii small
        have decoded : (b :: rest).toByteArray.utf8DecodeChar? 0 = some (Char.ofNat b.toNat) := by
          rw [← List.singleton_append, ← encoded, List.toByteArray_append]
          exact ByteArray.utf8DecodeChar?_utf8EncodeChar_append
        have size : (Char.ofNat b.toNat).utf8Size = 1 := by
          rw [← String.length_utf8EncodeChar, encoded]
          rfl
        simp only [stringOfBytes.go, decoded, size, List.drop_one, List.tail_cons, List.map_cons]
        rw [ih tail fuel (by simpa using enough)]
  rw [stringOfBytes, read _ le_rfl, String.toList_ofList]

/-- ASCII bytes are the bytes of the string they are read as. -/
theorem utf8_stringOfBytes {bytes : Bytes} (ascii : ∀ b ∈ bytes, b.toNat < 128) :
    Json.utf8 (stringOfBytes bytes) = bytes := by
  calc
    Json.utf8 (stringOfBytes bytes)
      = bytes.flatMap fun b => String.utf8EncodeChar (Char.ofNat b.toNat) := by
        rw [Json.utf8, stringOfBytes_ascii ascii, List.flatMap_map]
    _ = bytes.flatMap fun b => [b] :=
        List.flatMap_congr fun b mem => utf8EncodeChar_ascii (ascii b mem)
    _ = bytes := List.flatMap_singleton' bytes

namespace CryptoService

variable {service : CryptoService} {random : String → Random} {table field : String}
  {cfg : FieldCryptoConfig} {plaintext raw : Bytes}

theorem storedCiphertext_base64 (bytes : Bytes) :
    storedCiphertext (stringOfBytes (Base64.encode bytes)) = Base64.encode bytes := by
  have ascii : Json.utf8 (stringOfBytes (Base64.encode bytes)) = Base64.encode bytes :=
    utf8_stringOfBytes fun b mem => (Base64.plain_encode bytes b mem).1
  unfold storedCiphertext
  rw [ascii]
  split
  · next digits text =>
    -- the alphabet has no backslash
    have plain := Base64.plain_encode bytes 0x5c (by rw [text]; exact List.mem_cons_self)
    exact absurd plain (by decide)
  · rfl

section Encrypts

variable (encrypts : service.encryptField random table field cfg plaintext = .ok raw)

include encrypts

/-- The ciphertext of a field is ASCII text that no BYTEA column is written as. -/
theorem encryptField_ciphertext :
    ∃ key ciphertext, service.getKey cfg.keyID table = .ok key ∧
      raw = Json.quote (stringOfBytes ciphertext) ∧
      Json.utf8 (stringOfBytes ciphertext) = ciphertext ∧
      storedCiphertext (stringOfBytes ciphertext) = ciphertext ∧
      decryptValue service.ciphers cfg.handler key ciphertext = .ok plaintext := by
  obtain ⟨key, loaded, encrypts⟩ := Fallible.bind_eq_ok.mp encrypts
  obtain ⟨ciphertext, encrypted, encrypts⟩ := Fallible.bind_eq_ok.mp encrypts
  cases encrypts
  have value := wrapError_eq_ok.mp encrypted
  have decrypts := decryptValue_encryptValue value
  unfold encryptValue at value
  split at value
  · next empty =>
    cases value
    obtain rfl := List.isEmpty_iff.mp empty
    exact ⟨key, [], loaded, rfl, rfl, rfl, decrypts⟩
  · obtain ⟨aead, -, value⟩ := Fallible.bind_eq_ok.mp value
    cases value
    exact ⟨key, _, loaded, rfl, utf8_stringOfBytes fun b mem => (Base64.plain_encode _ b mem).1,
      storedCiphertext_base64 _, decrypts⟩

theorem encryptField_string : ∃ text, raw = Json.quote text := by
  obtain ⟨_, _, _, quoted, _⟩ := encryptField_ciphertext encrypts
  exact ⟨_, quoted⟩

/-- What a service encrypted it decrypts. -/
theorem decryptField_encryptField : service.decryptField table field cfg raw = .ok plaintext := by
  obtain ⟨key, ciphertext, loaded, rfl, -, stored, decrypts⟩ := encryptField_ciphertext encrypts
  simp only [decryptField, Json.unmarshalString_quote, stored]
  exact Fallible.bind_eq_ok.mpr ⟨key, loaded, wrapError_eq_ok.mpr decrypts⟩

/-- The text of a ciphertext is longer than the plaintext. -/
theorem encryptField_length (filled : plaintext ≠ []) :
    ∃ text, raw = Json.quote text ∧ plaintext.length < text.toList.length := by
  obtain ⟨key, -, encrypts⟩ := Fallible.bind_eq_ok.mp encrypts
  obtain ⟨ciphertext, encrypted, encrypts⟩ := Fallible.bind_eq_ok.mp encrypts
  cases encrypts
  refine ⟨_, rfl, ?_⟩
  have value := wrapError_eq_ok.mp encrypted
  rw [encryptValue, if_neg (by simpa using filled)] at value
  obtain ⟨aead, -, value⟩ := Fallible.bind_eq_ok.mp value
  cases value
  have nonce := (random field).length_read aead.nonceSize
  have positive := aead.nonceSize_pos
  have sealed := aead.length_sealWith ((random field).read aead.nonceSize) plaintext
  have encoded := Base64.length_le_encode ((random field).read aead.nonceSize ++
    aead.sealWith ((random field).read aead.nonceSize) plaintext)
  rw [stringOfBytes_ascii fun b mem => (Base64.plain_encode _ b mem).1, List.length_map]
  rw [List.length_append] at encoded
  omega

end Encrypts

theorem Usable.encrypts (usable : service.Usable table cfg) (plaintext : Bytes) :
    ∃ raw, service.encryptField random table field cfg plaintext = .ok raw := by
  obtain ⟨key, aead, loaded, made⟩ := usable
  have value : ∃ text, encryptValue service.ciphers cfg.handler (random field) key plaintext =
      .ok text := by
    unfold encryptValue
    split
    · exact ⟨plaintext, rfl⟩
    · exact ⟨_, Fallible.bind_eq_ok.mpr ⟨aead, made, rfl⟩⟩
  obtain ⟨text, encrypted⟩ := value
  exact ⟨_, Fallible.bind_eq_ok.mpr ⟨key, loaded, Fallible.bind_eq_ok.mpr
    ⟨text, wrapError_eq_ok.mpr encrypted, rfl⟩⟩⟩

end CryptoService

end Transmogr
