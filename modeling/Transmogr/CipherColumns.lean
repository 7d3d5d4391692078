import Transmogr.EncryptedFields

/-! Encrypted columns as they are read back: a text column holds the JSON string that was written, a
BYTEA column is rendered as `\x` and hex digits. `Service.Decrypt` undoes `Service.Encrypt` either way. -/
namespace Transmogr

open Std

namespace CryptoService

abbrev KeyCache := ExtTreeMap String Bytes

variable (service : CryptoService)

def cachedKey (keyCache : KeyCache) (keyID table : String) : Except String (Bytes × KeyCache) :=
  match keyCache[keyID]? with
  | some key => .ok (key, keyCache)
  | none => do
    let key ← service.getKey keyID table
    return (key, keyCache.insert keyID key)

def encryptEntry (random : String → Random) (table : String) (state : Fields × KeyCache)
    (entry : String × FieldCryptoConfig) : Except String (Fields × KeyCache) :=
  match state.1[entry.1]? with
  | none => .ok state
  | some raw => do
    let (key, keyCache) ← service.cachedKey state.2 entry.2.keyID table
    let ciphertext ← wrapError ("encrypt field " ++ quoted entry.1 ++ " for " ++ table ++ " using " ++
      entry.2.typeName) (encryptValue service.ciphers entry.2.handler (random entry.1) key raw)
    return (state.1.insert entry.1 (Json.quote (stringOfBytes ciphertext)), keyCache)

def decryptEntry (table : String) (state : Fields × KeyCache) (entry : String × FieldCryptoConfig) :
    Except String (Fields × KeyCache) :=
  match state.1[entry.1]? with
  | none => .ok state
  | some raw =>
    match Json.unmarshalString raw with
    | none => .ok state
    | some encoded => do
      let (key, keyCache) ← service.cachedKey state.2 entry.2.keyID table
      let plaintext ← wrapError ("decrypt field " ++ quoted entry.1 ++ " for " ++ table ++ " using " ++
        entry.2.typeName) (decryptValue service.ciphers entry.2.handler key (storedCiphertext encoded))
      return (state.1.insert entry.1 plaintext, keyCache)

/-- An order in which `range` may visit the fields of a table. -/
def Order (table : String) (order : List (String × FieldCryptoConfig)) : Prop :=
  order.Perm (service.policy table).toList

/-- `Service.Encrypt` with its key cache. -/
def encryptInOrder (order : List (String × FieldCryptoConfig)) (random : String → Random)
    (table : String) (fields : Fields) : Except String Fields :=
  (order.foldlM (service.encryptEntry random table) (fields, ∅)).map Prod.fst

/-- `Service.Decrypt` with its key cache. -/
def decryptInOrder (order : List (String × FieldCryptoConfig)) (table : String) (fields : Fields) :
    Except String Fields :=
  (order.foldlM (service.decryptEntry table) (fields, ∅)).map Prod.fst

/-- The cache holds keys of the key manager. -/
def CacheOk (keyCache : KeyCache) : Prop :=
  ∀ (keyID : String) key, keyCache[keyID]? = some key → service.keysByID[keyID]? = some key

variable {service} {keyCache : KeyCache} {keyID table : String}

theorem CacheOk.cachedKey (ok : service.CacheOk keyCache) :
    (service.cachedKey keyCache keyID table).map Prod.fst = service.getKey keyID table := by
  rw [CryptoService.cachedKey]
  cases cached : keyCache[keyID]? with
  | some key => simp [getKey, ok keyID key cached, Except.map]
  | none =>
    cases loaded : service.getKey keyID table with
    | error err => simp [bind, Except.bind, Except.map]
    | ok key => simp [bind, Except.bind, Except.map, pure, Except.pure]

theorem CacheOk.next {result : Bytes × KeyCache} (ok : service.CacheOk keyCache)
    (ran : service.cachedKey keyCache keyID table = .ok result) : service.CacheOk result.2 := by
  rw [CryptoService.cachedKey] at ran
  cases cached : keyCache[keyID]? with
  | some key =>
    simp only [cached] at ran
    cases ran
    exact ok
  | none =>
    simp only [cached] at ran
    obtain ⟨key, loaded, ran⟩ := Fallible.bind_eq_ok.mp ran
    cases ran
    have known : service.keysByID[keyID]? = some key := by
      unfold getKey at loaded
      split at loaded
      · next found =>
        cases loaded
        exact found
      · cases loaded
    intro other value found
    rw [ExtTreeMap.getElem?_insert] at found
    split at found
    · next same =>
      cases found
      rw [← LawfulEqOrd.compare_eq_iff_eq.mp same]
      exact known
    · exact ok other value found

section Loops

variable {random : String → Random} {state : Fields × KeyCache} {entry : String × FieldCryptoConfig}
  {order : List (String × FieldCryptoConfig)} {fields : Fields}

theorem encryptEntry_eq (ok : service.CacheOk state.2) :
    (service.encryptEntry random table state entry).map Prod.fst =
      Maps.replaceAt (service.encryptField random table) state.1 entry := by
  rw [encryptEntry, Maps.replaceAt]
  cases state.1[entry.1]? with
  | none => rfl
  | some raw =>
    simp only [encryptField, ← ok.cachedKey]
    cases service.cachedKey state.2 entry.2.keyID table with
    | error err => rfl
    | ok loaded =>
      simp only [bind, Except.bind, Except.map]
      cases wrapError _ (encryptValue service.ciphers entry.2.handler (random entry.1) loaded.1 raw) with
      | error err => rfl
      | ok ciphertext => rfl

theorem decryptEntry_eq (ok : service.CacheOk state.2) :
    (service.decryptEntry table state entry).map Prod.fst =
      Maps.replaceAt (service.decryptField table) state.1 entry := by
  rw [decryptEntry, Maps.replaceAt]
  cases present : state.1[entry.1]? with
  | none => rfl
  | some raw =>
    simp only [decryptField]
    cases Json.unmarshalString raw with
    | none =>
      -- writing back what is there changes nothing
      refine congrArg Except.ok (ExtTreeMap.ext_getElem? fun name => ?_)
      rw [ExtTreeMap.getElem?_insert]
      split
      · next same => rw [← LawfulEqOrd.compare_eq_iff_eq.mp same, present]
      · rfl
    | some encoded =>
      simp only [← ok.cachedKey]
      cases service.cachedKey state.2 entry.2.keyID table with
      | error err => rfl
      | ok loaded =>
        simp only [bind, Except.bind, Except.map]
        cases wrapError _ (decryptValue service.ciphers entry.2.handler loaded.1
            (storedCiphertext encoded)) with
        | error err => rfl
        | ok plaintext => rfl

theorem encryptEntry_cache {next : Fields × KeyCache} (ok : service.CacheOk state.2)
    (ran : service.encryptEntry random table state entry = .ok next) : service.CacheOk next.2 := by
  unfold encryptEntry at ran
  split at ran
  · cases ran
    exact ok
  · obtain ⟨loaded, found, ran⟩ := Fallible.bind_eq_ok.mp ran
    obtain ⟨ciphertext, -, ran⟩ := Fallible.bind_eq_ok.mp ran
    cases ran
    exact ok.next found

theorem decryptEntry_cache {next : Fields × KeyCache} (ok : service.CacheOk state.2)
    (ran : service.decryptEntry table state entry = .ok next) : service.CacheOk next.2 := by
  unfold decryptEntry at ran
  split at ran
  · cases ran
    exact ok
  · split at ran
    · cases ran
      exact ok
    · obtain ⟨loaded, found, ran⟩ := Fallible.bind_eq_ok.mp ran
      obtain ⟨plaintext, -, ran⟩ := Fallible.bind_eq_ok.mp ran
      cases ran
      exact ok.next found

theorem cacheOk_empty : service.CacheOk ∅ := by
  intro keyID key found
  simp at found

/-- The cache changes nothing, also for a key that several algorithms use. -/
theorem encryptInOrder_eq : service.encryptInOrder order random table fields =
    Maps.replaceEach (service.encryptField random table) order fields := by
  apply Fallible.map_foldlM (P := fun state => service.CacheOk state.2)
  · exact fun _ _ _ ok => encryptEntry_eq ok
  · exact fun _ _ _ _ ok ran => encryptEntry_cache ok ran
  · exact cacheOk_empty

theorem decryptInOrder_eq : service.decryptInOrder order table fields =
    Maps.replaceEach (service.decryptField table) order fields := by
  apply Fallible.map_foldlM (P := fun state => service.CacheOk state.2)
  · exact fun _ _ _ ok => decryptEntry_eq ok
  · exact fun _ _ _ _ ok ran => decryptEntry_cache ok ran
  · exact cacheOk_empty

theorem Order.distinct (visits : service.Order table order) :
    order.Pairwise fun a b => a.1 ≠ b.1 :=
  (visits.pairwise_iff fun differ => differ.symm).mpr policy_distinct

/-- In every order the loop with the cache is `encrypt`. -/
theorem encryptInOrder_eq_ok {stored : Fields} (visits : service.Order table order) :
    service.encryptInOrder order random table fields = .ok stored ↔
      service.encrypt random table fields = .ok stored := by
  rw [encryptInOrder_eq]
  constructor
  · exact Maps.replaceEach_of_perm visits.distinct visits.symm
  · exact Maps.replaceEach_of_perm policy_distinct visits

theorem decryptInOrder_eq_ok {plain : Fields} (visits : service.Order table order) :
    service.decryptInOrder order table fields = .ok plain ↔
      service.decrypt table fields = .ok plain := by
  rw [decryptInOrder_eq]
  constructor
  · exact Maps.replaceEach_of_perm visits.distinct visits.symm
  · exact Maps.replaceEach_of_perm policy_distinct visits

end Loops

def hexDigits (bytes : Bytes) : Bytes :=
  bytes.flatMap fun b => [Json.hexDigit (b.toNat / 16), Json.hexDigit (b.toNat % 16)]

/-- PostgreSQL's hex format. -/
def byteaText (bytes : Bytes) : String := stringOfBytes (0x5c :: 0x78 :: hexDigits bytes)

/-- `to_jsonb` of a BYTEA column that the JSON string was written to. -/
def byteaJson (raw : Bytes) : Bytes :=
  match Json.unmarshalString raw with
  | none => raw
  | some text => Json.jsonbString (byteaText (Json.utf8 text))

/-- The fields as they are read back, when some of the configured columns are BYTEA columns. -/
def readBack (service : CryptoService) (table : String) (bytea : String → Bool) (stored : Fields) :
    Fields :=
  stored.map fun name raw =>
    if (service.policy table).contains name && bytea name then byteaJson raw else raw

theorem hexDigit_ascii {n : Nat} (digit : n < 16) : (Json.hexDigit n).toNat < 128 := by
  interval_cases n <;> decide

theorem decodeHex_hexDigits (bytes : Bytes) : decodeHex (hexDigits bytes) = some bytes := by
  induction bytes with
  | nil => rfl
  | cons b bytes ih =>
    have bound := b.toNat_lt
    have high := Json.hexValue_hexDigit (n := b.toNat / 16) (by omega)
    have low := Json.hexValue_hexDigit (n := b.toNat % 16) (by omega)
    have whole : b.toNat / 16 * 16 + b.toNat % 16 = b.toNat := by omega
    rw [hexDigits, List.flatMap_cons]
    change decodeHex (_ :: _ :: hexDigits bytes) = _
    simp only [decodeHex, high, low, ih, Option.bind_eq_bind, Option.bind_some, whole,
      UInt8.ofNat_toNat]
    rfl

theorem utf8_byteaText (bytes : Bytes) :
    Json.utf8 (byteaText bytes) = 0x5c :: 0x78 :: hexDigits bytes := by
  apply utf8_stringOfBytes
  intro b mem
  rcases List.mem_cons.mp mem with rfl | mem
  · decide
  · rcases List.mem_cons.mp mem with rfl | mem
    · decide
    · obtain ⟨byte, -, digit⟩ := List.mem_flatMap.mp mem
      have bound := byte.toNat_lt
      rcases List.mem_pair.mp digit with rfl | rfl
      · exact hexDigit_ascii (by omega)
      · exact hexDigit_ascii (by omega)

theorem storedCiphertext_byteaText (bytes : Bytes) : storedCiphertext (byteaText bytes) = bytes := by
  unfold storedCiphertext
  rw [utf8_byteaText]
  simp [decodeHex_hexDigits]

section ReadBack

variable {random : String → Random} {cfg : FieldCryptoConfig} {name : String} {plaintext raw : Bytes}
  {fields stored : Fields} {order : List (String × FieldCryptoConfig)} {bytea : String → Bool}

/-- A BYTEA column gives the ciphertext back. -/
theorem decryptField_byteaJson
    (encrypts : service.encryptField random table name cfg plaintext = .ok raw) :
    service.decryptField table name cfg (byteaJson raw) = .ok plaintext := by
  obtain ⟨key, ciphertext, loaded, rfl, text, -, decrypts⟩ := encryptField_ciphertext encrypts
  have read : Json.unmarshalString (byteaJson (Json.quote (stringOfBytes ciphertext))) =
      some (byteaText ciphertext) := by
    rw [byteaJson, Json.unmarshalString_quote]
    simp only [text]
    exact Json.unmarshalString_jsonbString _
  rw [decryptField, read]
  simp only [storedCiphertext_byteaText]
  exact Fallible.bind_eq_ok.mpr ⟨key, loaded, wrapError_eq_ok.mpr decrypts⟩

theorem getElem?_readBack_unconfigured (bytea : String → Bool)
    (unconfigured : (service.policy table)[name]? = none) :
    (service.readBack table bytea stored)[name]? = stored[name]? := by
  have absent : (service.policy table).contains name = false := by
    rw [ExtTreeMap.contains_eq_isSome_getElem?, unconfigured]
    rfl
  rw [readBack, ExtTreeMap.getElem?_map]
  simp [absent]

/-- Either way the column holds something that decrypts to the plaintext. -/
theorem decryptField_readBack (bytea : String → Bool)
    (configured : (service.policy table)[name]? = some cfg)
    (encrypts : service.encryptField random table name cfg plaintext = .ok raw)
    (written : stored[name]? = some raw) :
    ∃ read, (service.readBack table bytea stored)[name]? = some read ∧
      service.decryptField table name cfg read = .ok plaintext := by
  have present : (service.policy table).contains name = true := by
    rw [ExtTreeMap.contains_eq_isSome_getElem?, configured]
    rfl
  rw [readBack, ExtTreeMap.getElem?_map, written]
  cases asBytea : bytea name with
  | true => exact ⟨byteaJson raw, by simp [present], decryptField_byteaJson encrypts⟩
  | false => exact ⟨raw, by simp, decryptField_encryptField encrypts⟩

/-- What a configured column holds when it is read back. -/
theorem getElem?_readBack (bytea : String → Bool)
    (ran : service.encrypt random table fields = .ok stored)
    (configured : (service.policy table)[name]? = some cfg) :
    match fields[name]? with
    | none => (service.readBack table bytea stored)[name]? = none
    | some plaintext => ∃ read, (service.readBack table bytea stored)[name]? = some read ∧
        service.decryptField table name cfg read = .ok plaintext := by
  cases present : fields[name]? with
  | none =>
    have absent := replaceFields_absent ran present
    simp [readBack, ExtTreeMap.getElem?_map, absent]
  | some plaintext =>
    obtain ⟨raw, encrypts, written⟩ := replaceFields_present ran configured present
    exact decryptField_readBack bytea configured encrypts written

theorem exists_decrypt_readBack (bytea : String → Bool)
    (ran : service.encrypt random table fields = .ok stored) :
    ∃ plain, service.decrypt table (service.readBack table bytea stored) = .ok plain := by
  apply exists_replaceFields
  intro name cfg read configured found
  have held := getElem?_readBack bytea ran configured
  cases present : fields[name]? with
  | none =>
    simp only [present, found] at held
    cases held
  | some plaintext =>
    simp only [present, found] at held
    obtain ⟨value, same, decrypts⟩ := held
    cases same
    exact ⟨plaintext, decrypts⟩

theorem decrypt_readBack (bytea : String → Bool)
    (ran : service.encrypt random table fields = .ok stored) :
    service.decrypt table (service.readBack table bytea stored) = .ok fields := by
  obtain ⟨plain, decrypted⟩ := exists_decrypt_readBack bytea ran
  rw [decrypted]
  refine congrArg Except.ok (ExtTreeMap.ext_getElem? fun name => ?_)
  cases configured : (service.policy table)[name]? with
  | none =>
    rw [replaceFields_unconfigured decrypted configured,
      getElem?_readBack_unconfigured bytea configured, replaceFields_unconfigured ran configured]
  | some cfg =>
    have held := getElem?_readBack bytea ran configured
    cases present : fields[name]? with
    | none =>
      simp only [present] at held
      exact replaceFields_absent decrypted held
    | some plaintext =>
      simp only [present] at held
      obtain ⟨read, found, decrypts⟩ := held
      obtain ⟨value, opened, placed⟩ := replaceFields_present decrypted configured found
      cases decrypts.symm.trans opened
      exact placed

end ReadBack

/-- Decryption undoes encryption however each encrypted column is read back, in whatever order the
fields are visited; neither touches another field, and neither fails when all keys are usable. -/
theorem decrypt_undoes_encrypt {service : CryptoService} {table : String} {fields : Fields}
    {random : String → Random} {order order' : List (String × FieldCryptoConfig)}
    {bytea : String → Bool} (visits : service.Order table order)
    (visits' : service.Order table order') :
    ((∀ (name : String) cfg, (service.policy table)[name]? = some cfg → service.Usable table cfg) →
      ∃ stored, service.encryptInOrder order random table fields = .ok stored) ∧
    ∀ stored, service.encryptInOrder order random table fields = .ok stored →
      (∀ name : String, (service.policy table)[name]? = none → stored[name]? = fields[name]?) ∧
      service.decryptInOrder order' table (service.readBack table bytea stored) = .ok fields := by
  constructor
  · intro usable
    have encrypts : ∃ stored, service.encrypt random table fields = .ok stored :=
      exists_replaceFields fun name cfg raw configured _ => (usable name cfg configured).encrypts raw
    exact encrypts.imp fun _ ran => (encryptInOrder_eq_ok visits).mpr ran
  · intro stored ran
    have encrypted := (encryptInOrder_eq_ok visits).mp ran
    constructor
    · exact fun name => replaceFields_unconfigured encrypted
    · exact (decryptInOrder_eq_ok visits').mpr (decrypt_readBack bytea encrypted)

end CryptoService

def contactsPolicy : FieldPolicy :=
  .ofList [("email", FieldCryptoConfig.mk "aes-gcm" "k" .aesGcm),
    ("phone", FieldCryptoConfig.mk "xchacha20poly1305" "k" .xchacha20Poly1305)]

def contactsKey : Bytes := List.replicate 32 1

def contactsService : CryptoService :=
  ⟨openCiphers, .ofList [("k", contactsKey)], .ofList [("contacts", contactsPolicy)]⟩

/-- One encrypted value, one empty one, and a column that is not encrypted. -/
def contact : Fields :=
  .ofList [("city", Json.quote "Bern"), ("email", Json.quote "a@b"), ("phone", [])]

theorem contactsService_entries : (contactsService.policy "contacts").toList =
    [("email", ⟨"aes-gcm", "k", .aesGcm⟩), ("phone", ⟨"xchacha20poly1305", "k", .xchacha20Poly1305⟩)] := by
  decide +kernel

theorem contactsService_usable (name : String) (cfg : FieldCryptoConfig)
    (configured : (contactsService.policy "contacts")[name]? = some cfg) :
    contactsService.Usable "contacts" cfg := by
  have mem := ExtTreeMap.mem_toList_iff_getElem?_eq_some.mpr configured
  rw [contactsService_entries] at mem
  rcases List.mem_pair.mp mem with same | same
  · cases same
    exact ⟨contactsKey, _, rfl, rfl⟩
  · cases same
    exact ⟨contactsKey, _, rfl, rfl⟩

/-- The e-mail column is a BYTEA column, the phone column a text column, and the two loops
visit them in different orders. -/
theorem decrypt_undoes_encrypt_contacts : ∃ stored,
    contactsService.encryptInOrder (contactsService.policy "contacts").toList (fun _ => zeros)
        "contacts" contact = .ok stored ∧
      contactsService.decryptInOrder (contactsService.policy "contacts").toList.reverse "contacts"
        (contactsService.readBack "contacts" (· = "email") stored) = .ok contact := by
  have undoes := @CryptoService.decrypt_undoes_encrypt contactsService "contacts" contact
    (fun _ => zeros) _ _ (· = "email") (List.Perm.refl (contactsService.policy "contacts").toList)
    (List.reverse_perm (contactsService.policy "contacts").toList)
  obtain ⟨stored, ran⟩ := undoes.1 contactsService_usable
  exact ⟨stored, ran, (undoes.2 stored ran).2⟩

end Transmogr
