import Mathlib.Data.List.Dedup
import Mathlib.Data.List.Induction
import Transmogr.Crypto

/-! The cached keys of a node (`pkg/crypto/keymanager.go`) and the three readings of its transformer
list: validation, the required key ids, and the fields of the crypto service. -/
namespace Transmogr

open Std (ExtTreeMap)

def isConfigured (s : String) : Bool := trimSpaces s.toList ≠ []

def validateCryptoTransformerSpec (transformerIdx : Nat) (spec : TransformerSpec) :
    Except String Unit :=
  let transformer := "transformers[" ++ toString transformerIdx ++ "]"
  if !isConfigured spec.cryptoType then .error (transformer ++ ".crypto_type is required")
  else if spec.fields = [] then .error (transformer ++ ".fields must contain at least one field")
  else match spec.fields.findIdx? (!isConfigured ·) with
    | some fieldIdx => .error (transformer ++ ".fields[" ++ toString fieldIdx ++ "] is required")
    | none =>
      if !isConfigured spec.keyID then .error (transformer ++ ".key_id is required")
      else .ok ()

def validateTransformer (transformerIdx : Nat) (spec : TransformerSpec) (tables : List TableSpec) :
    Except String Unit :=
  let transformer := "transformers[" ++ toString transformerIdx ++ "]"
  if !isConfigured spec.type then .error (transformer ++ ".type is required")
  else if !isConfigured spec.table then .error (transformer ++ ".table is required")
  else if trimSpaces spec.table.toList ∉ tables.map (trimSpaces ·.name.toList) then
    .error (transformer ++ ".table references unknown table " ++ quoted spec.table)
  else if trimmedLower spec.type = "crypto".toList then
    validateCryptoTransformerSpec transformerIdx spec
  else .error (transformer ++ ".type " ++ quoted spec.type ++ " is not supported")

/-- The loop of `Config.Validate` over the transformers. -/
def validateTransformers (tables : List TableSpec) (transformerIdx : Nat) :
    List TransformerSpec → Except String Unit
  | [] => .ok ()
  | spec :: transformers => do
    validateTransformer transformerIdx spec tables
    validateTransformers tables (transformerIdx + 1) transformers

def requiredCryptoKeyIDs (transformers : List TransformerSpec) : List String :=
  ((transformers.filter fun spec =>
    trimmedLower spec.type = "crypto".toList ∧ isConfigured spec.keyID).map (·.keyID)).dedup

structure KeySnapshot where
  activeKeyID : String := ""
  keysByID : ExtTreeMap String Bytes := ∅
  loadedAt : Nat := 0
  version : String := ""
  deriving DecidableEq

structure KeyManagerConfig where
  retryAttempts : Int
  requiredKeyIDs : List String
  deriving DecidableEq

/-- What one load meets: the provider's answer to each attempt, and the error of the context if it
is done in the wait after it. -/
structure LoadRound where
  answer : Nat → Except String KeySnapshot
  done : Nat → Option String

/-- The attempts from one on; without any there is neither a snapshot nor an error. -/
def loadAttempts (round : LoadRound) : (left attempt : Nat) → Except String KeySnapshot
  | 0, _ => .ok {}
  | left + 1, attempt =>
    match round.answer attempt with
    | .ok snapshot => .ok snapshot
    | .error err =>
      if left = 0 then .error err
      else match round.done attempt with
        | some done => .error done
        | none => loadAttempts round left (attempt + 1)

def loadWithRetry (cfg : KeyManagerConfig) (round : LoadRound) : Except String KeySnapshot :=
  loadAttempts round cfg.retryAttempts.toNat 1

def validateSnapshot (snapshot : KeySnapshot) (requiredKeyIDs : List String) : Except String Unit :=
  if snapshot.activeKeyID = "" then .error "active key id is required"
  else if snapshot.keysByID.isEmpty then .error "crypto keyring is empty"
  else if snapshot.activeKeyID ∉ snapshot.keysByID then
    .error ("active crypto key " ++ quoted snapshot.activeKeyID ++ " is not present in keyring")
  else match requiredKeyIDs.find? (· ∉ snapshot.keysByID) with
    | some keyID => .error ("required crypto key " ++ quoted keyID ++ " is not present in keyring")
    | none => .ok ()

structure KeyManager where
  cfg : KeyManagerConfig
  snapshot : KeySnapshot
  lastRefreshErr : Option String
  deriving DecidableEq

/-- A nil provider is an error. -/
def newCachedManager (provider : Option LoadRound) (cfg : KeyManagerConfig) :
    Except String KeyManager :=
  match provider with
  | none => .error "key provider is required"
  | some round => do
    let snapshot ← wrapError "initial key load" (loadWithRetry cfg round)
    wrapError "initial key load" (validateSnapshot snapshot cfg.requiredKeyIDs)
    return ⟨cfg, snapshot, none⟩

namespace KeyManager

def getKey (manager : KeyManager) (keyID : String) : Except String Bytes :=
  match manager.snapshot.keysByID[keyID]? with
  | some key => .ok key
  | none => .error ("crypto key " ++ quoted keyID ++ " is not configured")

/-- The error `Ready` returns. -/
def ready (manager : KeyManager) : Option String := manager.lastRefreshErr

def refresh (manager : KeyManager) (round : LoadRound) : KeyManager :=
  match loadWithRetry manager.cfg round with
  | .error err => { manager with lastRefreshErr := some err }
  | .ok snapshot =>
    match validateSnapshot snapshot manager.cfg.requiredKeyIDs with
    | .error err => { manager with lastRefreshErr := some err }
    | .ok _ => { manager with snapshot, lastRefreshErr := none }

end KeyManager

/-- A load and its check. -/
def KeyManagerConfig.load (cfg : KeyManagerConfig) (round : LoadRound) : Except String KeySnapshot := do
  let snapshot ← loadWithRetry cfg round
  validateSnapshot snapshot cfg.requiredKeyIDs
  return snapshot

theorem newCachedManager_eq_ok {provider : Option LoadRound} {cfg : KeyManagerConfig}
    {manager : KeyManager} (started : newCachedManager provider cfg = .ok manager) :
    ∃ round snapshot, provider = some round ∧ cfg.load round = .ok snapshot ∧
      manager = ⟨cfg, snapshot, none⟩ := by
  cases provider with
  | none => cases started
  | some round =>
    obtain ⟨snapshot, loaded, rest⟩ := Fallible.bind_eq_ok.mp started
    obtain ⟨_, valid, made⟩ := Fallible.bind_eq_ok.mp rest
    cases made
    refine ⟨round, snapshot, rfl, ?_, rfl⟩
    apply Fallible.bind_eq_ok.mpr
    exact ⟨snapshot, wrapError_eq_ok.mp loaded,
      Fallible.bind_eq_ok.mpr ⟨(), wrapError_eq_ok.mp valid, rfl⟩⟩

/-- A refresh serves what it loaded, or changes the error and nothing else. -/
theorem refresh_eq (manager : KeyManager) (round : LoadRound) :
    manager.refresh round = match manager.cfg.load round with
      | .ok snapshot => { manager with snapshot, lastRefreshErr := none }
      | .error err => { manager with lastRefreshErr := some err } := by
  unfold KeyManager.refresh KeyManagerConfig.load
  cases loadWithRetry manager.cfg round with
  | error err => rfl
  | ok snapshot =>
    simp only [bind, Except.bind]
    cases validateSnapshot snapshot manager.cfg.requiredKeyIDs <;> rfl

theorem load_valid {cfg : KeyManagerConfig} {round : LoadRound} {snapshot : KeySnapshot}
    (loaded : cfg.load round = .ok snapshot) :
    validateSnapshot snapshot cfg.requiredKeyIDs = .ok () := by
  obtain ⟨other, _, rest⟩ := Fallible.bind_eq_ok.mp loaded
  obtain ⟨_, valid, same⟩ := Fallible.bind_eq_ok.mp rest
  cases same
  exact valid

/-- The snapshots that were loaded and passed the check, in order. -/
def KeyManagerConfig.loaded (cfg : KeyManagerConfig) (rounds : List LoadRound) : List KeySnapshot :=
  rounds.filterMap fun round => (cfg.load round).toOption

/-- The state after the rounds, the first of which is the initial load. -/
structure Serves (cfg : KeyManagerConfig) (rounds : List LoadRound) (manager : KeyManager) : Prop where
  cfg_eq : manager.cfg = cfg
  last : (cfg.loaded rounds).getLast? = some manager.snapshot
  valid : validateSnapshot manager.snapshot cfg.requiredKeyIDs = .ok ()
  ready : ∃ round, rounds.getLast? = some round ∧
    (manager.ready = none ↔ ∃ snapshot, cfg.load round = .ok snapshot)

theorem Serves.start {cfg : KeyManagerConfig} {round : LoadRound} {snapshot : KeySnapshot}
    (loaded : cfg.load round = .ok snapshot) : Serves cfg [round] ⟨cfg, snapshot, none⟩ where
  cfg_eq := rfl
  last := by simp [KeyManagerConfig.loaded, loaded, Except.toOption]
  valid := load_valid loaded
  ready := ⟨round, rfl, by simp [KeyManager.ready, loaded]⟩

theorem Serves.refresh {cfg : KeyManagerConfig} {rounds : List LoadRound} {manager : KeyManager}
    (serves : Serves cfg rounds manager) (round : LoadRound) :
    Serves cfg (rounds ++ [round]) (manager.refresh round) := by
  obtain ⟨rfl, last, valid, -⟩ := serves
  rw [refresh_eq]
  cases loaded : manager.cfg.load round with
  | ok snapshot =>
    exact
      { cfg_eq := rfl
        last := by simp [KeyManagerConfig.loaded, loaded, Except.toOption]
        valid := load_valid loaded
        ready := ⟨round, by simp, by simp [KeyManager.ready, loaded]⟩ }
  | error err =>
    exact
      { cfg_eq := rfl
        last := by
          simp only [KeyManagerConfig.loaded, List.filterMap_append] at last ⊢
          simpa [loaded, Except.toOption] using last
        valid := valid
        ready := ⟨round, by simp, by simp [KeyManager.ready, loaded]⟩ }

theorem Serves.run {cfg : KeyManagerConfig} {rounds : List LoadRound} {manager : KeyManager}
    (serves : Serves cfg rounds manager) (refreshes : List LoadRound) :
    Serves cfg (rounds ++ refreshes) (refreshes.foldl KeyManager.refresh manager) := by
  induction refreshes generalizing rounds manager with
  | nil => simpa using serves
  | cons round refreshes ih =>
    rw [List.append_cons]
    exact ih (serves.refresh round)

/-- A required key is there as long as the snapshot passes the check. -/
theorem getKey_of_valid {manager : KeyManager} {required : List String} {keyID : String}
    (valid : validateSnapshot manager.snapshot required = .ok ()) (mem : keyID ∈ required) :
    ∃ key, manager.getKey keyID = .ok key := by
  have present : keyID ∈ manager.snapshot.keysByID := by
    by_contra absent
    have found : (required.find? (· ∉ manager.snapshot.keysByID)).isSome :=
      List.find?_isSome.mpr ⟨keyID, mem, by simpa using absent⟩
    obtain ⟨other, found⟩ := Option.isSome_iff_exists.mp found
    unfold validateSnapshot at valid
    rw [found] at valid
    split at valid
    · cases valid
    · split at valid
      · cases valid
      · split at valid <;> cases valid
  obtain ⟨key, found⟩ := Option.isSome_iff_exists.mp (ExtTreeMap.isSome_getElem?_iff_mem.mpr present)
  exact ⟨key, by rw [KeyManager.getKey, found]⟩

theorem mem_requiredCryptoKeyIDs {transformers : List TransformerSpec} {spec : TransformerSpec}
    (mem : spec ∈ transformers) (crypto : trimmedLower spec.type = "crypto".toList)
    (configured : isConfigured spec.keyID = true) : spec.keyID ∈ requiredCryptoKeyIDs transformers := by
  apply List.mem_dedup.mpr
  apply List.mem_map_of_mem
  exact List.mem_filter.mpr ⟨mem, decide_eq_true ⟨crypto, configured⟩⟩

theorem validateCryptoTransformerSpec_keyID {i : Nat} {spec : TransformerSpec}
    (valid : validateCryptoTransformerSpec i spec = .ok ()) : isConfigured spec.keyID = true := by
  unfold validateCryptoTransformerSpec at valid
  split at valid
  · cases valid
  · split at valid
    · cases valid
    · split at valid
      · cases valid
      · split at valid
        · cases valid
        · next configured => simpa using configured

theorem validateTransformer_keyID {i : Nat} {spec : TransformerSpec} {tables : List TableSpec}
    (valid : validateTransformer i spec tables = .ok ()) : isConfigured spec.keyID = true := by
  unfold validateTransformer at valid
  split at valid
  · cases valid
  · split at valid
    · cases valid
    · split at valid
      · cases valid
      · split at valid
        · exact validateCryptoTransformerSpec_keyID valid
        · cases valid

theorem validateTransformers_keyID {tables : List TableSpec} {i : Nat}
    {transformers : List TransformerSpec} (valid : validateTransformers tables i transformers = .ok ()) :
    ∀ spec ∈ transformers, isConfigured spec.keyID = true := by
  induction transformers generalizing i with
  | nil => exact List.forall_mem_nil _
  | cons spec transformers ih =>
    obtain ⟨_, head, tail⟩ := Fallible.bind_eq_ok.mp valid
    exact List.forall_mem_cons.mpr ⟨validateTransformer_keyID head, ih tail⟩

/-- Some crypto transformer has the key id. -/
def OfTransformer (transformers : List TransformerSpec) (keyID : String) : Prop :=
  ∃ spec ∈ transformers, trimmedLower spec.type = "crypto".toList ∧ spec.keyID = keyID

/-- Every field of the map has a key id with the property. -/
def KeyIDsIn (p : String → Prop) (fieldsByTable : ExtTreeMap String FieldPolicy) : Prop :=
  ∀ (table : String) (policy : FieldPolicy), fieldsByTable[table]? = some policy →
    ∀ (field : String) (cfg : FieldCryptoConfig), policy[field]? = some cfg → p cfg.keyID

theorem policy_insertAll {p : String → Prop} {cfg : FieldCryptoConfig} (here : p cfg.keyID)
    {policy : FieldPolicy} (holds : ∀ (field : String) c, policy[field]? = some c → p c.keyID)
    (fields : List String) : ∀ (field : String) c,
      (fields.foldl (fun policy field => policy.insert field cfg) policy)[field]? = some c →
        p c.keyID := by
  induction fields generalizing policy with
  | nil => exact holds
  | cons name fields ih =>
    apply ih
    intro field c found
    rw [ExtTreeMap.getElem?_insert] at found
    split at found
    · cases found
      exact here
    · exact holds field c found

theorem encryptedFieldsByTable_keyIDs {transformers : List TransformerSpec}
    {fieldsByTable : ExtTreeMap String FieldPolicy}
    (built : encryptedFieldsByTable transformers = .ok fieldsByTable) :
    KeyIDsIn (OfTransformer transformers) fieldsByTable := by
  refine Fallible.foldlM_rel (R := fun before after => KeyIDsIn _ before → KeyIDsIn _ after)
    (fun _ holds => holds) (fun first second holds => second (first holds)) ?_ built ?_
  · intro spec mem before after taken holds
    split at taken
    · cases taken
      exact holds
    · next crypto =>
      split at taken
      · cases taken
      · next handler _ =>
        cases taken
        intro table policy found
        rw [ExtTreeMap.getElem?_insert] at found
        split at found
        · cases found
          have here : OfTransformer transformers spec.keyID := ⟨spec, mem, by simpa using crypto, rfl⟩
          refine policy_insertAll (p := OfTransformer transformers) here ?_ _
          intro field c found
          cases at_table : before[String.ofList (trimSpaces spec.table.toList)]? with
          | none => simp [at_table] at found
          | some policy =>
            rw [at_table] at found
            exact holds _ policy at_table field c found
        · exact holds table policy found
  · intro table policy found
    simp at found

/-- Once a node has started, the keys of its configured fields stay loaded: whatever the provider
answers, the manager serves the last snapshot that passed the check, a failed refresh changes only
the error, and there is no error exactly after a load that succeeded. -/
theorem configured_keys_stay_loaded {tables : List TableSpec} {transformers : List TransformerSpec}
    {fieldsByTable : ExtTreeMap String FieldPolicy} {initial : LoadRound} {retryAttempts : Int}
    {manager : KeyManager}
    (valid : validateTransformers tables 0 transformers = .ok ())
    (built : encryptedFieldsByTable transformers = .ok fieldsByTable)
    (started : newCachedManager (some initial) ⟨retryAttempts, requiredCryptoKeyIDs transformers⟩ =
      .ok manager) (refreshes : List LoadRound) :
    let later := refreshes.foldl KeyManager.refresh manager
    (∀ (table : String) (policy : FieldPolicy), fieldsByTable[table]? = some policy →
        ∀ (field : String) (cfg : FieldCryptoConfig), policy[field]? = some cfg →
          ∃ key, later.getKey cfg.keyID = .ok key) ∧
      (manager.cfg.loaded (initial :: refreshes)).getLast? = some later.snapshot ∧
      (∀ round err, manager.cfg.load round = .error err →
        later.refresh round = { later with lastRefreshErr := some err }) ∧
      ∃ round, (initial :: refreshes).getLast? = some round ∧
        (later.ready = none ↔ ∃ snapshot, manager.cfg.load round = .ok snapshot) := by
  obtain ⟨round, snapshot, found, loaded, rfl⟩ := newCachedManager_eq_ok started
  cases found
  have serves := (Serves.start loaded).run refreshes
  refine ⟨?_, serves.last, ?_, serves.ready⟩
  · intro table policy at_table field cfg at_field
    obtain ⟨spec, mem, crypto, same⟩ := encryptedFieldsByTable_keyIDs built table policy at_table field
      cfg at_field
    rw [← same]
    exact getKey_of_valid serves.valid
      (mem_requiredCryptoKeyIDs mem crypto (validateTransformers_keyID valid spec mem))
  · intro round err failed
    rw [refresh_eq, serves.cfg_eq, failed]

/-- The names of the users are encrypted under a key that a later keyring lacks. -/
def namesTransformer : TransformerSpec := ⟨"Crypto", "users", ["name"], "k1", "aes-gcm"⟩

def keyring (keys : List String) : KeySnapshot where
  activeKeyID := "k1"
  keysByID := .ofList (keys.map fun key => (key, ([1] : Bytes)))

def answering (snapshot : KeySnapshot) : LoadRound := ⟨fun _ => .ok snapshot, fun _ => none⟩

theorem configured_keys_stay_loaded_users : ∃ manager fieldsByTable policy,
    newCachedManager (some (answering (keyring ["k1"])))
        ⟨3, requiredCryptoKeyIDs [namesTransformer]⟩ = .ok manager ∧
      encryptedFieldsByTable [namesTransformer] = .ok fieldsByTable ∧
      fieldsByTable["users"]? = some policy ∧
      policy["name"]? = some ⟨"aes-gcm", "k1", .aesGcm⟩ ∧
      ∃ key, ([answering (keyring ["k2"])].foldl KeyManager.refresh manager).getKey "k1" =
        .ok key := by
  have started : newCachedManager (some (answering (keyring ["k1"])))
      ⟨3, requiredCryptoKeyIDs [namesTransformer]⟩ =
        .ok ⟨⟨3, requiredCryptoKeyIDs [namesTransformer]⟩, keyring ["k1"], none⟩ := by decide
  refine ⟨_, _, _, started, rfl, rfl, rfl, ?_⟩
  have valid : validateTransformers [usersSpec] 0 [namesTransformer] = .ok () := by decide
  exact (configured_keys_stay_loaded valid rfl started _).1 "users" _ rfl "name"
    ⟨"aes-gcm", "k1", .aesGcm⟩ rfl

end Transmogr
