import Transmogr.Crypto
import Transmogr.HandshakeForm

/-! The handshake (`models/stream.go`, `protocol/handshake.go`) and the part of a node's
configuration that it announces. -/
namespace Transmogr

structure HandshakeTable where
  name : String
  primaryKey : List String
  regionField : String
  columns : List ColumnInfo
  deriving DecidableEq, Repr

structure HandshakeConfig where
  source : String
  tables : List HandshakeTable
  deriving DecidableEq, Repr

/-- The configuration travels as JSON; `none` is a text that does not parse. -/
structure HandshakeMessage where
  region : String
  version : String
  configuration : Option HandshakeConfig
  deriving DecidableEq, Repr

/-- What a node is configured with, as far as handshakes and transformers go. -/
structure NodeConfig where
  region : String
  version : String
  sourceType : String
  tables : List TableSpec
  columns : String → List ColumnInfo
  transformers : List TransformerSpec
  keysByID : Std.ExtTreeMap String Bytes

def sortedTables (tables : List TableSpec) : List TableSpec :=
  tables.insertionSort fun left right => compare left.name right.name ≠ .gt

def buildHandshakeConfiguration (cfg : NodeConfig) : HandshakeConfig where
  source := cfg.sourceType
  tables := (sortedTables cfg.tables).map fun table =>
    { name := table.name
      primaryKey := table.primaryKey
      regionField := table.regionField
      columns := (cfg.columns table.name).insertionSort fun left right =>
        compare left.name right.name ≠ .gt }

def NodeConfig.handshake (cfg : NodeConfig) : HandshakeMessage :=
  ⟨cfg.region, cfg.version, some (buildHandshakeConfiguration cfg)⟩

/-- A configuration of our own that does not parse has no tables. -/
def handshakeTableNames (configuration : Option HandshakeConfig) : List String :=
  (configuration.map fun cfg => cfg.tables.map (·.name)).getD []

def sameTables (left right : List String) : Bool :=
  left.insertionSort (fun a b => compare a b ≠ .gt) == right.insertionSort fun a b => compare a b ≠ .gt

/-- The table names and the versions are compared, and nothing else. -/
def checkHandshakeCompatibility (localHandshake remote : HandshakeMessage) : Except String Unit :=
  match remote.configuration with
  | none => .error "invalid peer configuration"
  | some _ =>
    let localTables := handshakeTableNames localHandshake.configuration
    let remoteTables := handshakeTableNames remote.configuration
    if !sameTables localTables remoteTables then
      .error ("peer table set does not match: local_only=[" ++
        String.intercalate " " (localTables.filter fun table => table ∉ remoteTables) ++
        "] remote_only=[" ++
        String.intercalate " " (remoteTables.filter fun table => table ∉ localTables) ++ "]")
    else if remote.version ≠ localHandshake.version then
      .error ("peer version mismatch: local=" ++ localHandshake.version ++ " remote=" ++ remote.version)
    else .ok ()

/-- `encoding/json` on configurations. -/
structure ConfigJson where
  marshal : HandshakeConfig → String
  unmarshal : String → Except String HandshakeConfig
  unmarshal_marshal : ∀ cfg, unmarshal (marshal cfg) = .ok cfg

/-- `peerv1.Handshake` -/
structure HandshakeText where
  region : String
  version : String
  configuration : String
  deriving DecidableEq, Repr

def NodeConfig.handshakeText (json : ConfigJson) (cfg : NodeConfig) : HandshakeText :=
  ⟨cfg.region, cfg.version, json.marshal (buildHandshakeConfiguration cfg)⟩

def HandshakeText.parse (json : ConfigJson) (text : HandshakeText) : HandshakeMessage :=
  ⟨text.region, text.version, (json.unmarshal text.configuration).toOption⟩

def checkHandshakeTexts (json : ConfigJson) (localHandshake remote : HandshakeText) :
    Except String Unit :=
  match json.unmarshal remote.configuration with
  | .error err => .error ("invalid peer configuration: " ++ err)
  | .ok _ => checkHandshakeCompatibility (localHandshake.parse json) (remote.parse json)

/-! ## The verdict -/

instance totalNames : Std.Total fun a b : String => compare a b ≠ .gt where
  total a b := by
    cases order : compare a b with
    | lt | eq => exact .inl (by simp)
    | gt => exact .inr (by simp [Std.OrientedCmp.gt_iff_lt.mp order])

instance transNames : IsTrans String fun a b => compare a b ≠ .gt where
  trans a b c ab bc := by
    apply Ordering.isLE_iff_ne_gt.mp
    exact Std.TransCmp.isLE_trans (Ordering.isLE_iff_ne_gt.mpr ab) (Ordering.isLE_iff_ne_gt.mpr bc)

theorem sameTables_iff_perm {left right : List String} :
    sameTables left right = true ↔ left.Perm right := by
  have toLeft := List.perm_insertionSort (fun a b : String => compare a b ≠ .gt) left
  have toRight := List.perm_insertionSort (fun a b : String => compare a b ≠ .gt) right
  rw [sameTables, beq_iff_eq]
  constructor
  · intro same
    rw [same] at toLeft
    exact toLeft.symm.trans toRight
  · intro perm
    refine List.Perm.eq_of_pairwise ?_ (List.pairwise_insertionSort _ left)
      (List.pairwise_insertionSort _ right) ((toLeft.trans perm).trans toRight.symm)
    intro a b _ _ ab ba
    have equal := Std.OrientedCmp.isLE_antisymm (Ordering.isLE_iff_ne_gt.mpr ab)
      (Ordering.isLE_iff_ne_gt.mpr ba)
    exact Std.LawfulEqCmp.eq_of_compare equal

theorem checkHandshakeCompatibility_eq_ok {localHandshake remote : HandshakeMessage} :
    checkHandshakeCompatibility localHandshake remote = .ok () ↔
      remote.configuration.isSome ∧ localHandshake.version = remote.version ∧
        (handshakeTableNames localHandshake.configuration).Perm
          (handshakeTableNames remote.configuration) := by
  unfold checkHandshakeCompatibility
  cases remote.configuration with
  | none => simp
  | some cfg =>
    simp only [Option.isSome_some, true_and]
    by_cases same : sameTables (handshakeTableNames localHandshake.configuration)
        (handshakeTableNames (some cfg)) = true
    · by_cases versions : remote.version = localHandshake.version
      · simp [same, versions, sameTables_iff_perm.mp same]
      · simp [same, versions, Ne.symm versions]
    · simp [same, mt sameTables_iff_perm.mpr same]

/-- The names a node announces are those of its tables. -/
theorem handshakeTableNames_build (cfg : NodeConfig) :
    (handshakeTableNames (some (buildHandshakeConfiguration cfg))).Perm (cfg.tables.map (·.name)) := by
  have names : handshakeTableNames (some (buildHandshakeConfiguration cfg)) =
      (sortedTables cfg.tables).map (·.name) := by
    simp [handshakeTableNames, buildHandshakeConfiguration]
  rw [names]
  exact (List.perm_insertionSort _ cfg.tables).map _

variable (json : ConfigJson)

theorem parse_handshakeText (cfg : NodeConfig) :
    (cfg.handshakeText json).parse json = cfg.handshake := by
  simp [HandshakeText.parse, NodeConfig.handshakeText, NodeConfig.handshake,
    json.unmarshal_marshal, Except.toOption]

theorem checkHandshakeTexts_eq_ok {localHandshake remote : HandshakeText} :
    checkHandshakeTexts json localHandshake remote = .ok () ↔
      checkHandshakeCompatibility (localHandshake.parse json) (remote.parse json) = .ok () := by
  unfold checkHandshakeTexts
  cases parsed : json.unmarshal remote.configuration with
  | error err =>
    have absent : (remote.parse json).configuration = none := by
      simp [HandshakeText.parse, parsed, Except.toOption]
    simp [checkHandshakeCompatibility_eq_ok, absent]
  | ok cfg => rfl

theorem nodes_compatible_iff (node peer : NodeConfig) :
    checkHandshakeTexts json (node.handshakeText json) (peer.handshakeText json) = .ok () ↔
      node.version = peer.version ∧
        (node.tables.map (·.name)).Perm (peer.tables.map (·.name)) := by
  have mine := handshakeTableNames_build node
  have theirs := handshakeTableNames_build peer
  rw [checkHandshakeTexts_eq_ok, parse_handshakeText, parse_handshakeText,
    checkHandshakeCompatibility_eq_ok]
  simp only [NodeConfig.handshake, Option.isSome_some, true_and]
  exact and_congr_right fun _ => ⟨fun perm => (mine.symm.trans perm).trans theirs,
    fun perm => (mine.trans perm).trans theirs.symm⟩

/-- Two nodes are compatible exactly if their versions are equal and their tables have the same
names, whichever of them checks; and no text passes that does not parse to the same names. -/
theorem handshake_verdict_agrees (node peer : NodeConfig) (remote : HandshakeText) :
    (checkHandshakeTexts json (node.handshakeText json) (peer.handshakeText json) = .ok () ↔
        node.version = peer.version ∧
          (node.tables.map (·.name)).Perm (peer.tables.map (·.name))) ∧
      (checkHandshakeTexts json (node.handshakeText json) (peer.handshakeText json) = .ok () ↔
        checkHandshakeTexts json (peer.handshakeText json) (node.handshakeText json) = .ok ()) ∧
      (checkHandshakeTexts json (node.handshakeText json) remote = .ok () →
        ∃ cfg, json.unmarshal remote.configuration = .ok cfg ∧
          (cfg.tables.map (·.name)).Perm (node.tables.map (·.name))) := by
  refine ⟨nodes_compatible_iff json node peer, ?_, ?_⟩
  · rw [nodes_compatible_iff, nodes_compatible_iff]
    exact and_congr eq_comm ⟨List.Perm.symm, List.Perm.symm⟩
  · intro accepted
    rw [checkHandshakeTexts_eq_ok, parse_handshakeText, checkHandshakeCompatibility_eq_ok] at accepted
    obtain ⟨parsed, -, perm⟩ := accepted
    cases read : json.unmarshal remote.configuration with
    | error err => simp [HandshakeText.parse, read, Except.toOption] at parsed
    | ok cfg =>
      refine ⟨cfg, rfl, ?_⟩
      simp only [HandshakeText.parse, read, Except.toOption] at perm
      exact perm.symm.trans (handshakeTableNames_build node)

namespace HandshakeForm

/-- A list that is there. -/
def ofSpec (table : Transmogr.TableSpec) : TableSpec :=
  ⟨table.name, some table.primaryKey, table.updatedAtField, table.regionField⟩

def ofTable (table : Transmogr.HandshakeTable) : HandshakeTable :=
  ⟨table.name, some table.primaryKey, table.regionField, some table.columns⟩

def ofConfig (cfg : Transmogr.HandshakeConfig) : HandshakeConfig :=
  ⟨cfg.source, cfg.tables.map ofTable⟩

theorem ofConfig_injective : Function.Injective ofConfig := by
  have table : Function.Injective ofTable := by
    rintro ⟨⟩ ⟨⟩ same
    simpa [ofTable] using same
  rintro ⟨source, tables⟩ ⟨source', tables'⟩ same
  obtain ⟨rfl, mapped⟩ := HandshakeConfig.mk.inj same
  cases table.list_map mapped
  rfl

theorem compareTexts_le_zero {left right : String} :
    compareTexts left right ≤ 0 ↔ compare left right ≠ .gt := by
  rw [compareTexts_eq, sign_le_zero, Ordering.isLE_iff_ne_gt]

/-- With distinct names any sort builds what insertion sort does for a node. -/
theorem handshakeConfig_of_node (slices : SortFunc) (cfg : NodeConfig)
    {columns : Std.ExtTreeMap String (Slice ColumnInfo)} (names : (cfg.tables.map (·.name)).Nodup)
    (distinct : ∀ table ∈ cfg.tables, ((cfg.columns table.name).map (·.name)).Nodup)
    (known : ∀ table ∈ cfg.tables, columnsOf columns table.name = some (cfg.columns table.name)) :
    handshakeConfig slices cfg.sourceType (cfg.tables.map ofSpec) columns =
      ofConfig (Transmogr.buildHandshakeConfiguration cfg) := by
  have same {α : Type} (name : α → String) (xs : List α) (distinct : (xs.map name).Nodup) :
      slices.sort (fun left right => compareTexts (name left) (name right)) xs =
        xs.insertionSort fun left right => compare (name left) (name right) ≠ .gt := by
    have insertion := slices.eq_sort (weakOrder_texts name) (fun _ _ => eq_of_compareTexts) distinct
      (SortFunc.insertion.perm _ xs) (SortFunc.insertion.sorted (weakOrder_texts name) xs)
    simp only [SortFunc.insertion, compareTexts_le_zero] at insertion
    exact insertion.symm
  have specs : ((cfg.tables.map ofSpec).map (·.name)).Nodup := by
    rw [List.map_map]
    exact names
  have sorted := List.map_insertionSort
    (fun left right : Transmogr.TableSpec => compare left.name right.name ≠ .gt)
    (fun left right : TableSpec => compare left.name right.name ≠ .gt) ofSpec cfg.tables
    fun _ _ _ _ => Iff.rfl
  simp only [handshakeConfig, ofConfig, Transmogr.buildHandshakeConfiguration, sortedTables,
    HandshakeConfig.mk.injEq, true_and]
  rw [same (·.name) (cfg.tables.map ofSpec) specs, ← sorted, List.map_map, List.map_map]
  apply List.map_congr_left
  intro table mem
  have inside := (List.perm_insertionSort _ cfg.tables).subset mem
  have columns := same (·.name) (cfg.columns table.name) (distinct table inside)
  simp only [Function.comp_def, handshakeTable, ofSpec, ofTable, known table inside, Option.map_some,
    columns]

end HandshakeForm

/-- The characters of a text in ASCII. -/
def asciiText (text : Bytes) : String := String.ofList (text.map fun b => Char.ofNat b.toNat)

theorem asciiText_injective : Function.Injective asciiText := by
  have code (b : UInt8) : (Char.ofNat b.toNat).toNat = b.toNat := by
    have valid : b.toNat.isValidChar := .inl (b.toNat_lt.trans (by decide))
    rw [Char.ofNat, dif_pos valid]
    rfl
  have char : Function.Injective fun b : UInt8 => Char.ofNat b.toNat := by
    intro b c same
    have codes : (Char.ofNat b.toNat).toNat = (Char.ofNat c.toNat).toNat := congrArg Char.toNat same
    rw [code, code] at codes
    exact UInt8.toNat_inj.mp codes
  intro a b same
  exact char.list_map (String.ofList_injective same)

/-- The encoder of the module before has a decoder. -/
theorem exists_configJson : ∃ json : ConfigJson,
    ∀ cfg, json.marshal cfg = asciiText (HandshakeForm.configText (HandshakeForm.ofConfig cfg)) := by
  let marshal (cfg : HandshakeConfig) := asciiText (HandshakeForm.configText (HandshakeForm.ofConfig cfg))
  have injective : Function.Injective marshal := asciiText_injective.comp
    (HandshakeForm.configText_injective.comp HandshakeForm.ofConfig_injective)
  classical
  refine ⟨⟨marshal, fun text => if found : ∃ cfg, marshal cfg = text then .ok found.choose
    else .error "invalid character", fun cfg => ?_⟩, fun cfg => rfl⟩
  have found : ∃ other, marshal other = marshal cfg := ⟨cfg, rfl⟩
  rw [dif_pos found, injective found.choose_spec]

def twoTables (version : String) (tables : List String) : NodeConfig where
  region := "eu"
  version := version
  sourceType := "cdc"
  tables := tables.map fun name => ⟨name, ["id"], "", ""⟩
  columns _ := []
  transformers := []
  keysByID := ∅

theorem handshake_verdict_two_tables : ∃ json : ConfigJson,
    (∀ cfg, json.marshal cfg = asciiText (HandshakeForm.configText (HandshakeForm.ofConfig cfg))) ∧
      checkHandshakeTexts json ((twoTables "1" ["users", "orders"]).handshakeText json)
        ((twoTables "1" ["orders", "users"]).handshakeText json) = .ok () ∧
      checkHandshakeTexts json ((twoTables "1" ["users", "orders"]).handshakeText json)
        ((twoTables "2" ["orders", "users"]).handshakeText json) ≠ .ok () := by
  obtain ⟨json, encodes⟩ := exists_configJson
  have verdict (version : String) := (handshake_verdict_agrees json
    (twoTables "1" ["users", "orders"]) (twoTables version ["orders", "users"]) ⟨"", "", ""⟩).1
  exact ⟨json, encodes, (verdict "1").mpr (by decide), (verdict "2").not.mpr (by decide)⟩

end Transmogr
