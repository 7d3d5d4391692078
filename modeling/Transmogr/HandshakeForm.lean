import Transmogr.Apply
import Transmogr.JsonText
import Transmogr.PrefixCodes
import Transmogr.Sorting
import Transmogr.TextOrder

/-! `BuildHandshakeConfiguration` with Go's nil lists and a sort that need not be stable. The text it
builds is a normal form: it forgets the order of the tables and of their columns, and nothing else. -/
namespace Transmogr.HandshakeForm

/-- A slice; `none` is nil. -/
abbrev Slice (α : Type) := Option (List α)

structure TableSpec where
  name : String
  primaryKey : Slice String
  updatedAtField : String
  regionField : String

structure HandshakeTable where
  name : String
  primaryKey : Slice String
  regionField : String
  columns : Slice ColumnInfo

structure HandshakeConfig where
  source : String
  tables : List HandshakeTable

/-- `columns[table]`, nil if the map has no such entry. -/
def columnsOf (columns : Std.ExtTreeMap String (Slice ColumnInfo)) (table : String) : Slice ColumnInfo :=
  columns[table]?.join

def handshakeTable (slices : SortFunc) (columns : Std.ExtTreeMap String (Slice ColumnInfo))
    (table : TableSpec) : HandshakeTable where
  name := table.name
  primaryKey := table.primaryKey
  regionField := table.regionField
  columns := (columnsOf columns table.name).map
    (slices.sort fun left right => compareTexts left.name right.name)

/-- A nil list of tables is ranged over like an empty one, and the list of the result is never nil. -/
def handshakeConfig (slices : SortFunc) (sourceType : String) (tables : List TableSpec)
    (columns : Std.ExtTreeMap String (Slice ColumnInfo)) : HandshakeConfig where
  source := sourceType
  tables := (slices.sort (fun left right => compareTexts left.name right.name) tables).map
    (handshakeTable slices columns)

def buildHandshakeConfiguration (slices : SortFunc) (marshal : HandshakeConfig → Bytes)
    (sourceType : String) (tables : List TableSpec)
    (columns : Std.ExtTreeMap String (Slice ColumnInfo)) : Bytes :=
  marshal (handshakeConfig slices sourceType tables columns)

/-- Names that differ leave a sort by name no choice. -/
theorem sort_names_eq {α : Type} {name : α → String} {xs ys : List α} (slices : SortFunc)
    (distinct : (xs.map name).Nodup) (perm : ys.Perm xs) :
    slices.sort (fun left right => compareTexts (name left) (name right)) ys =
      slices.sort (fun left right => compareTexts (name left) (name right)) xs :=
  slices.sort_eq_of_perm (weakOrder_texts name) (fun _ _ => eq_of_compareTexts) distinct perm

/-- The columns of each table have different names. -/
def DistinctColumns (columns : Std.ExtTreeMap String (Slice ColumnInfo)) (tables : List TableSpec) : Prop :=
  ∀ table ∈ tables, ∀ infos, columnsOf columns table.name = some infos → (infos.map (·.name)).Nodup

/-- The tables are described alike, up to the order of the columns. -/
structure Alike (columns others : Std.ExtTreeMap String (Slice ColumnInfo)) (table other : TableSpec) :
    Prop where
  name : table.name = other.name
  primaryKey : table.primaryKey = other.primaryKey
  regionField : table.regionField = other.regionField
  columns : Option.Rel List.Perm (columnsOf columns table.name) (columnsOf others other.name)

section Form

variable {slices : SortFunc} {columns others : Std.ExtTreeMap String (Slice ColumnInfo)}
  {tables arranged : List TableSpec}

theorem handshakeTable_eq {table : TableSpec}
    (distinct : ∀ infos, columnsOf columns table.name = some infos → (infos.map (·.name)).Nodup)
    (perm : Option.Rel List.Perm (columnsOf others table.name) (columnsOf columns table.name)) :
    handshakeTable slices others table = handshakeTable slices columns table := by
  simp only [handshakeTable, HandshakeTable.mk.injEq, true_and]
  generalize columnsOf others table.name = after at perm ⊢
  generalize columnsOf columns table.name = before at distinct perm ⊢
  cases perm with
  | none => rfl
  | some perm => exact congrArg some (sort_names_eq slices (distinct _ rfl) perm)

/-- The order of tables and columns leaves no trace. -/
theorem handshakeConfig_eq_of_perm (sourceType : String) (names : (tables.map (·.name)).Nodup)
    (distinct : DistinctColumns columns tables) (perm : arranged.Perm tables)
    (rearranged : ∀ table ∈ tables,
      Option.Rel List.Perm (columnsOf others table.name) (columnsOf columns table.name)) :
    handshakeConfig slices sourceType arranged others = handshakeConfig slices sourceType tables columns := by
  simp only [handshakeConfig, HandshakeConfig.mk.injEq, true_and]
  rw [sort_names_eq slices names perm]
  apply List.map_congr_left
  intro table mem
  have known := (slices.perm _ tables).subset mem
  exact handshakeTable_eq (distinct table known) (rearranged table known)

theorem alike_of_handshakeTable_eq {table other : TableSpec}
    (same : handshakeTable slices columns table = handshakeTable slices others other) :
    Alike columns others table other := by
  simp only [handshakeTable, HandshakeTable.mk.injEq] at same
  obtain ⟨name, primaryKey, regionField, sorted⟩ := same
  refine ⟨name, primaryKey, regionField, ?_⟩
  generalize columnsOf columns table.name = left at sorted ⊢
  generalize columnsOf others other.name = right at sorted ⊢
  cases left with
  | none =>
    cases right with
    | none => exact .none
    | some infos => cases sorted
  | some infos =>
    cases right with
    | none => cases sorted
    | some infos' => exact .some (slices.perm_of_sort_eq (Option.some.inj sorted))

/-- Everything but the order can be read off the configuration. -/
theorem alike_of_handshakeConfig_eq {sourceType sourceType' : String} {tables' : List TableSpec}
    (same : handshakeConfig slices sourceType tables columns =
      handshakeConfig slices sourceType' tables' others) :
    sourceType = sourceType' ∧
      ∃ arranged, List.Forall₂ (Alike columns others) tables arranged ∧ arranged.Perm tables' := by
  simp only [handshakeConfig, HandshakeConfig.mk.injEq] at same
  refine ⟨same.1, ?_⟩
  have each := List.forall₂_eq_eq_eq ▸ same.2
  rw [List.forall₂_map_left_iff, List.forall₂_map_right_iff] at each
  have alike := each.imp fun _ _ => alike_of_handshakeTable_eq
  obtain ⟨arranged, related, perm⟩ := List.perm_comp_forall₂ (slices.perm _ tables).symm alike
  exact ⟨arranged, related, perm.trans (slices.perm _ tables')⟩

/-- The text is the same for every order of the tables and of the columns of each, and equal texts are
of tables that differ in nothing else. -/
theorem handshake_normal_form (slices : SortFunc) (marshal : HandshakeConfig → Bytes)
    (injective : Function.Injective marshal) (sourceType : String) (tables : List TableSpec)
    (columns : Std.ExtTreeMap String (Slice ColumnInfo)) (names : (tables.map (·.name)).Nodup)
    (distinct : DistinctColumns columns tables) :
    (∀ arranged others, List.Perm arranged tables →
      (∀ table ∈ tables,
        Option.Rel List.Perm (columnsOf others table.name) (columnsOf columns table.name)) →
      buildHandshakeConfiguration slices marshal sourceType arranged others =
        buildHandshakeConfiguration slices marshal sourceType tables columns) ∧
    ∀ sourceType' tables' others,
      buildHandshakeConfiguration slices marshal sourceType tables columns =
        buildHandshakeConfiguration slices marshal sourceType' tables' others →
      sourceType = sourceType' ∧
        ∃ arranged, List.Forall₂ (Alike columns others) tables arranged ∧ arranged.Perm tables' := by
  constructor
  · intro arranged others perm rearranged
    exact congrArg marshal (handshakeConfig_eq_of_perm sourceType names distinct perm rearranged)
  · intro sourceType' tables' others same
    exact alike_of_handshakeConfig_eq (injective same)

end Form

open Json (quote)
open PrefixCodes (PrefixFree)

/-- A member of an object. -/
def field (name : String) (value : Bytes) : Bytes := quote name ++ 0x3a :: value

def listText {α : Type} (text : α → Bytes) (xs : List α) : Bytes :=
  0x5b :: Json.commaList (xs.map text) ++ [0x5d]

def sliceText {α : Type} (text : α → Bytes) : Slice α → Bytes
  | none => Json.nullText
  | some xs => listText text xs

def columnText (column : ColumnInfo) : Bytes :=
  0x7b :: Json.commaList [field "name" (quote column.name), field "data_type" (quote column.dataType)] ++
    [0x7d]

def tableText (table : HandshakeTable) : Bytes :=
  0x7b :: Json.commaList [field "name" (quote table.name),
    field "primary_key" (sliceText quote table.primaryKey),
    field "region_field" (quote table.regionField),
    field "columns" (sliceText columnText table.columns)] ++ [0x7d]

/-- `json.Marshal` of a configuration. -/
def configText (cfg : HandshakeConfig) : Bytes :=
  0x7b :: Json.commaList [field "source" (quote cfg.source),
    field "tables" (listText tableText cfg.tables)] ++ [0x7d]

theorem prefixFree_quote : PrefixFree quote := by
  intro a b s t same
  have left := Json.scanValue_string Json.needsCode_escaping a s 0
  have right := Json.scanValue_string Json.needsCode_escaping b t 0
  change Json.scanValue 1 (quote a ++ s) = _ at left
  rw [same] at left
  simpa using left.symm.trans right

/-- A closing bracket ends a list of texts. -/
theorem commaList_unique {α : Type} {text : α → Bytes} (free : PrefixFree text) {x y : α} {xs ys : List α}
    {s t : Bytes} (same : Json.commaList ((x :: xs).map text) ++ 0x5d :: s =
      Json.commaList ((y :: ys).map text) ++ 0x5d :: t) : x :: xs = y :: ys ∧ s = t := by
  induction xs generalizing x y ys with
  | nil =>
    cases ys with
    | nil =>
      obtain ⟨rfl, rest⟩ := free same
      exact ⟨rfl, (List.cons.inj rest).2⟩
    | cons y' ys =>
      simp only [List.map_cons, List.map_nil, Json.commaList, List.append_assoc, List.cons_append] at same
      obtain ⟨-, rest⟩ := free same
      cases rest
  | cons x' xs ih =>
    cases ys with
    | nil =>
      simp only [List.map_cons, List.map_nil, Json.commaList, List.append_assoc, List.cons_append] at same
      obtain ⟨-, rest⟩ := free same
      cases rest
    | cons y' ys =>
      simp only [List.map_cons, Json.commaList, List.append_assoc, List.cons_append] at same
      obtain ⟨rfl, rest⟩ := free same
      obtain ⟨tail, rest⟩ := ih (by simpa using rest)
      exact ⟨by rw [tail], rest⟩

theorem commaList_filled {α : Type} {text : α → Bytes}
    (starts : ∀ a, ∃ b tail, text a = b :: tail ∧ b ≠ 0x5d)
    (y : α) (ys : List α) (s t : Bytes) :
    0x5d :: s ≠ Json.commaList ((y :: ys).map text) ++ 0x5d :: t := by
  intro same
  obtain ⟨b, tail, word, opened⟩ := starts y
  have first : ∃ rest, Json.commaList ((y :: ys).map text) = b :: rest := by
    cases ys <;> simp [Json.commaList, word]
  obtain ⟨rest, front⟩ := first
  rw [front] at same
  exact opened (List.cons.inj same).1.symm

/-- A list of texts that start with no closing bracket can be split off the front. -/
theorem prefixFree_listText {α : Type} {text : α → Bytes} (free : PrefixFree text)
    (starts : ∀ a, ∃ b tail, text a = b :: tail ∧ b ≠ 0x5d) : PrefixFree (listText text) := by
  intro xs ys s t same
  simp only [listText, List.cons_append, List.append_assoc, List.nil_append, List.cons.injEq,
    true_and] at same
  cases xs with
  | nil =>
    cases ys with
    | nil => exact ⟨rfl, (List.cons.inj same).2⟩
    | cons y ys => exact absurd same (commaList_filled starts y ys s t)
  | cons x xs =>
    cases ys with
    | nil => exact absurd same.symm (commaList_filled starts x xs t s)
    | cons y ys => exact commaList_unique free same

theorem prefixFree_sliceText {α : Type} {text : α → Bytes} (free : PrefixFree (listText text)) :
    PrefixFree (sliceText text) := by
  intro a b s t same
  cases a with
  | none =>
    cases b with
    | none => exact ⟨rfl, List.append_cancel_left same⟩
    | some ys => cases same
  | some xs =>
    cases b with
    | none => cases same
    | some ys =>
      obtain ⟨rfl, rest⟩ := free same
      exact ⟨rfl, rest⟩

theorem prefixFree_columnText : PrefixFree columnText := by
  have fields : Function.Injective fun column : ColumnInfo => (column.name, column.dataType) := by
    rintro ⟨⟩ ⟨⟩ same
    simpa using same
  have free := ((prefixFree_quote.framed (0x7b :: (quote "name" ++ [0x3a]))
    (0x2c :: (quote "data_type" ++ [0x3a]))).pair (prefixFree_quote.framed [] [0x7d])).comp fields
  intro a b s t same
  apply free
  simpa [columnText, field, Json.commaList] using same

theorem prefixFree_tableText : PrefixFree tableText := by
  have fields : Function.Injective fun table : HandshakeTable =>
      ((table.name, table.primaryKey), table.regionField, table.columns) := by
    rintro ⟨⟩ ⟨⟩ same
    simpa [and_assoc] using same
  have keys : PrefixFree (sliceText quote) := prefixFree_sliceText
    (prefixFree_listText prefixFree_quote fun s => ⟨0x22, _, rfl, by decide⟩)
  have columns : PrefixFree (sliceText columnText) := prefixFree_sliceText
    (prefixFree_listText prefixFree_columnText fun c => ⟨0x7b, _, rfl, by decide⟩)
  have free := (((prefixFree_quote.framed (0x7b :: (quote "name" ++ [0x3a]))
      (0x2c :: (quote "primary_key" ++ [0x3a]))).pair
        (keys.framed [] (0x2c :: (quote "region_field" ++ [0x3a])))).pair
    ((prefixFree_quote.framed [] (0x2c :: (quote "columns" ++ [0x3a]))).pair
      (columns.framed [] [0x7d]))).comp fields
  intro a b s t same
  apply free
  simpa [tableText, field, Json.commaList] using same

/-- What is assumed of the encoder is true of this one. -/
theorem configText_injective : Function.Injective configText := by
  have fields : Function.Injective fun cfg : HandshakeConfig => (cfg.source, cfg.tables) := by
    rintro ⟨⟩ ⟨⟩ same
    simpa using same
  have tables : PrefixFree (listText tableText) :=
    prefixFree_listText prefixFree_tableText fun table => ⟨0x7b, _, rfl, by decide⟩
  have free := ((prefixFree_quote.framed (0x7b :: (quote "source" ++ [0x3a]))
    (0x2c :: (quote "tables" ++ [0x3a]))).pair (tables.framed [] [0x7d])).comp fields
  intro a b same
  apply free.injective
  simpa [configText, field, Json.commaList] using same

def orders : TableSpec := ⟨"orders", some ["id"], "", "region"⟩
def accounts : TableSpec := ⟨"accounts", some ["id"], "", "region"⟩

def shopColumns (arrange : List ColumnInfo → List ColumnInfo) :
    Std.ExtTreeMap String (Slice ColumnInfo) :=
  .ofList [("orders", some (arrange [⟨"total", "numeric"⟩, ⟨"id", "bigint"⟩])),
    ("accounts", some (arrange [⟨"name", "text"⟩, ⟨"id", "bigint"⟩]))]

theorem handshake_normal_form_shop :
    buildHandshakeConfiguration SortFunc.insertion configText "cdc" [accounts, orders]
        (shopColumns List.reverse) =
      buildHandshakeConfiguration SortFunc.insertion configText "cdc" [orders, accounts]
        (shopColumns id) := by
  have distinct : DistinctColumns (shopColumns id) [orders, accounts] := by
    intro table mem infos found
    rcases List.mem_pair.mp mem with rfl | rfl
    · cases found
      decide
    · cases found
      decide
  refine (handshake_normal_form SortFunc.insertion configText configText_injective "cdc" [orders, accounts]
    (shopColumns id) (by decide) distinct).1 _ _ (.swap _ _ _) ?_
  intro table mem
  rcases List.mem_pair.mp mem with rfl | rfl
  · exact .some (List.reverse_perm _)
  · exact .some (List.reverse_perm _)

end Transmogr.HandshakeForm
