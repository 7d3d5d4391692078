import Mathlib.Data.List.TakeWhile
import Mathlib.Tactic.Ring
import Transmogr.Apply
import Transmogr.Sorting
import Transmogr.Strconv

/-! The files of schema migrations: how versions are read off their names, how the names sort, and how
the name of the schema is put into their text. -/
namespace Transmogr.Migrations

/-- The embedded files: names and contents. -/
abbrev Files := List (String × String)

def hasSuffix (name suffix : String) : Bool := suffix.toList.isSuffixOf name.toList

def trimSuffix (name suffix : String) : String :=
  if hasSuffix name suffix then String.ofList (name.toList.take (name.length - suffix.length)) else name

/-- `filepath.Base` of the path of a file. -/
def base (path : String) : String :=
  String.ofList (path.toList.reverse.takeWhile (· ≠ '/')).reverse

def migrationVersion (path : String) : Int :=
  let name := base path
  let raw :=
    if hasSuffix name ".up.sql" then trimSuffix name ".up.sql"
    else if hasSuffix name ".down.sql" then trimSuffix name ".down.sql"
    else name
  (parseInt (String.ofList (raw.toList.takeWhile (· ≠ '_')))).getD 0

/-- The pattern is a star before the suffix. -/
def migrationPaths (slices : SortFunc) (files : Files) (suffix : String) : Except String (List String) :=
  let paths := slices.sort compareTexts ((files.map (·.1)).filter (hasSuffix · suffix))
  if paths = [] then .error ("no migration files matched " ++ quoted ("*" ++ suffix)) else .ok paths

def readFile (files : Files) (path : String) : Except String String :=
  match files.find? (·.1 = path) with
  | some file => .ok file.2
  | none => .error ("read migration " ++ path ++ ": file does not exist")

def findDownPathIndex (paths : List String) (target : String) : Option Nat :=
  paths.findIdx? (· = target)

/-- The version of the path after this one, 0 after the last. -/
def nextVersion (paths : List String) (path : String) : Int :=
  match (findDownPathIndex paths path).bind fun index => paths[index + 1]? with
  | some next => migrationVersion next
  | none => 0

/-- Nothing is left after `strings.TrimSpace`. -/
def isBlank (name : String) : Bool := name.toList.all isUnicodeSpace

/-- `strings.ReplaceAll` with characters of a match still to skip. -/
def replaceFrom (old new : List Char) : Nat → List Char → List Char
  | _, [] => []
  | skip + 1, _ :: cs => replaceFrom old new skip cs
  | 0, c :: cs =>
    if old.isPrefixOf (c :: cs) then new ++ replaceFrom old new (old.length - 1) cs
    else c :: replaceFrom old new 0 cs

def replaceAll (text old new : String) : String :=
  String.ofList (replaceFrom old.toList new.toList 0 text.toList)

def schemaPlaceholder : String := "__state_schema__"

def render (renderedSchema raw : String) : String := replaceAll raw schemaPlaceholder renderedSchema

/-- The script that ships as `000001_init_state_schema.down.sql`. -/
def shippedDown : String := "DROP SCHEMA IF EXISTS __state_schema__ CASCADE;\n"

def dropSchema (renderedSchema : String) : String :=
  "DROP SCHEMA IF EXISTS " ++ renderedSchema ++ " CASCADE;\n"

section Replace

variable {c : Char} {old new : List Char}

theorem replaceFrom_skip (old new : List Char) {xs : List Char} {skip : Nat} (size : xs.length = skip)
    (rest : List Char) : replaceFrom old new skip (xs ++ rest) = replaceFrom old new 0 rest := by
  induction xs generalizing skip with
  | nil =>
    cases size
    rfl
  | cons x xs ih =>
    cases size
    exact ih rfl

/-- Text without the first character of the pattern is copied. -/
theorem replaceFrom_copy {front : List Char} (absent : c ∉ front) (rest : List Char) :
    replaceFrom (c :: old) new 0 (front ++ rest) = front ++ replaceFrom (c :: old) new 0 rest := by
  induction front with
  | nil => rfl
  | cons x front ih =>
    have differ : c ≠ x := List.ne_of_not_mem_cons absent
    have onward := ih (List.not_mem_of_not_mem_cons absent)
    simp [replaceFrom, List.isPrefixOf, differ, onward]

theorem replaceFrom_match (rest : List Char) :
    replaceFrom (c :: old) new 0 ((c :: old) ++ rest) = new ++ replaceFrom (c :: old) new 0 rest := by
  have found : (c :: old).isPrefixOf (c :: (old ++ rest)) = true := by
    rw [List.isPrefixOf_iff_prefix]
    exact List.prefix_append (c :: old) rest
  rw [List.cons_append, replaceFrom, if_pos found, replaceFrom_skip _ _ (by simp)]

theorem replaceFrom_once {front back : List Char} (before : c ∉ front) (after : c ∉ back) :
    replaceFrom (c :: old) new 0 (front ++ ((c :: old) ++ back)) = front ++ (new ++ back) := by
  have rest := @replaceFrom_copy c old new back after []
  rw [List.append_nil] at rest
  rw [replaceFrom_copy before, replaceFrom_match, rest]
  simp [replaceFrom]

end Replace

theorem render_shippedDown (renderedSchema : String) :
    render renderedSchema shippedDown = dropSchema renderedSchema := by
  have text : shippedDown.toList = "DROP SCHEMA IF EXISTS ".toList ++
      (('_' :: "_state_schema__".toList) ++ " CASCADE;\n".toList) := by decide +kernel
  have pattern : schemaPlaceholder.toList = '_' :: "_state_schema__".toList := by decide +kernel
  have once := @replaceFrom_once '_' "_state_schema__".toList renderedSchema.toList
    "DROP SCHEMA IF EXISTS ".toList " CASCADE;\n".toList (by decide +kernel) (by decide +kernel)
  have replaced := congrArg₂ (fun old text => replaceFrom old renderedSchema.toList 0 text) pattern text
  have joined (a b c : String) : (a ++ b ++ c).toList = a.toList ++ (b.toList ++ c.toList) := by
    rw [String.toList_append, String.toList_append, List.append_assoc]
  have dropped := joined "DROP SCHEMA IF EXISTS " renderedSchema " CASCADE;\n"
  have rendered : (render renderedSchema shippedDown).toList =
      replaceFrom schemaPlaceholder.toList renderedSchema.toList 0 shippedDown.toList :=
    String.toList_ofList
  exact String.toList_inj.mp (rendered.trans ((replaced.trans once).trans dropped.symm))

/-- The number that digits are written for. -/
def number (digits : List Char) : Nat := digits.foldl (fun n c => 10 * n + (c.toNat - 48)) 0

/-- A pair of scripts. The version has the six digits of the shipped pair. -/
structure Migration where
  digits : List Char
  width : digits.length = 6
  numeric : ∀ c ∈ digits, c.isDigit = true
  positive : 0 < number digits
  title : Option (List Char)
  flat : ∀ cs ∈ title, '/' ∉ cs
  up : String
  down : String

section Digits

variable {ds es : List Char}

theorem digit_bounds {c : Char} (digit : c.isDigit = true) : 48 ≤ c.toNat ∧ c.toNat ≤ 57 := by
  simp only [Char.isDigit, Bool.and_eq_true, decide_eq_true_eq, UInt32.le_iff_toNat_le] at digit
  exact digit

theorem foldl_number (ds : List Char) (n : Nat) :
    ds.foldl (fun n c => 10 * n + (c.toNat - 48)) n = n * 10 ^ ds.length + number ds := by
  induction ds generalizing n with
  | nil => simp [number]
  | cons d ds ih =>
    have here := ih (10 * n + (d.toNat - 48))
    have first := ih (d.toNat - 48)
    simp only [number, List.foldl_cons, List.length_cons, Nat.mul_zero, Nat.zero_add] at here first ⊢
    rw [here, first, Nat.pow_succ]
    ring

theorem number_cons (d : Char) (ds : List Char) :
    number (d :: ds) = (d.toNat - 48) * 10 ^ ds.length + number ds := by
  have first := foldl_number ds (d.toNat - 48)
  simpa [number] using first

theorem number_lt (digits : ∀ c ∈ ds, c.isDigit = true) : number ds < 10 ^ ds.length := by
  induction ds with
  | nil => exact Nat.one_pos
  | cons d ds ih =>
    rw [List.forall_mem_cons] at digits
    have small := ih digits.2
    have digit := digit_bounds digits.1
    rw [number_cons, List.length_cons, Nat.pow_succ]
    have top : d.toNat - 48 ≤ 9 := by omega
    have scaled := Nat.mul_le_mul_right (10 ^ ds.length) top
    omega

/-- Of equally many digits those of the smaller number come first, whatever follows. -/
theorem digits_lt (sizes : ds.length = es.length) (left : ∀ c ∈ ds, c.isDigit = true)
    (right : ∀ c ∈ es, c.isDigit = true) (less : number ds < number es) (cs cs' : List Char) :
    ds ++ cs < es ++ cs' := by
  induction ds generalizing es with
  | nil =>
    cases List.eq_nil_of_length_eq_zero sizes.symm
    exact absurd less (Nat.lt_irrefl _)
  | cons d ds ih =>
    cases es with
    | nil => cases sizes
    | cons e es =>
      rw [List.forall_mem_cons] at left right
      have sizes : ds.length = es.length := Nat.succ.inj sizes
      have tail := number_lt right.2
      have digit := digit_bounds left.1
      have digit' := digit_bounds right.1
      rw [number_cons, number_cons, sizes] at less
      rw [List.cons_append, List.cons_append, List.cons_lt_cons_iff]
      rcases Nat.lt_trichotomy d.toNat e.toNat with first | same | first
      · exact .inl first
      · rw [same] at less
        exact .inr ⟨Char.toNat_inj.mp same, ih sizes left.2 right.2 (by omega)⟩
      · -- a greater first digit outweighs the rest
        have top : e.toNat - 48 + 1 ≤ d.toNat - 48 := by omega
        have scaled := Nat.mul_le_mul_right (10 ^ es.length) top
        rw [Nat.add_mul] at scaled
        omega

theorem parseInt_digits (filled : ds ≠ []) (digits : ∀ c ∈ ds, c.isDigit = true)
    (bound : (number ds : Int) ≤ Json.maxInt64) : parseInt (String.ofList ds) = some (number ds : Int) := by
  obtain ⟨d, rest, rfl⟩ := List.exists_cons_of_ne_nil filled
  have digit := digit_bounds (digits d List.mem_cons_self)
  have all : (d :: rest).all Char.isDigit = true := List.all_eq_true.mpr digits
  have low : Json.minInt64 ≤ (number (d :: rest) : Int) := by
    simp only [Json.minInt64]
    omega
  have minus : d.toNat ≠ 0x2d := by omega
  have plus : d.toNat ≠ 0x2b := by omega
  simp only [parseInt, String.toList_ofList, if_neg minus, if_neg plus, all, List.isEmpty_cons,
    Bool.not_true, Bool.or_self, Bool.false_eq_true, if_false, Option.map_some, Option.bind_some]
  change (if Json.minInt64 ≤ (number (d :: rest) : Int) ∧ (number (d :: rest) : Int) ≤ Json.maxInt64
    then some (number (d :: rest) : Int) else none) = _
  rw [if_pos ⟨low, bound⟩]

end Digits

namespace Migration

def version (migration : Migration) : Int := number migration.digits

def stem (migration : Migration) : List Char :=
  migration.digits ++ match migration.title with
    | none => []
    | some cs => '_' :: cs

def name (migration : Migration) (suffix : String) : String :=
  String.ofList (migration.stem ++ suffix.toList)

def upName (migration : Migration) : String := migration.name ".up.sql"

def downName (migration : Migration) : String := migration.name ".down.sql"

variable {migration other : Migration}

theorem hasSuffix_iff {cs : List Char} {suffix : String} :
    hasSuffix (String.ofList cs) suffix = true ↔ suffix.toList <:+ cs := by
  simp [hasSuffix]

theorem hasSuffix_name (migration : Migration) (suffix : String) :
    hasSuffix (migration.name suffix) suffix = true :=
  hasSuffix_iff.mpr (List.suffix_append _ _)

theorem downName_not_up (migration : Migration) : hasSuffix migration.downName ".up.sql" = false := by
  rw [Bool.eq_false_iff]
  intro both
  have inner := List.suffix_of_suffix_length_le (hasSuffix_iff.mp both)
    (List.suffix_append migration.stem ".down.sql".toList) (by decide)
  exact absurd inner (by decide)

theorem upName_not_down (migration : Migration) : hasSuffix migration.upName ".down.sql" = false := by
  rw [Bool.eq_false_iff]
  intro both
  have inner := List.suffix_of_suffix_length_le (List.suffix_append migration.stem ".up.sql".toList)
    (hasSuffix_iff.mp both) (by decide)
  exact absurd inner (by decide)

theorem trimSuffix_name (migration : Migration) (suffix : String) :
    trimSuffix (migration.name suffix) suffix = String.ofList migration.stem := by
  rw [trimSuffix, if_pos (hasSuffix_name migration suffix)]
  simp [name]

theorem digit_ne {c d : Char} (digit : c.isDigit = true) (other : d.isDigit = false) : c ≠ d := by
  rintro rfl
  rw [digit] at other
  cases other

theorem takeWhile_stem (migration : Migration) :
    migration.stem.takeWhile (· ≠ '_') = migration.digits := by
  have digits : ∀ c ∈ migration.digits, (decide (c ≠ '_')) = true := by
    intro c mem
    exact decide_eq_true (digit_ne (migration.numeric c mem) rfl)
  rw [stem, List.takeWhile_append_of_pos digits]
  cases migration.title <;> simp

theorem slash_not_mem_stem (migration : Migration) : '/' ∉ migration.stem := by
  have digits : '/' ∉ migration.digits := fun mem => digit_ne (migration.numeric _ mem) rfl rfl
  have flat := migration.flat
  cases title : migration.title with
  | none => simpa [stem, title] using digits
  | some cs =>
    rw [title] at flat
    simp [stem, title, digits, flat cs rfl]

theorem base_name (migration : Migration) {suffix : String} (flat : '/' ∉ suffix.toList) :
    base (migration.name suffix) = migration.name suffix := by
  have whole : (migration.stem ++ suffix.toList).reverse.takeWhile (· ≠ '/') =
      (migration.stem ++ suffix.toList).reverse := by
    rw [List.takeWhile_eq_self_iff]
    intro c mem
    rw [List.mem_reverse, List.mem_append] at mem
    apply decide_eq_true
    rintro rfl
    exact mem.elim migration.slash_not_mem_stem flat
  rw [base, name, String.toList_ofList, whole, List.reverse_reverse]

theorem parseInt_stem (migration : Migration) :
    (parseInt (String.ofList (migration.stem.takeWhile (· ≠ '_')))).getD 0 = migration.version := by
  have small := number_lt migration.numeric
  rw [migration.width] at small
  have bound : (number migration.digits : Int) ≤ Json.maxInt64 := by
    simp only [Json.maxInt64]
    omega
  have filled : migration.digits ≠ [] := by
    intro empty
    have width := migration.width
    simp [empty] at width
  rw [takeWhile_stem, parseInt_digits filled migration.numeric bound]
  rfl

theorem migrationVersion_upName (migration : Migration) :
    migrationVersion migration.upName = migration.version := by
  have based : base migration.upName = migration.upName := migration.base_name (by decide)
  have suffixed : hasSuffix migration.upName ".up.sql" = true := migration.hasSuffix_name _
  have trimmed : trimSuffix migration.upName ".up.sql" = String.ofList migration.stem :=
    migration.trimSuffix_name _
  simp only [migrationVersion, based, suffixed, if_true, trimmed, String.toList_ofList, parseInt_stem]

theorem migrationVersion_downName (migration : Migration) :
    migrationVersion migration.downName = migration.version := by
  have based : base migration.downName = migration.downName := migration.base_name (by decide)
  have suffixed : hasSuffix migration.downName ".down.sql" = true := migration.hasSuffix_name _
  have trimmed : trimSuffix migration.downName ".down.sql" = String.ofList migration.stem :=
    migration.trimSuffix_name _
  simp only [migrationVersion, based, migration.downName_not_up, Bool.false_eq_true, if_false, suffixed,
    if_true, trimmed, String.toList_ofList, parseInt_stem]

/-- Names are in the order of the versions. -/
theorem compareTexts_name (less : migration.version < other.version) (suffix : String) :
    compareTexts (migration.name suffix) (other.name suffix) = -1 := by
  have numbers : number migration.digits < number other.digits := by
    simp only [version] at less
    omega
  have lists := digits_lt (migration.width.trans other.width.symm) migration.numeric other.numeric numbers
  have order : compare (migration.name suffix) (other.name suffix) = .lt := by
    refine compareOfLessAndEq_eq_lt.mpr ?_
    change (migration.name suffix).toList < (other.name suffix).toList
    simp only [name, stem, String.toList_ofList, List.append_assoc]
    exact lists _ _
  rw [compareTexts_eq, order]
  rfl

end Migration

def allFiles (migrations : List Migration) : Files :=
  migrations.flatMap fun migration =>
    [(migration.upName, migration.up), (migration.downName, migration.down)]

/-- The files are those of the migrations, which are listed by version. -/
structure Embedded (files : Files) (migrations : List Migration) : Prop where
  filled : migrations ≠ []
  ascending : migrations.Pairwise fun a b => a.version < b.version
  perm : files.Perm (allFiles migrations)

/-- The names of one direction. -/
theorem filter_allFiles (migrations : List Migration) {suffix : String} {pick : Migration → String}
    (each : ∀ migration : Migration,
      [migration.upName, migration.downName].filter (hasSuffix · suffix) = [pick migration]) :
    ((allFiles migrations).map (·.1)).filter (hasSuffix · suffix) = migrations.map pick := by
  induction migrations with
  | nil => rfl
  | cons migration migrations ih =>
    have names : (allFiles (migration :: migrations)).map (·.1) =
        [migration.upName, migration.downName] ++ (allFiles migrations).map (·.1) := by
      simp [allFiles]
    rw [names, List.filter_append, each, ih]
    rfl

theorem filter_up (migration : Migration) :
    [migration.upName, migration.downName].filter (hasSuffix · ".up.sql") = [migration.upName] := by
  have up : hasSuffix migration.upName ".up.sql" = true := migration.hasSuffix_name _
  simp [up, migration.downName_not_up]

theorem filter_down (migration : Migration) :
    [migration.upName, migration.downName].filter (hasSuffix · ".down.sql") = [migration.downName] := by
  have down : hasSuffix migration.downName ".down.sql" = true := migration.hasSuffix_name _
  simp [down, migration.upName_not_down]

theorem upName_ne_downName (migration other : Migration) : migration.upName ≠ other.downName := by
  intro same
  have up : hasSuffix migration.upName ".up.sql" = true := migration.hasSuffix_name _
  rw [same, other.downName_not_up] at up
  cases up

namespace Embedded

variable {files : Files} {migrations : List Migration} (embedded : Embedded files migrations)
include embedded

theorem nodup_names : (files.map (·.1)).Nodup := by
  rw [(embedded.perm.map _).nodup_iff, allFiles, List.map_flatMap, List.nodup_flatMap]
  constructor
  · intro migration _
    simp [upName_ne_downName]
  · refine embedded.ascending.imp ?_
    intro a b less name left right
    simp only [List.map_cons, List.map_nil, List.mem_cons, List.not_mem_nil, or_false] at left right
    -- the name gives the version away
    have versions : migrationVersion name = a.version ∧ migrationVersion name = b.version := by
      constructor
      · rcases left with rfl | rfl
        · exact a.migrationVersion_upName
        · exact a.migrationVersion_downName
      · rcases right with rfl | rfl
        · exact b.migrationVersion_upName
        · exact b.migrationVersion_downName
    omega

theorem readFile_eq {path raw : String} (mem : (path, raw) ∈ allFiles migrations) :
    readFile files path = .ok raw := by
  have inside := embedded.perm.symm.subset mem
  obtain ⟨file, found⟩ : ∃ file, files.find? (fun file => file.1 = path) = some file := by
    rw [← Option.isSome_iff_exists, List.find?_isSome]
    exact ⟨_, inside, by simp⟩
  have named : file.1 = path := by simpa using List.find?_some found
  have same := List.inj_on_of_nodup_map embedded.nodup_names (List.mem_of_find?_eq_some found) inside named
  simp [readFile, found, same]

theorem sorted_names (suffix : String) :
    (migrations.map (·.name suffix)).Pairwise fun a b => compareTexts a b = -1 := by
  rw [List.pairwise_map]
  exact embedded.ascending.imp fun less => Migration.compareTexts_name less suffix

theorem migrationPaths_eq (slices : SortFunc) {suffix : String}
    (each : ∀ migration : Migration, [migration.upName, migration.downName].filter (hasSuffix · suffix) =
      [migration.name suffix]) :
    migrationPaths slices files suffix = .ok (migrations.map (·.name suffix)) := by
  have perm : (migrations.map (·.name suffix)).Perm ((files.map (·.1)).filter (hasSuffix · suffix)) := by
    rw [← filter_allFiles migrations each]
    exact ((embedded.perm.map _).filter _).symm
  have distinct : (((files.map (·.1)).filter (hasSuffix · suffix)).map id).Nodup := by
    rw [List.map_id]
    exact embedded.nodup_names.filter _
  have sorted := slices.eq_sort (weakOrder_texts id) (fun _ _ => eq_of_compareTexts) distinct perm
    ((embedded.sorted_names suffix).imp fun {a b} first => by
      have first : compareTexts (id a) (id b) = -1 := first
      omega)
  have filled : migrations.map (·.name suffix) ≠ [] := by simpa using embedded.filled
  change (if slices.sort _ _ = [] then _ else _) = _
  rw [show slices.sort compareTexts ((files.map (·.1)).filter (hasSuffix · suffix)) =
    migrations.map (·.name suffix) from sorted.symm, if_neg filled]

theorem nodup_downNames : (migrations.map Migration.downName).Nodup := by
  refine (embedded.sorted_names ".down.sql").imp ?_
  rintro a b first rfl
  have same : compare a a = .eq := Std.ReflCmp.compare_self
  rw [compareTexts_eq, same] at first
  exact absurd first (by decide)

theorem sort_downNames (slices : SortFunc) :
    slices.sort (fun left right => compareTexts right left) (migrations.map Migration.downName) =
      migrations.reverse.map Migration.downName := by
  have names := embedded.sorted_names ".down.sql"
  have distinct : ((migrations.map Migration.downName).map id).Nodup := by
    rw [List.map_id]
    exact embedded.nodup_downNames
  refine (slices.eq_sort (weakOrder_texts id).flip (fun _ _ tie => (eq_of_compareTexts tie).symm) distinct
    ((List.reverse_perm _).map _) ?_).symm
  rw [List.map_reverse, List.pairwise_reverse]
  refine names.imp ?_
  intro a b first
  have first : compareTexts (id a) (id b) = -1 := first
  omega

end Embedded

end Transmogr.Migrations
