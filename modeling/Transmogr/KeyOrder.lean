import Transmogr.TextOrder
import Transmogr.Wire

/-! `ComparePrimaryKeys` as it is written, with Go's integers and byte comparisons, and that it orders
the keys that come from the wire. -/
namespace Transmogr.KeyOrder

/-- `bytes.Compare` -/
def compareBytes (left right : Bytes) : Int := sign (compare left right)

def compareIntegerJSON (left right : Bytes) : Int :=
  match Json.unmarshalInt64 left with
  | none => compareBytes left right
  | some l =>
    match Json.unmarshalInt64 right with
    | none => compareBytes left right
    | some r => if l < r then -1 else if l > r then 1 else 0

def compareBoolJSON (left right : Bytes) : Int :=
  match Json.unmarshalBool left with
  | none => compareBytes left right
  | some l =>
    match Json.unmarshalBool right with
    | none => compareBytes left right
    | some r => if l == r then 0 else if !l && r then -1 else 1

def comparePrimaryKeyValue (typ : PrimaryKeyType) (left right : Bytes) : Int :=
  match typ with
  | .integer => compareIntegerJSON left right
  | .boolean => compareBoolJSON left right
  | _ => compareBytes left right

def comparePrimaryKeyPart (left right : PrimaryKeyPart) : Int :=
  if stringLess left.column right.column then -1
  else if stringLess right.column left.column then 1
  else if stringLess left.type.name right.type.name then -1
  else if stringLess right.type.name left.type.name then 1
  else comparePrimaryKeyValue left.type left.value right.value

/-- The loop over the indices both keys have. -/
def firstDifference (left right : PrimaryKey) : Option Int :=
  (left.zip right).findSome? fun (l, r) =>
    let cmp := comparePrimaryKeyPart l r
    if cmp ≠ 0 then some cmp else none

def comparePrimaryKeys (left right : PrimaryKey) : Int :=
  match firstDifference left right with
  | some cmp => cmp
  | none =>
    if left.length < right.length then -1
    else if left.length > right.length then 1
    else 0

theorem compareIntegerJSON_eq (left right : Bytes) :
    compareIntegerJSON left right = sign (Transmogr.compareIntegerJSON left right) := by
  simp only [compareIntegerJSON, Transmogr.compareIntegerJSON]
  cases Json.unmarshalInt64 left with
  | none => rfl
  | some l =>
    cases Json.unmarshalInt64 right with
    | none => rfl
    | some r =>
      rcases lt_trichotomy l r with less | same | greater
      · simp [less, compare_lt_iff_lt.mpr less, sign]
      · simp [same, sign]
      · simp [greater, greater.not_gt, compare_gt_iff_gt.mpr greater, sign]

theorem compareBoolJSON_eq (left right : Bytes) :
    compareBoolJSON left right = sign (Transmogr.compareBoolJSON left right) := by
  simp only [compareBoolJSON, Transmogr.compareBoolJSON]
  cases Json.unmarshalBool left with
  | none => rfl
  | some l =>
    cases Json.unmarshalBool right with
    | none => rfl
    | some r => cases l <;> cases r <;> rfl

theorem comparePrimaryKeyValue_eq (typ : PrimaryKeyType) (left right : Bytes) :
    comparePrimaryKeyValue typ left right =
      sign (Transmogr.comparePrimaryKeyValue typ left right) := by
  cases typ with
  | integer => exact compareIntegerJSON_eq left right
  | boolean => exact compareBoolJSON_eq left right
  | unspecified | string => rfl

theorem comparePrimaryKeyPart_eq (left right : PrimaryKeyPart) :
    comparePrimaryKeyPart left right = sign (Transmogr.comparePrimaryKeyPart left right) :=
  stringLess_ladder _ _ _ (stringLess_ladder _ _ _ (comparePrimaryKeyValue_eq _ _ _))

/-- The loop and the comparison of the lengths are the lexicographic order. -/
theorem comparePrimaryKeys_eq (left right : PrimaryKey) :
    comparePrimaryKeys left right = sign (Transmogr.comparePrimaryKeys left right) := by
  simp only [comparePrimaryKeys, Transmogr.comparePrimaryKeys, firstDifference]
  induction left generalizing right with
  | nil =>
    cases right with
    | nil => rfl
    | cons part right => simp [List.compareLex_nil_cons, sign]
  | cons part left ih =>
    cases right with
    | nil => simp [List.compareLex_cons_nil, sign]
    | cons other right =>
      have rest := ih right
      rw [List.compareLex_cons_cons, List.zip_cons_cons, List.findSome?_cons,
        comparePrimaryKeyPart_eq]
      cases order : Transmogr.comparePrimaryKeyPart part other with
      | lt => rfl
      | gt => rfl
      | eq =>
        simp only [sign, ne_eq, not_true_eq_false, if_false, List.length_cons,
          Nat.add_lt_add_iff_right, gt_iff_lt] at rest ⊢
        exact rest

theorem comparePrimaryKeys_append (key : PrimaryKey) {more : PrimaryKey} (filled : more ≠ []) :
    comparePrimaryKeys key (key ++ more) = -1 := by
  have order : Transmogr.comparePrimaryKeys key (key ++ more) = .lt := by
    unfold Transmogr.comparePrimaryKeys
    induction key with
    | nil =>
      obtain ⟨part, rest, rfl⟩ := List.exists_cons_of_ne_nil filled
      rfl
    | cons part key ih =>
      have same : Transmogr.comparePrimaryKeyPart part part = .eq := Std.ReflCmp.compare_self
      rw [List.cons_append, List.compareLex_cons_cons, same, ih]
      rfl
  rw [comparePrimaryKeys_eq, order]
  rfl

/-- The value is as `fromProtoPrimaryKeyValue` writes a value of the type. -/
def Decoded (part : PrimaryKeyPart) : Prop :=
  match part.type with
  | .integer => ∃ v : Int64, part.value = Json.formatInt v.toInt
  | .boolean => ∃ b, part.value = Json.formatBool b
  | _ => True

def DecodedKey : Type := { key : PrimaryKey // ∀ part ∈ key, Decoded part }

theorem decoded_of_wire {key : PrimaryKey} (wire : WireKey key) : ∀ part ∈ key, Decoded part := by
  refine wire.forall_part ?_
  rintro ⟨column, assigned⟩ value ok
  cases assigned with
  | none => cases ok
  | some assigned =>
    cases assigned with
    | integerValue v => cases ok; exact ⟨v, rfl⟩
    | booleanValue b => cases ok; exact ⟨b, rfl⟩
    | stringValue s => trivial

theorem Decoded.typed {part : PrimaryKeyPart} (decoded : Decoded part) :
    part.Typed ∧ part.Canonical := by
  obtain ⟨column, type, value⟩ := part
  cases type with
  | integer =>
    obtain ⟨v, rfl⟩ := decoded
    exact @decodedPart_spec ⟨column, some (.integerValue v)⟩ _ rfl
  | boolean =>
    obtain ⟨b, rfl⟩ := decoded
    exact @decodedPart_spec ⟨column, some (.booleanValue b)⟩ _ rfl
  | unspecified | string => exact ⟨trivial, trivial⟩

namespace DecodedKey

variable (a b c : DecodedKey)

def ranks (key : DecodedKey) : List PartRank := key.1.map (·.rank)

/-- Decoded keys are compared by what their values are. -/
theorem compare_eq : comparePrimaryKeys a.1 b.1 = sign (compare a.ranks b.ranks) := by
  rw [comparePrimaryKeys_eq, comparePrimaryKeys_eq_rank]
  · rfl
  · exact fun part mem => (a.2 part mem).typed.1
  · exact fun part mem => (b.2 part mem).typed.1

variable {a b} in
theorem eq_of_ranks (same : a.ranks = b.ranks) : a = b := by
  apply Subtype.ext
  apply eq_of_map_rank _ _ same
  · exact fun part mem => (a.2 part mem).typed.2
  · exact fun part mem => (b.2 part mem).typed.2

theorem compare_swap : comparePrimaryKeys a.1 b.1 = -comparePrimaryKeys b.1 a.1 := by
  rw [compare_eq, compare_eq, ← sign_swap]
  exact congrArg sign Std.OrientedCmp.eq_swap

theorem compare_eq_zero : comparePrimaryKeys a.1 b.1 = 0 ↔ a = b := by
  rw [compare_eq, sign_eq_zero]
  constructor
  · intro same
    exact eq_of_ranks (Std.LawfulEqCmp.eq_of_compare same)
  · rintro rfl
    exact Std.ReflCmp.compare_self

theorem compare_total : comparePrimaryKeys a.1 b.1 ≤ 0 ∨ comparePrimaryKeys b.1 a.1 ≤ 0 := by
  have swap := compare_swap a b
  omega

variable {a b c} in
theorem compare_trans (first : comparePrimaryKeys a.1 b.1 ≤ 0)
    (second : comparePrimaryKeys b.1 c.1 ≤ 0) : comparePrimaryKeys a.1 c.1 ≤ 0 := by
  rw [compare_eq, sign_le_zero] at first second ⊢
  exact Std.TransCmp.isLE_trans first second

end DecodedKey

/-- The comparison is a total order on decoded keys, with shorter keys before those they begin. -/
theorem decoded_keys_ordered :
    (∀ key, WireKey key → ∀ part ∈ key, Decoded part) ∧
    (∀ a b : DecodedKey, comparePrimaryKeys a.1 b.1 = -comparePrimaryKeys b.1 a.1 ∧
      (comparePrimaryKeys a.1 b.1 ≤ 0 ∨ comparePrimaryKeys b.1 a.1 ≤ 0) ∧
      (comparePrimaryKeys a.1 b.1 = 0 ↔ a.1 = b.1)) ∧
    (∀ a b c : DecodedKey, comparePrimaryKeys a.1 b.1 ≤ 0 → comparePrimaryKeys b.1 c.1 ≤ 0 →
      comparePrimaryKeys a.1 c.1 ≤ 0 ∧
        (comparePrimaryKeys a.1 c.1 = 0 → a.1 = b.1 ∧ b.1 = c.1)) ∧
    ∀ a b : DecodedKey, a.1 <+: b.1 → a.1 ≠ b.1 → comparePrimaryKeys a.1 b.1 < 0 := by
  refine ⟨fun key wire => decoded_of_wire wire, ?_, ?_, ?_⟩
  · intro a b
    refine ⟨a.compare_swap b, a.compare_total b, ?_⟩
    rw [DecodedKey.compare_eq_zero]
    exact Subtype.ext_iff
  · intro a b c first second
    refine ⟨DecodedKey.compare_trans first second, fun same => ?_⟩
    -- equal ends leave nothing between them
    obtain rfl : a = c := (a.compare_eq_zero c).mp same
    have swap := a.compare_swap b
    obtain rfl : a = b := (a.compare_eq_zero b).mp (by omega)
    exact ⟨rfl, rfl⟩
  · rintro a b ⟨more, whole⟩ proper
    have filled : more ≠ [] := by
      rintro rfl
      exact proper (by simpa using whole)
    rw [← whole, comparePrimaryKeys_append a.1 filled]
    decide

def idKey (v : Int64) : DecodedKey :=
  ⟨[⟨"id", .integer, Json.formatInt v.toInt⟩], by
    intro part mem
    cases List.mem_singleton.mp mem
    exact ⟨v, rfl⟩⟩

theorem decoded_keys_ordered_ids :
    comparePrimaryKeys (idKey 9).1 (idKey 10).1 ≤ 0 ∧ comparePrimaryKeys (idKey 10).1 (idKey 100).1 ≤ 0 ∧
      comparePrimaryKeys (idKey 9).1 (idKey 100).1 ≤ 0 := by
  have first : comparePrimaryKeys (idKey 9).1 (idKey 10).1 ≤ 0 := by decide
  have second : comparePrimaryKeys (idKey 10).1 (idKey 100).1 ≤ 0 := by decide
  exact ⟨first, second, (decoded_keys_ordered.2.2.1 _ _ _ first second).1⟩

end Transmogr.KeyOrder
