import Transmogr.Json
import Mathlib.Data.List.Sort

/-! Primary keys as `models/primary_key.go` stores and compares them. A value is
raw JSON; the comparison decodes integers and booleans and falls back to bytes
when a value does not decode, so it is an order only on keys whose values have
the JSON type their part declares. Every key decoded from the wire is one. -/
namespace Transmogr

inductive PrimaryKeyType where
  | unspecified
  | string
  | integer
  | boolean
  deriving DecidableEq, Repr

/-- The Go constant, which is what the comparison looks at. -/
def PrimaryKeyType.name : PrimaryKeyType → String
  | .unspecified => ""
  | .string => "string"
  | .integer => "integer"
  | .boolean => "boolean"

structure PrimaryKeyPart where
  column : String
  type : PrimaryKeyType
  value : Bytes
  deriving DecidableEq, Repr

abbrev PrimaryKey := List PrimaryKeyPart

def compareIntegerJSON (left right : Bytes) : Ordering :=
  match Json.unmarshalInt64 left, Json.unmarshalInt64 right with
  | some l, some r => compare l r
  | _, _ => compare left right

def compareBoolJSON (left right : Bytes) : Ordering :=
  match Json.unmarshalBool left, Json.unmarshalBool right with
  | some l, some r => compare l r
  | _, _ => compare left right

def comparePrimaryKeyValue (typ : PrimaryKeyType) (left right : Bytes) : Ordering :=
  match typ with
  | .integer => compareIntegerJSON left right
  | .boolean => compareBoolJSON left right
  | _ => compare left right

def comparePrimaryKeyPart (left right : PrimaryKeyPart) : Ordering :=
  (compare left.column right.column).then
    ((compare left.type.name right.type.name).then
      (comparePrimaryKeyValue left.type left.value right.value))

/-- Part by part, then by length. -/
def comparePrimaryKeys (left right : PrimaryKey) : Ordering :=
  List.compareLex comparePrimaryKeyPart left right

theorem PrimaryKeyType.name_injective {a b : PrimaryKeyType} (same : a.name = b.name) : a = b := by
  cases a <;> cases b <;> first | rfl | exact absurd same (by decide)

/-- The value has the JSON type the part declares. -/
def PrimaryKeyPart.Typed (part : PrimaryKeyPart) : Prop :=
  match part.type with
  | .integer => (Json.unmarshalInt64 part.value).isSome
  | .boolean => (Json.unmarshalBool part.value).isSome
  | _ => True

def TypedKey (key : PrimaryKey) : Prop := ∀ part ∈ key, part.Typed

/-- What the comparison of a typed part looks at. -/
structure PartRank where
  column : String
  type : String
  number : Int
  bytes : Bytes

def PrimaryKeyPart.rank (part : PrimaryKeyPart) : PartRank where
  column := part.column
  type := part.type.name
  number := match part.type with
    | .integer => (Json.unmarshalInt64 part.value).getD 0
    | .boolean => if (Json.unmarshalBool part.value).getD false then 1 else 0
    | _ => 0
  bytes := match part.type with
    | .integer | .boolean => []
    | _ => part.value

def compareRank : PartRank → PartRank → Ordering :=
  compareLex (compareOn PartRank.column) (compareLex (compareOn PartRank.type)
    (compareLex (compareOn PartRank.number) (compareOn PartRank.bytes)))

instance : Ord PartRank := ⟨compareRank⟩

instance : Std.TransOrd PartRank :=
  inferInstanceAs (Std.TransCmp (compareLex _ (compareLex _ (compareLex _ _))))

theorem compareIntegerJSON_typed {left right : Bytes}
    (l : (Json.unmarshalInt64 left).isSome) (r : (Json.unmarshalInt64 right).isSome) :
    compareIntegerJSON left right =
      compare ((Json.unmarshalInt64 left).getD 0) ((Json.unmarshalInt64 right).getD 0) := by
  obtain ⟨x, hx⟩ := Option.isSome_iff_exists.mp l
  obtain ⟨y, hy⟩ := Option.isSome_iff_exists.mp r
  simp [compareIntegerJSON, hx, hy]

theorem compareBoolJSON_typed {left right : Bytes}
    (l : (Json.unmarshalBool left).isSome) (r : (Json.unmarshalBool right).isSome) :
    compareBoolJSON left right =
      compare (if (Json.unmarshalBool left).getD false then (1 : Int) else 0)
        (if (Json.unmarshalBool right).getD false then 1 else 0) := by
  obtain ⟨x, hx⟩ := Option.isSome_iff_exists.mp l
  obtain ⟨y, hy⟩ := Option.isSome_iff_exists.mp r
  simp only [compareBoolJSON, hx, hy, Option.getD_some]
  cases x <;> cases y <;> rfl

theorem comparePrimaryKeyPart_eq_rank {left right : PrimaryKeyPart}
    (l : left.Typed) (r : right.Typed) :
    comparePrimaryKeyPart left right = compareRank left.rank right.rank := by
  obtain ⟨leftColumn, leftType, leftValue⟩ := left
  obtain ⟨rightColumn, rightType, rightValue⟩ := right
  simp only [comparePrimaryKeyPart, compareRank, compareLex, compareOn, PrimaryKeyPart.rank]
  congr 1
  by_cases same : leftType = rightType
  · subst same
    congr 1
    cases leftType with
    | integer => simp [comparePrimaryKeyValue, compareIntegerJSON_typed l r]
    | boolean => simp [comparePrimaryKeyValue, compareBoolJSON_typed l r]
    | unspecified => simp [comparePrimaryKeyValue]
    | string => simp [comparePrimaryKeyValue]
  · have differ : compare leftType.name rightType.name ≠ .eq := by
      intro eq
      exact same (PrimaryKeyType.name_injective (Std.LawfulEqCmp.compare_eq_iff_eq.mp eq))
    cases order : compare leftType.name rightType.name with
    | lt => rfl
    | gt => rfl
    | eq => exact absurd order differ

theorem comparePrimaryKeys_eq_rank {left right : PrimaryKey}
    (l : TypedKey left) (r : TypedKey right) :
    comparePrimaryKeys left right = compare (left.map (·.rank)) (right.map (·.rank)) := by
  change comparePrimaryKeys left right = List.compareLex compareRank _ _
  induction left generalizing right with
  | nil => cases right <;> rfl
  | cons part left ih =>
    cases right with
    | nil => rfl
    | cons other right =>
      have head := comparePrimaryKeyPart_eq_rank (l part List.mem_cons_self)
        (r other List.mem_cons_self)
      have tail : comparePrimaryKeys left right = _ :=
        ih (fun p hp => l p (List.mem_cons_of_mem _ hp))
          (fun p hp => r p (List.mem_cons_of_mem _ hp))
      simp only [comparePrimaryKeys, List.map_cons, List.compareLex_cons_cons] at tail ⊢
      rw [head, tail]

/-! ## Swapping the arguments

Both sides of a comparison fall back together, so swapping works on every key. -/

theorem compareIntegerJSON_swap (left right : Bytes) :
    compareIntegerJSON left right = (compareIntegerJSON right left).swap := by
  simp only [compareIntegerJSON]
  cases Json.unmarshalInt64 left <;> cases Json.unmarshalInt64 right <;>
    exact Std.OrientedOrd.eq_swap

theorem compareBoolJSON_swap (left right : Bytes) :
    compareBoolJSON left right = (compareBoolJSON right left).swap := by
  simp only [compareBoolJSON]
  cases Json.unmarshalBool left <;> cases Json.unmarshalBool right <;>
    exact Std.OrientedOrd.eq_swap

theorem comparePrimaryKeyValue_swap (typ : PrimaryKeyType) (left right : Bytes) :
    comparePrimaryKeyValue typ left right = (comparePrimaryKeyValue typ right left).swap := by
  cases typ with
  | integer => exact compareIntegerJSON_swap left right
  | boolean => exact compareBoolJSON_swap left right
  | unspecified => exact Std.OrientedOrd.eq_swap (a := left) (b := right)
  | string => exact Std.OrientedOrd.eq_swap (a := left) (b := right)

theorem comparePrimaryKeyPart_swap (left right : PrimaryKeyPart) :
    comparePrimaryKeyPart left right = (comparePrimaryKeyPart right left).swap := by
  have column : compare left.column right.column = (compare right.column left.column).swap :=
    Std.OrientedCmp.eq_swap
  have type : compare left.type.name right.type.name =
      (compare right.type.name left.type.name).swap := Std.OrientedCmp.eq_swap
  simp only [comparePrimaryKeyPart, Ordering.swap_then, ← column, ← type]
  by_cases same : left.type = right.type
  · rw [← same, ← comparePrimaryKeyValue_swap]
  · cases order : compare left.type.name right.type.name with
    | lt => rfl
    | gt => rfl
    | eq =>
      exact absurd (PrimaryKeyType.name_injective (Std.LawfulEqCmp.compare_eq_iff_eq.mp order)) same

instance : Std.OrientedCmp comparePrimaryKeyPart where
  eq_swap := comparePrimaryKeyPart_swap _ _

instance : Std.OrientedCmp comparePrimaryKeys :=
  inferInstanceAs (Std.OrientedCmp (List.compareLex comparePrimaryKeyPart))

end Transmogr
