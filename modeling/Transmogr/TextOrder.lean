import Transmogr.Json

/-! Three-way comparisons of texts. UTF-8 keeps the order of texts: comparing bytes is comparing code
points. -/
namespace Transmogr.Json

theorem compare_byte_eq_lt {a b : UInt8} : compare a b = .lt ↔ a.toNat < b.toNat := by
  rw [← UInt8.lt_iff_toNat_lt]
  exact compareOfLessAndEq_eq_lt

theorem compare_byte_eq_eq {a b : UInt8} : compare a b = .eq ↔ a.toNat = b.toNat := by
  rw [Std.LawfulEqCmp.compare_eq_iff_eq, UInt8.toNat_inj]

theorem compare_cons (a b : UInt8) (as bs : Bytes) :
    compare (a :: as) (b :: bs) = (compare a b).then (compare as bs) :=
  List.compareLex_cons_cons

theorem compare_cons_eq_lt {a b : UInt8} {as bs : Bytes} :
    compare (a :: as) (b :: bs) = .lt ↔
      a.toNat < b.toNat ∨ a.toNat = b.toNat ∧ compare as bs = .lt := by
  rw [compare_cons, Ordering.then_eq_lt, compare_byte_eq_lt, compare_byte_eq_eq]

theorem compare_append_left (front as bs : Bytes) :
    compare (front ++ as) (front ++ bs) = compare as bs := by
  induction front with
  | nil => rfl
  | cons a front ih =>
    have same : compare a a = .eq := Std.ReflCmp.compare_self
    rw [List.cons_append, List.cons_append, compare_cons, same, ih]
    rfl

theorem utf8EncodeChar_ne_nil (c : Char) : String.utf8EncodeChar c ≠ [] := by
  unfold String.utf8EncodeChar
  dsimp only
  split_ifs <;> simp

/-- The first bytes that differ decide, whatever follows. -/
theorem compare_utf8EncodeChar {c d : Char} (less : c.toNat < d.toNat) (as bs : Bytes) :
    compare (String.utf8EncodeChar c ++ as) (String.utf8EncodeChar d ++ bs) = .lt := by
  have bound : d.toNat < 0x110000 := by
    change d.val.toNat < 0x110000
    rcases d.valid with low | high
    · omega
    · omega
  -- the digits of a code point in base 64 as one chain of divisions
  have digits (n : Nat) : n / 4096 = n / 64 / 64 ∧ n / 262144 = n / 64 / 64 / 64 := by omega
  change c.val.toNat < d.val.toNat at less
  change d.val.toNat < 0x110000 at bound
  simp only [String.utf8EncodeChar]
  generalize c.val.toNat = v at *
  generalize d.val.toNat = w at *
  split_ifs <;> simp only [List.cons_append, List.nil_append, compare_cons_eq_lt, UInt8.toNat_ofNat',
    (digits v).1, (digits v).2, (digits w).1, (digits w).2] <;> omega

theorem compare_flatMap_utf8 {cs ds : List Char} (less : cs < ds) :
    compare (cs.flatMap String.utf8EncodeChar) (ds.flatMap String.utf8EncodeChar) = .lt := by
  induction cs generalizing ds with
  | nil =>
    cases ds with
    | nil => exact absurd less (List.lt_irrefl [])
    | cons d ds =>
      obtain ⟨b, tail, text⟩ := List.exists_cons_of_ne_nil (utf8EncodeChar_ne_nil d)
      rw [List.flatMap_cons, text]
      rfl
  | cons c cs ih =>
    cases ds with
    | nil => exact absurd less (List.not_lt_nil (c :: cs))
    | cons d ds =>
      rw [List.flatMap_cons, List.flatMap_cons]
      rcases List.cons_lt_cons_iff.mp less with smaller | ⟨rfl, rest⟩
      · exact compare_utf8EncodeChar smaller _ _
      · rw [compare_append_left, ih rest]

theorem compare_utf8_of_lt {s t : String} (less : compare s t = .lt) :
    compare (utf8 s) (utf8 t) = .lt := by
  have texts : s < t := compareOfLessAndEq_eq_lt.mp less
  exact compare_flatMap_utf8 texts

/-- Bytes compare as texts do. -/
theorem compare_utf8 (s t : String) : compare (utf8 s) (utf8 t) = compare s t := by
  cases order : compare s t with
  | lt => exact compare_utf8_of_lt order
  | eq =>
    rw [Std.LawfulEqCmp.eq_of_compare order]
    exact Std.ReflCmp.compare_self
  | gt => exact Std.OrientedCmp.gt_of_lt (compare_utf8_of_lt (Std.OrientedCmp.lt_of_gt order))

end Transmogr.Json

namespace Transmogr

/-- The result of a comparison as Go returns it. -/
def sign : Ordering → Int
  | .lt => -1
  | .eq => 0
  | .gt => 1

theorem sign_eq_zero {o : Ordering} : sign o = 0 ↔ o = .eq := by
  cases o <;> decide

theorem sign_swap (o : Ordering) : sign o.swap = -sign o := by
  cases o <;> rfl

theorem sign_le_zero {o : Ordering} : sign o ≤ 0 ↔ o.isLE := by
  cases o <;> decide

/-- Strings are compared by their bytes. -/
def stringLess (left right : String) : Bool := compare (Json.utf8 left) (Json.utf8 right) = .lt

/-- Two string comparisons in a row are one three-way comparison. -/
theorem stringLess_ladder (left right : String) (rest : Int) {o : Ordering} (equal : rest = sign o) :
    (if stringLess left right then -1 else if stringLess right left then 1 else rest) =
      sign ((compare left right).then o) := by
  simp only [stringLess, Json.compare_utf8, decide_eq_true_eq]
  cases order : compare left right with
  | lt => rfl
  | eq =>
    have back : compare right left = .eq := Std.OrientedCmp.eq_symm order
    simp [back, equal]
  | gt =>
    have back : compare right left = .lt := Std.OrientedCmp.lt_of_gt order
    simp [back, sign]

/-- The three-way comparison of strings. -/
def compareTexts (left right : String) : Int :=
  if stringLess left right then -1 else if stringLess right left then 1 else 0

theorem compareTexts_eq (left right : String) : compareTexts left right = sign (compare left right) := by
  rw [compareTexts, stringLess_ladder left right 0 (show 0 = sign .eq from rfl), Ordering.then_eq]

theorem eq_of_compareTexts {left right : String} (tie : compareTexts left right = 0) : left = right := by
  rw [compareTexts_eq, sign_eq_zero] at tie
  exact Std.LawfulEqCmp.eq_of_compare tie

end Transmogr
