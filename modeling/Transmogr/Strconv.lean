import Transmogr.Json

/-! The parsers of Go's strconv package, and what the texts they accept are as bytes. -/
namespace Transmogr

/-- `strconv.ParseInt(value, 10, 64)` -/
def parseInt (value : String) : Option Int :=
  let digits (cs : List Char) : Option Nat :=
    if cs.isEmpty || !cs.all Char.isDigit then none
    else some (cs.foldl (fun n c => 10 * n + (c.toNat - 48)) 0)
  let number : Option Int := match value.toList with
    | [] => none
    | c :: cs =>
      if c.toNat = 0x2d then (digits cs).map fun n => -(n : Int)
      else if c.toNat = 0x2b then (digits cs).map Int.ofNat
      else (digits (c :: cs)).map Int.ofNat
  number.bind fun n => if Json.minInt64 ≤ n ∧ n ≤ Json.maxInt64 then some n else none

/-- `strconv.ParseBool` accepts the value. -/
def parsesBool (value : String) : Bool :=
  value ∈ ["1", "t", "T", "TRUE", "true", "True", "0", "f", "F", "FALSE", "false", "False"]

/-- `strconv.ParseBool` -/
def parseBool (value : String) : Option Bool :=
  if value ∈ ["1", "t", "T", "TRUE", "true", "True"] then some true
  else if value ∈ ["0", "f", "F", "FALSE", "false", "False"] then some false
  else none

theorem parsesBool_eq (value : String) : parsesBool value = (parseBool value).isSome := by
  simp only [parsesBool, parseBool, List.mem_cons, List.not_mem_nil, or_false]
  split_ifs with yes no
  · simp only [Option.isSome_some, decide_eq_true_eq]
    tauto
  · simp only [Option.isSome_some, decide_eq_true_eq]
    tauto
  · simp only [Option.isSome_none, decide_eq_false_iff_not]
    tauto

theorem utf8EncodeChar_of_lt {c : Char} (ascii : c.toNat < 128) :
    String.utf8EncodeChar c = [UInt8.ofNat c.toNat] := by
  have val : c.val.toNat = c.toNat := rfl
  simp only [String.utf8EncodeChar, val]
  rw [if_pos (by omega)]

theorem flatMap_utf8EncodeChar {cs : List Char} (ascii : ∀ c ∈ cs, c.toNat < 128) :
    cs.flatMap String.utf8EncodeChar = cs.map fun c => UInt8.ofNat c.toNat := by
  induction cs with
  | nil => rfl
  | cons c cs ih =>
    rw [List.forall_mem_cons] at ascii
    rw [List.flatMap_cons, utf8EncodeChar_of_lt ascii.1, ih ascii.2]
    rfl

/-- The bytes of digits, and their value. -/
theorem digits_bytes {cs : List Char} (filled : cs ≠ []) (digits : ∀ c ∈ cs, c.isDigit = true) :
    ∃ ds : Bytes, cs.flatMap String.utf8EncodeChar = ds ∧ ds ≠ [] ∧ ds.all Json.isDigit = true ∧
      Json.digitsValue ds = cs.foldl (fun n c => 10 * n + (c.toNat - 48)) 0 := by
  refine ⟨_, flatMap_utf8EncodeChar ?_, ?_, ?_, Json.digitsValue_chars digits⟩
  · intro c mem
    have := (Json.digit_byte (digits c mem)).2
    omega
  · simpa using filled
  · rw [List.all_map, List.all_eq_true]
    intro c mem
    obtain ⟨same, low, high⟩ := Json.digit_byte (digits c mem)
    simp [Json.isDigit, same, low, high]

/-- A sign that may be there, and at least one digit. -/
theorem parseInt_bytes {value : String} {n : Int} (parsed : parseInt value = some n) :
    ∃ ds : Bytes, ds ≠ [] ∧ ds.all Json.isDigit = true ∧
      ((Json.utf8 value = ds ∧ n = Json.digitsValue ds) ∨
        (Json.utf8 value = 0x2d :: ds ∧ n = -(Json.digitsValue ds : Int)) ∨
        (Json.utf8 value = 0x2b :: ds ∧ n = Json.digitsValue ds)) := by
  simp only [parseInt, Option.bind_eq_some_iff] at parsed
  obtain ⟨m, number, bounded⟩ := parsed
  split_ifs at bounded
  cases bounded
  unfold Json.utf8
  have digits {cs : List Char} (proper : ¬(cs.isEmpty || !cs.all Char.isDigit) = true) :
      ∃ ds : Bytes, cs.flatMap String.utf8EncodeChar = ds ∧ ds ≠ [] ∧ ds.all Json.isDigit = true ∧
        Json.digitsValue ds = cs.foldl (fun n c => 10 * n + (c.toNat - 48)) 0 := by
    simp only [Bool.or_eq_true, List.isEmpty_iff, Bool.not_eq_true', not_or, Bool.not_eq_false,
      List.all_eq_true] at proper
    exact digits_bytes proper.1 proper.2
  cases text : value.toList with
  | nil => simp [text] at number
  | cons c cs =>
    simp only [text] at number
    split_ifs at number with minus improper plus improper improper
    · cases number
    · obtain ⟨ds, bytes, filled, all, value⟩ := digits improper
      cases number
      refine ⟨ds, filled, all, .inr (.inl ⟨?_, by rw [value]⟩)⟩
      rw [List.flatMap_cons, utf8EncodeChar_of_lt (by omega), minus, bytes]
      rfl
    · cases number
    · obtain ⟨ds, bytes, filled, all, value⟩ := digits improper
      cases number
      refine ⟨ds, filled, all, .inr (.inr ⟨?_, by rw [value]; rfl⟩)⟩
      rw [List.flatMap_cons, utf8EncodeChar_of_lt (by omega), plus, bytes]
      rfl
    · cases number
    · obtain ⟨ds, bytes, filled, all, value⟩ := digits improper
      cases number
      exact ⟨ds, filled, all, .inl ⟨bytes, by rw [value]; rfl⟩⟩

end Transmogr
