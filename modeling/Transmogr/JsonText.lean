import Mathlib.Algebra.Order.Field.Rat
import Mathlib.Data.List.TakeWhile
import Transmogr.Json

/-! JSON texts of any shape and the values they denote, and how encoding/json writes a raw text
anew. -/
namespace Transmogr.Json

/-- A JSON value. The members of an object are in the order of their names. -/
inductive Value where
  | null
  | bool (b : Bool)
  | number (q : ℚ)
  | string (s : String)
  | array (items : List Value)
  | object (members : List (String × Value))
  deriving Inhabited

/-- A later member of the same name takes the place of an earlier one. -/
def insertMember (member : String × Value) : List (String × Value) → List (String × Value)
  | [] => [member]
  | first :: rest =>
    match compare member.1 first.1 with
    | .lt => member :: first :: rest
    | .eq => member :: rest
    | .gt => first :: insertMember member rest

def Value.ofMembers (members : List (String × Value)) : Value :=
  .object (members.foldl (fun known member => insertMember member known) [])

def dropSpace (bs : Bytes) : Bytes := bs.dropWhile isSpace

/-- The body of a string, and what follows its closing quote. -/
def scanBody : Nat → Bytes → Option (List Char × Bytes)
  | _, 0x22 :: rest => some ([], rest)
  | 0, _ => none
  | fuel + 1, bs => do
    let (c, rest) ← readChar bs
    let (cs, rest) ← scanBody fuel rest
    return (c :: cs, rest)

/-- The digits after a decimal point, if there is one. -/
def readFraction : Bytes → Option (Bytes × Bytes)
  | 0x2e :: rest =>
    let digits := rest.takeWhile isDigit
    if digits = [] then none else some (digits, rest.dropWhile isDigit)
  | rest => some ([], rest)

def readExponent : Bytes → Option Int
  | [] => some 0
  | b :: rest =>
    if b = 0x65 ∨ b = 0x45 then
      let (negative, digits) := match rest with
        | 0x2d :: digits => (true, digits)
        | 0x2b :: digits => (false, digits)
        | digits => (false, digits)
      if digits = [] ∨ !digits.all isDigit then none
      else some (if negative then -(digitsValue digits : Int) else digitsValue digits)
    else none

/-- The number a text without a sign denotes. -/
def readMagnitude (text : Bytes) : Option ℚ := do
  let whole ← readNat (text.takeWhile isDigit)
  let (fraction, rest) ← readFraction (text.dropWhile isDigit)
  let exponent ← readExponent rest
  return (whole + digitsValue fraction / 10 ^ fraction.length) * 10 ^ exponent

def readNumber : Bytes → Option ℚ
  | 0x2d :: text => (readMagnitude text).map (- ·)
  | text => readMagnitude text

/-- The bytes of number texts. -/
def isNumberByte (b : UInt8) : Bool :=
  isDigit b || b == 0x2d || b == 0x2b || b == 0x2e || b == 0x65 || b == 0x45

/-- A number reaches as far as its bytes do. -/
def scanNumber (bs : Bytes) : Option (Value × Bytes) :=
  (readNumber (bs.takeWhile isNumberByte)).map fun q => (.number q, bs.dropWhile isNumberByte)

/-- A value that is neither a string, an array nor an object. -/
def scanPlain (bs : Bytes) : Option (Value × Bytes) :=
  if nullText.isPrefixOf bs then some (.null, bs.drop nullText.length)
  else if trueText.isPrefixOf bs then some (.bool true, bs.drop trueText.length)
  else if falseText.isPrefixOf bs then some (.bool false, bs.drop falseText.length)
  else scanNumber bs

section Items

variable {α : Type} (item : Bytes → Option (α × Bytes)) (close : UInt8)

/-- One item and those after it, with commas between them. -/
def scanMore : Nat → Bytes → Option (List α × Bytes)
  | 0, _ => none
  | fuel + 1, bs => do
    let (first, rest) ← item bs
    match dropSpace rest with
    | [] => none
    | b :: rest =>
      if b = close then some ([first], rest)
      else if b = 0x2c then (scanMore fuel rest).map fun (items, rest) => (first :: items, rest)
      else none

/-- The items up to the closing bracket. -/
def scanItems (fuel : Nat) (bs : Bytes) : Option (List α × Bytes) :=
  match dropSpace bs with
  | [] => none
  | b :: rest => if b = close then some ([], rest) else scanMore item close fuel bs

/-- A name, a colon and what the name stands for. -/
def scanMember (bs : Bytes) : Option ((String × α) × Bytes) :=
  match dropSpace bs with
  | 0x22 :: body => do
    let (cs, rest) ← scanBody body.length body
    match dropSpace rest with
    | 0x3a :: rest => (item rest).map fun (value, rest) => ((String.ofList cs, value), rest)
    | _ => none
  | _ => none

end Items

/-- The value at the front of a text. Every value and every item takes a byte, so the fuel need not
exceed the length of the text. -/
def scanValue : Nat → Bytes → Option (Value × Bytes)
  | 0, _ => none
  | fuel + 1, bs =>
    match dropSpace bs with
    | 0x22 :: body => (scanBody body.length body).map fun (cs, rest) => (.string (.ofList cs), rest)
    | 0x5b :: rest =>
      (scanItems (scanValue fuel) 0x5d fuel rest).map fun (items, rest) => (.array items, rest)
    | 0x7b :: rest =>
      (scanItems (scanMember (scanValue fuel)) 0x7d fuel rest).map fun (members, rest) =>
        (.ofMembers members, rest)
    | text => scanPlain text

/-- The value of a text without space around it. -/
def parseText (text : Bytes) : Option Value :=
  match scanValue text.length text with
  | some (value, []) => some value
  | _ => none

/-- The value a text denotes; `none` if it is no JSON. -/
def parse (raw : Bytes) : Option Value := parseText (trimSpace raw)

/-- The text of the value at the front. -/
def scanRaw (fuel : Nat) (bs : Bytes) : Option (Bytes × Bytes) :=
  let text := dropSpace bs
  (scanValue fuel text).map fun (_, rest) => (text.take (text.length - rest.length), rest)

/-- Space between tokens goes, and what the encoder escapes in strings is escaped. -/
def compactFrom (inside : Bool) : Bytes → Bytes
  | [] => []
  | 0x5c :: b :: rest => 0x5c :: b :: compactFrom inside rest
  | 0xe2 :: 0x80 :: 0xa8 :: rest => escapeCode 0x2028 ++ compactFrom inside rest
  | 0xe2 :: 0x80 :: 0xa9 :: rest => escapeCode 0x2029 ++ compactFrom inside rest
  | b :: rest =>
    if b = 0x22 then b :: compactFrom (!inside) rest
    else if b = 0x3c ∨ b = 0x3e ∨ b = 0x26 then escapeCode b.toNat ++ compactFrom inside rest
    else if !inside && isSpace b then compactFrom inside rest
    else b :: compactFrom inside rest

/-- `json.Marshal` of a `json.RawMessage`: a nil message is `null`, and what is no JSON an error. The
empty text stands for the nil message; one that is empty and not nil, which Go refuses, is not
modelled. -/
def marshalRaw (raw : Bytes) : Option Bytes :=
  if raw = [] then some nullText
  else if (parse raw).isSome then some (compactFrom false raw) else none

theorem scanBody_quote (fuel : Nat) (rest : Bytes) : scanBody fuel (0x22 :: rest) = some ([], rest) := by
  cases fuel <;> rfl

theorem scanBody_char {bs rest : Bytes} {c : Char} (read : readChar bs = some (c, rest)) (fuel : Nat) :
    scanBody (fuel + 1) bs = (scanBody fuel rest).map fun (cs, rest) => (c :: cs, rest) := by
  have unquoted : ∀ tail, bs ≠ 0x22 :: tail := by
    rintro tail rfl
    rw [readChar_quote] at read
    cases read
  rw [scanBody]
  · simp only [read, Option.bind_eq_bind, Option.bind_some, Option.pure_def, Option.map_eq_bind,
      Function.comp_def]
  · exact unquoted

/-- A string reads back from any encoding that escapes control characters, whatever follows. -/
theorem scanBody_escaped {coded : Nat → Bool} (escaping : Escaping coded) (cs : List Char)
    (rest : Bytes) {fuel : Nat} (enough : cs.length ≤ fuel) :
    scanBody fuel (cs.flatMap (escapeChar coded) ++ 0x22 :: rest) = some (cs, rest) := by
  induction cs generalizing fuel with
  | nil => exact scanBody_quote fuel rest
  | cons c cs ih =>
    obtain ⟨fuel, rfl⟩ : ∃ k, fuel = k + 1 := ⟨fuel - 1, by simp at enough; omega⟩
    have read := readChar_escapeChar escaping c (cs.flatMap (escapeChar coded) ++ 0x22 :: rest)
    rw [List.flatMap_cons, List.append_assoc, scanBody_char read, ih (by simpa using enough)]
    rfl

/-- A body that reaches to the end of the text. -/
theorem scanBody_eq_readBody {fuel : Nat} {bs : Bytes} {cs : List Char} :
    scanBody fuel bs = some (cs, []) ↔ readBody fuel bs = some cs := by
  -- without a character to read, only the closing quote is left
  have ended {fuel : Nat} {bs : Bytes} {cs : List Char} (unread : fuel = 0 ∨ readChar bs = none) :
      scanBody fuel bs = some (cs, []) ↔ readBody fuel bs = some cs := by
    by_cases quoted : ∃ tail, bs = 0x22 :: tail
    · obtain ⟨tail, rfl⟩ := quoted
      rw [scanBody_quote]
      cases tail <;> cases fuel <;> simp [readBody, readChar_quote]
    · have unquoted : ∀ tail, bs ≠ 0x22 :: tail := fun tail same => quoted ⟨tail, same⟩
      cases fuel with
      | zero => rw [scanBody, readBody] <;> simp [unquoted]
      | succ fuel =>
        rw [scanBody, readBody] <;> simp [unquoted, unread.resolve_left (by omega)]
  induction fuel generalizing bs cs with
  | zero => exact ended (.inl rfl)
  | succ fuel ih =>
    cases read : readChar bs with
    | none => exact ended (.inr read)
    | some pair =>
      obtain ⟨c, rest⟩ := pair
      rw [scanBody_char read, readBody_char read]
      cases cs with
      | nil => simp
      | cons d cs => simp [← ih, and_comm]

theorem dropSpace_cons {b : UInt8} (solid : isSpace b = false) (bs : Bytes) :
    dropSpace (b :: bs) = b :: bs := by
  simp [dropSpace, solid]

theorem dropSpace_trimSpace (bs : Bytes) : dropSpace (trimSpace bs) = trimSpace bs := by
  cases front : bs.dropWhile isSpace with
  | nil => simp [trimSpace, front, dropSpace]
  | cons b rest =>
    have solid : isSpace b = false := by
      have first := List.head?_dropWhile_not isSpace bs
      rwa [front] at first
    have same : trimSpace bs = trimSpace (b :: rest) := by simp [trimSpace, front, solid]
    obtain ⟨tail, trimmed⟩ := trimSpace_cons solid rest
    rw [same, trimmed, dropSpace_cons solid]

theorem readMagnitude_of_digits {ds : Bytes} (all : ds.all isDigit = true) :
    readMagnitude ds = (readNat ds).map (Nat.cast : Nat → ℚ) := by
  have digit : ∀ b ∈ ds, isDigit b = true := List.all_eq_true.mp all
  rw [readMagnitude, List.takeWhile_eq_self_iff.mpr digit, List.dropWhile_eq_nil_iff.mpr digit]
  cases readNat ds <;> simp [readFraction, readExponent, digitsValue]

/-- A text of digits and signs is a number if it is an integer. -/
def isIntegerByte (b : UInt8) : Bool := isDigit b || b == 0x2d || b == 0x2b

theorem readMagnitude_of_integer {text : Bytes} (bytes : text.all isIntegerByte = true) :
    readMagnitude text = (readNat text).map (Nat.cast : Nat → ℚ) := by
  by_cases all : text.all isDigit = true
  · exact readMagnitude_of_digits all
  · -- after the digits comes a sign, which is no fraction and no exponent
    have unread : readNat text = none := by simp [readNat, all]
    rw [unread, readMagnitude]
    cases rest : text.dropWhile isDigit with
    | nil =>
      rw [List.dropWhile_eq_nil_iff, ← List.all_eq_true] at rest
      exact absurd rest all
    | cons b tail =>
      have mem : b ∈ text := (List.dropWhile_sublist isDigit).mem (rest ▸ List.mem_cons_self)
      have other : isDigit b = false := by
        have first := List.head?_dropWhile_not isDigit text
        rwa [rest] at first
      have sign : b = 0x2d ∨ b = 0x2b := by
        have byte := List.all_eq_true.mp bytes b mem
        simpa [isIntegerByte, other] using byte
      rcases sign with rfl | rfl <;>
        cases readNat (text.takeWhile isDigit) <;> simp [readFraction, readExponent]

theorem readNumber_of_integer {text : Bytes} (bytes : text.all isIntegerByte = true) :
    readNumber text = (readInt text).map (Int.cast : Int → ℚ) := by
  unfold readNumber readInt
  split
  · next text =>
    rw [List.all_cons, Bool.and_eq_true] at bytes
    rw [readMagnitude_of_integer bytes.2]
    cases read : readNat text <;> simp_all
  · rw [readMagnitude_of_integer bytes]
    cases read : readNat text <;> simp_all

theorem isIntegerByte_of_readInt {text : Bytes} {n : Int} (read : readInt text = some n) :
    text.all isIntegerByte = true := by
  have digits {ds : Bytes} {m : Nat} (read : readNat ds = some m) : ds.all isIntegerByte = true := by
    unfold readNat at read
    split at read
    · cases read
    · next proper =>
      simp only [Bool.or_eq_true, not_or, Bool.not_eq_true, Bool.not_eq_false'] at proper
      rw [List.all_eq_true] at proper ⊢
      intro b mem
      simp [isIntegerByte, proper.1.2 b mem]
  unfold readInt at read
  split at read
  · next text =>
    cases parsed : readNat text with
    | none => simp [parsed] at read
    | some m =>
      rw [List.all_cons, digits parsed]
      rfl
  · obtain ⟨m, parsed, -⟩ := Option.map_eq_some_iff.mp read
    exact digits parsed

theorem isNumberByte_of_integer {b : UInt8} (byte : isIntegerByte b = true) :
    isNumberByte b = true := by
  simp only [isIntegerByte, Bool.or_eq_true, beq_iff_eq] at byte
  rcases byte with (digit | rfl) | rfl
  · simp [isNumberByte, digit]
  · rfl
  · rfl

theorem not_space_of_number {b : UInt8} (byte : isNumberByte b = true) : isSpace b = false := by
  simp only [isNumberByte, Bool.or_eq_true, beq_iff_eq] at byte
  rcases byte with ((((digit | rfl) | rfl) | rfl) | rfl) | rfl
  · exact isSpace_digit digit
  all_goals rfl

theorem trimSpace_of_number {text : Bytes} (bytes : ∀ b ∈ text, isNumberByte b = true) :
    trimSpace text = text :=
  trimSpace_of_all fun b mem => not_space_of_number (bytes b mem)

/-- A number is as long as its bytes; what follows is read on its own. -/
theorem scanNumber_append {text rest : Bytes} (bytes : ∀ b ∈ text, isNumberByte b = true)
    (ends : ∀ b ∈ rest.head?, isNumberByte b = false) :
    scanNumber (text ++ rest) = (readNumber text).map fun q => (.number q, rest) := by
  have taken : rest.takeWhile isNumberByte = [] := by
    cases rest with
    | nil => rfl
    | cons b rest => simp [ends b rfl]
  have dropped : rest.dropWhile isNumberByte = rest := by
    cases rest with
    | nil => rfl
    | cons b rest => simp [ends b rfl]
  rw [scanNumber, List.takeWhile_append_of_pos bytes, List.dropWhile_append_of_pos bytes, taken,
    dropped, List.append_nil]

/-- Anything but a string, an array or an object. -/
theorem scanValue_plain {b : UInt8} (solid : isSpace b = false)
    (other : b ≠ 0x22 ∧ b ≠ 0x5b ∧ b ≠ 0x7b) (fuel : Nat) (bs : Bytes) :
    scanValue (fuel + 1) (b :: bs) = scanPlain (b :: bs) := by
  rw [scanValue, dropSpace_cons solid]
  split
  · next same => exact absurd (List.cons.inj same).1 other.1
  · next same => exact absurd (List.cons.inj same).1 other.2.1
  · next same => exact absurd (List.cons.inj same).1 other.2.2
  · rfl

theorem scanValue_number {text rest : Bytes} (filled : text ≠ [])
    (bytes : ∀ b ∈ text, isNumberByte b = true) (ends : ∀ b ∈ rest.head?, isNumberByte b = false)
    (fuel : Nat) :
    scanValue (fuel + 1) (text ++ rest) = (readNumber text).map fun q => (.number q, rest) := by
  obtain ⟨b, tail, rfl⟩ := List.exists_cons_of_ne_nil filled
  have byte := bytes b List.mem_cons_self
  have other (c : UInt8) (not : isNumberByte c = false) : b ≠ c := by
    rintro rfl
    rw [byte] at not
    cases not
  have plain : scanPlain (b :: tail ++ rest) = scanNumber (b :: tail ++ rest) := by
    simp [scanPlain, nullText, trueText, falseText, List.isPrefixOf, (other 0x6e rfl).symm,
      (other 0x74 rfl).symm, (other 0x66 rfl).symm]
  rw [← scanNumber_append bytes ends, ← plain]
  exact scanValue_plain (not_space_of_number byte) ⟨other _ rfl, other _ rfl, other _ rfl⟩ fuel _

theorem scanValue_quote (fuel : Nat) (body : Bytes) :
    scanValue (fuel + 1) (0x22 :: body) =
      (scanBody body.length body).map fun (cs, rest) => (.string (.ofList cs), rest) := by
  rw [scanValue, dropSpace_cons rfl]
  rfl

theorem scanValue_string {coded : Nat → Bool} (escaping : Escaping coded) (s : String) (rest : Bytes)
    (fuel : Nat) :
    scanValue (fuel + 1) (encodeString coded s ++ rest) = some (.string s, rest) := by
  have text : encodeString coded s ++ rest =
      0x22 :: (s.toList.flatMap (escapeChar coded) ++ 0x22 :: rest) := by
    simp [encodeString]
  have long := length_flatMap_escapeChar escaping s.toList
  rw [text, scanValue_quote, scanBody_escaped escaping]
  · simp
  · rw [List.length_append]
    omega

theorem scanValue_bool (b : Bool) (rest : Bytes) (fuel : Nat) :
    scanValue (fuel + 1) (formatBool b ++ rest) = some (.bool b, rest) := by
  cases b <;> rfl

theorem parseText_eq_some {text : Bytes} {v : Value} :
    parseText text = some v ↔ scanValue text.length text = some (v, []) := by
  unfold parseText
  split
  · next same => simp [same]
  · next other =>
    simp only [reduceCtorEq, false_iff]
    exact other v

theorem parseText_quote (body : Bytes) :
    parseText (0x22 :: body) = (readBody body.length body).map fun cs => .string (.ofList cs) := by
  ext v
  rw [parseText_eq_some, List.length_cons, scanValue_quote, Option.map_eq_some_iff,
    Option.map_eq_some_iff]
  constructor
  · rintro ⟨⟨cs, rest⟩, scanned, same⟩
    cases same
    exact ⟨cs, scanBody_eq_readBody.mp scanned, rfl⟩
  · rintro ⟨cs, read, rfl⟩
    exact ⟨(cs, []), scanBody_eq_readBody.mpr read, rfl⟩

theorem parseText_number {text : Bytes} (bytes : ∀ b ∈ text, isNumberByte b = true) :
    parseText text = (readNumber text).map .number := by
  cases text with
  | nil => rfl
  | cons b text =>
    ext v
    have scanned := @scanValue_number _ [] (List.cons_ne_nil b text) bytes (by simp) text.length
    rw [List.append_nil] at scanned
    rw [parseText_eq_some, List.length_cons, scanned]
    simp

theorem parse_of_integer {raw : Bytes} (bytes : (trimSpace raw).all isIntegerByte = true) :
    parse raw = (readInt (trimSpace raw)).map fun n => .number n := by
  rw [parse, parseText_number, readNumber_of_integer bytes, Option.map_map]
  · rfl
  · intro b mem
    exact isNumberByte_of_integer (List.all_eq_true.mp bytes b mem)

theorem parse_encodeString {coded : Nat → Bool} (escaping : Escaping coded) (s : String) :
    parse (encodeString coded s) = some (.string s) := by
  have trimmed : trimSpace (encodeString coded s) = encodeString coded s := trimSpace_eq rfl rfl
  have scanned := scanValue_string escaping s [] (encodeString coded s).tail.length
  rw [parse, trimmed, parseText_eq_some]
  simpa [encodeString] using scanned

theorem parse_quote (s : String) : parse (quote s) = some (.string s) :=
  parse_encodeString needsCode_escaping s

theorem parse_formatInt (n : Int) : parse (formatInt n) = some (.number n) := by
  rw [parse_of_integer, formatInt_trim, readInt_formatInt]
  · rfl
  · rw [formatInt_trim]
    exact isIntegerByte_of_readInt (readInt_formatInt n)

theorem parse_formatBool (b : Bool) : parse (formatBool b) = some (.bool b) := by
  cases b <;> rfl

/-- A string, an array or an object starts with its own byte. -/
theorem scanValue_cases {fuel : Nat} {text rest : Bytes} {v : Value}
    (front : dropSpace text = text) (scanned : scanValue fuel text = some (v, rest)) :
    (∃ body, text = 0x22 :: body) ∨ (∃ items, v = .array items) ∨
      (∃ members, v = .object members) ∨ scanPlain text = some (v, rest) := by
  cases fuel with
  | zero => cases scanned
  | succ fuel =>
    rw [scanValue, front] at scanned
    split at scanned
    · exact .inl ⟨_, rfl⟩
    · obtain ⟨⟨items, _⟩, -, same⟩ := Option.map_eq_some_iff.mp scanned
      cases same
      exact .inr (.inl ⟨items, rfl⟩)
    · obtain ⟨⟨members, _⟩, -, same⟩ := Option.map_eq_some_iff.mp scanned
      cases same
      exact .inr (.inr (.inl ⟨_, rfl⟩))
    · exact .inr (.inr (.inr scanned))

/-- Null, a boolean or a number. -/
theorem scanPlain_cases {bs rest : Bytes} {v : Value} (scanned : scanPlain bs = some (v, rest)) :
    (v = .null ∧ bs = nullText ++ rest) ∨ (∃ b, v = .bool b ∧ bs = formatBool b ++ rest) ∨
      ∃ q, v = .number q := by
  have prefixed {text : Bytes} {w : Value} (starts : text.isPrefixOf bs = true)
      (same : some (w, bs.drop text.length) = some (v, rest)) : v = w ∧ bs = text ++ rest := by
    cases same
    exact ⟨rfl, (List.prefix_iff_eq_append.mp (List.isPrefixOf_iff_prefix.mp starts)).symm⟩
  unfold scanPlain at scanned
  split_ifs at scanned with null yes no
  · exact .inl (prefixed null scanned)
  · exact .inr (.inl ⟨true, prefixed yes scanned⟩)
  · exact .inr (.inl ⟨false, prefixed no scanned⟩)
  · obtain ⟨q, -, same⟩ := Option.map_eq_some_iff.mp scanned
    cases same
    exact .inr (.inr ⟨q, rfl⟩)

theorem unmarshalString_of_parse {raw : Bytes} {s : String} (read : parse raw = some (.string s)) :
    unmarshalString raw = some s := by
  have scanned := parseText_eq_some.mp read
  obtain ⟨body, quoted⟩ | ⟨_, same⟩ | ⟨_, same⟩ | plain :=
    scanValue_cases (dropSpace_trimSpace raw) scanned
  · rw [parse, quoted, parseText_quote] at read
    obtain ⟨cs, body, same⟩ := Option.map_eq_some_iff.mp read
    cases same
    simp [unmarshalString, quoted, nullText, body]
  · cases same
  · cases same
  · obtain ⟨same, -⟩ | ⟨_, same, -⟩ | ⟨_, same⟩ := scanPlain_cases plain <;> cases same

theorem trimSpace_of_parse_bool {raw : Bytes} {b : Bool} (read : parse raw = some (.bool b)) :
    trimSpace raw = formatBool b := by
  have scanned := parseText_eq_some.mp read
  obtain ⟨body, quoted⟩ | ⟨_, same⟩ | ⟨_, same⟩ | plain :=
    scanValue_cases (dropSpace_trimSpace raw) scanned
  · rw [parse, quoted, parseText_quote] at read
    obtain ⟨cs, -, same⟩ := Option.map_eq_some_iff.mp read
    cases same
  · cases same
  · cases same
  · obtain ⟨same, -⟩ | ⟨c, same, text⟩ | ⟨_, same⟩ := scanPlain_cases plain
    · cases same
    · cases same
      rwa [List.append_nil] at text
    · cases same

/-- A text that is read as an int64 denotes it, unless it is `null`. -/
theorem parse_of_unmarshalInt64 {raw : Bytes} {n : Int} (read : unmarshalInt64 raw = some n) :
    (parse raw = some .null ∧ n = 0) ∨ parse raw = some (.number n) := by
  simp only [unmarshalInt64] at read
  split_ifs at read with null
  · cases read
    left
    rw [parse, null]
    exact ⟨rfl, rfl⟩
  · obtain ⟨m, text, bounded⟩ := Option.bind_eq_some_iff.mp read
    split_ifs at bounded
    cases bounded
    right
    rw [parse_of_integer (isIntegerByte_of_readInt text), text]
    rfl

theorem parse_of_unmarshalBool {raw : Bytes} {b : Bool} (read : unmarshalBool raw = some b) :
    (parse raw = some .null ∧ b = false) ∨ parse raw = some (.bool b) := by
  simp only [unmarshalBool] at read
  split_ifs at read with null yes no <;> cases read
  · left
    rw [parse, null]
    exact ⟨rfl, rfl⟩
  · right
    rw [parse, yes]
    rfl
  · right
    rw [parse, no]
    rfl

/-! ## Texts the encoder leaves as they are -/

/-- A byte that is copied wherever it stands. -/
def isCopied (b : UInt8) : Bool :=
  b != 0x5c && b != 0xe2 && b != 0x22 && b != 0x3c && b != 0x3e && b != 0x26

theorem compactFrom_cons {inside : Bool} {b : UInt8} (copied : isCopied b = true)
    (solid : inside = true ∨ isSpace b = false) (rest : Bytes) :
    compactFrom inside (b :: rest) = b :: compactFrom inside rest := by
  simp only [isCopied, Bool.and_eq_true, bne_iff_ne] at copied
  obtain ⟨⟨⟨⟨⟨slash, wide⟩, quote⟩, less⟩, greater⟩, ampersand⟩ := copied
  have kept : (!inside && isSpace b) = false := by rcases solid with rfl | solid <;> simp [*]
  rw [compactFrom]
  · simp only [quote, less, greater, ampersand, kept, or_self, if_false, Bool.false_eq_true]
  · exact fun _ _ same => absurd same slash
  · exact fun _ same => absurd same wide
  · exact fun _ same => absurd same wide

theorem compactFrom_append {inside : Bool} {bs : Bytes} (copied : ∀ b ∈ bs, isCopied b = true)
    (solid : inside = true ∨ ∀ b ∈ bs, isSpace b = false) (rest : Bytes) :
    compactFrom inside (bs ++ rest) = bs ++ compactFrom inside rest := by
  induction bs with
  | nil => rfl
  | cons b bs ih =>
    rw [List.forall_mem_cons] at copied
    rw [List.forall_mem_cons] at solid
    rw [List.cons_append, compactFrom_cons copied.1 (solid.imp_right And.left), List.cons_append,
      ih copied.2 (solid.imp_right And.right)]

/-- A character of three bytes that is no line separator. -/
theorem compactFrom_wide {x y : UInt8} (other : ¬(x = 0x80 ∧ (y = 0xa8 ∨ y = 0xa9))) (rest : Bytes) :
    compactFrom true (0xe2 :: x :: y :: rest) = 0xe2 :: compactFrom true (x :: y :: rest) := by
  rw [compactFrom]
  · simp
  · simp
  · rintro tail - ⟨⟩
    exact other ⟨rfl, .inl rfl⟩
  · rintro tail - ⟨⟩
    exact other ⟨rfl, .inr rfl⟩

theorem isCopied_hexDigit {n : Nat} (digit : n < 16) : isCopied (hexDigit n) = true := by
  interval_cases n <;> decide

theorem ofNat_inj {a b : Nat} (small : a < 256) (same : UInt8.ofNat a = UInt8.ofNat b) (small' : b < 256) :
    a = b := by
  have values := congrArg UInt8.toNat same
  simp only [UInt8.toNat_ofNat'] at values
  omega

theorem isCopied_ofNat {n : Nat} (byte : n < 256)
    (other : n ≠ 0x5c ∧ n ≠ 0xe2 ∧ n ≠ 0x22 ∧ n ≠ 0x3c ∧ n ≠ 0x3e ∧ n ≠ 0x26) :
    isCopied (UInt8.ofNat n) = true := by
  have ne (k : Nat) (inRange : k < 256) (h : n ≠ k) : UInt8.ofNat n ≠ UInt8.ofNat k := by
    intro same
    exact h (ofNat_inj byte same inRange)
  simp only [isCopied, Bool.and_eq_true, bne_iff_ne]
  exact ⟨⟨⟨⟨⟨ne _ (by decide) other.1, ne _ (by decide) other.2.1⟩, ne _ (by decide) other.2.2.1⟩,
    ne _ (by decide) other.2.2.2.1⟩, ne _ (by decide) other.2.2.2.2.1⟩, ne _ (by decide) other.2.2.2.2.2⟩

/-- Bytes that start no pattern are copied. -/
theorem compactFrom_bytes {rest : Bytes} (bs : List Nat) (each : ∀ n ∈ bs, n < 256 ∧ n ≠ 0x5c ∧ n ≠ 0xe2 ∧
      n ≠ 0x22 ∧ n ≠ 0x3c ∧ n ≠ 0x3e ∧ n ≠ 0x26) :
    compactFrom true (bs.map UInt8.ofNat ++ rest) = bs.map UInt8.ofNat ++ compactFrom true rest := by
  apply compactFrom_append _ (.inl rfl)
  intro b mem
  obtain ⟨k, inside, rfl⟩ := List.mem_map.mp mem
  exact isCopied_ofNat (each k inside).1 (each k inside).2

theorem compactFrom_utf8 {c : Char} (plain : escapeLetter c.toNat = none)
    (uncoded : needsCode c.toNat = false) (rest : Bytes) :
    compactFrom true (String.utf8EncodeChar c ++ rest) =
      String.utf8EncodeChar c ++ compactFrom true rest := by
  have notQuote : c.toNat ≠ 0x22 := by intro h; rw [h] at plain; cases plain
  have notSlash : c.toNat ≠ 0x5c := by intro h; rw [h] at plain; cases plain
  simp only [needsCode, Bool.or_eq_false_iff, decide_eq_false_iff_not, beq_eq_false_iff_ne] at uncoded
  have val : c.val.toNat = c.toNat := rfl
  simp only [String.utf8EncodeChar, val]
  generalize c.toNat = n at *
  have bytes := @compactFrom_bytes rest
  split
  · apply bytes [n]
    simp only [List.forall_mem_singleton]
    omega
  split
  · apply bytes [n / 64 % 32 + 192, n % 64 + 128]
    simp only [List.forall_mem_cons, List.not_mem_nil, false_implies, implies_true, and_true]
    omega
  split
  · by_cases wide : n / 4096 % 16 + 224 = 0xe2
    · -- only the line separators have all three bytes of a pattern
      rw [wide]
      simp only [List.cons_append, List.nil_append]
      rw [show UInt8.ofNat 0xe2 = 0xe2 from rfl, compactFrom_wide]
      · exact congrArg _ (bytes [n / 64 % 64 + 128, n % 64 + 128] (by
          simp only [List.forall_mem_cons, List.not_mem_nil, false_implies, implies_true, and_true]
          omega))
      · rintro ⟨second, third⟩
        have second := ofNat_inj (b := 0x80) (by omega) second (by decide)
        rcases third with third | third
        · have third := ofNat_inj (b := 0xa8) (by omega) third (by decide)
          omega
        · have third := ofNat_inj (b := 0xa9) (by omega) third (by decide)
          omega
    · apply bytes [n / 4096 % 16 + 224, n / 64 % 64 + 128, n % 64 + 128]
      simp only [List.forall_mem_cons, List.not_mem_nil, false_implies, implies_true, and_true]
      omega
  · apply bytes [n / 262144 % 8 + 240, n / 4096 % 64 + 128, n / 64 % 64 + 128, n % 64 + 128]
    simp only [List.forall_mem_cons, List.not_mem_nil, false_implies, implies_true, and_true]
    omega

theorem compactFrom_escapeChar (c : Char) (rest : Bytes) :
    compactFrom true (escapeChar needsCode c ++ rest) =
      escapeChar needsCode c ++ compactFrom true rest := by
  unfold escapeChar
  split
  · rfl
  · next plain =>
    split
    · have digits : ∀ b ∈ [hexDigit (c.toNat / 4096 % 16), hexDigit (c.toNat / 256 % 16),
          hexDigit (c.toNat / 16 % 16), hexDigit (c.toNat % 16)], isCopied b = true := by
        simp only [List.forall_mem_cons, List.not_mem_nil, false_implies, implies_true, and_true]
        exact ⟨isCopied_hexDigit (by omega), isCopied_hexDigit (by omega),
          isCopied_hexDigit (by omega), isCopied_hexDigit (by omega)⟩
      exact congrArg (fun tail => 0x5c :: 0x75 :: tail) (compactFrom_append digits (.inl rfl) rest)
    · next raw => exact compactFrom_utf8 plain (Bool.eq_false_iff.mpr raw) rest

theorem marshalRaw_quote (s : String) : marshalRaw (quote s) = some (quote s) := by
  have body : ∀ cs : List Char, compactFrom true (cs.flatMap (escapeChar needsCode) ++ [0x22]) =
      cs.flatMap (escapeChar needsCode) ++ [0x22] := by
    intro cs
    induction cs with
    | nil => rfl
    | cons c cs ih => rw [List.flatMap_cons, List.append_assoc, compactFrom_escapeChar, ih]
  have whole : compactFrom false (quote s) = quote s := congrArg (0x22 :: ·) (body s.toList)
  rw [marshalRaw, parse_quote, whole]
  simp [quote, encodeString]

theorem isCopied_of_number {b : UInt8} (byte : isNumberByte b = true) : isCopied b = true := by
  have other (c : UInt8) (not : isNumberByte c = false) : b ≠ c := by
    rintro rfl
    rw [byte] at not
    cases not
  simp [isCopied, other 0x5c rfl, other 0xe2 rfl, other 0x22 rfl, other 0x3c rfl, other 0x3e rfl,
    other 0x26 rfl]

theorem marshalRaw_number {text : Bytes} {q : ℚ} (bytes : ∀ b ∈ text, isNumberByte b = true)
    (read : readNumber text = some q) : marshalRaw text = some text := by
  have solid : ∀ b ∈ text, isSpace b = false := fun b mem => not_space_of_number (bytes b mem)
  have filled : text ≠ [] := by
    rintro rfl
    cases read
  have copied := @compactFrom_append false _ (fun b mem => isCopied_of_number (bytes b mem))
    (.inr solid) []
  rw [marshalRaw, parse, trimSpace_of_all solid, parseText_number bytes, read, if_neg filled]
  simpa [compactFrom] using copied

theorem marshalRaw_formatBool (b : Bool) : marshalRaw (formatBool b) = some (formatBool b) := by
  cases b <;> rfl

/-- The encoder writes the raw text of a value as it is, and reads it back among others. -/
structure Solid (raw : Bytes) (v : Value) : Prop where
  starts : ∃ b tail, raw = b :: tail ∧ isSpace b = false ∧ b ≠ 0x5d ∧ b ≠ 0x7d
  marshal : marshalRaw raw = some raw
  parsed : parse raw = some v
  scan : ∀ fuel rest, (∀ b ∈ rest.head?, b = 0x2c ∨ b = 0x5d ∨ b = 0x7d) →
    scanValue (fuel + 1) (raw ++ rest) = some (v, rest)

theorem solid_quote (s : String) : Solid (quote s) (.string s) where
  starts := ⟨0x22, _, rfl, rfl, by decide, by decide⟩
  marshal := marshalRaw_quote s
  parsed := parse_quote s
  scan fuel rest _ := scanValue_string needsCode_escaping s rest fuel

theorem solid_formatBool (b : Bool) : Solid (formatBool b) (.bool b) where
  starts := by cases b <;> exact ⟨_, _, rfl, rfl, by decide, by decide⟩
  marshal := marshalRaw_formatBool b
  parsed := parse_formatBool b
  scan fuel rest _ := scanValue_bool b rest fuel

theorem solid_integer {text : Bytes} {n : Int} (read : readInt text = some n) :
    Solid text (.number n) := by
  have integer := isIntegerByte_of_readInt read
  have bytes : ∀ b ∈ text, isNumberByte b = true := fun b mem =>
    isNumberByte_of_integer (List.all_eq_true.mp integer b mem)
  have number : readNumber text = some (n : ℚ) := by
    rw [readNumber_of_integer integer, read]
    rfl
  have filled : text ≠ [] := by
    rintro rfl
    cases read
  have trimmed := trimSpace_of_number bytes
  refine ⟨?_, marshalRaw_number bytes number, ?_, ?_⟩
  · obtain ⟨b, tail, rfl⟩ := List.exists_cons_of_ne_nil filled
    have byte := bytes b List.mem_cons_self
    refine ⟨b, tail, rfl, not_space_of_number byte, ?_, ?_⟩ <;> rintro rfl <;> cases byte
  · rw [parse_of_integer (trimmed.symm ▸ integer), trimmed, read]
    rfl
  · intro fuel rest ends
    rw [scanValue_number filled bytes _ fuel, number]
    · rfl
    · intro b mem
      rcases ends b mem with rfl | rfl | rfl <;> rfl

theorem Solid.scanRaw {raw : Bytes} {v : Value} (solid : Solid raw v) (fuel : Nat) {rest : Bytes}
    (ends : ∀ b ∈ rest.head?, b = 0x2c ∨ b = 0x5d ∨ b = 0x7d) :
    scanRaw (fuel + 1) (raw ++ rest) = some (raw, rest) := by
  obtain ⟨b, tail, text, front, -⟩ := solid.starts
  have whole : dropSpace (raw ++ rest) = raw ++ rest := by
    rw [text, List.cons_append, dropSpace_cons front]
  simp [Json.scanRaw, whole, solid.scan fuel rest ends]

/-- The texts with commas between them. -/
def commaList : List Bytes → Bytes
  | [] => []
  | [text] => text
  | text :: more :: texts => text ++ 0x2c :: commaList (more :: texts)

theorem length_le_commaList {texts : List Bytes} (filled : ∀ text ∈ texts, text ≠ []) :
    texts.length ≤ (commaList texts).length := by
  induction texts with
  | nil => exact Nat.zero_le _
  | cons text texts ih =>
    rw [List.forall_mem_cons] at filled
    have first := List.length_pos_iff.mpr filled.1
    have rest := ih filled.2
    cases texts with
    | nil => exact first
    | cons more texts =>
      simp only [commaList, List.length_append, List.length_cons] at rest ⊢
      omega

section Items

variable {α : Type} {item : Bytes → Option (α × Bytes)} {close : UInt8}

/-- The reader takes each text for its item where a comma or the closing bracket follows. -/
def Reads (item : Bytes → Option (α × Bytes)) (close : UInt8) (entries : List (Bytes × α)) : Prop :=
  ∀ entry ∈ entries, ∀ b tail, b = 0x2c ∨ b = close →
    item (entry.1 ++ b :: tail) = some (entry.2, b :: tail)

theorem scanMore_commaList (spaced : isSpace close = false) (apart : close ≠ 0x2c)
    {entry : Bytes × α} {entries : List (Bytes × α)} (reads : Reads item close (entry :: entries))
    (rest : Bytes) {fuel : Nat} (enough : entries.length < fuel) :
    scanMore item close fuel (commaList ((entry :: entries).map (·.1)) ++ close :: rest) =
      some ((entry :: entries).map (·.2), rest) := by
  induction entries generalizing entry fuel with
  | nil =>
    obtain ⟨fuel, rfl⟩ : ∃ k, fuel = k + 1 := ⟨fuel - 1, by omega⟩
    have read := reads entry List.mem_cons_self close rest (.inr rfl)
    simp [scanMore, commaList, read, dropSpace_cons spaced]
  | cons more entries ih =>
    obtain ⟨fuel, rfl⟩ : ∃ k, fuel = k + 1 := ⟨fuel - 1, by omega⟩
    have read := reads entry List.mem_cons_self 0x2c
      (commaList ((more :: entries).map (·.1)) ++ close :: rest) (.inl rfl)
    have onward := @ih more (fun entry mem => reads entry (List.mem_cons_of_mem _ mem)) fuel
      (by simp at enough; omega)
    simp only [List.map_cons] at read onward ⊢
    simp [scanMore, commaList, read, onward, dropSpace_cons, isSpace, apart.symm]

/-- The texts start with a byte that neither is space nor closes the list. -/
def Starts (close : UInt8) (text : Bytes) : Prop :=
  ∃ b tail, text = b :: tail ∧ isSpace b = false ∧ b ≠ close

theorem scanItems_commaList (spaced : isSpace close = false) (apart : close ≠ 0x2c)
    {entries : List (Bytes × α)} (starts : ∀ entry ∈ entries, Starts close entry.1)
    (reads : Reads item close entries) (rest : Bytes) {fuel : Nat} (enough : entries.length ≤ fuel) :
    scanItems item close fuel (commaList (entries.map (·.1)) ++ close :: rest) =
      some (entries.map (·.2), rest) := by
  cases entries with
  | nil => simp [scanItems, commaList, dropSpace_cons spaced]
  | cons entry entries =>
    obtain ⟨b, tail, text, front, opened⟩ := starts entry List.mem_cons_self
    have first : ∃ more, commaList ((entry :: entries).map (·.1)) ++ close :: rest = b :: more := by
      cases entries <;> simp [commaList, text]
    have scanned := scanMore_commaList spaced apart reads rest enough
    obtain ⟨more, whole⟩ := first
    rw [whole] at scanned ⊢
    simp only [scanItems, dropSpace_cons front, if_neg opened, scanned]

theorem scanMember_quote (name : String) (rest : Bytes) :
    scanMember item (quote name ++ 0x3a :: rest) =
      (item rest).map fun (value, rest) => ((name, value), rest) := by
  have text : quote name ++ 0x3a :: rest =
      0x22 :: (name.toList.flatMap (escapeChar needsCode) ++ 0x22 :: 0x3a :: rest) := by
    simp [quote, encodeString]
  have long := length_flatMap_escapeChar needsCode_escaping name.toList
  have body := @scanBody_escaped _ needsCode_escaping name.toList (0x3a :: rest)
    (name.toList.flatMap (escapeChar needsCode) ++ 0x22 :: 0x3a :: rest).length (by
      rw [List.length_append]
      omega)
  rw [text, scanMember, dropSpace_cons rfl]
  simp only [body, Option.bind_eq_bind, Option.bind_some, dropSpace_cons (show isSpace 0x3a = false from rfl),
    String.ofList_toList]

end Items

end Transmogr.Json
