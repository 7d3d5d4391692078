import Mathlib.Data.List.Basic
import Mathlib.Tactic.IntervalCases

/-! JSON scalars as Go's encoding/json writes and reads them. Strings are
written with HTML escaping, integers in decimal; reading accepts surrounding
white space and every escape of the grammar. -/
namespace Transmogr

/-- Go byte slices. -/
abbrev Bytes := List UInt8

-- named, so that definitions over texts do not carry the proofs themselves
instance lawfulBytes : LawfulBEq Bytes := inferInstance

instance lawfulChars : LawfulBEq (List Char) := inferInstance

namespace Json

/-- The bytes of a Go string. -/
def utf8 (s : String) : Bytes := s.toList.flatMap String.utf8EncodeChar

def hexDigit (n : Nat) : UInt8 := UInt8.ofNat (if n < 10 then 48 + n else 87 + n)

/-- `\u` and four hexadecimal digits. -/
def escapeCode (n : Nat) : Bytes :=
  [0x5c, 0x75, hexDigit (n / 4096 % 16), hexDigit (n / 256 % 16), hexDigit (n / 16 % 16),
    hexDigit (n % 16)]

/-- The letter of a two-byte escape. -/
def escapeLetter (n : Nat) : Option UInt8 :=
  match n with
  | 0x22 => some 0x22
  | 0x5c => some 0x5c
  | 0x08 => some 0x62
  | 0x0c => some 0x66
  | 0x0a => some 0x6e
  | 0x0d => some 0x72
  | 0x09 => some 0x74
  | _ => none

/-- The encoder escapes control characters, `<`, `>`, `&`, and the two Unicode
line separators; every other character is copied as UTF-8. -/
def needsCode (n : Nat) : Bool :=
  n < 0x20 || n == 0x3c || n == 0x3e || n == 0x26 || n == 0x2028 || n == 0x2029

/-- A character with a short escape if it has one, else with a `\u` escape where
`coded` asks for it. -/
def escapeChar (coded : Nat → Bool) (c : Char) : Bytes :=
  match escapeLetter c.toNat with
  | some letter => [0x5c, letter]
  | none => if coded c.toNat then escapeCode c.toNat else String.utf8EncodeChar c

def encodeString (coded : Nat → Bool) (s : String) : Bytes :=
  0x22 :: s.toList.flatMap (escapeChar coded) ++ [0x22]

/-- `json.Marshal` of a string. -/
def quote (s : String) : Bytes := encodeString needsCode s

def digits (n : Nat) : Bytes := (Nat.toDigits 10 n).map fun c => UInt8.ofNat c.toNat

/-- `json.Marshal` of an integer. -/
def formatInt : Int → Bytes
  | .ofNat n => digits n
  | .negSucc n => 0x2d :: digits (n + 1)

def nullText : Bytes := [0x6e, 0x75, 0x6c, 0x6c]
def trueText : Bytes := [0x74, 0x72, 0x75, 0x65]
def falseText : Bytes := [0x66, 0x61, 0x6c, 0x73, 0x65]

/-- `json.Marshal` of a boolean. -/
def formatBool (b : Bool) : Bytes := if b then trueText else falseText

def isSpace (b : UInt8) : Bool := b == 0x20 || b == 0x09 || b == 0x0a || b == 0x0d

def trimSpace (bs : Bytes) : Bytes := ((bs.dropWhile isSpace).reverse.dropWhile isSpace).reverse

def isDigit (b : UInt8) : Bool := 48 ≤ b.toNat && b.toNat ≤ 57

def digitsValue (bs : Bytes) : Nat := bs.foldl (fun n b => 10 * n + (b.toNat - 48)) 0

/-- A JSON integer part: one digit, or several without a leading zero. -/
def readNat (bs : Bytes) : Option Nat :=
  if bs.isEmpty || !bs.all isDigit || (bs.head? == some 48 && bs.length != 1) then none
  else some (digitsValue bs)

def readInt : Bytes → Option Int
  | 0x2d :: bs => (readNat bs).map fun n => -(n : Int)
  | bs => (readNat bs).map Int.ofNat

def minInt64 : Int := -(2 ^ 63)
def maxInt64 : Int := 2 ^ 63 - 1

/-- `json.Unmarshal` into an int64: `null` leaves the zero value, fractions,
exponents and values out of range are errors. -/
def unmarshalInt64 (bs : Bytes) : Option Int :=
  let text := trimSpace bs
  if text = nullText then some 0
  else (readInt text).bind fun n => if minInt64 ≤ n ∧ n ≤ maxInt64 then some n else none

/-- `json.Unmarshal` into a bool: `null` leaves the zero value. -/
def unmarshalBool (bs : Bytes) : Option Bool :=
  let text := trimSpace bs
  if text = nullText then some false
  else if text = trueText then some true
  else if text = falseText then some false
  else none

def hexValue (b : UInt8) : Option Nat :=
  if isDigit b then some (b.toNat - 48)
  else if 97 ≤ b.toNat ∧ b.toNat ≤ 102 then some (b.toNat - 87)
  else if 65 ≤ b.toNat ∧ b.toNat ≤ 70 then some (b.toNat - 55)
  else none

def readCode (a b c d : UInt8) : Option Nat := do
  let a ← hexValue a
  let b ← hexValue b
  let c ← hexValue c
  let d ← hexValue d
  return a * 4096 + b * 256 + c * 16 + d

/-- The character of an escape letter; `\/` is the only one never written. -/
def letterChar (b : UInt8) : Option Char :=
  match b with
  | 0x22 => some (Char.ofNat 0x22)
  | 0x5c => some (Char.ofNat 0x5c)
  | 0x2f => some (Char.ofNat 0x2f)
  | 0x62 => some (Char.ofNat 0x08)
  | 0x66 => some (Char.ofNat 0x0c)
  | 0x6e => some (Char.ofNat 0x0a)
  | 0x72 => some (Char.ofNat 0x0d)
  | 0x74 => some (Char.ofNat 0x09)
  | _ => none

def replacement : Char := Char.ofNat 0xfffd

/-- A `\u` escape. A high surrogate joins a following low one; any other
surrogate becomes U+FFFD. -/
def readCodeChar (code : Nat) (rest : Bytes) : Char × Bytes :=
  if 0xd800 ≤ code ∧ code < 0xe000 then
    match rest with
    | 0x5c :: 0x75 :: a :: b :: c :: d :: tail =>
      match readCode a b c d with
      | some low =>
        if code < 0xdc00 ∧ 0xdc00 ≤ low ∧ low < 0xe000 then
          (Char.ofNat (0x10000 + (code - 0xd800) * 0x400 + (low - 0xdc00)), tail)
        else (replacement, rest)
      | none => (replacement, rest)
    | _ => (replacement, rest)
  else (Char.ofNat code, rest)

/-- One character of a string body, with what follows it. Control bytes and
the closing quote are no characters; malformed UTF-8 becomes U+FFFD. -/
def readChar : Bytes → Option (Char × Bytes)
  | 0x5c :: 0x75 :: a :: b :: c :: d :: rest =>
    (readCode a b c d).map fun code => readCodeChar code rest
  | 0x5c :: letter :: rest => (letterChar letter).map fun c => (c, rest)
  | 0x5c :: [] => none
  | b :: rest =>
    if b.toNat < 0x20 ∨ b = 0x22 then none
    else match (b :: rest).toByteArray.utf8DecodeChar? 0 with
      | some c => some (c, (b :: rest).drop c.utf8Size)
      | none => some (replacement, rest)
  | [] => none

/-- The body of a string up to its closing quote, which must end the text. -/
def readBody : Nat → Bytes → Option (List Char)
  | _, [0x22] => some []
  | 0, _ => none
  | fuel + 1, bs => do
    let (c, rest) ← readChar bs
    let cs ← readBody fuel rest
    return c :: cs

/-- `json.Unmarshal` into a string: `null` leaves the zero value. -/
def unmarshalString (bs : Bytes) : Option String :=
  let text := trimSpace bs
  if text = nullText then some ""
  else match text with
    | 0x22 :: body => (readBody body.length body).map String.ofList
    | _ => none

/-- How PostgreSQL writes a string: quotes, backslashes and control characters
are escaped, nothing else. -/
def jsonbString (s : String) : Bytes := encodeString (fun n => n < 0x20) s

/-- The text of a scalar stored in a JSONB column: a string is written anew,
numbers in plain decimal, booleans and null come back as they were. -/
def jsonb (raw : Bytes) : Bytes :=
  match raw with
  | 0x22 :: _ =>
    match unmarshalString raw with
    | some s => jsonbString s
    | none => raw
  | _ => raw

/-! ## Reading back what was written -/

theorem trimSpace_eq {first last : UInt8} {mid : Bytes}
    (hf : isSpace first = false) (hl : isSpace last = false) :
    trimSpace (first :: mid ++ [last]) = first :: mid ++ [last] := by
  simp [trimSpace, hf, hl]

theorem trimSpace_of_all {bs : Bytes} (h : ∀ b ∈ bs, isSpace b = false) : trimSpace bs = bs := by
  have front : bs.dropWhile isSpace = bs := by
    cases bs with
    | nil => rfl
    | cons b bs => simp [h b List.mem_cons_self]
  have back : bs.reverse.dropWhile isSpace = bs.reverse := by
    cases e : bs.reverse with
    | nil => rfl
    | cons b tail =>
      have mem : b ∈ bs := List.mem_reverse.mp (e ▸ List.mem_cons_self)
      simp [h b mem]
  rw [trimSpace, front, back, List.reverse_reverse]

theorem digit_byte {c : Char} (h : c.isDigit = true) :
    (UInt8.ofNat c.toNat).toNat = c.toNat ∧ 48 ≤ c.toNat ∧ c.toNat ≤ 57 := by
  have bounds : 48 ≤ c.toNat ∧ c.toNat ≤ 57 := by
    simp only [Char.isDigit, Bool.and_eq_true, decide_eq_true_eq] at h
    exact ⟨UInt32.le_iff_toNat_le.mp h.1, UInt32.le_iff_toNat_le.mp h.2⟩
  refine ⟨?_, bounds⟩
  rw [UInt8.toNat_ofNat']
  omega

theorem digits_all (n : Nat) : (digits n).all isDigit = true := by
  simp only [digits, List.all_map, List.all_eq_true, Function.comp]
  intro c hc
  obtain ⟨eq, lo, hi⟩ := digit_byte (Nat.isDigit_of_mem_toDigits (by decide) (by decide) hc)
  simp [isDigit, eq, lo, hi]

theorem digitsValue_chars {cs : List Char} (digits : ∀ c ∈ cs, c.isDigit = true) :
    digitsValue (cs.map fun c => UInt8.ofNat c.toNat) =
      cs.foldl (fun n c => 10 * n + (c.toNat - 48)) 0 := by
  unfold digitsValue
  generalize 0 = init
  induction cs generalizing init with
  | nil => rfl
  | cons c cs ih =>
    rw [List.forall_mem_cons] at digits
    rw [List.map_cons, List.foldl_cons, List.foldl_cons, (digit_byte digits.1).1]
    exact ih digits.2 _

theorem digitsValue_digits (n : Nat) : digitsValue (digits n) = n := by
  rw [digits, digitsValue_chars fun c mem => Nat.isDigit_of_mem_toDigits (by decide) (by decide) mem]
  have := Nat.ofDigitChars_ten_toDigits (n := n)
  rwa [Nat.ofDigitChars_eq_foldl] at this

theorem digits_ne_nil (n : Nat) : digits n ≠ [] := by
  simp [digits, Nat.toDigits_ne_nil]

theorem digits_leading (n : Nat) (h : 0 < n) : (digits n).head? ≠ some 48 := by
  induction n using Nat.strongRecOn with
  | ind n ih =>
    by_cases small : n < 10
    · rw [digits, Nat.toDigits_of_lt_base small]
      interval_cases n <;> decide
    · have split := Nat.toDigits_of_base_le (b := 10) (n := n) (by decide) (by omega)
      have step := ih (n / 10) (by omega) (by omega)
      simp only [digits] at step ⊢
      rw [split, List.map_append]
      cases e : Nat.toDigits 10 (n / 10) with
      | nil => exact absurd e Nat.toDigits_ne_nil
      | cons c cs => simpa [e] using step

theorem readNat_digits (n : Nat) : readNat (digits n) = some n := by
  have leading : ((digits n).head? == some 48 && (digits n).length != 1) = false := by
    rcases Nat.eq_zero_or_pos n with rfl | pos
    · decide
    · simp [digits_leading n pos]
  simp [readNat, digits_ne_nil, digits_all, digitsValue_digits, leading]

theorem digits_head_ne_minus (n : Nat) (bs : Bytes) : digits n ≠ 0x2d :: bs := by
  intro h
  have all := digits_all n
  rw [h] at all
  simp [isDigit] at all

theorem readInt_formatInt (v : Int) : readInt (formatInt v) = some v := by
  cases v with
  | ofNat n =>
    simp only [formatInt, readInt]
    split
    · next h => exact absurd h (digits_head_ne_minus n _)
    · simp [readNat_digits]
  | negSucc n =>
    simp only [formatInt, readInt, readNat_digits, Int.negSucc_eq]
    rfl

theorem isSpace_digit {b : UInt8} (h : isDigit b = true) : isSpace b = false := by
  simp only [isDigit, Bool.and_eq_true, decide_eq_true_eq] at h
  simp only [isSpace, Bool.or_eq_false_iff, beq_eq_false_iff_ne, ne_eq]
  refine ⟨⟨⟨?_, ?_⟩, ?_⟩, ?_⟩ <;> rintro rfl <;> simp at h

theorem formatInt_bytes (v : Int) : ∀ b ∈ formatInt v, isDigit b = true ∨ b = 0x2d := by
  intro b hb
  cases v with
  | ofNat n => exact Or.inl (List.all_eq_true.mp (digits_all n) b hb)
  | negSucc n =>
    rcases List.mem_cons.mp hb with rfl | hb
    · exact Or.inr rfl
    · exact Or.inl (List.all_eq_true.mp (digits_all (n + 1)) b hb)

theorem formatInt_trim (v : Int) : trimSpace (formatInt v) = formatInt v := by
  apply trimSpace_of_all
  intro b hb
  rcases formatInt_bytes v b hb with digit | rfl
  · exact isSpace_digit digit
  · rfl

theorem formatInt_ne_null (v : Int) : formatInt v ≠ nullText := by
  intro h
  have := formatInt_bytes v 0x6e (h ▸ List.mem_cons_self)
  revert this
  decide

/-- An integer in range reads back from its own text. -/
theorem unmarshalInt64_formatInt {v : Int} (lo : minInt64 ≤ v) (hi : v ≤ maxInt64) :
    unmarshalInt64 (formatInt v) = some v := by
  simp [unmarshalInt64, formatInt_trim, formatInt_ne_null, readInt_formatInt, lo, hi]

theorem unmarshalBool_formatBool (b : Bool) : unmarshalBool (formatBool b) = some b := by
  cases b <;> decide

theorem hexValue_hexDigit {n : Nat} (h : n < 16) : hexValue (hexDigit n) = some n := by
  interval_cases n <;> decide

theorem readCode_escape {n : Nat} (h : n < 65536) :
    readCode (hexDigit (n / 4096 % 16)) (hexDigit (n / 256 % 16)) (hexDigit (n / 16 % 16))
      (hexDigit (n % 16)) = some n := by
  simp only [readCode, hexValue_hexDigit (Nat.mod_lt _ (by decide : 0 < 16)), Option.bind_eq_bind,
    Option.bind_some, Option.pure_def, Option.some.injEq]
  omega

/-- Control characters are escaped, and no surrogate is. -/
structure Escaping (coded : Nat → Bool) : Prop where
  control : ∀ n, n < 0x20 → coded n = true
  scalar : ∀ n, coded n = true → n < 0xd800

theorem needsCode_escaping : Escaping needsCode where
  control n h := by simp [needsCode, h]
  scalar n h := by
    simp only [needsCode, Bool.or_eq_true, decide_eq_true_eq, beq_iff_eq] at h
    omega

theorem jsonb_escaping : Escaping fun n => n < 0x20 where
  control n h := by simpa using h
  scalar n h := by
    have := of_decide_eq_true h
    omega

theorem letterChar_escapeLetter {c : Char} {letter : UInt8} (h : escapeLetter c.toNat = some letter) :
    letter ≠ 0x75 ∧ letterChar letter = some c := by
  have back : Char.ofNat c.toNat = c := Char.ofNat_toNat c
  revert h
  generalize c.toNat = n at back
  subst back
  unfold escapeLetter
  split <;> intro h <;> cases h <;> exact ⟨by decide, by decide⟩

theorem utf8EncodeChar_head {c : Char} (plain : escapeLetter c.toNat = none)
    (high : 0x20 ≤ c.toNat) :
    ∃ b tail, String.utf8EncodeChar c = b :: tail ∧ 0x20 ≤ b.toNat ∧ b ≠ 0x22 ∧ b ≠ 0x5c := by
  have notQuote : c.toNat ≠ 0x22 := by intro h; rw [h] at plain; cases plain
  have notSlash : c.toNat ≠ 0x5c := by intro h; rw [h] at plain; cases plain
  have bound : c.toNat < 0x110000 := by
    have := c.valid
    simp only [UInt32.isValidChar, Nat.isValidChar] at this
    change c.val.toNat < 0x110000
    omega
  have ne {n k : Nat} (hn : n < 256) (hk : k < 256) (h : n ≠ k) : UInt8.ofNat n ≠ UInt8.ofNat k := by
    intro e
    have := congrArg UInt8.toNat e
    simp only [UInt8.toNat_ofNat'] at this
    omega
  have value {n : Nat} (hn : n < 256) : (UInt8.ofNat n).toNat = n := by
    rw [UInt8.toNat_ofNat']; omega
  have val : c.val.toNat = c.toNat := rfl
  simp only [String.utf8EncodeChar, val]
  split
  · refine ⟨_, _, rfl, ?_, ne (k := 0x22) ?_ (by decide) notQuote,
      ne (k := 0x5c) ?_ (by decide) notSlash⟩
    · rw [value]
      · exact high
      · omega
    · omega
    · omega
  · split
    · refine ⟨_, _, rfl, ?_, ne (k := 0x22) ?_ (by decide) ?_, ne (k := 0x5c) ?_ (by decide) ?_⟩
      · rw [value] <;> omega
      all_goals omega
    · split
      · refine ⟨_, _, rfl, ?_, ne (k := 0x22) ?_ (by decide) ?_, ne (k := 0x5c) ?_ (by decide) ?_⟩
        · rw [value] <;> omega
        all_goals omega
      · refine ⟨_, _, rfl, ?_, ne (k := 0x22) ?_ (by decide) ?_, ne (k := 0x5c) ?_ (by decide) ?_⟩
        · rw [value] <;> omega
        all_goals omega

theorem readChar_utf8 {c : Char} {b : UInt8} {tail rest : Bytes}
    (encoded : String.utf8EncodeChar c = b :: tail) (printable : 0x20 ≤ b.toNat)
    (notQuote : b ≠ 0x22) (notSlash : b ≠ 0x5c) :
    readChar (b :: tail ++ rest) = some (c, rest) := by
  have decoded : (b :: tail ++ rest).toByteArray.utf8DecodeChar? 0 = some c := by
    rw [← encoded, List.toByteArray_append]
    exact ByteArray.utf8DecodeChar?_utf8EncodeChar_append
  have size : (b :: tail ++ rest).drop c.utf8Size = rest := by
    rw [← encoded, ← String.length_utf8EncodeChar c, List.drop_left]
  simp only [List.cons_append] at decoded size ⊢
  have guard : ¬ (b.toNat < 0x20 ∨ b = 0x22) := by
    rintro (h | h)
    · omega
    · exact notQuote h
  unfold readChar
  split
  · next h => exact absurd (List.cons.inj h).1 notSlash
  · next h => exact absurd (List.cons.inj h).1 notSlash
  · next h => exact absurd (List.cons.inj h).1 notSlash
  · next h =>
    obtain ⟨rfl, rfl⟩ := List.cons.inj h
    simp only [if_neg guard, decoded, size]
  · next h => cases h

theorem readChar_letter {c : Char} {letter : UInt8} (h : escapeLetter c.toNat = some letter)
    (rest : Bytes) : readChar (0x5c :: letter :: rest) = some (c, rest) := by
  obtain ⟨notCode, back⟩ := letterChar_escapeLetter h
  unfold readChar
  split
  · next e => exact absurd (by simp only [List.cons.injEq] at e; exact e.2.1) notCode
  · next e =>
    simp only [List.cons.injEq, true_and] at e
    obtain ⟨rfl, rfl⟩ := e
    rw [back]
    rfl
  · next e => cases e
  · next other _ e =>
    simp only [List.cons.injEq] at e
    exact (other letter rest e.1.symm e.2.symm).elim
  · next e => cases e

theorem readChar_escapeChar {coded : Nat → Bool} (escaping : Escaping coded) (c : Char)
    (rest : Bytes) : readChar (escapeChar coded c ++ rest) = some (c, rest) := by
  unfold escapeChar
  split
  · next letter h => exact readChar_letter h rest
  · next plain =>
    split
    · next code =>
      have bound := escaping.scalar _ code
      have scalar : ¬ (0xd800 ≤ c.toNat ∧ c.toNat < 0xe000) := by omega
      simp only [escapeCode, List.cons_append, List.nil_append, readChar,
        readCode_escape (n := c.toNat) (by omega), Option.map_some, readCodeChar, if_neg scalar,
        Char.ofNat_toNat]
    · next raw =>
      have high : 0x20 ≤ c.toNat := by
        by_contra low
        exact raw (escaping.control _ (by omega))
      obtain ⟨b, tail, encoded, printable, notQuote, notSlash⟩ := utf8EncodeChar_head plain high
      rw [encoded]
      exact readChar_utf8 encoded printable notQuote notSlash

theorem readChar_quote (rest : Bytes) : readChar (0x22 :: rest) = none := by
  simp [readChar]

theorem readBody_char {bs rest : Bytes} {c : Char} (read : readChar bs = some (c, rest)) (fuel : Nat) :
    readBody (fuel + 1) bs = (readBody fuel rest).map (c :: ·) := by
  have unquoted : bs ≠ [0x22] := by
    rintro rfl
    rw [readChar_quote] at read
    cases read
  rw [readBody]
  · simp only [read, Option.bind_eq_bind, Option.bind_some, Option.pure_def, Option.map_eq_bind,
      Function.comp_def]
  · exact unquoted

theorem readBody_escaped {coded : Nat → Bool} (escaping : Escaping coded) (cs : List Char)
    (fuel : Nat) (enough : cs.length ≤ fuel) :
    readBody fuel (cs.flatMap (escapeChar coded) ++ [0x22]) = some cs := by
  induction cs generalizing fuel with
  | nil => simp [readBody]
  | cons c cs ih =>
    obtain ⟨fuel, rfl⟩ : ∃ k, fuel = k + 1 := ⟨fuel - 1, by simp at enough; omega⟩
    have read := readChar_escapeChar escaping c (cs.flatMap (escapeChar coded) ++ [0x22])
    rw [List.flatMap_cons, List.append_assoc, readBody_char read, ih fuel (by simpa using enough)]
    rfl

theorem length_flatMap_escapeChar {coded : Nat → Bool} (escaping : Escaping coded)
    (cs : List Char) : cs.length ≤ (cs.flatMap (escapeChar coded)).length := by
  induction cs with
  | nil => simp
  | cons c cs ih =>
    have nonempty : escapeChar coded c ≠ [] := by
      intro h
      have back := readChar_escapeChar escaping c []
      rw [h] at back
      cases back
    have := List.length_pos_iff.mpr nonempty
    simp only [List.flatMap_cons, List.length_append, List.length_cons]
    omega

/-- A string reads back from any encoding that escapes control characters. -/
theorem unmarshalString_encodeString {coded : Nat → Bool} (escaping : Escaping coded)
    (s : String) : unmarshalString (encodeString coded s) = some s := by
  have trimmed : trimSpace (encodeString coded s) = encodeString coded s := trimSpace_eq rfl rfl
  have body := readBody_escaped escaping s.toList
    (s.toList.flatMap (escapeChar coded) ++ [0x22]).length (by
      have := length_flatMap_escapeChar escaping s.toList
      simp only [List.length_append]
      omega)
  simp only [unmarshalString, trimmed]
  rw [if_neg (by simp [encodeString, nullText])]
  simp only [encodeString, List.cons_append, body, Option.map_some, String.ofList_toList]

theorem unmarshalString_quote (s : String) : unmarshalString (quote s) = some s :=
  unmarshalString_encodeString needsCode_escaping s

theorem unmarshalString_jsonbString (s : String) : unmarshalString (jsonbString s) = some s :=
  unmarshalString_encodeString jsonb_escaping s

theorem quote_injective {s t : String} (h : quote s = quote t) : s = t := by
  have := congrArg unmarshalString h
  simpa only [unmarshalString_quote, Option.some.injEq] using this

theorem trimSpace_cons {b : UInt8} (solid : isSpace b = false) (rest : Bytes) :
    ∃ tail, trimSpace (b :: rest) = b :: tail := by
  have front : (b :: rest).dropWhile isSpace = b :: rest := by simp [solid]
  have back : (rest.reverse ++ [b]).dropWhile isSpace = rest.reverse.dropWhile isSpace ++ [b] := by
    rw [List.dropWhile_append]
    split
    · next empty =>
      rw [List.isEmpty_iff.mp empty]
      simp [solid]
    · rfl
  refine ⟨(rest.reverse.dropWhile isSpace).reverse, ?_⟩
  rw [trimSpace, front, List.reverse_cons, back, List.reverse_append]
  rfl

theorem trimSpace_string (rest : Bytes) : ∃ tail, trimSpace (0x22 :: rest) = 0x22 :: tail :=
  trimSpace_cons rfl rest

theorem unmarshalInt64_string (rest : Bytes) : unmarshalInt64 (0x22 :: rest) = none := by
  obtain ⟨tail, trimmed⟩ := trimSpace_string rest
  have notNull : (0x22 :: tail : Bytes) ≠ nullText := by simp [nullText]
  have notDigit : isDigit 0x22 = false := by decide
  simp [unmarshalInt64, trimmed, notNull, readInt, readNat, notDigit]

theorem unmarshalBool_string (rest : Bytes) : unmarshalBool (0x22 :: rest) = none := by
  obtain ⟨tail, trimmed⟩ := trimSpace_string rest
  simp [unmarshalBool, trimmed, nullText, trueText, falseText]

theorem jsonb_of_not_string {raw : Bytes} (h : ∀ rest, raw ≠ 0x22 :: rest) : jsonb raw = raw := by
  rw [jsonb]
  exact h

end Json
end Transmogr
