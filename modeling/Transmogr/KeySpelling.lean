import Transmogr.Commit
import Transmogr.JsonText
import Transmogr.KeyOrder

/-! Keys with equal values in different JSON spellings. Integers and booleans are compared by value,
strings by the bytes of their text, and the writers of a key do not spell strings alike: Go escapes
`<`, `>`, `&` and the line separators, PostgreSQL does not. -/
namespace Transmogr.KeySpelling

open Json (Value parse quote)

/-- The parts hold the same value of the same type in the same column. -/
structure SameValue (part other : PrimaryKeyPart) : Prop where
  column : part.column = other.column
  type : part.type = other.type
  value : ∃ v, parse part.value = some v ∧ parse other.value = some v

/-- A value that is compared as bytes is spelled the same. -/
def SameText (part other : PrimaryKeyPart) : Prop :=
  part.type ≠ .integer → part.type ≠ .boolean → part.value = other.value

/-- What a value is as an integer; `null` leaves the zero. -/
def number : Value → ℚ
  | .number q => q
  | _ => 0

def truth : Value → Bool
  | .bool b => b
  | _ => false

theorem number_of_unmarshalInt64 {raw : Bytes} {v : Value} {n : Int} (value : parse raw = some v)
    (read : Json.unmarshalInt64 raw = some n) : (n : ℚ) = number v := by
  rcases Json.parse_of_unmarshalInt64 read with ⟨null, rfl⟩ | int
  · cases value.symm.trans null
    rfl
  · cases value.symm.trans int
    rfl

theorem truth_of_unmarshalBool {raw : Bytes} {v : Value} {b : Bool} (value : parse raw = some v)
    (read : Json.unmarshalBool raw = some b) : b = truth v := by
  rcases Json.parse_of_unmarshalBool read with ⟨null, rfl⟩ | bool
  · cases value.symm.trans null
    rfl
  · cases value.symm.trans bool
    rfl

section Ranks

variable {part other : PrimaryKeyPart} {key others : PrimaryKey}

theorem rank_number_eq (typed : part.Typed) (otherTyped : other.Typed) (same : SameValue part other) :
    part.rank.number = other.rank.number := by
  obtain ⟨column, type, value⟩ := part
  obtain ⟨column', type', value'⟩ := other
  obtain ⟨rfl, rfl, v, parsed, parsed'⟩ := same
  cases type with
  | integer =>
    obtain ⟨n, read⟩ := Option.isSome_iff_exists.mp typed
    obtain ⟨m, read'⟩ := Option.isSome_iff_exists.mp otherTyped
    have numbers : (n : ℚ) = m :=
      (number_of_unmarshalInt64 parsed read).trans (number_of_unmarshalInt64 parsed' read').symm
    have equal : n = m := by exact_mod_cast numbers
    simp only [PrimaryKeyPart.rank] at read read' ⊢
    rw [read, read', equal]
  | boolean =>
    obtain ⟨b, read⟩ := Option.isSome_iff_exists.mp typed
    obtain ⟨c, read'⟩ := Option.isSome_iff_exists.mp otherTyped
    have equal : b = c :=
      (truth_of_unmarshalBool parsed read).trans (truth_of_unmarshalBool parsed' read').symm
    simp only [PrimaryKeyPart.rank] at read read' ⊢
    rw [read, read', equal]
  | unspecified | string => rfl

/-- Parts of equal value rank alike exactly if they are spelled alike. -/
theorem rank_eq_iff (typed : part.Typed) (otherTyped : other.Typed) (same : SameValue part other) :
    part.rank = other.rank ↔ SameText part other := by
  have numbers := rank_number_eq typed otherTyped same
  obtain ⟨column, type, value⟩ := part
  obtain ⟨column', type', value'⟩ := other
  obtain ⟨rfl, rfl, -⟩ := same
  cases type with
  | integer | boolean =>
    simp only [PrimaryKeyPart.rank, PartRank.mk.injEq] at numbers ⊢
    simp [numbers, SameText]
  | unspecified | string => simp [PrimaryKeyPart.rank, SameText]

theorem map_rank_eq_iff (typed : TypedKey key) (otherTyped : TypedKey others)
    (same : List.Forall₂ SameValue key others) :
    key.map (·.rank) = others.map (·.rank) ↔ List.Forall₂ SameText key others := by
  induction same with
  | nil => simp
  | cons head _ ih =>
    obtain ⟨typedHead, typedTail⟩ := List.forall_mem_cons.mp typed
    obtain ⟨otherHead, otherTail⟩ := List.forall_mem_cons.mp otherTyped
    rw [List.map_cons, List.map_cons, List.cons.injEq, List.forall₂_cons,
      rank_eq_iff typedHead otherHead head, ih typedTail otherTail]

/-- Keys of equal values compare equal exactly if their strings are spelled alike. -/
theorem compare_eq_zero_iff (typed : TypedKey key) (otherTyped : TypedKey others)
    (same : List.Forall₂ SameValue key others) :
    KeyOrder.comparePrimaryKeys key others = 0 ↔ List.Forall₂ SameText key others := by
  rw [KeyOrder.comparePrimaryKeys_eq, sign_eq_zero, comparePrimaryKeys_eq_rank typed otherTyped,
    Std.LawfulEqCmp.compare_eq_iff_eq, map_rank_eq_iff typed otherTyped same]

/-- Keys of equal values stand alike to every key exactly if their strings are spelled alike. -/
theorem compare_eq_compare_iff (typed : TypedKey key) (otherTyped : TypedKey others)
    (same : List.Forall₂ SameValue key others) :
    (∀ k, TypedKey k →
      KeyOrder.comparePrimaryKeys key k = KeyOrder.comparePrimaryKeys others k) ↔
        List.Forall₂ SameText key others := by
  have ranked : ∀ {j k}, TypedKey j → TypedKey k → KeyOrder.comparePrimaryKeys j k =
      sign (compare (j.map (·.rank)) (k.map (·.rank))) := by
    intro j k typedJ typedK
    rw [KeyOrder.comparePrimaryKeys_eq, comparePrimaryKeys_eq_rank typedJ typedK]
  constructor
  · intro alike
    rw [← compare_eq_zero_iff typed otherTyped same, alike others otherTyped,
      ranked otherTyped otherTyped, Std.ReflOrd.compare_self]
    rfl
  · intro text k typedK
    rw [ranked typed typedK, ranked otherTyped typedK,
      (map_rank_eq_iff typed otherTyped same).mpr text]

end Ranks

/-- The characters that Go escapes and PostgreSQL writes as they are. -/
def escapedByGo (c : Char) : Bool :=
  c.toNat == 0x3c || c.toNat == 0x3e || c.toNat == 0x26 || c.toNat == 0x2028 || c.toNat == 0x2029

theorem needsCode_eq (c : Char) : Json.needsCode c.toNat = (decide (c.toNat < 0x20) || escapedByGo c) := by
  simp [Json.needsCode, escapedByGo, Bool.or_assoc]

theorem escapeLetter_eq_none {c : Char} (escaped : escapedByGo c = true) :
    Json.escapeLetter c.toNat = none ∧ 0x20 ≤ c.toNat := by
  simp only [escapedByGo, Bool.or_eq_true, beq_iff_eq] at escaped
  rcases escaped with (((code | code) | code) | code) | code <;> simp [code, Json.escapeLetter]

theorem flatMap_escape_eq_iff (cs : List Char) :
    cs.flatMap (Json.escapeChar Json.needsCode) =
        cs.flatMap (Json.escapeChar fun n => n < 0x20) ↔
      ∀ c ∈ cs, escapedByGo c = false := by
  induction cs with
  | nil => simp
  | cons c cs ih =>
    rw [List.flatMap_cons, List.flatMap_cons, List.forall_mem_cons]
    by_cases escaped : escapedByGo c = true
    · -- a backslash against the first byte of the character
      obtain ⟨plain, high⟩ := escapeLetter_eq_none escaped
      obtain ⟨b, tail, text, -, -, notSlash⟩ := Json.utf8EncodeChar_head plain high
      have coded : Json.needsCode c.toNat = true := by rw [needsCode_eq, escaped, Bool.or_true]
      have copied : ¬c.toNat < 0x20 := by omega
      simp [Json.escapeChar, plain, coded, copied, text, Json.escapeCode, escaped, notSlash.symm]
    · have alike : Json.escapeChar Json.needsCode c = Json.escapeChar (fun n => n < 0x20) c := by
        simp [Json.escapeChar, needsCode_eq, escaped]
      rw [alike, List.append_cancel_left_eq, ih]
      simp [escaped]

theorem quote_eq_jsonbString_iff (s : String) :
    quote s = Json.jsonbString s ↔ ∀ c ∈ s.toList, escapedByGo c = false := by
  rw [← flatMap_escape_eq_iff]
  simp [quote, Json.jsonbString, Json.encodeString]

theorem jsonb_quote (s : String) : Json.jsonb (quote s) = Json.jsonbString s := by
  have read := Json.unmarshalString_quote s
  simp only [quote, Json.encodeString, List.cons_append] at read ⊢
  simp [Json.jsonb, read]

/-- What is assumed of a JSONB column by itself: it gives back an equal value and leaves the three
characters as they are. -/
structure Column (store : Bytes → Bytes) : Prop where
  value : ∀ raw, parse (store raw) = parse raw
  plain : ∀ s c, c ∈ String.toList s → c = '<' ∨ c = '>' ∨ c = '&' →
    UInt8.ofNat c.toNat ∈ store (quote s)

theorem parse_jsonb (raw : Bytes) : parse (Json.jsonb raw) = parse raw := by
  unfold Json.jsonb
  split
  · next rest =>
    split
    · next s read =>
      obtain ⟨tail, trimmed⟩ := Json.trimSpace_string rest
      have notNull : (0x22 :: tail : Bytes) ≠ Json.nullText := by simp [Json.nullText]
      simp only [Json.unmarshalString, trimmed, if_neg notNull] at read
      obtain ⟨cs, body, rfl⟩ := Option.map_eq_some_iff.mp read
      rw [Json.jsonbString, Json.parse_encodeString Json.jsonb_escaping, parse, trimmed,
        Json.parseText_quote, body]
      rfl
    · rfl
  · rfl

theorem jsonbString_plain {s : String} {c : Char} (mem : c ∈ s.toList)
    (special : c = '<' ∨ c = '>' ∨ c = '&') : UInt8.ofNat c.toNat ∈ Json.jsonbString s := by
  have written : UInt8.ofNat c.toNat ∈ Json.escapeChar (fun n => n < 0x20) c := by
    rcases special with rfl | rfl | rfl <;> decide
  have inside := List.mem_flatMap.mpr ⟨c, mem, written⟩
  simp [Json.jsonbString, Json.encodeString, inside]

theorem column_jsonb : Column Json.jsonb where
  value := parse_jsonb
  plain s c mem special := by
    rw [jsonb_quote]
    exact jsonbString_plain mem special

/-- No byte of an escaped character is one of the three characters. -/
theorem escapeChar_bytes {c : Char} {b : UInt8} (mem : b ∈ Json.escapeChar Json.needsCode c) :
    b.toNat ≠ 0x3c ∧ b.toNat ≠ 0x3e ∧ b.toNat ≠ 0x26 := by
  unfold Json.escapeChar at mem
  split at mem
  · next letter short =>
    rcases List.mem_pair.mp mem with rfl | rfl
    · decide
    · unfold Json.escapeLetter at short
      split at short <;> cases short <;> decide
  split_ifs at mem with coded
  · have digit (n : Nat) : (Json.hexDigit (n % 16)).toNat ≠ 0x3c ∧ (Json.hexDigit (n % 16)).toNat ≠ 0x3e ∧
        (Json.hexDigit (n % 16)).toNat ≠ 0x26 := by
      have small : n % 16 < 16 := Nat.mod_lt n (by decide)
      generalize n % 16 = d at small ⊢
      interval_cases d <;> decide
    simp only [Json.escapeCode, List.mem_cons, List.not_mem_nil, or_false] at mem
    rcases mem with rfl | rfl | rfl | rfl | rfl | rfl
    · decide
    · decide
    all_goals exact digit _
  · have val : c.val.toNat = c.toNat := rfl
    simp only [Json.needsCode, Bool.or_eq_true, decide_eq_true_eq, beq_iff_eq] at coded
    simp only [String.utf8EncodeChar, val] at mem
    generalize c.toNat = n at coded mem
    split_ifs at mem <;> simp only [List.mem_cons, List.not_mem_nil, or_false] at mem
    · subst mem
      simp only [UInt8.toNat_ofNat']
      omega
    · rcases mem with rfl | rfl <;> simp only [UInt8.toNat_ofNat'] <;> omega
    · rcases mem with rfl | rfl | rfl <;> simp only [UInt8.toNat_ofNat'] <;> omega
    · rcases mem with rfl | rfl | rfl | rfl <;> simp only [UInt8.toNat_ofNat'] <;> omega

theorem quote_escapes {s : String} {c : Char} (special : c = '<' ∨ c = '>' ∨ c = '&') :
    UInt8.ofNat c.toNat ∉ quote s := by
  intro mem
  simp only [quote, Json.encodeString, List.cons_append, List.mem_cons, List.mem_append,
    List.mem_flatMap, List.not_mem_nil, or_false] at mem
  rcases mem with quoted | ⟨d, -, written⟩ | quoted
  · rcases special with rfl | rfl | rfl <;> cases quoted
  · have bytes := escapeChar_bytes written
    rcases special with rfl | rfl | rfl
    · exact bytes.1 rfl
    · exact bytes.2.1 rfl
    · exact bytes.2.2 rfl
  · rcases special with rfl | rfl | rfl <;> cases quoted

/-- A key whose values went through a JSONB column. -/
def savedKey (store : Bytes → Bytes) (key : PrimaryKey) : PrimaryKey :=
  key.map fun part => { part with value := store part.value }

section Saved

variable {key : PrimaryKey}

theorem jsonb_formatInt (n : Int) : Json.jsonb (Json.formatInt n) = Json.formatInt n := by
  apply Json.jsonb_of_not_string
  intro rest quoted
  have byte := Json.formatInt_bytes n 0x22 (by rw [quoted]; exact List.mem_cons_self)
  exact absurd byte (by decide)

theorem jsonb_formatBool (b : Bool) : Json.jsonb (Json.formatBool b) = Json.formatBool b := by
  cases b <;> rfl

/-- What a decoded part is after it was saved. -/
theorem saved_part (wire : WireKey key) : ∀ part ∈ key,
    SameValue part { part with value := Json.jsonb part.value } ∧
      (SameText part { part with value := Json.jsonb part.value } ↔
        ∀ s, part.type = .string → part.value = quote s → ∀ c ∈ s.toList, escapedByGo c = false) := by
  refine wire.forall_part ?_
  rintro ⟨column, assigned⟩ value ok
  cases assigned with
  | none => cases ok
  | some assigned =>
    cases assigned with
    | integerValue v =>
      cases ok
      refine ⟨⟨rfl, rfl, _, Json.parse_formatInt _, ?_⟩, ?_⟩
      · rw [jsonb_formatInt, Json.parse_formatInt]
      · simp [SameText, inferPrimaryKeyType]
    | booleanValue b =>
      cases ok
      refine ⟨⟨rfl, rfl, _, Json.parse_formatBool _, ?_⟩, ?_⟩
      · rw [jsonb_formatBool, Json.parse_formatBool]
      · simp [SameText, inferPrimaryKeyType]
    | stringValue s =>
      cases ok
      refine ⟨⟨rfl, rfl, _, Json.parse_quote s, ?_⟩, ?_⟩
      · rw [jsonb_quote, Json.jsonbString, Json.parse_encodeString Json.jsonb_escaping]
      · simp only [SameText, inferPrimaryKeyType, jsonb_quote, quote_eq_jsonbString_iff, ne_eq,
          reduceCtorEq, not_false_eq_true, forall_true_left]
        constructor
        · intro plain t same
          rwa [← Json.quote_injective same]
        · intro plain
          exact plain s rfl

theorem sameValue_storedKey (wire : WireKey key) : List.Forall₂ SameValue key (storedKey key) := by
  rw [storedKey, List.forall₂_map_right_iff, List.forall₂_same]
  exact fun part mem => (saved_part wire part mem).1

theorem sameText_storedKey_iff (wire : WireKey key) : List.Forall₂ SameText key (storedKey key) ↔
    ∀ part ∈ key, ∀ s, part.type = .string → part.value = quote s → ∀ c ∈ s.toList,
      escapedByGo c = false := by
  rw [storedKey, List.forall₂_map_right_iff, List.forall₂_same]
  exact forall₂_congr fun part mem => (saved_part wire part mem).2

/-- Keys that compare equal have the same texts where bytes are compared. -/
theorem sameText_of_compare {key others : PrimaryKey}
    (equal : KeyOrder.comparePrimaryKeys key others = 0) : List.Forall₂ SameText key others := by
  rw [KeyOrder.comparePrimaryKeys_eq, sign_eq_zero] at equal
  unfold comparePrimaryKeys at equal
  induction key generalizing others with
  | nil =>
    cases others with
    | nil => exact .nil
    | cons part others => cases equal
  | cons part key ih =>
    cases others with
    | nil => cases equal
    | cons other others =>
      rw [List.compareLex_cons_cons, Ordering.then_eq_eq] at equal
      refine .cons ?_ (ih equal.2)
      intro notInteger notBoolean
      have values := equal.1
      rw [comparePrimaryKeyPart, Ordering.then_eq_eq, Ordering.then_eq_eq] at values
      cases type : part.type with
      | integer => exact absurd type notInteger
      | boolean => exact absurd type notBoolean
      | unspecified | string =>
        have bytes := values.2.2
        rw [type] at bytes
        exact Std.LawfulEqCmp.eq_of_compare (show compare part.value other.value = .eq from bytes)

/-- A string with one of the three characters does not compare equal to what a column gives back. -/
theorem compare_savedKey_ne_zero {store : Bytes → Bytes} (column : Column store) {part : PrimaryKeyPart}
    (mem : part ∈ key) (string : part.type = .string) {s : String} (value : part.value = quote s)
    {c : Char} (inside : c ∈ s.toList) (special : c = '<' ∨ c = '>' ∨ c = '&') :
    KeyOrder.comparePrimaryKeys key (savedKey store key) ≠ 0 := by
  intro equal
  have texts := sameText_of_compare equal
  rw [savedKey, List.forall₂_map_right_iff, List.forall₂_same] at texts
  have same : part.value = store part.value := texts part mem (by simp [string]) (by simp [string])
  have plain := column.plain s c inside special
  rw [value] at same
  rw [← same] at plain
  exact quote_escapes special plain

end Saved

/-- Keys of equal values compare alike if their strings are spelled alike; if some string is not, they
compare unequal to each other and some key tells them apart. A key from the wire compares equal to
itself after it was saved exactly if no string has a character that Go escapes and PostgreSQL does
not. -/
theorem comparison_by_spelling {store : Bytes → Bytes} (column : Column store) :
    (∀ k₁ k₂ k₁' k₂', TypedKey k₁ → TypedKey k₂ → TypedKey k₁' → TypedKey k₂' →
      List.Forall₂ SameValue k₁ k₁' → List.Forall₂ SameValue k₂ k₂' →
      List.Forall₂ SameText k₁ k₁' → List.Forall₂ SameText k₂ k₂' →
      KeyOrder.comparePrimaryKeys k₁ k₂ = KeyOrder.comparePrimaryKeys k₁' k₂') ∧
    (∀ k k', TypedKey k → TypedKey k' → List.Forall₂ SameValue k k' →
      (KeyOrder.comparePrimaryKeys k k' = 0 ↔ List.Forall₂ SameText k k') ∧
      ((∀ j, TypedKey j → KeyOrder.comparePrimaryKeys k j = KeyOrder.comparePrimaryKeys k' j) ↔
        List.Forall₂ SameText k k')) ∧
    (∀ k, WireKey k → (KeyOrder.comparePrimaryKeys k (storedKey k) = 0 ↔
      ∀ part ∈ k, ∀ s, part.type = .string → part.value = quote s → ∀ c ∈ s.toList,
        escapedByGo c = false)) ∧
    ∀ k, WireKey k → ∀ part ∈ k, ∀ s, part.type = .string → part.value = quote s →
      (∃ c ∈ s.toList, c = '<' ∨ c = '>' ∨ c = '&') →
      KeyOrder.comparePrimaryKeys k (savedKey store k) ≠ 0 := by
  refine ⟨?_, ?_, ?_, ?_⟩
  · intro k₁ k₂ k₁' k₂' typed₁ typed₂ typed₁' typed₂' same₁ same₂ text₁ text₂
    have ranks₁ := (map_rank_eq_iff typed₁ typed₁' same₁).mpr text₁
    have ranks₂ := (map_rank_eq_iff typed₂ typed₂' same₂).mpr text₂
    rw [KeyOrder.comparePrimaryKeys_eq, KeyOrder.comparePrimaryKeys_eq,
      comparePrimaryKeys_eq_rank typed₁ typed₂, comparePrimaryKeys_eq_rank typed₁' typed₂', ranks₁,
      ranks₂]
  · intro k k' typed typed' same
    exact ⟨compare_eq_zero_iff typed typed' same, compare_eq_compare_iff typed typed' same⟩
  · intro k wire
    rw [compare_eq_zero_iff wire.typed wire.typed.stored (sameValue_storedKey wire),
      sameText_storedKey_iff wire]
  · rintro k - part mem s string value ⟨c, inside, special⟩
    exact compare_savedKey_ne_zero column mem string value inside special

def nameKey (s : String) : PrimaryKey := [⟨"name", .string, quote s⟩]

theorem wire_nameKey (s : String) : WireKey (nameKey s) :=
  ⟨[⟨"name", some (.stringValue s)⟩], rfl⟩

theorem saved_names : KeyOrder.comparePrimaryKeys (nameKey "ann") (storedKey (nameKey "ann")) = 0 ∧
    KeyOrder.comparePrimaryKeys (nameKey "R&D") (savedKey Json.jsonb (nameKey "R&D")) ≠ 0 := by
  obtain ⟨-, -, kept, lost⟩ := comparison_by_spelling column_jsonb
  constructor
  · rw [kept _ (wire_nameKey "ann")]
    intro part mem s _ value
    cases List.mem_singleton.mp mem
    rw [← Json.quote_injective value]
    have plain : "ann".toList.all (escapedByGo · == false) = true := by decide +kernel
    exact fun c inside => eq_of_beq (List.all_eq_true.mp plain c inside)
  · exact lost _ (wire_nameKey "R&D") _ List.mem_cons_self "R&D" rfl rfl
      ⟨'&', by decide, by decide⟩

/-- The key of the name `<` comes back as an equal value that compares unequal. -/
theorem saved_key_compares_unequal :
    WireKey (nameKey "<") ∧ List.Forall₂ SameValue (nameKey "<") (storedKey (nameKey "<")) ∧
      KeyOrder.comparePrimaryKeys (nameKey "<") (nameKey "<") = 0 ∧
      KeyOrder.comparePrimaryKeys (nameKey "<") (storedKey (nameKey "<")) = 1 :=
  ⟨wire_nameKey "<", sameValue_storedKey (wire_nameKey "<"), by decide, by decide⟩

end Transmogr.KeySpelling
