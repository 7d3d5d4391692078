import Mathlib.Data.List.Basic
import Mathlib.Tactic.IntervalCases

/-! Base64 with the standard alphabet and padding. Decoding skips line ends and does not
ask the unused bits of the last group to be zero. -/
namespace Transmogr.Base64

def pad : UInt8 := 0x3d

/-- `A`–`Z`, `a`–`z`, `0`–`9`, `+` and `/`. -/
def letter (n : Nat) : UInt8 :=
  UInt8.ofNat (if n < 26 then 65 + n else if n < 52 then 71 + n else if n < 62 then n - 4
    else if n = 62 then 43 else 47)

def value (b : UInt8) : Option Nat :=
  let n := b.toNat
  if 65 ≤ n ∧ n ≤ 90 then some (n - 65)
  else if 97 ≤ n ∧ n ≤ 122 then some (n - 71)
  else if 48 ≤ n ∧ n ≤ 57 then some (n + 4)
  else if n = 43 then some 62
  else if n = 47 then some 63
  else none

def encode : List UInt8 → List UInt8
  | [] => []
  | [a] => [letter (a.toNat / 4), letter (a.toNat % 4 * 16), pad, pad]
  | [a, b] => [letter (a.toNat / 4), letter (a.toNat % 4 * 16 + b.toNat / 16),
      letter (b.toNat % 16 * 4), pad]
  | a :: b :: c :: rest => letter (a.toNat / 4) :: letter (a.toNat % 4 * 16 + b.toNat / 16) ::
      letter (b.toNat % 16 * 4 + c.toNat / 64) :: letter (c.toNat % 64) :: encode rest

def isLineEnd (b : UInt8) : Bool := b == 0x0a || b == 0x0d

/-- The groups of four letters; padding ends the text. -/
def decodeGroups : List UInt8 → Option (List UInt8)
  | [] => some []
  | w :: x :: y :: z :: rest => do
    let w ← value w
    let x ← value x
    let first := UInt8.ofNat (w * 4 + x / 16)
    if y = pad then
      if z = pad ∧ rest = [] then some [first] else none
    else do
      let y ← value y
      let second := UInt8.ofNat (x % 16 * 16 + y / 4)
      if z = pad then
        if rest = [] then some [first, second] else none
      else do
        let z ← value z
        let rest ← decodeGroups rest
        return first :: second :: UInt8.ofNat (y % 4 * 64 + z) :: rest
  | _ => none

def decode (text : List UInt8) : Option (List UInt8) :=
  decodeGroups (text.filter fun b => !isLineEnd b)

theorem value_letter {n : Nat} (small : n < 64) : value (letter n) = some n := by
  interval_cases n <;> rfl

theorem letter_ne_pad {n : Nat} (small : n < 64) : letter n ≠ pad := by
  interval_cases n <;> decide

/-- Letters and the padding are printable ASCII without quotes, backslashes, `&`, `<` and `>`. -/
def Plain (b : UInt8) : Prop := b.toNat < 128 ∧ 0x28 ≤ b.toNat ∧ b ≠ 0x3c ∧ b ≠ 0x3e ∧ b ≠ 0x5c

instance (b : UInt8) : Decidable (Plain b) := inferInstanceAs (Decidable (_ ∧ _))

theorem plain_letter {n : Nat} (small : n < 64) : Plain (letter n) := by
  interval_cases n <;> decide

theorem plain_encode (bytes : List UInt8) : ∀ b ∈ encode bytes, Plain b := by
  induction bytes using encode.induct with
  | case1 => exact fun _ mem => (nomatch mem)
  | case2 a =>
    have := a.toNat_lt
    simp only [encode, List.forall_mem_cons]
    exact ⟨plain_letter (by omega), plain_letter (by omega), by decide, by decide, nofun⟩
  | case3 a b =>
    have := a.toNat_lt
    have := b.toNat_lt
    simp only [encode, List.forall_mem_cons]
    exact ⟨plain_letter (by omega), plain_letter (by omega), plain_letter (by omega), by decide,
      nofun⟩
  | case4 a b c rest ih =>
    have := a.toNat_lt
    have := b.toNat_lt
    have := c.toNat_lt
    simp only [encode, List.forall_mem_cons]
    exact ⟨plain_letter (by omega), plain_letter (by omega), plain_letter (by omega),
      plain_letter (by omega), ih⟩

theorem length_le_encode (bytes : List UInt8) : bytes.length ≤ (encode bytes).length := by
  induction bytes using encode.induct with
  | case1 | case2 | case3 => simp [encode]
  | case4 a b c rest ih =>
    simp only [encode, List.length_cons]
    omega

section Groups

variable {w x y z : Nat} (smallW : w < 64) (smallX : x < 64)

include smallW smallX

theorem decodeGroups_one : decodeGroups [letter w, letter x, pad, pad] =
    some [UInt8.ofNat (w * 4 + x / 16)] := by
  simp only [decodeGroups, value_letter smallW, value_letter smallX]
  rfl

variable (smallY : y < 64)

include smallY

theorem decodeGroups_two : decodeGroups [letter w, letter x, letter y, pad] =
    some [UInt8.ofNat (w * 4 + x / 16), UInt8.ofNat (x % 16 * 16 + y / 4)] := by
  simp only [decodeGroups, value_letter smallW, value_letter smallX, value_letter smallY,
    letter_ne_pad smallY]
  rfl

theorem decodeGroups_three (smallZ : z < 64) {rest decoded : List UInt8}
    (decodes : decodeGroups rest = some decoded) :
    decodeGroups (letter w :: letter x :: letter y :: letter z :: rest) =
      some (UInt8.ofNat (w * 4 + x / 16) :: UInt8.ofNat (x % 16 * 16 + y / 4) ::
        UInt8.ofNat (y % 4 * 64 + z) :: decoded) := by
  simp only [decodeGroups, value_letter smallW, value_letter smallX, value_letter smallY,
    value_letter smallZ, letter_ne_pad smallY, letter_ne_pad smallZ, decodes]
  rfl

end Groups

theorem ofNat_eq {n : Nat} {b : UInt8} (same : n = b.toNat) : UInt8.ofNat n = b := by
  rw [same, UInt8.ofNat_toNat]

theorem decodeGroups_encode (bytes : List UInt8) : decodeGroups (encode bytes) = some bytes := by
  induction bytes using encode.induct with
  | case1 => rfl
  | case2 a =>
    have := a.toNat_lt
    rw [encode, decodeGroups_one (by omega) (by omega), ofNat_eq (b := a) (by omega)]
  | case3 a b =>
    have := a.toNat_lt
    have := b.toNat_lt
    rw [encode, decodeGroups_two (by omega) (by omega) (by omega), ofNat_eq (b := a) (by omega),
      ofNat_eq (b := b) (by omega)]
  | case4 a b c rest ih =>
    have := a.toNat_lt
    have := b.toNat_lt
    have := c.toNat_lt
    rw [encode, decodeGroups_three (by omega) (by omega) (by omega) (by omega) ih,
      ofNat_eq (b := a) (by omega), ofNat_eq (b := b) (by omega), ofNat_eq (b := c) (by omega)]

theorem decode_encode (bytes : List UInt8) : decode (encode bytes) = some bytes := by
  have kept : (encode bytes).filter (fun b => !isLineEnd b) = encode bytes := by
    refine List.filter_eq_self.mpr fun b mem => ?_
    have plain := plain_encode bytes b mem
    have : b ≠ 0x0a := by rintro rfl; exact absurd plain (by decide)
    have : b ≠ 0x0d := by rintro rfl; exact absurd plain (by decide)
    simp_all [isLineEnd]
  rw [decode, kept, decodeGroups_encode]

end Transmogr.Base64
