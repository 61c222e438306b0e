import Cohort.Text.Utf8

/-!
# Form encoding

Text written in letters, digits and the signs `_`, `.`, `-`, `+` and `%` alone: a space is written
`+`, and any other byte of its UTF-8 that is none of these letters, digits or first three signs is
written `%` and two hexadecimal digits. Reading is more generous: other characters stand for
themselves, and so does a `%` that two hexadecimal digits do not follow.
-/

namespace Cohort.Text

/-- Whether a byte is an ASCII letter or digit, or one of the signs that stand for themselves. -/
def isUnreserved (b : UInt8) : Bool :=
  (Char.ofNat b.toNat).isAlphanum && b < 0x80 || b == 0x5F || b == 0x2E || b == 0x2D

/-- The hexadecimal digit of a number below 16, in upper case. -/
def hexDigit (n : Nat) : Char := if n < 10 then Char.ofNat (48 + n) else Char.ofNat (55 + n)

/-- The number of a hexadecimal digit, in either case. -/
def hexValue? (c : Char) : Option Nat :=
  if '0' ≤ c ∧ c ≤ '9' then some (c.toNat - 48)
  else if 'A' ≤ c ∧ c ≤ 'F' then some (c.toNat - 55)
  else if 'a' ≤ c ∧ c ≤ 'f' then some (c.toNat - 87)
  else none

/-- How a byte is written. -/
def encodeByte (b : UInt8) : List Char :=
  if isUnreserved b then [Char.ofNat b.toNat]
  else if b = 0x20 then ['+']
  else ['%', hexDigit (b.toNat / 16), hexDigit (b.toNat % 16)]

/-- How a text is written. -/
def encodeForm (s : List Char) : List Char :=
  (s.flatMap String.utf8EncodeChar).flatMap encodeByte

/-- The bytes that written characters stand for. -/
def formBytes : List Char → List UInt8
  | [] => []
  | '%' :: a :: b :: cs =>
    match hexValue? a, hexValue? b with
    | some x, some y => UInt8.ofNat (16 * x + y) :: formBytes cs
    | _, _ => 0x25 :: formBytes (a :: b :: cs)
  | '+' :: cs => 0x20 :: formBytes cs
  | c :: cs => String.utf8EncodeChar c ++ formBytes cs

/-- The text that written characters stand for, unless their bytes are no UTF-8. -/
def decodeForm (cs : List Char) : Except Flaw String := decodeUtf8 (formBytes cs)

end Cohort.Text
