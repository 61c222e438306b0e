/-!
# Writing JSON

Values are written without blanks. In strings only the quote, the backslash and control characters
are escaped: those with a letter by their letter, the others by four hexadecimal digits in lower
case.
-/

namespace Cohort.Json

/-- The hexadecimal digit of a number below 16, in lower case. -/
def hexDigit (n : Nat) : Char := if n < 10 then Char.ofNat (48 + n) else Char.ofNat (87 + n)

/-- How a character is written in a string. -/
def escape (c : Char) : List Char :=
  if c = '"' then ['\\', '"']
  else if c = '\\' then ['\\', '\\']
  else if c = '\x08' then ['\\', 'b']
  else if c = '\x0c' then ['\\', 'f']
  else if c = '\n' then ['\\', 'n']
  else if c = '\r' then ['\\', 'r']
  else if c = '\t' then ['\\', 't']
  else if c < ' ' then ['\\', 'u', '0', '0', hexDigit (c.toNat / 16), hexDigit (c.toNat % 16)]
  else [c]

/-- A string with its quotes. -/
def quote (s : String) : List Char := '"' :: s.toList.flatMap escape ++ ['"']

def writeNat (n : Nat) : List Char := Nat.toDigits 10 n

/-- An array of written items. -/
def writeArray (items : List (List Char)) : List Char :=
  '[' :: List.intercalate [','] items ++ [']']

/-- An object of written members. -/
def writeObject (members : List (String × List Char)) : List Char :=
  '\x7b' :: List.intercalate [','] (members.map fun m => quote m.1 ++ ':' :: m.2) ++ ['\x7d']

end Cohort.Json
