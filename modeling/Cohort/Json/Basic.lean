/-!
# JSON values

A JSON value as far as its structure goes: numbers and strings are kept as they are written, so
that a reader can ask for what it needs of them. `unescape` gives the text that a written string
stands for, and `wholeNumber?` the number that plain digits stand for.
-/

namespace Cohort

/-- A JSON value. Numbers and strings, member names included, are kept as written. -/
inductive Json where
  | null
  | bool (value : Bool)
  /-- A number, as written. -/
  | number (written : List Char)
  /-- A string, as written between its quotes. -/
  | string (written : List Char)
  | array (items : List Json)
  /-- Named values, in the order written; names may be repeated. -/
  | object (members : List (List Char × Json))

namespace Json

/-- The number of a hexadecimal digit, in either case. -/
def hexDigit? (c : Char) : Option Nat :=
  if '0' ≤ c ∧ c ≤ '9' then some (c.toNat - 48)
  else if 'a' ≤ c ∧ c ≤ 'f' then some (c.toNat - 87)
  else if 'A' ≤ c ∧ c ≤ 'F' then some (c.toNat - 55)
  else none

/-- The 16-bit unit that four hexadecimal digits write. -/
def unit? (a b c d : Char) : Option Nat := do
  return 4096 * (← hexDigit? a) + 256 * (← hexDigit? b) + 16 * (← hexDigit? c) + (← hexDigit? d)

/-- Whether a unit is the first half of a surrogate pair. -/
def isLeading (u : Nat) : Bool := 0xD800 ≤ u && u < 0xDC00

/-- Whether a unit is the second half of a surrogate pair. -/
def isTrailing (u : Nat) : Bool := 0xDC00 ≤ u && u < 0xE000

/-- The character that a letter after a backslash stands for. -/
def escaped? : Char → Option Char
  | '"' => some '"'
  | '\\' => some '\\'
  | '/' => some '/'
  | 'b' => some '\x08'
  | 'f' => some '\x0c'
  | 'n' => some '\n'
  | 'r' => some '\r'
  | 't' => some '\t'
  | _ => none

/-- The text a written string stands for; none if it holds half a surrogate pair. -/
def unescape : List Char → Option (List Char)
  | [] => some []
  | '\\' :: 'u' :: a :: b :: c :: d :: cs =>
    match unit? a b c d with
    | none => none
    | some u =>
      if isTrailing u then none
      else if isLeading u then
        match cs with
        | '\\' :: 'u' :: e :: f :: g :: h :: cs =>
          match unit? e f g h with
          | none => none
          | some l =>
            if isTrailing l then
              (unescape cs).map (Char.ofNat (0x10000 + 1024 * (u - 0xD800) + (l - 0xDC00)) :: ·)
            else none
        | _ => none
      else (unescape cs).map (Char.ofNat u :: ·)
  | '\\' :: e :: cs =>
    match escaped? e with
    | none => none
    | some c => (unescape cs).map (c :: ·)
  | c :: cs => (unescape cs).map (c :: ·)

/-- The number written by digits without a leading zero. -/
def wholeNumber? : List Char → Option Nat
  | ['0'] => some 0
  | c :: cs =>
    if '1' ≤ c ∧ c ≤ '9' ∧ cs.all Char.isDigit then
      some ((c :: cs).foldl (fun n d => 10 * n + (d.toNat - 48)) 0)
    else none
  | [] => none

end Json

end Cohort
