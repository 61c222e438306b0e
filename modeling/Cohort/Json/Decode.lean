import Cohort.Json.Reader

/-!
# Reading records from JSON

What a value has to be for a field of a record: a text, a number below a bound, a list. A record is
an object or an array of its fields in order. In an object, members that are no fields are ignored
and a field given twice is an error; an array may leave out fields at its end. Whether a field may
be missing is for the record to say.
-/

namespace Cohort.Json

/-- A string, as the text it stands for. -/
def text? : Json → Option String
  | .string s => (unescape s).map String.ofList
  | _ => none

/-- Digits that write a number below a bound. -/
def boundedBy (bound : Nat) (digits : List Char) : Option Nat :=
  (wholeNumber? digits).filter (· < bound)

/-- A whole number below a bound, written in plain digits. -/
def nat? (bound : Nat) : Json → Option Nat
  | .number digits => boundedBy bound digits
  | _ => none

/-- How many numbers 32 bits hold. -/
def bound32 : Nat := 4294967296

/-- How many numbers 64 bits hold. -/
def bound64 : Nat := 18446744073709551616

/-- An array whose items are all of one kind. -/
def list? {α : Type} (item? : Json → Option α) : Json → Option (List α)
  | .array items => items.mapM item?
  | _ => none

/-- An array of two items. -/
def pair? {α β : Type} (first? : Json → Option α) (second? : Json → Option β) :
    Json → Option (α × β)
  | .array [a, b] => do return (← first? a, ← second? b)
  | _ => none

/-- Null, or a value of some kind. -/
def optional? {α : Type} (item? : Json → Option α) : Json → Option (Option α)
  | .null => some none
  | v => some <$> item? v

/-- An object whose names are numbers below a bound, written in plain digits. -/
def entries? {α : Type} (bound : Nat) (item? : Json → Option α) : Json → Option (List (Nat × α))
  | .object members => members.mapM fun m => do return (← boundedBy bound m.1, ← item? m.2)
  | _ => none

/-- The value that an object's members give a field, if they give it once or not at all. -/
def memberOnce? (members : List (String × Json)) (name : String) : Option (Option Json) :=
  match members.filter fun m => m.1 = name with
  | [] => some none
  | [m] => some (some m.2)
  | _ => none

/-- The values of a record's fields, as far as they are given. -/
def fields? (names : List String) : Json → Option (List (Option Json))
  | .object members => do
    let members ← members.mapM fun m => do return (String.ofList (← unescape m.1), m.2)
    names.mapM (memberOnce? members)
  | .array items =>
    if items.length ≤ names.length then
      some (items.map some ++ List.replicate (names.length - items.length) none)
    else none
  | _ => none

end Cohort.Json
