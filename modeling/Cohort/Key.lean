import Cohort.Error
import Cohort.Text.Cut
import Cohort.Text.FormEncoding

/-!
# Keys

A key gives some fields a value each. It is written as its pairs `field=value`, separated by commas,
names and values in form encoding, so that any text can stand on either side.
-/

namespace Cohort

open Text

/-- An ordered list of fields with a value each. -/
structure Key where
  pairs : List (String × String)
  deriving DecidableEq

namespace Key

/-- The value of the first pair of a field. -/
def get? (k : Key) (field : String) : Option String :=
  (k.pairs.find? (·.1 = field)).map (·.2)

def renderPair (p : String × String) : List Char :=
  encodeForm p.1.toList ++ '=' :: encodeForm p.2.toList

/-- How a key is written. -/
def render (k : Key) : List Char := List.intercalate [','] (k.pairs.map renderPair)

def text (k : Key) : String := String.ofList k.render

/-- Reads a form-encoded name or value. -/
def readPart (part : List Char) : Except Error String :=
  (decodeForm part).mapError fun flaw => .format (.keyEncoding (String.ofList part) flaw)

def readPair (segment : List Char) : Except Error (String × String) :=
  match cut '=' segment with
  | none => .error (.format (.keySegment (String.ofList segment)))
  | some (f, v) => do return (← readPart f, ← readPart v)

/-- Reads a key. Empty segments between commas are skipped. -/
def parse (text : String) : Except Error Key := do
  return ⟨← ((pieces ',' text.toList).filter (!·.isEmpty)).mapM readPair⟩

end Key

/-- The ways to name a funnel: its number, a key or the text of a key. -/
inductive Address where
  | id (id : UInt32)
  | key (key : Key)
  | text (text : String)
  deriving DecidableEq

end Cohort
