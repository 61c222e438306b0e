import Cohort.Json.Token

/-!
# Reading JSON

The reader takes one token after the other and keeps the arrays and objects that are still open,
innermost first. A text holds one value, with nothing but blanks around it.
-/

namespace Cohort.Json

/-- An array or object that is still open, with what it holds so far, last first. -/
inductive Frame where
  | array (items : List Json)
  /-- An object, with the name of the value that comes next. -/
  | object (members : List (List Char × Json)) (name : List Char)

/-- How far the reader is. -/
inductive State where
  /-- A value has to come, or the end of an array without items. -/
  | value (opened : Bool) (frames : List Frame)
  /-- A name has to come, or the end of an object without members. -/
  | name (opened : Bool) (members : List (List Char × Json)) (frames : List Frame)
  /-- The sign between a name and its value has to come. -/
  | colon (members : List (List Char × Json)) (name : List Char) (frames : List Frame)
  /-- A value has been read. -/
  | after (v : Json) (frames : List Frame)

/-- Takes one token. -/
def State.step : State → Token → Option State
  | .value _ fs, .scalar v => some (.after v fs)
  | .value _ fs, .string s => some (.after (.string s) fs)
  | .value _ fs, .openArray => some (.value true (.array [] :: fs))
  | .value _ fs, .openObject => some (.name true [] fs)
  | .value true (.array [] :: fs), .closeArray => some (.after (.array []) fs)
  | .name _ ms fs, .string s => some (.colon ms s fs)
  | .name true _ fs, .closeObject => some (.after (.object []) fs)
  | .colon ms n fs, .colon => some (.value false (.object ms n :: fs))
  | .after v (.array vs :: fs), .comma => some (.value false (.array (v :: vs) :: fs))
  | .after v (.array vs :: fs), .closeArray => some (.after (.array (v :: vs).reverse) fs)
  | .after v (.object ms n :: fs), .comma => some (.name false ((n, v) :: ms) fs)
  | .after v (.object ms n :: fs), .closeObject =>
    some (.after (.object ((n, v) :: ms).reverse) fs)
  | _, _ => none

/-- The value that is complete once all tokens are taken. -/
def State.finish? : State → Option Json
  | .after v [] => some v
  | _ => none

/-- The value a text holds. -/
def read? (text : List Char) : Option Json := do
  let state ← (← tokens? text).foldlM State.step (.value false [])
  state.finish?

end Cohort.Json
