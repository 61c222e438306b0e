import Cohort.Text.Blank

/-!
# Tokens of formulas

A formula's text is cut into the five signs `&`, `|`, `~`, `(` and `)` and into terms: a term is a
longest run of other characters, without the blanks around it. Each token knows the byte at which
it starts, and one last token marks the end of the text.
-/

namespace Cohort

open Text

/-- What a token is. -/
inductive Token.Kind where
  /-- A run of characters that are no signs. -/
  | term
  /-- The sign `&`. -/
  | conj
  /-- The sign `|`. -/
  | disj
  /-- The sign `~`. -/
  | neg
  /-- The sign `(`. -/
  | opening
  /-- The sign `)`. -/
  | closing
  /-- The end of the text. -/
  | finish
  deriving DecidableEq

namespace Token.Kind

/-- How a kind of token is named in messages. -/
def name : Kind → String
  | term => "term"
  | conj => "'&'"
  | disj => "'|'"
  | neg => "'~'"
  | opening => "'('"
  | closing => "')'"
  | finish => "end of input"

/-- Whether an operand can start with such a token. -/
def startsOperand : Kind → Bool
  | term | neg | opening => true
  | conj | disj | closing | finish => false

/-- The kind of a sign. -/
def ofSign? : Char → Option Kind
  | '&' => some conj
  | '|' => some disj
  | '~' => some neg
  | '(' => some opening
  | ')' => some closing
  | _ => none

end Token.Kind

/-- A piece of a formula's text. -/
structure Token where
  kind : Token.Kind
  text : String
  /-- The number of bytes before it. -/
  start : Nat
  deriving DecidableEq

namespace Token

/-- A character that belongs to terms. -/
def isPlain (c : Char) : Bool := (Kind.ofSign? c).isNone

/-- The number of bytes of a text. -/
def byteSize (cs : List Char) : Nat := cs.foldr (fun c n => c.utf8Size + n) 0

/-- The tokens of a text that starts at a given byte, without the one for its end. -/
def scanFrom (start : Nat) : List Char → List Token
  | [] => []
  | c :: cs =>
    match Kind.ofSign? c with
    | some kind => ⟨kind, c.toString, start⟩ :: scanFrom (start + c.utf8Size) cs
    | none =>
      if isBlank c then scanFrom (start + c.utf8Size) cs
      else
        let run := c :: cs.takeWhile isPlain
        ⟨.term, String.ofList (trimEnd run), start⟩ ::
          scanFrom (start + byteSize run) (cs.dropWhile isPlain)
  termination_by cs => cs.length
  decreasing_by
  · exact Nat.lt_succ_self _
  · exact Nat.lt_succ_self _
  · exact Nat.lt_succ_of_le (List.dropWhile_sublist isPlain).length_le

/-- The token that marks the end of a text of so many bytes. -/
def finish (bytes : Nat) : Token := ⟨.finish, "", bytes⟩

/-- The tokens of a text, the last one marking its end. -/
def scan (text : List Char) : List Token := scanFrom 0 text ++ [finish (byteSize text)]

/-- How a token is shown where another was expected: a term by its text. -/
def found (t : Token) : String :=
  if t.kind = .term then "'" ++ t.text ++ "'" else t.kind.name

end Token

end Cohort
