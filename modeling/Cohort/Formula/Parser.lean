import Cohort.Formula.Expression
import Cohort.Formula.Token

/-!
# Reading formulas

The grammar of expressions is

    expression  = conjunction { "|" conjunction }
    conjunction = operand { ( "&" | "~" ) operand }
    operand     = "~" operand | term | "(" expression ")"

with both operators associating to the left, and a text of blanks alone is the formula without
clauses. The reader takes one token after the other and keeps what is still unfinished: the parts
to the left of pending operators, pending negations and open parentheses, innermost first. It stops
at the first token that no text of the grammar has at that place.

The extended dialect writes `!`, `,` and `+` for `~`, `&` and `|`, which leaves the plain signs to
a surrounding formula. The signs of both dialects are single bytes, so places in the text are the
same under both.
-/

namespace Cohort

/-- What could have stood at a place where something else was found. -/
inductive Expected where
  | operand
  | closing
  /-- The end of the text, or an operator. -/
  | finish
  deriving DecidableEq

/-- How an expectation is named in messages. -/
def Expected.name : Expected → String
  | operand => "term or '('"
  | closing => "')'"
  | finish => "operator or end of input"

/-- Why a text is no formula. -/
inductive ParseError where
  | unexpected (expected : Expected) (token : Token)
  /-- An operator that no operand follows. -/
  | missingOperand (operator : Token)
  /-- An opening parenthesis, by its place, that is never closed. -/
  | unclosed (start : Nat)
  deriving DecidableEq

/-- The text of an error. Places are counted in bytes. -/
def ParseError.message : ParseError → String
  | unexpected expected token =>
    "expected " ++ expected.name ++ " at position " ++ token.start.repr ++ ", found " ++ token.found
  | missingOperand operator =>
    "missing operand after " ++ operator.kind.name ++ " at position " ++ operator.start.repr
  | unclosed start => "unclosed '(' at position " ++ start.repr

/-- Which signs a text uses. -/
inductive Dialect where
  /-- Only `&`, `|` and `~`. -/
  | standard
  /-- Also `,`, `+` and `!`. -/
  | extended
  deriving DecidableEq

/-- The plain sign for a character of the dialect. -/
def Dialect.sign : Dialect → Char → Char
  | extended, '!' => '~'
  | extended, ',' => '&'
  | extended, '+' => '|'
  | _, c => c

namespace Expression

/-- What waits for the expression that is being read. -/
inductive Pending where
  | not
  /-- A left side with `&`. -/
  | and (l : Expression)
  /-- A left side with `~`. -/
  | andNot (l : Expression)
  /-- A left side with `|`. -/
  | or (l : Expression)
  /-- An opening parenthesis, by its place. -/
  | group (start : Nat)
  deriving DecidableEq

/-- Completes what an operand completes: the negations before it and then the conjunction it ends.
-/
def closeOperand : List Pending → Expression → List Pending × Expression
  | .not :: s, e => closeOperand s (.not e)
  | .and l :: s, e => (s, .and l e)
  | .andNot l :: s, e => (s, .andNot l e)
  | s, e => (s, e)

/-- Completes the disjunction that a conjunction ends. -/
def closeDisjunction : List Pending → Expression → List Pending × Expression
  | .or l :: s, e => (s, .or l e)
  | s, e => (s, e)

/-- How far the reader is. -/
inductive State where
  /-- An operand has to come; the last token, if it was an operator, is kept. -/
  | before (pending : List Pending) (operator : Option Token)
  /-- A conjunction has been read. -/
  | after (pending : List Pending) (e : Expression)
  deriving DecidableEq

/-- The state after an operand. -/
def State.ofOperand (pending : List Pending) (e : Expression) : State :=
  let (s, e) := closeOperand pending e
  .after s e

/-- Where an operand has to come, no other token can stand: after an operator, the operand is
missing. -/
def noOperand (operator : Option Token) (token : Token) : ParseError :=
  match operator with
  | some op => .missingOperand op
  | none => .unexpected .operand token

/-- Takes one token. -/
def State.step (state : State) (t : Token) : Except ParseError State :=
  match state with
  | .before s op =>
    match t.kind with
    | .term => .ok (.ofOperand s (.term t.text))
    | .neg => .ok (.before (.not :: s) (some t))
    | .opening => .ok (.before (.group t.start :: s) none)
    | .conj | .disj | .closing | .finish => .error (noOperand op t)
  | .after s e =>
    match t.kind with
    | .conj => .ok (.before (.and e :: s) (some t))
    | .neg => .ok (.before (.andNot e :: s) (some t))
    | .disj =>
      let (s, e) := closeDisjunction s e
      .ok (.before (.or e :: s) (some t))
    | .closing =>
      match closeDisjunction s e with
      | (.group _ :: s, e) => .ok (.ofOperand s (.group e))
      | _ => .error (.unexpected .finish t)
    | .term | .opening | .finish =>
      match closeDisjunction s e with
      | (.group _ :: _, _) => .error (.unexpected .closing t)
      | _ => .error (.unexpected .finish t)

/-- The expression that is complete where the text ends, given the token for its end. -/
def State.finish (state : State) (t : Token) : Except ParseError Expression :=
  match state with
  | .before _ op => .error (noOperand op t)
  | .after s e =>
    match closeDisjunction s e with
    | (.group start :: _, _) => .error (.unclosed start)
    | (_, e) => .ok e

/-- Reads on from a state to the end of the text. -/
def read (finish : Token) : State → List Token → Except ParseError Expression
  | state, [] => state.finish finish
  | state, t :: ts => do read finish (← state.step t) ts

/-- The expression that a text of the plain signs writes; none if the text is blank. -/
def parse (text : List Char) : Except ParseError (Option Expression) :=
  match Token.scanFrom 0 text with
  | [] => .ok none
  | ts => some <$> read (.finish (Token.byteSize text)) (.before [] none) ts

end Expression

/-- The formula that a text writes. -/
def Formula.parse (dialect : Dialect) (text : String) : Except ParseError (Formula String) := do
  match ← Expression.parse (text.toList.map dialect.sign) with
  | none => return .always
  | some e => return e.formula

end Cohort
