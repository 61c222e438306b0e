import Cohort.Formula.Basic

/-!
# The text of a formula

A negated literal is marked by `~`, the literals of a clause are joined by `|` and the clauses by
`&`. A clause of several literals is put in parentheses unless it stands alone. The formula without
clauses has the empty text.
-/

namespace Cohort

variable {α : Type}

/-- The text of a literal, given that of its term. -/
def Literal.render (text : α → List Char) (l : Literal α) : List Char :=
  if l.negated then '~' :: text l.term else text l.term

variable [Ranked α]

/-- The literals, joined by `|`. -/
def Clause.render (text : α → List Char) (c : Clause α) : List Char :=
  List.intercalate [' ', '|', ' '] (c.toList.map (Literal.render text))

namespace Formula

/-- The clauses, joined by `&`; where there are several, those of several literals are put in
parentheses. -/
def render (text : α → List Char) (f : Formula α) : List Char :=
  List.intercalate [' ', '&', ' '] <| f.clauses.toList.map fun c =>
    if f.size > 1 && c.size > 1 then '(' :: c.render text ++ [')'] else c.render text

/-- The text of a formula whose terms are texts. -/
def text (f : Formula String) : String := String.ofList (f.render String.toList)

end Formula

end Cohort
