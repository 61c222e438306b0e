import Cohort.Json.Basic

/-!
# Tokens of JSON texts

A JSON text is cut into its six signs, numbers, strings and the words `null`, `true` and `false`;
the four blank characters of JSON stand between them. A number has to follow JSON's grammar and a
string has to be closed, free of control characters and well escaped; what its escapes stand for is
not looked at yet.
-/

namespace Cohort.Json

/-- A piece of a JSON text. -/
inductive Token where
  | openArray
  | closeArray
  | openObject
  | closeObject
  | comma
  | colon
  /-- A value without parts. -/
  | scalar (value : Json)
  /-- A string, as written between its quotes; it may be a value or a name. -/
  | string (written : List Char)

/-- Whether a character may stand between tokens. -/
def isSpace (c : Char) : Bool := c == ' ' || c == '\t' || c == '\n' || c == '\r'

/-- The token of a sign. -/
def Token.ofSign? : Char → Option Token
  | '[' => some openArray
  | ']' => some closeArray
  | '\x7b' => some openObject
  | '\x7d' => some closeObject
  | ',' => some comma
  | ':' => some colon
  | _ => none

/-- What is left of a run of digits, if there is at least one. -/
def afterDigits? : List Char → Option (List Char)
  | [] => none
  | c :: cs => if c.isDigit then some (cs.dropWhile Char.isDigit) else none

/-- What is left after the part of a number before its point or exponent. -/
def afterWhole? : List Char → Option (List Char)
  | '0' :: cs => some cs
  | cs => afterDigits? cs

/-- What is left after an optional point with its digits. -/
def afterFraction? : List Char → Option (List Char)
  | '.' :: cs => afterDigits? cs
  | cs => some cs

/-- What is left after an optional exponent. -/
def afterExponent? : List Char → Option (List Char)
  | 'e' :: cs => afterDigits? (unsigned cs)
  | 'E' :: cs => afterDigits? (unsigned cs)
  | cs => some cs
where
  /-- Leaves out a sign. -/
  unsigned : List Char → List Char
    | '+' :: cs => cs
    | '-' :: cs => cs
    | cs => cs

/-- Whether characters write a number. -/
def isNumber (cs : List Char) : Bool :=
  let whole := match cs with
    | '-' :: cs => cs
    | cs => cs
  ((afterWhole? whole).bind afterFraction?).bind afterExponent? == some []

/-- Whether a character can belong to a number. -/
def isNumberChar (c : Char) : Bool :=
  c.isDigit || c == '-' || c == '+' || c == '.' || c == 'e' || c == 'E'

/-- The value that a word or a number writes. -/
def scalar? (cs : List Char) : Option Json :=
  if cs = ['n', 'u', 'l', 'l'] then some .null
  else if cs = ['t', 'r', 'u', 'e'] then some (.bool true)
  else if cs = ['f', 'a', 'l', 's', 'e'] then some (.bool false)
  else if isNumber cs then some (.number cs)
  else none

/-- Whether a character can belong to a word or a number. -/
def isScalarChar (c : Char) : Bool := c.isAlpha || isNumberChar c

/-- What is written up to the quote that ends a string, and what is left after it. -/
def upToQuote : List Char → Option (List Char × List Char)
  | [] => none
  | '"' :: cs => some ([], cs)
  | '\\' :: 'u' :: a :: b :: c :: d :: cs =>
    if (unit? a b c d).isSome then
      (upToQuote cs).map fun p => ('\\' :: 'u' :: a :: b :: c :: d :: p.1, p.2)
    else none
  | '\\' :: e :: cs =>
    if (escaped? e).isSome then (upToQuote cs).map fun p => ('\\' :: e :: p.1, p.2) else none
  | c :: cs =>
    if c = '\\' ∨ c < ' ' then none else (upToQuote cs).map fun p => (c :: p.1, p.2)

theorem upToQuote_length {cs : List Char} {p : List Char × List Char}
    (h : upToQuote cs = some p) : p.2.length < cs.length := by
  fun_induction upToQuote cs generalizing p with
  | case1 => simp at h
  | case2 cs =>
    cases h
    simp
  | case3 a b c d cs _ ih =>
    obtain ⟨q, hq, rfl⟩ := Option.map_eq_some_iff.1 h
    have := ih hq
    simp only [List.length_cons]
    omega
  | case4 => simp at h
  | case5 e cs _ _ ih =>
    obtain ⟨q, hq, rfl⟩ := Option.map_eq_some_iff.1 h
    have := ih hq
    simp only [List.length_cons]
    omega
  | case6 => simp at h
  | case7 => simp at h
  | case8 c cs _ _ _ _ ih =>
    obtain ⟨q, hq, rfl⟩ := Option.map_eq_some_iff.1 h
    have := ih hq
    exact Nat.lt_succ_of_lt this

/-- The tokens of a text, if it consists of such. -/
def tokens? : List Char → Option (List Token)
  | [] => some []
  | c :: cs =>
    if isSpace c then tokens? cs
    else if c = '"' then
      match _h : upToQuote cs with
      | none => none
      | some p => (tokens? p.2).map (.string p.1 :: ·)
    else
      match Token.ofSign? c with
      | some t => (tokens? cs).map (t :: ·)
      | none =>
        match scalar? (c :: cs.takeWhile isScalarChar) with
        | none => none
        | some v => (tokens? (cs.dropWhile isScalarChar)).map (.scalar v :: ·)
  termination_by cs => cs.length
  decreasing_by
  · exact Nat.lt_succ_self _
  · exact Nat.lt_succ_of_lt (upToQuote_length _h)
  · exact Nat.lt_succ_self _
  · exact Nat.lt_succ_of_le (List.dropWhile_sublist isScalarChar).length_le

end Cohort.Json
