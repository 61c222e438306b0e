import Cohort.Formula.Parser
import Cohort.Text.Utf8

/-!
# Errors

Every operation that can fail says why by an `Error`: something asked for is not there (`Missing`),
a fixed limit is exceeded (`Excess`), a text or a description is malformed (`Malformed`), or whoever
evaluates or keeps an index reports trouble (`Fault`). `Error.message` puts a cause into words.
-/

namespace Cohort

/-- How many positions a mask has. -/
def maskWidth : Nat := 64

/-- What was asked for and is not there. -/
inductive Missing where
  | field (name : String)
  | fieldNumber (number : Nat)
  | valueNumber (number : Nat) (field : String)
  | value (value field : String)
  | trail (id : Nat)
  | funnel (id : Nat)
  | keyGroup (number : Nat)
  /-- A field that no key group has. -/
  | keyField (name : String)
  /-- A mask field, in a layout that has none. -/
  | maskField
  /-- A term that has no position in a mask. -/
  | term (name : String)
  deriving DecidableEq

def Missing.message : Missing → String
  | field name => "field '" ++ name ++ "'"
  | fieldNumber n => "field id " ++ n.repr
  | valueNumber n name => "value " ++ n.repr ++ " of field '" ++ name ++ "'"
  | value v name => "value '" ++ v ++ "' of field '" ++ name ++ "'"
  | trail id => "trail " ++ id.repr
  | funnel id => "funnel id " ++ id.repr
  | keyGroup n => "key group " ++ n.repr
  | keyField name => "key field '" ++ name ++ "'"
  | maskField => "mask field"
  | term name => "term '" ++ name ++ "'"

/-- A limit that is exceeded, with what exceeds it. -/
inductive Excess where
  | position (index : Nat)
  /-- More distinct terms than a mask has positions; the last one's number is given. -/
  | terms (last : Nat)
  /-- More parts of a selection than a mask has positions; the last one's number is given. -/
  | parts (last : Nat)
  /-- More funnels than there are funnel ids. -/
  | funnels (count : Nat)
  /-- More values of a mask field than positions, of which the first is not used. -/
  | maskValues (field : String) (count : Nat)
  deriving DecidableEq

/-- How many funnel ids there are. -/
def funnelLimit : Nat := 4294967296

def Excess.message : Excess → String
  | position i => say "term index" i maskWidth
  | terms n => say "distinct terms" n maskWidth
  | parts n => say "child set" n maskWidth
  | funnels n => say "funnel count" n funnelLimit
  | maskValues field n => say ("mask field '" ++ field ++ "' value") n (maskWidth - 1)
where
  /-- The sentence all limits share. -/
  say (what : String) (index limit : Nat) : String :=
    what ++ " " ++ index.repr ++ " is beyond the limit of " ++ limit.repr

/-- What is wrong with a text or a description. -/
inductive Malformed where
  | formula (error : ParseError)
  /-- A JSON text is malformed, or holds something else than what is read from it. -/
  | json
  /-- A saved index has a funnel that its size does not admit. -/
  | funnelBeyond (id size : Nat)
  /-- A segment of a key's text has no `=`. -/
  | keySegment (segment : String)
  /-- A name or value in a key's text stands for bytes that are no text. -/
  | keyEncoding (text : String) (flaw : Text.Flaw)
  | fieldTwiceInKey (name : String)
  /-- No key group has all fields of a key. -/
  | mixedGroups
  | fieldTwiceInGroup (name : String)
  | noKeyGroup
  | emptyMaskField (name : String)
  /-- An event has a value number that the layout has no digit for. -/
  | valueOutOfRange (number field : Nat)
  /-- An event has not one value for each field. -/
  | arity (values fields : Nat)
  /-- A filter's term has no `=`. -/
  | condition (text : String)
  | noParts
  /-- A test of a selection's parts asks for one that is not there. -/
  | partBeyond (index count : Nat)
  | emptyUnion
  | emptyIntersection
  /-- A query's leaf has several `/`. -/
  | leaf (text : String)
  | noLeaves
  /-- An index has not one funnel for each that the layout has. -/
  | sizeMismatch (index layout : Nat)
  deriving DecidableEq

def Malformed.message : Malformed → String
  | formula e => e.message
  | json => "malformed JSON"
  | funnelBeyond id size => "funnel id " ++ id.repr ++ " beyond index size " ++ size.repr
  | keySegment s => "key segment '" ++ s ++ "' is not field=value"
  | keyEncoding s flaw => "invalid key encoding '" ++ s ++ "': " ++ flaw.message
  | fieldTwiceInKey name => "field '" ++ name ++ "' given twice in key"
  | mixedGroups => "key mixes fields from different key groups"
  | fieldTwiceInGroup name => "field '" ++ name ++ "' appears twice in one key group"
  | noKeyGroup => "index needs at least one key group"
  | emptyMaskField name => "mask field '" ++ name ++ "' has no values"
  | valueOutOfRange n field =>
    "event value " ++ n.repr ++ " out of range for field " ++ field.repr
  | arity values fields =>
    "event has " ++ values.repr ++ " values, store has " ++ fields.repr ++ " fields"
  | condition s => "expected field=value, got '" ++ s ++ "'"
  | noParts => "complex set needs at least one child"
  | partBeyond i n => "predicate references child " ++ i.repr ++ " of " ++ n.repr
  | emptyUnion => "Any needs at least one set"
  | emptyIntersection => "All needs at least one set"
  | leaf s => "leaf '" ++ s ++ "' has more than one '/'"
  | noLeaves => "query has no leaves"
  | sizeMismatch index layout =>
    "engine holds " ++ index.repr ++ " funnels, key layout needs " ++ layout.repr

/-- What whoever evaluates or keeps an index reports. -/
inductive Fault where
  /-- An index could not be written, for the given reason. -/
  | write (reason : String)
  /-- Anything else, in the reporter's words. -/
  | reported (text : String)
  deriving DecidableEq

def Fault.message : Fault → String
  | write reason => "failed to write index: " ++ reason
  | reported text => text

/-- Why an operation failed. -/
inductive Error where
  | notFound (what : Missing)
  | capacity (excess : Excess)
  | format (fault : Malformed)
  | engine (fault : Fault)
  deriving DecidableEq

def Error.message : Error → String
  | notFound what => "not found: " ++ what.message
  | capacity excess => "capacity exceeded: " ++ excess.message
  | format fault => "format error: " ++ fault.message
  | engine fault => "engine error: " ++ fault.message

/-- Reads a formula as part of something larger. -/
def Formula.read (dialect : Dialect) (text : String) : Except Error (Formula String) :=
  (Formula.parse dialect text).mapError fun e => .format (.formula e)

end Cohort
