import Cohort.Index.Evaluation
import Cohort.Json.Stored
import Cohort.Layout.Keys

/-!
# Databases

A database is a log with an index of it. The layout is that of the log and the description the index
was made by, and the index has exactly the layout's funnels. Whatever evaluates selections may take
the index's place: an `Evaluator` may report failures, also in the midst of a selection's entities,
and what a database gives out ends with the first of them.
-/

namespace Cohort

/-- What evaluates selections over a number of funnels. -/
class Evaluator (ε : Type) where
  /-- How many funnels there are. -/
  size : ε → Nat
  /-- How many entities a selection has. -/
  count : ε → Selection → Except Error Nat
  /-- How many entities of a funnel pass each of some tests. -/
  counts : ε → List MaskTest → FunnelId → Except Error (List Nat)
  /-- The entities of a selection, and failures to get some of them. -/
  scan : ε → Selection → Except Error (List (Except Error Element))
  /-- Hands the whole to a sink, as a text. -/
  save : {α : Type} → ε → (String → Except String α) → Except Error α

instance : Evaluator Index where
  size index := index.size.toNat
  count := Index.count
  counts := Index.counts
  scan index s := do return (← index.select s).map .ok
  save := Index.save

/-- A log with what evaluates selections of its entities. -/
structure Database (ε : Type) [Evaluator ε] where
  log : Log
  index : ε
  config : Config
  layout : Layout
  layout_eq : Layout.build log config = .ok layout
  size_eq : Evaluator.size index = layout.size

/-- What comes up to the first failure, with that failure. -/
def untilFailure {α : Type} : List (Except Error α) → List (Except Error α)
  | [] => []
  | .ok a :: l => .ok a :: untilFailure l
  | .error e :: _ => [.error e]

namespace Database

/-- A database of given parts, whose numbers of funnels have to agree. -/
def make {ε : Type} [Evaluator ε] (log : Log) (index : ε) (config : Config) :
    Except Error (Database ε) :=
  match hl : Layout.build log config with
  | .error e => .error e
  | .ok layout =>
    if hs : Evaluator.size index = layout.size then .ok ⟨log, index, config, layout, hl, hs⟩
    else .error (.format (.sizeMismatch (Evaluator.size index) layout.size))

/-- A database whose index is built from its log. -/
def build (log : Log) (config : Config) : Except Error (Database Index) := do
  make log (← Index.build log config) config

/-- A database whose index is read from a text. -/
def load (log : Log) (text : String) (config : Config) : Except Error (Database Index) := do
  make log (← Index.load text) config

variable {ε : Type} [Evaluator ε] (db : Database ε)

def size : Nat := db.layout.size

def funnelOf (address : Address) : Except Error FunnelId := db.layout.funnel db.log address

/-- The keys that set every field of their group, as many as are asked for. -/
def firstKeys (n : Nat) : Except Error (List Key) := db.layout.firstKeys db.log n

def keyOf (id : FunnelId) : Except Error Key := db.layout.keyOf db.log id

def maskField : Except Error Nat :=
  match db.layout.maskField with
  | some field => .ok field
  | none => .error (.notFound .maskField)

/-- The position of a value of the mask field. -/
def maskPosition (value : String) : Except Error Nat := do
  db.log.number (← db.maskField) value

/-- The values of the mask field whose positions a mask has, in ascending order. Position 0 belongs
to no value. -/
def maskWords (mask : Mask) : Except Error (List String) := do
  let field ← db.maskField
  (((List.range maskWidth).drop 1).filter mask.getLsbD).mapM (db.log.word field)

/-- The test of masks for a formula over values of the mask field. -/
def maskTest (f : Formula String) : Except Error MaskTest := MaskTest.compile db.maskPosition f

/-- The leaf of a funnel, with a test or without. -/
def leafOf (id : FunnelId) (test : Option MaskTest) : Except Error Leaf := do
  Layout.checkFunnel db.size id
  return ⟨id, test.getD .always⟩

/-- The leaf of an address and a formula over values of the mask field. -/
def select (address : Address) (mask : Formula String) : Except Error Leaf := do
  let id ← db.funnelOf address
  return ⟨id, ← db.maskTest mask⟩

/-- Tests of masks for texts in the extended dialect. -/
def family (queries : List String) : Except Error (List MaskTest) :=
  queries.mapM fun q => do db.maskTest (← Formula.read .extended q)

def count (s : Selection) : Except Error Nat := Evaluator.count db.index s

/-- The entities of a selection, up to the first failure. -/
def elements (s : Selection) : Except Error (List (Except Error Element)) := do
  return untilFailure (← Evaluator.scan db.index s)

/-- The entities of a selection with their trails, up to the first failure. -/
def trails (s : Selection) : Except Error (List (Except Error (EntityId × Trail))) := do
  return untilFailure ((← db.elements s).map fun element => do
    let e ← element
    return (e.id, ← db.log.trail e.id))

def counts (tests : List MaskTest) (address : Address) : Except Error (List Nat) := do
  Evaluator.counts db.index tests (← db.funnelOf address)

def save {α : Type} (sink : String → Except String α) : Except Error α :=
  Evaluator.save db.index sink

end Database

end Cohort
