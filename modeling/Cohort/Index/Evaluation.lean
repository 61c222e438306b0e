import Cohort.Index.Basic

/-!
# Evaluating selections

Only entities of the funnels that a selection reads can be in it. An entity is in a leaf if its mask
in the leaf's funnel passes the leaf's test, and in a node if the mask of the parts it is in passes
the node's test. With an entity of a selection comes the mask that passed.
-/

namespace Cohort

namespace Index

variable (index : Index) (entity : EntityId)

mutual

/-- The mask with which an entity is in a selection. -/
def evaluate : Selection → Option Mask
  | .leaf l => (index.mask? l.funnel entity).filter l.test.accepts
  | .node parts test =>
    let mask := membership 0 parts
    if test.accepts mask then some mask else none

/-- The positions, from a first one on, of the parts that an entity is in. -/
def membership (first : Nat) : List Selection → Mask
  | [] => 0
  | s :: ss =>
    (if (evaluate s).isSome then Mask.bit first else 0) ||| membership (first + 1) ss

end

/-- The entities of some funnels, in ascending order. -/
def entities (funnels : List FunnelId) : List EntityId :=
  (SortedSet.ofList (funnels.flatMap fun f => (index.elements f).map (·.id))).toList

/-- The funnels that a selection reads, if the index has them all. -/
def checkFunnels (s : Selection) : Except Error (List FunnelId) := do
  s.funnels.forM (Layout.checkFunnel index.size.toNat)
  return s.funnels

/-- The entities of a selection with their masks, in ascending order. -/
def select (s : Selection) : Except Error (List Element) := do
  let funnels ← index.checkFunnels s
  return (index.entities funnels).filterMap fun e =>
    (index.evaluate e s).map fun mask => ⟨e, mask⟩

def count (s : Selection) : Except Error Nat := do
  let funnels ← index.checkFunnels s
  return ((index.entities funnels).filter fun e => (index.evaluate e s).isSome).length

def counts (tests : List MaskTest) (funnel : FunnelId) : Except Error (List Nat) := do
  let elements ← index.funnel funnel
  return tests.map fun t => (elements.filter fun e => t.accepts e.mask).length

end Index

end Cohort
