import Cohort.Mask
import Cohort.Log.Basic

/-!
# Selections

A selection describes a set of entities over the funnels of some index. A leaf is one funnel with a
test of its entities' masks. A node combines up to 64 parts by a test of masks in which position `i`
is present when the entity is in part `i`.

Union and intersection take any number of selections: what does not fit into a node becomes a node
of its own, as the last part.
-/

namespace Cohort

/-- The entities of a funnel whose masks pass a test. -/
structure Leaf where
  funnel : FunnelId
  test : MaskTest
  deriving DecidableEq

/-- A description of a set of entities: a leaf, or a test of which parts an entity is in. -/
inductive Selection where
  | leaf (leaf : Leaf)
  | node (parts : List Selection) (test : MaskTest)

namespace Selection

mutual

/-- Whether two selections are built in the same way. -/
def same : Selection → Selection → Bool
  | .leaf l, .leaf m => l == m
  | .node ss t, .node us u => t == u && sameAll ss us
  | .leaf _, .node _ _ => false
  | .node _ _, .leaf _ => false

def sameAll : List Selection → List Selection → Bool
  | [], [] => true
  | s :: ss, u :: us => same s u && sameAll ss us
  | [], _ :: _ => false
  | _ :: _, [] => false

end

mutual

theorem same_iff : ∀ s u : Selection, same s u = true ↔ s = u
  | .leaf l, .leaf m => by simp [same]
  | .node ss t, .node us u => by
    simp [same, sameAll_iff ss us, and_comm]
  | .leaf _, .node _ _ => by simp [same]
  | .node _ _, .leaf _ => by simp [same]

theorem sameAll_iff : ∀ ss us : List Selection, sameAll ss us = true ↔ ss = us
  | [], [] => by simp [sameAll]
  | s :: ss, u :: us => by
    simp [sameAll, same_iff s u, sameAll_iff ss us]
  | [], _ :: _ => by simp [sameAll]
  | _ :: _, [] => by simp [sameAll]

end

instance : DecidableEq Selection := fun s u => decidable_of_iff _ (same_iff s u)

mutual

/-- The length of the longest way down to a leaf, which counts itself. -/
def depth : Selection → Nat
  | .leaf _ => 1
  | .node ss _ => 1 + depthAll ss

def depthAll : List Selection → Nat
  | [] => 0
  | s :: ss => max s.depth (depthAll ss)

end

mutual

/-- The leaves, from left to right. -/
def leaves : Selection → List Leaf
  | .leaf l => [l]
  | .node ss _ => leavesAll ss

def leavesAll : List Selection → List Leaf
  | [] => []
  | s :: ss => s.leaves ++ leavesAll ss

end

/-- The distinct funnels of the leaves, in the order of their first occurrence. -/
def funnels (s : Selection) : List FunnelId := (s.leaves.map (·.funnel)).eraseDups

/-- All entities of a funnel. -/
def funnel (id : FunnelId) : Selection := .leaf ⟨id, .always⟩

/-- A combination of parts by a test. There are between 1 and 64 parts, and the test asks for none
beyond them. -/
def combine (parts : List Selection) (test : MaskTest) : Except Error Selection :=
  if parts.isEmpty then .error (.format .noParts)
  else if parts.length > maskWidth then .error (.capacity (.parts (parts.length - 1)))
  else
    let beyond (c : MaskClause) : Mask := (c.positive ||| c.negative) &&& ~~~Mask.below parts.length
    match (test.clauses.map beyond).find? (· != 0) with
    | some m => .error (.format (.partBeyond m.toNat.log2 parts.length))
    | none => .ok (.node parts test)

/-- The entities of both. -/
def inter (s u : Selection) : Selection := .node [s, u] ⟨[⟨1, 0⟩, ⟨2, 0⟩]⟩

/-- The entities of either. -/
def union (s u : Selection) : Selection := .node [s, u] ⟨[⟨3, 0⟩]⟩

/-- The entities of exactly one of the two. -/
def symmDiff (s u : Selection) : Selection := .node [s, u] ⟨[⟨3, 0⟩, ⟨0, 3⟩]⟩

/-- The entities of the first that are not in the second. -/
def diff (s u : Selection) : Selection := .node [s, u] ⟨[⟨1, 0⟩, ⟨0, 2⟩]⟩

/-- How a list of selections is joined: by union or by intersection. -/
inductive Join where
  | any
  | all
  deriving DecidableEq

/-- The formula that joins so many parts. -/
def Join.formula (j : Join) (count : Nat) : Formula Nat :=
  match j with
  | any => Formula.anyOf (List.range count)
  | all => Formula.allOf (List.range count)

/-- What is wrong with joining no selections. -/
def Join.nothing : Join → Malformed
  | any => .emptyUnion
  | all => .emptyIntersection

/-- A node that joins parts. -/
def joinParts (j : Join) (parts : List Selection) : Except Error Selection := do
  combine parts (← MaskTest.compile .ok (j.formula parts.length))

/-- The join of any number of selections. Beyond 64, the first 63 stand beside the join of the
others. -/
def join (j : Join) (ss : List Selection) : Except Error Selection :=
  if ss.isEmpty then .error (.format j.nothing)
  else if ss.length > maskWidth then do
    joinParts j (ss.take (maskWidth - 1) ++ [← join j (ss.drop (maskWidth - 1))])
  else joinParts j ss
  termination_by ss.length
  decreasing_by simp only [List.length_drop, maskWidth] at *; omega

end Selection

end Cohort
