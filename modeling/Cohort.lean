import Cohort.Config
import Cohort.Database.Basic
import Cohort.Database.Query
import Cohort.Error
import Cohort.Formula.Basic
import Cohort.Formula.Expression
import Cohort.Formula.Parser
import Cohort.Formula.Printer
import Cohort.Formula.Token
import Cohort.Index.Basic
import Cohort.Index.Evaluation
import Cohort.Json.Basic
import Cohort.Json.Decode
import Cohort.Json.Printer
import Cohort.Json.Reader
import Cohort.Json.Stored
import Cohort.Json.Token
import Cohort.Key
import Cohort.Layout.Basic
import Cohort.Layout.Keys
import Cohort.Log.Basic
import Cohort.Log.Field
import Cohort.Log.Filter
import Cohort.Log.Trail
import Cohort.Mask
import Cohort.Ranked
import Cohort.Selection
import Cohort.SortedMap
import Cohort.SortedSet
import Cohort.Text.Blank
import Cohort.Text.Cut
import Cohort.Text.FormEncoding
import Cohort.Text.Utf8
import Cohort.Proofs.Outcome
import Cohort.Proofs.Mask
import Cohort.Proofs.Evaluation
import Cohort.Proofs.Join
import Cohort.Proofs.SetAlgebra
import Cohort.Proofs.Partition
import Cohort.Proofs.Digits
import Cohort.Proofs.Layout
import Cohort.Proofs.Contents
import Cohort.Proofs.Formulas
import Cohort.Proofs.History
import Cohort.Proofs.Resolution
import Cohort.Proofs.Scan
import Cohort.Proofs.Answers
import Cohort.Proofs.Capacity
import Cohort.Proofs.Numbering
import Cohort.Proofs.KeyInverse
import Cohort.Proofs.Algebra
import Cohort.Proofs.Tokens
import Cohort.Proofs.Grammar
import Cohort.Proofs.Replacement
import Cohort.Proofs.FormulaText
import Cohort.Proofs.Compilation
import Cohort.Proofs.TruthFunctions
import Cohort.Proofs.Growth
import Cohort.Proofs.Enumeration
import Cohort.Proofs.KeyText
import Cohort.Proofs.Queries
import Cohort.Proofs.Safety
import Cohort.Proofs.CanonicalForm
import Cohort.Proofs.Leaves
import Cohort.Proofs.JsonText
import Cohort.Proofs.Persistence
import Cohort.Proofs.Filters
import Cohort.Proofs.Repeats
import Cohort.Proofs.Words
import Cohort.Proofs.LeafIdentity
import Cohort.Proofs.Alike
import Cohort.Proofs.Reordering
import Cohort.Proofs.Chronicle
import Cohort.Proofs.FilterText
import Cohort.Proofs.WideJoins
import Cohort.Proofs.Nodes
import Cohort.Proofs.Listing
import Cohort.Proofs.UnionParts
import Cohort.Proofs.Families
import Cohort.Proofs.DenseCompilation
import Cohort.Proofs.Disjunctions
import Cohort.Proofs.ParseErrors
import Cohort.Proofs.Insertions
import Cohort.Proofs.Locality
import Cohort.Proofs.KeyOrder
import Cohort.Proofs.Negations
import Cohort.Proofs.ConditionText
import Cohort.Proofs.MaskWords
import Cohort.Proofs.Descriptions
import Cohort.Proofs.Tiling
import Cohort.Proofs.Retrieval
