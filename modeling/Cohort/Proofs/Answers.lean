import Cohort.Proofs.Safety
import Cohort.Proofs.Scan

/-!
# Answers of queries

A query's selection has an entity exactly when the query's formula is true of which leaves have it
(`Database.Reads`, `Database.exists_reads`), and it lists the entities of its leaves' funnels that
it has. With an index built from a log, both can be read off the calls that made the log
(`History.answers`, `Database.mem_members_iff_answers`).
-/

namespace Cohort

/-- Whether an entity is an answer to a query's formula, going by the calls: one of them lands in
some leaf, and the formula is true of the leaves that have the entity. -/
def History.answers (h : History) (config : Config) (f : Formula String) (x : EntityId) : Bool :=
  (f.literals.any fun l => !(h.landing config l.term x).isEmpty) && f.eval (h.leafHolds config x)

namespace Database

/-- A selection's parts are the leaves of a formula, and it has what the formula says of them. -/
structure Reads (db : Database Index) (f : Formula String) (parts : List Leaf) (s : Selection) :
    Prop where
  leaves : s.leaves = parts
  part : ∀ p ∈ parts, ∃ l ∈ f.literals, db.leaf l.term = .ok p
  leaf : ∀ l ∈ f.literals, ∃ p ∈ parts, db.leaf l.term = .ok p
  has : ∀ (x : EntityId) (v : String → Bool),
    (∀ l ∈ f.literals, ∀ p, db.leaf l.term = .ok p → v l.term = db.index.has x (.leaf p)) →
      db.index.has x s = f.eval v

variable {h : History} {config : Config} {db : Database Index} {text : String} {s : Selection}

theorem exists_reads (hs : db.query text = .ok s) : ∃ f parts,
    Formula.read .standard text = .ok f ∧ db.Reads f parts s := by
  obtain ⟨f, hf, hne⟩ := exists_asks hs
  have hc := combines_of_query hf hne hs
  refine ⟨f, db.parts f, read_eq_ok_iff.2 hf.parse, hc.leaves, fun p hp => mem_parts.1 hp,
    fun l hl => ?_, fun x v hv => ?_⟩
  · obtain ⟨p, hp⟩ := (forall_literals_iff hf.parse).2 hf.leaf l hl
    exact ⟨p, mem_parts.2 ⟨l, hl, hp⟩, hp⟩
  · rw [hc.has]
    refine Formula.eval_congr fun l hl => ?_
    obtain ⟨p, hp⟩ := (forall_literals_iff hf.parse).2 hf.leaf l hl
    unfold inLeaf
    rw [hv l hl p hp, hp]
    rfl

/-- The entities of a query's selection are the answers to its formula. -/
theorem mem_members_iff_answers (hdb : Database.build h.log config = .ok db) {f : Formula String}
    {parts : List Leaf} (hr : db.Reads f parts s) (x : EntityId) :
    x ∈ db.index.members s ↔ h.answers config f x = true := by
  have hentities : x ∈ db.index.entities s.funnels
      ↔ (f.literals.any fun l => !(h.landing config l.term x).isEmpty) = true := by
    rw [Index.mem_entities_iff, List.any_eq_true]
    simp only [Selection.mem_funnels_iff, hr.leaves, Bool.not_eq_true', List.isEmpty_eq_false_iff]
    constructor
    · rintro ⟨-, ⟨p, hp, rfl⟩, hx⟩
      obtain ⟨l, hl, hlp⟩ := hr.part p hp
      exact ⟨l, hl, (has_leaf_iff hdb hlp x).1.1 hx⟩
    · rintro ⟨l, hl, hx⟩
      obtain ⟨p, hp, hlp⟩ := hr.leaf l hl
      exact ⟨p.funnel, ⟨p, hp, rfl⟩, (has_leaf_iff hdb hlp x).1.2 hx⟩
  unfold History.answers
  rw [Index.mem_members_iff, hentities, Bool.and_eq_true,
    hr.has x (h.leafHolds config x) fun l _ p hp => (has_leaf_iff hdb hp x).2.symm]

/-- An index built from a log answers a query as a scan of the calls that made the log does. -/
theorem query_eq_scan (h : History) (config : Config) (db : Database Index) (text : String)
    (s : Selection) (hdb : Database.build h.log config = .ok db) (hs : db.query text = .ok s) :
    ∃ (f : Formula String) (els : List Element), Formula.read .standard text = .ok f
      ∧ db.elements s = .ok (els.map .ok)
      ∧ (els.map (·.id)).Pairwise (· < ·)
      ∧ (∀ x, x ∈ els.map (·.id) ↔ h.answers config f x = true)
      ∧ db.count s = .ok els.length := by
  obtain ⟨f, parts, hf, hr⟩ := exists_reads hs
  obtain ⟨els, hels, hids, hcount⟩ := evaluates_of_covers (covers_query hs)
  refine ⟨f, els, hf, hels, ?_, fun x => ?_, hcount⟩
  · rw [hids]
    exact Index.members_ascending _ _
  · rw [hids]
    exact mem_members_iff_answers hdb hr x

/-- Four calls for three entities, of which the last gives too few values. -/
def visits : History where
  names := ["c", "k"]
  calls := [⟨2, 10, ["n", "v"]⟩, ⟨0, 20, ["b", "w"]⟩, ⟨0, 5, ["n", "v"]⟩, ⟨1, 7, ["n"]⟩]

/-- An index of the visits by their field `c`, with masks of their field `k`. -/
def visitsIndex : Index :=
  ⟨3, .ofList [(1, .ofList [(0, 2), (2, 2)]), (2, .ofList [(0, 4)])],
    Index.within_of_all (by decide)⟩

/-- The visits with this index. -/
def visitsDatabase : Database Index where
  log := visits.log
  index := visitsIndex
  config := ⟨[.one "c"], some "k"⟩
  layout := ⟨[⟨[⟨0, 3, 1⟩], 0, 3⟩], 3, some 1⟩
  layout_eq := by decide
  size_eq := by decide

theorem build_visits :
    Database.build visits.log ⟨[.one "c"], some "k"⟩ = .ok visitsDatabase :=
  build_eq_ok visitsDatabase.layout_eq (by decide) visitsDatabase.size_eq

theorem leaf_visits : visitsDatabase.leaf "c=n" = .ok ⟨1, ⟨[]⟩⟩ := by
  have hparts : leafParts "c=n" = .ok ("c=n", "") := by decide +kernel
  have hread : Expression.parse ("".toList.map Dialect.extended.sign) = .ok none := by
    decide +kernel
  have hid : visitsDatabase.funnelOf (.text "c=n") = .ok 1 := by decide +kernel
  rw [leaf_of_read hparts (Formula.parse_of_expression hread)]
  unfold select
  rw [hid]
  rfl

theorem leaf_visits_word : visitsDatabase.leaf "c=b/w" = .ok ⟨2, ⟨[⟨4, 0⟩]⟩⟩ := by
  have hparts : leafParts "c=b/w" = .ok ("c=b", "w") := by decide +kernel
  have hread : Expression.parse ("w".toList.map Dialect.extended.sign)
      = .ok (some (.term "w")) := by decide +kernel
  have hid : visitsDatabase.funnelOf (.text "c=b") = .ok 2 := by decide +kernel
  rw [leaf_of_read hparts (Formula.parse_of_expression hread)]
  unfold select
  rw [hid]
  cbv

theorem query_visits : visitsDatabase.query "c=n & ~c=b/w"
    = .ok (.node [.leaf ⟨2, ⟨[⟨4, 0⟩]⟩⟩, .leaf ⟨1, ⟨[]⟩⟩] ⟨[⟨0, 1⟩, ⟨2, 0⟩]⟩) := by
  have hread : Expression.parse ("c=n & ~c=b/w".toList.map Dialect.standard.sign)
      = .ok (some (.and (.term "c=n") (.not (.term "c=b/w")))) := by decide +kernel
  have hliterals : ((Formula.term "c=n").and (Formula.term "c=b/w").not).literals
      = [.negative "c=b/w", .plain "c=n"] := by cbv
  let p (t : String) : Leaf := if t = "c=n" then ⟨1, ⟨[]⟩⟩ else ⟨2, ⟨[⟨4, 0⟩]⟩⟩
  have hp : ∀ l ∈ ((Formula.term "c=n").and (Formula.term "c=b/w").not).literals,
      visitsDatabase.leaf l.term = .ok (p l.term) := by
    rw [hliterals, List.forall_mem_cons, List.forall_mem_singleton]
    exact ⟨leaf_visits_word, leaf_visits⟩
  rw [query_of_leaves (Formula.parse_of_expression hread) hp (hliterals ▸ List.cons_ne_nil _ _)]
  cbv

theorem query_eq_scan_visits : ∃ db s, Database.build visits.log ⟨[.one "c"], some "k"⟩ = .ok db
    ∧ db.query "c=n & ~c=b/w" = .ok s
    ∧ ∃ (f : Formula String) (els : List Element), Formula.read .standard "c=n & ~c=b/w" = .ok f
      ∧ db.elements s = .ok (els.map .ok) ∧ (els.map (·.id)).Pairwise (· < ·)
      ∧ (∀ x, x ∈ els.map (·.id) ↔ visits.answers ⟨[.one "c"], some "k"⟩ f x = true)
      ∧ db.count s = .ok els.length :=
  ⟨_, _, build_visits, query_visits, query_eq_scan visits _ _ _ _ build_visits query_visits⟩

end Database

end Cohort
