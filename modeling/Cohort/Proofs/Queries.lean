import Cohort.Proofs.Compilation
import Cohort.Proofs.FormulaText
import Cohort.Proofs.Join
import Cohort.Proofs.Repeats
import Cohort.Database.Query
import Mathlib.Data.Finset.Card

/-!
# What queries make

A query makes a selection exactly when its text is that of a formula with terms, every term is a
leaf, and these are no more than 64 different ones; if they are more, the capacity is exceeded
(`Database.query_exact`). Its parts are the leaves, in the order in which the formula first comes to
them, and it has an entity exactly when the formula is true of the leaves that have it.

Different terms may come to one leaf. The formula over the numbers of the parts, which the query
compiles, has every part's number for a term and no others (`Database.exists_membership`).
-/

namespace Cohort

namespace Database

variable {ε : Type} [Evaluator ε] {db : Database ε} {text : String} {f : Formula String}

/-- The terms of a query's text, from left to right. -/
def terms (text : String) : List String := Token.terms (Formula.tokens .standard text)

/-- The leaves among some texts. -/
def leavesOf (db : Database ε) (texts : List String) : List Leaf :=
  texts.filterMap fun t => (db.leaf t).toOption

/-- The leaves that a formula comes to, one after the other. -/
def visited (db : Database ε) (f : Formula String) : List Leaf :=
  db.leavesOf (f.literals.map (·.term))

/-- The different leaves of a formula, in the order in which it first comes to them. -/
def parts (db : Database ε) (f : Formula String) : List Leaf := (db.visited f).eraseDups

/-- Whether an entity of an index is in the leaf of a text. -/
def inLeaf (db : Database ε) (index : Index) (x : EntityId) (text : String) : Bool :=
  (db.leaf text).toOption.any fun p => index.has x (.leaf p)

/-- A text is that of a formula whose terms are leaves. -/
structure Asks (db : Database ε) (text : String) (f : Formula String) : Prop where
  parse : Formula.parse .standard text = .ok f
  leaf : ∀ t ∈ terms text, ∃ p, db.leaf t = .ok p

/-- The leaves of a text are the parts of a selection, in the order in which the formula first comes
to them, and the selection has what the formula says of them. -/
structure Combines (db : Database ε) (text : String) (f : Formula String) (parts : List Leaf)
    (s : Selection) : Prop where
  node : ∃ test, s = .node (parts.map .leaf) test
  distinct : parts.Nodup
  mem : ∀ p, p ∈ parts ↔ ∃ t ∈ terms text, db.leaf t = .ok p
  order : parts.Pairwise fun p q => (db.visited f).idxOf p < (db.visited f).idxOf q
  has : ∀ (index : Index) (x : EntityId), index.has x s = f.eval (db.inLeaf index x)

theorem read_eq_ok_iff {dialect : Dialect} :
    Formula.read dialect text = .ok f ↔ Formula.parse dialect text = .ok f := by
  unfold Formula.read
  cases Formula.parse dialect text <;> simp [Except.mapError]

theorem leaf_of_read {key mask : String} (hparts : leafParts text = .ok (key, mask))
    (hf : Formula.parse .extended mask = .ok f) : db.leaf text = db.select (.text key) f := by
  unfold leaf
  rw [hparts]
  show (do db.select (.text key) (← Formula.read .extended mask)) = _
  rw [read_eq_ok_iff.2 hf]
  rfl

theorem mem_leavesOf {texts : List String} {p : Leaf} :
    p ∈ db.leavesOf texts ↔ ∃ t ∈ texts, db.leaf t = .ok p := by
  unfold leavesOf
  rw [List.mem_filterMap]
  refine exists_congr fun t => and_congr_right fun _ => ?_
  cases db.leaf t <;> simp [Except.toOption]

theorem forall_literals_iff (h : Formula.parse .standard text = .ok f) {p : String → Prop} :
    (∀ l ∈ f.literals, p l.term) ↔ ∀ t ∈ terms text, p t := by
  rw [← Formula.forall_terms_iff]
  simp only [Formula.mem_terms_of_parse h]
  rfl

theorem mem_parts {p : Leaf} : p ∈ db.parts f ↔ ∃ l ∈ f.literals, db.leaf l.term = .ok p := by
  unfold parts visited
  rw [List.mem_eraseDups, mem_leavesOf]
  simp

theorem mem_parts_of_parse (h : Formula.parse .standard text = .ok f) {p : Leaf} :
    p ∈ db.parts f ↔ ∃ t ∈ terms text, db.leaf t = .ok p := by
  have := forall_literals_iff h (p := fun t => db.leaf t ≠ .ok p)
  rw [mem_parts]
  simpa using not_congr this

/-- The number of the part that a text's leaf is. -/
def slot (db : Database ε) (f : Formula String) (t : String) : Except Error Nat := do
  return (db.parts f).idxOf (← db.leaf t)

theorem slot_eq_ok_iff {t : String} {i : Nat} :
    db.slot f t = .ok i ↔ ∃ p, db.leaf t = .ok p ∧ (db.parts f).idxOf p = i := by
  unfold slot
  simp only [bind_eq_ok_iff, pure_eq_ok_iff]

theorem mapM_leaf (h : db.Asks text f) :
    (f.literals.mapM fun l => db.leaf l.term) = .ok (db.visited f) := by
  refine mapM_eq_ok_iff_filterMap.2 ⟨(forall_literals_iff h.parse).2 h.leaf, ?_⟩
  unfold visited leavesOf
  rw [List.filterMap_map]
  rfl

/-- The steps that are left once the leaves are known. -/
theorem query_of_asks (h : db.Asks text f) (hne : db.parts f ≠ []) {m : Formula Nat}
    (hm : f.tryMap (db.slot f) = .ok m) :
    db.query text = (MaskTest.compile .ok m >>= Selection.combine ((db.parts f).map .leaf)) := by
  unfold query
  rw [read_eq_ok_iff.2 h.parse]
  show (f.literals.mapM (fun l => db.leaf l.term) >>= _) = _
  rw [mapM_leaf h]
  show (if (db.parts f).isEmpty = true then _ else f.tryMap (db.slot f) >>= _) = _
  rw [if_neg (by simpa using hne), hm]
  rfl

/-- What a query makes, given its formula and the leaf of each term. -/
theorem query_of_leaves {p : String → Leaf} (hf : Formula.parse .standard text = .ok f)
    (hp : ∀ l ∈ f.literals, db.leaf l.term = .ok (p l.term)) (hne : f.literals ≠ []) :
    db.query text
      = let ps := (f.literals.map fun l => p l.term).eraseDups
        MaskTest.compile .ok (f.map fun t => ps.idxOf (p t))
          >>= Selection.combine (ps.map .leaf) := by
  have hasks : db.Asks text f := ⟨hf, (forall_literals_iff hf).1 fun l hl => ⟨_, hp l hl⟩⟩
  have hvisited : db.visited f = f.literals.map fun l => p l.term := by
    refine Except.ok.inj ((mapM_leaf hasks).symm.trans (mapM_eq_ok_iff.2 ?_))
    rw [List.forall₂_map_right_iff, List.forall₂_same]
    exact hp
  have hparts : db.parts f = (f.literals.map fun l => p l.term).eraseDups := by
    unfold parts
    rw [hvisited]
  have hslot : f.tryMap (db.slot f) = .ok (f.map fun t => (db.parts f).idxOf (p t)) :=
    Formula.tryMap_eq_map fun l hl => slot_eq_ok_iff.2 ⟨_, hp l hl, rfl⟩
  obtain ⟨l, hl⟩ := List.exists_mem_of_ne_nil _ hne
  have hmem : p l.term ∈ db.parts f := mem_parts.2 ⟨l, hl, hp l hl⟩
  rw [query_of_asks hasks (List.ne_nil_of_mem hmem) hslot, hparts]

theorem exists_asks {s : Selection} (hs : db.query text = .ok s) :
    ∃ f, db.Asks text f ∧ db.parts f ≠ [] := by
  unfold query at hs
  simp only [bind_eq_ok_iff, guard_eq_ok_iff, mapM_eq_ok_iff_filterMap, read_eq_ok_iff] at hs
  obtain ⟨f, hf, ls, ⟨hleaf, rfl⟩, hne, -⟩ := hs
  refine ⟨f, ⟨hf, (forall_literals_iff hf).1 hleaf⟩, ?_⟩
  unfold parts visited leavesOf
  rw [List.filterMap_map]
  simpa using hne

/-- The formula over the numbers of the parts has all these numbers for terms, and no others. -/
theorem exists_membership (h : db.Asks text f) :
    ∃ m, f.tryMap (db.slot f) = .ok m ∧ ∀ i, i ∈ m.terms ↔ i < (db.parts f).length := by
  have hslot : ∀ l ∈ f.literals, ∃ i, db.slot f l.term = .ok i := by
    intro l hl
    obtain ⟨p, hp⟩ := (forall_literals_iff h.parse).2 h.leaf l hl
    exact ⟨_, slot_eq_ok_iff.2 ⟨p, hp, rfl⟩⟩
  obtain ⟨m, hm⟩ := Formula.exists_tryMap_iff.2 hslot
  refine ⟨m, hm, fun i => ?_⟩
  simp only [Formula.mem_terms, Formula.mem_literals_tryMap hm, slot_eq_ok_iff]
  constructor
  · rintro ⟨_, ⟨l, hl, _, ⟨p, hlp, rfl⟩, rfl⟩, rfl⟩
    exact List.idxOf_lt_length_of_mem (mem_parts.2 ⟨l, hl, hlp⟩)
  · intro hi
    obtain ⟨l, hl, hlp⟩ := mem_parts.1 (List.getElem_mem hi)
    have hidx := (nodup_eraseDups (db.visited f)).idxOf_getElem i hi
    exact ⟨_, ⟨l, hl, i, ⟨_, hlp, hidx⟩, rfl⟩, rfl⟩

/-- Parts that a node has room for are combined. -/
theorem exists_query_of_asks (h : db.Asks text f) (hne : db.parts f ≠ [])
    (hle : (db.parts f).length ≤ 64) : ∃ s, db.query text = .ok s := by
  obtain ⟨m, hm, hterms⟩ := exists_membership h
  obtain ⟨test, ht⟩ := MaskTest.exists_compile_iff.2 fun i hi =>
    ⟨i, Nat.lt_of_lt_of_le ((hterms i).1 hi) hle, rfl⟩
  rw [query_of_asks h hne hm, ht]
  refine ⟨_, Selection.combine_eq_ok_iff.2 ⟨by simpa using hne, by simpa using hle, ?_, rfl⟩⟩
  intro c hc i hi
  obtain ⟨l, hl, hli⟩ := MaskTest.position_of_compile ht hc hi
  cases hli
  rw [List.length_map]
  exact (hterms _).1 (Formula.mem_terms.2 ⟨l, hl, rfl⟩)

/-- With more parts, some part's number is beyond the positions of masks. -/
theorem query_of_many (h : db.Asks text f) (hlt : 64 < (db.parts f).length) :
    ∃ i ≥ 64, db.query text = .error (.capacity (.position i)) := by
  obtain ⟨m, hm, hterms⟩ := exists_membership h
  have hne : db.parts f ≠ [] := List.ne_nil_of_length_pos (Nat.lt_trans (by decide) hlt)
  rw [query_of_asks h hne hm]
  cases ht : MaskTest.compile .ok m with
  | ok test =>
    obtain ⟨i, hi, h64⟩ := MaskTest.exists_compile_iff.1 ⟨test, ht⟩ 64 ((hterms 64).2 hlt)
    cases h64
    exact absurd hi (Nat.lt_irrefl 64)
  | error e =>
    obtain ⟨-, l, -, -, -, hbad | ⟨i, hi, -, rfl⟩⟩ := MaskTest.compile_eq_error_iff.1 ht
    · exact nomatch hbad
    · exact ⟨i, hi, rfl⟩

theorem exists_query_iff : (∃ s, db.query text = .ok s)
    ↔ ∃ f, db.Asks text f ∧ db.parts f ≠ [] ∧ (db.parts f).length ≤ 64 := by
  constructor
  · rintro ⟨s, hs⟩
    obtain ⟨f, hf, hne⟩ := exists_asks hs
    refine ⟨f, hf, hne, Nat.not_lt.1 fun hlt => ?_⟩
    obtain ⟨i, -, hi⟩ := query_of_many hf hlt
    exact nomatch hs.symm.trans hi
  · rintro ⟨f, hf, hne, hle⟩
    exact exists_query_of_asks hf hne hle

theorem combines_of_query (h : db.Asks text f) (hne : db.parts f ≠ []) {s : Selection}
    (hs : db.query text = .ok s) : db.Combines text f (db.parts f) s := by
  obtain ⟨m, hm, -⟩ := exists_membership h
  rw [query_of_asks h hne hm, bind_eq_ok_iff] at hs
  obtain ⟨test, ht, hs⟩ := hs
  obtain ⟨-, h64, -, rfl⟩ := Selection.combine_eq_ok_iff.1 hs
  rw [List.length_map] at h64
  refine ⟨⟨test, rfl⟩, nodup_eraseDups _, fun p => mem_parts_of_parse h.parse,
    pairwise_eraseDups _, fun index x => ?_⟩
  rw [Index.has_node, MaskTest.accepts_compile ht]
  refine Formula.eval_of_tryMap hm fun l hl i hi => ?_
  obtain ⟨p, hlp, rfl⟩ := slot_eq_ok_iff.1 hi
  have hmem : p ∈ db.parts f := mem_parts.2 ⟨l, hl, hlp⟩
  have hget : (db.parts f)[(db.parts f).idxOf p]? = some p := List.getElem?_idxOf hmem
  have hlt := Nat.lt_of_lt_of_le (List.idxOf_lt_length_of_mem hmem) h64
  unfold inLeaf
  rw [hlp, MaskTest.reading_of_ok rfl, Bool.eq_iff_iff, Index.getLsbD_membership]
  simp [Except.toOption, hlt, hget]

theorem parts_eq_nil_iff (h : db.Asks text f) : db.parts f = [] ↔ terms text = [] := by
  simp only [List.eq_nil_iff_forall_not_mem, mem_parts_of_parse h.parse]
  constructor
  · intro hp t ht
    obtain ⟨p, hlp⟩ := h.leaf t ht
    exact hp p ⟨t, ht, hlp⟩
  · rintro hnil p ⟨t, ht, -⟩
    exact hnil t ht

theorem length_parts (h : db.Asks text f) :
    (db.parts f).length = (db.leavesOf (terms text)).toFinset.card := by
  have hset : (db.parts f).toFinset = (db.leavesOf (terms text)).toFinset := by
    ext p
    rw [List.mem_toFinset, List.mem_toFinset, mem_parts_of_parse h.parse, mem_leavesOf]
  exact hset ▸ (List.toFinset_card_of_nodup (nodup_eraseDups (db.visited f))).symm

theorem Combines.leaves {parts : List Leaf} {s : Selection} (h : db.Combines text f parts s) :
    s.leaves = parts := by
  obtain ⟨test, rfl⟩ := h.node
  rw [Selection.leaves, Selection.leavesAll_map_leaf]

/-- A text makes a selection exactly when it is that of a formula with terms which are all leaves,
and no more than 64 different ones. If they are all leaves but more, the capacity is exceeded. The
selection combines the leaves as the formula says. -/
theorem query_exact (db : Database ε) (text : String) :
    ((∃ s, db.query text = .ok s) ↔ (∃ f, db.Asks text f) ∧ terms text ≠ []
        ∧ (db.leavesOf (terms text)).toFinset.card ≤ 64)
      ∧ ((∃ f, db.Asks text f) → 64 < (db.leavesOf (terms text)).toFinset.card →
        ∃ i ≥ 64, db.query text = .error (.capacity (.position i)))
      ∧ ∀ s, db.query text = .ok s → ∃ f parts, db.Asks text f ∧ db.Combines text f parts s := by
  refine ⟨⟨fun hs => ?_, ?_⟩, ?_, ?_⟩
  · obtain ⟨f, hf, hne, hle⟩ := exists_query_iff.1 hs
    exact ⟨⟨f, hf⟩, mt (parts_eq_nil_iff hf).2 hne, length_parts hf ▸ hle⟩
  · rintro ⟨⟨f, hf⟩, hne, hle⟩
    exact exists_query_iff.2 ⟨f, hf, mt (parts_eq_nil_iff hf).1 hne, length_parts hf ▸ hle⟩
  · rintro ⟨f, hf⟩ hlt
    exact query_of_many hf (length_parts hf ▸ hlt)
  · intro s hs
    obtain ⟨f, hf, hne⟩ := exists_asks hs
    exact ⟨f, _, hf, combines_of_query hf hne hs⟩

/-- Two texts of the leaf without a key share a part. -/
example : (Database.mk (Log.empty ["c"]) (Index.empty 1) ⟨[.one "c"], none⟩
    ⟨[⟨[⟨0, 1, 1⟩], 0, 1⟩], 1, none⟩ rfl rfl).query "/ | ~,"
      = .ok (.node [.leaf ⟨0, .always⟩] ⟨[⟨1, 1⟩]⟩) := by
  cbv

end Database

end Cohort
