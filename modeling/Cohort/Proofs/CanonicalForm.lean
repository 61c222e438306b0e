import Cohort.Proofs.TruthFunctions
import Mathlib.Data.List.Perm.Basic
import Mathlib.Data.List.Sections
import Mathlib.Data.Set.Basic

/-!
# Canonical form

Written out as lists of literals, the clauses of a formula are canonical: literals and clauses stand
in strictly ascending order, and no clause is empty (`Formula.canonical_lists`). A formula made of
any lists holds the sets of their literals but the empty one (`Formula.literalSets_ofLists`), so it
depends on neither order nor repetition, and a canonical list is left as it is.

The operations give the formula of the clauses that they put together, in whatever order they come
to them: a disjunction of a list is made of the unions that take one clause of each member
(`Formula.mem_any`), and disjunctions of two and negations are such disjunctions.
-/

namespace Cohort

open Ranked

variable {α : Type} [Ranked α]

/-- Literals stand by their terms, and the plain one of a term before the negated one. -/
def Literal.Before (a b : Literal α) : Prop :=
  rank a.term b.term = .lt ∨ a.term = b.term ∧ a.negated = false ∧ b.negated = true

instance [DecidableEq α] : DecidableRel (Literal.Before (α := α)) := fun a b =>
  inferInstanceAs (Decidable (rank a.term b.term = .lt
    ∨ a.term = b.term ∧ a.negated = false ∧ b.negated = true))

/-- Literals stand in strictly ascending order in each clause, clauses in strictly ascending order
as words of a dictionary, and no clause is empty. -/
structure Canonical (cs : List (List (Literal α))) : Prop where
  literals : ∀ c ∈ cs, c.Pairwise Literal.Before
  clauses : cs.Pairwise (List.Lex Literal.Before)
  nonempty : [] ∉ cs

/-- The sets of literals of some clauses. -/
def literalSets (cs : List (List (Literal α))) : Set (Set (Literal α)) :=
  {S | ∃ c ∈ cs, {l | l ∈ c} = S}

section Order

theorem rank_bool_iff {a b : Bool} : rank a b = .lt ↔ a = false ∧ b = true := by
  revert a b
  decide

theorem Literal.rank_iff {a b : Literal α} : rank a b = .lt ↔ a.Before b := by
  show (rank a.term b.term).then (rank a.negated b.negated) = .lt ↔ _
  rw [Ordering.then_eq_lt, level_iff, rank_bool_iff]
  rfl

theorem Literal.rank_list_iff : ∀ {c d : List (Literal α)},
    rank c d = .lt ↔ List.Lex Literal.Before c d
  | [], [] => ⟨nofun, nofun⟩
  | [], _ :: _ => ⟨fun _ => .nil, fun _ => rfl⟩
  | _ :: _, [] => ⟨nofun, nofun⟩
  | a :: c, b :: d => by
    show List.compareLex rank (a :: c) (b :: d) = .lt ↔ _
    rw [List.compareLex_cons_cons, Ordering.then_eq_lt, level_iff, Literal.rank_iff]
    show a.Before b ∨ a = b ∧ rank c d = .lt ↔ _
    rw [rank_list_iff]
    constructor
    · rintro (h | ⟨rfl, h⟩)
      · exact .rel h
      · exact .cons h
    · rintro (_ | h | h)
      · exact .inl h
      · exact .inr ⟨rfl, h⟩

end Order

namespace Formula

/-- The clauses, written out. -/
def lists (f : Formula α) : List (List (Literal α)) := f.clauses.toList.map (·.toList)

/-- The formula of some clauses, written out in any order. -/
def ofLists (cs : List (List (Literal α))) : Formula α := ofClauses (cs.map SortedSet.ofList)

variable {f g : Formula α} {c : Clause α} {cs ds : List (List (Literal α))}

theorem mem_lists {l : List (Literal α)} : l ∈ f.lists ↔ ∃ c ∈ f.clauses, c.toList = l :=
  List.mem_map

theorem mem_ofLists : c ∈ (ofLists cs).clauses
    ↔ (∃ l ∈ cs, SortedSet.ofList l = c) ∧ c ≠ SortedSet.empty := by
  unfold ofLists
  rw [mem_ofClauses, List.mem_map]

theorem canonical_lists (f : Formula α) : Canonical f.lists where
  literals := by
    intro l hl
    obtain ⟨c, -, rfl⟩ := mem_lists.1 hl
    exact c.ascending.imp Literal.rank_iff.1
  clauses := by
    unfold lists
    rw [List.pairwise_map]
    exact f.clauses.ascending.imp Literal.rank_list_iff.1
  nonempty := by
    intro h
    obtain ⟨c, hc, hnil⟩ := mem_lists.1 h
    exact ne_empty_of_mem hc (SortedSet.ext hnil)

theorem lists_ofLists (h : Canonical cs) : (ofLists cs).lists = cs := by
  have hlist : ∀ c ∈ cs, (SortedSet.ofList c).toList = c := fun c hc =>
    SortedSet.toList_ofList ((h.literals c hc).imp Literal.rank_iff.2)
  have hback : (cs.map SortedSet.ofList).map (·.toList) = cs := by
    rw [List.map_map]
    exact (List.map_congr_left hlist).trans (List.map_id cs)
  have hfull : (cs.map SortedSet.ofList).filter (!·.isEmpty) = cs.map SortedSet.ofList := by
    rw [List.filter_eq_self, List.forall_mem_map]
    intro c hc
    unfold SortedSet.isEmpty
    rw [hlist c hc]
    cases c with
    | nil => exact absurd hc h.nonempty
    | cons => rfl
  have hasc : Ascending (cs.map SortedSet.ofList) := by
    unfold Ascending
    rw [List.pairwise_map]
    refine h.clauses.imp_of_mem fun {c d} hc hd hcd => ?_
    show rank (SortedSet.ofList c).toList (SortedSet.ofList d).toList = .lt
    rw [hlist c hc, hlist d hd]
    exact Literal.rank_list_iff.2 hcd
  show (SortedSet.ofList ((cs.map SortedSet.ofList).filter (!·.isEmpty))).toList.map _ = _
  rw [hfull, SortedSet.toList_ofList hasc, hback]

theorem mem_literalSets_lists : {l | l ∈ c} ∈ literalSets f.lists ↔ c ∈ f.clauses := by
  constructor
  · rintro ⟨l, hl, hS⟩
    obtain ⟨d, hd, rfl⟩ := mem_lists.1 hl
    obtain rfl : d = c := SortedSet.ext_mem fun k => Set.ext_iff.1 hS k
    exact hd
  · intro hc
    exact ⟨_, mem_lists.2 ⟨c, hc, rfl⟩, rfl⟩

/-- A formula is determined by the sets of its clauses' literals. -/
theorem eq_iff_literalSets : f = g ↔ literalSets f.lists = literalSets g.lists := by
  refine ⟨fun h => h ▸ rfl, fun h => ext_mem fun c => ?_⟩
  rw [← mem_literalSets_lists, h, mem_literalSets_lists]

theorem literalSets_ofLists : literalSets (ofLists cs).lists = literalSets cs \ {∅} := by
  ext S
  constructor
  · rintro ⟨_, hd, rfl⟩
    obtain ⟨c, hc, rfl⟩ := mem_lists.1 hd
    obtain ⟨⟨l, hl, rfl⟩, hne⟩ := mem_ofLists.1 hc
    refine ⟨⟨l, hl, Set.ext fun k => SortedSet.mem_ofList.symm⟩, ?_⟩
    rintro he
    exact hne (SortedSet.ext_mem fun k =>
      iff_of_false (Set.eq_empty_iff_forall_notMem.1 he k) SortedSet.not_mem_empty)
  · rintro ⟨⟨l, hl, rfl⟩, hne⟩
    refine ⟨_, mem_lists.2 ⟨_, mem_ofLists.2 ⟨⟨l, hl, rfl⟩, fun he => hne ?_⟩, rfl⟩,
      Set.ext fun k => SortedSet.mem_ofList⟩
    refine Set.eq_empty_iff_forall_notMem.2 fun k hk => ?_
    exact SortedSet.not_mem_empty (he ▸ SortedSet.mem_ofList.2 hk)

theorem ofLists_eq_iff : ofLists cs = ofLists ds ↔ literalSets cs \ {∅} = literalSets ds \ {∅} := by
  rw [eq_iff_literalSets, literalSets_ofLists, literalSets_ofLists]

section Operations

variable {gs hs : List (Formula α)}

/-- A clause unites one clause of each formula. -/
def Unites (gs : List (Formula α)) (c : Clause α) : Prop :=
  ∃ s ∈ (gs.map lists).sections, SortedSet.ofList s.flatten = c

theorem unites_nil : Unites [] c ↔ c = SortedSet.empty := by
  simp [Unites, List.sections, SortedSet.ofList_nil, eq_comm]

theorem unites_cons : Unites (g :: gs) c ↔ ∃ d ∈ g.clauses, ∃ e, Unites gs e ∧ d.union e = c := by
  have hunion : ∀ (d : Clause α) (s : List (List (Literal α))),
      d.union (SortedSet.ofList s.flatten) = SortedSet.ofList (d.toList :: s).flatten := by
    intro d s
    refine SortedSet.ext_mem fun l => ?_
    rw [SortedSet.mem_union, SortedSet.mem_ofList, SortedSet.mem_ofList, List.flatten_cons,
      List.mem_append]
    rfl
  unfold Unites
  simp only [List.map_cons, List.sections, List.mem_flatMap, List.mem_map]
  constructor
  · rintro ⟨_, ⟨s, hs, l, hl, rfl⟩, rfl⟩
    obtain ⟨d, hd, rfl⟩ := mem_lists.1 hl
    exact ⟨d, hd, _, ⟨s, hs, rfl⟩, hunion d s⟩
  · rintro ⟨d, hd, _, ⟨s, hs, rfl⟩, rfl⟩
    exact ⟨_, ⟨s, hs, _, mem_lists.2 ⟨d, hd, rfl⟩, rfl⟩, (hunion d s).symm⟩

theorem unites_singleton : Unites [g] c ↔ c ∈ g.clauses := by
  simp only [unites_cons, unites_nil, exists_eq_left, SortedSet.union_empty, exists_eq_right]

theorem unites_append : Unites (gs ++ hs) c
    ↔ ∃ d, Unites gs d ∧ ∃ e, Unites hs e ∧ d.union e = c := by
  induction gs generalizing c with
  | nil =>
    simp only [List.nil_append, unites_nil, exists_eq_left, SortedSet.empty_union, exists_eq_right]
  | cons g gs ih =>
    simp only [List.cons_append, unites_cons, ih]
    constructor
    · rintro ⟨a, ha, _, ⟨b, hb, e, he, rfl⟩, rfl⟩
      exact ⟨_, ⟨a, ha, b, hb, rfl⟩, e, he, SortedSet.union_assoc a b e⟩
    · rintro ⟨_, ⟨a, ha, b, hb, rfl⟩, e, he, rfl⟩
      exact ⟨a, ha, _, ⟨b, hb, e, he, rfl⟩, (SortedSet.union_assoc a b e).symm⟩

theorem unites_of_perm (h : gs.Perm hs) (hc : Unites gs c) : Unites hs c := by
  obtain ⟨s, hs', rfl⟩ := hc
  obtain ⟨t, ht, hst⟩ := List.perm_comp_forall₂ (h.map lists).symm (List.mem_sections.1 hs').flip
  refine ⟨t, List.mem_sections.2 ht.flip, SortedSet.ext_mem fun l => ?_⟩
  rw [SortedSet.mem_ofList, SortedSet.mem_ofList]
  exact hst.flatten.mem_iff

theorem unites_perm (h : gs.Perm hs) : Unites gs c ↔ Unites hs c :=
  ⟨unites_of_perm h, unites_of_perm h.symm⟩

/-- Distributing one formula after the other unites one clause of each. -/
theorem mem_foldl_or : ∀ {gs : List (Formula α)} {f : Formula α}, f ≠ always →
    (∀ g ∈ gs, g ≠ always) → (c ∈ (gs.foldl Formula.or f).clauses ↔ Unites (f :: gs) c)
  | [], f, _, _ => unites_singleton.symm
  | g :: gs, f, hf, hgs => by
    obtain ⟨hg, hgs⟩ := List.forall_mem_cons.1 hgs
    rw [List.foldl_cons, mem_foldl_or (or_ne_always hf hg) hgs]
    simp only [unites_cons, mem_or hf hg]
    constructor
    · rintro ⟨_, ⟨a, ha, b, hb, rfl⟩, e, he, rfl⟩
      exact ⟨a, ha, _, ⟨b, hb, e, he, rfl⟩, (SortedSet.union_assoc a b e).symm⟩
    · rintro ⟨a, ha, _, ⟨b, hb, e, he, rfl⟩, rfl⟩
      exact ⟨_, ⟨a, ha, b, hb, rfl⟩, e, he, SortedSet.union_assoc a b e⟩

theorem lists_of_size (h : g.size = 1) : g.lists = [g.literals] := by
  obtain ⟨d, hd⟩ := List.length_eq_one_iff.1 h
  unfold lists literals
  rw [hd]
  simp

theorem sections_of_size : ∀ {gs : List (Formula α)}, (∀ g ∈ gs, g.size = 1) →
    (gs.map lists).sections = [gs.map literals]
  | [], _ => rfl
  | g :: gs, h => by
    obtain ⟨hg, hgs⟩ := List.forall_mem_cons.1 h
    rw [List.map_cons, List.sections, sections_of_size hgs, lists_of_size hg]
    rfl

theorem ne_empty_of_unites (hne : gs ≠ []) (h : Unites gs c) : c ≠ SortedSet.empty := by
  obtain ⟨g, gs, rfl⟩ := List.exists_cons_of_ne_nil hne
  obtain ⟨d, hd, e, -, rfl⟩ := unites_cons.1 h
  obtain ⟨l, hl⟩ := Clause.exists_mem_of_ne (ne_empty_of_mem hd)
  exact Clause.ne_empty_of_mem (SortedSet.mem_union.2 (.inl hl))

/-- Pooling formulas of one clause each unites their clauses. -/
theorem mem_pool (hne : gs ≠ []) (h : ∀ g ∈ gs, g.size = 1) :
    c ∈ (pool gs).clauses ↔ Unites gs c := by
  have hunites : Unites gs c ↔ c = SortedSet.ofList (gs.flatMap literals) := by
    unfold Unites
    rw [sections_of_size h]
    simp only [List.mem_singleton, exists_eq_left, List.flatMap, eq_comm]
  unfold pool
  rw [mem_ofClauses, List.mem_singleton, ← hunites]
  exact and_iff_left_of_imp (ne_empty_of_unites hne)

/-- The order in which a disjunction comes to its members does not matter: first those of one
clause, pooled, and then the others. -/
theorem mem_foldl_or_pool (hne : gs ≠ []) (hgs : ∀ g ∈ gs, g ≠ always) :
    c ∈ ((gs.filter (!·.size == 1)).foldl Formula.or (pool (gs.filter (·.size == 1)))).clauses
      ↔ Unites gs c := by
  have hperm := List.filter_append_perm (·.size == 1) gs
  have hseveral : ∀ g ∈ gs.filter (!·.size == 1), g ≠ always :=
    fun g hg => hgs g (List.mem_of_mem_filter hg)
  rw [← unites_perm hperm]
  by_cases hs : gs.filter (·.size == 1) = []
  · rw [hs, List.nil_append] at hperm ⊢
    have hne : gs.filter (!·.size == 1) ≠ [] := fun h => hne (hperm.symm.trans (h ▸ .nil)).eq_nil
    rw [pool_nil]
    generalize gs.filter (!·.size == 1) = several at hne hseveral
    obtain ⟨g, several, rfl⟩ := List.exists_cons_of_ne_nil hne
    obtain ⟨hg, hseveral⟩ := List.forall_mem_cons.1 hseveral
    rw [List.foldl_cons, always_or, mem_foldl_or hg hseveral]
  · have hsize : ∀ g ∈ gs.filter (·.size == 1), g.size = 1 := fun g hg => by
      simpa using List.of_mem_filter hg
    obtain ⟨hpool, -⟩ := eval_pool hs (fun g hg => hgs g (List.mem_of_mem_filter hg)) hsize
    rw [mem_foldl_or hpool hseveral, unites_cons, unites_append]
    simp only [mem_pool hs hsize]

/-- A disjunction of a list unites one clause of each formula that has clauses. -/
theorem mem_any {fs : List (Formula α)} : c ∈ (any fs).clauses
    ↔ Unites (fs.filter (!·.isEmpty)) c ∧ c ≠ SortedSet.empty := by
  unfold any
  rw [List.partition_eq_filter_filter]
  have hgs : ∀ g ∈ fs.filter (!·.isEmpty), g ≠ always := fun _ => ne_always_of_mem_filter
  generalize fs.filter (!·.isEmpty) = gs at hgs
  by_cases hne : gs = []
  · subst hne
    show c ∈ (pool []).clauses ↔ _
    rw [pool_nil]
    exact iff_of_false SortedSet.not_mem_empty fun h => h.2 (unites_nil.1 h.1)
  · exact (mem_foldl_or_pool hne hgs).trans
      (and_iff_left_of_imp (ne_empty_of_unites hne)).symm

theorem mem_any_of_ne (hne : gs ≠ []) (hgs : ∀ g ∈ gs, g ≠ always) :
    c ∈ (any gs).clauses ↔ Unites gs c := by
  have hfull : gs.filter (!·.isEmpty) = gs := by
    rw [List.filter_eq_self]
    exact fun g hg => by simpa using mt isEmpty_iff.1 (hgs g hg)
  rw [mem_any, hfull]
  exact and_iff_left_of_imp (ne_empty_of_unites hne)

theorem any_perm (h : gs.Perm hs) : any gs = any hs :=
  ext_mem fun c => by rw [mem_any, mem_any, unites_perm (h.filter _)]

theorem any_always_cons (fs : List (Formula α)) : any (always :: fs) = any fs := rfl

theorem any_singleton (g : Formula α) : any [g] = g := by
  by_cases hg : g = always
  · subst hg
    exact (any_always_cons []).trans pool_nil
  · refine ext_mem fun c => ?_
    rw [mem_any_of_ne (List.cons_ne_nil _ _) (by simpa using hg), unites_singleton]

/-- A disjunction of two is one of a list. -/
theorem or_eq_any (f g : Formula α) : f.or g = any [f, g] := by
  by_cases hf : f = always
  · rw [hf, always_or, any_always_cons, any_singleton]
  by_cases hg : g = always
  · rw [hg, or_always, any_perm (.swap _ _ _), any_always_cons, any_singleton]
  refine ext_mem fun c => ?_
  rw [mem_any_of_ne (List.cons_ne_nil _ _) (by simp [hf, hg]), mem_or hf hg, unites_cons]
  simp only [unites_singleton]

/-- A negation is the disjunction of the negated clauses. -/
theorem not_eq_any (f : Formula α) : f.not = any (f.clauses.toList.map Clause.not) := by
  have hns : ∀ g ∈ f.clauses.toList.map Clause.not, g ≠ always := by
    rw [List.forall_mem_map]
    exact fun c hc => clauseNot_ne_always (ne_empty_of_mem hc)
  unfold Formula.not
  generalize f.clauses.toList = cs at hns
  cases cs with
  | nil => exact pool_nil.symm
  | cons d ds =>
    rw [List.map_cons] at hns ⊢
    obtain ⟨hd, hds⟩ := List.forall_mem_cons.1 hns
    refine ext_mem fun c => ?_
    rw [mem_any_of_ne (List.cons_ne_nil _ _) hns]
    show c ∈ (ds.foldl (fun g d => g.or (Clause.not d)) (Clause.not d)).clauses ↔ _
    rw [← List.foldl_map, mem_foldl_or hd hds]

theorem any_eq_ofLists (fs : List (Formula α)) : any fs
    = ofLists (((fs.filter (!·.isEmpty)).map lists).sections.map List.flatten) :=
  ext_mem fun c => by simp [mem_any, mem_ofLists, Unites]

theorem ofLists_toList (cs : List (Clause α)) : ofLists (cs.map (·.toList)) = ofClauses cs := by
  unfold ofLists
  rw [List.map_map]
  exact congrArg ofClauses ((List.map_congr_left fun c _ => c.ofList_toList).trans (List.map_id cs))

theorem ofLists_lists (f : Formula α) : ofLists f.lists = f :=
  (ofLists_toList f.clauses.toList).trans f.ofClauses_toList

theorem ofLists_singletons {β : Type} (k : β → Literal α) (ts : List β) :
    ofLists (ts.map fun t => [k t]) = ofClauses (ts.map fun t => SortedSet.singleton (k t)) := by
  unfold ofLists
  rw [List.map_map]
  exact congrArg ofClauses (List.map_congr_left fun t _ => SortedSet.ofList_singleton (k t))

theorem and_eq_ofLists (f g : Formula α) : f.and g = ofLists (f.lists ++ g.lists) := by
  unfold lists
  rw [← List.map_append, ofLists_toList]
  refine ext_mem fun c => ?_
  rw [mem_and, mem_ofClauses, List.mem_append]
  exact (and_iff_left_of_imp fun h => h.elim ne_empty_of_mem ne_empty_of_mem).symm

theorem all_eq_ofLists (fs : List (Formula α)) : all fs = ofLists (fs.flatMap lists) := by
  unfold all lists
  rw [← List.map_flatMap, ofLists_toList]

theorem map_eq_ofLists {β : Type} [Ranked β] (h : α → β) (f : Formula α) :
    f.map h = ofLists (f.lists.map fun c => c.map (·.map h)) := by
  unfold ofLists lists
  rw [List.map_map, List.map_map]
  rfl

theorem tryMap_eq_ofLists {β ε : Type} [Ranked β] (h : α → Except ε β) (f : Formula α) :
    f.tryMap h = ofLists <$> f.lists.mapM fun c =>
      c.mapM fun l => do return Literal.mk (← h l.term) l.negated := by
  unfold tryMap lists ofLists
  simp only [bind_pure_comp, mapM_map_results, List.mapM_map, Functor.map_map]
  rfl

/-- Each operation gives the formula of the clauses that it puts together. -/
structure Operations (α : Type) [Ranked α] : Prop where
  term : ∀ t : α, Formula.term t = ofLists [[.plain t]]
  anyOf : ∀ ts : List α, anyOf ts = ofLists [ts.map .plain]
  notAllOf : ∀ ts : List α, notAllOf ts = ofLists [ts.map .negative]
  allOf : ∀ ts : List α, allOf ts = ofLists (ts.map fun t => [.plain t])
  noneOf : ∀ ts : List α, noneOf ts = ofLists (ts.map fun t => [.negative t])
  and : ∀ f g : Formula α, f.and g = ofLists (f.lists ++ g.lists)
  all : ∀ fs : List (Formula α), Formula.all fs = ofLists (fs.flatMap lists)
  or : ∀ f g : Formula α, f.or g = Formula.any [f, g]
  any : ∀ fs : List (Formula α), Formula.any fs
    = ofLists (((fs.filter (!·.isEmpty)).map lists).sections.map List.flatten)
  clauseNot : ∀ c : Clause α, Clause.not c = ofLists (c.toList.map fun l => [l.not])
  not : ∀ f : Formula α, f.not = Formula.any (f.clauses.toList.map Clause.not)
  map : ∀ {β : Type} [Ranked β] (h : α → β) (f : Formula α),
    f.map h = ofLists (f.lists.map fun c => c.map (·.map h))
  tryMap : ∀ {β ε : Type} [Ranked β] (h : α → Except ε β) (f : Formula α),
    f.tryMap h = ofLists <$> f.lists.mapM fun c =>
      c.mapM fun l => do return Literal.mk (← h l.term) l.negated

theorem operations : Operations α where
  term t := (ofLists_singletons Literal.plain [t]).symm
  anyOf _ := rfl
  notAllOf _ := rfl
  allOf ts := (ofLists_singletons Literal.plain ts).symm
  noneOf ts := (ofLists_singletons Literal.negative ts).symm
  and := and_eq_ofLists
  all := all_eq_ofLists
  or := or_eq_any
  any := any_eq_ofLists
  clauseNot c := (ofLists_singletons Literal.not c.toList).symm
  not := not_eq_any
  map := map_eq_ofLists
  tryMap := tryMap_eq_ofLists

end Operations

/-- Formulas are the canonical lists of clauses: they are determined by the sets of their literals,
and what is made of any clauses depends on nothing but the sets of these, without the empty one. So
do the operations, each of which is made of the clauses that it puts together. -/
theorem canonical_form (α : Type) [Ranked α] :
    (∀ f : Formula α, Canonical f.lists ∧ ofLists f.lists = f)
      ∧ (∀ cs : List (List (Literal α)), Canonical cs → (ofLists cs).lists = cs)
      ∧ (∀ f g : Formula α, f = g ↔ literalSets f.lists = literalSets g.lists)
      ∧ (∀ cs ds : List (List (Literal α)),
        ofLists cs = ofLists ds ↔ literalSets cs \ {∅} = literalSets ds \ {∅})
      ∧ Operations α :=
  ⟨fun f => ⟨canonical_lists f, ofLists_lists f⟩, fun _ => lists_ofLists,
    fun _ _ => eq_iff_literalSets, fun _ _ => ofLists_eq_iff, operations⟩

example : (ofLists [[.negative 2, .plain 1], [], [.plain 1, .negative 2], [.plain 1]]).lists
    = [[.plain 1], [.plain 1, .negative 2]] := by
  cbv

end Formula

end Cohort
