import Cohort.Proofs.Algebra
import Mathlib.Data.List.Permutation

/-!
# Replaced terms

Replacing the terms of a formula replaces those of its literals, clause by clause
(`Formula.mem_map`). The order in which literals and clauses stand follows the new terms, so terms
that are replaced once more (`Formula.map_map`) or get their old selves back (`Formula.map_eq_self`)
give equal formulas and not merely equivalent ones. Literals and clauses that become equal merge,
and still the formula has the truth value that it had when each term has that of its replacement
(`Formula.eval_map`).

Replacing that could fail but does not is plain replacing (`Formula.tryMap_eq_map`,
`Formula.tryMap_map`). If it fails, it is for the first literal, in canonical order, whose term has
no replacement (`Formula.tryMap_eq_error_iff`).
-/

namespace Cohort

variable {α β γ : Type} [Ranked α] [Ranked β] [Ranked γ] {g g' : α → β} {h : β → γ}

namespace Clause

variable {c : Clause α}

theorem mem_map {k : Literal β} : k ∈ c.map g ↔ ∃ l ∈ c, l.map g = k := by
  unfold Clause.map
  rw [SortedSet.mem_ofList, List.mem_map]
  rfl

theorem map_ne_empty (hc : c ≠ SortedSet.empty) : c.map g ≠ SortedSet.empty := by
  obtain ⟨l, hl⟩ := exists_mem_of_ne hc
  exact ne_empty_of_mem (mem_map.2 ⟨l, hl, rfl⟩)

theorem map_map : (c.map g).map h = c.map (h ∘ g) :=
  SortedSet.ext_mem fun k => by
    simp only [mem_map, exists_exists_and_eq_and]
    rfl

theorem map_congr (hg : ∀ l ∈ c, g l.term = g' l.term) : c.map g = c.map g' :=
  SortedSet.ext_mem fun k => by
    rw [mem_map, mem_map]
    refine exists_congr fun l => and_congr_right fun hl => ?_
    unfold Literal.map
    rw [hg l hl]

theorem eval_map (c : Clause α) (g : α → β) (v : β → Bool) :
    (c.map g).eval v = c.eval (v ∘ g) := by
  rw [Bool.eq_iff_iff, eval_eq_true_iff, eval_eq_true_iff]
  simp only [mem_map, exists_exists_and_eq_and]
  rfl

theorem map_id (c : Clause α) : c.map id = c := by
  unfold Clause.map
  rw [show (fun l : Literal α => l.map id) = id from rfl, List.map_id, SortedSet.ofList_toList]

end Clause

namespace Formula

variable {f : Formula α}

theorem mem_map {d : Clause β} : d ∈ (f.map g).clauses ↔ ∃ c ∈ f.clauses, c.map g = d := by
  unfold Formula.map
  rw [mem_ofClauses, List.mem_map]
  refine and_iff_left_of_imp ?_
  rintro ⟨c, hc, rfl⟩
  exact Clause.map_ne_empty (ne_empty_of_mem hc)

theorem ofClauses_nil : ofClauses [] = (always : Formula α) :=
  ext_mem fun _ => mem_ofClauses.trans (iff_of_false (fun h => nomatch h.1) nofun)

theorem map_always : (always : Formula α).map g = always := ofClauses_nil

theorem map_map : (f.map g).map h = f.map (h ∘ g) :=
  ext_mem fun d => by simp only [mem_map, exists_exists_and_eq_and, Clause.map_map]

theorem map_congr (hg : ∀ l ∈ f.literals, g l.term = g' l.term) : f.map g = f.map g' :=
  ext_mem fun d => by
    rw [mem_map, mem_map]
    refine exists_congr fun c => and_congr_right fun hc => ?_
    rw [Clause.map_congr fun l hl => hg l (mem_literals.2 ⟨c, hc, hl⟩)]

theorem eval_map (f : Formula α) (g : α → β) (v : β → Bool) :
    (f.map g).eval v = f.eval (v ∘ g) := by
  rw [Bool.eq_iff_iff, eval_eq_true_iff, eval_eq_true_iff]
  simp only [mem_map, forall_exists_index, and_imp, forall_apply_eq_imp_iff₂, Clause.eval_map]

theorem map_id (f : Formula α) : f.map id = f :=
  ext_mem fun d => by simp only [mem_map, Clause.map_id, exists_eq_right]

theorem map_eq_self {g : α → α} (hg : ∀ l ∈ f.literals, g l.term = l.term) : f.map g = f :=
  (map_congr hg).trans (map_id f)

theorem mem_literals_map {k : Literal β} :
    k ∈ (f.map g).literals ↔ ∃ l ∈ f.literals, l.map g = k := by
  simp only [mem_literals, mem_map, exists_exists_and_eq_and, Clause.mem_map]
  exact ⟨fun ⟨c, hc, l, hl, hk⟩ => ⟨l, ⟨c, hc, hl⟩, hk⟩,
    fun ⟨l, ⟨c, hc, hl⟩, hk⟩ => ⟨c, hc, l, hl, hk⟩⟩

/-- Replacing that succeeds for every term replaces them all. -/
theorem tryMap_eq_map {ε : Type} {k : α → Except ε β}
    (hk : ∀ l ∈ f.literals, k l.term = .ok (g l.term)) : f.tryMap k = .ok (f.map g) := by
  unfold tryMap
  simp only [bind_eq_ok_iff, pure_eq_ok_iff, mapM_eq_ok_iff]
  refine ⟨f.clauses.toList.map (Clause.map g), ?_, rfl⟩
  rw [List.forall₂_map_right_iff, List.forall₂_same]
  intro c hc
  refine ⟨c.toList.map (·.map g), ?_, rfl⟩
  rw [List.forall₂_map_right_iff, List.forall₂_same]
  exact fun l hl => ⟨_, hk l (mem_literals.2 ⟨c, hc, hl⟩), rfl⟩

theorem tryMap_map {ε : Type} {g : α → β} {k : β → Except ε γ} {h : α → γ}
    (hk : ∀ l ∈ f.literals, k (g l.term) = .ok (h l.term)) :
    (f.map g).tryMap k = .ok (f.map h) := by
  by_cases hf : f = always
  · subst hf
    rw [map_always, map_always]
    exact congrArg Except.ok ofClauses_nil
  -- some term stands in for what the others, those of no literal, would be replaced by
  obtain ⟨t, -⟩ := exists_mem_terms hf
  have hback : ∀ l ∈ f.literals, (k (g l.term)).toOption.getD (h t) = h l.term := by
    intro l hl
    rw [hk l hl]
    rfl
  have htotal : ∀ m ∈ (f.map g).literals, k m.term = .ok ((k m.term).toOption.getD (h t)) := by
    intro m hm
    obtain ⟨l, hl, rfl⟩ := mem_literals_map.1 hm
    exact (hk l hl).trans (congrArg Except.ok (hback l hl).symm)
  rw [tryMap_eq_map (g := fun b => (k b).toOption.getD (h t)) htotal, map_map]
  exact congrArg Except.ok (map_congr hback)

theorem error?_tryMap {ε : Type} (k : α → Except ε β) (f : Formula α) :
    error? (f.tryMap k) = f.literals.findSome? fun l => error? (k l.term) := by
  unfold tryMap literals
  rw [error?_bind_pure, error?_mapM, findSome?_flatMap]
  simp only [error?_bind_pure, error?_mapM]

/-- The error is that of the first literal whose term has no replacement. -/
theorem tryMap_eq_error_iff {ε : Type} {k : α → Except ε β} {e : ε} : f.tryMap k = .error e
    ↔ ∃ done l rest, f.literals = done ++ l :: rest ∧ (∀ m ∈ done, ∃ u, k m.term = .ok u)
      ∧ k l.term = .error e := by
  rw [← error?_eq_some_iff, error?_tryMap, List.findSome?_eq_some_iff]
  refine exists_congr fun done => exists_congr fun l => exists_congr fun rest => ?_
  simp only [error?_eq_some_iff, error?_eq_none_iff]
  exact and_congr_right fun _ => and_comm

/-- A formula with its terms replaced says of the replacements what the formula says of its terms,
and replacing them in two steps is replacing them at once. Replacing that could fail succeeds
exactly when every term has a replacement, and is plain replacing then; otherwise its error is that
of the first literal, in canonical order, whose term has none. -/
theorem map_substitutes {ε : Type} :
    (∀ (f : Formula α) (g : α → β) (v : β → Bool), (f.map g).eval v = f.eval (v ∘ g))
      ∧ (∀ (f : Formula α) (g : α → β) (h : β → γ), f.map (h ∘ g) = (f.map g).map h)
      ∧ ∀ (f : Formula α) (k : α → Except ε β),
        ((∃ f', f.tryMap k = .ok f') ↔ ∀ t ∈ f.terms, ∃ u, k t = .ok u)
          ∧ (∀ g : α → β, (∀ t ∈ f.terms, k t = .ok (g t)) → f.tryMap k = .ok (f.map g))
          ∧ ∀ e, f.tryMap k = .error e
            ↔ ∃ done l rest, f.literals = done ++ l :: rest
              ∧ (∀ m ∈ done, ∃ u, k m.term = .ok u) ∧ k l.term = .error e := by
  refine ⟨eval_map, fun f g h => map_map.symm, fun f k => ⟨?_, fun g hg => ?_, fun e => ?_⟩⟩
  · rw [exists_tryMap_iff, forall_terms_iff]
  · exact tryMap_eq_map (forall_terms_iff.1 hg)
  · exact tryMap_eq_error_iff

/-- Both terms have the same replacement, and the literals become one. -/
theorem map_substitutes_merging :
    (∀ t ∈ (anyOf ["b", "a"]).terms,
        (if t = "c" then .error t else .ok t.length : Except String Nat) = .ok t.length)
      ∧ (anyOf ["b", "a"]).tryMap
          (fun t => (if t = "c" then .error t else .ok t.length : Except String Nat))
        = .ok ((anyOf ["b", "a"]).map String.length)
      ∧ (anyOf ["b", "a"]).map String.length = term 1 := by
  have hterms : ∀ t ∈ (anyOf ["b", "a"]).terms,
      (if t = "c" then .error t else .ok t.length : Except String Nat) = .ok t.length := by
    have hlist : (anyOf ["b", "a"]).terms.toList = ["a", "b"] := by cbv
    intro t ht
    rw [SortedSet.mem_def, hlist, List.mem_pair] at ht
    obtain rfl | rfl := ht <;> rfl
  exact ⟨hterms, ((map_substitutes (γ := Nat)).2.2 _ _).2.1 _ hterms, by cbv⟩

/-- The first literal in canonical order is not the one that was written first. -/
example : (allOf ["b", "a"]).tryMap (fun t => (.error t : Except String Nat)) = .error "a" := by
  cbv

end Formula

end Cohort
