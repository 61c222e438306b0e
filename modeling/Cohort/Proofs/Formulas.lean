import Cohort.Formula.Basic
import Cohort.Proofs.Outcome

/-!
# What formulas say

The truth value of a formula made from terms or clauses (`Formula.eval_anyOf`,
`Formula.eval_allOf`), and of one whose terms were replaced (`Formula.eval_of_tryMap`). Only the
truth values of a formula's own terms matter (`Formula.eval_congr`).
-/

namespace Cohort

variable {α : Type} [Ranked α]

namespace Formula

theorem eval_ofClauses (cs : List (Clause α)) (v : α → Bool) :
    (ofClauses cs).eval v = true ↔ ∀ c ∈ cs, c ≠ SortedSet.empty → c.eval v = true := by
  rw [eval_eq_true_iff]
  simp only [mem_ofClauses, and_imp]

/-- A clause of some literals says that one of them holds. -/
theorem eval_ofLiterals {ls : List (Literal α)} (h : ls ≠ []) (v : α → Bool) :
    (ofClauses [SortedSet.ofList ls]).eval v = ls.any fun l => l.holds (v l.term) := by
  have hne : SortedSet.ofList ls ≠ SortedSet.empty := by
    obtain ⟨l, hl⟩ := List.exists_mem_of_ne_nil ls h
    intro he
    exact SortedSet.not_mem_empty (he ▸ SortedSet.mem_ofList.2 hl)
  rw [Bool.eq_iff_iff, eval_ofClauses, List.any_eq_true]
  simp only [List.forall_mem_singleton, Clause.eval_eq_true_iff, SortedSet.mem_ofList]
  exact ⟨fun hv => hv hne, fun hv _ => hv⟩

theorem eval_anyOf {ts : List α} (h : ts ≠ []) (v : α → Bool) : (anyOf ts).eval v = ts.any v := by
  unfold anyOf
  rw [eval_ofLiterals (by simpa using h), List.any_map]
  simp [Function.comp_def, Literal.holds, Literal.plain]

theorem eval_allOf (ts : List α) (v : α → Bool) : (allOf ts).eval v = ts.all v := by
  unfold allOf
  rw [Bool.eq_iff_iff, eval_ofClauses, List.all_eq_true]
  simp only [List.forall_mem_map, Clause.eval_eq_true_iff, SortedSet.mem_singleton,
    exists_eq_left]
  refine forall₂_congr fun t _ => ?_
  constructor
  · intro hv
    simpa [Literal.holds, Literal.plain] using hv nofun
  · rintro hv -
    simpa [Literal.holds, Literal.plain] using hv

theorem eval_term (t : α) (v : α → Bool) : (term t).eval v = v t :=
  (eval_allOf [t] v).trans (by simp)

theorem term_of_mem_literals_ofClauses {cs : List (Clause α)} {l : Literal α}
    (h : l ∈ (ofClauses cs).literals) : ∃ c ∈ cs, l ∈ c := by
  unfold literals at h
  obtain ⟨c, hc, hl⟩ := List.mem_flatMap.1 h
  exact ⟨c, (mem_ofClauses.1 hc).1, hl⟩

/-- What a formula makes of truth values depends on those of its own terms. -/
theorem eval_congr {f : Formula α} {v w : α → Bool}
    (h : ∀ l ∈ f.literals, v l.term = w l.term) : f.eval v = f.eval w := by
  unfold eval
  rw [Bool.eq_iff_iff, List.all_eq_true, List.all_eq_true]
  refine forall₂_congr fun c hc => ?_
  rw [Clause.eval_eq_true_iff, Clause.eval_eq_true_iff]
  refine exists_congr fun l => and_congr_right fun hl => ?_
  rw [h l (List.mem_flatMap.2 ⟨c, hc, hl⟩)]

section TryMap

variable {β : Type} [Ranked β] {ε : Type} {g : α → Except ε β} {v : β → Bool} {w : α → Bool}

theorem eval_of_replaced {c : Clause α} {ls : List (Literal β)}
    (h : List.Forall₂ (fun l k => ∃ u, g l.term = .ok u ∧ Literal.mk u l.negated = k) c.toList ls)
    (hw : ∀ l ∈ c.toList, ∀ u, g l.term = .ok u → w l.term = v u) :
    Clause.eval (SortedSet.ofList ls) v = c.eval w := by
  rw [Bool.eq_iff_iff, Clause.eval_eq_true_iff, Clause.eval_eq_true_iff]
  simp only [SortedSet.mem_ofList]
  constructor
  · rintro ⟨k, hk, hv⟩
    obtain ⟨l, hl, u, hu, rfl⟩ := exists_left_of_mem h hk
    exact ⟨l, hl, by rwa [hw l hl u hu]⟩
  · rintro ⟨l, hl, hv⟩
    obtain ⟨k, hk, u, hu, rfl⟩ := exists_right_of_mem h hl
    exact ⟨_, hk, by rwa [hw l hl u hu] at hv⟩

/-- A formula with replaced terms says of the replacements what the formula says of its terms. -/
theorem eval_of_tryMap {f : Formula α} {f' : Formula β} (h : f.tryMap g = .ok f')
    (hw : ∀ l ∈ f.literals, ∀ u, g l.term = .ok u → w l.term = v u) : f'.eval v = f.eval w := by
  unfold tryMap at h
  simp only [bind_eq_ok_iff, pure_eq_ok_iff, mapM_eq_ok_iff] at h
  obtain ⟨cs, hcs, rfl⟩ := h
  have hmem : ∀ c ∈ f.clauses.toList, ∀ l ∈ c.toList, l ∈ f.literals :=
    fun c hc l hl => List.mem_flatMap.2 ⟨c, hc, hl⟩
  rw [Bool.eq_iff_iff, eval_ofClauses, eval_eq_true_iff]
  constructor
  · intro hv c hc
    obtain ⟨d, hd, ls, hls, rfl⟩ := exists_right_of_mem hcs hc
    rw [← eval_of_replaced hls fun l hl => hw l (hmem c hc l hl)]
    refine hv _ hd fun he => f.empty_not_mem ?_
    -- a clause whose replacement is empty is empty itself
    have hnil : ls = [] := by
      rw [List.eq_nil_iff_forall_not_mem]
      intro k hk
      exact SortedSet.not_mem_empty (he ▸ SortedSet.mem_ofList.2 hk)
    rw [hnil, List.forall₂_nil_right_iff] at hls
    have hempty : c = SortedSet.empty := SortedSet.ext hls
    exact hempty ▸ hc
  · intro hv d hd _
    obtain ⟨c, hc, ls, hls, rfl⟩ := exists_left_of_mem hcs hd
    rw [eval_of_replaced hls fun l hl => hw l (hmem c hc l hl)]
    exact hv c hc

/-- A formula's terms can be replaced when each of them can. -/
theorem exists_tryMap_iff {f : Formula α} :
    (∃ f', f.tryMap g = .ok f') ↔ ∀ l ∈ f.literals, ∃ u, g l.term = .ok u := by
  unfold tryMap literals
  simp only [exists_bind_pure_iff, exists_mapM_iff, List.forall_mem_flatMap]

theorem exists_of_tryMap_error {f : Formula α} {e : ε} (h : f.tryMap g = .error e) :
    ∃ l ∈ f.literals, g l.term = .error e := by
  unfold tryMap at h
  rw [← error?_eq_some_iff, error?_bind_pure, error?_eq_some_iff] at h
  obtain ⟨c, hc, h⟩ := exists_of_mapM_error h
  rw [← error?_eq_some_iff, error?_bind_pure, error?_eq_some_iff] at h
  obtain ⟨l, hl, h⟩ := exists_of_mapM_error h
  rw [← error?_eq_some_iff, error?_bind_pure, error?_eq_some_iff] at h
  exact ⟨l, List.mem_flatMap.2 ⟨c, hc, hl⟩, h⟩

/-- The literals of a formula with replaced terms are the replaced literals. -/
theorem mem_literals_tryMap {f : Formula α} {f' : Formula β} (h : f.tryMap g = .ok f')
    {k : Literal β} : k ∈ f'.literals
      ↔ ∃ l ∈ f.literals, ∃ u, g l.term = .ok u ∧ Literal.mk u l.negated = k := by
  unfold tryMap at h
  simp only [bind_eq_ok_iff, pure_eq_ok_iff, mapM_eq_ok_iff] at h
  obtain ⟨cs, hcs, rfl⟩ := h
  unfold literals
  rw [List.mem_flatMap]
  constructor
  · rintro ⟨d, hd, hk⟩
    obtain ⟨c, hc, ls, hls, rfl⟩ := exists_left_of_mem hcs (mem_ofClauses.1 hd).1
    obtain ⟨l, hl, hlk⟩ := exists_left_of_mem hls (SortedSet.mem_ofList.1 hk)
    exact ⟨l, List.mem_flatMap.2 ⟨c, hc, hl⟩, hlk⟩
  · rintro ⟨l, hl, hlk⟩
    obtain ⟨c, hc, hl⟩ := List.mem_flatMap.1 hl
    obtain ⟨d, hd, ls, hls, rfl⟩ := exists_right_of_mem hcs hc
    obtain ⟨k', hk', u, hu, rfl⟩ := exists_right_of_mem hls hl
    obtain ⟨v, hv, rfl⟩ := hlk
    obtain rfl : u = v := by simpa [hu] using hv
    refine ⟨_, mem_ofClauses.2 ⟨hd, ?_⟩, SortedSet.mem_ofList.2 hk'⟩
    rintro he
    exact SortedSet.not_mem_empty (he ▸ SortedSet.mem_ofList.2 hk')

end TryMap

end Formula

end Cohort
