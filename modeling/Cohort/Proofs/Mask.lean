import Cohort.Mask
import Cohort.Proofs.Outcome
import Mathlib.Tactic.Tauto

/-!
# What tests of masks ask

A mask passes a clause if it has one of the plain positions or lacks one of the negated ones
(`MaskClause.accepts_iff`). The clause compiled from literals has exactly their positions, so a
compiled test passes a mask exactly when the formula is true of the terms whose positions the mask
has (`MaskTest.accepts_compile`).
-/

namespace Cohort

theorem Mask.getLsbD_bit (i j : Nat) : (Mask.bit i).getLsbD j = decide (j < 64 ∧ i = j) := by
  unfold Mask.bit
  simp only [BitVec.getLsbD_shiftLeft, BitVec.getLsbD_one]
  by_cases hj : j < 64
  · by_cases hij : i = j
    · simp [hij, hj]
    · simp only [hj, hij, and_false, decide_false, decide_true, Bool.true_and]
      by_cases hlt : j < i <;> simp [hlt]
      omega
  · simp [hj]

theorem Mask.getLsbD_below {n : Nat} (hn : n ≤ 64) (j : Nat) :
    (Mask.below n).getLsbD j = decide (j < n) := by
  have hb : Mask.below n = BitVec.ofNat 64 (2 ^ n - 1) := by
    unfold Mask.below Mask.bit
    rcases Nat.lt_or_eq_of_le hn with h | rfl
    · have hlt : 2 ^ n < 2 ^ 64 := Nat.pow_lt_pow_right (by omega) h
      have hpos : 0 < 2 ^ n := Nat.two_pow_pos n
      apply BitVec.eq_of_toNat_eq
      simp [BitVec.toNat_sub, BitVec.toNat_shiftLeft, Nat.one_shiftLeft]
      omega
    · decide
  rw [hb, BitVec.getLsbD_ofNat, Nat.testBit_two_pow_sub_one]
  by_cases h : j < n
  · simp [h]
    omega
  · simp [h]

theorem Mask.ne_zero_iff {m : Mask} : m ≠ 0 ↔ ∃ i, m.getLsbD i = true := by
  constructor
  · intro h
    by_contra hn
    push Not at hn
    exact h (BitVec.eq_of_getLsbD_eq fun i _ => by simpa using hn i)
  · rintro ⟨i, hi⟩ rfl
    simp at hi

theorem Mask.beyond_eq_zero_iff {m : Mask} {n : Nat} (hn : n ≤ 64) :
    m &&& ~~~Mask.below n = 0 ↔ ∀ i, m.getLsbD i = true → i < n := by
  rw [← not_iff_not, ← ne_eq, Mask.ne_zero_iff]
  push Not
  refine exists_congr fun i => ?_
  have hi : m.getLsbD i = true → i < 64 := BitVec.lt_of_getLsbD
  rw [BitVec.getLsbD_and, BitVec.getLsbD_not, Mask.getLsbD_below hn, Bool.and_eq_true,
    Bool.and_eq_true, decide_eq_true_eq, Bool.not_eq_true', decide_eq_false_iff_not, Nat.not_lt]
  tauto

namespace MaskClause

theorem accepts_iff {c : MaskClause} {m : Mask} :
    c.accepts m = true ↔ (∃ i, c.positive.getLsbD i = true ∧ m.getLsbD i = true)
      ∨ ∃ i, c.negative.getLsbD i = true ∧ m.getLsbD i = false := by
  unfold accepts
  simp only [Bool.or_eq_true, bne_iff_ne]
  refine or_congr ?_ ?_
  · rw [Mask.ne_zero_iff]
    exact exists_congr fun i => by simp [and_comm]
  · rw [Mask.ne_zero_iff]
    refine exists_congr fun i => ?_
    have hi : c.negative.getLsbD i = true → i < 64 := fun h => BitVec.lt_of_getLsbD h
    simp only [BitVec.getLsbD_and, BitVec.getLsbD_not, Bool.and_eq_true, decide_eq_true_eq,
      Bool.not_eq_true']
    tauto

/-- The clause has the positions of the plain and of the negated literals, and no others. -/
structure Holds {α : Type} (position : α → Except Error Nat) (ls : List (Literal α))
    (c : MaskClause) : Prop where
  positive : ∀ i, c.positive.getLsbD i = true
    ↔ ∃ l ∈ ls, l.negated = false ∧ position l.term = .ok i
  negative : ∀ i, c.negative.getLsbD i = true
    ↔ ∃ l ∈ ls, l.negated = true ∧ position l.term = .ok i

theorem holds_empty {α : Type} (position : α → Except Error Nat) : Holds position [] empty :=
  ⟨by simp [empty], by simp [empty]⟩

theorem Holds.snoc {α : Type} {position : α → Except Error Nat} {ls : List (Literal α)}
    {c : MaskClause} (h : Holds position ls c) {l : Literal α} {i : Nat} (hi : i < 64)
    (hl : position l.term = .ok i) : Holds position (ls ++ [l]) (c.add i l.negated) := by
  have hbit : ∀ j, (Mask.bit i).getLsbD j = true ↔ position l.term = .ok j := by
    intro j
    rw [Mask.getLsbD_bit, hl, decide_eq_true_eq, Except.ok.injEq]
    exact ⟨fun h => h.2, fun h => ⟨h ▸ hi, h⟩⟩
  constructor
  all_goals
    intro j
    unfold add
    cases hn : l.negated <;> simp [hn, BitVec.getLsbD_or, h.positive, h.negative, hbit,
      or_and_right, exists_or]

end MaskClause

namespace MaskTest

variable {α : Type} [Ranked α] {position : α → Except Error Nat}

/-- The truth values that a mask gives to terms through their positions. -/
def reading (position : α → Except Error Nat) (m : Mask) (t : α) : Bool :=
  match position t with
  | .ok i => m.getLsbD i
  | .error _ => false

omit [Ranked α] in
theorem reading_of_ok {m : Mask} {t : α} {i : Nat} (h : position t = .ok i) :
    reading position m t = m.getLsbD i := by
  unfold reading
  rw [h]

omit [Ranked α] in
theorem addLiteral_eq_ok_iff {c c' : MaskClause} {l : Literal α} :
    addLiteral position c l = .ok c'
      ↔ ∃ i, position l.term = .ok i ∧ i < 64 ∧ c.add i l.negated = c' := by
  unfold addLiteral
  simp only [bind_eq_ok_iff]
  refine exists_congr fun i => and_congr_right fun _ => ?_
  by_cases hi : i < maskWidth
  · simp only [hi, if_true, pure_eq_ok_iff]
    exact (and_iff_right hi).symm
  · simp only [hi, if_false, throw_ne_ok, false_iff]
    exact fun h => hi h.1

omit [Ranked α] in
/-- A clause compiles exactly when each of its terms has a position below 64. -/
theorem foldlM_addLiteral {done ls : List (Literal α)} {c : MaskClause}
    (h : MaskClause.Holds position done c) :
    (∀ c', ls.foldlM (addLiteral position) c = .ok c' →
        MaskClause.Holds position (done ++ ls) c' ∧ ∀ l ∈ ls, ∃ i < 64, position l.term = .ok i)
      ∧ ((∀ l ∈ ls, ∃ i < 64, position l.term = .ok i) →
        ∃ c', ls.foldlM (addLiteral position) c = .ok c') := by
  induction ls generalizing done c with
  | nil =>
    refine ⟨fun c' hc => ?_, fun _ => ⟨c, rfl⟩⟩
    rw [List.foldlM_nil, pure_eq_ok_iff] at hc
    subst hc
    simpa using h
  | cons l ls ih =>
    constructor
    · intro c' hc
      rw [List.foldlM_cons, bind_eq_ok_iff] at hc
      obtain ⟨c₁, h₁, hc⟩ := hc
      obtain ⟨i, hl, hi, rfl⟩ := addLiteral_eq_ok_iff.1 h₁
      obtain ⟨hH, hpos⟩ := (ih (h.snoc hi hl)).1 c' hc
      rw [List.append_assoc, List.singleton_append] at hH
      exact ⟨hH, List.forall_mem_cons.2 ⟨⟨i, hi, hl⟩, hpos⟩⟩
    · intro hpos
      obtain ⟨⟨i, hi, hl⟩, hpos⟩ := List.forall_mem_cons.1 hpos
      obtain ⟨c', hc⟩ := (ih (h.snoc hi hl)).2 hpos
      refine ⟨c', ?_⟩
      rw [List.foldlM_cons, addLiteral_eq_ok_iff.2 ⟨i, hl, hi, rfl⟩]
      exact hc

/-- The clauses of a compiled test have the positions of the formula's clauses, in order. -/
theorem clauses_of_compile {f : Formula α} {t : MaskTest} (h : compile position f = .ok t) :
    List.Forall₂ (fun c c' => MaskClause.Holds position c.toList c'
      ∧ ∀ l ∈ c.toList, ∃ i < 64, position l.term = .ok i) f.clauses.toList t.clauses := by
  unfold compile at h
  simp only [bind_eq_ok_iff, pure_eq_ok_iff, mapM_eq_ok_iff] at h
  obtain ⟨cs, hcs, rfl⟩ := h
  refine hcs.imp fun c c' hc => ?_
  simpa using (foldlM_addLiteral (MaskClause.holds_empty position)).1 c' hc

theorem exists_position_of_compile {f : Formula α} {t : MaskTest} (h : compile position f = .ok t)
    {l : Literal α} (hl : l ∈ f.literals) : ∃ i < 64, position l.term = .ok i := by
  obtain ⟨c, hc, hlc⟩ := List.mem_flatMap.1 hl
  obtain ⟨d, -, -, hpos⟩ := exists_right_of_mem (clauses_of_compile h) hc
  exact hpos l hlc

theorem exists_compile {f : Formula α} (h : ∀ l ∈ f.literals, ∃ i < 64, position l.term = .ok i) :
    ∃ t, compile position f = .ok t := by
  have hcs : ∀ c ∈ f.clauses.toList,
      ∃ c', c.toList.foldlM (addLiteral position) .empty = .ok c' := fun c hc =>
    (foldlM_addLiteral (MaskClause.holds_empty position)).2 fun l hl =>
      h l (List.mem_flatMap.2 ⟨c, hc, hl⟩)
  unfold compile
  rw [mapM_eq_ok_iff_filterMap.2 ⟨hcs, rfl⟩]
  exact ⟨_, rfl⟩

omit [Ranked α] in
theorem accepts_of_holds {ls : List (Literal α)} {c : MaskClause} {m : Mask}
    (h : MaskClause.Holds position ls c) (hpos : ∀ l ∈ ls, ∃ i < 64, position l.term = .ok i) :
    c.accepts m = ls.any fun l => l.holds (reading position m l.term) := by
  rw [Bool.eq_iff_iff, MaskClause.accepts_iff, List.any_eq_true]
  constructor
  · rintro (⟨i, hc, hm⟩ | ⟨i, hc, hm⟩)
    · obtain ⟨l, hl, hn, hp⟩ := (h.positive i).1 hc
      exact ⟨l, hl, by simp [Literal.holds, hn, reading_of_ok hp, hm]⟩
    · obtain ⟨l, hl, hn, hp⟩ := (h.negative i).1 hc
      exact ⟨l, hl, by simp [Literal.holds, hn, reading_of_ok hp, hm]⟩
  · rintro ⟨l, hl, hv⟩
    obtain ⟨i, -, hp⟩ := hpos l hl
    rw [reading_of_ok hp] at hv
    cases hn : l.negated <;> simp only [Literal.holds, hn, bne_iff_ne, ne_eq, Bool.not_eq_false,
      Bool.not_eq_true] at hv
    · exact .inl ⟨i, (h.positive i).2 ⟨l, hl, hn, hp⟩, hv⟩
    · exact .inr ⟨i, (h.negative i).2 ⟨l, hl, hn, hp⟩, hv⟩

/-- A mask passes a compiled test exactly when the formula is true of what the mask has. -/
theorem accepts_compile {f : Formula α} {t : MaskTest} (h : compile position f = .ok t)
    (m : Mask) : t.accepts m = f.eval (reading position m) := by
  unfold accepts Formula.eval
  have hc := clauses_of_compile h
  generalize f.clauses.toList = cs at hc
  generalize t.clauses = ts at hc
  induction hc with
  | nil => rfl
  | cons hc _ ih => rw [List.all_cons, List.all_cons, ih, accepts_of_holds hc.1 hc.2, Clause.eval]

theorem position_of_compile {f : Formula α} {t : MaskTest} (h : compile position f = .ok t)
    {c : MaskClause} (hc : c ∈ t.clauses) {i : Nat}
    (hi : (c.positive ||| c.negative).getLsbD i = true) :
    ∃ l ∈ f.literals, position l.term = .ok i := by
  obtain ⟨d, hd, hdc, -⟩ := exists_left_of_mem (clauses_of_compile h) hc
  rw [BitVec.getLsbD_or, Bool.or_eq_true, hdc.positive, hdc.negative] at hi
  rcases hi with ⟨l, hl, -, hp⟩ | ⟨l, hl, -, hp⟩
  · exact ⟨l, List.mem_flatMap.2 ⟨d, hd, hl⟩, hp⟩
  · exact ⟨l, List.mem_flatMap.2 ⟨d, hd, hl⟩, hp⟩

end MaskTest

end Cohort
