/-!
# Cutting texts at a sign

`cut` parts a text at the first place of a sign, `pieces` at all of them. Putting the sign back
between the parts gives the text again (`eq_append_of_cut`, `intercalate_pieces`).
-/

namespace Cohort.Text

/-- What stands before and after the first place of a sign, if there is one. -/
def cut (sign : Char) : List Char → Option (List Char × List Char)
  | [] => none
  | c :: cs => if c = sign then some ([], cs) else (cut sign cs).map fun p => (c :: p.1, p.2)

/-- What stands between the places of a sign: always one piece more than there are places. -/
def pieces (sign : Char) : List Char → List (List Char)
  | [] => [[]]
  | c :: cs =>
    if c = sign then [] :: pieces sign cs
    else
      match pieces sign cs with
      | [] => [[c]]
      | p :: ps => (c :: p) :: ps

theorem cut_eq_none_iff {sign : Char} {cs : List Char} : cut sign cs = none ↔ sign ∉ cs := by
  induction cs with
  | nil => simp [cut]
  | cons c cs ih =>
    rw [cut]
    split
    · next h => simp [h]
    · next h => simp [ih, Ne.symm h]

theorem eq_append_of_cut {sign : Char} {cs : List Char} {p : List Char × List Char}
    (h : cut sign cs = some p) : cs = p.1 ++ sign :: p.2 ∧ sign ∉ p.1 := by
  induction cs generalizing p with
  | nil => simp [cut] at h
  | cons c cs ih =>
    rw [cut] at h
    split at h
    · next hc =>
      cases h
      simp [hc]
    · next hc =>
      obtain ⟨q, hq, rfl⟩ := Option.map_eq_some_iff.1 h
      obtain ⟨hcs, hn⟩ := ih hq
      exact ⟨congrArg (c :: ·) hcs, by simp [Ne.symm hc, hn]⟩

theorem pieces_ne_nil (sign : Char) (cs : List Char) : pieces sign cs ≠ [] := by
  cases cs with
  | nil => simp [pieces]
  | cons c cs =>
    rw [pieces]
    split
    · simp
    · split <;> simp

/-- No piece has the sign. -/
theorem not_mem_of_mem_pieces {sign : Char} {cs p : List Char} (h : p ∈ pieces sign cs) :
    sign ∉ p := by
  induction cs generalizing p with
  | nil => simp_all [pieces]
  | cons c cs ih =>
    rw [pieces] at h
    split at h
    · rcases List.mem_cons.1 h with rfl | h
      · exact List.not_mem_nil
      · exact ih h
    · next hc =>
      split at h
      · next hp => exact absurd hp (pieces_ne_nil sign cs)
      · next q qs hp =>
        rcases List.mem_cons.1 h with rfl | h
        · exact List.not_mem_cons_of_ne_of_not_mem (Ne.symm hc) (ih (hp ▸ List.mem_cons_self))
        · exact ih (hp ▸ List.mem_cons_of_mem q h)

theorem pieces_eq_splitOn (sign : Char) (cs : List Char) : pieces sign cs = cs.splitOn sign := by
  induction cs with
  | nil => rw [List.splitOn_nil, pieces]
  | cons c cs ih =>
    rw [pieces, List.splitOn_cons_eq_if_modifyHead, ← ih]
    by_cases hc : c = sign
    · simp [hc]
    · rw [if_neg hc, if_neg (by simpa using hc)]
      split
      · next hp => exact absurd hp (pieces_ne_nil sign cs)
      · next p ps hp => rw [hp, List.modifyHead_cons]

/-- The pieces, joined by the sign, are the text. -/
theorem intercalate_pieces (sign : Char) (cs : List Char) :
    List.intercalate [sign] (pieces sign cs) = cs := by
  rw [pieces_eq_splitOn, List.intercalate_splitOn]

/-- What is in a text put together from pieces is in the separator or in a piece. -/
theorem mem_intercalate {α : Type} {sep : List α} {a : α} : ∀ {l : List (List α)},
    a ∈ List.intercalate sep l → a ∈ sep ∨ ∃ p ∈ l, a ∈ p
  | [], h => nomatch h
  | [p], h => by
    rw [List.intercalate_singleton] at h
    exact .inr ⟨p, List.mem_singleton_self p, h⟩
  | p :: q :: l, h => by
    rw [List.intercalate_cons_cons, List.append_assoc] at h
    rcases List.mem_append.1 h with h | h
    · exact .inr ⟨p, List.mem_cons_self, h⟩
    rcases List.mem_append.1 h with h | h
    · exact .inl h
    · exact (mem_intercalate h).imp_right fun ⟨r, hr, h⟩ => ⟨r, List.mem_cons_of_mem p hr, h⟩

theorem cut_append {sign : Char} {l r : List Char} (h : sign ∉ l) :
    cut sign (l ++ sign :: r) = some (l, r) := by
  induction l with
  | nil => simp [cut]
  | cons c l ih =>
    simp only [List.mem_cons, not_or] at h
    simp [cut, Ne.symm h.1, ih h.2]

end Cohort.Text
