import Mathlib.Data.List.Forall2
import Mathlib.Data.List.Induction

/-!
# Lists without their repeats

Dropping what comes up a second time leaves a list in the order of the first occurrences
(`pairwise_eraseDups`). What it leaves of two lists is related member by member if the lists are,
under a relation that tells the members of either list apart as those of the other
(`eraseDups_rel`).
-/

namespace Cohort

variable {α β : Type} [DecidableEq α]

theorem eraseDups_snoc (l : List α) (a : α) :
    (l ++ [a]).eraseDups = if a ∈ l then l.eraseDups else l.eraseDups ++ [a] := by
  rw [List.eraseDups_append]
  by_cases ha : a ∈ l <;> simp [List.removeAll, ha, List.eraseDups_cons]

theorem pairwise_eraseDups (l : List α) :
    l.eraseDups.Pairwise fun a b => l.idxOf a < l.idxOf b := by
  induction l using List.reverseRecOn with
  | nil => simp
  | append_singleton l a ih =>
    have hold : l.eraseDups.Pairwise fun b c => (l ++ [a]).idxOf b < (l ++ [a]).idxOf c := by
      refine ih.imp_of_mem fun hb hc h => ?_
      rwa [List.idxOf_append_of_mem (List.mem_eraseDups.1 hb),
        List.idxOf_append_of_mem (List.mem_eraseDups.1 hc)]
    rw [eraseDups_snoc]
    split
    · exact hold
    next ha =>
      refine List.pairwise_append.2 ⟨hold, List.pairwise_singleton _ _, fun b hb c hc => ?_⟩
      obtain rfl := List.mem_singleton.1 hc
      have hb := List.mem_eraseDups.1 hb
      rw [List.idxOf_append_of_mem hb, List.idxOf_append_of_notMem ha]
      exact Nat.lt_of_lt_of_le (List.idxOf_lt_length_of_mem hb) (Nat.le_add_right _ _)

theorem nodup_eraseDups (l : List α) : l.eraseDups.Nodup :=
  (pairwise_eraseDups l).imp fun h => by
    rintro rfl
    exact Nat.lt_irrefl _ h

/-- The first member that a search stops at is no repeat. -/
theorem findSome?_eraseDups (f : α → Option β) (l : List α) :
    l.eraseDups.findSome? f = l.findSome? f := by
  induction l using List.reverseRecOn with
  | nil => simp
  | append_singleton l a ih =>
    rw [eraseDups_snoc]
    split
    · next ha =>
      rw [ih, List.findSome?_append]
      cases h : l.findSome? f with
      | some b => rfl
      | none => simp [List.findSome?_eq_none_iff.1 h a ha]
    · rw [List.findSome?_append, List.findSome?_append, ih]

/-- Lists with the same members in another order are left with the same members. -/
theorem perm_eraseDups {l m : List α} (h : l.Perm m) : l.eraseDups.Perm m.eraseDups := by
  refine (List.perm_ext_iff_of_nodup (nodup_eraseDups l) (nodup_eraseDups m)).2 fun a => ?_
  rw [List.mem_eraseDups, List.mem_eraseDups, h.mem_iff]

theorem eraseDups_rel [DecidableEq β] {R : α → β → Prop}
    (hR : ∀ a b a' b', R a b → R a' b' → (a = a' ↔ b = b')) :
    ∀ {l : List α} {m : List β}, List.Forall₂ R l m → List.Forall₂ R l.eraseDups m.eraseDups
  | _, _, .nil => .nil
  | a :: l, b :: m, .cons hab h => by
    -- past the first members, what repeats them is dropped from both lists at the same places
    have hother : Relator.LiftFun R (· ↔ ·) (fun c => (!c == a) = true)
        fun d => (!d == b) = true := by
      intro c d hcd
      simpa using not_congr (hR c d a b hcd hab)
    rw [List.eraseDups_cons, List.eraseDups_cons]
    exact .cons hab (eraseDups_rel hR (List.rel_filter hother h))
  termination_by l => l.length
  decreasing_by exact Nat.lt_succ_of_le (List.length_filter_le _ _)

end Cohort
