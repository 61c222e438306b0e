import Cohort.Ranked

/-!
# Sorted maps

A finite map held as the list of its entries in ascending order of their keys. What a map holds is
read off by `get?`; a map is determined by that view (`SortedMap.ext_get?`), and changing the value
of one key changes the view there and nowhere else (`get?_change`).
-/

namespace Cohort

open Ranked

universe u v

variable {κ : Type u} [Ranked κ] {ν : Type v}

/-- Each key comes before all later ones. -/
def KeysAscending (l : List (κ × ν)) : Prop := l.Pairwise fun a b => rank a.1 b.1 = .lt

/-- The value of a key, looked for up to the place where it would stand. -/
def lookUp (k : κ) : List (κ × ν) → Option ν
  | [] => none
  | (k', v) :: l =>
    match rank k k' with
    | .lt => none
    | .eq => some v
    | .gt => lookUp k l

/-- Sets the value of a key to what `f` makes of its present value. -/
def changeAt (k : κ) (f : Option ν → ν) : List (κ × ν) → List (κ × ν)
  | [] => [(k, f none)]
  | (k', v) :: l =>
    match rank k k' with
    | .lt => (k, f none) :: (k', v) :: l
    | .eq => (k', f (some v)) :: l
    | .gt => (k', v) :: changeAt k f l

theorem rank_lt_of_mem_changeAt {k k₀ : κ} {f : Option ν → ν} {l : List (κ × ν)}
    (hk : rank k₀ k = .lt) (hl : ∀ e ∈ l, rank k₀ e.1 = .lt) :
    ∀ e ∈ changeAt k f l, rank k₀ e.1 = .lt := by
  induction l with
  | nil => simpa [changeAt] using hk
  | cons e l ih =>
    obtain ⟨k', v⟩ := e
    intro e he
    have hk' : rank k₀ k' = .lt := hl (k', v) (by simp)
    rw [changeAt] at he
    split at he
    · rcases List.mem_cons.1 he with rfl | he
      · exact hk
      · exact hl e he
    · rcases List.mem_cons.1 he with rfl | he
      · exact hk'
      · exact hl e (List.mem_cons_of_mem _ he)
    · rcases List.mem_cons.1 he with rfl | he
      · exact hk'
      · exact ih (fun e he => hl e (List.mem_cons_of_mem _ he)) e he

theorem keysAscending_changeAt {k : κ} {f : Option ν → ν} {l : List (κ × ν)}
    (h : KeysAscending l) : KeysAscending (changeAt k f l) := by
  induction l with
  | nil => simp [changeAt, KeysAscending]
  | cons e l ih =>
    obtain ⟨k', v⟩ := e
    obtain ⟨hk', hl⟩ := List.pairwise_cons.1 h
    rw [changeAt]
    split
    · next hlt =>
      refine List.pairwise_cons.2 ⟨fun e he => ?_, h⟩
      rcases List.mem_cons.1 he with rfl | he
      · exact hlt
      · exact rank_trans hlt (hk' e he)
    · exact List.pairwise_cons.2 ⟨hk', hl⟩
    · next hgt =>
      exact List.pairwise_cons.2 ⟨rank_lt_of_mem_changeAt (rank_gt_iff.1 hgt) hk', ih hl⟩

theorem changeAt_of_lt {k : κ} {f : Option ν → ν} {l : List (κ × ν)}
    (h : ∀ e ∈ l, rank e.1 k = .lt) : changeAt k f l = l ++ [(k, f none)] := by
  induction l with
  | nil => rfl
  | cons e l ih =>
    obtain ⟨he, hl⟩ := List.forall_mem_cons.1 h
    rw [changeAt, rank_gt_iff.2 he]
    simp [ih hl]

/-- Looking up finds exactly the entries. -/
theorem lookUp_eq_some_iff {k : κ} {v : ν} {l : List (κ × ν)} (h : KeysAscending l) :
    lookUp k l = some v ↔ (k, v) ∈ l := by
  induction l with
  | nil => simp [lookUp]
  | cons e l ih =>
    obtain ⟨k', v'⟩ := e
    obtain ⟨hk', hl⟩ := List.pairwise_cons.1 h
    rw [lookUp]
    split
    · next hlt =>
      refine ⟨nofun, fun hm => ?_⟩
      rcases List.mem_cons.1 hm with e | hm
      · cases e
        rw [rank_self] at hlt
        exact nomatch hlt
      · exact absurd (rank_trans hlt (hk' _ hm)) (by simp)
    · next heq =>
      rw [level_iff] at heq
      subst heq
      refine ⟨fun e => by simp_all, fun hm => ?_⟩
      rcases List.mem_cons.1 hm with e | hm
      · cases e
        rfl
      · exact absurd rfl (ne_of_rank (hk' (k, v) hm))
    · next hgt =>
      rw [ih hl, List.mem_cons, Prod.mk.injEq]
      refine ⟨Or.inr, fun hm => hm.resolve_left fun e => ?_⟩
      rw [e.1, rank_self] at hgt
      exact nomatch hgt

theorem lookUp_changeAt_self {k : κ} {f : Option ν → ν} (l : List (κ × ν)) :
    lookUp k (changeAt k f l) = some (f (lookUp k l)) := by
  induction l with
  | nil => simp [changeAt, lookUp]
  | cons e l ih =>
    obtain ⟨k', v⟩ := e
    cases h : rank k k' <;> simp [changeAt, lookUp, h, ih]

theorem lookUp_changeAt_of_ne {k k₀ : κ} (hne : k₀ ≠ k) {f : Option ν → ν} {l : List (κ × ν)}
    (hl : KeysAscending l) : lookUp k₀ (changeAt k f l) = lookUp k₀ l := by
  refine Option.ext fun v => ?_
  rw [lookUp_eq_some_iff (keysAscending_changeAt hl), lookUp_eq_some_iff hl]
  induction l with
  | nil => simp [changeAt, hne]
  | cons e l ih =>
    obtain ⟨k', v'⟩ := e
    have hl' := (List.pairwise_cons.1 hl).2
    rw [changeAt]
    split
    · simp [hne]
    · next heq =>
      rw [level_iff] at heq
      simp [← heq, hne]
    · simp [ih hl']

/-- A finite map: its entries in ascending order of their keys. -/
structure SortedMap (κ : Type u) [Ranked κ] (ν : Type v) where
  /-- The entries, in ascending order of their keys. -/
  entries : List (κ × ν)
  ascending : KeysAscending entries

namespace SortedMap

@[ext] theorem ext {m n : SortedMap κ ν} (h : m.entries = n.entries) : m = n := by
  cases m
  cases n
  cases h
  rfl

def empty : SortedMap κ ν := ⟨[], List.Pairwise.nil⟩

def get? (m : SortedMap κ ν) (k : κ) : Option ν := lookUp k m.entries

/-- Sets the value of a key to what `f` makes of its present value, if it has one. -/
def change (m : SortedMap κ ν) (k : κ) (f : Option ν → ν) : SortedMap κ ν :=
  ⟨changeAt k f m.entries, keysAscending_changeAt m.ascending⟩

/-- Gives a key a value, whether or not it had one. -/
def insert (m : SortedMap κ ν) (k : κ) (v : ν) : SortedMap κ ν := m.change k fun _ => v

/-- The map of a list of entries; of several for one key, the last counts. -/
def ofList (l : List (κ × ν)) : SortedMap κ ν := l.foldl (fun m e => m.insert e.1 e.2) empty

/-- The keys, in ascending order. -/
def keys (m : SortedMap κ ν) : List κ := m.entries.map (·.1)

/-- The values, in ascending order of their keys. -/
def values (m : SortedMap κ ν) : List ν := m.entries.map (·.2)

theorem get?_eq_some_iff {m : SortedMap κ ν} {k : κ} {v : ν} :
    m.get? k = some v ↔ (k, v) ∈ m.entries :=
  lookUp_eq_some_iff m.ascending

@[simp] theorem get?_empty (k : κ) : (empty : SortedMap κ ν).get? k = none := rfl

theorem get?_change [DecidableEq κ] (m : SortedMap κ ν) (k k₀ : κ) (f : Option ν → ν) :
    (m.change k f).get? k₀ = if k₀ = k then some (f (m.get? k)) else m.get? k₀ := by
  split
  · next h =>
    subst h
    exact lookUp_changeAt_self _
  · next h => exact lookUp_changeAt_of_ne h m.ascending

theorem mem_keys_change [DecidableEq κ] {m : SortedMap κ ν} {k k₀ : κ} {f : Option ν → ν} :
    k₀ ∈ (m.change k f).keys ↔ k₀ = k ∨ k₀ ∈ m.keys := by
  have mem_keys {m : SortedMap κ ν} : k₀ ∈ m.keys ↔ ∃ v, m.get? k₀ = some v := by
    simp [keys, get?_eq_some_iff]
  rw [mem_keys, mem_keys, get?_change]
  split
  · next h => simp [h]
  · next h => simp [h]

/-- A map is determined by what looking up finds in it. -/
theorem ext_get? {m n : SortedMap κ ν} (h : ∀ k, m.get? k = n.get? k) : m = n :=
  ext <| eq_of_mem_iff Prod.fst m.ascending n.ascending fun e => by
    rw [← get?_eq_some_iff (m := m), ← get?_eq_some_iff (m := n), h]

/-- A map is that of its own entries. -/
theorem ofList_entries (m : SortedMap κ ν) : ofList m.entries = m := by
  have hfold : ∀ (l : List (κ × ν)) (acc : SortedMap κ ν), KeysAscending (acc.entries ++ l) →
      (l.foldl (fun m e => m.insert e.1 e.2) acc).entries = acc.entries ++ l := by
    intro l
    induction l with
    | nil => exact fun acc _ => (List.append_nil _).symm
    | cons e l ih =>
      intro acc h
      have hlast : (acc.insert e.1 e.2).entries = acc.entries ++ [e] :=
        changeAt_of_lt fun d hd => (List.pairwise_append.1 h).2.2 d hd e List.mem_cons_self
      rw [List.append_cons, ← hlast] at h ⊢
      exact ih _ h
  exact ext (hfold m.entries empty m.ascending)

instance [DecidableEq κ] [DecidableEq ν] : DecidableEq (SortedMap κ ν) := fun m n =>
  decidable_of_iff (m.entries = n.entries) ⟨ext, congrArg entries⟩

end SortedMap

end Cohort
