import Cohort.Layout.Basic

/-!
# The keys of a layout

The keys that give every field of their group a value, group by group. Within a group they stand in
the order of their value numbers, the last field's varying fastest. There may be far too many of
them to list, so `firstKeys` makes only as many as are asked for (`firstChoices_eq_take`).
-/

namespace Cohort

variable {α : Type}

/-- All ways to choose one member of each list, the last list's varying fastest. -/
def choices : List (List α) → List (List α)
  | [] => [[]]
  | l :: ls => l.flatMap fun a => (choices ls).map (a :: ·)

/-- As many of the lists `a :: t`, for `a` in `l` and `t` in `ts`, as are asked for. -/
def firstConses (n : Nat) (ts : List (List α)) : List α → List (List α)
  | [] => []
  | a :: l =>
    if n ≤ ts.length then (ts.take n).map (a :: ·)
    else ts.map (a :: ·) ++ firstConses (n - ts.length) ts l

/-- As many of the ways to choose one member of each list as are asked for. -/
def firstChoices (n : Nat) : List (List α) → List (List α)
  | [] => [[]].take n
  | l :: ls => firstConses n (firstChoices n ls) l

theorem firstConses_eq_take (n : Nat) (ts : List (List α)) (l : List α) :
    firstConses n ts l = (l.flatMap fun a => ts.map (a :: ·)).take n := by
  induction l generalizing n with
  | nil => simp [firstConses]
  | cons a l ih =>
    rw [firstConses, List.flatMap_cons, List.take_append, List.length_map]
    split
    · next h => simp [Nat.sub_eq_zero_of_le h, List.map_take]
    · next h =>
      rw [ih, List.take_of_length_le (l := ts.map (a :: ·)) (by rw [List.length_map]; omega)]

theorem take_flatMap_take (n : Nat) (ts : List (List α)) (l : List α) :
    (l.flatMap fun a => (ts.take n).map (a :: ·)).take n
      = (l.flatMap fun a => ts.map (a :: ·)).take n := by
  by_cases h : ts.length ≤ n
  · rw [List.take_of_length_le h]
  · cases l with
    | nil => rfl
    | cons a l =>
      rw [List.flatMap_cons, List.flatMap_cons, List.take_append_of_le_length,
        List.take_append_of_le_length, List.map_take, List.take_take, Nat.min_self]
      · rw [List.length_map]
        omega
      · rw [List.length_map, List.length_take]
        omega

/-- What is made on demand is the start of the whole list. -/
theorem firstChoices_eq_take (n : Nat) (ls : List (List α)) :
    firstChoices n ls = (choices ls).take n := by
  induction ls with
  | nil => rfl
  | cons l ls ih => rw [firstChoices, choices, firstConses_eq_take, ih, take_flatMap_take]

namespace Layout

/-- A group's field names and their words. -/
def groupWords (log : Log) (g : GroupLayout) : Except Error (List (String × List String)) :=
  g.fields.mapM fun n => do
    let f ← log.field n
    return (f.name, f.words)

/-- The key that gives fields their values. -/
def keyFor (fields : List (String × List String)) (values : List String) : Key :=
  ⟨(fields.map (·.1)).zip values⟩

/-- The keys that set every field of their group. -/
def keys (layout : Layout) (log : Log) : Except Error (List Key) := do
  let groups ← layout.groups.mapM (groupWords log)
  return groups.flatMap fun fields => (choices (fields.map (·.2))).map (keyFor fields)

/-- As many of the keys of some groups as are asked for. -/
def firstKeysOf (n : Nat) : List (List (String × List String)) → List Key
  | [] => []
  | fields :: groups =>
    let keys := (firstChoices n (fields.map (·.2))).map (keyFor fields)
    if n ≤ keys.length then keys else keys ++ firstKeysOf (n - keys.length) groups

/-- As many of the keys that set every field of their group as are asked for. -/
def firstKeys (layout : Layout) (log : Log) (n : Nat) : Except Error (List Key) := do
  return firstKeysOf n (← layout.groups.mapM (groupWords log))

theorem firstKeysOf_eq_take (n : Nat) (groups : List (List (String × List String))) :
    firstKeysOf n groups
      = (groups.flatMap fun fields => (choices (fields.map (·.2))).map (keyFor fields)).take n := by
  induction groups generalizing n with
  | nil => simp [firstKeysOf]
  | cons fields groups ih =>
    simp only [firstKeysOf, firstChoices_eq_take, List.flatMap_cons, List.take_append,
      List.length_map, List.length_take]
    generalize choices (fields.map (·.2)) = c
    by_cases h : n ≤ c.length
    · rw [if_pos (by omega), Nat.sub_eq_zero_of_le h, List.take_zero, List.append_nil,
        List.map_take]
    · rw [if_neg (by omega), ih, Nat.min_eq_right (by omega),
        List.take_of_length_le (l := c) (by omega),
        List.take_of_length_le (l := c.map (keyFor fields)) (by rw [List.length_map]; omega)]

/-- What is made on demand is the start of all keys. -/
theorem firstKeys_eq_take (layout : Layout) (log : Log) (n : Nat) :
    layout.firstKeys log n = (layout.keys log).map (·.take n) := by
  simp only [firstKeys, keys, firstKeysOf_eq_take]
  cases layout.groups.mapM (groupWords log) <;> rfl

end Layout

end Cohort
