import Cohort.Error

/-!
# Fields and their words

A field numbers the values it has had: its words in the order in which they first came up, from 1
on. The empty string is no word; it leaves a field unset, and its number is 0. No word is listed
twice, so numbers and words determine each other (`Field.number?_eq_some_iff`), and a word keeps its
number when others come up (`Field.words_prefix_learn`).
-/

namespace Cohort

/-- A field with the words that are its values. -/
structure Field where
  name : String
  /-- The words, in the order in which they first came up. -/
  words : List String
  distinct : words.Nodup
  proper : "" ∉ words

namespace Field

/-- A field that has had no value yet. -/
def fresh (name : String) : Field := ⟨name, [], List.nodup_nil, List.not_mem_nil⟩

def number? (f : Field) (word : String) : Option Nat := (f.words.idxOf? word).map (· + 1)

def word? (f : Field) (number : Nat) : Option String :=
  if number = 0 then none else f.words[number - 1]?

theorem number?_eq_none_iff {f : Field} {w : String} : f.number? w = none ↔ w ∉ f.words := by
  rw [number?, Option.map_eq_none_iff, List.idxOf?_eq_none_iff]

theorem number?_eq_some_iff {f : Field} {w : String} {n : Nat} :
    f.number? w = some n ↔ f.word? n = some w := by
  rw [number?, word?, Option.map_eq_some_iff]
  constructor
  · rintro ⟨i, hi, rfl⟩
    obtain ⟨hlt, hget, -⟩ := List.idxOf?_eq_some_iff.1 hi
    rw [if_neg (Nat.succ_ne_zero i), Nat.add_sub_cancel, List.getElem?_eq_getElem hlt, hget]
  · intro h
    split at h
    · exact nomatch h
    · next hn =>
      obtain ⟨hlt, hget⟩ := List.getElem?_eq_some_iff.1 h
      refine ⟨n - 1, List.idxOf?_eq_some_iff.2 ⟨hlt, hget, fun j hj e => ?_⟩, by omega⟩
      exact List.pairwise_iff_getElem.1 f.distinct j (n - 1) _ hlt hj (e.trans hget.symm)

theorem le_of_number? {f : Field} {w : String} {n : Nat} (h : f.number? w = some n) :
    n ≤ f.words.length := by
  obtain ⟨i, hi, rfl⟩ := Option.map_eq_some_iff.1 h
  exact (List.idxOf?_eq_some_iff.1 hi).1

/-- The field with one more word, unless the string is empty or a word already. -/
def learn (f : Field) (value : String) : Field :=
  if h : value = "" ∨ value ∈ f.words then f
  else {
    name := f.name
    words := f.words ++ [value]
    distinct := by
      simp only [not_or] at h
      exact List.nodup_append.2 ⟨f.distinct, List.pairwise_singleton _ _, by
        rintro a ha b hb rfl
        exact h.2 (List.mem_singleton.1 hb ▸ ha)⟩
    proper := by
      simp only [not_or] at h
      simpa [f.proper] using Ne.symm h.1 }

/-- The number of a value, 0 for the empty string. -/
def code (f : Field) (value : String) : Nat := (f.number? value).getD 0

@[simp] theorem name_learn (f : Field) (value : String) : (f.learn value).name = f.name := by
  unfold learn
  split <;> rfl

/-- Learning keeps the words and their numbers. -/
theorem words_prefix_learn (f : Field) (value : String) :
    f.words <+: (f.learn value).words := by
  unfold learn
  split
  · exact List.prefix_rfl
  · exact List.prefix_append _ _

theorem code_le (f : Field) (value : String) : f.code value ≤ f.words.length := by
  unfold code
  cases h : f.number? value with
  | none => exact Nat.zero_le _
  | some n => exact le_of_number? h

end Field

end Cohort
