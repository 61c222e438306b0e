import Cohort.Proofs.JsonText

/-!
# Descriptions written and read again

A description is what is read from the text that it is written as (`Config.store_lossless`),
whatever names its groups and its mask field have. A single name is written as a string and a list
of names as an array, so the two ways of writing one field are told apart. Both fields of the record
are always written, so what a missing field stands for is never put in the place of an empty list.
-/

namespace Cohort

open Json

namespace Stored

/-- What is written for a value of a faithful type is read as this value. -/
theorem restore_store {α : Type} [Stored α] (h : Faithful α) (a : α) :
    restore (store a) = .ok a := by
  obtain ⟨v, hv, hread⟩ := h a
  unfold restore store
  rw [String.toList_ofList, read?_of_denotes hv, Option.bind_some, hread]

theorem text?_escapeText (s : String) : text? (.string (escapeText s)) = some s := by
  show (unescape (escapeText s)).map String.ofList = _
  rw [unescape_escapeText, Option.map_some, String.ofList_toList]

theorem faithful_keyGroup : Faithful KeyGroup
  | .one name => by
    refine ⟨_, denotes_quote name, ?_⟩
    show (text? (.string (escapeText name))).map KeyGroup.one = _
    rw [text?_escapeText, Option.map_some]
  | .many names => by
    refine ⟨.array (names.map fun n => .string (escapeText n)), denotes_writeArray ?_, ?_⟩
    · rw [List.forall₂_map_left_iff, List.forall₂_map_right_iff, List.forall₂_same]
      exact fun n _ => denotes_quote n
    · show ((names.map fun n => Json.string (escapeText n)).mapM text?).map KeyGroup.many = _
      rw [mapM_map_eq_some (h := id) fun n _ => text?_escapeText n, List.map_id, Option.map_some]

/-- No name is written as a string, so it is told apart from the word for none. -/
theorem exists_json_maskField (mask : Option String) :
    ∃ v, Denotes ((mask.map quote).getD ['n', 'u', 'l', 'l']) v
      ∧ optional? text? v = some mask := by
  cases mask with
  | none => exact ⟨.null, denotes_null, rfl⟩
  | some name =>
    refine ⟨_, denotes_quote name, ?_⟩
    show some <$> text? (.string (escapeText name)) = _
    rw [text?_escapeText]
    rfl

theorem faithful_config : Faithful Config := by
  intro c
  choose json hdenotes hread using faithful_keyGroup
  obtain ⟨v, hv, hmask⟩ := exists_json_maskField c.maskField
  let members : List (String × Json) := [("keys", .array (c.keys.map json)), ("mask_field", v)]
  refine ⟨.object (members.map fun m => (escapeText m.1, m.2)), ?_, ?_⟩
  · have hkeys : Denotes (writeArray (c.keys.map write)) (.array (c.keys.map json)) := by
      refine denotes_writeArray ?_
      rw [List.forall₂_map_left_iff, List.forall₂_map_right_iff, List.forall₂_same]
      exact fun g _ => hdenotes g
    exact denotes_writeObject (.cons ⟨rfl, hkeys⟩ (.cons ⟨rfl, hv⟩ .nil))
  · have hdistinct : (members.map (·.1)).Nodup := by simp [members]
    have hkeys : list? (read? (α := KeyGroup)) (.array (c.keys.map json)) = some c.keys := by
      show (c.keys.map json).mapM read? = _
      rw [mapM_map_eq_some (h := id) fun g _ => hread g, List.map_id]
    show (fields? (members.map (·.1)) (.object (members.map fun m => (escapeText m.1, m.2))) >>= _)
      = _
    rw [fields?_object hdistinct]
    show (do
      let keys ← list? (read? (α := KeyGroup)) (.array (c.keys.map json))
      let mask ← optional? text? v
      return Config.mk keys mask) = _
    rw [hkeys, hmask]
    rfl

end Stored

namespace Config

theorem store_inj {c d : Config} : store c = store d ↔ c = d := by
  refine ⟨fun h => ?_, fun h => h ▸ rfl⟩
  have hrestore := Stored.restore_store Stored.faithful_config c
  rw [h, Stored.restore_store Stored.faithful_config d] at hrestore
  exact (Except.ok.inj hrestore).symm

/-- Every description is read from the text that it is written as. A group that is a single name is
not written as the list of this name, and an empty list of groups is not written as the list that a
missing one stands for. -/
theorem store_lossless :
    (∀ c : Config, restore (store c) = .ok c)
      ∧ (∀ (before after : List KeyGroup) (name : String) (mask : Option String),
        store (Config.mk (before ++ .one name :: after) mask)
          ≠ store (Config.mk (before ++ .many [name] :: after) mask))
      ∧ ∀ mask : Option String,
        store (Config.mk [] mask) ≠ store (Config.mk standard.keys mask) := by
  refine ⟨Stored.restore_store Stored.faithful_config, fun before after name mask => ?_,
    fun mask => ?_⟩
  · rw [Ne, store_inj]
    simp
  · rw [Ne, store_inj]
    simp [standard]

/-- What missing fields stand for. -/
example : restore (α := Config) "\x7b\x7d" = .ok standard := by cbv

end Config

end Cohort
