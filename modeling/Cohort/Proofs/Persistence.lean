import Cohort.Database.Basic
import Cohort.Proofs.Contents
import Cohort.Proofs.JsonText

/-!
# Indexes saved and loaded

An index is what is loaded from the text that it is saved as, and a text is loaded exactly when what
it gives for funnels lies within what it gives for their number (`Index.load_eq_ok_iff`). So a
database whose index is saved is what is loaded again over its log (`Database.load_save`), and the
indexes that operations lead to are those with their funnels within their size, and all of these.
-/

namespace Cohort

open Json

namespace Index

/-- An index after an insertion, which changes nothing if it is refused. -/
def afterInsert (index : Index) (funnel : FunnelId) (entity : EntityId) (bits : Mask) : Index :=
  (index.insert funnel entity bits).toOption.getD index

/-- The indexes that are made without entities, built from logs or loaded from texts, and what
insertions make of them. -/
inductive Reached : Index → Prop
  | empty (size : UInt64) : Reached (.empty size)
  | build {log : Log} {config : Config} {index : Index} (h : Index.build log config = .ok index) :
    Reached index
  | load {text : String} {index : Index} (h : Index.load text = .ok index) : Reached index
  | insert {index : Index} (h : Reached index) (funnel : FunnelId) (entity : EntityId)
    (bits : Mask) : Reached (index.afterInsert funnel entity bits)

variable {index : Index} {text : String} {size : UInt64}
  {funnels : SortedMap FunnelId (SortedMap EntityId Mask)}

/-- The JSON of an index is what gives its size and its funnels. -/
theorem exists_json (index : Index) :
    ∃ v, Denotes index.write v ∧ parts? v = some (index.size, index.funnels) := by
  have hfaithful := Stored.faithful_sortedMap (Stored.faithful_sortedMap Stored.faithful_mask)
  obtain ⟨v, hv, hread⟩ := hfaithful index.funnels
  have hsize : index.size.toNat < bound64 := index.size.toNat_lt
  let members : List (String × Json) :=
    [("num_funnels", .number (writeNat index.size.toNat)), ("funnels", v)]
  refine ⟨.object (members.map fun m => (escapeText m.1, m.2)), ?_, ?_⟩
  · have hnumber := denotes_writeNat index.size.toNat
    exact denotes_writeObject (.cons ⟨rfl, hnumber⟩ (.cons ⟨rfl, hv⟩ .nil))
  · have hdistinct : (members.map (·.1)).Nodup := by simp [members]
    show (fields? (members.map (·.1)) (.object (members.map fun m => (escapeText m.1, m.2))) >>= _)
      = _
    rw [fields?_object hdistinct]
    show (do
      let n ← boundedBy bound64 (writeNat index.size.toNat)
      let fs ← Stored.read? v
      return (UInt64.ofNat n, fs)) = _
    rw [boundedBy_writeNat hsize, hread]
    simp

/-- A text is loaded as the index whose size and funnels it gives. -/
theorem load_eq_ok_iff :
    load text = .ok index
      ↔ (Json.read? text.toList).bind parts? = some (index.size, index.funnels) := by
  unfold load
  constructor
  · intro h
    split at h
    · exact nomatch h
    · next size funnels hparts =>
      split at h
      · exact nomatch h
      · cases h
        exact hparts
  · intro h
    rw [h]
    simp only []
    split
    · next id hid =>
      have hle : index.size.toNat ≤ id.toNat := by simpa using List.find?_some hid
      exact absurd (index.within id (List.mem_of_find?_eq_some hid)) (Nat.not_lt.2 hle)
    · rfl

theorem load_save (index : Index) :
    ∃ text, index.save (.ok : String → Except String String) = .ok text
      ∧ load text = .ok index := by
  obtain ⟨v, hv, hparts⟩ := exists_json index
  refine ⟨String.ofList index.write, rfl, load_eq_ok_iff.2 ?_⟩
  rw [String.toList_ofList, read?_of_denotes hv]
  exact hparts

/-- What a text gives is loaded exactly when its funnels lie within its size. -/
theorem exists_load_iff (h : (Json.read? text.toList).bind parts? = some (size, funnels)) :
    (∃ index, load text = .ok index) ↔ ∀ id ∈ funnels.keys, id.toNat < size.toNat := by
  simp only [load_eq_ok_iff, h, Option.some.injEq, Prod.mk.injEq]
  constructor
  · rintro ⟨index, rfl, rfl⟩
    exact index.within
  · exact fun hwithin => ⟨⟨size, funnels, hwithin⟩, rfl, rfl⟩

end Index

namespace Database

theorem load_save (db : Database Index) :
    ∃ text, db.save (.ok : String → Except String String) = .ok text
      ∧ load db.log text db.config = .ok db := by
  obtain ⟨text, hsave, hload⟩ := Index.load_save db.index
  refine ⟨text, hsave, ?_⟩
  unfold load
  rw [hload]
  exact make_eq_ok db.layout_eq db.size_eq

/-- The indexes that operations lead to are those whose funnels lie within their size. Each is what
is loaded from the text that it is saved as, and so is a database over its log and description. A
text is loaded exactly when the funnels that it gives lie within the size that it gives, and what it
gives is what is loaded. -/
theorem persistence :
    (∀ (size : UInt64) (funnels : SortedMap FunnelId (SortedMap EntityId Mask)),
        (∃ index, Index.Reached index ∧ index.size = size ∧ index.funnels = funnels)
          ↔ ∀ id ∈ funnels.keys, id.toNat < size.toNat)
      ∧ (∀ index : Index, ∃ text, index.save (.ok : String → Except String String) = .ok text
        ∧ Index.load text = .ok index)
      ∧ (∀ db : Database Index, ∃ text, db.save (.ok : String → Except String String) = .ok text
        ∧ load db.log text db.config = .ok db)
      ∧ ∀ text size funnels, (Json.read? text.toList).bind Index.parts? = some (size, funnels) →
        ((∃ index, Index.load text = .ok index) ↔ ∀ id ∈ funnels.keys, id.toNat < size.toNat)
          ∧ ∀ index, Index.load text = .ok index → index.size = size ∧ index.funnels = funnels := by
  refine ⟨fun size funnels => ⟨?_, fun hwithin => ?_⟩, Index.load_save, load_save,
    fun text size funnels h => ⟨Index.exists_load_iff h, fun index hload => ?_⟩⟩
  · rintro ⟨index, -, rfl, rfl⟩
    exact index.within
  · obtain ⟨text, -, hload⟩ := Index.load_save ⟨size, funnels, hwithin⟩
    exact ⟨_, .load hload, rfl, rfl⟩
  · rw [Index.load_eq_ok_iff, h, Option.some.injEq, Prod.mk.injEq] at hload
    exact ⟨hload.1.symm, hload.2.symm⟩

/-- The text of an index of two funnels, in one of which an entity has every position. -/
def fullMaskText : String :=
  "\x7b\"num_funnels\":2,\"funnels\":\x7b\"1\":\x7b\"7\":18446744073709551615\x7d\x7d\x7d"

theorem persistence_full_mask : ∃ index, Index.load fullMaskText = .ok index ∧ index.size = 2
    ∧ index.funnels = .ofList [(1, .ofList [(7, BitVec.allOnes 64)])] := by
  have hparts : (Json.read? fullMaskText.toList).bind Index.parts?
      = some (2, .ofList [(1, .ofList [(7, BitVec.allOnes 64)])]) := by decide +kernel
  obtain ⟨-, -, -, hloads⟩ := persistence
  obtain ⟨hiff, hgives⟩ := hloads _ _ _ hparts
  obtain ⟨index, hload⟩ := hiff.2 (Index.within_of_all (by decide))
  exact ⟨index, hload, hgives index hload⟩

end Database

end Cohort
