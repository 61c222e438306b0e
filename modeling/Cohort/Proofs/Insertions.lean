import Cohort.Proofs.Persistence
import Mathlib.Data.List.Induction

/-!
# What insertions leave

An insertion adds its positions to the mask of its entity in its funnel, and changes nothing if
there is no such funnel. So an index that insertions make holds, for every funnel and entity, the
union of the masks inserted for the two (`Index.accumulates_filled`). No funnel is kept without
entities, so an index is told by these masks (`Index.Accumulates.eq`): it depends on which
insertions are made, but neither on their order nor on how often each is made
(`Index.insertions_accumulate`).
-/

namespace Cohort

/-- All positions of some masks. -/
def Mask.unite (ms : List Mask) : Mask := ms.foldr (· ||| ·) 0

namespace Mask

theorem unite_concat (ms : List Mask) (m : Mask) : unite (ms ++ [m]) = unite ms ||| m := by
  unfold unite
  induction ms with
  | nil => simp
  | cons n ms ih => rw [List.cons_append, List.foldr_cons, ih, List.foldr_cons, BitVec.or_assoc]

theorem getLsbD_unite {ms : List Mask} {i : Nat} :
    (unite ms).getLsbD i = true ↔ ∃ m ∈ ms, m.getLsbD i = true := by
  unfold unite
  induction ms with
  | nil => simp
  | cons m ms ih =>
    rw [List.foldr_cons, BitVec.getLsbD_or, Bool.or_eq_true, ih, List.exists_mem_cons_iff]

theorem unite_congr {ms ns : List Mask} (h : ∀ m, m ∈ ms ↔ m ∈ ns) : unite ms = unite ns :=
  BitVec.eq_of_getLsbD_eq fun i _ => by
    rw [Bool.eq_iff_iff, getLsbD_unite, getLsbD_unite]
    simp only [h]

end Mask

/-- A call that inserts an entity into a funnel. -/
structure Insertion where
  funnel : FunnelId
  entity : EntityId
  bits : Mask

namespace Insertion

/-- The masks that calls insert for an entity of a funnel. -/
def masksFor (calls : List Insertion) (f : FunnelId) (x : EntityId) : List Mask :=
  (calls.filter fun c => c.funnel = f ∧ c.entity = x).map (·.bits)

variable {calls calls' : List Insertion} {f : FunnelId} {x : EntityId} {m : Mask}

theorem mem_masksFor_iff :
    m ∈ masksFor calls f x ↔ ∃ c ∈ calls, (c.funnel = f ∧ c.entity = x) ∧ c.bits = m := by
  simp [masksFor, and_assoc]

theorem masksFor_concat (calls : List Insertion) (c : Insertion) (f : FunnelId) (x : EntityId) :
    masksFor (calls ++ [c]) f x
      = masksFor calls f x ++ if c.funnel = f ∧ c.entity = x then [c.bits] else [] := by
  unfold masksFor
  by_cases h : c.funnel = f ∧ c.entity = x <;> simp [h]

/-- The mask that calls give an entity of a funnel. -/
def maskFor? (calls : List Insertion) (f : FunnelId) (x : EntityId) : Option Mask :=
  if masksFor calls f x = [] then none else some (.unite (masksFor calls f x))

theorem maskFor?_eq_some_iff :
    maskFor? calls f x = some m ↔ masksFor calls f x ≠ [] ∧ m = .unite (masksFor calls f x) := by
  unfold maskFor?
  split
  · next h => exact iff_of_false nofun fun hm => hm.1 h
  · next h => rw [Option.some.injEq, and_iff_right h, eq_comm]

theorem maskFor?_concat (calls : List Insertion) (c : Insertion) (f : FunnelId) (x : EntityId) :
    maskFor? (calls ++ [c]) f x = if c.funnel = f ∧ c.entity = x then
      some ((maskFor? calls f x).getD 0 ||| c.bits) else maskFor? calls f x := by
  unfold maskFor?
  rw [masksFor_concat]
  by_cases h : c.funnel = f ∧ c.entity = x
  · rw [if_pos h, if_pos h, if_neg (by simp), Mask.unite_concat]
    split
    · next hnil => rw [hnil]; rfl
    · rfl
  · rw [if_neg h, if_neg h, List.append_nil]

theorem maskFor?_congr (h : ∀ c, c ∈ calls ↔ c ∈ calls') :
    maskFor? calls f x = maskFor? calls' f x := by
  have hmem : ∀ m, m ∈ masksFor calls f x ↔ m ∈ masksFor calls' f x := by
    simp only [mem_masksFor_iff, h, implies_true]
  have hnil : masksFor calls f x = [] ↔ masksFor calls' f x = [] := by
    simp only [List.eq_nil_iff_forall_not_mem, hmem]
  unfold maskFor?
  simp only [hnil, Mask.unite_congr hmem]

end Insertion

namespace Index

open Insertion

variable {index : Index} {f : FunnelId} {x : EntityId} {bits : Mask} {size : UInt64}
  {calls : List Insertion}

theorem insert_of_le (h : index.size.toNat ≤ f.toNat) (x : EntityId) (bits : Mask) :
    index.insert f x bits = .error (.notFound (.funnel f.toNat)) :=
  dif_neg (Nat.not_lt.2 h)

theorem exists_insert_iff :
    (∃ after, index.insert f x bits = .ok after) ↔ f.toNat < index.size.toNat := by
  constructor
  · rintro ⟨after, h⟩
    by_contra hf
    rw [insert_of_le (Nat.not_lt.1 hf)] at h
    exact nomatch h
  · intro hf
    obtain ⟨after, h, -⟩ := exists_insert hf x bits
    exact ⟨after, h⟩

theorem afterInsert_of_le (h : index.size.toNat ≤ f.toNat) (x : EntityId) (bits : Mask) :
    index.afterInsert f x bits = index := by
  unfold afterInsert
  rw [insert_of_le h]
  rfl

/-- Every funnel that is kept has entities. -/
def Populated (index : Index) : Prop :=
  ∀ f members, index.funnels.get? f = some members → ∃ x m, members.get? x = some m

theorem Populated.insert {after : Index} (h : index.Populated)
    (ha : index.insert f x bits = .ok after) : after.Populated := by
  unfold Index.insert at ha
  split at ha
  · cases ha
    intro k members hk
    rw [SortedMap.get?_change] at hk
    split at hk
    · cases hk
      exact ⟨x, _, (SortedMap.get?_change _ _ _ _).trans (if_pos rfl)⟩
    · exact h k members hk
  · cases ha

/-- Indexes with entities in every funnel that they keep are told by their masks. -/
theorem eq_of_mask?_eq {i j : Index} (hi : i.Populated) (hj : j.Populated) (hs : i.size = j.size)
    (h : ∀ f x, i.mask? f x = j.mask? f x) : i = j := by
  refine ext hs (SortedMap.ext_get? fun f => ?_)
  have hf := h f
  unfold mask? at hf
  -- a funnel that only one of the two keeps has an entity, which the other one lacks
  cases hif : i.funnels.get? f with
  | none =>
    cases hjf : j.funnels.get? f with
    | none => rfl
    | some n =>
      obtain ⟨x, m, hx⟩ := hj f n hjf
      simpa [hif, hjf, hx] using hf x
  | some m =>
    cases hjf : j.funnels.get? f with
    | none =>
      obtain ⟨x, m, hx⟩ := hi f m hif
      simpa [hif, hjf, hx] using hf x
    | some n =>
      simp only [hif, hjf, Option.bind_some] at hf
      rw [SortedMap.ext_get? hf]

/-- The index that calls make of one without entities; those that are refused change nothing. -/
def filled (size : UInt64) (calls : List Insertion) : Index :=
  calls.foldl (fun index c => index.afterInsert c.funnel c.entity c.bits) (.empty size)

/-- An index has what calls insert into the funnels that it has, and nothing else. -/
structure Accumulates (n : UInt64) (calls : List Insertion) (index : Index) : Prop where
  size : index.size = n
  populated : index.Populated
  mask? : ∀ f x, index.mask? f x = if f.toNat < n.toNat then maskFor? calls f x else none

theorem accumulates_empty (size : UInt64) : Accumulates size [] (.empty size) where
  size := rfl
  populated := fun f _ h => nomatch (SortedMap.get?_empty f).symm.trans h
  mask? := fun _ _ => (ite_self _).symm

theorem Accumulates.concat (h : Accumulates size calls index) (c : Insertion) :
    Accumulates size (calls ++ [c]) (index.afterInsert c.funnel c.entity c.bits) := by
  by_cases hc : c.funnel.toNat < index.size.toNat
  · obtain ⟨after, ha, hsize, hmask⟩ := exists_insert hc c.entity c.bits
    have hafter : index.afterInsert c.funnel c.entity c.bits = after := by
      unfold afterInsert
      rw [ha]
      rfl
    rw [hafter]
    refine ⟨hsize.trans h.size, h.populated.insert ha, fun f x => ?_⟩
    rw [h.size] at hc
    rw [hmask, h.mask?, maskFor?_concat]
    by_cases hx : c.funnel = f ∧ c.entity = x
    · obtain ⟨rfl, rfl⟩ := hx
      simp [hc]
    · have hx' : ¬ (x = c.entity ∧ f = c.funnel) := fun h => hx ⟨h.2.symm, h.1.symm⟩
      rw [if_neg hx, if_neg hx']
  · rw [afterInsert_of_le (Nat.not_lt.1 hc)]
    refine ⟨h.size, h.populated, fun f x => ?_⟩
    rw [h.size] at hc
    rw [h.mask?, maskFor?_concat]
    refine ite_congr rfl (fun hf => ?_) fun _ => rfl
    have hx : ¬ (c.funnel = f ∧ c.entity = x) := fun hx => hc (hx.1.symm ▸ hf)
    rw [if_neg hx]

theorem accumulates_filled (size : UInt64) (calls : List Insertion) :
    Accumulates size calls (filled size calls) := by
  induction calls using List.reverseRecOn with
  | nil => exact accumulates_empty size
  | append_singleton calls c ih =>
    unfold filled at ih ⊢
    rw [List.foldl_append]
    exact ih.concat c

theorem size_filled (size : UInt64) (calls : List Insertion) : (filled size calls).size = size :=
  (accumulates_filled size calls).size

theorem Accumulates.eq {calls' : List Insertion} {after : Index} (h : Accumulates size calls index)
    (h' : Accumulates size calls' after) (hcalls : ∀ c, c ∈ calls ↔ c ∈ calls') :
    index = after := by
  refine eq_of_mask?_eq h.populated h'.populated (h.size.trans h'.size.symm) fun f x => ?_
  rw [h.mask?, h'.mask?, maskFor?_congr hcalls]

theorem exists_funnel_filled (hf : f.toNat < size.toNat) :
    ∃ els, (filled size calls).funnel f = .ok els ∧ (els.map (·.id)).Pairwise (· < ·)
      ∧ ∀ a, a ∈ els ↔ masksFor calls f a.id ≠ [] ∧ a.mask = .unite (masksFor calls f a.id) := by
  have hf' : f.toNat < (filled size calls).size.toNat := by rwa [size_filled]
  refine ⟨(filled size calls).elements f, funnel_eq_ok_iff.2 ⟨hf', rfl⟩, elements_ascending _ f,
    fun a => ?_⟩
  rw [mem_elements_iff, (accumulates_filled size calls).mask?, if_pos hf, maskFor?_eq_some_iff]

/-- An insertion is refused exactly where there is no such funnel, and then changes nothing. After
a sequence of calls, each funnel lists the entities that were inserted into it, in ascending order
and with all positions inserted for them. The index is the same for every sequence of the same
calls, in whatever order and however often they are made. -/
theorem insertions_accumulate (size : UInt64) (calls : List Insertion) :
    (∀ f x bits,
        (∃ after, (filled size calls).insert f x bits = .ok after) ↔ f.toNat < size.toNat)
      ∧ (∀ f x bits, size.toNat ≤ f.toNat →
        (filled size calls).insert f x bits = .error (.notFound (.funnel f.toNat))
          ∧ (filled size calls).afterInsert f x bits = filled size calls)
      ∧ (∀ f, f.toNat < size.toNat → ∃ els, (filled size calls).funnel f = .ok els
        ∧ (els.map (·.id)).Pairwise (· < ·)
        ∧ ∀ a, a ∈ els ↔ masksFor calls f a.id ≠ [] ∧ a.mask = .unite (masksFor calls f a.id))
      ∧ ∀ calls', (∀ c, c ∈ calls ↔ c ∈ calls') → filled size calls = filled size calls' := by
  have hsize := size_filled size calls
  refine ⟨fun f x bits => ?_, fun f x bits hf => ?_, fun f hf => exists_funnel_filled hf,
    fun calls' h => (accumulates_filled size calls).eq (accumulates_filled size calls') h⟩
  · rw [exists_insert_iff, hsize]
  · rw [← hsize] at hf
    exact ⟨insert_of_le hf x bits, afterInsert_of_le hf x bits⟩

example : (filled 2 [⟨1, 7, 0⟩, ⟨5, 7, 1⟩, ⟨1, 9, 2⟩, ⟨1, 7, 4⟩]).funnel 1
    = .ok [⟨7, 4⟩, ⟨9, 2⟩] := by
  decide

end Index

end Cohort
