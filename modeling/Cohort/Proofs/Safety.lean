import Cohort.Proofs.Numbering
import Cohort.Proofs.Queries
import Cohort.Proofs.Resolution
import Cohort.Proofs.SetAlgebra

/-!
# Selections that a database makes

A database gives out no funnel that its index does not have, however it is addressed
(`Database.funnel_lt_of_funnelOf`). Leaves and queries take their funnels from there, operators and
joins take those of their parts, so whatever is made of them is evaluated without failure
(`Database.evaluates_made`).
-/

namespace Cohort

theorem untilFailure_map_ok {α : Type} : ∀ l : List α, untilFailure (l.map .ok) = l.map .ok
  | [] => rfl
  | a :: l => by rw [List.map_cons, untilFailure, untilFailure_map_ok l]

namespace Index

variable {index : Index} {f : FunnelId} {tests : List MaskTest}

/-- The entities of a funnel whose masks pass a test are those of the leaf of the two. -/
theorem ids_filter_elements (index : Index) (f : FunnelId) (t : MaskTest) :
    ((index.elements f).filter fun e => t.accepts e.mask).map (·.id)
      = index.members (.leaf ⟨f, t⟩) := by
  refine eq_of_ascending ((index.elements_ascending f).sublist (List.filter_sublist.map _))
    (members_ascending _ _) fun x => ?_
  rw [mem_members_leaf_iff, has_leaf, List.mem_map]
  simp only [List.mem_filter, mem_elements_iff]
  constructor
  · rintro ⟨e, ⟨he, ht⟩, rfl⟩
    exact ⟨e.mask, he, ht⟩
  · rintro ⟨m, hm, ht⟩
    exact ⟨⟨x, m⟩, ⟨hm, ht⟩, rfl⟩

theorem counts_eq_ok_iff {ns : List Nat} : index.counts tests f = .ok ns
    ↔ f.toNat < index.size.toNat
      ∧ (tests.map fun t => (index.members (.leaf ⟨f, t⟩)).length) = ns := by
  unfold counts funnel
  simp only [← ids_filter_elements, List.length_map, bind_eq_ok_iff, pure_eq_ok_iff,
    Layout.checkFunnel_eq_ok_iff]
  simp

theorem exists_counts (h : f.toNat < index.size.toNat) (tests : List MaskTest) :
    ∃ ns, index.counts tests f = .ok ns ∧ ns.length = tests.length :=
  ⟨_, counts_eq_ok_iff.2 ⟨h, rfl⟩, List.length_map _⟩

end Index

namespace Database

/-- The selections that are made of a database's funnels, addresses, leaves and queries, and of
these by operators and joins. -/
inductive Made {ε : Type} [Evaluator ε] (db : Database ε) : Selection → Prop
  | funnel {id : FunnelId} {test : Option MaskTest} {l : Leaf} (h : db.leafOf id test = .ok l) :
      Made db (.leaf l)
  | select {address : Address} {mask : Formula String} {l : Leaf}
      (h : db.select address mask = .ok l) : Made db (.leaf l)
  | leaf {text : String} {l : Leaf} (h : db.leaf text = .ok l) : Made db (.leaf l)
  | query {text : String} {s : Selection} (h : db.query text = .ok s) : Made db s
  | op (o : SetOp) {s u : Selection} (hs : Made db s) (hu : Made db u) : Made db (o.selection s u)
  | join {j : Selection.Join} {ss : List Selection} {s : Selection} (hss : ∀ u ∈ ss, Made db u)
      (h : Selection.join j ss = .ok s) : Made db s

variable {db : Database Index} {address : Address} {f : FunnelId} {l : Leaf} {text : String}
  {s : Selection}

theorem size_index (db : Database Index) : db.index.size.toNat = db.layout.size := db.size_eq

theorem lt_of_resolve {key : Key} (h : db.layout.resolve db.log key = .ok f) :
    f.toNat < db.index.size.toNat := by
  have hd := Layout.describes_of_build db.layout_eq
  obtain ⟨i, _, _, -, -, -, -, ha, -⟩ := Layout.exists_address_of_resolve hd h
  rw [size_index]
  exact Layout.lt_of_addresses hd ha

/-- An address is refused or is that of a funnel that there is. -/
theorem funnel_lt_of_funnelOf (h : db.funnelOf address = .ok f) :
    f.toNat < db.index.size.toNat := by
  unfold funnelOf Layout.funnel at h
  cases address with
  | id id =>
    simp only [bind_eq_ok_iff, pure_eq_ok_iff] at h
    obtain ⟨_, hid, rfl⟩ := h
    rw [size_index]
    exact Layout.checkFunnel_eq_ok_iff.1 hid
  | key key => exact lt_of_resolve h
  | text text =>
    obtain ⟨key, -, h⟩ := bind_eq_ok_iff.1 h
    exact lt_of_resolve h

/-- Any funnel that there is can be taken, with any test. -/
theorem leafOf_eq_ok_iff {id : FunnelId} {test : Option MaskTest} : db.leafOf id test = .ok l
    ↔ id.toNat < db.index.size.toNat ∧ ⟨id, test.getD .always⟩ = l := by
  unfold leafOf size
  simp only [bind_eq_ok_iff, pure_eq_ok_iff, Layout.checkFunnel_eq_ok_iff, size_index]
  exact ⟨fun ⟨_, h⟩ => h, fun h => ⟨(), h⟩⟩

theorem funnel_lt_of_select {mask : Formula String} (h : db.select address mask = .ok l) :
    l.funnel.toNat < db.index.size.toNat := by
  unfold select at h
  simp only [bind_eq_ok_iff, pure_eq_ok_iff] at h
  obtain ⟨f, hf, _, -, rfl⟩ := h
  exact funnel_lt_of_funnelOf hf

theorem funnel_lt_of_leaf (h : db.leaf text = .ok l) : l.funnel.toNat < db.index.size.toNat := by
  unfold leaf at h
  simp only [bind_eq_ok_iff] at h
  obtain ⟨_, -, _, -, h⟩ := h
  exact funnel_lt_of_select h

theorem covers_leaf (h : l.funnel.toNat < db.index.size.toNat) : db.index.Covers (.leaf l) := by
  intro k hk
  rw [Selection.leaves, List.mem_singleton] at hk
  exact hk ▸ h

theorem covers_query (h : db.query text = .ok s) : db.index.Covers s := by
  obtain ⟨f, hf, hne⟩ := exists_asks h
  have hc := combines_of_query hf hne h
  intro l hl
  rw [hc.leaves, mem_parts] at hl
  obtain ⟨_, -, hl⟩ := hl
  exact funnel_lt_of_leaf hl

theorem covers_join {j : Selection.Join} {ss : List Selection}
    (hss : ∀ u ∈ ss, db.index.Covers u) (h : Selection.join j ss = .ok s) : db.index.Covers s := by
  obtain ⟨u, hu, hleaves, -⟩ := Selection.exists_join j ss (Selection.ne_nil_of_join h)
  obtain rfl : s = u := Except.ok.inj (h.symm.trans hu)
  intro l hl
  rw [hleaves, Selection.mem_leavesAll] at hl
  obtain ⟨u, hu, hl⟩ := hl
  exact hss u hu l hl

/-- The index has all funnels of what the database makes. -/
theorem covers_of_made (h : db.Made s) : db.index.Covers s := by
  induction h with
  | funnel h =>
    obtain ⟨hid, rfl⟩ := leafOf_eq_ok_iff.1 h
    exact covers_leaf hid
  | select h => exact covers_leaf (funnel_lt_of_select h)
  | leaf h => exact covers_leaf (funnel_lt_of_leaf h)
  | query h => exact covers_query h
  | op o _ _ hs hu => exact Index.covers_of_leaves (o.leaves_selection _ _) hs hu
  | join _ h hss => exact covers_join hss h

theorem elements_of_select {els : List Element} (hs : db.index.select s = .ok els) :
    db.elements s = .ok (els.map .ok) := by
  have hscan : Evaluator.scan db.index s = .ok (els.map .ok) := by
    show (db.index.select s >>= fun es => pure (es.map Except.ok)) = _
    rw [hs]
    rfl
  unfold elements
  rw [hscan]
  exact congrArg Except.ok (untilFailure_map_ok els)

theorem elements_eq_ok_iff {items : List (Except Error Element)} : db.elements s = .ok items
    ↔ ∃ els, db.index.select s = .ok els ∧ els.map .ok = items := by
  constructor
  · intro h
    obtain ⟨scanned, hscan, -⟩ := bind_eq_ok_iff.1 h
    obtain ⟨els, hels, -⟩ := bind_eq_ok_iff.1 hscan
    exact ⟨els, hels, Except.ok.inj ((elements_of_select hels).symm.trans h)⟩
  · rintro ⟨els, hels, rfl⟩
    exact elements_of_select hels

/-- What the index covers is listed without failure, and counted. -/
theorem evaluates_of_covers (h : db.index.Covers s) :
    ∃ els : List Element, db.elements s = .ok (els.map .ok)
      ∧ els.map (·.id) = db.index.members s ∧ db.count s = .ok els.length := by
  obtain ⟨els, hels, hids⟩ := Index.select_of_covers h
  refine ⟨els, elements_of_select hels, hids, ?_⟩
  show db.index.count s = _
  rw [Index.count_of_covers h, ← hids, List.length_map]

theorem exists_counts (h : db.funnelOf address = .ok f) (tests : List MaskTest) :
    ∃ ns, db.counts tests address = .ok ns ∧ ns.length = tests.length := by
  unfold counts
  rw [h]
  exact Index.exists_counts (funnel_lt_of_funnelOf h) tests

/-- Whatever is made of a database's selections is of funnels that the index has, is listed without
failure and counted. Every funnel can be taken, joins of what is made exist, and the tests of a
family are counted in every funnel that an address has. -/
theorem evaluates_made (db : Database Index) :
    (∀ s, db.Made s → (∀ l ∈ s.leaves, l.funnel.toNat < db.index.size.toNat)
        ∧ ∃ els : List Element, db.elements s = .ok (els.map .ok)
          ∧ els.map (·.id) = db.index.members s ∧ db.count s = .ok els.length)
      ∧ (∀ id test l, db.leafOf id test = .ok l
        ↔ id.toNat < db.index.size.toNat ∧ ⟨id, test.getD .always⟩ = l)
      ∧ (∀ j ss, ss ≠ [] → (∀ u ∈ ss, db.Made u) → ∃ s, Selection.join j ss = .ok s ∧ db.Made s)
      ∧ ∀ address f, db.funnelOf address = .ok f → ∀ tests,
        ∃ ns, db.counts tests address = .ok ns ∧ ns.length = tests.length := by
  refine ⟨fun s hs => ?_, fun _ _ _ => leafOf_eq_ok_iff, fun j ss hne hss => ?_,
    fun _ _ h tests => exists_counts h tests⟩
  · have hcov := covers_of_made hs
    exact ⟨hcov, evaluates_of_covers hcov⟩
  · obtain ⟨s, hs, -⟩ := Selection.exists_join j ss hne
    exact ⟨s, hs, .join hss hs⟩

end Database

end Cohort
