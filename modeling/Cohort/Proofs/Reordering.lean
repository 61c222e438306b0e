import Cohort.Proofs.Alike
import Cohort.Proofs.Answers
import Cohort.Proofs.Words

/-!
# The order of the calls

Histories whose accepted calls differ in their order only (`History.Reorders`) give logs with the
same words, differently numbered (`History.Reorders.alike`). Which calls match a key, and what
they carry, is read off the calls without their order (`History.Reorders.matching`,
`History.Reorders.answers`). So indexes of the two logs list the same entities for a query, and
count the same for a key (`Database.order_independent`).
-/

namespace Cohort

/-- The histories are of the same fields and have the same accepted calls, in any order. -/
structure History.Reorders (h h' : History) : Prop where
  names : h.names = h'.names
  accepted : h.accepted.Perm h'.accepted

namespace History.Reorders

variable {h h' : History}

theorem symm (hr : h.Reorders h') : h'.Reorders h := ⟨hr.names.symm, hr.accepted.symm⟩

theorem value (hr : h.Reorders h') : h.value = h'.value := by
  unfold History.value
  rw [hr.names]

/-- The logs have the same words. -/
theorem alike (hr : h.Reorders h') : h.log.Alike h'.log := by
  have hnames : h.log.fields.map (·.name) = h'.log.fields.map (·.name) := by
    rw [(Layout.records_log h).fields, (Layout.records_log h').fields, hr.names]
  refine ⟨hnames, fun a => ?_⟩
  by_cases ha : a ∈ h.log.fields.map (·.name)
  · obtain ⟨n, hn⟩ := Layout.exists_fieldNumber_iff.2 ha
    obtain ⟨n', hn'⟩ := Layout.exists_fieldNumber_iff.2 (hnames ▸ ha)
    rw [wordsOf_log hn, wordsOf_log hn', hr.value]
    exact perm_eraseDups ((hr.accepted.map _).filter _)
  · rw [Log.wordsOf_eq_nil ha, Log.wordsOf_eq_nil (hnames ▸ ha)]

theorem matching (hr : h.Reorders h') (config : Config) (k : Key) (x : EntityId) :
    (h.matching config k x).Perm (h'.matching config k x) := by
  unfold History.matching History.agrees
  rw [callsFor_eq, callsFor_eq, hr.value]
  split
  · exact (hr.accepted.filter _).filter _
  · exact .nil

theorem isEmpty_matching (hr : h.Reorders h') (config : Config) (k : Key) (x : EntityId) :
    (h.matching config k x).isEmpty = (h'.matching config k x).isEmpty :=
  (hr.matching config k x).isEmpty_eq

theorem carries (hr : h.Reorders h') (config : Config) {cs cs' : List Entry} (hcs : cs.Perm cs') :
    h.carries config cs = h'.carries config cs' := by
  funext v
  unfold History.carries
  rw [hr.value]
  split
  · exact hcs.any_eq
  · rfl

theorem keyHolds (hr : h.Reorders h') (config : Config) (k : Key) (f : Formula String)
    (x : EntityId) : h.keyHolds config k f x = h'.keyHolds config k f x := by
  unfold History.keyHolds
  rw [hr.isEmpty_matching, hr.carries config (hr.matching config k x)]

/-- The calls have the same answers to a query's formula. -/
theorem answers (hr : h.Reorders h') (config : Config) (f : Formula String) (x : EntityId) :
    h.answers config f x = h'.answers config f x := by
  have hlanding : ∀ t, (h.landing config t x).isEmpty = (h'.landing config t x).isEmpty := by
    intro t
    unfold History.landing
    cases readLeaf t with
    | ok p => exact hr.isEmpty_matching config p.1 x
    | error e => rfl
  have hleaf : h.leafHolds config x = h'.leafHolds config x := by
    funext t
    unfold History.leafHolds
    cases readLeaf t with
    | ok p => exact hr.keyHolds config p.1 p.2 x
    | error e => rfl
  unfold History.answers
  simp only [hlanding, hleaf]

end History.Reorders

namespace Database

theorem exists_build_iff {log : Log} {config : Config} :
    (∃ db, Database.build log config = .ok db)
      ↔ ∃ layout, Layout.build log config = .ok layout := by
  constructor
  · rintro ⟨db, hdb⟩
    exact ⟨_, (of_build hdb).2.1⟩
  · rintro ⟨layout, hl⟩
    obtain ⟨index, hi, hr⟩ := Index.exists_build hl
    exact ⟨_, build_eq_ok hl hi hr.size⟩

section Reordered

variable {h h' : History} {config : Config} {db db' : Database Index} (hr : h.Reorders h')
  (hdb : Database.build h.log config = .ok db) (hdb' : Database.build h'.log config = .ok db')

include hr hdb hdb'

theorem alike_of_reorders : db.Alike db' := by
  refine ⟨?_, (config_of_build hdb).trans (config_of_build hdb').symm⟩
  rw [(of_build hdb).1, (of_build hdb').1]
  exact hr.alike

/-- A query's selections have the same entities. -/
theorem members_query_reordered {text : String} {s s' : Selection} (hs : db.query text = .ok s)
    (hs' : db'.query text = .ok s') : db.index.members s = db'.index.members s' := by
  obtain ⟨f, parts, hf, hreads⟩ := exists_reads hs
  obtain ⟨f', parts', hf', hreads'⟩ := exists_reads hs'
  obtain rfl : f = f' := by simpa [hf] using hf'
  refine eq_of_ascending (Index.members_ascending _ _) (Index.members_ascending _ _) fun x => ?_
  rw [mem_members_iff_answers hdb hreads, mem_members_iff_answers hdb' hreads', hr.answers]

/-- The leaves of a key and a formula have the same entities. -/
theorem members_leaf_reordered {k : Key} {f f' : FunnelId} {mask : Formula String}
    {test test' : MaskTest} (hf : db.layout.resolve db.log k = .ok f)
    (hf' : db'.layout.resolve db'.log k = .ok f') (ht : db.maskTest mask = .ok test)
    (ht' : db'.maskTest mask = .ok test') :
    db.index.members (.leaf ⟨f, test⟩) = db'.index.members (.leaf ⟨f', test'⟩) := by
  refine eq_of_ascending (Index.members_ascending _ _) (Index.members_ascending _ _) fun x => ?_
  rw [Index.mem_members_leaf_iff, Index.mem_members_leaf_iff, has_of_resolve hdb hf ht,
    has_of_resolve hdb' hf' ht', hr.keyHolds]

/-- What is counted of a key's funnel in one database is counted in the other. -/
theorem counts_reordered {queries : List String} {text : String} {ns : List Nat}
    (h : (do db.counts (← db.family queries) (.text text)) = .ok ns) :
    (do db'.counts (← db'.family queries) (.text text)) = .ok ns := by
  have halike := alike_of_reorders hr hdb hdb'
  obtain ⟨tests, htests, hcounts⟩ := bind_eq_ok_iff.1 h
  unfold counts funnelOf Layout.funnel at hcounts
  simp only [bind_eq_ok_iff] at hcounts
  obtain ⟨f, ⟨k, hk, hf⟩, hns⟩ := hcounts
  obtain ⟨f', hf'⟩ := halike.exists_resolve ⟨f, hf⟩
  have hfamily : ∃ tests', db'.family queries = .ok tests' := by
    refine exists_mapM_iff.2 fun q hq => ?_
    obtain ⟨t, ht⟩ := exists_mapM_iff.1 ⟨tests, htests⟩ q hq
    obtain ⟨mask, hmask, ht⟩ := bind_eq_ok_iff.1 ht
    obtain ⟨t', ht'⟩ := halike.exists_maskTest ⟨t, ht⟩
    exact ⟨t', bind_eq_ok_iff.2 ⟨mask, hmask, ht'⟩⟩
  obtain ⟨tests', htests'⟩ := hfamily
  -- the tests of the two families are those of the same formulas, one by one
  have hrel : List.Forall₂ (fun t t' => (db.index.members (.leaf ⟨f, t⟩)).length
      = (db'.index.members (.leaf ⟨f', t'⟩)).length) tests tests' := by
    refine (mapM_rel htests htests').imp fun t t' ⟨q, ht, ht'⟩ => ?_
    obtain ⟨mask, hmask, ht⟩ := bind_eq_ok_iff.1 ht
    obtain ⟨mask', hmask', ht'⟩ := bind_eq_ok_iff.1 ht'
    obtain rfl : mask = mask' := by simpa [hmask] using hmask'
    rw [members_leaf_reordered hr hdb hdb' hf hf' ht ht']
  have hlengths : tests.map (fun t => (db.index.members (.leaf ⟨f, t⟩)).length)
      = tests'.map fun t => (db'.index.members (.leaf ⟨f', t⟩)).length := by
    rwa [← List.forall₂_eq_eq_eq, List.forall₂_map_left_iff, List.forall₂_map_right_iff]
  unfold counts funnelOf Layout.funnel
  simp only [bind_eq_ok_iff]
  refine ⟨tests', htests', f', ⟨k, hk, hf'⟩, Index.counts_eq_ok_iff.2 ⟨lt_of_resolve hf', ?_⟩⟩
  rw [← hlengths]
  exact (Index.counts_eq_ok_iff.1 hns).2

end Reordered

/-- What databases give out does not depend on the order in which the calls were made. For histories
of the same fields with the same accepted calls, building a database succeeds for both or for
neither. Of the two databases, both or neither make a selection of a text, and list the same
entities for it; and what they count for a key and texts of tests is the same, if they do. -/
theorem order_independent (h h' : History) (hr : h.Reorders h') (config : Config) :
    ((∃ db, Database.build h.log config = .ok db) ↔ ∃ db, Database.build h'.log config = .ok db)
      ∧ ∀ db db', Database.build h.log config = .ok db → Database.build h'.log config = .ok db' →
        (∀ text, ((∃ s, db.query text = .ok s) ↔ ∃ s, db'.query text = .ok s)
          ∧ ∀ s s', db.query text = .ok s → db'.query text = .ok s' →
            ∃ els els' : List Element, db.elements s = .ok (els.map .ok)
              ∧ db'.elements s' = .ok (els'.map .ok) ∧ els.map (·.id) = els'.map (·.id))
        ∧ ∀ queries text, (do db.counts (← db.family queries) (.text text)).toOption
          = (do db'.counts (← db'.family queries) (.text text)).toOption := by
  refine ⟨?_, fun db db' hdb hdb' => ⟨fun text => ⟨?_, fun s s' hs hs' => ?_⟩,
    fun queries text => ?_⟩⟩
  · rw [exists_build_iff, exists_build_iff, hr.alike.build]
  · exact (alike_of_reorders hr hdb hdb').exists_query_iff
  · obtain ⟨els, hels, hids, -⟩ := evaluates_of_covers (covers_query hs)
    obtain ⟨els', hels', hids', -⟩ := evaluates_of_covers (covers_query hs')
    refine ⟨els, els', hels, hels', ?_⟩
    rw [hids, hids', members_query_reordered hr hdb hdb' hs hs']
  · exact toOption_eq_iff.2 fun ns =>
      ⟨counts_reordered hr hdb hdb', counts_reordered hr.symm hdb' hdb⟩

/-- The visits in another order. Now `b` comes before `n`, and `w` before `v`. -/
def shuffledVisits : History where
  names := ["c", "k"]
  calls := [⟨1, 7, ["n"]⟩, ⟨0, 20, ["b", "w"]⟩, ⟨2, 10, ["n", "v"]⟩, ⟨0, 5, ["n", "v"]⟩]

/-- A database of these, by their field `c`, with masks of their field `k`. -/
def shuffledVisitsDatabase : Database Index where
  log := shuffledVisits.log
  index := ⟨3, .ofList [(1, .ofList [(0, 2)]), (2, .ofList [(0, 4), (2, 4)])],
    Index.within_of_all (by decide)⟩
  config := ⟨[.one "c"], some "k"⟩
  layout := ⟨[⟨[⟨0, 3, 1⟩], 0, 3⟩], 3, some 1⟩
  layout_eq := by decide
  size_eq := by decide

theorem build_shuffledVisits : Database.build shuffledVisits.log ⟨[.one "c"], some "k"⟩
    = .ok shuffledVisitsDatabase :=
  build_eq_ok shuffledVisitsDatabase.layout_eq (by decide) shuffledVisitsDatabase.size_eq

theorem order_independent_visits : visits.Reorders shuffledVisits ∧ ∃ db db',
    Database.build visits.log ⟨[.one "c"], some "k"⟩ = .ok db
      ∧ Database.build shuffledVisits.log ⟨[.one "c"], some "k"⟩ = .ok db' ∧ db.index ≠ db'.index
      ∧ (∃ (s s' : Selection) (els els' : List Element), db.query "c=n & ~c=b/w" = .ok s
        ∧ db'.query "c=n & ~c=b/w" = .ok s' ∧ db.elements s = .ok (els.map .ok)
        ∧ db'.elements s' = .ok (els'.map .ok) ∧ els.map (·.id) = els'.map (·.id))
      ∧ (do db.counts (← db.family ["v", "!v"]) (.text "c=n")).toOption
        = (do db'.counts (← db'.family ["v", "!v"]) (.text "c=n")).toOption := by
  have hr : visits.Reorders shuffledVisits := ⟨rfl, .swap _ _ _⟩
  have hindex : visitsDatabase.index ≠ shuffledVisitsDatabase.index := by decide
  obtain ⟨hquery, hcounts⟩ :=
    (order_independent _ _ hr _).2 _ _ build_visits build_shuffledVisits
  obtain ⟨s', hs'⟩ := (hquery _).1.1 ⟨_, query_visits⟩
  obtain ⟨els, els', hels, hels', hids⟩ := (hquery _).2 _ _ query_visits hs'
  exact ⟨hr, _, _, build_visits, build_shuffledVisits, hindex,
    ⟨_, _, els, els', query_visits, hs', hels, hels', hids⟩, hcounts _ _⟩

end Database

end Cohort
