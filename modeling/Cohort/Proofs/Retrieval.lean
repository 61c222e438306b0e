import Cohort.Proofs.Answers
import Cohort.Proofs.Persistence

/-!
# Trails of the entities of a selection

An index may come from elsewhere and know entities that the log has no trail for. Trails are
numbered without gaps and entities come in ascending order, so those without a trail come last:
every entity with a trail is given out with it before one failure ends the sequence, and none does
if all of them have trails (`Log.Retrieves`). An index built from the log knows only entities with
events, and retrieving their trails does not fail (`Database.trails_retrieved`).
-/

namespace Cohort

/-! ## One entity after the other -/

namespace Log

variable {log : Log} {x : EntityId} {t : Trail} {ids : List EntityId}
  {found : List (EntityId × Trail)} {items : List (Except Error (EntityId × Trail))}

/-- An entity with its trail. -/
def numbered (log : Log) (x : EntityId) : Except Error (EntityId × Trail) := do
  return (x, ← log.trail x)

theorem numbered_of_trail (ht : log.trail x = .ok t) : log.numbered x = .ok (x, t) := by
  unfold numbered
  rw [ht]
  rfl

theorem exists_trail_iff : (∃ t, log.trail x = .ok t) ↔ x.toNat < log.trails.size := by
  simp only [trail_eq_ok_iff, ← Option.isSome_iff_exists, isSome_getElem?]

theorem numbered_of_size_le (hx : log.trails.size ≤ x.toNat) :
    log.numbered x = .error (.notFound (.trail x.toNat)) := by
  unfold numbered trail
  rw [Array.getElem?_eq_none hx]
  rfl

/-- What is given out for some entities: those that have a trail, each with it, and one failure,
for the first of the others, if there are others. -/
structure Retrieves (log : Log) (ids : List EntityId) (found : List (EntityId × Trail))
    (items : List (Except Error (EntityId × Trail))) : Prop where
  entities : found.map (·.1) = ids.filter fun x => x.toNat < log.trails.size
  trail : ∀ p ∈ found, log.trail p.1 = .ok p.2
  complete : (∀ x ∈ ids, x.toNat < log.trails.size) → items = found.map .ok
  missing : (∃ x ∈ ids, log.trails.size ≤ x.toNat) → ∃ x ∈ ids, log.trails.size ≤ x.toNat
    ∧ (∀ y ∈ ids, log.trails.size ≤ y.toNat → x ≤ y)
    ∧ items = found.map .ok ++ [.error (.notFound (.trail x.toNat))]

theorem retrieves_nil (log : Log) : log.Retrieves [] [] [] where
  entities := rfl
  trail := nofun
  complete _ := rfl
  missing := nofun

theorem Retrieves.cons (ht : log.trail x = .ok t) (h : log.Retrieves ids found items) :
    log.Retrieves (x :: ids) ((x, t) :: found) (.ok (x, t) :: items) := by
  have hx : x.toNat < log.trails.size := exists_trail_iff.1 ⟨t, ht⟩
  refine ⟨?_, List.forall_mem_cons.2 ⟨ht, h.trail⟩, fun hids => ?_, ?_⟩
  · rw [List.map_cons, List.filter_cons_of_pos (by simpa using hx), h.entities]
  · rw [h.complete (List.forall_mem_cons.1 hids).2, List.map_cons]
  · rintro ⟨y, hy, hbeyond⟩
    have hmem : ∀ z ∈ x :: ids, log.trails.size ≤ z.toNat → z ∈ ids := by
      intro z hz hle
      refine (List.mem_cons.1 hz).resolve_left ?_
      rintro rfl
      exact absurd hx (Nat.not_lt.2 hle)
    obtain ⟨z, hz, hzsize, hleast, rfl⟩ := h.missing ⟨y, hmem y hy hbeyond, hbeyond⟩
    exact ⟨z, List.mem_cons_of_mem _ hz, hzsize, fun w hw hle => hleast w (hmem w hw hle) hle, rfl⟩

/-- An entity beyond the trails comes before none that has one. -/
theorem retrieves_beyond (hx : log.trails.size ≤ x.toNat) (hids : ∀ y ∈ ids, x < y) :
    log.Retrieves (x :: ids) [] [.error (.notFound (.trail x.toNat))] := by
  have hle : ∀ y ∈ x :: ids, x ≤ y :=
    List.forall_mem_cons.2 ⟨UInt32.le_refl x, fun y hy => UInt32.le_of_lt (hids y hy)⟩
  refine ⟨?_, nofun, fun h => ?_, fun _ => ⟨x, List.mem_cons_self, hx, fun y hy _ => hle y hy, rfl⟩⟩
  · rw [List.map_nil, eq_comm, List.filter_eq_nil_iff]
    intro y hy
    have hxy : x.toNat ≤ y.toNat := UInt32.le_iff_toNat_le.1 (hle y hy)
    simpa using hx.trans hxy
  · exact absurd (h x List.mem_cons_self) (Nat.not_lt.2 hx)

theorem exists_retrieves (log : Log) : ∀ {ids : List EntityId}, ids.Pairwise (· < ·) →
    ∃ found, log.Retrieves ids found (untilFailure (ids.map log.numbered))
  | [], _ => ⟨[], log.retrieves_nil⟩
  | x :: ids, hids => by
    obtain ⟨hx, hids⟩ := List.pairwise_cons.1 hids
    rw [List.map_cons]
    rcases Nat.lt_or_ge x.toNat log.trails.size with hlt | hge
    · obtain ⟨t, ht⟩ := exists_trail_iff.2 hlt
      obtain ⟨found, hfound⟩ := log.exists_retrieves hids
      rw [numbered_of_trail ht, untilFailure]
      exact ⟨_, hfound.cons ht⟩
    · rw [numbered_of_size_le hge, untilFailure]
      exact ⟨_, retrieves_beyond hge hx⟩

end Log

/-! ## Entities of a selection -/

namespace Index

variable {index : Index} {s : Selection} {es : List Element}

theorem members_of_select (h : index.select s = .ok es) : es.map (·.id) = index.members s := by
  obtain ⟨_, hcheck, -⟩ := bind_eq_ok_iff.1 h
  obtain ⟨es', hes', hids⟩ := select_of_covers (checkFunnels_eq_ok_iff.1 hcheck).1
  obtain rfl : es = es' := Except.ok.inj (h.symm.trans hes')
  exact hids

end Index

namespace Database

variable {db : Database Index} {log : Log} {config : Config} {s : Selection}

theorem trails_of_select {els : List Element} (hs : db.index.select s = .ok els) :
    db.trails s = .ok (untilFailure ((els.map (·.id)).map db.log.numbered)) := by
  unfold trails
  rw [elements_of_select hs]
  show Except.ok (untilFailure ((els.map Except.ok).map _)) = _
  rw [List.map_map, List.map_map]
  rfl

theorem exists_retrieves_of_select {els : List Element} (hs : db.index.select s = .ok els) :
    ∃ found, db.log.Retrieves (els.map (·.id)) found
      (untilFailure ((els.map (·.id)).map db.log.numbered)) := by
  rw [Index.members_of_select hs]
  exact db.log.exists_retrieves (db.index.members_ascending s)

/-- An index built from a log knows entities with events only. -/
theorem toNat_lt_of_mem_entities (hdb : build log config = .ok db) {fs : List FunnelId}
    {x : EntityId} (hx : x ∈ db.index.entities fs) : x.toNat < db.log.trails.size := by
  obtain ⟨f, -, hf⟩ := Index.mem_entities_iff.1 hx
  obtain ⟨rfl, hl, hi⟩ := of_build hdb
  rw [Index.mask?_of_build hl hi] at hf
  by_contra hge
  have hnone : db.log.eventsOf x = [] := by
    unfold Log.eventsOf
    rw [Array.getElem?_eq_none (Nat.not_lt.1 hge)]
    rfl
  rw [hnone] at hf
  exact nomatch hf

/-- For every selection that can be listed, each of its entities that has a trail is given out with
it, in ascending order. If others are listed, one failure follows, for the first of them, and
otherwise nothing does. With an index built from the log there are no others. -/
theorem trails_retrieved :
    (∀ (db : Database Index) (s : Selection) (items : List (Except Error Element)),
        db.elements s = .ok items → ∃ els : List Element, items = els.map .ok
          ∧ (els.map (·.id)).Pairwise (· < ·)
          ∧ ∃ found out, db.trails s = .ok out ∧ db.log.Retrieves (els.map (·.id)) found out)
      ∧ ∀ (log : Log) (config : Config) (db : Database Index), build log config = .ok db →
        ∀ s out, db.trails s = .ok out → ∀ e, .error e ∉ out := by
  refine ⟨fun db s items h => ?_, fun log config db hdb s out hout e he => ?_⟩
  · obtain ⟨els, hels, rfl⟩ := elements_eq_ok_iff.1 h
    have hids := Index.members_of_select hels ▸ db.index.members_ascending s
    obtain ⟨found, hfound⟩ := exists_retrieves_of_select hels
    exact ⟨els, rfl, hids, found, _, trails_of_select hels, hfound⟩
  · obtain ⟨items, hitems, -⟩ := bind_eq_ok_iff.1 hout
    obtain ⟨els, hels, -⟩ := elements_eq_ok_iff.1 hitems
    obtain ⟨found, hfound⟩ := exists_retrieves_of_select hels
    have hstored : ∀ x ∈ els.map (·.id), x.toNat < db.log.trails.size := by
      intro x hx
      rw [Index.members_of_select hels, Index.mem_members_iff] at hx
      exact toNat_lt_of_mem_entities hdb hx.1
    obtain rfl : _ = out := Except.ok.inj ((trails_of_select hels).symm.trans hout)
    rw [hfound.complete hstored] at he
    obtain ⟨_, -, hp⟩ := List.mem_map.1 he
    exact nomatch hp

/-- An index of the visits that comes from elsewhere and knows an entity that has none. -/
def strayIndex : Index :=
  ⟨3, .ofList [(1, .ofList [(0, 2), (7, 2)]), (2, .ofList [(0, 4)])],
    Index.within_of_all (by decide)⟩

/-- The visits with this index. -/
def strayDatabase : Database Index :=
  { visitsDatabase with index := strayIndex, size_eq := by decide }

/-- The stray entity is listed after one that has visits, and ends the sequence. -/
theorem trails_retrieved_stray :
    (∃ text, load visits.log text ⟨[.one "c"], some "k"⟩ = .ok strayDatabase)
      ∧ (∃ items, strayDatabase.elements (.leaf ⟨1, .always⟩) = .ok items
        ∧ ∃ els : List Element, items = els.map .ok ∧ (els.map (·.id)).Pairwise (· < ·)
          ∧ ∃ found out, strayDatabase.trails (.leaf ⟨1, .always⟩) = .ok out
            ∧ visits.log.Retrieves (els.map (·.id)) found out)
      ∧ (·.map (Prod.fst <$> ·)) <$> strayDatabase.trails (.leaf ⟨1, .always⟩)
        = .ok [.ok 0, .error (.notFound (.trail 7))]
      ∧ build visits.log ⟨[.one "c"], some "k"⟩ = .ok visitsDatabase
      ∧ ∃ out, visitsDatabase.trails (.leaf ⟨1, .always⟩) = .ok out ∧ ∀ e, .error e ∉ out := by
  obtain ⟨text, -, hload⟩ := strayDatabase.load_save
  have hstray : strayDatabase.elements (.leaf ⟨1, .always⟩)
      = .ok [.ok ⟨0, 2⟩, .ok ⟨7, 2⟩] := by cbv
  have hvisits : visitsDatabase.index.select (.leaf ⟨1, .always⟩)
      = .ok [⟨0, 2⟩, ⟨2, 2⟩] := by cbv
  exact ⟨⟨text, hload⟩, ⟨_, hstray, trails_retrieved.1 _ _ _ hstray⟩, by cbv, build_visits,
    _, trails_of_select hvisits,
    trails_retrieved.2 _ _ _ build_visits _ _ (trails_of_select hvisits)⟩

end Database

end Cohort
