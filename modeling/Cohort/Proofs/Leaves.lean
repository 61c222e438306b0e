import Cohort.Proofs.KeyText
import Cohort.Proofs.Safety

/-!
# Leaves and queries of one leaf

Three ways to write are nested in a query: the plain signs of formulas, the `/` of a leaf with the
extended signs behind it, and the commas and plus signs of keys. A key's text has none of the signs
that the outer two go by, and a formula's text has signs of the plain dialect only, apart from its
terms (`Formula.mem_render`). So the text of a key and the text of a formula make up a leaf which is
that of the key and the formula themselves (`Database.leaf_text`), and a key's text is a query of
one part (`Database.query_text`).
-/

namespace Cohort

open Text

/-- What divides a leaf, and the signs that only the extended dialect has. -/
def leafSigns : List Char := ['/', '!', ',', '+']

/-- A text that is a term wherever it stands in the formula of a leaf. -/
structure IsMaskTerm (t : String) : Prop extends IsTerm t where
  unsigned : ∀ c ∈ t.toList, c ∉ leafSigns

namespace Formula

/-- What a formula's text has besides its terms. -/
def textSigns : List Char := [' ', '&', '|', '~', '(', ')']

theorem mem_render {α : Type} [Ranked α] {text : α → List Char} {f : Formula α} {c : Char}
    (h : c ∈ f.render text) : c ∈ textSigns ∨ ∃ t ∈ f.terms, c ∈ text t := by
  have hclause : ∀ d ∈ f.clauses, c ∈ d.render text →
      c ∈ textSigns ∨ ∃ t ∈ f.terms, c ∈ text t := by
    intro d hd hc
    rcases mem_intercalate hc with hsep | ⟨p, hp, hc⟩
    · exact .inl ((by decide : [' ', '|', ' '] ⊆ textSigns) hsep)
    obtain ⟨l, hl, rfl⟩ := List.mem_map.1 hp
    have hterm : l.term ∈ f.terms := mem_terms.2 ⟨l, mem_literals.2 ⟨d, hd, hl⟩, rfl⟩
    unfold Literal.render at hc
    split at hc
    · rcases List.mem_cons.1 hc with rfl | hc
      · exact .inl (by decide)
      · exact .inr ⟨_, hterm, hc⟩
    · exact .inr ⟨_, hterm, hc⟩
  unfold render at h
  rcases mem_intercalate h with hsep | ⟨p, hp, h⟩
  · exact .inl ((by decide : [' ', '&', ' '] ⊆ textSigns) hsep)
  obtain ⟨d, hd, rfl⟩ := List.mem_map.1 hp
  split at h
  · simp only [List.cons_append, List.mem_cons, List.mem_append, List.not_mem_nil, or_false] at h
    rcases h with rfl | h | rfl
    · exact .inl (by decide)
    · exact hclause d hd h
    · exact .inl (by decide)
  · exact hclause d hd h

section Term

variable {α β : Type} [Ranked α] [Ranked β]

theorem clauses_term (t : α) :
    (term t).clauses = SortedSet.singleton (SortedSet.singleton (.plain t)) := by
  have hne : SortedSet.singleton (Literal.plain t) ≠ SortedSet.empty :=
    Clause.ne_empty_of_mem (SortedSet.mem_singleton.2 rfl)
  refine SortedSet.ext_mem fun c => ?_
  rw [SortedSet.mem_singleton]
  exact mem_ofClause hne

theorem literals_term (t : α) : (term t).literals = [.plain t] := by
  unfold literals
  rw [clauses_term]
  rfl

theorem tryMap_term {ε : Type} {g : α → Except ε β} {t : α} {u : β} (h : g t = .ok u) :
    (term t).tryMap g = .ok (term u) := by
  have hclause : (List.mapM (fun l => do return Literal.mk (← g l.term) l.negated)
      (SortedSet.singleton (Literal.plain t)).toList) = .ok [Literal.plain u] := by
    show List.mapM _ [Literal.plain t] = _
    rw [List.mapM_cons]
    show (do let l ← (do return Literal.mk (← g t) false); let ls ← [].mapM _; return l :: ls) = _
    rw [h]
    rfl
  unfold tryMap
  rw [clauses_term]
  show (List.mapM _ [SortedSet.singleton (Literal.plain t)] >>= _) = _
  rw [List.mapM_cons, hclause]
  show Except.ok (ofClauses [SortedSet.ofList [Literal.plain u]]) = _
  rw [SortedSet.ofList_singleton]
  rfl

end Term

variable {f : Formula String} {text : String}

theorem parse_term {t : String} (h : IsTerm t) : parse .standard t = .ok (term t) := by
  have htext : (term t).text = t := by
    unfold Formula.text render size
    rw [clauses_term]
    show String.ofList (List.intercalate _ [Clause.render _ _]) = _
    rw [List.intercalate_singleton]
    show String.ofList (List.intercalate _ [t.toList]) = _
    rw [List.intercalate_singleton, String.ofList_toList]
  have hterms : ∀ l ∈ (term t).literals, IsTerm l.term := by
    rw [literals_term, List.forall_mem_singleton]
    exact h
  have := parse_render hterms
  rwa [htext] at this

theorem not_mem_text (h : ∀ t ∈ f.terms, IsMaskTerm t) {c : Char} (hc : c ∈ leafSigns) :
    c ∉ f.text.toList := by
  have hapart : ∀ c ∈ leafSigns, c ∉ textSigns := by simp [leafSigns, textSigns]
  unfold Formula.text
  rw [String.toList_ofList]
  intro hmem
  rcases mem_render hmem with hsign | ⟨t, ht, hct⟩
  · exact hapart c hc hsign
  · exact (h t ht).unsigned c hct hc

/-- A text without the signs that only the extended dialect has is the same in both. -/
theorem parse_extended (h : ∀ c ∈ text.toList, c ∉ leafSigns) :
    parse .extended text = parse .standard text := by
  have hsign : text.toList.map Dialect.extended.sign = text.toList.map Dialect.standard.sign := by
    refine List.map_congr_left fun c hc => ?_
    have hc := h c hc
    unfold Dialect.sign
    split <;> first | rfl | exact absurd (by decide) hc
  unfold parse
  rw [hsign]

theorem read_text (h : ∀ t ∈ f.terms, IsMaskTerm t) : read .extended f.text = .ok f := by
  have hparse : parse .extended f.text = .ok f := by
    rw [parse_extended fun c hc hsign => not_mem_text h hsign hc]
    exact parse_render (forall_terms_iff.1 fun t ht => (h t ht).toIsTerm)
  unfold read
  rw [hparse]
  rfl

end Formula

namespace Key

variable {k : Key}

theorem isTextChar_of_mem_text {c : Char} (h : c ∈ k.text.toList) : isTextChar c = true := by
  unfold text at h
  rw [String.toList_ofList] at h
  exact isTextChar_of_mem_intercalate _ h

theorem text_ne_empty (h : k.pairs ≠ []) : k.text ≠ "" := by
  have hrender : k.render ≠ [] := by
    intro he
    have hsegments := segments_render k
    rw [he] at hsegments
    exact h (List.map_eq_nil_iff.1 hsegments.symm)
  intro he
  unfold text at he
  exact hrender (by simpa using he)

theorem range_of_isTextChar {c : Char} (h : isTextChar c = true) :
    0x20 < c.toNat ∧ c.toNat < 0x7F := by
  unfold isTextChar isFormChar Char.isAlphanum Char.isAlpha Char.isUpper Char.isLower
    Char.isDigit at h
  simp only [Bool.or_eq_true, Bool.and_eq_true, decide_eq_true_eq, List.contains_eq_mem,
    List.mem_cons, List.not_mem_nil, or_false, beq_iff_eq, UInt32.le_iff_toNat_le] at h
  rcases h with ((((⟨h, h'⟩ | ⟨h, h'⟩) | ⟨h, h'⟩) | rfl | rfl | rfl | rfl | rfl) | rfl) | rfl
  · exact ⟨Nat.lt_of_lt_of_le (by decide) h, Nat.lt_of_le_of_lt h' (by decide)⟩
  · exact ⟨Nat.lt_of_lt_of_le (by decide) h, Nat.lt_of_le_of_lt h' (by decide)⟩
  · exact ⟨Nat.lt_of_lt_of_le (by decide) h, Nat.lt_of_le_of_lt h' (by decide)⟩
  all_goals decide

/-- The characters of a key's text are no signs of formulas and no blanks. -/
theorem plain_of_isTextChar {c : Char} (h : isTextChar c = true) :
    Token.isPlain c = true ∧ isBlank c = false := by
  refine ⟨?_, ?_⟩
  · unfold Token.isPlain Token.Kind.ofSign?
    split <;> first | rfl | exact absurd h (by decide)
  · have hrange : 0x20 < c.toNat ∧ c.toNat < 0x7F := range_of_isTextChar h
    unfold isBlank blankRanges
    simp only [List.any_cons, List.any_nil, Bool.or_false, Bool.or_eq_false_iff,
      Bool.and_eq_false_iff, decide_eq_false_iff_not]
    omega

/-- A key's text is one term. -/
theorem isTerm_text (h : k.pairs ≠ []) : IsTerm k.text where
  nonempty := text_ne_empty h
  plain _ hc := (plain_of_isTextChar (isTextChar_of_mem_text hc)).1
  start _ hc := (plain_of_isTextChar (isTextChar_of_mem_text (List.mem_of_mem_head? hc))).2
  finish _ hc := (plain_of_isTextChar (isTextChar_of_mem_text (List.mem_of_getLast? hc))).2

end Key

namespace Database

variable {ε : Type} [Evaluator ε] (db : Database ε) (k : Key) (f : Formula String)

theorem select_text : db.select (.text k.text) f = db.select (.key k) f := by
  unfold select
  have hfunnel : db.funnelOf (.text k.text) = db.funnelOf (.key k) := by
    show (do db.layout.resolve db.log (← Key.parse k.text)) = _
    rw [Key.parse_render]
    rfl
  rw [hfunnel]

omit [Evaluator ε] in
theorem slash_not_mem_text : '/' ∉ k.text.toList := fun h =>
  absurd (Key.isTextChar_of_mem_text h) (by decide)

theorem leafParts_key : leafParts k.text = .ok (k.text, "") := by
  unfold leafParts
  rw [cut_eq_none_iff.2 (slash_not_mem_text k)]

theorem leafParts_append {text : String} (h : '/' ∉ text.toList) :
    leafParts (k.text ++ "/" ++ text) = .ok (k.text, text) := by
  have hcut : cut '/' (k.text ++ "/" ++ text).toList = some (k.text.toList, text.toList) := by
    rw [String.toList_append, String.toList_append, List.append_assoc]
    exact cut_append (slash_not_mem_text k)
  unfold leafParts
  rw [hcut]
  simp [h]

theorem leaf_key : db.leaf k.text = db.select (.key k) .always := by
  have hread : Expression.parse ("".toList.map Dialect.extended.sign) = .ok none := by
    decide +kernel
  rw [leaf_of_read (leafParts_key k) (Formula.parse_of_expression hread)]
  exact select_text db k .always

theorem leaf_text (h : ∀ t ∈ f.terms, IsMaskTerm t) :
    db.leaf (k.text ++ "/" ++ f.text) = db.select (.key k) f := by
  have hslash : '/' ∉ f.text.toList := Formula.not_mem_text h (by decide)
  rw [leaf_of_read (leafParts_append k hslash) (read_eq_ok_iff.1 (Formula.read_text h))]
  exact select_text db k f

theorem query_text (h : k.pairs ≠ []) : db.query k.text
    = (db.select (.key k) .always).map fun l => .node [.leaf l] ⟨[⟨1, 0⟩]⟩ := by
  have hparse : Formula.parse .standard k.text = .ok (.term k.text) :=
    Formula.parse_term (Key.isTerm_text h)
  rw [← leaf_key]
  cases hl : db.leaf k.text with
  | error e =>
    unfold query
    rw [read_eq_ok_iff.2 hparse]
    show ((Formula.term k.text).literals.mapM (fun l => db.leaf l.term) >>= _) = _
    rw [Formula.literals_term, List.mapM_cons]
    show (db.leaf k.text >>= _ >>= _) = _
    rw [hl]
    rfl
  | ok l =>
    -- the term is the only part, so it is numbered 0 in the test that joins the parts
    have hasks : db.Asks k.text (.term k.text) := by
      refine ⟨hparse, (forall_literals_iff hparse).1 ?_⟩
      rw [Formula.literals_term, List.forall_mem_singleton]
      exact ⟨l, hl⟩
    have hparts : db.parts (.term k.text) = [l] := by
      unfold parts visited leavesOf
      rw [Formula.literals_term]
      simp [Literal.plain, hl, Except.toOption, List.eraseDups_cons]
    have hslot : db.slot (.term k.text) k.text = .ok 0 :=
      slot_eq_ok_iff.2 ⟨l, hl, by rw [hparts, List.idxOf_cons_self]⟩
    have htest : MaskTest.compile .ok (Formula.term 0) = .ok ⟨[⟨1, 0⟩]⟩ := by
      unfold MaskTest.compile
      rw [Formula.clauses_term]
      rfl
    have hne : db.parts (.term k.text) ≠ [] := hparts ▸ List.cons_ne_nil l []
    obtain ⟨s, hs⟩ := exists_query_of_asks hasks hne (by rw [hparts]; exact Nat.le_add_left 1 63)
    have hcombine := hs
    rw [query_of_asks hasks hne (Formula.tryMap_term hslot), htest, hparts,
      bind_eq_ok_iff] at hcombine
    obtain ⟨_, ⟨⟩, hcombine⟩ := hcombine
    obtain ⟨-, -, -, rfl⟩ := Selection.combine_eq_ok_iff.1 hcombine
    exact hs

section Ids

variable {db : Database Index} {k : Key} {l : Leaf} {s : Selection}

/-- A key's text selects what the key does. -/
theorem members_query_text (h : k.pairs ≠ []) (hs : db.query k.text = .ok s)
    (hl : db.select (.key k) .always = .ok l) :
    db.index.members s = db.index.members (.leaf l) := by
  have hnode := query_text db k h
  rw [hs, hl] at hnode
  obtain rfl := Except.ok.inj hnode
  have hfunnels : (Selection.node [.leaf l] ⟨[⟨1, 0⟩]⟩).funnels = (Selection.leaf l).funnels := rfl
  unfold Index.members
  rw [hfunnels]
  refine List.filter_congr fun x _ => ?_
  rw [Index.has_node]
  unfold Index.has
  simp only [Index.membership]
  cases (db.index.evaluate x (.leaf l)).isSome <;> decide

end Ids

/-- A leaf of a key's text and a formula's text is that of the key and the formula, or is refused as
they are. The text of a key with pairs is a query exactly when the key has a leaf: the query's one
part is this leaf, and it has the same entities. -/
theorem embedded_texts :
    (∀ {ε : Type} [Evaluator ε] (db : Database ε) (k : Key) (f : Formula String),
        (∀ t ∈ f.terms, IsMaskTerm t) →
          db.leaf (k.text ++ "/" ++ f.text) = db.select (.key k) f)
      ∧ (∀ {ε : Type} [Evaluator ε] (db : Database ε) (k : Key), k.pairs ≠ [] →
        ((∃ s, db.query k.text = .ok s) ↔ ∃ l, db.select (.key k) .always = .ok l)
          ∧ ∀ s, db.query k.text = .ok s →
            ∃ l test, db.select (.key k) .always = .ok l ∧ s = .node [.leaf l] test)
      ∧ ∀ (db : Database Index) (k : Key) (s : Selection) (l : Leaf), k.pairs ≠ [] →
        db.query k.text = .ok s → db.select (.key k) .always = .ok l →
          ∃ els els' : List Element, db.elements s = .ok (els.map .ok)
            ∧ db.elements (.leaf l) = .ok (els'.map .ok) ∧ els.map (·.id) = els'.map (·.id) := by
  refine ⟨fun db k f h => leaf_text db k f h, fun db k h => ?_, fun db k s l h hs hl => ?_⟩
  · rw [query_text db k h]
    cases db.select (.key k) .always with
    | error e => exact ⟨⟨nofun, nofun⟩, nofun⟩
    | ok l =>
      refine ⟨⟨fun _ => ⟨l, rfl⟩, fun _ => ⟨_, rfl⟩⟩, fun s hs => ?_⟩
      exact ⟨l, _, rfl, (Except.ok.inj hs).symm⟩
  · obtain ⟨els, hels, hids, -⟩ := evaluates_of_covers (covers_query hs)
    obtain ⟨els', hels', hids', -⟩ :=
      evaluates_of_covers (covers_leaf (funnel_lt_of_select hl))
    refine ⟨els, els', hels, hels', ?_⟩
    rw [hids, hids', members_query_text h hs hl]

/-- The signs of queries and of leaves may stand in a value. -/
theorem embedded_texts_signs : ∃ db : Database Index,
    db.leaf "c=a%2Fb+%26+c/v | ~w x"
        = db.select (.key ⟨[("c", "a/b & c")]⟩) ((Formula.term "v").or (Formula.term "w x").not)
      ∧ ∃ l s, db.select (.key ⟨[("c", "a/b & c")]⟩) .always = .ok l
        ∧ db.query "c=a%2Fb+%26+c" = .ok s ∧ ∃ els els' : List Element,
          db.elements s = .ok (els.map .ok) ∧ db.elements (.leaf l) = .ok (els'.map .ok)
            ∧ els.map (·.id) = els'.map (·.id) := by
  have hl : Layout.build (Log.replay ["c", "k"] [⟨0, 1, ["a/b & c", "v"]⟩]) ⟨[.one "c"], some "k"⟩
      = .ok ⟨[⟨[⟨0, 2, 1⟩], 0, 2⟩], 2, some 1⟩ := by decide
  let index : Index := ⟨2, .ofList [(1, .ofList [(0, 2)])], Index.within_of_all (by decide)⟩
  let db : Database Index := ⟨_, index, _, _, hl, rfl⟩
  let k : Key := ⟨[("c", "a/b & c")]⟩
  let f : Formula String := (Formula.term "v").or (Formula.term "w x").not
  have hk : k.text = "c=a%2Fb+%26+c" := by decide
  have hf : ((Formula.term "v").or (Formula.term "w x").not).text = "v | ~w x" := by cbv
  have hterms : ∀ t ∈ f.terms, IsMaskTerm t := by
    intro t ht
    simp only [f, Formula.mem_terms_or, Formula.mem_terms_not, Formula.mem_terms_term] at ht
    rcases ht with rfl | rfl <;>
      exact ⟨⟨by decide, List.all_eq_true.1 (by decide), by rintro _ ⟨⟩; decide,
        by rintro _ ⟨⟩; decide⟩, by simp [leafSigns]⟩
  have hselect : db.select (.key k) .always = .ok ⟨1, .always⟩ := rfl
  obtain ⟨hleaf, hquery, hids⟩ := embedded_texts
  obtain ⟨s, hs⟩ := (hquery db k (List.cons_ne_nil _ _)).1.2 ⟨_, hselect⟩
  have hleaf := hleaf db k f hterms
  rw [hk, hf] at hleaf
  exact ⟨db, hleaf, _, s, hselect, hk ▸ hs, hids db k s _ (List.cons_ne_nil _ _) hs hselect⟩

end Database

end Cohort
