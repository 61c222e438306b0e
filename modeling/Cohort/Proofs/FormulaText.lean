import Cohort.Formula.Printer
import Cohort.Proofs.Grammar
import Cohort.Proofs.Replacement

/-!
# Formulas written and read again

A formula whose terms have texts that are terms wherever they stand is written as a derivation of
the formula of these texts (`Formula.writes_render`), so that this is what is read from its text, in
whatever order the texts come to stand. The formulas that are read from any text are such, and
writing them loses nothing (`Formula.parse_text`).
-/

namespace Cohort

open Token

theorem intercalate_append_cons (sep a b : List Char) : ∀ l : List (List Char),
    List.intercalate sep ((a ++ b) :: l) = a ++ List.intercalate sep (b :: l)
  | [] => by simp
  | c :: l => by simp [List.intercalate_cons_cons]

namespace Grammar

/-- A text that reads as a derivation of a formula, wherever it begins and whatever follows that a
term can stand before. -/
def Writes {δ : Type} (tokens : δ → List Token) (tree : δ → Expression) (cs : List Char)
    (f : Formula String) : Prop :=
  ∀ n, ∃ d, (tree d).formula = f ∧ ∀ rest, Stops rest →
    scanFrom n (cs ++ rest) = tokens d ++ scanFrom (n + byteSize cs) rest

abbrev Operand.Writes := Grammar.Writes Operand.tokens Operand.tree

abbrev Conjunction.Writes := Grammar.Writes Conjunction.tokens Conjunction.tree

abbrev Disjunction.Writes := Grammar.Writes Disjunction.tokens Disjunction.tree

variable {cs ds : List Char} {f g : Formula String}

theorem Operand.Writes.conjunction (h : Operand.Writes cs f) : Conjunction.Writes cs f := by
  intro n
  obtain ⟨o, ho⟩ := h n
  exact ⟨.one o, ho⟩

theorem Conjunction.Writes.disjunction (h : Conjunction.Writes cs f) : Disjunction.Writes cs f := by
  intro n
  obtain ⟨c, hc⟩ := h n
  exact ⟨.one c, hc⟩

theorem Operand.writes_term {t : String} (ht : IsTerm t) : Operand.Writes t.toList (.term t) :=
  fun n => ⟨.term ⟨.term, t, n⟩ rfl, rfl, fun _ hr => scanFrom_term ht n hr⟩

theorem Operand.Writes.not (h : Operand.Writes cs f) : Operand.Writes ('~' :: cs) f.not := by
  intro n
  obtain ⟨o, rfl, ho⟩ := h (n + '~'.utf8Size)
  refine ⟨.not ⟨.neg, '~'.toString, n⟩ rfl o, rfl, fun rest hr => ?_⟩
  rw [List.cons_append, scanFrom_sign rfl, ho rest hr, Nat.add_assoc]
  rfl

theorem Disjunction.Writes.group (h : Disjunction.Writes cs f) :
    Operand.Writes ('(' :: cs ++ [')']) f := by
  intro n
  obtain ⟨d, rfl, hd⟩ := h (n + '('.utf8Size)
  refine ⟨.group ⟨.opening, '('.toString, n⟩ rfl d
    ⟨.closing, ')'.toString, n + '('.utf8Size + byteSize cs⟩ rfl, rfl, fun rest hr => ?_⟩
  rw [List.cons_append, List.cons_append, List.append_assoc, List.singleton_append,
    scanFrom_sign rfl, hd _ (stops_sign rfl rest), scanFrom_sign rfl]
  simp [Operand.tokens, Nat.add_assoc]

theorem Conjunction.Writes.and (h : Conjunction.Writes cs f) (ho : Operand.Writes ds g) :
    Conjunction.Writes (cs ++ ([' ', '&', ' '] ++ ds)) (f.and g) := by
  intro n
  obtain ⟨c, rfl, hc⟩ := h n
  obtain ⟨o, rfl, hscan⟩ := ho (n + byteSize cs + byteSize [' ', '&', ' '])
  refine ⟨.and c ⟨.conj, '&'.toString, n + byteSize cs + byteSize [' ']⟩ rfl o, rfl,
    fun rest hr => ?_⟩
  rw [List.append_assoc, List.append_assoc, hc _ (stops_separator rfl _), scanFrom_separator rfl,
    hscan rest hr]
  simp [Conjunction.tokens, Nat.add_assoc]

theorem Disjunction.Writes.or (h : Disjunction.Writes cs f) (hc : Conjunction.Writes ds g) :
    Disjunction.Writes (cs ++ ([' ', '|', ' '] ++ ds)) (f.or g) := by
  intro n
  obtain ⟨d, rfl, hd⟩ := h n
  obtain ⟨c, rfl, hscan⟩ := hc (n + byteSize cs + byteSize [' ', '|', ' '])
  refine ⟨.or d ⟨.disj, '|'.toString, n + byteSize cs + byteSize [' ']⟩ rfl c, rfl,
    fun rest hr => ?_⟩
  rw [List.append_assoc, List.append_assoc, hd _ (stops_separator rfl _), scanFrom_separator rfl,
    hscan rest hr]
  simp [Disjunction.tokens, Nat.add_assoc]

/-- Texts that go together two at a time go together in any number. -/
theorem writes_intercalate {γ : Type} {W V : List Char → Formula String → Prop} {sep : List Char}
    {op : Formula String → Formula String → Formula String} {text : γ → List Char}
    {formula : γ → Formula String}
    (step : ∀ {cs ds f g}, W cs f → V ds g → W (cs ++ (sep ++ ds)) (op f g)) :
    ∀ {l : List γ} {cs : List Char} {f : Formula String}, W cs f →
      (∀ a ∈ l, V (text a) (formula a)) →
        W (List.intercalate sep (cs :: l.map text)) ((l.map formula).foldl op f)
  | [], _, _, h, _ => by simpa using h
  | a :: l, cs, f, h, hl => by
    obtain ⟨ha, hl⟩ := List.forall_mem_cons.1 hl
    have hall := writes_intercalate step (step h ha) hl
    rwa [intercalate_append_cons, intercalate_append_cons, ← List.append_assoc,
      ← List.intercalate_cons_cons, ← List.map_cons] at hall

end Grammar

/-- How a clause is written between others. -/
def Clause.piece {α : Type} [Ranked α] (text : α → List Char) (c : Clause α) : List Char :=
  if c.size > 1 then '(' :: c.render text ++ [')'] else c.render text

namespace Formula

section OfClause

/-- The formula of one clause. -/
abbrev ofClause {α : Type} [Ranked α] (c : Clause α) : Formula α := ofClauses [c]

variable {α : Type} [Ranked α] {c d : Clause α} {f : Formula α}

theorem mem_ofClause (hc : c ≠ SortedSet.empty) : d ∈ (ofClause c).clauses ↔ d = c := by
  rw [mem_ofClauses, List.mem_singleton]
  refine and_iff_left_of_imp ?_
  rintro rfl
  exact hc

theorem ofClause_ne_always (hc : c ≠ SortedSet.empty) : ofClause c ≠ always :=
  ne_always_of_mem ((mem_ofClause hc).2 rfl)

theorem or_ofClause (hc : c ≠ SortedSet.empty) (hd : d ≠ SortedSet.empty) :
    (ofClause c).or (ofClause d) = ofClause (c.union d) := by
  refine ext_mem fun x => ?_
  obtain ⟨l, hl⟩ := Clause.exists_mem_of_ne hc
  have hne : c.union d ≠ SortedSet.empty := Clause.ne_empty_of_mem (SortedSet.mem_union.2 (.inl hl))
  rw [mem_or (ofClause_ne_always hc) (ofClause_ne_always hd), mem_ofClause hne]
  simp only [mem_ofClause hc, mem_ofClause hd, exists_eq_left]
  exact eq_comm

theorem not_ofClause (hc : c ≠ SortedSet.empty) : (ofClause c).not = Clause.not c := by
  have hclauses : (ofClause c).clauses = SortedSet.singleton c := by
    refine SortedSet.ext_mem fun d => ?_
    rw [mem_ofClause hc, SortedSet.mem_singleton]
  unfold Formula.not
  rw [hclauses]
  rfl

theorem foldl_or_literals : ∀ {ls done : List (Literal α)}, done ≠ [] →
    (ls.map fun l => ofClause (SortedSet.singleton l)).foldl Formula.or
      (ofClause (SortedSet.ofList done)) = ofClause (SortedSet.ofList (done ++ ls))
  | [], done, _ => by rw [List.append_nil]; rfl
  | l :: ls, done, h => by
    obtain ⟨k, hk⟩ := List.exists_mem_of_ne_nil done h
    have hunion : (SortedSet.ofList done).union (SortedSet.singleton l)
        = SortedSet.ofList (done ++ [l]) := SortedSet.ext_mem fun x => by simp
    rw [List.map_cons, List.foldl_cons,
      or_ofClause (Clause.ne_empty_of_mem (SortedSet.mem_ofList.2 hk))
        (Clause.ne_empty_of_mem (SortedSet.mem_singleton.2 rfl)), hunion,
      foldl_or_literals (by simp), List.append_assoc, List.singleton_append]

theorem mem_foldl_and : ∀ {cs : List (Clause α)} {f : Formula α}, (∀ c ∈ cs, c ≠ SortedSet.empty) →
    (d ∈ ((cs.map ofClause).foldl Formula.and f).clauses ↔ d ∈ f.clauses ∨ d ∈ cs)
  | [], f, _ => by simp
  | c :: cs, f, h => by
    obtain ⟨hc, hcs⟩ := List.forall_mem_cons.1 h
    rw [List.map_cons, List.foldl_cons, mem_foldl_and hcs, mem_and, mem_ofClause hc, or_assoc,
      List.mem_cons]

end OfClause

open Grammar

section Writes

variable {α : Type} {text : α → List Char}

/-- The term that a text is read as. -/
abbrev name (text : α → List Char) (a : α) : String := String.ofList (text a)

theorem writes_literal {l : Literal α} (h : IsTerm (name text l.term)) :
    Operand.Writes (l.render text) (ofClause (SortedSet.singleton (l.map (name text)))) := by
  obtain ⟨t, negated⟩ := l
  have hterm : Operand.Writes (text t) (term (name text t)) := by
    simpa only [String.toList_ofList] using Operand.writes_term h
  cases negated with
  | false => exact hterm
  | true =>
    have hnot : (term (name text t)).not
        = ofClause (SortedSet.singleton (.negative (name text t))) :=
      not_ofClause (Clause.ne_empty_of_mem (SortedSet.mem_singleton.2 rfl))
    exact hnot ▸ hterm.not

variable [Ranked α]

theorem writes_clause {c : Clause α} (hc : c ≠ SortedSet.empty)
    (h : ∀ l ∈ c, IsTerm (name text l.term)) :
    Disjunction.Writes (c.render text) (ofClause (c.map (name text))) := by
  obtain ⟨l, ls, hl⟩ := SortedSet.exists_cons_of_ne hc
  have hlit : ∀ k ∈ l :: ls, Conjunction.Writes (k.render text)
      (ofClause (SortedSet.singleton (k.map (name text)))) :=
    fun k hk => (writes_literal (h k (SortedSet.mem_def.2 (hl ▸ hk)))).conjunction
  obtain ⟨hfirst, hrest⟩ := List.forall_mem_cons.1 hlit
  have hall := writes_intercalate Disjunction.Writes.or hfirst.disjunction hrest
  have hfold := @foldl_or_literals _ _ (ls.map (·.map (name text))) [l.map (name text)]
    (List.cons_ne_nil _ _)
  rw [List.map_map, SortedSet.ofList_singleton, List.singleton_append, ← List.map_cons, ← hl]
    at hfold
  unfold Clause.render Clause.map
  rw [← hfold, hl]
  exact hall

theorem writes_piece {c : Clause α} (hc : c ≠ SortedSet.empty)
    (h : ∀ l ∈ c, IsTerm (name text l.term)) :
    Operand.Writes (c.piece text) (ofClause (c.map (name text))) := by
  unfold Clause.piece
  split
  · exact (writes_clause hc h).group
  · next hsize =>
    obtain ⟨l, ls, hl⟩ := SortedSet.exists_cons_of_ne hc
    unfold SortedSet.size at hsize
    obtain rfl : ls = [] := by
      rw [hl, List.length_cons] at hsize
      exact List.eq_nil_of_length_eq_zero (by omega)
    obtain rfl : c = SortedSet.singleton l := SortedSet.ext hl
    have hrender : Clause.render text (SortedSet.singleton l) = l.render text :=
      List.intercalate_singleton
    have hmap : Clause.map (name text) (SortedSet.singleton l)
        = SortedSet.singleton (l.map (name text)) := SortedSet.ofList_singleton _
    rw [hrender, hmap]
    exact writes_literal (h l (SortedSet.mem_singleton.2 rfl))

theorem render_eq_pieces {f : Formula α} (h : 1 < f.size) : f.render text
    = List.intercalate [' ', '&', ' '] (f.clauses.toList.map (Clause.piece text)) := by
  have hpiece : ∀ c ∈ f.clauses.toList, (if f.size > 1 && c.size > 1 then
      '(' :: c.render text ++ [')'] else c.render text) = Clause.piece text c := by
    intro c _
    simp [Clause.piece, h]
  unfold render
  rw [List.map_congr_left hpiece]

theorem writes_render {f : Formula α} (hf : f ≠ always)
    (h : ∀ l ∈ f.literals, IsTerm (name text l.term)) :
    Disjunction.Writes (f.render text) (f.map (name text)) := by
  have hterm : ∀ c ∈ f.clauses, ∀ l ∈ c, IsTerm (name text l.term) :=
    fun c hc l hl => h l (mem_literals.2 ⟨c, hc, hl⟩)
  have hne : ∀ c ∈ f.clauses, c ≠ SortedSet.empty := fun c hc => ne_empty_of_mem hc
  obtain ⟨c, cs, hcs⟩ := exists_cons_of_ne hf
  simp only [SortedSet.mem_def, hcs] at hterm hne
  obtain ⟨hfirst, hrest⟩ := List.forall_mem_cons.1 hne
  have hfold : (cs.map fun d => ofClause (d.map (name text))).foldl Formula.and
      (ofClause (c.map (name text))) = f.map (name text) := by
    have hmapped : ∀ d ∈ cs.map (Clause.map (name text)), d ≠ SortedSet.empty :=
      List.forall_mem_map.2 fun d hd => Clause.map_ne_empty (hrest d hd)
    refine ext_mem fun d => ?_
    have hmem := mem_foldl_and (d := d) (f := ofClause (c.map (name text))) hmapped
    rw [List.map_map, mem_ofClause (Clause.map_ne_empty hfirst), List.mem_map] at hmem
    refine hmem.trans ?_
    rw [mem_map]
    simp only [SortedSet.mem_def, hcs, List.exists_mem_cons_iff]
    exact or_congr_left eq_comm
  have hsize : f.size = cs.length + 1 := by
    unfold size SortedSet.size
    rw [hcs, List.length_cons]
  -- a clause that stands alone is a disjunction, and several are operands of a conjunction
  cases cs with
  | nil =>
    have hrender : f.render text = c.render text := by
      unfold render
      simp [hcs, hsize]
    rw [hrender, ← hfold]
    exact writes_clause hfirst (hterm c (List.mem_singleton_self c))
  | cons d cs =>
    have hpieces : ∀ b ∈ c :: d :: cs,
        Operand.Writes (b.piece text) (ofClause (b.map (name text))) :=
      fun b hb => writes_piece (hne b hb) (hterm b hb)
    obtain ⟨hpiece, hpieces⟩ := List.forall_mem_cons.1 hpieces
    have hall := writes_intercalate Conjunction.Writes.and hpiece.conjunction hpieces
    rw [hfold, ← List.map_cons, ← hcs,
      ← render_eq_pieces (by rw [hsize, List.length_cons]; omega)] at hall
    exact hall.disjunction

/-- What is read from a formula's text is the formula of its terms' texts. -/
theorem parse_ofList_render {f : Formula α} (h : ∀ l ∈ f.literals, IsTerm (name text l.term)) :
    parse .standard (String.ofList (f.render text)) = .ok (f.map (name text)) := by
  have htokens : tokens .standard (String.ofList (f.render text)) = scanFrom 0 (f.render text) := by
    unfold tokens
    rw [String.toList_ofList, show Dialect.sign .standard = id from rfl, List.map_id]
  by_cases hf : f = always
  · subst hf
    rw [map_always]
    exact parse_of_tokens_eq_nil (htokens.trans (scanFrom_nil 0))
  · obtain ⟨d, hd, hscan⟩ := writes_render hf h 0
    have hderived : d.tokens = tokens .standard (String.ofList (f.render text)) := by
      have := hscan [] stops_nil
      rw [List.append_nil, scanFrom_nil, List.append_nil] at this
      rw [htokens, this]
    exact (parse_eq_ok_iff (hderived ▸ d.tokens_ne_nil)).2 ⟨d, hderived, hd⟩

end Writes

theorem parse_render {f : Formula String} (h : ∀ l ∈ f.literals, IsTerm l.term) :
    parse .standard f.text = .ok f := by
  have hname : ∀ t : String, name String.toList t = t := fun _ => String.ofList_toList
  have hparse : parse .standard f.text = .ok (f.map (name String.toList)) :=
    parse_ofList_render fun l hl => (hname l.term).symm ▸ h l hl
  rwa [map_eq_self fun l _ => hname l.term] at hparse

end Formula

/-- The texts of the terms among some tokens. -/
def Token.terms (ts : List Token) : List String := (ts.filter (·.kind = .term)).map (·.text)

namespace Token

variable {t : Token} {ts us : List Token}

theorem mem_terms {a : String} : a ∈ terms ts ↔ ∃ t ∈ ts, t.kind = .term ∧ t.text = a := by
  unfold terms
  simp only [List.mem_map, List.mem_filter, decide_eq_true_eq, and_assoc]

theorem terms_append : terms (ts ++ us) = terms ts ++ terms us := by
  unfold terms
  rw [List.filter_append, List.map_append]

theorem terms_term (h : t.kind = .term) : terms [t] = [t.text] := by
  simp [terms, h]

theorem terms_sign {kind : Kind} (h : t.kind = kind) (hk : kind ≠ .term) :
    terms (t :: ts) = terms ts := by
  unfold terms
  rw [List.filter_cons_of_neg (by simp [h, hk])]

end Token

namespace Grammar

mutual

/-- What is derived has the terms among its tokens. -/
theorem Disjunction.terms_tokens : ∀ d : Disjunction, terms d.tokens = d.tree.terms
  | .one c => c.terms_tokens
  | .or l _ h r => by
    unfold Disjunction.tokens Disjunction.tree Expression.terms
    rw [terms_append, terms_sign h nofun, l.terms_tokens, r.terms_tokens]

theorem Conjunction.terms_tokens : ∀ c : Conjunction, terms c.tokens = c.tree.terms
  | .one o => o.terms_tokens
  | .and l _ h r => by
    unfold Conjunction.tokens Conjunction.tree Expression.terms
    rw [terms_append, terms_sign h nofun, l.terms_tokens, r.terms_tokens]
  | .andNot l _ h r => by
    unfold Conjunction.tokens Conjunction.tree Expression.terms
    rw [terms_append, terms_sign h nofun, l.terms_tokens, r.terms_tokens]

theorem Operand.terms_tokens : ∀ o : Operand, terms o.tokens = o.tree.terms
  | .term t h => by
    unfold Operand.tokens Operand.tree Expression.terms
    exact terms_term h
  | .not _ h o => by
    unfold Operand.tokens Operand.tree Expression.terms
    rw [terms_sign h nofun, o.terms_tokens]
  | .group _ ho d _ hc => by
    unfold Operand.tokens Operand.tree Expression.terms
    rw [terms_sign ho nofun, terms_append, terms_sign hc nofun, d.terms_tokens]
    exact List.append_nil _

end

end Grammar

namespace Formula

open Grammar

/-- The terms of a formula are those of the text that it is read from. -/
theorem mem_terms_of_parse {dialect : Dialect} {text : String} {f : Formula String}
    (h : parse dialect text = .ok f) {a : String} :
    a ∈ f.terms ↔ a ∈ Token.terms (tokens dialect text) := by
  by_cases hnil : tokens dialect text = []
  · obtain rfl : always = f := Except.ok.inj ((parse_of_tokens_eq_nil hnil).symm.trans h)
    rw [hnil]
    simp [mem_terms, not_mem_literals_always, Token.terms]
  · obtain ⟨d, hd, rfl⟩ := (parse_eq_ok_iff hnil).1 h
    rw [Expression.mem_terms_formula, ← d.terms_tokens, hd]

theorem exists_mem_terms_of_parse {dialect : Dialect} {text : String} {f : Formula String}
    (h : parse dialect text = .ok f) :
    (∃ a, a ∈ f.terms) ↔ ∃ c ∈ text.toList, Text.isBlank c = false := by
  by_cases hnil : tokens dialect text = []
  · obtain rfl : always = f := Except.ok.inj ((parse_of_tokens_eq_nil hnil).symm.trans h)
    refine iff_of_false (fun ⟨a, ha⟩ => ?_) fun ⟨c, hc, hb⟩ => ?_
    · obtain ⟨l, hl, -⟩ := mem_terms.1 ha
      exact not_mem_literals_always hl
    · exact nomatch hb.symm.trans (tokens_eq_nil_iff.1 hnil c hc)
  · obtain ⟨d, -, rfl⟩ := (parse_eq_ok_iff hnil).1 h
    rw [tokens_eq_nil_iff] at hnil
    push Not at hnil
    exact iff_of_true (exists_mem_terms d.tree.formula_ne_always) (by simpa using hnil)

theorem isTerm_of_parse {dialect : Dialect} {text : String} {f : Formula String}
    (h : parse dialect text = .ok f) : ∀ a ∈ f.terms, IsTerm a := by
  intro a ha
  obtain ⟨t, ht, hkind, rfl⟩ := Token.mem_terms.1 ((mem_terms_of_parse h).1 ha)
  exact isTerm_of_mem_scanFrom _ _ t ht hkind

/-- A formula whose terms are terms wherever they stand is what is read from its text, and every
formula that is read from a text is such. -/
theorem parse_text :
    (∀ f : Formula String, (∀ t ∈ f.terms, IsTerm t) → parse .standard f.text = .ok f)
      ∧ ∀ (dialect : Dialect) (text : String) (f : Formula String), parse dialect text = .ok f →
        (∀ t ∈ f.terms, IsTerm t) ∧ parse .standard f.text = .ok f := by
  refine ⟨fun f h => parse_render (forall_terms_iff.1 h), fun dialect text f h => ?_⟩
  exact ⟨isTerm_of_parse h, parse_render (forall_terms_iff.1 (isTerm_of_parse h))⟩

/-- A text with blanks to spare, and what is written for it. -/
theorem parse_text_extended : ∃ f, parse .extended "  a b ,( !x+  y) " = .ok f
    ∧ f.text = "a b & (~x | y)" ∧ parse .standard f.text = .ok f := by
  have hread : Expression.parse ("  a b ,( !x+  y) ".toList.map Dialect.extended.sign)
      = .ok (some (.and (.term "a b") (.group (.or (.not (.term "x")) (.term "y"))))) := by
    decide +kernel
  have hf := parse_of_expression hread
  exact ⟨_, hf, by cbv, (parse_text.2 _ _ _ hf).2⟩

end Formula

end Cohort
