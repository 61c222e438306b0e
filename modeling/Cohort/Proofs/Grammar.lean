import Cohort.Formula.Parser
import Cohort.Proofs.Algebra
import Cohort.Proofs.Tokens

/-!
# The grammar of formulas

The rules of the grammar, as types whose members are derivations. What a rule repeats is nested to
the left, as it associates. The reader takes the tokens of a derivation to its expression
(`Grammar.read_disjunction`), and in every state that it can get to, the tokens so far end where the
grammar asks for what the state waits for (`Grammar.Taken.step`). So it accepts exactly the token
lists that have a derivation, which have only one, and its formula has the truth value of the
expression derived (`Formula.parse_derivation`).
-/

namespace Cohort

namespace Grammar

open Expression

mutual

/-- `expression = conjunction { "|" conjunction }`. -/
inductive Disjunction where
  | one (c : Conjunction)
  | or (l : Disjunction) (sign : Token) (h : sign.kind = .disj) (r : Conjunction)

/-- `conjunction = operand { ( "&" | "~" ) operand }`. -/
inductive Conjunction where
  | one (o : Operand)
  | and (l : Conjunction) (sign : Token) (h : sign.kind = .conj) (r : Operand)
  | andNot (l : Conjunction) (sign : Token) (h : sign.kind = .neg) (r : Operand)

/-- `operand = "~" operand | term | "(" expression ")"`. -/
inductive Operand where
  | term (t : Token) (h : t.kind = .term)
  | not (sign : Token) (h : sign.kind = .neg) (o : Operand)
  | group (opening : Token) (ho : opening.kind = .opening) (d : Disjunction) (closing : Token)
    (hc : closing.kind = .closing)

end

mutual

/-- The tokens that are derived. -/
def Disjunction.tokens : Disjunction → List Token
  | .one c => c.tokens
  | .or l sign _ r => l.tokens ++ sign :: r.tokens

def Conjunction.tokens : Conjunction → List Token
  | .one o => o.tokens
  | .and l sign _ r => l.tokens ++ sign :: r.tokens
  | .andNot l sign _ r => l.tokens ++ sign :: r.tokens

def Operand.tokens : Operand → List Token
  | .term t _ => [t]
  | .not sign _ o => sign :: o.tokens
  | .group opening _ d closing _ => opening :: (d.tokens ++ [closing])

end

mutual

/-- The expression that is derived. -/
def Disjunction.tree : Disjunction → Expression
  | .one c => c.tree
  | .or l _ _ r => .or l.tree r.tree

def Conjunction.tree : Conjunction → Expression
  | .one o => o.tree
  | .and l _ _ r => .and l.tree r.tree
  | .andNot l _ _ r => .andNot l.tree r.tree

def Operand.tree : Operand → Expression
  | .term t _ => .term t.text
  | .not _ _ o => .not o.tree
  | .group _ _ d _ _ => .group d.tree

end

section Complete

variable {z : Token}

theorem read_step {a b : State} {t : Token} (h : a.step t = .ok b) (ts : List Token) :
    read z a (t :: ts) = read z b ts := by
  rw [Expression.read, h]
  rfl

/-- Pending parts that no operand and no conjunction completes. -/
def Closed : List Pending → Prop
  | [] | .group _ :: _ => True
  | _ => False

/-- Pending parts that no operand completes. -/
def Open : List Pending → Prop
  | .or _ :: _ => True
  | s => Closed s

theorem closeOperand_of_open : ∀ {s : List Pending}, Open s → ∀ e, closeOperand s e = (s, e)
  | [], _, _ | .group _ :: _, _, _ | .or _ :: _, _, _ => rfl

theorem closeDisjunction_of_closed : ∀ {s : List Pending}, Closed s → ∀ e,
    closeDisjunction s e = (s, e)
  | [], _, _ | .group _ :: _, _, _ => rfl

theorem Closed.open : ∀ {s : List Pending}, Closed s → Open s
  | [], _ | .group _ :: _, _ => trivial

mutual

theorem read_operand : ∀ (o : Operand) (s : List Pending) (op : Option Token) (rest : List Token),
    read z (.before s op) (o.tokens ++ rest) = read z (.ofOperand s o.tree) rest
  | .term t h, s, op, rest => by
    exact read_step (by simp [State.step, h, Operand.tree]) rest
  | .not sign h o, s, op, rest => by
    rw [Operand.tokens, List.cons_append, read_step (b := .before (.not :: s) (some sign))
      (by simp [State.step, h]), read_operand o]
    rfl
  | .group opening ho d closing hc, s, op, rest => by
    obtain ⟨s', e, hd, he⟩ := read_disjunction d (s := .group opening.start :: s) trivial none
      (closing :: rest)
    rw [Operand.tokens, List.cons_append, List.append_assoc, read_step
      (b := .before (.group opening.start :: s) none) (by simp [State.step, ho])]
    refine hd.trans ?_
    exact read_step (by simp [State.step, hc, he, Operand.tree]) rest

theorem read_conjunction : ∀ (c : Conjunction) {s : List Pending}, Open s →
    ∀ (op : Option Token) (rest : List Token),
      read z (.before s op) (c.tokens ++ rest) = read z (.after s c.tree) rest
  | .one o, s, hs, op, rest => by
    rw [Conjunction.tokens, read_operand o, State.ofOperand, closeOperand_of_open hs]
    rfl
  | .and l sign h r, s, hs, op, rest => by
    rw [Conjunction.tokens, List.append_assoc, read_conjunction l hs, List.cons_append,
      read_step (b := .before (.and l.tree :: s) (some sign)) (by simp [State.step, h]),
      read_operand r]
    rfl
  | .andNot l sign h r, s, hs, op, rest => by
    rw [Conjunction.tokens, List.append_assoc, read_conjunction l hs, List.cons_append,
      read_step (b := .before (.andNot l.tree :: s) (some sign)) (by simp [State.step, h]),
      read_operand r]
    rfl

/-- The tokens of a disjunction are read up to its last conjunction, which completes it once another
token closes it. -/
theorem read_disjunction : ∀ (d : Disjunction) {s : List Pending}, Closed s →
    ∀ (op : Option Token) (rest : List Token), ∃ s' e,
      read z (.before s op) (d.tokens ++ rest) = read z (.after s' e) rest
        ∧ closeDisjunction s' e = (s, d.tree)
  | .one c, s, hs, op, rest =>
    ⟨s, c.tree, read_conjunction c hs.open op rest, closeDisjunction_of_closed hs _⟩
  | .or l sign h r, s, hs, op, rest => by
    obtain ⟨s', e, hl, he⟩ := read_disjunction l hs op (sign :: (r.tokens ++ rest))
    refine ⟨.or l.tree :: s, r.tree, ?_, rfl⟩
    rw [Disjunction.tokens, List.append_assoc, List.cons_append, hl,
      read_step (b := .before (.or l.tree :: s) (some sign)) (by simp [State.step, h, he])]
    exact read_conjunction r (s := .or l.tree :: s) trivial _ rest

end

theorem read_tokens (d : Disjunction) : read z (.before [] none) d.tokens = .ok d.tree := by
  obtain ⟨s, e, hd, he⟩ := read_disjunction (z := z) d (s := []) trivial none []
  rw [List.append_nil] at hd
  rw [hd, Expression.read, State.finish, he]

end Complete

section Sound

/-- What the grammar asks for at a place. -/
inductive Rule where
  | disjunction
  | conjunction
  | operand

/-- The tokens before a place where a rule is to be applied, with what is pending there. -/
inductive Awaits : Rule → List Pending → List Token → Prop
  | start : Awaits .disjunction [] []
  | group {s ts t} (h : Awaits .operand s ts) (ht : t.kind = .opening) :
    Awaits .disjunction (.group t.start :: s) (ts ++ [t])
  | first {s ts} (h : Awaits .disjunction s ts) : Awaits .conjunction s ts
  | or {s ts t} (h : Awaits .disjunction s ts) (d : Disjunction) (ht : t.kind = .disj) :
    Awaits .conjunction (.or d.tree :: s) (ts ++ (d.tokens ++ [t]))
  | head {s ts} (h : Awaits .conjunction s ts) : Awaits .operand s ts
  | and {s ts t} (h : Awaits .conjunction s ts) (c : Conjunction) (ht : t.kind = .conj) :
    Awaits .operand (.and c.tree :: s) (ts ++ (c.tokens ++ [t]))
  | andNot {s ts t} (h : Awaits .conjunction s ts) (c : Conjunction) (ht : t.kind = .neg) :
    Awaits .operand (.andNot c.tree :: s) (ts ++ (c.tokens ++ [t]))
  | not {s ts t} (h : Awaits .operand s ts) (ht : t.kind = .neg) :
    Awaits .operand (.not :: s) (ts ++ [t])

/-- The tokens that lead to a state. -/
inductive Taken : State → List Token → Prop
  | before {s op ts} (h : Awaits .operand s ts) : Taken (.before s op) ts
  | after {s e us ts} (h : Awaits .conjunction s us) (c : Conjunction) (he : c.tree = e)
    (ht : us ++ c.tokens = ts) : Taken (.after s e) ts

theorem Awaits.closed {s : List Pending} {ts : List Token} : Awaits .disjunction s ts → Closed s
  | .start => trivial
  | .group _ _ => trivial

theorem Awaits.open {s : List Pending} {ts : List Token} : Awaits .conjunction s ts → Open s
  | .first h => h.closed.open
  | .or _ _ _ => trivial

theorem Awaits.operand : ∀ {s : List Pending} {ts us : List Token}, Awaits .operand s ts →
    ∀ o : Operand, ts ++ o.tokens = us → Taken (.ofOperand s o.tree) us
  | s, ts, us, .head h, o, hus => by
    unfold State.ofOperand
    rw [closeOperand_of_open h.open]
    exact .after h (.one o) rfl hus
  | _, _, _, .and (t := t) h c ht, o, hus =>
    .after h (.and c t ht o) rfl (by simp [Conjunction.tokens, ← hus])
  | _, _, _, .andNot (t := t) h c ht, o, hus =>
    .after h (.andNot c t ht o) rfl (by simp [Conjunction.tokens, ← hus])
  | _, _, _, .not (t := t) h ht, o, hus =>
    h.operand (.not t ht o) (by simp [Operand.tokens, ← hus])

theorem Awaits.conjunction {s : List Pending} {ts : List Token} (h : Awaits .conjunction s ts)
    (c : Conjunction) : ∃ s' us, ∃ d : Disjunction, Awaits .disjunction s' us
      ∧ closeDisjunction s c.tree = (s', d.tree) ∧ ts ++ c.tokens = us ++ d.tokens := by
  cases h with
  | first h => exact ⟨_, _, .one c, h, closeDisjunction_of_closed h.closed _, rfl⟩
  | or h d ht => exact ⟨_, _, .or d _ ht c, h, rfl, by simp [Disjunction.tokens]⟩

theorem Taken.step {st st' : State} {ts : List Token} {t : Token} (h : Taken st ts)
    (hs : st.step t = .ok st') : Taken st' (ts ++ [t]) := by
  cases h with
  | before h =>
    cases hk : t.kind <;> simp only [State.step, hk, reduceCtorEq, Except.ok.injEq] at hs <;>
      subst hs
    · exact h.operand (.term t hk) rfl
    · exact .before (.not h hk)
    · exact .before (.head (.first (.group h hk)))
  | after h c he ht =>
    subst he ht
    -- `&` and `~` go on with the conjunction; everything else ends it and its disjunction
    obtain ⟨s', us, d, hd, hclose, htokens⟩ := h.conjunction c
    cases hk : t.kind <;> simp only [State.step, hk, hclose] at hs
    case conj =>
      obtain rfl := Except.ok.inj hs
      rw [List.append_assoc]
      exact .before (.and h c hk)
    case neg =>
      obtain rfl := Except.ok.inj hs
      rw [List.append_assoc]
      exact .before (.andNot h c hk)
    case disj =>
      obtain rfl := Except.ok.inj hs
      rw [htokens, List.append_assoc]
      exact .before (.head (.or hd d hk))
    case closing =>
      cases hd with
      | start => exact nomatch hs
      | @group s ts opening hd ho =>
        obtain rfl := Except.ok.inj hs
        exact hd.operand (.group opening ho d t hk) (by simp [Operand.tokens, htokens])
    case term | opening | finish => split at hs <;> exact nomatch hs

theorem Taken.finish {st : State} {ts : List Token} {t : Token} {e : Expression} (h : Taken st ts)
    (hf : st.finish t = .ok e) : ∃ d : Disjunction, d.tokens = ts ∧ d.tree = e := by
  cases h with
  | before h => exact nomatch hf
  | after h c he ht =>
    subst he ht
    obtain ⟨s', us, d, hd, hclose, htokens⟩ := h.conjunction c
    simp only [State.finish, hclose] at hf
    cases hd with
    | start => exact ⟨d, htokens.symm, Except.ok.inj hf⟩
    | group => exact nomatch hf

theorem Taken.read {z : Token} : ∀ {ts us : List Token} {st : State} {e : Expression},
    Taken st us → Expression.read z st ts = .ok e →
      ∃ d : Disjunction, d.tokens = us ++ ts ∧ d.tree = e
  | [], us, _, _, h, hr => by
    rw [List.append_nil]
    exact h.finish hr
  | t :: ts, us, st, _, h, hr => by
    rw [Expression.read, bind_eq_ok_iff] at hr
    obtain ⟨st', hs, hr⟩ := hr
    simpa using (h.step hs).read hr

end Sound

theorem read_eq_ok_iff {z : Token} {ts : List Token} {e : Expression} :
    read z (.before [] none) ts = .ok e ↔ ∃ d : Disjunction, d.tokens = ts ∧ d.tree = e := by
  constructor
  · intro h
    exact (Taken.before (.head (.first .start))).read h
  · rintro ⟨d, rfl, rfl⟩
    exact read_tokens d

section Unique

/-- How many tokens an expression is derived from. -/
def tokenCount : Expression → Nat
  | .term _ => 1
  | .not e => tokenCount e + 1
  | .and l r | .andNot l r | .or l r => tokenCount l + (tokenCount r + 1)
  | .group e => tokenCount e + 2

theorem tokenCount_pos : ∀ e : Expression, 0 < tokenCount e
  | .term _ | .not _ | .and _ _ | .andNot _ _ | .or _ _ | .group _ => Nat.succ_pos _

mutual

theorem Disjunction.length_tokens : ∀ d : Disjunction, d.tokens.length = tokenCount d.tree
  | .one c => c.length_tokens
  | .or l _ _ r => by
    simp [Disjunction.tokens, Disjunction.tree, tokenCount, l.length_tokens, r.length_tokens]

theorem Conjunction.length_tokens : ∀ c : Conjunction, c.tokens.length = tokenCount c.tree
  | .one o => o.length_tokens
  | .and l _ _ r | .andNot l _ _ r => by
    simp [Conjunction.tokens, Conjunction.tree, tokenCount, l.length_tokens, r.length_tokens]

theorem Operand.length_tokens : ∀ o : Operand, o.tokens.length = tokenCount o.tree
  | .term _ _ => rfl
  | .not _ _ o => by simp [Operand.tokens, Operand.tree, tokenCount, o.length_tokens]
  | .group _ _ d _ _ => by simp [Operand.tokens, Operand.tree, tokenCount, d.length_tokens]

end

theorem parted {ls ls' rs rs' : List Token} {sign sign' : Token}
    (h : ls ++ sign :: rs = ls' ++ sign' :: rs') (hl : ls.length = ls'.length) :
    ls = ls' ∧ sign = sign' ∧ rs = rs' := by
  obtain ⟨hls, hrs⟩ := List.append_inj h hl
  exact ⟨hls, List.cons.inj hrs⟩

-- Trees leave out which tokens the signs are. Where a sign stands, the tree tells by the number of
-- tokens before it.
mutual

theorem Disjunction.ext : ∀ {d d' : Disjunction}, d.tree = d'.tree → d.tokens = d'.tokens → d = d'
  | .one _, .one _, h, ht => congrArg Disjunction.one (Conjunction.ext h ht)
  | .or l sign _ r, .or l' sign' _ r', h, ht => by
    obtain ⟨hl, hr⟩ := Expression.or.inj h
    obtain ⟨hlt, rfl, hrt⟩ := parted ht (by rw [l.length_tokens, l'.length_tokens, hl])
    obtain rfl := Disjunction.ext hl hlt
    obtain rfl := Conjunction.ext hr hrt
    rfl
  | .one (.one o), .or .., h, _ | .or .., .one (.one o), h, _ => by cases o <;> exact nomatch h

theorem Conjunction.ext : ∀ {c c' : Conjunction}, c.tree = c'.tree → c.tokens = c'.tokens → c = c'
  | .one _, .one _, h, ht => congrArg Conjunction.one (Operand.ext h ht)
  | .and l sign _ r, .and l' sign' _ r', h, ht => by
    obtain ⟨hl, hr⟩ := Expression.and.inj h
    obtain ⟨hlt, rfl, hrt⟩ := parted ht (by rw [l.length_tokens, l'.length_tokens, hl])
    obtain rfl := Conjunction.ext hl hlt
    obtain rfl := Operand.ext hr hrt
    rfl
  | .andNot l sign _ r, .andNot l' sign' _ r', h, ht => by
    obtain ⟨hl, hr⟩ := Expression.andNot.inj h
    obtain ⟨hlt, rfl, hrt⟩ := parted ht (by rw [l.length_tokens, l'.length_tokens, hl])
    obtain rfl := Conjunction.ext hl hlt
    obtain rfl := Operand.ext hr hrt
    rfl
  | .one o, .and .., h, _ | .one o, .andNot .., h, _
  | .and .., .one o, h, _ | .andNot .., .one o, h, _ => by cases o <;> exact nomatch h

theorem Operand.ext : ∀ {o o' : Operand}, o.tree = o'.tree → o.tokens = o'.tokens → o = o'
  | .term t _, .term t' _, _, ht => by
    obtain rfl := List.singleton_inj.1 ht
    rfl
  | .not sign _ o, .not sign' _ o', h, ht => by
    obtain ⟨rfl, hot⟩ := List.cons.inj ht
    obtain rfl := Operand.ext (Expression.not.inj h) hot
    rfl
  | .group opening _ d closing _, .group opening' _ d' closing' _, h, ht => by
    obtain ⟨rfl, hdc⟩ := List.cons.inj ht
    obtain ⟨hdt, hct⟩ := List.append_inj' hdc rfl
    obtain rfl := Disjunction.ext (Expression.group.inj h) hdt
    obtain rfl := List.singleton_inj.1 hct
    rfl

end

theorem Disjunction.tokens_ne_nil (d : Disjunction) : d.tokens ≠ [] := by
  rw [← List.length_pos_iff, d.length_tokens]
  exact tokenCount_pos d.tree

theorem eq_of_tokens_eq {d d' : Disjunction} (h : d.tokens = d'.tokens) : d = d' := by
  refine Disjunction.ext (Except.ok.inj (?_ : Except.ok (ε := ParseError) d.tree = .ok d'.tree)) h
  rw [← read_tokens (z := .finish 0) d, h, read_tokens]

end Unique

end Grammar

theorem Dialect.sign_of_isBlank {dialect : Dialect} {c : Char} (h : Text.isBlank c = true) :
    dialect.sign c = c := by
  unfold sign
  split <;> first | rfl | exact absurd h (by decide)

theorem Dialect.isBlank_sign (dialect : Dialect) (c : Char) :
    Text.isBlank (dialect.sign c) = Text.isBlank c := by
  unfold sign
  split <;> rfl

namespace Formula

open Grammar

variable {dialect : Dialect} {text : String} {f : Formula String}

/-- The tokens of a text, in the plain signs. -/
def tokens (dialect : Dialect) (text : String) : List Token :=
  Token.scanFrom 0 (text.toList.map dialect.sign)

theorem tokens_eq_nil_iff :
    tokens dialect text = [] ↔ ∀ c ∈ text.toList, Text.isBlank c = true := by
  unfold tokens
  simp only [Token.scanFrom_eq_nil_iff, List.forall_mem_map, Dialect.isBlank_sign]

theorem parse_of_tokens_eq_nil (h : tokens dialect text = []) :
    parse dialect text = .ok .always := by
  unfold tokens at h
  unfold parse Expression.parse
  rw [h]
  rfl

theorem parse_eq_read (h : tokens dialect text ≠ []) : parse dialect text
    = Expression.formula <$> Expression.read
        (.finish (Token.byteSize (text.toList.map dialect.sign))) (.before [] none)
        (tokens dialect text) := by
  unfold tokens at h ⊢
  unfold parse Expression.parse
  split
  · contradiction
  · cases Expression.read _ _ _ <;> rfl

theorem parse_of_expression {e : Option Expression}
    (h : Expression.parse (text.toList.map dialect.sign) = .ok e) :
    parse dialect text = .ok (e.elim always Expression.formula) := by
  unfold parse
  rw [h]
  cases e <;> rfl

theorem parse_eq_ok_iff (h : tokens dialect text ≠ []) : parse dialect text = .ok f
    ↔ ∃ d : Disjunction, d.tokens = tokens dialect text ∧ d.tree.formula = f := by
  simp only [parse_eq_read h, map_eq_ok_iff, read_eq_ok_iff]
  constructor
  · rintro ⟨_, ⟨d, hd, rfl⟩, hf⟩
    exact ⟨d, hd, hf⟩
  · rintro ⟨d, hd, hf⟩
    exact ⟨_, ⟨d, hd, rfl⟩, hf⟩

/-- A text is a formula exactly when it has no tokens or they have a derivation. There is then only
one, and the formula has the truth value of the expression that it derives. -/
theorem parse_derivation (dialect : Dialect) (text : String) :
    ((∃ f, parse dialect text = .ok f)
        ↔ tokens dialect text = [] ∨ ∃ d : Disjunction, d.tokens = tokens dialect text)
      ∧ (∀ f, parse dialect text = .ok f → tokens dialect text ≠ [] →
        (∃! d : Disjunction, d.tokens = tokens dialect text)
          ∧ ∀ d : Disjunction, d.tokens = tokens dialect text → ∀ v, f.eval v = d.tree.eval v)
      ∧ ((∀ c ∈ text.toList, Text.isBlank c = true) → parse dialect text = .ok .always) := by
  refine ⟨?_, fun f hf hne => ?_, fun hblank => parse_of_tokens_eq_nil ?_⟩
  · by_cases h : tokens dialect text = []
    · exact iff_of_true ⟨_, parse_of_tokens_eq_nil h⟩ (.inl h)
    · simp only [parse_eq_ok_iff h, h, false_or]
      constructor
      · rintro ⟨_, d, hd, -⟩
        exact ⟨d, hd⟩
      · rintro ⟨d, hd⟩
        exact ⟨_, d, hd, rfl⟩
  · obtain ⟨d, hd, rfl⟩ := (parse_eq_ok_iff hne).1 hf
    have hunique : ∀ d' : Disjunction, d'.tokens = tokens dialect text → d' = d :=
      fun d' hd' => eq_of_tokens_eq (hd'.trans hd.symm)
    refine ⟨⟨d, hd, hunique⟩, fun d' hd' v => ?_⟩
    rw [hunique d' hd', Expression.eval_formula]
  · have hscan := Token.scanFrom_blank hblank 0 []
    unfold tokens
    rw [List.map_congr_left fun c hc => Dialect.sign_of_isBlank (hblank c hc), List.map_id']
    rw [List.append_nil] at hscan
    rw [hscan, Token.scanFrom_nil]

/-- In the extended signs, `a` or not both of `b` and `c`. -/
theorem parse_derivation_extended : ∃ f, parse .extended "a+!(b,c)" = .ok f
    ∧ ∀ v, f.eval v = (v "a" || !(v "b" && v "c")) := by
  let inner : Disjunction :=
    .one (.and (.one (.term ⟨.term, "b", 4⟩ rfl)) ⟨.conj, "&", 5⟩ rfl (.term ⟨.term, "c", 6⟩ rfl))
  let d : Disjunction := .or (.one (.one (.term ⟨.term, "a", 0⟩ rfl))) ⟨.disj, "|", 1⟩ rfl
    (.one (.not ⟨.neg, "~", 2⟩ rfl (.group ⟨.opening, "(", 3⟩ rfl inner ⟨.closing, ")", 7⟩ rfl)))
  have hd : d.tokens = tokens .extended "a+!(b,c)" := by decide +kernel
  obtain ⟨hiff, hmeans, -⟩ := parse_derivation .extended "a+!(b,c)"
  obtain ⟨f, hf⟩ := hiff.2 (.inr ⟨d, hd⟩)
  exact ⟨f, hf, (hmeans f hf (hd ▸ by decide)).2 d hd⟩

end Formula

end Cohort
