import Cohort.Proofs.Tokens
import Mathlib.Data.List.Chain

/-!
# Tokens tile their text

The tokens of a text stand in it one behind the other, with blanks only around them, up to one that
marks the end. Signs are single characters and terms are as long as they can be, so no two terms are
neighbours. This is all there is to know about the tokens of a text: no other list has them so
(`Token.tiles_iff`).

Tiles are followed from some byte on, and the first of them is what `Token.scanFrom` finds there. A
term is cut from a longer run of characters, and the blanks that are left out of it are in the gap
behind it.
-/

namespace Cohort

open Text

namespace Token

/-- There are blanks only from one byte of the text up to another. -/
def BlankBetween (text : String) (i j : Nat) : Prop :=
  ∃ before gap rest : String, text = before ++ gap ++ rest ∧ before.utf8ByteSize = i
    ∧ (before ++ gap).utf8ByteSize = j ∧ ∀ c ∈ gap.toList, isBlank c = true

/-- The byte behind a token. -/
def stop (t : Token) : Nat := t.start + t.text.utf8ByteSize

/-- The token's text is found where the token starts, and it is of the token's kind. -/
structure StandsIn (text : String) (t : Token) : Prop where
  place : ∃ before rest : String,
    text = before ++ t.text ++ rest ∧ before.utf8ByteSize = t.start
  sign : t.kind ≠ .term → t.kind ≠ .finish →
    ∃ c : Char, t.text = c.toString ∧ Kind.ofSign? c = some t.kind
  term : t.kind = .term → IsTerm t.text

/-- The tokens stand in the text one behind the other, from the given byte up to the end. -/
structure Tiles (start : Nat) (text : String) (ts : List Token) : Prop where
  token : ∀ t ∈ ts, t.StandsIn text
  ascending : ts.Pairwise (·.start < ·.start)
  finish : ∃ us, ts = us ++ [finish text.utf8ByteSize] ∧ ∀ u ∈ us, u.kind ≠ .finish
  first : ∀ t ∈ ts.head?, BlankBetween text start t.start
  gap : ts.IsChain fun t u => BlankBetween text t.stop u.start
  apart : ts.IsChain fun t u => t.kind = .term → u.kind ≠ .term

/-! ## Places in a text -/

section Places

variable {text : String} {pre cs : List Char} {i j k : Nat}

theorem byteSize_toList (s : String) : byteSize s.toList = s.utf8ByteSize := by
  rw [byteSize_eq_utf8ByteSize, String.ofList_toList]

theorem eq_nil_of_byteSize {cs : List Char} (h : byteSize cs = 0) : cs = [] := by
  cases cs with
  | nil => rfl
  | cons c cs =>
    have hc := c.utf8Size_pos
    rw [byteSize_cons] at h
    omega

/-- A text is cut in one way only after a number of bytes. -/
theorem cut_unique {pre' cs' : List Char} (h : pre ++ cs = pre' ++ cs')
    (hsize : byteSize pre = byteSize pre') : pre = pre' ∧ cs = cs' := by
  obtain ⟨ds, rfl, rfl⟩ | ⟨ds, rfl, rfl⟩ := List.append_eq_append_iff.1 h
  all_goals
    rw [byteSize_append] at hsize
    have hds : ds = [] := eq_nil_of_byteSize (by omega)
    simp [hds]

theorem blankBetween_of_append {bs : List Char} (h : text.toList = pre ++ (bs ++ cs))
    (hbs : ∀ c ∈ bs, isBlank c = true) :
    BlankBetween text (byteSize pre) (byteSize (pre ++ bs)) := by
  refine ⟨String.ofList pre, String.ofList bs, String.ofList cs, ?_, ?_, ?_, ?_⟩
  · simp [← String.toList_inj, h]
  · rw [byteSize_eq_utf8ByteSize]
  · rw [byteSize_eq_utf8ByteSize, String.ofList_append]
  · rwa [String.toList_ofList]

theorem BlankBetween.exists_append (hb : BlankBetween text (byteSize pre) j)
    (h : text.toList = pre ++ cs) : ∃ bs cs', cs = bs ++ cs' ∧ (∀ c ∈ bs, isBlank c = true)
      ∧ byteSize (pre ++ bs) = j := by
  obtain ⟨before, gap, rest, rfl, hsize, rfl, hgap⟩ := hb
  rw [String.toList_append, String.toList_append, List.append_assoc] at h
  obtain ⟨rfl, rfl⟩ := cut_unique h ((byteSize_toList _).trans hsize)
  exact ⟨gap.toList, rest.toList, rfl, hgap, by rw [← String.toList_append, byteSize_toList]⟩

theorem blankBetween_self (h : text.toList = pre ++ cs) :
    BlankBetween text (byteSize pre) (byteSize pre) := by
  have hself : BlankBetween text (byteSize pre) (byteSize (pre ++ [])) :=
    blankBetween_of_append h (List.forall_mem_nil _)
  rwa [List.append_nil] at hself

theorem BlankBetween.le (h : BlankBetween text i j) : i ≤ j := by
  obtain ⟨before, gap, rest, -, rfl, rfl, -⟩ := h
  rw [String.utf8ByteSize_append]
  exact Nat.le_add_right _ _

theorem BlankBetween.trans (hij : BlankBetween text i j) (hjk : BlankBetween text j k) :
    BlankBetween text i k := by
  obtain ⟨before, gap, rest, htext, rfl, rfl, hgap⟩ := hij
  have htext' : text.toList = before.toList ++ (gap.toList ++ rest.toList) := by
    rw [htext, String.toList_append, String.toList_append, List.append_assoc]
  have hcut : text.toList = (before ++ gap).toList ++ rest.toList := by
    rw [htext, String.toList_append]
  rw [← byteSize_toList] at hjk ⊢
  obtain ⟨bs, cs, hrest, hbs, rfl⟩ := hjk.exists_append hcut
  rw [hrest, ← List.append_assoc gap.toList] at htext'
  have := blankBetween_of_append htext' (List.forall_mem_append.2 ⟨hgap, hbs⟩)
  rwa [← List.append_assoc, ← String.toList_append] at this

/-- The blanks that are cut off at the end of a run are a gap. -/
theorem blankBetween_trimEnd {run : List Char} (h : text.toList = pre ++ (run ++ cs)) :
    BlankBetween text (byteSize (pre ++ trimEnd run)) (byteSize (pre ++ run)) := by
  have htrim : trimEnd run ++ run.rtakeWhile isBlank = run := List.rdropWhile_append_rtakeWhile
  have hcut : text.toList = pre ++ trimEnd run ++ (run.rtakeWhile isBlank ++ cs) := by
    rw [List.append_assoc, ← List.append_assoc (trimEnd run), htrim, h]
  have hblank := blankBetween_of_append hcut fun d hd => List.mem_rtakeWhile_imp hd
  rwa [List.append_assoc, htrim] at hblank

theorem exists_place {t : Token} (h : text.toList = pre ++ (t.text.toList ++ cs))
    (hstart : t.start = byteSize pre) :
    ∃ before rest : String, text = before ++ t.text ++ rest ∧ before.utf8ByteSize = t.start :=
  ⟨String.ofList pre, String.ofList cs, by simp [← String.toList_inj, h],
    by rw [hstart, byteSize_eq_utf8ByteSize]⟩

theorem StandsIn.exists_append {t : Token} (ht : t.StandsIn text) (h : text.toList = pre ++ cs)
    (hstart : t.start = byteSize pre) : ∃ cs', cs = t.text.toList ++ cs' := by
  obtain ⟨before, rest, rfl, hsize⟩ := ht.place
  rw [String.toList_append, String.toList_append, List.append_assoc] at h
  obtain ⟨-, rfl⟩ := cut_unique h (by rw [byteSize_toList, hsize, hstart])
  exact ⟨rest.toList, rfl⟩

end Places

/-! ## One tile and those behind it -/

section Steps

variable {text : String} {pre cs : List Char} {n : Nat} {t : Token} {ts : List Token}

theorem StandsIn.start_lt_stop (h : t.StandsIn text) (hkind : t.kind ≠ .finish) :
    t.start < t.stop := by
  have hne : t.text ≠ "" := by
    by_cases hterm : t.kind = .term
    · exact (h.term hterm).nonempty
    · obtain ⟨c, hc, -⟩ := h.sign hterm hkind
      simp [hc]
  have hpos : t.text.utf8ByteSize ≠ 0 := String.utf8ByteSize_eq_zero_iff.not.2 hne
  unfold stop
  omega

theorem standsIn_finish (text : String) : (finish text.utf8ByteSize).StandsIn text where
  place := ⟨text, "", by simp [finish], rfl⟩
  sign := fun _ h => absurd rfl h
  term := by rintro ⟨⟩

theorem Tiles.le_start (h : Tiles n text ts) : ∀ t ∈ ts, n ≤ t.start := by
  cases ts with
  | nil => exact List.forall_mem_nil _
  | cons u us =>
    have hfirst : n ≤ u.start := (h.first u rfl).le
    refine List.forall_mem_cons.2 ⟨hfirst, fun t ht => hfirst.trans ?_⟩
    exact (List.rel_of_pairwise_cons h.ascending ht).le

theorem tiles_finish (h : BlankBetween text n text.utf8ByteSize) :
    Tiles n text [finish text.utf8ByteSize] where
  token := List.forall_mem_singleton.2 (standsIn_finish text)
  ascending := List.pairwise_singleton _ _
  finish := ⟨[], rfl, List.forall_mem_nil _⟩
  first := by
    rintro _ ⟨⟩
    exact h
  gap := List.isChain_singleton _
  apart := List.isChain_singleton _

/-- Nothing is behind the token that marks the end. -/
theorem Tiles.eq_finish (h : Tiles n text (t :: ts)) (hkind : t.kind = .finish) :
    t = Token.finish text.utf8ByteSize ∧ ts = [] := by
  obtain ⟨us, hts, hus⟩ := h.finish
  cases us with
  | nil => exact List.cons.inj hts
  | cons u us =>
    obtain ⟨rfl, -⟩ := List.cons.inj hts
    exact absurd hkind (hus t List.mem_cons_self)

/-- A token in front of tiles stands behind blanks, and the tiles go on behind it. -/
theorem tiles_cons (hkind : t.kind ≠ .finish) : Tiles n text (t :: ts)
    ↔ BlankBetween text n t.start ∧ t.StandsIn text
      ∧ (∀ u ∈ ts.head?, t.kind = .term → u.kind ≠ .term) ∧ Tiles t.stop text ts where
  mp h := by
    have hfinish : ∃ us, ts = us ++ [Token.finish text.utf8ByteSize]
        ∧ ∀ u ∈ us, u.kind ≠ .finish := by
      obtain ⟨us, hts, hus⟩ := h.finish
      cases us with
      | nil =>
        obtain ⟨rfl, -⟩ := List.cons.inj hts
        exact absurd rfl hkind
      | cons u us => exact ⟨us, (List.cons.inj hts).2, (List.forall_mem_cons.1 hus).2⟩
    obtain ⟨htoken, htokens⟩ := List.forall_mem_cons.1 h.token
    obtain ⟨hfirst, hgap⟩ := List.isChain_cons.1 h.gap
    obtain ⟨hnext, hapart⟩ := List.isChain_cons.1 h.apart
    exact ⟨h.first t rfl, htoken, hnext,
      { token := htokens
        ascending := (List.pairwise_cons.1 h.ascending).2
        finish := hfinish
        first := hfirst
        gap := hgap
        apart := hapart }⟩
  mpr := by
    rintro ⟨hfirst, htoken, hnext, hts⟩
    obtain ⟨us, hus, hkinds⟩ := hts.finish
    exact
      { token := List.forall_mem_cons.2 ⟨htoken, hts.token⟩
        ascending := List.pairwise_cons.2
          ⟨fun u hu => (htoken.start_lt_stop hkind).trans_le (hts.le_start u hu), hts.ascending⟩
        finish := ⟨t :: us, congrArg _ hus, List.forall_mem_cons.2 ⟨hkind, hkinds⟩⟩
        first := by rintro _ ⟨⟩; exact hfirst
        gap := List.isChain_cons.2 ⟨hts.first, hts.gap⟩
        apart := List.isChain_cons.2 ⟨hnext, hts.apart⟩ }

theorem Tiles.cons_sign {c : Char} {kind : Kind} (hc : Kind.ofSign? c = some kind)
    (h : text.toList = pre ++ c :: cs) (hts : Tiles (byteSize (pre ++ [c])) text ts) :
    Tiles (byteSize pre) text (⟨kind, c.toString, byteSize pre⟩ :: ts) := by
  have hterm : kind ≠ .term := by
    rintro rfl
    exact Kind.ofSign?_ne_term c hc
  have hstop : stop ⟨kind, c.toString, byteSize pre⟩ = byteSize (pre ++ [c]) := by simp [stop]
  have hplace : text.toList = pre ++ (c.toString.toList ++ cs) := by simpa using h
  refine (tiles_cons ?_).2 ⟨blankBetween_self h, ⟨?_, fun _ _ => ⟨c, rfl, hc⟩, ?_⟩, ?_, ?_⟩
  · rintro rfl
    exact Kind.ofSign?_ne_finish c hc
  · exact exists_place hplace rfl
  · exact fun he => absurd he hterm
  · exact fun _ _ he => absurd he hterm
  · rwa [hstop]

theorem Tiles.cons_term {s : String} (hs : IsTerm s) (h : text.toList = pre ++ (s.toList ++ cs))
    (hnext : ∀ u ∈ ts.head?, u.kind ≠ .term) (hts : Tiles (byteSize (pre ++ s.toList)) text ts) :
    Tiles (byteSize pre) text (⟨.term, s, byteSize pre⟩ :: ts) := by
  have hstop : stop ⟨.term, s, byteSize pre⟩ = byteSize (pre ++ s.toList) := by
    rw [byteSize_append, byteSize_toList]
    rfl
  refine (tiles_cons (by rintro ⟨⟩)).2
    ⟨blankBetween_self h, ⟨exists_place h rfl, ?_, fun _ => hs⟩, fun u hu _ => hnext u hu, ?_⟩
  · exact fun he => absurd rfl he
  · rwa [hstop]

theorem Tiles.skip {m : Nat} (h : Tiles m text ts) (hb : BlankBetween text n m) :
    Tiles n text ts :=
  { h with first := fun t ht => hb.trans (h.first t ht) }

end Steps

/-! ## What is scanned -/

/-- A term can stand before a text exactly when no term is found there first. -/
theorem stops_iff (n m : Nat) (cs : List Char) :
    Stops cs ↔ ∀ t ∈ (scanFrom n cs ++ [finish m]).head?, t.kind ≠ .term := by
  fun_induction scanFrom n cs with
  | case1 n =>
    refine iff_of_true stops_nil ?_
    rintro _ ⟨⟩ hterm
    cases hterm
  | case2 n c cs kind hkind ih =>
    refine iff_of_true (stops_sign hkind cs) ?_
    rintro _ ⟨⟩ rfl
    exact Kind.ofSign?_ne_term c hkind
  | case3 n c cs hkind hb ih =>
    have hplain : isPlain c = true := Option.isNone_iff_eq_none.2 hkind
    rw [← ih]
    unfold Stops
    rw [List.takeWhile_cons_of_pos hplain, List.forall_mem_cons, and_iff_right hb]
  | case4 n c cs hkind hb run ih =>
    have hplain : isPlain c = true := Option.isNone_iff_eq_none.2 hkind
    refine iff_of_false (fun h => hb (h c ?_)) fun h => h _ rfl rfl
    rw [List.takeWhile_cons_of_pos hplain]
    exact List.mem_cons_self

theorem stops_dropWhile (cs : List Char) : Stops (cs.dropWhile isPlain) := by
  have hhead := List.head?_dropWhile_not isPlain cs
  cases h : cs.dropWhile isPlain with
  | nil => exact stops_nil
  | cons c ds =>
    rw [h] at hhead
    unfold Stops
    rw [List.takeWhile_cons_of_neg (by simpa using hhead)]
    exact List.forall_mem_nil _

/-- What is scanned from some byte on tiles the text from this byte on. -/
theorem tiles_scanFrom {text : String} (n : Nat) (cs : List Char) :
    ∀ pre, text.toList = pre ++ cs → n = byteSize pre →
      Tiles n text (scanFrom n cs ++ [finish text.utf8ByteSize]) := by
  fun_induction scanFrom n cs with
  | case1 n =>
    rintro pre hpre rfl
    have hend : text.utf8ByteSize = byteSize pre := by
      rw [← byteSize_toList, hpre, List.append_nil]
    refine tiles_finish ?_
    rw [hend]
    exact blankBetween_self hpre
  | case2 n c cs kind hkind ih =>
    rintro pre hpre rfl
    exact Tiles.cons_sign hkind hpre (by simpa using ih (pre ++ [c]) (by simpa using hpre))
  | case3 n c cs hkind hb ih =>
    rintro pre hpre rfl
    have hblank : BlankBetween text (byteSize pre) (byteSize (pre ++ [c])) :=
      blankBetween_of_append hpre (List.forall_mem_singleton.2 hb)
    have hnext := ih (pre ++ [c]) (by simpa using hpre) (by simp)
    refine hnext.skip ?_
    simpa using hblank
  | case4 n c cs hkind hb run ih =>
    rintro pre hpre rfl
    have hrun : text.toList = pre ++ (run ++ cs.dropWhile isPlain) := by
      simp [hpre, run, List.takeWhile_append_dropWhile]
    have hterm : IsTerm (String.ofList (trimEnd run)) := isTerm_run hkind (by simpa using hb) cs
    have hnext := ih (pre ++ run) (by rw [hrun, List.append_assoc]) (byteSize_append _ _).symm
    have hcut : text.toList = pre ++ ((String.ofList (trimEnd run)).toList
        ++ (run.rtakeWhile isBlank ++ cs.dropWhile isPlain)) := by
      rw [String.toList_ofList, ← List.append_assoc (trimEnd run), trimEnd_eq_rdropWhile,
        List.rdropWhile_append_rtakeWhile, hrun]
    -- the blanks that end the run are skipped behind the term
    refine Tiles.cons_term hterm hcut ?_ (hnext.skip ?_)
    · exact (stops_iff _ _ _).1 (stops_dropWhile cs)
    · rw [String.toList_ofList, ← byteSize_append]
      exact blankBetween_trimEnd hrun

/-- Where a token stands, it is scanned. -/
theorem StandsIn.scanFrom_eq {text : String} {t : Token} {cs : List Char} (ht : t.StandsIn text)
    (hkind : t.kind ≠ .finish) (hstops : t.kind = .term → Stops cs) :
    scanFrom t.start (t.text.toList ++ cs) = t :: scanFrom t.stop cs := by
  have hsize : byteSize t.text.toList = t.text.utf8ByteSize := byteSize_toList t.text
  obtain ⟨kind, s, n⟩ := t
  by_cases hterm : kind = .term
  · subst hterm
    have hs : IsTerm s := ht.term rfl
    rw [scanFrom_term hs n (hstops rfl), hsize]
    rfl
  · obtain ⟨c, rfl, hc⟩ := ht.sign hterm hkind
    rw [show c.toString.toList ++ cs = c :: cs by simp, scanFrom_sign hc]
    simp [stop]

/-- The tiles of a text are scanned one by one. -/
theorem Tiles.eq_scanFrom {text : String} {ts : List Token} {pre cs : List Char}
    (h : Tiles (byteSize pre) text ts) (hpre : text.toList = pre ++ cs) :
    ts = scanFrom (byteSize pre) cs ++ [Token.finish text.utf8ByteSize] := by
  induction ts generalizing pre cs with
  | nil =>
    obtain ⟨us, hus, -⟩ := h.finish
    simp at hus
  | cons t ts ih =>
    by_cases hkind : t.kind = .finish
    · obtain ⟨rfl, rfl⟩ := h.eq_finish hkind
      obtain ⟨bs, cs, rfl, hbs, hend⟩ := (h.first _ rfl).exists_append hpre
      have hcs : cs = [] := by
        refine eq_nil_of_byteSize ?_
        have hsize := congrArg byteSize hpre
        rw [byteSize_toList, ← List.append_assoc, byteSize_append] at hsize
        have hstop : byteSize (pre ++ bs) = text.utf8ByteSize := hend
        omega
      rw [hcs, List.append_nil, (scanFrom_eq_nil_iff _ _).2 hbs, List.nil_append]
    · obtain ⟨hb, ht, hnext, hts⟩ := (tiles_cons hkind).1 h
      obtain ⟨bs, cs, rfl, hbs, hstart⟩ := hb.exists_append hpre
      rw [← List.append_assoc] at hpre
      obtain ⟨cs, rfl⟩ := ht.exists_append hpre hstart.symm
      rw [← List.append_assoc] at hpre
      have hstop : t.stop = byteSize (pre ++ bs ++ t.text.toList) := by
        rw [byteSize_append, hstart, byteSize_toList]
        rfl
      have hrest := ih (hstop ▸ hts) hpre
      rw [← hstop] at hrest
      -- a term is a longest run since the tile behind it is no term
      have hstops : t.kind = .term → Stops cs := fun hterm =>
        (stops_iff _ _ _).2 fun u hu => hnext u (hrest ▸ hu) hterm
      rw [scanFrom_blank hbs, ← byteSize_append, hstart, ht.scanFrom_eq hkind hstops,
        List.cons_append, ← hrest]

/-- The tokens of a text tile it, and no other tokens do. -/
theorem tiles_iff (text : String) (ts : List Token) :
    Tiles 0 text ts ↔ ts = scan text.toList := by
  unfold scan
  rw [byteSize_toList]
  constructor
  · intro h
    have hstart : Tiles (byteSize []) text ts := h
    exact hstart.eq_scanFrom rfl
  · rintro rfl
    exact tiles_scanFrom 0 text.toList [] rfl rfl

/-- Characters and blanks can take more than one byte, and the last blank belongs to no token. -/
example : scan "é\u2003| b c ".toList
    = [⟨.term, "é", 0⟩, ⟨.disj, "|", 5⟩, ⟨.term, "b c", 7⟩, finish 11] := by cbv

end Token

end Cohort
