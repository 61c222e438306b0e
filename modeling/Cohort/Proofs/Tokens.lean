import Cohort.Formula.Token
import Mathlib.Data.List.DropRight

/-!
# Texts and their tokens

A term can stand in a text as it is where what follows it starts with a sign, blanks apart
(`Token.scanFrom_term`), and the terms that are read from a text can all stand so
(`Token.isTerm_of_mem_scanFrom`). Every token is where it says it is
(`Token.exists_place_of_mem_scan`).
-/

namespace Cohort

open Text

namespace Text

variable {cs bs : List Char}

theorem trimEnd_eq_rdropWhile (cs : List Char) : trimEnd cs = cs.rdropWhile isBlank := rfl

theorem trimEnd_append_of_blank (h : ∀ c ∈ bs, isBlank c = true) :
    trimEnd (cs ++ bs) = trimEnd cs := by
  unfold trimEnd
  rw [List.reverse_append,
    List.dropWhile_append_of_pos fun c hc => h c (List.mem_reverse.1 hc)]

theorem trimEnd_eq_self (h : ∀ c, cs.getLast? = some c → isBlank c = false) :
    trimEnd cs = cs := by
  rw [trimEnd_eq_rdropWhile, List.rdropWhile_eq_self_iff]
  intro hne
  rw [h _ (List.getLast?_eq_some_getLast hne)]
  exact Bool.false_ne_true

theorem head?_trimEnd {c : Char} (h : isBlank c = false) : (trimEnd (c :: cs)).head? = some c := by
  have hne : trimEnd (c :: cs) ≠ [] := by
    rw [trimEnd_eq_rdropWhile, Ne, List.rdropWhile_eq_nil_iff]
    intro hblank
    simpa [h] using hblank c List.mem_cons_self
  have hprefix : trimEnd (c :: cs) <+: c :: cs := List.rdropWhile_prefix _ _
  rw [List.head?_eq_some_head hne, hprefix.head hne, List.head_cons]

end Text

namespace Token.Kind

theorem ofSign?_of_isBlank {c : Char} (h : isBlank c = true) : ofSign? c = none := by
  unfold ofSign?
  split <;> first | rfl | exact absurd h (by decide)

theorem ofSign?_ne_term (c : Char) : ofSign? c ≠ some term := by
  unfold ofSign?
  split <;> nofun

theorem ofSign?_ne_finish (c : Char) : ofSign? c ≠ some finish := by
  unfold ofSign?
  split <;> nofun

end Token.Kind

/-- A text that is a term wherever it stands. -/
structure IsTerm (t : String) : Prop where
  nonempty : t ≠ ""
  plain : ∀ c ∈ t.toList, Token.isPlain c = true
  start : ∀ c, t.toList.head? = some c → isBlank c = false
  finish : ∀ c, t.toList.getLast? = some c → isBlank c = false

namespace Token

/-- What a term can stand before: blanks at most up to the next sign. -/
def Stops (cs : List Char) : Prop := ∀ c ∈ cs.takeWhile isPlain, isBlank c = true

theorem stops_nil : Stops [] := nofun

theorem stops_sign {c : Char} {kind : Kind} (h : Kind.ofSign? c = some kind)
    (cs : List Char) : Stops (c :: cs) := by
  unfold Stops
  have hc : isPlain c = false := by simp [isPlain, h]
  simp [hc]

theorem stops_separator {c : Char} {kind : Kind} (h : Kind.ofSign? c = some kind)
    (cs : List Char) : Stops ([' ', c, ' '] ++ cs) := by
  unfold Stops
  have hblank : isPlain ' ' = true := by decide
  have hc : isPlain c = false := by simp [isPlain, h]
  simp only [List.cons_append, List.takeWhile_cons, hblank, hc, if_true, Bool.false_eq_true,
    if_false, List.forall_mem_singleton]
  decide

@[simp] theorem byteSize_nil : byteSize [] = 0 := rfl

@[simp] theorem byteSize_cons (c : Char) (cs : List Char) :
    byteSize (c :: cs) = c.utf8Size + byteSize cs := rfl

@[simp] theorem byteSize_append (cs ds : List Char) :
    byteSize (cs ++ ds) = byteSize cs + byteSize ds := by
  induction cs with
  | nil => simp
  | cons c cs ih => rw [List.cons_append, byteSize_cons, byteSize_cons, ih, Nat.add_assoc]

theorem byteSize_eq_utf8ByteSize (cs : List Char) :
    byteSize cs = (String.ofList cs).utf8ByteSize := by
  induction cs with
  | nil => rfl
  | cons c cs ih =>
    rw [String.ofList_cons, String.utf8ByteSize_append, byteSize_cons, ih]
    simp

@[simp] theorem scanFrom_nil (n : Nat) : scanFrom n [] = [] := by
  rw [scanFrom]

theorem scanFrom_sign {c : Char} {kind : Kind} (h : Kind.ofSign? c = some kind) (n : Nat)
    (cs : List Char) :
    scanFrom n (c :: cs) = ⟨kind, c.toString, n⟩ :: scanFrom (n + c.utf8Size) cs := by
  rw [scanFrom, h]

theorem scanFrom_blank {bs : List Char} (h : ∀ c ∈ bs, isBlank c = true) (n : Nat)
    (cs : List Char) : scanFrom n (bs ++ cs) = scanFrom (n + byteSize bs) cs := by
  induction bs generalizing n with
  | nil => rfl
  | cons b bs ih =>
    obtain ⟨hb, hbs⟩ := List.forall_mem_cons.1 h
    rw [List.cons_append, scanFrom, Kind.ofSign?_of_isBlank hb]
    simp only [hb, if_true]
    rw [ih hbs, byteSize_cons, Nat.add_assoc]

theorem scanFrom_separator {c : Char} {kind : Kind} (h : Kind.ofSign? c = some kind) (n : Nat)
    (cs : List Char) : scanFrom n ([' ', c, ' '] ++ cs)
      = ⟨kind, c.toString, n + byteSize [' ']⟩ :: scanFrom (n + byteSize [' ', c, ' ']) cs := by
  have hblank : ∀ c ∈ [' '], isBlank c = true := List.forall_mem_singleton.2 (by decide)
  have hfirst := scanFrom_blank hblank n (c :: ' ' :: cs)
  have hlast := scanFrom_blank hblank (n + byteSize [' '] + c.utf8Size) cs
  simp only [List.cons_append, List.nil_append] at hfirst hlast ⊢
  rw [hfirst, scanFrom_sign h, hlast]
  simp [Nat.add_assoc]

theorem scanFrom_run {c : Char} (hc : isPlain c = true) (hb : isBlank c = false) (n : Nat)
    (cs : List Char) : scanFrom n (c :: cs)
      = ⟨.term, String.ofList (trimEnd (c :: cs.takeWhile isPlain)), n⟩
        :: scanFrom (n + byteSize (c :: cs.takeWhile isPlain)) (cs.dropWhile isPlain) := by
  have hsign : Kind.ofSign? c = none := Option.isNone_iff_eq_none.1 hc
  rw [scanFrom, hsign]
  simp [hb]

theorem scanFrom_term {t : String} (ht : IsTerm t) (n : Nat) {cs : List Char} (hcs : Stops cs) :
    scanFrom n (t.toList ++ cs) = ⟨.term, t, n⟩ :: scanFrom (n + byteSize t.toList) cs := by
  have hne : t.toList ≠ [] := by simpa using ht.nonempty
  have hplain := ht.plain
  have hstart := ht.start
  have hfinish := ht.finish
  have hofList : t = String.ofList t.toList := by simp
  cases hl : t.toList with
  | nil => contradiction
  | cons c ds =>
    rw [hl] at hplain hstart hfinish hofList
    obtain ⟨hc, hds⟩ := List.forall_mem_cons.1 hplain
    have hrun : c :: (ds ++ cs).takeWhile isPlain = (c :: ds) ++ cs.takeWhile isPlain := by
      rw [List.takeWhile_append_of_pos hds, List.cons_append]
    -- the blanks that the run takes in would be skipped anyway
    have hrest : scanFrom (n + byteSize (c :: ds)) cs
        = scanFrom (n + byteSize ((c :: ds) ++ cs.takeWhile isPlain)) (cs.dropWhile isPlain) := by
      conv_lhs => rw [← List.takeWhile_append_dropWhile (p := isPlain) (l := cs)]
      rw [scanFrom_blank hcs, byteSize_append, Nat.add_assoc]
    rw [List.cons_append, scanFrom_run hc (hstart c rfl), hrun, trimEnd_append_of_blank hcs,
      trimEnd_eq_self hfinish, List.dropWhile_append_of_pos hds, ← hofList, hrest]

theorem isTerm_run {c : Char} (hc : Kind.ofSign? c = none) (hb : isBlank c = false)
    (cs : List Char) : IsTerm (String.ofList (trimEnd (c :: cs.takeWhile isPlain))) := by
  have hrun : ∀ d ∈ c :: cs.takeWhile isPlain, isPlain d = true :=
    List.forall_mem_cons.2 ⟨Option.isNone_iff_eq_none.2 hc, fun d hd => List.mem_takeWhile_imp hd⟩
  have hhead : (trimEnd (c :: cs.takeWhile isPlain)).head? = some c := head?_trimEnd hb
  refine ⟨?_, ?_, ?_, ?_⟩
  · intro he
    rw [← String.toList_inj, String.toList_ofList] at he
    rw [he] at hhead
    exact nomatch hhead
  · rw [String.toList_ofList]
    exact fun d hd => hrun d ((List.rdropWhile_prefix isBlank _).subset hd)
  · rw [String.toList_ofList, hhead]
    rintro _ ⟨⟩
    exact hb
  · rw [String.toList_ofList]
    exact fun d hd => getLast?_trimEnd hd

theorem isTerm_of_mem_scanFrom (n : Nat) (cs : List Char) :
    ∀ t ∈ scanFrom n cs, t.kind = .term → IsTerm t.text := by
  fun_induction scanFrom n cs with
  | case1 n => nofun
  | case2 n c cs kind hkind ih =>
    intro t ht hterm
    rcases List.mem_cons.1 ht with rfl | ht
    · exact absurd (hterm ▸ hkind) (Kind.ofSign?_ne_term c)
    · exact ih t ht hterm
  | case3 n c cs hkind hb ih => exact ih
  | case4 n c cs hkind hb run ih =>
    intro t ht hterm
    rcases List.mem_cons.1 ht with rfl | ht
    · exact isTerm_run hkind (by simpa using hb) cs
    · exact ih t ht hterm

/-- Blanks alone have no tokens, and other characters have some. -/
theorem scanFrom_eq_nil_iff (n : Nat) (cs : List Char) :
    scanFrom n cs = [] ↔ ∀ c ∈ cs, isBlank c = true := by
  fun_induction scanFrom n cs with
  | case1 n => simp
  | case2 n c cs kind hkind ih =>
    refine iff_of_false (List.cons_ne_nil _ _) fun h => ?_
    exact nomatch hkind.symm.trans (Kind.ofSign?_of_isBlank (h c List.mem_cons_self))
  | case3 n c cs hkind hb ih => rw [ih, List.forall_mem_cons, and_iff_right hb]
  | case4 n c cs hkind hb run ih =>
    exact iff_of_false (List.cons_ne_nil _ _) fun h => hb (h c List.mem_cons_self)

theorem kind_ne_finish_of_mem_scanFrom (n : Nat) (cs : List Char) :
    ∀ t ∈ scanFrom n cs, t.kind ≠ .finish := by
  fun_induction scanFrom n cs with
  | case1 n => nofun
  | case2 n c cs kind hkind ih =>
    refine List.forall_mem_cons.2 ⟨?_, ih⟩
    rintro rfl
    exact Kind.ofSign?_ne_finish c hkind
  | case3 n c cs hkind hb ih => exact ih
  | case4 n c cs hkind hb run ih => exact List.forall_mem_cons.2 ⟨nofun, ih⟩

/-- A token stands in the text, after as many bytes as it says. -/
theorem exists_place_of_mem_scanFrom (n : Nat) (cs : List Char) : ∀ t ∈ scanFrom n cs,
    ∃ before rest, cs = before ++ rest ∧ t.start = n + byteSize before
      ∧ t.text.toList <+: rest := by
  have skip : ∀ {n : Nat} {t : Token} (bs : List Char) {cs : List Char},
      (∃ before rest, cs = before ++ rest ∧ t.start = n + byteSize bs + byteSize before
        ∧ t.text.toList <+: rest) →
      ∃ before rest, bs ++ cs = before ++ rest ∧ t.start = n + byteSize before
        ∧ t.text.toList <+: rest := by
    rintro n t bs _ ⟨before, rest, rfl, hstart, htext⟩
    exact ⟨bs ++ before, rest, by simp, by simp [hstart, Nat.add_assoc], htext⟩
  fun_induction scanFrom n cs with
  | case1 n => nofun
  | case2 n c cs kind hkind ih =>
    refine List.forall_mem_cons.2 ⟨⟨[], c :: cs, rfl, rfl, ?_⟩, fun t ht => skip [c] (ih t ht)⟩
    simp
  | case3 n c cs hkind hb ih => exact fun t ht => skip [c] (ih t ht)
  | case4 n c cs hkind hb run ih =>
    have hrun : c :: cs = run ++ cs.dropWhile isPlain := by
      simp [run, List.takeWhile_append_dropWhile]
    rw [hrun]
    refine List.forall_mem_cons.2 ⟨⟨[], _, rfl, rfl, ?_⟩, fun t ht => skip run (ih t ht)⟩
    rw [String.toList_ofList]
    exact (List.rdropWhile_prefix isBlank run).trans (List.prefix_append _ _)

theorem exists_place_of_mem_scan (cs : List Char) : ∀ t ∈ scan cs,
    ∃ before rest, cs = before ++ rest ∧ t.start = byteSize before ∧ t.text.toList <+: rest := by
  refine List.forall_mem_append.2 ⟨fun t ht => ?_, List.forall_mem_singleton.2 ?_⟩
  · simpa using exists_place_of_mem_scanFrom 0 cs t ht
  · exact ⟨cs, [], by simp, rfl, List.prefix_rfl⟩

end Token

end Cohort
