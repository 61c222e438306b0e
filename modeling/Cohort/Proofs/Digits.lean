import Cohort.Layout.Basic
import Mathlib.Data.List.Forall2
import Mathlib.Tactic.Ring

/-!
# The digits of a group

When each digit weighs what the radices of the earlier ones multiply to, values below the radices
and numbers below the whole product determine each other: the values of a number add up to it
(`offset_values`), and a number that values add up to has these values (`values_offset`).
-/

namespace Cohort

namespace Digit

/-- Each digit weighs what the first weight and the radices before it multiply to; all of them
together multiply to a last number. -/
def Weighted : Nat → List Digit → Nat → Prop
  | w, [], count => count = w
  | w, d :: ds, count => d.weight = w ∧ 0 < d.radix ∧ Weighted (w * d.radix) ds count

/-- Every digit has a value, which is below its radix. -/
def Fit (ds : List Digit) (vs : List Nat) : Prop := List.Forall₂ (fun d v => v < d.radix) ds vs

/-- What values of digits add up to. -/
def offset : List Digit → List Nat → Nat
  | d :: ds, v :: vs => v * d.weight + offset ds vs
  | _, _ => 0

/-- The values of digits in a number. -/
def values (ds : List Digit) (n : Nat) : List Nat := ds.map fun d => n / d.weight % d.radix

theorem Weighted.snoc {f r count : Nat} (hr : 0 < r) : ∀ {w : Nat} {ds : List Digit},
    Weighted w ds count → Weighted w (ds ++ [⟨f, r, count⟩]) (count * r)
  | w, [], h => by
    unfold Weighted at h
    subst h
    exact ⟨rfl, hr, rfl⟩
  | w, d :: ds, h => by
    obtain ⟨hw, hd, hds⟩ := h
    exact ⟨hw, hd, hds.snoc hr⟩

theorem Weighted.radix_pos {count : Nat} : ∀ {w : Nat} {ds : List Digit}, Weighted w ds count →
    ∀ d ∈ ds, 0 < d.radix
  | w, d :: ds, h, c, hc => by
    rcases List.mem_cons.1 hc with rfl | hc
    · exact h.2.1
    · exact h.2.2.radix_pos c hc

theorem fit_values {ds : List Digit} (h : ∀ d ∈ ds, 0 < d.radix) (n : Nat) :
    Fit ds (values ds n) := by
  unfold Fit values
  rw [List.forall₂_map_right_iff, List.forall₂_same]
  exact fun d hd => Nat.mod_lt _ (h d hd)

theorem add_mul_lt {c v w r : Nat} (hc : c < w) (hv : v < r) : c + v * w < w * r := by
  calc c + v * w < w + v * w := by omega
    _ = w * (v + 1) := by ring
    _ ≤ w * r := Nat.mul_le_mul_left _ hv

/-- Below the first weight there is room for another number. -/
theorem add_offset_lt {count : Nat} : ∀ {w c : Nat} {ds : List Digit} {vs : List Nat},
    Weighted w ds count → Fit ds vs → c < w → c + offset ds vs < count
  | w, c, [], [], h, _, hc => by
    unfold Weighted at h
    simpa [offset, h] using hc
  | w, c, d :: ds, v :: vs, h, hf, hc => by
    obtain ⟨rfl, -, hds⟩ := h
    obtain ⟨hv, hvs⟩ := List.forall₂_cons.1 hf
    unfold offset
    rw [← Nat.add_assoc]
    exact add_offset_lt hds hvs (add_mul_lt hc hv)

theorem dvd_offset {count : Nat} : ∀ {w : Nat} {ds : List Digit} {vs : List Nat},
    Weighted w ds count → w ∣ offset ds vs
  | w, [], vs, h => by simp [offset]
  | w, d :: ds, [], h => by simp [offset]
  | w, d :: ds, v :: vs, h => by
    obtain ⟨rfl, -, hds⟩ := h
    unfold offset
    exact Nat.dvd_add (Nat.dvd_mul_left ..) (Nat.dvd_trans (Nat.dvd_mul_right ..) (dvd_offset hds))

/-- Values can be read off what they add up to. -/
theorem values_add_offset {count : Nat} : ∀ {w c : Nat} {ds : List Digit} {vs : List Nat},
    Weighted w ds count → Fit ds vs → c < w → values ds (c + offset ds vs) = vs
  | w, c, [], [], _, _, _ => rfl
  | w, c, d :: ds, v :: vs, h, hf, hc => by
    obtain ⟨rfl, hr, hds⟩ := h
    obtain ⟨hv, hvs⟩ := List.forall₂_cons.1 hf
    have htail := values_add_offset hds hvs (add_mul_lt hc hv)
    have hdvd : d.weight * d.radix ∣ offset ds vs := dvd_offset hds
    obtain ⟨k, hk⟩ := hdvd
    have hhead : (c + v * d.weight + offset ds vs) / d.weight % d.radix = v := by
      have hw : 0 < d.weight := by omega
      rw [hk, show c + v * d.weight + d.weight * d.radix * k = c + d.weight * (v + d.radix * k) by
        ring, Nat.add_mul_div_left _ _ hw, Nat.div_eq_of_lt hc, Nat.zero_add,
        Nat.add_mul_mod_self_left, Nat.mod_eq_of_lt hv]
    unfold values at htail ⊢
    unfold offset
    rw [← Nat.add_assoc, List.map_cons, htail, hhead]

/-- The values of a number add up to what lies above the first weight. -/
theorem mod_add_offset_values {n count : Nat} (hn : n < count) : ∀ {w : Nat} {ds : List Digit},
    Weighted w ds count → n % w + offset ds (values ds n) = n
  | w, [], h => by
    unfold Weighted at h
    subst h
    simpa [offset, values] using Nat.mod_eq_of_lt hn
  | w, d :: ds, h => by
    obtain ⟨rfl, -, hds⟩ := h
    have htail := mod_add_offset_values hn hds
    rw [Nat.mod_mul] at htail
    unfold values at htail ⊢
    rw [List.map_cons, offset, ← Nat.add_assoc, Nat.mul_comm (n / d.weight % d.radix)]
    exact htail

variable {ds : List Digit} {vs : List Nat} {count n : Nat}

theorem offset_lt (h : Weighted 1 ds count) (hf : Fit ds vs) : offset ds vs < count := by
  simpa using add_offset_lt h hf Nat.one_pos

theorem values_offset (h : Weighted 1 ds count) (hf : Fit ds vs) :
    values ds (offset ds vs) = vs := by
  simpa using values_add_offset h hf Nat.one_pos

theorem offset_values (h : Weighted 1 ds count) (hn : n < count) :
    offset ds (values ds n) = n := by
  simpa [Nat.mod_one] using mod_add_offset_values hn h

theorem offset_take_le : ∀ (j : Nat) (ds : List Digit) (vs : List Nat),
    offset (ds.take j) (vs.take j) ≤ offset ds vs
  | 0, ds, vs => by simp [offset]
  | j + 1, [], vs => by simp [offset]
  | j + 1, d :: ds, [] => by simp [offset]
  | j + 1, d :: ds, v :: vs => Nat.add_le_add_left (offset_take_le j ds vs) _

theorem offset_add (u v : Digit → Nat) :
    offset ds (ds.map fun d => u d + v d) = offset ds (ds.map u) + offset ds (ds.map v) := by
  induction ds with
  | nil => rfl
  | cons d ds ih =>
    simp only [List.map_cons, offset, ih]
    ring

theorem offset_zero {v : Digit → Nat} (h : ∀ d ∈ ds, v d = 0) : offset ds (ds.map v) = 0 := by
  induction ds with
  | nil => rfl
  | cons d ds ih =>
    obtain ⟨hd, hds⟩ := List.forall_mem_cons.1 h
    rw [List.map_cons, offset, hd, ih hds, Nat.zero_mul]

/-- One digit's value adds its weight that many times. -/
theorem offset_single (hd : (ds.map (·.field)).Nodup) (n c : Nat) :
    offset ds (ds.map fun d => if d.field = n then c else 0)
      = c * ((ds.find? (·.field = n)).map (·.weight)).getD 0 := by
  induction ds with
  | nil => rfl
  | cons d ds ih =>
    rw [List.map_cons, List.nodup_cons] at hd
    rw [List.map_cons, offset, List.find?_cons]
    by_cases h : d.field = n
    · have hrest : ∀ k ∈ ds, (if k.field = n then c else 0) = 0 := by
        intro k hk
        refine if_neg fun hkn => hd.1 ?_
        rw [h, ← hkn]
        exact List.mem_map_of_mem hk
      rw [offset_zero hrest]
      simp [h]
    · rw [ih hd.2]
      simp [h]

end Digit

end Cohort
