import Mathlib.Data.Nat.Digits.Defs
import Mathlib.Data.Nat.ModEq
import Mathlib.Tactic.Ring

/-!
# Ones' complement sums

A sum with end-around carries is known modulo `m`, where `m` is one less than the number of
words. There are two zeros then, 0 and `m`, and only a sum of nothing but zeros is 0. A list
of digits to a base `b` has the same sum as the number that it represents, where a word
is two digits and `m = b * b - 1`.
-/

namespace OnesComplement

/-- Two sums are the same number, with the two zeros kept apart. -/
structure Same (m u v : ℕ) : Prop where
  modEq : u ≡ v [MOD m]
  zero_iff : u = 0 ↔ v = 0

section

variable {m u v w u' v' : ℕ}

/-- A number is the same as itself. -/
theorem Same.refl (u : ℕ) : Same m u u := ⟨Nat.ModEq.refl u, Iff.rfl⟩

/-- The relation is symmetric. -/
theorem Same.symm (h : Same m u v) : Same m v u := ⟨h.modEq.symm, h.zero_iff.symm⟩

/-- The relation is transitive. -/
theorem Same.trans (h : Same m u v) (h' : Same m v w) : Same m u w :=
  ⟨h.modEq.trans h'.modEq, h.zero_iff.trans h'.zero_iff⟩

/-- Sums of the same numbers are the same. -/
theorem Same.add (h : Same m u v) (h' : Same m u' v') : Same m (u + u') (v + v') := by
  refine ⟨h.modEq.add h'.modEq, ?_⟩
  rw [Nat.add_eq_zero_iff, Nat.add_eq_zero_iff, h.zero_iff, h'.zero_iff]

/-- Multiples of the same numbers are the same. -/
theorem Same.mul_left (h : Same m u v) (k : ℕ) : Same m (k * u) (k * v) := by
  refine ⟨h.modEq.mul_left k, ?_⟩
  rw [Nat.mul_eq_zero, Nat.mul_eq_zero, h.zero_iff]

/-- A modulus may be replaced by one of its divisors. -/
theorem Same.of_dvd {k : ℕ} (h : Same m u v) (hdvd : k ∣ m) : Same k u v :=
  ⟨h.modEq.of_dvd hdvd, h.zero_iff⟩

/-- There is one representative up to `m`. -/
theorem Same.eq (h : Same m u v) (hu : u ≤ m) (hv : v ≤ m) : u = v := by
  rcases Nat.lt_or_ge u m with hu' | hu'
  · rcases Nat.lt_or_ge v m with hv' | hv'
    · exact Nat.ModEq.eq_of_lt_of_lt h.modEq hu' hv'
    · have hmod : u = 0 := by
        have hmod := h.modEq
        rwa [Nat.le_antisymm hv hv', Nat.ModEq, Nat.mod_self, Nat.mod_eq_of_lt hu'] at hmod
      rw [hmod, h.zero_iff.mp hmod]
  · have hu : u = m := Nat.le_antisymm hu hu'
    rcases Nat.lt_or_ge v m with hv' | hv'
    · have hmod : v = 0 := by
        have hmod := h.modEq.symm
        rwa [hu, Nat.ModEq, Nat.mod_self, Nat.mod_eq_of_lt hv'] at hmod
      rw [hmod, h.zero_iff.mpr hmod]
    · rw [hu, Nat.le_antisymm hv hv']

/-- There are two zeros, and else one number for each sum. -/
theorem modEq_iff_of_le (hu : u ≤ m) (hv : v ≤ m) :
    u ≡ v [MOD m] ↔ u = v ∨ u = 0 ∧ v = m ∨ u = m ∧ v = 0 := by
  constructor
  · intro h
    by_cases hzero : u = 0 ↔ v = 0
    · exact Or.inl (Same.eq ⟨h, hzero⟩ hu hv)
    · right
      by_cases hu' : u = 0
      · have hv' : v ≠ 0 := fun hv' => hzero (iff_of_true hu' hv')
        rw [hu'] at h
        exact Or.inl ⟨hu', Nat.le_antisymm hv
          (Nat.le_of_dvd (Nat.pos_of_ne_zero hv') (Nat.modEq_zero_iff_dvd.mp h.symm))⟩
      · have hv' : v = 0 := by
          by_contra hne
          exact hzero (iff_of_false hu' hne)
        rw [hv'] at h
        exact Or.inr ⟨Nat.le_antisymm hu
          (Nat.le_of_dvd (Nat.pos_of_ne_zero hu') (Nat.modEq_zero_iff_dvd.mp h)), hv'⟩
  · have hself : m ≡ 0 [MOD m] := Nat.modEq_zero_iff_dvd.mpr (dvd_refl m)
    rintro (rfl | ⟨rfl, rfl⟩ | ⟨rfl, rfl⟩)
    · exact Nat.ModEq.refl u
    · exact hself.symm
    · exact hself

/-- Being a zero that is not 0. -/
theorem Same.dvd_iff (h : Same m u v) : m ∣ u ∧ u ≠ 0 ↔ m ∣ v ∧ v ≠ 0 :=
  and_congr (h.modEq.dvd_iff (dvd_refl m)) (not_congr h.zero_iff)

/-- A sum up to `m` is the second zero if it stands for a zero that is not 0. -/
theorem Same.eq_modulus_iff (h : Same m u v) (hu : u ≤ m) (hm : 0 < m) :
    u = m ↔ m ∣ v ∧ v ≠ 0 := by
  constructor
  · rintro rfl
    refine ⟨(Nat.modEq_zero_iff_dvd.mp (h.modEq.symm.trans ?_)), fun hv => ?_⟩
    · rw [Nat.ModEq, Nat.mod_self, Nat.zero_mod]
    · have := h.zero_iff.mpr hv
      omega
  · rintro ⟨hdvd, hne⟩
    have hself : m ≡ 0 [MOD m] := Nat.modEq_zero_iff_dvd.mpr (dvd_refl m)
    have hsame : Same m u m := by
      refine ⟨(h.modEq.trans (Nat.modEq_zero_iff_dvd.mpr hdvd)).trans hself.symm, ?_⟩
      exact iff_of_false (fun hzero => hne (h.zero_iff.mp hzero)) (by omega)
    exact hsame.eq hu (Nat.le_refl m)

end

/-- A word above the carry is added to the word below it. -/
theorem same_fold {b : ℕ} (hb : 0 < b) (u : ℕ) : Same (b - 1) (u / b + u % b) u := by
  have hdiv := Nat.div_add_mod u b
  have hbase : b ≡ 1 [MOD b - 1] := (Nat.modEq_iff_dvd' hb).mpr (dvd_refl _) |>.symm
  constructor
  · have h : 1 * (u / b) + u % b ≡ b * (u / b) + u % b [MOD b - 1] :=
      (hbase.symm.mul_right _).add_right _
    rwa [Nat.one_mul, hdiv] at h
  · constructor
    · intro h
      obtain ⟨hhigh, hlow⟩ := Nat.add_eq_zero_iff.mp h
      rw [← hdiv, hhigh, hlow, Nat.mul_zero]
    · rintro rfl
      rw [Nat.zero_div, Nat.zero_mod]

section

variable {b : ℕ}

/-- Two digits to the left are no digits to the left. -/
theorem base_mul_base_modEq (hb : 0 < b) : b * b ≡ 1 [MOD b * b - 1] :=
  ((Nat.modEq_iff_dvd' (Nat.mul_pos hb hb)).mpr (dvd_refl _)).symm

/-- Two shifts by a digit change nothing. -/
theorem same_mul_mul (hb : 0 < b) (u : ℕ) : Same (b * b - 1) (b * (b * u)) u := by
  refine ⟨?_, ?_⟩
  · have h := (base_mul_base_modEq hb).mul_right u
    rwa [Nat.one_mul, Nat.mul_assoc] at h
  · rw [Nat.mul_eq_zero, Nat.mul_eq_zero]
    omega

/-- An even number of digits to the left is none, and an odd number is one. -/
theorem same_pow_mul (hb : 0 < b) (k u : ℕ) : Same (b * b - 1) (b ^ k * u) (b ^ (k % 2) * u) := by
  induction k using Nat.strong_induction_on with
  | _ k ih =>
    by_cases hk : k < 2
    · rw [Nat.mod_eq_of_lt hk]
      exact Same.refl _
    · obtain ⟨j, rfl⟩ := Nat.exists_eq_add_of_le' (Nat.le_of_not_lt hk)
      have hpow : b ^ (j + 2) * u = b * (b * (b ^ j * u)) := by ring
      rw [hpow, Nat.add_mod_right]
      exact (same_mul_mul hb _).trans (ih j (Nat.lt_add_of_pos_right Nat.zero_lt_two))

/-- Exchanging the digits of a word moves it to the left by a digit. -/
theorem same_swap (hb : 0 < b) (w : ℕ) : Same (b * b - 1) (w % b * b + w / b) (b * w) := by
  have hdiv := Nat.div_add_mod w b
  have hproduct : b * w = b * (b * (w / b)) + w % b * b := by
    rw [Nat.mul_comm (w % b) b, ← Nat.mul_add, hdiv]
  rw [hproduct, Nat.add_comm (w % b * b)]
  exact (same_mul_mul hb _).symm.add (Same.refl _)

/-- The first word, and the rest of the digits. -/
theorem same_ofDigits_cons_cons (hb : 0 < b) (x y : ℕ) (digits : List ℕ) :
    Same (b * b - 1) (Nat.ofDigits b (x :: y :: digits)) (x + b * y + Nat.ofDigits b digits) := by
  rw [Nat.ofDigits_cons, Nat.ofDigits_cons, Nat.mul_add, ← Nat.add_assoc]
  exact (Same.refl _).add (same_mul_mul hb _)

/-- A base and its modulus have no common divisor. -/
theorem gcd_modulus_pow (hb : 0 < b) (k : ℕ) : Nat.gcd (b * b - 1) (b ^ k) = 1 := by
  apply Nat.Coprime.pow_right
  have hone : b * b - (b * b - 1) = 1 := by
    have := Nat.mul_pos hb hb
    omega
  have hdvd := Nat.dvd_sub ((Nat.gcd_dvd_right (b * b - 1) b).mul_right b)
    (Nat.gcd_dvd_left (b * b - 1) b)
  rw [hone] at hdvd
  exact Nat.dvd_one.mp hdvd

/-- Other digits in the same places leave the number the same if they are the same. -/
theorem ofDigits_change_iff (hb : 0 < b) {before after change change' : List ℕ}
    (hlength : change'.length = change.length) :
    Nat.ofDigits b (before ++ change ++ after) ≡ Nat.ofDigits b (before ++ change' ++ after)
        [MOD b * b - 1] ↔
      Nat.ofDigits b change ≡ Nat.ofDigits b change' [MOD b * b - 1] := by
  rw [List.append_assoc, List.append_assoc, Nat.ofDigits_append, Nat.ofDigits_append,
    Nat.ofDigits_append, Nat.ofDigits_append, hlength]
  constructor
  · intro h
    have hbehind := Nat.ModEq.add_left_cancel' _ h
    have hsum := Nat.ModEq.cancel_left_of_coprime (gcd_modulus_pow hb _) hbehind
    exact Nat.ModEq.add_right_cancel' _ hsum
  · intro h
    exact ((h.add_right _).mul_left _).add_left _

end

end OnesComplement
